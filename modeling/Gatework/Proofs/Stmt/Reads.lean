import Gatework.Proofs.Expr.Dependence
import Gatework.Proofs.Stmt.MustWrites

/-
  What a run of a statement depends on.

  The signals that count as read are those of right-hand
  sides, conditions and selectors. A write to some bits of a
  signal keeps the other bits, so it also depends on the
  value the signal had, unless an earlier write has hidden
  that value. Filling open branches depends on the values
  that are held. A run depends on nothing else.

  Key definitions include:
    * `Stmt.Patches`, a run that comes to a partial write of a
      signal not written before

  Key theorems include:
    * `Assign.exec_of_agree`
    * `Stmt.run_of_agree`
    * `Stmt.exec_depends_on_reads`
-/

------------------------------------------------------------
-- Expressions
------------------------------------------------------------

namespace Gatework

namespace Expr

variable {ρ ρ' : Valuation}

/- What is written hides the same values on both sides. -/
theorem eval_onTop_congr
    {e : Expr}
    (hAgree : ∀ v ∈ e.occurrences, ρ v.name = ρ' v.name)
    (w : Written) :
    e.eval (w.onTop ρ) = e.eval (w.onTop ρ') := by
  apply eval_congr
  intro v hv
  rw [Written.onTop, Written.onTop, hAgree v hv]

end Expr

end Gatework

------------------------------------------------------------
-- Single writes
------------------------------------------------------------

namespace Gatework

/- A field of all bits leaves nothing of the old number. -/
theorem replaceBits_all
    {width : Nat}
    (hWidth : width ≤ maxWidth)
    (old old' value : Nat) :
    replaceBits old 0 width value &&& mask width =
      replaceBits old' 0 width value &&& mask width := by
  apply eq_of_bits_lt (and_mask_lt hWidth _) (and_mask_lt hWidth _)
  intro i hi
  rw [testBit_and_mask hWidth hi, testBit_and_mask hWidth hi,
    testBit_replaceBits hWidth, testBit_replaceBits hWidth,
    if_pos (by omega), if_pos (by omega)]

namespace Assign

variable {ρ ρ' : Valuation}

/-
  An assignment depends on what its value reads and, if it
  leaves bits of a signal not written yet, on that signal.
-/
theorem exec_of_agree
    {Γ : Var → Prop}
    {a : Assign}
    (hTarget : a.target.toExpr.Typed Γ)
    (hReads : ∀ v ∈ a.value.occurrences, ρ v.name = ρ' v.name)
    {w : Written}
    (hOld : a.target.width < a.var.width →
      w.contains a.var.name = false →
      ρ a.var.name = ρ' a.var.name) :
    a.exec ρ w = a.exec ρ' w := by
  unfold exec
  rw [Expr.eval_onTop_congr hReads w]
  by_cases hPartial : a.target.width < a.var.width
  · have hTop : w.onTop ρ a.var.name = w.onTop ρ' a.var.name := by
      unfold Written.onTop
      cases hFound : w.find? a.var.name with
      | some x => rfl
      | none =>
          rw [hOld hPartial (by rw [NameMap.contains, hFound]; rfl)]
    rw [hTop]
  · -- The field is as wide as the signal it lies in.
    have hInside : a.target.low + a.target.width ≤ a.var.width :=
      Target.low_add_width_le hTarget
    have hLow : a.target.low = 0 := by
      omega
    have hWidth : a.target.width = a.var.width := by
      omega
    have hMax : a.var.width ≤ maxWidth :=
      hWidth ▸ Target.width_le hTarget
    rw [hLow, hWidth]
    cases a.value.eval (w.onTop ρ') with
    | error u => rfl
    | ok value =>
        rw [ok_bind, ok_bind]
        exact congrArg
          (fun new => Except.ok (NameMap.insert w a.var.name new))
          (replaceBits_all hMax _ _ value)

end Assign

end Gatework

------------------------------------------------------------
-- Runs
------------------------------------------------------------

namespace Gatework

namespace Stmt

/-
  A run that starts with some values written comes to a write
  that leaves bits of a signal which has not been written.
-/
inductive Patches
    (ρ : Valuation)
    (p : Fallback) :
    Written → Stmt → String → Prop where
  | here {w a} :
      a.target.width < a.var.width →
      w.contains a.var.name = false →
      Patches ρ p w (assign a) a.var.name
  | inThen {w c t value n} :
      c.eval (w.onTop ρ) = .ok value →
      value.testBit 0 = true →
      Patches ρ p w t n →
      Patches ρ p w (ifThen c t) n
  | inTrue {w c t e value n} :
      c.eval (w.onTop ρ) = .ok value →
      value.testBit 0 = true →
      Patches ρ p w t n →
      Patches ρ p w (ifElse c t e) n
  | inFalse {w c t e value n} :
      c.eval (w.onTop ρ) = .ok value →
      value.testBit 0 = false →
      Patches ρ p w e n →
      Patches ρ p w (ifElse c t e) n
  | inArm {w selector arms value arm n} :
      selector.eval (w.onTop ρ) = .ok value →
      Arm.first? (isHit selector.width value) arms = some arm →
      Patches ρ p w arm.body n →
      Patches ρ p w (case selector arms) n
  | inFirst {w s ss n} :
      Patches ρ p w s n →
      Patches ρ p w (block (s :: ss)) n
  | inRest {w w' s ss n} :
      run ρ p w s = .ok w' →
      Patches ρ p w' (block ss) n →
      Patches ρ p w (block (s :: ss)) n

variable {ρ ρ' : Valuation}
variable {p : Fallback}
variable {w : Written}

/- Only a value that is held matters to the fallback. -/
theorem applyFallback_congr
    {names : List String}
    (hHeld : p = .hold → ∀ n ∈ names, ρ n = ρ' n)
    (w : Written) :
    applyFallback ρ p names w = applyFallback ρ' p names w := by
  induction names generalizing w with
  | nil => rfl
  | cons name names ih =>
      have hTail : ∀ w, applyFallback ρ p names w =
          applyFallback ρ' p names w :=
        ih (fun hp n hn => hHeld hp n (List.mem_cons_of_mem _ hn))
      rw [applyFallback.eq_def, applyFallback.eq_def]
      simp only [hTail]
      cases p with
      | zero => rfl
      | hold => rw [hHeld rfl name (List.mem_cons_self ..)]

/-
  Two runs from the same written values are equal if they
  start from the same values of what is read, of what is
  written if values are held, and else of what the first run
  patches.
-/
theorem run_of_agree
    {Γ : Var → Prop}
    {s : Stmt}
    (hTyped : s.Typed Γ)
    (hReads : ∀ v ∈ s.readings, ρ v.name = ρ' v.name)
    (hHeld : p = .hold → ∀ n ∈ s.writes.names, ρ n = ρ' n)
    (hPatched : p = .zero →
      ∀ n, Patches ρ p w s n → ρ n = ρ' n) :
    run ρ p w s = run ρ' p w s := by
  induction s generalizing w with
  | assign a =>
      apply Assign.exec_of_agree hTyped.1 hReads
      intro hPartial hOpen
      cases p with
      | zero => exact hPatched rfl _ (.here hPartial hOpen)
      | hold => exact hHeld rfl _ (List.mem_singleton.mpr rfl)
  | ifThen c t ih =>
      simp only [readings, List.mem_append] at hReads
      rw [run, run,
        Expr.eval_onTop_congr (fun v hv => hReads v (Or.inl hv)) w]
      cases hCond : c.eval (w.onTop ρ') with
      | error u => rfl
      | ok value =>
          rw [← Expr.eval_onTop_congr
            (fun v hv => hReads v (Or.inl hv)) w] at hCond
          rw [ok_bind, ok_bind]
          split
          case isTrue hBit =>
              exact ih hTyped.2.2
                (fun v hv => hReads v (Or.inr hv)) hHeld
                (fun hp n hn =>
                  hPatched hp n (.inThen hCond hBit hn))
          case isFalse => exact applyFallback_congr hHeld w
  | ifElse c t e iht ihe =>
      simp only [readings, List.mem_append] at hReads
      simp only [writes, VarSet.mem_names_union] at hHeld
      rw [run, run,
        Expr.eval_onTop_congr (fun v hv => hReads v (Or.inl hv)) w]
      cases hCond : c.eval (w.onTop ρ') with
      | error u => rfl
      | ok value =>
          rw [← Expr.eval_onTop_congr
            (fun v hv => hReads v (Or.inl hv)) w] at hCond
          rw [ok_bind, ok_bind]
          split
          case isTrue hBit =>
              exact iht hTyped.2.2.1
                (fun v hv => hReads v (Or.inr (Or.inl hv)))
                (fun hp n hn => hHeld hp n (Or.inl hn))
                (fun hp n hn =>
                  hPatched hp n (.inTrue hCond hBit hn))
          case isFalse hBit =>
              exact ihe hTyped.2.2.2
                (fun v hv => hReads v (Or.inr (Or.inr hv)))
                (fun hp n hn => hHeld hp n (Or.inr hn))
                (fun hp n hn => hPatched hp n
                  (.inFalse hCond (by simpa using hBit) hn))
  | case selector arms ih =>
      simp only [readings, List.mem_append, mem_readingsArms]
        at hReads
      have hSelector := Expr.eval_onTop_congr
        (fun v hv => hReads v (Or.inl hv)) w
      cases hValue : selector.eval (w.onTop ρ) with
      | error u =>
          rw [run, run, ← hSelector, hValue]
          rfl
      | ok value =>
          rw [run_case hValue, run_case (hSelector ▸ hValue)]
          cases hFirst :
              Arm.first? (isHit selector.width value) arms with
          | none => exact applyFallback_congr hHeld w
          | some arm =>
              have hArm := Arm.mem_of_first? hFirst
              apply ih arm hArm
                (typedArms_iff.mp hTyped.2.2 arm hArm)
              · intro v hv
                exact hReads v (Or.inr ⟨arm, hArm, hv⟩)
              · intro hp n hn
                apply hHeld hp n
                rw [mem_names_writes] at hn ⊢
                rcases List.mem_map.mp hn with ⟨v, hv, rfl⟩
                exact List.mem_map_of_mem
                  (mem_targetsArms.mpr ⟨arm, hArm, hv⟩)
              · intro hp n hn
                exact hPatched hp n (.inArm hValue hFirst hn)
  | block ss ih =>
      rw [run, run]
      induction ss generalizing w with
      | nil => rfl
      | cons s ss ihRest =>
          simp only [readings, readingsAll, List.mem_append]
            at hReads
          simp only [mem_names_writes, targets, targetsAll,
            List.map_append, List.mem_append] at hHeld
          have hFirst : run ρ p w s = run ρ' p w s := by
            apply ih s (List.mem_cons_self ..) hTyped.1
            · exact fun v hv => hReads v (Or.inl hv)
            · intro hp n hn
              exact hHeld hp n
                (Or.inl ((mem_names_writes s n).mp hn))
            · exact fun hp n hn => hPatched hp n (.inFirst hn)
          rw [runAll, runAll, ← hFirst]
          cases hRun : run ρ p w s with
          | error u => rfl
          | ok w' =>
              rw [ok_bind, ok_bind]
              apply ihRest
                (fun t ht => ih t (List.mem_cons_of_mem _ ht))
                hTyped.2
              · exact fun v hv => hReads v (Or.inr hv)
              · intro hp n hn
                exact hHeld hp n (Or.inr
                  ((mem_names_writes (block ss) n).mp hn))
              · exact fun hp n hn =>
                  hPatched hp n (.inRest hRun hn)

/- The same from nothing written, for the sets of signals. -/
theorem exec_of_agree
    {s : Stmt}
    (hValid : s.validate = .ok ())
    (hReads : ∀ v ∈ s.reads, ρ v.name = ρ' v.name)
    (hHeld : p = .hold → ∀ v ∈ s.writes, ρ v.name = ρ' v.name)
    (hPatched : p = .zero →
      ∀ n, Patches ρ p NameMap.empty s n → ρ n = ρ' n) :
    s.exec ρ p = s.exec ρ' p := by
  refine run_of_agree (validate_eq_ok_iff.mp hValid) ?_ ?_ hPatched
  · intro v hv
    rcases List.mem_map.mp ((mem_names_reads s v.name).mpr
      (List.mem_map_of_mem hv)) with ⟨u, hu, hName⟩
    rw [← hName]
    exact hReads u hu
  · intro hp n hn
    rcases List.mem_map.mp hn with ⟨u, hu, rfl⟩
    exact hHeld hp u hu

/-
  Execution depends on the signals read, on the signals
  written if their values are held, and else on the signals
  that the run patches. With the fallback 0 no other signal
  matters, whatever value it has or whether it has one.
-/
theorem exec_depends_on_reads
    {s : Stmt}
    (hValid : s.validate = .ok ())
    (ρ : Valuation) :
    (∀ (ρ' : Valuation) (p : Fallback),
      (∀ v ∈ s.reads, ρ v.name = ρ' v.name) →
      (p = .hold → ∀ v ∈ s.writes, ρ v.name = ρ' v.name) →
      (p = .zero →
        ∀ n, Patches ρ p NameMap.empty s n → ρ n = ρ' n) →
      s.exec ρ p = s.exec ρ' p) ∧
    ∀ (ρ' : Valuation) (n : String),
      (∀ m, m ≠ n → ρ m = ρ' m) →
      n ∉ s.reads.names →
      ¬ Patches ρ .zero NameMap.empty s n →
      s.exec ρ .zero = s.exec ρ' .zero := by
  constructor
  · intro ρ' p hReads hHeld hPatched
    exact exec_of_agree hValid hReads hHeld hPatched
  · intro ρ' n hOthers hRead hPatch
    refine exec_of_agree hValid ?_ (fun hp => by cases hp) ?_
    · intro v hv
      apply hOthers
      rintro rfl
      exact hRead (List.mem_map_of_mem hv)
    · intro _ m hm
      apply hOthers
      rintro rfl
      exact hPatch hm

/- What an assignment patches is the signal it writes. -/
theorem patches_assign_iff
    {a : Assign}
    {n : String} :
    Patches ρ p w (assign a) n ↔
      a.var.name = n ∧ a.target.width < a.var.width ∧
        w.contains n = false := by
  constructor
  · intro hPatch
    cases hPatch with
    | here hPartial hOpen => exact ⟨rfl, hPartial, hOpen⟩
  · rintro ⟨rfl, hPartial, hOpen⟩
    exact .here hPartial hOpen

/-
  A bit of one signal is written, then all bits of another
  one and after them a bit of it.
-/
def patchedPair : Stmt :=
  let x : Expr := .var none ⟨"x", 1, false⟩
  block
    [assign ⟨.bit ⟨"y", 2, false⟩ 0, x⟩,
     assign ⟨.whole ⟨"z", 2, false⟩,
       .const none ⟨2, 2, false, none, none⟩⟩,
     assign ⟨.bit ⟨"z", 2, false⟩ 0, x⟩]

/- Values of all signals, with one to choose. -/
def pairValues
    (z : Nat) :
    Valuation :=
  fun n => some (if n = "x" then 1 else if n = "z" then z else 2)

/- The second signal has all its bits before one is written. -/
theorem not_patches_patchedPair :
    ¬ Patches (pairValues 0) .zero NameMap.empty
      patchedPair "z" := by
  intro hPatch
  cases hPatch with
  | inFirst hFirst =>
      exact absurd (patches_assign_iff.mp hFirst).1 (by decide)
  | inRest hRun hRest =>
      cases hRun
      cases hRest with
      | inFirst hFirst =>
          exact absurd (patches_assign_iff.mp hFirst).2.1
            (by decide)
      | inRest hRun hRest =>
          cases hRun
          cases hRest with
          | inFirst hFirst =>
              exact absurd (patches_assign_iff.mp hFirst).2.2
                (by decide)
          | inRest _ hRest => cases hRest

/-
  With the fallback 0 the value of the second signal does not
  show, and values that are held are those of the signals
  written alone.
-/
theorem exec_depends_on_reads_patchedPair :
    patchedPair.validate = .ok () ∧
      patchedPair.exec (pairValues 0) .zero =
        .ok ⟨[("y", 3), ("z", 3)]⟩ ∧
      patchedPair.exec (pairValues 0) .zero =
        patchedPair.exec (pairValues 1) .zero ∧
      patchedPair.exec (pairValues 0) .hold =
        patchedPair.exec
          (fun n => if n = "u" then none else pairValues 0 n)
          .hold := by
  have hValid : patchedPair.validate = .ok () := rfl
  rcases exec_depends_on_reads hValid (pairValues 0) with
    ⟨hAgree, hOnlyWritten⟩
  refine ⟨hValid, rfl, ?_, ?_⟩
  · refine hOnlyWritten (pairValues 1) "z" ?_ (by decide)
      not_patches_patchedPair
    intro m hOther
    rw [pairValues, pairValues, if_neg hOther, if_neg hOther]
  · refine hAgree _ .hold (by decide) (fun _ => by decide) ?_
    intro hp
    cases hp

/-
  Two valuations agree on all that is read and differ in a
  signal of which one bit is written, and so do the results.
-/
theorem exec_differs_where_patched :
    let s : Stmt := assign ⟨.bit ⟨"y", 2, false⟩ 0,
      .var none ⟨"a", 1, false⟩⟩
    let ρ (y : Nat) : Valuation :=
      fun n => some (if n = "y" then y else 1)
    s.validate = .ok () ∧
      (∀ v ∈ s.reads, ρ 0 v.name = ρ 2 v.name) ∧
      s.exec (ρ 0) .zero = .ok ⟨[("y", 1)]⟩ ∧
      s.exec (ρ 2) .zero = .ok ⟨[("y", 3)]⟩ := by
  refine ⟨rfl, ?_, rfl, rfl⟩
  decide

end Stmt

end Gatework
