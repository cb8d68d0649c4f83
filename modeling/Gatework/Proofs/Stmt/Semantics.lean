import Gatework.Proofs.Expr.Value
import Gatework.Proofs.NameMap
import Gatework.Proofs.Stmt.Typing
import Gatework.Stmt.Exec

/-
  What a statement does to the values of all signals.

  Execution keeps what it writes apart from the values it
  started with, can miss a signal and fills open branches by
  a fallback. `Stmt.after` is the plain state change behind
  it: a branch that is not taken changes nothing.

  Key definitions include:
    * `Stmt.after`
    * `Written.current`, values hidden by what is written
    * `Agree`, equal bits within the widths of signals

  Key theorems include:
    * `Stmt.run_eq_after`
    * `Stmt.after_congr`
    * `Stmt.after_keeps`
-/

------------------------------------------------------------
-- State changes
------------------------------------------------------------

namespace Gatework

namespace Assign

/- The values after an assignment. -/
def after
    (σ : String → Nat)
    (a : Assign) :
    String → Nat :=
  fun n =>
    if n = a.var.name then
      replaceBits (σ a.var.name) a.target.low a.target.width
          (a.value.value σ) &&&
        mask a.var.width
    else
      σ n

end Assign

namespace Stmt

mutual

/- The values after a statement. -/
def after
    (σ : String → Nat) :
    Stmt → String → Nat
  | assign a => a.after σ
  | ifThen c t =>
      if (c.value σ).testBit 0 then after σ t else σ
  | ifElse c t e =>
      if (c.value σ).testBit 0 then after σ t else after σ e
  | case s arms =>
      (afterArm σ (hits s.width (s.value σ)) arms).getD
        ((afterArm σ Arm.isDefault arms).getD σ)
  | block ss => afterAll σ ss

/- The values after statements in sequence. -/
def afterAll
    (σ : String → Nat) :
    List Stmt → String → Nat
  | [] => σ
  | s :: ss => afterAll (after σ s) ss

/- The values after the first arm that is picked, if any. -/
def afterArm
    (σ : String → Nat)
    (picked : Arm Unit → Bool) :
    List (Arm Stmt) → Option (String → Nat)
  | [] => none
  | ⟨labels, d, s⟩ :: arms =>
      if picked ⟨labels, d, ()⟩ then some (after σ s)
      else afterArm σ picked arms

end

end Stmt

end Gatework

------------------------------------------------------------
-- Execution
------------------------------------------------------------

namespace Gatework

namespace Written

/- The value of each signal when some have been written. -/
def current
    (w : Written)
    (τ : String → Nat) :
    String → Nat :=
  fun n => (w.find? n).getD (τ n)

/- A bound signal has its current value. -/
theorem onTop_eq_current
    {w : Written}
    {ρ : Valuation}
    {τ : String → Nat}
    {n : String}
    (hBound : ρ n = some (τ n)) :
    w.onTop ρ n = some (w.current τ n) := by
  unfold onTop current
  cases w.find? n with
  | none => exact hBound
  | some x => rfl

theorem current_insert
    (w : Written)
    (τ : String → Nat)
    (name : String)
    (x : Nat) :
    current (w.insert name x) τ =
      fun n => if n = name then x else w.current τ n := by
  funext n
  unfold current
  rw [NameMap.find?_insert]
  split <;> rfl

/- Writing the value a signal has changes no value. -/
theorem current_insert_same
    {w : Written}
    {τ : String → Nat}
    {name : String}
    (hOpen : w.contains name = false) :
    current (w.insert name (τ name)) τ = w.current τ := by
  have hNone : w.find? name = none := by
    simpa [NameMap.contains] using hOpen
  rw [current_insert]
  funext n
  by_cases hn : n = name
  · subst hn
    simp [current, hNone]
  · rw [if_neg hn]

end Written

/- What a signal falls back to, given the value it has. -/
def Fallback.value : Fallback → Option Nat → Nat
  | zero, _ => 0
  | hold, old => old.getD 0

namespace Stmt

variable {ρ : Valuation}
variable {τ : String → Nat}
variable {p : Fallback}

/- A name that is not written yet is given its value. -/
theorem applyFallback_cons
    {name : String}
    {w : Written}
    (hOpen : w.contains name = false)
    (hBound : p = .hold → (ρ name).isSome)
    (names : List String) :
    applyFallback ρ p (name :: names) w =
      applyFallback ρ p names
        (w.insert name (p.value (ρ name))) := by
  rw [applyFallback.eq_def]
  simp only [hOpen]
  cases p with
  | zero => rfl
  | hold =>
      rcases Option.isSome_iff_exists.mp (hBound rfl) with ⟨x, hx⟩
      rw [hx]
      rfl

/-
  The fallback succeeds where every name it may keep is bound.
  Names that were written stay, the others get the value they
  fall back to.
-/
theorem applyFallback_find?
    {names : List String}
    (hBound : p = .hold → ∀ n ∈ names, (ρ n).isSome)
    (w : Written) :
    ∃ w', applyFallback ρ p names w = .ok w' ∧
      ∀ n, w'.find? n = (w.find? n).or
        (if n ∈ names then some (p.value (ρ n)) else none) := by
  induction names generalizing w with
  | nil => exact ⟨w, rfl, fun n => by simp⟩
  | cons name names ih =>
      have hTail := @ih
        (fun hp n hn => hBound hp n (List.mem_cons_of_mem _ hn))
      cases hOpen : w.contains name with
      | true =>
          rcases hTail w with ⟨w', hRun, hFind⟩
          refine ⟨w', ?_, ?_⟩
          · rw [applyFallback.eq_def]
            simp only [hOpen]
            exact hRun
          · intro n
            rcases NameMap.contains_eq_true_iff.mp hOpen with
              ⟨x, hx⟩
            rw [hFind]
            by_cases hn : n = name
            · rw [hn, hx, Option.some_or, Option.some_or]
            · simp [hn]
      | false =>
          have hNone : w.find? name = none := by
            simpa [NameMap.contains] using hOpen
          rcases hTail (w.insert name (p.value (ρ name))) with
            ⟨w', hRun, hFind⟩
          refine ⟨w', ?_, ?_⟩
          · rw [applyFallback_cons hOpen
              (fun hp => hBound hp name (List.mem_cons_self ..))]
            exact hRun
          · intro n
            rw [hFind, NameMap.find?_insert]
            by_cases hn : n = name
            · simp [hn, hNone]
            · simp [hn]

/-
  The fallback succeeds on bound names and changes no value,
  if names that fall back to 0 are 0 to begin with.
-/
theorem applyFallback_current
    {names : List String}
    (hBound : ∀ n ∈ names, ρ n = some (τ n))
    (hReady : ∀ n ∈ names, p = .zero → τ n = 0)
    (w : Written) :
    ∃ w', applyFallback ρ p names w = .ok w' ∧
      Written.current w' τ = w.current τ := by
  have hSome : p = .hold → ∀ n ∈ names, (ρ n).isSome := by
    intro _ n hn
    rw [hBound n hn]
    rfl
  have hValue : ∀ n ∈ names, p.value (ρ n) = τ n := by
    intro n hn
    cases hp : p with
    | zero => exact (hReady n hn hp).symm
    | hold => rw [Fallback.value, hBound n hn, Option.getD_some]
  rcases applyFallback_find? hSome w with ⟨w', hRun, hFind⟩
  refine ⟨w', hRun, ?_⟩
  funext n
  unfold Written.current
  rw [hFind]
  cases w.find? n with
  | some x => rfl
  | none =>
      by_cases hn : n ∈ names
      · rw [if_pos hn, hValue n hn]
        rfl
      · rw [if_neg hn]
        rfl

/- Evaluation on top of what is written. -/
theorem eval_onTop
    {e : Expr}
    (hBound : ∀ v ∈ e.occurrences, ρ v.name = some (τ v.name))
    (w : Written) :
    e.eval (w.onTop ρ) = .ok (e.value (w.current τ)) :=
  Expr.eval_eq_value
    (fun v hv => Written.onTop_eq_current (hBound v hv))

theorem exec_assign
    {a : Assign}
    (hBound : ∀ v, (assign a).Mentions v →
      ρ v.name = some (τ v.name))
    (w : Written) :
    ∃ w', a.exec ρ w = .ok w' ∧
      Written.current w' τ = a.after (w.current τ) := by
  have hTarget : ρ a.var.name = some (τ a.var.name) :=
    hBound a.var (Or.inl (List.mem_singleton.mpr rfl))
  let new :=
    replaceBits (w.current τ a.var.name) a.target.low
        a.target.width (a.value.value (w.current τ)) &&&
      mask a.var.width
  refine ⟨w.insert a.var.name new, ?_, ?_⟩
  · unfold Assign.exec
    rw [eval_onTop (fun v hv => hBound v (Or.inr hv)) w,
      Written.onTop_eq_current hTarget]
    rfl
  · rw [Written.current_insert]
    rfl

theorem runAll_eq_after
    {ss : List Stmt}
    (hAll : ∀ s ∈ ss, ∀ w, ∃ w', run ρ p w s = .ok w' ∧
      Written.current w' τ = s.after (w.current τ))
    (w : Written) :
    ∃ w', runAll ρ p w ss = .ok w' ∧
      Written.current w' τ = afterAll (w.current τ) ss := by
  induction ss generalizing w with
  | nil => exact ⟨w, rfl, rfl⟩
  | cons s ss ih =>
      rcases hAll s (List.mem_cons_self ..) w with
        ⟨w₁, hRun, hCurrent⟩
      rcases ih (fun t ht => hAll t (List.mem_cons_of_mem _ ht))
          w₁ with
        ⟨w₂, hRest, hLast⟩
      refine ⟨w₂, ?_, ?_⟩
      · rw [runAll, hRun]
        exact hRest
      · rw [hLast, hCurrent, afterAll]

theorem runArm_eq_after
    {arms : List (Arm Stmt)}
    {w : Written}
    (hAll : ∀ arm ∈ arms, ∃ w',
      run ρ p w arm.body = .ok w' ∧
        Written.current w' τ = arm.body.after (w.current τ))
    (picked : Arm Unit → Bool) :
    (runArm ρ p w picked arms = none ∧
        afterArm (w.current τ) picked arms = none) ∨
      ∃ w', runArm ρ p w picked arms = some (.ok w') ∧
        afterArm (w.current τ) picked arms =
          some (Written.current w' τ) := by
  induction arms with
  | nil => exact Or.inl ⟨rfl, rfl⟩
  | cons arm arms ih =>
      have hHead := hAll arm (List.mem_cons_self ..)
      have hTail := ih
        (fun other h => hAll other (List.mem_cons_of_mem _ h))
      rcases arm with ⟨labels, d, s⟩
      rw [runArm, afterArm]
      cases picked ⟨labels, d, ()⟩ with
      | true =>
          rcases hHead with ⟨w', hRun, hCurrent⟩
          refine Or.inr ⟨w', ?_, ?_⟩
          · simp only [if_true, hRun]
          · simp only [if_true, hCurrent]
      | false => exact hTail

/-
  Execution on bound signals succeeds and changes the current
  values as `after` says, if every target that may fall back
  to 0 is 0 to begin with.
-/
theorem run_eq_after
    {s : Stmt}
    (hBound : ∀ v, s.Mentions v → ρ v.name = some (τ v.name))
    (hReady : ∀ v ∈ s.targets, p = .zero → τ v.name = 0)
    (w : Written) :
    ∃ w', run ρ p w s = .ok w' ∧
      Written.current w' τ = s.after (w.current τ) := by
  induction s generalizing w with
  | assign a => exact exec_assign hBound w
  | ifThen c t ih =>
      have hCond : ∀ v ∈ c.occurrences,
          ρ v.name = some (τ v.name) :=
        fun v hv => hBound v (Or.inr (List.mem_append_left _ hv))
      have hBody : ∀ v, t.Mentions v →
          ρ v.name = some (τ v.name) := by
        rintro v (hv | hv)
        · exact hBound v (Or.inl hv)
        · exact hBound v (Or.inr (List.mem_append_right _ hv))
      rw [run, eval_onTop hCond, ok_bind, after]
      cases (c.value (w.current τ)).testBit 0 with
      | true => exact ih hBody hReady w
      | false =>
          apply applyFallback_current
          · intro n hn
            rcases List.mem_map.mp ((mem_names_writes t n).mp hn)
              with ⟨v, hv, rfl⟩
            exact hBody v (Or.inl hv)
          · intro n hn
            rcases List.mem_map.mp ((mem_names_writes t n).mp hn)
              with ⟨v, hv, rfl⟩
            exact hReady v hv
  | ifElse c t e iht ihe =>
      have hCond : ∀ v ∈ c.occurrences,
          ρ v.name = some (τ v.name) :=
        fun v hv => hBound v (Or.inr (List.mem_append_left _ hv))
      rw [run, eval_onTop hCond, ok_bind, after]
      cases (c.value (w.current τ)).testBit 0 with
      | true =>
          apply iht _ _ w
          · rintro v (hv | hv)
            · exact hBound v (Or.inl (List.mem_append_left _ hv))
            · exact hBound v (Or.inr (List.mem_append_right _
                (List.mem_append_left _ hv)))
          · intro v hv
            exact hReady v (List.mem_append_left _ hv)
      | false =>
          apply ihe _ _ w
          · rintro v (hv | hv)
            · exact hBound v (Or.inl (List.mem_append_right _ hv))
            · exact hBound v (Or.inr (List.mem_append_right _
                (List.mem_append_right _ hv)))
          · intro v hv
            exact hReady v (List.mem_append_right _ hv)
  | case s arms ih =>
      have hSel : ∀ v ∈ s.occurrences,
          ρ v.name = some (τ v.name) :=
        fun v hv => hBound v (Or.inr (List.mem_append_left _ hv))
      have hTargets : ∀ v ∈ targetsArms arms,
          ρ v.name = some (τ v.name) :=
        fun v hv => hBound v (Or.inl hv)
      have hAll : ∀ arm ∈ arms, ∃ w',
          run ρ p w arm.body = .ok w' ∧
            Written.current w' τ =
              arm.body.after (w.current τ) := by
        intro arm hArm
        apply ih arm hArm _ _ w
        · rintro v (hv | hv)
          · exact hBound v
              (Or.inl (mem_targetsArms.mpr ⟨arm, hArm, hv⟩))
          · exact hBound v (Or.inr (List.mem_append_right _
              (mem_readingsArms.mpr ⟨arm, hArm, hv⟩)))
        · intro v hv
          exact hReady v (mem_targetsArms.mpr ⟨arm, hArm, hv⟩)
      rw [run, eval_onTop hSel, ok_bind, after]
      rcases runArm_eq_after hAll
          (hits s.width (s.value (w.current τ))) with
        ⟨hRun, hAfter⟩ | ⟨w', hRun, hAfter⟩
      · rw [hRun, hAfter]
        rcases runArm_eq_after hAll Arm.isDefault with
          ⟨hRun', hAfter'⟩ | ⟨w', hRun', hAfter'⟩
        · rw [hRun', hAfter']
          have hNames : ∀ n,
              n ∈ (writesArms [] arms).names →
                ∃ v ∈ targetsArms arms, v.name = n := by
            intro n hn
            exact List.mem_map.mp
              ((mem_names_writes (case s arms) n).mp hn)
          apply applyFallback_current
          · intro n hn
            rcases hNames n hn with ⟨v, hv, rfl⟩
            exact hTargets v hv
          · intro n hn
            rcases hNames n hn with ⟨v, hv, rfl⟩
            exact hReady v hv
        · rw [hRun', hAfter']
          exact ⟨w', rfl, rfl⟩
      · rw [hRun, hAfter]
        exact ⟨w', rfl, rfl⟩
  | block ss ih =>
      apply runAll_eq_after
      intro s hs w
      apply ih s hs _ _ w
      · rintro v (hv | hv)
        · exact hBound v
            (Or.inl (mem_targetsAll.mpr ⟨s, hs, hv⟩))
        · exact hBound v
            (Or.inr (mem_readingsAll.mpr ⟨s, hs, hv⟩))
      · intro v hv
        exact hReady v (mem_targetsAll.mpr ⟨s, hs, hv⟩)

end Stmt

end Gatework

------------------------------------------------------------
-- Agreement within widths
------------------------------------------------------------

namespace Gatework

/- The bits of every signal of a set are equal. -/
def Agree
    (Γ : Var → Prop)
    (σ σ' : String → Nat) :
    Prop :=
  ∀ v, Γ v →
    σ v.name &&& mask v.width = σ' v.name &&& mask v.width

namespace Agree

variable {Γ : Var → Prop}
variable {σ₁ σ₂ σ₃ : String → Nat}

theorem refl
    (σ : String → Nat) :
    Agree Γ σ σ :=
  fun _ _ => rfl

theorem trans
    (h₁ : Agree Γ σ₁ σ₂)
    (h₂ : Agree Γ σ₂ σ₃) :
    Agree Γ σ₁ σ₃ :=
  fun v hv => (h₁ v hv).trans (h₂ v hv)

/- Typed expressions cannot tell agreeing values apart. -/
theorem value_eq
    (h : Agree Γ σ₁ σ₂)
    {e : Expr}
    (he : e.Typed Γ) :
    e.value σ₁ = e.value σ₂ :=
  Expr.value_congr (fun v hv => h v (he.mem hv))

end Agree

namespace Stmt

variable {Γ : Var → Prop}
variable {σ σ' : String → Nat}

/- Assignments keep agreement: fields lie in their signal. -/
theorem after_assign_congr
    {a : Assign}
    (ha : (assign a).Typed Γ)
    (hAgree : Agree Γ σ σ') :
    Agree Γ (a.after σ) (a.after σ') := by
  intro v hv
  have hVar := Target.typed_var ha.1
  unfold Assign.after
  by_cases hName : v.name = a.var.name
  · have hOld : σ a.var.name &&& mask a.var.width =
        σ' a.var.name &&& mask a.var.width :=
      hAgree a.var hVar.2.2
    rw [if_pos hName, if_pos hName, hAgree.value_eq ha.2.1]
    congr 1
    apply Nat.eq_of_testBit_eq
    intro i
    have hBit := congrArg (fun x => x.testBit i) hOld
    simp only [Nat.testBit_and] at hBit ⊢
    rw [testBit_replaceBits (Target.width_le ha.1),
      testBit_replaceBits (Target.width_le ha.1)]
    split
    · rfl
    · exact hBit
  · rw [if_neg hName, if_neg hName]
    exact hAgree v hv

theorem afterAll_congr
    {ss : List Stmt}
    (hAll : ∀ s ∈ ss, ∀ σ σ', Agree Γ σ σ' →
      Agree Γ (s.after σ) (s.after σ'))
    (hAgree : Agree Γ σ σ') :
    Agree Γ (afterAll σ ss) (afterAll σ' ss) := by
  induction ss generalizing σ σ' with
  | nil => exact hAgree
  | cons s ss ih =>
      exact ih
        (fun t ht => hAll t (List.mem_cons_of_mem _ ht))
        (hAll s (List.mem_cons_self ..) σ σ' hAgree)

theorem afterArm_congr
    {arms : List (Arm Stmt)}
    (hAll : ∀ arm ∈ arms,
      Agree Γ (arm.body.after σ) (arm.body.after σ'))
    (picked : Arm Unit → Bool)
    {other other' : String → Nat}
    (hOther : Agree Γ other other') :
    Agree Γ ((afterArm σ picked arms).getD other)
      ((afterArm σ' picked arms).getD other') := by
  induction arms with
  | nil => exact hOther
  | cons arm arms ih =>
      have hHead := hAll arm (List.mem_cons_self ..)
      have hTail := ih
        (fun other h => hAll other (List.mem_cons_of_mem _ h))
      rcases arm with ⟨labels, d, s⟩
      rw [afterArm, afterArm]
      cases picked ⟨labels, d, ()⟩ with
      | true => exact hHead
      | false => exact hTail

/- A typed statement keeps agreement. -/
theorem after_congr
    {s : Stmt}
    (hs : s.Typed Γ)
    (hAgree : Agree Γ σ σ') :
    Agree Γ (s.after σ) (s.after σ') := by
  induction s generalizing σ σ' with
  | assign a => exact after_assign_congr hs hAgree
  | ifThen c t ih =>
      rw [after, after, hAgree.value_eq hs.1]
      split
      · exact ih hs.2.2 hAgree
      · exact hAgree
  | ifElse c t e iht ihe =>
      rw [after, after, hAgree.value_eq hs.1]
      split
      · exact iht hs.2.2.1 hAgree
      · exact ihe hs.2.2.2 hAgree
  | case s arms ih =>
      have hAll : ∀ arm ∈ arms,
          Agree Γ (arm.body.after σ) (arm.body.after σ') :=
        fun arm h =>
          ih arm h (typedArms_iff.mp hs.2.2 arm h) hAgree
      rw [after, after, hAgree.value_eq hs.1]
      exact afterArm_congr hAll _
        (afterArm_congr hAll _ hAgree)
  | block ss ih =>
      apply afterAll_congr _ hAgree
      intro s hMem σ σ' h
      exact ih s hMem (typedAll_iff.mp hs s hMem) h

end Stmt

end Gatework

------------------------------------------------------------
-- What assignments keep
------------------------------------------------------------

namespace Gatework

namespace Stmt

variable {Γ T : Var → Prop}
variable {I : (String → Nat) → Prop}

theorem afterAll_keeps
    {ss : List Stmt}
    (hAll : ∀ s ∈ ss, ∀ σ, I σ → I (s.after σ))
    {σ : String → Nat}
    (hI : I σ) :
    I (afterAll σ ss) := by
  induction ss generalizing σ with
  | nil => exact hI
  | cons s ss ih =>
      exact ih (fun t ht => hAll t (List.mem_cons_of_mem _ ht))
        (hAll s (List.mem_cons_self ..) σ hI)

theorem afterArm_keeps
    {arms : List (Arm Stmt)}
    {σ : String → Nat}
    (hAll : ∀ arm ∈ arms, I (arm.body.after σ))
    (picked : Arm Unit → Bool)
    {other : String → Nat}
    (hOther : I other) :
    I ((afterArm σ picked arms).getD other) := by
  induction arms with
  | nil => exact hOther
  | cons arm arms ih =>
      have hHead := hAll arm (List.mem_cons_self ..)
      have hTail := ih
        (fun other h => hAll other (List.mem_cons_of_mem _ h))
      rcases arm with ⟨labels, d, s⟩
      rw [afterArm]
      cases picked ⟨labels, d, ()⟩ with
      | true => exact hHead
      | false => exact hTail

/-
  What every assignment to some signals keeps is kept by all
  statements that write only these signals.
-/
theorem after_keeps
    (hKeeps : ∀ a σ, T a.var → (assign a).Typed Γ → I σ →
      I (a.after σ))
    {s : Stmt}
    (hs : s.Typed Γ)
    (hTargets : ∀ v ∈ s.targets, T v)
    {σ : String → Nat}
    (hI : I σ) :
    I (s.after σ) := by
  induction s generalizing σ with
  | assign a =>
      exact hKeeps a σ (hTargets a.var (List.mem_singleton_self _))
        hs hI
  | ifThen c t ih =>
      rw [after]
      split
      · exact ih hs.2.2 hTargets hI
      · exact hI
  | ifElse c t e iht ihe =>
      rw [after]
      split
      · exact iht hs.2.2.1
          (fun v hv => hTargets v (List.mem_append_left _ hv)) hI
      · exact ihe hs.2.2.2
          (fun v hv => hTargets v (List.mem_append_right _ hv)) hI
  | case s arms ih =>
      have hAll : ∀ arm ∈ arms, I (arm.body.after σ) :=
        fun arm h => ih arm h (typedArms_iff.mp hs.2.2 arm h)
          (fun v hv =>
            hTargets v (mem_targetsArms.mpr ⟨arm, h, hv⟩)) hI
      rw [after]
      exact afterArm_keeps hAll _ (afterArm_keeps hAll _ hI)
  | block ss ih =>
      apply afterAll_keeps _ hI
      intro s hMem σ h
      exact ih s hMem (typedAll_iff.mp hs s hMem)
        (fun v hv => hTargets v (mem_targetsAll.mpr ⟨s, hMem, hv⟩))
        h

/- A value within the width of its signal stays within it. -/
theorem after_lt
    (hOne : OneWidth Γ)
    {s : Stmt}
    (hs : s.Typed Γ)
    {v : Var}
    (hv : (Expr.var none v).Typed Γ)
    {σ : String → Nat}
    (hSmall : σ v.name < 2 ^ v.width) :
    s.after σ v.name < 2 ^ v.width := by
  apply after_keeps (T := fun _ => True)
    (I := fun σ => σ v.name < 2 ^ v.width) ?_ hs
    (fun _ _ => trivial) hSmall
  intro a σ _ ha h
  have hTarget := Target.typed_var ha.1
  unfold Assign.after
  split
  case isTrue hName =>
      have hWidth : v.width = a.var.width :=
        hOne _ _ hv.2.2 hTarget.2.2 hName
      rw [hWidth]
      exact and_mask_lt hTarget.2.1 _
  case isFalse => exact h

end Stmt

end Gatework
