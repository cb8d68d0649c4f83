import Gatework.Proofs.Expr.Primitives
import Gatework.Proofs.Expr.Same
import Gatework.Proofs.Stmt.Selection
import Gatework.Proofs.Stmt.Simplify

/-
  Statements in another shape.

  A case as nested `if` statements, an `if` with `else` as
  one assignment, and other forms of the expressions make the
  same change of values. The value of a case is what its arms
  assign to their common target, or the fallback.

  Key definitions include:
    * `Stmt.Redoes`
    * `Stmt.AssignsTo`, bodies that assign one target

  Key theorems include:
    * `Stmt.redoes_mapExprs`
    * `Stmt.redoes_ifChain`
    * `Stmt.redoes_toMux`
    * `Stmt.computes_mux`
-/

------------------------------------------------------------
-- Statements that do the same
------------------------------------------------------------

namespace Gatework

namespace Stmt

/-
  A typed statement that makes the change of values another
  one makes, and writes no further names.
-/
structure Redoes
    (Γ : Var → Prop)
    (s s' : Stmt) :
    Prop where
  typed : s'.Typed Γ
  writes : ∀ n, s'.Writes n → s.Writes n
  after_eq : ∀ σ, s'.after σ = s.after σ

variable {Γ : Var → Prop}

theorem Redoes.refl
    {s : Stmt}
    (hs : s.Typed Γ) :
    Redoes Γ s s :=
  ⟨hs, fun _ hn => hn, fun _ => rfl⟩

theorem Redoes.trans
    {s₁ s₂ s₃ : Stmt}
    (h₁ : Redoes Γ s₁ s₂)
    (h₂ : Redoes Γ s₂ s₃) :
    Redoes Γ s₁ s₃ where
  typed := h₂.typed
  writes := fun n hn => h₁.writes n (h₂.writes n hn)
  after_eq := fun σ => (h₂.after_eq σ).trans (h₁.after_eq σ)

end Stmt

end Gatework

------------------------------------------------------------
-- Other forms of the expressions
------------------------------------------------------------

namespace Gatework

namespace Stmt

variable {Γ : Var → Prop}
variable {f : Expr → Expr}

theorem afterAll_mapExprs
    {ss : List Stmt}
    (hAll : ∀ s ∈ ss, ∀ σ, (s.mapExprs f).after σ = s.after σ)
    (σ : String → Nat) :
    afterAll σ (mapExprsAll f ss) = afterAll σ ss := by
  induction ss generalizing σ with
  | nil => rfl
  | cons s ss ih =>
      rw [mapExprsAll, afterAll, afterAll,
        hAll s (List.mem_cons_self ..),
        ih (fun t ht => hAll t (List.mem_cons_of_mem _ ht))]

theorem afterArm_mapExprs
    {arms : List (Arm Stmt)}
    {σ : String → Nat}
    (hAll : ∀ arm ∈ arms,
      (arm.body.mapExprs f).after σ = arm.body.after σ)
    (picked : Arm Unit → Bool) :
    afterArm σ picked (mapExprsArms f arms) =
      afterArm σ picked arms := by
  induction arms with
  | nil => rfl
  | cons arm arms ih =>
      have hHead := hAll arm (List.mem_cons_self ..)
      rcases arm with ⟨labels, isDefault, body⟩
      rw [mapExprsArms, afterArm, afterArm, hHead,
        ih (fun other h => hAll other (List.mem_cons_of_mem _ h))]

/- Expressions of the same width and value change nothing. -/
theorem after_mapExprs
    (hf : ∀ e : Expr, e.Typed Γ → Expr.Keeps Γ e (f e))
    {s : Stmt}
    (hs : s.Typed Γ)
    (σ : String → Nat) :
    (s.mapExprs f).after σ = s.after σ := by
  induction s generalizing σ with
  | assign a =>
      rw [mapExprs, after, after]
      unfold Assign.after
      rw [(hf a.value hs.2.1).value_eq σ]
      rfl
  | ifThen c t ih =>
      rw [mapExprs, after, after, (hf c hs.1).value_eq σ,
        ih hs.2.2 σ]
  | ifElse c t e iht ihe =>
      rw [mapExprs, after, after, (hf c hs.1).value_eq σ,
        iht hs.2.2.1 σ, ihe hs.2.2.2 σ]
  | case s arms ih =>
      have hArms : ∀ arm ∈ arms,
          (arm.body.mapExprs f).after σ = arm.body.after σ :=
        fun arm hArm =>
          ih arm hArm (typedArms_iff.mp hs.2.2 arm hArm) σ
      rw [mapExprs, after, after, (hf s hs.1).value_eq σ,
        (hf s hs.1).width_eq, afterArm_mapExprs hArms,
        afterArm_mapExprs hArms]
  | block ss ih =>
      rw [mapExprs, after, after]
      exact afterAll_mapExprs
        (fun s hMem => ih s hMem (typedAll_iff.mp hs s hMem)) σ

theorem redoes_mapExprs
    (hf : ∀ e : Expr, e.Typed Γ → Expr.Keeps Γ e (f e))
    {s : Stmt}
    (hs : s.Typed Γ) :
    Redoes Γ s (s.mapExprs f) where
  typed := typed_mapExprs hf hs
  writes := by
    intro n hn
    have hName := (mem_names_writes (s.mapExprs f) n).mpr hn
    rw [writes_mapExprs] at hName
    exact (mem_names_writes s n).mp hName
  after_eq := after_mapExprs hf hs

end Stmt

end Gatework

------------------------------------------------------------
-- A case as nested ifs
------------------------------------------------------------

namespace Gatework

namespace Stmt

variable {Γ : Var → Prop}
variable {selector : Expr}
variable {arms : List (Arm Stmt)}

theorem afterArm_eq_find?
    (σ : String → Nat)
    (picked : Arm Unit → Bool)
    (arms : List (Arm Stmt)) :
    afterArm σ picked arms =
      (arms.find? fun arm =>
        picked ⟨arm.labels, arm.isDefault, ()⟩).map
          (fun arm => arm.body.after σ) := by
  induction arms with
  | nil => rfl
  | cons arm arms ih =>
      rw [afterArm, List.find?_cons]
      cases picked ⟨arm.labels, arm.isDefault, ()⟩ with
      | true => rfl
      | false => exact ih

/- What a body changes, if there is one. -/
def afterBody
    (σ : String → Nat)
    (body : Option Stmt) :
    String → Nat :=
  (body.map fun s => s.after σ).getD σ

/- A case does what the body of the selected arm does. -/
theorem after_case
    (hSelector : selector.Typed Γ)
    (hFit : ∀ arm ∈ arms, ∀ l ∈ arm.labels,
      l.value < 2 ^ selector.width)
    (σ : String → Nat) :
    (case selector arms).after σ =
      afterBody σ
        ((Arm.select? arms (selector.value σ)).map Arm.body) := by
  have hHits : arms.find? (fun arm =>
        hits selector.width (selector.value σ)
          ⟨arm.labels, arm.isDefault, ()⟩) =
      arms.find? (fun arm => arm.accepts (selector.value σ)) := by
    apply Arm.find?_congr
    intro arm hArm
    cases hDefault : arm.isDefault with
    | true => simp [hits, Arm.accepts, hDefault]
    | false =>
        rw [hits_of_fit hSelector.width_le (hFit arm hArm),
          Arm.accepts, hDefault]
        simp only [Bool.not_false, Bool.true_and, BEq.comm]
  rw [after, afterArm_eq_find?, afterArm_eq_find?, hHits]
  unfold Arm.select? afterBody
  cases arms.find? (fun arm => arm.accepts (selector.value σ)) with
  | some arm => rfl
  | none =>
      change ((Arm.defaultIn? arms).map _).getD σ = _
      cases Arm.defaultIn? arms <;> rfl

theorem after_branch
    (cond : Expr)
    (body : Stmt)
    (otherwise : Option Stmt)
    (σ : String → Nat) :
    (branch cond body otherwise).after σ =
      if (cond.value σ).testBit 0 then body.after σ
      else afterBody σ otherwise := by
  cases otherwise with
  | none =>
      rw [branch, after]
      rfl
  | some other =>
      rw [branch, after]
      rfl

theorem typed_branch
    {cond : Expr}
    {f : (String → Nat) → Bool}
    (hCond : Expr.IsBit Γ cond f)
    {body : Stmt}
    (hBody : body.Typed Γ)
    {otherwise : Option Stmt}
    (hOther : ∀ s, otherwise = some s → s.Typed Γ) :
    (branch cond body otherwise).Typed Γ := by
  cases otherwise with
  | none => exact ⟨hCond.typed, hCond.width_eq, hBody⟩
  | some s =>
      exact ⟨hCond.typed, hCond.width_eq, hBody, hOther s rfl⟩

theorem writes_branch
    {cond : Expr}
    {body : Stmt}
    {otherwise : Option Stmt}
    {n : String}
    (hn : (branch cond body otherwise).Writes n) :
    body.Writes n ∨ ∃ s, otherwise = some s ∧ s.Writes n := by
  cases otherwise with
  | none => exact Or.inl hn
  | some s =>
      rcases writes_ifElse.mp hn with hn | hn
      · exact Or.inl hn
      · exact Or.inr ⟨s, rfl, hn⟩

/-
  A chain of guards does what the body of the first arm that
  accepts does, or else the tail. Labels may be any words.
-/
theorem chain_spec
    (hSelector : selector.Typed Γ)
    (hLabelled : ∀ arm ∈ arms, arm.isDefault = false)
    (hWords : ∀ arm ∈ arms, ∀ l ∈ arm.labels,
      l.value < 2 ^ maxWidth)
    (hBodies : ∀ arm ∈ arms, arm.body.Typed Γ)
    {tail : Option Stmt}
    (hTail : ∀ s, tail = some s → s.Typed Γ) :
    (∀ s, chain selector arms tail = some s → s.Typed Γ ∧
      ∀ n, s.Writes n → (∃ arm ∈ arms, arm.body.Writes n) ∨
        ∃ t, tail = some t ∧ t.Writes n) ∧
    ∀ σ, afterBody σ (chain selector arms tail) =
      afterBody σ
        ((pick? arms (selector.value σ)).or tail) := by
  induction arms with
  | nil =>
      refine ⟨?_, fun σ => rfl⟩
      intro s hs
      exact ⟨hTail s hs, fun n hn => Or.inr ⟨s, hs, hn⟩⟩
  | cons arm arms ih =>
      rcases ih
          (fun a ha => hLabelled a (List.mem_cons_of_mem _ ha))
          (fun a ha => hWords a (List.mem_cons_of_mem _ ha))
          (fun a ha => hBodies a (List.mem_cons_of_mem _ ha)) with
        ⟨hRest, hAfter⟩
      have hHead := List.mem_cons_self (a := arm) (l := arms)
      have hGuard := Arm.isBit_guard_accepts hSelector
        (hLabelled arm hHead) (hWords arm hHead)
      constructor
      · rintro _ ⟨⟩
        refine ⟨typed_branch hGuard (hBodies arm hHead)
          (fun s hs => (hRest s hs).1), ?_⟩
        intro n hn
        rcases writes_branch hn with hn | ⟨s, hs, hn⟩
        · exact Or.inl ⟨arm, hHead, hn⟩
        · rcases (hRest s hs).2 n hn with ⟨other, hOther, hn⟩ | hn
          · exact Or.inl
              ⟨other, List.mem_cons_of_mem _ hOther, hn⟩
          · exact Or.inr hn
      · intro σ
        change (branch _ _ _).after σ = _
        rw [after_branch, hGuard.bit_eq σ, hAfter σ]
        unfold pick?
        rw [List.find?_cons]
        cases arm.accepts (selector.value σ) <;> rfl

/- Only labelled arms are picked. -/
theorem pick?_labelledIn
    (arms : List (Arm Stmt))
    (value : Nat) :
    pick? (Arm.labelledIn arms) value = pick? arms value := by
  unfold pick?
  rw [Arm.find?_labelledIn]
  congr 2
  funext arm
  rw [Arm.accepts, ← Bool.and_assoc, Bool.and_self]

/-
  A case has arms and is formed by the two values of a single
  bit, or by guards if the bit has no label.
-/
theorem caseTo_cases
    {form : CaseForm}
    {p : Fallback}
    {result : CaseResult}
    (hForm : caseTo selector arms form p = .ok result) :
    arms ≠ [] ∧
      (selector.width = 1 ∧
          binaryCase selector arms form p
            ((Arm.select? arms 1).map Arm.body)
            ((Arm.select? arms 0).map Arm.body) = .ok result ∨
        ¬(selector.width = 1 ∧
            ((pick? arms 1).isSome ∨ (pick? arms 0).isSome)) ∧
          guardedCase selector arms form p = .ok result) := by
  unfold caseTo at hForm
  split at hForm
  case isTrue => cases hForm
  case isFalse hSome =>
      dsimp only at hForm
      rw [pick?_or_default, pick?_or_default] at hForm
      refine ⟨by simpa using hSome, ?_⟩
      split at hForm
      case isTrue hBinary => exact Or.inl ⟨hBinary.1, hForm⟩
      case isFalse hGuarded => exact Or.inr ⟨hGuarded, hForm⟩

/- What is selected is an arm. -/
theorem mem_of_select?_eq_some
    {value : Nat}
    {arm : Arm Stmt}
    (hSelect : Arm.select? arms value = some arm) :
    arm ∈ arms := by
  unfold Arm.select? at hSelect
  split at hSelect
  case h_1 other hOther =>
      cases hSelect
      exact List.mem_of_find?_eq_some hOther
  case h_2 => exact List.mem_of_find?_eq_some hSelect

/- A body that is selected is the body of an arm. -/
theorem mem_of_select?
    {value : Nat}
    {s : Stmt}
    (hs : (Arm.select? arms value).map Arm.body = some s) :
    ∃ arm ∈ arms, arm.body = s := by
  rcases Option.map_eq_some_iff.mp hs with ⟨arm, hFound, hBody⟩
  exact ⟨arm, mem_of_select?_eq_some hFound, hBody⟩

theorem mem_of_default
    {s : Stmt}
    (hs : (Arm.defaultIn? arms).map Arm.body = some s) :
    ∃ arm ∈ arms, arm.body = s := by
  rcases Option.map_eq_some_iff.mp hs with ⟨arm, hFound, rfl⟩
  exact ⟨arm, List.mem_of_find?_eq_some hFound, rfl⟩

section

variable (hSelector : selector.Typed Γ)
variable (hFit : ∀ arm ∈ arms, ∀ l ∈ arm.labels,
  l.value < 2 ^ selector.width)
variable (hBodies : ∀ arm ∈ arms, arm.body.Typed Γ)

include hSelector hFit in
/- Labels that fit the selector are words. -/
theorem words_of_fit
    {arm : Arm Stmt}
    (hArm : arm ∈ arms) :
    ∀ l ∈ arm.labels, l.value < 2 ^ maxWidth := by
  intro l hl
  exact Nat.lt_of_lt_of_le (hFit arm hArm l hl)
    (Nat.pow_le_pow_right (by decide) hSelector.width_le)

include hSelector hFit hBodies

/- The chain of a case has the bodies of its arms. -/
theorem redoes_guardedCase
    {p : Fallback}
    {s : Stmt}
    (hForm : guardedCase selector arms .ifChain p = .ok (.stmt s)) :
    Redoes Γ (case selector arms) s := by
  have hTail : ∀ s,
      (Arm.defaultIn? arms).map Arm.body = some s → s.Typed Γ := by
    intro s hs
    rcases mem_of_default hs with ⟨arm, hArm, rfl⟩
    exact hBodies arm hArm
  have hMem : ∀ arm ∈ Arm.labelledIn arms, arm ∈ arms :=
    fun arm hArm => (Arm.mem_labelledIn.mp hArm).1
  rcases chain_spec hSelector
      (fun arm hArm => (Arm.mem_labelledIn.mp hArm).2)
      (fun arm hArm => words_of_fit hSelector hFit (hMem arm hArm))
      (fun arm hArm => hBodies arm (hMem arm hArm)) hTail with
    ⟨hStmt, hAfter⟩
  have hSame : ∀ σ, afterBody σ
      (chain selector (Arm.labelledIn arms)
        ((Arm.defaultIn? arms).map Arm.body)) =
      (case selector arms).after σ := by
    intro σ
    rw [hAfter, pick?_labelledIn, pick?_or_default,
      after_case hSelector hFit]
  cases hForm
  generalize chain selector (Arm.labelledIn arms)
    ((Arm.defaultIn? arms).map Arm.body) = result at hStmt hSame
  cases result with
  | none =>
      refine ⟨trivial, ?_, hSame⟩
      intro n hn
      cases hn
  | some s =>
      refine ⟨(hStmt s rfl).1, ?_, hSame⟩
      intro n hn
      apply writes_case.mpr
      rcases (hStmt s rfl).2 n hn with ⟨arm, hArm, hn⟩ | ⟨t, ht, hn⟩
      · exact ⟨arm, hMem arm hArm, hn⟩
      · rcases mem_of_default ht with ⟨arm, hArm, rfl⟩
        exact ⟨arm, hArm, hn⟩

/- On a single bit the bodies for 1 and 0 are the branches. -/
theorem redoes_binaryCase
    (hWidth : selector.width = 1)
    {p : Fallback}
    {s : Stmt}
    (hForm : binaryCase selector arms .ifChain p
      ((Arm.select? arms 1).map Arm.body)
      ((Arm.select? arms 0).map Arm.body) = .ok (.stmt s)) :
    Redoes Γ (case selector arms) s := by
  have hBit := Expr.isBit_self hSelector hWidth
  have hAfter : ∀ σ, (case selector arms).after σ =
      if (selector.value σ).testBit 0 then
        afterBody σ ((Arm.select? arms 1).map Arm.body)
      else
        afterBody σ ((Arm.select? arms 0).map Arm.body) := by
    intro σ
    have hSmall : selector.value σ < 2 ^ 1 :=
      hWidth ▸ hSelector.value_lt σ
    rw [after_case hSelector hFit]
    rw [eq_toNat_testBit hSmall]
    cases (selector.value σ).testBit 0 <;> rfl
  have hOne : ∀ s,
      (Arm.select? arms 1).map Arm.body = some s →
        ∃ arm ∈ arms, arm.body = s :=
    fun _ hs => mem_of_select? hs
  have hZero : ∀ s,
      (Arm.select? arms 0).map Arm.body = some s →
        ∃ arm ∈ arms, arm.body = s :=
    fun _ hs => mem_of_select? hs
  generalize (Arm.select? arms 1).map Arm.body = onOne
    at hForm hAfter hOne
  generalize (Arm.select? arms 0).map Arm.body = onZero
    at hForm hAfter hZero
  have hTyped : ∀ s, (∃ arm ∈ arms, arm.body = s) →
      s.Typed Γ := by
    rintro _ ⟨arm, hArm, rfl⟩
    exact hBodies arm hArm
  have hWrites : ∀ s n, (∃ arm ∈ arms, arm.body = s) →
      s.Writes n → (case selector arms).Writes n := by
    rintro _ n ⟨arm, hArm, rfl⟩ hn
    exact writes_case.mpr ⟨arm, hArm, hn⟩
  cases onOne with
  | some t =>
      cases hForm
      refine ⟨typed_branch hBit (hTyped t (hOne t rfl))
        (fun e he => hTyped e (hZero e he)), ?_, ?_⟩
      · intro n hn
        rcases writes_branch hn with hn | ⟨e, he, hn⟩
        · exact hWrites t n (hOne t rfl) hn
        · exact hWrites e n (hZero e he) hn
      · intro σ
        rw [after_branch, hAfter]
        rfl
  | none =>
      cases onZero with
      | some e =>
          cases hForm
          have hNot := hBit.neg
          refine ⟨⟨hNot.typed, hNot.width_eq,
            hTyped e (hZero e rfl)⟩, ?_, ?_⟩
          · intro n hn
            exact hWrites e n (hZero e rfl) hn
          · intro σ
            rw [after, hNot.bit_eq σ, hAfter]
            cases (selector.value σ).testBit 0 <;> rfl
      | none =>
          cases hForm
          refine ⟨trivial, ?_, ?_⟩
          · intro n hn
            cases hn
          · intro σ
            rw [hAfter]
            split <;> rfl

end

/- A case as nested `if` statements does what the case does. -/
theorem redoes_ifChain
    (hCase : (case selector arms).Typed Γ)
    (hFit : ∀ arm ∈ arms, ∀ l ∈ arm.labels,
      l.value < 2 ^ selector.width)
    {p : Fallback}
    {s : Stmt}
    (hForm : caseTo selector arms .ifChain p = .ok (.stmt s)) :
    Redoes Γ (case selector arms) s := by
  have hBodies := typedArms_iff.mp hCase.2.2
  rcases caseTo_cases hForm with ⟨_, hBinary | hGuarded⟩
  · exact redoes_binaryCase hCase.1 hFit hBodies hBinary.1 hBinary.2
  · exact redoes_guardedCase hCase.1 hFit hBodies hGuarded.2

end Stmt

end Gatework

------------------------------------------------------------
-- Targets
------------------------------------------------------------

namespace Gatework

namespace Target

variable {Γ : Var → Prop}

/- The same bits of one signal. -/
structure Alike
    (t u : Target) :
    Prop where
  name_eq : t.var.name = u.var.name
  signal_eq : t.var.width = u.var.width
  low_eq : t.low = u.low
  width_eq : t.width = u.width

theorem Alike.refl
    (t : Target) :
    Alike t t :=
  ⟨rfl, rfl, rfl, rfl⟩

/- Targets that compare equal are the same bits. -/
theorem alike_of_same
    (hOne : OneWidth Γ)
    {t u : Target}
    (ht : t.toExpr.Typed Γ)
    (hu : u.toExpr.Typed Γ)
    (hSame : t.same u = true) :
    Alike t u := by
  have hWidths : t.width = u.width :=
    (Expr.same_sound hOne ht hu hSame).1
  have hNames : t.var.name = u.var.name ∧ t.low = u.low := by
    cases t with
    | whole v =>
        cases u with
        | whole w => exact ⟨beq_iff_eq.mp hSame, rfl⟩
        | _ => cases hSame
    | bit v i =>
        cases u with
        | bit w j =>
            rcases Bool.and_eq_true_iff.mp hSame with
              ⟨hIndex, hVar⟩
            exact ⟨beq_iff_eq.mp hVar, beq_iff_eq.mp hIndex⟩
        | _ => cases hSame
    | part v m l =>
        cases u with
        | part w n k =>
            simp only [same, toExpr, Expr.same, Bool.and_eq_true,
              beq_iff_eq] at hSame
            refine ⟨hSame.2, ?_⟩
            simp only [low, field?, hSame.1.1, hSame.1.2]
        | _ => cases hSame
  exact ⟨hNames.1,
    hOne _ _ (typed_var ht).2.2 (typed_var hu).2.2 hNames.1,
    hNames.2, hWidths⟩

/- A target read as an expression has the bits it selects. -/
theorem testBit_value
    {t : Target}
    (ht : t.toExpr.Typed Γ)
    (σ : String → Nat)
    {i : Nat}
    (hi : i < t.width) :
    (t.toExpr.value σ).testBit i =
      (σ t.var.name).testBit (t.low + i) := by
  have hInside := low_add_width_le ht
  have hMax := (typed_var ht).2.1
  have hIndex : t.low + i < t.var.width := by
    omega
  have hVar := testBit_and_mask hMax hIndex (σ t.var.name)
  cases t with
  | whole v =>
      rw [← hVar]
      exact congrArg _ (Nat.zero_add i).symm
  | bit v j =>
      have hZero : i = 0 := by
        change i < 1 at hi
        omega
      subst hZero
      rw [← hVar]
      exact Expr.testBit_value_bit σ
  | part v m l =>
      rw [← hVar]
      exact Expr.testBit_value_part ht σ hi

end Target

end Gatework

------------------------------------------------------------
-- An if with else as one assignment
------------------------------------------------------------

namespace Gatework

variable {Γ : Var → Prop}

/- Equal bits are given equal values. -/
theorem Assign.after_congr
    {a b : Assign}
    (hTarget : a.target.Alike b.target)
    {σ : String → Nat}
    (hValue : a.value.value σ = b.value.value σ) :
    a.after σ = b.after σ := by
  funext n
  have hName : a.var.name = b.var.name := hTarget.name_eq
  have hWidth : a.var.width = b.var.width := hTarget.signal_eq
  unfold Assign.after
  rw [hName, hWidth, hTarget.low_eq, hTarget.width_eq, hValue]

namespace Stmt

theorem after_single
    (s : Stmt)
    (σ : String → Nat) :
    (block [s]).after σ = s.after σ := by
  rw [after, afterAll, afterAll]

theorem writes_single
    {s : Stmt}
    {n : String} :
    (block [s]).Writes n ↔ s.Writes n := by
  rw [writes_cons]
  exact or_iff_left (fun hn => by cases hn)

/- A block of one statement may be left out. -/
theorem Redoes.inBlock
    {s s' : Stmt}
    (h : Redoes Γ s s') :
    Redoes Γ (block [s]) s' where
  typed := h.typed
  writes := fun n hn => writes_single.mpr (h.writes n hn)
  after_eq := fun σ => (h.after_eq σ).trans (after_single s σ).symm

/- Two assignments to the same bits as a choice of values. -/
theorem redoes_choose
    (hOne : OneWidth Γ)
    {c : Expr}
    (hc : c.Typed Γ)
    (hWidth : c.width = 1)
    {t e : Stmt}
    {a b : Assign}
    (ht : Redoes Γ t (assign a))
    (he : Redoes Γ e (assign b))
    (hSame : a.target.same b.target = true) :
    Redoes Γ (ifElse c t e)
      (assign ⟨a.target, Expr.choose c a.value b.value⟩) := by
  rcases ht.typed with ⟨hTarget, hValue, hWidths⟩
  rcases he.typed with ⟨hTarget', hValue', hWidths'⟩
  have hAlike := Target.alike_of_same hOne hTarget hTarget' hSame
  have hEqual : a.value.width = b.value.width := by
    rw [← hWidths, ← hWidths', hAlike.width_eq]
  have hMux : (Expr.choose c a.value b.value).Typed Γ :=
    ⟨hc, hValue, hValue', hWidth, hEqual⟩
  refine ⟨⟨hTarget, hMux, hWidths⟩, ?_, ?_⟩
  · intro n hn
    exact writes_ifElse.mpr (Or.inl (ht.writes n hn))
  · intro σ
    have hChosen := Expr.value_mux hMux σ
    rw [after, after, ← ht.after_eq σ, ← he.after_eq σ, after,
      after]
    split
    case isTrue hBit =>
        rw [if_pos hBit] at hChosen
        apply Assign.after_congr
        · exact Target.Alike.refl a.target
        · exact hChosen
    case isFalse hBit =>
        rw [if_neg hBit] at hChosen
        apply Assign.after_congr
        · exact hAlike
        · exact hChosen

theorem redoes_collapse
    (hOne : OneWidth Γ)
    {s : Stmt}
    (hs : s.Typed Γ)
    {a : Assign}
    (hCollapse : s.collapse = .ok a) :
    Redoes Γ s (assign a) := by
  induction s generalizing a with
  | assign b =>
      cases hCollapse
      exact Redoes.refl hs
  | ifThen c t ih => cases hCollapse
  | ifElse c t e iht ihe =>
      rcases hs with ⟨hc, hWidth, ht, he⟩
      rw [collapse, bind_eq_ok_iff] at hCollapse
      rcases hCollapse with ⟨first, hFirst, hCollapse⟩
      rw [bind_eq_ok_iff] at hCollapse
      rcases hCollapse with ⟨second, hSecond, hCollapse⟩
      split at hCollapse
      case isFalse => cases hCollapse
      case isTrue hSame =>
          cases hCollapse
          exact redoes_choose hOne hc hWidth (iht ht hFirst)
            (ihe he hSecond) hSame
  | case s arms ih => cases hCollapse
  | block ss ih =>
      match ss with
      | [] => cases hCollapse
      | [s] =>
          rw [collapse] at hCollapse
          exact (ih s (List.mem_singleton_self s) hs.1
            hCollapse).inBlock
      | _ :: _ :: _ => cases hCollapse

/- An `if` with `else` as one assignment does the same. -/
theorem redoes_toMux
    (hOne : OneWidth Γ)
    {s s' : Stmt}
    (hs : s.Typed Γ)
    (hMux : s.toMux = .ok s') :
    Redoes Γ s s' := by
  induction s generalizing s' with
  | assign b => cases hMux
  | ifThen c t ih => cases hMux
  | ifElse c t e iht ihe =>
      rw [toMux] at hMux
      generalize hCollapse : collapse (ifElse c t e) = result
        at hMux
      cases result with
      | error e => cases hMux
      | ok a =>
          cases hMux
          exact redoes_collapse hOne hs hCollapse
  | case s arms ih => cases hMux
  | block ss ih =>
      match ss with
      | [] => cases hMux
      | [s] =>
          rw [toMux] at hMux
          exact (ih s (List.mem_singleton_self s) hs.1
            hMux).inBlock
      | _ :: _ :: _ => cases hMux

end Stmt

end Gatework

------------------------------------------------------------
-- The value of a case
------------------------------------------------------------

namespace Gatework

variable {Γ : Var → Prop}

namespace Stmt

theorem singleAssign?_of_single
    {body : Stmt}
    {a : Assign}
    (hSingle : single body = .ok a) :
    body.singleAssign? = some a := by
  unfold single at hSingle
  split at hSingle
  case h_1 b hb =>
      cases hSingle
      exact hb
  case h_2 => cases hSingle

/-
  What holds of an assignment, and of a block if it holds of
  its only statement, holds of bodies with that assignment.
-/
theorem single_induction
    {motive : Stmt → Prop}
    {a : Assign}
    (hAssign : motive (assign a))
    (hBlock : ∀ s, motive s → motive (block [s]))
    {body : Stmt}
    (hSingle : single body = .ok a) :
    motive body := by
  have hSome := singleAssign?_of_single hSingle
  clear hSingle
  induction body with
  | assign b =>
      cases hSome
      exact hAssign
  | ifThen c t ih => cases hSome
  | ifElse c t e iht ihe => cases hSome
  | case s arms ih => cases hSome
  | block ss ih =>
      cases ss with
      | nil => cases hSome
      | cons s rest =>
          cases rest with
          | nil =>
              rw [singleAssign?] at hSome
              exact hBlock s (ih s (List.mem_singleton_self s) hSome)
          | cons next rest => cases hSome

/- The only assignment of a body does what the body does. -/
theorem redoes_single
    {body : Stmt}
    (hBody : body.Typed Γ)
    {a : Assign}
    (hSingle : single body = .ok a) :
    Redoes Γ body (assign a) := by
  apply single_induction
    (motive := fun s => s.Typed Γ → Redoes Γ s (assign a)) _ _
    hSingle hBody
  · intro hTyped
    exact Redoes.refl hTyped
  · intro s ih hTyped
    exact (ih hTyped.1).inBlock

theorem writes_of_single
    {body : Stmt}
    {a : Assign}
    (hSingle : single body = .ok a)
    {n : String}
    (hn : body.Writes n) :
    n = a.var.name := by
  apply single_induction
    (motive := fun s => s.Writes n → n = a.var.name) _ _
    hSingle hn
  · intro hWrites
    exact List.mem_singleton.mp hWrites
  · intro s ih hWrites
    exact ih (writes_single.mp hWrites)

/- A body that assigns some bits, and nothing else. -/
def AssignsTo
    (t : Target)
    (body : Stmt) :
    Prop :=
  ∃ a, single body = .ok a ∧ a.target.Alike t

theorem assignsTo_of_checkTargets
    (hOne : OneWidth Γ)
    {first : Target}
    (hFirst : first.toExpr.Typed Γ)
    {arms : List (Arm Stmt)}
    (hBodies : ∀ arm ∈ arms, arm.body.Typed Γ)
    (hCheck : checkTargets first arms = .ok ()) :
    ∀ arm ∈ arms, arm.body.AssignsTo first := by
  induction arms with
  | nil => simp
  | cons next arms ih =>
      rw [checkTargets, bind_eq_ok_iff] at hCheck
      rcases hCheck with ⟨a, hSingle, hCheck⟩
      split at hCheck
      case isFalse => cases hCheck
      case isTrue hSame =>
          have hNext := redoes_single
            (hBodies next (List.mem_cons_self ..)) hSingle
          have hRest := ih
            (fun b hb => hBodies b (List.mem_cons_of_mem _ hb))
            hCheck
          have hAlike := Target.alike_of_same hOne
            hNext.typed.1 hFirst hSame
          exact List.forall_mem_cons.mpr
            ⟨⟨a, hSingle, hAlike⟩, hRest⟩

/- Every arm assigns the common target. -/
theorem assignsTo_of_commonTarget
    (hOne : OneWidth Γ)
    {selector : Expr}
    {arms : List (Arm Stmt)}
    (hBodies : ∀ arm ∈ arms, arm.body.Typed Γ)
    {t : Target}
    (hCommon : commonTarget selector arms = .ok t) :
    t.toExpr.Typed Γ ∧ ∀ arm ∈ arms, arm.body.AssignsTo t := by
  cases arms with
  | nil => cases hCommon
  | cons arm arms =>
      rw [commonTarget, bind_eq_ok_iff] at hCommon
      rcases hCommon with ⟨a, hFirst, hCommon⟩
      rw [bind_eq_ok_iff] at hCommon
      rcases hCommon with ⟨_, hOthers, hTarget⟩
      cases hTarget
      have hTyped := (redoes_single
        (hBodies arm (List.mem_cons_self ..)) hFirst).typed.1
      refine ⟨hTyped, List.forall_mem_cons.mpr ⟨?_, ?_⟩⟩
      · exact ⟨a, hFirst, Target.Alike.refl _⟩
      · exact assignsTo_of_checkTargets hOne hTyped
          (fun b hb => hBodies b (List.mem_cons_of_mem _ hb))
          hOthers

/- A choice between two values of one width. -/
theorem selectValue_spec
    {cond : Expr}
    {f : (String → Nat) → Bool}
    (hCond : Expr.IsBit Γ cond f)
    {x y : Expr}
    (hx : x.Typed Γ)
    (hy : y.Typed Γ)
    (hWidths : x.width = y.width) :
    (selectValue cond x y).Typed Γ ∧
      (selectValue cond x y).width = x.width ∧
      ∀ σ, (selectValue cond x y).value σ =
        if f σ then x.value σ else y.value σ := by
  unfold selectValue
  by_cases hOne : x.width = 1
  · rw [if_pos hOne]
    have hOther : y.width = 1 := hWidths.symm.trans hOne
    have hBit := Expr.isBit_primitiveMux hCond
      (Expr.isBit_self hx hOne) (Expr.isBit_self hy hOther)
    refine ⟨hBit.typed, hBit.width_eq.trans hOne.symm, ?_⟩
    intro σ
    rw [hBit.value_eq]
    cases f σ with
    | true => exact ((Expr.isBit_self hx hOne).value_eq σ).symm
    | false => exact ((Expr.isBit_self hy hOther).value_eq σ).symm
  · rw [if_neg hOne]
    have hMux : (Expr.choose cond x y).Typed Γ :=
      ⟨hCond.typed, hx, hy, hCond.width_eq, hWidths⟩
    refine ⟨hMux, rfl, ?_⟩
    intro σ
    rw [← hCond.bit_eq σ]
    exact Expr.value_mux hMux σ

theorem fallbackValue_typed
    {t : Target}
    (ht : t.toExpr.Typed Γ)
    (p : Fallback) :
    (fallbackValue t p).Typed Γ ∧
      (fallbackValue t p).width = t.width := by
  cases p with
  | zero =>
      have hZero := Expr.isWord_zeros (Γ := Γ) ht.width_pos
        ht.width_le
      exact ⟨hZero.typed, hZero.width_eq⟩
  | hold => exact ⟨ht, rfl⟩

/- The value of a body that assigns a target, or of none. -/
theorem typed_valueOf
    {t : Target}
    (ht : t.toExpr.Typed Γ)
    {p : Fallback}
    {body : Option Stmt}
    (hBody : ∀ s, body = some s → s.Typed Γ ∧ s.AssignsTo t)
    {x : Expr}
    (hx : valueOf t p body = .ok x) :
    x.Typed Γ ∧ x.width = t.width := by
  cases body with
  | none =>
      cases hx
      exact fallbackValue_typed ht p
  | some s =>
      rcases hBody s rfl with ⟨hs, a, hSingle, hAlike⟩
      rw [valueOf, hSingle] at hx
      cases hx
      have hAssign := (redoes_single hs hSingle).typed
      exact ⟨hAssign.2.1, hAssign.2.2.symm.trans hAlike.width_eq⟩

/- Guarded values: the first arm that accepts, or the last. -/
theorem chainValue_spec
    {selector : Expr}
    (hSelector : selector.Typed Γ)
    {t : Target}
    {p : Fallback}
    {tail : Option Stmt}
    {last : Expr}
    (hLast : valueOf t p tail = .ok last)
    (hLastTyped : last.Typed Γ)
    (hLastWidth : last.width = t.width)
    {arms : List (Arm Stmt)}
    (hLabelled : ∀ arm ∈ arms, arm.isDefault = false)
    (hWords : ∀ arm ∈ arms, ∀ l ∈ arm.labels,
      l.value < 2 ^ maxWidth)
    (hBodies : ∀ arm ∈ arms, arm.body.Typed Γ)
    (hAssigns : ∀ arm ∈ arms, arm.body.AssignsTo t)
    {e : Expr}
    (he : chainValue selector last arms = .ok e) :
    e.Typed Γ ∧ e.width = t.width ∧
      ∀ σ, ∃ x,
        valueOf t p
            ((pick? arms (selector.value σ)).or tail) = .ok x ∧
          e.value σ = x.value σ := by
  induction arms generalizing e with
  | nil =>
      cases he
      exact ⟨hLastTyped, hLastWidth, fun σ => ⟨last, hLast, rfl⟩⟩
  | cons arm arms ih =>
      rw [chainValue, bind_eq_ok_iff] at he
      rcases he with ⟨rest, hRest, he⟩
      rw [bind_eq_ok_iff] at he
      rcases he with ⟨a, hSingle, he⟩
      cases he
      rcases ih
          (fun b hb => hLabelled b (List.mem_cons_of_mem _ hb))
          (fun b hb => hWords b (List.mem_cons_of_mem _ hb))
          (fun b hb => hBodies b (List.mem_cons_of_mem _ hb))
          (fun b hb => hAssigns b (List.mem_cons_of_mem _ hb))
          hRest with ⟨hTyped, hWidth, hValue⟩
      have hHead := List.mem_cons_self (a := arm) (l := arms)
      have hGuard := Arm.isBit_guard_accepts hSelector
        (hLabelled arm hHead) (hWords arm hHead)
      have hAssign :=
        (redoes_single (hBodies arm hHead) hSingle).typed
      have hOwn : a.value.width = t.width := by
        rcases hAssigns arm hHead with ⟨b, hb, hAlike⟩
        cases hSingle.symm.trans hb
        exact hAssign.2.2.symm.trans hAlike.width_eq
      rcases selectValue_spec hGuard hAssign.2.1 hTyped
          (hOwn.trans hWidth.symm) with ⟨hNew, hNewWidth, hNewValue⟩
      refine ⟨hNew, hNewWidth.trans hOwn, ?_⟩
      intro σ
      rw [hNewValue σ]
      unfold pick?
      rw [List.find?_cons]
      cases arm.accepts (selector.value σ) with
      | true =>
          refine ⟨a.value, ?_, rfl⟩
          change valueOf t p (some arm.body) = _
          rw [valueOf, hSingle]
          rfl
      | false => exact hValue σ

/-
  The value of a case is typed, as wide as the target of its
  arms, and is what the selected arm assigns, or the fallback
  if no arm is selected.
-/
theorem computes_mux
    (hOne : OneWidth Γ)
    {selector : Expr}
    {arms : List (Arm Stmt)}
    (hCase : (case selector arms).Typed Γ)
    (hFit : ∀ arm ∈ arms, ∀ l ∈ arm.labels,
      l.value < 2 ^ selector.width)
    {p : Fallback}
    {e : Expr}
    (hForm : caseTo selector arms .mux p = .ok (.expr e)) :
    ∃ t, commonTarget selector arms = .ok t ∧
      t.toExpr.Typed Γ ∧
      (∀ arm ∈ arms, arm.body.AssignsTo t) ∧
      e.Typed Γ ∧ e.width = t.width ∧
      ∀ σ, ∃ x,
        valueOf t p ((Arm.select? arms (selector.value σ)).map
            Arm.body) = .ok x ∧
          e.value σ = x.value σ := by
  rcases hCase with ⟨hSelector, _, hArms⟩
  have hBodies := typedArms_iff.mp hArms
  -- A body picked by a value or as the default is a body of
  -- some arm, so it assigns the target.
  have hPicked : ∀ t,
      (∀ arm ∈ arms, arm.body.AssignsTo t) →
      ∀ s, (∃ arm ∈ arms, arm.body = s) →
        s.Typed Γ ∧ s.AssignsTo t := by
    rintro t hAssigns _ ⟨arm, hArm, rfl⟩
    exact ⟨hBodies arm hArm, hAssigns arm hArm⟩
  rcases caseTo_cases hForm with
    ⟨_, ⟨hBit, hBinary⟩ | ⟨_, hGuarded⟩⟩
  · unfold binaryCase at hBinary
    rcases bind_eq_ok_iff.mp hBinary with ⟨t, hCommon, hRest⟩
    rcases bind_eq_ok_iff.mp hRest with ⟨x, hx, hRest⟩
    rcases bind_eq_ok_iff.mp hRest with ⟨y, hy, hResult⟩
    cases hResult
    rcases assignsTo_of_commonTarget hOne hBodies hCommon with
      ⟨ht, hAssigns⟩
    have hOfOne := typed_valueOf ht (fun s hs =>
      hPicked t hAssigns s (mem_of_select? hs)) hx
    have hOfZero := typed_valueOf ht (fun s hs =>
      hPicked t hAssigns s (mem_of_select? hs)) hy
    rcases selectValue_spec (Expr.isBit_self hSelector hBit)
        hOfOne.1 hOfZero.1 (hOfOne.2.trans hOfZero.2.symm) with
      ⟨he, heWidth, hValue⟩
    refine ⟨t, hCommon, ht, hAssigns, he,
      heWidth.trans hOfOne.2, ?_⟩
    intro σ
    have hSmall : selector.value σ < 2 ^ 1 :=
      hBit ▸ hSelector.value_lt σ
    rw [hValue σ, eq_toNat_testBit hSmall]
    cases (selector.value σ).testBit 0 with
    | true => exact ⟨x, hx, rfl⟩
    | false => exact ⟨y, hy, rfl⟩
  · unfold guardedCase at hGuarded
    rcases bind_eq_ok_iff.mp hGuarded with ⟨t, hCommon, hRest⟩
    rcases bind_eq_ok_iff.mp hRest with ⟨last, hLast, hRest⟩
    rcases bind_eq_ok_iff.mp hRest with ⟨x, hx, hResult⟩
    cases hResult
    rcases assignsTo_of_commonTarget hOne hBodies hCommon with
      ⟨ht, hAssigns⟩
    have hOfLast := typed_valueOf ht (fun s hs =>
      hPicked t hAssigns s (mem_of_default hs)) hLast
    have hMem : ∀ arm ∈ Arm.labelledIn arms, arm ∈ arms :=
      fun arm hArm => (Arm.mem_labelledIn.mp hArm).1
    rcases chainValue_spec hSelector hLast hOfLast.1 hOfLast.2
        (fun arm hArm => (Arm.mem_labelledIn.mp hArm).2)
        (fun arm hArm =>
          words_of_fit hSelector hFit (hMem arm hArm))
        (fun arm hArm => hBodies arm (hMem arm hArm))
        (fun arm hArm => hAssigns arm (hMem arm hArm)) hx with
      ⟨he, heWidth, hValue⟩
    refine ⟨t, hCommon, ht, hAssigns, he, heWidth, ?_⟩
    intro σ
    rw [← pick?_or_default, ← pick?_labelledIn]
    exact hValue σ

end Stmt

end Gatework
