import Gatework.Proofs.Flatten.Correctness
import Gatework.Stmt.Reshape

/-
  Which arm of a case is taken.

  An arm is looked up by the value of the selector, by the
  guards of nested `if` statements, by the bodies for the
  values 0 and 1 of a single bit, and by the guards of
  flattening. All of these compare labels as they are.
  Execution cuts labels to the width of the selector first,
  so a label that does not fit can be hit there alone.

  Key definitions include:
    * `Arm.first?`
    * `Expr.isOne`
    * `Flattening.guards`

  Key theorems include:
    * `Stmt.run_case` and `Stmt.exec_case`
    * `Flattening.isOne_guards`
    * `Stmt.case_selections_agree`
-/

------------------------------------------------------------
-- First of several arms
------------------------------------------------------------

namespace Gatework

namespace Arm

variable {α : Type}
variable {arms : List (Arm α)}

/- The first labelled arm that is picked, else the default. -/
def first?
    (picked : Arm α → Bool)
    (arms : List (Arm α)) :
    Option (Arm α) :=
  ((labelledIn arms).find? picked).or (defaultIn? arms)

/- Tests that tell alike find the same arm. -/
theorem find?_congr
    {picked picked' : Arm α → Bool}
    (h : ∀ arm ∈ arms, picked arm = picked' arm) :
    arms.find? picked = arms.find? picked' := by
  induction arms with
  | nil => rfl
  | cons arm arms ih =>
      rw [List.find?_cons, List.find?_cons,
        h arm (List.mem_cons_self ..),
        ih (fun a ha => h a (List.mem_cons_of_mem _ ha))]

theorem mem_labelledIn
    {arm : Arm α} :
    arm ∈ labelledIn arms ↔ arm ∈ arms ∧ arm.isDefault = false := by
  simp [labelledIn]

theorem first?_congr
    {picked picked' : Arm α → Bool}
    (h : ∀ arm ∈ labelledIn arms, picked arm = picked' arm) :
    first? picked arms = first? picked' arms := by
  unfold first?
  rw [find?_congr h]

/- Looking among the labelled arms passes over the others. -/
theorem find?_labelledIn
    (picked : Arm α → Bool)
    (arms : List (Arm α)) :
    (labelledIn arms).find? picked =
      arms.find? (fun arm => !arm.isDefault && picked arm) := by
  rw [labelledIn, List.find?_filter]
  congr 1
  funext arm
  rw [Bool.decide_and, Bool.decide_eq_true, Bool.decide_eq_true]

/- Selection by value looks at the labels as they are. -/
theorem select?_eq_first?
    (arms : List (Arm α))
    (value : Nat) :
    select? arms value =
      first? (fun arm => arm.accepts value) arms := by
  have hFind : (labelledIn arms).find?
        (fun arm => arm.accepts value) =
      arms.find? (fun arm => arm.accepts value) := by
    rw [find?_labelledIn]
    congr 1
    funext arm
    rw [accepts, ← Bool.and_assoc, Bool.and_self]
  unfold select? first?
  rw [hFind]
  cases arms.find? (fun arm => arm.accepts value) <;> rfl

/-
  A wider test finds the same arm just if nothing passes it
  before the first arm that passes the narrower one.
-/
theorem first?_eq_iff
    {wide narrow : Arm α → Bool}
    (hWider : ∀ arm, narrow arm = true → wide arm = true) :
    first? wide arms = first? narrow arms ↔
      ∀ arm ∈ (labelledIn arms).takeWhile (fun a => !narrow a),
        wide arm = false := by
  unfold first?
  have hDefault : ∀ arm ∈ labelledIn arms,
      defaultIn? arms ≠ some arm := by
    intro arm hArm hSome
    have hMark := List.find?_some hSome
    rw [(mem_labelledIn.mp hArm).2] at hMark
    cases hMark
  generalize defaultIn? arms = last at hDefault
  generalize labelledIn arms = labelled at hDefault
  induction labelled with
  | nil => simp
  | cons arm rest ih =>
      have hRest := ih
        (fun a ha => hDefault a (List.mem_cons_of_mem _ ha))
      rw [List.find?_cons, List.find?_cons, List.takeWhile_cons]
      cases hNarrow : narrow arm with
      | true => simp [hWider arm hNarrow]
      | false =>
          cases hWide : wide arm with
          | false => simpa [hWide] using hRest
          | true =>
              have hOther :
                  some arm ≠ (rest.find? narrow).or last := by
                intro hSame
                cases hFound : rest.find? narrow with
                | none =>
                    rw [hFound] at hSame
                    exact hDefault arm (List.mem_cons_self ..)
                      hSame.symm
                | some found =>
                    rw [hFound] at hSame
                    cases hSame
                    have hPassed := List.find?_some hFound
                    rw [hNarrow] at hPassed
                    cases hPassed
              simp [hWide, hOther]

end Arm

end Gatework

------------------------------------------------------------
-- Execution
------------------------------------------------------------

namespace Gatework

namespace Stmt

variable {ρ : Valuation}
variable {p : Fallback}

/-
  What a case writes if some arm is taken: what the body
  writes, or the fallback for every name that an arm writes.
-/
def execTaken
    (ρ : Valuation)
    (p : Fallback)
    (arms : List (Arm Stmt)) :
    Option (Arm Stmt) → Except Unbound Written
  | some arm => arm.body.exec ρ p
  | none =>
      applyFallback ρ p (writesArms [] arms).names NameMap.empty

theorem runArm_eq_find?
    (w : Written)
    (picked : Arm Unit → Bool)
    (arms : List (Arm Stmt)) :
    runArm ρ p w picked arms =
      (arms.find? fun arm =>
        picked ⟨arm.labels, arm.isDefault, ()⟩).map
          (fun arm => run ρ p w arm.body) := by
  induction arms with
  | nil => rfl
  | cons arm arms ih =>
      rw [runArm, List.find?_cons]
      cases picked ⟨arm.labels, arm.isDefault, ()⟩ with
      | true => rfl
      | false => exact ih

/- An arm one of whose labels is cut to the value. -/
def isHit
    (width value : Nat)
    (arm : Arm Stmt) :
    Bool :=
  arm.labels.any fun l => (l.value &&& mask width) == value

/- A run takes the first arm that is hit. -/
theorem run_case
    {w : Written}
    {selector : Expr}
    {value : Nat}
    (hValue : selector.eval (w.onTop ρ) = .ok value)
    (arms : List (Arm Stmt)) :
    run ρ p w (case selector arms) =
      match Arm.first? (isHit selector.width value) arms with
      | some arm => run ρ p w arm.body
      | none => applyFallback ρ p (writesArms [] arms).names w := by
  have hLabelled :
      arms.find? (fun arm => hits selector.width value
          ⟨arm.labels, arm.isDefault, ()⟩) =
        (Arm.labelledIn arms).find?
          (isHit selector.width value) := by
    rw [Arm.find?_labelledIn]
    rfl
  have hDefault :
      arms.find? (fun arm => arm.isDefault) =
        Arm.defaultIn? arms := rfl
  unfold Arm.first?
  rw [run, hValue, ok_bind, runArm_eq_find?, runArm_eq_find?,
    hLabelled, hDefault]
  cases (Arm.labelledIn arms).find?
      (isHit selector.width value) with
  | some arm => rfl
  | none => cases Arm.defaultIn? arms <;> rfl

/- Execution takes the first arm that is hit. -/
theorem exec_case
    {selector : Expr}
    {value : Nat}
    (hValue : selector.eval ρ = .ok value)
    (arms : List (Arm Stmt)) :
    (case selector arms).exec ρ p =
      execTaken ρ p arms
        (Arm.first? (isHit selector.width value) arms) := by
  have hTop : Written.onTop NameMap.empty ρ = ρ := rfl
  have hRun := @run_case ρ p NameMap.empty selector value
    (hTop.symm ▸ hValue) arms
  rw [exec, hRun]
  cases Arm.first? (isHit selector.width value) arms <;> rfl

/- A value that is a label is hit if the value fits. -/
theorem isHit_of_accepts
    {width value : Nat}
    (hWidth : width ≤ maxWidth)
    (hFits : value < 2 ^ width)
    {arm : Arm Stmt}
    (hAccepts : arm.accepts value = true) :
    isHit width value arm = true := by
  have hLabels : arm.labels.any (fun l => l.value == value) = true :=
    (Bool.and_eq_true_iff.mp hAccepts).2
  rcases List.any_eq_true.mp hLabels with ⟨l, hl, hSame⟩
  apply List.any_eq_true.mpr
  refine ⟨l, hl, ?_⟩
  rw [beq_iff_eq] at hSame ⊢
  rw [hSame, and_mask_of_lt hWidth hFits]

end Stmt

end Gatework

------------------------------------------------------------
-- Guards
------------------------------------------------------------

namespace Gatework

namespace Expr

/- The value is 1. -/
def isOne
    (ρ : Valuation)
    (e : Expr) :
    Bool :=
  match e.eval ρ with
  | .ok x => x == 1
  | .error _ => false

/- A bit has a value and is 1 where its meaning holds. -/
theorem IsBit.eval_eq
    {Γ : Var → Prop}
    {e : Expr}
    {f : (String → Nat) → Bool}
    (he : IsBit Γ e f)
    {ρ : Valuation}
    {τ : String → Nat}
    (hBound : ∀ v, Γ v → ρ v.name = some (τ v.name)) :
    e.eval ρ = .ok (f τ).toNat := by
  have hSmall : e.value τ < 2 ^ 1 :=
    he.width_eq ▸ he.typed.value_lt τ
  rw [eval_eq_value (fun v hv => hBound v (he.typed.mem hv)),
    ← he.bit_eq τ, ← eq_toNat_testBit hSmall]

theorem isOne_of_eval_eq
    {ρ : Valuation}
    {e : Expr}
    {b : Bool}
    (hEval : e.eval ρ = .ok b.toNat) :
    e.isOne ρ = b := by
  rw [isOne, hEval]
  cases b <;> rfl

/- Marks do not matter. -/
theorem IsBit.of_unmarked
    {Γ : Var → Prop}
    {e e' : Expr}
    {f : (String → Nat) → Bool}
    (he : IsBit Γ e f)
    (hSame : e'.unmarked = e.unmarked) :
    IsBit Γ e' f where
  typed := (typed_iff_of_unmarked hSame).mpr he.typed
  width_eq := (width_eq_of_unmarked hSame).trans he.width_eq
  bit_eq := fun τ => by
    rw [value_eq_of_unmarked hSame τ]
    exact he.bit_eq τ

end Expr

/- The guard of a labelled arm tells whether it accepts. -/
theorem Arm.isBit_guard_accepts
    {α : Type}
    {Γ : Var → Prop}
    {selector : Expr}
    (hSelector : selector.Typed Γ)
    {arm : Arm α}
    (hArm : arm.isDefault = false)
    (hWords : ∀ l ∈ arm.labels, l.value < 2 ^ maxWidth) :
    Expr.IsBit Γ (arm.guard selector)
      (fun τ => arm.accepts (selector.value τ)) := by
  refine (isBit_guard_of_words hSelector arm hWords).congr ?_
  intro τ
  rw [accepts, hArm]
  simp only [Bool.not_false, Bool.true_and, BEq.comm]

end Gatework

------------------------------------------------------------
-- Guards of flattening
------------------------------------------------------------

namespace Gatework

namespace Flattening

/- The guards of a case that is flattened on its own. -/
def guards
    (p : Fallback)
    (selector : Expr)
    (arms : List (Arm Stmt))
    (st : FlatState) :
    List Expr :=
  let branches : Flattening (List (Expr × Slots)) := do
    let sel ← condition NameMap.empty selector
    execLabelled p sel arms NameMap.empty
  (branches.run st).1.map Prod.fst

/- The labelled arm behind the first guard that is 1. -/
def guardedArm?
    (ρ : Valuation)
    (guards : List Expr)
    (arms : List (Arm Stmt)) :
    Option (Arm Stmt) :=
  (((Arm.labelledIn arms).zip guards).find?
    (fun branch => branch.2.isOne ρ)).map Prod.fst

/- There is one guard for each labelled arm, up to marks. -/
theorem unmarked_guards
    (p : Fallback)
    (sel : Expr)
    (arms : List (Arm Stmt))
    (slots : Slots)
    (st : FlatState) :
    ((execLabelled p sel arms slots st).1.map Prod.fst).map
        Expr.unmarked =
      (Arm.labelledIn arms).map
        (fun arm => (arm.guard sel).unmarked) := by
  induction arms generalizing st with
  | nil => rfl
  | cons arm arms ih =>
      rcases arm with ⟨labels, isDefault, body⟩
      cases isDefault with
      | true => exact ih st
      | false =>
          exact congrArg₂ List.cons
            (Expr.unmarked_stamp _ st.marks) (ih _)

/- Guards that tell alike find the same arm. -/
theorem guardedArm?_eq_find?
    {ρ : Valuation}
    {guards : List Expr}
    {labelled : List (Arm Stmt)}
    {picked : Arm Stmt → Bool}
    (h : guards.map (Expr.isOne ρ) = labelled.map picked) :
    ((labelled.zip guards).find?
        (fun branch => branch.2.isOne ρ)).map Prod.fst =
      labelled.find? picked := by
  induction labelled generalizing guards with
  | nil => rfl
  | cons arm labelled ih =>
      cases guards with
      | nil => cases h
      | cons guard guards =>
          rcases List.cons.inj h with ⟨hHead, hTail⟩
          rw [List.zip_cons_cons, List.find?_cons,
            List.find?_cons, hHead]
          cases picked arm with
          | true => rfl
          | false => exact ih hTail

/- The guards of flattening tell which arms accept. -/
theorem isOne_guards
    {Γ : Var → Prop}
    {selector : Expr}
    (hSelector : selector.Typed Γ)
    {ρ : Valuation}
    {τ : String → Nat}
    (hBound : ∀ v, Γ v → ρ v.name = some (τ v.name))
    {arms : List (Arm Stmt)}
    (hWords : ∀ arm ∈ arms, ∀ l ∈ arm.labels,
      l.value < 2 ^ maxWidth)
    (p : Fallback)
    (st : FlatState) :
    (guards p selector arms st).map (Expr.isOne ρ) =
      (Arm.labelledIn arms).map
        (fun arm => arm.accepts (selector.value τ)) := by
  let sel := (selector.stamp st.marks).1
  have hSel : sel.unmarked = selector.unmarked :=
    Expr.unmarked_stamp selector st.marks
  have hTyped : sel.Typed Γ :=
    (Expr.typed_iff_of_unmarked hSel).mpr hSelector
  have hGuards := unmarked_guards p sel arms NameMap.empty
    { st with marks := (selector.stamp st.marks).2 }
  change (guards p selector arms st).map Expr.unmarked = _
    at hGuards
  generalize guards p selector arms st = listed at hGuards
  have hAccepts : ∀ arm ∈ Arm.labelledIn arms,
      Expr.IsBit Γ (arm.guard sel)
        (fun τ => arm.accepts (sel.value τ)) := by
    intro arm hArm
    rcases Arm.mem_labelledIn.mp hArm with ⟨hMem, hMark⟩
    exact Arm.isBit_guard_accepts hTyped hMark (hWords arm hMem)
  generalize Arm.labelledIn arms = labelled at hGuards hAccepts
  induction labelled generalizing listed with
  | nil =>
      rw [List.map_eq_nil_iff.mp hGuards]
      rfl
  | cons arm labelled ih =>
      cases listed with
      | nil => cases hGuards
      | cons guard listed =>
          rcases List.cons.inj hGuards with ⟨hHead, hTail⟩
          have hBit :=
            (hAccepts arm (List.mem_cons_self ..)).of_unmarked hHead
          have hOne := Expr.isOne_of_eval_eq (hBit.eval_eq hBound)
          rw [List.map_cons, List.map_cons, hOne,
            Expr.value_eq_of_unmarked hSel,
            ih listed hTail (fun a ha =>
              hAccepts a (List.mem_cons_of_mem _ ha))]

end Flattening

end Gatework

------------------------------------------------------------
-- Selections
------------------------------------------------------------

namespace Gatework

namespace Stmt

/- The body for a value of the selector, from the labels. -/
theorem pick?_or_default
    (arms : List (Arm Stmt))
    (value : Nat) :
    (pick? arms value).or ((Arm.defaultIn? arms).map Arm.body) =
      (Arm.select? arms value).map Arm.body := by
  unfold pick? Arm.select?
  cases arms.find? (fun arm => arm.accepts value) <;> rfl

/-
  The arm of a case is the same however it is looked up.
  Selection by value, the guards of nested `if` statements,
  the bodies for the values of a single bit and the guards
  of flattening give one arm, or none. Execution takes the
  first arm that has a label whose low bits are the value;
  that is the same arm just if no arm before the selected
  one has such a label.
-/
theorem case_selections_agree
    {selector : Expr}
    {arms : List (Arm Stmt)}
    (hValid : selector.validate = .ok ())
    (hWords : ∀ arm ∈ arms, ∀ l ∈ arm.labels,
      l.value < 2 ^ maxWidth)
    {ρ : Valuation}
    (hBound : ∀ v ∈ selector.occurrences, (ρ v.name).isSome)
    (p : Fallback)
    (st : FlatState) :
    ∃ value, selector.eval ρ = .ok value ∧
      Arm.first? (fun arm => (arm.guard selector).isOne ρ) arms =
        Arm.select? arms value ∧
      (selector.width = 1 →
        (if value = 1 then pick? arms 1 else pick? arms 0).or
            ((Arm.defaultIn? arms).map Arm.body) =
          (Arm.select? arms value).map Arm.body) ∧
      (Flattening.guardedArm? ρ
          (Flattening.guards p selector arms st) arms).or
            (Arm.defaultIn? arms) =
        Arm.select? arms value ∧
      (case selector arms).exec ρ p =
        execTaken ρ p arms
          (Arm.first? (isHit selector.width value) arms) ∧
      (Arm.first? (isHit selector.width value) arms =
          Arm.select? arms value ↔
        ∀ arm ∈ (Arm.labelledIn arms).takeWhile
            (fun arm => !arm.accepts value),
          isHit selector.width value arm = false) := by
  let τ : String → Nat := fun n => (ρ n).getD 0
  have hRead : ∀ v ∈ selector.occurrences,
      ρ v.name = some (τ v.name) := by
    intro v hv
    rcases Option.isSome_iff_exists.mp (hBound v hv) with ⟨x, hx⟩
    simp only [τ, hx, Option.getD_some]
  have hSelector : selector.Typed (· ∈ selector.occurrences) :=
    Expr.typed_of_validate hValid (fun _ hv => hv)
  have hValue : selector.eval ρ = .ok (selector.value τ) :=
    Expr.eval_eq_value hRead
  have hFits := hSelector.value_lt τ
  refine ⟨selector.value τ, hValue, ?_, ?_, ?_, exec_case hValue arms,
    ?_⟩
  · rw [Arm.select?_eq_first?]
    apply Arm.first?_congr
    intro arm hArm
    rcases Arm.mem_labelledIn.mp hArm with ⟨hMem, hMark⟩
    have hGuard := Arm.isBit_guard_accepts hSelector hMark
      (hWords arm hMem)
    exact Expr.isOne_of_eval_eq (hGuard.eval_eq hRead)
  · intro hWidth
    rw [← pick?_or_default]
    rw [hWidth] at hFits
    split
    case isTrue hOne => rw [hOne]
    case isFalse hOther =>
        have hZero : selector.value τ = 0 := by
          omega
        rw [hZero]
  · rw [Arm.select?_eq_first?, Flattening.guardedArm?,
      Flattening.guardedArm?_eq_find?
        (Flattening.isOne_guards hSelector hRead hWords p st)]
    rfl
  · rw [Arm.select?_eq_first?]
    apply Arm.first?_eq_iff
    intro arm hAccepts
    exact isHit_of_accepts hSelector.width_le hFits hAccepts

/- Two bits that select an arm. -/
def pairSelector : Expr :=
  .var none ⟨"s", 2, false⟩

/-
  An arm whose label takes three bits and ends in two zeros,
  and a default.
-/
def wideLabelArms : List (Arm Stmt) :=
  [.labelled [⟨4, 3, false, none, none⟩]
    (assign ⟨.whole ⟨"y", 1, false⟩, .ofNat 1 1⟩),
   .default
    (assign ⟨.whole ⟨"y", 1, false⟩, .ofNat 0 1⟩)]

/- Where the low bits of the wide label differ, all agree. -/
theorem case_selections_agree_wideLabel :
    ∃ value,
      pairSelector.eval (fun _ => some 1) = .ok value ∧
        Arm.first?
            (fun arm =>
              (arm.guard pairSelector).isOne (fun _ => some 1))
            wideLabelArms =
          Arm.select? wideLabelArms value ∧
        (case pairSelector wideLabelArms).exec
            (fun _ => some 1) .zero =
          execTaken (fun _ => some 1) .zero wideLabelArms
            (Arm.select? wideLabelArms value) := by
  rcases @case_selections_agree pairSelector wideLabelArms
      rfl (by decide) (fun _ => some 1) (fun _ _ => rfl) .zero
      ⟨[], 0⟩ with
    ⟨value, hValue, hGuards, _, _, hExec, hSame⟩
  refine ⟨value, hValue, hGuards, ?_⟩
  cases hValue
  rw [hExec, hSame.mpr (by decide)]

/-
  Where they are the value, execution takes the labelled arm
  and every other way gives the default.
-/
theorem case_selections_differ_wideLabel :
    Arm.check wideLabelArms = .ok () ∧
      pairSelector.validate = .ok () ∧
      pairSelector.eval (fun _ => some 0) = .ok 0 ∧
      (case pairSelector wideLabelArms).exec
          (fun _ => some 0) .zero = .ok ⟨[("y", 1)]⟩ ∧
      execTaken (fun _ => some 0) .zero wideLabelArms
          (Arm.select? wideLabelArms 0) = .ok ⟨[("y", 0)]⟩ := by
  refine ⟨rfl, rfl, rfl, rfl, rfl⟩

end Stmt

end Gatework
