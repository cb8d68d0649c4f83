import Gatework.Proofs.Expr.KnownBits
import Gatework.Proofs.Stmt.Reshape

/-
  The execution of a case as nested `if` statements.

  Nested `if` statements run the body of the arm that the
  value of the selector picks, as the case does, and read no
  more than the case on the way. Where no arm is picked the
  case lets every signal of its arms fall back; the nested
  form has one `if` without `else`, and only the signals of
  its body fall back.

  Key definitions include:
    * `Stmt.openArm?`, the arm of the `if` without `else`
    * `Stmt.execNested`

  Key theorems include:
    * `Stmt.exec_ifChain`
    * `Stmt.nestedIfs_exact`
    * `Stmt.nestedIfs_fallback`
-/

------------------------------------------------------------
-- Arms
------------------------------------------------------------

namespace Gatework

namespace Arm

variable {α : Type}
variable {arms : List (Arm α)}

/- Arms that pass the check are labelled or the default. -/
theorem isDefault_eq_of_check
    (hCheck : check arms = .ok ()) :
    ∀ arm ∈ arms, arm.isDefault = arm.labels.isEmpty := by
  unfold check at hCheck
  by_cases hMany : (arms.filter Arm.isDefault).length > 1
  · rw [if_pos hMany] at hCheck
    cases hCheck
  · rw [if_neg hMany] at hCheck
    clear hMany
    induction arms with
    | nil => simp
    | cons arm arms ih =>
        rw [List.forM, check_bind_eq_ok_iff] at hCheck
        rcases hCheck with ⟨hHead, hTail⟩
        refine List.forall_mem_cons.mpr ⟨?_, ih hTail⟩
        generalize arm.isDefault = marked at hHead ⊢
        generalize arm.labels.isEmpty = bare at hHead ⊢
        cases marked <;> cases bare <;>
          first | rfl | cases hHead

theorem accepts_eq_true_iff
    {arm : Arm α}
    {value : Nat} :
    arm.accepts value = true ↔
      arm.isDefault = false ∧ ∃ l ∈ arm.labels, l.value = value := by
  simp [accepts]

/- Nothing is selected if no label is the value, and no default. -/
theorem select?_eq_none_iff
    {value : Nat} :
    select? arms value = none ↔
      ∀ arm ∈ arms, arm.isDefault = false ∧
        ∀ l ∈ arm.labels, l.value ≠ value := by
  rw [select?_eq_first?, first?, find?_labelledIn, defaultIn?,
    Option.or_eq_none_iff, List.find?_eq_none, List.find?_eq_none]
  constructor
  · intro h arm hArm
    have hMark := Bool.eq_false_iff.mpr (h.2 arm hArm)
    refine ⟨hMark, ?_⟩
    intro l hl hSame
    apply h.1 arm hArm
    rw [hMark, Bool.not_false, Bool.true_and]
    exact accepts_eq_true_iff.mpr ⟨hMark, l, hl, hSame⟩
  · intro h
    refine ⟨?_, ?_⟩
    · intro arm hArm hAccepts
      rcases accepts_eq_true_iff.mp
          (Bool.and_eq_true_iff.mp hAccepts).2 with
        ⟨_, l, hl, hSame⟩
      exact (h arm hArm).2 l hl hSame
    · intro arm hArm
      exact Bool.eq_false_iff.mp (h arm hArm).1

theorem labelledIn_eq_self
    (hLabelled : ∀ arm ∈ arms, arm.isDefault = false) :
    labelledIn arms = arms := by
  apply List.filter_eq_self.mpr
  intro arm hArm
  rw [hLabelled arm hArm]
  rfl

/- The guard of an arm is known where the selector is. -/
theorem known_guard
    {ρ : Valuation}
    {selector : Expr}
    (hKnown : selector.Known ρ)
    (arm : Arm α) :
    (arm.guard selector).Known ρ := by
  apply Expr.known_joinAll
  · intro e he
    rcases List.mem_map.mp he with ⟨l, _, hEq⟩
    rw [← hEq]
    exact Expr.known_equalsConst hKnown l.value
  · trivial

/- It tells whether the arm accepts the selector's value. -/
theorem eval_guard
    {Γ : Var → Prop}
    {ρ : Valuation}
    {selector : Expr}
    (hSelector : selector.Typed Γ)
    {value : Nat}
    (hValue : selector.eval ρ = .ok value)
    {arm : Arm α}
    (hArm : arm.isDefault = false)
    (hWords : ∀ l ∈ arm.labels, l.value < 2 ^ maxWidth) :
    (arm.guard selector).eval ρ = .ok (arm.accepts value).toNat := by
  rcases Expr.eval_eq_ok_iff.mp hValue with ⟨hKnown, hEq⟩
  have hBit := isBit_guard_accepts hSelector hArm hWords
  rw [hBit.eval_of_known (known_guard hKnown arm), hEq]

end Arm

end Gatework

------------------------------------------------------------
-- Execution by selection
------------------------------------------------------------

namespace Gatework

namespace Stmt

variable {Γ : Var → Prop}
variable {ρ : Valuation}
variable {p : Fallback}
variable {selector : Expr}
variable {arms : List (Arm Stmt)}
variable {value : Nat}

/- Where labels fit, a case runs the arm that is selected. -/
theorem exec_case_of_fit
    (hWidth : selector.width ≤ maxWidth)
    (hFit : ∀ arm ∈ arms, ∀ l ∈ arm.labels,
      l.value < 2 ^ selector.width)
    (hValue : selector.eval ρ = .ok value) :
    (case selector arms).exec ρ p =
      execTaken ρ p arms (Arm.select? arms value) := by
  rw [exec_case hValue, Arm.select?_eq_first?]
  congr 1
  apply Arm.first?_congr
  intro arm hArm
  rcases Arm.mem_labelledIn.mp hArm with ⟨hMem, hMark⟩
  rw [Arm.accepts, hMark, Bool.not_false, Bool.true_and]
  unfold isHit
  apply Bool.eq_iff_iff.mpr
  simp only [List.any_eq_true]
  apply exists_congr
  intro l
  apply and_congr_right
  intro hl
  rw [and_mask_of_lt hWidth (hFit arm hMem l hl)]

/-
  What an `if` does with the body of the side taken and the
  body of the other side. Where the first is missing, the
  signals of the second fall back.
-/
def execSides
    (ρ : Valuation)
    (p : Fallback) :
    Option Stmt → Option Stmt → Except Unbound Written
  | some body, _ => body.exec ρ p
  | none, some other =>
      applyFallback ρ p other.writes.names NameMap.empty
  | none, none => .ok NameMap.empty

theorem exec_branch
    {cond : Expr}
    {taken : Bool}
    (hCond : cond.eval ρ = .ok taken.toNat)
    (body : Stmt)
    (otherwise : Option Stmt) :
    (branch cond body otherwise).exec ρ p =
      if taken then body.exec ρ p
      else execSides ρ p otherwise (some body) := by
  have hTop : Written.onTop NameMap.empty ρ = ρ := rfl
  unfold exec
  cases otherwise with
  | none =>
      rw [branch, run, hTop, hCond, ok_bind, testBit_zero_toNat]
      rfl
  | some other =>
      rw [branch, run, hTop, hCond, ok_bind, testBit_zero_toNat]
      rfl

section

variable (hSelector : selector.Typed Γ)
variable (hLabelled : ∀ arm ∈ arms, arm.isDefault = false)
variable (hWords : ∀ arm ∈ arms, ∀ l ∈ arm.labels,
  l.value < 2 ^ maxWidth)
variable (hValue : selector.eval ρ = .ok value)

include hSelector hLabelled hWords hValue

/-
  A chain of guards runs the body of the first arm that
  accepts the value, or else its tail.
-/
theorem exec_chain_of_pick
    {tail : Option Stmt}
    {body : Stmt}
    (hPick : (pick? arms value).or tail = some body) :
    ∃ s, chain selector arms tail = some s ∧
      s.exec ρ p = body.exec ρ p := by
  induction arms with
  | nil => exact ⟨body, hPick, rfl⟩
  | cons arm arms ih =>
      have hHead := List.mem_cons_self (a := arm) (l := arms)
      have hGuard := Arm.eval_guard hSelector hValue
        (hLabelled arm hHead) (hWords arm hHead)
      refine ⟨_, rfl, ?_⟩
      rw [exec_branch hGuard]
      by_cases hAccepts : arm.accepts value = true
      · rw [if_pos hAccepts]
        have hBody : some arm.body = some body := by
          simpa [pick?, hAccepts] using hPick
        rw [Option.some.inj hBody]
      · rw [if_neg hAccepts]
        have hRest : (pick? arms value).or tail = some body := by
          simpa [pick?, hAccepts] using hPick
        rcases ih
            (fun a ha => hLabelled a (List.mem_cons_of_mem _ ha))
            (fun a ha => hWords a (List.mem_cons_of_mem _ ha))
            hRest with ⟨s, hChain, hExec⟩
        rw [hChain]
        exact hExec

/-
  Where no arm accepts the value and there is no tail, the
  signals of the last arm fall back.
-/
theorem exec_chain_of_none
    (hNone : ∀ arm ∈ arms, ¬arm.accepts value = true)
    {last : Arm Stmt}
    (hLast : arms.getLast? = some last) :
    ∃ s, chain selector arms none = some s ∧
      s.exec ρ p =
        applyFallback ρ p last.body.writes.names
          NameMap.empty := by
  induction arms with
  | nil => cases hLast
  | cons arm arms ih =>
      have hHead := List.mem_cons_self (a := arm) (l := arms)
      have hGuard := Arm.eval_guard hSelector hValue
        (hLabelled arm hHead) (hWords arm hHead)
      refine ⟨_, rfl, ?_⟩
      rw [exec_branch hGuard, if_neg (hNone arm hHead)]
      cases arms with
      | nil =>
          cases hLast
          rfl
      | cons next rest =>
          rw [List.getLast?_cons_cons] at hLast
          rcases ih
              (fun a ha => hLabelled a (List.mem_cons_of_mem _ ha))
              (fun a ha => hWords a (List.mem_cons_of_mem _ ha))
              (fun a ha => hNone a (List.mem_cons_of_mem _ ha))
              hLast with ⟨s, hChain, hExec⟩
          rw [hChain]
          exact hExec

end

/- On a single bit the bodies for 1 and 0 are two sides. -/
theorem exec_binaryCase
    (hSelector : selector.Typed Γ)
    (hWidth : selector.width = 1)
    {taken : Bool}
    (hValue : selector.eval ρ = .ok taken.toNat)
    (side : Bool → Option Stmt)
    {q : Fallback}
    {s : Stmt}
    (hForm : binaryCase selector arms .ifChain q
      (side true) (side false) = .ok (.stmt s)) :
    s.exec ρ p = execSides ρ p (side taken) (side !taken) := by
  cases hOne : side true with
  | some t =>
      rw [hOne] at hForm
      cases hForm
      rw [exec_branch hValue]
      cases taken with
      | true =>
          rw [hOne]
          rfl
      | false =>
          rw [Bool.not_false, hOne]
          rfl
  | none =>
      rw [hOne] at hForm
      cases hZero : side false with
      | none =>
          rw [hZero] at hForm
          cases hForm
          cases taken with
          | true =>
              rw [hOne, Bool.not_true, hZero]
              rfl
          | false =>
              rw [hZero, Bool.not_false, hOne]
              rfl
      | some e =>
          rw [hZero] at hForm
          cases hForm
          -- The only side is the one for 0, under the negation.
          rcases Expr.eval_eq_ok_iff.mp hValue with ⟨hKnown, hEq⟩
          have hNot := (Expr.isBit_self hSelector hWidth).neg
          have hCond : (Expr.neg selector).eval ρ =
              .ok (!taken).toNat := by
            rw [hNot.eval_of_known hKnown, hEq, testBit_zero_toNat]
          have hBranch := exec_branch (p := p) hCond e none
          rw [branch] at hBranch
          rw [hBranch]
          cases taken with
          | true =>
              rw [hOne, Bool.not_true, hZero]
              rfl
          | false =>
              rw [hZero]
              rfl

end Stmt

end Gatework

------------------------------------------------------------
-- Nested ifs
------------------------------------------------------------

namespace Gatework

namespace Stmt

variable {Γ : Var → Prop}
variable {ρ : Valuation}
variable {p : Fallback}
variable {selector : Expr}
variable {arms : List (Arm Stmt)}
variable {value : Nat}

/-
  The arm of the `if` without `else` that a case without
  default leaves: the last one, but the first one where the
  selector is a single bit. There all arms have one label.
-/
def openArm?
    (selector : Expr)
    (arms : List (Arm Stmt)) :
    Option (Arm Stmt) :=
  if selector.width = 1 then arms.head? else arms.getLast?

/-
  What nested `if` statements write if some arm is selected:
  what its body writes, or the fallback for the names that
  the open arm writes.
-/
def execNested
    (ρ : Valuation)
    (p : Fallback)
    (selector : Expr)
    (arms : List (Arm Stmt)) :
    Option (Arm Stmt) → Except Unbound Written
  | some arm => arm.body.exec ρ p
  | none =>
      execSides ρ p none ((openArm? selector arms).map Arm.body)

/- Where nothing is selected there is no default. -/
theorem default_eq_none
    (hNone : Arm.select? arms value = none) :
    (Arm.defaultIn? arms).map Arm.body = none := by
  have hBody := pick?_or_default arms value
  rw [hNone, Option.map_none, Option.or_eq_none_iff] at hBody
  exact hBody.2

section

variable {bit : Bool}
variable (hCheck : Arm.check arms = .ok ())
variable (hFit : ∀ arm ∈ arms, ∀ l ∈ arm.labels, l.value < 2 ^ 1)
variable (hNone : Arm.select? arms bit.toNat = none)

include hCheck hFit hNone

/- On a single bit arms that miss a value accept the other. -/
theorem accepts_other :
    ∀ arm ∈ arms, arm.accepts (!bit).toNat = true := by
  intro arm hArm
  rcases Arm.select?_eq_none_iff.mp hNone arm hArm with
    ⟨hMark, hMissed⟩
  have hLabels : arm.labels ≠ [] := by
    have hEmpty := Arm.isDefault_eq_of_check hCheck arm hArm
    rw [hMark] at hEmpty
    simpa using hEmpty.symm
  rcases List.exists_mem_of_ne_nil _ hLabels with ⟨l, hl⟩
  have hOther : l.value = (!bit).toNat := by
    have hBound := hFit arm hArm l hl
    have hNot := hMissed l hl
    cases bit with
    | true =>
        change l.value ≠ 1 at hNot
        change l.value = 0
        omega
    | false =>
        change l.value ≠ 0 at hNot
        change l.value = 1
        omega
  exact Arm.accepts_eq_true_iff.mpr ⟨hMark, l, hl, hOther⟩

/- So the first arm is the one for the other value. -/
theorem pick?_other :
    pick? arms (!bit).toNat = arms.head?.map Arm.body := by
  have hAll := accepts_other hCheck hFit hNone
  unfold pick?
  cases arms with
  | nil => rfl
  | cons first rest =>
      rw [List.find?_cons, hAll first (List.mem_cons_self ..)]
      rfl

theorem isSome_pick?_other
    (hArms : arms ≠ []) :
    (pick? arms 1).isSome ∨ (pick? arms 0).isSome := by
  have hOther : (pick? arms (!bit).toNat).isSome := by
    rw [pick?_other hCheck hFit hNone, Option.isSome_map,
      List.isSome_head?]
    simpa using hArms
  cases bit with
  | true => exact Or.inr hOther
  | false => exact Or.inl hOther

/- It is the one selected, as there is no default. -/
theorem select?_other :
    (Arm.select? arms (!bit).toNat).map Arm.body =
      arms.head?.map Arm.body := by
  rw [← pick?_or_default, default_eq_none hNone, Option.or_none]
  exact pick?_other hCheck hFit hNone

end

/- Every case that has arms can be nested. -/
theorem exists_ifChain
    (hArms : arms ≠ [])
    (q : Fallback) :
    ∃ s, caseTo selector arms .ifChain q = .ok (.stmt s) := by
  have hSome : ¬arms.isEmpty = true := by
    simpa using hArms
  unfold caseTo
  rw [if_neg hSome]
  dsimp only
  split
  · unfold binaryCase
    dsimp only
    split
    · exact ⟨_, rfl⟩
    · exact ⟨_, rfl⟩
    · exact ⟨_, rfl⟩
  · exact ⟨_, rfl⟩

/- On a single bit the first arm is the open one. -/
theorem exec_binarySelect
    (hSelector : selector.Typed Γ)
    (hWidth : selector.width = 1)
    (hCheck : Arm.check arms = .ok ())
    (hFit : ∀ arm ∈ arms, ∀ l ∈ arm.labels, l.value < 2 ^ 1)
    {taken : Bool}
    (hValue : selector.eval ρ = .ok taken.toNat)
    {q : Fallback}
    {s : Stmt}
    (hForm : binaryCase selector arms .ifChain q
      ((Arm.select? arms 1).map Arm.body)
      ((Arm.select? arms 0).map Arm.body) = .ok (.stmt s)) :
    s.exec ρ p =
      execNested ρ p selector arms
        (Arm.select? arms taken.toNat) := by
  rw [exec_binaryCase hSelector hWidth hValue
    (fun b => (Arm.select? arms b.toNat).map Arm.body) hForm]
  cases hSelect : Arm.select? arms taken.toNat with
  | some arm => rfl
  | none =>
      rw [select?_other hCheck hFit hSelect, execNested, openArm?,
        if_pos hWidth]
      rfl

/-
  The chain of a case without default ends in an `if` for its
  last arm.
-/
theorem exec_guardedCase
    (hSelector : selector.Typed Γ)
    (hFit : ∀ arm ∈ arms, ∀ l ∈ arm.labels,
      l.value < 2 ^ selector.width)
    (hValue : selector.eval ρ = .ok value)
    (hArms : arms ≠ [])
    {q : Fallback}
    {s : Stmt}
    (hForm : guardedCase selector arms .ifChain q = .ok (.stmt s)) :
    s.exec ρ p =
      match Arm.select? arms value with
      | some arm => arm.body.exec ρ p
      | none =>
          execSides ρ p none (arms.getLast?.map Arm.body) := by
  have hLabelled : ∀ arm ∈ Arm.labelledIn arms,
      arm.isDefault = false :=
    fun arm hArm => (Arm.mem_labelledIn.mp hArm).2
  have hWords : ∀ arm ∈ Arm.labelledIn arms, ∀ l ∈ arm.labels,
      l.value < 2 ^ maxWidth :=
    fun arm hArm =>
      words_of_fit hSelector hFit (Arm.mem_labelledIn.mp hArm).1
  cases hForm
  cases hSelect : Arm.select? arms value with
  | some arm =>
      have hBody := pick?_or_default arms value
      rw [hSelect, ← pick?_labelledIn] at hBody
      rcases exec_chain_of_pick (p := p) hSelector hLabelled hWords
          hValue hBody with ⟨s, hChain, hExec⟩
      rw [hChain]
      exact hExec
  | none =>
      have hNone := Arm.select?_eq_none_iff.mp hSelect
      have hSelf : Arm.labelledIn arms = arms :=
        Arm.labelledIn_eq_self (fun arm hArm => (hNone arm hArm).1)
      have hMissed : ∀ arm ∈ arms, ¬arm.accepts value = true := by
        intro arm hArm hAccepts
        rcases Arm.accepts_eq_true_iff.mp hAccepts with
          ⟨_, l, hl, hSame⟩
        exact (hNone arm hArm).2 l hl hSame
      have hLast := List.getLast?_eq_some_getLast hArms
      rw [hSelf] at hLabelled hWords
      rcases exec_chain_of_none (p := p) hSelector hLabelled hWords
          hValue hMissed hLast with ⟨s, hChain, hExec⟩
      rw [hSelf, default_eq_none hSelect, hChain, hLast]
      exact hExec

/-
  Nested `if` statements run the arm that is selected, and
  else let the signals of the open arm fall back.
-/
theorem exec_ifChain
    (hCase : (case selector arms).Typed Γ)
    (hFit : ∀ arm ∈ arms, ∀ l ∈ arm.labels,
      l.value < 2 ^ selector.width)
    (hValue : selector.eval ρ = .ok value)
    {q : Fallback}
    {s : Stmt}
    (hForm : caseTo selector arms .ifChain q = .ok (.stmt s)) :
    s.exec ρ p =
      execNested ρ p selector arms (Arm.select? arms value) := by
  rcases hCase with ⟨hSelector, hCheck, _⟩
  have hBit : selector.width = 1 →
      value = (value.testBit 0).toNat := by
    intro hWidth
    apply eq_toNat_testBit
    rw [← hWidth, ← (Expr.eval_eq_ok_iff.mp hValue).2]
    exact hSelector.value_lt ρ.filled
  rcases caseTo_cases hForm with
    ⟨hArms, ⟨hWidth, hBinary⟩ | ⟨hUnlabelled, hGuarded⟩⟩
  · rw [hWidth] at hFit
    rw [hBit hWidth] at hValue ⊢
    exact exec_binarySelect hSelector hWidth hCheck hFit hValue
      hBinary
  · rw [exec_guardedCase hSelector hFit hValue hArms hGuarded]
    cases hSelect : Arm.select? arms value with
    | some arm => rfl
    | none =>
        -- On a single bit the other value would have been a
        -- label.
        have hWide : ¬selector.width = 1 := by
          intro hWidth
          rw [hWidth] at hFit
          rw [hBit hWidth] at hSelect
          exact hUnlabelled ⟨hWidth,
            isSome_pick?_other hCheck hFit hSelect hArms⟩
        rw [execNested, openArm?, if_neg hWide]

/- A selected arm runs in the case and in nested `if`s. -/
theorem exec_ifChain_of_selected
    (hCase : (case selector arms).Typed Γ)
    (hFit : ∀ arm ∈ arms, ∀ l ∈ arm.labels,
      l.value < 2 ^ selector.width)
    (hValue : selector.eval ρ = .ok value)
    (hSelect : Arm.select? arms value ≠ none)
    {q : Fallback}
    {s : Stmt}
    (hForm : caseTo selector arms .ifChain q = .ok (.stmt s)) :
    s.exec ρ p = (case selector arms).exec ρ p := by
  rw [exec_ifChain hCase hFit hValue hForm,
    exec_case_of_fit hCase.1.width_le hFit hValue]
  cases hArm : Arm.select? arms value with
  | some arm => rfl
  | none => exact absurd hArm hSelect

/- A case that runs has evaluated its selector. -/
theorem eval_of_exec_case
    {w : Written}
    (hExec : (case selector arms).exec ρ p = .ok w) :
    ∃ value, selector.eval ρ = .ok value := by
  unfold exec at hExec
  rw [run, bind_eq_ok_iff] at hExec
  rcases hExec with ⟨value, hValue, _⟩
  exact ⟨value, hValue⟩

/-
  A case that has arms can be nested. Where the value of the
  selector is a label or there is a default, the nested `if`
  statements write what the case writes. The labels of cases
  in the bodies need not fit.
-/
theorem nestedIfs_exact
    (hArms : arms ≠ [])
    (hValid : (case selector arms).validate = .ok ())
    (hFit : ∀ arm ∈ arms, ∀ l ∈ arm.labels,
      l.value < 2 ^ selector.width)
    (q : Fallback) :
    ∃ s, caseTo selector arms .ifChain q = .ok (.stmt s) ∧
      s.validate = .ok () ∧
      ∀ p ρ w,
        ((∃ value, selector.eval ρ = .ok value ∧
            ∃ arm ∈ arms, ∃ l ∈ arm.labels, l.value = value) ∨
          ∃ arm ∈ arms, arm.isDefault = true) →
        (case selector arms).exec ρ p = .ok w →
        s.exec ρ p = .ok w := by
  have hCase := validate_eq_ok_iff.mp hValid
  rcases @exists_ifChain selector arms hArms q with ⟨s, hForm⟩
  refine ⟨s, hForm, ?_, ?_⟩
  · exact (redoes_ifChain hCase hFit hForm).typed.validate
      (fun v hv => hv)
  · intro p ρ w hCovered hExec
    rcases eval_of_exec_case hExec with ⟨value, hValue⟩
    have hSelect : Arm.select? arms value ≠ none := by
      intro hNone
      have hMissed := Arm.select?_eq_none_iff.mp hNone
      rcases hCovered with ⟨v, hv, arm, hArm, l, hl, hSame⟩ | hDefault
      · cases hValue.symm.trans hv
        exact (hMissed arm hArm).2 l hl hSame
      · rcases hDefault with ⟨arm, hArm, hMark⟩
        rw [(hMissed arm hArm).1] at hMark
        cases hMark
    rw [exec_ifChain_of_selected hCase hFit hValue hSelect hForm]
    exact hExec

/-
  A selector that reads one of two words, the other of which
  may be missing.
-/
def eitherWord : Expr :=
  .mux none (.var none ⟨"c", 1, false⟩)
    (.var none ⟨"s", 2, false⟩) (.var none ⟨"u", 2, false⟩)

/-
  Arms that share a label, with the default between them. The
  case in the default has a label that does not fit.
-/
def sharedLabelArms : List (Arm Stmt) :=
  let y : Target := .whole ⟨"y", 1, false⟩
  let a : Expr := .var none ⟨"a", 1, false⟩
  [.labelled [⟨1, 2, false, none, none⟩]
    (ifThen a (assign ⟨y, .ofNat 1 1⟩)),
   .default
    (case a [.labelled [⟨2, 2, false, none, none⟩]
      (assign ⟨y, .ofNat 1 1⟩)]),
   .labelled
    [⟨1, 2, false, none, none⟩, ⟨2, 2, false, none, none⟩]
    (block [assign ⟨y, a⟩, assign ⟨y, .neg (.var none y.var)⟩])]

/- The first word is read and the second one is missing. -/
def firstWord
    (word : Nat) :
    Valuation
  | "c" => some 1
  | "s" => some word
  | "a" => some 0
  | "y" => some 0
  | _ => none

theorem nestedIfs_exact_sharedLabel :
    ∃ s, caseTo eitherWord sharedLabelArms .ifChain .zero =
        .ok (.stmt s) ∧
      s.validate = .ok () ∧
      s.exec (firstWord 1) .hold = .ok ⟨[("y", 0)]⟩ ∧
      s.exec (firstWord 2) .zero = .ok ⟨[("y", 1)]⟩ ∧
      s.exec (firstWord 3) .zero = .ok ⟨[("y", 1)]⟩ := by
  have hDefault : ∃ arm ∈ sharedLabelArms, arm.isDefault = true :=
    ⟨_, List.mem_cons_of_mem _ (List.mem_cons_self ..), rfl⟩
  have hLabel : ∃ arm ∈ sharedLabelArms,
      ∃ l ∈ arm.labels, l.value = 2 := by
    decide
  rcases @nestedIfs_exact eitherWord sharedLabelArms
      (List.cons_ne_nil _ _) rfl (by decide) .zero with
    ⟨s, hForm, hValid, hExec⟩
  refine ⟨s, hForm, hValid, ?_, ?_, ?_⟩
  · exact hExec .hold (firstWord 1) _ (Or.inr hDefault) rfl
  · exact hExec .zero (firstWord 2) _ (Or.inl ⟨2, rfl, hLabel⟩) rfl
  · exact hExec .zero (firstWord 3) _ (Or.inr hDefault) rfl

end Stmt

end Gatework

------------------------------------------------------------
-- Values that no arm covers
------------------------------------------------------------

namespace Gatework

namespace Stmt

variable {ρ : Valuation}
variable {p : Fallback}
variable {selector : Expr}
variable {arms : List (Arm Stmt)}
variable {value : Nat}

/- The fallback alone writes just the names it is given. -/
theorem applyFallback_empty
    {names : List String}
    (hBound : ∀ n ∈ names, (ρ n).isSome)
    (p : Fallback) :
    ∃ w, applyFallback ρ p names NameMap.empty = .ok w ∧
      ∀ n, w.find? n =
        if n ∈ names then some (p.value (ρ n)) else none := by
  rcases applyFallback_find? (p := p) (fun _ => hBound)
      NameMap.empty with ⟨w, hRun, hFind⟩
  exact ⟨w, hRun, hFind⟩

/- Fallbacks for fewer names differ unless none is left out. -/
theorem fallbacks_eq_iff
    {w w' : Written}
    {f : String → Nat}
    {names names' : List String}
    (hw : ∀ n, w.find? n = if n ∈ names then some (f n) else none)
    (hw' : ∀ n, w'.find? n =
      if n ∈ names' then some (f n) else none)
    (hSub : ∀ n ∈ names', n ∈ names) :
    (∀ n, w'.find? n = w.find? n) ↔ ∀ n ∈ names, n ∈ names' := by
  constructor
  · intro hSame n hn
    have hBoth := hSame n
    rw [hw, hw', if_pos hn] at hBoth
    by_contra hNot
    rw [if_neg hNot] at hBoth
    cases hBoth
  · intro hAll n
    rw [hw, hw']
    by_cases hn : n ∈ names'
    · rw [if_pos hn, if_pos (hSub n hn)]
    · rw [if_neg hn, if_neg (fun hMem => hn (hAll n hMem))]

/- A case may write what some arm may write. -/
theorem mem_names_writes_case
    {n : String} :
    n ∈ (case selector arms).writes.names ↔
      ∃ arm ∈ arms, n ∈ arm.body.writes.names := by
  rw [mem_names_writes]
  simp only [mem_names_writes]
  exact writes_case

/- A case that has arms has an open one. -/
theorem exists_openArm?
    (hArms : arms ≠ []) :
    ∃ inner ∈ arms, openArm? selector arms = some inner := by
  unfold openArm?
  by_cases hWidth : selector.width = 1
  · rw [if_pos hWidth]
    exact ⟨arms.head hArms, List.head_mem hArms,
      List.head?_eq_some_head hArms⟩
  · rw [if_neg hWidth]
    exact ⟨arms.getLast hArms, List.getLast_mem hArms,
      List.getLast?_eq_some_getLast hArms⟩

/-
  Where no arm covers the value, the case lets all signals of
  its arms fall back, and nested `if` statements those of the
  open arm. Both write the same just if the open arm may
  write whatever some arm may write.
-/
theorem nestedIfs_fallback
    (hArms : arms ≠ [])
    (hLabelled : ∀ arm ∈ arms, arm.isDefault = false)
    (hValid : (case selector arms).validate = .ok ())
    (hFit : ∀ arm ∈ arms, ∀ l ∈ arm.labels,
      l.value < 2 ^ selector.width)
    (hBound : ∀ n ∈ (case selector arms).reads.names ++
      (case selector arms).writes.names, (ρ n).isSome)
    (hValue : selector.eval ρ = .ok value)
    (hMissed : ∀ arm ∈ arms, ∀ l ∈ arm.labels, l.value ≠ value)
    (p q : Fallback) :
    ∃ s w w' inner,
      caseTo selector arms .ifChain q = .ok (.stmt s) ∧
      (case selector arms).exec ρ p = .ok w ∧
      s.exec ρ p = .ok w' ∧
      openArm? selector arms = some inner ∧
      (∀ n, (w'.find? n).isSome ↔ n ∈ inner.body.writes.names) ∧
      (∀ n ∈ inner.body.writes.names, w'.find? n = w.find? n) ∧
      ((∀ n, w'.find? n = w.find? n) ↔
        ∀ arm ∈ arms, ∀ n ∈ arm.body.writes.names,
          n ∈ inner.body.writes.names) := by
  have hCase := validate_eq_ok_iff.mp hValid
  have hNone : Arm.select? arms value = none :=
    Arm.select?_eq_none_iff.mpr
      (fun arm hArm => ⟨hLabelled arm hArm, hMissed arm hArm⟩)
  rcases @exists_ifChain selector arms hArms q with ⟨s, hForm⟩
  rcases @exists_openArm? selector arms hArms with
    ⟨inner, hInner, hOpen⟩
  have hBoundAll : ∀ n ∈ (case selector arms).writes.names,
      (ρ n).isSome :=
    fun n hn => hBound n (List.mem_append_right _ hn)
  have hSub : ∀ n ∈ inner.body.writes.names,
      n ∈ (case selector arms).writes.names :=
    fun n hn => mem_names_writes_case.mpr ⟨inner, hInner, hn⟩
  rcases applyFallback_empty hBoundAll p with ⟨w, hAll, hw⟩
  rcases applyFallback_empty
      (fun n hn => hBoundAll n (hSub n hn)) p with
    ⟨w', hOnly, hw'⟩
  refine ⟨s, w, w', inner, hForm, ?_, ?_, hOpen, ?_, ?_, ?_⟩
  · rw [exec_case_of_fit hCase.1.width_le hFit hValue, hNone]
    exact hAll
  · rw [exec_ifChain hCase hFit hValue hForm, hNone, execNested,
      hOpen]
    exact hOnly
  · intro n
    rw [hw']
    by_cases hn : n ∈ inner.body.writes.names
    · simp [hn]
    · simp [hn]
  · intro n hn
    rw [hw', hw, if_pos hn, if_pos (hSub n hn)]
  · rw [fallbacks_eq_iff hw hw' hSub]
    constructor
    · intro hCover arm hArm n hn
      exact hCover n (mem_names_writes_case.mpr ⟨arm, hArm, hn⟩)
    · intro hCover n hn
      rcases mem_names_writes_case.mp hn with ⟨arm, hArm, hMem⟩
      exact hCover arm hArm n hMem

/- The assignment of one signal to another. -/
def copyTo
    (n : String) :
    Stmt :=
  assign ⟨.whole ⟨n, 1, false⟩, .var none ⟨"a", 1, false⟩⟩

/- An arm for 0 that assigns `y`, and an arm for 1. -/
def zeroOneArms
    (last : Stmt) :
    List (Arm Stmt) :=
  [.labelled [⟨0, 2, false, none, none⟩] (copyTo "y"),
   .labelled [⟨1, 2, false, none, none⟩] last]

/- A selector past both labels. -/
def pastLabels : Valuation :=
  fun n => some (if n = "s" then 2 else 1)

/- The last arm writes all signals, so all are kept. -/
theorem nestedIfs_fallback_lastWritesAll :
    ∃ s w w',
      caseTo pairSelector
          (zeroOneArms (block [copyTo "z", copyTo "y"])) .ifChain
          .zero = .ok (.stmt s) ∧
        (case pairSelector
          (zeroOneArms (block [copyTo "z", copyTo "y"]))).exec
            pastLabels .hold = .ok w ∧
        s.exec pastLabels .hold = .ok w' ∧
        ∀ n, w'.find? n = w.find? n := by
  rcases @nestedIfs_fallback pastLabels pairSelector
      (zeroOneArms (block [copyTo "z", copyTo "y"])) 2
      (List.cons_ne_nil _ _) (by decide) rfl (by decide)
      (by decide) rfl (by decide) .hold .zero with
    ⟨s, w, w', inner, hForm, hCase, hNested, hOpen, _, _, hSame⟩
  refine ⟨s, w, w', hForm, hCase, hNested, hSame.mpr ?_⟩
  cases hOpen
  decide

/- A signal of the first arm alone does not fall back. -/
theorem nestedIfs_fallback_firstAlone :
    let arms := zeroOneArms (copyTo "z")
    arms ≠ [] ∧
      (∀ arm ∈ arms, arm.isDefault = false) ∧
      (case pairSelector arms).validate = .ok () ∧
      (∀ arm ∈ arms, ∀ l ∈ arm.labels,
        l.value < 2 ^ pairSelector.width) ∧
      (∀ n ∈ (case pairSelector arms).reads.names ++
        (case pairSelector arms).writes.names,
          (pastLabels n).isSome) ∧
      pairSelector.eval pastLabels = .ok 2 ∧
      (∀ arm ∈ arms, ∀ l ∈ arm.labels, l.value ≠ 2) ∧
      ∃ s,
        caseTo pairSelector arms .ifChain .zero =
            .ok (.stmt s) ∧
          (case pairSelector arms).exec pastLabels .zero =
            .ok ⟨[("y", 0), ("z", 0)]⟩ ∧
          s.exec pastLabels .zero = .ok ⟨[("z", 0)]⟩ := by
  refine ⟨List.cons_ne_nil _ _, by decide, rfl, by decide,
    by decide, rfl, by decide, _, rfl, rfl, rfl⟩

end Stmt

end Gatework
