import Gatework.Lowering.Stmt
import Gatework.Proofs.Lowering.Expr
import Gatework.Proofs.Stmt.Typing

/-
  Lowered statements are well typed.

  Labels of a case fit its selector, so that what is lowered
  can also be flattened. Targets, conditions and arms pass
  their checks, whatever the source is.

  Key definitions include:
    * `Stmt.Proper`
    * `Assign.Renders`

  Key theorems include:
    * `Lower.ensures_assign`
    * `Lower.ensures_stmt` and `Lower.ensures_stmts`
-/

------------------------------------------------------------
-- Proper statements
------------------------------------------------------------

namespace Gatework

variable {Γ : Var → Prop}

/- Typed, with labels that fit the selectors. -/
def Stmt.Proper
    (Γ : Var → Prop)
    (s : Stmt) :
    Prop :=
  s.Typed Γ ∧ s.LabelsFit

namespace Stmt

theorem proper_block
    {ss : List Stmt}
    (hAll : ∀ s ∈ ss, s.Proper Γ) :
    (block ss).Proper Γ :=
  ⟨typedAll_iff.mpr fun s hs => (hAll s hs).1,
    labelsFitAll_iff.mpr fun s hs => (hAll s hs).2⟩

/- Nothing to do is a proper body. -/
theorem proper_getD
    {s : Option Stmt}
    (hs : ∀ t, s = some t → t.Proper Γ) :
    (s.getD (block [])).Proper Γ := by
  cases s with
  | none => exact proper_block (by simp)
  | some t => exact hs t rfl

/-
  An arm with a proper body whose labels fit a width. It has
  labels unless it is the default.
-/
structure ProperArm
    (Γ : Var → Prop)
    (width : Nat)
    (arm : Arm Stmt) :
    Prop where
  labels_lt : ∀ l ∈ arm.labels, l.value < 2 ^ width
  isDefault_eq : arm.isDefault = arm.labels.isEmpty
  body : arm.body.Proper Γ

theorem proper_case
    {selector : Expr}
    (hSelector : selector.Typed Γ)
    {arms : List (Arm Stmt)}
    (hCheck : Arm.check arms = .ok ())
    (hArms : ∀ arm ∈ arms, ProperArm Γ selector.width arm) :
    (case selector arms).Proper Γ := by
  refine ⟨⟨hSelector, hCheck, ?_⟩, ?_⟩
  · exact typedArms_iff.mpr fun arm ha => (hArms arm ha).body.1
  · exact labelsFitArms_iff.mpr fun arm ha =>
      ⟨(hArms arm ha).labels_lt, (hArms arm ha).body.2⟩

end Stmt

/- A target is the expression it stands for, up to marks. -/
theorem Target.unmarked_of_ofExpr?
    {e : Expr}
    {t : Target}
    (ht : ofExpr? e = some t) :
    t.toExpr.unmarked = e.unmarked := by
  unfold ofExpr? at ht
  split at ht
  case h_4 => cases ht
  all_goals
    cases ht
    rfl

/- A target and a value of its width make an assignment. -/
theorem Target.typed_assign
    {lhs rhs : Expr}
    {t : Target}
    (ht : ofExpr? lhs = some t)
    (hLhs : lhs.Typed Γ)
    (hRhs : rhs.Typed Γ)
    (hWidths : lhs.width = rhs.width) :
    (Stmt.assign ⟨t, rhs⟩).Typed Γ := by
  have hSame := unmarked_of_ofExpr? ht
  refine ⟨?_, hRhs, ?_⟩
  · exact (Expr.typed_iff_of_unmarked hSame).mpr hLhs
  · exact (Expr.width_eq_of_unmarked hSame).trans hWidths

/-
  A typed assignment that writes the bits which one expression
  selects and takes the value that another one means, if their
  bounds are not cut off.
-/
structure Assign.Renders
    (Γ : Var → Prop)
    (scope : Scope)
    (lhs value : Hdl.Expr)
    (a : Assign) :
    Prop where
  typed : (Stmt.assign a).Typed Γ
  covers_iff : lhs.Bounded → ∀ n i,
    a.target.Covers n i ↔ lhs.Selects scope n i
  value_eq : value.Bounded → ∀ τ,
    a.value.value τ = (value.meaning scope).value τ a.target.width

/- Arms with labels and at most one default pass the check. -/
theorem Arm.check_eq_ok
    {arms : List (Arm Stmt)}
    (hDefaults : (arms.filter Arm.isDefault).length ≤ 1)
    (hLabels : ∀ arm ∈ arms,
      arm.isDefault = arm.labels.isEmpty) :
    check arms = .ok () := by
  unfold check
  rw [if_neg (Nat.not_lt.mpr hDefaults)]
  clear hDefaults
  induction arms with
  | nil => rfl
  | cons arm arms ih =>
      rw [List.forall_mem_cons] at hLabels
      rw [List.forM, hLabels.1]
      cases arm.labels.isEmpty with
      | true => exact ih hLabels.2
      | false => exact ih hLabels.2

end Gatework

------------------------------------------------------------
-- Parts of statements
------------------------------------------------------------

namespace Gatework

namespace Lower

variable {scope : Scope}
variable {N : String → Prop}
variable {Γ : Var → Prop}

/- A given name at its width is what lowering reads. -/
theorem reads_of_given
    (signals : NameMap Var)
    (v : Var)
    (hName : v.name ≠ "")
    (hWidth : v.width = widthIn signals v.name) :
    Reads signals v :=
  ⟨hName, hWidth⟩

section

variable (hValid : ValidSignals scope.signals)
variable (hΓ : ∀ v, N v.name →
  v.width = widthIn scope.signals v.name → Γ v)

include hValid hΓ

theorem ensures_assign
    {lhs value : Hdl.Expr}
    (hLhs : lhs.Over N False)
    (hValue : value.Over N False) :
    Ensures False scope.Agrees (assign lhs value)
      (Assign.Renders Γ scope lhs value) := by
  apply (ensures_target hValid hΓ hLhs).bind
  rintro x ⟨hx, t, ht, hCovers⟩
  have hSame := Target.unmarked_of_ofExpr? ht
  have hTarget : t.width = x.width := Expr.width_eq_of_unmarked hSame
  apply (ensures_exprTo hValid hΓ hValue x.width).bind
  rintro v ⟨hv, hWidth, hDenotes⟩
  have hMake : Assign.make x v = .ok ⟨t, v⟩ :=
    Assign.make_eq_ok_iff.mpr ⟨hWidth.symm, ht, rfl⟩
  apply ensures_checked_ok hMake
  refine ⟨Target.typed_assign ht hx hv hWidth.symm, hCovers, ?_⟩
  intro hBounded τ
  rw [hTarget]
  exact (hDenotes hBounded).value_eq τ

theorem ensures_caseLabel
    {label : Hdl.Expr}
    (hLabel : label.Over N False)
    (width : Nat) :
    Ensures False scope.Agrees (caseLabel label width)
      (fun c => c.value < 2 ^ width) := by
  have hFits : ∀ c : Const, c.Fits ∧ c.width = width →
      c.value < 2 ^ width := by
    rintro c ⟨hc, rfl⟩
    exact hc.2.2
  unfold caseLabel
  split
  case h_2 =>
      apply (ensures_textOf label.span).bind
      intro _ _
      exact ensures_refuse _ label.span
  case h_1 =>
      apply (ensures_operand hValid hΓ hLabel).bind
      intro op hOp
      dsimp only
      split
      case h_2 =>
          apply (ensures_textOf label.span).bind
          intro _ _
          exact ensures_fail rfl
      case h_1 c hFitted =>
          apply ensures_pure
          apply hFits
          cases op with
          | unsized l =>
              exact Hdl.Literal.fits_fit? hOp.typed.1 hFitted
          | sized e =>
              rcases Option.bind_eq_some_iff.mp hFitted with
                ⟨d, _, hResized⟩
              exact Hdl.Literal.fits_resized? hResized

end

theorem ensures_checkCaseKind
    {I : Scope → Prop}
    (kind : Hdl.CaseKind)
    (span : Span) :
    Ensures False I (checkCaseKind kind span) (fun _ => True) := by
  cases kind with
  | exact => exact ensures_pure trivial
  | casez => exact ensures_refuse _ span
  | casex => exact ensures_refuse _ span

theorem ensures_branch
    {I : Scope → Prop}
    {c : Expr}
    (hc : c.Typed Γ ∧ c.width = 1)
    {body : Stmt}
    (hBody : body.Proper Γ)
    {otherwise : Option Stmt}
    (hOtherwise : ∀ e, otherwise = some e → e.Proper Γ) :
    Ensures False I (branch c body otherwise)
      (Stmt.Proper Γ) := by
  have hCheck := Stmt.checkCondition_eq_ok_iff.mpr hc.2
  apply (ensures_check hCheck).bind
  intro _ _
  apply ensures_pure
  cases otherwise with
  | none => exact ⟨⟨hc.1, hc.2, hBody.1⟩, hBody.2⟩
  | some e =>
      have he := hOtherwise e rfl
      exact ⟨⟨hc.1, hc.2, hBody.1, he.1⟩, hBody.2, he.2⟩

end Lower

end Gatework

------------------------------------------------------------
-- Statements
------------------------------------------------------------

namespace Gatework

namespace Lower

variable {scope : Scope}
variable {N : String → Prop}
variable {Γ : Var → Prop}

/- What a statement is lowered to is proper, if anything. -/
def Settles
    (scope : Scope)
    (Γ : Var → Prop)
    (s : Hdl.Stmt) :
    Prop :=
  Ensures False scope.Agrees (stmt s)
    (fun s' => ∀ t, s' = some t → t.Proper Γ)

theorem ensures_stmts_of
    {ss : List Hdl.Stmt}
    (hEach : ∀ s ∈ ss, Settles scope Γ s) :
    Ensures False scope.Agrees (stmts ss)
      (fun parts => ∀ part ∈ parts, part.1.Proper Γ) := by
  induction ss with
  | nil =>
      rw [stmts]
      exact ensures_nil
  | cons s ss ih =>
      have hRest := ih fun t ht =>
        hEach t (List.mem_cons_of_mem _ ht)
      rw [stmts]
      apply (hEach s (List.mem_cons_self ..)).bind
      intro s' hs'
      cases s' with
      | none => exact hRest
      | some t =>
          apply (ensures_textOf s.span).bind
          intro text _
          apply ensures_cons ?_ hRest
          exact hs' t rfl

section

variable (hValid : ValidSignals scope.signals)
variable (hΓ : ∀ v, N v.name →
  v.width = widthIn scope.signals v.name → Γ v)

include hValid hΓ

/-
  Arms are proper, and at most one of them is the default,
  none if there was one before.
-/
theorem ensures_arms_of
    (width : Nat)
    {items : List (Hdl.CaseArm Hdl.Stmt)}
    (hLabels : ∀ arm ∈ items,
      (∀ l ∈ arm.labels, l.Over N False) ∧
      (arm.isDefault = false → arm.labels ≠ []))
    (hEach : ∀ arm ∈ items, Settles scope Γ arm.body)
    (seen : Bool) :
    Ensures False scope.Agrees (arms width seen items)
      (fun arms' =>
        (∀ arm ∈ arms', Stmt.ProperArm Γ width arm) ∧
        (arms'.filter Arm.isDefault).length + seen.toNat ≤ 1) := by
  induction items generalizing seen with
  | nil =>
      rw [arms]
      apply ensures_pure
      exact ⟨by simp, by simpa using Bool.toNat_le seen⟩
  | cons item items ih =>
      have hRest := ih
        (fun arm ha => hLabels arm (List.mem_cons_of_mem _ ha))
        (fun arm ha => hEach arm (List.mem_cons_of_mem _ ha))
      have hHead := hLabels item (List.mem_cons_self ..)
      have hBody := hEach item (List.mem_cons_self ..)
      rcases item with ⟨labels, isDefault, body, span⟩
      rw [arms]
      apply hBody.bind
      intro s' hs'
      have hProper := Stmt.proper_getD hs'
      dsimp only
      split
      case isTrue =>
          split
          case isTrue => exact ensures_fail rfl
          case isFalse hFirst =>
              apply (hRest true).bind
              rintro arms' ⟨hArms', hNone⟩
              apply ensures_pure
              constructor
              · rw [List.forall_mem_cons]
                refine ⟨⟨?_, rfl, hProper⟩, hArms'⟩
                simp [Arm.default]
              · rw [eq_false_of_ne_true hFirst]
                exact hNone
      case isFalse hNotDefault =>
          apply (ensures_mapM fun l hl =>
            ensures_caseLabel hValid hΓ (hHead.1 l hl) width).bind
          rintro cs ⟨hLength, hcs⟩
          have hSome : cs ≠ [] := by
            rintro rfl
            exact hHead.2 (eq_false_of_ne_true hNotDefault)
              (List.eq_nil_of_length_eq_zero hLength.symm)
          apply (hRest seen).bind
          rintro arms' ⟨hArms', hOne⟩
          apply ensures_pure
          constructor
          · rw [List.forall_mem_cons]
            refine ⟨⟨hcs, ?_, hProper⟩, hArms'⟩
            exact (List.isEmpty_eq_false_iff.mpr hSome).symm
          · exact hOne

/-
  Every statement is lowered to a proper one: by induction on
  the source.
-/
theorem ensures_stmt
    {s : Hdl.Stmt}
    (hs : s.Over N) :
    Settles scope Γ s := by
  unfold Settles
  induction s with
  | blocking t v span =>
      rw [stmt]
      apply (ensures_assign hValid hΓ hs.1 hs.2).bind
      intro a ha
      apply ensures_pure
      intro t ht
      cases ht
      exact ⟨ha.typed, trivial⟩
  | nonBlocking t v span =>
      rw [stmt]
      exact ensures_refuse _ span
  | block label body span ih =>
      have hBody := Hdl.Stmt.overAll_iff.mp hs
      rw [stmt]
      apply (ensures_stmts_of fun b hb =>
        ih b hb (hBody b hb)).bind
      intro parts hParts
      apply ensures_pure
      intro t ht
      cases ht
      apply Stmt.proper_block
      intro b hb
      rcases List.mem_map.mp hb with ⟨part, hPart, rfl⟩
      exact hParts part hPart
  | ifThen c t span ih =>
      rw [stmt]
      apply (ensures_cond hValid hΓ hs.1).bind
      intro c' hc'
      apply (ih hs.2).bind
      intro t' ht'
      have hNone : ∀ e : Stmt, none = some e →
          e.Proper Γ := nofun
      apply (ensures_branch hc' (Stmt.proper_getD ht') hNone).bind
      intro u hu
      apply ensures_pure
      rintro _ ⟨⟩
      exact hu
  | ifElse c t e span iht ihe =>
      rw [stmt]
      apply (ensures_cond hValid hΓ hs.1).bind
      intro c' hc'
      apply (iht hs.2.1).bind
      intro t' ht'
      apply (ihe hs.2.2).bind
      intro e' he'
      apply (ensures_branch hc' (Stmt.proper_getD ht') he').bind
      intro u hu
      apply ensures_pure
      rintro _ ⟨⟩
      exact hu
  | case kind selector items span ih =>
      have hItems := Hdl.Stmt.overArms_iff.mp hs.2
      rw [stmt]
      apply (ensures_checkCaseKind kind span).bind
      intro _ _
      apply (ensures_expr hValid hΓ hs.1).bind
      rintro sel ⟨hSel, _⟩
      apply (ensures_arms_of hValid hΓ sel.width
        (fun arm ha => ⟨(hItems arm ha).1, (hItems arm ha).2.1⟩)
        (fun arm ha => ih arm ha (hItems arm ha).2.2) false).bind
      rintro arms' ⟨hArms', hOne⟩
      have hCheck := Arm.check_eq_ok hOne
        fun arm ha => (hArms' arm ha).isDefault_eq
      apply (ensures_check hCheck).bind
      intro _ _
      apply ensures_pure
      rintro _ ⟨⟩
      exact Stmt.proper_case hSel hCheck hArms'
  | onEvent events body span ih =>
      rw [stmt]
      exact ensures_refuse _ span
  | empty span =>
      rw [stmt]
      exact ensures_pure nofun
  | broken span =>
      rw [stmt]
      exact ensures_refuse _ span

theorem ensures_stmts
    {ss : List Hdl.Stmt}
    (hss : ∀ s ∈ ss, s.Over N) :
    Ensures False scope.Agrees (stmts ss)
      (fun parts => ∀ part ∈ parts, part.1.Proper Γ) :=
  ensures_stmts_of fun s hs => ensures_stmt hValid hΓ (hss s hs)

end

end Lower

end Gatework
