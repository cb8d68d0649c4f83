import Gatework.Proofs.Expr.Typing

/-
  What the checked constructors make of a tree.

  They run the checks of validation while the tree is built,
  so building a tree anew succeeds exactly if the tree is
  valid. A new constant does not know the radix, sign or text
  with which the old one was written. What is wrong is said
  about the new operands: it is what validation says, with
  each constant in plain binary.

  Key definitions include:
    * `Expr.plain`, a tree without marks, signs and spelling
    * `Flaw.plain`
    * `Expr.PlainlySpelled`

  Key theorems include:
    * `Expr.validate_plain`
    * `Expr.rebuild_eq`
    * `Expr.rebuild_exact`
-/

------------------------------------------------------------
-- Checks and their results
------------------------------------------------------------

namespace Gatework

/- What follows a step that gives a fixed result. -/
theorem map_const_bind
    {ε α β γ : Type}
    (first : Except ε α)
    (b : β)
    (next : β → Except ε γ) :
    (first.map (fun _ => b) >>= next) =
      first >>= fun _ => next b := by
  cases first <;> rfl

/- A function of the last result in a sequence. -/
theorem map_bind_const
    {ε α β γ : Type}
    (first : Except ε α)
    (next : Except ε β)
    (g : β → γ) :
    (first >>= fun _ => next).map g =
      first >>= fun _ => next.map g := by
  cases first <;> rfl

/- Another wording of what is wrong, in a sequence. -/
theorem mapError_bind
    {ε α β : Type}
    (g : ε → ε)
    (first : Except ε α)
    (next : Except ε β) :
    (first >>= fun _ => next).mapError g =
      first.mapError g >>= fun _ => next.mapError g := by
  cases first <;> rfl

/- A sequence fails with the first failure. -/
theorem check_bind_eq_error_iff
    {ε : Type}
    {first next : Except ε Unit}
    {f : ε} :
    (first >>= fun _ => next) = .error f ↔
      first = .error f ∨ first = .ok () ∧ next = .error f := by
  cases first with
  | error g => simp [Bind.bind, Except.bind]
  | ok u => simp [Bind.bind, Except.bind]

end Gatework

------------------------------------------------------------
-- Plain trees
------------------------------------------------------------

namespace Gatework

namespace Expr

mutual

/-
  The tree of new nodes: no marks, signals without a sign, and
  constants with no trace of how they were written.
-/
def plain : Expr → Expr
  | const _ c => const none (Const.plain c.value c.width)
  | var _ v => var none ⟨v.name, v.width, false⟩
  | not _ x => not none (plain x)
  | gate _ op a b => gate none op (plain a) (plain b)
  | compare _ op a b => compare none op (plain a) (plain b)
  | mux _ s t f => mux none (plain s) (plain t) (plain f)
  | bit _ b i => bit none (plain b) i
  | part _ b h l => part none (plain b) h l
  | concat _ parts => concat none (plainAll parts)

def plainAll : List Expr → List Expr
  | [] => []
  | p :: ps => plain p :: plainAll ps

end

/- Every constant is printed as its plain form is. -/
def PlainlySpelled
    (e : Expr) :
    Prop :=
  ∀ m c, e.Subtree (const m c) →
    (Const.plain c.value c.width).verilog = c.verilog

end Expr

/- The same flaw of the tree of new nodes. -/
def Flaw.plain : Flaw → Flaw
  | wideNot x => wideNot x.plain
  | operandWidths node a b => operandWidths node a.plain b.plain
  | wideSelector s => wideSelector s.plain
  | bitOutside b i => bitOutside b.plain i
  | partOutside b m l => partOutside b.plain m l
  | notAssignable lhs => notAssignable lhs.plain
  | assignWidths lhs rhs => assignWidths lhs.plain rhs.plain
  | wideCondition c => wideCondition c.plain
  | f => f

namespace Expr

@[simp]
theorem width_plain
    (e : Expr) :
    e.plain.width = e.width := by
  induction e with
  | const m c => rfl
  | var m v => rfl
  | not m x ih => exact ih
  | gate m op a b iha ihb => exact iha
  | compare m op a b iha ihb => rfl
  | mux m s t f ihs iht ihf => exact iht
  | bit m b i ih => rfl
  | part m b h l ih => rfl
  | concat m parts ih =>
      simp only [plain, width]
      induction parts with
      | nil => rfl
      | cons p ps ihTail =>
          rw [plainAll, totalWidth, totalWidth,
            ih p (List.mem_cons_self ..),
            ihTail fun q hq => ih q (List.mem_cons_of_mem _ hq)]

@[simp]
theorem totalWidth_plainAll
    (parts : List Expr) :
    totalWidth (plainAll parts) = totalWidth parts :=
  width_plain (concat none parts)

@[simp]
theorem isEmpty_plainAll
    (parts : List Expr) :
    (plainAll parts).isEmpty = parts.isEmpty := by
  cases parts <;> rfl

end Expr

end Gatework

------------------------------------------------------------
-- Checks of plain trees
------------------------------------------------------------

namespace Gatework

namespace Expr

theorem checkSameWidth_plain
    (node : String)
    (a b : Expr) :
    checkSameWidth node a.plain b.plain =
      (checkSameWidth node a b).mapError Flaw.plain := by
  unfold checkSameWidth
  rw [width_plain, width_plain]
  split <;> rfl

/- The check of a new node finds what that of the old finds. -/
theorem checkNode_plain
    (e : Expr) :
    e.plain.checkNode = e.checkNode.mapError Flaw.plain := by
  cases e with
  | const m c =>
      simp only [plain, checkNode, Const.plain, Const.make]
      split
      · rfl
      · split <;> rfl
  | var m v =>
      simp only [plain, checkNode, Var.make]
      split
      · rfl
      · split <;> rfl
  | not m x =>
      simp only [plain, checkNode, checkNot, width_plain]
      split <;> rfl
  | gate m op a b => exact checkSameWidth_plain op.kind a b
  | compare m op a b => exact checkSameWidth_plain op.kind a b
  | mux m s t f =>
      simp only [plain, checkNode, checkMux, width_plain,
        checkSameWidth_plain]
      split <;> rfl
  | bit m b i =>
      simp only [plain, checkNode, checkBit, width_plain]
      split <;> rfl
  | part m b h l =>
      simp only [plain, checkNode, checkPart, width_plain]
      split <;> rfl
  | concat m parts =>
      simp only [plain, checkNode, checkConcat, isEmpty_plainAll,
        totalWidth_plainAll]
      split
      · rfl
      · split <;> rfl

theorem validateAll_plain
    {parts : List Expr}
    (hParts : ∀ p ∈ parts,
      p.plain.validate = p.validate.mapError Flaw.plain) :
    validateAll (plainAll parts) =
      (validateAll parts).mapError Flaw.plain := by
  induction parts with
  | nil => rfl
  | cons p ps ih =>
      rw [plainAll, validateAll, validateAll,
        hParts p (List.mem_cons_self ..),
        ih fun q hq => hParts q (List.mem_cons_of_mem _ hq),
        mapError_bind]

/- Validation finds the same first flaw in the plain tree. -/
theorem validate_plain
    (e : Expr) :
    e.plain.validate = e.validate.mapError Flaw.plain := by
  induction e with
  | const m c => exact checkNode_plain (const m c)
  | var m v => exact checkNode_plain (var m v)
  | not m x ih =>
      rw [validate, mapError_bind, ← ih, ← checkNode_plain]
      rfl
  | gate m op a b iha ihb =>
      rw [validate, mapError_bind, mapError_bind, ← iha, ← ihb,
        ← checkNode_plain]
      rfl
  | compare m op a b iha ihb =>
      rw [validate, mapError_bind, mapError_bind, ← iha, ← ihb,
        ← checkNode_plain]
      rfl
  | mux m s t f ihs iht ihf =>
      rw [validate, mapError_bind, mapError_bind, mapError_bind,
        ← ihs, ← iht, ← ihf, ← checkNode_plain]
      rfl
  | bit m b i ih =>
      rw [validate, mapError_bind, ← ih, ← checkNode_plain]
      rfl
  | part m b h l ih =>
      rw [validate, mapError_bind, ← ih, ← checkNode_plain]
      rfl
  | concat m parts ih =>
      rw [validate, mapError_bind, ← validateAll_plain ih,
        ← checkNode_plain]
      rfl

end Expr

end Gatework

------------------------------------------------------------
-- Checked constructors
------------------------------------------------------------

namespace Gatework

namespace Expr

/- A checked constructor gives its node if the check succeeds. -/
theorem make_eq
    (e : Expr) :
    e.make = e.checkNode.map fun _ => e := by
  unfold make
  cases e.checkNode <;> rfl

theorem rebuildAll_eq
    {parts : List Expr}
    (hParts : ∀ p ∈ parts,
      p.rebuild = p.plain.validate.map fun _ => p.plain) :
    rebuildAll parts =
      (validateAll (plainAll parts)).map fun _ => plainAll parts := by
  induction parts with
  | nil => rfl
  | cons p ps ih =>
      have hTail := ih fun q hq =>
        hParts q (List.mem_cons_of_mem _ hq)
      rw [rebuildAll, plainAll, validateAll,
        hParts p (List.mem_cons_self ..), hTail,
        map_const_bind, map_bind_const]
      simp only [map_const_bind]
      cases validateAll (plainAll ps) <;> rfl

/-
  Building a tree anew gives the plain tree, or its first flaw.
  In both the operands come first and from the left, and a
  node runs the check that validation runs at it.
-/
theorem rebuild_eq
    (e : Expr) :
    e.rebuild = e.plain.validate.map fun _ => e.plain := by
  induction e with
  | const m c =>
      simp only [rebuild, plain, validate, checkNode, Const.plain,
        Const.make]
      split
      · rfl
      · split <;> rfl
  | var m v =>
      simp only [rebuild, plain, validate, checkNode, Var.make]
      split
      · rfl
      · split <;> rfl
  | not m x ih =>
      rw [rebuild, plain, validate, ih, map_const_bind,
        map_bind_const, make_eq]
  | gate m op a b iha ihb =>
      simp only [rebuild, plain, validate, iha, ihb,
        map_const_bind, map_bind_const, make_eq]
  | compare m op a b iha ihb =>
      simp only [rebuild, plain, validate, iha, ihb,
        map_const_bind, map_bind_const, make_eq]
  | mux m s t f ihs iht ihf =>
      simp only [rebuild, plain, validate, ihs, iht, ihf,
        map_const_bind, map_bind_const, make_eq]
  | bit m b i ih =>
      rw [rebuild, plain, validate, ih, map_const_bind,
        map_bind_const, make_eq]
  | part m b h l ih =>
      rw [rebuild, plain, validate, ih, map_const_bind,
        map_bind_const, make_eq]
  | concat m parts ih =>
      rw [rebuild, plain, validate, rebuildAll_eq ih,
        map_const_bind, map_bind_const, make_eq]

end Expr

end Gatework

------------------------------------------------------------
-- Texts
------------------------------------------------------------

namespace Gatework

namespace Expr

theorem PlainlySpelled.of_mem_operands
    {e x : Expr}
    (h : e.PlainlySpelled)
    (hx : x ∈ e.operands) :
    x.PlainlySpelled :=
  fun m c hSub => h m c (hSub.ofOperand hx)

theorem verilogAll_plain
    {parts : List Expr}
    (hParts : ∀ p ∈ parts, p.plain.verilog = p.verilog) :
    verilogAll (plainAll parts) = verilogAll parts := by
  induction parts with
  | nil => rfl
  | cons p ps ih =>
      rw [plainAll, verilogAll, verilogAll,
        hParts p (List.mem_cons_self ..),
        ih fun q hq => hParts q (List.mem_cons_of_mem _ hq)]

/- A tree is printed as its plain form if its constants are. -/
theorem PlainlySpelled.verilog_plain
    {e : Expr}
    (h : e.PlainlySpelled) :
    e.plain.verilog = e.verilog := by
  induction e using inductionOperands with
  | node e ih =>
      have hOperands : ∀ x ∈ e.operands,
          x.plain.verilog = x.verilog :=
        fun x hx => ih x hx (h.of_mem_operands hx)
      cases e with
      | const m c => exact h m c .root
      | var m v => rfl
      | concat m parts =>
          have hTexts : verilogAll (plainAll parts) = verilogAll parts :=
            verilogAll_plain hOperands
          rw [plain, Expr.verilog, Expr.verilog, hTexts]
      | _ =>
          simp only [operands, List.mem_cons, List.not_mem_nil,
            or_false, forall_eq_or_imp, forall_eq] at hOperands
          simp [plain, Expr.verilog, hOperands]

theorem validateAll_eq_error
    {parts : List Expr}
    {f : Flaw}
    (hFlaw : validateAll parts = .error f) :
    ∃ p ∈ parts, p.validate = .error f := by
  induction parts with
  | nil => cases hFlaw
  | cons p ps ih =>
      rw [validateAll] at hFlaw
      rcases check_bind_eq_error_iff.mp hFlaw with hHead | ⟨_, hTail⟩
      · exact ⟨p, List.mem_cons_self .., hHead⟩
      · rcases ih hTail with ⟨q, hq, hq'⟩
        exact ⟨q, List.mem_cons_of_mem _ hq, hq'⟩

/- What is wrong with a tree is wrong at one of its nodes. -/
theorem exists_checkNode_of_validate
    {e : Expr}
    {f : Flaw}
    (hFlaw : e.validate = .error f) :
    ∃ x, e.Subtree x ∧ x.checkNode = .error f := by
  induction e using inductionOperands with
  | node e ih =>
      have hCases : e.checkNode = .error f ∨
          ∃ x ∈ e.operands, x.validate = .error f := by
        cases e with
        | const m c => exact Or.inl hFlaw
        | var m v => exact Or.inl hFlaw
        | concat m parts =>
            rw [validate] at hFlaw
            rcases check_bind_eq_error_iff.mp hFlaw with h | ⟨_, h⟩
            · exact Or.inr (validateAll_eq_error h)
            · exact Or.inl h
        | _ =>
            simp only [validate, check_bind_eq_error_iff] at hFlaw
            simp only [operands, List.mem_cons, List.not_mem_nil,
              or_false, exists_eq_or_imp, exists_eq_left]
            grind
      rcases hCases with hRoot | ⟨x, hx, hOperand⟩
      · exact ⟨e, .root, hRoot⟩
      · rcases ih x hx hOperand with ⟨y, hy, hCheck⟩
        exact ⟨y, hy.ofOperand hx, hCheck⟩

end Expr

/- The expressions that a flaw prints. -/
def Flaw.subjects : Flaw → List Expr
  | wideNot x => [x]
  | operandWidths _ a b => [a, b]
  | wideSelector s => [s]
  | bitOutside b _ => [b]
  | partOutside b _ _ => [b]
  | notAssignable lhs => [lhs]
  | assignWidths lhs rhs => [lhs, rhs]
  | wideCondition c => [c]
  | _ => []

theorem Flaw.withWidth_plain
    {x : Expr}
    (hx : x.plain.verilog = x.verilog) :
    withWidth x.plain = withWidth x := by
  unfold withWidth
  rw [hx, Expr.width_plain]

/- A flaw is told in the same words of subjects printed alike. -/
theorem Flaw.message_plain
    {f : Flaw}
    (hSubjects : ∀ x ∈ f.subjects, x.plain.verilog = x.verilog) :
    f.plain.message = f.message := by
  have hNode : f.plain.node = f.node := by
    cases f <;> rfl
  have hDetail : f.plain.detail = f.detail := by
    cases f with
    | wideNot x =>
        have hx := hSubjects x (List.mem_singleton.mpr rfl)
        exact congrArg (fun x => "operand " ++ x ++ " wide, expected 1")
          (withWidth_plain hx)
    | operandWidths node a b =>
        have ha := hSubjects a (List.mem_cons_self ..)
        have hb := hSubjects b (List.mem_cons_of_mem _ (List.mem_singleton.mpr rfl))
        exact congrArg₂
          (fun a b => "operand widths differ: " ++ a ++ ", " ++ b)
          (withWidth_plain ha) (withWidth_plain hb)
    | wideSelector s =>
        have hs := hSubjects s (List.mem_singleton.mpr rfl)
        exact congrArg (fun s => "selector " ++ s ++ " wide")
          (withWidth_plain hs)
    | bitOutside b i =>
        have hb := hSubjects b (List.mem_singleton.mpr rfl)
        exact congrArg₂
          (fun b w => "index " ++ toString i ++ " out of range for `" ++
            b ++ "` of width " ++ toString w)
          hb b.width_plain
    | partOutside b m l =>
        have hb := hSubjects b (List.mem_singleton.mpr rfl)
        exact congrArg₂
          (fun b w => Expr.partText "" m l ++ " out of range for `" ++
            b ++ "` of width " ++ toString w)
          hb b.width_plain
    | notAssignable lhs =>
        have hLhs := hSubjects lhs (List.mem_singleton.mpr rfl)
        exact congrArg (fun lhs => "`" ++ lhs ++ "` is not assignable")
          hLhs
    | assignWidths lhs rhs =>
        have hLhs := hSubjects lhs (List.mem_cons_self ..)
        have hRhs := hSubjects rhs (List.mem_cons_of_mem _ (List.mem_singleton.mpr rfl))
        exact congrArg₂ (fun lhs rhs => lhs ++ " but " ++ rhs)
          (withWidth_plain hLhs) (withWidth_plain hRhs)
    | wideCondition c =>
        have hc := hSubjects c (List.mem_singleton.mpr rfl)
        exact congrArg (fun c => "condition " ++ c ++ " wide")
          (withWidth_plain hc)
    | _ => rfl
  unfold message
  rw [hNode, hDetail]

namespace Expr

theorem subjects_of_checkSameWidth
    {node : String}
    {a b : Expr}
    {f : Flaw}
    (hFlaw : checkSameWidth node a b = .error f) :
    f.subjects = [a, b] := by
  unfold checkSameWidth at hFlaw
  split at hFlaw <;> cases hFlaw
  rfl

/- The check of a node says something about its operands. -/
theorem subjects_of_checkNode
    {e : Expr}
    {f : Flaw}
    (hFlaw : e.checkNode = .error f) :
    f.subjects ⊆ e.operands := by
  cases e with
  | gate m op a b =>
      rw [subjects_of_checkSameWidth hFlaw]
      exact List.Subset.refl _
  | compare m op a b =>
      rw [subjects_of_checkSameWidth hFlaw]
      exact List.Subset.refl _
  | mux m s t f' =>
      simp only [checkNode, checkMux] at hFlaw
      split at hFlaw
      · rw [subjects_of_checkSameWidth hFlaw]
        exact List.subset_cons_self _ _
      · cases hFlaw
        exact List.cons_subset_cons _ (List.nil_subset _)
  | const m c =>
      simp only [checkNode, Const.make] at hFlaw
      split at hFlaw
      · cases hFlaw
        exact List.nil_subset _
      · split at hFlaw <;> cases hFlaw
        exact List.nil_subset _
  | var m v =>
      simp only [checkNode, Var.make] at hFlaw
      split at hFlaw
      · cases hFlaw
        exact List.nil_subset _
      · split at hFlaw <;> cases hFlaw
        exact List.nil_subset _
  | concat m parts =>
      simp only [checkNode, checkConcat] at hFlaw
      split at hFlaw
      · cases hFlaw
        exact List.nil_subset _
      · split at hFlaw <;> cases hFlaw
        exact List.nil_subset _
  | not m x =>
      simp only [checkNode, checkNot] at hFlaw
      split at hFlaw <;> cases hFlaw
      exact List.Subset.refl _
  | bit m b i =>
      simp only [checkNode, checkBit] at hFlaw
      split at hFlaw <;> cases hFlaw
      exact List.Subset.refl _
  | part m b h l =>
      simp only [checkNode, checkPart] at hFlaw
      split at hFlaw <;> cases hFlaw
      exact List.Subset.refl _

/-
  Where constants are spelled plainly, validation says of the
  plain tree what it says of the tree.
-/
theorem message_plain_of_validate
    {e : Expr}
    {f : Flaw}
    (hPlain : e.PlainlySpelled)
    (hFlaw : e.validate = .error f) :
    f.plain.message = f.message := by
  rcases exists_checkNode_of_validate hFlaw with ⟨x, hSub, hCheck⟩
  apply Flaw.message_plain
  intro y hSubject
  have hy : y ∈ x.operands := subjects_of_checkNode hCheck hSubject
  apply PlainlySpelled.verilog_plain
  intro m c hConst
  exact hPlain m c (hSub.trans (hConst.ofOperand hy))

end Expr

end Gatework

------------------------------------------------------------
-- Building a tree anew
------------------------------------------------------------

namespace Gatework

namespace Expr

/-
  The checked constructors build a tree exactly if it is
  valid, and what they build is its plain form. Where they
  fail, they report the flaw that validation reports, said of
  plain operands; in the same words, if the constants of the
  tree are spelled plainly.
-/
theorem rebuild_exact
    (e : Expr) :
    ((∃ e', e.rebuild = .ok e') ↔ e.validate = .ok ()) ∧
    (∀ e', e.rebuild = .ok e' → e' = e.plain) ∧
    (∀ f, e.rebuild = .error f ↔
      ∃ g, e.validate = .error g ∧ f = g.plain) ∧
    ∀ f g, e.PlainlySpelled → e.rebuild = .error f →
      e.validate = .error g → f.message = g.message := by
  rw [rebuild_eq, validate_plain]
  cases hValid : e.validate with
  | error g =>
      have hFailed : ((Except.error g).mapError Flaw.plain).map
          (fun _ : Unit => e.plain) = .error g.plain := rfl
      rw [hFailed]
      refine ⟨⟨?_, nofun⟩, nofun, ?_, ?_⟩
      · rintro ⟨e', hBuilt⟩
        cases hBuilt
      · intro f
        constructor
        · intro hFlaw
          cases hFlaw
          exact ⟨g, rfl, rfl⟩
        · rintro ⟨g', hFlaw, rfl⟩
          cases hFlaw
          rfl
      · intro f g' hPlain hFlaw hFlaw'
        cases hFlaw
        cases hFlaw'
        exact message_plain_of_validate hPlain hValid
  | ok u =>
      have hBuilt : ((Except.ok u).mapError Flaw.plain).map
          (fun _ : Unit => e.plain) = .ok e.plain := rfl
      rw [hBuilt]
      refine ⟨⟨fun _ => rfl, fun _ => ⟨_, rfl⟩⟩, ?_, ?_, nofun⟩
      · intro e' hEq
        cases hEq
        rfl
      · intro f
        constructor
        · nofun
        · rintro ⟨g, hFlaw, _⟩
          cases hFlaw

/-
  A choice with three flaws: a selector of two bits, a side
  that is the negation of a wide constant, and sides of
  different widths.
-/
def flawedChoice : Expr :=
  mux none (var none ⟨"s", 2, true⟩)
    (not (some 7) (const none ⟨10, 4, false, some .binary, none⟩))
    (var none ⟨"b", 3, false⟩)

theorem rebuild_exact_flawedChoice :
    flawedChoice.rebuild = .error
        (.wideNot (const none (Const.plain 10 4))) ∧
      (Flaw.wideNot (const none (Const.plain 10 4))).message =
        (Flaw.wideNot
          (const none ⟨10, 4, false, some .binary, none⟩)).message := by
  have hBuilt : flawedChoice.rebuild = .error
      (.wideNot (const none (Const.plain 10 4))) :=
    ((rebuild_exact flawedChoice).2.2.1 _).mpr ⟨_, rfl, rfl⟩
  refine ⟨hBuilt, (rebuild_exact flawedChoice).2.2.2 _ _ ?_ hBuilt rfl⟩
  have hLeaf : ∀ v, (var none v).PlainlySpelled := by
    intro v m c hSub
    rcases subtree_cases hSub with hEq | ⟨x, hx, _⟩
    · cases hEq
    · cases hx
  intro m c hSub
  rcases subtree_cases hSub with hEq | ⟨x, hx, hSub⟩
  · cases hEq
  · simp only [flawedChoice, operands, List.mem_cons,
      List.not_mem_nil, or_false] at hx
    rcases hx with rfl | rfl | rfl
    · exact hLeaf _ m c hSub
    · rcases subtree_cases hSub with hEq | ⟨y, hy, hSub⟩
      · cases hEq
      · rcases List.mem_singleton.mp hy with rfl
        rcases subtree_cases hSub with hEq | ⟨z, hz, _⟩
        · cases hEq
          decide +kernel
        · cases hz
    · exact hLeaf _ m c hSub

/- The negation of a wide constant written in another radix. -/
def negatedHex : Expr :=
  not none (const none ⟨10, 4, false, some .hex, none⟩)

/-
  Constructors and validation do not always say the same. The
  constant has lost its radix when its negation is refused.
-/
theorem rebuild_negatedHex :
    ∃ f g, negatedHex.rebuild = .error f ∧
      negatedHex.validate = .error g ∧
      f.detail = "operand `4\'b1010` is 4 bits wide, expected 1" ∧
      g.detail = "operand `4\'ha` is 4 bits wide, expected 1" ∧
      f.message ≠ g.message := by
  refine ⟨_, _, rfl, rfl, ?_, ?_, ?_⟩
  · decide +kernel
  · decide +kernel
  · decide +kernel

end Expr

end Gatework
