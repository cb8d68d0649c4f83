import Gatework.Expr.Basic

/-
  Expressions by their direct operands.

  Most facts about a tree follow from the same facts about its
  operands, whatever the kind of its root. The subtrees of a
  tree are what can be reached through operands.

  Key definitions include:
    * `Expr.Subtree`

  Key theorems include:
    * `Expr.inductionParts` and `Expr.inductionOperands`
    * `Expr.subtree_cases`
-/

namespace Gatework

namespace Expr

/-
  Induction over expressions, where a concatenation comes
  with the statement for each of its parts.
-/
@[induction_eliminator]
theorem inductionParts
    {motive : Expr → Prop}
    (const : ∀ m c, motive (const m c))
    (var : ∀ m v, motive (var m v))
    (not : ∀ m x, motive x → motive (not m x))
    (gate : ∀ m op a b,
      motive a → motive b → motive (gate m op a b))
    (compare : ∀ m op a b,
      motive a → motive b → motive (compare m op a b))
    (mux : ∀ m s t f,
      motive s → motive t → motive f → motive (mux m s t f))
    (bit : ∀ m b i, motive b → motive (bit m b i))
    (part : ∀ m b h l, motive b → motive (part m b h l))
    (concat : ∀ m parts,
      (∀ p ∈ parts, motive p) → motive (concat m parts))
    (e : Expr) :
    motive e := by
  refine @Expr.rec motive
    (fun parts => ∀ p ∈ parts, motive p)
    const var not gate compare mux bit part concat ?_ ?_ e
  · intro p hp
    cases hp
  · intro p ps hHead hTail q hq
    rcases List.mem_cons.mp hq with rfl | hRest
    · exact hHead
    · exact hTail q hRest

/- Induction over expressions by their direct operands. -/
theorem inductionOperands
    {motive : Expr → Prop}
    (node : ∀ e, (∀ x ∈ e.operands, motive x) → motive e)
    (e : Expr) :
    motive e := by
  induction e with
  | concat m parts ih => exact node (concat m parts) ih
  | _ =>
      apply node
      simp [operands, *]

/- The tree itself, and the operands of each subtree. -/
inductive Subtree
    (e : Expr) :
    Expr → Prop where
  | root : Subtree e e
  | operand {x y} : Subtree e x → y ∈ x.operands → Subtree e y

/- A subtree of an operand is a subtree. -/
theorem Subtree.ofOperand
    {e x y : Expr}
    (hx : x ∈ e.operands)
    (hy : x.Subtree y) :
    e.Subtree y := by
  induction hy with
  | root => exact .operand .root hx
  | operand _ hOperand ih => exact .operand ih hOperand

/- A subtree of a subtree is a subtree. -/
theorem Subtree.trans
    {e x y : Expr}
    (hx : e.Subtree x)
    (hy : x.Subtree y) :
    e.Subtree y := by
  induction hy with
  | root => exact hx
  | operand _ hOperand ih => exact .operand ih hOperand

/- A subtree is the tree itself or lies in an operand. -/
theorem subtree_cases
    {e y : Expr}
    (hy : e.Subtree y) :
    y = e ∨ ∃ x ∈ e.operands, x.Subtree y := by
  induction hy with
  | root => exact Or.inl rfl
  | @operand x y hx hOperand ih =>
      right
      rcases ih with rfl | ⟨z, hz, hSub⟩
      · exact ⟨y, hOperand, .root⟩
      · exact ⟨z, hz, .operand hSub hOperand⟩

end Expr

end Gatework
