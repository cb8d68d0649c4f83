import Gatework.Expr.Basic

/-
  Equality of expressions up to the operand order of
  unordered gates.

  Signals are equal when their names are, constants when
  value and width are; marks and spelling play no part.

  Key definitions include:
    * `Expr.same`
    * `Expr.complementary`
-/

namespace Gatework

namespace Expr

mutual

/-
  Equal trees, where AND, OR, XOR and XNOR may have their
  operands swapped.
-/
def same : Expr → Expr → Bool
  | const _ c, const _ d => c.alike d
  | var _ v, var _ w => v.name == w.name
  | not _ x, not _ y => same x y
  | gate _ op a b, gate _ op' a' b' =>
      op == op' &&
        (same a a' && same b b' ||
          op.unordered && (same a b' && same b a'))
  | compare _ op a b, compare _ op' a' b' =>
      op == op' && same a a' && same b b'
  | mux _ s t f, mux _ s' t' f' =>
      same s s' && same t t' && same f f'
  | bit _ b i, bit _ b' i' => i == i' && same b b'
  | part _ b m l, part _ b' m' l' =>
      m == m' && l == l' && same b b'
  | concat _ ps, concat _ qs => sameAll ps qs
  | _, _ => false

/- Lists of one length with equal trees at each place. -/
def sameAll : List Expr → List Expr → Bool
  | [], [] => true
  | p :: ps, q :: qs => same p q && sameAll ps qs
  | _, _ => false

end

/- One of the two is the negation of the other. -/
def complementary : Expr → Expr → Bool
  | not m x, not n y => same x (not n y) || same y (not m x)
  | not _ x, b => same x b
  | a, not _ y => same y a
  | _, _ => false

end Expr

end Gatework
