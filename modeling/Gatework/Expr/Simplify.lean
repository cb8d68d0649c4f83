import Gatework.Expr.Bits
import Gatework.Expr.Equality
import Gatework.Expr.Eval

/-
  Algebraic simplification.

  Operands are simplified first; then rules apply at the node
  until none does. A rule folds to a constant, returns an
  operand, or puts one negation around an operand, so no rule
  makes a tree larger. Rules that put a negation around an
  operand only apply to single bits.

  A node whose operands did not change keeps its mark.

  Key definitions include:
    * `Expr.reduce?`, the rule that applies at a node
    * `Expr.settle`, rules until none applies
    * `Expr.simplify`
-/

------------------------------------------------------------
-- Size
------------------------------------------------------------

namespace Gatework

namespace Expr

mutual

/- The number of nodes. -/
def size : Expr → Nat
  | const _ _ => 1
  | var _ _ => 1
  | not _ x => size x + 1
  | gate _ _ a b => size a + size b + 1
  | compare _ _ a b => size a + size b + 1
  | mux _ s t f => size s + size t + size f + 1
  | bit _ b _ => size b + 1
  | part _ b _ _ => size b + 1
  | concat _ parts => sizeAll parts + 1

def sizeAll : List Expr → Nat
  | [] => 0
  | p :: ps => size p + sizeAll ps

end

end Expr

end Gatework

------------------------------------------------------------
-- Rules
------------------------------------------------------------

namespace Gatework

namespace Expr

/- The rule for a gate that has at most one constant operand. -/
def reduceGate?
    (op : GateOp)
    (a b : Expr) :
    Option Expr :=
  let zeros := ofNat 0 a.width
  let ones := ofNat (mask maxWidth) a.width
  let scalar := a.width = 1
  match op with
  | .and =>
      if a.isZero || b.isZero then some zeros
      else if a.isOnes then some b
      else if b.isOnes || a.same b then some a
      else if a.complementary b then some zeros
      else none
  | .or =>
      if a.isOnes || b.isOnes then some ones
      else if a.isZero then some b
      else if b.isZero || a.same b then some a
      else if a.complementary b then some ones
      else none
  | .xor =>
      if a.isZero then some b
      else if b.isZero then some a
      else if a.same b then some zeros
      else if scalar && a.isOnes then some (neg b)
      else if scalar && b.isOnes then some (neg a)
      else if a.complementary b then some ones
      else none
  | .xnor =>
      if a.same b then some ones
      else if a.isOnes then some b
      else if b.isOnes then some a
      else if scalar && a.isZero then some (neg b)
      else if scalar && b.isZero then some (neg a)
      else if a.complementary b then some zeros
      else none
  | .nand =>
      if a.isZero || b.isZero then some ones
      else if scalar && a.isOnes then some (neg b)
      else if scalar && (b.isOnes || a.same b) then some (neg a)
      else if a.complementary b then some ones
      else none
  | .nor =>
      if a.isOnes || b.isOnes then some zeros
      else if scalar && a.isZero then some (neg b)
      else if scalar && (b.isZero || a.same b) then some (neg a)
      else if a.complementary b then some zeros
      else none

/- A bit compared with a constant bit: itself or negated. -/
def bitAgainst
    (op : CmpOp)
    (subject : Expr)
    (c : Const) :
    Expr :=
  literal subject (op.holds (c.value.testBit 0))

/- The rule for a comparison. -/
def reduceCompare?
    (op : CmpOp)
    (lhs rhs : Expr) :
    Option Expr :=
  match lhs.asConst?, rhs.asConst? with
  | some x, some y =>
      some (ofBool (op.holds
        ((x.value &&& mask lhs.width) ==
          (y.value &&& mask lhs.width))))
  | x, y =>
      if lhs.same rhs then some (ofBool (op.holds true))
      else if lhs.complementary rhs then
        some (ofBool (op.holds false))
      else if lhs.width = 1 then
        match x, y with
        | none, some c => some (bitAgainst op lhs c)
        | some c, none => some (bitAgainst op rhs c)
        | _, _ => none
      else
        none

/- The rule for a multiplexer. -/
def reduceMux?
    (selector ifTrue ifFalse : Expr) :
    Option Expr :=
  match selector.asConst? with
  | some c => some (if c.value.testBit 0 then ifTrue else ifFalse)
  | none =>
      if ifTrue.same ifFalse then some ifTrue
      else if ifTrue.width = 1 then
        if ifTrue.isOnes && ifFalse.isZero then some selector
        else if ifTrue.isZero && ifFalse.isOnes then
          some (neg selector)
        else none
      else
        none

/- The value of constant parts below an accumulated value. -/
def foldParts?
    (high : Nat) :
    List Expr → Option Nat
  | [] => some high
  | p :: ps => do
      let c ← p.asConst?
      foldParts?
        (shiftedOut high c.width ||| (c.value &&& mask c.width)) ps

/- The result of the rule that applies at a node, if any. -/
def reduce? : Expr → Option Expr
  | const _ _ => none
  | var _ _ => none
  | not _ (const _ c) =>
      some (ofNat (complement maxWidth c.value) c.width)
  | not _ (not _ x) => some x
  | not _ _ => none
  | gate _ op a b =>
      match a.asConst?, b.asConst? with
      | some x, some y =>
          some (ofNat (op.apply x.value y.value a.width) a.width)
      | _, _ => reduceGate? op a b
  | compare _ op a b => reduceCompare? op a b
  | mux _ s t f => reduceMux? s t f
  | bit _ b i => b.asConst?.map fun c => ofBool (c.bitAt i)
  | part m b h l =>
      b.asConst?.map fun c =>
        ofNat (c.value >>> min h l) (part m b h l).width
  | concat _ parts =>
      (foldParts? 0 parts).map fun value =>
        ofNat value (totalWidth parts)

end Expr

end Gatework

------------------------------------------------------------
-- Simplification
------------------------------------------------------------

namespace Gatework

namespace Expr

/- Applies rules at the root, at most `n` of them. -/
def settleFor : Nat → Expr → Expr
  | 0, e => e
  | n + 1, e =>
      match reduce? e with
      | none => e
      | some e' => settleFor n e'

/-
  Applies rules at the root until none applies. Each rule
  leaves a smaller tree or a constant, so as many rules as
  there are nodes suffice.
-/
def settle
    (e : Expr) :
    Expr :=
  settleFor e.size e

mutual

/- Simplifies a tree from its leaves to its root. -/
def simplify : Expr → Expr
  | const m c => const m c
  | var m v => var m v
  | not m x =>
      let x' := simplify x
      settle (not (m.keepIf (x'.identical x)) x')
  | gate m op a b =>
      let a' := simplify a
      let b' := simplify b
      settle (gate
        (m.keepIf (a'.identical a && b'.identical b)) op a' b')
  | compare m op a b =>
      let a' := simplify a
      let b' := simplify b
      settle (compare
        (m.keepIf (a'.identical a && b'.identical b)) op a' b')
  | mux m s t f =>
      let s' := simplify s
      let t' := simplify t
      let f' := simplify f
      settle (mux
        (m.keepIf (s'.identical s && t'.identical t &&
          f'.identical f)) s' t' f')
  | bit m b i =>
      let b' := simplify b
      settle (bit (m.keepIf (b'.identical b)) b' i)
  | part m b h l =>
      let b' := simplify b
      settle (part (m.keepIf (b'.identical b)) b' h l)
  | concat m parts =>
      let parts' := simplifyAll parts
      settle (concat
        (m.keepIf (identicalAll parts' parts)) parts')

def simplifyAll : List Expr → List Expr
  | [] => []
  | p :: ps => simplify p :: simplifyAll ps

end

end Expr

end Gatework
