import Gatework.Text.Digits

/-
  Expressions of combinational logic: constants and signals
  of up to 64 bits, gates, comparisons, multiplexers, selects
  and concatenations.

  The width of an expression follows from its operands.
  Trees need not be well typed; `Gatework.Expr.Typing` says
  which ones are.

  Key definitions include:
    * `Const`
    * `Var`
    * `GateOp`
    * `CmpOp`
    * `Expr`
    * `Expr.width`
    * `Expr.operands`
-/

------------------------------------------------------------
-- Words
------------------------------------------------------------

namespace Gatework

/- The widest signal, in bits. -/
def maxWidth : Nat :=
  64

/- The number whose low bits, `width` or 64 of them, are 1. -/
def mask
    (width : Nat) :
    Nat :=
  (1 <<< min width maxWidth) - 1

/- The complement of a number within a width. -/
def complement
    (width value : Nat) :
    Nat :=
  mask width ^^^ (value &&& mask width)

/- A width brought into the range 1 to 64. -/
def clampWidth
    (width : Nat) :
    Nat :=
  max 1 (min width maxWidth)

end Gatework

------------------------------------------------------------
-- Leaves
------------------------------------------------------------

namespace Gatework

/-
  A constant. The sign mark, the radix and the text it was
  written as only matter when it is printed.
-/
structure Const where
  value : Nat
  width : Nat
  signed : Bool
  base : Option Radix
  raw : Option String
deriving DecidableEq, Repr, Inhabited

namespace Const

/- A constant with no trace of how it was written. -/
def plain
    (value width : Nat) :
    Const :=
  ⟨value, width, false, none, none⟩

/- One bit. -/
def bit
    (b : Bool) :
    Const :=
  plain b.toNat 1

/- All bits 0, at a width brought into range. -/
def zeros
    (width : Nat) :
    Const :=
  plain 0 (clampWidth width)

/- All bits 1, at a width brought into range. -/
def ones
    (width : Nat) :
    Const :=
  plain (mask (clampWidth width)) (clampWidth width)

/- The low bits of a value, at a width brought into range. -/
def truncated
    (value width : Nat) :
    Const :=
  plain (value &&& mask (clampWidth width)) (clampWidth width)

def isZero
    (c : Const) :
    Bool :=
  c.value == 0

def isOnes
    (c : Const) :
    Bool :=
  c.value == mask c.width

/- Bit `i`; bits from 64 on are 0. -/
def bitAt
    (c : Const)
    (i : Nat) :
    Bool :=
  decide (i < maxWidth) && c.value.testBit i

/- Two constants are alike when value and width agree. -/
def alike
    (c d : Const) :
    Bool :=
  c.value == d.value && c.width == d.width

end Const

/- A signal. Its name alone identifies it. -/
structure Var where
  name : String
  width : Nat
  signed : Bool
deriving DecidableEq, Repr, Inhabited

namespace Var

/- A signal of one bit. -/
def scalar
    (name : String) :
    Var :=
  ⟨name, 1, false⟩

end Var

end Gatework

------------------------------------------------------------
-- Operators
------------------------------------------------------------

namespace Gatework

/- Gates with two operands of one width. -/
inductive GateOp where
  | and
  | or
  | xor
  | xnor
  | nand
  | nor
deriving DecidableEq, Repr, Inhabited

namespace GateOp

/- The name of a gate in reports. -/
def name : GateOp → String
  | and => "AND"
  | or => "OR"
  | xor => "XOR"
  | xnor => "XNOR"
  | nand => "NAND"
  | nor => "NOR"

/- The kind of node a gate is. -/
def kind : GateOp → String
  | and => "And"
  | or => "Or"
  | xor => "Xor"
  | xnor => "Xnor"
  | nand => "Nand"
  | nor => "Nor"

/-
  Gates whose operands count as unordered. The two negated
  gates keep their operand order.
-/
def unordered : GateOp → Bool
  | and | or | xor | xnor => true
  | nand | nor => false

/- The value of a gate at a width. -/
def apply
    (op : GateOp)
    (a b width : Nat) :
    Nat :=
  match op with
  | and => (a &&& b) &&& mask width
  | or => (a ||| b) &&& mask width
  | xor => (a ^^^ b) &&& mask width
  | xnor => complement width (a ^^^ b)
  | nand => complement width (a &&& b)
  | nor => complement width (a ||| b)

end GateOp

/- Comparisons of two operands of one width. -/
inductive CmpOp where
  | eq
  | neq
deriving DecidableEq, Repr, Inhabited

namespace CmpOp

def name : CmpOp → String
  | eq => "EQ"
  | neq => "NEQ"

def kind : CmpOp → String
  | eq => "Eq"
  | neq => "Neq"

def symbol : CmpOp → String
  | eq => "=="
  | neq => "!="

/- Whether the comparison holds, given whether values agree. -/
def holds
    (op : CmpOp)
    (same : Bool) :
    Bool :=
  match op with
  | eq => same
  | neq => !same

end CmpOp

end Gatework

------------------------------------------------------------
-- Expressions
------------------------------------------------------------

namespace Gatework

/-
  An identity for a node. Two nodes with one mark are one
  shared node; a node without a mark is shared with none.
  Marks carry notes about nodes and never change a value.
-/
abbrev Mark := Option Nat

/-
  Expression trees. The parts of a concatenation go from the
  most to the least significant; a part select names its two
  end bits in either order.
-/
inductive Expr where
  | const (mark : Mark) (c : Const)
  | var (mark : Mark) (v : Var)
  | not (mark : Mark) (x : Expr)
  | gate (mark : Mark) (op : GateOp) (a b : Expr)
  | compare (mark : Mark) (op : CmpOp) (lhs rhs : Expr)
  | mux (mark : Mark) (selector ifTrue ifFalse : Expr)
  | bit (mark : Mark) (base : Expr) (index : Nat)
  | part (mark : Mark) (base : Expr) (msb lsb : Nat)
  | concat (mark : Mark) (parts : List Expr)
deriving Repr, Inhabited

namespace Expr

/- The mark of the root. -/
def mark : Expr → Mark
  | const m _ => m
  | var m _ => m
  | not m _ => m
  | gate m _ _ _ => m
  | compare m _ _ _ => m
  | mux m _ _ _ => m
  | bit m _ _ => m
  | part m _ _ _ => m
  | concat m _ => m

mutual

/- The number of bits of the result. -/
def width : Expr → Nat
  | const _ c => c.width
  | var _ v => v.width
  | not _ x => width x
  | gate _ _ a _ => width a
  | compare _ _ _ _ => 1
  | mux _ _ t _ => width t
  | bit _ _ _ => 1
  | part _ _ msb lsb => max msb lsb - min msb lsb + 1
  | concat _ parts => totalWidth parts

/- The number of bits of a list of parts together. -/
def totalWidth : List Expr → Nat
  | [] => 0
  | p :: ps => width p + totalWidth ps

end

/- The direct operands, in order. -/
def operands : Expr → List Expr
  | const _ _ => []
  | var _ _ => []
  | not _ x => [x]
  | gate _ _ a b => [a, b]
  | compare _ _ a b => [a, b]
  | mux _ s t f => [s, t, f]
  | bit _ b _ => [b]
  | part _ b _ _ => [b]
  | concat _ parts => parts

/- The kind of the root. -/
def kind : Expr → String
  | const _ _ => "Const"
  | var _ _ => "Var"
  | not _ _ => "Not"
  | gate _ op _ _ => op.kind
  | compare _ op _ _ => op.kind
  | mux _ _ _ _ => "Mux"
  | bit _ _ _ => "BitSelect"
  | part _ _ _ _ => "PartSelect"
  | concat _ _ => "Concat"

def asConst? : Expr → Option Const
  | const _ c => some c
  | _ => none

def asVar? : Expr → Option Var
  | var _ v => some v
  | _ => none

/- A constant with every bit 0. -/
def isZero
    (e : Expr) :
    Bool :=
  e.asConst?.any Const.isZero

/- A constant with every bit 1. -/
def isOnes
    (e : Expr) :
    Bool :=
  e.asConst?.any Const.isOnes

/- The signal of an assignable expression. -/
def assignable? : Expr → Option Var
  | var _ v => some v
  | bit _ b _ => b.asVar?
  | part _ b _ _ => b.asVar?
  | _ => none

end Expr

end Gatework

------------------------------------------------------------
-- Same trees
------------------------------------------------------------

namespace Gatework

namespace Expr

mutual

/- The same tree, marks and spelling of constants included. -/
def identical : Expr → Expr → Bool
  | const m c, const n d => m == n && c == d
  | var m v, var n w => m == n && v == w
  | not m x, not n y => m == n && identical x y
  | gate m op a b, gate n op' a' b' =>
      m == n && op == op' && identical a a' && identical b b'
  | compare m op a b, compare n op' a' b' =>
      m == n && op == op' && identical a a' && identical b b'
  | mux m s t f, mux n s' t' f' =>
      m == n && identical s s' && identical t t' && identical f f'
  | bit m b i, bit n b' i' =>
      m == n && i == i' && identical b b'
  | part m b h l, part n b' h' l' =>
      m == n && h == h' && l == l' && identical b b'
  | concat m ps, concat n qs => m == n && identicalAll ps qs
  | _, _ => false

/- The same list of trees. -/
def identicalAll : List Expr → List Expr → Bool
  | [], [] => true
  | p :: ps, q :: qs => identical p q && identicalAll ps qs
  | _, _ => false

end

end Expr

namespace Mark

/- The mark, kept only under a condition. -/
def keepIf
    (mark : Mark)
    (unchanged : Bool) :
    Mark :=
  if unchanged then mark else none

end Mark

end Gatework
