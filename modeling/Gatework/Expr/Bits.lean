import Gatework.Expr.Basic

/-
  Builders of unmarked nodes, and expressions for single bits
  of other expressions.

  Key definitions include:
    * `Expr.ofNat`, a constant from a value and a width
    * `Expr.bitOf`, the expression of one bit
    * `Expr.splice`, one value written into bits of another
    * `Expr.equalsConst` and `Expr.equals`, equality written
      out with one literal or gate per bit
-/

------------------------------------------------------------
-- Builders
------------------------------------------------------------

namespace Gatework

namespace Expr

/- The constant with the low bits of a value. -/
def ofNat
    (value width : Nat) :
    Expr :=
  const none (Const.truncated value width)

/- The constant bit. -/
def ofBool
    (b : Bool) :
    Expr :=
  const none (Const.bit b)

/- A read of a signal. -/
def ofVar
    (v : Var) :
    Expr :=
  var none v

def neg
    (x : Expr) :
    Expr :=
  not none x

def conj
    (a b : Expr) :
    Expr :=
  gate none .and a b

def disj
    (a b : Expr) :
    Expr :=
  gate none .or a b

def choose
    (selector ifTrue ifFalse : Expr) :
    Expr :=
  mux none selector ifTrue ifFalse

/- The gates that join a list, grouped from the left. -/
def joinAll?
    (op : GateOp) :
    List Expr → Option Expr
  | [] => none
  | e :: es => some (es.foldl (gate none op) e)

/- The conjunction of a list. -/
def conjAll?
    (es : List Expr) :
    Option Expr :=
  joinAll? .and es

/- The disjunction of a list. -/
def disjAll?
    (es : List Expr) :
    Option Expr :=
  joinAll? .or es

end Expr

end Gatework

------------------------------------------------------------
-- Single bits
------------------------------------------------------------

namespace Gatework

namespace Expr

mutual

/-
  Bit `i` of an expression. An expression of one bit stands
  for its own bit whatever the index; gates and multiplexers
  of vectors are taken apart bit by bit.
-/
def bitOf
    (e : Expr)
    (i : Nat) :
    Expr :=
  if e.width = 1 then
    e
  else
    match e with
    | const _ c => ofBool (c.bitAt i)
    | var m v => bit none (var m v) i
    | gate _ op a b => gate none op (bitOf a i) (bitOf b i)
    | mux _ s t f => choose s (bitOf t i) (bitOf f i)
    | part _ b m l => bitOf b (min m l + i)
    | concat _ parts => bitOfParts parts i
    | not m x => not m x
    | compare m op a b => compare m op a b
    | bit m b j => bit m b j

/-
  Bit `i` of parts put side by side, the last one lowest.
  Bits beyond the parts are 0.
-/
def bitOfParts
    (parts : List Expr)
    (i : Nat) :
    Expr :=
  match parts with
  | [] => ofBool false
  | p :: ps =>
      if i < totalWidth ps then
        bitOfParts ps i
      else if i < totalWidth ps + p.width then
        bitOf p (i - totalWidth ps)
      else
        ofBool false

end

/- Indices below a bound, the highest first. -/
def indicesDown
    (n : Nat) :
    List Nat :=
  (List.range n).reverse

/- Bits side by side, highest first; a single bit as it is. -/
def join : List Expr → Expr
  | [b] => b
  | bits => concat none bits

/-
  The whole with `value` in place of its bits from `low` on.
-/
def splice
    (whole : Expr)
    (low : Nat)
    (value : Expr) :
    Expr :=
  join ((indicesDown whole.width).map fun i =>
    if low ≤ i ∧ i < low + value.width then
      value.bitOf (i - low)
    else
      whole.bitOf i)

end Expr

end Gatework

------------------------------------------------------------
-- Equality, bit by bit
------------------------------------------------------------

namespace Gatework

namespace Expr

/- A bit, or its negation. -/
def literal
    (b : Expr)
    (positive : Bool) :
    Expr :=
  if positive then b else neg b

/-
  Equality with a constant: the conjunction of one literal
  per bit, highest first. A value that does not fit is never
  equal.
-/
def equalsConst
    (subject : Expr)
    (value : Nat) :
    Expr :=
  if subject.width < maxWidth ∧ value >>> subject.width ≠ 0 then
    ofBool false
  else
    (conjAll? ((indicesDown subject.width).map fun i =>
      literal (subject.bitOf i) (value.testBit i))).getD
        (ofBool true)

/- Two bits are equal: both are 1 or both are 0. -/
def bitsAgree
    (x y : Expr) :
    Expr :=
  disj (conj x y) (conj (neg x) (neg y))

/- Equality of two expressions on their common bits. -/
def equals
    (a b : Expr) :
    Expr :=
  (conjAll? ((indicesDown (min a.width b.width)).map fun i =>
    bitsAgree (a.bitOf i) (b.bitOf i))).getD (ofBool true)

end Expr

end Gatework
