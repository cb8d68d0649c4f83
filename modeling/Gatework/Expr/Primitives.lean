import Gatework.Expr.Bits

/-
  Decomposition into AND, OR and NOT.

  The result of one bit is a tree over signals, bits of
  signals and constants; a wider result is split into its
  bits and put side by side again.

  Key definitions include:
    * `Expr.primitiveBit`
    * `Expr.toPrimitives`
-/

namespace Gatework

namespace Expr

/- Exactly one of two bits is 1. -/
def bitsDiffer
    (x y : Expr) :
    Expr :=
  disj (conj x (neg y)) (conj (neg x) y)

/- A gate on single bits, by AND, OR and NOT. -/
def primitiveGate
    (op : GateOp)
    (x y : Expr) :
    Expr :=
  match op with
  | .and => conj x y
  | .or => disj x y
  | .xor => bitsDiffer x y
  | .xnor => neg (bitsDiffer x y)
  | .nand => neg (conj x y)
  | .nor => neg (disj x y)

/- A choice between single bits, by AND, OR and NOT. -/
def primitiveMux
    (selector ifTrue ifFalse : Expr) :
    Expr :=
  disj (conj selector ifTrue) (conj (neg selector) ifFalse)

mutual

/-
  Bit `index` of an expression by AND, OR and NOT, or the
  whole expression when no index is given. An expression of
  one bit stands for its own bit whatever the index.
-/
def primitiveBit
    (index : Option Nat)
    (e : Expr) :
    Expr :=
  let place := if e.width = 1 then none else index
  match e with
  | const m c =>
      match place with
      | none => const m c
      | some i => ofBool (c.bitAt i)
  | var m v =>
      match place with
      | none => var m v
      | some i => bit none (var m v) i
  | not _ x => neg (primitiveBit none x)
  | gate _ op a b =>
      primitiveGate op (primitiveBit place a) (primitiveBit place b)
  | compare _ op a b =>
      if a.width = 1 then
        let x := primitiveBit none a
        let y := primitiveBit none b
        match op with
        | .eq => bitsAgree x y
        | .neq => bitsDiffer x y
      else
        let agree :=
          (conjAll? ((indicesDown (min a.width b.width)).map
            fun i =>
              bitsAgree (primitiveBit (some i) a)
                (primitiveBit (some i) b))).getD (ofBool true)
        match op with
        | .eq => agree
        | .neq => neg agree
  | mux _ s t f =>
      primitiveMux (primitiveBit none s) (primitiveBit place t)
        (primitiveBit place f)
  | bit m (var n v) i => bit m (var n v) i
  | bit _ b i => primitiveBit (some i) b
  | part _ b m l =>
      primitiveBit (some (min m l + place.getD 0)) b
  | concat _ parts => primitiveParts place parts

/-
  The bit of parts put side by side. Without an index it is
  the lowest part, which is all there is to a single bit.
-/
def primitiveParts
    (place : Option Nat)
    (parts : List Expr) :
    Expr :=
  match parts with
  | [] => ofBool false
  | p :: ps =>
      match place with
      | none =>
          if ps.isEmpty then primitiveBit none p
          else primitiveParts none ps
      | some i =>
          if i < totalWidth ps then
            primitiveParts (some i) ps
          else if i < totalWidth ps + p.width then
            primitiveBit (some (i - totalWidth ps)) p
          else
            ofBool false

end

/- Both operands of a gate are read at the place of its bit. -/
theorem primitiveBit_gate
    (index : Option Nat)
    (m : Mark)
    (op : GateOp)
    (a b : Expr) :
    primitiveBit index (gate m op a b) =
      primitiveGate op
        (primitiveBit
          (if (gate m op a b).width = 1 then none else index) a)
        (primitiveBit
          (if (gate m op a b).width = 1 then none else index) b) := by
  rw [primitiveBit]

/- Both branches are read at the place, the selector is a bit. -/
theorem primitiveBit_mux
    (index : Option Nat)
    (m : Mark)
    (s t f : Expr) :
    primitiveBit index (mux m s t f) =
      primitiveMux (primitiveBit none s)
        (primitiveBit
          (if (mux m s t f).width = 1 then none else index) t)
        (primitiveBit
          (if (mux m s t f).width = 1 then none else index) f) := by
  rw [primitiveBit]

/- An expression by AND, OR and NOT. -/
def toPrimitives : Expr → Expr
  | const m c => const m c
  | var m v => var m v
  | e =>
      if e.width > 1 then
        concat none
          ((indicesDown e.width).map fun i =>
            primitiveBit (some i) e)
      else
        primitiveBit none e

end Expr

end Gatework
