import Gatework.Expr.Basic

/-
  The value of an expression under an assignment of values to
  signals.

  Values are numbers; every node keeps only the bits of its
  own width. Operands are evaluated from left to right, and a
  multiplexer only evaluates the side it selects, so the
  signal reported as unbound is the first one missed.

  Key definitions include:
    * `Unbound`
    * `Expr.eval`
-/

namespace Gatework

/- A read of a signal that has no value. -/
structure Unbound where
  name : String
deriving DecidableEq, Repr, Inhabited

namespace Unbound

def message
    (u : Unbound) :
    String :=
  "signal `" ++ u.name ++ "` has no value in the environment"

end Unbound

/- Values of signals by name. -/
abbrev Valuation := String → Option Nat

/- A value moved up by a width, unless the width is 64. -/
def shiftedOut
    (value width : Nat) :
    Nat :=
  if maxWidth ≤ width then 0 else value <<< width

namespace Expr

mutual

/- The value of an expression, within its width. -/
def eval
    (ρ : Valuation) :
    Expr → Except Unbound Nat
  | const _ c => .ok (c.value &&& mask c.width)
  | var _ v =>
      match ρ v.name with
      | some x => .ok (x &&& mask v.width)
      | none => .error ⟨v.name⟩
  | not _ x => do
      let v ← eval ρ x
      return complement x.width v
  | gate _ op a b => do
      let x ← eval ρ a
      let y ← eval ρ b
      return op.apply x y a.width
  | compare _ op a b => do
      let x ← eval ρ a
      let y ← eval ρ b
      return (op.holds
        ((x &&& mask a.width) == (y &&& mask a.width))).toNat
  | mux _ s t f => do
      let c ← eval ρ s
      let v ← if c.testBit 0 then eval ρ t else eval ρ f
      return v &&& mask t.width
  | bit _ b i => do
      let v ← eval ρ b
      return (v >>> i) &&& mask 1
  | part m b h l => do
      let v ← eval ρ b
      return (v >>> min h l) &&& mask (part m b h l).width
  | concat _ parts => do
      let v ← evalParts ρ 0 parts
      return v &&& mask (totalWidth parts)

/-
  Appends the values of parts below an accumulated value. A
  part of 64 bits or more leaves nothing of what is above it.
-/
def evalParts
    (ρ : Valuation)
    (high : Nat) :
    List Expr → Except Unbound Nat
  | [] => .ok high
  | p :: ps => do
      let v ← eval ρ p
      evalParts ρ
        (shiftedOut high p.width ||| (v &&& mask p.width)) ps

end

end Expr

end Gatework
