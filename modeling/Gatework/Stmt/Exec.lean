import Gatework.Expr.Eval
import Gatework.Stmt.Effects

/-
  Execution of statements under an assignment of values to
  signals.

  Key definitions include:
    * `Stmt.exec`, the values written
    * `assignments`, every valuation of some single bits
-/

------------------------------------------------------------
-- Writing
------------------------------------------------------------

namespace Gatework

/- Values written so far. -/
abbrev Written := NameMap Nat

namespace Written

/- A value written hides the one the signal had before. -/
def onTop
    (w : Written)
    (ρ : Valuation) :
    Valuation :=
  fun name => (w.find? name).or (ρ name)

end Written

/-
  A number with `width` bits from `offset` on replaced by the
  low bits of a value.
-/
def replaceBits
    (old offset width value : Nat) :
    Nat :=
  let field := mask width <<< offset
  (old ^^^ (old &&& field)) ||| ((value &&& mask width) <<< offset)

namespace Assign

/- Executes one assignment. -/
def exec
    (ρ : Valuation)
    (w : Written)
    (a : Assign) :
    Except Unbound Written := do
  let value ← a.value.eval (w.onTop ρ)
  let old := (w.onTop ρ a.var.name).getD 0
  let new := replaceBits old a.target.low a.target.width value
  return w.insert a.var.name (new &&& mask a.var.width)

end Assign

end Gatework

------------------------------------------------------------
-- Statements
------------------------------------------------------------

namespace Gatework

namespace Stmt

/-
  Gives every name not written yet the value of the fallback.
-/
def applyFallback
    (ρ : Valuation)
    (p : Fallback) :
    List String → Written → Except Unbound Written
  | [], w => .ok w
  | name :: names, w =>
      if w.contains name then
        applyFallback ρ p names w
      else
        match p, ρ name with
        | .zero, _ => applyFallback ρ p names (w.insert name 0)
        | .hold, some v => applyFallback ρ p names (w.insert name v)
        | .hold, none => .error ⟨name⟩

/-
  A labelled arm one of whose labels, cut to the width of the
  selector, is the value.
-/
def hits
    (width value : Nat)
    (arm : Arm Unit) :
    Bool :=
  !arm.isDefault &&
    arm.labels.any fun l => (l.value &&& mask width) == value

mutual

/- Executes a statement on top of what is already written. -/
def run
    (ρ : Valuation)
    (p : Fallback)
    (w : Written) :
    Stmt → Except Unbound Written
  | assign a => a.exec ρ w
  | ifThen c t => do
      let v ← c.eval (w.onTop ρ)
      if v.testBit 0 then
        run ρ p w t
      else
        applyFallback ρ p (writes t).names w
  | ifElse c t e => do
      let v ← c.eval (w.onTop ρ)
      if v.testBit 0 then run ρ p w t else run ρ p w e
  | case s arms => do
      let v ← s.eval (w.onTop ρ)
      match runArm ρ p w (hits s.width v) arms with
      | some result => result
      | none =>
          match runArm ρ p w Arm.isDefault arms with
          | some result => result
          | none => applyFallback ρ p (writesArms [] arms).names w
  | block ss => runAll ρ p w ss

/- Executes statements one after the other. -/
def runAll
    (ρ : Valuation)
    (p : Fallback)
    (w : Written) :
    List Stmt → Except Unbound Written
  | [] => .ok w
  | s :: ss => do
      let w' ← run ρ p w s
      runAll ρ p w' ss

/- Executes the first arm that is picked, if there is one. -/
def runArm
    (ρ : Valuation)
    (p : Fallback)
    (w : Written)
    (picked : Arm Unit → Bool) :
    List (Arm Stmt) → Option (Except Unbound Written)
  | [] => none
  | ⟨labels, d, s⟩ :: arms =>
      if picked ⟨labels, d, ()⟩ then some (run ρ p w s)
      else runArm ρ p w picked arms

end

/- The values a statement writes, by name. -/
def exec
    (s : Stmt)
    (ρ : Valuation)
    (p : Fallback) :
    Except Unbound Written :=
  run ρ p NameMap.empty s

end Stmt

end Gatework

------------------------------------------------------------
-- Enumeration
------------------------------------------------------------

namespace Gatework

/- At most this many names are enumerated. -/
def maxEnumerated : Nat :=
  20

/-
  Every valuation of single bits for the first 20 names, the
  first name changing slowest. Of equal names the last counts.
-/
def assignments
    (names : List String) :
    List (NameMap Nat) :=
  let used := names.take maxEnumerated
  (List.range (1 <<< used.length)).map fun bits =>
    NameMap.ofList
      (used.mapIdx fun i name =>
        (name, (bits.testBit (used.length - 1 - i)).toNat))

end Gatework
