import Gatework.Circuit
import Gatework.Stmt.Reshape
import Gatework.View.Text

/-
  Changes of the shape of drivers, one step after the other.

  Key definitions include:
    * `Reshaping`
    * `Reshaping.apply`
    * `Circuit.outline`
-/

------------------------------------------------------------
-- Steps
------------------------------------------------------------

namespace Gatework

/-
  The steps wanted: cases in another form, an `if` with `else`
  as one assignment, primitive gates, and simplification, in
  this order. The fallback is for cases that leave values open.
-/
structure Reshaping where
  caseForm : Option CaseForm := none
  fallback : Fallback := .zero
  toMux : Bool := false
  primitives : Bool := false
  simplify : Bool := false
deriving DecidableEq, Repr, Inhabited

namespace Reshaping

/-
  A case in another form. The value of one as an expression is
  assigned to the signal as a whole.
-/
def reshapeCase
    (form : CaseForm)
    (p : Fallback)
    (c : Circuit)
    (signal : String) :
    Stmt → Except ReshapeError Stmt
  | .case selector arms => do
      match ← Stmt.caseTo selector arms form p with
      | .stmt s => return s
      | .expr e =>
          match c.assignments.find? signal with
          | some a => return .assign ⟨a.target, e⟩
          | none => return .case selector arms
  | s => .ok s

/- An `if`, alone or as the only statement of a block. -/
def isIf : Stmt → Bool
  | .ifThen _ _ => true
  | .ifElse _ _ _ => true
  | .block [.ifThen _ _] => true
  | .block [.ifElse _ _ _] => true
  | _ => false

/- Takes every step on the driver of a signal. -/
def apply
    (r : Reshaping)
    (c : Circuit)
    (signal : String)
    (s : Stmt) :
    Except ReshapeError Stmt := do
  let s ←
    match r.caseForm with
    | some form => reshapeCase form r.fallback c signal s
    | none => .ok s
  let s ← if r.toMux && isIf s then s.toMux else .ok s
  let s := if r.primitives then s.toPrimitives else s
  return if r.simplify then s.simplify else s

end Reshaping

end Gatework

------------------------------------------------------------
-- Outlines
------------------------------------------------------------

namespace Gatework

namespace Circuit

/- The drivers of some signals, or of all when none is named. -/
def driversOf
    (c : Circuit)
    (names : List String) :
    List (String × Stmt) :=
  c.drivers.entries.filter fun entry =>
    names.isEmpty || names.contains entry.1

/- The outlines of drivers, each under its signal. -/
def outline
    (name : String)
    (drivers : List (String × Stmt)) :
    String :=
  "module " ++ name ++ "\n" ++
    String.join (drivers.map fun entry =>
      "// " ++ entry.1 ++ "\n" ++ entry.2.outline 0)

/- The drivers of a circuit after a change of shape. -/
def reshaped
    (c : Circuit)
    (r : Reshaping) :
    Except ReshapeError (List (String × Stmt)) :=
  c.drivers.entries.mapM fun entry => do
    return (entry.1, ← r.apply c entry.1 entry.2)

end Circuit

end Gatework
