import Gatework.Expr.Measures
import Gatework.NameMap
import Gatework.Stmt.Basic

/-
  Circuits: modules of which every driven signal is given by
  one expression.

  Key definitions include:
    * `Pin`
    * `Circuit`
    * `Circuit.selected`
-/

------------------------------------------------------------
-- Pins
------------------------------------------------------------

namespace Gatework

/- The direction of a pin. -/
inductive PinDirection where
  | input
  | output
  | inout
deriving DecidableEq, Repr, Inhabited

namespace PinDirection

def word : PinDirection → String
  | input => "input"
  | output => "output"
  | inout => "inout"

end PinDirection

/- A pin of a circuit with the bounds of its vector. -/
structure Pin where
  name : String
  direction : PinDirection
  width : Nat
  range : Option (Nat × Nat)
  signed : Bool
deriving DecidableEq, Repr, Inhabited

end Gatework

------------------------------------------------------------
-- Circuits
------------------------------------------------------------

namespace Gatework

/-
  A circuit. The assignments give each driven signal as a
  whole; the drivers are the statements it stems from, and
  the processes all statements in order. Sources hold the
  text that a marked expression was lowered from.
-/
structure Circuit where
  name : String
  pins : List Pin := []
  signals : NameMap Var := NameMap.empty
  ranges : NameMap (Nat × Nat) := NameMap.empty
  assignments : NameMap Assign := NameMap.empty
  drivers : NameMap Stmt := NameMap.empty
  processes : List Stmt := []
  sources : List (Nat × String) := []
deriving Repr, Inhabited

namespace Circuit

/- The names of the pins of a direction, as declared. -/
def pinNames
    (c : Circuit)
    (direction : PinDirection) :
    List String :=
  (c.pins.filter fun p => decide (p.direction = direction)).map Pin.name

def inputs
    (c : Circuit) :
    List String :=
  c.pinNames .input

def outputs
    (c : Circuit) :
    List String :=
  c.pinNames .output

/-
  The assignments of some signals in the order asked for.
  When none is asked for, those of the outputs, or all if no
  output is driven.
-/
def selected
    (c : Circuit)
    (names : List String) :
    List (String × Assign) :=
  if names.isEmpty then
    let driven := c.assignments.entries.filter fun entry =>
      decide (entry.1 ∈ c.outputs)
    if driven.isEmpty then c.assignments.entries else driven
  else
    names.filterMap fun n => (c.assignments.find? n).map fun a => (n, a)

/- The names asked for that are not driven. -/
def missing
    (c : Circuit)
    (names : List String) :
    List String :=
  names.filter fun n => !c.assignments.contains n

/- The signals that some assignment reads. -/
def freeVars
    (c : Circuit) :
    VarSet :=
  c.assignments.values.foldl
    (fun acc a => VarSet.union acc a.value.freeVars) []

/- The text that a marked expression stems from. -/
def sourceOf?
    (c : Circuit)
    (e : Expr) :
    Option String :=
  e.mark.bind fun m =>
    (c.sources.find? fun entry => entry.1 == m).map Prod.snd

/- Records the text of a marked expression; the last counts. -/
def withSource
    (c : Circuit)
    (e : Expr)
    (text : String) :
    Circuit :=
  match e.mark with
  | some m => { c with sources := (m, text) :: c.sources }
  | none => c

end Circuit

end Gatework
