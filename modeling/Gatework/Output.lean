import Gatework.Circuit
import Gatework.Golden
import Gatework.Pass
import Gatework.View.Circuit

/-
  Outputs: signals of circuits as expressions of inputs only,
  with the passes that are wanted applied.

  Key definitions include:
    * `Output`
    * `Output.prepareBy` and `Output.prepare`
    * `Output.explanation`
    * `Output.goldenName`
-/

------------------------------------------------------------
-- Outputs
------------------------------------------------------------

namespace Gatework

/-
  An output under its full name, with its expression and the
  inputs of its circuit as declared.
-/
structure Output where
  name : String
  expr : Expr
  inputs : List String
deriving Repr, Inhabited

namespace Output

/- The name of a signal among several circuits. -/
def fullName
    (single : Bool)
    (circuit signal : String) :
    String :=
  if single then signal else circuit ++ "." ++ signal

/- The chosen signals of a circuit after the passes. -/
def ofCircuit
    (single : Bool)
    (passes : Pipeline)
    (names : List String)
    (c : Circuit)
    (resolved : Definitions) :
    Except ReshapeError (List Output) :=
  (c.selected names).filterMapM fun (signal, _) =>
    match resolved.find? signal with
    | none => .ok none
    | some e => do
        let expr ← passes.run e
        return some ⟨fullName single c.name signal, expr, c.inputs⟩

/- The definitions of a circuit in terms of its inputs. -/
def definitions
    (sort : Digraph.Sorter)
    (c : Circuit) :
    Except ReshapeError Definitions :=
  Definitions.resolveBy sort (c.assignments.map Assign.value)

/-
  Prepares circuits one after the other and logs the names
  that are not driven. The first error ends it.
-/
def prepareAll
    (sort : Digraph.Sorter)
    (single : Bool)
    (passes : Pipeline)
    (names : List String) :
    List Circuit → List String × Except ReshapeError (List Output)
  | [] => ([], .ok [])
  | c :: cs =>
      match definitions sort c with
      | .error e => ([], .error e)
      | .ok resolved =>
          let log := c.missingLog names
          match ofCircuit single passes names c resolved with
          | .error e => (log, .error e)
          | .ok found =>
              let (later, rest) :=
                prepareAll sort single passes names cs
              (log ++ later, rest.map fun outputs => found ++ outputs)

/- The chosen outputs of circuits, and what is logged. -/
def prepareBy
    (sort : Digraph.Sorter)
    (passes : Pipeline)
    (circuits : List Circuit)
    (names : List String) :
    List String × Except ReshapeError (List Output) :=
  prepareAll sort (circuits.length == 1) passes names circuits

def prepare
    (passes : Pipeline)
    (circuits : List Circuit)
    (names : List String) :
    List String × Except ReshapeError (List Output) :=
  prepareBy Digraph.topologicalOrder passes circuits names

end Output

end Gatework

------------------------------------------------------------
-- Digests
------------------------------------------------------------

namespace Gatework

namespace Output

/- The canonical form, under an order if one is given. -/
def explain
    (o : Output)
    (order : List String) :
    Except DiagramError Explanation :=
  if order.isEmpty then o.expr.explainLogic
  else o.expr.explainLogicWith order

/- The order of tests, one line for each variable. -/
def orderLines
    (order : List String) :
    String :=
  String.join (order.zipIdx.map fun (name, i) =>
    "    " ++ toString i ++ ": " ++ name ++ "\n")

/- The canonical form of an output with order and digest. -/
def explanation
    (o : Output)
    (e : Explanation) :
    String :=
  o.name ++ "\n  canonical: " ++ e.canonical ++ "\n  variable order:\n"
    ++ orderLines e.order ++ "  hash: " ++ e.digest.hex ++ "\n"

/- The digest of an output and the signals it reads. -/
def digestLine
    (o : Output)
    (e : Explanation) :
    String :=
  o.name ++ ": " ++ e.digest.hex ++ "\n  inputs: ["
    ++ Text.commas o.expr.freeVars.names ++ "]\n"

/- The expression next to its canonical form. -/
def symbolicLines
    (o : Output)
    (e : Explanation) :
    String :=
  o.name ++ "\n  symbolic: " ++ o.expr.symbolic ++ "\n  bdd:      "
    ++ e.canonical ++ "\n"

/-
  The name of the record of an output: the stem alone if it
  is the only one, else the stem and the output.
-/
def goldenName
    (stem : Option String)
    (o : Output)
    (lone : Bool) :
    String :=
  let signal := o.name.map fun c => if c = '.' then '_' else c
  match stem with
  | none => signal
  | some s => if lone then s else s ++ "_" ++ signal

/- The records of outputs. -/
def capture
    (stem : Option String)
    (outputs : List Output) :
    Except DiagramError (List Golden) :=
  outputs.mapM fun o =>
    Golden.capture (goldenName stem o (outputs.length == 1)) o.expr o.inputs

end Output

end Gatework
