import Gatework.TopologicalOrder
import Gatework.Expr.Measures
import Gatework.Stmt.Reshape

/-
  Inlining of signals that are defined by expressions.

  Definitions may read other defined signals. Each is inlined
  once, after everything it reads; a loop among them is a
  combinational cycle. The sort of the dependencies is a
  parameter; depth-first search is the one that is run.

  Key definitions include:
    * `Expr.subst`
    * `Definitions`
    * `Definitions.resolveBy` and `Definitions.resolve`
    * `Definitions.inlineBy` and `Definitions.inline`
-/

------------------------------------------------------------
-- Substitution
------------------------------------------------------------

namespace Gatework

namespace Expr

mutual

/-
  Puts expressions in the place of signals. Signals without
  one and constants stay the nodes they are; every other node
  is built anew.
-/
def subst
    (σ : String → Option Expr) :
    Expr → Expr
  | const m c => const m c
  | var m v => (σ v.name).getD (var m v)
  | not _ x => not none (subst σ x)
  | gate _ op a b => gate none op (subst σ a) (subst σ b)
  | compare _ op a b => compare none op (subst σ a) (subst σ b)
  | mux _ s t f => mux none (subst σ s) (subst σ t) (subst σ f)
  | bit _ b i => bit none (subst σ b) i
  | part _ b m l => part none (subst σ b) m l
  | concat _ parts => concat none (substAll σ parts)

def substAll
    (σ : String → Option Expr) :
    List Expr → List Expr
  | [] => []
  | p :: ps => subst σ p :: substAll σ ps

end

end Expr

end Gatework

------------------------------------------------------------
-- Dependencies
------------------------------------------------------------

namespace Gatework

/- Expressions that define signals. -/
abbrev Definitions := NameMap Expr

namespace Definitions

/-
  Adds an edge for each defined signal among those a
  definition reads. A read of itself and a read at another
  width than that of the definition are errors.
-/
def addReads
    (defs : Definitions)
    (name : String) :
    List Var → Digraph → Except ReshapeError Digraph
  | [], g => .ok g
  | v :: vs, g =>
      match defs.find? v.name with
      | none => addReads defs name vs g
      | some d =>
          if v.name = name then
            .error (.cycle name)
          else if v.width ≠ d.width then
            .error (.widthMismatch v.name v.width d.width)
          else
            addReads defs name vs (g.addEdge name v.name)

/- The graph with the edges of some definitions. -/
def addAll
    (defs : Definitions) :
    List (String × Expr) → Digraph → Except ReshapeError Digraph
  | [], g => .ok g
  | (name, d) :: rest, g => do
      let g' ← addReads defs name d.freeVars (g.addNode name)
      addAll defs rest g'

/- From each defined signal to the defined signals it reads. -/
def graph
    (defs : Definitions) :
    Except ReshapeError Digraph :=
  addAll defs defs.entries Digraph.empty

end Definitions

end Gatework

------------------------------------------------------------
-- Inlining
------------------------------------------------------------

namespace Gatework

namespace Definitions

/-
  Inlines definitions in the given order, each reading those
  inlined before it.
-/
def inlineInOrder
    (defs : Definitions) :
    List String → Definitions → Definitions
  | [], done => done
  | name :: names, done =>
      match defs.find? name with
      | none => inlineInOrder defs names done
      | some d =>
          inlineInOrder defs names
            (done.insert name (d.subst done.find?))

/- The definitions in terms of undefined signals only. -/
def resolveBy
    (sort : Digraph.Sorter)
    (defs : Definitions) :
    Except ReshapeError Definitions := do
  let g ← defs.graph
  match sort g with
  | .error signal => .error (.cycle signal)
  | .ok order =>
      return inlineInOrder defs order.reverse NameMap.empty

def resolve
    (defs : Definitions) :
    Except ReshapeError Definitions :=
  resolveBy Digraph.topologicalOrder defs

/- An expression in terms of undefined signals only. -/
def inlineBy
    (sort : Digraph.Sorter)
    (defs : Definitions)
    (e : Expr) :
    Except ReshapeError Expr := do
  let resolved ← defs.resolveBy sort
  return e.subst resolved.find?

def inline
    (defs : Definitions)
    (e : Expr) :
    Except ReshapeError Expr :=
  inlineBy Digraph.topologicalOrder defs e

end Definitions

end Gatework
