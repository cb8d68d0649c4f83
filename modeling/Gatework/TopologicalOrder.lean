/-
  Orders of a directed graph in which every edge goes from an
  earlier to a later node.

  Nodes are searched depth first with an explicit stack, in
  the order they were added, and listed when the search
  leaves them. The list backwards is an order of the graph
  unless there is a cycle, which a second search against the
  edges finds.

  Key definitions include:
    * `Digraph`
    * `Digraph.Sorter`
    * `Digraph.finished`
    * `Digraph.topologicalOrder`
-/

------------------------------------------------------------
-- Graphs
------------------------------------------------------------

namespace Gatework

/- Nodes and edges in the order they were added. -/
structure Digraph where
  nodes : List String
  edges : List (String × String)
deriving Repr, Inhabited

namespace Digraph

/- Gives an order of the nodes of a graph or a node to blame. -/
abbrev Sorter := Digraph → Except String (List String)

def empty : Digraph :=
  ⟨[], []⟩

/- The graph with a node, which may be there already. -/
def addNode
    (g : Digraph)
    (n : String) :
    Digraph :=
  if g.nodes.contains n then g else ⟨g.nodes ++ [n], g.edges⟩

/- The graph with an edge and its ends. -/
def addEdge
    (g : Digraph)
    (source target : String) :
    Digraph :=
  let g' := (g.addNode source).addNode target
  ⟨g'.nodes, g'.edges ++ [(source, target)]⟩

/- Where the edges from a node lead. -/
def successors
    (g : Digraph)
    (n : String) :
    List String :=
  (g.edges.filter fun e => e.1 == n).map Prod.snd

/- Where the edges to a node come from. -/
def predecessors
    (g : Digraph)
    (n : String) :
    List String :=
  (g.edges.filter fun e => e.2 == n).map Prod.fst

/- More steps than any search of the graph takes. -/
def searchBound
    (g : Digraph) :
    Nat :=
  2 * (g.nodes.length + g.edges.length) + 1

end Digraph

end Gatework

------------------------------------------------------------
-- Finishing order
------------------------------------------------------------

namespace Gatework

namespace Digraph

/- Nodes met and nodes left behind, the latest first. -/
structure Search where
  discovered : List String
  finished : List String
deriving Repr, Inhabited

/-
  Searches from the top of a stack. A node met for the first
  time puts its new successors on top; met again, it leaves
  the stack and is listed once.
-/
def searchFrom
    (g : Digraph) :
    Nat → List String → Search → Search
  | 0, _, state => state
  | _, [], state => state
  | n + 1, top :: stack, state =>
      if state.discovered.contains top then
        let finished :=
          if state.finished.contains top then state.finished
          else top :: state.finished
        searchFrom g n stack ⟨state.discovered, finished⟩
      else
        let discovered := top :: state.discovered
        let fresh := (g.successors top).filter fun s =>
          !discovered.contains s
        searchFrom g n (fresh.reverse ++ (top :: stack))
          ⟨discovered, state.finished⟩

/- The nodes, those the search leaves last first. -/
def finished
    (g : Digraph) :
    List String :=
  (g.nodes.foldl
    (fun (state : Search) n =>
      if state.discovered.contains n then state
      else searchFrom g g.searchBound [n] state)
    ⟨[], []⟩).finished

end Digraph

end Gatework

------------------------------------------------------------
-- Cycles
------------------------------------------------------------

namespace Gatework

namespace Digraph

/-
  The nodes met against the edges from the top of a stack, in
  the order they are met, on top of those met before.
-/
def meetBackwards
    (g : Digraph) :
    Nat → List String → List String → List String
  | 0, _, met => met
  | _, [], met => met
  | n + 1, top :: stack, met =>
      if met.contains top then
        meetBackwards g n stack met
      else
        let met' := met ++ [top]
        let fresh := (g.predecessors top).filter fun p =>
          !met'.contains p
        meetBackwards g n (fresh.reverse ++ stack) met'

/-
  A node on a cycle. In an order of the graph, everything
  before a node has been met when its turn comes, so a search
  that meets a second node has found a cycle.
-/
def cycleIn?
    (g : Digraph)
    (met : List String) :
    List String → Option String
  | [] => none
  | n :: rest =>
      let met' := meetBackwards g g.searchBound [n] met
      match met'.drop (met.length + 1) with
      | second :: _ => some second
      | [] => cycleIn? g met' rest

/- An order of the nodes, or a node on a cycle. -/
def topologicalOrder
    (g : Digraph) :
    Except String (List String) :=
  match cycleIn? g [] g.finished with
  | some n => .error n
  | none => .ok g.finished

end Digraph

end Gatework
