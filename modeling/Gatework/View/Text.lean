import Gatework.View.Tree

/-
  Texts for terminals and for graph drawing.

  Key definitions include:
    * `Expr.outline` and `Stmt.outline`, one node a line
    * `ViewTree.drawn`, a tree with box-drawing lines
    * `ViewTree.dot` and `dotGraph`, text in the DOT language
-/

------------------------------------------------------------
-- Outlines
------------------------------------------------------------

namespace Gatework

/- A line at a level, two blanks for each level. -/
def outlineLine
    (level : Nat)
    (text : String) :
    String :=
  Json.indent level ++ text ++ "\n"

namespace Expr

mutual

/- One line for each node, operands below it. -/
def outline
    (level : Nat) :
    Expr → String
  | const _ c => outlineLine level c.verilog
  | var _ v => outlineLine level v.name
  | bit m b i => outlineLine level (bit m b i).verilog
  | part m b h l => outlineLine level (part m b h l).verilog
  | not _ x => outlineLine level "NOT" ++ outline (level + 1) x
  | gate _ op a b =>
      outlineLine level op.name ++ outline (level + 1) a ++
        outline (level + 1) b
  | compare _ op a b =>
      outlineLine level op.name ++ outline (level + 1) a ++
        outline (level + 1) b
  | mux _ s t f =>
      outlineLine level "MUX" ++ outline (level + 1) s ++
        outline (level + 1) t ++ outline (level + 1) f
  | concat _ parts =>
      outlineLine level "CONCAT" ++ outlineAll (level + 1) parts

def outlineAll
    (level : Nat) :
    List Expr → String
  | [] => ""
  | p :: ps => outline level p ++ outlineAll level ps

end

end Expr

namespace Stmt

mutual

/- One line for each part of a statement. -/
def outline
    (level : Nat) :
    Stmt → String
  | assign a =>
      outlineLine level ("ASSIGN: " ++ a.target.verilog) ++
        a.value.outline (level + 1)
  | ifThen c t =>
      outlineLine level "IF:" ++
        outlineLine level " condition:" ++
        c.outline (level + 1) ++
        outlineLine level " then:" ++
        outline (level + 2) t
  | ifElse c t e =>
      outlineLine level "IF:" ++
        outlineLine level " condition:" ++
        c.outline (level + 1) ++
        outlineLine level " then:" ++
        outline (level + 2) t ++
        outlineLine level " else:" ++
        outline (level + 2) e
  | case s arms =>
      outlineLine level "CASE(" ++
        s.outline (level + 1) ++
        outlineArms (level + 1) arms ++
        outlineLine level ")"
  | block ss =>
      outlineLine level "BEGIN" ++
        outlineAll (level + 1) ss ++
        outlineLine level "END"

def outlineAll
    (level : Nat) :
    List Stmt → String
  | [] => ""
  | s :: ss => outline level s ++ outlineAll level ss

def outlineArms
    (level : Nat) :
    List (Arm Stmt) → String
  | [] => ""
  | ⟨labels, d, s⟩ :: arms =>
      outlineLine level
          ("CASE_ITEM: " ++ Arm.labelText ⟨labels, d, ()⟩) ++
        outline (level + 1) s ++
        outlineArms level arms

end

end Stmt

end Gatework

------------------------------------------------------------
-- Box drawing
------------------------------------------------------------

namespace Gatework

namespace ViewTree

mutual

/- An entry below others, behind the lines of those above. -/
def drawnBelow
    (lead : String)
    (last : Bool) :
    ViewTree → String
  | entry _ label _ _ _ children =>
      lead ++ (if last then "└── " else "├── ") ++ label ++ "\n" ++
        drawnAll (lead ++ (if last then "    " else "│   "))
          children

/- Entries side by side, the last one closing the line. -/
def drawnAll
    (lead : String) :
    List ViewTree → String
  | [] => ""
  | t :: ts => drawnBelow lead ts.isEmpty t ++ drawnAll lead ts

end

/- A tree with lines from each entry to its children. -/
def drawn
    (t : ViewTree) :
    String :=
  t.label ++ "\n" ++ drawnAll "" t.children

end ViewTree

end Gatework

------------------------------------------------------------
-- DOT
------------------------------------------------------------

namespace Gatework

namespace ViewTree

/- A text inside quotes: backslashes and quotes escaped. -/
def dotEscape
    (s : String) :
    String :=
  String.ofList (s.toList.flatMap fun c =>
    if c = '\x5c' then ['\x5c', '\x5c']
    else if c = '\x22' then ['\x5c', '\x22']
    else [c])

/- A text in quotes. -/
def dotQuote
    (s : String) :
    String :=
  "\x22" ++ dotEscape s ++ "\x22"

mutual

/- Nodes and edges of a tree numbered from `next` on. -/
def dotNodes
    (lead : String)
    (next : Nat) :
    ViewTree → String
  | entry _ label _ _ _ children =>
      lead ++ "n" ++ toString next ++ " [label=" ++ dotQuote label ++
        "];\n" ++ dotChildren lead next (next + 1) children

/- The trees below a node, each followed by its edge. -/
def dotChildren
    (lead : String)
    (above next : Nat) :
    List ViewTree → String
  | [] => ""
  | t :: ts =>
      dotNodes lead next t ++ lead ++ "n" ++ toString above ++
        " -> n" ++ toString next ++ ";\n" ++
        dotChildren lead above (next + t.size) ts

end

end ViewTree

/- A graph around lines that belong to it. -/
def dotGraph
    (name body : String) :
    String :=
  "digraph " ++ ViewTree.dotQuote name ++ " \x7b\n" ++
    "  node [shape=box, fontname=\x22monospace\x22];\n" ++ body ++
    "\x7d\n"

namespace ViewTree

/- The graph of one tree. -/
def dot
    (t : ViewTree)
    (name : String) :
    String :=
  dotGraph name (dotNodes "  " 0 t)

/- Clusters, one for each named tree, numbered throughout. -/
def dotClusters
    (index next : Nat) :
    List (String × ViewTree) → String
  | [] => ""
  | (name, t) :: rest =>
      "  subgraph cluster_" ++ toString index ++ " \x7b\n" ++
        "    label=" ++ dotQuote name ++ ";\n" ++
        dotNodes "    " next t ++ "  \x7d\n" ++
        dotClusters (index + 1) (next + t.size) rest

end ViewTree

end Gatework
