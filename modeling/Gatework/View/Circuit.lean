import Gatework.Circuit
import Gatework.Path
import Gatework.View.Text

/-
  Views of circuits: a tree for every assignment, as text, as
  JSON or as a graph.

  Key definitions include:
    * `Circuit.view`
    * `Circuit.toJson`
    * `Circuit.drawn`, `Circuit.dot` and `Circuit.report`
    * `TextFormat.render`
    * `imagePath`
-/

------------------------------------------------------------
-- One circuit
------------------------------------------------------------

namespace Gatework

namespace Circuit

/- Expressions are shown with the text they stem from. -/
def notes
    (c : Circuit) :
    Notes :=
  ⟨fun _ e => ⟨none, c.sourceOf? e⟩, fun _ => Note.none⟩

/- The view tree of an assignment. -/
def view
    (c : Circuit)
    (a : Assign) :
    ViewTree :=
  a.view c.notes

/- The view trees of all assignments. -/
def toJson
    (c : Circuit) :
    Json :=
  .obj
    [("assignments",
        .obj (c.assignments.entries.map fun entry =>
          (entry.1, (c.view entry.2).toJson))),
      ("module", .str c.name)]

/- The drawn trees of some signals. -/
def drawn
    (c : Circuit)
    (names : List String) :
    String :=
  String.join ((c.selected names).map fun entry => (c.view entry.2).drawn)

/- The graph of some signals, a cluster for each. -/
def dot
    (c : Circuit)
    (names : List String) :
    String :=
  dotGraph c.name (ViewTree.dotClusters 0 0
    ((c.selected names).map fun entry => (entry.1, c.view entry.2)))

/- What is said about one signal. -/
def reportOne
    (c : Circuit)
    (name : String)
    (a : Assign) :
    String :=
  "\nSignal: " ++ name ++ "\nASCII Tree:\n" ++ (c.view a).drawn
    ++ "  Verilog: " ++ a.value.verilog ++ "\n"
    ++ "  Depth:   " ++ toString a.value.depth ++ "\n"
    ++ "  Gates:   " ++ a.value.gateSummary ++ "\n"

/- Tree, text, depth and gates of some signals. -/
def report
    (c : Circuit)
    (names : List String) :
    String :=
  "module " ++ c.name ++ "\n"
    ++ String.join ((c.selected names).map fun entry =>
      c.reportOne entry.1 entry.2)

/- What is logged about names that are not driven. -/
def missingLog
    (c : Circuit)
    (names : List String) :
    List String :=
  (c.missing names).map fun n =>
    "module `" ++ c.name ++ "` has no output `" ++ n ++ "`"

end Circuit

end Gatework

------------------------------------------------------------
-- All circuits of a source
------------------------------------------------------------

namespace Gatework

/- The formats that are text. -/
inductive TextFormat where
  | ascii
  | dot
  | json
deriving DecidableEq, Repr, Inhabited

namespace TextFormat

/- One object for a single circuit, else an array. -/
def jsonOf : List Circuit → Json
  | [c] => c.toJson
  | cs => .arr (cs.map Circuit.toJson)

/- The text of all circuits, restricted to some signals. -/
def render
    (format : TextFormat)
    (circuits : List Circuit)
    (names : List String) :
    String :=
  match format with
  | json => (jsonOf circuits).pretty ++ "\n"
  | dot => String.join (circuits.map fun c => c.dot names)
  | ascii => String.join (circuits.map fun c => c.drawn names)

end TextFormat

/- The formats that are images. -/
inductive ImageFormat where
  | png
  | svg
deriving DecidableEq, Repr, Inhabited

namespace ImageFormat

def extension : ImageFormat → String
  | png => "png"
  | svg => "svg"

end ImageFormat

/-
  Where the image of a circuit goes. A given path is taken
  for a single circuit; for several the name of the circuit
  goes into it. Without a path the circuit names the file.
-/
def imagePath
    (out : Option String)
    (name : String)
    (count : Nat)
    (format : ImageFormat) :
    String :=
  match out with
  | none => name ++ "_tree." ++ format.extension
  | some path =>
      if count = 1 then
        path
      else
        Path.withFileName path
          ((Path.stem? path).getD "tree" ++ "_" ++ name ++ "."
            ++ format.extension)

end Gatework
