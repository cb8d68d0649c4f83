import Gatework.Diagnostic.Basic
import Gatework.Source.File

/-
  Diagnostics as text for a terminal: a headline, the place,
  the line of source with the span underlined, then notes and
  help.

  Key definitions include:
    * `Diagnostic.render`
-/

namespace Gatework

namespace Text

/- Text between the controls that set and reset a colour. -/
def painted
    (colored : Bool)
    (colour text : String) :
    String :=
  if colored then
    "\x1b[" ++ colour ++ "m" ++ text ++ "\x1b[0m"
  else
    text

/- A character several times. -/
def times
    (n : Nat)
    (c : Char) :
    String :=
  String.ofList (List.replicate n c)

end Text

namespace Severity

/- Bold red for errors and bold yellow for all else. -/
def colour : Severity → String
  | error => "1;31"
  | _ => "1;33"

end Severity

namespace Diagnostic

def headline
    (colored : Bool)
    (d : Diagnostic) :
    String :=
  Text.painted colored d.severity.colour
      (d.severity.word ++ "[" ++ d.code.text ++ "]")
    ++ ": " ++ d.message ++ "\n"

/- The remark beside the underlined span. -/
def remark
    (d : Diagnostic) :
    String :=
  match d.labels.find? fun l => decide (l.style = .primary) with
  | some l => " " ++ l.message
  | none => ""

/- The place, its line, and the span underlined. -/
def excerpt
    (colored : Bool)
    (d : Diagnostic)
    (file : SourceFile)
    (place : Location) :
    String :=
  let number := toString place.startLine
  let gutter := Text.times number.length ' '
  let carets := Text.times (max d.span.length 1) '^'
  gutter ++ "--> " ++ place.text ++ "\n"
    ++ gutter ++ " |\n"
    ++ number ++ " | " ++ file.lineText d.span.start ++ "\n"
    ++ gutter ++ " | " ++ Text.times (place.startCol - 1) ' '
    ++ Text.painted colored d.severity.colour carets ++ d.remark ++ "\n"

/- The whole text; every line ends with a line end. -/
def render
    (colored : Bool)
    (sources : Sources)
    (d : Diagnostic) :
    String :=
  let middle :=
    match sources.fileOf? d.span, sources.locate? d.span with
    | some file, some place => d.excerpt colored file place
    | _, _ => ""
  d.headline colored ++ middle
    ++ String.join (d.notes.map fun n => "  = note: " ++ n ++ "\n")
    ++ String.join (d.help.map fun h => "  = help: " ++ h ++ "\n")

end Diagnostic

end Gatework
