import Gatework.Command.Arguments
import Gatework.Config
import Gatework.View.Circuit

/-
  Commands and how they are written on a command line.

  Key definitions include:
    * `Manner`, options of every command
    * `Task`
    * `Command`
    * `Command.parse?`
-/

------------------------------------------------------------
-- Commands
------------------------------------------------------------

namespace Gatework

/- When messages are coloured. -/
inductive ColorChoice where
  | auto
  | always
  | never
deriving DecidableEq, Repr, Inhabited

namespace ColorChoice

def choices : List (String × ColorChoice) :=
  [("auto", auto), ("always", always), ("never", never)]

end ColorChoice

/- How a command runs, whichever it is. -/
structure Manner where
  quiet : Bool := false
  verbose : Bool := false
  color : ColorChoice := .auto
  config : Option String := none
  logLevel : Option LogLevel := none
deriving DecidableEq, Repr, Inhabited

/- Records to save or to compare with. -/
structure GoldenOptions where
  saveAs : Option String := none
  dir : Option String := none
  compareWith : Option String := none
deriving DecidableEq, Repr, Inhabited

/- The form of an export. -/
inductive ExportFormat where
  | text (format : TextFormat)
  | image (format : ImageFormat)
deriving DecidableEq, Repr, Inhabited

namespace ExportFormat

def choices : List (String × ExportFormat) :=
  [("ascii", text .ascii), ("dot", text .dot), ("png", image .png),
    ("svg", image .svg), ("json", text .json)]

end ExportFormat

/-
  What is done with a source. Names restrict it to some
  signals.
-/
inductive Task where
  | analyze (names : List String)
  | digest (names : List String) (golden : GoldenOptions)
  | explain (names : List String)
  | symbolic (names : List String)
  | outline (names : List String)
  | draw (names : List String) (format : ExportFormat)
      (out : Option String)
  | reshape (caseForm : Option CaseForm)
      (toMux primitives simplify : Bool)
deriving DecidableEq, Repr, Inhabited

/- A task on a source file. -/
structure Command where
  manner : Manner
  file : String
  task : Task
deriving DecidableEq, Repr, Inhabited

end Gatework

------------------------------------------------------------
-- Options of every command
------------------------------------------------------------

namespace Gatework

namespace Manner

def specs : List OptionSpec :=
  [⟨"quiet", some 'q', .flag⟩, ⟨"verbose", some 'v', .flag⟩,
    ⟨"color", none, .once⟩, ⟨"config", none, .once⟩,
    ⟨"log-level", none, .once⟩]

/- The choice of an option, if it is given. -/
def choose?
    {α : Type}
    (choices : List (String × α)) :
    Option String → Option (Option α)
  | none => some none
  | some name =>
      (choices.find? fun c => c.1 == name).map fun c => some c.2

/- A path, if it is given. It is not empty. -/
def path? : Option String → Option (Option String)
  | some "" => none
  | given => some given

/- The manner that options ask for on top of another one. -/
def amended?
    (outer : Manner)
    (a : Arguments) :
    Option Manner := do
  let color ← choose? ColorChoice.choices (a.value? "color")
  let config ← path? (a.value? "config")
  let level ← choose? LogLevel.choices (a.value? "log-level")
  return ⟨outer.quiet || a.has "quiet",
    outer.verbose || a.has "verbose", color.getD outer.color,
    config.or outer.config, level.or outer.logLevel⟩

/- The level asked for, or the one of the settings. -/
def level
    (manner : Manner)
    (configured : LogLevel) :
    LogLevel :=
  match manner.logLevel with
  | some level => level
  | none =>
      if manner.verbose then .debug
      else if manner.quiet then .error
      else configured

end Manner

end Gatework

------------------------------------------------------------
-- Tasks
------------------------------------------------------------

namespace Gatework

namespace Task

/- Signals that a task is restricted to. -/
def nameSpec : OptionSpec :=
  ⟨"output", some 'o', .many⟩

/- A task by its word: its options and how they are read. -/
structure Form where
  word : String
  specs : List OptionSpec
  read? : Arguments → Option Task

/- A task that takes only names. -/
def simpleForm
    (word : String)
    (task : List String → Task) :
    Form :=
  ⟨word, [nameSpec], fun a => some (task (a.values "output"))⟩

def digestForm : Form :=
  ⟨"hash",
    [nameSpec, ⟨"save-golden", none, .once⟩, ⟨"golden-dir", none, .once⟩,
      ⟨"compare-golden", none, .once⟩],
    fun a => do
      let dir ← Manner.path? (a.value? "golden-dir")
      let stored ← Manner.path? (a.value? "compare-golden")
      return digest (a.values "output")
        ⟨a.value? "save-golden", dir, stored⟩⟩

def drawForm : Form :=
  ⟨"export",
    [nameSpec, ⟨"format", some 'f', .once⟩, ⟨"out", none, .once⟩],
    fun a => do
      let format? ← Manner.choose? ExportFormat.choices (a.value? "format")
      let format ← format?
      let out ← Manner.path? (a.value? "out")
      return draw (a.values "output") format out⟩

def reshapeForm : Form :=
  ⟨"rewrite",
    [⟨"case-to-if", none, .once⟩, ⟨"if-to-mux", none, .flag⟩,
      ⟨"primitives", none, .flag⟩, ⟨"simplify", none, .flag⟩],
    fun a => do
      let form ← Manner.choose? CaseForm.choices (a.value? "case-to-if")
      return reshape form (a.has "if-to-mux") (a.has "primitives")
        (a.has "simplify")⟩

def forms : List Form :=
  [simpleForm "analyze" analyze, digestForm,
    simpleForm "explain" explain, simpleForm "bdd-expr" symbolic,
    simpleForm "pretty" outline, drawForm, reshapeForm]

end Task

namespace Command

/-
  Reads a command: options of every command, the word of the
  task, and its options and source file, among which options
  of every command may stand too.
-/
def parse?
    (args : List String) :
    Option Command := do
  let head ← Arguments.readHead? Manner.specs none args
  let outer : Arguments := { given := head.given }
  let form ← Task.forms.find? fun form => form.word == head.word
  let specs := form.specs ++ Manner.specs
  let inner ← Arguments.read? specs none head.rest
  if outer.isAdmissible Manner.specs && inner.isAdmissible specs then
    let general ← Manner.amended? {} outer
    let manner ← general.amended? inner
    let task ← form.read? inner
    match inner.words with
    | [file] => if file.isEmpty then none else some ⟨manner, file, task⟩
    | _ => none
  else
    none

end Command

end Gatework
