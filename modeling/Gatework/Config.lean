import Gatework.Config.Field
import Gatework.Lowering.Context
import Gatework.Stmt.Reshape
import Gatework.Text.Blank
import Gatework.Toml.Parser

/-
  Settings and the documents they are read from.

  Key definitions include:
    * `Config`
    * `ConfigError`
    * `Config.parse`
-/

------------------------------------------------------------
-- Settings
------------------------------------------------------------

namespace Gatework

/- How much is logged. -/
inductive LogLevel where
  | off
  | error
  | warn
  | info
  | debug
  | trace
deriving DecidableEq, Repr, Inhabited

namespace LogLevel

def word : LogLevel → String
  | off => "off"
  | error => "error"
  | warn => "warn"
  | info => "info"
  | debug => "debug"
  | trace => "trace"

/- The levels from the least to the most that is logged. -/
def all : List LogLevel :=
  [off, error, warn, info, debug, trace]

/- The levels by their words. -/
def choices : List (String × LogLevel) :=
  all.map fun level => (level.word, level)

/- Whether warnings are logged. -/
def showsWarnings : LogLevel → Bool
  | off => false
  | error => false
  | _ => true

end LogLevel

namespace CaseForm

/- The forms of a case by their words. -/
def choices : List (String × CaseForm) :=
  [("if", ifChain), ("mux", mux)]

end CaseForm

namespace Fallback

/- The fallbacks by their words. -/
def choices : List (String × Fallback) :=
  [("zero", zero), ("hold", hold)]

end Fallback

/- The passes that outputs go through. -/
structure PassSettings where
  caseForm : CaseForm := .ifChain
  simplify : Bool := true
  primitives : Bool := false
deriving DecidableEq, Repr, Inhabited

/- Where records go and how much is logged. -/
structure OutputSettings where
  logLevel : LogLevel := .warn
  goldenDir : String := "golden_hashes"
deriving DecidableEq, Repr, Inhabited

/-
  All settings. An empty order of variables stands for the
  ascending one.
-/
structure Config where
  lowering : LowerOptions := {}
  passes : PassSettings := {}
  order : List String := []
  output : OutputSettings := {}
deriving DecidableEq, Repr, Inhabited

end Gatework

------------------------------------------------------------
-- Errors
------------------------------------------------------------

namespace Gatework

/-
  Why a document gives no settings: it cannot be read, a field
  has a value outside its choices, or settings contradict.
-/
inductive ConfigError where
  | malformed (what : String)
  | invalidValue (what : String)
  | inconsistent (what : String)
deriving DecidableEq, Repr, Inhabited

namespace ConfigError

def message : ConfigError → String
  | malformed what => "failed to parse configuration: " ++ what
  | invalidValue what => "invalid configuration value: " ++ what
  | inconsistent what => "validation error: " ++ what

/- Whether characters stand next to each other in others. -/
def includes
    (part : List Char) :
    List Char → Bool
  | [] => part.isEmpty
  | c :: cs => part.isPrefixOf (c :: cs) || includes part cs

/-
  The error with a message. The message tells the kind: one
  that speaks of an unknown variant is an invalid value.
-/
def ofMessage
    (message : String) :
    ConfigError :=
  if includes "unknown variant".toList message.toList then
    invalidValue message
  else
    malformed message

end ConfigError

end Gatework

------------------------------------------------------------
-- Documents
------------------------------------------------------------

namespace Gatework

namespace Config

def loweringFields : List (Field.Setter LowerOptions) :=
  [Field.setter "strict_identifiers" Field.flag
      fun s b => { s with strictNames := b },
    Field.setter "strict_literals" Field.flag
      fun s b => { s with strictLiterals := b },
    Field.setter "case_fallback" (Field.choice Fallback.choices)
      fun s p => { s with fallback := p }]

def passFields : List (Field.Setter PassSettings) :=
  [Field.setter "case_mode" (Field.choice CaseForm.choices)
      fun s form => { s with caseForm := form },
    Field.setter "simplify" Field.flag
      fun s b => { s with simplify := b },
    Field.setter "primitives" Field.flag
      fun s b => { s with primitives := b }]

def digestFields : List (Field.Setter (List String)) :=
  [Field.setter "order" Field.texts fun _ names => names]

def outputFields : List (Field.Setter OutputSettings) :=
  [Field.setter "log_level" (Field.choice LogLevel.choices)
      fun s level => { s with logLevel := level },
    Field.setter "golden_dir" Field.text
      fun s dir => { s with goldenDir := dir }]

/- The sections of a document. -/
def fields : List (Field.Setter Config) :=
  [Field.setter "lowering"
      (Field.sectionOf "LoweringConfig" loweringFields {})
      fun c s => { c with lowering := s },
    Field.setter "transform"
      (Field.sectionOf "TransformConfig" passFields {})
      fun c s => { c with passes := s },
    Field.setter "hash"
      (Field.sectionOf "HashConfig" digestFields [])
      fun c s => { c with order := s },
    Field.setter "output"
      (Field.sectionOf "OutputConfig" outputFields {})
      fun c s => { c with output := s }]

/- A name or path of blanks only. -/
def isVoid
    (s : String) :
    Bool :=
  (trimText s).isEmpty

/- Names of an order are not empty and not repeated. -/
def checkOrder : List String → List String → Except ConfigError Unit
  | _, [] => .ok ()
  | seen, name :: names =>
      if isVoid name then
        .error (.inconsistent "hash.order contains an empty name")
      else if name ∈ seen then
        .error (.inconsistent ("hash.order lists `" ++ name ++ "` twice"))
      else
        checkOrder (name :: seen) names

/- Settings that fit together. -/
def check
    (c : Config) :
    Except ConfigError Unit := do
  checkOrder [] c.order
  if isVoid c.output.goldenDir then
    .error (.inconsistent "output.golden_dir must not be empty")
  else
    .ok ()

/- Reads and checks the settings of a document. -/
def parse
    (text : String) :
    Except ConfigError Config :=
  match Toml.parse text with
  | .error e => .error (.ofMessage e.message)
  | .ok entries =>
      match Field.setNamed fields {} entries with
      | .error e => .error (.ofMessage e.message)
      | .ok c => do
          check c
          return c

end Config

end Gatework
