import Gatework.Source.Span
import Gatework.Text.Digits

/-
  Diagnostics: problems found in a source, each with a code,
  a message and the place it is about.

  Key definitions include:
    * `Severity`, `Code` and `Label`
    * `Diagnostic`
    * `Findings`, the diagnostics of a run and its errors
-/

------------------------------------------------------------
-- Codes
------------------------------------------------------------

namespace Gatework

/- How serious a diagnostic is. -/
inductive Severity where
  | note
  | warning
  | error
deriving DecidableEq, Repr, Inhabited

namespace Severity

def word : Severity → String
  | note => "note"
  | warning => "warning"
  | error => "error"

end Severity

/-
  Codes of the first family refuse an input, those of the
  second accept it under an assumption.
-/
inductive CodeFamily where
  | error
  | warning
deriving DecidableEq, Repr, Inhabited

namespace CodeFamily

def letter : CodeFamily → Char
  | error => 'E'
  | warning => 'W'

end CodeFamily

/- A stable code of a problem. -/
structure Code where
  family : CodeFamily
  number : Nat
deriving DecidableEq, Repr, Inhabited

namespace Code

/- The letter of the family and at least three digits. -/
def text
    (c : Code) :
    String :=
  String.ofList
    (c.family.letter :: padLeft '0' 3 (Radix.decimal.digits c.number))

end Code

end Gatework

------------------------------------------------------------
-- Diagnostics
------------------------------------------------------------

namespace Gatework

/- Whether a label marks the place itself or a related one. -/
inductive LabelStyle where
  | primary
  | secondary
deriving DecidableEq, Repr, Inhabited

/- A remark on a span. -/
structure Label where
  span : Span
  message : String
  style : LabelStyle
deriving DecidableEq, Repr, Inhabited

/- One problem. -/
structure Diagnostic where
  severity : Severity
  code : Code
  message : String
  span : Span
  labels : List Label := []
  notes : List String := []
  help : List String := []
deriving DecidableEq, Repr, Inhabited

namespace Diagnostic

/- A problem that refuses the input. -/
def error
    (number : Nat)
    (message : String)
    (span : Span) :
    Diagnostic :=
  { severity := .error, code := ⟨.error, number⟩, message, span }

/- A problem that is passed over. -/
def warning
    (number : Nat)
    (message : String)
    (span : Span) :
    Diagnostic :=
  { severity := .warning, code := ⟨.warning, number⟩, message, span }

def isError
    (d : Diagnostic) :
    Bool :=
  decide (d.severity = .error)

def withLabel
    (d : Diagnostic)
    (style : LabelStyle)
    (span : Span)
    (message : String) :
    Diagnostic :=
  { d with labels := d.labels ++ [⟨span, message, style⟩] }

def withNote
    (d : Diagnostic)
    (note : String) :
    Diagnostic :=
  { d with notes := d.notes ++ [note] }

def withHelp
    (d : Diagnostic)
    (help : String) :
    Diagnostic :=
  { d with help := d.help ++ [help] }

end Diagnostic

end Gatework

------------------------------------------------------------
-- Findings
------------------------------------------------------------

namespace Gatework

/-
  The diagnostics that were not taken yet, oldest first, and
  the number of errors ever reported.
-/
structure Findings where
  entries : List Diagnostic := []
  errorCount : Nat := 0
deriving DecidableEq, Repr, Inhabited

namespace Findings

def hasErrors
    (f : Findings) :
    Bool :=
  decide (0 < f.errorCount)

def report
    (f : Findings)
    (d : Diagnostic) :
    Findings :=
  ⟨f.entries ++ [d], if d.isError then f.errorCount + 1 else f.errorCount⟩

/- All entries, which are then gone; the errors still count. -/
def takeAll
    (f : Findings) :
    List Diagnostic × Findings :=
  (f.entries, { f with entries := [] })

end Findings

end Gatework
