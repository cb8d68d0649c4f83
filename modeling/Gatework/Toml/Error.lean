import Gatework.Text.Digits
import Gatework.Text.Quote

/-
  Errors of TOML documents, and keys as errors write them.

  Key definitions include:
    * `TomlError`
    * `TomlError.message`
    * `Toml.writtenKey`
-/

------------------------------------------------------------
-- Errors
------------------------------------------------------------

namespace Gatework

/-
  Why a text is not a document: its characters do not fit, a
  key is given twice, with the path of its table if that is
  told, a path leads through a value of another kind, or one
  of these holds for a header.
-/
inductive TomlError where
  | malformed
  | repeatedKey (key : String) (table : Option (List String))
  | notTable (path : List String) (kind : String)
  | inHeader (e : TomlError)
deriving DecidableEq, Repr, Inhabited

namespace TomlError

/- Keys with dots between them. -/
def dotted
    (path : List String) :
    String :=
  String.intercalate "." path

/- The place of a table in a message. -/
def inTable
    (table : List String) :
    String :=
  if table.isEmpty then " in document root"
  else " in table " ++ Text.backquoted (dotted table)

def message : TomlError → String
  | malformed => "not a TOML document"
  | repeatedKey key table =>
      "duplicate key " ++ Text.backquoted key
        ++ (table.map inTable).getD ""
  | notTable path kind =>
      "dotted key " ++ Text.backquoted (dotted path)
        ++ " attempted to extend non-table type (" ++ kind ++ ")"
  | inHeader e => "invalid table header\n" ++ e.message

/- What was read, or the error of a text that does not fit. -/
def require
    {α : Type} :
    Option α → Except TomlError α
  | some a => .ok a
  | none => .error .malformed

end TomlError

end Gatework

------------------------------------------------------------
-- Written keys
------------------------------------------------------------

namespace Gatework

namespace Toml

/- A character of a key without quotes. -/
def isBare
    (c : Char) :
    Bool :=
  c.isAlphanum || c == '-' || c == '_'

/- A character that may stand in a comment or a string. -/
def isPlain
    (c : Char) :
    Bool :=
  c == '\t' || (decide (0x20 ≤ c.toNat) && c.toNat != 0x7F)

/- A character of a key between double quotes. -/
def escapeKeyChar
    (c : Char) :
    List Char :=
  if c = '\x08' then ['\x5c', 'b']
  else if c = '\t' then ['\x5c', 't']
  else if c = '\n' then ['\x5c', 'n']
  else if c = '\x0c' then ['\x5c', 'f']
  else if c = '\r' then ['\x5c', 'r']
  else if c = '\x22' ∨ c = '\x5c' then ['\x5c', c]
  else if isPlain c then [c]
  else
    let digits := (Radix.hex.digits c.toNat).map Char.toUpper
    '\x5c' :: 'u' :: padLeft '0' 4 digits

/-
  A key as it would be written: without quotes if it can be,
  else between double quotes if nothing but tabs needs an
  escape, else between single quotes if it can be.
-/
def writtenKey
    (key : String) :
    String :=
  let cs := key.toList
  let basic :=
    String.ofList ('\x22' :: cs.flatMap escapeKeyChar ++ ['\x22'])
  let literal := String.ofList ('\x27' :: cs ++ ['\x27'])
  if !cs.isEmpty && cs.all isBare then key
  else if !cs.all isPlain then basic
  else if !(cs.contains '\x22' || cs.contains '\x5c') then basic
  else if !cs.contains '\x27' then literal
  else basic

end Toml

end Gatework
