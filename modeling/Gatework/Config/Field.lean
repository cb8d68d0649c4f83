import Gatework.Text.Quote
import Gatework.Toml.Basic

/-
  Readers of settings: a value of a document as a flag, a text,
  one of several choices, or a section with named fields.

  Key definitions include:
    * `FieldError`
    * `Field.flag`, `Field.text`, `Field.texts` and `Field.choice`
    * `Field.sectionOf`
-/

------------------------------------------------------------
-- Errors
------------------------------------------------------------

namespace Gatework

/- Why a value is not what a setting takes. -/
inductive FieldError where
  | unknownField (name : String) (known : List String)
  | unknownVariant (name : String) (known : List String)
  | wrongType (found : Toml) (expected : String)
  | wrongShape (what : String)
deriving Repr, Inhabited

namespace FieldError

/- The names of which one is expected. -/
def oneOf
    (known : List String) :
    String :=
  match known with
  | [] => "nothing"
  | [a] => Text.backquoted a
  | [a, b] => Text.backquoted a ++ " or " ++ Text.backquoted b
  | names => "one of " ++ String.intercalate ", " (names.map Text.backquoted)

/- What a value is, in a message. -/
def describe : Toml → String
  | .string s => "string " ++ Text.quoted s
  | .integer n => "integer " ++ Text.backquoted (toString n)
  | .float text => "floating point " ++ Text.backquoted text
  | .boolean b => "boolean " ++ Text.backquoted (if b then "true" else "false")
  | .array _ _ => "sequence"
  | .moment _ => "map"
  | .table _ _ => "map"

def message : FieldError → String
  | unknownField name known =>
      "unknown field " ++ Text.backquoted name ++ ", expected " ++ oneOf known
  | unknownVariant name known =>
      "unknown variant " ++ Text.backquoted name ++ ", expected " ++ oneOf known
  | wrongType found expected =>
      "invalid type: " ++ describe found ++ ", expected " ++ expected
  | wrongShape what => what

end FieldError

end Gatework

------------------------------------------------------------
-- Readers
------------------------------------------------------------

namespace Gatework

namespace Field

def flag : Toml → Except FieldError Bool
  | .boolean b => .ok b
  | found => .error (.wrongType found "a boolean")

def text : Toml → Except FieldError String
  | .string s => .ok s
  | found => .error (.wrongType found "a string")

def texts : Toml → Except FieldError (List String)
  | .array _ items => items.mapM text
  | found => .error (.wrongType found "a sequence")

/- The choice of a name. -/
def named
    {α : Type}
    (choices : List (String × α))
    (name : String) :
    Except FieldError α :=
  match choices.find? fun c => c.1 == name with
  | some c => .ok c.2
  | none => .error (.unknownVariant name (choices.map Prod.fst))

/- A value without content: an empty table or array. -/
def isHollow : Toml → Bool
  | .table _ entries => entries.isEmpty
  | .array _ items => items.isEmpty
  | _ => false

/-
  One of several choices: its name as a string, or as the only
  key of a table with nothing behind it.
-/
def choice
    {α : Type}
    (choices : List (String × α)) :
    Toml → Except FieldError α
  | .string name => named choices name
  | .table _ [(name, inner)] => do
      let a ← named choices name
      if isHollow inner then return a
      else .error (.wrongShape "expected empty table")
  | .table _ _ => .error (.wrongShape "wanted exactly 1 element")
  | _ => .error (.wrongShape "wanted string or table")

/- A named field that changes settings. -/
abbrev Setter (σ : Type) := String × (σ → Toml → Except FieldError σ)

/- A field that is read and then put into the settings. -/
def setter
    {σ α : Type}
    (name : String)
    (read : Toml → Except FieldError α)
    (put : σ → α → σ) :
    Setter σ :=
  (name, fun s value => (read value).map (put s))

/- Sets fields by name, in the order of the entries. -/
def setNamed
    {σ : Type}
    (fields : List (Setter σ))
    (start : σ)
    (entries : Toml.Entries) :
    Except FieldError σ :=
  entries.foldlM
    (fun s entry =>
      match fields.find? fun f => f.1 == entry.1 with
      | some f => f.2 s entry.2
      | none => .error (.unknownField entry.1 (fields.map Prod.fst)))
    start

/-
  A section with a name: a table of fields, of which missing
  ones keep their values, or an array of values in the order
  of fields.
-/
def sectionOf
    {σ : Type}
    (name : String)
    (fields : List (Setter σ))
    (start : σ) :
    Toml → Except FieldError σ
  | .table _ entries => setNamed fields start entries
  | .array _ items =>
      (fields.zip items).foldlM (fun s (f, item) => f.2 s item) start
  | found => .error (.wrongType found ("struct " ++ name))

end Field

end Gatework
