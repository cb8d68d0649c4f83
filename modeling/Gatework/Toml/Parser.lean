import Gatework.Toml.Scalar
import Gatework.Toml.Text

/-
  Reading of TOML documents.

  Lines are read up to the first that does not fit. What they
  say is put together first, so that the first error in the
  order of the text is told.

  Key definitions include:
    * `Toml.value`
    * `Toml.lines`
    * `Toml.parse`
-/

------------------------------------------------------------
-- Values
------------------------------------------------------------

namespace Gatework

namespace Toml

mutual

/-
  A value and what follows it. The first number bounds the
  steps, the second counts the arrays and tables around it.
-/
def value : Nat → Nat → List Char → Except TomlError (Toml × List Char)
  | 0, _, _ => .error .malformed
  | n + 1, depth, cs =>
      match cs with
      | '[' :: rest =>
          if depth + 1 < depthLimit then do
            let (found, rest) ← items n (depth + 1) rest
            return (.array false found, rest)
          else
            .error .malformed
      | '\x7b' :: rest =>
          if depth + 1 < depthLimit then do
            let (found, rest) ← members n (depth + 1) rest
            let table ← inlineTable found
            let rest ← TomlError.require (mark? '\x7d' (skipSpaces rest))
            return (table, rest)
          else
            .error .malformed
      | _ =>
          TomlError.require
            (if cs.head? = some '\x22' ∨ cs.head? = some '\x27' then
              (string? cs).map fun (s, rest) => (.string s, rest)
            else
              scalar? cs)

/-
  Items up to the closing bracket. A comma may follow the last
  one, and lines may end anywhere between them.
-/
def items : Nat → Nat → List Char →
    Except TomlError (List Toml × List Char)
  | 0, _, _ => .error .malformed
  | n + 1, depth, cs =>
      match skipLines cs with
      | ']' :: rest => .ok ([], rest)
      | rest => do
          let (item, rest) ← value n depth rest
          match skipLines rest with
          | ',' :: rest =>
              let (found, rest) ← items n depth rest
              return (item :: found, rest)
          | ']' :: rest => return ([item], rest)
          | _ => .error .malformed

/-
  Entries with commas between them, all on one line. A comma
  without an entry behind it is left.
-/
def members : Nat → Nat → List Char →
    Except TomlError (List Entry × List Char)
  | 0, _, _ => .error .malformed
  | n + 1, depth, cs => do
      match ← entry n depth cs with
      | none => return ([], cs)
      | some (e, rest) =>
          match skipSpaces rest with
          | ',' :: behind =>
              let (found, rest) ← members n depth behind
              if found.isEmpty then return ([e], ',' :: behind)
              else return (e :: found, rest)
          | rest => return ([e], rest)

/- A key with its value; nothing if no key stands here. -/
def entry : Nat → Nat → List Char →
    Except TomlError (Option (Entry × List Char))
  | 0, _, _ => .error .malformed
  | n + 1, depth, cs => do
      match ← dottedKey cs with
      | none => return none
      | some ((path, key), rest) =>
          let rest ← TomlError.require (mark? '=' rest)
          let (found, rest) ← value n depth (skipSpaces rest)
          return some (⟨path, key, found⟩, rest)

end

end Toml

end Gatework

------------------------------------------------------------
-- Documents
------------------------------------------------------------

namespace Gatework

namespace Toml

/- What follows the brackets that close a header. -/
def headerEnd? : Bool → List Char → Option (List Char)
  | true, ']' :: ']' :: rest => some rest
  | false, ']' :: rest => some rest
  | _, _ => none

/- A header after its opening brackets. -/
def headerOf
    (extendsArray : Bool)
    (cs : List Char) :
    Except TomlError (Header × List Char) := do
  let ((path, key), rest) ← TomlError.require (← dottedKey cs)
  let rest ← TomlError.require (headerEnd? extendsArray rest)
  return (⟨path, key, extendsArray⟩, rest)

/- A header that fills its line, after its first bracket. -/
def headerLine
    (cs : List Char) :
    Except TomlError (Header × List Char) := do
  let (h, rest) ←
    match cs with
    | '[' :: cs => headerOf true cs
    | cs => headerOf false cs
  return (h, ← TomlError.require (lineEnd? rest))

/- An entry that fills its line. -/
def entryLine
    (cs : List Char) :
    Except TomlError (Entry × List Char) := do
  let (e, rest) ←
    TomlError.require (← entry (2 * cs.length + 2) 0 cs)
  return (e, ← TomlError.require (lineEnd? rest))

/-
  The outline of the lines up to the first that does not fit,
  and the error of that one. A line is blank, a header or an
  entry.
-/
def lines : Nat → List Char → Outline × Option TomlError
  | 0, _ => ({}, some .malformed)
  | n + 1, cs =>
      match skipLines cs with
      | [] => ({}, none)
      | '#' :: rest =>
          if (rest.dropWhile isPlain).isEmpty then ({}, none)
          else ({}, some .malformed)
      | '[' :: rest =>
          match headerLine rest with
          | .error e => ({}, some e)
          | .ok (h, rest) =>
              let (below, flaw) := lines n rest
              (below.under h, flaw)
      | rest =>
          match entryLine rest with
          | .error e => ({}, some e)
          | .ok (e, rest) =>
              let (below, flaw) := lines n rest
              (below.withEntry e, flaw)

/- A document without a mark of its byte order. -/
def dropByteOrderMark : List Char → List Char
  | '\uFEFF' :: rest => rest
  | cs => cs

/- Reads a document. -/
def parse
    (text : String) :
    Except TomlError Entries := do
  let cs := dropByteOrderMark text.toList
  let (outline, flaw) := lines (cs.length + 1) cs
  let entries ← assemble outline
  match flaw with
  | some e => .error e
  | none => return entries

end Toml

end Gatework
