import Gatework.Text.Digits
import Gatework.Toml.Error

/-
  Blanks, comments, strings and keys of TOML text.

  A reader takes characters and gives what it has read with
  the characters that follow, or nothing. The readers of keys
  tell a key that is not there from one that is broken.

  Key definitions include:
    * `Toml.lineEnd?` and `Toml.skipLines`
    * `Toml.string?`
    * `Toml.dottedKey`
-/

------------------------------------------------------------
-- Blanks and comments
------------------------------------------------------------

namespace Gatework

namespace Toml

/- A blank inside a line. -/
def isSpace
    (c : Char) :
    Bool :=
  c == ' ' || c == '\t'

def skipSpaces
    (cs : List Char) :
    List Char :=
  cs.dropWhile isSpace

/- What follows the end of a line. -/
def newline? : List Char → Option (List Char)
  | '\n' :: rest => some rest
  | '\r' :: '\n' :: rest => some rest
  | _ => none

/- What follows a comment, if one stands here. -/
def skipComment : List Char → List Char
  | '#' :: rest => rest.dropWhile isPlain
  | cs => cs

/-
  What follows blanks, a comment and the end of the line. The
  last line may end with the text.
-/
def lineEnd?
    (cs : List Char) :
    Option (List Char) :=
  match skipComment (skipSpaces cs) with
  | [] => some []
  | rest => newline? rest

/- Skips up to a number of blank lines and comments. -/
def skipLinesBy : Nat → List Char → List Char
  | 0, cs => cs
  | n + 1, cs =>
      match newline? (skipComment (skipSpaces cs)) with
      | some rest => skipLinesBy n rest
      | none => skipSpaces cs

/-
  What follows blanks, ends of lines and comments that end
  with their line.
-/
def skipLines
    (cs : List Char) :
    List Char :=
  skipLinesBy cs.length cs

end Toml

end Gatework

------------------------------------------------------------
-- Strings
------------------------------------------------------------

namespace Gatework

namespace Toml

/-
  The forms of strings: with escapes between double quotes,
  or without between single ones, on one line or on several.
-/
structure StringForm where
  escapes : Bool
  multiline : Bool
deriving DecidableEq, Repr, Inhabited

namespace StringForm

def quote
    (form : StringForm) :
    Char :=
  if form.escapes then '\x22' else '\x27'

end StringForm

/- The character of a code point in hexadecimal digits. -/
def codePoint?
    (length : Nat)
    (cs : List Char) :
    Option (Char × List Char) := do
  let digits := cs.take length
  let n ← Radix.hex.read? digits
  if digits.length = length ∧ n.isValidChar then
    return (Char.ofNat n, cs.drop length)
  else
    none

/- The character an escape stands for, after the backslash. -/
def escape? : List Char → Option (Char × List Char)
  | 'b' :: rest => some ('\x08', rest)
  | 't' :: rest => some ('\t', rest)
  | 'n' :: rest => some ('\n', rest)
  | 'f' :: rest => some ('\x0c', rest)
  | 'r' :: rest => some ('\r', rest)
  | '\x22' :: rest => some ('\x22', rest)
  | '\x5c' :: rest => some ('\x5c', rest)
  | 'u' :: rest => codePoint? 4 rest
  | 'U' :: rest => codePoint? 8 rest
  | _ => none

/- Skips up to a number of blanks and ends of lines. -/
def skipBlankLines : Nat → List Char → List Char
  | 0, cs => cs
  | n + 1, cs =>
      let rest := skipSpaces cs
      match newline? rest with
      | some rest => skipBlankLines n rest
      | none => rest

/- What follows a backslash at the end of a line. -/
def foldedLine?
    (cs : List Char) :
    Option (List Char) :=
  (newline? (skipSpaces cs)).map fun rest =>
    skipBlankLines (rest.length + 1) rest

/-
  The content of a string up to its closing quotes, and what
  follows. On several lines one or two quotes are content, and
  up to two may stand before the three that close it.
-/
def content?
    (form : StringForm) :
    Nat → List Char → Option (List Char × List Char)
  | 0, _ => none
  | _, [] => none
  | n + 1, c :: cs =>
      let more (front rest : List Char) :=
        (content? form n rest).map fun (s, rest) => (front ++ s, rest)
      if c = form.quote then
        if form.multiline then
          let run := ((c :: cs).takeWhile fun d => d == c).take 5
          if run.length < 3 then more run ((c :: cs).drop run.length)
          else some (run.drop 3, (c :: cs).drop run.length)
        else
          some ([], cs)
      else if c = '\x5c' ∧ form.escapes then
        match if form.multiline then foldedLine? cs else none with
        | some rest => more [] rest
        | none =>
            match escape? cs with
            | some (d, rest) => more [d] rest
            | none => none
      else if isPlain c then
        more [c] cs
      else if form.multiline then
        match newline? (c :: cs) with
        | some rest => more ['\n'] rest
        | none => none
      else
        none

/- A string of a form, after its opening quotes. -/
def stringOf?
    (form : StringForm)
    (cs : List Char) :
    Option (String × List Char) :=
  let cs := if form.multiline then (newline? cs).getD cs else cs
  (content? form (cs.length + 1) cs).map fun (s, rest) =>
    (String.ofList s, rest)

/- A string on one line. -/
def lineString? : List Char → Option (String × List Char)
  | '\x22' :: rest => stringOf? ⟨true, false⟩ rest
  | '\x27' :: rest => stringOf? ⟨false, false⟩ rest
  | _ => none

/- A string of any form. -/
def string? : List Char → Option (String × List Char)
  | '\x22' :: '\x22' :: '\x22' :: rest => stringOf? ⟨true, true⟩ rest
  | '\x27' :: '\x27' :: '\x27' :: rest => stringOf? ⟨false, true⟩ rest
  | cs => lineString? cs

end Toml

end Gatework

------------------------------------------------------------
-- Keys
------------------------------------------------------------

namespace Gatework

namespace Toml

/-
  A single key; nothing if none stands here. One that begins
  with a quote must be a whole string.
-/
def key
    (cs : List Char) :
    Except TomlError (Option (String × List Char)) :=
  match cs.takeWhile isBare with
  | [] =>
      if cs.head? = some '\x22' ∨ cs.head? = some '\x27' then
        (TomlError.require (lineString? cs)).map some
      else
        .ok none
  | word => .ok (some (String.ofList word, cs.dropWhile isBare))

/-
  Keys with dots and blanks between them. A dot without a key
  behind it is left.
-/
def keys : Nat → List Char → Except TomlError (List String × List Char)
  | 0, cs => .ok ([], cs)
  | n + 1, cs => do
      match ← key (skipSpaces cs) with
      | none => return ([], cs)
      | some (word, rest) =>
          match skipSpaces rest with
          | '.' :: behind =>
              let (words, rest) ← keys n behind
              if words.isEmpty then return ([word], '.' :: behind)
              else return (word :: words, rest)
          | rest => return ([word], rest)

/- The number of keys of a path stays below this. -/
def depthLimit : Nat :=
  80

/- A path and the key at its end; nothing if none stands here. -/
def dottedKey
    (cs : List Char) :
    Except TomlError (Option ((List String × String) × List Char)) := do
  let (words, rest) ← keys (cs.length + 1) cs
  match words.getLast? with
  | none => return none
  | some word =>
      if words.length < depthLimit then
        return some ((words.dropLast, word), rest)
      else
        return none

end Toml

end Gatework
