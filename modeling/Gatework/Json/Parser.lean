import Gatework.Json.Basic

/-
  Reading of JSON text.

  Key definitions include:
    * `Json.parse?`
-/

------------------------------------------------------------
-- Strings
------------------------------------------------------------

namespace Gatework

namespace Json

def isBlank
    (c : Char) :
    Bool :=
  c == ' ' || c == '\n' || c == '\t' || c == '\r'

def skipBlanks
    (cs : List Char) :
    List Char :=
  cs.dropWhile isBlank

/- Four hexadecimal digits and what follows them. -/
def hexUnit? : List Char → Option (Nat × List Char)
  | a :: b :: c :: d :: rest => do
      let unit ← Radix.hex.read? [a, b, c, d]
      return (unit, rest)
  | _ => none

/- One unit of string content: a character, or none at all. -/
abbrev Content := List (Option Char)

/-
  Pairs of escaped units that together stand for one
  character beyond the first plane are joined; a half that
  stands alone is no character.
-/
def joinUnits : List (Char ⊕ Nat) → Content
  | [] => []
  | .inl c :: rest => some c :: joinUnits rest
  | .inr h :: .inr l :: rest =>
      if 0xD800 ≤ h ∧ h < 0xDC00 ∧ 0xDC00 ≤ l ∧ l < 0xE000 then
        some (Char.ofNat
          (0x10000 + (h - 0xD800) * 0x400 + (l - 0xDC00))) ::
          joinUnits rest
      else if 0xD800 ≤ h ∧ h < 0xE000 then
        none :: joinUnits (.inr l :: rest)
      else
        some (Char.ofNat h) :: joinUnits (.inr l :: rest)
  | .inr h :: rest =>
      if 0xD800 ≤ h ∧ h < 0xE000 then none :: joinUnits rest
      else some (Char.ofNat h) :: joinUnits rest

/-
  The units of a string up to its closing quote, and what
  follows. Control characters must be escaped.
-/
def units? : Nat → List Char → Option (List (Char ⊕ Nat) × List Char)
  | 0, _ => none
  | _, [] => none
  | n + 1, c :: rest =>
      if c = '\x22' then
        some ([], rest)
      else if c = '\x5c' then
        match rest with
        | 'u' :: rest => do
            let (unit, rest) ← hexUnit? rest
            let (us, rest) ← units? n rest
            return (.inr unit :: us, rest)
        | e :: rest => do
            let c ←
              if e = '\x22' ∨ e = '\x5c' ∨ e = '/' then some e
              else if e = 'b' then some '\x08'
              else if e = 'f' then some '\x0c'
              else if e = 'n' then some '\n'
              else if e = 'r' then some '\r'
              else if e = 't' then some '\t'
              else none
            let (us, rest) ← units? n rest
            return (.inl c :: us, rest)
        | [] => none
      else if c.toNat < 0x20 then
        none
      else do
        let (us, rest) ← units? n rest
        return (.inl c :: us, rest)

/- The content of a string, if every unit is a character. -/
def content?
    (us : List (Char ⊕ Nat)) :
    Option String :=
  ((joinUnits us).mapM id).map String.ofList

/- The value of a string after its opening quote. -/
def string?
    (cs : List Char) :
    Option (Json × List Char) := do
  let (us, rest) ← units? (cs.length + 1) cs
  match content? us with
  | some s => return (str s, rest)
  | none => return (brokenStr, rest)

end Json

end Gatework

------------------------------------------------------------
-- Numbers
------------------------------------------------------------

namespace Gatework

namespace Json

/- One or more digits, and what follows them. -/
def digits?
    (cs : List Char) :
    Option (List Char × List Char) :=
  let ds := cs.takeWhile Char.isDigit
  if ds.isEmpty then none else some (ds, cs.dropWhile Char.isDigit)

/- Digits without a leading zero, or a single zero. -/
def integer?
    (cs : List Char) :
    Option (List Char × List Char) :=
  match cs with
  | '0' :: rest =>
      if rest.head?.any Char.isDigit then none else some (['0'], rest)
  | _ => digits? cs

/- An optional fraction. -/
def fraction?
    (cs : List Char) :
    Option (List Char × List Char) :=
  match cs with
  | '.' :: rest => do
      let (ds, rest) ← digits? rest
      return ('.' :: ds, rest)
  | _ => some ([], cs)

/- An optional exponent. -/
def exponent?
    (cs : List Char) :
    Option (List Char × List Char) :=
  match cs with
  | e :: rest =>
      if e = 'e' ∨ e = 'E' then
        match rest with
        | s :: rest' =>
            if s = '+' ∨ s = '-' then do
              let (ds, rest) ← digits? rest'
              return (e :: s :: ds, rest)
            else do
              let (ds, rest) ← digits? rest
              return (e :: ds, rest)
        | [] => none
      else
        some ([], cs)
  | [] => some ([], [])

/- A number after its sign. -/
def number?
    (sign : List Char)
    (cs : List Char) :
    Option (Json × List Char) := do
  let (whole, cs) ← integer? cs
  let (frac, cs) ← fraction? cs
  let (exp, cs) ← exponent? cs
  return (num (String.ofList (sign ++ whole ++ frac ++ exp)), cs)

end Json

end Gatework

------------------------------------------------------------
-- Values
------------------------------------------------------------

namespace Gatework

namespace Json

/- What follows a fixed word. -/
def word?
    (word cs : List Char) :
    Option (List Char) :=
  if cs.take word.length = word then some (cs.drop word.length)
  else none

/- The object of members, of which no key may be broken. -/
def objectOf
    (members : List (Option String × Json)) :
    Json :=
  let whole := members.mapM fun (key, value) =>
    key.map fun k => (k, value)
  match whole with
  | some members => obj members
  | none => brokenObj

mutual

/- A value and what follows it, with a bound on the nesting. -/
def value? : Nat → List Char → Option (Json × List Char)
  | 0, _ => none
  | n + 1, cs =>
      match skipBlanks cs with
      | [] => none
      | c :: rest =>
          if c = '\x22' then string? rest
          else if c = '[' then
            match skipBlanks rest with
            | ']' :: rest => some (arr [], rest)
            | rest => do
                let (items, rest) ← items? n rest
                return (arr items, rest)
          else if c = '\x7b' then
            match skipBlanks rest with
            | '\x7d' :: rest => some (obj [], rest)
            | rest => do
                let (members, rest) ← members? n rest
                return (objectOf members, rest)
          else if c = '-' then number? ['-'] rest
          else if c.isDigit then number? [] (c :: rest)
          else if c = 'n' then
            (word? ['u', 'l', 'l'] rest).map fun r => (null, r)
          else if c = 't' then
            (word? ['r', 'u', 'e'] rest).map fun r => (bool true, r)
          else if c = 'f' then
            (word? ['a', 'l', 's', 'e'] rest).map fun r =>
              (bool false, r)
          else none

/- Items up to the closing bracket. -/
def items? : Nat → List Char → Option (List Json × List Char)
  | 0, _ => none
  | n + 1, cs => do
      let (item, rest) ← value? n cs
      match skipBlanks rest with
      | ',' :: rest =>
          let (items, rest) ← items? n rest
          return (item :: items, rest)
      | ']' :: rest => return ([item], rest)
      | _ => none

/- Members up to the closing brace. A broken key is none. -/
def members? : Nat → List Char →
    Option (List (Option String × Json) × List Char)
  | 0, _ => none
  | n + 1, cs =>
      match skipBlanks cs with
      | '\x22' :: rest => do
          let (us, rest) ← units? (rest.length + 1) rest
          let key := content? us
          match skipBlanks rest with
          | ':' :: rest =>
              let (value, rest) ← value? n rest
              match skipBlanks rest with
              | ',' :: rest =>
                  let (members, rest) ← members? n rest
                  return ((key, value) :: members, rest)
              | '\x7d' :: rest => return ([(key, value)], rest)
              | _ => none
          | _ => none
      | _ => none

end

/- Reads a text that holds one value and blanks around it. -/
def parse?
    (text : String) :
    Option Json := do
  let cs := text.toList
  let (j, rest) ← value? (2 * cs.length + 2) cs
  if (skipBlanks rest).isEmpty then return j else none

end Json

end Gatework
