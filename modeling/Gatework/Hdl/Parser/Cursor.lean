import Gatework.Diagnostic.Basic
import Gatework.Hdl.Token
import Gatework.NameTable

/-
  Reading tokens one after the other.

  A parser never moves backwards and never moves past the end
  of the file. It reports what it misses and goes on.

  Key definitions include:
    * `Cursor`, the tokens left, names seen and problems found
    * `Parse`
    * `Parse.expect` and `Parse.expectName`
    * `Parse.commaList` and `Parse.manyUntil`
-/

------------------------------------------------------------
-- Cursors
------------------------------------------------------------

namespace Gatework.Hdl

/-
  The tokens not read yet, the place of the last one read,
  the names in order of appearance and the problems so far.
  Loops have a bound; a cursor on which one was cut off at its
  bound is exhausted.
-/
structure Cursor where
  rest : List Token
  last : Option Span := none
  names : NameTable := {}
  findings : Findings := {}
  exhausted : Bool := false
deriving Repr, Inhabited

namespace Cursor

def kind
    (c : Cursor) :
    TokenKind :=
  match c.rest with
  | [] => .endOfFile
  | t :: _ => t.kind

/- The kind of the token after the current one. -/
def nextKind
    (c : Cursor) :
    TokenKind :=
  match c.rest with
  | _ :: t :: _ => t.kind
  | _ => .endOfFile

/- The place of the current token. -/
def here
    (c : Cursor) :
    Span :=
  match c.rest with
  | [] => c.last.getD Span.nowhere
  | t :: _ => t.span

/- The place of the last token read, if one was read. -/
def previous
    (c : Cursor) :
    Span :=
  c.last.getD c.here

/- The next token, except that the end of the file stays. -/
def advance
    (c : Cursor) :
    Cursor :=
  match c.rest with
  | [] => c
  | t :: rest =>
      if t.kind = .endOfFile then c else { c with rest, last := some t.span }

def report
    (c : Cursor)
    (message : String)
    (span : Span) :
    Cursor :=
  { c with findings := c.findings.report (.error 101 message span) }

/-
  Reports that something else was expected, unless the token
  is invalid and so was reported before.
-/
def missing
    (c : Cursor)
    (what : String) :
    Cursor :=
  if c.kind = .invalid then
    c
  else
    c.report ("expected " ++ what ++ ", found " ++ c.kind.describe) c.here

end Cursor

end Gatework.Hdl

------------------------------------------------------------
-- Parsers
------------------------------------------------------------

namespace Gatework.Hdl

/- A parser moves a cursor and gives what it read. -/
abbrev Parse := StateM Cursor

namespace Parse

def kind : Parse TokenKind :=
  return (← get).kind

def here : Parse Span :=
  return (← get).here

/- A span from its start to the last token read. -/
def since
    (start : Span) :
    Parse Span :=
  return start.merge (← get).previous

def advance : Parse Unit :=
  modify Cursor.advance

def report
    (message : String)
    (span : Span) :
    Parse Unit :=
  modify fun c => c.report message span

def missing
    (what : String) :
    Parse Unit :=
  modify fun c => c.missing what

/- The current token has a kind. -/
def looksAt
    (kind : TokenKind) :
    Parse Bool :=
  return decide ((← get).kind = kind)

/- Reads a token of a kind if it is the current one. -/
def eat
    (kind : TokenKind) :
    Parse Bool := do
  if ← looksAt kind then
    advance
    return true
  else
    return false

/- Reads a token of a kind or reports that it is missing. -/
def expect
    (kind : TokenKind) :
    Parse Unit := do
  if ← eat kind then
    return ()
  else
    missing kind.describe

/- The name that stands for one that is missing. -/
def missingName : String :=
  "<missing>"

/- Takes note of a name. -/
def noteName
    (name : String) :
    Parse String := do
  modify fun c => { c with names := (c.names.add name).2 }
  return name

/- Reads a name or reports that it is missing. -/
def expectName : Parse String := do
  match (← get).rest with
  | ⟨.identifier, text, _⟩ :: _ =>
      advance
      noteName text
  | _ =>
      missing "identifier"
      noteName missingName

/- A loop that is cut off at its bound. -/
def exhaust : Parse Unit :=
  modify fun c => { c with exhausted := true }

/- What follows if a token of a kind was there. -/
def ifEaten
    {α : Type}
    (kind : TokenKind)
    (parser : Parse α) :
    Parse (Option α) := do
  if ← eat kind then
    return some (← parser)
  else
    return none

/- What is read if a token of a kind is the current one. -/
def ifAt
    {α : Type}
    (kind : TokenKind)
    (parser : Parse α) :
    Parse (Option α) := do
  if ← looksAt kind then
    return some (← parser)
  else
    return none

/- Items that each follow a comma. -/
def afterCommas
    {α : Type}
    (item : Parse α) :
    Nat → Parse (List α)
  | 0 => do
      exhaust
      return []
  | fuel + 1 => do
      if ← eat (.symbol .comma) then
        let first ← item
        return first :: (← afterCommas item fuel)
      else
        return []

/-
  One item and more after commas. Every further item costs a
  comma, so the tokens left bound their number.
-/
def commaList
    {α : Type}
    (item : Parse α) :
    Parse (List α) := do
  let first ← item
  return first :: (← afterCommas item (← get).rest.length)

/- Whether items end at a kind of token. -/
def atEnd
    (stops : List TokenKind) :
    Parse Bool :=
  return decide ((← get).kind ∈ TokenKind.endOfFile :: stops)

/- Items up to one of some tokens. -/
def itemsUntil
    {α : Type}
    (stops : List TokenKind)
    (item : Parse α) :
    Nat → Parse (List α)
  | 0 => do
      exhaust
      return []
  | fuel + 1 => do
      if ← atEnd stops then
        return []
      else
        let before := (← get).rest.length
        let first ← item
        if (← get).rest.length = before then advance
        return first :: (← itemsUntil stops item fuel)

/-
  Items up to one of some tokens or the end of the file. An
  item that reads nothing is followed by a step over the
  token that it did not accept, so the tokens left bound the
  number of items.
-/
def manyUntil
    {α : Type}
    (stops : List TokenKind)
    (item : Parse α) :
    Parse (List α) := do
  itemsUntil stops item (← get).rest.length

/- Steps up to one of some tokens. -/
def skipSteps
    (stops : List TokenKind) :
    Nat → Parse Unit
  | 0 => exhaust
  | fuel + 1 => do
      if ← atEnd stops then
        return ()
      else
        advance
        skipSteps stops fuel

/- Skips tokens up to one of some or the end of the file. -/
def skipTo
    (stops : List TokenKind) :
    Parse Unit := do
  skipSteps stops (← get).rest.length

end Parse

end Gatework.Hdl
