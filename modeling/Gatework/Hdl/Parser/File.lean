import Gatework.Hdl.Lexer
import Gatework.Hdl.Parser.Stmt
import Gatework.Source.File

/-
  Reading items, modules and whole files.

  Key definitions include:
    * `Parse.item`
    * `Parse.moduleDecl`
    * `Parse.file`
    * `Parsed` and `parseFile`
-/

------------------------------------------------------------
-- Declarations
------------------------------------------------------------

namespace Gatework.Hdl

namespace Parse

/- The direction a word names. -/
def direction? : TokenKind → Option Direction
  | .keyword .input => some .input
  | .keyword .output => some .output
  | .keyword .inout => some .inout
  | _ => none

/- The kind of net a word names. -/
def netKind? : TokenKind → Option NetKind
  | .keyword .wire => some .wire
  | .keyword .logic => some .logic
  | .keyword .reg => some .reg
  | _ => none

/- Reads a direction, if there is one. -/
def eatDirection : Parse (Option Direction) := do
  let found := direction? (← kind)
  if found.isSome then advance
  return found

/- Reads the kind of a net, if there is one. -/
def eatNetKind : Parse NetKind := do
  let found := netKind? (← kind)
  if found.isSome then advance
  return found.getD .implicit

/- The bounds of a vector. -/
def range : Parse Range := do
  let start ← here
  expect lbracket
  let msb ← expression
  expect colon
  let lsb ← expression
  expect rbracket
  return ⟨msb, lsb, ← since start⟩

/- Names behind commas that are not followed by a new type. -/
def carriedNames : Nat → Parse (List String)
  | 0 => do
      exhaust
      return []
  | fuel + 1 => do
      let cursor ← get
      if cursor.kind = .symbol .comma ∧ cursor.nextKind = .identifier then
        advance
        let first ← expectName
        return first :: (← carriedNames fuel)
      else
        return []

/- Pins of one type in the head of a module. -/
def headPin
    (before : Direction) :
    Parse PinDecl := do
  let start ← here
  let direction := (← eatDirection).getD before
  let net ← eatNetKind
  let signed ← eat (.keyword .signed)
  let bounds ← ifAt lbracket range
  let first ← expectName
  let others ← carriedNames (← get).rest.length
  return ⟨direction, net, signed, bounds, first :: others, ← since start⟩

/-
  Pins behind commas. A pin without a direction has that of
  the pin before it.
-/
def moreHeadPins : Nat → Direction → Parse (List PinDecl)
  | 0, _ => do
      exhaust
      return []
  | fuel + 1, before => do
      if ← eat (.symbol .comma) then
        let first ← headPin before
        return first :: (← moreHeadPins fuel first.direction)
      else
        return []

def headPins : Parse (List PinDecl) := do
  let first ← headPin .input
  return first :: (← moreHeadPins (← get).rest.length first.direction)

/- The pins in the head of a module. -/
def header : Parse Header := do
  expect lparen
  if ← eat rparen then
    return .empty
  else
    let start ← kind
    if (direction? start).isSome || (netKind? start).isSome then
      let pins ← headPins
      expect rparen
      return .declared pins
    else
      let names ← commaList expectName
      expect rparen
      return .named names

end Parse

end Gatework.Hdl

------------------------------------------------------------
-- Items
------------------------------------------------------------

namespace Gatework.Hdl

namespace Parse

/- A net with the value it may be tied to. -/
def declName : Parse DeclName := do
  let start ← here
  let name ← expectName
  let init ← ifEaten (.symbol .equals) expression
  return ⟨name, init, ← since start⟩

def netDecl : Parse Item := do
  let start ← here
  let net ← eatNetKind
  let signed ← eat (.keyword .signed)
  let bounds ← ifAt lbracket range
  let names ← commaList declName
  expect semicolon
  return .net ⟨net, signed, bounds, names, ← since start⟩

def pinDecl : Parse Item := do
  let start ← here
  let direction := (← eatDirection).getD .input
  let net ← eatNetKind
  let signed ← eat (.keyword .signed)
  let bounds ← ifAt lbracket range
  let names ← commaList expectName
  expect semicolon
  return .pins ⟨direction, net, signed, bounds, names, ← since start⟩

def continuous : Parse Item := do
  let start ← here
  expect (.keyword .assign)
  let target ← expression
  expect (.symbol .equals)
  let value ← expression
  expect semicolon
  return .assign target value (← since start)

/- A block behind a word of the always family. -/
def process
    (make : Stmt → Span → Item) :
    Parse Item := do
  let start ← here
  advance
  let body ← statement
  return make body (← since start)

def clocked : Parse Item := do
  let start ← here
  advance
  let events ← ifEaten (.symbol .atSign) sensitivity
  if events.isNone then missing "`@`"
  let body ← statement
  return .alwaysFf (events.getD .star) body (← since start)

/- What is no item is skipped up to its end. -/
def noItem : Parse Item := do
  let start ← here
  if ← looksAt .identifier then
    report
      ("unsupported module item (instances and typed declarations "
        ++ "are not part of the subset)")
      start
  else
    missing "module item"
  skipTo [semicolon, .keyword .endmodule]
  discard (eat semicolon)
  return .broken (← since start)

/- An item of a module body. -/
def item : Parse Item := do
  match ← kind with
  | .keyword .wire | .keyword .logic | .keyword .reg => netDecl
  | .keyword .input | .keyword .output | .keyword .inout => pinDecl
  | .keyword .assign => continuous
  | .keyword .always => process .always
  | .keyword .alwaysComb => process .alwaysComb
  | .keyword .alwaysLatch => process .alwaysLatch
  | .keyword .alwaysFf => clocked
  | _ => noItem

end Parse

end Gatework.Hdl

------------------------------------------------------------
-- Files
------------------------------------------------------------

namespace Gatework.Hdl

namespace Parse

def moduleDecl : Parse ModuleDecl := do
  let start ← here
  expect (.keyword .moduleHead)
  let name ← expectName
  let head ← ifAt lparen header
  expect semicolon
  let items ← manyUntil [.keyword .endmodule] item
  expect (.keyword .endmodule)
  discard (ifEaten colon expectName)
  return ⟨name, head.getD .empty, items, ← since start⟩

/- A module, or what stands in front of the next one. -/
def topItem : Parse TopItem := do
  if ← looksAt (.keyword .moduleHead) then
    return .decl (← moduleDecl)
  else
    let start ← here
    missing "`module`"
    advance
    skipTo [.keyword .moduleHead]
    return .broken (← since start)

/- A whole file. -/
def file : Parse File := do
  let start ← here
  let items ← manyUntil [] topItem
  if items.isEmpty then
    return ⟨items, start⟩
  else
    return ⟨items, ← since start⟩

end Parse

/- What was read, the names in it and the problems found. -/
structure Parsed (α : Type) where
  tree : α
  names : NameTable
  findings : Findings
deriving Repr, Inhabited

/- Runs a parser on tokens. -/
def parseLexed
    {α : Type}
    (parser : Parse α)
    (lexed : Lexed) :
    Parsed α :=
  let start : Cursor :=
    { rest := lexed.tokens
      findings := lexed.problems.foldl Findings.report {} }
  let (tree, cursor) := parser.run start
  ⟨tree, cursor.names, cursor.findings⟩

/- Runs a parser on the tokens of a text. -/
def parseWith
    {α : Type}
    (parser : Parse α)
    (number : Option Nat)
    (text : String) :
    Parsed α :=
  parseLexed parser (lex number text)

/- The tree of a source file with a number. -/
def parseFile
    (number : Nat)
    (source : SourceFile) :
    Parsed File :=
  parseWith Parse.file (some number) source.text

end Gatework.Hdl

------------------------------------------------------------
-- Spelled texts
------------------------------------------------------------

namespace Gatework.Hdl

theorem spelled_append
    {s t : String}
    {cs ds : List Char}
    (hs : s = String.ofList cs)
    (ht : t = String.ofList ds) :
    s ++ t = String.ofList (cs ++ ds) := by
  rw [hs, ht, String.ofList_append]

/-
  A text whose characters are spelled out need not be decoded
  first. A proof that evaluates the tree of a fixed source
  spends most of its time on that otherwise.
-/
theorem parseFile_spelled
    (number : Nat)
    (source : SourceFile)
    {cs : List Char}
    (hText : source.text = String.ofList cs) :
    parseFile number source =
      parseLexed Parse.file
        (tokensAt (some number) 0 (pieces cs)) := by
  unfold parseFile parseWith lex
  rw [hText, String.toList_ofList]

end Gatework.Hdl
