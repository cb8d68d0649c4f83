import Gatework.Diagnostic.Basic
import Gatework.Hdl.Token
import Gatework.Source.Bytes
import Gatework.Text.Blank
import Gatework.Text.Digits

/-
  The lexer: a source is cut into pieces, and the pieces that
  are tokens are kept.

  Every piece starts with the first character left and takes
  as many more as belong to it, so the pieces of a source lie
  side by side and cover it. Blanks, comments and directive
  lines are no tokens; a directive line and an unfinished
  comment are reported, and so is what is wrong with an
  invalid token.

  Key definitions include:
    * `Piece` and `Piece.first`
    * `pieces`
    * `lex`

  Correctness is proven by:
    * `text_pieces`
-/

------------------------------------------------------------
-- Characters
------------------------------------------------------------

namespace Gatework.Hdl

def isNameStart
    (c : Char) :
    Bool :=
  c.isAlpha || c == '_'

def isNameChar
    (c : Char) :
    Bool :=
  c.isAlphanum || c == '_' || c == '$'

/- A digit or a separator between digits. -/
def isDecimalChar
    (c : Char) :
    Bool :=
  c.isDigit || c == '_'

/- An unknown or floating bit, or a separator. -/
def isUnknownChar
    (c : Char) :
    Bool :=
  c == 'x' || c == 'z' || c == '?' || c == '_'

/- A character that may stand among digits of a radix. -/
def isRadixChar
    (radix : Radix)
    (c : Char) :
    Bool :=
  let low := c.toLower
  let digit :=
    match radix with
    | .binary => low == '0' || low == '1'
    | .octal => decide ('0' ≤ low) && decide (low ≤ '7')
    | .decimal => low.isDigit
    | .hex => low.isDigit || (decide ('a' ≤ low) && decide (low ≤ 'f'))
  digit || isUnknownChar low

end Gatework.Hdl

------------------------------------------------------------
-- Pieces
------------------------------------------------------------

namespace Gatework.Hdl

/- What a piece of source is. -/
inductive PieceKind where
  | blank
  | comment
  | directive
  | token (kind : TokenKind)
deriving DecidableEq, Repr, Inhabited

/-
  What is wrong with a piece: the message is about the piece
  without its first `skip` characters.
-/
structure Flawed where
  message : String
  skip : Nat
deriving DecidableEq, Repr, Inhabited

/-
  A piece by its kind and the number of characters after its
  first one.
-/
structure Piece where
  kind : PieceKind
  extra : Nat
  flaw : Option Flawed := none
deriving DecidableEq, Repr, Inhabited

namespace Piece

/- A token without a flaw. -/
def good
    (kind : TokenKind)
    (extra : Nat) :
    Piece :=
  { kind := .token kind, extra }

/- An invalid token. -/
def bad
    (extra : Nat)
    (message : String)
    (skip : Nat) :
    Piece :=
  { kind := .token .invalid, extra, flaw := some ⟨message, skip⟩ }

end Piece

/- How many characters from the front have a property. -/
def countWhile
    (p : Char → Bool)
    (cs : List Char) :
    Nat :=
  (cs.takeWhile p).length

/-
  The length of the rest of a block comment and whether it is
  closed.
-/
def commentRest : List Char → Nat × Bool
  | [] => (0, false)
  | '*' :: '/' :: _ => (2, true)
  | _ :: cs =>
      let rest := commentRest cs
      (rest.1 + 1, rest.2)

/-
  A radix after an apostrophe: an optional sign letter and
  the radix letter, with the characters they take.
-/
def radixMark? : List Char → Option (Radix × Nat)
  | c :: d :: _ =>
      if c.toLower = 's' then
        (Radix.ofLetter? d).map fun r => (r, 2)
      else
        (Radix.ofLetter? c).map fun r => (r, 1)
  | [c] => (Radix.ofLetter? c).map fun r => (r, 1)
  | [] => none

/-
  The piece of a based literal that has `before` characters
  up to its radix letter, one of them its first.
-/
def basedPiece
    (before : Nat)
    (radix : Radix)
    (cs : List Char) :
    Piece :=
  let blanks := countWhile isAsciiBlank cs
  let afterBlanks := cs.drop blanks
  let digits := countWhile (isRadixChar radix) afterBlanks
  let tail := countWhile isNameChar (afterBlanks.drop digits)
  let length := before + blanks + digits
  if digits = 0 then
    .bad (length - 1) "based literal has no digits" 0
  else if tail = 0 then
    .good (.literal .based) (length - 1)
  else
    .bad (length + tail - 1)
      ("invalid digit for base '" ++ radix.letter.toString ++ "'")
      length

/- The piece that starts with a digit. -/
def numberPiece
    (cs : List Char) :
    Piece :=
  let digits := countWhile isDecimalChar cs
  let bare := Piece.good (.literal .int) digits
  match cs.drop digits with
  | '\x27' :: rest =>
      match radixMark? rest with
      | some (radix, n) =>
          basedPiece (digits + 2 + n) radix (rest.drop n)
      | none => bare
  | _ => bare

/- A bit that can fill a width. -/
def isFillChar
    (c : Char) :
    Bool :=
  let low := c.toLower
  low == '0' || low == '1' || low == 'x' || low == 'z'

/- A fill bit that no name goes on from. -/
def startsFill : List Char → Bool
  | [] => false
  | c :: rest => isFillChar c && !(rest.head?.any isNameChar)

/- The piece that starts with an apostrophe. -/
def tickPiece
    (cs : List Char) :
    Piece :=
  if startsFill cs then
    .good (.literal .fill) 1
  else
    match radixMark? cs with
    | some (radix, n) => basedPiece (n + 1) radix (cs.drop n)
    | none => .bad 0 "expected a base (b, o, d, h) after '" 0

/- The piece of an operator or of a character out of place. -/
def symbolPiece
    (c : Char)
    (cs : List Char) :
    Piece :=
  match cs.head?.bind (Symbol.ofPair? c) with
  | some s => .good (.symbol s) 1
  | none =>
      match Symbol.ofChar? c with
      | some s => .good (.symbol s) 0
      | none => .bad 0 ("unrecognized character '" ++ c.toString ++ "'") 0

/- The piece of a name or keyword. -/
def wordPiece
    (c : Char)
    (cs : List Char) :
    Piece :=
  let word := c :: cs.takeWhile isNameChar
  match Keyword.ofSpelling? (String.ofList word) with
  | some k => .good (.keyword k) (word.length - 1)
  | none => .good .identifier (word.length - 1)

/- A character that does not end a line. -/
def staysInLine
    (c : Char) :
    Bool :=
  c != '\n'

namespace Piece

/- The piece at the front of some characters. -/
def first
    (c : Char)
    (cs : List Char) :
    Piece :=
  if isAsciiBlank c then
    { kind := .blank, extra := countWhile isAsciiBlank cs }
  else if c = '/' ∧ cs.head? = some '/' then
    { kind := .comment, extra := countWhile staysInLine cs }
  else if c = '/' ∧ cs.head? = some '*' then
    let rest := commentRest (cs.drop 1)
    { kind := .comment
      extra := rest.1 + 1
      flaw := if rest.2 then none else some ⟨"unterminated block comment", 0⟩ }
  else if c = '\x60' then
    { kind := .directive
      extra := countWhile staysInLine cs
      flaw := some ⟨"compiler directive ignored", 0⟩ }
  else if isNameStart c then
    wordPiece c cs
  else if c.isDigit then
    numberPiece cs
  else if c = '\x27' then
    tickPiece cs
  else
    symbolPiece c cs

end Piece

/- The pieces of some characters, each with its text. -/
def pieces : List Char → List (Piece × List Char)
  | [] => []
  | c :: cs =>
      let piece := Piece.first c cs
      (piece, c :: cs.take piece.extra) :: pieces (cs.drop piece.extra)
termination_by cs => cs.length
decreasing_by simp only [List.length_drop, List.length_cons]; omega

/- The pieces lie side by side and cover the source. -/
theorem text_pieces
    (cs : List Char) :
    ((pieces cs).map Prod.snd).flatten = cs := by
  fun_induction pieces cs with
  | case1 => rfl
  | case2 c cs piece ih =>
    simp only [List.map_cons, List.flatten_cons, ih, List.cons_append,
      List.take_append_drop]

end Gatework.Hdl

------------------------------------------------------------
-- Tokens and problems
------------------------------------------------------------

namespace Gatework.Hdl

/- The tokens of a source and what was found on the way. -/
structure Lexed where
  tokens : List Token
  problems : List Diagnostic
deriving DecidableEq, Repr, Inhabited

namespace Piece

/- The token of a piece, if it is one. -/
def token?
    (piece : Piece)
    (text : List Char)
    (span : Span) :
    Option Token :=
  match piece.kind with
  | .token kind => some ⟨kind, String.ofList text, span⟩
  | _ => none

/- What is reported of a piece. -/
def problem?
    (piece : Piece)
    (text : List Char)
    (span : Span) :
    Option Diagnostic :=
  piece.flaw.map fun flaw =>
    let place :=
      { span with start := span.start + byteLength (text.take flaw.skip) }
    if piece.kind = .directive then
      Diagnostic.warning 100 flaw.message place
    else
      Diagnostic.error 100 flaw.message place

end Piece

/- Tokens and problems of pieces that start at an offset. -/
def tokensAt
    (file : Option Nat) :
    Nat → List (Piece × List Char) → Lexed
  | offset, [] => ⟨[⟨.endOfFile, "", ⟨file, offset, offset⟩⟩], []⟩
  | offset, (piece, text) :: rest =>
      let stop := offset + byteLength text
      let span : Span := ⟨file, offset, stop⟩
      let later := tokensAt file stop rest
      ⟨(piece.token? text span).toList ++ later.tokens,
        (piece.problem? text span).toList ++ later.problems⟩

/-
  The tokens of a text, which end with the end of the file,
  and the problems in it.
-/
def lex
    (file : Option Nat)
    (text : String) :
    Lexed :=
  tokensAt file 0 (pieces text.toList)

end Gatework.Hdl
