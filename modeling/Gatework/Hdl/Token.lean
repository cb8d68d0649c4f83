import Gatework.Source.Span

/-
  Tokens of the hardware description language.

  Words are case-sensitive. Besides the operators with a
  meaning there are some that are only known so that they can
  be refused by name.

  Key definitions include:
    * `Keyword`, `Symbol` and `LiteralKind`
    * `TokenKind` and `TokenKind.describe`
    * `Token`
-/

------------------------------------------------------------
-- Keywords
------------------------------------------------------------

namespace Gatework.Hdl

/- The reserved words. -/
inductive Keyword where
  | always
  | alwaysComb
  | alwaysFf
  | alwaysLatch
  | assign
  | beginBlock
  | caseExact
  | casex
  | casez
  | defaultArm
  | elseBranch
  | endBlock
  | endcase
  | endmodule
  | ifBranch
  | inout
  | input
  | logic
  | moduleHead
  | negedge
  | orEvent
  | output
  | posedge
  | reg
  | signed
  | wire
deriving DecidableEq, Repr, Inhabited

namespace Keyword

def spelling : Keyword → String
  | always => "always"
  | alwaysComb => "always_comb"
  | alwaysFf => "always_ff"
  | alwaysLatch => "always_latch"
  | assign => "assign"
  | beginBlock => "begin"
  | caseExact => "case"
  | casex => "casex"
  | casez => "casez"
  | defaultArm => "default"
  | elseBranch => "else"
  | endBlock => "end"
  | endcase => "endcase"
  | endmodule => "endmodule"
  | ifBranch => "if"
  | inout => "inout"
  | input => "input"
  | logic => "logic"
  | moduleHead => "module"
  | negedge => "negedge"
  | orEvent => "or"
  | output => "output"
  | posedge => "posedge"
  | reg => "reg"
  | signed => "signed"
  | wire => "wire"

def all : List Keyword :=
  [always, alwaysComb, alwaysFf, alwaysLatch, assign, beginBlock,
    caseExact, casex, casez, defaultArm, elseBranch, endBlock, endcase,
    endmodule, ifBranch, inout, input, logic, moduleHead, negedge, orEvent,
    output, posedge, reg, signed, wire]

/- The keyword with a spelling. -/
def ofSpelling?
    (word : String) :
    Option Keyword :=
  all.find? fun k => k.spelling == word

end Keyword

end Gatework.Hdl

------------------------------------------------------------
-- Symbols
------------------------------------------------------------

namespace Gatework.Hdl

/- Punctuation and operators. -/
inductive Symbol where
  | leftParen
  | rightParen
  | leftBracket
  | rightBracket
  | leftBrace
  | rightBrace
  | comma
  | semicolon
  | colon
  | atSign
  | star
  | question
  | equals
  | doubleEquals
  | bangEquals
  | lessEquals
  | ampersand
  | doubleAmpersand
  | pipe
  | doublePipe
  | caret
  | tildeCaret
  | tilde
  | tildeAmpersand
  | tildePipe
  | bang
  | plus
  | minus
  | lessThan
  | greaterThan
  | greaterEquals
  | doubleLess
  | doubleGreater
  | slash
  | percent
deriving DecidableEq, Repr, Inhabited

namespace Symbol

def spelling : Symbol → String
  | leftParen => "("
  | rightParen => ")"
  | leftBracket => "["
  | rightBracket => "]"
  | leftBrace => "\x7b"
  | rightBrace => "\x7d"
  | comma => ","
  | semicolon => ";"
  | colon => ":"
  | atSign => "@"
  | star => "*"
  | question => "?"
  | equals => "="
  | doubleEquals => "=="
  | bangEquals => "!="
  | lessEquals => "<="
  | ampersand => "&"
  | doubleAmpersand => "&&"
  | pipe => "|"
  | doublePipe => "||"
  | caret => "^"
  | tildeCaret => "~^"
  | tilde => "~"
  | tildeAmpersand => "~&"
  | tildePipe => "~|"
  | bang => "!"
  | plus => "+"
  | minus => "-"
  | lessThan => "<"
  | greaterThan => ">"
  | greaterEquals => ">="
  | doubleLess => "<<"
  | doubleGreater => ">>"
  | slash => "/"
  | percent => "%"

/- Operators that are known but have no meaning here. -/
def isRefused : Symbol → Bool
  | plus | minus | lessThan | greaterThan | greaterEquals => true
  | doubleLess | doubleGreater | slash | percent => true
  | _ => false

/- The symbol of two characters. -/
def ofPair? : Char → Char → Option Symbol
  | '=', '=' => some doubleEquals
  | '!', '=' => some bangEquals
  | '<', '=' => some lessEquals
  | '<', '<' => some doubleLess
  | '>', '=' => some greaterEquals
  | '>', '>' => some doubleGreater
  | '&', '&' => some doubleAmpersand
  | '|', '|' => some doublePipe
  | '^', '~' => some tildeCaret
  | '~', '^' => some tildeCaret
  | '~', '&' => some tildeAmpersand
  | '~', '|' => some tildePipe
  | _, _ => none

/- The symbol of one character. -/
def ofChar? : Char → Option Symbol
  | '(' => some leftParen
  | ')' => some rightParen
  | '[' => some leftBracket
  | ']' => some rightBracket
  | '\x7b' => some leftBrace
  | '\x7d' => some rightBrace
  | ',' => some comma
  | ';' => some semicolon
  | ':' => some colon
  | '@' => some atSign
  | '*' => some star
  | '?' => some question
  | '+' => some plus
  | '-' => some minus
  | '/' => some slash
  | '%' => some percent
  | '=' => some equals
  | '!' => some bang
  | '<' => some lessThan
  | '>' => some greaterThan
  | '&' => some ampersand
  | '|' => some pipe
  | '^' => some caret
  | '~' => some tilde
  | _ => none

end Symbol

end Gatework.Hdl

------------------------------------------------------------
-- Tokens
------------------------------------------------------------

namespace Gatework.Hdl

/-
  The forms of literals: a bare decimal, digits after a radix
  letter with or without a size, and one bit that fills a
  width.
-/
inductive LiteralKind where
  | int
  | based
  | fill
deriving DecidableEq, Repr, Inhabited

inductive TokenKind where
  | keyword (word : Keyword)
  | symbol (mark : Symbol)
  | literal (kind : LiteralKind)
  | identifier
  | endOfFile
  | invalid
deriving DecidableEq, Repr, Inhabited

namespace TokenKind

/- How a message names a token. -/
def describe : TokenKind → String
  | keyword word => "`" ++ word.spelling ++ "`"
  | symbol mark => "`" ++ mark.spelling ++ "`"
  | literal .int => "integer literal"
  | literal .based => "based literal"
  | literal .fill => "fill literal"
  | identifier => "identifier"
  | endOfFile => "end of file"
  | invalid => "invalid token"

end TokenKind

/- A token with its text and place. -/
structure Token where
  kind : TokenKind
  text : String
  span : Span
deriving DecidableEq, Repr, Inhabited

end Gatework.Hdl
