import Gatework.Diagnostic.Basic
import Gatework.Expr.Typing
import Gatework.Hdl.Literal

/-
  Why a source cannot be lowered to logic.

  Key definitions include:
    * `LowerError`
    * `LowerError.message`
    * `LowerError.diagnostic`
-/

namespace Gatework

/- The first construct that stops the lowering of a source. -/
inductive LowerError where
  | unsupported (what : String) (span : Span)
  | unknownName (name : String) (span : Span)
  | openSelect (signal : String) (span : Span)
  | selectOutside (signal select : String) (span : Span)
  | widthMismatch (detail : String) (span : Span)
  | secondDefault (span : Span)
  | unknownBits (text : String) (span : Span)
  | literalTooWide (text : String) (span : Span)
  | redeclared (name : String) (span previous : Span)
  | drivenTwice (name : String) (span previous : Span)
  | notParsed (count : Nat)
  | flaw (f : Flaw)
deriving Repr, Inhabited

namespace LowerError

def message : LowerError → String
  | unsupported what _ => "unsupported construct: " ++ what
  | unknownName name _ => "unknown identifier `" ++ name ++ "`"
  | openSelect signal _ =>
      "select on `" ++ signal ++ "` must have constant bounds"
  | selectOutside signal select _ =>
      "select " ++ select ++ " is outside the range of `" ++ signal ++ "`"
  | widthMismatch detail _ => "width mismatch: " ++ detail
  | secondDefault _ => "case statement has more than one default item"
  | unknownBits text _ => "literal `" ++ text ++ "` contains x/z digits"
  | literalTooWide text _ => "literal `" ++ text ++ "` is wider than 64 bits"
  | redeclared name _ _ => "`" ++ name ++ "` is already declared"
  | drivenTwice name _ _ => "`" ++ name ++ "` is driven more than once"
  | notParsed count => toString count ++ " syntax error(s)"
  | flaw f => f.message

/- The place of an error, if it has one. -/
def span? : LowerError → Option Span
  | unsupported _ s => some s
  | unknownName _ s => some s
  | openSelect _ s => some s
  | selectOutside _ _ s => some s
  | widthMismatch _ s => some s
  | secondDefault s => some s
  | unknownBits _ s => some s
  | literalTooWide _ s => some s
  | redeclared _ s _ => some s
  | drivenTwice _ s _ => some s
  | notParsed _ => none
  | flaw _ => none

def number : LowerError → Nat
  | unsupported _ _ => 200
  | unknownName _ _ => 201
  | openSelect _ _ => 202
  | selectOutside _ _ _ => 203
  | widthMismatch _ _ => 204
  | secondDefault _ => 205
  | unknownBits _ _ => 206
  | literalTooWide _ _ => 207
  | redeclared _ _ _ => 208
  | drivenTwice _ _ _ => 209
  | notParsed _ => 200
  | flaw _ => 200

/- The diagnostic an error is reported as. -/
def diagnostic
    (e : LowerError) :
    Diagnostic :=
  let d := Diagnostic.error e.number e.message (e.span?.getD Span.nowhere)
  match e with
  | redeclared _ _ previous =>
      d.withLabel .secondary previous "first declared here"
  | drivenTwice _ _ previous =>
      d.withLabel .secondary previous "first driven here"
  | unknownName _ _ =>
      d.withHelp "declare the signal, or disable `strict_identifiers`"
  | unknownBits _ _ =>
      d.withHelp "x/z digits read as 0 unless `strict_literals` is set"
  | unsupported _ _ => d.withNote "only combinational logic can be lowered"
  | _ => d

/- The error of a flawed literal. -/
def ofLiteral
    (text : String)
    (span : Span) :
    Hdl.LiteralFlaw → LowerError
  | .tooWide => literalTooWide text span
  | .unknownBits => unknownBits text span
  | .malformed => unsupported ("literal `" ++ text ++ "`") span
  | .zeroWidth => unsupported ("zero-width literal `" ++ text ++ "`") span

end LowerError

end Gatework
