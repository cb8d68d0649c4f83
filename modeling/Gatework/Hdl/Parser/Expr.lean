import Gatework.Hdl.Parser.Cursor
import Gatework.Hdl.Tree

/-
  Reading expressions by the powers of their operators.

  From the loosest to the tightest: the choice of two values,
  logical or and and, bitwise or, exclusive or, and,
  equality, operators in front of an operand, selects.
  Refused operators hold tighter than equality; they are
  reported and their operands are read all the same.

  Key definitions include:
    * `Parse.exprAt`
    * `Parse.expression`
-/

namespace Gatework.Hdl

namespace Parse

/- The power of operators in front of an operand. -/
def unaryPower : Nat :=
  13

/- The power of the right operand of a refused operator. -/
def refusedPower : Nat :=
  14

def lparen : TokenKind := .symbol .leftParen
def rparen : TokenKind := .symbol .rightParen
def lbracket : TokenKind := .symbol .leftBracket
def rbracket : TokenKind := .symbol .rightBracket
def lbrace : TokenKind := .symbol .leftBrace
def rbrace : TokenKind := .symbol .rightBrace
def colon : TokenKind := .symbol .colon
def semicolon : TokenKind := .symbol .semicolon

/- Where an expression is missing. -/
def noExpression : Parse Expr := do
  let start ← here
  missing "expression"
  return .broken start

/- A concatenation or a replication. -/
def braces
    (expr : Parse Expr) :
    Parse Expr := do
  let start ← here
  expect lbrace
  if ← eat rbrace then
    let span ← since start
    report "empty concatenation" span
    return .broken span
  else
    let first ← expr
    if ← eat lbrace then
      let elements ← commaList expr
      expect rbrace
      expect rbrace
      return .replicate first elements (← since start)
    else
      let others ← afterCommas expr (← get).rest.length
      expect rbrace
      return .concat (first :: others) (← since start)

/- A select behind its base. -/
def select
    (expr : Parse Expr)
    (base : Expr) :
    Parse Expr := do
  expect lbracket
  let first ← expr
  match ← ifEaten colon expr with
  | some lsb =>
      expect rbracket
      return .slice base first lsb (← since base.span)
  | none =>
      expect rbracket
      return .index base first (← since base.span)

/- An operator in front of its operand. -/
def unary
    (exprAt : Nat → Parse Expr)
    (start : Span)
    (op : UnaryOp) :
    Parse Expr := do
  advance
  let operand ← exprAt unaryPower
  return .unary op operand (start.merge operand.span)

/- A sign, which is refused, in front of its operand. -/
def signed
    (exprAt : Nat → Parse Expr)
    (start : Span) :
    Parse Expr := do
  report ("unary " ++ (← kind).describe ++ " is not supported") start
  advance
  let operand ← exprAt unaryPower
  return .broken (start.merge operand.span)

/- What an operator can stand behind. -/
def operand
    (exprAt : Nat → Parse Expr) :
    Parse Expr := do
  let start ← here
  match (← get).rest with
  | [] => noExpression
  | token :: _ =>
      match token.kind with
      | .identifier => return .name (← expectName) start
      | .literal form =>
          advance
          return .literal form token.text start
      | .symbol .leftParen =>
          advance
          let inner ← exprAt 0
          expect rparen
          return .paren inner (← since start)
      | .symbol .leftBrace => braces (exprAt 0)
      | .symbol .plus => signed exprAt start
      | .symbol .minus => signed exprAt start
      | .symbol mark =>
          match UnaryOp.ofSymbol? mark with
          | some op => unary exprAt start op
          | none => noExpression
      | .invalid =>
          advance
          return .broken start
      | _ => noExpression

/- What goes on from an expression, or the expression. -/
inductive Step where
  | grown (e : Expr)
  | done

/- The two values of a choice. -/
def choice
    (exprAt : Nat → Parse Expr)
    (condition : Expr) :
    Parse Expr := do
  advance
  let ifTrue ← exprAt 0
  expect colon
  let ifFalse ← exprAt 0
  return .ternary condition ifTrue ifFalse (condition.span.merge ifFalse.span)

/- A refused operator and its right operand. -/
def refused
    (exprAt : Nat → Parse Expr)
    (left : Expr) :
    Parse Expr := do
  report ("operator " ++ (← kind).describe
    ++ " is not supported; only bitwise, logical and equality operators are")
    (← here)
  advance
  let right ← exprAt refusedPower
  return .broken (left.span.merge right.span)

/- One operator or select behind an expression. -/
def extend
    (exprAt : Nat → Parse Expr)
    (power : Nat)
    (left : Expr) :
    Parse Step := do
  match ← kind with
  | .symbol .question =>
      if power = 0 then
        return .grown (← choice exprAt left)
      else
        return .done
  | .symbol .leftBracket => return .grown (← select (exprAt 0) left)
  | .symbol mark =>
      if mark.isRefused then
        if power < unaryPower then
          return .grown (← refused exprAt left)
        else
          return .done
      else
        match BinaryOp.ofSymbol? mark with
        | some op =>
            if op.power < power then
              return .done
            else
              advance
              let right ← exprAt (op.power + 1)
              return .grown
                (.binary left op right (left.span.merge right.span))
        | none => return .done
  | _ => return .done

/- All operators and selects behind an expression. -/
def extendAll
    (exprAt : Nat → Parse Expr)
    (power : Nat) :
    Nat → Expr → Parse Expr
  | 0, left => do
      exhaust
      return left
  | fuel + 1, left => do
      match ← extend exprAt power left with
      | .grown e => extendAll exprAt power fuel e
      | .done => return left

/-
  An expression whose operators hold at least as tightly as a
  power. Inner expressions and further operators each cost a
  token, so the fuel is a bound on the tokens left.
-/
def exprAt : Nat → Nat → Parse Expr
  | 0, _ => do
      exhaust
      noExpression
  | fuel + 1, power => do
      let left ← operand (exprAt fuel)
      extendAll (exprAt fuel) power fuel left

/- An expression. -/
def expression : Parse Expr := do
  exprAt ((← get).rest.length + 1) 0

end Parse

end Gatework.Hdl
