import Gatework.Hdl.Parser.Expr

/-
  Reading statements.

  A broken statement is skipped up to its end, but never past
  the word that closes the block around it.

  Key definitions include:
    * `Parse.stmtAt`
    * `Parse.statement`
    * `Parse.sensitivity`
-/

namespace Gatework.Hdl

namespace Parse

/- Skips the rest of a broken statement. -/
def skipStatement : Parse Unit := do
  skipTo [semicolon, .keyword .endBlock, .keyword .endcase, .keyword .endmodule]
  discard (eat semicolon)

/- Where a statement is missing. -/
def noStatement : Parse Stmt := do
  let start ← here
  missing "statement"
  skipStatement
  return .broken (← since start)

/- A block with an optional label at either end. -/
def block
    (stmt : Parse Stmt) :
    Parse Stmt := do
  let start ← here
  expect (.keyword .beginBlock)
  let label ← ifEaten colon expectName
  let body ← manyUntil [.keyword .endBlock, .keyword .endmodule] stmt
  expect (.keyword .endBlock)
  discard (ifEaten colon expectName)
  return .block label body (← since start)

def conditional
    (stmt : Parse Stmt) :
    Parse Stmt := do
  let start ← here
  expect (.keyword .ifBranch)
  expect lparen
  let condition ← expression
  expect rparen
  let thenBody ← stmt
  match ← ifEaten (.keyword .elseBranch) stmt with
  | some elseBody => return .ifElse condition thenBody elseBody (← since start)
  | none => return .ifThen condition thenBody (← since start)

/- An arm of a case. -/
def caseArm
    (stmt : Parse Stmt) :
    Parse (CaseArm Stmt) := do
  let start ← here
  if ← eat (.keyword .defaultArm) then
    discard (eat colon)
    let body ← stmt
    return ⟨[], true, body, ← since start⟩
  else
    let labels ← commaList expression
    expect colon
    let body ← stmt
    return ⟨labels, false, body, ← since start⟩

def caseOf
    (stmt : Parse Stmt)
    (kind : CaseKind) :
    Parse Stmt := do
  let start ← here
  advance
  expect lparen
  let selector ← expression
  expect rparen
  let arms ← manyUntil [.keyword .endcase, .keyword .endmodule] (caseArm stmt)
  expect (.keyword .endcase)
  return .case kind selector arms (← since start)

/- The edge a word names. -/
def edge? : TokenKind → Option Edge
  | .keyword .posedge => some .posedge
  | .keyword .negedge => some .negedge
  | _ => none

def event : Parse Event := do
  let start ← here
  let edge := edge? (← kind)
  if edge.isSome then advance
  let signal ← expression
  return ⟨edge, signal, ← since start⟩

/- Events that each follow a separator. -/
def moreEvents : Nat → Parse (List Event)
  | 0 => do
      exhaust
      return []
  | fuel + 1 => do
      match ← kind with
      | .keyword .orEvent | .symbol .comma =>
          advance
          let first ← event
          return first :: (← moreEvents fuel)
      | _ => return []

/- What follows the sign of an event control. -/
def sensitivity : Parse Sensitivity := do
  if ← eat (.symbol .star) then
    return .star
  else
    expect lparen
    if ← eat (.symbol .star) then
      expect rparen
      return .star
    else
      let first ← event
      let others ← moreEvents (← get).rest.length
      expect rparen
      return .events (first :: others)

def onEvent
    (stmt : Parse Stmt) :
    Parse Stmt := do
  let start ← here
  expect (.symbol .atSign)
  let events ← sensitivity
  let body ← stmt
  return .onEvent events body (← since start)

/- An assignment with either sign. -/
def assignment : Parse Stmt := do
  let start ← here
  let target ← expression
  if ← eat (.symbol .equals) then
    let value ← expression
    expect semicolon
    return .blocking target value (← since start)
  else if ← eat (.symbol .lessEquals) then
    let value ← expression
    expect semicolon
    return .nonBlocking target value (← since start)
  else
    missing "`=` or `<=`"
    skipStatement
    return .broken (← since start)

/-
  A statement. Inner statements each cost a token, so the
  fuel is a bound on the tokens left.
-/
def stmtAt : Nat → Parse Stmt
  | 0 => do
      exhaust
      noStatement
  | fuel + 1 => do
      match ← kind with
      | .keyword .beginBlock => block (stmtAt fuel)
      | .keyword .ifBranch => conditional (stmtAt fuel)
      | .keyword .caseExact => caseOf (stmtAt fuel) .exact
      | .keyword .casez => caseOf (stmtAt fuel) .casez
      | .keyword .casex => caseOf (stmtAt fuel) .casex
      | .symbol .atSign => onEvent (stmtAt fuel)
      | .symbol .semicolon =>
          let span ← here
          advance
          return .empty span
      | .identifier | .symbol .leftBrace => assignment
      | _ => noStatement

/- A statement. -/
def statement : Parse Stmt := do
  stmtAt ((← get).rest.length + 1)

end Parse

end Gatework.Hdl
