import Gatework.Lowering.Expr

/-
  Lowering of statements.

  Empty statements vanish. What belongs to clocked logic is
  refused.

  Key definitions include:
    * `Lower.stmt`
    * `Lower.caseLabel`
-/

namespace Gatework

namespace Lower

/- A blocking assignment. -/
def assign
    (lhs : Hdl.Expr)
    (value : Hdl.Expr) :
    Lower Assign := do
  let t ← target lhs
  let v ← exprTo value t.width
  checked (Assign.make t v)

/- A label of a case at the width of the selector. -/
def caseLabel
    (label : Hdl.Expr)
    (width : Nat) :
    Lower Const := do
  match label.bare with
  | .literal _ _ _ =>
      let fitted :=
        match ← operand label with
        | .unsized l => l.fit? width
        | .sized e => e.asConst?.bind fun c => c.resized? width
      match fitted with
      | some c => return c
      | none =>
          fail (.widthMismatch
            ("case label `" ++ (← textOf label.span) ++ "` does not fit the "
              ++ toString width ++ "-bit selector")
            label.span)
  | _ =>
      refuse ("case label `" ++ (← textOf label.span) ++ "` is not a constant")
        label.span

/- The only kind of case that can be lowered. -/
def checkCaseKind
    (kind : Hdl.CaseKind)
    (span : Span) :
    Lower Unit :=
  match kind with
  | .exact => return ()
  | .casez => refuse "casez" span
  | .casex => refuse "casex" span

/- A conditional statement whose condition is one bit. -/
def branch
    (c : Expr)
    (body : Stmt)
    (otherwise : Option Stmt) :
    Lower Stmt := do
  checked (Stmt.checkCondition c)
  return match otherwise with
    | some e => .ifElse c body e
    | none => .ifThen c body

mutual

/- Lowers a statement; an empty one gives nothing. -/
def stmt : Hdl.Stmt → Lower (Option Stmt)
  | .blocking t v _ => return some (.assign (← assign t v))
  | .nonBlocking _ _ span => refuse "non-blocking assignment `<=`" span
  | .block _ body _ => do
      let ss ← stmts body
      return some (.block (ss.map Prod.fst))
  | .ifThen c t _ => do
      let c' ← cond c
      let t' ← stmt t
      return some (← branch c' (t'.getD (.block [])) none)
  | .ifElse c t e _ => do
      let c' ← cond c
      let t' ← stmt t
      let e' ← stmt e
      return some (← branch c' (t'.getD (.block [])) e')
  | .case kind selector items span => do
      checkCaseKind kind span
      let s ← expr selector
      let arms' ← arms s.width false items
      checked (Arm.check arms')
      return some (.case s arms')
  | .onEvent _ _ span =>
      refuse "event control inside a procedural block" span
  | .empty _ => return none
  | .broken span => refuse "malformed statement" span

/- Lowers statements; each is given with its text. -/
def stmts : List Hdl.Stmt → Lower (List (Stmt × String))
  | [] => return []
  | s :: ss => do
      match ← stmt s with
      | some s' =>
          let text ← textOf s.span
          return (s', trimText text) :: (← stmts ss)
      | none => stmts ss

/- Lowers arms of a case, of which one may be the default. -/
def arms
    (width : Nat)
    (seen : Bool) :
    List (Hdl.CaseArm Hdl.Stmt) → Lower (List (Arm Stmt))
  | [] => return []
  | ⟨labels, isDefault, body, span⟩ :: rest => do
      let body' := (← stmt body).getD (.block [])
      if isDefault then
        if seen then
          fail (.secondDefault span)
        else
          return Arm.default body' :: (← arms width true rest)
      else
        let cs ← labels.mapM fun l => caseLabel l width
        return Arm.labelled cs body' :: (← arms width seen rest)

end

end Lower

end Gatework
