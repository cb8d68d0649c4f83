import Gatework.Expr.Equality
import Gatework.Expr.Typing

/-
  Statements of a combinational process.

  Key definitions include:
    * `Target`, what an assignment can write
    * `Assign`
    * `Arm`, one arm of a case
    * `Stmt`
    * `Stmt.same`
    * `Stmt.validate`
-/

------------------------------------------------------------
-- Assignment
------------------------------------------------------------

namespace Gatework

/- A signal, one bit of it, or a range of its bits. -/
inductive Target where
  | whole (v : Var)
  | bit (v : Var) (index : Nat)
  | part (v : Var) (msb lsb : Nat)
deriving DecidableEq, Repr, Inhabited

namespace Target

/- The signal written. -/
def var : Target → Var
  | whole v => v
  | bit v _ => v
  | part v _ _ => v

/- The target as an expression. -/
def toExpr : Target → Expr
  | whole v => .var none v
  | bit v i => .bit none (.var none v) i
  | part v m l => .part none (.var none v) m l

/- The target an expression stands for, if it is one. -/
def ofExpr? : Expr → Option Target
  | .var _ v => some (whole v)
  | .bit _ (.var _ v) i => some (bit v i)
  | .part _ (.var _ v) m l => some (part v m l)
  | _ => none

/- The number of bits written. -/
def width
    (t : Target) :
    Nat :=
  t.toExpr.width

/- The lowest bit of a select; none for a whole signal. -/
def field? : Target → Option Nat
  | whole _ => none
  | bit _ i => some i
  | part _ m l => some (min m l)

/- The lowest bit written. -/
def low
    (t : Target) :
    Nat :=
  t.field?.getD 0

def verilog
    (t : Target) :
    String :=
  t.toExpr.verilog

/- The same bits of the same signal. -/
def same
    (t u : Target) :
    Bool :=
  t.toExpr.same u.toExpr

end Target

/- An assignment of a value to a target. -/
structure Assign where
  target : Target
  value : Expr
deriving Repr, Inhabited

namespace Assign

/- An assignment of whose sides the widths agree. -/
def make
    (lhs rhs : Expr) :
    Except Flaw Assign :=
  match Target.ofExpr? lhs with
  | none => .error (.notAssignable lhs)
  | some target =>
      if lhs.width = rhs.width then
        .ok ⟨target, rhs⟩
      else
        .error (.assignWidths lhs rhs)

/- The signal written. -/
def var
    (a : Assign) :
    Var :=
  a.target.var

def verilog
    (a : Assign) :
    String :=
  a.target.verilog ++ " = " ++ a.value.verilog

def same
    (a b : Assign) :
    Bool :=
  a.target.same b.target && a.value.same b.value

end Assign

end Gatework

------------------------------------------------------------
-- Statements
------------------------------------------------------------

namespace Gatework

/- What a target keeps when no arm assigns it. -/
inductive Fallback where
  | zero
  | hold
deriving DecidableEq, Repr, Inhabited

/-
  One arm of a case: labels, or the mark of the default, and
  a body.
-/
structure Arm (α : Type) where
  labels : List Const
  isDefault : Bool
  body : α
deriving Repr, Inhabited

namespace Arm

variable {α : Type}

def labelled
    (labels : List Const)
    (body : α) :
    Arm α :=
  ⟨labels, false, body⟩

def default
    (body : α) :
    Arm α :=
  ⟨[], true, body⟩

/- A labelled arm one of whose labels is the value. -/
def accepts
    (arm : Arm α)
    (value : Nat) :
    Bool :=
  !arm.isDefault && arm.labels.any fun l => l.value == value

/- The labels as written before the body. -/
def labelText
    (arm : Arm α) :
    String :=
  if arm.isDefault then "default"
  else Text.commas (arm.labels.map Const.verilog)

/- The first default arm. -/
def defaultIn?
    (arms : List (Arm α)) :
    Option (Arm α) :=
  arms.find? Arm.isDefault

/- The arms that have labels, in order. -/
def labelledIn
    (arms : List (Arm α)) :
    List (Arm α) :=
  arms.filter fun arm => !arm.isDefault

/- The arm a selector value picks. -/
def select?
    (arms : List (Arm α))
    (value : Nat) :
    Option (Arm α) :=
  match arms.find? fun arm => arm.accepts value with
  | some arm => some arm
  | none => defaultIn? arms

/-
  At most one default, which has no labels, and a label on
  every other arm.
-/
def check
    (arms : List (Arm α)) :
    Except Flaw Unit :=
  if (arms.filter Arm.isDefault).length > 1 then
    .error .twoDefaults
  else
    arms.forM fun arm =>
      if arm.isDefault && !arm.labels.isEmpty then
        .error .labelledDefault
      else if !arm.isDefault && arm.labels.isEmpty then
        .error .unlabelledArm
      else
        .ok ()

end Arm

/- Statements. -/
inductive Stmt where
  | assign (a : Assign)
  | ifThen (cond : Expr) (body : Stmt)
  | ifElse (cond : Expr) (body otherwise : Stmt)
  | case (selector : Expr) (arms : List (Arm Stmt))
  | block (stmts : List Stmt)
deriving Repr, Inhabited

namespace Stmt

/- The kind of the root. -/
def kind : Stmt → String
  | assign _ => "Assign"
  | ifThen _ _ => "If"
  | ifElse _ _ _ => "If"
  | case _ _ => "Case"
  | block _ => "Block"

/- The text of the root alone. -/
def label : Stmt → String
  | assign a => a.verilog
  | ifThen c _ => "if" ++ Text.parens c.verilog
  | ifElse c _ _ => "if" ++ Text.parens c.verilog
  | case s _ => "case" ++ Text.parens s.verilog
  | block _ => "begin"

/- The only assignment, looking through blocks of one. -/
def singleAssign? : Stmt → Option Assign
  | assign a => some a
  | block [s] => singleAssign? s
  | _ => none

end Stmt

end Gatework

------------------------------------------------------------
-- Equality
------------------------------------------------------------

namespace Gatework

namespace Stmt

/- Lists of constants alike place by place. -/
def labelsAlike : List Const → List Const → Bool
  | [], [] => true
  | c :: cs, d :: ds => c.alike d && labelsAlike cs ds
  | _, _ => false

mutual

/- Equal statements, up to the order in unordered gates. -/
def same : Stmt → Stmt → Bool
  | assign a, assign b => a.same b
  | ifThen c t, ifThen c' t' => c.same c' && same t t'
  | ifElse c t e, ifElse c' t' e' =>
      c.same c' && same t t' && same e e'
  | case s arms, case s' arms' => s.same s' && sameArms arms arms'
  | block ss, block ts => sameAll ss ts
  | _, _ => false

def sameAll : List Stmt → List Stmt → Bool
  | [], [] => true
  | s :: ss, t :: ts => same s t && sameAll ss ts
  | _, _ => false

def sameArms : List (Arm Stmt) → List (Arm Stmt) → Bool
  | [], [] => true
  | ⟨ls, d, s⟩ :: arms, ⟨ls', d', s'⟩ :: arms' =>
      labelsAlike ls ls' && same s s' && d == d' &&
        sameArms arms arms'
  | _, _ => false

end

end Stmt

end Gatework

------------------------------------------------------------
-- Validation
------------------------------------------------------------

namespace Gatework

namespace Stmt

/- A condition has one bit. -/
def checkCondition
    (cond : Expr) :
    Except Flaw Unit :=
  if cond.width = 1 then .ok () else .error (.wideCondition cond)

mutual

/- Checks a statement and reports the first flaw. -/
def validate : Stmt → Except Flaw Unit
  | assign a => do
      a.target.toExpr.validate
      a.value.validate
      discard (Assign.make a.target.toExpr a.value)
  | ifThen c t => do
      c.validate
      checkCondition c
      validate t
  | ifElse c t e => do
      c.validate
      checkCondition c
      validate t
      validate e
  | case s arms => do
      s.validate
      Arm.check arms
      validateArms arms
  | block ss => validateAll ss

def validateAll : List Stmt → Except Flaw Unit
  | [] => .ok ()
  | s :: ss => do
      validate s
      validateAll ss

def validateArms : List (Arm Stmt) → Except Flaw Unit
  | [] => .ok ()
  | ⟨_, _, s⟩ :: arms => do
      validate s
      validateArms arms

end

end Stmt

end Gatework
