import Gatework.Expr.Primitives
import Gatework.Expr.Simplify
import Gatework.Stmt.Basic

/-
  Changes of the shape of statements.

  Key definitions include:
    * `ReshapeError`
    * `Stmt.mapExprs`, a function applied to every expression
    * `Stmt.caseTo`, a case as nested `if` statements or as
      one expression
    * `Stmt.toMux`, an `if` with `else` as one assignment
-/

------------------------------------------------------------
-- Errors
------------------------------------------------------------

namespace Gatework

/- Why a change of shape or an inlining does not apply. -/
inductive ReshapeError where
  | missingElse (cond : Expr)
  | mismatchedTargets (first second : Target)
  | notSingleAssign (kind : String)
  | wrongKind (expected found : String)
  | emptyCase (selector : Expr)
  | cycle (signal : String)
  | widthMismatch (signal : String) (declared actual : Nat)
deriving Repr, Inhabited

namespace ReshapeError

def message : ReshapeError → String
  | missingElse cond =>
      "`if (" ++ cond.verilog ++ ")` has no else branch"
  | mismatchedTargets first second =>
      "branches assign different targets: `" ++ first.verilog ++
        "` and `" ++ second.verilog ++ "`"
  | notSingleAssign kind =>
      "expected a single assignment, found " ++ kind
  | wrongKind expected found =>
      "expected " ++ expected ++ ", found " ++ found
  | emptyCase selector =>
      "case (" ++ selector.verilog ++ ") has no arms"
  | cycle signal =>
      "combinational cycle through `" ++ signal ++ "`"
  | widthMismatch signal declared actual =>
      "`" ++ signal ++ "` is " ++ toString declared ++
        " bits but its definition is " ++ toString actual ++
        " bits"

end ReshapeError

end Gatework

------------------------------------------------------------
-- Every expression
------------------------------------------------------------

namespace Gatework

namespace Stmt

mutual

/-
  Applies a function to every right-hand side, condition and
  selector. Targets and labels stay.
-/
def mapExprs
    (f : Expr → Expr) :
    Stmt → Stmt
  | assign a => assign ⟨a.target, f a.value⟩
  | ifThen c t => ifThen (f c) (mapExprs f t)
  | ifElse c t e => ifElse (f c) (mapExprs f t) (mapExprs f e)
  | case s arms => case (f s) (mapExprsArms f arms)
  | block ss => block (mapExprsAll f ss)

def mapExprsAll
    (f : Expr → Expr) :
    List Stmt → List Stmt
  | [] => []
  | s :: ss => mapExprs f s :: mapExprsAll f ss

def mapExprsArms
    (f : Expr → Expr) :
    List (Arm Stmt) → List (Arm Stmt)
  | [] => []
  | ⟨labels, d, s⟩ :: arms =>
      ⟨labels, d, mapExprs f s⟩ :: mapExprsArms f arms

end

def simplify
    (s : Stmt) :
    Stmt :=
  s.mapExprs Expr.simplify

def toPrimitives
    (s : Stmt) :
    Stmt :=
  s.mapExprs Expr.toPrimitives

end Stmt

end Gatework

------------------------------------------------------------
-- Case
------------------------------------------------------------

namespace Gatework

/- The form a case is brought into. -/
inductive CaseForm where
  | ifChain
  | mux
deriving DecidableEq, Repr, Inhabited

/- A case in its new form. -/
inductive CaseResult where
  | stmt (s : Stmt)
  | expr (e : Expr)
deriving Repr, Inhabited

namespace Arm

/- The condition under which an arm is taken. -/
def guard
    {α : Type}
    (selector : Expr)
    (arm : Arm α) :
    Expr :=
  (Expr.disjAll? (arm.labels.map fun l =>
    selector.equalsConst l.value)).getD (Expr.ofNat 0 1)

end Arm

namespace Stmt

/- An `if` with an optional `else`. -/
def branch
    (cond : Expr)
    (body : Stmt) :
    Option Stmt → Stmt
  | none => ifThen cond body
  | some otherwise => ifElse cond body otherwise

/- A body as its only assignment. -/
def single
    (body : Stmt) :
    Except ReshapeError Assign :=
  match body.singleAssign? with
  | some a => .ok a
  | none => .error (.notSingleAssign body.kind)

/- Every body assigns the target. -/
def checkTargets
    (first : Target) :
    List (Arm Stmt) → Except ReshapeError Unit
  | [] => .ok ()
  | arm :: arms => do
      let a ← single arm.body
      if a.target.same first then
        checkTargets first arms
      else
        .error (.mismatchedTargets first a.target)

/- The one target that every arm assigns. -/
def commonTarget
    (selector : Expr) :
    List (Arm Stmt) → Except ReshapeError Target
  | [] => .error (.emptyCase selector)
  | arm :: arms => do
      let a ← single arm.body
      checkTargets a.target arms
      return a.target

/- The value of a target that nothing assigns. -/
def fallbackValue
    (target : Target) :
    Fallback → Expr
  | .zero => Expr.ofNat 0 target.width
  | .hold => target.toExpr

/- A choice: products and a sum for a bit, else a mux. -/
def selectValue
    (cond ifTrue ifFalse : Expr) :
    Expr :=
  if ifTrue.width = 1 then
    Expr.primitiveMux cond ifTrue ifFalse
  else
    Expr.choose cond ifTrue ifFalse

/- The value a body assigns, or the fallback without body. -/
def valueOf
    (target : Target)
    (p : Fallback) :
    Option Stmt → Except ReshapeError Expr
  | none => .ok (fallbackValue target p)
  | some body => do
      let a ← single body
      return a.value

/- The body of the first arm with a label of this value. -/
def pick?
    (arms : List (Arm Stmt))
    (value : Nat) :
    Option Stmt :=
  (arms.find? fun arm => arm.accepts value).map Arm.body

/- The nested `if` statements for guarded bodies. -/
def chain
    (selector : Expr) :
    List (Arm Stmt) → Option Stmt → Option Stmt
  | [], tail => tail
  | arm :: arms, tail =>
      some (branch (arm.guard selector) arm.body
        (chain selector arms tail))

/- The value for guarded bodies, the first guard first. -/
def chainValue
    (selector : Expr)
    (tail : Expr) :
    List (Arm Stmt) → Except ReshapeError Expr
  | [] => .ok tail
  | arm :: arms => do
      let rest ← chainValue selector tail arms
      let a ← single arm.body
      return selectValue (arm.guard selector) a.value rest

/-
  The form of a case on a single bit, where some arm has the
  label 0 or 1: the two values choose between two bodies, and
  the default fills a missing one.
-/
def binaryCase
    (selector : Expr)
    (arms : List (Arm Stmt))
    (form : CaseForm)
    (p : Fallback)
    (onOne onZero : Option Stmt) :
    Except ReshapeError CaseResult :=
  match form with
  | .ifChain =>
      match onOne, onZero with
      | some t, e => .ok (.stmt (branch selector t e))
      | none, some e =>
          .ok (.stmt (ifThen (Expr.neg selector) e))
      | none, none => .ok (.stmt (block []))
  | .mux => do
      let target ← commonTarget selector arms
      let t ← valueOf target p onOne
      let e ← valueOf target p onZero
      return .expr (selectValue selector t e)

/- The form of a case by a chain of guards. -/
def guardedCase
    (selector : Expr)
    (arms : List (Arm Stmt))
    (form : CaseForm)
    (p : Fallback) :
    Except ReshapeError CaseResult :=
  let tail := (Arm.defaultIn? arms).map Arm.body
  match form with
  | .ifChain =>
      .ok (.stmt
        ((chain selector (Arm.labelledIn arms) tail).getD
          (block [])))
  | .mux => do
      let target ← commonTarget selector arms
      let last ← valueOf target p tail
      let e ← chainValue selector last (Arm.labelledIn arms)
      return .expr e

/- A case in another form. -/
def caseTo
    (selector : Expr)
    (arms : List (Arm Stmt))
    (form : CaseForm)
    (p : Fallback) :
    Except ReshapeError CaseResult :=
  if arms.isEmpty then
    .error (.emptyCase selector)
  else
    let onOne := pick? arms 1
    let onZero := pick? arms 0
    if selector.width = 1 ∧ (onOne.isSome ∨ onZero.isSome) then
      let tail := (Arm.defaultIn? arms).map Arm.body
      binaryCase selector arms form p
        (onOne.or tail) (onZero.or tail)
    else
      guardedCase selector arms form p

/- The new forms of the drivers that are cases, by name. -/
def casesTo
    (form : CaseForm)
    (p : Fallback) :
    List (String × Stmt) →
      Except ReshapeError (List (String × CaseResult))
  | [] => .ok []
  | (name, case selector arms) :: rest => do
      let r ← caseTo selector arms form p
      let rs ← casesTo form p rest
      return (name, r) :: rs
  | _ :: rest => casesTo form p rest

end Stmt

end Gatework

------------------------------------------------------------
-- If with else
------------------------------------------------------------

namespace Gatework

namespace Stmt

/-
  The assignment a branch amounts to: its only assignment, or
  an inner `if` with `else` collapsed.
-/
def collapse : Stmt → Except ReshapeError Assign
  | assign a => .ok a
  | ifThen c _ => .error (.missingElse c)
  | ifElse c t e => do
      let a ← collapse t
      let b ← collapse e
      if a.target.same b.target then
        return ⟨a.target, Expr.choose c a.value b.value⟩
      else
        .error (.mismatchedTargets a.target b.target)
  | block [s] => collapse s
  | case s arms => .error (.notSingleAssign (case s arms).kind)
  | block ss => .error (.notSingleAssign (block ss).kind)

/- An `if` with `else` over one target as one assignment. -/
def toMux : Stmt → Except ReshapeError Stmt
  | ifThen c t => (collapse (ifThen c t)).map assign
  | ifElse c t e => (collapse (ifElse c t e)).map assign
  | block [s] => toMux s
  | s => .error (.wrongKind "If" s.kind)

end Stmt

end Gatework
