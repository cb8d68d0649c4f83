import Gatework.Expr.Printer

/-
  Which expressions are well typed.

  Each kind of node has one check on its operands. The
  checked constructors run the check of the node they build;
  `Expr.validate` runs the checks of a whole tree, operands
  first and from left to right.

  Key definitions include:
    * `Flaw`, what can be wrong with a node
    * `Flaw.message`
    * `Const.make`, `Var.make`, `Expr.make`
    * `Expr.validate`
    * `Expr.rebuild`
-/

------------------------------------------------------------
-- Flaws
------------------------------------------------------------

namespace Gatework

/- What is wrong with a node. -/
inductive Flaw where
  | constWidth (width : Nat)
  | constValue (value width : Nat)
  | emptyName
  | varWidth (name : String) (width : Nat)
  | wideNot (x : Expr)
  | operandWidths (node : String) (a b : Expr)
  | wideSelector (selector : Expr)
  | bitOutside (base : Expr) (index : Nat)
  | partOutside (base : Expr) (msb lsb : Nat)
  | noParts
  | tooWide (total : Nat)
  | notAssignable (lhs : Expr)
  | assignWidths (lhs rhs : Expr)
  | wideCondition (cond : Expr)
  | twoDefaults
  | labelledDefault
  | unlabelledArm
deriving Repr, Inhabited

namespace Flaw

/- The kind of node the flaw is in. -/
def node : Flaw → String
  | constWidth _ => "Const"
  | constValue _ _ => "Const"
  | emptyName => "Var"
  | varWidth _ _ => "Var"
  | wideNot _ => "Not"
  | operandWidths node _ _ => node
  | wideSelector _ => "Mux"
  | bitOutside _ _ => "BitSelect"
  | partOutside _ _ _ => "PartSelect"
  | noParts => "Concat"
  | tooWide _ => "Concat"
  | notAssignable _ => "Assign"
  | assignWidths _ _ => "Assign"
  | wideCondition _ => "If"
  | twoDefaults => "Case"
  | labelledDefault => "Case"
  | unlabelledArm => "Case"

/- An expression in quotes, followed by its width. -/
def withWidth
    (e : Expr) :
    String :=
  "`" ++ e.verilog ++ "` is " ++ toString e.width ++ " bits"

/- What is wrong, without the node. -/
def detail : Flaw → String
  | constWidth w =>
      "width " ++ toString w ++ " outside 1..=64"
  | constValue v w =>
      "value " ++ toString v ++ " does not fit in " ++
        toString w ++ " bits"
  | emptyName => "name must not be empty"
  | varWidth name w =>
      "`" ++ name ++ "` has width " ++ toString w ++
        " outside 1..=64"
  | wideNot x =>
      "operand " ++ withWidth x ++ " wide, expected 1"
  | operandWidths _ a b =>
      "operand widths differ: " ++ withWidth a ++ ", " ++
        withWidth b
  | wideSelector s => "selector " ++ withWidth s ++ " wide"
  | bitOutside b i =>
      "index " ++ toString i ++ " out of range for `" ++
        b.verilog ++ "` of width " ++ toString b.width
  | partOutside b m l =>
      Expr.partText "" m l ++ " out of range for `" ++
        b.verilog ++ "` of width " ++ toString b.width
  | noParts => "no parts"
  | tooWide total =>
      "total width " ++ toString total ++ " exceeds 64"
  | notAssignable lhs =>
      "`" ++ lhs.verilog ++ "` is not assignable"
  | assignWidths lhs rhs =>
      withWidth lhs ++ " but " ++ withWidth rhs
  | wideCondition c => "condition " ++ withWidth c ++ " wide"
  | twoDefaults => "more than one default arm"
  | labelledDefault => "default arm carries labels"
  | unlabelledArm => "arm without labels"

/- The flaw as shown to the user. -/
def message
    (f : Flaw) :
    String :=
  "invariant violated in " ++ f.node ++ ": " ++ f.detail

end Flaw

end Gatework

------------------------------------------------------------
-- Checked leaves
------------------------------------------------------------

namespace Gatework

/- Widths a signal or constant can have. -/
def inRange
    (width : Nat) :
    Bool :=
  decide (1 ≤ width) && decide (width ≤ maxWidth)

namespace Const

/- A plain constant whose value fits its width. -/
def make
    (value width : Nat) :
    Except Flaw Const :=
  if !inRange width then
    .error (.constWidth width)
  else if value > mask width then
    .error (.constValue value width)
  else
    .ok (plain value width)

/-
  The constant at another width that holds its value. Sign
  mark and radix are kept, the written text is not.
-/
def resized?
    (c : Const)
    (width : Nat) :
    Option Const :=
  match make c.value width with
  | .ok d => some ⟨d.value, d.width, c.signed, c.base, none⟩
  | .error _ => none

end Const

namespace Var

/- A signal with a name and a width in range. -/
def make
    (name : String)
    (width : Nat) :
    Except Flaw Var :=
  if name.isEmpty then
    .error .emptyName
  else if !inRange width then
    .error (.varWidth name width)
  else
    .ok ⟨name, width, false⟩

end Var

end Gatework

------------------------------------------------------------
-- Checks of nodes
------------------------------------------------------------

namespace Gatework

namespace Expr

def checkNot
    (x : Expr) :
    Except Flaw Unit :=
  if x.width = 1 then .ok () else .error (.wideNot x)

def checkSameWidth
    (node : String)
    (a b : Expr) :
    Except Flaw Unit :=
  if a.width = b.width then .ok ()
  else .error (.operandWidths node a b)

def checkMux
    (selector ifTrue ifFalse : Expr) :
    Except Flaw Unit :=
  if selector.width = 1 then
    checkSameWidth "Mux" ifTrue ifFalse
  else
    .error (.wideSelector selector)

def checkBit
    (base : Expr)
    (index : Nat) :
    Except Flaw Unit :=
  if index < base.width then .ok ()
  else .error (.bitOutside base index)

def checkPart
    (base : Expr)
    (msb lsb : Nat) :
    Except Flaw Unit :=
  if max msb lsb < base.width then .ok ()
  else .error (.partOutside base msb lsb)

def checkConcat
    (parts : List Expr) :
    Except Flaw Unit :=
  if parts.isEmpty then
    .error .noParts
  else if totalWidth parts > maxWidth then
    .error (.tooWide (totalWidth parts))
  else
    .ok ()

/- The check of the root against its operands. -/
def checkNode : Expr → Except Flaw Unit
  | const _ c => (Const.make c.value c.width).map fun _ => ()
  | var _ v => (Var.make v.name v.width).map fun _ => ()
  | not _ x => checkNot x
  | gate _ op a b => checkSameWidth op.kind a b
  | compare _ op a b => checkSameWidth op.kind a b
  | mux _ s t f => checkMux s t f
  | bit _ b i => checkBit b i
  | part _ b m l => checkPart b m l
  | concat _ parts => checkConcat parts

/- A node that passes its own check. -/
def make
    (e : Expr) :
    Except Flaw Expr := do
  checkNode e
  return e

end Expr

end Gatework

------------------------------------------------------------
-- Validation
------------------------------------------------------------

namespace Gatework

namespace Expr

mutual

/- Checks a whole tree and reports the first flaw. -/
def validate : Expr → Except Flaw Unit
  | const m c => checkNode (const m c)
  | var m v => checkNode (var m v)
  | not m x => do
      validate x
      checkNode (not m x)
  | gate m op a b => do
      validate a
      validate b
      checkNode (gate m op a b)
  | compare m op a b => do
      validate a
      validate b
      checkNode (compare m op a b)
  | mux m s t f => do
      validate s
      validate t
      validate f
      checkNode (mux m s t f)
  | bit m b i => do
      validate b
      checkNode (bit m b i)
  | part m b h l => do
      validate b
      checkNode (part m b h l)
  | concat m parts => do
      validateAll parts
      checkNode (concat m parts)

def validateAll : List Expr → Except Flaw Unit
  | [] => .ok ()
  | p :: ps => do
      validate p
      validateAll ps

end

mutual

/-
  Builds a tree anew with the checked constructors, operands
  first and from left to right. They take the value and width
  of a constant and the name and width of a signal; how either
  was written, a sign among it, and the marks of the nodes are
  left behind.
-/
def rebuild : Expr → Except Flaw Expr
  | const _ c => do
      let d ← Const.make c.value c.width
      return const none d
  | var _ v => do
      let w ← Var.make v.name v.width
      return var none w
  | not _ x => do
      let x' ← rebuild x
      make (not none x')
  | gate _ op a b => do
      let a' ← rebuild a
      let b' ← rebuild b
      make (gate none op a' b')
  | compare _ op a b => do
      let a' ← rebuild a
      let b' ← rebuild b
      make (compare none op a' b')
  | mux _ s t f => do
      let s' ← rebuild s
      let t' ← rebuild t
      let f' ← rebuild f
      make (mux none s' t' f')
  | bit _ b i => do
      let b' ← rebuild b
      make (bit none b' i)
  | part _ b h l => do
      let b' ← rebuild b
      make (part none b' h l)
  | concat _ parts => do
      let parts' ← rebuildAll parts
      make (concat none parts')

def rebuildAll : List Expr → Except Flaw (List Expr)
  | [] => .ok []
  | p :: ps => do
      let p' ← rebuild p
      let ps' ← rebuildAll ps
      return p' :: ps'

end

end Expr

end Gatework
