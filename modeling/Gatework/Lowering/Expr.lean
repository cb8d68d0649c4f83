import Gatework.Expr.Bits
import Gatework.Hdl.Tree
import Gatework.Lowering.Context

/-
  Lowering of expressions.

  An unsized literal stays open until the other operand or
  the target gives it a width. Conditions are one bit: a
  vector is true when it is not 0.

  Key definitions include:
    * `Operand`
    * `Lower.operand`
    * `Lower.expr`, `Lower.exprTo` and `Lower.cond`
    * `Lower.target`
-/

------------------------------------------------------------
-- Operands
------------------------------------------------------------

namespace Gatework

/- A lowered operand, or a literal without a width yet. -/
inductive Operand where
  | sized (e : Expr)
  | unsized (l : Hdl.Literal)
deriving Repr, Inhabited

namespace Lower

/- A literal as an expression at its own width. -/
def ownWidth : Operand → Lower Expr
  | .sized e => return e
  | .unsized l => keep (.const none l.toConst)

/- An operand as a condition. -/
def truth
    (op : Operand) :
    Lower Expr := do
  let e ← ownWidth op
  if e.width = 1 then
    return e
  else
    keep (Expr.neg (e.equalsConst 0))

/- An operand at a width. -/
def fit
    (op : Operand)
    (width : Nat)
    (span : Span) :
    Lower Expr := do
  match op with
  | .sized e =>
      if e.width = width then
        return e
      else
        fail (.widthMismatch
          ("`" ++ (← textOf span) ++ "` is " ++ toString e.width
            ++ " bits, expected " ++ toString width)
          span)
  | .unsized l =>
      match l.fit? width with
      | some c => keep (.const none c)
      | none =>
          fail (.widthMismatch
            ("literal `" ++ l.text ++ "` does not fit in "
              ++ toString width ++ " bits")
            span)

/- Two operands at one width. -/
def unify
    (a b : Operand)
    (aSpan bSpan : Span) :
    Lower (Expr × Expr) := do
  match a, b with
  | .sized x, .sized y =>
      if x.width = y.width then
        return (x, y)
      else
        fail (.widthMismatch
          ("`" ++ (← textOf aSpan) ++ "` is " ++ toString x.width
            ++ " bits but `" ++ (← textOf bSpan) ++ "` is "
            ++ toString y.width ++ " bits")
          (aSpan.merge bSpan))
  | .sized x, .unsized l => return (x, ← fit (.unsized l) x.width bSpan)
  | .unsized l, .sized y => return (← fit (.unsized l) y.width aSpan, y)
  | .unsized l, .unsized r =>
      let width := max l.width r.width
      let x ← fit (.unsized l) width aSpan
      return (x, ← fit (.unsized r) width bSpan)

end Lower

end Gatework

------------------------------------------------------------
-- Operators
------------------------------------------------------------

namespace Gatework

namespace Operand

/- A signal or a select of one. -/
def isBitAddressable : Expr → Bool
  | .var _ _ => true
  | .bit _ _ _ => true
  | .part _ _ _ _ => true
  | _ => false

/- The value of a constant compared with a given width. -/
def constant?
    (width : Nat) :
    Operand → Option Nat
  | .unsized l =>
      match l.fill with
      | some _ => (l.fit? width).map Const.value
      | none => some l.value
  | .sized e => e.asConst?.map Const.value

/- The operand as a subject of a test against a constant. -/
def subject? : Operand → Option Expr
  | .sized e => if isBitAddressable e then some e else none
  | .unsized _ => none

/- A signal or select tested against a constant. -/
def test?
    (a b : Operand) :
    Option (Expr × Nat) :=
  match a.subject? with
  | some e => (b.constant? e.width).map fun v => (e, v)
  | none =>
      match b.subject? with
      | some e => (a.constant? e.width).map fun v => (e, v)
      | none => none

end Operand

namespace Lower

/-
  Equality. A test of a signal or select against a constant
  is written out bit by bit; any other stays a comparison.
-/
def equality
    (a b : Operand)
    (op : CmpOp)
    (aSpan bSpan span : Span) :
    Lower Expr := do
  match a.test? b with
  | none =>
      let (x, y) ← unify a b aSpan bSpan
      node (.compare none op x y)
  | some (subject, value) =>
      if subject.width < maxWidth ∧ value >>> subject.width ≠ 0 then
        warn (.warning 201
          ("`" ++ subject.verilog ++ "` can never equal " ++ toString value
            ++ "; the comparison is constant")
          span)
        keep (Expr.ofBool (op.holds false))
      else
        let same := subject.equalsConst value
        match op with
        | .eq => keep same
        | .neq => keep same.neg

/- Parts side by side, the whole list several times. -/
def concat
    (parts : List Expr)
    (times : Nat)
    (span : Span) :
    Lower Expr := do
  let once := Expr.totalWidth parts
  if maxWidth < once * times then
    fail (.widthMismatch
      ("concatenation of " ++ toString times ++ " x " ++ toString once
        ++ " bits is wider than " ++ toString maxWidth ++ " bits")
      span)
  else
    match (List.replicate times parts).flatten with
    | [e] => return e
    | all => node (.concat none all)

/- The bitwise complement. -/
def complement
    (e : Expr) :
    Lower Expr :=
  if e.width = 1 then
    node (.not none e)
  else
    node (.concat none
      ((Expr.indicesDown e.width).map fun i => Expr.neg (e.bitOf i)))

def unary
    (op : Hdl.UnaryOp)
    (x : Operand) :
    Lower Expr := do
  match op with
  | .logNot => keep (Expr.neg (← truth x))
  | _ => complement (← ownWidth x)

/- The gate of a bitwise operator. -/
def gateOf : Hdl.BinaryOp → GateOp
  | .bitOr => .or
  | .bitXor => .xor
  | .bitXnor => .xnor
  | _ => .and

/- A bitwise gate on operands of one width. -/
def bitwise
    (op : GateOp)
    (a b : Operand)
    (aSpan bSpan : Span) :
    Lower Expr := do
  let (x, y) ← unify a b aSpan bSpan
  node (.gate none op x y)

end Lower

end Gatework

------------------------------------------------------------
-- Selects
------------------------------------------------------------

namespace Gatework

namespace Lower

/- The value of a literal in any number of parentheses. -/
def constant
    (e : Hdl.Expr) :
    Lower (Option Nat) := do
  match e.bare with
  | .literal kind text span => return some (← literal kind text span).value
  | _ => return none

/- The largest bound of a vector. -/
def maxBound : Nat :=
  (1 <<< 63) - 1

/- What is left of a text behind another at its start. -/
def textAfter
    (whole start : String) :
    String :=
  let cs := whole.toList
  let front := start.toList
  if front.isPrefixOf cs then String.ofList (cs.drop front.length) else ""

/- The position of a bound counted from the low bound. -/
def position
    (v : Var)
    (low : Nat)
    (base bound : Hdl.Expr)
    (span : Span) :
    Lower Nat := do
  match ← constant bound with
  | none => fail (.openSelect v.name span)
  | some value =>
      let index := min value maxBound
      if index < low ∨ v.width ≤ index - low then
        let select := textAfter (← textOf span) (← textOf base.span)
        fail (.selectOutside v.name (trimText select) span)
      else
        return index - low

/- The signal a select is taken of, and its low bound. -/
def selectBase
    (base : Hdl.Expr)
    (span : Span) :
    Lower (Var × Nat) := do
  match base.bare with
  | .name name place =>
      let v ← lookup name place
      return (v, ← lowBound name)
  | _ => refuse ("select of `" ++ (← textOf base.span) ++ "`") span

def bitSelect
    (base index : Hdl.Expr)
    (span : Span) :
    Lower Expr := do
  let (v, low) ← selectBase base span
  let i ← position v low base index span
  node (.bit none (Expr.ofVar v) i)

def partSelect
    (base msb lsb : Hdl.Expr)
    (span : Span) :
    Lower Expr := do
  let (v, low) ← selectBase base span
  let m ← position v low base msb span
  let l ← position v low base lsb span
  node (.part none (Expr.ofVar v) m l)

end Lower

end Gatework

------------------------------------------------------------
-- Expressions
------------------------------------------------------------

namespace Gatework

namespace Lower

mutual

/- Lowers an expression. -/
def operand : Hdl.Expr → Lower Operand
  | .name name span => do
      let v ← lookup name span
      return .sized (← keep (Expr.ofVar v))
  | .literal kind text span => do
      let l ← literal kind text span
      if l.sized then
        return .sized (← keep (.const none l.toConst))
      else
        return .unsized l
  | .paren inner _ => operand inner
  | .index base index span => return .sized (← bitSelect base index span)
  | .slice base msb lsb span =>
      return .sized (← partSelect base msb lsb span)
  | .concat elements span => do
      let parts ← operands elements
      return .sized (← concat parts 1 span)
  | .replicate count elements span => do
      match ← constant count with
      | some (n + 1) =>
          let parts ← operands elements
          return .sized (← concat parts (n + 1) span)
      | _ =>
          refuse ("replication count `" ++ (← textOf count.span) ++ "`")
            count.span
  | .unary op x span => do
      match op with
      | .logNot | .bitNot => return .sized (← unary op (← operand x))
      | _ => refuse ("reduction operator `" ++ op.spelling ++ "`") span
  | .binary left op right span => do
      let a ← operand left
      match op with
      | .logAnd | .logOr =>
          let x ← truth a
          let y ← truth (← operand right)
          let gate := if op = .logAnd then GateOp.and else GateOp.or
          return .sized (← node (.gate none gate x y))
      | .eq =>
          let b ← operand right
          return .sized (← equality a b .eq left.span right.span span)
      | .neq =>
          let b ← operand right
          return .sized (← equality a b .neq left.span right.span span)
      | _ =>
          let b ← operand right
          return .sized (← bitwise (gateOf op) a b left.span right.span)
  | .ternary c t f _ => do
      let cond ← truth (← operand c)
      let a ← operand t
      let b ← operand f
      let (x, y) ← unify a b t.span f.span
      return .sized (← node (.mux none cond x y))
  | .broken span => refuse "malformed expression" span

/- Lowers parts of a concatenation, which have a width. -/
def operands : List Hdl.Expr → Lower (List Expr)
  | [] => return []
  | e :: es => do
      match ← operand e with
      | .sized x => return x :: (← operands es)
      | .unsized l =>
          refuse ("unsized literal `" ++ l.text ++ "` in a concatenation")
            e.span

end

/- An expression at its own width. -/
def expr
    (e : Hdl.Expr) :
    Lower Expr := do
  ownWidth (← operand e)

/- An expression that has to have a width. -/
def exprTo
    (e : Hdl.Expr)
    (width : Nat) :
    Lower Expr := do
  fit (← operand e) width e.span

/- A condition. -/
def cond
    (e : Hdl.Expr) :
    Lower Expr := do
  truth (← operand e)

/- What an assignment writes: a signal or a select of one. -/
def target
    (e : Hdl.Expr) :
    Lower Expr := do
  match e.bare with
  | .name name span => return Expr.ofVar (← lookup name span)
  | .index base index span => bitSelect base index span
  | .slice base msb lsb span => partSelect base msb lsb span
  | other =>
      refuse ("assignment target `" ++ (← textOf other.span) ++ "`") other.span

end Lower

end Gatework
