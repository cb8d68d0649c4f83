import Gatework.Hdl.Token

/-
  The tree of a source file: modules, their items, statements
  and expressions, each with its place.

  Where the source is broken a placeholder stands in for the
  item, statement or expression that could not be read.

  Key definitions include:
    * `Hdl.Expr`
    * `Hdl.Stmt`
    * `Hdl.Item` and `Hdl.ModuleDecl`
    * `Hdl.File`
-/

------------------------------------------------------------
-- Expressions
------------------------------------------------------------

namespace Gatework.Hdl

/- Operators in front of their operand. -/
inductive UnaryOp where
  | logNot
  | bitNot
  | redAnd
  | redNand
  | redOr
  | redNor
  | redXor
  | redXnor
deriving DecidableEq, Repr, Inhabited

namespace UnaryOp

def spelling : UnaryOp → String
  | logNot => "!"
  | bitNot => "~"
  | redAnd => "&"
  | redNand => "~&"
  | redOr => "|"
  | redNor => "~|"
  | redXor => "^"
  | redXnor => "~^"

/- The operator a symbol stands for in front of an operand. -/
def ofSymbol? : Symbol → Option UnaryOp
  | .bang => some logNot
  | .tilde => some bitNot
  | .ampersand => some redAnd
  | .tildeAmpersand => some redNand
  | .pipe => some redOr
  | .tildePipe => some redNor
  | .caret => some redXor
  | .tildeCaret => some redXnor
  | _ => none

end UnaryOp

/- Operators between two operands. -/
inductive BinaryOp where
  | eq
  | neq
  | logAnd
  | logOr
  | bitAnd
  | bitOr
  | bitXor
  | bitXnor
deriving DecidableEq, Repr, Inhabited

namespace BinaryOp

/- The operator a symbol stands for between operands. -/
def ofSymbol? : Symbol → Option BinaryOp
  | .doubleEquals => some eq
  | .bangEquals => some neq
  | .doubleAmpersand => some logAnd
  | .doublePipe => some logOr
  | .ampersand => some bitAnd
  | .pipe => some bitOr
  | .caret => some bitXor
  | .tildeCaret => some bitXnor
  | _ => none

/-
  How tightly an operator holds its left operand; its right
  operand is held by one more, so that equal operators group
  to the left.
-/
def power : BinaryOp → Nat
  | logOr => 1
  | logAnd => 3
  | bitOr => 5
  | bitXor => 7
  | bitXnor => 7
  | bitAnd => 9
  | eq => 11
  | neq => 11

end BinaryOp

/- Expressions; the last field of every form is its place. -/
inductive Expr where
  | name (name : String) (span : Span)
  | literal (kind : LiteralKind) (text : String) (span : Span)
  | index (base index : Expr) (span : Span)
  | slice (base msb lsb : Expr) (span : Span)
  | concat (elements : List Expr) (span : Span)
  | replicate (count : Expr) (elements : List Expr) (span : Span)
  | unary (op : UnaryOp) (operand : Expr) (span : Span)
  | binary (left : Expr) (op : BinaryOp) (right : Expr) (span : Span)
  | ternary (condition ifTrue ifFalse : Expr) (span : Span)
  | paren (inner : Expr) (span : Span)
  | broken (span : Span)
deriving Repr, Inhabited

namespace Expr

def span : Expr → Span
  | name _ s => s
  | literal _ _ s => s
  | index _ _ s => s
  | slice _ _ _ s => s
  | concat _ s => s
  | replicate _ _ s => s
  | unary _ _ s => s
  | binary _ _ _ s => s
  | ternary _ _ _ s => s
  | paren _ s => s
  | broken s => s

/- The expression inside any number of parentheses. -/
def bare : Expr → Expr
  | paren inner _ => bare inner
  | e => e

/- What parentheses pass on from inside is kept by `bare`. -/
theorem bare_congr
    {α : Type}
    {f : Expr → α}
    (hParen : ∀ inner place, f (paren inner place) = f inner)
    (e : Expr) :
    f e.bare = f e := by
  fun_induction bare e with
  | case1 inner place ih => rw [ih, hParen]
  | case2 => rfl

end Expr

end Gatework.Hdl

------------------------------------------------------------
-- Statements
------------------------------------------------------------

namespace Gatework.Hdl

/- An edge of a clock. -/
inductive Edge where
  | posedge
  | negedge
deriving DecidableEq, Repr, Inhabited

/- One event a block waits for. -/
structure Event where
  edge : Option Edge
  signal : Expr
  span : Span
deriving Repr, Inhabited

/- The events a block waits for; a star stands for all reads. -/
inductive Sensitivity where
  | star
  | events (items : List Event)
deriving Repr, Inhabited

namespace Sensitivity

/- No event is an edge. -/
def isCombinational : Sensitivity → Bool
  | star => true
  | events items => items.all fun e => e.edge.isNone

end Sensitivity

/- The three words a case can start with. -/
inductive CaseKind where
  | exact
  | casez
  | casex
deriving DecidableEq, Repr, Inhabited

/- An arm of a case with its labels; a default has none. -/
structure CaseArm (α : Type) where
  labels : List Expr
  isDefault : Bool
  body : α
  span : Span
deriving Repr, Inhabited

/- Statements; the last field of every form is its place. -/
inductive Stmt where
  | blocking (target value : Expr) (span : Span)
  | nonBlocking (target value : Expr) (span : Span)
  | block (label : Option String) (body : List Stmt) (span : Span)
  | ifThen (condition : Expr) (thenBody : Stmt) (span : Span)
  | ifElse (condition : Expr) (thenBody elseBody : Stmt) (span : Span)
  | case (kind : CaseKind) (selector : Expr) (arms : List (CaseArm Stmt)) (span : Span)
  | onEvent (sensitivity : Sensitivity) (body : Stmt) (span : Span)
  | empty (span : Span)
  | broken (span : Span)
deriving Repr, Inhabited

namespace Stmt

def span : Stmt → Span
  | blocking _ _ s => s
  | nonBlocking _ _ s => s
  | block _ _ s => s
  | ifThen _ _ s => s
  | ifElse _ _ _ s => s
  | case _ _ _ s => s
  | onEvent _ _ s => s
  | empty s => s
  | broken s => s

end Stmt

end Gatework.Hdl

------------------------------------------------------------
-- Modules
------------------------------------------------------------

namespace Gatework.Hdl

/- The direction of a pin. -/
inductive Direction where
  | input
  | output
  | inout
deriving DecidableEq, Repr, Inhabited

/- The word a net is declared with. -/
inductive NetKind where
  | wire
  | logic
  | reg
  | implicit
deriving DecidableEq, Repr, Inhabited

/- The bounds of a vector. -/
structure Range where
  msb : Expr
  lsb : Expr
  span : Span
deriving Repr, Inhabited

/- Pins declared together. -/
structure PinDecl where
  direction : Direction
  net : NetKind
  signed : Bool
  range : Option Range
  names : List String
  span : Span
deriving Repr, Inhabited

/- A declared net with the value it may be tied to. -/
structure DeclName where
  name : String
  init : Option Expr
  span : Span
deriving Repr, Inhabited

/- Nets declared together. -/
structure NetDecl where
  net : NetKind
  signed : Bool
  range : Option Range
  names : List DeclName
  span : Span
deriving Repr, Inhabited

/- Items of a module body. -/
inductive Item where
  | net (decl : NetDecl)
  | pins (decl : PinDecl)
  | assign (target value : Expr) (span : Span)
  | always (body : Stmt) (span : Span)
  | alwaysComb (body : Stmt) (span : Span)
  | alwaysFf (sensitivity : Sensitivity) (body : Stmt) (span : Span)
  | alwaysLatch (body : Stmt) (span : Span)
  | broken (span : Span)
deriving Repr, Inhabited

namespace Item

def span : Item → Span
  | net decl => decl.span
  | pins decl => decl.span
  | assign _ _ s => s
  | always _ s => s
  | alwaysComb _ s => s
  | alwaysFf _ _ s => s
  | alwaysLatch _ s => s
  | broken s => s

end Item

/-
  The pins in the head of a module: with their declarations,
  by name only, or none.
-/
inductive Header where
  | declared (pins : List PinDecl)
  | named (names : List String)
  | empty
deriving Repr, Inhabited

structure ModuleDecl where
  name : String
  header : Header
  items : List Item
  span : Span
deriving Repr, Inhabited

/- What a file holds at the top. -/
inductive TopItem where
  | decl (decl : ModuleDecl)
  | broken (span : Span)
deriving Repr, Inhabited

structure File where
  items : List TopItem
  span : Span
deriving Repr, Inhabited

namespace File

/- The modules in order. -/
def modules
    (f : File) :
    List ModuleDecl :=
  f.items.filterMap fun
    | .decl m => some m
    | .broken _ => none

end File

end Gatework.Hdl
