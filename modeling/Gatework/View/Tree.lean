import Gatework.Json.Basic
import Gatework.Stmt.Effects

/-
  View trees: what a viewer shows of an expression or a
  statement.

  Every node becomes one entry with a type, a label, its
  depth and its delay; branches and selectors of statements
  get entries of their own around them. Notes can replace the
  label of an entry and add the source text it stems from.

  Key definitions include:
    * `Summary`, one node and its children in short
    * `ViewTree`
    * `Notes`
    * `Expr.view`, `Stmt.view` and `Assign.view`
    * `ViewTree.toJson`
-/

------------------------------------------------------------
-- Summaries
------------------------------------------------------------

namespace Gatework

/- A node with the kinds and labels of its children. -/
structure Summary where
  kind : String
  label : String
  depth : Nat
  delay : Nat
  children : List (String × String)
deriving DecidableEq, Repr, Inhabited

namespace Expr

/- The kind and label of the root. -/
def title
    (e : Expr) :
    String × String :=
  (e.kind, e.label)

def summary
    (e : Expr) :
    Summary :=
  ⟨e.kind, e.label, e.depth, e.depth, e.operands.map title⟩

end Expr

namespace Stmt

def title
    (s : Stmt) :
    String × String :=
  (s.kind, s.label)

/- The kind and label of an arm. -/
def armTitle
    (arm : Arm Stmt) :
    String × String :=
  ("CaseItem", arm.labelText)

def childTitles : Stmt → List (String × String)
  | assign a => [a.value.title]
  | ifThen c t => [c.title, title t]
  | ifElse c t e => [c.title, title t, title e]
  | case s arms => s.title :: arms.map armTitle
  | block ss => ss.map title

def summary
    (s : Stmt) :
    Summary :=
  ⟨s.kind, s.label, s.depth, s.delay, s.childTitles⟩

def armSummary
    (arm : Arm Stmt) :
    Summary :=
  ⟨"CaseItem", arm.labelText, arm.body.depth + 1,
    arm.body.delay + 1, [title arm.body]⟩

end Stmt

end Gatework

------------------------------------------------------------
-- Entries
------------------------------------------------------------

namespace Gatework

/- One entry with its children. -/
inductive ViewTree where
  | entry
      (kind label : String)
      (depth delay : Nat)
      (source : Option String)
      (children : List ViewTree)
deriving Repr, Inhabited

namespace ViewTree

def label : ViewTree → String
  | entry _ label _ _ _ _ => label

def children : ViewTree → List ViewTree
  | entry _ _ _ _ _ children => children

/- An entry around another, one deeper. -/
def around
    (kind label : String) :
    ViewTree → ViewTree
  | entry k l depth delay source children =>
      entry kind label (depth + 1) delay none
        [entry k l depth delay source children]

mutual

/- The number of entries. -/
def size : ViewTree → Nat
  | entry _ _ _ _ _ children => sizeAll children + 1

def sizeAll : List ViewTree → Nat
  | [] => 0
  | t :: ts => size t + sizeAll ts

end

mutual

/- The tree as JSON, with members in ascending order. -/
def toJson : ViewTree → Json
  | entry kind label depth delay source children =>
      .obj
        ([("children", .arr (toJsonAll children)),
          ("delay", .ofNat delay),
          ("depth", .ofNat depth)] ++
          (source.toList.map fun s => ("expr_source", .str s)) ++
          [("label", .str label), ("type", .str kind)])

def toJsonAll : List ViewTree → List Json
  | [] => []
  | t :: ts => toJson t :: toJsonAll ts

end

end ViewTree

end Gatework

------------------------------------------------------------
-- Notes
------------------------------------------------------------

namespace Gatework

/-
  Where a node stands: indices of children from the root,
  the last one first. A right-hand side is child 0 of its
  assignment; a condition, the body and the `else` part are
  children 0, 1 and 2; a selector is child 0 and the body of
  the arm `i` child `i + 1` of its case.
-/
abbrev Place := List Nat

/- What is noted about a node. -/
structure Note where
  label : Option String
  source : Option String
deriving DecidableEq, Repr, Inhabited

namespace Note

def none : Note :=
  ⟨.none, .none⟩

end Note

/-
  Notes about nodes: about expressions by place and node,
  about statements by place.
-/
structure Notes where
  ofExpr : Place → Expr → Note
  ofStmt : Place → Note

namespace Notes

def none : Notes :=
  ⟨fun _ _ => Note.none, fun _ => Note.none⟩

end Notes

end Gatework

------------------------------------------------------------
-- Trees
------------------------------------------------------------

namespace Gatework

namespace ViewTree

/- An entry with what is noted about its node. -/
def noted
    (note : Note)
    (kind label : String)
    (depth delay : Nat)
    (children : List ViewTree) :
    ViewTree :=
  entry kind (note.label.getD label) depth delay note.source children

end ViewTree

namespace Expr

mutual

/- The view tree of an expression at a place. -/
def view
    (notes : Notes)
    (at_ : Place)
    (e : Expr) :
    ViewTree :=
  let children :=
    match e with
    | const _ _ => []
    | var _ _ => []
    | not _ x => [view notes (0 :: at_) x]
    | gate _ _ a b =>
        [view notes (0 :: at_) a, view notes (1 :: at_) b]
    | compare _ _ a b =>
        [view notes (0 :: at_) a, view notes (1 :: at_) b]
    | mux _ s t f =>
        [view notes (0 :: at_) s, view notes (1 :: at_) t,
          view notes (2 :: at_) f]
    | bit _ b _ => [view notes (0 :: at_) b]
    | part _ b _ _ => [view notes (0 :: at_) b]
    | concat _ parts => viewAll notes at_ 0 parts
  ViewTree.noted (notes.ofExpr at_ e) e.kind e.label e.depth e.depth
    children

def viewAll
    (notes : Notes)
    (at_ : Place)
    (i : Nat)
    (parts : List Expr) :
    List ViewTree :=
  match parts with
  | [] => []
  | p :: ps => view notes (i :: at_) p :: viewAll notes at_ (i + 1) ps

end

end Expr

namespace Assign

/- The text of an assignment in gate form. -/
def inline
    (a : Assign) :
    String :=
  a.target.verilog ++ " = " ++ a.value.inline

/- The view tree of an assignment that stands alone. -/
def view
    (notes : Notes)
    (a : Assign) :
    ViewTree :=
  .entry "LogicAssign" a.inline (a.value.depth + 1) a.value.depth
    (notes.ofExpr [0] a.value).source [a.value.view notes [0]]

end Assign

namespace Stmt

mutual

/- The view tree of a statement at a place. -/
def view
    (notes : Notes)
    (at_ : Place)
    (s : Stmt) :
    ViewTree :=
  let noted (kind label : String) (children : List ViewTree) :=
    ViewTree.noted (notes.ofStmt at_) kind label s.depth s.delay
      children
  match s with
  | assign a =>
      noted "LogicAssign" a.inline [a.value.view notes (0 :: at_)]
  | ifThen c t =>
      noted "IfStatement" (label (ifThen c t))
        [ViewTree.around "ThenBranch" "then"
          (view notes (1 :: at_) t)]
  | ifElse c t e =>
      noted "IfStatement" (label (ifElse c t e))
        [ViewTree.around "ThenBranch" "then"
            (view notes (1 :: at_) t),
          ViewTree.around "ElseBranch" "else"
            (view notes (2 :: at_) e)]
  | case sel arms =>
      noted "CaseStatement" (label (case sel arms))
        (ViewTree.around "Selector"
          ("selector = " ++ sel.verilog)
          (sel.view notes (0 :: at_)) ::
          viewArms notes at_ 1 arms)
  | block ss => noted "Block" (label (block ss)) (viewAll notes at_ 0 ss)

def viewAll
    (notes : Notes)
    (at_ : Place)
    (i : Nat)
    (ss : List Stmt) :
    List ViewTree :=
  match ss with
  | [] => []
  | s :: ss => view notes (i :: at_) s :: viewAll notes at_ (i + 1) ss

def viewArms
    (notes : Notes)
    (at_ : Place)
    (i : Nat)
    (arms : List (Arm Stmt)) :
    List ViewTree :=
  match arms with
  | [] => []
  | ⟨labels, d, s⟩ :: arms =>
      .entry "CaseItem"
        ("case " ++ Arm.labelText ⟨labels, d, ()⟩)
        (s.depth + 1) (s.delay + 1) none
        [view notes (i :: at_) s] ::
        viewArms notes at_ (i + 1) arms

end

end Stmt

end Gatework
