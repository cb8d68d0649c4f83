import Gatework.View.Tree

/-
  Notes about single nodes of one tree, by their place.

  Key definitions include:
    * `Node.child?` and `Node.descend?`
    * `Overlay`
    * `Overlay.put`
    * `Overlay.notes`
-/

------------------------------------------------------------
-- Places
------------------------------------------------------------

namespace Gatework

/- An expression or a statement. -/
inductive Node where
  | expr (e : Expr)
  | stmt (s : Stmt)
deriving Repr, Inhabited

namespace Node

def label : Node → String
  | expr e => e.label
  | stmt s => s.label

def summary : Node → Summary
  | expr e => e.summary
  | stmt s => s.summary

def view
    (notes : Notes) :
    Node → ViewTree
  | expr e => e.view notes []
  | stmt s => s.view notes []

/- The child with an index, numbered as places are. -/
def child? : Node → Nat → Option Node
  | expr e, i => e.operands[i]?.map expr
  | stmt (.assign a), 0 => some (expr a.value)
  | stmt (.ifThen c _), 0 => some (expr c)
  | stmt (.ifThen _ t), 1 => some (stmt t)
  | stmt (.ifElse c _ _), 0 => some (expr c)
  | stmt (.ifElse _ t _), 1 => some (stmt t)
  | stmt (.ifElse _ _ e), 2 => some (stmt e)
  | stmt (.case s _), 0 => some (expr s)
  | stmt (.case _ arms), i + 1 => arms[i]?.map fun arm => stmt arm.body
  | stmt (.block ss), i => ss[i]?.map stmt
  | _, _ => none

/- The node reached by indices of children from the root. -/
def descend? : Node → List Nat → Option Node
  | n, [] => some n
  | n, i :: rest => do
      let c ← n.child? i
      descend? c rest

end Node

end Gatework

------------------------------------------------------------
-- Overlays
------------------------------------------------------------

namespace Gatework

/- What a note sets. -/
inductive NoteKind where
  | label
  | source
deriving DecidableEq, Repr, Inhabited

/- Notes by place, one for each place. -/
structure Overlay where
  entries : List (Place × Note)
deriving Repr, Inhabited

namespace Overlay

def empty : Overlay :=
  ⟨[]⟩

/- The note at a place. -/
def find
    (o : Overlay)
    (p : Place) :
    Note :=
  ((o.entries.find? fun entry => entry.1 == p).map Prod.snd).getD
    Note.none

/- Sets the label or the source at a place. -/
def put
    (o : Overlay)
    (p : Place)
    (kind : NoteKind)
    (text : String) :
    Overlay :=
  let old := o.find p
  let note :=
    match kind with
    | .label => ⟨some text, old.source⟩
    | .source => ⟨old.label, some text⟩
  ⟨(p, note) :: o.entries.filter fun entry => entry.1 != p⟩

/- The number of places with a note. -/
def size
    (o : Overlay) :
    Nat :=
  o.entries.length

/- The label noted at a place, or that of its node. -/
def labelOr
    (o : Overlay)
    (p : Place)
    (node : Node) :
    String :=
  (o.find p).label.getD node.label

/- The notes of a view tree. -/
def notes
    (o : Overlay) :
    Notes :=
  ⟨fun p _ => o.find p, fun p => o.find p⟩

end Overlay

end Gatework
