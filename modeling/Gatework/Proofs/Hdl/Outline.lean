import Gatework.Hdl.Tree
import Gatework.Proofs.Hdl.Tokens

/-
  The places in the tree of a source file.

  The outline of a tree keeps the places of all its nodes, in
  the order of the source, with the names and literals among
  them. It is faithful to a text if every node lies inside the
  one around it, nodes side by side do not overlap, and names
  and literals are what the text says at their places.

  Key definitions include:
    * `Hdl.Outline` and `Hdl.Outline.Faithful`
    * `Hdl.Expr.outline`, `Hdl.Stmt.outline` and
      `Hdl.File.outline`
-/

------------------------------------------------------------
-- Outlines
------------------------------------------------------------

namespace Gatework.Hdl

/- What stands at a place: a name, a literal, or other parts. -/
inductive Leaf where
  | inner
  | name (name : String)
  | literal (kind : LiteralKind) (text : String)
deriving DecidableEq, Repr, Inhabited

/- A place with the places inside it, in their order. -/
inductive Outline where
  | node (leaf : Leaf) (span : Span) (parts : List Outline)
deriving Repr, Inhabited

namespace Leaf

/-
  The text at a place is the name that stands there, or the
  literal, which is one of its kind.
-/
def At
    (text : String)
    (span : Span) :
    Leaf → Prop
  | inner => True
  | name n => sliceBytes span.start span.stop text = n
  | literal kind t =>
      sliceBytes span.start span.stop text = t ∧ IsLiteral kind t

end Leaf

namespace Outline

def span : Outline → Span
  | node _ s _ => s

/- One place ends before the other starts. -/
def Apart
    (a b : Outline) :
    Prop :=
  a.span.stop ≤ b.span.start

/- All places are nested and say what the text says. -/
inductive Faithful
    (text : String) :
    Outline → Prop where
  | node {leaf span parts} :
      leaf.At text span →
      (∀ part ∈ parts, part.span.Within span) →
      parts.Pairwise Apart →
      (∀ part ∈ parts, Faithful text part) →
      Faithful text (node leaf span parts)

end Outline

end Gatework.Hdl

------------------------------------------------------------
-- Outlines of trees
------------------------------------------------------------

namespace Gatework.Hdl

namespace Expr

mutual

def outline : Expr → Outline
  | name n s => .node (.name n) s []
  | literal kind text s => .node (.literal kind text) s []
  | index base i s => .node .inner s [outline base, outline i]
  | slice base msb lsb s =>
      .node .inner s [outline base, outline msb, outline lsb]
  | concat elements s => .node .inner s (outlines elements)
  | replicate count elements s =>
      .node .inner s (outline count :: outlines elements)
  | unary _ x s => .node .inner s [outline x]
  | binary x _ y s => .node .inner s [outline x, outline y]
  | ternary c t f s =>
      .node .inner s [outline c, outline t, outline f]
  | paren inner s => .node .inner s [outline inner]
  | broken s => .node .inner s []

def outlines : List Expr → List Outline
  | [] => []
  | e :: es => outline e :: outlines es

end

theorem outlines_eq_map
    (es : List Expr) :
    outlines es = es.map outline := by
  induction es with
  | nil => rfl
  | cons e es ih => rw [outlines, ih, List.map_cons]

@[simp] theorem span_outline
    (e : Expr) :
    e.outline.span = e.span := by
  cases e <;> rfl

end Expr

namespace Event

def outline
    (e : Event) :
    Outline :=
  .node .inner e.span [e.signal.outline]

end Event

namespace Sensitivity

/- A list of events has no place of its own. -/
def outlines : Sensitivity → List Outline
  | star => []
  | events items => items.map Event.outline

end Sensitivity

namespace Stmt

mutual

def outline : Stmt → Outline
  | blocking t v s => .node .inner s [t.outline, v.outline]
  | nonBlocking t v s => .node .inner s [t.outline, v.outline]
  | block _ body s => .node .inner s (outlines body)
  | ifThen c t s => .node .inner s [c.outline, outline t]
  | ifElse c t e s =>
      .node .inner s [c.outline, outline t, outline e]
  | case _ selector arms s =>
      .node .inner s (selector.outline :: armOutlines arms)
  | onEvent sensitivity body s =>
      .node .inner s (sensitivity.outlines ++ [outline body])
  | empty s => .node .inner s []
  | broken s => .node .inner s []

def outlines : List Stmt → List Outline
  | [] => []
  | s :: ss => outline s :: outlines ss

def armOutlines : List (CaseArm Stmt) → List Outline
  | [] => []
  | ⟨labels, _, body, span⟩ :: rest =>
      .node .inner span
        (labels.map Expr.outline ++ [outline body]) ::
          armOutlines rest

end

end Stmt

namespace CaseArm

def outline
    (arm : CaseArm Stmt) :
    Outline :=
  .node .inner arm.span
    (arm.labels.map Expr.outline ++ [arm.body.outline])

end CaseArm

namespace Stmt

theorem outlines_eq_map
    (ss : List Stmt) :
    outlines ss = ss.map outline := by
  induction ss with
  | nil => rfl
  | cons s ss ih => rw [outlines, ih, List.map_cons]

theorem armOutlines_eq_map
    (arms : List (CaseArm Stmt)) :
    armOutlines arms = arms.map CaseArm.outline := by
  induction arms with
  | nil => rfl
  | cons arm arms ih =>
      rw [armOutlines, ih, List.map_cons]
      rfl

end Stmt

namespace Range

def outline
    (r : Range) :
    Outline :=
  .node .inner r.span [r.msb.outline, r.lsb.outline]

end Range

namespace PinDecl

def outline
    (decl : PinDecl) :
    Outline :=
  .node .inner decl.span (decl.range.map Range.outline).toList

end PinDecl

namespace DeclName

def outline
    (entry : DeclName) :
    Outline :=
  .node .inner entry.span (entry.init.map Expr.outline).toList

end DeclName

namespace NetDecl

def outline
    (decl : NetDecl) :
    Outline :=
  .node .inner decl.span
    ((decl.range.map Range.outline).toList ++
      decl.names.map DeclName.outline)

end NetDecl

namespace Item

def outline : Item → Outline
  | net decl => decl.outline
  | pins decl => decl.outline
  | assign t v s => .node .inner s [t.outline, v.outline]
  | always body s => .node .inner s [body.outline]
  | alwaysComb body s => .node .inner s [body.outline]
  | alwaysFf sensitivity body s =>
      .node .inner s (sensitivity.outlines ++ [body.outline])
  | alwaysLatch body s => .node .inner s [body.outline]
  | broken s => .node .inner s []

end Item

namespace Header

/- The head of a module has no place of its own. -/
def outlines : Header → List Outline
  | declared pins => pins.map PinDecl.outline
  | named _ => []
  | empty => []

end Header

namespace ModuleDecl

def outline
    (decl : ModuleDecl) :
    Outline :=
  .node .inner decl.span
    (decl.header.outlines ++ decl.items.map Item.outline)

end ModuleDecl

namespace TopItem

def outline : TopItem → Outline
  | decl m => m.outline
  | broken s => .node .inner s []

end TopItem

namespace File

def outline
    (f : File) :
    Outline :=
  .node .inner f.span (f.items.map TopItem.outline)

end File

end Gatework.Hdl
