import Gatework.Hdl.Parser.Cursor
import Gatework.Hdl.Tree

/-
  Trees without placeholders.

  In a clean tree nothing stands in for what could not be
  read: no item, statement or expression is broken, no name is
  the one of a missing name, a concatenation has elements, and
  an arm of a case has labels unless it is the default.

  Key definitions include:
    * `Hdl.Expr.Clean`, `Hdl.Stmt.Clean` and `Hdl.Item.Clean`
    * `Hdl.File.Clean`
-/

------------------------------------------------------------
-- Expressions
------------------------------------------------------------

namespace Gatework.Hdl

/- A name that was read. -/
def Present
    (name : String) :
    Prop :=
  name ≠ Parse.missingName

namespace Expr

/- No part is broken, missing or an empty concatenation. -/
inductive Clean : Expr → Prop where
  | name {n s} :
      Present n →
      Clean (name n s)
  | literal {kind text s} :
      Clean (literal kind text s)
  | index {base i s} :
      Clean base →
      Clean i →
      Clean (index base i s)
  | slice {base msb lsb s} :
      Clean base →
      Clean msb →
      Clean lsb →
      Clean (slice base msb lsb s)
  | concat {elements s} :
      elements ≠ [] →
      (∀ e ∈ elements, Clean e) →
      Clean (concat elements s)
  | replicate {count elements s} :
      Clean count →
      elements ≠ [] →
      (∀ e ∈ elements, Clean e) →
      Clean (replicate count elements s)
  | unary {op x s} :
      Clean x →
      Clean (unary op x s)
  | binary {x op y s} :
      Clean x →
      Clean y →
      Clean (binary x op y s)
  | ternary {c t f s} :
      Clean c →
      Clean t →
      Clean f →
      Clean (ternary c t f s)
  | paren {inner s} :
      Clean inner →
      Clean (paren inner s)

end Expr

end Gatework.Hdl

------------------------------------------------------------
-- Statements
------------------------------------------------------------

namespace Gatework.Hdl

namespace Sensitivity

def Clean : Sensitivity → Prop
  | star => True
  | events items => ∀ e ∈ items, e.signal.Clean

end Sensitivity

namespace CaseArm

/- The default has no labels, every other arm has some. -/
structure Labelled
    {α : Type}
    (arm : CaseArm α) :
    Prop where
  labels_ne_nil : arm.isDefault = false → arm.labels ≠ []
  clean : ∀ label ∈ arm.labels, label.Clean

end CaseArm

namespace Stmt

inductive Clean : Stmt → Prop where
  | blocking {t v s} :
      t.Clean →
      v.Clean →
      Clean (blocking t v s)
  | nonBlocking {t v s} :
      t.Clean →
      v.Clean →
      Clean (nonBlocking t v s)
  | block {label body s} :
      (∀ name ∈ label, Present name) →
      (∀ stmt ∈ body, Clean stmt) →
      Clean (block label body s)
  | ifThen {c t s} :
      c.Clean →
      Clean t →
      Clean (ifThen c t s)
  | ifElse {c t e s} :
      c.Clean →
      Clean t →
      Clean e →
      Clean (ifElse c t e s)
  | case {kind selector arms s} :
      selector.Clean →
      (∀ arm ∈ arms, arm.Labelled) →
      (∀ arm ∈ arms, Clean arm.body) →
      Clean (case kind selector arms s)
  | onEvent {sensitivity body s} :
      sensitivity.Clean →
      Clean body →
      Clean (onEvent sensitivity body s)
  | empty {s} :
      Clean (empty s)

end Stmt

end Gatework.Hdl

------------------------------------------------------------
-- Modules
------------------------------------------------------------

namespace Gatework.Hdl

structure Range.Clean
    (r : Range) :
    Prop where
  msb : r.msb.Clean
  lsb : r.lsb.Clean

structure PinDecl.Clean
    (decl : PinDecl) :
    Prop where
  range : ∀ r ∈ decl.range, r.Clean
  names : ∀ name ∈ decl.names, Present name

structure DeclName.Clean
    (entry : DeclName) :
    Prop where
  name : Present entry.name
  init : ∀ value ∈ entry.init, value.Clean

structure NetDecl.Clean
    (decl : NetDecl) :
    Prop where
  range : ∀ r ∈ decl.range, r.Clean
  names : ∀ entry ∈ decl.names, entry.Clean

namespace Item

inductive Clean : Item → Prop where
  | net {decl} :
      decl.Clean →
      Clean (net decl)
  | pins {decl} :
      decl.Clean →
      Clean (pins decl)
  | assign {t v s} :
      t.Clean →
      v.Clean →
      Clean (assign t v s)
  | always {body s} :
      body.Clean →
      Clean (always body s)
  | alwaysComb {body s} :
      body.Clean →
      Clean (alwaysComb body s)
  | alwaysFf {sensitivity body s} :
      sensitivity.Clean →
      body.Clean →
      Clean (alwaysFf sensitivity body s)
  | alwaysLatch {body s} :
      body.Clean →
      Clean (alwaysLatch body s)

end Item

namespace Header

def Clean : Header → Prop
  | declared pins => ∀ decl ∈ pins, decl.Clean
  | named names => ∀ name ∈ names, Present name
  | empty => True

end Header

structure ModuleDecl.Clean
    (decl : ModuleDecl) :
    Prop where
  name : Present decl.name
  header : decl.header.Clean
  items : ∀ item ∈ decl.items, item.Clean

namespace TopItem

inductive Clean : TopItem → Prop where
  | decl {m} :
      m.Clean →
      Clean (decl m)

end TopItem

/- No part of the file is a placeholder. -/
def File.Clean
    (f : File) :
    Prop :=
  ∀ item ∈ f.items, item.Clean

end Gatework.Hdl
