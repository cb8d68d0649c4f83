import Gatework.Hdl.Tree

/-
  Names in the trees of source files.

  Nothing is left out in a tree in which every name is given,
  a concatenation has parts and an arm has labels. More may be
  asked of the names.

  Key definitions include:
    * `Hdl.Expr.Over`, the names of an expression and the
      parts of its concatenations
    * `Hdl.Stmt.Over`, `Hdl.Item.Over` and
      `Hdl.ModuleDecl.Over`
    * `Hdl.Expr.Given` and `Hdl.Stmt.Given`
    * `Hdl.Item.Given` and `Hdl.ModuleDecl.Given`

  Key theorems include:
    * `Hdl.Expr.inductionParts` and `Hdl.Stmt.inductionBodies`
-/

------------------------------------------------------------
-- Expressions
------------------------------------------------------------

namespace Gatework.Hdl

namespace Expr

/-
  Induction over expressions, where lists come with the
  statement for each of their elements.
-/
@[induction_eliminator]
theorem inductionParts
    {motive : Expr → Prop}
    (name : ∀ n s, motive (name n s))
    (literal : ∀ k t s, motive (literal k t s))
    (index : ∀ b i s, motive b → motive i → motive (index b i s))
    (slice : ∀ b m l s,
      motive b → motive m → motive l → motive (slice b m l s))
    (concat : ∀ es s,
      (∀ e ∈ es, motive e) → motive (concat es s))
    (replicate : ∀ c es s,
      motive c → (∀ e ∈ es, motive e) → motive (replicate c es s))
    (unary : ∀ op x s, motive x → motive (unary op x s))
    (binary : ∀ a op b s,
      motive a → motive b → motive (binary a op b s))
    (ternary : ∀ c t f s,
      motive c → motive t → motive f → motive (ternary c t f s))
    (paren : ∀ e s, motive e → motive (paren e s))
    (broken : ∀ s, motive (broken s))
    (e : Expr) :
    motive e := by
  refine @Expr.rec motive (fun es => ∀ e ∈ es, motive e)
    name literal index slice concat replicate unary binary
    ternary paren broken ?_ ?_ e
  · intro e he
    cases he
  · intro e es hHead hTail x hx
    rcases List.mem_cons.mp hx with rfl | hRest
    · exact hHead
    · exact hTail x hRest

mutual

/-
  Every name in the expression has a property, and a
  concatenation has no parts only where that is allowed.
-/
def Over
    (N : String → Prop)
    (flawed : Prop) :
    Expr → Prop
  | name n _ => N n
  | literal _ _ _ => True
  | index b i _ => Over N flawed b ∧ Over N flawed i
  | slice b m l _ =>
      Over N flawed b ∧ Over N flawed m ∧ Over N flawed l
  | concat es _ => (es = [] → flawed) ∧ OverAll N flawed es
  | replicate c es _ =>
      Over N flawed c ∧ (es = [] → flawed) ∧
        OverAll N flawed es
  | unary _ x _ => Over N flawed x
  | binary a _ b _ => Over N flawed a ∧ Over N flawed b
  | ternary c t f _ =>
      Over N flawed c ∧ Over N flawed t ∧ Over N flawed f
  | paren e _ => Over N flawed e
  | broken _ => True

def OverAll
    (N : String → Prop)
    (flawed : Prop) :
    List Expr → Prop
  | [] => True
  | e :: es => Over N flawed e ∧ OverAll N flawed es

end

/- No name is empty and every concatenation has parts. -/
def Given
    (e : Expr) :
    Prop :=
  e.Over (· ≠ "") False

variable {N : String → Prop}
variable {flawed : Prop}

theorem overAll_iff
    {es : List Expr} :
    OverAll N flawed es ↔ ∀ e ∈ es, e.Over N flawed := by
  induction es with
  | nil => simp [OverAll]
  | cons e es ih => simp [OverAll, ih]

theorem Over.bare
    {e : Expr}
    (he : e.Over N flawed) :
    e.bare.Over N flawed := by
  induction e with
  | paren e s ih => exact ih he
  | _ => exact he

end Expr

end Gatework.Hdl

------------------------------------------------------------
-- Statements
------------------------------------------------------------

namespace Gatework.Hdl

namespace Stmt

/-
  Induction over statements, where blocks and arms come with
  the statement for each body.
-/
@[induction_eliminator]
theorem inductionBodies
    {motive : Stmt → Prop}
    (blocking : ∀ t v s, motive (blocking t v s))
    (nonBlocking : ∀ t v s, motive (nonBlocking t v s))
    (block : ∀ label ss s,
      (∀ b ∈ ss, motive b) → motive (block label ss s))
    (ifThen : ∀ c t s, motive t → motive (ifThen c t s))
    (ifElse : ∀ c t e s,
      motive t → motive e → motive (ifElse c t e s))
    (case : ∀ k c arms s,
      (∀ arm ∈ arms, motive arm.body) → motive (case k c arms s))
    (onEvent : ∀ ev b s, motive b → motive (onEvent ev b s))
    (empty : ∀ s, motive (empty s))
    (broken : ∀ s, motive (broken s))
    (s : Stmt) :
    motive s := by
  refine @Stmt.rec motive
    (fun ss => ∀ s ∈ ss, motive s)
    (fun arms => ∀ arm ∈ arms, motive arm.body)
    (fun arm => motive arm.body)
    blocking nonBlocking block ifThen ifElse case onEvent
    empty broken ?_ ?_ ?_ ?_ ?_ s
  · intro s hs
    cases hs
  · intro s ss hHead hTail x hx
    rcases List.mem_cons.mp hx with rfl | hRest
    · exact hHead
    · exact hTail x hRest
  · intro arm harm
    cases harm
  · intro arm arms hHead hTail x hx
    rcases List.mem_cons.mp hx with rfl | hRest
    · exact hHead
    · exact hTail x hRest
  · intro labels isDefault body span hBody
    exact hBody

mutual

/-
  Every name in the statement has a property, and nothing in
  it is left out.
-/
def Over
    (N : String → Prop) :
    Stmt → Prop
  | blocking t v _ => t.Over N False ∧ v.Over N False
  | nonBlocking t v _ => t.Over N False ∧ v.Over N False
  | block _ ss _ => OverAll N ss
  | ifThen c t _ => c.Over N False ∧ Over N t
  | ifElse c t e _ => c.Over N False ∧ Over N t ∧ Over N e
  | case _ c arms _ => c.Over N False ∧ OverArms N arms
  | onEvent _ b _ => Over N b
  | empty _ => True
  | broken _ => True

def OverAll
    (N : String → Prop) :
    List Stmt → Prop
  | [] => True
  | s :: ss => Over N s ∧ OverAll N ss

def OverArms
    (N : String → Prop) :
    List (CaseArm Stmt) → Prop
  | [] => True
  | ⟨labels, isDefault, body, _⟩ :: arms =>
      (∀ l ∈ labels, l.Over N False) ∧
        (isDefault = false → labels ≠ []) ∧ Over N body ∧
          OverArms N arms

end

/- Nothing in the statement is left out. -/
def Given
    (s : Stmt) :
    Prop :=
  s.Over (· ≠ "")

variable {N : String → Prop}

theorem overAll_iff
    {ss : List Stmt} :
    OverAll N ss ↔ ∀ s ∈ ss, s.Over N := by
  induction ss with
  | nil => simp [OverAll]
  | cons s ss ih => simp [OverAll, ih]

theorem overArms_iff
    {arms : List (CaseArm Stmt)} :
    OverArms N arms ↔ ∀ arm ∈ arms,
      (∀ l ∈ arm.labels, l.Over N False) ∧
        (arm.isDefault = false → arm.labels ≠ []) ∧
          arm.body.Over N := by
  induction arms with
  | nil => simp [OverArms]
  | cons arm arms ih =>
      rcases arm with ⟨labels, isDefault, body, span⟩
      simp [OverArms, ih, and_assoc]

end Stmt

end Gatework.Hdl

------------------------------------------------------------
-- Modules
------------------------------------------------------------

namespace Gatework.Hdl

/- A net with its name and the names in its value. -/
def DeclName.Over
    (N : String → Prop)
    (entry : DeclName) :
    Prop :=
  N entry.name ∧ ∀ e, entry.init = some e → e.Over N False

def PinDecl.Over
    (N : String → Prop)
    (decl : PinDecl) :
    Prop :=
  ∀ n ∈ decl.names, N n

/-
  What the item declares, reads and writes has names with a
  property, and nothing of it is left out.
-/
def Item.Over
    (N : String → Prop) :
    Item → Prop
  | .net decl => ∀ entry ∈ decl.names, entry.Over N
  | .pins decl => decl.Over N
  | .assign t v _ => t.Over N False ∧ v.Over N False
  | .always b _ => b.Over N
  | .alwaysComb b _ => b.Over N
  | .alwaysFf _ _ _ => True
  | .alwaysLatch _ _ => True
  | .broken _ => True

def Header.Over
    (N : String → Prop) :
    Header → Prop
  | .declared pins => ∀ decl ∈ pins, decl.Over N
  | .named _ => True
  | .empty => True

structure ModuleDecl.Over
    (N : String → Prop)
    (decl : ModuleDecl) :
    Prop where
  name : N decl.name
  header : decl.header.Over N
  items : ∀ item ∈ decl.items, item.Over N

def DeclName.Given
    (entry : DeclName) :
    Prop :=
  entry.Over (· ≠ "")

def PinDecl.Given
    (decl : PinDecl) :
    Prop :=
  decl.Over (· ≠ "")

/- Nothing declared, read or written by the item is left out. -/
def Item.Given
    (i : Item) :
    Prop :=
  i.Over (· ≠ "")

def Header.Given
    (head : Header) :
    Prop :=
  head.Over (· ≠ "")

def ModuleDecl.Given
    (decl : ModuleDecl) :
    Prop :=
  decl.Over (· ≠ "")

end Gatework.Hdl
