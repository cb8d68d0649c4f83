import Gatework.Hdl.Parser.File
import Gatework.Proofs.Hdl.Built

/-
  Trees that are read without errors.

  Where no error is found in a file its tree is clean and has
  an outline that is faithful to the text. Expressions,
  statements, items and modules are each built from the parts
  that were read for them.

  Key theorems include:
    * `Hdl.Parse.yields_exprAt` and `Hdl.Parse.yields_stmtAt`
    * `Hdl.Parse.yields_item` and `Hdl.Parse.yields_moduleDecl`
    * `Hdl.faithful_parseFile`
-/

------------------------------------------------------------
-- Expressions
------------------------------------------------------------

namespace Gatework.Hdl

namespace Parse

open Cursor

variable {α : Type}
variable {text : String}
variable {stream : TokenStream text}

/- An expression was read. -/
def BuiltExpr
    (text : String)
    (e : Expr) :
    Condition :=
  fun taken _ => Built text e.outline e.Clean taken

/- An expression goes on as the first part of another one. -/
theorem BuiltExpr.node
    {e : Expr}
    {taken ahead : List Token}
    (hBuilt : BuiltExpr text e taken ahead) :
    Node text e.Clean true e.span [e.outline] taken ahead := by
  have hNode := Built.node hBuilt ahead
  rwa [Expr.span_outline] at hNode

/- What reads on around an expression. -/
theorem builds_around
    {base : Expr}
    {p : Parse α}
    {P : α → Condition}
    (hp : Builds stream
      (Node text base.Clean true base.span [base.outline]) p P) :
    Builds stream (BuiltExpr text base) p P :=
  hp.before fun _ _ h => h.node

/- What an expression has become after a step. -/
def Step.result
    (left : Expr) :
    Step → Expr
  | .grown e => e
  | .done => left

/- A parser of one expression. -/
abbrev YieldsExpr
    (stream : TokenStream text)
    (p : Parse Expr) :
    Prop :=
  Yields stream p Expr.outline Expr.Clean

theorem builds_noExpression
    {H : Condition}
    {P : Expr → Condition} :
    Builds stream H noExpression P := by
  apply (builds_look fun _ => rfl).bind
  intro start
  exact builds_missing _ (stays_pure _).keeps

theorem yields_braces
    {expr : Parse Expr}
    (hExpr : YieldsExpr stream expr) :
    YieldsExpr stream (braces expr) := by
  apply yields_here
  intro start
  refine builds_expect nofun ?_
  apply (builds_eat _).bind
  intro isEmpty
  split
  · apply (builds_look fun _ => rfl).bind
    intro span
    exact builds_report _ span (stays_pure _).keeps
  · apply hExpr.child.bind
    intro first
    apply (builds_eat _).bind
    intro repeats
    split
    · apply (extends_commaList hExpr.extends).builds.bind
      intro elements
      refine builds_expect nofun ?_
      refine builds_expect nofun ?_
      apply builds_since
      · intro s
        rw [Expr.outline, Expr.outlines_eq_map,
          ← List.map_eq_flatMap]
        rfl
      · rintro ⟨⟨_, hFirst⟩, hSome, hAll⟩ s
        exact .replicate hFirst hSome hAll
    · apply builds_get
      intro c
      apply (extendsAll_afterCommas hExpr.extends _).builds.bind
      intro others
      refine builds_expect nofun ?_
      apply builds_since
      · intro s
        rw [Expr.outline, Expr.outlines_eq_map,
          ← List.map_eq_flatMap]
        rfl
      · rintro ⟨⟨_, hFirst⟩, hOthers⟩ s
        exact .concat (List.cons_ne_nil _ _)
          (List.forall_mem_cons.mpr ⟨hFirst, hOthers⟩)

theorem builds_select
    {expr : Parse Expr}
    (hExpr : YieldsExpr stream expr)
    (base : Expr) :
    Builds stream (BuiltExpr text base) (select expr base)
      (BuiltExpr text) := by
  apply builds_around
  refine builds_expect nofun ?_
  apply hExpr.child.bind
  intro first
  apply (extends_ifEaten _ hExpr.extends).builds.bind
  intro found
  cases found with
  | some lsb =>
      refine builds_expect nofun ?_
      apply builds_since
      · intro s
        rfl
      · rintro ⟨⟨hBase, hFirst⟩, hLsb⟩ s
        exact .slice hBase hFirst (hLsb lsb rfl)
  | none =>
      refine builds_expect nofun ?_
      apply builds_since
      · intro s
        rfl
      · rintro ⟨⟨hBase, hFirst⟩, _⟩ s
        exact .index hBase hFirst

section

variable {exprAt : Nat → Parse Expr}
variable (hExpr : ∀ power, YieldsExpr stream (exprAt power))

include hExpr

theorem builds_unary
    (start : Span)
    (op : UnaryOp) :
    Builds stream (Node text True false start [])
      (unary exprAt start op) (BuiltExpr text) := by
  apply builds_advance.bind
  intro _
  apply (hExpr _).last.bind
  intro operand
  apply builds_merged
  · rw [Expr.span_outline]
    rfl
  · rintro ⟨_, hOperand⟩
    exact .unary hOperand

theorem builds_choice
    (condition : Expr) :
    Builds stream (BuiltExpr text condition)
      (choice exprAt condition) (BuiltExpr text) := by
  apply builds_around
  apply builds_advance.bind
  intro _
  apply (hExpr 0).child.bind
  intro ifTrue
  refine builds_expect nofun ?_
  apply (hExpr 0).last.bind
  intro ifFalse
  apply builds_merged
  · rw [Expr.span_outline]
    rfl
  · rintro ⟨⟨hCondition, hTrue⟩, hFalse⟩
    exact .ternary hCondition hTrue hFalse

theorem builds_binary
    (left : Expr)
    (op : BinaryOp) :
    Builds stream (BuiltExpr text left)
      (do
        advance
        let right ← exprAt (op.power + 1)
        return Step.grown
          (.binary left op right (left.span.merge right.span)))
      fun step => BuiltExpr text (step.result left) := by
  apply builds_around
  apply builds_advance.bind
  intro _
  apply (hExpr _).last.bind
  intro right
  apply builds_merged
  · rw [Expr.span_outline]
    rfl
  · rintro ⟨hLeft, hRight⟩
    exact .binary hLeft hRight

/- What is read behind a refused operator hides no error. -/
theorem keeps_behind
    (power : Nat)
    (start : Span) :
    Keeps (do
      advance
      let right ← exprAt power
      return (.broken (start.merge right.span) : Expr)) := by
  apply keeps_advance.bind
  intro _
  apply (hExpr _).keeps.bind
  intro right
  exact (stays_pure _).keeps

theorem builds_signed
    {H : Condition}
    {P : Expr → Condition}
    (start : Span) :
    Builds stream H (signed exprAt start) P := by
  apply builds_kind
  intro sign
  apply builds_report
  exact keeps_behind hExpr _ start

theorem builds_refused
    {H : Condition}
    {P : Expr → Condition}
    (left : Expr) :
    Builds stream H (refused exprAt left) P := by
  apply builds_kind
  intro sign
  apply (builds_look fun _ => rfl).bind
  intro place
  apply builds_report
  exact keeps_behind hExpr _ left.span

end

/- A node starts at a token. -/
def Leading
    (start : Span)
    (t : Token) :
    Condition :=
  fun taken ahead => Front start taken ahead ∧ ahead.head? = some t

/- A node that is one token. -/
def Single
    (text : String)
    (start : Span)
    (t : Token) :
    Condition :=
  fun taken _ => taken = [t] ∧ t.span = start ∧ t.Sound text

theorem run_single
    {start : Span}
    {t : Token}
    (hKind : t.kind ≠ .endOfFile)
    {before taken : List Token}
    {c : Cursor}
    (hStands : c.Stands stream (before ++ taken))
    (hLeading : Leading start t taken c.rest) :
    ∃ us, c.advance.Stands stream (before ++ (taken ++ us)) ∧
      Single text start t (taken ++ us) c.advance.rest := by
  rcases hLeading with ⟨⟨rfl, hSpan⟩, hHead⟩
  cases hRest : c.rest with
  | nil =>
      rw [hRest] at hHead
      cases hHead
  | cons u rest =>
      rw [hRest] at hHead hSpan
      cases hHead
      rcases hStands.advance hRest hKind with ⟨hEnd, _⟩
      rw [List.append_assoc] at hEnd
      exact ⟨[t], hEnd, rfl, hSpan t rfl,
        hStands.sound (hRest ▸ List.mem_cons_self ..)⟩

theorem builds_single
    {start : Span}
    {t : Token}
    (hKind : t.kind ≠ .endOfFile) :
    Builds stream (Leading start t) advance
      fun _ => Single text start t where
  keeps := keeps_advance
  run := fun hStands hLeading _ => run_single hKind hStands hLeading

/- A name that is ahead is read. -/
theorem builds_name
    {start : Span}
    {t : Token}
    (hKind : t.kind = .identifier) :
    Builds stream (Leading start t) expectName
      fun name taken ahead => name = t.text ∧
        Single text start t taken ahead where
  keeps := keeps_expectName
  run := by
    intro before taken c hStands hLeading hClear
    rcases expectName_apply c with
      ⟨u, rest, names, hRest, _, hApply⟩ | ⟨names, hApply⟩
    · have hSame : u = t := by
        have hHead := hLeading.2
        rw [hRest] at hHead
        exact Option.some.inj hHead
      rcases run_single (by rw [hKind]; exact nofun) hStands
        hLeading with ⟨us, hEnd, hSingle⟩
      rw [hApply, hSame]
      exact ⟨us, ⟨hEnd.tokens, hEnd.last⟩, rfl, hSingle⟩
    · rw [hApply] at hClear
      exact absurd hClear (hStands.not_clear_missing _)

/- The first token decides what follows. -/
theorem first_apply
    {no : Parse α}
    {f : Token → Parse α}
    (c : Cursor) :
    (do
      match (← get).rest with
      | [] => no
      | t :: _ => f t : Parse α) c =
      match c.rest with
      | [] => no c
      | t :: _ => f t c := by
  change (match c.rest with
    | [] => no
    | t :: _ => f t) c = _
  cases c.rest <;> rfl

theorem builds_first
    {start : Span}
    {no : Parse α}
    {f : Token → Parse α}
    {P : α → Condition}
    (hNo : Builds stream (Front start) no P)
    (hf : ∀ t, Builds stream (Leading start t) (f t) P) :
    Builds stream (Front start) (do
      match (← get).rest with
      | [] => no
      | t :: _ => f t) P where
  keeps := by
    intro c hClear
    rw [first_apply] at hClear
    cases hRest : c.rest with
    | nil =>
        rw [hRest] at hClear
        exact hNo.keeps c hClear
    | cons t rest =>
        rw [hRest] at hClear
        exact (hf t).keeps c hClear
  run := by
    intro before taken c hStands hFront hClear
    rw [first_apply] at hClear ⊢
    cases hRest : c.rest with
    | nil =>
        rw [hRest] at hClear
        exact hNo.run hStands hFront hClear
    | cons t rest =>
        rw [hRest] at hClear
        exact (hf t).run hStands ⟨hFront, by rw [hRest]; rfl⟩ hClear

/- A leaf that is one token. -/
theorem Single.built
    {start : Span}
    {t : Token}
    {taken ahead : List Token}
    (hSingle : Single text start t taken ahead)
    {leaf : Leaf}
    {facts : Prop}
    (hLeaf : t.Sound text → leaf.At text t.span)
    (hFacts : t.Sound text → facts) :
    Built text (.node leaf start []) facts taken := by
  rcases hSingle with ⟨rfl, rfl, hSound⟩
  exact ⟨.single t, .node (hLeaf hSound) nofun List.Pairwise.nil
    nofun, hFacts hSound⟩

theorem yields_operand
    {exprAt : Nat → Parse Expr}
    (hExpr : ∀ power, YieldsExpr stream (exprAt power)) :
    YieldsExpr stream (operand exprAt) := by
  apply builds_here.bind
  intro start
  apply builds_first builds_noExpression
  intro t
  split
  case h_1 hKind =>
      apply (builds_name hKind).bind
      intro name
      apply builds_pure
      rintro taken ahead _ ⟨rfl, hSingle⟩
      exact hSingle.built (fun hSound => hSound.text_eq)
        fun hSound => .name (present_of_isName (hSound.isName hKind))
  case h_2 form hKind =>
      apply (builds_single (by rw [hKind]; exact nofun)).bind
      intro _
      apply builds_pure
      intro taken ahead _ hSingle
      exact hSingle.built
        (fun hSound => ⟨hSound.text_eq, hSound.isLiteral form hKind⟩)
        fun _ => .literal
  case h_3 hKind =>
      apply Builds.before _ fun _ _ h => h.1.node text
      apply builds_advance.bind
      intro _
      apply (hExpr 0).child.bind
      intro inner
      refine builds_expect nofun ?_
      apply builds_since
      · intro s
        rfl
      · rintro ⟨_, hInner⟩ s
        exact .paren hInner
  case h_4 hKind =>
      exact (yields_braces (hExpr 0)).before fun _ _ h => h.1.1
  case h_5 => exact builds_signed hExpr start
  case h_6 => exact builds_signed hExpr start
  case h_7 =>
      split
      · rename_i op _
        apply Builds.before _ fun _ _ h => h.1.node text
        exact builds_unary hExpr start op
      · exact builds_noExpression
  case h_8 hKind =>
      apply (builds_single (by rw [hKind]; exact nofun)).bind
      intro _
      apply builds_pure
      rintro taken ahead _ ⟨_, _, hSound⟩
      exact absurd hKind hSound.valid
  case h_9 => exact builds_noExpression

theorem builds_extend
    {exprAt : Nat → Parse Expr}
    (hExpr : ∀ power, YieldsExpr stream (exprAt power))
    (power : Nat)
    (left : Expr) :
    Builds stream (BuiltExpr text left) (extend exprAt power left)
      fun step => BuiltExpr text (step.result left) := by
  have hDone : Builds stream (BuiltExpr text left)
      (return .done : Parse Parse.Step)
      fun step => BuiltExpr text (step.result left) :=
    builds_pure fun _ _ _ h => h
  have hGrown : ∀ {m : Parse Expr},
      Builds stream (BuiltExpr text left) m (BuiltExpr text) →
      Builds stream (BuiltExpr text left)
        (do return Parse.Step.grown (← m))
        fun step => BuiltExpr text (step.result left) :=
    fun hm => hm.bind fun _ => builds_pure fun _ _ _ h => h
  apply builds_kind
  intro kind
  split
  case h_1 =>
      split
      · exact hGrown (builds_choice hExpr left)
      · exact hDone
  case h_2 => exact hGrown (builds_select (hExpr 0) left)
  case h_3 =>
      split
      · split
        · exact hGrown (builds_refused hExpr left)
        · exact hDone
      · split
        · split
          · exact hDone
          · exact builds_binary hExpr left _
        · exact hDone
  case h_4 => exact hDone

theorem builds_extendAll
    {exprAt : Nat → Parse Expr}
    (hExpr : ∀ power, YieldsExpr stream (exprAt power))
    (power fuel : Nat)
    (left : Expr) :
    Builds stream (BuiltExpr text left)
      (extendAll exprAt power fuel left) (BuiltExpr text) := by
  induction fuel generalizing left with
  | zero =>
      apply builds_exhaust.bind
      intro _
      exact builds_pure fun _ _ _ h => h
  | succ fuel ih =>
      apply (builds_extend hExpr power left).bind
      intro step
      cases step with
      | grown e => exact ih e
      | done => exact builds_pure fun _ _ _ h => h

/- An expression that is read without errors is clean. -/
theorem yields_exprAt
    (fuel power : Nat) :
    YieldsExpr stream (exprAt fuel power) := by
  induction fuel generalizing power with
  | zero =>
      apply builds_exhaust.bind
      intro _
      exact builds_noExpression
  | succ fuel ih =>
      apply (yields_operand ih).bind
      intro left
      exact builds_extendAll ih power fuel left

theorem yields_expression :
    YieldsExpr stream expression :=
  builds_get fun _ => yields_exprAt _ 0

end Parse

end Gatework.Hdl

------------------------------------------------------------
-- Statements
------------------------------------------------------------

namespace Gatework.Hdl

namespace Parse

open Cursor

variable {α : Type}
variable {text : String}
variable {stream : TokenStream text}
variable {facts : Prop}
variable {begun : Bool}
variable {start : Span}
variable {parts : List Outline}

/- A name behind a mark, or none. -/
theorem extends_nameAfter
    (kind : TokenKind) :
    Extends stream (ifEaten kind expectName) (fun _ => [])
      (fun o => ∀ name ∈ o, Present name) :=
  (extends_ifEaten kind extends_expectName).congr fun o => by
    cases o <;> rfl

/- Names behind commas. -/
theorem extends_names :
    Extends stream (commaList expectName) (fun _ => [])
      (fun names => ∀ name ∈ names, Present name) :=
  Extends.congr (extendsAll_commaList extends_expectName)
    fun names => by simp

theorem Builds.discard
    {H : Condition}
    {p : Parse α}
    (hp : Builds stream H p fun _ => H) :
    Builds stream H (discard p) fun _ => H where
  keeps := hp.keeps
  run := hp.run

/- A label that is repeated at the end is read over. -/
theorem builds_endLabel
    (kind : TokenKind) :
    Builds stream (Node text facts begun start parts)
      (discard (ifEaten kind expectName))
      fun _ => Node text facts begun start parts := by
  apply Builds.discard
  apply (extends_nameAfter kind).builds.after
  intro o taken ahead hNode
  rw [List.append_nil] at hNode
  exact hNode.imp fun h => h.1

theorem keeps_skipTo
    (stops : List TokenKind) :
    Keeps (skipTo stops) := by
  have hSteps : ∀ fuel, Keeps (skipSteps stops fuel) := by
    intro fuel
    induction fuel with
    | zero => exact fun _ hClear => hClear
    | succ fuel ih =>
        apply Keeps.bind (m := atEnd stops) fun _ hClear => hClear
        intro found
        split
        · exact (stays_pure _).keeps
        · exact keeps_advance.bind fun _ => ih
  exact stays_get.keeps.bind fun _ => hSteps _

/- What is skipped up to a semicolon hides no error. -/
theorem keeps_skip
    (stops : List TokenKind)
    {f : Span → α}
    (start : Span) :
    Keeps (do
      skipTo stops
      discard (eat semicolon)
      return f (← since start)) := by
  apply (keeps_skipTo stops).bind
  intro _
  apply Keeps.bind (m := discard (eat semicolon)) (keeps_eat _)
  intro _
  exact (stays_since start).keeps.bind
    fun _ => (stays_pure _).keeps

theorem keeps_skipStatement
    (start : Span) :
    Keeps (do
      skipStatement
      return (.broken (← since start) : Stmt)) :=
  keeps_skip _ start

theorem builds_noStatement
    {H : Condition}
    {P : Stmt → Condition} :
    Builds stream H noStatement P := by
  apply (builds_look fun _ => rfl).bind
  intro start
  exact builds_missing _ (keeps_skipStatement start)

/- A statement reader reads one statement. -/
abbrev YieldsStmt
    (stream : TokenStream text)
    (p : Parse Stmt) :
    Prop :=
  Yields stream p Stmt.outline Stmt.Clean

theorem yields_event :
    Yields stream event Event.outline fun e => e.signal.Clean := by
  apply yields_here
  intro start
  apply builds_kind
  intro kind
  have hSignal : ∀ begun, Builds stream
      (Node text True begun start [])
      (do
        let signal ← expression
        return (⟨edge? kind, signal, ← since start⟩ : Event))
      fun e taken _ =>
        Built text e.outline e.signal.Clean taken := by
    intro begun
    apply yields_expression.child.bind
    intro signal
    apply builds_since
    · intro s
      rfl
    · exact fun h _ => h.2
  dsimp only
  split
  · apply builds_advance.bind
    intro _
    exact hSignal false
  · exact hSignal false

theorem extendsAll_moreEvents
    (fuel : Nat) :
    ExtendsAll stream (moreEvents fuel)
      (fun e => [e.outline]) (fun e => e.signal.Clean) := by
  induction fuel with
  | zero =>
      intro facts begun start parts
      apply builds_exhaust.bind
      intro _
      exact extendsAll_nil facts begun start parts
  | succ fuel ih =>
      intro facts begun start parts
      apply builds_kind
      intro kind
      split
      case h_3 => exact extendsAll_nil facts begun start parts
      all_goals
        apply builds_advance.bind
        intro _
        apply yields_event.extends.builds.bind
        exact ih.after

/- Events have no place of their own. -/
theorem extends_sensitivity :
    Extends stream sensitivity Sensitivity.outlines
      Sensitivity.Clean := by
  intro facts begun start parts
  apply (builds_eat _).bind
  intro found
  split
  · exact builds_extended (List.append_nil _).symm
      fun h => ⟨h, trivial⟩
  · apply Builds.weaken
    refine builds_expect nofun ?_
    apply (builds_eat _).bind
    intro isStar
    split
    · refine builds_expect nofun ?_
      exact builds_extended (List.append_nil _).symm
        fun h => ⟨h, trivial⟩
    · apply yields_event.child.bind
      intro first
      apply builds_get
      intro c
      apply (extendsAll_moreEvents _).builds.bind
      intro others
      refine builds_expect nofun ?_
      apply builds_extended
      · rw [Sensitivity.outlines, ← List.map_eq_flatMap,
          List.append_assoc]
        rfl
      · rintro ⟨⟨hFacts, hFirst⟩, hOthers⟩
        exact ⟨hFacts, List.forall_mem_cons.mpr ⟨hFirst, hOthers⟩⟩

section

variable {stmt : Parse Stmt}
variable (hStmt : YieldsStmt stream stmt)

include hStmt

theorem yields_block :
    YieldsStmt stream (block stmt) := by
  apply yields_here
  intro start
  refine builds_expect nofun ?_
  apply (extends_nameAfter _).builds.bind
  intro label
  apply (extendsAll_manyUntil _ hStmt.extends).builds.bind
  intro body
  refine builds_expect nofun ?_
  apply (builds_endLabel _).bind
  intro _
  apply builds_since
  · intro s
    rw [Stmt.outline, Stmt.outlines_eq_map, ← List.map_eq_flatMap]
    rfl
  · rintro ⟨⟨_, hLabel⟩, hBody⟩ s
    exact .block hLabel hBody

theorem yields_conditional :
    YieldsStmt stream (conditional stmt) := by
  apply yields_here
  intro start
  refine builds_expect nofun ?_
  refine builds_expect nofun ?_
  apply yields_expression.child.bind
  intro condition
  refine builds_expect nofun ?_
  apply hStmt.child.bind
  intro thenBody
  apply (extends_ifEaten _ hStmt.extends).builds.bind
  intro found
  cases found with
  | some elseBody =>
      apply builds_since
      · intro s
        rfl
      · rintro ⟨⟨⟨_, hCondition⟩, hThen⟩, hElse⟩ s
        exact .ifElse hCondition hThen (hElse elseBody rfl)
  | none =>
      apply builds_since
      · intro s
        rfl
      · rintro ⟨⟨⟨_, hCondition⟩, hThen⟩, _⟩ s
        exact .ifThen hCondition hThen

/- An arm has labels, unless it is the default. -/
theorem yields_caseArm :
    Yields stream (caseArm stmt) CaseArm.outline
      fun arm => arm.Labelled ∧ arm.body.Clean := by
  apply yields_here
  intro start
  apply (builds_eat _).bind
  intro isDefault
  split
  · apply (builds_eat _).discard.bind
    intro _
    apply hStmt.child.bind
    intro body
    apply builds_since
    · intro s
      rfl
    · rintro ⟨_, hBody⟩ s
      exact ⟨⟨nofun, nofun⟩, hBody⟩
  · apply (extends_commaList yields_expression.extends).builds.bind
    intro labels
    refine builds_expect nofun ?_
    apply hStmt.child.bind
    intro body
    apply builds_since
    · intro s
      rw [← List.map_eq_flatMap]
      rfl
    · rintro ⟨⟨_, hSome, hLabels⟩, hBody⟩ s
      exact ⟨⟨fun _ => hSome, hLabels⟩, hBody⟩

theorem yields_caseOf
    (kind : CaseKind) :
    YieldsStmt stream (caseOf stmt kind) := by
  apply yields_here
  intro start
  apply builds_advance.bind
  intro _
  refine builds_expect nofun ?_
  apply yields_expression.child.bind
  intro selector
  refine builds_expect nofun ?_
  apply (extendsAll_manyUntil _
    (yields_caseArm hStmt).extends).builds.bind
  intro arms
  refine builds_expect nofun ?_
  apply builds_since
  · intro s
    rw [Stmt.outline, Stmt.armOutlines_eq_map,
      ← List.map_eq_flatMap]
    rfl
  · rintro ⟨⟨_, hSelector⟩, hArms⟩ s
    exact .case hSelector (fun arm hArm => (hArms arm hArm).1)
      fun arm hArm => (hArms arm hArm).2

theorem yields_onEvent :
    YieldsStmt stream (onEvent stmt) := by
  apply yields_here
  intro start
  refine builds_expect nofun ?_
  apply extends_sensitivity.builds.bind
  intro events
  apply hStmt.child.bind
  intro body
  apply builds_since
  · intro s
    rfl
  · rintro ⟨⟨_, hEvents⟩, hBody⟩ s
    exact .onEvent hEvents hBody

end

theorem yields_assignment :
    YieldsStmt stream assignment := by
  apply yields_here
  intro start
  apply yields_expression.child.bind
  intro target
  apply (builds_eat _).bind
  intro isBlocking
  split
  · apply yields_expression.child.bind
    intro value
    refine builds_expect nofun ?_
    apply builds_since
    · intro s
      rfl
    · rintro ⟨⟨_, hTarget⟩, hValue⟩ s
      exact .blocking hTarget hValue
  · apply (builds_eat _).bind
    intro isNonBlocking
    split
    · apply yields_expression.child.bind
      intro value
      refine builds_expect nofun ?_
      apply builds_since
      · intro s
        rfl
      · rintro ⟨⟨_, hTarget⟩, hValue⟩ s
        exact .nonBlocking hTarget hValue
    · exact builds_missing _ (keeps_skipStatement start)

/- A semicolon alone is a statement. -/
theorem builds_empty :
    Builds stream (fun taken ahead => taken = [] ∧
        headKind ahead = .symbol .semicolon)
      (do
        let span ← here
        advance
        return (.empty span : Stmt))
      fun s taken _ => Built text s.outline s.Clean taken := by
  have hHere : Builds stream
      (fun taken ahead => taken = [] ∧
        headKind ahead = .symbol .semicolon)
      here fun span taken ahead => ∃ t,
        t.kind = .symbol .semicolon ∧ Leading span t taken ahead := by
    apply builds_stay fun _ => ⟨rfl, rfl, rfl⟩
    rintro before taken c hStands ⟨rfl, hAhead⟩
    have hSpan : ∀ t rest, c.rest = t :: rest → c.here = t.span := by
      intro t rest hRest
      rw [Cursor.here, hRest]
    change ∃ t, _ ∧ Leading c.here t [] c.rest
    cases hRest : c.rest with
    | nil =>
        rw [hRest] at hAhead
        cases hAhead
    | cons t rest =>
        rw [hRest] at hAhead
        rw [hSpan t rest hRest]
        exact ⟨t, hAhead, ⟨rfl, fun _ h => by cases h; rfl⟩, rfl⟩
  apply hHere.bind
  intro span
  have hAdvance : Builds stream
      (fun taken ahead => ∃ t, t.kind = .symbol .semicolon ∧
        Leading span t taken ahead)
      advance fun _ taken ahead => ∃ t,
        Single text span t taken ahead := by
    refine ⟨keeps_advance, ?_⟩
    rintro before taken c hStands ⟨t, hKind, hLeading⟩ _
    have hMore : t.kind ≠ .endOfFile := by
      rw [hKind]
      intro hEnd
      cases hEnd
    rcases run_single hMore hStands hLeading with
      ⟨us, hEnd, hSingle⟩
    exact ⟨us, hEnd, t, hSingle⟩
  apply hAdvance.bind
  intro _
  apply builds_pure
  rintro taken ahead _ ⟨t, hSingle⟩
  exact hSingle.built (fun _ => trivial) fun _ => .empty

theorem yields_stmtAt
    (fuel : Nat) :
    YieldsStmt stream (stmtAt fuel) := by
  induction fuel with
  | zero =>
      apply builds_exhaust.bind
      intro _
      exact builds_noStatement
  | succ fuel ih =>
      apply builds_kindAt
      intro kind
      split
      case h_1 => exact (yields_block ih).before fun _ _ h => h.1
      case h_2 =>
          exact (yields_conditional ih).before fun _ _ h => h.1
      case h_3 => exact (yields_caseOf ih _).before fun _ _ h => h.1
      case h_4 => exact (yields_caseOf ih _).before fun _ _ h => h.1
      case h_5 => exact (yields_caseOf ih _).before fun _ _ h => h.1
      case h_6 => exact (yields_onEvent ih).before fun _ _ h => h.1
      case h_7 => exact builds_empty
      case h_8 => exact yields_assignment.before fun _ _ h => h.1
      case h_9 => exact yields_assignment.before fun _ _ h => h.1
      case h_10 => exact builds_noStatement

theorem yields_statement :
    YieldsStmt stream statement :=
  builds_get fun _ => yields_stmtAt _

end Parse

end Gatework.Hdl

------------------------------------------------------------
-- Declarations
------------------------------------------------------------

namespace Gatework.Hdl

namespace Parse

open Cursor

variable {text : String}
variable {stream : TokenStream text}
variable {facts : Prop}
variable {begun : Bool}
variable {start : Span}
variable {parts : List Outline}

theorem yields_range :
    Yields stream range Range.outline Range.Clean := by
  apply yields_here
  intro start
  refine builds_expect nofun ?_
  apply yields_expression.child.bind
  intro msb
  refine builds_expect nofun ?_
  apply yields_expression.child.bind
  intro lsb
  refine builds_expect nofun ?_
  apply builds_since
  · intro s
    rfl
  · rintro ⟨⟨_, hMsb⟩, hLsb⟩ s
    exact ⟨hMsb, hLsb⟩

/- The range of a declaration, if there is one. -/
theorem extends_bounds :
    Extends stream (ifAt lbracket range)
      (fun o => (o.map Range.outline).toList)
      (fun o => ∀ r ∈ o, r.Clean) :=
  (extends_ifAt _ yields_range.extends).congr fun o => by
    cases o <;> rfl

theorem extends_carriedNames
    (fuel : Nat) :
    Extends stream (carriedNames fuel) (fun _ => [])
      (fun names => ∀ name ∈ names, Present name) := by
  induction fuel with
  | zero =>
      intro facts begun start parts
      apply builds_exhaust.bind
      intro _
      exact builds_extended (List.append_nil _).symm
        fun h => ⟨h, nofun⟩
  | succ fuel ih =>
      intro facts begun start parts
      apply builds_get
      intro c
      dsimp only
      split
      · apply builds_advance.bind
        intro _
        apply extends_expectName.builds.bind
        intro first
        apply ih.builds.bind
        intro others
        apply builds_extended
        · rw [List.append_nil]
        · rintro ⟨⟨hFacts, hFirst⟩, hOthers⟩
          exact ⟨hFacts,
            List.forall_mem_cons.mpr ⟨hFirst, hOthers⟩⟩
      · exact builds_extended (List.append_nil _).symm
          fun h => ⟨h, nofun⟩

/- A word that is read if it is there. -/
theorem builds_optional
    {α β : Type}
    (look : TokenKind → Option α)
    (f : Option α → β) :
    Builds stream (Node text facts begun start parts)
      (do
        let found := look (← kind)
        if found.isSome then advance
        return f found)
      fun _ => Node text facts begun start parts := by
  apply builds_kind
  intro kind
  dsimp only
  split
  · apply builds_advance.bind
    intro _
    exact builds_pure fun _ _ _ h => h
  · exact builds_pure fun _ _ _ h => h

theorem builds_eatDirection :
    Builds stream (Node text facts begun start parts) eatDirection
      fun _ => Node text facts begun start parts :=
  builds_optional direction? id

theorem builds_eatNetKind :
    Builds stream (Node text facts begun start parts) eatNetKind
      fun _ => Node text facts begun start parts :=
  builds_optional netKind? (·.getD .implicit)

theorem yields_headPin
    (before : Direction) :
    Yields stream (headPin before) PinDecl.outline
      PinDecl.Clean := by
  apply yields_here
  intro start
  apply builds_eatDirection.bind
  intro direction
  apply builds_eatNetKind.bind
  intro net
  apply (builds_eat _).bind
  intro signed
  apply extends_bounds.builds.bind
  intro bounds
  apply builds_expectName.bind
  intro first
  apply builds_get
  intro c
  apply (extends_carriedNames _).builds.bind
  intro others
  apply builds_since
  · intro s
    rw [List.append_nil]
    rfl
  · rintro ⟨⟨⟨_, hBounds⟩, hFirst⟩, hOthers⟩ s
    exact ⟨hBounds, List.forall_mem_cons.mpr ⟨hFirst, hOthers⟩⟩

theorem extendsAll_moreHeadPins
    (fuel : Nat)
    (before : Direction) :
    ExtendsAll stream (moreHeadPins fuel before)
      (fun decl => [decl.outline]) PinDecl.Clean := by
  induction fuel generalizing before with
  | zero =>
      intro facts begun start parts
      apply builds_exhaust.bind
      intro _
      exact extendsAll_nil facts begun start parts
  | succ fuel ih =>
      intro facts begun start parts
      apply (builds_eat _).bind
      intro found
      split
      · apply (yields_headPin before).extends.builds.bind
        intro first
        exact (ih _).after first
      · exact extendsAll_nil facts begun start parts

theorem extendsAll_headPins :
    ExtendsAll stream headPins (fun decl => [decl.outline])
      PinDecl.Clean := by
  intro facts begun start parts
  apply (yields_headPin .input).extends.builds.bind
  intro first
  apply builds_get
  intro c
  exact (extendsAll_moreHeadPins _ _).after first

theorem extends_header :
    Extends stream header Header.outlines Header.Clean := by
  intro facts begun start parts
  apply Builds.weaken
  refine builds_expect nofun ?_
  apply (builds_eat _).bind
  intro isEmpty
  split
  · exact builds_extended (List.append_nil _).symm
      fun h => ⟨h, trivial⟩
  · apply builds_kind
    intro kind
    split
    · apply extendsAll_headPins.builds.bind
      intro pins
      refine builds_expect nofun ?_
      apply builds_extended
      · rw [Header.outlines, ← List.map_eq_flatMap]
      · exact fun h => h
    · apply extends_names.builds.bind
      intro names
      refine builds_expect nofun ?_
      exact builds_extended rfl fun h => h

theorem yields_declName :
    Yields stream declName DeclName.outline DeclName.Clean := by
  apply yields_here
  intro start
  apply builds_expectName.bind
  intro name
  apply (extends_ifEaten _ yields_expression.extends).builds.bind
  intro init
  apply builds_since
  · intro s
    cases init <;> rfl
  · rintro ⟨⟨_, hName⟩, hInit⟩ s
    exact ⟨hName, hInit⟩

end Parse

end Gatework.Hdl

------------------------------------------------------------
-- Items
------------------------------------------------------------

namespace Gatework.Hdl

namespace Parse

open Cursor

variable {text : String}
variable {stream : TokenStream text}

/- A parser of one item. -/
abbrev YieldsItem
    (stream : TokenStream text)
    (p : Parse Item) :
    Prop :=
  Yields stream p Item.outline Item.Clean

theorem yields_netDecl :
    YieldsItem stream netDecl := by
  apply yields_here
  intro start
  apply builds_eatNetKind.bind
  intro net
  apply (builds_eat _).bind
  intro signed
  apply extends_bounds.builds.bind
  intro bounds
  apply (extendsAll_commaList yields_declName.extends).builds.bind
  intro names
  refine builds_expect nofun ?_
  apply builds_since
  · intro s
    rw [← List.map_eq_flatMap]
    rfl
  · rintro ⟨⟨_, hBounds⟩, hNames⟩ s
    exact .net ⟨hBounds, hNames⟩

theorem yields_pinDecl :
    YieldsItem stream pinDecl := by
  apply yields_here
  intro start
  apply builds_eatDirection.bind
  intro direction
  apply builds_eatNetKind.bind
  intro net
  apply (builds_eat _).bind
  intro signed
  apply extends_bounds.builds.bind
  intro bounds
  apply extends_names.builds.bind
  intro names
  refine builds_expect nofun ?_
  apply builds_since
  · intro s
    rw [List.append_nil]
    rfl
  · rintro ⟨⟨_, hBounds⟩, hNames⟩ s
    exact .pins ⟨hBounds, hNames⟩

theorem yields_continuous :
    YieldsItem stream continuous := by
  apply yields_here
  intro start
  refine builds_expect nofun ?_
  apply yields_expression.child.bind
  intro target
  refine builds_expect nofun ?_
  apply yields_expression.child.bind
  intro value
  refine builds_expect nofun ?_
  apply builds_since
  · intro s
    rfl
  · rintro ⟨⟨_, hTarget⟩, hValue⟩ s
    exact .assign hTarget hValue

/- A block behind a word is a part of its item. -/
theorem yields_process
    {make : Stmt → Span → Item}
    (hOut : ∀ body s,
      (make body s).outline = .node .inner s [body.outline])
    (hClean : ∀ body s, body.Clean → (make body s).Clean) :
    YieldsItem stream (process make) := by
  apply yields_here
  intro start
  apply builds_advance.bind
  intro _
  apply yields_statement.child.bind
  intro body
  apply builds_since
  · exact hOut body
  · rintro ⟨_, hBody⟩ s
    exact hClean body s hBody

theorem yields_clocked :
    YieldsItem stream clocked := by
  apply yields_here
  intro start
  apply builds_advance.bind
  intro _
  apply (extends_ifEaten _ extends_sensitivity).builds.bind
  intro events
  cases events with
  | none =>
      have hStatement : YieldsStmt stream statement :=
        yields_statement
      exact builds_missing _ (hStatement.keeps.bind fun _ =>
        (stays_since start).keeps.bind
          fun _ => (stays_pure _).keeps)
  | some events =>
      apply yields_statement.child.bind
      intro body
      apply builds_since
      · intro s
        rw [Option.toList_some, List.flatMap_singleton]
        rfl
      · rintro ⟨⟨_, hEvents⟩, hBody⟩ s
        exact .alwaysFf (hEvents events rfl) hBody

theorem builds_noItem
    {H : Condition}
    {P : Item → Condition} :
    Builds stream H noItem P := by
  apply (builds_look fun _ => rfl).bind
  intro start
  apply (builds_looksAt _).bind
  intro isName
  split
  · exact builds_report _ _ (keeps_skip _ start)
  · exact builds_missing _ (keeps_skip _ start)

theorem yields_item :
    YieldsItem stream item := by
  apply builds_kind
  intro kind
  split
  case h_1 => exact yields_netDecl
  case h_2 => exact yields_netDecl
  case h_3 => exact yields_netDecl
  case h_4 => exact yields_pinDecl
  case h_5 => exact yields_pinDecl
  case h_6 => exact yields_pinDecl
  case h_7 => exact yields_continuous
  case h_8 =>
      exact yields_process (fun _ _ => rfl) fun _ _ => .always
  case h_9 =>
      exact yields_process (fun _ _ => rfl) fun _ _ => .alwaysComb
  case h_10 =>
      exact yields_process (fun _ _ => rfl) fun _ _ => .alwaysLatch
  case h_11 => exact yields_clocked
  case h_12 => exact builds_noItem

theorem yields_moduleDecl :
    Yields stream moduleDecl ModuleDecl.outline
      ModuleDecl.Clean := by
  apply yields_here
  intro start
  refine builds_expect nofun ?_
  apply builds_expectName.bind
  intro name
  apply (extends_ifAt _ extends_header).builds.bind
  intro head
  refine builds_expect nofun ?_
  apply (extendsAll_manyUntil _ yields_item.extends).builds.bind
  intro items
  refine builds_expect nofun ?_
  apply (builds_endLabel _).bind
  intro _
  apply builds_since
  · intro s
    rw [← List.map_eq_flatMap]
    cases head with
    | none => rfl
    | some h =>
        rw [Option.toList_some, List.flatMap_singleton]
        rfl
  · rintro ⟨⟨⟨_, hName⟩, hHead⟩, hItems⟩ s
    refine ⟨hName, ?_, hItems⟩
    cases head with
    | none => exact trivial
    | some h => exact hHead h rfl

theorem yields_topItem :
    Yields stream topItem TopItem.outline TopItem.Clean := by
  apply (builds_looksAt _).bind
  intro isModule
  split
  · apply yields_moduleDecl.bind
    intro m
    apply builds_pure
    rintro taken ahead _ ⟨hCovers, hFaithful, hClean⟩
    exact ⟨hCovers, hFaithful, .decl hClean⟩
  · apply (builds_look fun _ => rfl).bind
    intro start
    apply builds_missing
    apply keeps_advance.bind
    intro _
    apply (keeps_skipTo _).bind
    intro _
    exact (stays_since start).keeps.bind
      fun _ => (stays_pure _).keeps

end Parse

end Gatework.Hdl

------------------------------------------------------------
-- Files
------------------------------------------------------------

namespace Gatework

/- Reports without an error had none among them. -/
theorem Findings.of_foldl_report
    {ds : List Diagnostic}
    {f : Findings}
    (hClear : (ds.foldl report f).hasErrors = false) :
    f.hasErrors = false ∧ ∀ d ∈ ds, d.isError = false := by
  induction ds generalizing f with
  | nil => exact ⟨hClear, nofun⟩
  | cons d ds ih =>
      rcases ih hClear with ⟨hFirst, hRest⟩
      cases hError : d.isError with
      | true =>
          simp [report, hError, hasErrors] at hFirst
      | false =>
          simp only [report, hError, Bool.false_eq_true,
            if_false] at hFirst
          exact ⟨hFirst, List.forall_mem_cons.mpr ⟨hError, hRest⟩⟩

namespace Hdl

namespace Parse

variable {text : String}

/- A file without modules is read as one without parts. -/
theorem builds_file
    (stream : TokenStream text) :
    Builds stream Fresh file
      fun f _ _ => f.Clean ∧ f.outline.Faithful text := by
  apply builds_here.bind
  intro start
  apply Builds.before _ fun _ _ hFront => hFront.node text
  apply (extendsAll_manyUntil _ yields_topItem.extends).builds.bind
  intro items
  split
  case isTrue hNone =>
      rw [List.isEmpty_iff.mp hNone]
      apply builds_pure
      intro taken ahead _ hNode
      exact ⟨nofun, .node trivial nofun List.Pairwise.nil nofun⟩
  case isFalse hSome =>
      rw [← List.map_eq_flatMap]
      have hFile : Builds stream
          (Node text (True ∧ ∀ item ∈ items, item.Clean) true start
            (items.map TopItem.outline))
          (do return (⟨items, ← since start⟩ : File))
          fun f taken _ => Built text f.outline f.Clean taken :=
        builds_since (fun _ => rfl) fun h _ => h.2
      apply hFile.imp
      · intro taken ahead hNode
        apply hNode.begin
        rw [List.nil_append]
        exact fun h => hSome (List.isEmpty_iff.mpr
          (List.map_eq_nil_iff.mp h))
      · exact fun f taken ahead _ hBuilt =>
          ⟨hBuilt.facts, hBuilt.faithful⟩

theorem keeps_file :
    Keeps file :=
  have none : TokenStream "" := ⟨[], List.Pairwise.nil, nofun⟩
  (builds_file none).keeps

end Parse

/-
  A file in which no error is found has a clean tree, which
  is faithful to its text.
-/
theorem built_parseFile
    {number : Nat}
    {source : SourceFile}
    (hClear :
      (parseFile number source).findings.hasErrors = false) :
    (parseFile number source).tree.Clean ∧
      (parseFile number source).tree.outline.Faithful
        source.text := by
  have hStart := Parse.keeps_file _ hClear
  rcases Findings.of_foldl_report hStart with ⟨_, hLexed⟩
  have hBuilds := Parse.builds_file
    (TokenStream.ofLex (some number) source.text hLexed)
  have hStands : Cursor.Stands
      (TokenStream.ofLex (some number) source.text hLexed)
      ([] ++ [])
      { rest := (lex (some number) source.text).tokens
        findings := (lex (some number) source.text).problems.foldl
          Findings.report {} } :=
    ⟨rfl, rfl⟩
  rcases hBuilds.run hStands rfl hClear with ⟨_, _, hBuilt⟩
  exact hBuilt

/-
  The places of a file without errors are faithful: every
  node lies inside the one around it, nodes side by side are
  in order and do not overlap, and at the place of a name or
  a literal the text is the name, or one literal of its kind.
-/
theorem faithful_parseFile
    {number : Nat}
    {source : SourceFile}
    (hClear :
      (parseFile number source).findings.hasErrors = false) :
    (parseFile number source).tree.outline.Faithful source.text :=
  (built_parseFile hClear).2

/- A module with a comment, a select and literals of all kinds. -/
def mixedSource : SourceFile :=
  ⟨"mixed.sv",
    "module mixed(input [3:0] a, output reg y); // pick\n" ++
    "wire n = a[4'h 2] ? ~{2{a[1:0]}} == '1 : 0;\n" ++
    "always @(a or n) case (a) 1, 2: y = n; default ; endcase\n" ++
    "endmodule\n"⟩

theorem faithful_parseFile_mixed :
    (parseFile 0 mixedSource).findings.hasErrors = false ∧
    (parseFile 0 mixedSource).tree.outline.Faithful
      mixedSource.text := by
  have hClear :
      (parseFile 0 mixedSource).findings.hasErrors = false := by
    rw [parseFile_spelled 0 mixedSource (spelled_append
      (spelled_append (spelled_append rfl rfl) rfl) rfl)]
    decide +kernel
  exact ⟨hClear, faithful_parseFile hClear⟩

end Hdl

end Gatework
