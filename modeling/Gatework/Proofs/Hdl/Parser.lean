import Gatework.Hdl.Parser.File
import Gatework.Proofs.Hdl.Names
import Gatework.Proofs.Hdl.Steps

/-
  Expressions and statements are read to an end, and nothing
  in them is left out.

  An inner expression or statement stands behind a token that
  was read, so the number of tokens also bounds how deep
  parsers call each other.

  Parsers read each name from a token or put a mark for a
  missing one, so the names in a tree have any property that
  those have. Lists of parts, labels and names have a first
  element before any comma. Trees of broken sources are no
  exception.

  Key definitions include:
    * `Hdl.Parse.Grows`, what is read behind an operand

  Key theorems include:
    * `Hdl.Parse.gives_exprAt` and `Hdl.Parse.gives_expression`
    * `Hdl.Parse.gives_stmtAt` and `Hdl.Parse.gives_statement`
-/

------------------------------------------------------------
-- Operands
------------------------------------------------------------

namespace Gatework.Hdl

namespace Parse

open Cursor

variable {N : String → Prop}
variable {n : Nat}

/-
  No token is read for a missing expression, so whoever
  asked for one has to get past the token itself.
-/
theorem gives_noExpression :
    Gives N n noExpression (Expr.Over N False) := by
  apply stays_here.then
  intro start
  apply (stays_missing _).then
  intro _
  exact gives_pure trivial

/-
  A list between braces is never empty: two braces in a row
  are reported and left as a placeholder.
-/
theorem reads_braces
    {expr : Parse Expr}
    (hExpr : Gives N n expr (Expr.Over N False)) :
    Reads N n lbrace (braces expr) (Expr.Over N False) := by
  apply stays_here.before
  intro start
  refine reads_expect nofun ?_
  apply (moves_eat _).then
  intro isEmpty
  split
  · apply (stays_since start).then
    intro span
    apply (stays_report _ span).then
    intro _
    exact gives_pure trivial
  · apply hExpr.bind
    intro first hFirst
    apply (moves_eat _).then
    intro repeats
    split
    · apply (gives_commaList hExpr).bind
      rintro elements ⟨hSome, hElements⟩
      apply (moves_expect _).then
      intro _
      apply (moves_expect _).then
      intro _
      exact gives_since start fun _ =>
        ⟨hFirst, hSome, Expr.overAll_iff.mpr hElements⟩
    · -- The further parts are bounded by what the first left.
      apply gives_get
      intro c hReady
      apply (gives_afterCommas (hExpr.mono hReady.length_le)
        (Nat.le_refl _)).bind
      intro others hOthers
      apply (moves_expect _).then
      intro _
      exact gives_since start fun _ =>
        ⟨nofun, hFirst, Expr.overAll_iff.mpr hOthers⟩

/- A colon after the first bound tells a range from a bit. -/
theorem reads_select
    {expr : Parse Expr}
    (hExpr : Gives N n expr (Expr.Over N False))
    {base : Expr}
    (hBase : base.Over N False) :
    Reads N n lbracket (select expr base) (Expr.Over N False) := by
  refine reads_expect nofun ?_
  apply hExpr.bind
  intro first hFirst
  apply (gives_ifEaten _ hExpr).bind
  intro found hFound
  cases found with
  | some lsb =>
      apply (moves_expect _).then
      intro _
      exact gives_since _ fun _ => ⟨hBase, hFirst, hFound lsb rfl⟩
  | none =>
      apply (moves_expect _).then
      intro _
      exact gives_since _ fun _ => ⟨hBase, hFirst⟩

section

variable {exprAt : Nat → Parse Expr}
variable (hExpr : ∀ power,
  Gives N n (exprAt power) (Expr.Over N False))
variable (kind : TokenKind)
variable (hKind : kind ≠ .endOfFile)

include hExpr hKind

/- The operator is the token that makes the operand shorter. -/
theorem reads_unary
    (start : Span)
    (op : UnaryOp) :
    Reads N n kind (unary exprAt start op) (Expr.Over N False) := by
  apply reads_advance hKind
  exact (hExpr _).map fun _ hx => hx

/- A refused sign leaves no names behind. -/
theorem reads_signed
    (start : Span) :
    Reads N n kind (signed exprAt start) (Expr.Over N False) := by
  apply stays_kind.before
  intro sign
  apply (stays_report _ start).before
  intro _
  apply reads_advance hKind
  exact (hExpr _).map fun _ _ => trivial

/-
  The colon may be missing, so it is the question mark that
  makes up for the bound.
-/
theorem reads_choice
    {condition : Expr}
    (hCondition : condition.Over N False) :
    Reads N n kind (choice exprAt condition)
      (Expr.Over N False) := by
  apply reads_advance hKind
  apply (hExpr 0).bind
  intro ifTrue hTrue
  apply (moves_expect _).then
  intro _
  exact (hExpr 0).map fun _ hFalse => ⟨hCondition, hTrue, hFalse⟩

/-
  An operator that is not supported is read with its right
  operand, and neither stays in the tree.
-/
theorem reads_refused
    (left : Expr) :
    Reads N n kind (refused exprAt left) (Expr.Over N False) := by
  apply stays_kind.before
  intro sign
  apply stays_here.before
  intro place
  apply (stays_report _ place).before
  intro _
  apply reads_advance hKind
  exact (hExpr _).map fun _ _ => trivial

end

section

variable {exprAt : Nat → Parse Expr}
variable (hExpr : ∀ power,
  Gives N n (exprAt power) (Expr.Over N False))

/- The first token decides what follows. -/
theorem gives_first
    {α : Type}
    {P : α → Prop}
    {none : Parse α}
    {f : Token → Parse α}
    (hf : ∀ token, GivesAt N n token.kind (f token) P) :
    Gives N n
      (do
        match (← get).rest with
        | [] => none
        | token :: _ => f token)
      P := by
  intro c hReady
  change Leads c ((match c.rest with
    | [] => none
    | token :: _ => f token) c).2 ∧ P ((match c.rest with
      | [] => none
      | token :: _ => f token) c).1
  cases hRest : c.rest with
  | nil =>
      -- In front of closed tokens there is a first one.
      have hPos := hReady.closed.length_pos
      rw [hRest] at hPos
      exact absurd hPos (Nat.lt_irrefl 0)
  | cons token rest =>
      apply hf token c hReady
      rw [Cursor.kind, hRest]

include hExpr

/-
  What can stand in front of an operator. The expressions in
  it stand behind a token, so they have one less to read.
-/
theorem gives_operand :
    Gives N (n + 1) (operand exprAt) (Expr.Over N False) := by
  apply stays_here.then
  intro start
  apply gives_first
  intro token
  -- The branches are those of the parser, in its order.
  generalize token.kind = kind
  split
  case h_1 =>
      apply Gives.at
      exact gives_expectName.map fun _ hName => hName
  case h_2 =>
      apply Gives.at
      exact moves_advance.then fun _ => gives_pure trivial
  case h_3 =>
      apply Reads.givesAt
      refine reads_advance nofun ?_
      apply (hExpr 0).bind
      intro inner hInner
      apply (moves_expect _).then
      intro _
      exact gives_since start fun _ => hInner
  case h_4 => exact (reads_braces (hExpr 0)).givesAt
  case h_5 =>
      exact (reads_signed hExpr (.symbol _) nofun start).givesAt
  case h_6 =>
      exact (reads_signed hExpr (.symbol _) nofun start).givesAt
  case h_7 =>
      split
      · exact (reads_unary hExpr (.symbol _) nofun start
          _).givesAt
      · exact gives_noExpression.at _
  case h_8 =>
      apply Gives.at
      exact moves_advance.then fun _ => gives_pure trivial
  case h_9 => exact gives_noExpression.at _

end

end Parse

end Gatework.Hdl

------------------------------------------------------------
-- Operators
------------------------------------------------------------

namespace Gatework.Hdl

namespace Parse

open Cursor

variable {N : String → Prop}
variable {n : Nat}

/- What an expression grows to has names, too. -/
def Step.Over
    (N : String → Prop) :
    Parse.Step → Prop
  | .grown e => e.Over N False
  | .done => True

/-
  On at most so many tokens an expression is done or goes on
  with fewer tokens. Mere moves would not do: the loop over
  operators needs a token for each of its rounds.
-/
def Grows
    (N : String → Prop)
    (n : Nat)
    (m : Parse Parse.Step) :
    Prop :=
  ∀ c : Cursor, c.Ready N n →
    Leads c (m c).2 ∧ (m c).1.Over N ∧
      ((m c).1 = .done ∨
        (m c).2.rest.length < c.rest.length)

/- Whatever reads a token can be a step of the loop. -/
theorem Reads.grown
    {kind : TokenKind}
    {m : Parse Expr}
    (hm : Reads N n kind m (Expr.Over N False)) :
    Reads N n kind (do return Parse.Step.grown (← m))
      (Step.Over N) :=
  hm.map fun _ he => he

/-
  The kind of the next token decides between a step that
  reads it and the end of the expression.
-/
theorem grows_kind
    {f : TokenKind → Parse Parse.Step}
    (hf : ∀ kind,
      Reads N n kind (f kind) (Step.Over N) ∨
        f kind = return .done) :
    Grows N (n + 1) (Parse.kind >>= f) := by
  intro c hReady
  change Leads c (f c.kind c).2 ∧ (f c.kind c).1.Over N ∧
    ((f c.kind c).1 = .done ∨
      (f c.kind c).2.rest.length < c.rest.length)
  rcases hf c.kind with hReads | hDone
  · rcases hReads c hReady rfl with ⟨hLeads, hShorter, hOver⟩
    exact ⟨hLeads, hOver, Or.inr hShorter⟩
  · rw [hDone]
    exact ⟨.refl, trivial, Or.inl rfl⟩

section

variable {exprAt : Nat → Parse Expr}

/-
  Operators of less power are left to the caller, others are
  read with a right operand.
-/
theorem grows_extend
    (hExpr : ∀ power,
      Gives N n (exprAt power) (Expr.Over N False))
    (power : Nat)
    {left : Expr}
    (hLeft : left.Over N False) :
    Grows N (n + 1) (extend exprAt power left) := by
  apply grows_kind
  intro kind
  split
  case h_1 =>
      split
      · exact Or.inl
          (reads_choice hExpr (.symbol _) nofun hLeft).grown
      · exact Or.inr rfl
  case h_2 => exact Or.inl (reads_select (hExpr 0) hLeft).grown
  case h_3 =>
      split
      · split
        · exact Or.inl
            (reads_refused hExpr (.symbol _) nofun left).grown
        · exact Or.inr rfl
      · split
        · split
          · exact Or.inr rfl
          · refine Or.inl (reads_advance nofun ?_)
            exact (hExpr _).map fun _ hRight => ⟨hLeft, hRight⟩
        · exact Or.inr rfl
  case h_4 => exact Or.inr rfl

/- Every operator and select costs a token. -/
theorem gives_extendAll
    (hExpr : ∀ power,
      Gives N n (exprAt power) (Expr.Over N False))
    {fuel : Nat}
    (hFuel : n + 1 ≤ fuel)
    (power : Nat)
    {left : Expr}
    (hLeft : left.Over N False) :
    Gives N (n + 1) (extendAll exprAt power fuel left)
      (Expr.Over N False) := by
  induction fuel generalizing n left with
  | zero => omega
  | succ fuel ih =>
      intro c hReady
      rcases grows_extend hExpr power hLeft c hReady with
        ⟨hLeads, hOver, hStep⟩
      rw [extendAll, bind_apply]
      cases hResult : (extend exprAt power left c).1 with
      | done => exact ⟨hLeads, hLeft⟩
      | grown e =>
          rw [hResult] at hStep hOver
          have hShorter := hStep.resolve_left nofun
          have hReady' := hReady.leads hLeads
          have hLength := hReady.length_le
          cases n with
          | zero =>
              -- A lone token is the end of the file.
              have hPos := hReady'.closed.length_pos
              omega
          | succ n =>
              rcases ih (fun p => (hExpr p).mono (Nat.le_succ n))
                (by omega) hOver _ (hReady'.atMost (by omega)) with
                ⟨hMore, he⟩
              exact ⟨hLeads.trans hMore, he⟩

end

/-
  A bound one above the number of tokens is enough: the
  operand may read none, then there is one token left for
  each operator and one that ends the expression.
-/
theorem gives_exprAt
    (n power : Nat) :
    Gives N n (exprAt (n + 1) power) (Expr.Over N False) := by
  induction n generalizing power with
  | zero => exact gives_zero _
  | succ n ih =>
      apply (gives_operand ih).bind
      intro left hLeft
      exact gives_extendAll ih (Nat.le_refl _) power hLeft

/- The fuel of an expression is the number of tokens left. -/
theorem gives_expression :
    Gives N n expression (Expr.Over N False) :=
  gives_get fun _ _ => gives_exprAt _ 0

end Parse

end Gatework.Hdl

------------------------------------------------------------
-- Events and assignments
------------------------------------------------------------

namespace Gatework.Hdl

namespace Parse

variable {N : String → Prop}
variable {n : Nat}

/- What is skipped is not looked at, names included. -/
theorem moves_skipStatement : Moves N n skipStatement := by
  apply (moves_skipTo _).then
  intro _
  exact (moves_eat _).discard

/- A statement that was skipped leaves a placeholder. -/
theorem gives_noStatement :
    Gives N n noStatement (Stmt.Over N) := by
  apply stays_here.then
  intro start
  apply (stays_missing _).then
  intro _
  apply moves_skipStatement.then
  intro _
  exact gives_since start fun _ => trivial

/-
  The names of events are asked for nowhere, so it is enough
  that the parser moves.
-/
theorem moves_event : Moves N n event := by
  apply stays_here.then
  intro start
  apply stays_kind.then
  intro found
  apply moves_when _ moves_advance
  apply gives_expression.moves.then
  intro signal
  exact gives_since start fun _ => trivial

/- Every event costs a separator. -/
theorem moves_moreEvents
    {fuel : Nat}
    (hFuel : n ≤ fuel) :
    Moves N n (moreEvents fuel) := by
  induction fuel generalizing n with
  | zero =>
      rw [Nat.le_zero.mp hFuel]
      exact gives_zero _
  | succ fuel ih =>
      cases n with
      | zero => exact gives_zero _
      | succ n =>
          apply gives_kind
          intro kind
          have hMore : Moves N n (do
              let first ← event
              return first :: (← moreEvents fuel)) := by
            apply moves_event.then
            intro first
            exact (ih (Nat.le_of_succ_le_succ hFuel)).map
              fun _ _ => trivial
          split
          case h_3 => exact (moves_pure _).at _
          all_goals
            apply Reads.givesAt
            exact reads_advance nofun hMore

/- A star may stand between parentheses or alone. -/
theorem moves_sensitivity : Moves N n sensitivity := by
  apply (moves_eat _).then
  intro isStar
  split
  · exact moves_pure _
  · apply (moves_expect _).then
    intro _
    apply (moves_eat _).then
    intro isStar
    split
    · apply (moves_expect _).then
      intro _
      exact moves_pure _
    · apply moves_event.then
      intro first
      apply gives_get
      intro c _
      apply (moves_moreEvents (Nat.le_refl _)).then
      intro others
      exact (moves_expect _).map fun _ _ => trivial

/- Both signs of an assignment are followed by a value. -/
theorem gives_assignment :
    Gives N n assignment (Stmt.Over N) := by
  apply stays_here.then
  intro start
  apply gives_expression.bind
  intro target hTarget
  have hValue : ∀ make : Expr → Span → Stmt,
      (∀ value span, value.Over N False →
        (make value span).Over N) →
      Gives N n (do
        let value ← expression
        expect semicolon
        return make value (← since start)) (Stmt.Over N) := by
    intro make hMake
    apply gives_expression.bind
    intro value hValue
    apply (moves_expect _).then
    intro _
    exact gives_since start fun span => hMake value span hValue
  apply (moves_eat _).then
  intro isBlocking
  split
  · exact hValue _ fun _ _ h => ⟨hTarget, h⟩
  · apply (moves_eat _).then
    intro isNonBlocking
    split
    · exact hValue _ fun _ _ h => ⟨hTarget, h⟩
    · apply (stays_missing _).then
      intro _
      apply moves_skipStatement.then
      intro _
      exact gives_since start fun _ => trivial

end Parse

end Gatework.Hdl

------------------------------------------------------------
-- Statements
------------------------------------------------------------

namespace Gatework.Hdl

namespace Parse

variable {N : String → Prop}
variable {n : Nat}

section

variable {stmt : Parse Stmt}
variable (hStmt : Gives N n stmt (Stmt.Over N))

include hStmt

/-
  The name of a block may be left out at either end, so
  nothing is asked of it.
-/
theorem reads_block :
    Reads N n (.keyword .beginBlock) (block stmt)
      (Stmt.Over N) := by
  apply stays_here.before
  intro start
  refine reads_expect nofun ?_
  apply (gives_ifEaten _ gives_expectName).moves.then
  intro label
  apply (gives_manyUntil _ hStmt).bind
  intro body hBody
  apply (moves_expect _).then
  intro _
  apply (gives_ifEaten _ gives_expectName).moves.discard.then
  intro _
  exact gives_since start fun _ => Stmt.overAll_iff.mpr hBody

/-
  An `else` belongs to the innermost `if`, since that one
  looks for it first.
-/
theorem reads_conditional :
    Reads N n (.keyword .ifBranch) (conditional stmt)
      (Stmt.Over N) := by
  apply stays_here.before
  intro start
  refine reads_expect nofun ?_
  apply (moves_expect _).then
  intro _
  apply gives_expression.bind
  intro condition hCondition
  apply (moves_expect _).then
  intro _
  apply hStmt.bind
  intro thenBody hThen
  apply (gives_ifEaten _ hStmt).bind
  intro found hFound
  cases found with
  | some elseBody =>
      exact gives_since start fun _ =>
        ⟨hCondition, hThen, hFound elseBody rfl⟩
  | none => exact gives_since start fun _ => ⟨hCondition, hThen⟩

/- An arm has labels unless it is the default. -/
theorem gives_caseArm :
    Gives N n (caseArm stmt)
      (fun arm =>
        (∀ l ∈ arm.labels, l.Over N False) ∧
          (arm.isDefault = false → arm.labels ≠ []) ∧
            arm.body.Over N) := by
  apply stays_here.then
  intro start
  apply (moves_eat _).then
  intro isDefault
  split
  · apply (moves_eat _).discard.then
    intro _
    apply hStmt.bind
    intro body hBody
    exact gives_since start fun _ =>
      ⟨List.forall_mem_nil _, nofun, hBody⟩
  · apply (gives_commaList gives_expression).bind
    rintro labels ⟨hSome, hLabels⟩
    apply (moves_expect _).then
    intro _
    apply hStmt.bind
    intro body hBody
    exact gives_since start fun _ =>
      ⟨hLabels, fun _ => hSome, hBody⟩

/-
  The three kinds of `case` differ in their first word only.
-/
theorem reads_caseOf
    (word : TokenKind)
    (hWord : word ≠ .endOfFile)
    (kind : CaseKind) :
    Reads N n word (caseOf stmt kind) (Stmt.Over N) := by
  apply stays_here.before
  intro start
  apply reads_advance hWord
  apply (moves_expect _).then
  intro _
  apply gives_expression.bind
  intro selector hSelector
  apply (moves_expect _).then
  intro _
  apply (gives_manyUntil _ (gives_caseArm hStmt)).bind
  intro arms hArms
  apply (moves_expect _).then
  intro _
  exact gives_since start fun _ =>
    ⟨hSelector, Stmt.overArms_iff.mpr hArms⟩

/- What a statement waits for has no say in what is read. -/
theorem reads_onEvent :
    Reads N n (.symbol .atSign) (onEvent stmt) (Stmt.Over N) := by
  apply stays_here.before
  intro start
  refine reads_expect nofun ?_
  apply moves_sensitivity.then
  intro events
  apply hStmt.bind
  intro body hBody
  exact gives_since start fun _ => hBody

end

/-
  Inner statements stand behind a token. Statements without
  inner ones need no more than the tokens they have.
-/
theorem gives_stmtAt
    (n : Nat) :
    Gives N n (stmtAt n) (Stmt.Over N) := by
  induction n with
  | zero => exact gives_zero _
  | succ n ih =>
      apply gives_kind
      intro kind
      split
      case h_1 => exact (reads_block ih).givesAt
      case h_2 => exact (reads_conditional ih).givesAt
      case h_3 =>
          exact (reads_caseOf ih (.keyword _) nofun
            .exact).givesAt
      case h_4 =>
          exact (reads_caseOf ih (.keyword _) nofun
            .casez).givesAt
      case h_5 =>
          exact (reads_caseOf ih (.keyword _) nofun
            .casex).givesAt
      case h_6 => exact (reads_onEvent ih).givesAt
      case h_7 =>
          apply Gives.at
          apply stays_here.then
          intro span
          exact moves_advance.then fun _ => gives_pure trivial
      case h_8 => exact gives_assignment.at _
      case h_9 => exact gives_assignment.at _
      case h_10 => exact gives_noStatement.at _

/- The fuel of a statement is the number of tokens left. -/
theorem gives_statement :
    Gives N n statement (Stmt.Over N) :=
  gives_get fun _ _ => (gives_stmtAt _).mono (Nat.le_succ _)

end Parse

end Gatework.Hdl
