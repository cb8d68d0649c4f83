import Gatework.Lowering.Circuit
import Gatework.Proofs.Hdl.Clean
import Gatework.Proofs.Hdl.Names
import Gatework.Proofs.Hdl.UnknownDigits
import Gatework.Proofs.Lowering.Context

/-
  How lowering is put together.

  Lowering consists of few kinds of steps: it looks names up
  and reads literals, which both depend on the options, it
  declares, reports and marks, and it fails. What is shown of
  each of these steps and of one behind another holds of
  lowering as a whole.

  The walk along the functions that lower a source is made
  once. It notes the literals that are read where nothing
  fails, and that no placeholder is refused in a clean tree.

  Key definitions include:
    * `LowerError.isMalformed`
    * `Lower.Composed`

  Key theorems include:
    * `Lower.composed_operand` and `Lower.composed_stmt`
    * `Lower.composed_item` and `Lower.composed_circuits`
-/

------------------------------------------------------------
-- Errors of placeholders
------------------------------------------------------------

namespace Gatework

namespace LowerError

/- What a refused placeholder is called. -/
def placeholders : List String :=
  ["malformed expression", "malformed statement",
    "malformed module item"]

/- The error of a placeholder in the tree. -/
def isMalformed : LowerError → Bool
  | unsupported what _ => decide (what ∈ placeholders)
  | _ => false

/- Other refusals are told by their first letter. -/
theorem not_isMalformed
    {what : String}
    (hHead : what.toList.head? ≠ some 'm')
    (span : Span) :
    (unsupported what span).isMalformed = false := by
  have hAll : ∀ p ∈ placeholders, p.toList.head? = some 'm' := by
    decide
  rw [isMalformed, decide_eq_false_iff_not]
  exact fun hMem => hHead (hAll what hMem)

/-
  A malformed literal is a flaw of its text, and is called
  otherwise than a placeholder.
-/
theorem not_isMalformed_ofLiteral
    (text : String)
    (span : Span)
    (flaw : Hdl.LiteralFlaw) :
    (ofLiteral text span flaw).isMalformed = false := by
  cases flaw with
  | tooWide => rfl
  | unknownBits => rfl
  | malformed => exact not_isMalformed (by simp) span
  | zeroWidth => exact not_isMalformed (by simp) span

end LowerError

end Gatework

------------------------------------------------------------
-- Steps
------------------------------------------------------------

namespace Gatework

namespace Lower

/-
  A computation that is put together from the steps of
  lowering, with the literals that it reads unless it fails.
  Where a tree is asked to be clean, no failure is that of a
  placeholder.
-/
inductive Composed
    (clean : Prop) :
    {α : Type} → List Hdl.RawLiteral → Lower α → Prop where
  | pure {α : Type} (a : α) :
      Composed clean [] (pure a)
  | fail {α : Type} {rs e} :
      (clean → e.isMalformed = false) →
      Composed clean rs (fail e : Lower α)
  | bind {α β : Type} {rs rs'} {m : Lower α} {f : α → Lower β} :
      Composed clean rs m →
      (∀ a, Composed clean rs' (f a)) →
      Composed clean (rs ++ rs') (m >>= f)
  | lookup name span :
      Composed clean [] (lookup name span)
  | literal kind text span :
      Composed clean [⟨kind, text⟩] (literal kind text span)
  | fallback {α : Type} {rs} {f : Fallback → Lower α} :
      (∀ fallback, Composed clean rs (f fallback)) →
      Composed clean rs (do f (← read).options.fallback)
  | declare v range span :
      Composed clean [] (declare v range span)
  | fresh :
      Composed clean []
        (modify fun p => { p with scope := {} } : Lower Unit)
  | get :
      Composed clean [] (get : Lower Progress)
  | textOf span :
      Composed clean [] (textOf span)
  | warn d :
      Composed clean [] (warn d)
  | stamping {α : Type} (m : Stamping α) :
      Composed clean [] (stamping m)

variable {α β : Type}
variable {clean : Prop}
variable {rs rs' : List Hdl.RawLiteral}

/- The first step reads no literals. -/
theorem Composed.before
    {m : Lower α}
    {f : α → Lower β}
    (hm : Composed clean [] m)
    (hf : ∀ a, Composed clean rs (f a)) :
    Composed clean rs (m >>= f) :=
  hm.bind hf

/- The rest reads no literals. -/
theorem Composed.andThen
    {m : Lower α}
    {f : α → Lower β}
    (hm : Composed clean rs m)
    (hf : ∀ a, Composed clean [] (f a)) :
    Composed clean rs (m >>= f) := by
  have hBoth := hm.bind hf
  rwa [List.append_nil] at hBoth

/- A refusal of what is no placeholder. -/
theorem composed_refuse
    {what : String}
    (hHead : what.toList.head? ≠ some 'm')
    (span : Span) :
    Composed clean rs (refuse what span : Lower α) :=
  .fail fun _ => LowerError.not_isMalformed hHead span

/- A refusal that quotes the source. -/
theorem composed_quote
    {what : String → String}
    (hHead : ∀ text, (what text).toList.head? ≠ some 'm')
    (quoted span : Span) :
    Composed clean rs
      (do refuse (what (← textOf quoted)) span : Lower α) :=
  (Composed.textOf quoted).before fun text =>
    composed_refuse (hHead text) span

/- A mark is put on what is kept, and nothing is read. -/
theorem composed_keep
    (e : Expr) :
    Composed clean [] (keep e) :=
  .stamping _

/- A refusal of the intermediate form is passed on as it is. -/
theorem composed_checked
    (r : Except Flaw α) :
    Composed clean [] (checked r) := by
  cases r with
  | ok a => exact .pure a
  | error f => exact .fail fun _ => rfl

theorem composed_node
    (e : Expr) :
    Composed clean [] (node e) :=
  (composed_checked _).before fun _ => composed_keep _

/-
  Lists are lowered from the first element to the last, so
  their literals come in the order of the source.
-/
theorem composed_mapM
    {f : α → Lower β}
    {reads : α → List Hdl.RawLiteral}
    {xs : List α}
    (hf : ∀ x ∈ xs, Composed clean (reads x) (f x)) :
    Composed clean (xs.flatMap reads) (xs.mapM f) := by
  induction xs with
  | nil =>
      rw [List.mapM_nil]
      exact .pure _
  | cons x xs ih =>
      rw [List.forall_mem_cons] at hf
      rw [List.mapM_cons, List.flatMap_cons]
      exact hf.1.bind fun _ => (ih hf.2).andThen fun _ => .pure _

theorem composed_foldlM
    {f : β → α → Lower β}
    {reads : α → List Hdl.RawLiteral}
    {xs : List α}
    (hf : ∀ x ∈ xs, ∀ b, Composed clean (reads x) (f b x))
    (b : β) :
    Composed clean (xs.flatMap reads) (xs.foldlM f b) := by
  induction xs generalizing b with
  | nil =>
      rw [List.foldlM_nil]
      exact .pure b
  | cons x xs ih =>
      rw [List.forall_mem_cons] at hf
      rw [List.foldlM_cons, List.flatMap_cons]
      exact (hf.1 b).bind fun b' => ih hf.2 b'

/- No round of the loop reads literals. -/
theorem composed_rounds
    {f : β → α → Lower β}
    {xs : List α}
    (hf : ∀ x b, Composed clean [] (f b x))
    (b : β) :
    Composed clean [] (xs.foldlM f b) := by
  have hNone : xs.flatMap (fun _ => ([] : List Hdl.RawLiteral)) = [] :=
    List.flatMap_eq_nil_iff.mpr fun _ _ => rfl
  rw [← hNone]
  exact composed_foldlM (fun x _ => hf x) b

end Lower

end Gatework

------------------------------------------------------------
-- Operands and selects
------------------------------------------------------------

namespace Gatework

namespace Lower

variable {clean : Prop}
variable {rs : List Hdl.RawLiteral}
variable {α : Type}

/-
  The literal of an operand was read when the operand was,
  so what gives the operand a width reads none.
-/
theorem composed_ownWidth
    (op : Operand) :
    Composed clean [] (ownWidth op) := by
  cases op with
  | sized e => exact .pure e
  | unsized l => exact composed_keep _

theorem composed_truth
    (op : Operand) :
    Composed clean [] (truth op) := by
  apply (composed_ownWidth op).before
  intro e
  split
  · exact .pure e
  · exact composed_keep _

/-
  Both a wrong width and a literal that is too wide are
  refused, and the text of the source is quoted for it.
-/
theorem composed_fit
    (op : Operand)
    (width : Nat)
    (span : Span) :
    Composed clean [] (fit op width span) := by
  cases op with
  | sized e =>
      change Composed clean [] (if e.width = width then _ else _)
      split
      · exact .pure e
      · exact (Composed.textOf span).before fun _ => .fail fun _ => rfl
  | unsized l =>
      unfold fit
      dsimp only
      cases l.fit? width with
      | some c => exact composed_keep _
      | none => exact .fail fun _ => rfl

/-
  The side with a width gives it to the other one. Without
  one, both take that of the wider literal.
-/
theorem composed_unify
    (a b : Operand)
    (aSpan bSpan : Span) :
    Composed clean [] (unify a b aSpan bSpan) := by
  cases a with
  | sized x =>
      cases b with
      | sized y =>
          change Composed clean [] (if x.width = y.width then _ else _)
          split
          · exact .pure _
          · apply (Composed.textOf aSpan).before
            intro _
            apply (Composed.textOf bSpan).before
            intro _
            exact .fail fun _ => rfl
      | unsized l =>
          exact (composed_fit _ _ bSpan).before fun _ => .pure _
  | unsized l =>
      cases b with
      | sized y =>
          exact (composed_fit _ _ aSpan).before fun _ => .pure _
      | unsized r =>
          apply (composed_fit _ _ aSpan).before
          intro x
          exact (composed_fit _ _ bSpan).before fun _ => .pure _

/- A test that never holds is reported and kept as a constant. -/
theorem composed_equality
    (a b : Operand)
    (op : CmpOp)
    (aSpan bSpan span : Span) :
    Composed clean [] (equality a b op aSpan bSpan span) := by
  unfold equality
  split
  · apply (composed_unify a b aSpan bSpan).before
    intro xy
    exact composed_node _
  · split
    · exact (Composed.warn _).before fun _ => composed_keep _
    · dsimp only
      split <;> exact composed_keep _

/- What is too wide is refused; one part stays what it is. -/
theorem composed_concat
    (parts : List Expr)
    (times : Nat)
    (span : Span) :
    Composed clean [] (concat parts times span) := by
  unfold concat
  dsimp only
  split
  · exact .fail fun _ => rfl
  · split
    · exact .pure _
    · exact composed_node _

theorem composed_complement
    (e : Expr) :
    Composed clean [] (complement e) := by
  unfold complement
  split <;> exact composed_node _

theorem composed_unary
    (op : Hdl.UnaryOp)
    (x : Operand) :
    Composed clean [] (unary op x) := by
  unfold unary
  split
  · exact (composed_truth x).before fun _ => composed_keep _
  · exact (composed_ownWidth x).before fun _ => composed_complement _

theorem composed_bitwise
    (op : GateOp)
    (a b : Operand)
    (aSpan bSpan : Span) :
    Composed clean [] (bitwise op a b aSpan bSpan) :=
  (composed_unify a b aSpan bSpan).before fun _ => composed_node _

/-
  A constant is read, and what follows fails if there is
  none: then it does not matter that no literal was read.
-/
theorem composed_constant
    {e : Hdl.Expr}
    {f : Option Nat → Lower α}
    (hNone : ∀ rs', Composed clean rs' (f none))
    (hSome : ∀ n, Composed clean rs (f (some n))) :
    Composed clean (e.literals ++ rs) (constant e >>= f) := by
  rw [← Hdl.Expr.literals_bare]
  unfold constant
  cases e.bare with
  | literal kind text span =>
      simp only [bind_assoc, pure_bind]
      exact (Composed.literal kind text span).bind fun _ => hSome _
  | _ =>
      simp only [pure_bind]
      exact hNone _

/-
  A bound outside of the signal is refused only after its
  literal was read.
-/
theorem composed_position
    (v : Var)
    (low : Nat)
    (base bound : Hdl.Expr)
    (span : Span) :
    Composed clean bound.literals (position v low base bound span) := by
  rw [← List.append_nil bound.literals]
  apply composed_constant fun _ => .fail fun _ => rfl
  intro n
  dsimp only
  split
  · apply (Composed.textOf span).before
    intro _
    apply (Composed.textOf base.span).before
    intro _
    exact .fail fun _ => rfl
  · exact .pure _

/- Bits are selected from names, between parentheses or not. -/
theorem composed_selectBase
    (base : Hdl.Expr)
    (span : Span) :
    Composed clean base.literals (selectBase base span) := by
  rw [← Hdl.Expr.literals_bare]
  unfold selectBase
  cases base.bare with
  | name name place =>
      apply (Composed.lookup name place).before
      intro v
      apply Composed.before _ fun _ => .pure _
      exact Composed.get.before fun _ => .pure _
  | _ => exact composed_quote (by simp) base.span span

theorem composed_bitSelect
    (base index : Hdl.Expr)
    (span : Span) :
    Composed clean (base.literals ++ index.literals)
      (bitSelect base index span) := by
  apply (composed_selectBase base span).bind
  intro vl
  apply (composed_position _ _ base index span).andThen
  intro i
  exact composed_node _

theorem composed_partSelect
    (base msb lsb : Hdl.Expr)
    (span : Span) :
    Composed clean (base.literals ++ (msb.literals ++ lsb.literals))
      (partSelect base msb lsb span) := by
  apply (composed_selectBase base span).bind
  intro vl
  apply (composed_position _ _ base msb span).bind
  intro m
  apply (composed_position _ _ base lsb span).andThen
  intro l
  exact composed_node _

end Lower

end Gatework

------------------------------------------------------------
-- Expressions
------------------------------------------------------------

namespace Gatework

namespace Lower

variable {clean : Prop}
variable {rs : List Hdl.RawLiteral}

/- What has a width of its own is an operand as it is. -/
theorem Composed.sized
    {m : Lower Expr}
    (hm : Composed clean rs m) :
    Composed clean rs (do return .sized (← m) : Lower Operand) :=
  hm.andThen fun _ => .pure _

theorem composed_operands
    {es : List Hdl.Expr}
    (hEach : ∀ e ∈ es, Composed clean e.literals (operand e)) :
    Composed clean (Hdl.Expr.literalsAll es) (operands es) := by
  induction es with
  | nil => exact .pure []
  | cons e es ih =>
      rw [List.forall_mem_cons] at hEach
      rw [operands, Hdl.Expr.literalsAll]
      apply hEach.1.bind
      intro op
      cases op with
      | sized x => exact (ih hEach.2).andThen fun _ => .pure _
      | unsized l =>
          -- A failure may leave the literals behind it unread.
          exact composed_refuse (by simp) e.span

/-
  In `&&` and `||` the left operand gets its truth before
  the right one is read; elsewhere both are read first.
-/
theorem composed_binary
    {left right : Hdl.Expr}
    (hLeft : Composed clean left.literals (operand left))
    (hRight : Composed clean right.literals (operand right))
    (op : Hdl.BinaryOp)
    (span : Span) :
    Composed clean (left.literals ++ right.literals)
      (operand (.binary left op right span)) := by
  have hLogic : ∀ a gate, Composed clean right.literals (do
      let x ← truth a
      let y ← truth (← operand right)
      return .sized (← node (.gate none gate x y)) :
        Lower Operand) := by
    intro a gate
    apply (composed_truth a).before
    intro x
    apply hRight.andThen
    intro b
    apply (composed_truth b).before
    intro y
    exact (composed_node _).sized
  rw [operand]
  apply hLeft.bind
  intro a
  split
  · exact hLogic a _
  · exact hLogic a _
  · exact hRight.andThen fun b =>
      (composed_equality a b _ _ _ _).sized
  · exact hRight.andThen fun b =>
      (composed_equality a b _ _ _ _).sized
  · exact hRight.andThen fun b =>
      (composed_bitwise _ a b _ _).sized

/-
  The count stands before the elements, which are not read
  when there are no copies to make.
-/
theorem composed_replicate
    (count : Hdl.Expr)
    {elements : List Hdl.Expr}
    (hElements : ∀ e ∈ elements,
      Composed clean e.literals (operand e))
    (span : Span) :
    Composed clean
      (count.literals ++ Hdl.Expr.literalsAll elements)
      (operand (.replicate count elements span)) := by
  rw [operand]
  apply composed_constant
  · exact fun _ => composed_quote (by simp) count.span count.span
  · intro n
    cases n with
    | zero => exact composed_quote (by simp) count.span count.span
    | succ n =>
        exact (composed_operands hElements).andThen fun parts =>
          (composed_concat parts (n + 1) span).sized

/- Reductions are refused. -/
theorem composed_unaryOperand
    {x : Hdl.Expr}
    (hx : Composed clean x.literals (operand x))
    (op : Hdl.UnaryOp)
    (span : Span) :
    Composed clean x.literals (operand (.unary op x span)) := by
  have hUnary : Composed clean x.literals (do
      return .sized (← unary op (← operand x)) : Lower Operand) :=
    hx.andThen fun a => (composed_unary op a).sized
  cases op with
  | logNot =>
      rw [operand]
      exact hUnary
  | bitNot =>
      rw [operand]
      exact hUnary
  | _ =>
      rw [operand]
      · exact composed_refuse (by simp) span
      · exact nofun
      · exact nofun

/-
  The only places of an expression that depend on options are
  its names and literals, and a clean one has no placeholder
  to refuse.
-/
theorem composed_operand
    {e : Hdl.Expr}
    (hClean : clean → e.Clean) :
    Composed clean e.literals (operand e) := by
  induction e with
  | name n span =>
      rw [operand]
      exact (Composed.lookup n span).before fun _ =>
        (composed_keep _).sized
  | literal kind text span =>
      rw [operand]
      apply (Composed.literal kind text span).andThen
      intro l
      split
      · exact (composed_keep _).sized
      · exact .pure _
  | index base i span _ _ =>
      rw [operand]
      exact (composed_bitSelect base i span).sized
  | slice base msb lsb span _ _ _ =>
      rw [operand]
      exact (composed_partSelect base msb lsb span).sized
  | concat elements span hElements =>
      rw [operand]
      have hEach : ∀ e ∈ elements,
          Composed clean e.literals (operand e) :=
        fun e he => hElements e he fun h =>
          match hClean h with
          | .concat _ hAll => hAll e he
      exact (composed_operands hEach).andThen fun parts =>
        (composed_concat parts 1 span).sized
  | replicate count elements span _ hElements =>
      have hEach : ∀ e ∈ elements,
          Composed clean e.literals (operand e) :=
        fun e he => hElements e he fun h =>
          match hClean h with
          | .replicate _ _ hAll => hAll e he
      exact composed_replicate count hEach span
  | unary op x span hx =>
      refine composed_unaryOperand (hx fun h => ?_) op span
      cases hClean h with
      | unary hx => exact hx
  | binary left op right span hLeft hRight =>
      refine composed_binary (hLeft fun h => ?_)
        (hRight fun h => ?_) op span
      · cases hClean h with
        | binary hLeft _ => exact hLeft
      · cases hClean h with
        | binary _ hRight => exact hRight
  | ternary c t f span hc ht hf =>
      have hParts : clean → c.Clean ∧ t.Clean ∧ f.Clean :=
        fun h => match hClean h with
          | .ternary hc ht hf => ⟨hc, ht, hf⟩
      rw [operand]
      apply (hc fun h => (hParts h).1).bind
      intro c'
      apply (composed_truth c').before
      intro cond
      apply (ht fun h => (hParts h).2.1).bind
      intro a
      apply (hf fun h => (hParts h).2.2).andThen
      intro b
      apply (composed_unify a b _ _).before
      intro xy
      exact (composed_node _).sized
  | paren inner span hInner =>
      rw [operand]
      apply hInner
      intro h
      cases hClean h with
      | paren hInner => exact hInner
  | broken span =>
      rw [operand]
      exact .fail fun h => nomatch hClean h

theorem composed_expr
    {e : Hdl.Expr}
    (hClean : clean → e.Clean) :
    Composed clean e.literals (expr e) :=
  (composed_operand hClean).andThen composed_ownWidth

theorem composed_exprTo
    {e : Hdl.Expr}
    (hClean : clean → e.Clean)
    (width : Nat) :
    Composed clean e.literals (exprTo e width) :=
  (composed_operand hClean).andThen fun op =>
    composed_fit op width e.span

theorem composed_cond
    {e : Hdl.Expr}
    (hClean : clean → e.Clean) :
    Composed clean e.literals (cond e) :=
  (composed_operand hClean).andThen composed_truth

/-
  A target names a signal or selects from one. Any other is
  refused before one of its literals is read.
-/
theorem composed_target
    (e : Hdl.Expr) :
    Composed clean e.literals (target e) := by
  rw [← Hdl.Expr.literals_bare]
  unfold target
  cases e.bare with
  | name n span =>
      exact (Composed.lookup n span).before fun _ => .pure _
  | index base i span => exact composed_bitSelect base i span
  | slice base msb lsb span =>
      exact composed_partSelect base msb lsb span
  | _ => exact composed_quote (by simp) _ _

end Lower

end Gatework

------------------------------------------------------------
-- Statements
------------------------------------------------------------

namespace Gatework

namespace Lower

variable {clean : Prop}

/-
  The width of the target is known before the value is read.
-/
theorem composed_assign
    (lhs : Hdl.Expr)
    {value : Hdl.Expr}
    (hValue : clean → value.Clean) :
    Composed clean (lhs.literals ++ value.literals)
      (assign lhs value) := by
  apply (composed_target lhs).bind
  intro t
  exact (composed_exprTo hValue t.width).andThen fun _ =>
    composed_checked _

/- A literal is lowered as an operand, any other label refused. -/
theorem composed_caseLabel
    {label : Hdl.Expr}
    (hLabel : clean → label.Clean)
    (width : Nat) :
    Composed clean label.literals (caseLabel label width) := by
  unfold caseLabel
  split
  · apply (composed_operand hLabel).andThen
    intro op
    dsimp only
    split
    · exact .pure _
    · exact (Composed.textOf _).before fun _ => .fail fun _ => rfl
  · exact composed_quote (by simp) _ _

theorem composed_checkCaseKind
    (kind : Hdl.CaseKind)
    (span : Span) :
    Composed clean [] (checkCaseKind kind span) := by
  cases kind with
  | exact => exact .pure ()
  | casez => exact composed_refuse (by simp) span
  | casex => exact composed_refuse (by simp) span

theorem composed_branch
    (c : Expr)
    (body : Stmt)
    (otherwise : Option Stmt) :
    Composed clean [] (branch c body otherwise) :=
  (composed_checked _).before fun _ => .pure _

/-
  An empty statement leaves nothing, but what stands behind
  it is read.
-/
theorem composed_stmts
    {ss : List Hdl.Stmt}
    (hEach : ∀ s ∈ ss, Composed clean s.literals (stmt s)) :
    Composed clean (Hdl.Stmt.literalsAll ss) (stmts ss) := by
  induction ss with
  | nil => exact .pure []
  | cons s ss ih =>
      rw [List.forall_mem_cons] at hEach
      rw [stmts, Hdl.Stmt.literalsAll]
      apply hEach.1.bind
      intro found
      cases found with
      | none => exact ih hEach.2
      | some s' =>
          apply (Composed.textOf _).before
          intro text
          exact (ih hEach.2).andThen fun _ => .pure _

/- Labels of a default are not read. -/
theorem composed_arms
    (width : Nat)
    {items : List (Hdl.CaseArm Hdl.Stmt)}
    (hLabels : ∀ arm ∈ items, ∀ label ∈ arm.labels,
      clean → label.Clean)
    (hEach : ∀ arm ∈ items,
      Composed clean arm.body.literals (stmt arm.body))
    (seen : Bool) :
    Composed clean (Hdl.Stmt.literalsArms items)
      (arms width seen items) := by
  induction items generalizing seen with
  | nil => exact .pure []
  | cons arm items ih =>
      rw [List.forall_mem_cons] at hLabels hEach
      rw [arms, Hdl.Stmt.literalsArms]
      apply hEach.1.bind
      intro body
      dsimp only
      split
      · split
        · exact .fail fun _ => rfl
        · exact (ih hLabels.2 hEach.2 true).andThen fun _ => .pure _
      · apply (composed_mapM fun label hLabel =>
          composed_caseLabel (hLabels.1 label hLabel) width).bind
        intro cs
        exact (ih hLabels.2 hEach.2 seen).andThen fun _ => .pure _

/- A clean statement has no placeholder to refuse, either. -/
theorem composed_stmt
    {s : Hdl.Stmt}
    (hClean : clean → s.Clean) :
    Composed clean s.literals (stmt s) := by
  induction s with
  | blocking t v span =>
      have hValue : clean → v.Clean := fun h =>
        match hClean h with
        | .blocking _ hValue => hValue
      rw [stmt]
      exact (composed_assign t hValue).andThen fun _ => .pure _
  | nonBlocking t v span =>
      rw [stmt]
      exact composed_refuse (by simp) span
  | block label body span hBody =>
      have hEach : ∀ s ∈ body, Composed clean s.literals (stmt s) :=
        fun s hs => hBody s hs fun h =>
          match hClean h with
          | .block _ hAll => hAll s hs
      rw [stmt]
      exact (composed_stmts hEach).andThen fun _ => .pure _
  | ifThen c t span hThen =>
      have hParts : clean → c.Clean ∧ t.Clean := fun h =>
        match hClean h with
        | .ifThen hc ht => ⟨hc, ht⟩
      rw [stmt]
      apply (composed_cond fun h => (hParts h).1).bind
      intro c'
      apply (hThen fun h => (hParts h).2).andThen
      intro t'
      exact (composed_branch _ _ _).before fun _ => .pure _
  | ifElse c t e span hThen hElse =>
      have hParts : clean → c.Clean ∧ t.Clean ∧ e.Clean := fun h =>
        match hClean h with
        | .ifElse hc ht he => ⟨hc, ht, he⟩
      rw [stmt]
      apply (composed_cond fun h => (hParts h).1).bind
      intro c'
      apply (hThen fun h => (hParts h).2.1).bind
      intro t'
      apply (hElse fun h => (hParts h).2.2).andThen
      intro e'
      exact (composed_branch _ _ _).before fun _ => .pure _
  | case kind selector items span hBodies =>
      have hParts : clean → selector.Clean ∧
          ∀ arm ∈ items, arm.Labelled ∧ arm.body.Clean := fun h =>
        match hClean h with
        | .case hSelector hLabelled hBody =>
            ⟨hSelector, fun arm hArm =>
              ⟨hLabelled arm hArm, hBody arm hArm⟩⟩
      have hEach : ∀ arm ∈ items,
          Composed clean arm.body.literals (stmt arm.body) :=
        fun arm hArm => hBodies arm hArm fun h =>
          ((hParts h).2 arm hArm).2
      rw [stmt]
      apply (composed_checkCaseKind kind span).before
      intro _
      apply (composed_expr fun h => (hParts h).1).bind
      intro selector'
      apply (composed_arms _ (fun arm hArm label hLabel h =>
        ((hParts h).2 arm hArm).1.clean label hLabel) hEach _).andThen
      intro arms'
      exact (composed_checked _).before fun _ => .pure _
  | onEvent events body span _ =>
      rw [stmt]
      exact composed_refuse (by simp) span
  | empty span =>
      rw [stmt]
      exact .pure none
  | broken span =>
      rw [stmt]
      exact .fail fun h => nomatch hClean h

end Lower

end Gatework

------------------------------------------------------------
-- Declarations
------------------------------------------------------------

namespace Gatework

namespace Lower

variable {clean : Prop}

/- A bound that is no constant is refused. -/
theorem composed_bound
    (e : Hdl.Expr) :
    Composed clean e.literals (bound e) := by
  rw [← List.append_nil e.literals]
  apply composed_constant
  · exact fun _ => composed_quote (by simp) e.span e.span
  · exact fun _ => .pure _

/- A signal without a range is one bit. -/
theorem composed_range
    (r : Option Hdl.Range) :
    Composed clean (r.elim [] Hdl.Range.literals) (range r) := by
  cases r with
  | none => exact .pure _
  | some r =>
      apply (composed_bound r.msb).bind
      intro msb
      apply (composed_bound r.lsb).andThen
      intro lsb
      dsimp only
      split
      · exact composed_refuse (by simp) r.span
      · exact .pure _

/- A range is read once for each of its names. -/
theorem composed_declarePin
    (decl : Hdl.PinDecl)
    (name : String) :
    Composed clean (decl.range.elim [] Hdl.Range.literals)
      (declarePin decl name) := by
  apply (composed_range decl.range).andThen
  intro wb
  apply (composed_checked _).before
  intro v
  exact (Composed.declare _ _ _).before fun _ => .pure _

/- A name that the head does not list is no pin. -/
theorem composed_bindPin
    (listed : List String)
    (decl : Hdl.PinDecl)
    (found : BodyPins)
    (name : String) :
    Composed clean (decl.range.elim [] Hdl.Range.literals)
      (bindPin listed decl found name) := by
  unfold bindPin
  split
  · exact (composed_declarePin decl name).andThen
      fun _ => .pure _
  · exact composed_refuse (by simp) _

/- A net may give a pin its kind; any other is declared. -/
theorem composed_bindNet
    (decl : Hdl.NetDecl)
    (width : Nat)
    (bounds : Option (Nat × Nat))
    (found : BodyPins)
    (entry : Hdl.DeclName) :
    Composed clean [] (bindNet decl width bounds found entry) := by
  apply Composed.get.before
  intro p
  dsimp only
  split
  · exact .pure _
  · apply (composed_checked _).before
    intro v
    exact (Composed.declare _ _ _).before fun _ => .pure _

/-
  What drives signals is left for later, when all of them
  are declared.
-/
theorem composed_bindItem
    (listed : List String)
    (found : BodyPins)
    (item : Hdl.Item) :
    Composed clean item.boundLiterals
      (bindItem listed found item) := by
  cases item with
  | pins decl =>
      exact composed_foldlM
        (fun name _ found' => composed_bindPin listed decl found' name)
        found
  | net decl =>
      apply (composed_range decl.range).andThen
      intro wb
      exact composed_rounds (fun entry found' =>
        composed_bindNet decl wb.1 wb.2 found' entry) found
  | _ => exact .pure found

/- Each name of the head has to be declared in the body. -/
theorem composed_listedPins
    (span : Span)
    (names : List String)
    (pins : NameMap Pin) :
    Composed clean [] (listedPins span names pins) := by
  induction names generalizing pins with
  | nil => exact .pure []
  | cons name names ih =>
      rw [listedPins]
      split
      · exact composed_refuse (by simp) span
      · exact (ih _).before fun _ => .pure _

theorem composed_bind
    (decl : Hdl.ModuleDecl) :
    Composed clean
      (decl.header.literals ++
        decl.items.flatMap Hdl.Item.boundLiterals)
      (bind decl) := by
  have hBody : ∀ listed (declared : List (List Pin)), Composed clean
      (decl.items.flatMap Hdl.Item.boundLiterals) (do
        let found ← decl.items.foldlM (bindItem listed) {}
        let others ← listedPins decl.span listed found.pins
        return declared.flatten ++ others) := by
    intro listed declared
    apply (composed_foldlM (fun item _ found =>
      composed_bindItem listed found item) _).andThen
    intro found
    exact (composed_listedPins _ _ _).before fun _ => .pure _
  unfold bind
  cases decl.header with
  | declared pins =>
      apply (composed_mapM fun pin _ =>
        composed_mapM fun name _ => composed_declarePin pin name).bind
      exact hBody []
  | named names => exact hBody names []
  | empty => exact hBody [] []

end Lower

end Gatework

------------------------------------------------------------
-- Modules
------------------------------------------------------------

namespace Gatework

namespace Lower

variable {clean : Prop}
variable {rs : List Hdl.RawLiteral}
variable {α : Type}

/- A bit that is driven already is refused. -/
theorem composed_claim
    (d : Draft)
    (name : String)
    (wanted : Claim) :
    Composed clean [] (claim d name wanted) := by
  unfold claim
  dsimp only
  split
  · exact .fail fun _ => rfl
  · exact .pure _

/- The signal is claimed before the value is kept. -/
theorem composed_continuous
    (d : Draft)
    (lhs : Hdl.Expr)
    {value : Hdl.Expr}
    (hValue : clean → value.Clean)
    (span : Span) :
    Composed clean (lhs.literals ++ value.literals)
      (continuous d lhs value span) := by
  apply (composed_assign lhs hValue).andThen
  intro a
  apply (Composed.textOf span).before
  intro text
  apply (composed_claim _ _ _).before
  intro d'
  dsimp only
  split
  · exact (composed_keep _).before fun _ => .pure _
  · apply (composed_keep _).before
    intro rhs
    split <;> exact .pure _

/- The statements of a block are lowered one by one. -/
theorem composed_process?
    {body : Hdl.Stmt}
    (hBody : clean → body.Clean) :
    Composed clean body.literals (process? body) := by
  unfold process?
  split
  case h_1 =>
      apply (composed_stmts fun s hs => composed_stmt fun h =>
        match hBody h with
        | .block _ hAll => hAll s hs).andThen
      intro parts
      exact (Composed.textOf _).before fun _ => .pure _
  case h_2 =>
      apply (composed_stmt hBody).andThen
      intro found
      split
      · exact .pure none
      · exact (Composed.textOf _).before fun _ => .pure _

/- Whatever a process assigns, it drives the whole signal. -/
theorem composed_drive
    (p : Process)
    (span : Span)
    (d : Draft)
    (entry : String × Slot) :
    Composed clean [] (drive p span d entry) := by
  apply (composed_claim _ _ _).before
  intro d'
  apply (composed_keep _).before
  intro value
  exact (composed_checked _).before fun _ => .pure _

/-
  What a signal has where it is not assigned depends on the
  options, but not which literals are read.
-/
theorem composed_combinational
    (d : Draft)
    {body : Hdl.Stmt}
    (hBody : clean → body.Clean) :
    Composed clean body.literals (combinational d body) := by
  apply (composed_process? hBody).andThen
  intro found
  split
  · exact .pure d
  case h_2 p =>
      apply Composed.fallback (f := fun fallback => do
        let slots ← stamping (p.body.flatten fallback)
        slots.foldlM (drive p body.span) _)
      intro fallback
      apply (Composed.stamping _).before
      intro slots
      exact composed_rounds
        (fun entry d' => composed_drive p _ d' entry) _

/- A declared value is an assignment to the name. -/
theorem composed_tie
    (d : Draft)
    {entry : Hdl.DeclName}
    (hInit : clean → ∀ value ∈ entry.init, value.Clean) :
    Composed clean (entry.init.elim [] Hdl.Expr.literals)
      (tie d entry) := by
  unfold tie
  cases hFound : entry.init with
  | none => exact .pure d
  | some value =>
      exact composed_continuous d (.name entry.name entry.span)
        (fun h => hInit h value hFound) entry.span

/-
  Items of other kinds than assignments and combinational
  processes read nothing, since they are refused.
-/
theorem composed_item
    (d : Draft)
    {item : Hdl.Item}
    (hClean : clean → item.Clean) :
    Composed clean item.logicLiterals (Lower.item d item) := by
  cases item with
  | net decl =>
      apply composed_foldlM
      intro entry hEntry d'
      apply composed_tie
      intro h
      cases hClean h with
      | net hDecl => exact (hDecl.names entry hEntry).init
  | pins decl => exact .pure d
  | assign lhs value span =>
      apply composed_continuous
      intro h
      cases hClean h with
      | assign _ hValue => exact hValue
  | alwaysComb body span =>
      apply composed_combinational
      intro h
      cases hClean h with
      | alwaysComb hBody => exact hBody
  | always body span =>
      cases body with
      | onEvent events inner place =>
          change Composed clean inner.literals
            (if events.isCombinational then _ else _)
          split
          · apply composed_combinational
            intro h
            cases hClean h with
            | always hBody =>
                cases hBody with
                | onEvent _ hInner => exact hInner
          · exact composed_refuse (by simp) place
      | _ => exact composed_refuse (by simp) _
  | alwaysFf events body span => exact composed_refuse (by simp) span
  | alwaysLatch body span => exact composed_refuse (by simp) span
  | broken span => exact .fail fun h => nomatch hClean h

/-
  The scope is new for each module, so the signals of one
  are unknown in the next.
-/
theorem composed_circuit
    {decl : Hdl.ModuleDecl}
    (hDecl : clean → decl.Clean) :
    Composed clean decl.literals (circuit decl) := by
  apply Composed.fresh.before
  intro _
  apply (composed_bind decl).bind
  intro pins
  apply (composed_foldlM (fun item hItem d =>
    composed_item d fun h => (hDecl h).items item hItem) _).andThen
  intro draft
  exact Composed.get.before fun _ => .pure _

/- Of two modules with one name the second is refused. -/
theorem composed_circuits
    {decls : List Hdl.ModuleDecl}
    (hDecls : clean → ∀ decl ∈ decls, decl.Clean)
    (seen : NameMap Span) :
    Composed clean (decls.flatMap Hdl.ModuleDecl.literals)
      (circuits decls seen) := by
  induction decls generalizing seen with
  | nil => exact .pure []
  | cons decl decls ih =>
      rw [circuits, List.flatMap_cons]
      split
      · exact .fail fun _ => rfl
      · apply (composed_circuit fun h =>
          hDecls h decl (List.mem_cons_self ..)).bind
        intro c
        exact (ih (fun h d hd =>
          hDecls h d (List.mem_cons_of_mem _ hd)) _).andThen
            fun _ => .pure _

end Lower

end Gatework
