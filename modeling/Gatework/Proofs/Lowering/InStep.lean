import Gatework.Lowering.Circuit
import Gatework.Proofs.Flatten.Later
import Gatework.Proofs.Hdl.Names
import Gatework.Proofs.Lowering.Context
import Gatework.Proofs.Stmt.Typing

/-
  Lowering the same source again, later.

  What an expression or a statement is lowered to depends on
  the declarations and on nothing else that was lowered
  before: a second run, from a state with the same
  declarations, fails if the first one does, and otherwise
  gives the same with later marks.

  Since this compares two runs, it does not follow from what
  `Ensures` says of one, nor from the steps that a run is
  composed of: the trees that go from one step to the next are
  not the same in both.

  Key definitions include:
    * `Progress.Ahead`
    * `Lower.InStep`

  Key theorems include:
    * `Lower.inStep_operand`
    * `Lower.inStep_assign`
    * `Lower.inStep_stmt` and `Lower.inStep_process?`
-/

------------------------------------------------------------
-- Two runs
------------------------------------------------------------

namespace Gatework

/- The declarations are the same and marks have gone on. -/
structure Progress.Ahead
    (d : Nat)
    (p p' : Progress) :
    Prop where
  agrees : p.scope.Agrees p'.scope
  marks_eq : p'.marks = p.marks + d

namespace Lower

variable {α β γ δ : Type}
variable {d : Nat}

/-
  Two computations of which both fail or both succeed, and
  what the second one gives is known from the first one.
-/
def InStep
    (d : Nat)
    (g : α → β)
    (m : Lower α)
    (m' : Lower β) :
    Prop :=
  ∀ s p p', p.Ahead d p' →
    match m s p, m' s p' with
    | (.ok a, q), (.ok b, q') => b = g a ∧ q.Ahead d q'
    | (.error _, _), (.error _, _) => True
    | _, _ => False

theorem inStep_pure
    {g : α → β}
    {a : α}
    {b : β}
    (hb : b = g a) :
    InStep d g (pure a) (pure b) :=
  fun _ _ _ hp => ⟨hb, hp⟩

theorem InStep.bind
    {g : α → β}
    {h : γ → δ}
    {m : Lower α}
    {m' : Lower β}
    {f : α → Lower γ}
    {f' : β → Lower δ}
    (hm : InStep d g m m')
    (hf : ∀ a, InStep d h (f a) (f' (g a))) :
    InStep d h (m >>= f) (m' >>= f') := by
  intro s p p' hp
  have hFirst := hm s p p' hp
  rw [bind_apply, bind_apply]
  generalize m s p = run at hFirst
  generalize m' s p' = run' at hFirst
  rcases run with ⟨result, q⟩
  rcases run' with ⟨result', q'⟩
  cases result with
  | error e =>
      cases result' with
      | error e' => trivial
      | ok b => exact hFirst.elim
  | ok a =>
      cases result' with
      | error e' => exact hFirst.elim
      | ok b =>
          rcases hFirst with ⟨rfl, hq⟩
          exact hf a s q q' hq

/- A computation that fails. -/
def Fails
    (m : Lower α) :
    Prop :=
  ∀ s p, ∃ e q, m s p = (.error e, q)

theorem fails_fail
    (e : LowerError) :
    Fails (fail e : Lower α) :=
  fun _ p => ⟨e, p, rfl⟩

theorem fails_refuse
    (what : String)
    (span : Span) :
    Fails (refuse what span : Lower α) :=
  fails_fail _

theorem Fails.after
    {f : α → Lower β}
    (hf : ∀ a, Fails (f a))
    (m : Lower α) :
    Fails (m >>= f) := by
  intro s p
  rw [bind_apply]
  generalize m s p = run
  rcases run with ⟨result, q⟩
  cases result with
  | error e => exact ⟨e, q, rfl⟩
  | ok a => exact hf a s q

theorem Fails.inStep
    {g : α → α}
    {m : Lower α}
    (hm : Fails m) :
    InStep d g m m := by
  intro s p p' _
  rcases hm s p with ⟨e, q, hRun⟩
  rcases hm s p' with ⟨e', q', hRun'⟩
  rw [hRun, hRun']
  trivial

/- The texts that go into a message come before a failure. -/
theorem fails_texts
    {f : String → Lower α}
    (hf : ∀ text, Fails (f text))
    (span : Span) :
    Fails (textOf span >>= f) :=
  Fails.after hf (textOf span)

theorem inStep_read :
    InStep d id (read : Lower Setting) read :=
  fun _ _ _ hp => ⟨rfl, hp⟩

theorem inStep_get
    {g : α → β}
    {f : Progress → Lower α}
    {f' : Progress → Lower β}
    (hf : ∀ p p', p.Ahead d p' → InStep d g (f p) (f' p')) :
    InStep d g (get >>= f) (get >>= f') :=
  fun s p p' hp => hf p p' hp s p p' hp

theorem inStep_modify
    {f f' : Progress → Progress}
    (hf : ∀ p p', p.Ahead d p' → (f p).Ahead d (f' p')) :
    InStep d id (modify f : Lower Unit) (modify f') :=
  fun _ p p' hp => ⟨rfl, hf p p' hp⟩

theorem inStep_log
    (message message' : String) :
    InStep d id (log message) (log message') :=
  inStep_modify fun _ _ hp => ⟨hp.agrees, hp.marks_eq⟩

theorem inStep_warn
    (finding finding' : Diagnostic) :
    InStep d id (warn finding) (warn finding') :=
  (inStep_log _ _).bind fun _ =>
    inStep_modify fun _ _ hp => ⟨hp.agrees, hp.marks_eq⟩

theorem inStep_textOf
    (span : Span) :
    InStep d id (textOf span) (textOf span) :=
  inStep_read.bind fun _ => inStep_pure rfl

theorem inStep_checked
    {g : α → β}
    {r : Except Flaw α}
    {r' : Except Flaw β}
    (hOk : ∀ a, r = .ok a → r' = .ok (g a))
    (hFlaw : ∀ b, r' = .ok b → ∃ a, r = .ok a) :
    InStep d g (checked r) (checked r') := by
  cases r with
  | ok a =>
      rw [hOk a rfl]
      exact inStep_pure rfl
  | error f =>
      cases r' with
      | ok b =>
          rcases hFlaw b rfl with ⟨a, ha⟩
          cases ha
      | error f' => exact fun _ _ _ _ => trivial

/- A check that is passed by both or by none. -/
theorem inStep_check
    {r r' : Except Flaw Unit}
    (hSame : r' = .ok () ↔ r = .ok ()) :
    InStep d id (checked r) (checked r') :=
  inStep_checked (fun _ h => hSame.mpr h)
    (fun _ h => ⟨(), hSame.mp h⟩)

theorem inStep_stamping
    {g : α → β}
    {m : Stamping α}
    {m' : Stamping β}
    (hm : Stamping.InStep d g m m') :
    InStep d g (stamping m) (stamping m') := by
  intro s p p' hp
  have hRun := hm p.marks
  rw [← hp.marks_eq] at hRun
  change (m' p'.marks).1 = g (m p.marks).1 ∧
    Progress.Ahead d { p with marks := (m p.marks).2 }
      { p' with marks := (m' p'.marks).2 }
  rw [hRun]
  exact ⟨rfl, hp.agrees, rfl⟩

theorem inStep_keep
    (e : Expr) :
    InStep d (Expr.later d) (keep e) (keep (e.later d)) :=
  inStep_stamping (Expr.stamp_later e)

theorem inStep_mapM
    {g : β → δ}
    {f : α → Lower β}
    {f' : α → Lower δ}
    {xs : List α}
    (hf : ∀ x ∈ xs, InStep d g (f x) (f' x)) :
    InStep d (List.map g) (xs.mapM f) (xs.mapM f') := by
  induction xs with
  | nil =>
      rw [List.mapM_nil, List.mapM_nil]
      exact inStep_pure rfl
  | cons x xs ih =>
      rw [List.mapM_cons, List.mapM_cons]
      refine (hf x (List.mem_cons_self ..)).bind fun y => ?_
      refine (ih fun z hz =>
        hf z (List.mem_cons_of_mem _ hz)).bind fun ys => ?_
      exact inStep_pure rfl

end Lower

end Gatework

------------------------------------------------------------
-- Names, literals and nodes
------------------------------------------------------------

namespace Gatework

namespace Lower

variable {d : Nat}

/-
  A name is reported once only, so one run may report what
  the other one has reported before.
-/
theorem inStep_assume
    (name : String)
    (span : Span) :
    InStep d id (assume name span) (assume name span) := by
  have hRuns : ∀ s p, ∃ q, assume name span s p = (.ok (), q) ∧
      q.scope.signals = p.scope.signals ∧
      q.scope.ranges = p.scope.ranges ∧ q.marks = p.marks := by
    intro s p
    unfold assume
    rw [bind_apply]
    change ∃ q, (if name ∈ p.scope.implicit then pure () else _ :
      Lower Unit) s p = _ ∧ _
    split
    · exact ⟨p, rfl, rfl, rfl, rfl⟩
    · exact ⟨_, rfl, rfl, rfl, rfl⟩
  intro s p p' hp
  rcases hRuns s p with ⟨q, hRun, hSignals, hRanges, hMarks⟩
  rcases hRuns s p' with ⟨q', hRun', hSignals', hRanges', hMarks'⟩
  rw [hRun, hRun']
  refine ⟨rfl, ⟨?_, ?_⟩, ?_⟩
  · rw [hSignals, hSignals', hp.agrees.1]
  · rw [hRanges, hRanges', hp.agrees.2]
  · rw [hMarks, hMarks', hp.marks_eq]

theorem inStep_lookup
    (name : String)
    (span : Span) :
    InStep d id (lookup name span) (lookup name span) := by
  refine inStep_get fun p p' hp => ?_
  rw [hp.agrees.1]
  cases p.scope.signals.find? name with
  | some v => exact inStep_pure rfl
  | none =>
      refine inStep_read.bind fun s => ?_
      dsimp only [id]
      split
      · exact Fails.inStep (fails_fail _)
      · exact (inStep_assume name span).bind
          fun _ => inStep_pure rfl

theorem inStep_lowBound
    (name : String) :
    InStep d id (lowBound name) (lowBound name) := by
  refine inStep_get fun p p' hp => ?_
  rw [hp.agrees.2]
  exact inStep_pure rfl

theorem inStep_literal
    (kind : Hdl.LiteralKind)
    (text : String)
    (span : Span) :
    InStep d id (literal kind text span)
      (literal kind text span) := by
  refine inStep_read.bind fun s => ?_
  dsimp only [id]
  split
  · exact Fails.inStep (fails_fail _)
  · split
    · exact (inStep_log _ _).bind fun _ => inStep_pure rfl
    · exact inStep_pure rfl

end Lower

/- A later node is checked alike. -/
theorem Expr.checkNode_later
    {d : Nat}
    (e : Expr) :
    (e.later d).checkNode = .ok () ↔ e.checkNode = .ok () := by
  cases e with
  | const m c => exact Iff.rfl
  | var m v => exact Iff.rfl
  | not m x => simp [later, checkNode, checkNot]
  | gate m op a b => simp [later, checkNode, checkSameWidth]
  | compare m op a b => simp [later, checkNode, checkSameWidth]
  | mux m s t f =>
      rw [later, checkNode, checkNode, checkMux, checkMux,
        width_later]
      split
      · simp [checkSameWidth]
      · simp
  | bit m b i => simp [later, checkNode, checkBit]
  | part m b h l => simp [later, checkNode, checkPart]
  | concat m parts =>
      simp [later, laterAll_eq_map, checkNode, checkConcat]

theorem Expr.make_eq_ok_iff_checkNode
    {e e' : Expr} :
    e.make = .ok e' ↔ e.checkNode = .ok () ∧ e = e' := by
  unfold make
  rw [bind_eq_ok_iff]
  constructor
  · rintro ⟨_, hCheck, hSame⟩
    exact ⟨hCheck, Except.ok.inj hSame⟩
  · rintro ⟨hCheck, rfl⟩
    exact ⟨(), hCheck, rfl⟩

namespace Lower

variable {d : Nat}

theorem inStep_node
    (e : Expr) :
    InStep d (Expr.later d) (node e) (node (e.later d)) := by
  refine InStep.bind (g := Expr.later d) ?_ inStep_keep
  apply inStep_checked
  · intro x hx
    rw [Expr.make_eq_ok_iff_checkNode] at hx ⊢
    exact ⟨(Expr.checkNode_later e).mpr hx.1,
      congrArg (Expr.later d) hx.2⟩
  · intro x hx
    rw [Expr.make_eq_ok_iff_checkNode] at hx
    exact ⟨e, Expr.make_eq_ok_iff_checkNode.mpr
      ⟨(Expr.checkNode_later e).mp hx.1, rfl⟩⟩

end Lower

end Gatework

------------------------------------------------------------
-- Operands
------------------------------------------------------------

namespace Gatework

/- The operand with a tree that was built later. -/
def Operand.later
    (d : Nat) :
    Operand → Operand
  | .sized e => .sized (e.later d)
  | .unsized l => .unsized l

/- Two expressions, both of them later. -/
def Expr.laterPair
    (d : Nat)
    (pair : Expr × Expr) :
    Expr × Expr :=
  (pair.1.later d, pair.2.later d)

namespace Lower

variable {d : Nat}

theorem inStep_ownWidth
    (op : Operand) :
    InStep d (Expr.later d) (ownWidth op) (ownWidth (op.later d)) := by
  cases op with
  | sized e => exact inStep_pure rfl
  | unsized l => exact inStep_keep (.const none l.toConst)

theorem inStep_truth
    (op : Operand) :
    InStep d (Expr.later d) (truth op) (truth (op.later d)) := by
  refine (inStep_ownWidth op).bind fun e => ?_
  rw [Expr.width_later, Expr.equalsConst_later]
  split
  · exact inStep_pure rfl
  · exact inStep_keep (Expr.neg (e.equalsConst 0))

theorem inStep_fit
    (op : Operand)
    (width : Nat)
    (span : Span) :
    InStep d (Expr.later d) (fit op width span)
      (fit (op.later d) width span) := by
  cases op with
  | sized e =>
      rw [Operand.later, fit, fit, Expr.width_later]
      split
      · exact inStep_pure rfl
      · exact Fails.inStep
          (fails_texts (fun _ => fails_fail _) span)
  | unsized l =>
      rw [Operand.later, fit]
      split
      · exact inStep_keep (.const none _)
      · exact Fails.inStep (fails_fail _)

theorem inStep_unify
    (a b : Operand)
    (aSpan bSpan : Span) :
    InStep d (Expr.laterPair d) (unify a b aSpan bSpan)
      (unify (a.later d) (b.later d) aSpan bSpan) := by
  cases a with
  | sized x =>
      cases b with
      | sized y =>
          rw [Operand.later, Operand.later, unify, unify,
            Expr.width_later, Expr.width_later]
          split
          · exact inStep_pure rfl
          · exact Fails.inStep
              (fails_texts (fun _ =>
                fails_texts (fun _ => fails_fail _) bSpan) aSpan)
      | unsized r =>
          rw [Operand.later, Operand.later, unify, unify,
            Expr.width_later]
          exact (inStep_fit (.unsized r) x.width bSpan).bind
            fun y => inStep_pure rfl
  | unsized l =>
      cases b with
      | sized y =>
          rw [Operand.later, Operand.later, unify, unify,
            Expr.width_later]
          exact (inStep_fit (.unsized l) y.width aSpan).bind
            fun x => inStep_pure rfl
      | unsized r =>
          refine (inStep_fit (.unsized l) _ aSpan).bind fun x => ?_
          exact (inStep_fit (.unsized r) _ bSpan).bind
            fun y => inStep_pure rfl

end Lower

namespace Operand

variable {d : Nat}

theorem subject?_later
    (a : Operand) :
    (a.later d).subject? = a.subject?.map (Expr.later d) := by
  cases a with
  | unsized l => rfl
  | sized e => cases e <;> rfl

theorem constant?_later
    (width : Nat)
    (a : Operand) :
    (a.later d).constant? width = a.constant? width := by
  cases a with
  | unsized l => rfl
  | sized e => rw [later, constant?, constant?, Expr.asConst?_later]

/- A test of a later signal or select. -/
theorem test?_later
    (a b : Operand) :
    (a.later d).test? (b.later d) =
      (a.test? b).map fun t => (t.1.later d, t.2) := by
  unfold test?
  rw [subject?_later, subject?_later]
  cases a.subject? with
  | some e =>
      rw [Option.map_some]
      dsimp only
      rw [Expr.width_later, constant?_later, Option.map_map]
      rfl
  | none =>
      rw [Option.map_none]
      dsimp only
      cases b.subject? with
      | none => rfl
      | some e =>
          rw [Option.map_some]
          dsimp only
          rw [Expr.width_later, constant?_later, Option.map_map]
          rfl

end Operand

end Gatework

------------------------------------------------------------
-- Operators and selects
------------------------------------------------------------

namespace Gatework

namespace Lower

variable {d : Nat}

theorem inStep_equality
    (a b : Operand)
    (op : CmpOp)
    (aSpan bSpan span : Span) :
    InStep d (Expr.later d) (equality a b op aSpan bSpan span)
      (equality (a.later d) (b.later d) op aSpan bSpan span) := by
  unfold equality
  rw [Operand.test?_later]
  cases a.test? b with
  | none =>
      refine (inStep_unify a b aSpan bSpan).bind fun pair => ?_
      exact inStep_node (.compare none op pair.1 pair.2)
  | some t =>
      rcases t with ⟨subject, value⟩
      rw [Option.map_some]
      dsimp only
      rw [Expr.width_later, Expr.equalsConst_later]
      split
      · refine (inStep_warn _ _).bind fun _ => ?_
        exact inStep_keep (Expr.ofBool (op.holds false))
      · cases op with
        | eq => exact inStep_keep (subject.equalsConst value)
        | neq => exact inStep_keep (subject.equalsConst value).neg

theorem inStep_concat
    (parts : List Expr)
    (times : Nat)
    (span : Span) :
    InStep d (Expr.later d) (concat parts times span)
      (concat (parts.map (Expr.later d)) times span) := by
  have hAll : (List.replicate times
      (parts.map (Expr.later d))).flatten =
        (List.replicate times parts).flatten.map (Expr.later d) := by
    rw [List.map_flatten, List.map_replicate]
  unfold concat
  rw [Expr.totalWidth_map_later, hAll]
  dsimp only
  split
  · exact Fails.inStep (fails_fail _)
  · have hNode : ∀ all : List Expr, InStep d (Expr.later d)
        (node (.concat none all))
        (node (.concat none (all.map (Expr.later d)))) := by
      intro all
      rw [← Expr.laterAll_eq_map]
      exact inStep_node (.concat none all)
    match (List.replicate times parts).flatten with
    | [] => exact hNode []
    | [e] => exact inStep_pure rfl
    | e :: e' :: rest => exact hNode (e :: e' :: rest)

theorem inStep_complement
    (e : Expr) :
    InStep d (Expr.later d) (complement e)
      (complement (e.later d)) := by
  have hBits : ((Expr.indicesDown e.width).map fun i =>
      Expr.neg ((e.later d).bitOf i)) =
        Expr.laterAll d ((Expr.indicesDown e.width).map fun i =>
          Expr.neg (e.bitOf i)) := by
    rw [Expr.laterAll_eq_map, List.map_map]
    congr 1
    funext i
    rw [Expr.bitOf_later]
    rfl
  unfold complement
  rw [Expr.width_later, hBits]
  split
  · exact inStep_node (.not none e)
  · exact inStep_node (.concat none _)

theorem inStep_unary
    (op : Hdl.UnaryOp)
    (x : Operand) :
    InStep d (Expr.later d) (unary op x) (unary op (x.later d)) := by
  unfold unary
  split
  · exact (inStep_truth x).bind fun e => inStep_keep e.neg
  · exact (inStep_ownWidth x).bind inStep_complement

theorem inStep_bitwise
    (op : GateOp)
    (a b : Operand)
    (aSpan bSpan : Span) :
    InStep d (Expr.later d) (bitwise op a b aSpan bSpan)
      (bitwise op (a.later d) (b.later d) aSpan bSpan) :=
  (inStep_unify a b aSpan bSpan).bind fun pair =>
    inStep_node (.gate none op pair.1 pair.2)

theorem inStep_constant
    (e : Hdl.Expr) :
    InStep d id (constant e) (constant e) := by
  unfold constant
  split
  · exact (inStep_literal _ _ _).bind fun _ => inStep_pure rfl
  · exact inStep_pure rfl

theorem inStep_position
    (v : Var)
    (low : Nat)
    (base bound : Hdl.Expr)
    (span : Span) :
    InStep d id (position v low base bound span)
      (position v low base bound span) := by
  refine (inStep_constant bound).bind fun found => ?_
  dsimp only [id]
  split
  · exact Fails.inStep (fails_fail _)
  · split
    · exact Fails.inStep
        (fails_texts (fun _ =>
          fails_texts (fun _ => fails_fail _) base.span) span)
    · exact inStep_pure rfl

theorem inStep_selectBase
    (base : Hdl.Expr)
    (span : Span) :
    InStep d id (selectBase base span) (selectBase base span) := by
  unfold selectBase
  split
  · refine (inStep_lookup _ _).bind fun v => ?_
    exact (inStep_lowBound _).bind fun _ => inStep_pure rfl
  · exact Fails.inStep
      (fails_texts (fun _ => fails_refuse _ _) base.span)

theorem inStep_bitSelect
    (base index : Hdl.Expr)
    (span : Span) :
    InStep d (Expr.later d) (bitSelect base index span)
      (bitSelect base index span) := by
  refine (inStep_selectBase base span).bind fun found => ?_
  refine (inStep_position found.1 found.2 base index span).bind
    fun i => ?_
  exact inStep_node (.bit none (Expr.ofVar found.1) i)

theorem inStep_partSelect
    (base msb lsb : Hdl.Expr)
    (span : Span) :
    InStep d (Expr.later d) (partSelect base msb lsb span)
      (partSelect base msb lsb span) := by
  refine (inStep_selectBase base span).bind fun found => ?_
  refine (inStep_position found.1 found.2 base msb span).bind
    fun m => ?_
  refine (inStep_position found.1 found.2 base lsb span).bind
    fun l => ?_
  exact inStep_node (.part none (Expr.ofVar found.1) m l)

end Lower

end Gatework

------------------------------------------------------------
-- Expressions
------------------------------------------------------------

namespace Gatework

namespace Lower

variable {d : Nat}

/- What has a width of its own is an operand as it is. -/
theorem InStep.sized
    {m m' : Lower Expr}
    (hm : InStep d (Expr.later d) m m') :
    InStep d (Operand.later d) (do return .sized (← m))
      (do return .sized (← m')) :=
  hm.bind fun _ => inStep_pure rfl

theorem inStep_operands
    {es : List Hdl.Expr}
    (hEach : ∀ e ∈ es,
      InStep d (Operand.later d) (operand e) (operand e)) :
    InStep d (List.map (Expr.later d)) (operands es)
      (operands es) := by
  induction es with
  | nil =>
      rw [operands]
      exact inStep_pure rfl
  | cons e es ih =>
      rw [operands]
      refine (hEach e (List.mem_cons_self ..)).bind fun op => ?_
      cases op with
      | unsized l =>
          exact Fails.inStep (fails_refuse _ _)
      | sized x =>
          refine (ih fun e he =>
            hEach e (List.mem_cons_of_mem _ he)).bind fun xs => ?_
          exact inStep_pure rfl

theorem inStep_binary
    {left right : Hdl.Expr}
    (hLeft :
      InStep d (Operand.later d) (operand left) (operand left))
    (hRight :
      InStep d (Operand.later d) (operand right) (operand right))
    (op : Hdl.BinaryOp)
    (span : Span) :
    InStep d (Operand.later d) (operand (.binary left op right span))
      (operand (.binary left op right span)) := by
  rw [operand]
  refine hLeft.bind fun a => ?_
  split
  iterate 2
    · refine (inStep_truth a).bind fun x => ?_
      refine hRight.bind fun b => ?_
      refine (inStep_truth b).bind fun y => ?_
      exact (inStep_node (.gate none _ x y)).sized
  · refine hRight.bind fun b => ?_
    exact (inStep_equality a b .eq _ _ span).sized
  · refine hRight.bind fun b => ?_
    exact (inStep_equality a b .neq _ _ span).sized
  · refine hRight.bind fun b => ?_
    exact (inStep_bitwise (gateOf op) a b _ _).sized

/- An expression is lowered to the same operand, later. -/
theorem inStep_operand
    (e : Hdl.Expr) :
    InStep d (Operand.later d) (operand e) (operand e) := by
  induction e with
  | name n span =>
      rw [operand]
      refine (inStep_lookup n span).bind fun v => ?_
      exact (inStep_keep (Expr.ofVar v)).sized
  | literal kind text span =>
      rw [operand]
      refine (inStep_literal kind text span).bind fun l => ?_
      dsimp only [id]
      split
      · exact (inStep_keep (.const none l.toConst)).sized
      · exact inStep_pure rfl
  | index base i span ihBase ihIndex =>
      rw [operand]
      exact (inStep_bitSelect base i span).sized
  | slice base m l span ihBase ihMsb ihLsb =>
      rw [operand]
      exact (inStep_partSelect base m l span).sized
  | concat es span ih =>
      rw [operand]
      refine (inStep_operands ih).bind fun parts => ?_
      exact (inStep_concat parts 1 span).sized
  | replicate count es span ihCount ih =>
      rw [operand]
      refine (inStep_constant count).bind fun found => ?_
      dsimp only [id]
      split
      · refine (inStep_operands ih).bind fun parts => ?_
        exact (inStep_concat parts _ span).sized
      · exact Fails.inStep
          (fails_texts (fun _ => fails_refuse _ _) count.span)
  | unary op x span ih =>
      cases op with
      | logNot =>
          rw [operand]
          exact ih.bind fun a => (inStep_unary .logNot a).sized
      | bitNot =>
          rw [operand]
          exact ih.bind fun a => (inStep_unary .bitNot a).sized
      | _ =>
          rw [operand]
          · exact Fails.inStep (fails_refuse _ _)
          all_goals exact nofun
  | binary a op b span iha ihb => exact inStep_binary iha ihb op span
  | ternary c t f span ihc iht ihf =>
      rw [operand]
      refine ihc.bind fun c' => ?_
      refine (inStep_truth c').bind fun cond => ?_
      refine iht.bind fun a => ihf.bind fun b => ?_
      refine (inStep_unify a b t.span f.span).bind fun pair => ?_
      exact (inStep_node (.mux none cond pair.1 pair.2)).sized
  | paren e span ih =>
      rw [operand]
      exact ih
  | broken span =>
      rw [operand]
      exact Fails.inStep (fails_refuse _ _)

theorem inStep_expr
    (e : Hdl.Expr) :
    InStep d (Expr.later d) (expr e) (expr e) :=
  (inStep_operand e).bind inStep_ownWidth

theorem inStep_exprTo
    (e : Hdl.Expr)
    (width : Nat) :
    InStep d (Expr.later d) (exprTo e width) (exprTo e width) :=
  (inStep_operand e).bind fun op => inStep_fit op width e.span

theorem inStep_cond
    (e : Hdl.Expr) :
    InStep d (Expr.later d) (cond e) (cond e) :=
  (inStep_operand e).bind inStep_truth

theorem inStep_target
    (e : Hdl.Expr) :
    InStep d (Expr.later d) (target e) (target e) := by
  unfold target
  split
  · exact (inStep_lookup _ _).bind fun v => inStep_pure rfl
  · exact inStep_bitSelect _ _ _
  · exact inStep_partSelect _ _ _ _
  · exact Fails.inStep
      (fails_texts (fun _ => fails_refuse _ _) _)

end Lower

end Gatework

------------------------------------------------------------
-- Statements
------------------------------------------------------------

namespace Gatework

variable {d : Nat}

theorem Target.ofExpr?_later
    (e : Expr) :
    ofExpr? (e.later d) = ofExpr? e := by
  cases e with
  | bit m b i => cases b <;> rfl
  | part m b h l => cases b <;> rfl
  | _ => rfl

theorem Arm.check_laterArms
    (arms : List (Arm Stmt)) :
    check (Stmt.laterArms d arms) = check arms := by
  have hDefaults : ((Stmt.laterArms d arms).filter
      Arm.isDefault).length = (arms.filter Arm.isDefault).length := by
    induction arms with
    | nil => rfl
    | cons arm arms ih =>
        rcases arm with ⟨labels, isDefault, body⟩
        rw [Stmt.laterArms, List.filter_cons, List.filter_cons]
        dsimp only
        split
        · rw [List.length_cons, List.length_cons, ih]
        · exact ih
  unfold check
  rw [hDefaults]
  congr 1
  clear hDefaults
  induction arms with
  | nil => rfl
  | cons arm arms ih =>
      rcases arm with ⟨labels, isDefault, body⟩
      rw [Stmt.laterArms, List.forM, List.forM, ih]

/- No statement at all stays an empty block. -/
theorem Stmt.getD_map_later
    (s : Option Stmt) :
    (s.map (later d)).getD (block []) =
      (s.getD (block [])).later d := by
  cases s <;> rfl

namespace Lower

/- An assignment is lowered to the same one, later. -/
theorem inStep_assign
    (lhs value : Hdl.Expr) :
    InStep d (Assign.later d) (assign lhs value)
      (assign lhs value) := by
  refine (inStep_target lhs).bind fun t => ?_
  rw [Expr.width_later]
  refine (inStep_exprTo value t.width).bind fun v => ?_
  apply inStep_checked
  · intro a ha
    rcases Assign.make_eq_ok_iff.mp ha with ⟨hWidth, hTarget, rfl⟩
    apply Assign.make_eq_ok_iff.mpr
    rw [Expr.width_later, Expr.width_later, Target.ofExpr?_later]
    exact ⟨hWidth, hTarget, rfl⟩
  · intro a ha
    rcases Assign.make_eq_ok_iff.mp ha with ⟨hWidth, hTarget, _⟩
    rw [Expr.width_later, Expr.width_later] at hWidth
    rw [Target.ofExpr?_later] at hTarget
    exact ⟨⟨a.target, v⟩,
      Assign.make_eq_ok_iff.mpr ⟨hWidth, hTarget, rfl⟩⟩

theorem inStep_caseLabel
    (label : Hdl.Expr)
    (width : Nat) :
    InStep d id (caseLabel label width) (caseLabel label width) := by
  unfold caseLabel
  split
  · refine (inStep_operand label).bind fun op => ?_
    have hMisfit : ∀ {f : String → LowerError}, InStep d id
        (textOf label.span >>= fun text => fail (f text) : Lower Const)
        (textOf label.span >>= fun text => fail (f text)) :=
      Fails.inStep (fails_texts (fun _ => fails_fail _) label.span)
    cases op with
    | unsized l =>
        rw [Operand.later]
        dsimp only
        split
        · exact inStep_pure rfl
        · exact hMisfit
    | sized e =>
        rw [Operand.later]
        dsimp only
        rw [Expr.asConst?_later]
        split
        · exact inStep_pure rfl
        · exact hMisfit
  · exact Fails.inStep
      (fails_texts (fun _ => fails_refuse _ _) label.span)

theorem inStep_checkCaseKind
    (kind : Hdl.CaseKind)
    (span : Span) :
    InStep d id (checkCaseKind kind span)
      (checkCaseKind kind span) := by
  cases kind with
  | exact => exact inStep_pure rfl
  | casez => exact Fails.inStep (fails_refuse _ _)
  | casex => exact Fails.inStep (fails_refuse _ _)

theorem inStep_branch
    (c : Expr)
    (body : Stmt)
    (otherwise : Option Stmt) :
    InStep d (Stmt.later d) (branch c body otherwise)
      (branch (c.later d) (body.later d)
        (otherwise.map (Stmt.later d))) := by
  refine InStep.bind (g := id) (inStep_check ?_) fun _ => ?_
  · rw [Stmt.checkCondition_eq_ok_iff,
      Stmt.checkCondition_eq_ok_iff, Expr.width_later]
  · cases otherwise with
    | none => exact inStep_pure rfl
    | some e => exact inStep_pure rfl

/- A part of a process with its text, later. -/
def laterPart
    (d : Nat)
    (part : Stmt × String) :
    Stmt × String :=
  (part.1.later d, part.2)

theorem map_fst_laterPart
    (parts : List (Stmt × String)) :
    (parts.map (laterPart d)).map Prod.fst =
      Stmt.laterAll d (parts.map Prod.fst) := by
  rw [Stmt.laterAll_eq_map, List.map_map, List.map_map]
  rfl

/- A statement is lowered to the same one, later. -/
def StmtInStep
    (d : Nat)
    (s : Hdl.Stmt) :
    Prop :=
  InStep d (Option.map (Stmt.later d)) (stmt s) (stmt s)

theorem inStep_stmts_of
    {ss : List Hdl.Stmt}
    (hEach : ∀ s ∈ ss, StmtInStep d s) :
    InStep d (List.map (laterPart d)) (stmts ss) (stmts ss) := by
  induction ss with
  | nil =>
      rw [stmts]
      exact inStep_pure rfl
  | cons s ss ih =>
      have hRest := ih fun t ht =>
        hEach t (List.mem_cons_of_mem _ ht)
      rw [stmts]
      refine (hEach s (List.mem_cons_self ..)).bind fun s' => ?_
      cases s' with
      | none => exact hRest
      | some t =>
          refine (inStep_textOf s.span).bind fun text => ?_
          exact hRest.bind fun parts => inStep_pure rfl

theorem inStep_arms_of
    (width : Nat)
    {items : List (Hdl.CaseArm Hdl.Stmt)}
    (hEach : ∀ arm ∈ items, StmtInStep d arm.body)
    (seen : Bool) :
    InStep d (Stmt.laterArms d) (arms width seen items)
      (arms width seen items) := by
  induction items generalizing seen with
  | nil =>
      rw [arms]
      exact inStep_pure rfl
  | cons item items ih =>
      have hRest := ih fun arm ha =>
        hEach arm (List.mem_cons_of_mem _ ha)
      have hBody := hEach item (List.mem_cons_self ..)
      rcases item with ⟨labels, isDefault, body, span⟩
      rw [arms]
      refine hBody.bind fun s => ?_
      rw [Stmt.getD_map_later]
      dsimp only
      split
      · split
        · exact Fails.inStep (fails_fail _)
        · exact (hRest true).bind fun arms' => inStep_pure rfl
      · refine (inStep_mapM (g := id) fun l _ =>
          inStep_caseLabel l width).bind fun cs => ?_
        rw [List.map_id]
        exact (hRest seen).bind fun arms' => inStep_pure rfl

theorem inStep_stmt
    (s : Hdl.Stmt) :
    StmtInStep d s := by
  unfold StmtInStep
  induction s with
  | blocking t v span =>
      rw [stmt]
      exact (inStep_assign t v).bind fun a => inStep_pure rfl
  | nonBlocking t v span =>
      rw [stmt]
      exact Fails.inStep (fails_refuse _ _)
  | block label body span ih =>
      rw [stmt]
      refine (inStep_stmts_of ih).bind fun parts => ?_
      rw [map_fst_laterPart]
      exact inStep_pure rfl
  | ifThen c t span ih =>
      rw [stmt]
      refine (inStep_cond c).bind fun c' => ih.bind fun t' => ?_
      rw [Stmt.getD_map_later]
      exact (inStep_branch c' _ none).bind fun s => inStep_pure rfl
  | ifElse c t e span iht ihe =>
      rw [stmt]
      refine (inStep_cond c).bind fun c' => iht.bind fun t' => ?_
      rw [Stmt.getD_map_later]
      refine ihe.bind fun e' => ?_
      exact (inStep_branch c' _ e').bind fun s => inStep_pure rfl
  | case kind selector items span ih =>
      rw [stmt]
      refine (inStep_checkCaseKind kind span).bind fun _ => ?_
      refine (inStep_expr selector).bind fun sel => ?_
      rw [Expr.width_later]
      refine (inStep_arms_of sel.width ih false).bind
        fun arms' => ?_
      rw [Arm.check_laterArms]
      refine InStep.bind (g := id) (inStep_check Iff.rfl)
        fun _ => ?_
      exact inStep_pure rfl
  | onEvent events body span ih =>
      rw [stmt]
      exact Fails.inStep (fails_refuse _ _)
  | empty span =>
      rw [stmt]
      exact inStep_pure rfl
  | broken span =>
      rw [stmt]
      exact Fails.inStep (fails_refuse _ _)

/- The process with statements that were lowered later. -/
def Process.later
    (d : Nat)
    (p : Process) :
    Process :=
  ⟨p.body.later d, p.text, p.parts.map (laterPart d)⟩

/- A process is lowered to the same one, later. -/
theorem inStep_process?
    (body : Hdl.Stmt) :
    InStep d (Option.map (Process.later d)) (process? body)
      (process? body) := by
  unfold process?
  split
  · refine (inStep_stmts_of fun s _ => inStep_stmt s).bind
      fun parts => ?_
    refine (inStep_textOf _).bind fun text => ?_
    rw [map_fst_laterPart]
    exact inStep_pure rfl
  · refine (inStep_stmt body).bind fun found => ?_
    cases found with
    | none => exact inStep_pure rfl
    | some s =>
        exact (inStep_textOf _).bind fun text => inStep_pure rfl

end Lower

end Gatework
