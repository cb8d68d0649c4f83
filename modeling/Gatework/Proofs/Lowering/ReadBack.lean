import Gatework.Proofs.Hdl.ReadBack
import Gatework.Proofs.Lowering.Operand

/-
  Printed expressions are lowered back to what they denote.

  Where every signal is declared with the bounds of its width,
  lowering the tree of a printed expression does not stop: no
  literal is open or cut off, operands agree in width, and
  selects stay inside their signals. Marks, the signs of
  signals and the form of tests and complements may change,
  the number denoted does not.

  Key definitions include:
    * `Lower.Gets`
    * `Scope.Declares`

  Key theorems include:
    * `Lower.Gets.bind`
    * `Lower.gets_operand`
    * `verilog_reads_back`
-/

------------------------------------------------------------
-- Steps that succeed
------------------------------------------------------------

namespace Gatework

namespace Lower

variable {α β : Type}
variable {I : Scope → Prop}
variable {P : α → Prop}
variable {Q : β → Prop}

/-
  Where the scope has a property, a step succeeds with a
  result that has one too, and the scope keeps its own.
-/
def Gets
    (I : Scope → Prop)
    (m : Lower α)
    (P : α → Prop) :
    Prop :=
  ∀ s p, I p.scope →
    ∃ a p', m s p = (.ok a, p') ∧ I p'.scope ∧ P a

theorem gets_pure
    {a : α}
    (ha : P a) :
    Gets I (pure a) P :=
  fun _ p hI => ⟨a, p, rfl, hI, ha⟩

theorem Gets.bind
    {m : Lower α}
    {f : α → Lower β}
    (hm : Gets I m P)
    (hf : ∀ a, P a → Gets I (f a) Q) :
    Gets I (m >>= f) Q := by
  intro s p hI
  rcases hm s p hI with ⟨a, p', hRun, hI', ha⟩
  rw [bind_apply, hRun]
  exact hf a ha s p' hI'

theorem Gets.imp
    {m : Lower α}
    {P' : α → Prop}
    (hm : Gets I m P)
    (hP : ∀ a, P a → P' a) :
    Gets I m P' := by
  intro s p hI
  rcases hm s p hI with ⟨a, p', hRun, hI', ha⟩
  exact ⟨a, p', hRun, hI', hP a ha⟩

/- What holds of every result holds of one that is got. -/
theorem Gets.ensured
    {m : Lower α}
    {P' : α → Prop}
    (hm : Gets I m P')
    (hP : Ensures True I m P) :
    Gets I m P := by
  intro s p hI
  rcases hm s p hI with ⟨a, p', hRun, hI', _⟩
  have hResult := hP s p hI
  rw [hRun] at hResult
  exact ⟨a, p', hRun, hI', hResult.2⟩

theorem gets_read :
    Gets I (read : Lower Setting) (fun _ => True) :=
  fun s p hI => ⟨s, p, rfl, hI, trivial⟩

theorem gets_get :
    Gets I (get : Lower Progress) (fun p => I p.scope) :=
  fun _ p hI => ⟨p, p, rfl, hI, hI⟩

theorem gets_log
    (message : String) :
    Gets I (log message) (fun _ => True) :=
  fun _ p hI =>
    ⟨(), { p with log := p.log ++ [message] }, rfl, hI, trivial⟩

theorem gets_warn
    (d : Diagnostic) :
    Gets I (warn d) (fun _ => True) :=
  (gets_log _).bind fun _ _ _ p hI =>
    ⟨(), { p with findings := p.findings.report d }, rfl, hI, trivial⟩

theorem gets_keep
    (e : Expr) :
    Gets I (keep e) (fun e' => e'.unmarked = e.unmarked) :=
  fun _ p hI =>
    ⟨_, { p with marks := (e.stamp p.marks).2 }, rfl, hI,
      Expr.unmarked_stamp e p.marks⟩

variable {Γ : Var → Prop}

theorem gets_kept
    {e : Expr}
    {width : Nat}
    {f : (String → Nat) → Nat}
    (he : e.Denotes Γ width f) :
    Gets I (keep e) (·.Denotes Γ width f) :=
  (gets_keep e).imp fun _ hSame => he.of_unmarked hSame

/- A node on typed operands passes its check. -/
theorem gets_node
    {e : Expr}
    {width : Nat}
    {f : (String → Nat) → Nat}
    (he : e.Denotes Γ width f)
    (hVar : e.asVar? = none) :
    Gets I (node e) (·.Denotes Γ width f) := by
  unfold node
  rw [Expr.make_eq_ok_of_typed he.typed hVar]
  exact gets_kept he

end Lower

end Gatework

------------------------------------------------------------
-- Operands of known widths
------------------------------------------------------------

namespace Gatework

namespace Lower

variable {I : Scope → Prop}
variable {Γ : Var → Prop}
variable {x y : Expr}
variable {width : Nat}
variable {f g : (String → Nat) → Nat}

theorem gets_unify
    (hSame : x.width = y.width)
    (xSpan ySpan : Span) :
    Gets I (unify (.sized x) (.sized y) xSpan ySpan)
      (· = (x, y)) := by
  unfold unify
  dsimp only
  rw [if_pos hSame]
  exact gets_pure rfl

theorem gets_truth
    (hWidth : x.width = 1) :
    Gets I (truth (.sized x)) (· = x) := by
  have hSelf : Gets I (ownWidth (.sized x)) (· = x) :=
    gets_pure rfl
  apply hSelf.bind
  rintro _ rfl
  rw [if_pos hWidth]
  exact gets_pure rfl

theorem gets_complement
    (hx : x.Denotes Γ width f) :
    Gets I (complement x)
      (·.Denotes Γ width (fun τ => Gatework.complement width (f τ))) := by
  have hRuns : Gets I (complement x) (fun _ => True) := by
    unfold complement
    split
    case isTrue hWidth =>
        have hNot : (Expr.not none x).Typed Γ := ⟨hx.typed, hWidth⟩
        exact (gets_node hNot.denotes rfl).imp fun _ _ => trivial
    case isFalse =>
        exact (gets_node (Expr.denotes_complement hx.typed)
          rfl).imp fun _ _ => trivial
  apply (hRuns.ensured (ensures_complement hx.typed)).imp
  intro e he
  rw [hx.width_eq] at he
  apply he.congr
  intro τ
  rw [hx.value_eq τ, complement_eq_sub hx.width_le (hx.lt τ)]

theorem gets_bitwise
    (hx : x.Denotes Γ width f)
    (hy : y.Denotes Γ width g)
    (op : GateOp)
    (xSpan ySpan : Span) :
    Gets I (bitwise op (.sized x) (.sized y) xSpan ySpan)
      (·.Denotes Γ width (fun τ => op.apply (f τ) (g τ) width)) := by
  have hSame : x.width = y.width :=
    hx.width_eq.trans hy.width_eq.symm
  apply (gets_unify hSame xSpan ySpan).bind
  rintro _ rfl
  exact gets_node (hx.gate hy op) rfl

theorem gets_equality
    (hx : x.Denotes Γ width f)
    (hy : y.Denotes Γ width g)
    (op : CmpOp)
    (xSpan ySpan span : Span) :
    Gets I (equality (.sized x) (.sized y) op xSpan ySpan span)
      (·.Denotes Γ 1 (fun τ => (op.holds (f τ == g τ)).toNat)) := by
  have hSame : x.width = y.width :=
    hx.width_eq.trans hy.width_eq.symm
  have hRuns : Gets I
      (equality (.sized x) (.sized y) op xSpan ySpan span)
      (fun _ => True) := by
    unfold equality
    split
    case h_1 =>
        apply (gets_unify hSame xSpan ySpan).bind
        rintro _ rfl
        exact (gets_node (hx.compare hy op) rfl).imp
          fun _ _ => trivial
    case h_2 =>
        split
        case isTrue =>
            apply (gets_warn _).bind
            intro _ _
            exact (gets_keep _).imp fun _ _ => trivial
        case isFalse =>
            cases op with
            | eq => exact (gets_keep _).imp fun _ _ => trivial
            | neq => exact (gets_keep _).imp fun _ _ => trivial
  have hEnsured := hRuns.ensured (@ensures_equality True I Γ
    (.sized x) (.sized y) hx.typed hy.typed op xSpan ySpan span)
  apply hEnsured.imp
  intro e he
  apply he.denotes.congr
  intro τ
  rw [← hx.value_eq τ, ← hy.value_eq τ]
  rfl

/- Parts side by side, if there are any and they fit. -/
theorem gets_concat
    {parts : List Expr}
    (hParts : ∀ p ∈ parts, p.Typed Γ)
    (hSome : parts ≠ [])
    (hTotal : Expr.totalWidth parts ≤ maxWidth)
    (span : Span) :
    Gets I (concat parts 1 span)
      (·.Denotes Γ (Expr.totalWidth parts)
        (fun τ => Expr.digitsOf τ 0 parts)) := by
  have hOnce : (List.replicate 1 parts).flatten = parts := by
    simp
  unfold concat
  dsimp only
  rw [Nat.mul_one, if_neg (Nat.not_lt.mpr hTotal), hOnce]
  split
  case h_1 e =>
      apply gets_pure
      refine ⟨hParts e (List.mem_singleton_self e), rfl, ?_⟩
      intro τ
      simp [Expr.digitsOf]
  case h_2 =>
      exact gets_node (Expr.denotes_concat hParts hSome hTotal) rfl

end Lower

end Gatework

------------------------------------------------------------
-- Declared signals
------------------------------------------------------------

namespace Gatework

/-
  A signal is declared at its width: as a single bit without
  bounds, or as a vector that ends with bit 0.
-/
structure Scope.Declares
    (scope : Scope)
    (v : Var) :
    Prop where
  signal : ∃ u, scope.signals.find? v.name = some u ∧
    u.name = v.name ∧ u.width = v.width
  range : scope.ranges.find? v.name =
    if v.width = 1 then none else some (v.width - 1, 0)

theorem Scope.Declares.low
    {scope : Scope}
    {v : Var}
    (hv : scope.Declares v) :
    scope.low v.name = 0 := by
  rw [Scope.low, hv.range]
  split
  case h_1 msb lsb hRange =>
      split at hRange
      case isTrue => cases hRange
      case isFalse =>
          cases hRange
          exact Nat.min_zero _
  case h_2 => rfl

namespace Lower

variable {scope : Scope}
variable {v : Var}

theorem gets_lookup
    (hv : scope.Declares v)
    (span : Span) :
    Gets scope.Agrees (lookup v.name span)
      (fun u => u.name = v.name ∧ u.width = v.width) := by
  rcases hv.signal with ⟨u, hFound, hSame⟩
  unfold lookup
  apply gets_get.bind
  intro p hp
  rw [hp.1, hFound]
  exact gets_pure hSame

theorem gets_lowBound
    (hv : scope.Declares v) :
    Gets scope.Agrees (lowBound v.name) (· = 0) := by
  unfold lowBound
  apply gets_get.bind
  intro p hp
  apply gets_pure
  rw [hp.2]
  exact hv.low

theorem gets_literal
    {I : Scope → Prop}
    {kind : Hdl.LiteralKind}
    {text : String}
    {l : Hdl.Literal}
    (hRead : ∀ strict, Hdl.Literal.read kind strict text = .ok l)
    (span : Span) :
    Gets I (literal kind text span) (· = l) := by
  unfold literal
  apply gets_read.bind
  intro setting _
  rw [hRead]
  dsimp only
  split
  · apply (gets_log _).bind
    intro _ _
    exact gets_pure rfl
  · exact gets_pure rfl

/- A bound of a select is the place it names. -/
theorem gets_position
    {I : Scope → Prop}
    {u : Var}
    {i : Nat}
    (hi : i < u.width)
    (hu : u.width ≤ maxWidth)
    {bound : Hdl.Expr}
    (hBound : bound.IsInt i)
    (base : Hdl.Expr)
    (span : Span) :
    Gets I (position u 0 base bound span) (· = i) := by
  rcases hBound with ⟨place, rfl⟩
  have hSmall : i < 64 := Nat.lt_of_lt_of_le hi hu
  have hWord : i < Hdl.wordBound :=
    Nat.lt_trans hSmall (by decide)
  have hMax : min i maxBound = i :=
    Nat.min_eq_left (Nat.le_of_lt (Nat.lt_trans hSmall (by decide)))
  have hConstant : Gets I
      (constant (.literal .int (toString i) place))
      (· = some i) := by
    apply (gets_literal (fun strict =>
      Hdl.Literal.read_toString strict hWord) place).bind
    rintro _ rfl
    exact gets_pure rfl
  apply hConstant.bind
  rintro _ rfl
  dsimp only
  rw [hMax, Nat.sub_zero, if_neg (by omega)]
  exact gets_pure rfl

theorem gets_selectBase
    (hv : scope.Declares v)
    {base : Hdl.Expr}
    (hBase : ∃ place, base = .name v.name place)
    (span : Span) :
    Gets scope.Agrees (selectBase base span)
      (fun found => (found.1.name = v.name ∧
        found.1.width = v.width) ∧ found.2 = 0) := by
  rcases hBase with ⟨place, rfl⟩
  apply (gets_lookup hv place).bind
  intro u hu
  apply (gets_lowBound hv).bind
  rintro _ rfl
  exact gets_pure ⟨hu, rfl⟩

end Lower

end Gatework

------------------------------------------------------------
-- Trees of printed expressions
------------------------------------------------------------

namespace Gatework

/- What each gate makes of the one it is printed with. -/
theorem GateOp.apply_operator
    (op : GateOp)
    (a b width : Nat) :
    op.apply a b width =
      if op.isNegated then
        complement width ((Lower.gateOf op.operator).apply a b width)
      else
        (Lower.gateOf op.operator).apply a b width := by
  cases op <;>
    simp [apply, isNegated, operator, Lower.gateOf, complement,
      Nat.and_assoc]

/- An operand of a width with a number as value. -/
def Operand.Denotes
    (Γ : Var → Prop)
    (width : Nat)
    (f : (String → Nat) → Nat) :
    Operand → Prop
  | .sized x => x.Denotes Γ width f
  | .unsized _ => False

namespace Lower

variable {scope : Scope}
variable {Γ Δ : Var → Prop}
variable {width : Nat}
variable {f g : (String → Nat) → Nat}

/- An operand denotes what an expression does. -/
abbrev Restores
    (Δ : Var → Prop)
    (e : Expr) :
    Operand → Prop :=
  Operand.Denotes Δ e.width (fun τ => e.value τ)

theorem Gets.sized
    {I : Scope → Prop}
    {m : Lower Expr}
    (hm : Gets I m (·.Denotes Δ width f)) :
    Gets I (do return Operand.sized (← m))
      (Operand.Denotes Δ width f) := by
  apply hm.bind
  intro x hx
  exact gets_pure hx

theorem Gets.congr
    {I : Scope → Prop}
    {m : Lower Operand}
    (hm : Gets I m (Operand.Denotes Δ width f))
    (hSame : ∀ τ, f τ = g τ) :
    Gets I m (Operand.Denotes Δ width g) := by
  rwa [funext hSame] at hm

/- What goes on from an operand that has a width. -/
theorem Gets.bindSized
    {β : Type}
    {Q : β → Prop}
    {I : Scope → Prop}
    {m : Lower Operand}
    {k : Operand → Lower β}
    (hm : Gets I m (Operand.Denotes Δ width f))
    (hk : ∀ x, x.Denotes Δ width f → Gets I (k (.sized x)) Q) :
    Gets I (m >>= k) Q := by
  apply hm.bind
  intro op hOp
  cases op with
  | sized x => exact hk x hOp
  | unsized l => exact hOp.elim

variable (hΓ : ∀ v, Γ v →
  scope.Declares v ∧ ∀ u : Var, u.name = v.name → Δ u)

include hΓ

/- A declared signal denotes what it stands for. -/
theorem denotes_declared
    {m : Mark}
    {u v : Var}
    (hTyped : (Expr.var m v).Typed Γ)
    (hu : u.name = v.name ∧ u.width = v.width) :
    (Expr.ofVar u).Denotes Δ v.width
      (fun τ => (Expr.var m v).value τ) := by
  rcases hTyped with ⟨hPos, hMax, hv⟩
  rcases hu with ⟨hName, hWidth⟩
  refine ⟨⟨hWidth ▸ hPos, hWidth ▸ hMax, ?_⟩, hWidth, ?_⟩
  · exact (hΓ v hv).2 u hName
  · intro τ
    change τ u.name &&& mask u.width = τ v.name &&& mask v.width
    rw [hName, hWidth]

theorem gets_bitSelect
    {m n : Mark}
    {v : Var}
    {i : Nat}
    (hTyped : (Expr.bit m (.var n v) i).Typed Γ)
    {base index : Hdl.Expr}
    (hBase : ∃ place, base = .name v.name place)
    (hIndex : index.IsInt i)
    (span : Span) :
    Gets scope.Agrees (bitSelect base index span)
      (·.Denotes Δ 1
        (fun τ => (Expr.bit m (.var n v) i).value τ)) := by
  rcases hTyped with ⟨hVar, hi⟩
  apply (gets_selectBase (hΓ v hVar.2.2).1 hBase span).bind
  rintro ⟨u, _⟩ ⟨hu, rfl⟩
  have hWidth : u.width = v.width := hu.2
  apply (gets_position (hWidth ▸ hi) (hWidth ▸ hVar.2.1) hIndex base
    span).bind
  rintro _ rfl
  apply gets_node ?_ rfl
  apply ((denotes_declared hΓ hVar hu).bit hi).congr
  exact fun τ => ((hVar.denotes.bit hi).value_eq τ).symm

theorem gets_partSelect
    {m n : Mark}
    {v : Var}
    {h l : Nat}
    (hTyped : (Expr.part m (.var n v) h l).Typed Γ)
    {base msb lsb : Hdl.Expr}
    (hBase : ∃ place, base = .name v.name place)
    (hMsb : msb.IsInt h)
    (hLsb : lsb.IsInt l)
    (span : Span) :
    Gets scope.Agrees (partSelect base msb lsb span)
      (·.Denotes Δ
        (Expr.part m (.var n v) h l).width
        (fun τ => (Expr.part m (.var n v) h l).value τ)) := by
  rcases hTyped with ⟨hVar, hBoth⟩
  rcases Nat.max_lt.mp hBoth with ⟨hh, hl⟩
  apply (gets_selectBase (hΓ v hVar.2.2).1 hBase span).bind
  rintro ⟨u, _⟩ ⟨hu, rfl⟩
  have hWidth : u.width = v.width := hu.2
  apply (gets_position (hWidth ▸ hh) (hWidth ▸ hVar.2.1) hMsb base
    span).bind
  rintro _ rfl
  apply (gets_position (hWidth ▸ hl) (hWidth ▸ hVar.2.1) hLsb base
    span).bind
  rintro _ rfl
  apply gets_node ?_ rfl
  apply ((denotes_declared hΓ hVar hu).part hh hl).congr
  exact fun τ => ((hVar.denotes.part hh hl).value_eq τ).symm

omit hΓ

/- A literal is read as the constant it was printed from. -/
theorem gets_const
    {I : Scope → Prop}
    {m : Mark}
    {c : Const}
    (hTyped : (Expr.const m c).Typed Γ)
    (hRaw : c.raw = none)
    (span : Span) :
    Gets I (operand (.literal .based c.verilog span))
      (Restores Δ (.const m c)) := by
  have hConst : (Expr.const none c.printedLiteral.toConst).Denotes Δ
      c.width (fun τ => (Expr.const m c).value τ) :=
    ⟨hTyped, rfl, fun _ => rfl⟩
  rw [operand]
  apply (gets_literal (fun strict =>
    Hdl.Literal.read_verilog strict hTyped hRaw) span).bind
  rintro _ rfl
  exact (gets_kept hConst).sized

section

variable {I : Scope → Prop}
variable {l r x : Hdl.Expr}
variable (hl : Gets I (operand l) (Operand.Denotes Δ width f))
variable (hr : Gets I (operand r) (Operand.Denotes Δ width g))

include hl

theorem gets_bitNot
    (span : Span) :
    Gets I (operand (.unary .bitNot l span))
      (Operand.Denotes Δ width fun τ =>
        Gatework.complement width (f τ)) := by
  rw [operand]
  apply hl.bindSized
  intro x hx
  apply Gets.sized
  exact gets_complement hx

include hr

/- An operator of gates between two operands. -/
theorem gets_gate
    (op : GateOp)
    (span : Span) :
    Gets I (operand (.binary l op.operator r span))
      (Operand.Denotes Δ width fun τ =>
        (gateOf op.operator).apply (f τ) (g τ) width) := by
  rw [operand]
  apply hl.bindSized
  intro x hx
  have hBitwise : Gets I
      (do
        let b ← operand r
        return .sized (← bitwise (gateOf op.operator) (.sized x)
          b l.span r.span))
      (Operand.Denotes Δ width fun τ =>
        (gateOf op.operator).apply (f τ) (g τ) width) := by
    apply hr.bindSized
    intro y hy
    apply Gets.sized
    exact gets_bitwise hx hy _ _ _
  cases op <;> exact hBitwise

theorem gets_comparison
    (op : CmpOp)
    (span : Span) :
    Gets I (operand (.binary l op.operator r span))
      (Operand.Denotes Δ 1 fun τ =>
        (op.holds (f τ == g τ)).toNat) := by
  rw [operand]
  apply hl.bindSized
  intro x hx
  have hEquality : Gets I
      (do
        let b ← operand r
        return .sized (← equality (.sized x) b op l.span r.span span))
      (Operand.Denotes Δ 1 fun τ =>
        (op.holds (f τ == g τ)).toNat) := by
    apply hr.bindSized
    intro y hy
    apply Gets.sized
    exact gets_equality hx hy op _ _ span
  cases op <;> exact hEquality

/- A choice by one bit. -/
theorem gets_choice
    {c : Hdl.Expr}
    {b : (String → Nat) → Nat}
    (hc : Gets I (operand c) (Operand.Denotes Δ 1 b))
    (span : Span) :
    Gets I (operand (.ternary c l r span))
      (Operand.Denotes Δ width fun τ =>
        if (b τ).testBit 0 then f τ else g τ) := by
  rw [operand]
  apply hc.bindSized
  intro s hs
  apply (gets_truth hs.width_eq).bind
  rintro _ rfl
  apply hl.bindSized
  intro x hx
  apply hr.bindSized
  intro y hy
  apply (gets_unify (hx.width_eq.trans hy.width_eq.symm) _ _).bind
  rintro _ rfl
  apply Gets.sized
  apply gets_node ?_ rfl
  have hBit := Expr.isBit_self hs.typed hs.width_eq
  apply (hx.mux hBit hy).congr
  intro τ
  rw [hs.value_eq τ]

end

/- Parts that denote what other parts do, one by one. -/
theorem gets_operands
    {I : Scope → Prop}
    {parts : List Expr}
    {es : List Hdl.Expr}
    (hEach : ∀ p ∈ parts, ∀ e, p.ReadsAs e →
      Gets I (operand e) (Restores Δ p))
    (hRead : Expr.ReadsAsAll parts es) :
    Gets I (operands es)
      (fun xs => (∀ x ∈ xs, x.Typed Δ) ∧
        (xs.map fun x => (Operand.sized x).meaning) =
          parts.map fun p => (Operand.sized p).meaning) := by
  induction parts generalizing es with
  | nil =>
      rw [Expr.ReadsAsAll] at hRead
      rw [hRead, operands]
      exact gets_pure ⟨by simp, rfl⟩
  | cons p ps ih =>
      rw [Expr.ReadsAsAll] at hRead
      rcases hRead with ⟨e, es', rfl, hp, hps⟩
      rw [List.forall_mem_cons] at hEach
      rw [operands]
      apply (hEach.1 e hp).bindSized
      intro x hx
      apply (ih hEach.2 hps).bind
      rintro xs ⟨hxs, hMeanings⟩
      apply gets_pure
      refine ⟨List.forall_mem_cons.mpr ⟨hx.typed, hxs⟩, ?_⟩
      rw [List.map_cons, List.map_cons, hMeanings, hx.meaning_eq]
      rfl

/-
  A gate is printed as one operator, in a complement if it is
  a negated one.
-/
theorem gets_gateTree
    {I : Scope → Prop}
    {m : Mark}
    {op : GateOp}
    {a b : Expr}
    (hTyped : (Expr.gate m op a b).Typed Γ)
    (ha : ∀ {t : Hdl.Expr}, a.ReadsAs t →
      Gets I (operand t) (Restores Δ a))
    (hb : ∀ {t : Hdl.Expr}, b.ReadsAs t →
      Gets I (operand t) (Restores Δ b))
    {t : Hdl.Expr}
    (hRead : (Expr.gate m op a b).ReadsAs t) :
    Gets I (operand t) (Restores Δ (.gate m op a b)) := by
  have hValue := fun τ =>
    op.apply_operator (a.value τ) (b.value τ) a.width
  have hBoth : ∀ {t : Hdl.Expr},
      t.IsBetween op.operator a.ReadsAs b.ReadsAs →
      Gets I (operand t)
        (Operand.Denotes Δ a.width fun τ =>
          (gateOf op.operator).apply (a.value τ) (b.value τ)
            a.width) := by
    rintro _ ⟨l, r, inner, outer, rfl, hl, hr⟩
    have hRight := hb hr
    rw [Restores, ← hTyped.2.2] at hRight
    rw [operand]
    exact gets_gate (ha hl) hRight op inner
  rw [Expr.ReadsAs] at hRead
  split at hRead
  case isTrue hNegated =>
      rcases hRead with ⟨x, span, rfl, hx⟩
      apply (gets_bitNot (hBoth hx) span).congr
      intro τ
      have hSame := hValue τ
      rw [if_pos hNegated] at hSame
      exact hSame.symm
  case isFalse hPositive =>
      apply (hBoth hRead).congr
      intro τ
      have hSame := hValue τ
      rw [if_neg hPositive] at hSame
      exact hSame.symm

/- A list in braces denotes what its parts do side by side. -/
theorem gets_concatTree
    {I : Scope → Prop}
    {m : Mark}
    {parts : List Expr}
    (hTyped : (Expr.concat m parts).Typed Γ)
    (hEach : ∀ p ∈ parts, ∀ t, p.ReadsAs t →
      Gets I (operand t) (Restores Δ p))
    {t : Hdl.Expr}
    (hRead : (Expr.concat m parts).ReadsAs t) :
    Gets I (operand t) (Restores Δ (.concat m parts)) := by
  rcases hRead with ⟨es, span, rfl, hes⟩
  rcases hTyped with ⟨hAll, hSome, hTotal⟩
  rw [operand]
  apply (gets_operands hEach hes).bind
  rintro xs ⟨hxs, hMeanings⟩
  -- The parts make the same number because each one does.
  have hJoined := congrArg Meaning.joined hMeanings
  rw [Meaning.joined_sized, Meaning.joined_sized] at hJoined
  have hWidth : Expr.totalWidth xs = Expr.totalWidth parts :=
    congrArg Meaning.width hJoined
  have hParts := Expr.denotes_concat
    (Expr.typedAll_iff.mp hAll) hSome hTotal
  have hNonempty : xs ≠ [] := by
    rintro rfl
    exact hSome (List.map_eq_nil_iff.mp hMeanings.symm)
  have hLowered := gets_concat (I := I) hxs hNonempty
    (hWidth ▸ hTotal) span
  rw [hWidth] at hLowered
  apply hLowered.sized.congr
  intro τ
  have hDigits : Expr.digitsOf τ 0 xs = Expr.digitsOf τ 0 parts :=
    congrFun (congrArg Meaning.own hJoined) τ
  rw [hDigits]
  exact (hParts.value_eq τ).symm

include hΓ

/-
  The tree of a printed expression is lowered to an operand
  that denotes what the expression does: by induction on the
  expression, with one step lemma for each form of tree.
-/
theorem gets_operand
    {e : Expr}
    (hTyped : e.Typed Γ)
    (hPlain : e.isPlain = true)
    {t : Hdl.Expr}
    (hRead : e.ReadsAs t) :
    Gets scope.Agrees (operand t) (Restores Δ e) := by
  induction e generalizing t with
  | const m c =>
      rcases hRead with ⟨span, rfl⟩
      exact gets_const hTyped
        (Option.isNone_iff_eq_none.mp hPlain) span
  | var m v =>
      rcases hRead with ⟨span, rfl⟩
      rw [operand]
      apply (gets_lookup (hΓ v hTyped.2.2).1 span).bind
      intro u hu
      exact (gets_kept (denotes_declared hΓ hTyped hu)).sized
  | not m x ih =>
      rcases hRead with ⟨_, outer, rfl, y, span, rfl, hy⟩
      rw [operand]
      exact gets_bitNot (ih hTyped.1 hPlain hy) span
  | gate m op a b iha ihb =>
      rcases Bool.and_eq_true_iff.mp hPlain with ⟨ha, hb⟩
      exact gets_gateTree hTyped (iha hTyped.1 ha)
        (ihb hTyped.2.1 hb) hRead
  | compare m op a b iha ihb =>
      rcases Bool.and_eq_true_iff.mp hPlain with ⟨ha, hb⟩
      rcases hRead with ⟨l, r, inner, outer, rfl, hl, hr⟩
      have hRight := ihb hTyped.2.1 hb hr
      rw [Restores, ← hTyped.2.2] at hRight
      rw [operand]
      apply (gets_comparison (iha hTyped.1 ha hl) hRight op
        inner).congr
      exact fun τ => (Expr.value_compare hTyped τ).symm
  | mux m s t f ihs iht ihf =>
      simp only [Expr.isPlain, Bool.and_eq_true] at hPlain
      rcases hPlain with ⟨⟨hs, ht⟩, hf⟩
      rcases hRead with ⟨c, x, y, inner, outer, rfl, hc, hx, hy⟩
      rcases hTyped with ⟨hsTyped, htTyped, hfTyped, hBit, hWidths⟩
      have hCond := ihs hsTyped hs hc
      rw [Restores, hBit] at hCond
      have hFalse := ihf hfTyped hf hy
      rw [Restores, ← hWidths] at hFalse
      rw [operand]
      apply (gets_choice (iht htTyped ht hx) hFalse hCond inner).congr
      exact fun τ => (Expr.value_mux
        ⟨hsTyped, htTyped, hfTyped, hBit, hWidths⟩ τ).symm
  | bit m b i ih =>
      rcases hRead with ⟨base, index, span, rfl, hBase, hIndex⟩
      cases b with
      | var n v =>
          rw [operand]
          exact (gets_bitSelect hΓ hTyped hBase hIndex span).sized
      | _ => cases hPlain
  | part m b h l ih =>
      rcases hRead with ⟨base, msb, lsb, span, rfl, hBase, hm, hl⟩
      cases b with
      | var n v =>
          rw [operand]
          exact (gets_partSelect hΓ hTyped hBase hm hl span).sized
      | _ => cases hPlain
  | concat m parts ih =>
      apply gets_concatTree hTyped ?_ hRead
      intro p hp t ht
      exact ih p hp (Expr.typedAll_iff.mp hTyped.1 p hp)
        (Expr.isPlainAll_iff.mp hPlain p hp) ht

theorem gets_expr
    {e : Expr}
    (hTyped : e.Typed Γ)
    (hPlain : e.isPlain = true)
    {t : Hdl.Expr}
    (hRead : e.ReadsAs t) :
    Gets scope.Agrees (expr t)
      (·.Denotes Δ e.width (fun τ => e.value τ)) := by
  apply (gets_operand hΓ hTyped hPlain hRead).bindSized
  intro x hx
  exact gets_pure hx

end Lower

end Gatework

------------------------------------------------------------
-- Printing and reading back
------------------------------------------------------------

namespace Gatework

/-
  The infix form of an expression reads back as the same
  logic. Its text has no flaw, the parser stops only at the
  end of the file and reports nothing, and lowering succeeds
  with an expression of the same width and the same values.
  Each name occurs at one width, the one it is declared at.
-/
theorem verilog_reads_back
    {e : Expr}
    (hValid : e.validate = .ok ())
    (hPlain : e.isPlain = true)
    (file : Option Nat)
    (s : Setting)
    {p : Progress}
    (hDeclared : ∀ v ∈ e.occurrences, p.scope.Declares v) :
    let lexed := Hdl.lex file e.verilog
    let parsed := Hdl.Parse.expression { rest := lexed.tokens }
    lexed.problems = [] ∧
      parsed.2.rest.map Hdl.Token.kind = [.endOfFile] ∧
      parsed.2.findings = {} ∧
      ∃ x p', Lower.expr parsed.1 s p = (.ok x, p') ∧
        x.width = e.width ∧
        ∀ ρ : Valuation, (∀ v ∈ e.occurrences, (ρ v.name).isSome) →
          ∃ n, e.eval ρ = .ok n ∧ x.eval ρ = .ok n := by
  intro lexed parsed
  have hTyped : e.Typed (· ∈ e.occurrences) :=
    Expr.typed_of_validate hValid fun _ hv => hv
  rcases Hdl.Parse.expression_verilog hTyped hPlain
    { rest := lexed.tokens } rfl with ⟨hTree, hRest, hFindings⟩
  have hKinds := congrArg (List.map Hdl.Word.kind) hRest
  rw [List.map_map] at hKinds
  have hΓ : ∀ v, v ∈ e.occurrences → p.scope.Declares v ∧
      ∀ u : Var, u.name = v.name →
        ∃ w ∈ e.occurrences, u.name = w.name :=
    fun v hv => ⟨hDeclared v hv, fun u hu => ⟨v, hv, hu⟩⟩
  rcases Lower.gets_expr hΓ hTyped hPlain hTree s p ⟨rfl, rfl⟩ with
    ⟨x, p', hRun, _, hx⟩
  refine ⟨(Expr.lex_verilog hPlain file).2, hKinds, hFindings, x, p',
    hRun, hx.width_eq, ?_⟩
  intro ρ hBound
  have hValues : ∀ v ∈ e.occurrences,
      ρ v.name = some ((ρ v.name).getD 0) := by
    intro v hv
    rcases Option.isSome_iff_exists.mp (hBound v hv) with ⟨n, hn⟩
    rw [hn]
    rfl
  refine ⟨e.value fun n => (ρ n).getD 0, ?_, ?_⟩
  · exact Expr.eval_eq_value hValues
  · rw [Expr.eval_eq_value, hx.value_eq]
    intro u hu
    rcases hx.typed.mem hu with ⟨v, hv, hName⟩
    rw [hName]
    exact hValues v hv

/- Signals `c`, `a[3:0]` and `v[7:0]`. -/
def printedScope : Scope :=
  { signals :=
      ((NameMap.empty.insert "c" ⟨"c", 1, false⟩).insert "a"
        ⟨"a", 4, true⟩).insert "v" ⟨"v", 8, false⟩
    ranges :=
      (NameMap.empty.insert "a" (3, 0)).insert "v" (7, 0) }

/-
  The expression `{((v[0:3] != ~(a ^ 4'sd5)) ? {v[6:5], 2'b01}
  : ~(a | 4'o7)), (~c[0]), 8'ha5}`.
-/
def printedWord : Expr :=
  let a := Expr.var none ⟨"a", 4, false⟩
  let c := Expr.var none ⟨"c", 1, false⟩
  let v := Expr.var none ⟨"v", 8, false⟩
  let number := fun value width signed base =>
    Expr.const none ⟨value, width, signed, base, none⟩
  .concat none
    [.mux none
      (.compare none .neq (.part none v 0 3)
        (.gate none .xnor a (number 5 4 true (some .decimal))))
      (.concat none [.part none v 6 5, number 1 2 false none])
      (.gate none .nor a (number 7 4 false (some .octal))),
    .not none (.bit none c 0),
    number 165 8 false (some .hex)]

theorem verilog_reads_back_printedWord :
    printedWord.verilog =
        "\x7b((v[0:3] != ~(a ^ 4'sd5)) ? \x7bv[6:5], 2'b01\x7d " ++
          ": ~(a | 4'o7)), (~c[0]), 8'ha5\x7d" ∧
      ∃ x p', Lower.expr
          (Hdl.Parse.expression
            { rest := (Hdl.lex none printedWord.verilog).tokens }).1
          ⟨{}, []⟩ { scope := printedScope } = (.ok x, p') ∧
        x.width = 13 ∧
        x.eval (fun n => if n = "v" then some 74 else some 10) =
          .ok 5029 := by
  have hDeclared : ∀ v ∈ printedWord.occurrences,
      printedScope.Declares v := by
    change ∀ v ∈ [⟨"v", 8, false⟩, ⟨"a", 4, false⟩,
      ⟨"v", 8, false⟩, ⟨"a", 4, false⟩, ⟨"c", 1, false⟩],
        printedScope.Declares v
    simp only [List.forall_mem_cons]
    refine ⟨?_, ?_, ?_, ?_, ?_, nofun⟩
    all_goals exact ⟨⟨_, rfl, rfl, rfl⟩, rfl⟩
  have hValue : printedWord.eval
      (fun n => if n = "v" then some 74 else some 10) = .ok 5029 := by
    decide +kernel
  rcases verilog_reads_back (e := printedWord) rfl
    (by decide +kernel) none ⟨{}, []⟩
    (p := { scope := printedScope }) hDeclared with
    ⟨_, _, _, x, p', hRun, hWidth, hValues⟩
  rcases hValues (fun n => if n = "v" then some 74 else some 10)
    (by decide +kernel) with ⟨n, hBefore, hAfter⟩
  refine ⟨by decide +kernel, x, p', hRun, hWidth, ?_⟩
  rw [hAfter, ← hBefore, hValue]

end Gatework
