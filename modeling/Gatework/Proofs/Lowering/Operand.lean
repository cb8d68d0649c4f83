import Gatework.Lowering.Expr
import Gatework.Proofs.Expr.Denotes
import Gatework.Proofs.Lowering.Meaning

/-
  What operators make of their operands.

  An operand has a meaning: that of the expression it is, or
  that of an open literal. Each step of lowering that combines
  operands gives an expression with the combined meaning, and
  no node that it builds fails its check.

  Key definitions include:
    * `Operand.meaning` and `Operand.Typed`

  Key theorems include:
    * `Lower.ensures_ownWidth`, `Lower.ensures_truth` and
      `Lower.ensures_fit`
    * `Lower.ensures_unify`
    * `Lower.ensures_equality`
    * `Lower.ensures_concat`
-/

------------------------------------------------------------
-- Nodes
------------------------------------------------------------

namespace Gatework

namespace Expr

variable {Γ : Var → Prop}

/- A well-typed node passes its check; signals also need a name. -/
theorem make_eq_ok_of_typed
    {e : Expr}
    (he : e.Typed Γ)
    (hVar : e.asVar? = none) :
    e.make = .ok e := by
  have hCheck : e.checkNode = .ok () := by
    rw [checkNode_eq_ok_iff]
    cases e with
    | const m c => exact he
    | var m v => cases hVar
    | not m x => exact he.2
    | gate m op a b => exact he.2.2
    | compare m op a b => exact he.2.2
    | mux m s t f => exact he.2.2.2
    | bit m b i => exact he.2
    | part m b h l => exact he.2
    | concat m parts => exact he.2
  rw [make, hCheck]
  rfl

end Expr

namespace Lower

variable {flawed : Prop}
variable {I : Scope → Prop}
variable {Γ : Var → Prop}
variable {e : Expr}

theorem ensures_kept
    {width : Nat}
    {f : (String → Nat) → Nat}
    (he : e.Denotes Γ width f) :
    Ensures flawed I (keep e) (·.Denotes Γ width f) :=
  (ensures_keep e).imp fun _ hSame => he.of_unmarked hSame

theorem ensures_keptBit
    {b : (String → Nat) → Bool}
    (he : Expr.IsBit Γ e b) :
    Ensures flawed I (keep e) (Expr.IsBit Γ · b) :=
  (ensures_kept he.denotes).imp fun _ h => h.isBit

/- A node on typed operands passes and is only marked. -/
theorem ensures_node
    (he : e.Typed Γ)
    (hVar : e.asVar? = none) :
    Ensures flawed I (node e)
      (fun e' => e'.unmarked = e.unmarked) := by
  have hMake := Expr.make_eq_ok_of_typed he hVar
  unfold node
  rw [hMake]
  exact ensures_keep e

theorem ensures_nodeNumber
    {width : Nat}
    {f : (String → Nat) → Nat}
    (he : e.Denotes Γ width f)
    (hVar : e.asVar? = none) :
    Ensures flawed I (node e) (·.Denotes Γ width f) :=
  (ensures_node he.typed hVar).imp
    fun _ hSame => he.of_unmarked hSame

theorem ensures_nodeBit
    {b : (String → Nat) → Bool}
    (he : Expr.IsBit Γ e b)
    (hVar : e.asVar? = none) :
    Ensures flawed I (node e) (Expr.IsBit Γ · b) :=
  (ensures_nodeNumber he.denotes hVar).imp fun _ h => h.isBit

end Lower

end Gatework

------------------------------------------------------------
-- Operands
------------------------------------------------------------

namespace Gatework

namespace Operand

/- What an operand means. -/
def meaning : Operand → Meaning
  | .sized e => .fixed e.width fun τ => e.value τ
  | .unsized l => ⟨true, l.width, fun _ width => l.valueAt width⟩

/- A typed expression, or a literal that is still open. -/
def Typed
    (Γ : Var → Prop) :
    Operand → Prop
  | .sized e => e.Typed Γ
  | .unsized l =>
      l.Fits ∧ l.sized = false ∧ l.valueAt l.width = l.value

end Operand

theorem Expr.Denotes.meaning_eq
    {Γ : Var → Prop}
    {e : Expr}
    {width : Nat}
    {f : (String → Nat) → Nat}
    (he : e.Denotes Γ width f) :
    (Operand.sized e).meaning = .fixed width f := by
  rw [Operand.meaning, he.width_eq, funext he.value_eq]

namespace Lower

variable {flawed : Prop}
variable {I : Scope → Prop}
variable {Γ : Var → Prop}
variable {op a b : Operand}

theorem ensures_ownWidth
    (hOp : op.Typed Γ) :
    Ensures flawed I (ownWidth op)
      (·.Denotes Γ op.meaning.width op.meaning.own) := by
  cases op with
  | sized e => exact ensures_pure hOp.denotes
  | unsized l =>
      rcases hOp with ⟨hFits, _, hOwn⟩
      have hConst : (Expr.const none l.toConst).Typed Γ := hFits
      apply ensures_kept
      exact (Expr.denotes_const hConst).congr fun _ => hOwn.symm

/- A condition is one bit, and a vector holds if it is not 0. -/
theorem ensures_truth
    (hOp : op.Typed Γ) :
    Ensures flawed I (truth op)
      (Expr.IsBit Γ · op.meaning.holds) := by
  apply (ensures_ownWidth hOp).bind
  intro e he
  split
  case isTrue hWidth =>
      apply ensures_pure
      apply (Expr.isBit_self he.typed hWidth).congr
      intro τ
      have hValue := eq_toNat_testBit
        (hWidth ▸ he.typed.value_lt τ)
      unfold Meaning.holds
      rw [← he.value_eq τ]
      cases hBit : (e.value τ).testBit 0 with
      | true =>
          rw [hBit] at hValue
          rw [hValue]
          rfl
      | false =>
          rw [hBit] at hValue
          rw [hValue]
          rfl
  case isFalse =>
      apply ensures_keptBit
      apply (Expr.isBit_equalsConst he.typed
        (Nat.two_pow_pos _)).neg.congr
      intro τ
      rw [he.value_eq τ]
      rfl

theorem ensures_fit
    (hOp : op.Typed Γ)
    (width : Nat)
    (span : Span) :
    Ensures flawed I (fit op width span)
      (·.Denotes Γ width (op.meaning.value · width)) := by
  cases op with
  | sized e =>
      unfold fit
      dsimp only
      split
      case isTrue hWidth =>
          subst hWidth
          exact ensures_pure hOp.denotes
      case isFalse =>
          apply (ensures_textOf span).bind
          intro _ _
          exact ensures_fail rfl
  | unsized l =>
      rcases hOp with ⟨hFits, hUnsized, _⟩
      unfold fit
      dsimp only
      split
      case h_1 c hFit =>
          rcases Hdl.Literal.fits_fit? hFits hFit with
            ⟨hConst, rfl⟩
          have hTyped : (Expr.const none c).Typed Γ := hConst
          apply ensures_kept
          apply (Expr.denotes_const hTyped).congr
          intro τ
          exact Hdl.Literal.value_fit? hUnsized hFit
      case h_2 => exact ensures_fail rfl

/- Both operands at their common width. -/
theorem ensures_unify
    (ha : a.Typed Γ)
    (hb : b.Typed Γ)
    (aSpan bSpan : Span) :
    Ensures flawed I (unify a b aSpan bSpan)
      (fun xy =>
        xy.1.Denotes Γ (a.meaning.common b.meaning)
          (a.meaning.value · (a.meaning.common b.meaning)) ∧
        xy.2.Denotes Γ (a.meaning.common b.meaning)
          (b.meaning.value · (a.meaning.common b.meaning))) := by
  cases a with
  | sized x =>
      cases b with
      | sized y =>
          unfold unify
          dsimp only
          split
          case isTrue hWidths =>
              apply ensures_pure
              refine ⟨ha.denotes, hb, hWidths.symm, ?_⟩
              exact fun _ => rfl
          case isFalse =>
              apply (ensures_textOf aSpan).bind
              intro _ _
              apply (ensures_textOf bSpan).bind
              intro _ _
              exact ensures_fail rfl
      | unsized l =>
          apply (ensures_fit hb x.width bSpan).bind
          intro y hy
          exact ensures_pure ⟨ha.denotes, hy⟩
  | unsized l =>
      cases b with
      | sized y =>
          apply (ensures_fit ha y.width aSpan).bind
          intro x hx
          exact ensures_pure ⟨hx, hb.denotes⟩
      | unsized r =>
          apply (ensures_fit ha _ aSpan).bind
          intro x hx
          apply (ensures_fit hb _ bSpan).bind
          intro y hy
          exact ensures_pure ⟨hx, hy⟩

end Lower

end Gatework

------------------------------------------------------------
-- Operators
------------------------------------------------------------

namespace Gatework

namespace Operand

variable {Γ : Var → Prop}

/- A constant operand compared at a width is a number. -/
theorem constant?_spec
    {op : Operand}
    (hOp : op.Typed Γ)
    {width value : Nat}
    (hValue : op.constant? width = some value) :
    value < 2 ^ maxWidth ∧
      ∀ τ, op.meaning.value τ width = value := by
  have hFits : ∀ c : Const, c.Fits → c.value < 2 ^ maxWidth := by
    intro c hc
    exact Nat.lt_of_lt_of_le hc.2.2
      (Nat.pow_le_pow_right (by decide) hc.2.1)
  cases op with
  | sized e =>
      rcases Option.map_eq_some_iff.mp hValue with ⟨c, hc, rfl⟩
      cases e with
      | const m d =>
          cases hc
          have hConst : (Expr.const m c).Typed Γ := hOp
          exact ⟨hFits c hConst, Expr.value_const hConst⟩
      | _ => cases hc
  | unsized l =>
      rcases hOp with ⟨hLiteral, hUnsized, _⟩
      rw [constant?] at hValue
      split at hValue
      case h_1 =>
          rcases Option.map_eq_some_iff.mp hValue with
            ⟨c, hc, rfl⟩
          refine ⟨?_, fun _ => ?_⟩
          · exact hFits c (Hdl.Literal.fits_fit? hLiteral hc).1
          · exact (Hdl.Literal.value_fit? hUnsized hc).symm
      case h_2 hFill =>
          cases hValue
          refine ⟨hFits l.toConst hLiteral, fun _ => ?_⟩
          simp [meaning, Hdl.Literal.valueAt, hFill]

theorem eq_sized_of_subject?
    {op : Operand}
    {e : Expr}
    (hSubject : op.subject? = some e) :
    op = .sized e := by
  cases op with
  | sized x =>
      rw [subject?] at hSubject
      split at hSubject
      case isTrue =>
          cases hSubject
          rfl
      case isFalse => cases hSubject
  | unsized l => cases hSubject

/-
  A test compares a typed subject with a number, and holds
  where the operands are equal.
-/
theorem test?_spec
    {a b : Operand}
    (ha : a.Typed Γ)
    (hb : b.Typed Γ)
    {subject : Expr}
    {value : Nat}
    (hTest : a.test? b = some (subject, value)) :
    subject.Typed Γ ∧ value < 2 ^ maxWidth ∧
      ∀ τ, (subject.value τ == value) =
        a.meaning.equals b.meaning τ := by
  unfold test? at hTest
  split at hTest
  case h_1 e hSubject =>
      rcases Option.map_eq_some_iff.mp hTest with ⟨v, hv, hPair⟩
      cases hPair
      cases eq_sized_of_subject? hSubject
      rcases constant?_spec hb hv with ⟨hLt, hValue⟩
      refine ⟨ha, hLt, fun τ => ?_⟩
      rw [← hValue τ]
      rfl
  case h_2 =>
      split at hTest
      case h_2 => cases hTest
      case h_1 e hSubject =>
          rcases Option.map_eq_some_iff.mp hTest with
            ⟨v, hv, hPair⟩
          cases hPair
          cases eq_sized_of_subject? hSubject
          rcases constant?_spec ha hv with ⟨hLt, hValue⟩
          refine ⟨hb, hLt, fun τ => ?_⟩
          rw [← hValue τ, Bool.beq_comm]
          cases a with
          | sized x => rfl
          | unsized l => rfl

end Operand

namespace Lower

variable {flawed : Prop}
variable {I : Scope → Prop}
variable {Γ : Var → Prop}
variable {a b : Operand}

/-
  Equality as a comparison, as a test bit by bit, or constant
  where the number has bits the subject has not.
-/
theorem ensures_equality
    (ha : a.Typed Γ)
    (hb : b.Typed Γ)
    (op : CmpOp)
    (aSpan bSpan span : Span) :
    Ensures flawed I (equality a b op aSpan bSpan span)
      (Expr.IsBit Γ ·
        (fun τ => op.holds (a.meaning.equals b.meaning τ))) := by
  unfold equality
  split
  case h_1 =>
      apply (ensures_unify ha hb aSpan bSpan).bind
      rintro ⟨x, y⟩ ⟨hx, hy⟩
      exact ensures_nodeBit (hx.compare hy op).isBit rfl
  case h_2 subject value hTest =>
      rcases Operand.test?_spec ha hb hTest with
        ⟨hSubject, hValue, hEqual⟩
      have hSame := (Expr.isBit_equalsConst hSubject hValue).congr
        hEqual
      split
      case isTrue hWide =>
          apply (ensures_warn _).bind
          intro _ _
          apply ensures_keptBit
          apply (Expr.isBit_ofBool _).congr
          intro τ
          rw [← hEqual τ]
          have hLt := hSubject.value_lt τ
          have hGe : 2 ^ subject.width ≤ value := by
            rw [Nat.shiftRight_eq_div_pow] at hWide
            exact Nat.le_of_not_lt fun h =>
              hWide.2 (Nat.div_eq_of_lt h)
          have hNe : (subject.value τ == value) = false :=
            beq_false_of_ne (by omega)
          rw [hNe]
      case isFalse =>
          cases op with
          | eq => exact ensures_keptBit hSame
          | neq => exact ensures_keptBit hSame.neg

end Lower

namespace Expr

theorem totalWidth_append
    (ps qs : List Expr) :
    totalWidth (ps ++ qs) = totalWidth ps + totalWidth qs := by
  induction ps with
  | nil => simp [totalWidth]
  | cons p ps ih =>
      rw [List.cons_append, totalWidth, totalWidth, ih,
        Nat.add_assoc]

theorem totalWidth_replicate
    (parts : List Expr)
    (times : Nat) :
    totalWidth (List.replicate times parts).flatten =
      totalWidth parts * times := by
  induction times with
  | zero => rfl
  | succ times ih =>
      rw [List.replicate_succ, List.flatten_cons,
        totalWidth_append, ih, Nat.mul_succ, Nat.add_comm]

end Expr

/- Parts side by side mean the number they make. -/
theorem Meaning.joined_sized
    (parts : List Expr) :
    joined (parts.map fun p => (Operand.sized p).meaning) =
      fixed (Expr.totalWidth parts)
        (fun τ => Expr.digitsOf τ 0 parts) := by
  have hSum : ∀ ps : List Expr,
      ((ps.map fun p => (Operand.sized p).meaning).map width).sum
        = Expr.totalWidth ps := by
    intro ps
    induction ps with
    | nil => rfl
    | cons p ps ih =>
        rw [List.map_cons, List.map_cons, List.sum_cons, ih]
        rfl
  unfold joined
  rw [hSum]
  congr 1
  funext τ
  rw [List.foldl_map]
  rfl

namespace Lower

variable {flawed : Prop}
variable {I : Scope → Prop}
variable {Γ : Var → Prop}

/-
  A concatenation is as wide as its parts. It fails its check
  only if it has none.
-/
theorem ensures_concat
    {parts : List Expr}
    (hParts : ∀ p ∈ parts, p.Typed Γ)
    (hBare : parts = [] → flawed)
    (n : Nat)
    (span : Span) :
    Ensures flawed I (concat parts (n + 1) span)
      (fun e => e.Typed Γ ∧
        (Operand.sized e).meaning =
          .joined (List.replicate (n + 1)
            (parts.map fun p =>
              (Operand.sized p).meaning)).flatten) := by
  have hAll : ∀ p ∈ (List.replicate (n + 1) parts).flatten,
      p.Typed Γ := by
    intro p hp
    rcases List.mem_flatten.mp hp with ⟨ps, hps, hMem⟩
    rw [List.eq_of_mem_replicate hps] at hMem
    exact hParts p hMem
  have hTotal := Expr.totalWidth_replicate parts (n + 1)
  have hNone : (List.replicate (n + 1) parts).flatten = [] →
      flawed := by
    intro hNil
    rw [List.replicate_succ, List.flatten_cons,
      List.append_eq_nil_iff] at hNil
    exact hBare hNil.1
  rw [← List.map_replicate, ← List.map_flatten,
    Meaning.joined_sized]
  unfold concat
  dsimp only
  split
  case isTrue => exact ensures_fail rfl
  case isFalse hRoom =>
      rw [← hTotal] at hRoom
      generalize (List.replicate (n + 1) parts).flatten = all
        at hAll hNone hRoom ⊢
      split
      case h_1 e =>
          have he : e.Denotes Γ (Expr.totalWidth [e])
              (fun τ => Expr.digitsOf τ 0 [e]) := by
            refine ⟨hAll e (List.mem_singleton_self e), rfl, ?_⟩
            intro τ
            simp [Expr.digitsOf]
          exact ensures_pure ⟨he.typed, he.meaning_eq⟩
      case h_2 =>
          by_cases hNil : all = []
          · rw [hNil]
            apply Ensures.bind (P := fun _ => False)
            · apply ensures_checked
              · intro _ hOk
                cases hOk
              · exact fun _ _ => hNone hNil
            · exact fun _ hFalse => hFalse.elim
          · apply (ensures_nodeNumber (Expr.denotes_concat hAll hNil
              (Nat.le_of_not_lt hRoom)) rfl).imp
            exact fun e he => ⟨he.typed, he.meaning_eq⟩

theorem ensures_complement
    {e : Expr}
    (he : e.Typed Γ) :
    Ensures flawed I (complement e)
      (·.Denotes Γ e.width
        (fun τ => 2 ^ e.width - 1 - e.value τ)) := by
  unfold complement
  split
  case isTrue hWidth =>
      apply ensures_nodeNumber ?_ rfl
      refine ⟨⟨he, hWidth⟩, rfl, fun τ => ?_⟩
      exact complement_eq_sub he.width_le (he.value_lt τ)
  case isFalse =>
      exact ensures_nodeNumber (Expr.denotes_complement he) rfl

variable {a b : Operand}

theorem ensures_logNot
    (ha : a.Typed Γ) :
    Ensures flawed I (unary .logNot a)
      (Expr.IsBit Γ · (fun τ => !a.meaning.holds τ)) := by
  apply (ensures_truth ha).bind
  intro e he
  exact ensures_keptBit he.neg

theorem ensures_bitNot
    (ha : a.Typed Γ) :
    Ensures flawed I (unary .bitNot a)
      (fun e => e.Typed Γ ∧
        (Operand.sized e).meaning = a.meaning.inverted) := by
  apply (ensures_ownWidth ha).bind
  intro e he
  apply (ensures_complement he.typed).imp
  intro e' he'
  refine ⟨he'.typed, ?_⟩
  rw [he'.meaning_eq, he.width_eq]
  simp only [he.value_eq]
  rfl

/- The gate of a bitwise operator computes it on numbers. -/
theorem apply_gateOf
    (op : Hdl.BinaryOp)
    {width x y : Nat}
    (hWidth : width ≤ maxWidth)
    (hx : x < 2 ^ width)
    (hy : y < 2 ^ width) :
    (gateOf op).apply x y width = op.onNumbers width x y := by
  have hAnd := and_mask_of_lt hWidth (Nat.and_lt_two_pow x hy)
  have hOr := and_mask_of_lt hWidth (Nat.or_lt_two_pow hx hy)
  have hXor := and_mask_of_lt hWidth (Nat.xor_lt_two_pow hx hy)
  have hXnor := complement_eq_sub hWidth (Nat.xor_lt_two_pow hx hy)
  cases op with
  | bitOr => exact hOr
  | bitXor => exact hXor
  | bitXnor => exact hXnor
  | _ => exact hAnd

theorem ensures_bitwise
    (op : Hdl.BinaryOp)
    (ha : a.Typed Γ)
    (hb : b.Typed Γ)
    (aSpan bSpan : Span) :
    Ensures flawed I (bitwise (gateOf op) a b aSpan bSpan)
      (fun e => e.Typed Γ ∧
        (Operand.sized e).meaning =
          a.meaning.both b.meaning fun _ x y =>
            op.onNumbers (a.meaning.common b.meaning) x y) := by
  apply (ensures_unify ha hb aSpan bSpan).bind
  rintro ⟨x, y⟩ ⟨hx, hy⟩
  have hGate := (hx.gate hy (gateOf op)).congr fun τ =>
    apply_gateOf op hx.width_le (hx.lt τ) (hy.lt τ)
  apply (ensures_nodeNumber hGate rfl).imp
  intro e he
  exact ⟨he.typed, he.meaning_eq⟩

end Lower

end Gatework
