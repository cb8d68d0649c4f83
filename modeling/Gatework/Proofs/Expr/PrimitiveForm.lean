import Gatework.Expr.Measures
import Gatework.Proofs.Expr.Decomposition
import Gatework.Proofs.Expr.Known

/-
  The form of decomposed expressions.

  A bit of a decomposed expression consists of AND, OR and
  NOT over signals, bits of signals and constants. A rule of
  simplification gives a constant or an operand, possibly
  negated, so simplification stays within the form.

  Key definitions include:
    * `Expr.inPrimitives`, the form
    * `Expr.PrimitiveBit`, a typed bit in this form

  Key theorems include:
    * `Expr.isPrimitive_primitiveBit`
    * `Expr.PrimitiveBit.simplify`
    * `Expr.toPrimitives_exact`
-/

------------------------------------------------------------
-- Only AND, OR and NOT
------------------------------------------------------------

namespace Gatework

namespace Expr

/- A leaf, or single bits by AND, OR and NOT side by side. -/
def wordInPrimitives : Expr → Bool
  | const _ _ => true
  | var _ _ => true
  | concat _ parts =>
      parts.all fun p => p.width == 1 && p.isPrimitive
  | _ => false

/- The form of a decomposed expression, bit or word. -/
def inPrimitives
    (e : Expr) :
    Bool :=
  if e.width = 1 then e.isPrimitive else e.wordInPrimitives

@[simp]
theorem isPrimitive_neg
    (x : Expr) :
    (neg x).isPrimitive = x.isPrimitive :=
  rfl

@[simp]
theorem isPrimitive_conj
    (x y : Expr) :
    (conj x y).isPrimitive = (x.isPrimitive && y.isPrimitive) :=
  rfl

@[simp]
theorem isPrimitive_disj
    (x y : Expr) :
    (disj x y).isPrimitive = (x.isPrimitive && y.isPrimitive) :=
  rfl

@[simp]
theorem isPrimitive_ofBool
    (b : Bool) :
    (ofBool b).isPrimitive = true :=
  rfl

@[simp]
theorem isPrimitive_primitiveGate
    (op : GateOp)
    (x y : Expr) :
    (primitiveGate op x y).isPrimitive =
      (x.isPrimitive && y.isPrimitive) := by
  cases op <;> simp [primitiveGate, bitsDiffer]

theorem isPrimitive_foldl_conj
    {es : List Expr}
    {e : Expr} :
    (es.foldl (gate none .and) e).isPrimitive =
      (e.isPrimitive && es.all isPrimitive) := by
  induction es generalizing e with
  | nil => simp
  | cons x xs ih =>
      have hNext : (gate none .and e x).isPrimitive =
          (e.isPrimitive && x.isPrimitive) := rfl
      simp [ih, hNext, Bool.and_assoc]

/- A conjunction of bits by AND, OR and NOT. -/
theorem isPrimitive_conjAll
    {es : List Expr}
    (hAll : ∀ e ∈ es, e.isPrimitive = true) :
    ((conjAll? es).getD (ofBool true)).isPrimitive = true := by
  cases es with
  | nil => rfl
  | cons e es =>
      simp only [List.mem_cons, forall_eq_or_imp] at hAll
      simp [conjAll?, joinAll?, isPrimitive_foldl_conj, hAll.1,
        List.all_eq_true.mpr hAll.2]

theorem isPrimitive_primitiveParts
    {parts : List Expr}
    (hParts : ∀ p ∈ parts, ∀ index,
      (primitiveBit index p).isPrimitive = true)
    (place : Option Nat) :
    (primitiveParts place parts).isPrimitive = true := by
  induction parts with
  | nil => rw [primitiveParts]; rfl
  | cons p ps ih =>
      have hHead := hParts p (List.mem_cons_self ..)
      have hTail := ih
        (fun q hq => hParts q (List.mem_cons_of_mem _ hq))
      cases place with
      | none =>
          rw [primitiveParts]
          split <;> simp [hHead, hTail]
      | some i =>
          rw [primitiveParts]
          split
          · exact hTail
          · split <;> simp [hHead]

/- Whatever the tree, its bits are by AND, OR and NOT. -/
theorem isPrimitive_primitiveBit
    (e : Expr)
    (index : Option Nat) :
    (primitiveBit index e).isPrimitive = true := by
  induction e generalizing index with
  | const m c =>
      rw [primitiveBit]
      split <;> rfl
  | var m v =>
      rw [primitiveBit]
      split <;> rfl
  | not m x ih => simp [primitiveBit, ih]
  | gate m op a b iha ihb => simp [primitiveBit_gate, iha, ihb]
  | compare m op a b iha ihb =>
      have hAgree : ((conjAll? ((indicesDown
          (min a.width b.width)).map fun i =>
            bitsAgree (primitiveBit (some i) a)
              (primitiveBit (some i) b))).getD
                (ofBool true)).isPrimitive = true := by
        apply isPrimitive_conjAll
        intro x hx
        rcases List.mem_map.mp hx with ⟨i, _, rfl⟩
        simp [bitsAgree, iha, ihb]
      rw [primitiveBit]
      split
      · cases op <;> simp [bitsAgree, bitsDiffer, iha, ihb]
      · cases op <;> simp [hAgree]
  | mux m s t f ihs iht ihf =>
      simp [primitiveBit_mux, primitiveMux, ihs, iht, ihf]
  | bit m b i ih =>
      cases b with
      | var n v =>
          rw [primitiveBit]
          rfl
      | _ =>
          rw [primitiveBit]
          · exact ih (some i)
          · intro n v h
            cases h
  | part m b h l ih =>
      rw [primitiveBit]
      exact ih _
  | concat m parts ih =>
      rw [primitiveBit]
      exact isPrimitive_primitiveParts ih _

end Expr

end Gatework

------------------------------------------------------------
-- Simplification of the form
------------------------------------------------------------

namespace Gatework

namespace Expr

variable {Γ : Var → Prop}

/- A typed bit by AND, OR and NOT. -/
structure PrimitiveBit
    (Γ : Var → Prop)
    (e : Expr) :
    Prop where
  typed : e.Typed Γ
  width_eq : e.width = 1
  primitive : e.isPrimitive = true

namespace PrimitiveBit

theorem ofNat
    (x : Nat) :
    PrimitiveBit Γ (ofNat x 1) := by
  have hWord := isWord_ofNat (Γ := Γ) (Nat.le_refl 1)
    one_le_maxWidth x
  exact ⟨hWord.typed, hWord.width_eq, rfl⟩

theorem neg
    {x : Expr}
    {m : Mark}
    (hx : PrimitiveBit Γ x) :
    PrimitiveBit Γ (not m x) :=
  ⟨⟨hx.typed, hx.width_eq⟩, hx.width_eq, hx.primitive⟩

/- The operand of a negation. -/
theorem of_not
    {x : Expr}
    {m : Mark}
    (h : PrimitiveBit Γ (not m x)) :
    PrimitiveBit Γ x :=
  ⟨h.typed.1, h.typed.2, h.primitive⟩

/- A gate of the form has two bits of the form. -/
theorem of_gate
    {m : Mark}
    {op : GateOp}
    {a b : Expr}
    (h : PrimitiveBit Γ (gate m op a b)) :
    (op = .and ∨ op = .or) ∧
      PrimitiveBit Γ a ∧ PrimitiveBit Γ b := by
  rcases h with ⟨⟨ha, hb, hWidths⟩, hWidth, hPrimitive⟩
  have hLeft : a.width = 1 := hWidth
  have hRight : b.width = 1 := hWidths ▸ hLeft
  cases op with
  | and | or =>
      rw [isPrimitive, Bool.and_eq_true] at hPrimitive
      exact ⟨by simp, ⟨ha, hLeft, hPrimitive.1⟩,
        ⟨hb, hRight, hPrimitive.2⟩⟩
  | _ => cases hPrimitive

theorem gate
    {m : Mark}
    {op : GateOp}
    {a b : Expr}
    (hOp : op = .and ∨ op = .or)
    (ha : PrimitiveBit Γ a)
    (hb : PrimitiveBit Γ b) :
    PrimitiveBit Γ (gate m op a b) := by
  refine ⟨⟨ha.typed, hb.typed, ?_⟩, ha.width_eq, ?_⟩
  · rw [ha.width_eq, hb.width_eq]
  · rcases hOp with rfl | rfl <;>
      simp [isPrimitive, ha.primitive, hb.primitive]

end PrimitiveBit

theorem FromOperands.primitiveBit
    {a b e' : Expr}
    (h : FromOperands a b e')
    (ha : PrimitiveBit Γ a)
    (hb : PrimitiveBit Γ b) :
    PrimitiveBit Γ e' := by
  cases h with
  | nat x =>
      rw [ha.width_eq]
      exact .ofNat x
  | left => exact ha
  | right => exact hb
  | notLeft => exact ha.neg
  | notRight => exact hb.neg

namespace PrimitiveBit

variable {e e' : Expr}

/- A rule stays within the form. -/
theorem of_rule
    (h : PrimitiveBit Γ e)
    (hRule : reduce? e = some e') :
    PrimitiveBit Γ e' := by
  unfold reduce? at hRule
  split at hRule
  case h_1 => cases hRule
  case h_2 => cases hRule
  case h_3 m n c =>
      cases hRule
      rw [show c.width = 1 from h.width_eq]
      exact .ofNat _
  case h_4 =>
      cases hRule
      exact h.of_not.of_not
  case h_5 => cases hRule
  case h_6 m op a b =>
      rcases h.of_gate with ⟨_, ha, hb⟩
      split at hRule
      case h_1 =>
          cases hRule
          rw [ha.width_eq]
          exact .ofNat _
      case h_2 =>
          exact (fromOperands_of_rule hRule).primitiveBit ha hb
  case h_9 m b i =>
      -- Bits of the form are bits of signals.
      cases b with
      | var n v => cases hRule
      | _ => cases h.primitive
  all_goals cases h.primitive

theorem settleFor
    {n : Nat}
    (h : PrimitiveBit Γ e) :
    PrimitiveBit Γ (settleFor n e) := by
  induction n generalizing e with
  | zero => exact h
  | succ n ih =>
      rw [Expr.settleFor]
      cases hRule : reduce? e with
      | none => exact h
      | some e' => exact ih (h.of_rule hRule)

/- A simplified bit of the form is of the form. -/
theorem simplify
    (h : PrimitiveBit Γ e) :
    PrimitiveBit Γ e.simplify := by
  induction e with
  | const m c =>
      rw [Expr.simplify]
      exact h
  | var m v =>
      rw [Expr.simplify]
      exact h
  | not m x ih =>
      rw [Expr.simplify]
      exact (ih h.of_not).neg.settleFor
  | gate m op a b iha ihb =>
      rcases h.of_gate with ⟨hOp, ha, hb⟩
      rw [Expr.simplify]
      exact (gate hOp (iha ha) (ihb hb)).settleFor
  | bit m b i ih =>
      cases b with
      | var n v =>
          rw [Expr.simplify, Expr.simplify]
          exact settleFor ⟨h.typed, rfl, rfl⟩
      | _ => cases h.primitive
  | _ => cases h.primitive

end PrimitiveBit

/- Constant parts become one constant; others stay. -/
theorem settle_concat
    (m : Mark)
    (parts : List Expr) :
    settle (concat m parts) = concat m parts ∨
      ∃ x, settle (concat m parts) =
        ofNat x (totalWidth parts) := by
  have hConst : ∀ n x w, settleFor n (ofNat x w) = ofNat x w := by
    intro n x w
    cases n <;> rfl
  have hRule : reduce? (concat m parts) =
      (foldParts? 0 parts).map (ofNat · (totalWidth parts)) :=
    rfl
  rw [settle, size, settleFor, hRule]
  cases foldParts? 0 parts with
  | none => exact Or.inl rfl
  | some x => exact Or.inr ⟨x, hConst _ _ _⟩

theorem totalWidth_of_bits
    {parts : List Expr}
    (hBits : ∀ p ∈ parts, p.width = 1) :
    totalWidth parts = parts.length := by
  induction parts with
  | nil => rfl
  | cons p ps ih =>
      rw [totalWidth, hBits p (List.mem_cons_self ..),
        ih (fun q hq => hBits q (List.mem_cons_of_mem _ hq)),
        List.length_cons, Nat.add_comm]

/- Bits of the form side by side, each simplified. -/
theorem inPrimitives_settle_concat
    {m : Mark}
    {parts : List Expr}
    (he : (concat m parts).Typed Γ)
    (hWidth : (concat m parts).width ≠ 1)
    (hForm : (concat m parts).wordInPrimitives = true)
    (n : Mark) :
    (settle (concat n (parts.map simplify))).Typed Γ ∧
      (settle (concat n (parts.map simplify))).width =
        (concat m parts).width ∧
      (settle (concat n (parts.map simplify))).inPrimitives =
        true := by
  have hOld : ∀ p ∈ parts, PrimitiveBit Γ p := by
    intro p hp
    have hBit := List.all_eq_true.mp hForm p hp
    rw [Bool.and_eq_true, beq_iff_eq] at hBit
    exact ⟨typedAll_iff.mp he.1 p hp, hBit.1, hBit.2⟩
  have hNew : ∀ q ∈ parts.map simplify, PrimitiveBit Γ q := by
    intro q hq
    rcases List.mem_map.mp hq with ⟨p, hp, rfl⟩
    exact (hOld p hp).simplify
  have hTotal : totalWidth (parts.map simplify) =
      totalWidth parts := by
    rw [totalWidth_of_bits (fun q hq => (hNew q hq).width_eq),
      totalWidth_of_bits (fun p hp => (hOld p hp).width_eq),
      List.length_map]
  rcases settle_concat n (parts.map simplify) with h | ⟨x, h⟩
  · rw [h]
    refine ⟨⟨typedAll_iff.mpr (fun q hq => (hNew q hq).typed),
      ?_, ?_⟩, hTotal, ?_⟩
    · exact fun h => he.2.1 (List.map_eq_nil_iff.mp h)
    · rw [hTotal]
      exact he.2.2
    · rw [inPrimitives, if_neg (by rw [width, hTotal]; exact hWidth)]
      apply List.all_eq_true.mpr
      intro q hq
      simp [(hNew q hq).width_eq, (hNew q hq).primitive]
  · rw [h, hTotal]
    have hWord := isWord_ofNat (Γ := Γ) he.width_pos he.2.2 x
    refine ⟨hWord.typed, hWord.width_eq, ?_⟩
    rw [inPrimitives]
    split <;> rfl

/- Simplification keeps type, width and form. -/
theorem inPrimitives_simplify
    {e : Expr}
    (he : e.Typed Γ)
    (hForm : e.inPrimitives = true) :
    e.simplify.Typed Γ ∧ e.simplify.width = e.width ∧
      e.simplify.inPrimitives = true := by
  by_cases hWidth : e.width = 1
  · rw [inPrimitives, if_pos hWidth] at hForm
    have hBit : PrimitiveBit Γ e.simplify :=
      PrimitiveBit.simplify ⟨he, hWidth, hForm⟩
    refine ⟨hBit.typed, hBit.width_eq.trans hWidth.symm, ?_⟩
    rw [inPrimitives, if_pos hBit.width_eq]
    exact hBit.primitive
  · rw [inPrimitives, if_neg hWidth] at hForm
    cases e with
    | const m c =>
        rw [simplify, inPrimitives, if_neg hWidth]
        exact ⟨he, rfl, rfl⟩
    | var m v =>
        rw [simplify, inPrimitives, if_neg hWidth]
        exact ⟨he, rfl, rfl⟩
    | concat m parts =>
        rw [simplify, simplifyAll_eq_map]
        exact inPrimitives_settle_concat he hWidth hForm _
    | _ => cases hForm

end Expr

end Gatework

------------------------------------------------------------
-- Decomposition
------------------------------------------------------------

namespace Gatework

namespace Expr

theorem inPrimitives_toPrimitives
    {Γ : Var → Prop}
    {e : Expr}
    (he : e.Typed Γ) :
    e.toPrimitives.inPrimitives = true := by
  have hBits : (if e.width > 1 then
        concat none ((indicesDown e.width).map fun i =>
          primitiveBit (some i) e)
      else
        primitiveBit none e).inPrimitives = true := by
    by_cases hWide : e.width > 1
    · have hBit : ∀ i, i < e.width →
          (primitiveBit (some i) e).width = 1 :=
        fun i hi => (isBit_primitiveBit he (at_some hi)).width_eq
      rw [if_pos hWide, inPrimitives, width, totalWidth_bits hBit,
        if_neg (by omega)]
      apply List.all_eq_true.mpr
      intro p hp
      rcases List.mem_map.mp hp with ⟨i, hi, rfl⟩
      simp [hBit i (mem_indicesDown.mp hi),
        isPrimitive_primitiveBit]
    · have hOne : e.width = 1 := by
        have hPos := he.width_pos
        omega
      rw [if_neg hWide, inPrimitives,
        if_pos (isBit_primitiveBit he (at_none hOne)).width_eq]
      exact isPrimitive_primitiveBit e none
  cases e with
  | const m c =>
      rw [toPrimitives, inPrimitives]
      split <;> rfl
  | var m v =>
      rw [toPrimitives, inPrimitives]
      split <;> rfl
  | _ => exact hBits

/-
  Decomposition into primitives is total, complete and exact.
  Its rules come to an end with one result; this is valid, of
  the same width and by AND, OR and NOT; a simplification
  leaves it so; and it has the value of the expression where
  all signals of the expression have one.
-/
theorem toPrimitives_exact
    {e : Expr}
    (hValid : e.validate = .ok ()) :
    (∀ r, Decomposes e r ↔ r = e.toPrimitives) ∧
      e.toPrimitives.validate = .ok () ∧
      e.toPrimitives.width = e.width ∧
      e.toPrimitives.inPrimitives = true ∧
      e.toPrimitives.simplify.validate = .ok () ∧
      e.toPrimitives.simplify.width = e.width ∧
      e.toPrimitives.simplify.inPrimitives = true ∧
      ∀ ρ : Valuation,
        (∀ n ∈ e.freeVars.names, (ρ n).isSome) →
        ∃ x, e.eval ρ = .ok x ∧ e.toPrimitives.eval ρ = .ok x := by
  have he : e.Typed (· ∈ e.occurrences) :=
    typed_of_validate hValid (fun _ hv => hv)
  have hNamed : ∀ v ∈ e.occurrences, v.HasName :=
    fun v hv => (validate_eq_ok_iff.mp hValid).mem hv
  have hKeeps := keeps_toPrimitives he
  have hForm := inPrimitives_toPrimitives he
  rcases inPrimitives_simplify hKeeps.typed hForm with
    ⟨hTyped, hWidth, hForm'⟩
  refine ⟨fun r => decomposes_iff he,
    hKeeps.typed.validate hNamed, hKeeps.width_eq, hForm,
    hTyped.validate hNamed,
    hWidth.trans hKeeps.width_eq, hForm', ?_⟩
  intro ρ hBound
  have hRead : ∀ v ∈ e.occurrences,
      ρ v.name = some (ρ.filled v.name) := by
    intro v hv
    have hName := (mem_names_freeVars e v.name).mpr
      (List.mem_map_of_mem hv)
    rcases Option.isSome_iff_exists.mp (hBound v.name hName)
      with ⟨x, hx⟩
    rw [Valuation.filled, hx, Option.getD_some]
  refine ⟨e.value ρ.filled, eval_eq_value hRead, ?_⟩
  rw [← hKeeps.value_eq]
  exact eval_eq_value (fun v hv => hRead v (hKeeps.typed.mem hv))

/-
  A comparison of two bits of a concatenation, one part of
  which is a choice between words.
-/
def selectedParts : Expr :=
  .compare none .neq
    (.part none
      (.concat none [
        .mux none (.var none ⟨"s", 1, false⟩)
          (.var none ⟨"a", 2, false⟩) (.var none ⟨"b", 2, false⟩),
        .var none ⟨"c", 1, false⟩]) 1 0)
    (.var none ⟨"d", 2, false⟩)

theorem toPrimitives_exact_selectedParts :
    (∀ r, Decomposes selectedParts r ↔
        r = selectedParts.toPrimitives) ∧
      selectedParts.toPrimitives.isPrimitive = true ∧
      selectedParts.toPrimitives.simplify.isPrimitive = true ∧
      ∃ x, selectedParts.eval (fun _ => some 2) = .ok x ∧
        selectedParts.toPrimitives.eval (fun _ => some 2) =
          .ok x := by
  rcases toPrimitives_exact (e := selectedParts) rfl with
    ⟨hRules, _, hWidth, hForm, _, hWidth', hForm', hEval⟩
  have hOne : selectedParts.width = 1 := rfl
  rw [inPrimitives, if_pos (hWidth.trans hOne)] at hForm
  rw [inPrimitives, if_pos (hWidth'.trans hOne)] at hForm'
  exact ⟨hRules, hForm, hForm', hEval _ (fun _ _ => rfl)⟩

end Expr

end Gatework
