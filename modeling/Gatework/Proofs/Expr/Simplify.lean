import Gatework.Expr.Simplify
import Gatework.Proofs.Expr.Same

/-
  Simplification keeps the function of an expression.

  Each rule is read bit by bit: what it knows of the operands
  of a gate, that one is constant, that they are equal or
  that they differ, says what each bit of the result is.

  Key definitions include:
    * `Expr.Keeps`, one function in another form

  Key theorems include:
    * `Expr.reduce?_keeps`
    * `Expr.keeps_simplify`
-/

------------------------------------------------------------
-- One function in two forms
------------------------------------------------------------

namespace Gatework

namespace Expr

/- A typed tree with the width and value of another one. -/
structure Keeps
    (Γ : Var → Prop)
    (e e' : Expr) :
    Prop where
  typed : e'.Typed Γ
  width_eq : e'.width = e.width
  value_eq : ∀ τ, e'.value τ = e.value τ

variable {Γ : Var → Prop}

theorem Keeps.refl
    {e : Expr}
    (he : e.Typed Γ) :
    Keeps Γ e e :=
  ⟨he, rfl, fun _ => rfl⟩

theorem Keeps.trans
    {e e' e'' : Expr}
    (h : Keeps Γ e e')
    (h' : Keeps Γ e' e'') :
    Keeps Γ e e'' :=
  ⟨h'.typed, h'.width_eq.trans h.width_eq,
    fun τ => (h'.value_eq τ).trans (h.value_eq τ)⟩

/- A word with the bits of a tree keeps its function. -/
theorem IsWord.keeps
    {e e' : Expr}
    (he : e.Typed Γ)
    {meaning : (String → Nat) → Nat → Bool}
    (hWord : IsWord Γ e' e.width meaning)
    (hBits : ∀ τ i, i < e.width →
      meaning τ i = (e.value τ).testBit i) :
    Keeps Γ e e' :=
  ⟨hWord.typed, hWord.width_eq, fun τ =>
    hWord.value_eq (he.value_lt τ) (hBits τ)⟩

theorem isWord_self
    {e : Expr}
    (he : e.Typed Γ) :
    IsWord Γ e e.width (fun τ i => (e.value τ).testBit i) :=
  ⟨he, rfl, fun _ _ _ => rfl⟩

theorem isWord_ones
    {width : Nat}
    (hPos : 1 ≤ width)
    (hMax : width ≤ maxWidth) :
    IsWord Γ (ofNat (mask maxWidth) width) width
      (fun _ _ => true) := by
  have hWord := isWord_ofNat (Γ := Γ) hPos hMax (mask maxWidth)
  refine ⟨hWord.typed, hWord.width_eq, ?_⟩
  intro τ i hi
  rw [hWord.bit_eq τ i hi, testBit_mask]
  apply decide_eq_true
  omega

/- The negation of a tree of one bit. -/
theorem isWord_neg
    {e : Expr}
    (he : e.Typed Γ)
    (hWidth : e.width = 1) :
    IsWord Γ (neg e) e.width
      (fun τ i => !(e.value τ).testBit i) := by
  have hBit := (isBit_self he hWidth).neg
  refine ⟨hBit.typed, hBit.width_eq.trans hWidth.symm, ?_⟩
  intro τ i hi
  have hZero : i = 0 := by
    omega
  rw [hZero]
  exact hBit.bit_eq τ

end Expr

end Gatework

------------------------------------------------------------
-- What rules know of operands
------------------------------------------------------------

namespace Gatework

namespace Expr

variable {Γ : Var → Prop}

theorem exists_const_of_asConst?
    {e : Expr}
    {c : Const}
    (hConst : e.asConst? = some c) :
    ∃ m, e = const m c := by
  cases e with
  | const m d =>
      cases hConst
      exact ⟨m, rfl⟩
  | _ => cases hConst

theorem value_of_asConst?
    {e : Expr}
    (he : e.Typed Γ)
    {c : Const}
    (hConst : e.asConst? = some c)
    (τ : String → Nat) :
    e.value τ = c.value := by
  rcases exists_const_of_asConst? hConst with ⟨m, rfl⟩
  exact value_const he τ

/- A constant that counts as zeros has no bit. -/
theorem testBit_of_isZero
    {e : Expr}
    (he : e.Typed Γ)
    (hZero : e.isZero = true)
    (τ : String → Nat)
    (i : Nat) :
    (e.value τ).testBit i = false := by
  rcases Option.any_eq_true .. |>.mp hZero with ⟨c, hConst, hc⟩
  rw [Const.isZero, beq_iff_eq] at hc
  rw [value_of_asConst? he hConst, hc, Nat.zero_testBit]

/- A constant that counts as ones has every bit. -/
theorem testBit_of_isOnes
    {e : Expr}
    (he : e.Typed Γ)
    (hOnes : e.isOnes = true)
    (τ : String → Nat)
    {i : Nat}
    (hi : i < e.width) :
    (e.value τ).testBit i = true := by
  rcases Option.any_eq_true .. |>.mp hOnes with ⟨c, hConst, hc⟩
  rw [Const.isOnes, beq_iff_eq] at hc
  rw [value_of_asConst? he hConst, hc, testBit_mask]
  rcases exists_const_of_asConst? hConst with ⟨m, rfl⟩
  have hMax : c.width ≤ maxWidth := he.width_le
  have hLow : i < c.width := hi
  apply decide_eq_true
  omega

/- Opposite bits differ at every place they have. -/
theorem Opposite.testBit
    {a b : Expr}
    (h : Opposite a b)
    (τ : String → Nat)
    {i : Nat}
    (hi : i < a.width) :
    (a.value τ).testBit i = !(b.value τ).testBit i := by
  have hZero : i = 0 := by
    rw [h.1] at hi
    omega
  rw [hZero]
  exact h.2.2 τ

end Expr

end Gatework

------------------------------------------------------------
-- Rules of gates
------------------------------------------------------------

namespace Gatework

namespace Expr

variable {Γ : Var → Prop}

/-
  What the rules of a gate can know of its operands, bit by
  bit, and the words they can give.
-/
structure GateOperands
    (Γ : Var → Prop)
    (a b : Expr) :
    Prop where
  zero_left : a.isZero = true → ∀ τ i, i < a.width →
    (a.value τ).testBit i = false
  zero_right : b.isZero = true → ∀ τ i, i < a.width →
    (b.value τ).testBit i = false
  ones_left : a.isOnes = true → ∀ τ i, i < a.width →
    (a.value τ).testBit i = true
  ones_right : b.isOnes = true → ∀ τ i, i < a.width →
    (b.value τ).testBit i = true
  equal : a.same b = true → ∀ τ i, i < a.width →
    (a.value τ).testBit i = (b.value τ).testBit i
  opposite : a.complementary b = true → ∀ τ i, i < a.width →
    (a.value τ).testBit i = !(b.value τ).testBit i
  zeros : IsWord Γ (ofNat 0 a.width) a.width (fun _ _ => false)
  ones : IsWord Γ (ofNat (mask maxWidth) a.width) a.width
    (fun _ _ => true)
  left : IsWord Γ a a.width (fun τ i => (a.value τ).testBit i)
  right : IsWord Γ b a.width (fun τ i => (b.value τ).testBit i)
  notLeft : a.width = 1 →
    IsWord Γ (neg a) a.width (fun τ i => !(a.value τ).testBit i)
  notRight : a.width = 1 →
    IsWord Γ (neg b) a.width (fun τ i => !(b.value τ).testBit i)

theorem gateOperands_of_typed
    (hOne : OneWidth Γ)
    {a b : Expr}
    (ha : a.Typed Γ)
    (hb : b.Typed Γ)
    (hWidths : a.width = b.width) :
    GateOperands Γ a b where
  zero_left := fun h τ i _ => testBit_of_isZero ha h τ i
  zero_right := fun h τ i _ => testBit_of_isZero hb h τ i
  ones_left := fun h τ i hi => testBit_of_isOnes ha h τ hi
  ones_right := fun h τ i hi =>
    testBit_of_isOnes hb h τ (hWidths ▸ hi)
  equal := fun h τ i _ => by rw [(same_sound hOne ha hb h).2 τ]
  opposite := fun h τ i hi =>
    (complementary_sound hOne ha hb h).testBit τ hi
  zeros := isWord_zeros ha.width_pos ha.width_le
  ones := isWord_ones ha.width_pos ha.width_le
  left := isWord_self ha
  right := hWidths ▸ isWord_self hb
  notLeft := fun h => isWord_neg ha h
  notRight := fun h => by
    have hWord := isWord_neg hb (hWidths ▸ h)
    rw [← hWidths] at hWord
    exact hWord

variable {a b e' : Expr}

/- A word with the bits of a gate keeps its function. -/
theorem keeps_gate
    {m : Mark}
    {op : GateOp}
    (he : (gate m op a b).Typed Γ)
    {meaning : (String → Nat) → Nat → Bool}
    (hWord : IsWord Γ e' a.width meaning)
    (hBits : ∀ τ i, i < a.width → meaning τ i =
      op.onBits ((a.value τ).testBit i) ((b.value τ).testBit i)) :
    Keeps Γ (gate m op a b) e' := by
  apply hWord.keeps he
  intro τ i hi
  rw [testBit_value_gate he τ hi]
  exact hBits τ i hi

/- One rule of a list applies, or one behind it does. -/
theorem keeps_of_rules
    {e : Expr}
    {c : Prop}
    [Decidable c]
    {first : Expr}
    {others : Option Expr}
    (hRule : (if c then some first else others) = some e')
    (hFirst : c → Keeps Γ e first)
    (hOthers : others = some e' → Keeps Γ e e') :
    Keeps Γ e e' := by
  by_cases hc : c
  · rw [if_pos hc] at hRule
    cases hRule
    exact hFirst hc
  · rw [if_neg hc] at hRule
    exact hOthers hRule

theorem keeps_of_and_rule
    {m : Mark}
    (he : (gate m .and a b).Typed Γ)
    (hKnown : GateOperands Γ a b)
    (hRule : reduceGate? .and a b = some e') :
    Keeps Γ (gate m .and a b) e' := by
  rcases hKnown with ⟨hZeroA, hZeroB, hOnesA, hOnesB, hSame, hDiffer,
    hZeros, hOnes, hLeft, hRight, hNotLeft, hNotRight⟩
  refine keeps_of_rules hRule (fun h => keeps_gate he hZeros
    (fun τ i hi => by grind [GateOp.onBits])) (fun hRule => ?_)
  refine keeps_of_rules hRule (fun h => keeps_gate he hRight
    (fun τ i hi => by grind [GateOp.onBits])) (fun hRule => ?_)
  refine keeps_of_rules hRule (fun h => keeps_gate he hLeft
    (fun τ i hi => by grind [GateOp.onBits])) (fun hRule => ?_)
  refine keeps_of_rules hRule (fun h => keeps_gate he hZeros
    (fun τ i hi => by grind [GateOp.onBits])) (fun hRule => ?_)
  cases hRule

theorem keeps_of_or_rule
    {m : Mark}
    (he : (gate m .or a b).Typed Γ)
    (hKnown : GateOperands Γ a b)
    (hRule : reduceGate? .or a b = some e') :
    Keeps Γ (gate m .or a b) e' := by
  rcases hKnown with ⟨hZeroA, hZeroB, hOnesA, hOnesB, hSame, hDiffer,
    hZeros, hOnes, hLeft, hRight, hNotLeft, hNotRight⟩
  refine keeps_of_rules hRule (fun h => keeps_gate he hOnes
    (fun τ i hi => by grind [GateOp.onBits])) (fun hRule => ?_)
  refine keeps_of_rules hRule (fun h => keeps_gate he hRight
    (fun τ i hi => by grind [GateOp.onBits])) (fun hRule => ?_)
  refine keeps_of_rules hRule (fun h => keeps_gate he hLeft
    (fun τ i hi => by grind [GateOp.onBits])) (fun hRule => ?_)
  refine keeps_of_rules hRule (fun h => keeps_gate he hOnes
    (fun τ i hi => by grind [GateOp.onBits])) (fun hRule => ?_)
  cases hRule

theorem keeps_of_xor_rule
    {m : Mark}
    (he : (gate m .xor a b).Typed Γ)
    (hKnown : GateOperands Γ a b)
    (hRule : reduceGate? .xor a b = some e') :
    Keeps Γ (gate m .xor a b) e' := by
  rcases hKnown with ⟨hZeroA, hZeroB, hOnesA, hOnesB, hSame, hDiffer,
    hZeros, hOnes, hLeft, hRight, hNotLeft, hNotRight⟩
  refine keeps_of_rules hRule (fun h => keeps_gate he hRight
    (fun τ i hi => by grind [GateOp.onBits])) (fun hRule => ?_)
  refine keeps_of_rules hRule (fun h => keeps_gate he hLeft
    (fun τ i hi => by grind [GateOp.onBits])) (fun hRule => ?_)
  refine keeps_of_rules hRule (fun h => keeps_gate he hZeros
    (fun τ i hi => by grind [GateOp.onBits])) (fun hRule => ?_)
  refine keeps_of_rules hRule (fun h => keeps_gate he (hNotRight (by grind))
    (fun τ i hi => by grind [GateOp.onBits])) (fun hRule => ?_)
  refine keeps_of_rules hRule (fun h => keeps_gate he (hNotLeft (by grind))
    (fun τ i hi => by grind [GateOp.onBits])) (fun hRule => ?_)
  refine keeps_of_rules hRule (fun h => keeps_gate he hOnes
    (fun τ i hi => by grind [GateOp.onBits])) (fun hRule => ?_)
  cases hRule

theorem keeps_of_xnor_rule
    {m : Mark}
    (he : (gate m .xnor a b).Typed Γ)
    (hKnown : GateOperands Γ a b)
    (hRule : reduceGate? .xnor a b = some e') :
    Keeps Γ (gate m .xnor a b) e' := by
  rcases hKnown with ⟨hZeroA, hZeroB, hOnesA, hOnesB, hSame, hDiffer,
    hZeros, hOnes, hLeft, hRight, hNotLeft, hNotRight⟩
  refine keeps_of_rules hRule (fun h => keeps_gate he hOnes
    (fun τ i hi => by grind [GateOp.onBits])) (fun hRule => ?_)
  refine keeps_of_rules hRule (fun h => keeps_gate he hRight
    (fun τ i hi => by grind [GateOp.onBits])) (fun hRule => ?_)
  refine keeps_of_rules hRule (fun h => keeps_gate he hLeft
    (fun τ i hi => by grind [GateOp.onBits])) (fun hRule => ?_)
  refine keeps_of_rules hRule (fun h => keeps_gate he (hNotRight (by grind))
    (fun τ i hi => by grind [GateOp.onBits])) (fun hRule => ?_)
  refine keeps_of_rules hRule (fun h => keeps_gate he (hNotLeft (by grind))
    (fun τ i hi => by grind [GateOp.onBits])) (fun hRule => ?_)
  refine keeps_of_rules hRule (fun h => keeps_gate he hZeros
    (fun τ i hi => by grind [GateOp.onBits])) (fun hRule => ?_)
  cases hRule

theorem keeps_of_nand_rule
    {m : Mark}
    (he : (gate m .nand a b).Typed Γ)
    (hKnown : GateOperands Γ a b)
    (hRule : reduceGate? .nand a b = some e') :
    Keeps Γ (gate m .nand a b) e' := by
  rcases hKnown with ⟨hZeroA, hZeroB, hOnesA, hOnesB, hSame, hDiffer,
    hZeros, hOnes, hLeft, hRight, hNotLeft, hNotRight⟩
  refine keeps_of_rules hRule (fun h => keeps_gate he hOnes
    (fun τ i hi => by grind [GateOp.onBits])) (fun hRule => ?_)
  refine keeps_of_rules hRule (fun h => keeps_gate he (hNotRight (by grind))
    (fun τ i hi => by grind [GateOp.onBits])) (fun hRule => ?_)
  refine keeps_of_rules hRule (fun h => keeps_gate he (hNotLeft (by grind))
    (fun τ i hi => by grind [GateOp.onBits])) (fun hRule => ?_)
  refine keeps_of_rules hRule (fun h => keeps_gate he hOnes
    (fun τ i hi => by grind [GateOp.onBits])) (fun hRule => ?_)
  cases hRule

theorem keeps_of_nor_rule
    {m : Mark}
    (he : (gate m .nor a b).Typed Γ)
    (hKnown : GateOperands Γ a b)
    (hRule : reduceGate? .nor a b = some e') :
    Keeps Γ (gate m .nor a b) e' := by
  rcases hKnown with ⟨hZeroA, hZeroB, hOnesA, hOnesB, hSame, hDiffer,
    hZeros, hOnes, hLeft, hRight, hNotLeft, hNotRight⟩
  refine keeps_of_rules hRule (fun h => keeps_gate he hZeros
    (fun τ i hi => by grind [GateOp.onBits])) (fun hRule => ?_)
  refine keeps_of_rules hRule (fun h => keeps_gate he (hNotRight (by grind))
    (fun τ i hi => by grind [GateOp.onBits])) (fun hRule => ?_)
  refine keeps_of_rules hRule (fun h => keeps_gate he (hNotLeft (by grind))
    (fun τ i hi => by grind [GateOp.onBits])) (fun hRule => ?_)
  refine keeps_of_rules hRule (fun h => keeps_gate he hZeros
    (fun τ i hi => by grind [GateOp.onBits])) (fun hRule => ?_)
  cases hRule

/- The rules of every gate keep its function. -/
theorem reduceGate?_keeps
    (hOne : OneWidth Γ)
    {m : Mark}
    {op : GateOp}
    (he : (gate m op a b).Typed Γ)
    (hRule : reduceGate? op a b = some e') :
    Keeps Γ (gate m op a b) e' := by
  have hKnown := gateOperands_of_typed hOne he.1 he.2.1 he.2.2
  cases op with
  | and => exact keeps_of_and_rule he hKnown hRule
  | or => exact keeps_of_or_rule he hKnown hRule
  | xor => exact keeps_of_xor_rule he hKnown hRule
  | xnor => exact keeps_of_xnor_rule he hKnown hRule
  | nand => exact keeps_of_nand_rule he hKnown hRule
  | nor => exact keeps_of_nor_rule he hKnown hRule

end Expr

end Gatework

------------------------------------------------------------
-- Rules of other nodes
------------------------------------------------------------

namespace Gatework

namespace Expr

variable {Γ : Var → Prop}
variable {e' : Expr}

/- A bit with the value of a node of one bit. -/
theorem IsBit.keeps
    {e : Expr}
    (he : e.Typed Γ)
    (hWidth : e.width = 1)
    {meaning : (String → Nat) → Bool}
    (hBit : IsBit Γ e' meaning)
    (hMeaning : ∀ τ, meaning τ = (e.value τ).testBit 0) :
    Keeps Γ e e' := by
  refine ⟨hBit.typed, hBit.width_eq.trans hWidth.symm, ?_⟩
  intro τ
  rw [hBit.value_eq, hMeaning, ← eq_toNat_testBit]
  exact hWidth ▸ he.value_lt τ

theorem testBit_value_compare
    {m : Mark}
    {op : CmpOp}
    {a b : Expr}
    (he : (compare m op a b).Typed Γ)
    (τ : String → Nat) :
    ((compare m op a b).value τ).testBit 0 =
      op.holds (a.value τ == b.value τ) := by
  rw [value_compare he, testBit_zero_toNat]

/- A bit against a constant bit is the bit or its negation. -/
theorem isBit_bitAgainst
    {op : CmpOp}
    {x y : Expr}
    (hx : x.Typed Γ)
    (hy : y.Typed Γ)
    (hWidth : x.width = 1)
    (hWidth' : y.width = 1)
    {c : Const}
    (hConst : y.asConst? = some c) :
    IsBit Γ (bitAgainst op x c)
      (fun τ => op.holds (x.value τ == y.value τ)) := by
  refine ((isBit_self hx hWidth).literal _).congr ?_
  intro τ
  have hxBit := eq_toNat_testBit (hWidth ▸ hx.value_lt τ)
  have hyBit := eq_toNat_testBit (hWidth' ▸ hy.value_lt τ)
  rw [value_of_asConst? hy hConst] at hyBit ⊢
  generalize (x.value τ).testBit 0 = s at hxBit ⊢
  generalize c.value.testBit 0 = t at hyBit ⊢
  rw [hxBit, hyBit]
  cases op <;> cases s <;> cases t <;> rfl

theorem reduceCompare?_keeps
    (hOne : OneWidth Γ)
    {m : Mark}
    {op : CmpOp}
    {a b : Expr}
    (he : (compare m op a b).Typed Γ)
    (hRule : reduceCompare? op a b = some e') :
    Keeps Γ (compare m op a b) e' := by
  rcases id he with ⟨ha, hb, hWidths⟩
  have hKeeps : ∀ {e' : Expr},
      IsBit Γ e' (fun τ => op.holds (a.value τ == b.value τ)) →
      Keeps Γ (compare m op a b) e' := fun hBit =>
    hBit.keeps he rfl (fun τ => (testBit_value_compare he τ).symm)
  unfold reduceCompare? at hRule
  split at hRule
  case h_1 x y hx hy =>
      cases hRule
      apply hKeeps
      apply (isBit_ofBool _).congr
      intro τ
      have hLeft := ha.value_and_mask τ
      have hRight := hb.value_and_mask τ
      rw [value_of_asConst? ha hx] at hLeft ⊢
      rw [value_of_asConst? hb hy, ← hWidths] at hRight
      rw [value_of_asConst? hb hy, hLeft, hRight]
  case h_2 x y _ =>
      refine keeps_of_rules hRule (fun h => ?_) (fun hRule => ?_)
      · apply hKeeps
        apply (isBit_ofBool _).congr
        intro τ
        rw [(same_sound hOne ha hb h).2 τ, beq_self_eq_true]
      refine keeps_of_rules hRule (fun h => ?_) (fun hRule => ?_)
      · have hOpp := complementary_sound hOne ha hb h
        apply hKeeps
        apply (isBit_ofBool _).congr
        intro τ
        have hDiffer : (a.value τ == b.value τ) = false := by
          apply beq_false_of_ne
          intro hEq
          have hBits := hOpp.2.2 τ
          rw [hEq] at hBits
          cases hBit : (b.value τ).testBit 0 <;>
            rw [hBit] at hBits <;> cases hBits
        rw [hDiffer]
      split at hRule
      case isFalse => cases hRule
      case isTrue hWidth =>
          have hWidth' : b.width = 1 := hWidths ▸ hWidth
          split at hRule
          case h_1 hConst =>
              cases hRule
              exact hKeeps
                (isBit_bitAgainst ha hb hWidth hWidth' hConst)
          case h_2 hConst _ =>
              cases hRule
              apply hKeeps
              apply (isBit_bitAgainst hb ha hWidth' hWidth
                hConst).congr
              intro τ
              rw [BEq.comm]
          case h_3 => cases hRule

theorem reduceMux?_keeps
    (hOne : OneWidth Γ)
    {m : Mark}
    {s t f : Expr}
    (he : (mux m s t f).Typed Γ)
    (hRule : reduceMux? s t f = some e') :
    Keeps Γ (mux m s t f) e' := by
  rcases id he with ⟨hs, ht, hf, hScalar, hWidths⟩
  unfold reduceMux? at hRule
  split at hRule
  case h_1 c hConst =>
      have hValue : ∀ τ, (mux m s t f).value τ =
          if c.value.testBit 0 then t.value τ else f.value τ := by
        intro τ
        rw [value_mux he, value_of_asConst? hs hConst]
      cases hRule
      cases hBit : c.value.testBit 0 with
      | true =>
          refine ⟨ht, rfl, ?_⟩
          intro τ
          rw [hValue, hBit]
          rfl
      | false =>
          refine ⟨hf, hWidths.symm, ?_⟩
          intro τ
          rw [hValue, hBit]
          rfl
  case h_2 =>
      refine keeps_of_rules hRule (fun h => ?_) (fun hRule => ?_)
      · refine ⟨ht, rfl, ?_⟩
        intro τ
        rw [value_mux he, (same_sound hOne ht hf h).2 τ, ite_self]
      split at hRule
      case isFalse => cases hRule
      case isTrue hWidth =>
          have hZero : 0 < t.width := ht.width_pos
          have hZero' : 0 < f.width := hf.width_pos
          refine keeps_of_rules hRule (fun h => ?_) (fun hRule => ?_)
          · rw [Bool.and_eq_true] at h
            apply (isBit_self hs hScalar).keeps he hWidth
            intro τ
            rw [value_mux he]
            cases hSel : (s.value τ).testBit 0
            · exact (testBit_of_isZero hf h.2 τ 0).symm
            · exact (testBit_of_isOnes ht h.1 τ hZero).symm
          refine keeps_of_rules hRule (fun h => ?_) (fun hRule => ?_)
          · rw [Bool.and_eq_true] at h
            apply (isBit_self hs hScalar).neg.keeps he hWidth
            intro τ
            rw [value_mux he]
            cases hSel : (s.value τ).testBit 0
            · exact (testBit_of_isOnes hf h.2 τ hZero').symm
            · exact (testBit_of_isZero ht h.1 τ 0).symm
          cases hRule

/- Constant parts fold to the value they have. -/
theorem foldParts?_eq
    {parts : List Expr}
    {high x : Nat}
    (hFold : foldParts? high parts = some x)
    (τ : String → Nat) :
    valueParts τ high parts = x := by
  induction parts generalizing high with
  | nil => exact Option.some.inj hFold
  | cons p ps ih =>
      rw [foldParts?, Option.bind_eq_bind,
        Option.bind_eq_some_iff] at hFold
      rcases hFold with ⟨c, hConst, hRest⟩
      rcases exists_const_of_asConst? hConst with ⟨m, rfl⟩
      rw [valueParts, value, width, Nat.and_assoc, Nat.and_self]
      exact ih hRest

/- A rule that applies keeps the function of the node. -/
theorem reduce?_keeps
    (hOne : OneWidth Γ)
    {e : Expr}
    (he : e.Typed Γ)
    (hRule : reduce? e = some e') :
    Keeps Γ e e' := by
  have hPos := he.width_pos
  have hMax := he.width_le
  unfold reduce? at hRule
  split at hRule
  case h_1 => cases hRule
  case h_2 => cases hRule
  case h_3 m n c =>
      cases hRule
      apply (isWord_ofNat hPos hMax _).keeps he
      intro τ i hi
      have hWide : i < min maxWidth maxWidth := by
        rw [Nat.min_self]
        exact Nat.lt_of_lt_of_le hi hMax
      have hLow : i < min (const n c).width maxWidth :=
        Nat.lt_min.mpr ⟨hi, Nat.lt_of_lt_of_le hi hMax⟩
      rw [value, value_const he.1, testBit_complement,
        testBit_complement, decide_eq_true hWide,
        decide_eq_true hLow]
  case h_4 m n x =>
      cases hRule
      apply (isBit_self he.1.1 he.2).keeps he he.2
      intro τ
      rw [testBit_value_not he, testBit_value_not he.1,
        Bool.not_not]
  case h_5 => cases hRule
  case h_6 m op a b =>
      split at hRule
      case h_1 x y hx hy =>
          cases hRule
          apply (isWord_ofNat hPos hMax _).keeps he
          intro τ i hi
          rw [value, value_of_asConst? he.1 hx,
            value_of_asConst? he.2.1 hy]
      case h_2 => exact reduceGate?_keeps hOne he hRule
  case h_7 m op a b => exact reduceCompare?_keeps hOne he hRule
  case h_8 m s t f => exact reduceMux?_keeps hOne he hRule
  case h_9 m b i =>
      rcases Option.map_eq_some_iff.mp hRule with ⟨c, hConst, rfl⟩
      apply (isBit_ofBool _).keeps he rfl
      intro τ
      have hWide : i < maxWidth :=
        Nat.lt_of_lt_of_le he.2 he.1.width_le
      rw [testBit_value_bit, value_of_asConst? he.1 hConst,
        Const.bitAt, decide_eq_true hWide, Bool.true_and]
  case h_10 m b h l =>
      rcases Option.map_eq_some_iff.mp hRule with ⟨c, hConst, rfl⟩
      apply (isWord_ofNat hPos hMax _).keeps he
      intro τ i hi
      rw [testBit_value_part he τ hi, value_of_asConst? he.1 hConst,
        Nat.testBit_shiftRight]
  case h_11 m parts =>
      rcases Option.map_eq_some_iff.mp hRule with ⟨x, hFold, rfl⟩
      apply (isWord_ofNat hPos hMax _).keeps he
      intro τ i hi
      rw [value, foldParts?_eq hFold]
      exact (testBit_and_mask hMax hi x).symm

end Expr

end Gatework

------------------------------------------------------------
-- Simplification
------------------------------------------------------------

namespace Gatework

namespace Expr

variable {Γ : Var → Prop}

theorem keeps_settleFor
    (hOne : OneWidth Γ)
    {n : Nat}
    {e : Expr}
    (he : e.Typed Γ) :
    Keeps Γ e (settleFor n e) := by
  induction n generalizing e with
  | zero => exact Keeps.refl he
  | succ n ih =>
      rw [settleFor]
      cases hRule : reduce? e with
      | none => exact Keeps.refl he
      | some e' =>
          have hStep := reduce?_keeps hOne he hRule
          exact hStep.trans (ih hStep.typed)

/- Rules after a node with operands in another form. -/
theorem Keeps.settle
    (hOne : OneWidth Γ)
    {e e' : Expr}
    (h : Keeps Γ e e') :
    Keeps Γ e e'.settle :=
  h.trans (keeps_settleFor hOne h.typed)

/- A gate on operands in another form. -/
theorem Keeps.gate
    {m n : Mark}
    {op : GateOp}
    {a b a' b' : Expr}
    (he : (gate m op a b).Typed Γ)
    (ha : Keeps Γ a a')
    (hb : Keeps Γ b b') :
    Keeps Γ (gate m op a b) (gate n op a' b') := by
  refine ⟨⟨ha.typed, hb.typed, ?_⟩, ha.width_eq, ?_⟩
  · rw [ha.width_eq, hb.width_eq, he.2.2]
  · intro τ
    rw [value, value, ha.width_eq, ha.value_eq, hb.value_eq]

theorem Keeps.not
    {m n : Mark}
    {x x' : Expr}
    (he : (not m x).Typed Γ)
    (hx : Keeps Γ x x') :
    Keeps Γ (not m x) (not n x') := by
  refine ⟨⟨hx.typed, hx.width_eq.trans he.2⟩, hx.width_eq, ?_⟩
  intro τ
  rw [value, value, hx.width_eq, hx.value_eq]

theorem Keeps.compare
    {m n : Mark}
    {op : CmpOp}
    {a b a' b' : Expr}
    (he : (compare m op a b).Typed Γ)
    (ha : Keeps Γ a a')
    (hb : Keeps Γ b b') :
    Keeps Γ (compare m op a b) (compare n op a' b') := by
  refine ⟨⟨ha.typed, hb.typed, ?_⟩, rfl, ?_⟩
  · rw [ha.width_eq, hb.width_eq, he.2.2]
  · intro τ
    rw [value, value, ha.width_eq, ha.value_eq, hb.value_eq]

theorem Keeps.mux
    {m n : Mark}
    {s t f s' t' f' : Expr}
    (he : (mux m s t f).Typed Γ)
    (hs : Keeps Γ s s')
    (ht : Keeps Γ t t')
    (hf : Keeps Γ f f') :
    Keeps Γ (mux m s t f) (mux n s' t' f') := by
  rcases he with ⟨_, _, _, hScalar, hWidths⟩
  refine ⟨⟨hs.typed, ht.typed, hf.typed,
    hs.width_eq.trans hScalar, ?_⟩, ht.width_eq, ?_⟩
  · rw [ht.width_eq, hf.width_eq, hWidths]
  · intro τ
    rw [value, value, hs.value_eq, ht.value_eq, hf.value_eq,
      ht.width_eq]

theorem Keeps.bit
    {m n : Mark}
    {b b' : Expr}
    {i : Nat}
    (he : (bit m b i).Typed Γ)
    (hb : Keeps Γ b b') :
    Keeps Γ (bit m b i) (bit n b' i) := by
  refine ⟨⟨hb.typed, ?_⟩, rfl, ?_⟩
  · rw [hb.width_eq]
    exact he.2
  · intro τ
    rw [value, value, hb.value_eq]

theorem Keeps.part
    {m n : Mark}
    {b b' : Expr}
    {h l : Nat}
    (he : (part m b h l).Typed Γ)
    (hb : Keeps Γ b b') :
    Keeps Γ (part m b h l) (part n b' h l) := by
  refine ⟨⟨hb.typed, ?_⟩, rfl, ?_⟩
  · rw [hb.width_eq]
    exact he.2
  · intro τ
    rw [value, value, hb.value_eq]
    rfl

/- Parts in other forms, one after the other. -/
theorem keepsAll_map
    {g : Expr → Expr}
    {parts : List Expr}
    (hParts : ∀ p ∈ parts, Keeps Γ p (g p)) :
    TypedAll Γ (parts.map g) ∧
      totalWidth (parts.map g) = totalWidth parts ∧
      ∀ τ high,
        valueParts τ high (parts.map g) =
          valueParts τ high parts := by
  induction parts with
  | nil => exact ⟨trivial, rfl, fun _ _ => rfl⟩
  | cons p ps ih =>
      have hHead := hParts p (List.mem_cons_self ..)
      rcases ih (fun q hq => hParts q (List.mem_cons_of_mem _ hq))
        with ⟨hTyped, hWidth, hValue⟩
      refine ⟨⟨hHead.typed, hTyped⟩, ?_, ?_⟩
      · rw [List.map_cons, totalWidth, totalWidth, hHead.width_eq,
          hWidth]
      · intro τ high
        rw [List.map_cons, valueParts, valueParts, hHead.width_eq,
          hHead.value_eq, hValue]

theorem Keeps.concat
    {m n : Mark}
    {g : Expr → Expr}
    {parts : List Expr}
    (he : (concat m parts).Typed Γ)
    (hParts : ∀ p ∈ parts, Keeps Γ p (g p)) :
    Keeps Γ (concat m parts) (concat n (parts.map g)) := by
  rcases keepsAll_map hParts with ⟨hTyped, hWidth, hValue⟩
  refine ⟨⟨hTyped, ?_, ?_⟩, hWidth, ?_⟩
  · exact fun h => he.2.1 (List.map_eq_nil_iff.mp h)
  · rw [hWidth]
    exact he.2.2
  · intro τ
    rw [value, value, hWidth, hValue]

theorem simplifyAll_eq_map
    (parts : List Expr) :
    simplifyAll parts = parts.map simplify := by
  induction parts with
  | nil => rfl
  | cons p ps ih => rw [simplifyAll, List.map_cons, ih]

/- Simplification keeps type, width and value. -/
theorem keeps_simplify
    (hOne : OneWidth Γ)
    {e : Expr}
    (he : e.Typed Γ) :
    Keeps Γ e e.simplify := by
  induction e with
  | const m c =>
      rw [simplify]
      exact Keeps.refl he
  | var m v =>
      rw [simplify]
      exact Keeps.refl he
  | not m x ih =>
      rw [simplify]
      exact (Keeps.not he (ih he.1)).settle hOne
  | gate m op a b iha ihb =>
      rw [simplify]
      exact (Keeps.gate he (iha he.1) (ihb he.2.1)).settle hOne
  | compare m op a b iha ihb =>
      rw [simplify]
      exact (Keeps.compare he (iha he.1) (ihb he.2.1)).settle hOne
  | mux m s t f ihs iht ihf =>
      rw [simplify]
      exact (Keeps.mux he (ihs he.1) (iht he.2.1)
        (ihf he.2.2.1)).settle hOne
  | bit m b i ih =>
      rw [simplify]
      exact (Keeps.bit he (ih he.1)).settle hOne
  | part m b h l ih =>
      rw [simplify]
      exact (Keeps.part he (ih he.1)).settle hOne
  | concat m parts ih =>
      rw [simplify, simplifyAll_eq_map]
      exact (Keeps.concat he (fun p hp =>
        ih p hp (typedAll_iff.mp he.1 p hp))).settle hOne

end Expr

end Gatework
