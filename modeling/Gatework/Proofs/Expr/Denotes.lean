import Gatework.Proofs.Expr.Bits
import Gatework.Proofs.Expr.Substitution

/-
  Numbers that expressions denote.

  A well-typed expression of a width denotes a number for all
  values of the signals. Each kind of node has one lemma that
  gives this number in terms of those of its operands.

  Key definitions include:
    * `Expr.Denotes`

  Key theorems include:
    * `Expr.Denotes.gate`, `Expr.Denotes.mux` and
      `Expr.Denotes.part`
    * `Expr.denotes_concat`
    * `Expr.denotes_complement`
-/

------------------------------------------------------------
-- Complements
------------------------------------------------------------

namespace Gatework

/- The complement within a width, as a number. -/
theorem complement_eq_sub
    {width x : Nat}
    (hWidth : width ≤ maxWidth)
    (hx : x < 2 ^ width) :
    complement width x = 2 ^ width - 1 - x := by
  have hForm : 2 ^ width - 1 - x = 2 ^ width - (x + 1) := by
    omega
  apply Nat.eq_of_testBit_eq
  intro i
  rw [hForm, Nat.testBit_two_pow_sub_succ hx,
    testBit_complement, Nat.min_eq_left hWidth]

end Gatework

------------------------------------------------------------
-- Denotation
------------------------------------------------------------

namespace Gatework

namespace Expr

variable {Γ : Var → Prop}
variable {width : Nat}
variable {f g : (String → Nat) → Nat}

/- A typed expression of a width with a number as value. -/
structure Denotes
    (Γ : Var → Prop)
    (e : Expr)
    (width : Nat)
    (f : (String → Nat) → Nat) :
    Prop where
  typed : e.Typed Γ
  width_eq : e.width = width
  value_eq : ∀ τ, e.value τ = f τ

theorem Typed.denotes
    {e : Expr}
    (he : e.Typed Γ) :
    Denotes Γ e e.width (fun τ => e.value τ) :=
  ⟨he, rfl, fun _ => rfl⟩

namespace Denotes

theorem congr
    {e : Expr}
    (he : Denotes Γ e width f)
    (hSame : ∀ τ, f τ = g τ) :
    Denotes Γ e width g :=
  ⟨he.typed, he.width_eq, fun τ => (he.value_eq τ).trans (hSame τ)⟩

/- Marks have nothing to do with what is denoted. -/
theorem of_unmarked
    {e e' : Expr}
    (he : Denotes Γ e width f)
    (hSame : e'.unmarked = e.unmarked) :
    Denotes Γ e' width f :=
  ⟨(typed_iff_of_unmarked hSame).mpr he.typed,
    (width_eq_of_unmarked hSame).trans he.width_eq,
    fun τ => (value_eq_of_unmarked hSame τ).trans (he.value_eq τ)⟩

theorem lt
    {e : Expr}
    (he : Denotes Γ e width f)
    (τ : String → Nat) :
    f τ < 2 ^ width := by
  rw [← he.value_eq τ, ← he.width_eq]
  exact he.typed.value_lt τ

theorem width_le
    {e : Expr}
    (he : Denotes Γ e width f) :
    width ≤ maxWidth := by
  rw [← he.width_eq]
  exact he.typed.width_le

end Denotes

theorem IsBit.denotes
    {e : Expr}
    {b : (String → Nat) → Bool}
    (he : IsBit Γ e b) :
    Denotes Γ e 1 (fun τ => (b τ).toNat) :=
  ⟨he.typed, he.width_eq, he.value_eq⟩

/- One bit that is 1 exactly where a test succeeds. -/
theorem Denotes.isBit
    {e : Expr}
    {b : (String → Nat) → Bool}
    (he : Denotes Γ e 1 (fun τ => (b τ).toNat)) :
    IsBit Γ e b := by
  refine ⟨he.typed, he.width_eq, ?_⟩
  intro τ
  rw [he.value_eq τ, testBit_zero_toNat]

theorem denotes_var
    {v : Var}
    (hv : (var none v).Typed Γ) :
    Denotes Γ (var none v) v.width
      (fun τ => τ v.name % 2 ^ v.width) :=
  ⟨hv, rfl, fun τ => and_mask hv.2.1 (τ v.name)⟩

theorem denotes_const
    {m : Mark}
    {c : Const}
    (hc : (const m c).Typed Γ) :
    Denotes Γ (const m c) c.width (fun _ => c.value) :=
  ⟨hc, rfl, value_const hc⟩

namespace Denotes

theorem gate
    {a b : Expr}
    (ha : Denotes Γ a width f)
    (hb : Denotes Γ b width g)
    (op : GateOp) :
    Denotes Γ (gate none op a b) width
      (fun τ => op.apply (f τ) (g τ) width) := by
  refine ⟨⟨ha.typed, hb.typed, ?_⟩, ha.width_eq, ?_⟩
  · rw [ha.width_eq, hb.width_eq]
  · intro τ
    rw [value, ha.value_eq τ, hb.value_eq τ, ha.width_eq]

theorem compare
    {a b : Expr}
    (ha : Denotes Γ a width f)
    (hb : Denotes Γ b width g)
    (op : CmpOp) :
    Denotes Γ (compare none op a b) 1
      (fun τ => (op.holds (f τ == g τ)).toNat) := by
  have hTyped : (Expr.compare none op a b).Typed Γ :=
    ⟨ha.typed, hb.typed, ha.width_eq.trans hb.width_eq.symm⟩
  refine ⟨hTyped, rfl, ?_⟩
  intro τ
  rw [value_compare hTyped, ha.value_eq τ, hb.value_eq τ]

theorem mux
    {s a b : Expr}
    {c : (String → Nat) → Bool}
    (hs : IsBit Γ s c)
    (ha : Denotes Γ a width f)
    (hb : Denotes Γ b width g) :
    Denotes Γ (mux none s a b) width
      (fun τ => if c τ then f τ else g τ) := by
  have hTyped : (Expr.mux none s a b).Typed Γ :=
    ⟨hs.typed, ha.typed, hb.typed, hs.width_eq,
      ha.width_eq.trans hb.width_eq.symm⟩
  refine ⟨hTyped, ha.width_eq, ?_⟩
  intro τ
  rw [value_mux hTyped, hs.bit_eq τ, ha.value_eq τ,
    hb.value_eq τ]

theorem bit
    {b : Expr}
    (hb : Denotes Γ b width f)
    {i : Nat}
    (hi : i < width) :
    Denotes Γ (bit none b i) 1 (fun τ => f τ / 2 ^ i % 2 ^ 1) := by
  refine ⟨⟨hb.typed, hb.width_eq ▸ hi⟩, rfl, ?_⟩
  intro τ
  rw [value, and_mask one_le_maxWidth, Nat.shiftRight_eq_div_pow,
    hb.value_eq τ]

theorem part
    {b : Expr}
    (hb : Denotes Γ b width f)
    {h l : Nat}
    (hh : h < width)
    (hl : l < width) :
    Denotes Γ (part none b h l) (max h l - min h l + 1)
      (fun τ =>
        f τ / 2 ^ min h l % 2 ^ (max h l - min h l + 1)) := by
  have hTyped : (Expr.part none b h l).Typed Γ := by
    refine ⟨hb.typed, ?_⟩
    rw [hb.width_eq]
    exact Nat.max_lt.mpr ⟨hh, hl⟩
  refine ⟨hTyped, rfl, ?_⟩
  intro τ
  rw [value, and_mask hTyped.width_le,
    Nat.shiftRight_eq_div_pow, hb.value_eq τ]
  rfl

end Denotes

end Expr

end Gatework

------------------------------------------------------------
-- Parts side by side
------------------------------------------------------------

namespace Gatework

namespace Expr

variable {Γ : Var → Prop}

/- The number that parts make below a number in front. -/
def digitsOf
    (τ : String → Nat)
    (high : Nat)
    (parts : List Expr) :
    Nat :=
  parts.foldl (fun n p => n * 2 ^ p.width + p.value τ) high

theorem valueParts_eq_digitsOf
    {parts : List Expr}
    (hParts : TypedAll Γ parts)
    (hTotal : totalWidth parts ≤ maxWidth)
    (τ : String → Nat)
    {high : Nat}
    (hHigh : high = 0 ∨ totalWidth parts < maxWidth) :
    valueParts τ high parts = digitsOf τ high parts := by
  induction parts generalizing high with
  | nil => rfl
  | cons p ps ih =>
      rcases hParts with ⟨hp, hps⟩
      have hPos := hp.width_pos
      rw [totalWidth] at hTotal hHigh
      have hLater : totalWidth ps < maxWidth := by
        omega
      rw [valueParts_cons hp (by omega),
        ih hps (Nat.le_of_lt hLater) (Or.inr hLater),
        ← Nat.shiftLeft_add_eq_or_of_lt (hp.value_lt τ),
        Nat.shiftLeft_eq]
      rfl

theorem digitsOf_lt
    {parts : List Expr}
    (hParts : TypedAll Γ parts)
    (τ : String → Nat)
    (high : Nat) :
    digitsOf τ high parts < (high + 1) * 2 ^ totalWidth parts := by
  induction parts generalizing high with
  | nil => simp [digitsOf, totalWidth]
  | cons p ps ih =>
      rcases hParts with ⟨hp, hps⟩
      have hValue := hp.value_lt τ
      calc digitsOf τ high (p :: ps)
          = digitsOf τ (high * 2 ^ p.width + p.value τ) ps := rfl
        _ < (high * 2 ^ p.width + p.value τ + 1) *
              2 ^ totalWidth ps := ih hps _
        _ ≤ (high + 1) * 2 ^ p.width * 2 ^ totalWidth ps := by
            apply Nat.mul_le_mul_right
            rw [Nat.add_mul]
            omega
        _ = (high + 1) * 2 ^ totalWidth (p :: ps) := by
            rw [totalWidth, Nat.pow_add, Nat.mul_assoc]

theorem denotes_concat
    {parts : List Expr}
    (hParts : ∀ p ∈ parts, p.Typed Γ)
    (hSome : parts ≠ [])
    (hTotal : totalWidth parts ≤ maxWidth) :
    Denotes Γ (concat none parts) (totalWidth parts)
      (fun τ => digitsOf τ 0 parts) := by
  have hAll := typedAll_iff.mpr hParts
  refine ⟨⟨hAll, hSome, hTotal⟩, rfl, ?_⟩
  intro τ
  have hLt := digitsOf_lt hAll τ 0
  rw [Nat.zero_add, Nat.one_mul] at hLt
  rw [value, valueParts_eq_digitsOf hAll hTotal τ (Or.inl rfl),
    and_mask_of_lt hTotal hLt]

/- The complement of a vector, bit by bit. -/
theorem denotes_complement
    {e : Expr}
    (he : e.Typed Γ) :
    Denotes Γ
      (concat none ((indicesDown e.width).map fun i =>
        neg (e.bitOf i)))
      e.width (fun τ => 2 ^ e.width - 1 - e.value τ) := by
  have hWord := isWord_concat he.width_pos he.width_le
    fun i hi => (isBit_bitOf he hi).neg
  refine ⟨hWord.typed, hWord.width_eq, ?_⟩
  intro τ
  rw [← complement_eq_sub he.width_le (he.value_lt τ)]
  apply hWord.value_eq (complement_lt he.width_le _)
  intro i hi
  rw [testBit_complement, Nat.min_eq_left he.width_le,
    decide_eq_true hi, Bool.true_and]

end Expr

end Gatework
