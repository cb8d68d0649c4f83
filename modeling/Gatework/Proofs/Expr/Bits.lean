import Gatework.Expr.Bits
import Gatework.Proofs.Expr.Value

/-
  What the builders of single bits and words compute.

  Key definitions include:
    * `Expr.IsBit`, a typed bit with a meaning
    * `Expr.IsWord`, a typed word with a meaning for each bit

  Key theorems include:
    * `Expr.isWord_ofNat`
    * `Expr.isBit_bitOf`
    * `Expr.isBit_equalsConst` and `Expr.isBit_equals`
    * `Expr.isWord_join`
    * `Expr.isWord_splice`
-/

------------------------------------------------------------
-- Bits with a meaning
------------------------------------------------------------

namespace Gatework

namespace Expr

/- A typed expression of one bit with a given value. -/
structure IsBit
    (Γ : Var → Prop)
    (e : Expr)
    (meaning : (String → Nat) → Bool) :
    Prop where
  typed : e.Typed Γ
  width_eq : e.width = 1
  bit_eq : ∀ τ, (e.value τ).testBit 0 = meaning τ

/- A typed expression with a given value of each bit. -/
structure IsWord
    (Γ : Var → Prop)
    (e : Expr)
    (width : Nat)
    (meaning : (String → Nat) → Nat → Bool) :
    Prop where
  typed : e.Typed Γ
  width_eq : e.width = width
  bit_eq : ∀ τ i, i < width →
    (e.value τ).testBit i = meaning τ i

variable {Γ : Var → Prop}

namespace IsBit

variable {a b : Expr}
variable {f g : (String → Nat) → Bool}

theorem congr
    (ha : IsBit Γ a f)
    (hSame : ∀ τ, f τ = g τ) :
    IsBit Γ a g :=
  ⟨ha.typed, ha.width_eq, fun τ => (ha.bit_eq τ).trans (hSame τ)⟩

/- The value of a bit as a number. -/
theorem value_eq
    (ha : IsBit Γ a f)
    (τ : String → Nat) :
    a.value τ = (f τ).toNat :=
  ha.typed.value_eq_of_bit ha.width_eq (ha.bit_eq τ)

theorem neg
    (ha : IsBit Γ a f) :
    IsBit Γ (neg a) (fun τ => !f τ) := by
  have hTyped : (Expr.neg a).Typed Γ := ⟨ha.typed, ha.width_eq⟩
  refine ⟨hTyped, ha.width_eq, ?_⟩
  intro τ
  rw [Expr.neg, testBit_value_not hTyped, ha.bit_eq]

theorem gate
    {m : Mark}
    (op : GateOp)
    (ha : IsBit Γ a f)
    (hb : IsBit Γ b g) :
    IsBit Γ (gate m op a b) (fun τ => op.onBits (f τ) (g τ)) := by
  have hTyped : (Expr.gate m op a b).Typed Γ :=
    ⟨ha.typed, hb.typed, ha.width_eq.trans hb.width_eq.symm⟩
  have hZero : 0 < a.width := by
    rw [ha.width_eq]
    exact Nat.one_pos
  refine ⟨hTyped, ha.width_eq, ?_⟩
  intro τ
  rw [testBit_value_gate hTyped τ hZero, ha.bit_eq, hb.bit_eq]

theorem conj
    (ha : IsBit Γ a f)
    (hb : IsBit Γ b g) :
    IsBit Γ (conj a b) (fun τ => f τ && g τ) :=
  gate .and ha hb

theorem disj
    (ha : IsBit Γ a f)
    (hb : IsBit Γ b g) :
    IsBit Γ (disj a b) (fun τ => f τ || g τ) :=
  gate .or ha hb

theorem literal
    (ha : IsBit Γ a f)
    (positive : Bool) :
    IsBit Γ (literal a positive) (fun τ => f τ == positive) := by
  cases positive with
  | true => exact ha.congr (fun τ => by simp)
  | false => exact ha.neg.congr (fun τ => by simp)

end IsBit

theorem isBit_ofBool
    (b : Bool) :
    IsBit Γ (ofBool b) (fun _ => b) := by
  have hTyped : (ofBool b).Typed Γ :=
    ⟨Nat.le_refl 1, one_le_maxWidth, toNat_lt_two b⟩
  refine ⟨hTyped, rfl, ?_⟩
  intro τ
  rw [ofBool, value_const hTyped]
  exact testBit_zero_toNat b

/- A bit is a word of one bit. -/
theorem IsBit.isWord
    {a : Expr}
    {f : (String → Nat) → Bool}
    (ha : IsBit Γ a f) :
    IsWord Γ a 1 (fun τ _ => f τ) := by
  refine ⟨ha.typed, ha.width_eq, ?_⟩
  intro τ i hi
  have hZero : i = 0 := by
    omega
  rw [hZero]
  exact ha.bit_eq τ

/- Words with the same bits below a width have one value. -/
theorem IsWord.value_eq
    {a : Expr}
    {width x : Nat}
    {meaning : (String → Nat) → Nat → Bool}
    (ha : IsWord Γ a width meaning)
    {τ : String → Nat}
    (hx : x < 2 ^ width)
    (hBits : ∀ i, i < width → meaning τ i = x.testBit i) :
    a.value τ = x := by
  apply ha.typed.value_eq_of_bits ha.width_eq hx
  intro i hi
  rw [ha.bit_eq τ i hi, hBits i hi]

/- The low bits of a number, at a width in range. -/
theorem isWord_ofNat
    {width : Nat}
    (hPos : 1 ≤ width)
    (hMax : width ≤ maxWidth)
    (x : Nat) :
    IsWord Γ (ofNat x width) width (fun _ i => x.testBit i) := by
  have hClamp := clampWidth_eq hPos hMax
  have hTyped : (ofNat x width).Typed Γ := by
    unfold ofNat Const.truncated Const.plain
    rw [hClamp]
    exact ⟨hPos, hMax, and_mask_lt hMax x⟩
  refine ⟨hTyped, hClamp, ?_⟩
  intro τ i hi
  rw [ofNat, value_const hTyped, Const.truncated, Const.plain,
    hClamp, testBit_and_mask hMax hi]

theorem isWord_zeros
    {width : Nat}
    (hPos : 1 ≤ width)
    (hMax : width ≤ maxWidth) :
    IsWord Γ (ofNat 0 width) width (fun _ _ => false) := by
  have hWord := isWord_ofNat (Γ := Γ) hPos hMax 0
  refine ⟨hWord.typed, hWord.width_eq, ?_⟩
  intro τ i hi
  rw [hWord.bit_eq τ i hi, Nat.zero_testBit]

theorem isBit_zero :
    IsBit Γ (ofNat 0 1) (fun _ => false) := by
  have hWord := isWord_zeros (Γ := Γ) (Nat.le_refl 1)
    one_le_maxWidth
  exact ⟨hWord.typed, hWord.width_eq, fun τ =>
    hWord.bit_eq τ 0 Nat.one_pos⟩

end Expr

end Gatework

------------------------------------------------------------
-- Sums and products
------------------------------------------------------------

namespace Gatework

namespace Expr

variable {Γ : Var → Prop}
variable {α : Type}

theorem isBit_foldl_gate
    (op : GateOp)
    {first : Expr}
    {f : (String → Nat) → Bool}
    (hFirst : IsBit Γ first f)
    {xs : List α}
    {expr : α → Expr}
    {meaning : α → (String → Nat) → Bool}
    (hAll : ∀ x ∈ xs, IsBit Γ (expr x) (meaning x)) :
    IsBit Γ ((xs.map expr).foldl (gate none op) first)
      (fun τ => xs.foldl
        (fun b x => op.onBits b (meaning x τ)) (f τ)) := by
  induction xs generalizing first f with
  | nil => exact hFirst
  | cons x xs ih =>
      have hNext : IsBit Γ (Expr.gate none op first (expr x)) _ :=
        hFirst.gate op (hAll x (List.mem_cons_self ..))
      exact ih hNext fun y hy => hAll y (List.mem_cons_of_mem _ hy)

/- Bits joined by a gate; a bit that changes no other for none. -/
theorem isBit_joinAll
    (op : GateOp)
    {last : Expr}
    (unit : Bool)
    (hUnit : ∀ b, op.onBits unit b = b)
    (hLast : IsBit Γ last (fun _ => unit))
    {xs : List α}
    {expr : α → Expr}
    {meaning : α → (String → Nat) → Bool}
    (hAll : ∀ x ∈ xs, IsBit Γ (expr x) (meaning x)) :
    IsBit Γ ((joinAll? op (xs.map expr)).getD last)
      (fun τ => xs.foldl
        (fun b x => op.onBits b (meaning x τ)) unit) := by
  cases xs with
  | nil => exact hLast
  | cons x xs =>
      have hRow := isBit_foldl_gate op
        (hAll x (List.mem_cons_self ..))
        (fun y hy => hAll y (List.mem_cons_of_mem _ hy))
      exact hRow.congr fun τ => by rw [List.foldl_cons, hUnit]

theorem foldl_and_eq
    (xs : List α)
    (p : α → Bool)
    (first : Bool) :
    xs.foldl (fun b x => b && p x) first = (first && xs.all p) := by
  induction xs generalizing first with
  | nil => simp
  | cons x xs ih => simp [ih, Bool.and_assoc]

theorem foldl_or_eq
    (xs : List α)
    (p : α → Bool)
    (first : Bool) :
    xs.foldl (fun b x => b || p x) first = (first || xs.any p) := by
  induction xs generalizing first with
  | nil => simp
  | cons x xs ih => simp [ih, Bool.or_assoc]

/- The product of bits, 1 for none. -/
theorem isBit_conjAll
    {xs : List α}
    {expr : α → Expr}
    {meaning : α → (String → Nat) → Bool}
    (hAll : ∀ x ∈ xs, IsBit Γ (expr x) (meaning x)) :
    IsBit Γ ((conjAll? (xs.map expr)).getD (ofBool true))
      (fun τ => xs.all fun x => meaning x τ) :=
  (isBit_joinAll .and true (fun _ => rfl)
    (isBit_ofBool true) hAll).congr fun _ => foldl_and_eq xs _ true

/- The sum of bits, 0 for none. -/
theorem isBit_disjAll
    {zero : Expr}
    (hZero : IsBit Γ zero (fun _ => false))
    {xs : List α}
    {expr : α → Expr}
    {meaning : α → (String → Nat) → Bool}
    (hAll : ∀ x ∈ xs, IsBit Γ (expr x) (meaning x)) :
    IsBit Γ ((disjAll? (xs.map expr)).getD zero)
      (fun τ => xs.any fun x => meaning x τ) :=
  (isBit_joinAll .or false (fun _ => rfl) hZero hAll).congr
    fun _ => foldl_or_eq xs _ false

end Expr

end Gatework

------------------------------------------------------------
-- Single bits
------------------------------------------------------------

namespace Gatework

namespace Expr

variable {Γ : Var → Prop}

/- The bit of a choice follows the chosen side. -/
theorem isBit_choose
    {s t f : Expr}
    {c x y : (String → Nat) → Bool}
    (hs : IsBit Γ s c)
    (ht : IsBit Γ t x)
    (hf : IsBit Γ f y) :
    IsBit Γ (choose s t f)
      (fun τ => if c τ then x τ else y τ) := by
  have hTyped : (choose s t f).Typed Γ :=
    ⟨hs.typed, ht.typed, hf.typed, hs.width_eq,
      ht.width_eq.trans hf.width_eq.symm⟩
  refine ⟨hTyped, ht.width_eq, ?_⟩
  intro τ
  rw [choose, value_mux hTyped, hs.bit_eq]
  cases c τ with
  | true => exact ht.bit_eq τ
  | false => exact hf.bit_eq τ

theorem isBit_bitOfParts
    {parts : List Expr}
    (hParts : ∀ p ∈ parts, ∀ i, i < p.width →
      IsBit Γ (p.bitOf i) (fun τ => (p.value τ).testBit i))
    {i : Nat}
    (hi : i < totalWidth parts) :
    IsBit Γ (bitOfParts parts i) (fun τ => partsBit τ parts i) := by
  induction parts with
  | nil => exact absurd hi (Nat.not_lt_zero i)
  | cons p ps ih =>
      have hTail : ∀ q ∈ ps, ∀ i, i < q.width →
          IsBit Γ (q.bitOf i)
            (fun τ => (q.value τ).testBit i) :=
        fun q hq => hParts q (List.mem_cons_of_mem _ hq)
      rw [totalWidth] at hi
      rw [bitOfParts]
      by_cases hLow : i < totalWidth ps
      · rw [if_pos hLow]
        exact (ih hTail hLow).congr
          (fun τ => by simp [partsBit, hLow])
      · have hHere : i < totalWidth ps + p.width := by
          omega
        have hIndex : i - totalWidth ps < p.width := by
          omega
        rw [if_neg hLow, if_pos hHere]
        exact (hParts p (List.mem_cons_self ..) _ hIndex).congr
          (fun τ => by simp [partsBit, hLow])

/- An expression of one bit is its own bit. -/
theorem isBit_self
    {e : Expr}
    (he : e.Typed Γ)
    (hWidth : e.width = 1) :
    IsBit Γ e (fun τ => (e.value τ).testBit 0) :=
  ⟨he, hWidth, fun _ => rfl⟩

/- A single bit is returned whole, whatever the index. -/
theorem bitOf_of_width_eq_one
    {e : Expr}
    (hWidth : e.width = 1)
    (i : Nat) :
    e.bitOf i = e := by
  cases e <;> rw [bitOf, if_pos hWidth]

theorem isBit_bitOf_scalar
    {e : Expr}
    (he : e.Typed Γ)
    (hWidth : e.width = 1)
    {i : Nat}
    (hi : i < e.width) :
    IsBit Γ (e.bitOf i) (fun τ => (e.value τ).testBit i) := by
  have hZero : i = 0 := by
    omega
  rw [bitOf_of_width_eq_one hWidth, hZero]
  exact isBit_self he hWidth

/- The expression of a bit computes that bit. -/
theorem isBit_bitOf
    {e : Expr}
    (he : e.Typed Γ)
    {i : Nat}
    (hi : i < e.width) :
    IsBit Γ (e.bitOf i) (fun τ => (e.value τ).testBit i) := by
  induction e generalizing i with
  | const m c =>
      by_cases hOne : (const m c).width = 1
      · exact isBit_bitOf_scalar he hOne hi
      · rw [bitOf, if_neg hOne]
        refine (isBit_ofBool (c.bitAt i)).congr ?_
        intro τ
        have hRange : i < maxWidth :=
          Nat.lt_of_lt_of_le hi he.2.1
        rw [value_const he, Const.bitAt, decide_eq_true hRange,
          Bool.true_and]
  | var m v =>
      by_cases hOne : (var m v).width = 1
      · exact isBit_bitOf_scalar he hOne hi
      · rw [bitOf, if_neg hOne]
        exact ⟨⟨he, hi⟩, rfl, fun τ => testBit_value_bit τ⟩
  | not m x ih => exact isBit_bitOf_scalar he he.2 hi
  | gate m op a b iha ihb =>
      by_cases hOne : (gate m op a b).width = 1
      · exact isBit_bitOf_scalar he hOne hi
      · rw [bitOf, if_neg hOne]
        have hRight : i < b.width := he.2.2 ▸ hi
        refine
          ((iha he.1 hi).gate op (ihb he.2.1 hRight)).congr ?_
        intro τ
        exact (testBit_value_gate he τ hi).symm
  | compare m op a b iha ihb =>
      exact isBit_bitOf_scalar he rfl hi
  | mux m s t f ihs iht ihf =>
      by_cases hOne : (mux m s t f).width = 1
      · exact isBit_bitOf_scalar he hOne hi
      · rw [bitOf, if_neg hOne]
        rcases he with ⟨hs, ht, hf, hSel, hWidths⟩
        have hRight : i < f.width := hWidths ▸ hi
        refine (isBit_choose (isBit_self hs hSel) (iht ht hi)
          (ihf hf hRight)).congr ?_
        intro τ
        rw [value_mux ⟨hs, ht, hf, hSel, hWidths⟩]
        split <;> rfl
  | bit m b j ih => exact isBit_bitOf_scalar he rfl hi
  | part m b h l ih =>
      by_cases hOne : (part m b h l).width = 1
      · exact isBit_bitOf_scalar he hOne hi
      · rw [bitOf, if_neg hOne]
        have hInside : min h l + i < b.width := by
          have hBase := he.2
          rw [width] at hi
          omega
        refine (ih he.1 hInside).congr ?_
        intro τ
        exact (testBit_value_part he τ hi).symm
  | concat m parts ih =>
      by_cases hOne : (concat m parts).width = 1
      · exact isBit_bitOf_scalar he hOne hi
      · rw [bitOf, if_neg hOne]
        have hParts : ∀ p ∈ parts, ∀ i, i < p.width →
            IsBit Γ (p.bitOf i)
              (fun τ => (p.value τ).testBit i) := by
          intro p hp j hj
          exact ih p hp (typedAll_iff.mp he.1 p hp) hj
        refine (isBit_bitOfParts hParts hi).congr ?_
        intro τ
        exact (testBit_value_concat he τ hi).symm

end Expr

end Gatework

------------------------------------------------------------
-- Bits side by side
------------------------------------------------------------

namespace Gatework

namespace Expr

variable {Γ : Var → Prop}

theorem mem_indicesDown
    {n i : Nat} :
    i ∈ indicesDown n ↔ i < n := by
  simp [indicesDown]

theorem indicesDown_succ
    (n : Nat) :
    indicesDown (n + 1) = n :: indicesDown n := by
  simp [indicesDown, List.range_succ]

variable {n : Nat}
variable {expr : Nat → Expr}
variable {meaning : Nat → (String → Nat) → Bool}

theorem totalWidth_bits
    (hWidths : ∀ i, i < n → (expr i).width = 1) :
    totalWidth ((indicesDown n).map expr) = n := by
  induction n with
  | zero => rfl
  | succ n ih =>
      rw [indicesDown_succ, List.map_cons, totalWidth,
        hWidths n (Nat.lt_succ_self n),
        ih (fun i hi => hWidths i (Nat.lt_succ_of_lt hi)),
        Nat.add_comm]

theorem partsBit_bits
    (hWidths : ∀ i, i < n → (expr i).width = 1)
    (τ : String → Nat)
    {i : Nat}
    (hi : i < n) :
    partsBit τ ((indicesDown n).map expr) i =
      ((expr i).value τ).testBit 0 := by
  induction n with
  | zero => exact absurd hi (Nat.not_lt_zero i)
  | succ n ih =>
      have hTail : ∀ j, j < n → (expr j).width = 1 :=
        fun j hj => hWidths j (Nat.lt_succ_of_lt hj)
      rw [indicesDown_succ, List.map_cons, partsBit,
        totalWidth_bits hTail]
      by_cases hLow : i < n
      · rw [if_pos hLow]
        exact ih hTail hLow
      · have hLast : i = n := by
          omega
        rw [if_neg hLow, hLast, Nat.sub_self]

/- Bits side by side, highest first. -/
theorem isWord_concat
    (hPos : 1 ≤ n)
    (hMax : n ≤ maxWidth)
    (hBits : ∀ i, i < n → IsBit Γ (expr i) (meaning i)) :
    IsWord Γ (concat none ((indicesDown n).map expr)) n
      (fun τ i => meaning i τ) := by
  have hWidths : ∀ i, i < n → (expr i).width = 1 :=
    fun i hi => (hBits i hi).width_eq
  have hTotal := totalWidth_bits hWidths
  have hTyped :
      (concat none ((indicesDown n).map expr)).Typed Γ := by
    refine ⟨typedAll_iff.mpr ?_, ?_, ?_⟩
    · intro p hp
      rcases List.mem_map.mp hp with ⟨i, hi, rfl⟩
      exact (hBits i (mem_indicesDown.mp hi)).typed
    · intro hEmpty
      have hLength := congrArg List.length hEmpty
      simp [indicesDown] at hLength
      omega
    · rw [hTotal]
      exact hMax
  refine ⟨hTyped, hTotal, ?_⟩
  intro τ i hi
  have hInside : i < totalWidth ((indicesDown n).map expr) := by
    rw [hTotal]
    exact hi
  rw [testBit_value_concat hTyped τ hInside,
    partsBit_bits hWidths τ hi, (hBits i hi).bit_eq]

/- Joined bits are the word of these bits. -/
theorem isWord_join
    (hPos : 1 ≤ n)
    (hMax : n ≤ maxWidth)
    (hBits : ∀ i, i < n → IsBit Γ (expr i) (meaning i)) :
    IsWord Γ (join ((indicesDown n).map expr)) n
      (fun τ i => meaning i τ) := by
  match n, hPos with
  | 1, _ =>
      have hOne := (hBits 0 Nat.one_pos).isWord
      refine ⟨hOne.typed, hOne.width_eq, ?_⟩
      intro τ i hi
      have hZero : i = 0 := by
        omega
      rw [hZero]
      exact hOne.bit_eq τ 0 Nat.one_pos
  | n + 2, hPos =>
      rw [show join ((indicesDown (n + 2)).map expr) =
        concat none ((indicesDown (n + 2)).map expr) by
          rw [indicesDown_succ, indicesDown_succ]
          rfl]
      exact isWord_concat hPos hMax hBits

/-
  Splicing takes the bits of the field from the value and all
  others from the whole.
-/
theorem isWord_splice
    {whole value : Expr}
    (hWhole : whole.Typed Γ)
    (hValue : value.Typed Γ)
    (low : Nat) :
    IsWord Γ (whole.splice low value) whole.width
      (fun τ i =>
        if low ≤ i ∧ i < low + value.width then
          (value.value τ).testBit (i - low)
        else
          (whole.value τ).testBit i) := by
  unfold splice
  apply isWord_join hWhole.width_pos hWhole.width_le
  intro i hi
  by_cases hField : low ≤ i ∧ i < low + value.width
  · have hIndex : i - low < value.width := by
      omega
    rw [if_pos hField]
    exact (isBit_bitOf hValue hIndex).congr
      (fun τ => by rw [if_pos hField])
  · rw [if_neg hField]
    exact (isBit_bitOf hWhole hi).congr
      (fun τ => by rw [if_neg hField])

end Expr

end Gatework

------------------------------------------------------------
-- Equality
------------------------------------------------------------

namespace Gatework

namespace Expr

variable {Γ : Var → Prop}

/- Words are equal when all bits below their width are. -/
theorem all_bits_eq_iff
    {x y width : Nat}
    (hx : x < 2 ^ width)
    (hy : y < 2 ^ width) :
    ((indicesDown width).all fun i =>
      x.testBit i == y.testBit i) = (x == y) := by
  apply Bool.eq_iff_iff.mpr
  rw [List.all_eq_true, beq_iff_eq]
  constructor
  · intro hBits
    apply eq_of_bits_lt hx hy
    intro i hi
    exact beq_iff_eq.mp (hBits i (mem_indicesDown.mpr hi))
  · rintro rfl i _
    exact beq_self_eq_true _

/- The written-out test for a constant compares values. -/
theorem isBit_equalsConst
    {subject : Expr}
    (hSubject : subject.Typed Γ)
    {c : Nat}
    (hc : c < 2 ^ maxWidth) :
    IsBit Γ (subject.equalsConst c)
      (fun τ => subject.value τ == c) := by
  unfold equalsConst
  by_cases hFits : c < 2 ^ subject.width
  · have hShift : c >>> subject.width = 0 := by
      rw [Nat.shiftRight_eq_div_pow]
      exact Nat.div_eq_of_lt hFits
    rw [if_neg (fun h => h.2 hShift)]
    have hAll : ∀ i ∈ indicesDown subject.width,
        IsBit Γ (literal (subject.bitOf i) (c.testBit i))
          (fun τ =>
            (subject.value τ).testBit i == c.testBit i) := by
      intro i hi
      exact (isBit_bitOf hSubject
        (mem_indicesDown.mp hi)).literal _
    exact (isBit_conjAll hAll).congr
      (fun τ => all_bits_eq_iff (hSubject.value_lt τ) hFits)
  · have hNarrow : subject.width < maxWidth := by
      apply Nat.lt_of_not_le
      intro hWide
      have hSame : subject.width = maxWidth :=
        Nat.le_antisymm hSubject.width_le hWide
      exact hFits (hSame ▸ hc)
    have hShift : c >>> subject.width ≠ 0 := by
      rw [Nat.shiftRight_eq_div_pow]
      exact Nat.ne_of_gt
        (Nat.div_pos (Nat.le_of_not_lt hFits)
          (Nat.two_pow_pos _))
    rw [if_pos ⟨hNarrow, hShift⟩]
    refine (isBit_ofBool false).congr ?_
    intro τ
    have hDiffer : subject.value τ ≠ c := by
      intro hSame
      exact hFits (hSame ▸ hSubject.value_lt τ)
    exact (beq_eq_false_iff_ne.mpr hDiffer).symm

/- Two bits agree when both are 1 or both are 0. -/
theorem IsBit.bitsAgree
    {a b : Expr}
    {f g : (String → Nat) → Bool}
    (ha : IsBit Γ a f)
    (hb : IsBit Γ b g) :
    IsBit Γ (bitsAgree a b) (fun τ => f τ == g τ) := by
  refine ((ha.conj hb).disj (ha.neg.conj hb.neg)).congr ?_
  intro τ
  cases f τ <;> cases g τ <;> rfl

/- The written-out comparison compares values. -/
theorem isBit_equals
    {a b : Expr}
    (ha : a.Typed Γ)
    (hb : b.Typed Γ)
    (hWidths : a.width = b.width) :
    IsBit Γ (a.equals b) (fun τ => a.value τ == b.value τ) := by
  unfold equals
  rw [← hWidths, Nat.min_self]
  have hAll : ∀ i ∈ indicesDown a.width,
      IsBit Γ (Expr.bitsAgree (a.bitOf i) (b.bitOf i))
        (fun τ =>
          (a.value τ).testBit i == (b.value τ).testBit i) := by
    intro i hi
    have hLeft : i < a.width := mem_indicesDown.mp hi
    exact (isBit_bitOf ha hLeft).bitsAgree
      (isBit_bitOf hb (hWidths ▸ hLeft))
  refine (isBit_conjAll hAll).congr ?_
  intro τ
  have hRight : b.value τ < 2 ^ a.width := by
    rw [hWidths]
    exact hb.value_lt τ
  exact all_bits_eq_iff (ha.value_lt τ) hRight

end Expr

end Gatework
