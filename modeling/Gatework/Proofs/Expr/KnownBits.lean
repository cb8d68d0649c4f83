import Gatework.Proofs.Expr.Known

/-
  Single bits where some signals have no value.

  The expression of one bit, and words and tests made from
  such bits, read no more than the expressions they are taken
  from. So they have a value wherever those have, and for
  valid trees it is the bit, the word with one field replaced
  and the outcome of the test.

  Key theorems include:
    * `Expr.known_of_bound`
    * `Expr.known_bitOf` and `Expr.known_splice`
    * `Expr.known_equalsConst` and `Expr.known_equals`
    * `Expr.IsBit.eval_of_known`
    * `Expr.bits_and_fields_exact`
    * `Expr.equality_tests_exact`
-/

------------------------------------------------------------
-- Bits
------------------------------------------------------------

namespace Gatework

namespace Expr

variable {ρ : Valuation}
variable {e : Expr}

/- An expression is known where all its signals are bound. -/
theorem known_of_bound
    (hBound : ∀ v ∈ e.occurrences, (ρ v.name).isSome) :
    e.Known ρ := by
  have hFilled : ∀ v ∈ e.occurrences,
      ρ v.name = some (ρ.filled v.name) := by
    intro v hv
    rcases Option.isSome_iff_exists.mp (hBound v hv) with ⟨x, hx⟩
    rw [Valuation.filled, hx, Option.getD_some]
  exact (eval_eq_ok_iff.mp (eval_eq_value hFilled)).1

/- A known expression has its value. -/
theorem Known.eval
    (hKnown : e.Known ρ) :
    e.eval ρ = .ok (e.value ρ.filled) :=
  eval_eq_ok_iff.mpr ⟨hKnown, rfl⟩

theorem known_bitOfParts
    {parts : List Expr}
    (hParts : ∀ p ∈ parts, ∀ i, (p.bitOf i).Known ρ)
    (i : Nat) :
    (bitOfParts parts i).Known ρ := by
  induction parts with
  | nil => trivial
  | cons p ps ih =>
      rw [bitOfParts]
      by_cases hLow : i < totalWidth ps
      · rw [if_pos hLow]
        exact ih (fun q hq => hParts q (List.mem_cons_of_mem _ hq))
      · rw [if_neg hLow]
        by_cases hHere : i < totalWidth ps + p.width
        · rw [if_pos hHere]
          exact hParts p (List.mem_cons_self ..) _
        · rw [if_neg hHere]
          trivial

/- A single bit is returned whole; wider ones are left. -/
theorem known_bitOf_of_wide
    (hKnown : e.Known ρ)
    {i : Nat}
    (hWide : e.width ≠ 1 → (e.bitOf i).Known ρ) :
    (e.bitOf i).Known ρ := by
  by_cases hOne : e.width = 1
  · rw [bitOf_of_width_eq_one hOne]
    exact hKnown
  · exact hWide hOne

/- A bit is known where the whole expression is. -/
theorem known_bitOf
    (hKnown : e.Known ρ)
    (i : Nat) :
    (e.bitOf i).Known ρ := by
  induction e generalizing i with
  | const m c =>
      apply known_bitOf_of_wide hKnown
      intro hWide
      rw [bitOf, if_neg hWide]
      trivial
  | var m v =>
      apply known_bitOf_of_wide hKnown
      intro hWide
      rw [bitOf, if_neg hWide]
      exact hKnown
  | not m x ih =>
      rw [bitOf, ite_self]
      exact hKnown
  | gate m op a b iha ihb =>
      apply known_bitOf_of_wide hKnown
      intro hWide
      rw [bitOf, if_neg hWide]
      exact ⟨iha hKnown.1 i, ihb hKnown.2 i⟩
  | compare m op a b iha ihb =>
      rw [bitOf, ite_self]
      exact hKnown
  | mux m s t f ihs iht ihf =>
      apply known_bitOf_of_wide hKnown
      intro hWide
      rw [bitOf, if_neg hWide]
      -- The selector is not taken apart, so the same side is
      -- selected.
      refine ⟨hKnown.1, ?_⟩
      have hSide := hKnown.2
      by_cases hBit : (s.value ρ.filled).testBit 0 = true
      · rw [if_pos hBit] at hSide ⊢
        exact iht hSide i
      · rw [if_neg hBit] at hSide ⊢
        exact ihf hSide i
  | bit m b j ih =>
      rw [bitOf, ite_self]
      exact hKnown
  | part m b h l ih =>
      apply known_bitOf_of_wide hKnown
      intro hWide
      rw [bitOf, if_neg hWide]
      exact ih hKnown _
  | concat m parts ih =>
      apply known_bitOf_of_wide hKnown
      intro hWide
      rw [bitOf, if_neg hWide]
      exact known_bitOfParts
        (fun p hp => ih p hp (knownAll_iff.mp hKnown p hp)) i

end Expr

end Gatework

------------------------------------------------------------
-- Words
------------------------------------------------------------

namespace Gatework

namespace Expr

variable {ρ : Valuation}

theorem known_join
    {bits : List Expr}
    (hBits : ∀ b ∈ bits, b.Known ρ) :
    (join bits).Known ρ := by
  match bits with
  | [] => trivial
  | [b] => exact hBits b (List.mem_cons_self ..)
  | b :: c :: rest => exact knownAll_iff.mpr hBits

/- A word with a field replaced is known where both are. -/
theorem known_splice
    {whole value : Expr}
    (hWhole : whole.Known ρ)
    (hValue : value.Known ρ)
    (low : Nat) :
    (whole.splice low value).Known ρ := by
  unfold splice
  apply known_join
  intro e he
  rcases List.mem_map.mp he with ⟨i, _, rfl⟩
  split
  · exact known_bitOf hValue _
  · exact known_bitOf hWhole i

end Expr

end Gatework

------------------------------------------------------------
-- Tests
------------------------------------------------------------

namespace Gatework

namespace Expr

variable {ρ : Valuation}

/- Gates in a row are known if all of their operands are. -/
theorem known_foldl_gate
    {op : GateOp}
    {first : Expr}
    (hFirst : first.Known ρ)
    {es : List Expr}
    (hAll : ∀ e ∈ es, e.Known ρ) :
    (es.foldl (gate none op) first).Known ρ := by
  induction es generalizing first with
  | nil => exact hFirst
  | cons e es ih =>
      have hNext : (gate none op first e).Known ρ :=
        ⟨hFirst, hAll e (List.mem_cons_self ..)⟩
      exact ih hNext (fun x hx => hAll x (List.mem_cons_of_mem _ hx))

theorem known_joinAll
    {op : GateOp}
    {es : List Expr}
    (hAll : ∀ e ∈ es, e.Known ρ)
    {last : Expr}
    (hLast : last.Known ρ) :
    ((joinAll? op es).getD last).Known ρ := by
  cases es with
  | nil => exact hLast
  | cons e es =>
      exact known_foldl_gate (hAll e (List.mem_cons_self ..))
        (fun x hx => hAll x (List.mem_cons_of_mem _ hx))

/- A test for a constant is known where its subject is. -/
theorem known_equalsConst
    {subject : Expr}
    (hKnown : subject.Known ρ)
    (c : Nat) :
    (subject.equalsConst c).Known ρ := by
  unfold equalsConst
  split
  · trivial
  · apply known_joinAll
    · intro e he
      rcases List.mem_map.mp he with ⟨i, _, hEq⟩
      rw [← hEq]
      exact known_literal (known_bitOf hKnown i)
    · trivial

theorem known_bitsAgree
    {a b : Expr}
    (ha : a.Known ρ)
    (hb : b.Known ρ) :
    (bitsAgree a b).Known ρ :=
  ⟨⟨ha, hb⟩, ⟨ha, hb⟩⟩

/- A written-out comparison is known where both sides are. -/
theorem known_equals
    {a b : Expr}
    (ha : a.Known ρ)
    (hb : b.Known ρ) :
    (a.equals b).Known ρ := by
  unfold equals
  apply known_joinAll
  · intro e he
    rcases List.mem_map.mp he with ⟨i, _, hEq⟩
    rw [← hEq]
    exact known_bitsAgree (known_bitOf ha i) (known_bitOf hb i)
  · trivial

/- A known bit is the number of its meaning. -/
theorem IsBit.eval_of_known
    {Γ : Var → Prop}
    {e : Expr}
    {f : (String → Nat) → Bool}
    (he : IsBit Γ e f)
    (hKnown : e.Known ρ) :
    e.eval ρ = .ok (f ρ.filled).toNat := by
  rw [hKnown.eval, he.value_eq]

end Expr

end Gatework

------------------------------------------------------------
-- Valid trees
------------------------------------------------------------

namespace Gatework

namespace Expr

variable {ρ : Valuation}

theorem eval_bitOf
    {e : Expr}
    (he : e.validate = .ok ())
    {i v : Nat}
    (hi : i < e.width)
    (hv : e.eval ρ = .ok v) :
    (e.bitOf i).eval ρ = .ok (v.testBit i).toNat := by
  rcases eval_eq_ok_iff.mp hv with ⟨hKnown, rfl⟩
  exact (isBit_bitOf (validate_eq_ok_iff.mp he) hi).eval_of_known
    (known_bitOf hKnown i)

/- The bits of the field are those of the value put there. -/
theorem eval_splice
    {whole value : Expr}
    (hWhole : whole.validate = .ok ())
    (hValue : value.validate = .ok ())
    {low : Nat}
    (hInside : low + value.width ≤ whole.width)
    {a b : Nat}
    (ha : whole.eval ρ = .ok a)
    (hb : value.eval ρ = .ok b) :
    ∃ r, (whole.splice low value).eval ρ = .ok r ∧
      r < 2 ^ whole.width ∧
      ∀ i, r.testBit i =
        if low ≤ i ∧ i < low + value.width then
          b.testBit (i - low)
        else
          a.testBit i := by
  have hTyped := validate_eq_ok_iff.mp hWhole
  have hWord := isWord_splice hTyped (validate_eq_ok_iff.mp hValue) low
  rcases eval_eq_ok_iff.mp ha with ⟨hKnown, rfl⟩
  rcases eval_eq_ok_iff.mp hb with ⟨hKnownValue, rfl⟩
  have hLt := hWord.typed.value_lt ρ.filled
  rw [hWord.width_eq] at hLt
  refine ⟨_, (known_splice hKnown hKnownValue low).eval, hLt, ?_⟩
  intro i
  by_cases hi : i < whole.width
  · exact hWord.bit_eq ρ.filled i hi
  · -- Beyond the whole there is no field, and both are 0.
    have hBeyond := Nat.le_of_not_lt hi
    have hOutside : ¬ (low ≤ i ∧ i < low + value.width) := by
      omega
    rw [if_neg hOutside, testBit_of_lt_of_le hLt hBeyond,
      testBit_of_lt_of_le (hTyped.value_lt ρ.filled) hBeyond]

/-
  Taking a bit out of a valid tree and putting a valid tree
  into a field of another give valid trees of the right width.
  Where the trees they are made of have values, the one is
  that bit, and the other has the bits of the value in its
  field and those of the whole elsewhere.
-/
theorem bits_and_fields_exact :
    (∀ (e : Expr) (i : Nat),
      e.validate = .ok () → i < e.width →
        (e.bitOf i).validate = .ok () ∧ (e.bitOf i).width = 1 ∧
        ∀ ρ v, e.eval ρ = .ok v →
          (e.bitOf i).eval ρ = .ok (v.testBit i).toNat) ∧
    (∀ (whole value : Expr) (low : Nat),
      whole.validate = .ok () → value.validate = .ok () →
      low + value.width ≤ whole.width →
        (whole.splice low value).validate = .ok () ∧
        (whole.splice low value).width = whole.width ∧
        ∀ ρ a b, whole.eval ρ = .ok a → value.eval ρ = .ok b →
          ∃ r, (whole.splice low value).eval ρ = .ok r ∧
            r < 2 ^ whole.width ∧
            ∀ i, r.testBit i =
              if low ≤ i ∧ i < low + value.width then
                b.testBit (i - low)
              else
                a.testBit i) := by
  constructor
  · intro e i he hi
    have hBit := isBit_bitOf (validate_eq_ok_iff.mp he) hi
    exact ⟨validate_eq_ok_iff.mpr hBit.typed, hBit.width_eq,
      fun ρ v hv => eval_bitOf he hi hv⟩
  · intro whole value low hWhole hValue hInside
    have hWord := isWord_splice (validate_eq_ok_iff.mp hWhole)
      (validate_eq_ok_iff.mp hValue) low
    exact ⟨validate_eq_ok_iff.mpr hWord.typed, hWord.width_eq,
      fun ρ a b ha hb => eval_splice hWhole hValue hInside ha hb⟩

/-
  Seven bits: a choice of which one side has no value, below
  three bits of `a` selected from the low end up, and one bit.
-/
def mixedWord : Expr :=
  concat none
    [part none (var none ⟨"a", 6, false⟩) 2 4,
      mux none (var none ⟨"s", 1, false⟩)
        (var none ⟨"b", 3, false⟩) (var none ⟨"c", 3, false⟩),
      var none ⟨"s", 1, false⟩]

/- Values of the signals of `mixedWord`, but not of `c`. -/
def mixedValues : Valuation :=
  fun n =>
    if n = "a" then some 0b010100
    else if n = "b" then some 0b110
    else if n = "s" then some 1
    else none

theorem bits_and_fields_exact_mixedWord :
    mixedWord.validate = .ok () ∧
      mixedWord.eval mixedValues = .ok 0b1011101 ∧
      (mixedWord.bitOf 6).eval mixedValues = .ok 1 ∧
      (mixedWord.bitOf 5).eval mixedValues = .ok 0 ∧
      ∃ r, (mixedWord.splice 2 (var none ⟨"b", 3, false⟩)).eval
          mixedValues = .ok r ∧ r = 0b1011001 := by
  have hWord : mixedWord.eval mixedValues = .ok 0b1011101 := by
    decide
  have hValue : (var none ⟨"b", 3, false⟩).eval mixedValues =
      .ok 0b110 := by
    decide
  have hBits := bits_and_fields_exact.1 mixedWord
  refine ⟨rfl, hWord, ?_, ?_, ?_⟩
  · exact (hBits 6 rfl (by decide)).2.2 _ _ hWord
  · exact (hBits 5 rfl (by decide)).2.2 _ _ hWord
  · rcases (bits_and_fields_exact.2 mixedWord
      (var none ⟨"b", 3, false⟩) 2 rfl rfl (by decide)).2.2 _ _ _
        hWord hValue with ⟨r, hr, hLt, hField⟩
    refine ⟨r, hr, eq_of_bits_lt hLt (by decide) ?_⟩
    intro i hi
    rw [hField i]
    revert i
    decide

/-
  Equality written out bit by bit is a valid tree of one bit,
  and where its subjects have values it is 1 if they are equal
  and 0 if not. A constant may be any number of 64 bits, also
  one that the subject has no room for.
-/
theorem equality_tests_exact :
    (∀ (s : Expr) (k : Nat),
      s.validate = .ok () → k < 2 ^ maxWidth →
        (s.equalsConst k).validate = .ok () ∧
        (s.equalsConst k).width = 1 ∧
        ∀ ρ v, s.eval ρ = .ok v →
          (s.equalsConst k).eval ρ = .ok (if v = k then 1 else 0)) ∧
    (∀ a b : Expr,
      a.validate = .ok () → b.validate = .ok () →
      a.width = b.width →
        (a.equals b).validate = .ok () ∧ (a.equals b).width = 1 ∧
        ∀ ρ x y, a.eval ρ = .ok x → b.eval ρ = .ok y →
          (a.equals b).eval ρ = .ok (if x = y then 1 else 0)) := by
  have hNumber : ∀ x y : Nat,
      (x == y).toNat = if x = y then 1 else 0 := by
    intro x y
    by_cases hSame : x = y <;> simp [hSame]
  constructor
  · intro s k hs hk
    have hTest := isBit_equalsConst (validate_eq_ok_iff.mp hs) hk
    refine ⟨validate_eq_ok_iff.mpr hTest.typed, hTest.width_eq, ?_⟩
    intro ρ v hv
    rcases eval_eq_ok_iff.mp hv with ⟨hKnown, rfl⟩
    rw [hTest.eval_of_known (known_equalsConst hKnown k), hNumber]
  · intro a b ha hb hWidths
    have hTest := isBit_equals (validate_eq_ok_iff.mp ha)
      (validate_eq_ok_iff.mp hb) hWidths
    refine ⟨validate_eq_ok_iff.mpr hTest.typed, hTest.width_eq, ?_⟩
    intro ρ x y hx hy
    rcases eval_eq_ok_iff.mp hx with ⟨hLeft, rfl⟩
    rcases eval_eq_ok_iff.mp hy with ⟨hRight, rfl⟩
    rw [hTest.eval_of_known (known_equals hLeft hRight), hNumber]

theorem equality_tests_exact_mixedWord :
    mixedWord.eval mixedValues = .ok 0b1011101 ∧
      (mixedWord.equalsConst 0b1011101).eval mixedValues = .ok 1 ∧
      (mixedWord.equalsConst (0b1011101 + 2 ^ 7)).eval mixedValues =
        .ok 0 ∧
      (mixedWord.equals mixedWord).eval mixedValues = .ok 1 := by
  have hWord : mixedWord.eval mixedValues = .ok 0b1011101 := by
    decide
  have hTests := equality_tests_exact.1 mixedWord
  refine ⟨hWord, ?_, ?_, ?_⟩
  · exact (hTests _ rfl (by decide)).2.2 _ _ hWord
  · exact (hTests _ rfl (by decide)).2.2 _ _ hWord
  · exact (equality_tests_exact.2 mixedWord mixedWord rfl rfl
      rfl).2.2 _ _ _ hWord hWord

end Expr

end Gatework
