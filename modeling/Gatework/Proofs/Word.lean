import Mathlib.Algebra.Ring.Nat
import Gatework.Stmt.Exec

/-
  Bits of the words that evaluation computes.

  A word is known by its bits: each operation on words says
  what bit `i` of its result is, and a word below a power of
  two is determined by the bits below that power.

  Key definitions include:
    * `GateOp.onBits`, a gate on two bits

  Key theorems include:
    * `testBit_mask` and `testBit_complement`
    * `GateOp.testBit_apply`
    * `testBit_replaceBits`
    * `eq_of_bits_lt`
-/

------------------------------------------------------------
-- Masks
------------------------------------------------------------

namespace Gatework

theorem mask_eq
    (width : Nat) :
    mask width = 2 ^ min width maxWidth - 1 := by
  unfold mask
  rw [Nat.one_shiftLeft]

/- A mask has its bits below the width and below 64. -/
theorem testBit_mask
    (width i : Nat) :
    (mask width).testBit i =
      decide (i < min width maxWidth) := by
  rw [mask_eq]
  exact Nat.testBit_two_pow_sub_one _ _

/- Cutting to a width in range is a remainder. -/
theorem and_mask
    {width : Nat}
    (hWidth : width ≤ maxWidth)
    (value : Nat) :
    value &&& mask width = value % 2 ^ width := by
  rw [mask_eq, Nat.min_eq_left hWidth]
  exact Nat.and_two_pow_sub_one_eq_mod value width

theorem and_mask_lt
    {width : Nat}
    (hWidth : width ≤ maxWidth)
    (value : Nat) :
    value &&& mask width < 2 ^ width := by
  rw [and_mask hWidth]
  exact Nat.mod_lt _ (Nat.two_pow_pos width)

/- A value that fits is not cut. -/
theorem and_mask_of_lt
    {width value : Nat}
    (hWidth : width ≤ maxWidth)
    (hValue : value < 2 ^ width) :
    value &&& mask width = value := by
  rw [and_mask hWidth]
  exact Nat.mod_eq_of_lt hValue

/- Cutting to a width keeps the bits below it. -/
theorem testBit_and_mask
    {width i : Nat}
    (hWidth : width ≤ maxWidth)
    (hi : i < width)
    (value : Nat) :
    (value &&& mask width).testBit i = value.testBit i := by
  rw [Nat.testBit_and, testBit_mask, Nat.min_eq_left hWidth,
    decide_eq_true hi, Bool.and_true]

/- A width in range has a mask of as many bits. -/
theorem mask_of_le
    {width : Nat}
    (hWidth : width ≤ maxWidth) :
    mask width = 2 ^ width - 1 := by
  rw [mask_eq, Nat.min_eq_left hWidth]

theorem le_mask_iff
    {width value : Nat}
    (hWidth : width ≤ maxWidth) :
    value ≤ mask width ↔ value < 2 ^ width := by
  have hPos := Nat.two_pow_pos width
  rw [mask_of_le hWidth]
  omega

theorem testBit_complement
    (width value i : Nat) :
    (complement width value).testBit i =
      (decide (i < min width maxWidth) &&
        !value.testBit i) := by
  unfold complement
  rw [Nat.testBit_xor, Nat.testBit_and, testBit_mask]
  cases decide (i < min width maxWidth) <;>
    cases value.testBit i <;> rfl

theorem complement_lt
    {width : Nat}
    (hWidth : width ≤ maxWidth)
    (value : Nat) :
    complement width value < 2 ^ width := by
  apply Nat.lt_pow_two_of_testBit
  intro i hi
  rw [testBit_complement, Nat.min_eq_left hWidth]
  simp [Nat.not_lt.mpr hi]

/- A width in range is brought to itself. -/
theorem clampWidth_eq
    {width : Nat}
    (hPos : 1 ≤ width)
    (hMax : width ≤ maxWidth) :
    clampWidth width = width := by
  unfold clampWidth
  omega

end Gatework

------------------------------------------------------------
-- Words and their bits
------------------------------------------------------------

namespace Gatework

/- Words below one power of two are known by their bits. -/
theorem eq_of_bits_lt
    {x y width : Nat}
    (hx : x < 2 ^ width)
    (hy : y < 2 ^ width)
    (hBits : ∀ i, i < width → x.testBit i = y.testBit i) :
    x = y := by
  apply Nat.eq_of_testBit_eq
  intro i
  by_cases hi : i < width
  · exact hBits i hi
  · have hPow : 2 ^ width ≤ 2 ^ i :=
      Nat.pow_le_pow_right (by decide) (Nat.le_of_not_lt hi)
    rw [Nat.testBit_lt_two_pow (Nat.lt_of_lt_of_le hx hPow),
      Nat.testBit_lt_two_pow (Nat.lt_of_lt_of_le hy hPow)]

/- Bits from the width of a word on are 0. -/
theorem testBit_of_lt_of_le
    {x width i : Nat}
    (hx : x < 2 ^ width)
    (hi : width ≤ i) :
    x.testBit i = false :=
  Nat.testBit_lt_two_pow
    (Nat.lt_of_lt_of_le hx
      (Nat.pow_le_pow_right (by decide) hi))

/- A word of one bit is that bit. -/
theorem eq_toNat_testBit
    {x : Nat}
    (hx : x < 2 ^ 1) :
    x = (x.testBit 0).toNat := by
  have hCases : x = 0 ∨ x = 1 := by
    omega
  rcases hCases with rfl | rfl <;> rfl

@[simp] theorem testBit_zero_toNat
    (b : Bool) :
    b.toNat.testBit 0 = b := by
  cases b <;> rfl

theorem toNat_lt_two
    (b : Bool) :
    b.toNat < 2 ^ 1 := by
  cases b <;> decide

end Gatework

------------------------------------------------------------
-- Gates
------------------------------------------------------------

namespace Gatework

namespace GateOp

/- A gate on two bits. -/
def onBits : GateOp → Bool → Bool → Bool
  | and, a, b => a && b
  | or, a, b => a || b
  | xor, a, b => a ^^ b
  | xnor, a, b => !(a ^^ b)
  | nand, a, b => !(a && b)
  | nor, a, b => !(a || b)

/- Gates work bit by bit within their width. -/
theorem testBit_apply
    (op : GateOp)
    (a b width i : Nat) :
    (op.apply a b width).testBit i =
      (decide (i < min width maxWidth) &&
        op.onBits (a.testBit i) (b.testBit i)) := by
  cases op <;>
    simp only [apply, onBits, testBit_complement,
      Nat.testBit_and, Nat.testBit_or, Nat.testBit_xor,
      testBit_mask] <;>
    exact Bool.and_comm _ _

theorem apply_lt
    {width : Nat}
    (hWidth : width ≤ maxWidth)
    (op : GateOp)
    (a b : Nat) :
    op.apply a b width < 2 ^ width := by
  apply Nat.lt_pow_two_of_testBit
  intro i hi
  rw [testBit_apply, Nat.min_eq_left hWidth]
  simp [Nat.not_lt.mpr hi]

end GateOp

end Gatework

------------------------------------------------------------
-- Fields of words
------------------------------------------------------------

namespace Gatework

/-
  Replacing a field keeps the bits outside it and takes those
  inside it from the value.
-/
theorem testBit_replaceBits
    {width : Nat}
    (hWidth : width ≤ maxWidth)
    (old offset value i : Nat) :
    (replaceBits old offset width value).testBit i =
      if offset ≤ i ∧ i < offset + width then
        value.testBit (i - offset)
      else
        old.testBit i := by
  unfold replaceBits
  simp only [Nat.testBit_or, Nat.testBit_xor, Nat.testBit_and,
    Nat.testBit_shiftLeft, testBit_mask,
    Nat.min_eq_left hWidth]
  by_cases hLow : offset ≤ i
  · by_cases hHigh : i < offset + width
    · have hInside : i - offset < width := by
        omega
      simp [hLow, hHigh, hInside]
    · have hOutside : ¬ i - offset < width := by
        omega
      simp [hHigh, hOutside]
  · simp [hLow]

/- The bits of a value above a lower part. -/
theorem testBit_append
    {low width : Nat}
    (hLow : low < 2 ^ width)
    (high i : Nat) :
    (high <<< width ||| low).testBit i =
      if i < width then
        low.testBit i
      else
        high.testBit (i - width) := by
  rw [Nat.testBit_or, Nat.testBit_shiftLeft]
  by_cases hi : i < width
  · simp [hi, Nat.not_le.mpr hi]
  · have hZero : low.testBit i = false :=
      testBit_of_lt_of_le hLow (Nat.le_of_not_lt hi)
    simp [hi, Nat.le_of_not_lt hi, hZero]

end Gatework
