import Gatework.Hdl.Literal
import Gatework.Proofs.Expr.Typing

/-
  Literals fit their widths.

  What is read has between 1 and 64 bits and a value of at
  most as many bits, and so has what it is brought to.

  Key definitions include:
    * `Const.Fits` and `Hdl.Literal.Fits`

  Key theorems include:
    * `Hdl.Literal.fits_read`
    * `Hdl.Literal.fits_fit?`
-/

------------------------------------------------------------
-- Numbers of at most 64 bits
------------------------------------------------------------

namespace Gatework

/- A width in range that holds the value. -/
def Const.Fits
    (c : Const) :
    Prop :=
  1 ≤ c.width ∧ c.width ≤ maxWidth ∧ c.value < 2 ^ c.width

theorem lt_of_readDecimal?
    {bound n : Nat}
    {cs : List Char}
    (hRead : readDecimal? bound cs = some n) :
    n < bound := by
  simp only [readDecimal?, Option.ite_none_left_eq_some,
    Option.ite_none_right_eq_some, Option.some.injEq] at hRead
  rcases hRead with ⟨_, hLt, rfl⟩
  exact hLt

theorem Radix.lt_of_digit?
    {radix : Radix}
    {c : Char}
    {d : Nat}
    (hDigit : radix.digit? c = some d) :
    d < radix.size := by
  unfold digit? at hDigit
  have hFilter := (Option.filter_eq_some_iff.mp hDigit).2
  exact of_decide_eq_true hFilter

namespace Hdl

theorem wordBound_eq :
    wordBound = 2 ^ maxWidth := by
  unfold wordBound
  rw [Nat.one_shiftLeft]

/- The width of a number holds it. -/
theorem lt_two_pow_bitLength
    (n : Nat) :
    n < 2 ^ bitLength n := by
  unfold bitLength
  split
  case isTrue hZero =>
      rw [hZero]
      decide
  case isFalse => exact Nat.lt_log2_self

theorem one_le_bitLength
    (n : Nat) :
    1 ≤ bitLength n := by
  unfold bitLength
  split
  · exact Nat.le_refl 1
  · exact Nat.le_add_left 1 _

theorem bitLength_le
    {n width : Nat}
    (hPos : 1 ≤ width)
    (hn : n < 2 ^ width) :
    bitLength n ≤ width := by
  unfold bitLength
  split
  case isTrue => exact hPos
  case isFalse hne => exact (Nat.log2_lt hne).mpr hn

theorem lt_of_looseDigit?
    {radix : Radix}
    {c : Char}
    {d : Nat}
    (hDigit : looseDigit? radix c = some d) :
    d < radix.size := by
  unfold looseDigit? at hDigit
  split at hDigit
  case isTrue =>
      cases hDigit
      cases radix <;> decide
  case isFalse => exact Radix.lt_of_digit? hDigit

/- A digit more still fits where a place more does. -/
theorem lt_wordBound_of_digit
    {radix : Radix}
    (hRadix : radix ≠ .decimal)
    {n d : Nat}
    (hn : n * radix.size < wordBound)
    (hd : d < radix.size) :
    n * radix.size + d < wordBound := by
  have hBound : wordBound = 18446744073709551616 := by
    decide
  rw [hBound] at hn ⊢
  cases radix with
  | decimal => exact absurd rfl hRadix
  | binary =>
      simp only [Radix.size] at hn hd ⊢
      omega
  | octal =>
      simp only [Radix.size] at hn hd ⊢
      omega
  | hex =>
      simp only [Radix.size] at hn hd ⊢
      omega

theorem lt_of_appendDigits?
    {radix : Radix}
    (hRadix : radix ≠ .decimal)
    {cs : List Char}
    {n x : Nat}
    (hn : n < wordBound)
    (hDigits : appendDigits? radix cs n = some x) :
    x < wordBound := by
  induction cs generalizing n with
  | nil =>
      cases hDigits
      exact hn
  | cons c cs ih =>
      rw [appendDigits?, Option.bind_eq_bind,
        Option.bind_eq_some_iff] at hDigits
      rcases hDigits with ⟨d, hDigit, hRest⟩
      split at hRest
      case isTrue hRoom =>
          exact ih (lt_wordBound_of_digit hRadix hRoom
            (lt_of_looseDigit? hDigit)) hRest
      case isFalse => cases hRest

theorem lt_of_writtenBy?
    {radix : Radix}
    {digits : List Char}
    {n : Nat}
    (hWritten : writtenBy? radix digits = some n) :
    n < wordBound := by
  have hZero : 0 < wordBound := by
    decide
  cases radix with
  | decimal =>
      rw [writtenBy?] at hWritten
      split at hWritten
      case isTrue =>
          cases hWritten
          exact hZero
      case isFalse => exact lt_of_readDecimal? hWritten
  | binary =>
      exact @lt_of_appendDigits? .binary nofun _ _ _ hZero hWritten
  | octal =>
      exact @lt_of_appendDigits? .octal nofun _ _ _ hZero hWritten
  | hex =>
      exact @lt_of_appendDigits? .hex nofun _ _ _ hZero hWritten

end Hdl

end Gatework

------------------------------------------------------------
-- Literals
------------------------------------------------------------

namespace Gatework.Hdl

namespace Literal

/- A literal whose value fits its width. -/
def Fits
    (l : Literal) :
    Prop :=
  l.toConst.Fits

theorem fits_unsized
    {n : Nat}
    (hn : n < wordBound)
    (base : Radix)
    (text : String) :
    (unsized n base text).Fits := by
  rw [wordBound_eq] at hn
  exact ⟨one_le_bitLength n, bitLength_le one_le_maxWidth hn,
    lt_two_pow_bitLength n⟩

theorem fits_sizedBy
    {size : List Char}
    {written : Nat}
    (hWritten : written < wordBound)
    {base : Radix}
    {text : String}
    {l : Literal}
    (hSized : sizedBy size written base text = .ok l) :
    l.Fits := by
  unfold sizedBy at hSized
  split at hSized
  case isTrue =>
      cases hSized
      exact fits_unsized hWritten base text
  case isFalse =>
      split at hSized
      case h_1 => cases hSized
      case h_2 width _ =>
          split at hSized
          case isTrue => cases hSized
          case isFalse hMax =>
              split at hSized
              case isTrue => cases hSized
              case isFalse hZero =>
                  cases hSized
                  have hWidth : width ≤ maxWidth :=
                    Nat.le_of_not_lt hMax
                  exact ⟨Nat.pos_of_ne_zero hZero, hWidth,
                    and_mask_lt hWidth written⟩

theorem fits_readBased
    {strict : Bool}
    {size rest : List Char}
    {text : String}
    {l : Literal}
    (hRead : readBased strict size rest text = .ok l) :
    l.Fits := by
  unfold readBased at hRead
  dsimp only at hRead
  split at hRead
  case h_1 => cases hRead
  case h_2 =>
      split at hRead
      case h_1 => cases hRead
      case h_2 =>
          split at hRead
          case isTrue => cases hRead
          case isFalse =>
              split at hRead
              case h_1 => cases hRead
              case h_2 written hWritten =>
                  rw [bind_eq_ok_iff] at hRead
                  rcases hRead with ⟨l', hSized, hSame⟩
                  have hFits := fits_sizedBy
                    (lt_of_writtenBy? hWritten) hSized
                  cases hSame
                  exact hFits

/- Every literal that can be read fits. -/
theorem fits_read
    {kind : LiteralKind}
    {strict : Bool}
    {text : String}
    {l : Literal}
    (hRead : read kind strict text = .ok l) :
    l.Fits := by
  unfold read at hRead
  dsimp only at hRead
  cases kind with
  | int =>
      dsimp only at hRead
      split at hRead
      case h_1 => cases hRead
      case h_2 n hDecimal =>
          cases hRead
          exact fits_unsized (lt_of_readDecimal? hDecimal) _ _
  | fill =>
      dsimp only at hRead
      split at hRead
      case isTrue => cases hRead
      case isFalse =>
          cases hRead
          apply fits_unsized
          exact Nat.lt_of_lt_of_le (toNat_lt_two _) (by decide)
  | based =>
      dsimp only at hRead
      split at hRead
      case h_1 => cases hRead
      case h_2 => exact fits_readBased hRead

theorem fits_resized?
    {c d : Const}
    {width : Nat}
    (hResized : c.resized? width = some d) :
    d.Fits ∧ d.width = width := by
  unfold Const.resized? at hResized
  split at hResized
  case h_1 d' hMake =>
      rcases Const.make_eq_ok_iff.mp hMake with ⟨hFits, rfl⟩
      cases hResized
      exact ⟨hFits, rfl⟩
  case h_2 => cases hResized

/- A literal brought to a width fits it. -/
theorem fits_fit?
    {l : Literal}
    (hl : l.Fits)
    {width : Nat}
    {c : Const}
    (hFit : l.fit? width = some c) :
    c.Fits ∧ c.width = width := by
  unfold fit? at hFit
  split at hFit
  case isTrue => cases hFit
  case isFalse hRange =>
      have hIn : inRange width = true := by
        simpa using hRange
      rcases inRange_iff.mp hIn with ⟨hPos, hMax⟩
      have hClamp := clampWidth_eq hPos hMax
      split at hFit
      case h_1 one _ =>
          cases hFit
          cases one with
          | true =>
              change (Const.ones width).Fits ∧
                clampWidth width = width
              unfold Const.ones Const.plain
              rw [hClamp]
              exact ⟨⟨hPos, hMax, (le_mask_iff hMax).mp
                (Nat.le_refl _)⟩, rfl⟩
          | false =>
              change (Const.zeros width).Fits ∧
                clampWidth width = width
              unfold Const.zeros Const.plain
              rw [hClamp]
              exact ⟨⟨hPos, hMax, Nat.two_pow_pos width⟩, rfl⟩
      case h_2 =>
          split at hFit
          case isTrue =>
              split at hFit
              case isTrue hSame =>
                  cases hFit
                  exact ⟨hl, hSame.symm⟩
              case isFalse => cases hFit
          case isFalse => exact fits_resized? hFit

end Literal

end Gatework.Hdl
