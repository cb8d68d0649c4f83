import Gatework.Proofs.Hdl.Literal

/-
  Printed numbers read back.

  The digits of a number read back as the number in each
  radix, with zeros in front of them or not. A constant that
  fits its width is printed as a literal with the same value,
  width, sign and radix.

  Key definitions include:
    * `Const.printedDigits` and `Const.printedLiteral`

  Key theorems include:
    * `Hdl.appendDigits?_digits` and `readDecimal?_toDigits`
    * `Const.toList_verilog`
    * `Hdl.Literal.read_verilog` and `Hdl.Literal.read_toString`
-/

------------------------------------------------------------
-- Digits
------------------------------------------------------------

namespace Gatework

namespace Radix

theorem one_lt_size
    (radix : Radix) :
    1 < radix.size := by
  cases radix <;> decide

theorem size_le
    (radix : Radix) :
    radix.size ≤ 16 := by
  cases radix <;> decide

/- Every digit that is written belongs to the radix. -/
theorem mem_digits
    {radix : Radix}
    {n : Nat}
    {c : Char}
    (hc : c ∈ radix.digits n) :
    ∃ d, d < radix.size ∧ c = d.digitChar := by
  have hBase := radix.one_lt_size
  induction n using Nat.strongRecOn with
  | ind n ih =>
      rw [digits, Nat.toDigits_eq_if hBase] at hc
      split at hc
      case isTrue hLt => exact ⟨n, hLt, List.mem_singleton.mp hc⟩
      case isFalse hGe =>
          rcases List.mem_append.mp hc with hFront | hLast
          · apply ih (n / radix.size) ?_ hFront
            exact Nat.div_lt_self (by omega) hBase
          · exact ⟨n % radix.size, Nat.mod_lt n (by omega),
              List.mem_singleton.mp hLast⟩

theorem digit?_digitChar
    {radix : Radix}
    {d : Nat}
    (hd : d < radix.size) :
    radix.digit? d.digitChar = some d := by
  have hAll : ∀ d < radix.size,
      radix.digit? d.digitChar = some d := by
    cases radix <;> decide
  exact hAll d hd

@[simp] theorem ofLetter?_letter
    (radix : Radix) :
    ofLetter? radix.letter = some radix := by
  cases radix <;> decide

end Radix

namespace Hdl

/- A character that counts in a literal and is a known one. -/
def isPlainChar
    (c : Char) :
    Bool :=
  c != '_' && !isBlank c && !isUnknownDigit c

theorem isUnknownDigit_of_isPlainChar
    {c : Char}
    (hc : isPlainChar c = true) :
    isUnknownDigit c = false := by
  simpa using (Bool.and_eq_true_iff.mp hc).2

theorem isPlainChar_digitChar
    {d : Nat}
    (hd : d < 16) :
    isPlainChar d.digitChar = true := by
  have hAll : ∀ d < 16, isPlainChar d.digitChar = true := by
    decide
  exact hAll d hd

theorem looseDigit?_digitChar
    {radix : Radix}
    {d : Nat}
    (hd : d < radix.size) :
    looseDigit? radix d.digitChar = some d := by
  have hPlain := isPlainChar_digitChar
    (Nat.lt_of_lt_of_le hd radix.size_le)
  rw [looseDigit?, isUnknownDigit_of_isPlainChar hPlain]
  exact Radix.digit?_digitChar hd

theorem appendDigits?_append
    (radix : Radix)
    (cs ds : List Char)
    (n : Nat) :
    appendDigits? radix (cs ++ ds) n =
      (appendDigits? radix cs n).bind (appendDigits? radix ds) := by
  induction cs generalizing n with
  | nil => rfl
  | cons c cs ih =>
      simp only [List.cons_append, appendDigits?,
        Option.bind_eq_bind, Option.bind_assoc]
      congr 1
      funext d
      split
      · exact ih _
      · rfl

theorem appendDigits?_digitChar
    {radix : Radix}
    {n d : Nat}
    (hRoom : n * radix.size < wordBound)
    (hd : d < radix.size) :
    appendDigits? radix [d.digitChar] n =
      some (n * radix.size + d) := by
  rw [appendDigits?, looseDigit?_digitChar hd]
  exact if_pos hRoom

/- A number of at most 64 bits reads back digit by digit. -/
theorem appendDigits?_digits
    (radix : Radix)
    {n : Nat}
    (hn : n < wordBound) :
    appendDigits? radix (radix.digits n) 0 = some n := by
  have hBase := radix.one_lt_size
  have hZero : 0 * radix.size < wordBound := by
    rw [Nat.zero_mul]
    decide
  induction n using Nat.strongRecOn with
  | ind n ih =>
      rw [Radix.digits, Nat.toDigits_eq_if hBase]
      split
      case isTrue hLt =>
          rw [appendDigits?_digitChar hZero hLt, Nat.zero_mul,
            Nat.zero_add]
      case isFalse hGe =>
          have hLess : n / radix.size < n :=
            Nat.div_lt_self (by omega) hBase
          have hFront := ih (n / radix.size) hLess
            (Nat.lt_trans hLess hn)
          have hRoom : n / radix.size * radix.size < wordBound :=
            Nat.lt_of_le_of_lt (Nat.div_mul_le_self n _) hn
          have hLast : n % radix.size < radix.size :=
            Nat.mod_lt n (by omega)
          rw [appendDigits?_append, ← Radix.digits, hFront,
            Option.bind_some, appendDigits?_digitChar hRoom hLast,
            Nat.div_add_mod']

/- Zeros in front of digits do not count. -/
theorem appendDigits?_zeros
    (radix : Radix)
    (k : Nat) :
    appendDigits? radix (List.replicate k '0') 0 = some 0 := by
  have hRoom : 0 * radix.size < wordBound := by
    rw [Nat.zero_mul]
    decide
  induction k with
  | zero => rfl
  | succ k ih =>
      rw [List.replicate_succ', appendDigits?_append, ih,
        Option.bind_some]
      have hDigit := appendDigits?_digitChar hRoom
        (Nat.lt_trans Nat.one_pos radix.one_lt_size)
      rwa [Nat.zero_mul] at hDigit

end Hdl

/- Decimal digits read back as the number they were made of. -/
theorem readDecimal?_toDigits
    {bound n : Nat}
    (hn : n < bound) :
    readDecimal? bound (Nat.toDigits 10 n) = some n := by
  have hDigits : ∀ c ∈ Nat.toDigits 10 n, c.isDigit = true :=
    fun c hc => Nat.isDigit_of_mem_toDigits (by decide) (by decide) hc
  have hValue : (Nat.toDigits 10 n).foldl
      (fun acc c => 10 * acc + (c.toNat - 48)) 0 = n :=
    Nat.ofDigitChars_ten_toDigits
  have hAll : (Nat.toDigits 10 n).all Char.isDigit = true :=
    List.all_eq_true.mpr hDigits
  have hEmpty : (Nat.toDigits 10 n).isEmpty = false := by
    simp
  rw [readDecimal?]
  · simp only [hAll, hEmpty, hValue, hn]
    rfl
  -- A plus sign is no digit, so none is taken off the front.
  · intro rest hPlus
    have hSign := hDigits '+' (hPlus ▸ List.mem_cons_self ..)
    cases hSign

end Gatework

------------------------------------------------------------
-- Literals
------------------------------------------------------------

namespace Gatework

namespace Const

/- The radix a constant is printed in. -/
def printedBase
    (c : Const) :
    Radix :=
  c.base.getD .binary

/- The digits a constant is printed with. -/
def printedDigits
    (c : Const) :
    List Char :=
  match c.printedBase with
  | .binary => padLeft '0' c.width (c.printedBase.digits c.value)
  | _ => c.printedBase.digits c.value

/- The sign letter a constant is printed with. -/
def printedSign
    (c : Const) :
    List Char :=
  if c.signed then ['s'] else []

/- The literal a constant is printed as. -/
def printedLiteral
    (c : Const) :
    Hdl.Literal :=
  ⟨c.value, c.value, c.width, true, c.signed, c.printedBase, none,
    c.verilog⟩

theorem toList_verilog
    {c : Const}
    (hRaw : c.raw = none) :
    c.verilog.toList =
      Nat.toDigits 10 c.width ++ '\x27' ::
        (c.printedSign ++ c.printedBase.letter :: c.printedDigits) := by
  have hText : c.verilog = toString c.width ++ "'" ++
      (if c.signed then "s" else "") ++
        String.ofList (c.printedBase.letter :: c.printedDigits) := by
    rw [verilog, hRaw]
    rfl
  have hSign : (if c.signed then "s" else "").toList =
      c.printedSign := by
    unfold printedSign
    split <;> rfl
  rw [hText]
  simp only [String.toList_append, String.toList_ofList, hSign]
  simp

theorem mem_printedDigits
    {c : Const}
    {ch : Char}
    (hMem : ch ∈ c.printedDigits) :
    ∃ d, d < c.printedBase.size ∧ ch = d.digitChar := by
  unfold printedDigits at hMem
  split at hMem
  case h_1 hBase =>
      rcases List.mem_append.mp hMem with hZero | hDigit
      · rw [List.eq_of_mem_replicate hZero]
        exact ⟨0, Nat.lt_trans Nat.one_pos
          c.printedBase.one_lt_size, rfl⟩
      · exact Radix.mem_digits hDigit
  case h_2 => exact Radix.mem_digits hMem

theorem printedDigits_ne_nil
    (c : Const) :
    c.printedDigits ≠ [] := by
  unfold printedDigits
  split
  · exact List.append_ne_nil_of_right_ne_nil _ Nat.toDigits_ne_nil
  · exact Nat.toDigits_ne_nil

/- The digits of a constant write its value. -/
theorem writtenBy?_printedDigits
    {c : Const}
    (hc : c.value < Hdl.wordBound) :
    Hdl.writtenBy? c.printedBase c.printedDigits =
      some c.value := by
  have hDigits := Hdl.appendDigits?_digits c.printedBase hc
  unfold printedDigits
  generalize c.printedBase = base at hDigits
  cases base with
  | binary =>
      change Hdl.appendDigits? .binary (padLeft _ _ _) 0 = _
      rw [padLeft, Hdl.appendDigits?_append,
        Hdl.appendDigits?_zeros, Option.bind_some, hDigits]
  | octal => exact hDigits
  | hex => exact hDigits
  | decimal =>
      -- A decimal digit is known, so not all of them are not.
      have hKnown : ((Radix.digits .decimal c.value).all
          Hdl.isUnknownDigit) = false := by
        rcases List.exists_mem_of_ne_nil _
          (@Nat.toDigits_ne_nil c.value 10)
          with ⟨ch, hMem⟩
        rcases @Radix.mem_digits .decimal _ _ hMem with
          ⟨d, hd, rfl⟩
        have hPlain := Hdl.isPlainChar_digitChar
          (Nat.lt_of_lt_of_le hd (Radix.size_le _))
        rw [List.all_eq_false]
        refine ⟨_, hMem, ?_⟩
        simp [Hdl.isUnknownDigit_of_isPlainChar hPlain]
      rw [Hdl.writtenBy?, hKnown]
      exact readDecimal?_toDigits hc

end Const

namespace Hdl

namespace Literal

/- A text of characters that count is read as it stands. -/
theorem significant_of_plain
    {text : String}
    (hPlain : ∀ c ∈ text.toList, isPlainChar c = true) :
    significant text = text.toList := by
  apply List.filter_eq_self.mpr
  intro c hc
  exact (Bool.and_eq_true_iff.mp (hPlain c hc)).1

theorem plain_toDigits
    {n : Nat}
    {c : Char}
    (hc : c ∈ Nat.toDigits 10 n) :
    isPlainChar c = true := by
  rcases @Radix.mem_digits .decimal _ _ hc with ⟨d, hd, rfl⟩
  exact isPlainChar_digitChar (Nat.lt_trans hd (by decide))

theorem splitTick?_append
    {size : List Char}
    (hSize : ∀ c ∈ size, c ≠ '\x27')
    (rest : List Char) :
    splitTick? (size ++ '\x27' :: rest) = some (size, rest) := by
  induction size with
  | nil => rfl
  | cons c size ih =>
      rw [List.forall_mem_cons] at hSize
      rw [List.cons_append, splitTick?, if_neg hSize.1, ih hSize.2]
      rfl

theorem splitSign_printed
    (c : Const) :
    splitSign (c.printedSign ++
        c.printedBase.letter :: c.printedDigits) =
      (c.signed, c.printedBase.letter :: c.printedDigits) := by
  unfold Const.printedSign
  cases c.signed with
  | true => rfl
  | false => cases c.printedBase <;> rfl

/- A decimal number is read back without a size. -/
theorem read_toString
    (strict : Bool)
    {n : Nat}
    (hn : n < wordBound) :
    read .int strict (toString n) =
      .ok (unsized n .decimal (toString n)) := by
  have hText : (toString n).toList = Nat.toDigits 10 n := by
    simp
  have hPlain : significant (toString n) = Nat.toDigits 10 n := by
    rw [significant_of_plain, hText]
    intro c hc
    exact plain_toDigits (hText ▸ hc)
  rw [read]
  simp only [hPlain, readDecimal?_toDigits hn]

/-
  A printed constant is read back with its value, width, sign
  and radix, whether unknown digits are refused or not.
-/
theorem read_verilog
    (strict : Bool)
    {c : Const}
    (hc : c.Fits)
    (hRaw : c.raw = none) :
    read .based strict c.verilog = .ok c.printedLiteral := by
  rcases hc with ⟨hPos, hMax, hLt⟩
  have hText := Const.toList_verilog hRaw
  have hDigit : ∀ ch ∈ c.printedDigits, isPlainChar ch = true := by
    intro ch hMem
    rcases Const.mem_printedDigits hMem with ⟨d, hd, rfl⟩
    exact isPlainChar_digitChar
      (Nat.lt_of_lt_of_le hd (Radix.size_le _))
  have hSign : ∀ ch ∈ c.printedSign, isPlainChar ch = true := by
    intro ch hMem
    unfold Const.printedSign at hMem
    split at hMem
    · rw [List.mem_singleton.mp hMem]
      decide
    · cases hMem
  have hLetter : isPlainChar c.printedBase.letter = true := by
    cases c.printedBase <;> decide
  have hPlain : significant c.verilog = c.verilog.toList := by
    apply significant_of_plain
    rw [hText]
    simp only [List.forall_mem_append, List.forall_mem_cons]
    exact ⟨fun _ hMem => plain_toDigits hMem, by decide, hSign,
      hLetter, hDigit⟩
  have hTick : ∀ ch ∈ Nat.toDigits 10 c.width, ch ≠ '\x27' := by
    rintro _ hMem rfl
    have hDecimal := Nat.isDigit_of_mem_toDigits
      (by decide) (by decide) hMem
    cases hDecimal
  have hKnown : (strict && c.printedDigits.any isUnknownDigit) =
      false := by
    rw [Bool.and_eq_false_iff, List.any_eq_false]
    refine Or.inr fun ch hMem => ?_
    simp [isUnknownDigit_of_isPlainChar (hDigit ch hMem)]
  have hWord : c.value < wordBound := by
    rw [wordBound_eq]
    exact Nat.lt_of_lt_of_le hLt
      (Nat.pow_le_pow_right (by decide) hMax)
  have hWidth : c.width < 1 <<< 32 :=
    Nat.lt_of_le_of_lt hMax (by decide)
  have hSized : sizedBy (Nat.toDigits 10 c.width) c.value
      c.printedBase c.verilog =
        .ok (withSize c.value c.width c.printedBase c.verilog) := by
    have hEmpty : (Nat.toDigits 10 c.width).isEmpty = false := by
      simp
    rw [sizedBy, hEmpty, readDecimal?_toDigits hWidth]
    simp only [Bool.false_eq_true, if_false,
      if_neg (Nat.not_lt.mpr hMax), if_neg (Nat.ne_of_gt hPos)]
  rw [read]
  simp only [hPlain, hText, splitTick?_append hTick]
  rw [readBased, splitSign_printed]
  simp only [Radix.ofLetter?_letter, hKnown,
    Const.writtenBy?_printedDigits hWord, hSized, withSize,
    and_mask_of_lt hMax hLt]
  rfl

end Literal

end Hdl

end Gatework
