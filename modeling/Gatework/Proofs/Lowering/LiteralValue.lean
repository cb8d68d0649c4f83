import Gatework.Proofs.Hdl.Digits
import Gatework.Proofs.Hdl.LiteralText
import Gatework.Proofs.Lowering.Meaning

/-
  Literals are read as what they are written with.

  A literal has the number that its digits write. It is
  refused if that number or its size is too large, or if its
  size is 0. A size cuts the number off; without one, a
  literal is as wide as its number. Reading strictly refuses
  unknown digits and changes nothing else. A decimal literal
  is read only if all its digits are known, or none is.

  Key definitions include:
    * `Hdl.Spelling.number` and `Hdl.Spelling.width?`
    * `Hdl.Spelling.IsUniform`
    * `Hdl.Spelling.ReadAs`

  Key theorems include:
    * `Hdl.LiteralText.read_eq` and `Hdl.LiteralText.read_mixed`
    * `Hdl.Literal.read_exact`
-/

------------------------------------------------------------
-- Parts of a literal
------------------------------------------------------------

namespace Gatework

/- The number that digits with separators write. -/
def Radix.number
    (radix : Radix)
    (cs : List Char) :
    Nat :=
  radix.written (cs.filter (· != '_'))

namespace Hdl.Spelling

/- The number of the digits; unknown ones stand for 0. -/
def number
    (s : Spelling) :
    Nat :=
  s.base.number s.digits

/- The number of bits that is written in front. -/
def width?
    (s : Spelling) :
    Option Nat :=
  if s.size = [] then none else some (Radix.decimal.number s.size)

/- In decimal, all digits are known or none is. -/
def IsUniform
    (s : Spelling) :
    Prop :=
  s.base = .decimal →
    (∀ c ∈ s.digits, c = '_' ∨ isUnknownDigit c = true) ∨
      ∀ c ∈ s.digits, isUnknownDigit c = false

/-
  A result of reading a literal that is exact: it fails for
  the reasons there are, and otherwise has the width and the
  value that are written.
-/
structure ReadAs
    (s : Spelling)
    (result : Except LiteralFlaw Literal) :
    Prop where
  fails_iff :
    (∃ flaw, result = .error flaw) ↔
      2 ^ 64 ≤ s.number ∨ ∃ w, s.width? = some w ∧ (w = 0 ∨ 64 < w)
  flaw : ∀ flaw, result = .error flaw →
    flaw = .tooWide ∨ flaw = .zeroWidth ∧ s.width? = some 0
  sized : ∀ l w, result = .ok l → s.width? = some w →
    l.width = w ∧ l.value = s.number % 2 ^ w
  unsized : ∀ l, result = .ok l → s.width? = none →
    l.width = bitLength s.number ∧ l.value = s.number
  fits : ∀ l, result = .ok l →
    1 ≤ l.width ∧ l.width ≤ 64 ∧ l.value < 2 ^ l.width
  marks : ∀ l, result = .ok l →
    l.sized = s.width?.isSome ∧ l.signed = s.signed ∧
      l.base = s.base

end Hdl.Spelling

end Gatework

------------------------------------------------------------
-- Characters that count
------------------------------------------------------------

namespace Gatework.Hdl

variable {c : Char}
variable {radix : Radix}

theorem lt_of_goesOn
    (hc : goesOn c = true) :
    c.toNat < 128 := by
  have hGoesOn : goesOn c = (c.isUpper || c.isLower || c.isDigit ||
      c == '_' || c == '$' || c == '\x27' || c == '?') := rfl
  simp only [hGoesOn, Bool.or_eq_true, beq_iff_eq] at hc
  rcases hc with (((((hUpper | hLower) | hDigit) | rfl) | rfl) | rfl) |
    rfl
  case inr => decide
  case inl.inr => decide
  case inl.inl.inr => decide
  case inl.inl.inl.inr => decide
  case inl.inl.inl.inl.inl.inl =>
      have hLetter := of_decide_eq_true hUpper
      exact Nat.lt_of_le_of_lt hLetter.2 (by decide)
  case inl.inl.inl.inl.inl.inr =>
      have hLetter := of_decide_eq_true
        (Bool.and_eq_true_iff.mp hLower).2
      exact Nat.lt_of_le_of_lt hLetter (by decide)
  case inl.inl.inl.inl.inr =>
      simp only [Char.isDigit, Bool.and_eq_true, decide_eq_true_eq]
        at hDigit
      exact Nat.lt_of_le_of_lt hDigit.2 (by decide)

/- A character among digits is no blank, and reads as a digit. -/
theorem of_isRadixChar
    (hc : isRadixChar radix c = true) :
    isBlank c = false ∧
      (c ≠ '_' → (looseDigit? radix c).isSome = true) := by
  have hLt := lt_of_goesOn (goesOn_of_isRadixChar hc)
  revert hc
  apply forall_char_lt _ hLt
  cases radix <;> decide +kernel

theorem isDigit_of_isRadixChar
    (hc : isRadixChar .decimal c = true)
    (hSep : c ≠ '_')
    (hKnown : isUnknownDigit c = false) :
    c.isDigit = true := by
  have hLt := lt_of_goesOn (goesOn_of_isRadixChar hc)
  revert hc hSep hKnown
  apply forall_char_lt _ hLt
  decide +kernel

/- A character of a size is a known digit, or a separator. -/
theorem of_isDecimalChar
    (hc : isDecimalChar c = true) :
    isBlank c = false ∧ isUnknownDigit c = false ∧ c ≠ '\x27' ∧
      (c ≠ '_' → c.isDigit = true) := by
  rcases Bool.or_eq_true_iff.mp hc with hDigit | hSep
  · rcases exists_digitChar hDigit with ⟨d, hd, rfl⟩
    revert d
    decide
  · rw [beq_iff_eq.mp hSep]
    decide

/- A letter of a radix counts, and is no sign and no digit. -/
theorem of_letter
    (hLetter : Radix.ofLetter? c = some radix) :
    (c != '_' && !isBlank c) = true ∧ isUnknownDigit c = false ∧
      c ≠ 's' ∧ c ≠ 'S' := by
  have hLt := lt_of_letter hLetter
  have hSome := Option.isSome_of_eq_some hLetter
  revert hSome
  apply forall_char_lt _ hLt
  decide +kernel

theorem of_isAsciiBlank
    (hc : isAsciiBlank c = true) :
    isBlank c = true ∧ isUnknownDigit c = false := by
  simp only [isAsciiBlank, Bool.or_eq_true, beq_iff_eq] at hc
  rcases hc with (((rfl | rfl) | rfl) | rfl) | rfl <;> decide

theorem IsNumber.decimalChar
    {cs : List Char}
    (hNumber : IsNumber cs) :
    ∀ c ∈ cs, isDecimalChar c = true := by
  rcases hNumber with ⟨d, ds, rfl, hDigit, hMore⟩
  rw [List.forall_mem_cons]
  exact ⟨Bool.or_eq_true_iff.mpr (.inl hDigit), hMore⟩

/- The first digit of a number is no separator. -/
theorem IsNumber.filter_ne_nil
    {cs : List Char}
    (hNumber : IsNumber cs) :
    cs.filter (· != '_') ≠ [] := by
  rcases hNumber with ⟨d, ds, rfl, hDigit, _⟩
  have hSep : d ≠ '_' := by
    rintro rfl
    cases hDigit
  exact List.ne_nil_of_mem
    (List.mem_filter.mpr ⟨List.mem_cons_self, bne_iff_ne.mpr hSep⟩)

/- All that does not count in a number is its separators. -/
theorem filter_of_not_blank
    {cs : List Char}
    (hBlank : ∀ c ∈ cs, isBlank c = false) :
    cs.filter (fun c => c != '_' && !isBlank c) =
      cs.filter (· != '_') := by
  apply List.filter_congr
  intro c hc
  rw [hBlank c hc]
  exact Bool.and_true _

theorem IsNumber.filter_eq
    {cs : List Char}
    (hNumber : IsNumber cs) :
    cs.filter (fun c => c != '_' && !isBlank c) =
      cs.filter (· != '_') :=
  filter_of_not_blank fun c hc =>
    (of_isDecimalChar (hNumber.decimalChar c hc)).1

theorem IsNumber.all_isDigit
    {cs : List Char}
    (hNumber : IsNumber cs) :
    (cs.filter (· != '_')).all Char.isDigit = true := by
  rw [List.all_eq_true]
  intro c hc
  rcases List.mem_filter.mp hc with ⟨hMem, hSep⟩
  exact (of_isDecimalChar (hNumber.decimalChar c hMem)).2.2.2
    (bne_iff_ne.mp hSep)

theorem IsNumber.any_isUnknownDigit
    {cs : List Char}
    (hNumber : IsNumber cs) :
    cs.any isUnknownDigit = false := by
  rw [List.any_eq_false]
  intro c hc
  rw [(of_isDecimalChar (hNumber.decimalChar c hc)).2.1]
  exact Bool.false_ne_true

end Gatework.Hdl

------------------------------------------------------------
-- Digits
------------------------------------------------------------

namespace Gatework.Hdl

variable {radix : Radix}
variable {cs : List Char}

/- Decimal digits read as their number if it is small enough. -/
theorem readDecimal?_eq
    {bound : Nat}
    (hSome : cs ≠ [])
    (hAll : cs.all Char.isDigit = true) :
    readDecimal? bound cs =
      if Radix.decimal.written cs < bound then
        some (Radix.decimal.written cs)
      else
        none := by
  have hEmpty : cs.isEmpty = false :=
    List.isEmpty_eq_false_iff.mpr hSome
  rw [readDecimal?]
  · simp only [hAll, hEmpty, foldl_decimal hAll]
    rfl
  -- A plus sign is no digit, so none is taken off the front.
  · rintro rest rfl
    cases hAll

theorem readDecimal?_of_not_digits
    {bound : Nat}
    (hFirst : cs.head? ≠ some '+')
    (hAll : cs.all Char.isDigit = false) :
    readDecimal? bound cs = none := by
  rw [readDecimal?]
  · rw [hAll, Bool.not_false, Bool.or_true, if_pos rfl]
  · rintro rest rfl
    exact hFirst rfl

/- More digits do not make a number smaller. -/
theorem le_foldl_digits
    (radix : Radix)
    (cs : List Char)
    (n : Nat) :
    n ≤ cs.foldl
      (fun n c => n * radix.size + (radix.digit? c).getD 0) n := by
  induction cs generalizing n with
  | nil => exact Nat.le_refl n
  | cons c cs ih =>
      have hSize := Nat.lt_of_succ_lt radix.one_lt_size
      calc
        n ≤ n * radix.size := Nat.le_mul_of_pos_right n hSize
        _ ≤ n * radix.size + (radix.digit? c).getD 0 :=
          Nat.le_add_right _ _
        _ ≤ _ := ih _

/- Digits can be appended if the number they end in is a word. -/
theorem appendDigits?_of_lt
    (hAll : ∀ c ∈ cs, (looseDigit? radix c).isSome = true)
    {n : Nat}
    (hTotal : cs.foldl
      (fun n c => n * radix.size + (radix.digit? c).getD 0) n
        < wordBound) :
    ∃ x, appendDigits? radix cs n = some x := by
  induction cs generalizing n with
  | nil => exact ⟨n, rfl⟩
  | cons c cs ih =>
      rw [List.forall_mem_cons] at hAll
      rcases Option.isSome_iff_exists.mp hAll.1 with ⟨d, hDigit⟩
      rw [List.foldl_cons, looseDigit?_eq_some hDigit] at hTotal
      have hRoom : n * radix.size < wordBound :=
        Nat.lt_of_le_of_lt
          (Nat.le_trans (Nat.le_add_right _ d)
            (le_foldl_digits radix cs _)) hTotal
      rcases ih hAll.2 hTotal with ⟨x, hRest⟩
      refine ⟨x, ?_⟩
      rw [appendDigits?, hDigit]
      exact (if_pos hRoom).trans hRest

/- Digits write their number if a word can hold it. -/
theorem appendDigits?_eq
    (hRadix : radix ≠ .decimal)
    (hAll : ∀ c ∈ cs, (looseDigit? radix c).isSome = true) :
    appendDigits? radix cs 0 =
      if radix.written cs < wordBound then
        some (radix.written cs)
      else
        none := by
  split
  case isTrue hLt =>
      rcases appendDigits?_of_lt hAll hLt with ⟨x, hx⟩
      rw [hx, ← appendDigits?_eq_some hx]
      rfl
  case isFalse hGe =>
      rw [Option.eq_none_iff_forall_ne_some]
      intro x hx
      apply hGe
      have hLt := lt_of_appendDigits? hRadix (by decide) hx
      rwa [← appendDigits?_eq_some hx] at hLt

section

variable {s : Spelling}
variable {blanks : List Char}
variable (hDigits : AreDigits s.base blanks s.digits)

include hDigits

/-
  Digits without their separators write their number if a
  word can hold it.
-/
theorem writtenBy?_eq
    (hUniform : s.IsUniform) :
    writtenBy? s.base (s.digits.filter (· != '_')) =
      if s.number < wordBound then some s.number else none := by
  have hLoose : ∀ c ∈ s.digits.filter (· != '_'),
      (looseDigit? s.base c).isSome = true := by
    intro c hc
    rcases List.mem_filter.mp hc with ⟨hMem, hSep⟩
    exact (of_isRadixChar (hDigits.digit c hMem)).2
      (bne_iff_ne.mp hSep)
  have hNumber : s.number =
      s.base.written (s.digits.filter (· != '_')) := rfl
  rw [hNumber]
  cases hBase : s.base with
  | binary =>
      rw [hBase] at hLoose
      exact appendDigits?_eq nofun hLoose
  | octal =>
      rw [hBase] at hLoose
      exact appendDigits?_eq nofun hLoose
  | hex =>
      rw [hBase] at hLoose
      exact appendDigits?_eq nofun hLoose
  | decimal =>
      rw [writtenBy?]
      split
      case isTrue hUnknown =>
          rw [written_of_unknown hUnknown]
          rfl
      case isFalse hSome =>
          have hNotNil : s.digits.filter (· != '_') ≠ [] := by
            intro hNil
            rw [hNil] at hSome
            exact hSome rfl
          apply readDecimal?_eq hNotNil
          rw [List.all_eq_true]
          intro c hc
          rcases List.mem_filter.mp hc with ⟨hMem, hSep⟩
          have hChar := hDigits.digit c hMem
          rw [hBase] at hChar
          rcases hUniform hBase with hAll | hKnown
          case inl =>
              refine absurd (List.all_eq_true.mpr ?_) hSome
              intro c hc
              rcases List.mem_filter.mp hc with ⟨hMem, hSep⟩
              exact (hAll c hMem).resolve_left (bne_iff_ne.mp hSep)
          case inr =>
              exact isDigit_of_isRadixChar hChar (bne_iff_ne.mp hSep)
                (hKnown c hMem)

/- Known and unknown digits together do not write a number. -/
theorem writtenBy?_of_mixed
    (hMixed : ¬ s.IsUniform) :
    writtenBy? s.base (s.digits.filter (· != '_')) = none := by
  simp only [Spelling.IsUniform, Classical.not_imp, not_or,
    not_forall, Bool.not_eq_false, Bool.not_eq_true] at hMixed
  rcases hMixed with
    ⟨hBase, ⟨c, hc, hSep, hKnown⟩, d, hd, hUnknown⟩
  have hMem : ∀ {c}, c ∈ s.digits → c ≠ '_' →
      c ∈ s.digits.filter (· != '_') :=
    fun hMem hSep => List.mem_filter.mpr ⟨hMem, bne_iff_ne.mpr hSep⟩
  have hNotAll : (s.digits.filter (· != '_')).all isUnknownDigit =
      false := by
    rw [List.all_eq_false]
    exact ⟨c, hMem hc hSep, ne_true_of_eq_false hKnown⟩
  have hNotDigits : (s.digits.filter (· != '_')).all Char.isDigit =
      false := by
    rw [List.all_eq_false]
    refine ⟨d, hMem hd ?_, ?_⟩
    · rintro rfl
      cases hUnknown
    · intro hDigit
      have hNone := digit?_decimal hDigit
      rw [digit?_of_isUnknownDigit hUnknown] at hNone
      cases hNone
  rw [hBase, writtenBy?, hNotAll]
  apply readDecimal?_of_not_digits _ hNotDigits
  intro hFirst
  have hPlus := hDigits.digit '+'
    (List.mem_filter.mp (List.mem_of_head? hFirst)).1
  rw [hBase] at hPlus
  cases hPlus

end

end Gatework.Hdl

------------------------------------------------------------
-- Reading
------------------------------------------------------------

namespace Gatework.Hdl

variable {s : Spelling}
variable {text : String}

/-
  The result of reading without being strict, for the bit a
  literal fills with, if it does.
-/
def Spelling.outcome
    (s : Spelling)
    (fill : Option Bool)
    (text : String) :
    Except LiteralFlaw Literal :=
  if s.number < wordBound then
    match s.width? with
    | none =>
        .ok { Literal.unsized s.number s.base text with
          signed := s.signed, fill }
    | some w =>
        if maxWidth < w then .error .tooWide
        else if w = 0 then .error .zeroWidth
        else .ok { Literal.withSize s.number w s.base text with
          signed := s.signed }
  else
    .error .tooWide

/- The size that is written is the width, if it is allowed. -/
theorem sizedBy_eq
    (hSize : s.size = [] ∨ IsNumber s.size)
    (n : Nat)
    (base : Radix)
    (text : String) :
    Literal.sizedBy (s.size.filter (· != '_')) n base text =
      match s.width? with
      | none => .ok (Literal.unsized n base text)
      | some w =>
          if maxWidth < w then .error .tooWide
          else if w = 0 then .error .zeroWidth
          else .ok (Literal.withSize n w base text) := by
  rcases hSize with hNone | hNumber
  · rw [Spelling.width?, hNone]
    rfl
  · have hSome : s.size ≠ [] := by
      intro hNone
      apply hNumber.filter_ne_nil
      rw [hNone]
      rfl
    have hEmpty : (s.size.filter (· != '_')).isEmpty = false :=
      List.isEmpty_eq_false_iff.mpr hNumber.filter_ne_nil
    have hWidth : Radix.decimal.written (s.size.filter (· != '_')) =
        Radix.decimal.number s.size := rfl
    rw [Spelling.width?, if_neg hSome, Literal.sizedBy, hEmpty,
      readDecimal?_eq hNumber.filter_ne_nil hNumber.all_isDigit,
      hWidth]
    -- What a size word cannot hold is too wide anyway.
    by_cases hFits : Radix.decimal.number s.size < 1 <<< 32
    · rw [if_pos hFits]
      rfl
    · have hMax : maxWidth < Radix.decimal.number s.size :=
        Nat.lt_of_lt_of_le (by decide) (Nat.le_of_not_lt hFits)
      rw [if_neg hFits]
      exact (if_pos hMax).symm

section

variable {size sign blanks digits : List Char}
variable {letter : Char}
variable {radix : Radix}
variable (hSize : size = [] ∨ IsNumber size)
variable (hSign : IsSign sign)
variable (hLetter : Radix.ofLetter? letter = some radix)
variable (hDigits : AreDigits radix blanks digits)

include hSize hSign hLetter hDigits

/- Blanks and separators do not count. -/
theorem significant_based
    (hText : text.toList =
      size ++ '\x27' :: (sign ++ letter :: (blanks ++ digits))) :
    Literal.significant text =
      size.filter (· != '_') ++ '\x27' ::
        (sign ++ letter :: digits.filter (· != '_')) := by
  have hSizeEq : size.filter (fun c => c != '_' && !isBlank c) =
      size.filter (· != '_') := by
    rcases hSize with rfl | hNumber
    · rfl
    · exact hNumber.filter_eq
  have hSignEq : sign.filter (fun c => c != '_' && !isBlank c) =
      sign := by
    rcases hSign with rfl | ⟨c, rfl, hs⟩
    · rfl
    · rcases sign_cases hs with rfl | rfl <;> rfl
  have hLetterEq := (of_letter hLetter).1
  have hBlanksEq :
      blanks.filter (fun c => c != '_' && !isBlank c) = [] := by
    rw [List.filter_eq_nil_iff]
    intro c hc
    rw [(of_isAsciiBlank (hDigits.blank c hc)).1]
    simp
  have hDigitsEq :
      digits.filter (fun c => c != '_' && !isBlank c) =
        digits.filter (· != '_') :=
    filter_of_not_blank fun c hc =>
      (of_isRadixChar (hDigits.digit c hc)).1
  have hTick : ('\x27' != '_' && !isBlank '\x27') = true := by
    decide
  simp only [Literal.significant, hText, List.filter_append,
    List.filter_cons, hTick, hLetterEq, if_true, hSizeEq, hSignEq,
    hBlanksEq, hDigitsEq, List.nil_append]

/- Only the digits of a radix can be unknown. -/
theorem any_isUnknownDigit_based
    (hText : text.toList =
      size ++ '\x27' :: (sign ++ letter :: (blanks ++ digits))) :
    text.toList.any isUnknownDigit =
      (digits.filter (· != '_')).any isUnknownDigit := by
  have hSizeKnown : size.any isUnknownDigit = false := by
    rcases hSize with rfl | hNumber
    · rfl
    · exact hNumber.any_isUnknownDigit
  have hSignKnown : sign.any isUnknownDigit = false := by
    rcases hSign with rfl | ⟨c, rfl, hs⟩
    · rfl
    · rcases sign_cases hs with rfl | rfl <;> rfl
  have hLetterKnown := (of_letter hLetter).2.1
  have hBlanksKnown : blanks.any isUnknownDigit = false := by
    rw [List.any_eq_false]
    intro c hc
    rw [(of_isAsciiBlank (hDigits.blank c hc)).2]
    exact Bool.false_ne_true
  have hSeparator : ∀ c,
      ((c != '_') && isUnknownDigit c) = isUnknownDigit c := by
    intro c
    by_cases hSep : c = '_'
    · subst hSep
      rfl
    · rw [bne_iff_ne.mpr hSep, Bool.true_and]
  have hTickKnown : isUnknownDigit '\x27' = false := by
    decide
  simp only [hText, List.any_append, List.any_cons, hSizeKnown,
    hTickKnown, hSignKnown, hLetterKnown, hBlanksKnown,
    List.any_filter, hSeparator, Bool.false_or]

/- A based literal is read by its digits and then its size. -/
theorem read_based
    (hText : text.toList =
      size ++ '\x27' :: (sign ++ letter :: (blanks ++ digits)))
    (strict : Bool) :
    Literal.read .based strict text =
      if strict && text.toList.any isUnknownDigit then
        .error .unknownBits
      else
        match writtenBy? radix (digits.filter (· != '_')) with
        | none => .error .tooWide
        | some n => do
            let l ← Literal.sizedBy (size.filter (· != '_')) n radix
              text
            return { l with signed := !sign.isEmpty } := by
  have hTick : ∀ c ∈ size.filter (· != '_'), c ≠ '\x27' := by
    intro c hc
    rcases hSize with rfl | hNumber
    · cases hc
    · exact (of_isDecimalChar (hNumber.decimalChar c
        (List.mem_filter.mp hc).1)).2.2.1
  have hMarked : Literal.splitSign
      (sign ++ letter :: digits.filter (· != '_')) =
        (!sign.isEmpty, letter :: digits.filter (· != '_')) := by
    rcases hSign with rfl | ⟨c, rfl, hs⟩
    · rcases of_letter hLetter with ⟨_, _, hLower, hUpper⟩
      rw [List.nil_append, Literal.splitSign]
      · rfl
      · rintro rest hCons
        exact hLower (List.cons.inj hCons).1
      · rintro rest hCons
        exact hUpper (List.cons.inj hCons).1
    · rcases sign_cases hs with rfl | rfl <;> rfl
  rw [any_isUnknownDigit_based hSize hSign hLetter hDigits hText,
    Literal.read]
  simp only [significant_based hSize hSign hLetter hDigits hText,
    Literal.splitTick?_append hTick]
  unfold Literal.readBased
  rw [hMarked]
  dsimp only
  generalize Radix.ofLetter? letter = found at hLetter
  subst hLetter
  rfl

end

namespace LiteralText

/- A bare number has no digits that are not known. -/
theorem read_int
    {cs : List Char}
    (hNumber : IsNumber cs)
    (hText : text.toList = cs)
    (strict : Bool) :
    Literal.read .int strict text =
      Spelling.outcome ⟨[], false, .decimal, cs⟩ none text := by
  have hSignificant : Literal.significant text =
      cs.filter (· != '_') := by
    rw [Literal.significant, hText, hNumber.filter_eq]
  have hWritten : Radix.decimal.written (cs.filter (· != '_')) =
      (⟨[], false, .decimal, cs⟩ : Spelling).number := rfl
  rw [Literal.read]
  simp only [hSignificant,
    readDecimal?_eq hNumber.filter_ne_nil hNumber.all_isDigit,
    hWritten]
  rw [Spelling.outcome]
  by_cases hLt :
      (⟨[], false, .decimal, cs⟩ : Spelling).number < wordBound
  · rw [if_pos hLt, if_pos hLt]
    rfl
  · rw [if_neg hLt, if_neg hLt]

theorem read_fill
    {c : Char}
    (hFill : isFillChar c = true)
    (hText : text.toList = ['\x27', c])
    (strict : Bool) :
    Literal.read .fill strict text =
      if strict && text.toList.any isUnknownDigit then
        .error .unknownBits
      else
        Spelling.outcome ⟨[], false, .binary, [c]⟩ (some (c == '1'))
          text := by
  have hLt : c.toNat < 128 := by
    apply lt_of_toLower
    simp only [isFillChar, Bool.or_eq_true, beq_iff_eq] at hFill
    rcases hFill with ((hLow | hLow) | hLow) | hLow <;>
      rw [hLow] <;> decide
  have hChar : (c != '_' && !isBlank c) = true ∧
      (⟨[], false, .binary, [c]⟩ : Spelling).number =
        (c == '1').toNat := by
    revert hFill
    apply forall_char_lt _ hLt
    decide
  have hTick : ('\x27' != '_' && !isBlank '\x27') = true ∧
      isUnknownDigit '\x27' = false := by
    decide
  have hSmall : (c == '1').toNat < wordBound :=
    Nat.lt_of_lt_of_le (toNat_lt_two _) (by decide)
  have hSignificant : Literal.significant text = ['\x27', c] := by
    simp only [Literal.significant, hText, List.filter_cons, hTick.1,
      hChar.1, if_true, List.filter_nil]
  have hUnknown : text.toList.any isUnknownDigit =
      isUnknownDigit c := by
    simp only [hText, List.any_cons, hTick.2, List.any_nil,
      Bool.or_false, Bool.false_or]
  rw [hUnknown, Literal.read, Spelling.outcome, hChar.2,
    if_pos hSmall]
  simp only [hSignificant]
  rfl

/- A literal of which the digits agree is read as it is written. -/
theorem read_eq
    {kind : LiteralKind}
    (hText : LiteralText kind text.toList s)
    (hUniform : s.IsUniform) :
    ∃ fill, Literal.read kind false text = s.outcome fill text := by
  generalize hAll : text.toList = cs at hText
  cases hText with
  | int hNumber => exact ⟨none, read_int hNumber hAll false⟩
  | fill hFill => exact ⟨_, read_fill hFill hAll false⟩
  | based hSize hSign hLetter hDigits =>
      rename_i size sign letter radix blanks digits
      have hWritten := @writtenBy?_eq
        ⟨size, !sign.isEmpty, radix, digits⟩ _ hDigits hUniform
      have hSized := @sizedBy_eq
        ⟨size, !sign.isEmpty, radix, digits⟩ hSize
      refine ⟨none, ?_⟩
      rw [read_based hSize hSign hLetter hDigits hAll false,
        Spelling.outcome]
      simp only [Bool.false_and, Bool.false_eq_true, if_false,
        hWritten, hSized]
      by_cases hLt : (⟨size, !sign.isEmpty, radix, digits⟩ :
          Spelling).number < wordBound
      · rw [if_pos hLt, if_pos hLt]
        cases (⟨size, !sign.isEmpty, radix, digits⟩ :
            Spelling).width? with
        | none => rfl
        | some w =>
            dsimp only
            split
            · rfl
            · split
              · rfl
              · rfl
      · rw [if_neg hLt, if_neg hLt]

/- Known and unknown digits are refused in one decimal literal. -/
theorem read_mixed
    {kind : LiteralKind}
    (hText : LiteralText kind text.toList s)
    (hMixed : ¬ s.IsUniform) :
    Literal.read kind false text = .error .tooWide := by
  generalize hAll : text.toList = cs at hText
  cases hText with
  | int hNumber =>
      refine absurd (fun _ => .inr fun c hc => ?_) hMixed
      exact (of_isDecimalChar (hNumber.decimalChar c hc)).2.1
  | fill hFill => exact absurd nofun hMixed
  | based hSize hSign hLetter hDigits =>
      rename_i size sign letter radix blanks digits
      have hWritten := @writtenBy?_of_mixed
        ⟨size, !sign.isEmpty, radix, digits⟩ _ hDigits hMixed
      rw [read_based hSize hSign hLetter hDigits hAll false]
      simp only [Bool.false_and, Bool.false_eq_true, if_false,
        hWritten]

/- Reading strictly refuses unknown digits and nothing else. -/
theorem read_strict
    {kind : LiteralKind}
    (hText : LiteralText kind text.toList s) :
    Literal.read kind true text =
      if text.toList.any isUnknownDigit then
        .error .unknownBits
      else
        Literal.read kind false text := by
  generalize hAll : text.toList = cs at hText
  cases hText with
  | int hNumber =>
      rw [hNumber.any_isUnknownDigit, read_int hNumber hAll,
        read_int hNumber hAll]
      rfl
  | fill hFill =>
      rw [read_fill hFill hAll, read_fill hFill hAll, hAll]
      rfl
  | based hSize hSign hLetter hDigits =>
      rw [read_based hSize hSign hLetter hDigits hAll,
        read_based hSize hSign hLetter hDigits hAll, hAll]
      rfl

end LiteralText

end Gatework.Hdl

------------------------------------------------------------
-- Exactness
------------------------------------------------------------

namespace Gatework.Hdl

namespace Spelling

variable {s : Spelling}

theorem readAs_error
    {flaw : LiteralFlaw}
    (hReason : 2 ^ 64 ≤ s.number ∨
      ∃ w, s.width? = some w ∧ (w = 0 ∨ 64 < w))
    (hFlaw : flaw = .tooWide ∨
      flaw = .zeroWidth ∧ s.width? = some 0) :
    s.ReadAs (.error flaw) where
  fails_iff := iff_of_true ⟨flaw, rfl⟩ hReason
  flaw := by
    rintro _ ⟨⟩
    exact hFlaw
  sized := nofun
  unsized := nofun
  fits := nofun
  marks := nofun

theorem readAs_unsized
    (hLt : s.number < wordBound)
    (hWidth : s.width? = none)
    (fill : Option Bool)
    (text : String) :
    s.ReadAs (.ok { Literal.unsized s.number s.base text with
      signed := s.signed, fill }) where
  fails_iff := by
    rw [wordBound_eq] at hLt
    refine iff_of_false nofun ?_
    rintro (hGe | ⟨w, hw, _⟩)
    · exact Nat.not_lt.mpr hGe hLt
    · rw [hWidth] at hw
      cases hw
  flaw := nofun
  sized := by
    intro l w hl hw
    rw [hWidth] at hw
    cases hw
  unsized := by
    rintro _ ⟨⟩ _
    exact ⟨rfl, rfl⟩
  fits := by
    rintro _ ⟨⟩
    exact Literal.fits_unsized hLt s.base text
  marks := by
    rintro _ ⟨⟩
    rw [hWidth]
    exact ⟨rfl, rfl, rfl⟩

theorem readAs_withSize
    (hLt : s.number < wordBound)
    {w : Nat}
    (hWidth : s.width? = some w)
    (hPos : w ≠ 0)
    (hMax : w ≤ maxWidth)
    (text : String) :
    s.ReadAs (.ok { Literal.withSize s.number w s.base text with
      signed := s.signed }) where
  fails_iff := by
    rw [wordBound_eq] at hLt
    refine iff_of_false nofun ?_
    rintro (hGe | ⟨w', hw, hBad⟩)
    · exact Nat.not_lt.mpr hGe hLt
    · rw [hWidth] at hw
      cases hw
      exact hBad.elim hPos (Nat.not_lt.mpr hMax)
  flaw := nofun
  sized := by
    rintro _ w' ⟨⟩ hw
    rw [hWidth] at hw
    cases hw
    exact ⟨rfl, and_mask hMax s.number⟩
  unsized := by
    intro l hl hw
    rw [hWidth] at hw
    cases hw
  fits := by
    rintro _ ⟨⟩
    exact ⟨Nat.pos_of_ne_zero hPos, hMax, and_mask_lt hMax s.number⟩
  marks := by
    rintro _ ⟨⟩
    rw [hWidth]
    exact ⟨rfl, rfl, rfl⟩

/- The outcome is exact in each case. -/
theorem readAs_outcome
    (s : Spelling)
    (fill : Option Bool)
    (text : String) :
    s.ReadAs (s.outcome fill text) := by
  unfold outcome
  split
  case isFalse hGe =>
      rw [wordBound_eq] at hGe
      exact readAs_error (.inl (Nat.le_of_not_lt hGe)) (.inl rfl)
  case isTrue hLt =>
      split
      case h_1 hWidth => exact readAs_unsized hLt hWidth fill text
      case h_2 w hWidth =>
          split
          case isTrue hMax =>
              exact readAs_error (.inr ⟨w, hWidth, .inr hMax⟩)
                (.inl rfl)
          case isFalse hMax =>
              split
              case isTrue hZero =>
                  rw [hZero] at hWidth
                  exact readAs_error (.inr ⟨0, hWidth, .inl rfl⟩)
                    (.inr ⟨rfl, hWidth⟩)
              case isFalse hPos =>
                  exact readAs_withSize hLt hWidth hPos
                    (Nat.le_of_not_lt hMax) text

end Spelling

/-
  Each literal is read as what it is written with, where a
  decimal one has known digits only, or unknown ones only.
  Reading strictly refuses the literals with unknown digits
  and treats all others alike.
-/
theorem Literal.read_exact
    {kind : LiteralKind}
    {text : String}
    (hLiteral : IsLiteral kind text) :
    (∃ s, LiteralText kind text.toList s) ∧
    ∀ s, LiteralText kind text.toList s →
      (s.IsUniform → s.ReadAs (read kind false text)) ∧
      read kind true text =
        if text.toList.any isUnknownDigit then
          .error .unknownBits
        else
          read kind false text := by
  refine ⟨isLiteral_iff.mp hLiteral, fun s hText => ⟨?_, ?_⟩⟩
  · intro hUniform
    rcases hText.read_eq hUniform with ⟨fill, hRead⟩
    rw [hRead]
    exact s.readAs_outcome fill text
  · exact hText.read_strict

/- A size cuts the number off; one of its digits is unknown. -/
theorem Literal.read_exact_cut :
    IsLiteral .based "8'sh _1xF" ∧
    ∃ s, LiteralText .based "8'sh _1xF".toList s ∧ s.IsUniform ∧
      s.number = 271 ∧ s.width? = some 8 ∧
      s.ReadAs (read .based false "8'sh _1xF") ∧
      (read .based false "8'sh _1xF").map value = .ok 15 ∧
      read .based true "8'sh _1xF" = .error .unknownBits := by
  have hText : LiteralText .based "8'sh _1xF".toList
      ⟨['8'], true, .hex, ['_', '1', 'x', 'F']⟩ :=
    @LiteralText.based ['8'] ['s'] 'h' .hex [' ']
      ['_', '1', 'x', 'F'] (.inr ⟨'8', [], rfl, rfl, nofun⟩)
      (.inr ⟨'s', rfl, rfl⟩) rfl
      ⟨List.all_eq_true.mp rfl, nofun, List.all_eq_true.mp rfl⟩
  have hLiteral := hText.isLiteral
  rcases (read_exact hLiteral).2 _ hText with ⟨hReadAs, hStrict⟩
  have hUnknown : "8'sh _1xF".toList.any isUnknownDigit = true := by
    decide
  rw [if_pos hUnknown] at hStrict
  exact ⟨hLiteral, _, hText, nofun, by decide, by decide,
    hReadAs nofun, by decide, hStrict⟩

/-
  A digit that is not known makes a decimal literal too wide,
  although its number is small.
-/
theorem Literal.read_inexact_mixed :
    IsLiteral .based "8'd1x" ∧
    ∃ s, LiteralText .based "8'd1x".toList s ∧
      s.number = 10 ∧ s.width? = some 8 ∧
      read .based false "8'd1x" = .error .tooWide ∧
      ¬ s.ReadAs (read .based false "8'd1x") := by
  have hText : LiteralText .based "8'd1x".toList
      ⟨['8'], false, .decimal, ['1', 'x']⟩ :=
    @LiteralText.based ['8'] [] 'd' .decimal [] ['1', 'x']
      (.inr ⟨'8', [], rfl, rfl, nofun⟩) (.inl rfl) rfl
      ⟨nofun, nofun, List.all_eq_true.mp rfl⟩
  have hMixed : ¬ Spelling.IsUniform
      ⟨['8'], false, .decimal, ['1', 'x']⟩ := by
    intro hUniform
    rcases hUniform rfl with hAll | hNone
    · exact absurd (hAll '1' (by decide)) (by decide)
    · exact absurd (hNone 'x' (by decide)) (by decide)
  have hRead := hText.read_mixed hMixed
  refine ⟨hText.isLiteral, _, hText, by decide, by decide, hRead, ?_⟩
  intro hReadAs
  rcases hReadAs.fails_iff.mp ⟨.tooWide, hRead⟩ with
    hLarge | ⟨w, hw, hBad⟩
  · exact absurd hLarge (by decide)
  · cases hw
    exact absurd hBad (by decide)

end Gatework.Hdl
