import Gatework.Proofs.Hdl.Lexer

/-
  How literals are written.

  A text is a literal if the lexer makes one token of it. That
  is a decimal number, one bit that fills a width, or digits
  behind a radix letter, with or without a size before it.
  The digits of a radix may be unknown or separators, and
  blanks may stand in front of them.

  Key definitions include:
    * `Hdl.IsLiteral`, `Hdl.Spelling` and `Hdl.LiteralText`
    * `Hdl.TokenText`

  Key theorems include:
    * `Hdl.tokenText_of_first` and `Hdl.LiteralText.first_eq`
    * `Hdl.isLiteral_iff`
-/

------------------------------------------------------------
-- Texts of literals
------------------------------------------------------------

namespace Gatework.Hdl

/- A text that is one literal and nothing else. -/
def IsLiteral
    (kind : LiteralKind)
    (text : String) :
    Prop :=
  (lex none text).tokens.map Token.word =
    [⟨.literal kind, text⟩, .stop] ∧
  (lex none text).problems = []

/- A digit and more digits and separators. -/
def IsNumber
    (cs : List Char) :
    Prop :=
  ∃ c ds, cs = c :: ds ∧ c.isDigit = true ∧
    ∀ d ∈ ds, isDecimalChar d = true

/- A sign letter in either case, or none. -/
def IsSign
    (cs : List Char) :
    Prop :=
  cs = [] ∨ ∃ s, cs = [s] ∧ s.toLower = 's'

/- Blanks and digits of a radix. -/
structure AreDigits
    (radix : Radix)
    (blanks digits : List Char) :
    Prop where
  blank : ∀ c ∈ blanks, isAsciiBlank c = true
  some_digit : digits ≠ []
  digit : ∀ c ∈ digits, isRadixChar radix c = true

/-
  What a literal is written with. The size has no digits if
  there is none.
-/
structure Spelling where
  size : List Char
  signed : Bool
  base : Radix
  digits : List Char
deriving DecidableEq, Repr

/- The characters of a literal of each kind, and its parts. -/
inductive LiteralText :
    LiteralKind → List Char → Spelling → Prop where
  | int {cs} :
      IsNumber cs →
      LiteralText .int cs ⟨[], false, .decimal, cs⟩
  | fill {c} :
      isFillChar c = true →
      LiteralText .fill ['\x27', c] ⟨[], false, .binary, [c]⟩
  | based {size sign letter radix blanks digits} :
      size = [] ∨ IsNumber size →
      IsSign sign →
      Radix.ofLetter? letter = some radix →
      AreDigits radix blanks digits →
      LiteralText .based
        (size ++ '\x27' :: (sign ++ letter :: (blanks ++ digits)))
        ⟨size, !sign.isEmpty, radix, digits⟩

end Gatework.Hdl

------------------------------------------------------------
-- Pieces of a text
------------------------------------------------------------

namespace Gatework.Hdl

variable {c : Char}
variable {cs : List Char}
variable {kind : TokenKind}

/- A piece starts with a character and goes on behind it. -/
theorem of_mem_pieces
    {part : Piece × List Char}
    (hPart : part ∈ pieces cs) :
    ∃ c rest, part.1 = Piece.first c rest ∧
      part.2 = c :: rest.take part.1.extra := by
  fun_induction pieces cs with
  | case1 => cases hPart
  | case2 c cs piece ih =>
      rcases List.mem_cons.mp hPart with rfl | hPart
      · exact ⟨c, cs, rfl, rfl⟩
      · exact ih hPart

/- Characters below a bound can be gone through by number. -/
theorem forall_char_lt
    {p : Char → Prop}
    {bound : Nat}
    (hp : ∀ n < bound, p (Char.ofNat n))
    (hc : c.toNat < bound) :
    p c := by
  have hSame := hp c.toNat hc
  rwa [Char.ofNat_toNat] at hSame

theorem exists_digitChar
    (hc : c.isDigit = true) :
    ∃ d < 10, c = d.digitChar := by
  have hLt : c.toNat < 58 := by
    simp only [Char.isDigit, Bool.and_eq_true, decide_eq_true_eq]
      at hc
    exact Nat.lt_succ_of_le hc.2
  revert hc
  apply forall_char_lt _ hLt
  decide

theorem take_countWhile
    (p : Char → Bool)
    (cs : List Char) :
    cs.take (countWhile p cs) = cs.takeWhile p := by
  have hSplit := @List.takeWhile_append_dropWhile _ p cs
  have hTake := @List.take_left _ (cs.takeWhile p) (cs.dropWhile p)
  rwa [hSplit] at hTake

theorem drop_countWhile
    (p : Char → Bool)
    (cs : List Char) :
    cs.drop (countWhile p cs) = cs.dropWhile p := by
  have hSplit := @List.takeWhile_append_dropWhile _ p cs
  have hDrop := @List.drop_left _ (cs.takeWhile p) (cs.dropWhile p)
  rwa [hSplit] at hDrop

theorem mem_takeWhile
    {p : Char → Bool}
    {d : Char}
    (hd : d ∈ cs.takeWhile p) :
    p d = true :=
  List.all_eq_true.mp List.all_takeWhile d hd

/- The piece that starts with a digit is a number's. -/
theorem first_of_isDigit
    (hc : c.isDigit = true) :
    Piece.first c = numberPiece := by
  rcases exists_digitChar hc with ⟨d, hd, rfl⟩
  exact funext (first_eq_numberPiece hd)

theorem first_tick :
    Piece.first '\x27' = tickPiece :=
  rfl

theorem first_of_isNameStart
    (hc : isNameStart c = true) :
    Piece.first c = wordPiece c :=
  funext (first_eq_wordPiece hc)

/-
  A token starts as a name, a number or a literal without a
  size, or it is a symbol.
-/
theorem first_of_token
    (hKind : (Piece.first c cs).kind = .token kind) :
    isNameStart c = true ∨ c.isDigit = true ∨ c = '\x27' ∨
      Piece.first c cs = symbolPiece c cs := by
  -- What is not one of these four is no token.
  unfold Piece.first at hKind ⊢
  grind

end Gatework.Hdl

------------------------------------------------------------
-- Pieces that are tokens
------------------------------------------------------------

namespace Gatework.Hdl

variable {c : Char}
variable {cs : List Char}
variable {radix : Radix}
variable {kind : LiteralKind}

theorem radixMark?_eq_some
    {n : Nat}
    (hMark : radixMark? cs = some (radix, n)) :
    ∃ sign letter, cs.take n = sign ++ [letter] ∧ IsSign sign ∧
      Radix.ofLetter? letter = some radix ∧
      n = sign.length + 1 := by
  unfold radixMark? at hMark
  split at hMark
  case h_1 c d rest =>
      split at hMark
      case isTrue hSign =>
          rcases Option.map_eq_some_iff.mp hMark with ⟨r, hr, hSame⟩
          cases hSame
          exact ⟨[c], d, rfl, .inr ⟨c, rfl, hSign⟩, hr, rfl⟩
      case isFalse =>
          rcases Option.map_eq_some_iff.mp hMark with ⟨r, hr, hSame⟩
          cases hSame
          exact ⟨[], c, rfl, .inl rfl, hr, rfl⟩
  case h_2 c =>
      rcases Option.map_eq_some_iff.mp hMark with ⟨r, hr, hSame⟩
      cases hSame
      exact ⟨[], c, rfl, .inl rfl, hr, rfl⟩
  case h_3 => cases hMark

/- Digits behind a radix letter are a literal, or are flawed. -/
theorem basedPiece_cases
    (before : Nat)
    (radix : Radix)
    (cs : List Char) :
    (∃ n message skip,
      basedPiece before radix cs = .bad n message skip) ∨
    ∃ blanks digits, AreDigits radix blanks digits ∧
      cs.take (blanks.length + digits.length) = blanks ++ digits ∧
      basedPiece before radix cs =
        .good (.literal .based)
          (before + blanks.length + digits.length - 1) := by
  unfold basedPiece
  dsimp only
  split
  case isTrue => exact .inl ⟨_, _, _, rfl⟩
  case isFalse hSome =>
      split
      case isFalse => exact .inl ⟨_, _, _, rfl⟩
      case isTrue =>
          refine .inr ⟨cs.takeWhile isAsciiBlank,
            (cs.dropWhile isAsciiBlank).takeWhile
              (isRadixChar radix), ⟨?_, ?_, ?_⟩, ?_, ?_⟩
          · exact fun _ => mem_takeWhile
          · intro hNone
            apply hSome
            rw [drop_countWhile, countWhile, hNone]
            rfl
          · exact fun _ => mem_takeWhile
          · rw [List.take_add, ← countWhile, take_countWhile,
              drop_countWhile, ← countWhile, take_countWhile]
          · rw [drop_countWhile]
            rfl

/- A number stands alone or is the size of what follows it. -/
theorem numberPiece_cases
    (cs : List Char) :
    numberPiece cs =
      .good (.literal .int) (countWhile isDecimalChar cs) ∨
    ∃ rest radix n,
      cs.dropWhile isDecimalChar = '\x27' :: rest ∧
      radixMark? rest = some (radix, n) ∧
      numberPiece cs =
        basedPiece (countWhile isDecimalChar cs + 2 + n) radix
          (rest.drop n) := by
  unfold numberPiece
  dsimp only
  split
  case h_1 rest hRest =>
      rw [drop_countWhile] at hRest
      split
      case h_1 radix n hMark =>
          exact .inr ⟨rest, radix, n, hRest, hMark, rfl⟩
      case h_2 => exact .inl rfl
  case h_2 => exact .inl rfl

/- What follows an apostrophe at the front. -/
theorem tickPiece_cases
    (cs : List Char) :
    (∃ c rest, cs = c :: rest ∧ isFillChar c = true ∧
      tickPiece cs = .good (.literal .fill) 1) ∨
    (∃ radix n, radixMark? cs = some (radix, n) ∧
      tickPiece cs = basedPiece (n + 1) radix (cs.drop n)) ∨
    ∃ message, tickPiece cs = .bad 0 message 0 := by
  unfold tickPiece
  split
  case isTrue hFill =>
      cases cs with
      | nil => cases hFill
      | cons c rest =>
          exact .inl ⟨c, rest, rfl,
            (Bool.and_eq_true_iff.mp hFill).1, rfl⟩
  case isFalse =>
      split
      case h_1 radix n hMark =>
          exact .inr (.inl ⟨radix, n, hMark, rfl⟩)
      case h_2 => exact .inr (.inr ⟨_, rfl⟩)

/- A symbol, or a character out of place. -/
theorem symbolPiece_cases
    (c : Char)
    (cs : List Char) :
    (∃ s n, symbolPiece c cs = .good (.symbol s) n) ∨
      ∃ message, symbolPiece c cs = .bad 0 message 0 := by
  unfold symbolPiece
  split
  · exact .inl ⟨_, _, rfl⟩
  · split
    · exact .inl ⟨_, _, rfl⟩
    · exact .inr ⟨_, rfl⟩

/- A keyword or a name. -/
theorem wordPiece_cases
    (hStart : isNameStart c = true)
    (cs : List Char) :
    (∃ k n, wordPiece c cs = .good (.keyword k) n) ∨
      wordPiece c cs = .good .identifier (countWhile isNameChar cs) ∧
        isName (String.ofList (c :: cs.takeWhile isNameChar)) =
          true := by
  unfold wordPiece
  dsimp only
  split
  case h_1 k _ => exact .inl ⟨k, _, rfl⟩
  case h_2 hKeyword =>
      refine .inr ⟨rfl, ?_⟩
      rw [isName, hKeyword, String.toList_ofList]
      simp only [hStart, List.all_takeWhile]
      rfl

/-
  What the piece of a token and its text are like. Something
  is wrong with an invalid one.
-/
inductive TokenText
    (piece : Piece)
    (text : List Char) :
    TokenKind → Prop where
  | keyword (k : Keyword) :
      TokenText piece text (.keyword k)
  | symbol (s : Symbol) :
      TokenText piece text (.symbol s)
  | name :
      isName (String.ofList text) = true →
      TokenText piece text .identifier
  | literal {form : LiteralKind} {s : Spelling} :
      LiteralText form text s →
      TokenText piece text (.literal form)
  | invalid :
      piece.flaw ≠ none →
      TokenText piece text .invalid

/- A size, if there is one, and what follows its apostrophe. -/
theorem tokenText_of_basedPiece
    {size rest : List Char}
    {n : Nat}
    (hSize : size = [] ∨ IsNumber size)
    (hMark : radixMark? rest = some (radix, n))
    {piece : Piece}
    (hPiece : piece =
      basedPiece (size.length + 1 + n) radix (rest.drop n))
    {kind : TokenKind}
    (hKind : piece.kind = .token kind) :
    TokenText piece
      ((size ++ '\x27' :: rest).take (piece.extra + 1)) kind := by
  rcases radixMark?_eq_some hMark with
    ⟨sign, letter, hFront, hSign, hLetter, rfl⟩
  rcases basedPiece_cases (size.length + 1 + (sign.length + 1))
      radix (rest.drop (sign.length + 1)) with
    ⟨m, message, skip, hBad⟩ |
    ⟨blanks, digits, hDigits, hTake, hGood⟩
  · rw [hBad] at hPiece
    subst hPiece
    cases hKind
    exact .invalid nofun
  · rw [hGood] at hPiece
    subst hPiece
    cases hKind
    have hPos := List.length_pos_iff.mpr hDigits.some_digit
    have hLength : size.length + 1 + (sign.length + 1) +
        blanks.length + digits.length - 1 + 1 =
          size.length + ((sign.length + 1 +
            (blanks.length + digits.length)) + 1) := by
      omega
    have hText := LiteralText.based hSize hSign hLetter hDigits
    rw [Piece.good, hLength, List.take_length_add_append,
      List.take_succ_cons, List.take_add, hFront, hTake,
      List.append_assoc]
    exact .literal hText

theorem tokenText_of_wordPiece
    {kind : TokenKind}
    (hStart : isNameStart c = true)
    (hKind : (wordPiece c cs).kind = .token kind) :
    TokenText (wordPiece c cs)
      (List.take ((wordPiece c cs).extra + 1) (c :: cs)) kind := by
  rcases wordPiece_cases hStart cs with
    ⟨k, n, hPiece⟩ | ⟨hPiece, hName⟩
  · rw [hPiece] at hKind
    cases hKind
    exact .keyword k
  · rw [hPiece] at hKind ⊢
    cases hKind
    rw [Piece.good, List.take_succ_cons, take_countWhile]
    exact .name hName

theorem tokenText_of_numberPiece
    {kind : TokenKind}
    (hDigit : c.isDigit = true)
    (hKind : (numberPiece cs).kind = .token kind) :
    TokenText (numberPiece cs)
      (List.take ((numberPiece cs).extra + 1) (c :: cs)) kind := by
  have hNumber : IsNumber (c :: cs.takeWhile isDecimalChar) :=
    ⟨c, _, rfl, hDigit, fun _ => mem_takeWhile⟩
  rcases numberPiece_cases cs with
    hPiece | ⟨rest, radix, n, hRest, hMark, hPiece⟩
  · rw [hPiece] at hKind ⊢
    cases hKind
    rw [Piece.good, List.take_succ_cons, take_countWhile]
    exact .literal (.int hNumber)
  · have hText : c :: cs =
        c :: cs.takeWhile isDecimalChar ++ '\x27' :: rest := by
      rw [List.cons_append, ← hRest,
        List.takeWhile_append_dropWhile]
    rw [hText]
    exact tokenText_of_basedPiece (.inr hNumber) hMark hPiece hKind

theorem tokenText_of_tickPiece
    {kind : TokenKind}
    (hKind : (tickPiece cs).kind = .token kind) :
    TokenText (tickPiece cs)
      (List.take ((tickPiece cs).extra + 1) ('\x27' :: cs)) kind := by
  rcases tickPiece_cases cs with
    ⟨c, rest, rfl, hFill, hPiece⟩ |
    ⟨radix, n, hMark, hPiece⟩ | ⟨message, hPiece⟩
  · rw [hPiece] at hKind ⊢
    cases hKind
    exact .literal (.fill hFill)
  · rw [Nat.add_comm] at hPiece
    exact tokenText_of_basedPiece (.inl rfl) hMark hPiece hKind
  · rw [hPiece] at hKind ⊢
    cases hKind
    exact .invalid nofun

theorem tokenText_of_symbolPiece
    {kind : TokenKind}
    {text : List Char}
    (hKind : (symbolPiece c cs).kind = .token kind) :
    TokenText (symbolPiece c cs) text kind := by
  rcases symbolPiece_cases c cs with
    ⟨s, n, hPiece⟩ | ⟨message, hPiece⟩
  · rw [hPiece] at hKind
    cases hKind
    exact .symbol s
  · rw [hPiece] at hKind ⊢
    cases hKind
    exact .invalid nofun

theorem tokenText_of_first
    {kind : TokenKind}
    (hKind : (Piece.first c cs).kind = .token kind) :
    TokenText (Piece.first c cs)
      (c :: cs.take (Piece.first c cs).extra) kind := by
  rw [← List.take_succ_cons]
  rcases first_of_token hKind with hStart | hDigit | rfl | hSymbol
  · rw [first_of_isNameStart hStart] at hKind ⊢
    exact tokenText_of_wordPiece hStart hKind
  · rw [first_of_isDigit hDigit] at hKind ⊢
    exact tokenText_of_numberPiece hDigit hKind
  · rw [first_tick] at hKind ⊢
    exact tokenText_of_tickPiece hKind
  · rw [hSymbol] at hKind ⊢
    exact tokenText_of_symbolPiece hKind

end Gatework.Hdl

------------------------------------------------------------
-- Literals that are pieces
------------------------------------------------------------

namespace Gatework.Hdl

variable {c : Char}
variable {cs : List Char}
variable {radix : Radix}
variable {kind : LiteralKind}
variable {s : Spelling}

/- Only letters of ASCII have another case. -/
theorem lt_of_toLower
    (hc : c.toLower.toNat < 128) :
    c.toNat < 128 := by
  cases hUpper : c.isUpper with
  | true =>
      have hLetter := of_decide_eq_true hUpper
      exact Nat.lt_of_le_of_lt hLetter.2 (by decide)
  | false =>
      have hSame : c.toLower = c := by
        unfold Char.toLower
        exact dif_neg (of_decide_eq_false hUpper)
      rwa [hSame] at hc

/- The letters of radices are letters of ASCII. -/
theorem lt_of_letter
    (hLetter : Radix.ofLetter? c = some radix) :
    c.toNat < 128 := by
  apply lt_of_toLower
  unfold Radix.ofLetter? at hLetter
  split at hLetter
  case h_5 => cases hLetter
  all_goals
    rename_i hLower
    rw [hLower]
    decide

/- A letter of a radix is no bit that fills. -/
theorem isFillChar_of_letter
    (hLetter : Radix.ofLetter? c = some radix) :
    isFillChar c = false := by
  have hLt := lt_of_letter hLetter
  have hSome := Option.isSome_of_eq_some hLetter
  revert hSome
  apply forall_char_lt _ hLt
  decide

theorem sign_cases
    (hSign : c.toLower = 's') :
    c = 's' ∨ c = 'S' := by
  have hLt : c.toNat < 128 := by
    apply lt_of_toLower
    rw [hSign]
    decide
  revert hSign
  apply forall_char_lt _ hLt
  decide

/- No digit of a radix is a blank. -/
theorem isAsciiBlank_of_isRadixChar
    (hc : isRadixChar radix c = true) :
    isAsciiBlank c = false := by
  have hGoesOn := goesOn_of_isRadixChar hc
  rw [← Bool.not_eq_true]
  intro hBlank
  simp only [isAsciiBlank, Bool.or_eq_true, beq_iff_eq] at hBlank
  rcases hBlank with (((rfl | rfl) | rfl) | rfl) | rfl <;>
    cases hGoesOn

theorem basedPiece_eq
    (before : Nat)
    {blanks digits : List Char}
    (hDigits : AreDigits radix blanks digits) :
    basedPiece before radix (blanks ++ digits) =
      .good (.literal .based)
        (before + blanks.length + digits.length - 1) := by
  have hStop : StopsAt isAsciiBlank digits := by
    intro c hc
    exact isAsciiBlank_of_isRadixChar
      (hDigits.digit c (List.mem_of_head? hc))
  have hBlanks := countWhile_append hDigits.blank hStop
  have hCount := countWhile_append hDigits.digit
    (stopsAt_nil (isRadixChar radix))
  have hTail := countWhile_eq_zero (stopsAt_nil isNameChar)
  have hLength : digits.length ≠ 0 :=
    fun h => hDigits.some_digit (List.eq_nil_of_length_eq_zero h)
  rw [List.append_nil] at hCount
  rw [basedPiece]
  simp only [hBlanks, List.drop_left, hCount, List.drop_length,
    hTail, hLength, if_false, if_true]

theorem radixMark?_append
    {sign rest : List Char}
    (hSign : IsSign sign)
    (hLetter : Radix.ofLetter? c = some radix)
    (hRest : rest ≠ []) :
    radixMark? (sign ++ c :: rest) =
      some (radix, sign.length + 1) := by
  rcases hSign with rfl | ⟨s, rfl, hSign⟩
  · have hNotSign : c.toLower ≠ 's' := by
      intro hSign
      rcases sign_cases hSign with rfl | rfl <;> cases hLetter
    cases rest with
    | nil => exact absurd rfl hRest
    | cons d rest =>
        rw [List.nil_append, radixMark?, if_neg hNotSign, hLetter]
        rfl
  · rw [List.singleton_append, radixMark?, if_pos hSign, hLetter]
    rfl

/- No mark of a radix is taken for a bit that fills. -/
theorem startsFill_mark
    {sign : List Char}
    (hSign : IsSign sign)
    (hLetter : Radix.ofLetter? c = some radix)
    (rest : List Char) :
    startsFill (sign ++ c :: rest) = false := by
  rcases hSign with rfl | ⟨s, rfl, hSign⟩
  · rw [List.nil_append, startsFill, isFillChar_of_letter hLetter]
    rfl
  · rcases sign_cases hSign with rfl | rfl <;> rfl

section

variable {sign blanks digits : List Char}
variable (hSign : IsSign sign)
variable (hLetter : Radix.ofLetter? c = some radix)
variable (hDigits : AreDigits radix blanks digits)

include hDigits

/- What follows the mark of a radix is read to its end. -/
theorem basedPiece_mark
    (before : Nat) :
    basedPiece (before + (sign.length + 1)) radix
      ((sign ++ c :: (blanks ++ digits)).drop (sign.length + 1)) =
        .good (.literal .based)
          (before + (sign ++ c :: (blanks ++ digits)).length - 1) := by
  have hDrop : (sign ++ c :: (blanks ++ digits)).drop
      (sign.length + 1) = blanks ++ digits := by
    rw [List.drop_length_add_append]
    rfl
  rw [hDrop, basedPiece_eq _ hDigits]
  congr 1
  simp only [List.length_append, List.length_cons]
  omega

include hSign hLetter

theorem radixMark?_digits :
    radixMark? (sign ++ c :: (blanks ++ digits)) =
      some (radix, sign.length + 1) :=
  radixMark?_append hSign hLetter
    (List.append_ne_nil_of_right_ne_nil _ hDigits.some_digit)

theorem tickPiece_based :
    tickPiece (sign ++ c :: (blanks ++ digits)) =
      .good (.literal .based)
        (sign ++ c :: (blanks ++ digits)).length := by
  have hPiece := @basedPiece_mark c radix sign blanks digits hDigits 1
  rw [Nat.add_comm 1, Nat.add_sub_cancel_left] at hPiece
  rw [tickPiece, startsFill_mark hSign hLetter,
    radixMark?_digits hSign hLetter hDigits]
  exact hPiece

theorem numberPiece_based
    {ds : List Char}
    (hSize : ∀ d ∈ ds, isDecimalChar d = true) :
    numberPiece
      (ds ++ '\x27' :: (sign ++ c :: (blanks ++ digits))) =
        .good (.literal .based)
          (ds ++ '\x27' :: (sign ++ c :: (blanks ++ digits))).length := by
  have hPiece := @basedPiece_mark c radix sign blanks digits hDigits
    (ds.length + 2)
  have hCount : countWhile isDecimalChar
      (ds ++ '\x27' :: (sign ++ c :: (blanks ++ digits))) =
        ds.length :=
    countWhile_append hSize (stopsAt_cons rfl _)
  rw [numberPiece, hCount, List.drop_left]
  simp only [radixMark?_digits hSign hLetter hDigits]
  rw [hPiece]
  congr 1
  simp only [List.length_append, List.length_cons]
  omega

end

theorem numberPiece_int
    {ds : List Char}
    (hAll : ∀ d ∈ ds, isDecimalChar d = true) :
    numberPiece ds = .good (.literal .int) ds.length := by
  have hCount := countWhile_append hAll (stopsAt_nil isDecimalChar)
  rw [List.append_nil] at hCount
  rw [numberPiece, hCount, List.drop_length]

/- A text that is written as a literal is read as one piece. -/
theorem LiteralText.first_eq
    (hText : LiteralText kind (c :: cs) s) :
    Piece.first c cs = .good (.literal kind) cs.length := by
  generalize hAll : c :: cs = all at hText
  cases hText with
  | int hNumber =>
      rcases hNumber with ⟨d, ds, rfl, hDigit, hMore⟩
      cases hAll
      rw [first_of_isDigit hDigit, numberPiece_int hMore]
  | fill hFill =>
      cases hAll
      rw [first_tick, tickPiece, startsFill, hFill]
      rfl
  | based hSize hSign hLetter hDigits =>
      rcases hSize with rfl | ⟨d, ds, rfl, hDigit, hMore⟩
      · cases hAll
        exact tickPiece_based hSign hLetter hDigits
      · rw [List.cons_append] at hAll
        cases hAll
        rw [first_of_isDigit hDigit]
        exact numberPiece_based hSign hLetter hDigits hMore

theorem LiteralText.ne_nil
    (hText : LiteralText kind cs s) :
    cs ≠ [] := by
  cases hText with
  | int hNumber =>
      rcases hNumber with ⟨d, ds, rfl, _, _⟩
      exact List.cons_ne_nil _ _
  | fill hFill => exact List.cons_ne_nil _ _
  | based hSize hSign hLetter hDigits =>
      exact List.append_ne_nil_of_right_ne_nil _
        (List.cons_ne_nil _ _)

theorem LiteralText.isLiteral
    {text : String}
    (hText : LiteralText kind text.toList s) :
    IsLiteral kind text := by
  have hSpells : Spells text.toList [⟨.literal kind, text⟩] [] := by
    rcases List.exists_cons_of_ne_nil hText.ne_nil with
      ⟨c, cs, hAll⟩
    have hWord : text = String.ofList (c :: cs) := by
      rw [← hAll, String.ofList_toList]
    rw [hAll] at hText
    rw [hWord, String.toList_ofList]
    apply spells_token
    rw [List.append_nil]
    exact hText.first_eq
  exact lex_of_spells hSpells none

/- Pieces are not empty, so one that is the text stands alone. -/
theorem IsLiteral.literalText
    {text : String}
    (hLiteral : IsLiteral kind text) :
    ∃ s, LiteralText kind text.toList s := by
  have hWord : (⟨.literal kind, text⟩ : Word) ∈
      (pieces text.toList).filterMap wordOf? ++ [.stop] := by
    rw [← words_tokensAt none _ 0, ← lex, hLiteral.1]
    exact List.mem_cons_self ..
  rcases List.mem_append.mp hWord with hWord | hWord
  case inr => cases List.mem_singleton.mp hWord
  rcases List.mem_filterMap.mp hWord with ⟨⟨piece, cs⟩, hPart, hIs⟩
  rcases of_mem_pieces hPart with ⟨c, rest, hFirst, hText⟩
  rw [wordOf?] at hIs
  split at hIs
  case h_2 => cases hIs
  case h_1 kind' hKind =>
      cases hIs
      dsimp only at hFirst hText hKind
      rw [String.toList_ofList, hText]
      subst hFirst
      cases tokenText_of_first hKind with
      | literal hLiteral => exact ⟨_, hLiteral⟩

/- A text is a literal if it is written as one. -/
theorem isLiteral_iff
    {text : String} :
    IsLiteral kind text ↔ ∃ s, LiteralText kind text.toList s :=
  ⟨IsLiteral.literalText, fun ⟨_, hText⟩ => hText.isLiteral⟩

end Gatework.Hdl
