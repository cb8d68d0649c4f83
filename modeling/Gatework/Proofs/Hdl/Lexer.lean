import Gatework.Hdl.Lexer
import Gatework.Proofs.Hdl.Digits

/-
  Texts and the words they spell.

  A text spells words in front of other characters if it is
  cut into pieces of its own there, none of them flawed.
  Whether it is depends on what follows: a name, a number or
  a literal must end there, and an operator must not be the
  first half of a longer one. Texts side by side spell their
  words one after the other.

  Key definitions include:
    * `Hdl.Word` and `Hdl.Token.word`
    * `Hdl.Spells`
    * `Hdl.Ends`
    * `Hdl.isName`

  Key theorems include:
    * `Hdl.Spells.append`
    * `Hdl.spells_name`, `Hdl.spells_int` and `Hdl.spells_const`
    * `Hdl.spells_symbol` and `Hdl.spells_between`
    * `Hdl.lex_of_spells`
-/

------------------------------------------------------------
-- Words
------------------------------------------------------------

namespace Gatework.Hdl

/- What a token says, apart from its place. -/
structure Word where
  kind : TokenKind
  text : String
deriving DecidableEq, Repr, Inhabited

namespace Word

/- The word of a symbol. -/
def mark
    (s : Symbol) :
    Word :=
  ⟨.symbol s, s.spelling⟩

/- The word of a name. -/
def name
    (n : String) :
    Word :=
  ⟨.identifier, n⟩

/- The word of a number without a radix. -/
def int
    (n : Nat) :
    Word :=
  ⟨.literal .int, toString n⟩

/- The word of a constant. -/
def const
    (c : Const) :
    Word :=
  ⟨.literal .based, c.verilog⟩

/- The word that ends every source. -/
def stop : Word :=
  ⟨.endOfFile, ""⟩

/- Words between parentheses. -/
def parens
    (words : List Word) :
    List Word :=
  mark .leftParen :: words ++ [mark .rightParen]

/- Words between braces. -/
def braced
    (words : List Word) :
    List Word :=
  mark .leftBrace :: words ++ [mark .rightBrace]

/- Words between brackets. -/
def bracketed
    (words : List Word) :
    List Word :=
  mark .leftBracket :: words ++ [mark .rightBracket]

end Word

def Token.word
    (t : Token) :
    Word :=
  ⟨t.kind, t.text⟩

/- The word of a piece, if it is a token. -/
def wordOf?
    (part : Piece × List Char) :
    Option Word :=
  match part.1.kind with
  | .token kind => some ⟨kind, String.ofList part.2⟩
  | _ => none

theorem words_tokensAt
    (file : Option Nat)
    (parts : List (Piece × List Char))
    (offset : Nat) :
    (tokensAt file offset parts).tokens.map Token.word =
      parts.filterMap wordOf? ++ [.stop] := by
  induction parts generalizing offset with
  | nil => rfl
  | cons part parts ih =>
      rcases part with ⟨piece, text⟩
      rw [tokensAt, List.map_append, ih, List.filterMap_cons,
        Piece.token?, wordOf?]
      cases piece.kind <;> rfl

theorem problems_tokensAt
    (file : Option Nat)
    {parts : List (Piece × List Char)}
    (hParts : ∀ part ∈ parts, part.1.flaw = none)
    (offset : Nat) :
    (tokensAt file offset parts).problems = [] := by
  induction parts generalizing offset with
  | nil => rfl
  | cons part parts ih =>
      rcases part with ⟨piece, text⟩
      rw [List.forall_mem_cons] at hParts
      have hFlaw : piece.flaw = none := hParts.1
      rw [tokensAt, Piece.problem?, hFlaw, ih hParts.2]
      rfl

end Gatework.Hdl

------------------------------------------------------------
-- Spelling
------------------------------------------------------------

namespace Gatework.Hdl

/-
  Characters are cut into pieces without a flaw, which spell
  words, and the rest is cut as if it stood alone.
-/
def Spells
    (cs : List Char)
    (words : List Word)
    (rest : List Char) :
    Prop :=
  ∃ parts, pieces (cs ++ rest) = parts ++ pieces rest ∧
    (∀ part ∈ parts, part.1.flaw = none) ∧
    parts.filterMap wordOf? = words

theorem spells_nil
    (rest : List Char) :
    Spells [] [] rest :=
  ⟨[], rfl, by simp, rfl⟩

/- Texts side by side spell one after the other. -/
theorem Spells.append
    {cs ds rest : List Char}
    {words more : List Word}
    (hFirst : Spells cs words (ds ++ rest))
    (hSecond : Spells ds more rest) :
    Spells (cs ++ ds) (words ++ more) rest := by
  rcases hFirst with ⟨parts, hParts, hClean, hWords⟩
  rcases hSecond with ⟨others, hOthers, hCleanOthers, hMore⟩
  refine ⟨parts ++ others, ?_, ?_, ?_⟩
  · rw [List.append_assoc, List.append_assoc, hParts, hOthers]
  · exact List.forall_mem_append.mpr ⟨hClean, hCleanOthers⟩
  · rw [List.filterMap_append, hWords, hMore]

/- One piece that takes all the characters. -/
theorem spells_piece
    {c : Char}
    {cs rest : List Char}
    {piece : Piece}
    (hFirst : Piece.first c (cs ++ rest) = piece)
    (hExtra : piece.extra = cs.length)
    (hFlaw : piece.flaw = none) :
    Spells (c :: cs) (wordOf? (piece, c :: cs)).toList rest := by
  refine ⟨[(piece, c :: cs)], ?_, ?_, ?_⟩
  · rw [List.cons_append, pieces, hFirst, hExtra,
      List.take_left, List.drop_left]
    rfl
  · simpa using hFlaw
  · rw [List.filterMap_cons]
    cases wordOf? (piece, c :: cs) <;> rfl

theorem spells_token
    {c : Char}
    {cs rest : List Char}
    {kind : TokenKind}
    (hFirst : Piece.first c (cs ++ rest) = .good kind cs.length) :
    Spells (c :: cs) [⟨kind, String.ofList (c :: cs)⟩] rest :=
  spells_piece hFirst rfl rfl

/-
  A whole text that spells words has their tokens and the end
  of the file, and no problems.
-/
theorem lex_of_spells
    {text : String}
    {words : List Word}
    (hText : Spells text.toList words [])
    (file : Option Nat) :
    (lex file text).tokens.map Token.word = words ++ [.stop] ∧
      (lex file text).problems = [] := by
  rcases hText with ⟨parts, hParts, hClean, rfl⟩
  have hAll : pieces text.toList = parts := by
    simpa [pieces] using hParts
  rw [lex, hAll]
  exact ⟨words_tokensAt file parts 0,
    problems_tokensAt file hClean 0⟩

end Gatework.Hdl

------------------------------------------------------------
-- Blanks and symbols
------------------------------------------------------------

namespace Gatework.Hdl

/- What follows does not start with such a character. -/
def StopsAt
    (p : Char → Bool)
    (rest : List Char) :
    Prop :=
  ∀ c ∈ rest.head?, p c = false

theorem stopsAt_nil
    (p : Char → Bool) :
    StopsAt p [] :=
  nofun

theorem stopsAt_cons
    {p : Char → Bool}
    {c : Char}
    (hc : p c = false)
    (rest : List Char) :
    StopsAt p (c :: rest) := by
  rintro _ ⟨⟩
  exact hc

theorem StopsAt.imp
    {p q : Char → Bool}
    {rest : List Char}
    (hRest : StopsAt p rest)
    (hq : ∀ c, q c = true → p c = true) :
    StopsAt q rest := by
  intro c hc
  cases hqc : q c with
  | false => rfl
  | true => exact (hq c hqc).symm.trans (hRest c hc)

theorem takeWhile_append
    {p : Char → Bool}
    {cs rest : List Char}
    (hcs : ∀ c ∈ cs, p c = true)
    (hRest : StopsAt p rest) :
    (cs ++ rest).takeWhile p = cs := by
  have hNone : rest.takeWhile p = [] := by
    cases rest with
    | nil => rfl
    | cons c rest =>
        rw [List.takeWhile_cons, hRest c rfl]
        rfl
  rw [List.takeWhile_append_of_pos hcs, hNone, List.append_nil]

theorem countWhile_append
    {p : Char → Bool}
    {cs rest : List Char}
    (hcs : ∀ c ∈ cs, p c = true)
    (hRest : StopsAt p rest) :
    countWhile p (cs ++ rest) = cs.length := by
  rw [countWhile, takeWhile_append hcs hRest]

theorem countWhile_eq_zero
    {p : Char → Bool}
    {rest : List Char}
    (hRest : StopsAt p rest) :
    countWhile p rest = 0 :=
  @countWhile_append p [] rest (by simp) hRest

/- A blank is no word if no other blank follows it. -/
theorem spells_blank
    {rest : List Char}
    (hRest : StopsAt isAsciiBlank rest) :
    Spells [' '] [] rest := by
  have hFirst : Piece.first ' ' rest =
      { kind := .blank, extra := 0 } := by
    change Piece.mk _ (countWhile isAsciiBlank rest) _ = _
    rw [countWhile_eq_zero hRest]
  exact @spells_piece ' ' [] rest _ hFirst rfl rfl

/- A symbol of one character that does not start a longer one. -/
theorem spells_symbol
    {c : Char}
    {s : Symbol}
    (hs : Symbol.ofChar? c = some s)
    (hSlash : s ≠ .slash)
    {rest : List Char}
    (hRest : ∀ d ∈ rest.head?, Symbol.ofPair? c d = none) :
    Spells [c] [.mark s] rest := by
  have hPair : rest.head?.bind (Symbol.ofPair? c) = none := by
    cases rest with
    | nil => rfl
    | cons d rest => exact hRest d rfl
  have hPiece : symbolPiece c rest = .good (.symbol s) 0 := by
    rw [symbolPiece, hPair, hs]
  have hFirst : Piece.first c rest = symbolPiece c rest ∧
      s.spelling = String.ofList [c] := by
    unfold Symbol.ofChar? at hs
    split at hs
    all_goals cases hs
    case h_15 => exact absurd rfl hSlash
    all_goals exact ⟨rfl, rfl⟩
  rw [Word.mark, hFirst.2]
  exact spells_token (hFirst.1.trans hPiece)

/- Every symbol stands for itself in front of a blank. -/
theorem spells_blankAfter
    (s : Symbol)
    (rest : List Char) :
    Spells s.spelling.toList [.mark s] (' ' :: rest) := by
  have hSplit : ∃ c cs, s.spelling = String.ofList (c :: cs) ∧
      Piece.first c (cs ++ ' ' :: rest) =
        .good (.symbol s) cs.length := by
    cases s <;> exact ⟨_, _, rfl, rfl⟩
  rcases hSplit with ⟨c, cs, hText, hFirst⟩
  rw [Word.mark, hText, String.toList_ofList]
  exact spells_token hFirst

/- A symbol between blanks. -/
theorem spells_between
    (s : Symbol)
    {rest : List Char}
    (hRest : StopsAt isAsciiBlank rest) :
    Spells (' ' :: s.spelling.toList ++ [' ']) [.mark s] rest := by
  have hStart : StopsAt isAsciiBlank
      (s.spelling.toList ++ ' ' :: rest) := by
    cases s <;> exact stopsAt_cons rfl _
  have hSymbol : Spells s.spelling.toList [.mark s]
      ([' '] ++ rest) := spells_blankAfter s rest
  have hFront : Spells [' '] []
      (s.spelling.toList ++ [' '] ++ rest) := by
    apply spells_blank
    rwa [List.append_assoc]
  exact hFront.append (hSymbol.append (spells_blank hRest))

end Gatework.Hdl

------------------------------------------------------------
-- Names and numbers
------------------------------------------------------------

namespace Gatework.Hdl

/- A character that a name, number or literal can go on with. -/
def goesOn
    (c : Char) :
    Bool :=
  isNameChar c || c == '\x27' || c == '?'

/- What follows ends a name, number or literal. -/
def Ends
    (rest : List Char) :
    Prop :=
  StopsAt goesOn rest

/- A word that is a name and no keyword. -/
def isName
    (word : String) :
    Bool :=
  (Keyword.ofSpelling? word).isNone &&
    match word.toList with
    | [] => false
    | c :: cs => isNameStart c && cs.all isNameChar

theorem Ends.nameChar
    {rest : List Char}
    (hRest : Ends rest) :
    StopsAt isNameChar rest :=
  StopsAt.imp hRest fun c hc => by simp [goesOn, hc]

theorem first_eq_wordPiece
    {c : Char}
    (hc : isNameStart c = true)
    (cs : List Char) :
    Piece.first c cs = wordPiece c cs := by
  have hOther : ∀ d, isNameStart d = false → c ≠ d := by
    rintro d hd rfl
    rw [hd] at hc
    cases hc
  have hBlank : isAsciiBlank c = false := by
    simp [isAsciiBlank, hOther ' ' rfl, hOther '\t' rfl,
      hOther '\n' rfl, hOther '\r' rfl, hOther '\x0c' rfl]
  simp [Piece.first, hBlank, hOther '/' rfl, hOther '\x60' rfl, hc]

theorem spells_name
    {name : String}
    (hName : isName name = true)
    {rest : List Char}
    (hRest : Ends rest) :
    Spells name.toList [.name name] rest := by
  rw [isName, Bool.and_eq_true, Option.isNone_iff_eq_none] at hName
  rcases hName with ⟨hKeyword, hChars⟩
  cases hText : name.toList with
  | nil =>
      rw [hText] at hChars
      cases hChars
  | cons c cs =>
      rw [hText] at hChars
      rcases Bool.and_eq_true_iff.mp hChars with ⟨hStart, hAll⟩
      have hWord : String.ofList (c :: cs) = name := by
        rw [← hText, String.ofList_toList]
      have hTake : (cs ++ rest).takeWhile isNameChar = cs :=
        takeWhile_append (List.all_eq_true.mp hAll) hRest.nameChar
      rw [Word.name, ← hWord]
      apply spells_token
      rw [first_eq_wordPiece hStart, wordPiece]
      simp only [hTake, hWord, hKeyword]
      rfl

theorem first_eq_numberPiece
    {d : Nat}
    (hd : d < 10)
    (cs : List Char) :
    Piece.first d.digitChar cs = numberPiece cs := by
  have hAll : ∀ d < 10, isAsciiBlank d.digitChar = false ∧
      d.digitChar ≠ '/' ∧ d.digitChar ≠ '\x60' ∧
      isNameStart d.digitChar = false ∧
      d.digitChar.isDigit = true := by
    decide
  rcases hAll d hd with ⟨hBlank, hSlash, hQuote, hStart, hDigit⟩
  simp [Piece.first, hBlank, hSlash, hQuote, hStart, hDigit]

/- A decimal number by its first digit and the others. -/
theorem toDigits_cases
    (n : Nat) :
    ∃ d cs, Nat.toDigits 10 n = d.digitChar :: cs ∧ d < 10 ∧
      ∀ c ∈ cs, isDecimalChar c = true := by
  have hDigits : ∀ c ∈ Nat.toDigits 10 n, c.isDigit = true :=
    fun c hc => Nat.isDigit_of_mem_toDigits (by decide) (by decide) hc
  cases hAll : Nat.toDigits 10 n with
  | nil => exact absurd hAll Nat.toDigits_ne_nil
  | cons c cs =>
      have hFirst : c ∈ Nat.toDigits 10 n :=
        hAll ▸ List.mem_cons_self ..
      rcases @Radix.mem_digits .decimal n c hFirst with ⟨d, hd, rfl⟩
      rw [hAll, List.forall_mem_cons] at hDigits
      refine ⟨d, cs, rfl, hd, fun c hc => ?_⟩
      simp [isDecimalChar, hDigits.2 c hc]

theorem isNameChar_of_isDecimalChar
    {c : Char}
    (hc : isDecimalChar c = true) :
    isNameChar c = true := by
  rcases Bool.or_eq_true_iff.mp hc with hDigit | hLine
  · simp [isNameChar, Char.isAlphanum, hDigit]
  · simp [isNameChar, hLine]

theorem spells_int
    (n : Nat)
    {rest : List Char}
    (hRest : Ends rest) :
    Spells (Nat.toDigits 10 n) [.int n] rest := by
  rcases toDigits_cases n with ⟨d, cs, hDigits, hd, hcs⟩
  have hText : toString n = String.ofList (d.digitChar :: cs) := by
    rw [Nat.toString_eq_ofList_toDigits, hDigits]
  have hCount : countWhile isDecimalChar (cs ++ rest) = cs.length :=
    countWhile_append hcs (hRest.nameChar.imp fun _ =>
      isNameChar_of_isDecimalChar)
  rw [Word.int, hText, hDigits]
  apply spells_token
  rw [first_eq_numberPiece hd, numberPiece, hCount,
    List.drop_left]
  split
  case h_1 others =>
      have hTick := hRest '\x27' rfl
      cases hTick
  case h_2 => rfl

/- What can stand among digits is part of a name or unknown. -/
theorem goesOn_of_isRadixChar
    {radix : Radix}
    {c : Char}
    (hc : isRadixChar radix c = true) :
    goesOn c = true := by
  have hGoesOn : goesOn c = (c.isUpper || c.isLower || c.isDigit ||
      c == '_' || c == '$' || c == '\x27' || c == '?') := rfl
  have hLower : c.isLower = (decide ('a'.val ≤ c.val) &&
      decide (c.val ≤ 'z'.val)) := rfl
  rw [hGoesOn]
  cases hUpper : c.isUpper with
  | true => simp
  | false =>
      have hLow : c.toLower = c := by
        unfold Char.toLower
        exact dif_neg (of_decide_eq_false hUpper)
      -- All other characters are told by their numbers.
      simp only [isRadixChar, hLow, isUnknownChar] at hc
      cases radix
      all_goals
        simp [hLower, Char.isDigit, Char.ext_iff, Char.le_def,
          UInt32.le_iff_toNat_le, ← UInt32.toNat_inj] at hc ⊢
        omega

theorem isRadixChar_digitChar
    {radix : Radix}
    {d : Nat}
    (hd : d < radix.size) :
    isRadixChar radix d.digitChar = true := by
  have hAll : ∀ d < radix.size,
      isRadixChar radix d.digitChar = true := by
    cases radix <;> decide
  exact hAll d hd

/- Digits that follow their radix letter directly. -/
theorem basedPiece_digits
    (before : Nat)
    {radix : Radix}
    {digits rest : List Char}
    (hSome : digits ≠ [])
    (hDigits : ∀ c ∈ digits, ∃ d, d < radix.size ∧ c = d.digitChar)
    (hRest : Ends rest) :
    basedPiece before radix (digits ++ rest) =
      .good (.literal .based) (before + digits.length - 1) := by
  have hBlank : countWhile isAsciiBlank (digits ++ rest) = 0 := by
    cases digits with
    | nil => exact absurd rfl hSome
    | cons c digits =>
        apply countWhile_eq_zero
        apply stopsAt_cons
        rcases hDigits c (List.mem_cons_self ..) with ⟨d, hd, rfl⟩
        have hAll : ∀ d < 16, isAsciiBlank d.digitChar = false := by
          decide
        exact hAll d (Nat.lt_of_lt_of_le hd radix.size_le)
  have hCount : countWhile (isRadixChar radix) (digits ++ rest) =
      digits.length := by
    apply countWhile_append
    · intro c hc
      rcases hDigits c hc with ⟨d, hd, rfl⟩
      exact isRadixChar_digitChar hd
    · exact StopsAt.imp hRest fun _ => goesOn_of_isRadixChar
  have hTail := countWhile_eq_zero hRest.nameChar
  have hLength : digits.length ≠ 0 :=
    fun h => hSome (List.eq_nil_of_length_eq_zero h)
  rw [basedPiece]
  simp only [hBlank, List.drop_zero, hCount, List.drop_left, hTail,
    hLength, if_false, if_true, Nat.add_zero]

theorem radixMark?_printed
    (c : Const)
    (rest : List Char) :
    radixMark? (c.printedSign ++ c.printedBase.letter ::
        (c.printedDigits ++ rest)) =
      some (c.printedBase, c.printedSign.length + 1) := by
  rcases List.exists_cons_of_ne_nil c.printedDigits_ne_nil with
    ⟨d, ds, hDigits⟩
  rw [hDigits]
  unfold Const.printedSign
  cases c.signed with
  | true => cases c.printedBase <;> rfl
  | false => cases c.printedBase <;> rfl

/- A constant is one literal. -/
theorem spells_const
    {c : Const}
    (hRaw : c.raw = none)
    {rest : List Char}
    (hRest : Ends rest) :
    Spells c.verilog.toList [.const c] rest := by
  have hText := Const.toList_verilog hRaw
  rcases toDigits_cases c.width with ⟨d, ds, hDigits, hd, hds⟩
  rw [hDigits, List.cons_append] at hText
  have hWord := congrArg String.ofList hText
  rw [String.ofList_toList] at hWord
  have hCount : countWhile isDecimalChar (ds ++ '\x27' ::
      (c.printedSign ++ c.printedBase.letter ::
        (c.printedDigits ++ rest))) = ds.length :=
    countWhile_append hds (stopsAt_cons rfl _)
  have hMark : (c.printedSign ++ c.printedBase.letter ::
      (c.printedDigits ++ rest)).drop (c.printedSign.length + 1) =
        c.printedDigits ++ rest := by
    rw [List.drop_append]
    simp
  rw [hText, Word.const, hWord]
  apply spells_token
  simp only [List.append_assoc, List.cons_append]
  rw [first_eq_numberPiece hd, numberPiece, hCount, List.drop_left]
  simp only [radixMark?_printed, hMark]
  rw [basedPiece_digits _ c.printedDigits_ne_nil
    (fun _ => Const.mem_printedDigits) hRest]
  congr 1
  simp only [List.length_append, List.length_cons]
  omega

end Gatework.Hdl
