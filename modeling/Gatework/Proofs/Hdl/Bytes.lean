import Gatework.Proofs.Hdl.LiteralText
import Gatework.Proofs.Source.Bytes

/-
  Texts read byte by byte.

  A lexer may read the bytes of a text in place of its
  characters, each byte as the character with its number. No
  byte of a longer sequence is a character of ASCII, and what
  tells tokens apart is ASCII. So only one thing differs: a
  character out of place takes along the bytes that continue
  it. Then the same tokens and reports are found at the same
  places.

  Key definitions include:
    * `view`
    * `Hdl.Piece.PlainIn`
    * `Hdl.Piece.firstByte`
    * `Hdl.lexBytes`

  Key theorems include:
    * `Hdl.first_view`
    * `Hdl.firstByte_eq`
    * `Hdl.lexBytes_eq`
-/

------------------------------------------------------------
-- Views
------------------------------------------------------------

namespace Gatework

/- The bytes of some characters, read as characters. -/
def view
    (cs : List Char) :
    List Char :=
  (bytesOf cs).map byteChar

/- A byte that continues a sequence. -/
def isContinuation
    (c : Char) :
    Bool :=
  decide (128 ≤ c.toNat) && decide (c.toNat < 192)

variable {c d : Char}
variable {cs : List Char}
variable {p : Char → Bool}

theorem view_cons
    (c : Char)
    (cs : List Char) :
    view (c :: cs) =
      (String.utf8EncodeChar c).map byteChar ++ view cs := by
  rw [view, bytesOf, List.flatMap_cons, List.map_append]
  rfl

theorem view_cons_of_ascii
    (hc : IsAscii c)
    (cs : List Char) :
    view (c :: cs) = c :: view cs := by
  rcases utf8EncodeChar_cases c with ⟨_, hByte⟩ | ⟨hOther, _⟩
  · rw [view_cons, hByte]
    rfl
  · exact absurd hc hOther

/- No byte of a character beyond ASCII is one of ASCII. -/
theorem not_isAscii_of_mem
    (hc : ¬ IsAscii c)
    (hd : d ∈ (String.utf8EncodeChar c).map byteChar) :
    ¬ IsAscii d := by
  rcases utf8EncodeChar_cases c with
    ⟨hAscii, _⟩ | ⟨_, b, bs, hBytes, hFirst, hLater⟩
  · exact absurd hAscii hc
  · rw [hBytes] at hd
    rcases List.mem_map.mp hd with ⟨x, hx, rfl⟩
    rw [IsAscii, toNat_byteChar]
    rcases List.mem_cons.mp hx with rfl | hx
    · omega
    · have hRange := hLater x hx
      omega

/- What holds of characters of ASCII only. -/
def AsciiOnly
    (p : Char → Bool) :
    Prop :=
  ∀ c, p c = true → IsAscii c

theorem AsciiOnly.eq_false
    (hp : AsciiOnly p)
    (hc : ¬ IsAscii c) :
    p c = false :=
  Bool.eq_false_iff.mpr fun h => hc (hp c h)

/- The front of a view, where it starts with another byte. -/
theorem exists_view_cons
    (hc : ¬ IsAscii c)
    (cs : List Char) :
    ∃ d ds, view (c :: cs) = d :: ds ∧ ¬ IsAscii d := by
  rcases utf8EncodeChar_cases c with
    ⟨hAscii, _⟩ | ⟨_, b, bs, hBytes, _⟩
  · exact absurd hAscii hc
  · refine ⟨byteChar b, bs.map byteChar ++ view cs, ?_, ?_⟩
    · rw [view_cons, hBytes]
      rfl
    · apply not_isAscii_of_mem hc
      rw [hBytes]
      exact List.mem_cons_self ..

theorem takeWhile_view
    (hp : AsciiOnly p)
    (cs : List Char) :
    (view cs).takeWhile p = cs.takeWhile p := by
  induction cs with
  | nil => rfl
  | cons c cs ih =>
      by_cases hc : IsAscii c
      · rw [view_cons_of_ascii hc, List.takeWhile_cons,
          List.takeWhile_cons, ih]
      · rcases exists_view_cons hc cs with ⟨d, ds, hView, hd⟩
        rw [hView, List.takeWhile_cons, List.takeWhile_cons,
          hp.eq_false hc, hp.eq_false hd]
        rfl

/- Characters beyond ASCII are taken with all their bytes. -/
theorem takeWhile_view_of_others
    (hp : ∀ c, ¬ IsAscii c → p c = true)
    (cs : List Char) :
    (view cs).takeWhile p = view (cs.takeWhile p) := by
  induction cs with
  | nil => rfl
  | cons c cs ih =>
      by_cases hc : IsAscii c
      · rw [view_cons_of_ascii hc, List.takeWhile_cons,
          List.takeWhile_cons, ih]
        split
        · rw [view_cons_of_ascii hc]
        · rfl
      · have hAll : ∀ d ∈ (String.utf8EncodeChar c).map byteChar,
            p d = true :=
          fun d hd => hp d (not_isAscii_of_mem hc hd)
        rw [view_cons, List.takeWhile_append_of_pos hAll, ih,
          List.takeWhile_cons, hp c hc]
        exact (view_cons c _).symm

theorem head?_view_eq_some_iff
    (hd : IsAscii d) :
    (view cs).head? = some d ↔ cs.head? = some d := by
  cases cs with
  | nil => exact Iff.rfl
  | cons c cs =>
      by_cases hc : IsAscii c
      · rw [view_cons_of_ascii hc]
        exact Iff.rfl
      · rcases exists_view_cons hc cs with ⟨e, es, hView, he⟩
        rw [hView]
        constructor
        · rintro ⟨⟩
          exact absurd hd he
        · rintro ⟨⟩
          exact absurd hd hc

end Gatework

------------------------------------------------------------
-- Characters of ASCII
------------------------------------------------------------

namespace Gatework

/- The next characters are there and are of ASCII. -/
structure PlainFor
    (n : Nat)
    (cs : List Char) :
    Prop where
  inside : n ≤ cs.length
  ascii : ∀ c ∈ cs.take n, IsAscii c

theorem plainFor_zero
    (cs : List Char) :
    PlainFor 0 cs :=
  ⟨Nat.zero_le _, nofun⟩

theorem PlainFor.add
    {m n : Nat}
    {cs : List Char}
    (hm : PlainFor m cs)
    (hn : PlainFor n (cs.drop m)) :
    PlainFor (m + n) cs where
  inside := by
    have hInside := hn.inside
    have hFront := hm.inside
    rw [List.length_drop] at hInside
    omega
  ascii := by
    rw [List.take_add]
    exact List.forall_mem_append.mpr ⟨hm.ascii, hn.ascii⟩

theorem plainFor_one
    {c : Char}
    (hc : IsAscii c)
    (cs : List Char) :
    PlainFor 1 (c :: cs) :=
  ⟨Nat.succ_pos _, List.forall_mem_singleton.mpr hc⟩

theorem view_drop
    {n : Nat}
    {cs : List Char}
    (hPlain : PlainFor n cs) :
    (view cs).drop n = view (cs.drop n) := by
  induction n generalizing cs with
  | zero => rfl
  | succ n ih =>
      cases cs with
      | nil => exact absurd hPlain.inside (Nat.not_succ_le_zero n)
      | cons c cs =>
          have hc := hPlain.ascii c (List.mem_cons_self ..)
          have hRest : PlainFor n cs :=
            ⟨Nat.le_of_succ_le_succ hPlain.inside,
              fun d hd => hPlain.ascii d
                (List.mem_cons_of_mem _ hd)⟩
          rw [view_cons_of_ascii hc, List.drop_succ_cons,
            List.drop_succ_cons, ih hRest]

theorem utf8Size_of_isAscii
    {c : Char}
    (hc : IsAscii c) :
    c.utf8Size = 1 := by
  rcases utf8EncodeChar_cases c with ⟨_, hByte⟩ | ⟨hOther, _⟩
  · have hLength := congrArg List.length hByte
    rwa [List.length_map, String.length_utf8EncodeChar] at hLength
  · exact absurd hc hOther

theorem byteLength_of_ascii
    {cs : List Char}
    (hAscii : ∀ c ∈ cs, IsAscii c) :
    byteLength cs = cs.length := by
  induction cs with
  | nil => rfl
  | cons c cs ih =>
      rw [List.forall_mem_cons] at hAscii
      rw [byteLength, utf8Size_of_isAscii hAscii.1, ih hAscii.2,
        List.length_cons, Nat.add_comm]

theorem PlainFor.byteLength_take
    {n : Nat}
    {cs : List Char}
    (hPlain : PlainFor n cs) :
    byteLength (cs.take n) = n := by
  rw [byteLength_of_ascii hPlain.ascii, List.length_take,
    Nat.min_eq_left hPlain.inside]

end Gatework

------------------------------------------------------------
-- Classes of characters
------------------------------------------------------------

namespace Gatework.Hdl

variable {c d : Char}
variable {cs : List Char}
variable {radix : Radix}

theorem asciiOnly_goesOn :
    AsciiOnly goesOn := by
  intro c hc
  have hGoesOn : goesOn c = (c.isUpper || c.isLower || c.isDigit ||
      c == '_' || c == '$' || c == '\x27' || c == '?') := rfl
  have hLower : c.isLower = (decide ('a'.val ≤ c.val) &&
      decide (c.val ≤ 'z'.val)) := rfl
  have hUpper : c.isUpper = decide ('A'.val ≤ c.val ∧
      c.val ≤ 'Z'.val) := rfl
  rw [hGoesOn, hLower, hUpper] at hc
  rw [IsAscii]
  simp [Char.isDigit, Char.ext_iff, UInt32.le_iff_toNat_le,
    ← UInt32.toNat_inj] at hc
  omega

theorem asciiOnly_isNameChar :
    AsciiOnly isNameChar := by
  intro c hc
  apply asciiOnly_goesOn
  simp [goesOn, hc]

theorem asciiOnly_isDecimalChar :
    AsciiOnly isDecimalChar :=
  fun c hc => asciiOnly_isNameChar c
    (isNameChar_of_isDecimalChar hc)

theorem asciiOnly_isRadixChar :
    AsciiOnly (isRadixChar radix) :=
  fun c hc => asciiOnly_goesOn c (goesOn_of_isRadixChar hc)

theorem asciiOnly_isAsciiBlank :
    AsciiOnly isAsciiBlank := by
  intro c hc
  simp only [isAsciiBlank, Bool.or_eq_true, beq_iff_eq] at hc
  rcases hc with (((rfl | rfl) | rfl) | rfl) | rfl <;> decide

/- Lower case is a matter of ASCII. -/
theorem isAscii_of_toLower
    (hc : IsAscii c.toLower) :
    IsAscii c := by
  unfold Char.toLower at hc
  split at hc
  case isTrue hUpper =>
      have hBound : c.val ≤ 'Z'.val := hUpper.2
      rw [UInt32.le_iff_toNat_le] at hBound
      exact Nat.lt_of_le_of_lt hBound (by decide)
  case isFalse => exact hc

theorem isAscii_of_ofLetter?
    (hc : Radix.ofLetter? c = some radix) :
    IsAscii c := by
  apply isAscii_of_toLower
  unfold Radix.ofLetter? at hc
  split at hc
  case h_5 => cases hc
  all_goals
    rename_i hLetter
    rw [hLetter]
    decide

theorem asciiOnly_isFillChar :
    AsciiOnly isFillChar := by
  intro c hc
  apply isAscii_of_toLower
  simp only [isFillChar, Bool.or_eq_true, beq_iff_eq] at hc
  rcases hc with ((hc | hc) | hc) | hc <;> rw [hc] <;> decide

theorem isAscii_of_ofChar?
    {s : Symbol}
    (hc : Symbol.ofChar? c = some s) :
    IsAscii c := by
  unfold Symbol.ofChar? at hc
  split at hc <;> first | decide | cases hc

theorem isAscii_of_ofPair?
    {s : Symbol}
    (hPair : Symbol.ofPair? c d = some s) :
    IsAscii d := by
  unfold Symbol.ofPair? at hPair
  split at hPair <;> first | decide | cases hPair

end Gatework.Hdl

------------------------------------------------------------
-- Pieces of views
------------------------------------------------------------

namespace Gatework.Hdl

variable {c : Char}
variable {cs : List Char}
variable {radix : Radix}
variable {p : Char → Bool}

theorem countWhile_view
    (hp : AsciiOnly p)
    (cs : List Char) :
    countWhile p (view cs) = countWhile p cs := by
  rw [countWhile, takeWhile_view hp]
  rfl

theorem plainFor_countWhile
    (hp : AsciiOnly p)
    (cs : List Char) :
    PlainFor (countWhile p cs) cs where
  inside := (List.takeWhile_sublist p).length_le
  ascii := by
    rw [take_countWhile]
    exact fun c hc => hp c (mem_takeWhile hc)

theorem drop_countWhile_view
    (hp : AsciiOnly p)
    (cs : List Char) :
    (view cs).drop (countWhile p cs) =
      view (cs.drop (countWhile p cs)) :=
  view_drop (plainFor_countWhile hp cs)

/- What a function of one character finds at the front. -/
theorem head?_bind_view
    {α : Type}
    {f : Char → Option α}
    (hf : ∀ c x, f c = some x → IsAscii c)
    (cs : List Char) :
    (view cs).head?.bind f = cs.head?.bind f := by
  have hNone : ∀ c, ¬ IsAscii c → f c = none := by
    intro c hc
    cases hFound : f c with
    | none => rfl
    | some x => exact absurd (hf c x hFound) hc
  cases cs with
  | nil => rfl
  | cons c cs =>
      by_cases hc : IsAscii c
      · rw [view_cons_of_ascii hc]
        rfl
      · rcases exists_view_cons hc cs with ⟨d, ds, hView, hd⟩
        rw [hView]
        exact (hNone d hd).trans (hNone c hc).symm

theorem head?_any_view
    (hp : AsciiOnly p)
    (cs : List Char) :
    (view cs).head?.any p = cs.head?.any p := by
  cases cs with
  | nil => rfl
  | cons c cs =>
      by_cases hc : IsAscii c
      · rw [view_cons_of_ascii hc]
        rfl
      · rcases exists_view_cons hc cs with ⟨d, ds, hView, hd⟩
        rw [hView]
        exact (hp.eq_false hd).trans (hp.eq_false hc).symm

theorem ofLetter?_eq_none
    (hc : ¬ IsAscii c) :
    Radix.ofLetter? c = none := by
  cases hLetter : Radix.ofLetter? c with
  | none => rfl
  | some radix => exact absurd (isAscii_of_ofLetter? hLetter) hc

theorem radixMark?_of_not_isAscii
    (hc : ¬ IsAscii c)
    (cs : List Char) :
    radixMark? (c :: cs) = none := by
  have hSign : c.toLower ≠ 's' := by
    intro hLower
    apply hc
    apply isAscii_of_toLower
    rw [hLower]
    decide
  cases cs with
  | nil => rw [radixMark?, ofLetter?_eq_none hc, Option.map_none]
  | cons d ds =>
      rw [radixMark?, if_neg hSign, ofLetter?_eq_none hc,
        Option.map_none]

theorem radixMark?_view
    (cs : List Char) :
    radixMark? (view cs) = radixMark? cs := by
  cases cs with
  | nil => rfl
  | cons c cs =>
      by_cases hc : IsAscii c
      · rw [view_cons_of_ascii hc]
        cases cs with
        | nil => rfl
        | cons d cs =>
            by_cases hd : IsAscii d
            · rw [view_cons_of_ascii hd]
              rfl
            · rcases exists_view_cons hd cs with ⟨e, es, hView, he⟩
              rw [hView, radixMark?, radixMark?,
                ofLetter?_eq_none hd, ofLetter?_eq_none he]
      · rcases exists_view_cons hc cs with ⟨d, ds, hView, hd⟩
        rw [hView, radixMark?_of_not_isAscii hd,
          radixMark?_of_not_isAscii hc]

theorem plainFor_radixMark?
    {n : Nat}
    (hMark : radixMark? cs = some (radix, n)) :
    PlainFor n cs := by
  rcases radixMark?_eq_some hMark with
    ⟨sign, letter, hFront, hSign, hLetter, hLength⟩
  have hTaken := congrArg List.length hFront
  rw [List.length_take, List.length_append, List.length_singleton]
    at hTaken
  refine ⟨by omega, ?_⟩
  rw [hFront]
  intro d hd
  rcases List.mem_append.mp hd with hd | hd
  · rcases hSign with rfl | ⟨s, rfl, hLower⟩
    · cases hd
    · cases List.mem_singleton.mp hd
      apply isAscii_of_toLower
      rw [hLower]
      decide
  · cases List.mem_singleton.mp hd
    exact isAscii_of_ofLetter? hLetter

theorem basedPiece_view
    (before : Nat)
    (radix : Radix)
    (cs : List Char) :
    basedPiece before radix (view cs) =
      basedPiece before radix cs := by
  unfold basedPiece
  simp only [countWhile_view asciiOnly_isAsciiBlank,
    drop_countWhile_view asciiOnly_isAsciiBlank,
    countWhile_view asciiOnly_isRadixChar,
    drop_countWhile_view asciiOnly_isRadixChar,
    countWhile_view asciiOnly_isNameChar]

theorem numberPiece_of_tick
    {rest : List Char}
    (hRest : cs.drop (countWhile isDecimalChar cs) = '\x27' :: rest) :
    numberPiece cs =
      match radixMark? rest with
      | some (radix, n) =>
          basedPiece (countWhile isDecimalChar cs + 2 + n) radix
            (rest.drop n)
      | none => .good (.literal .int) (countWhile isDecimalChar cs) := by
  unfold numberPiece
  dsimp only
  rw [hRest]
  rfl

theorem numberPiece_of_no_tick
    (hRest : (cs.drop (countWhile isDecimalChar cs)).head? ≠
      some '\x27') :
    numberPiece cs =
      .good (.literal .int) (countWhile isDecimalChar cs) := by
  unfold numberPiece
  dsimp only
  split
  case h_1 rest hTick =>
      rw [hTick] at hRest
      exact absurd rfl hRest
  case h_2 => rfl

theorem numberPiece_view
    (cs : List Char) :
    numberPiece (view cs) = numberPiece cs := by
  have hDrop := drop_countWhile_view asciiOnly_isDecimalChar cs
  have hCount := countWhile_view asciiOnly_isDecimalChar cs
  have hHead := @head?_view_eq_some_iff '\x27'
    (cs.drop (countWhile isDecimalChar cs)) (by decide)
  rw [← hDrop, ← hCount] at hHead
  by_cases hTick : (cs.drop (countWhile isDecimalChar cs)).head? =
      some '\x27'
  · rcases List.head?_eq_some_iff.mp hTick with ⟨rest, hRest⟩
    have hViewRest : (view cs).drop
        (countWhile isDecimalChar (view cs)) =
          '\x27' :: view rest := by
      rw [hCount, hDrop, hRest, view_cons_of_ascii (by decide)]
    rw [numberPiece_of_tick hViewRest, numberPiece_of_tick hRest,
      radixMark?_view, hCount]
    cases hMark : radixMark? rest with
    | none => rfl
    | some mark =>
        dsimp only
        rw [view_drop (plainFor_radixMark? hMark), basedPiece_view]
  · rw [numberPiece_of_no_tick hTick,
      numberPiece_of_no_tick (fun h => hTick (hCount ▸ hHead.mp h)),
      hCount]

theorem startsFill_view
    (cs : List Char) :
    startsFill (view cs) = startsFill cs := by
  cases cs with
  | nil => rfl
  | cons c cs =>
      by_cases hc : IsAscii c
      · rw [view_cons_of_ascii hc, startsFill, startsFill,
          head?_any_view asciiOnly_isNameChar]
      · rcases exists_view_cons hc cs with ⟨d, ds, hView, hd⟩
        rw [hView, startsFill, startsFill,
          asciiOnly_isFillChar.eq_false hd,
          asciiOnly_isFillChar.eq_false hc, Bool.false_and,
          Bool.false_and]

theorem tickPiece_view
    (cs : List Char) :
    tickPiece (view cs) = tickPiece cs := by
  rw [tickPiece, tickPiece, startsFill_view, radixMark?_view]
  split
  · rfl
  · cases hMark : radixMark? cs with
    | none => rfl
    | some mark =>
        dsimp only
        rw [view_drop (plainFor_radixMark? hMark), basedPiece_view]

theorem wordPiece_view
    (c : Char)
    (cs : List Char) :
    wordPiece c (view cs) = wordPiece c cs := by
  rw [wordPiece, wordPiece, takeWhile_view asciiOnly_isNameChar]

theorem symbolPiece_view
    (c : Char)
    (cs : List Char) :
    symbolPiece c (view cs) = symbolPiece c cs := by
  rw [symbolPiece, symbolPiece,
    head?_bind_view fun _ _ => isAscii_of_ofPair?]

end Gatework.Hdl

------------------------------------------------------------
-- Plain tokens
------------------------------------------------------------

namespace Gatework.Hdl

variable {c : Char}
variable {cs : List Char}
variable {radix : Radix}

/-
  A token that is ASCII behind its first character. What is
  wrong with it starts inside it, and something is if it is
  invalid.
-/
structure Piece.PlainIn
    (piece : Piece)
    (cs : List Char) :
    Prop where
  isToken : ∃ kind, piece.kind = .token kind
  plain : PlainFor piece.extra cs
  skip : ∀ flaw ∈ piece.flaw, flaw.skip ≤ piece.extra
  flawed : piece.kind = .token .invalid → piece.flaw.isSome = true

theorem plainIn_good
    {kind : TokenKind}
    {extra : Nat}
    (hKind : kind ≠ .invalid)
    (hPlain : PlainFor extra cs) :
    (Piece.good kind extra).PlainIn cs where
  isToken := ⟨_, rfl⟩
  plain := hPlain
  skip := nofun
  flawed := by
    rintro ⟨⟩
    exact absurd rfl hKind

theorem plainIn_bad
    {extra skip : Nat}
    (hPlain : PlainFor extra cs)
    (hSkip : skip ≤ extra)
    (message : String) :
    (Piece.bad extra message skip).PlainIn cs where
  isToken := ⟨_, rfl⟩
  plain := hPlain
  skip := by
    rintro flaw ⟨⟩
    exact hSkip
  flawed _ := rfl

/-
  Behind its radix letter a literal goes on with blanks,
  digits and what is taken along with them.
-/
theorem plainIn_basedPiece
    {before : Nat}
    (hBefore : PlainFor before cs)
    (radix : Radix) :
    (basedPiece (before + 1) radix (cs.drop before)).PlainIn cs := by
  have hBlanks := hBefore.add
    (plainFor_countWhile asciiOnly_isAsciiBlank (cs.drop before))
  have hDigits := hBlanks.add
    (plainFor_countWhile (@asciiOnly_isRadixChar radix) _)
  have hTail := hDigits.add
    (plainFor_countWhile asciiOnly_isNameChar _)
  unfold basedPiece
  dsimp only
  simp only [← List.drop_drop] at hBlanks hDigits hTail
  generalize countWhile isAsciiBlank (cs.drop before) = blanks at *
  generalize countWhile (isRadixChar radix) _ = digits at *
  generalize countWhile isNameChar _ = tail at *
  split
  case isTrue hNone =>
      apply plainIn_bad _ (Nat.zero_le _)
      rw [hNone, Nat.add_zero, Nat.add_right_comm]
      exact hBlanks
  split
  case isTrue =>
      refine plainIn_good nofun ?_
      rw [Nat.add_right_comm before, Nat.add_right_comm _ 1]
      exact hDigits
  case isFalse hTailSome =>
      rw [Nat.add_right_comm before, Nat.add_right_comm _ 1,
        Nat.add_right_comm _ 1]
      apply plainIn_bad hTail
      omega

theorem plainIn_numberPiece
    (cs : List Char) :
    (numberPiece cs).PlainIn cs := by
  have hDigits := plainFor_countWhile asciiOnly_isDecimalChar cs
  rcases numberPiece_cases cs with
    hPiece | ⟨rest, radix, n, hRest, hMark, hPiece⟩
  · rw [hPiece]
    exact plainIn_good nofun hDigits
  · rw [← drop_countWhile] at hRest
    have hTick := hDigits.add
      (hRest ▸ plainFor_one (by decide) rest)
    have hRestDrop : cs.drop (countWhile isDecimalChar cs + 1) =
        rest := by
      rw [← List.drop_drop, hRest, List.drop_one, List.tail_cons]
    have hLetter := hTick.add (hRestDrop ▸ plainFor_radixMark? hMark)
    have hAll := plainIn_basedPiece hLetter radix
    rw [← List.drop_drop, hRestDrop] at hAll
    have hBefore : countWhile isDecimalChar cs + 2 + n =
        countWhile isDecimalChar cs + 1 + n + 1 := by
      omega
    rwa [hPiece, hBefore]

theorem plainIn_tickPiece
    (cs : List Char) :
    (tickPiece cs).PlainIn cs := by
  rcases tickPiece_cases cs with
    ⟨c, rest, rfl, hFill, hPiece⟩ | ⟨radix, n, hMark, hPiece⟩ |
    ⟨message, hPiece⟩
  · rw [hPiece]
    exact plainIn_good nofun
      (plainFor_one (asciiOnly_isFillChar c hFill) rest)
  · rw [hPiece]
    exact plainIn_basedPiece (plainFor_radixMark? hMark) radix
  · rw [hPiece]
    exact plainIn_bad (plainFor_zero cs) (Nat.zero_le _) message

theorem plainIn_symbolPiece
    (c : Char)
    (cs : List Char) :
    (symbolPiece c cs).PlainIn cs := by
  unfold symbolPiece
  split
  case h_1 s hPair =>
      refine plainIn_good nofun ?_
      rcases Option.bind_eq_some_iff.mp hPair with ⟨d, hHead, hPair⟩
      rcases List.head?_eq_some_iff.mp hHead with ⟨rest, rfl⟩
      exact plainFor_one (isAscii_of_ofPair? hPair) rest
  case h_2 =>
      split
      · exact plainIn_good nofun (plainFor_zero cs)
      · exact plainIn_bad (plainFor_zero cs) (Nat.zero_le _) _

theorem plainIn_wordPiece
    (c : Char)
    (cs : List Char) :
    (wordPiece c cs).PlainIn cs := by
  have hLetters := plainFor_countWhile asciiOnly_isNameChar cs
  unfold wordPiece
  dsimp only
  split
  · exact plainIn_good nofun hLetters
  · exact plainIn_good nofun hLetters

theorem plainIn_token
    (c : Char)
    (cs : List Char) :
    (if isNameStart c then wordPiece c cs
      else if c.isDigit then numberPiece cs
      else if c = '\x27' then tickPiece cs
      else symbolPiece c cs).PlainIn cs := by
  split
  · exact plainIn_wordPiece c cs
  split
  · exact plainIn_numberPiece cs
  split
  · exact plainIn_tickPiece cs
  · exact plainIn_symbolPiece c cs

/- What is wrong with a piece that is no token is all of it. -/
theorem plainIn_or_skip_eq_zero
    (c : Char)
    (cs : List Char) :
    (Piece.first c cs).PlainIn cs ∨
      (∀ kind, (Piece.first c cs).kind ≠ .token kind) ∧
      ∀ flaw ∈ (Piece.first c cs).flaw, flaw.skip = 0 := by
  unfold Piece.first
  split
  case isTrue => exact .inr ⟨nofun, nofun⟩
  split
  case isTrue => exact .inr ⟨nofun, nofun⟩
  split
  case isTrue =>
      refine .inr ⟨nofun, ?_⟩
      dsimp only
      split
      · exact nofun
      · rintro flaw ⟨⟩
        rfl
  split
  case isTrue =>
      refine .inr ⟨nofun, ?_⟩
      rintro flaw ⟨⟩
      rfl
  case isFalse => exact .inl (plainIn_token c cs)

end Gatework.Hdl

------------------------------------------------------------
-- Views of pieces
------------------------------------------------------------

namespace Gatework.Hdl

variable {c : Char}
variable {cs : List Char}

theorem commentRest_of_open
    (hOpen : ¬ ['*', '/'] <+: c :: cs) :
    commentRest (c :: cs) =
      ((commentRest cs).1 + 1, (commentRest cs).2) := by
  rw [commentRest]
  rintro rest rfl rfl
  exact hOpen ⟨rest, rfl⟩

/- Text without a star does not close a comment. -/
theorem commentRest_append
    {ds : List Char}
    (hStar : '*' ∉ ds)
    (cs : List Char) :
    commentRest (ds ++ cs) =
      (ds.length + (commentRest cs).1, (commentRest cs).2) := by
  induction ds with
  | nil => rw [List.nil_append, List.length_nil, Nat.zero_add]
  | cons d ds ih =>
      rw [List.mem_cons, not_or] at hStar
      have hOpen : ¬ ['*', '/'] <+: d :: (ds ++ cs) := by
        intro hMark
        exact hStar.1 (List.cons_prefix_cons.mp hMark).1
      rw [List.cons_append, commentRest_of_open hOpen, ih hStar.2,
        List.length_cons, Nat.add_right_comm]

/- A comment goes on for the bytes of what it takes. -/
theorem commentRest_view
    (cs : List Char) :
    commentRest (view cs) =
      (byteLength (cs.take (commentRest cs).1),
        (commentRest cs).2) := by
  fun_induction commentRest cs with
  | case1 => rfl
  | case2 rest =>
      rw [view_cons_of_ascii (by decide),
        view_cons_of_ascii (by decide)]
      rfl
  | case3 c cs hOpen rest ih =>
      have hSize : byteLength ((c :: cs).take (rest.1 + 1)) =
          c.utf8Size + byteLength (cs.take rest.1) := rfl
      rw [hSize]
      by_cases hc : IsAscii c
      · have hStill : ¬ ['*', '/'] <+: c :: view cs := by
          intro hMark
          rcases List.cons_prefix_cons.mp hMark with ⟨rfl, hSlash⟩
          have hHead : (view cs).head? = some '/' := by
            rcases hSlash with ⟨others, hOthers⟩
            rw [← hOthers]
            rfl
          rw [head?_view_eq_some_iff (by decide)] at hHead
          rcases List.head?_eq_some_iff.mp hHead with ⟨others, rfl⟩
          exact hOpen others rfl rfl
        rw [view_cons_of_ascii hc, commentRest_of_open hStill, ih,
          utf8Size_of_isAscii hc, Nat.add_comm]
      · have hStar : '*' ∉ (String.utf8EncodeChar c).map byteChar :=
          fun hMem => not_isAscii_of_mem hc hMem (by decide)
        rw [view_cons, commentRest_append hStar, ih,
          List.length_map, String.length_utf8EncodeChar]

/- The same piece, measured by its bytes. -/
structure Piece.Views
    (viewed piece : Piece)
    (cs : List Char) :
    Prop where
  kind : viewed.kind = piece.kind
  flaw : viewed.flaw = piece.flaw
  extra : viewed.extra = byteLength (cs.take piece.extra)

theorem Piece.PlainIn.views
    {piece : Piece}
    (hPlain : piece.PlainIn cs) :
    piece.Views piece cs :=
  ⟨rfl, rfl, hPlain.plain.byteLength_take.symm⟩

theorem countWhile_view_of_others
    {p : Char → Bool}
    (hp : ∀ c, ¬ IsAscii c → p c = true)
    (cs : List Char) :
    countWhile p (view cs) = byteLength (cs.take (countWhile p cs)) := by
  rw [countWhile, takeWhile_view_of_others hp, view, List.length_map,
    length_bytesOf, take_countWhile]

theorem staysInLine_of_not_isAscii
    (hc : ¬ IsAscii c) :
    staysInLine c = true := by
  rw [staysInLine, bne_iff_ne]
  rintro rfl
  exact hc (by decide)

/- A piece that starts with a character of ASCII. -/
theorem first_view
    (c : Char)
    (cs : List Char) :
    (Piece.first c (view cs)).Views (Piece.first c cs) cs := by
  have hSlash := @head?_view_eq_some_iff '/' cs (by decide)
  have hStar := @head?_view_eq_some_iff '*' cs (by decide)
  have hLine := @countWhile_view_of_others staysInLine
    (fun _ => staysInLine_of_not_isAscii) cs
  unfold Piece.first
  simp only [hSlash, hStar]
  by_cases hBlank : isAsciiBlank c = true
  · rw [if_pos hBlank, if_pos hBlank]
    refine ⟨rfl, rfl, ?_⟩
    dsimp only
    rw [countWhile_view asciiOnly_isAsciiBlank]
    exact (plainFor_countWhile asciiOnly_isAsciiBlank
      cs).byteLength_take.symm
  rw [if_neg hBlank, if_neg hBlank]
  by_cases hComment : c = '/' ∧ cs.head? = some '/'
  · rw [if_pos hComment, if_pos hComment]
    exact ⟨rfl, rfl, hLine⟩
  rw [if_neg hComment, if_neg hComment]
  by_cases hBlock : c = '/' ∧ cs.head? = some '*'
  · rw [if_pos hBlock, if_pos hBlock]
    rcases List.head?_eq_some_iff.mp hBlock.2 with ⟨rest, rfl⟩
    rw [view_cons_of_ascii (by decide), List.drop_one, List.tail_cons,
      List.drop_one, List.tail_cons, commentRest_view]
    exact ⟨rfl, rfl, Nat.add_comm _ 1⟩
  rw [if_neg hBlock, if_neg hBlock]
  by_cases hDirective : c = '\x60'
  · rw [if_pos hDirective, if_pos hDirective]
    exact ⟨rfl, rfl, hLine⟩
  rw [if_neg hDirective, if_neg hDirective, wordPiece_view,
    numberPiece_view, tickPiece_view, symbolPiece_view]
  exact (plainIn_token c cs).views

end Gatework.Hdl

------------------------------------------------------------
-- Reading bytes
------------------------------------------------------------

namespace Gatework

/- The text of some bytes. -/
def decoded
    (bytes : List UInt8) :
    String :=
  (String.fromUTF8? bytes.toByteArray).getD "\ufffd"

theorem decoded_bytesOf
    (cs : List Char) :
    decoded (bytesOf cs) = String.ofList cs := by
  have hBytes : (bytesOf cs).toByteArray =
      (String.ofList cs).toByteArray := rfl
  have hValid := (String.ofList cs).isValidUTF8
  rw [decoded, hBytes, String.fromUTF8?, dif_pos hValid,
    Option.getD_some]
  rfl

end Gatework

namespace Gatework.Hdl

/- A character that no piece starts with. -/
def isOutOfPlace
    (c : Char) :
    Bool :=
  !(isAsciiBlank c || c == '\x60' || isNameStart c || c.isDigit ||
    c == '\x27' || (Symbol.ofChar? c).isSome)

/-
  The piece at the front of some bytes. A character out of
  place takes along the bytes that continue it.
-/
def Piece.firstByte
    (b : UInt8)
    (bs : List UInt8) :
    Piece :=
  let c := byteChar b
  let cs := bs.map byteChar
  if isOutOfPlace c then
    let extra := countWhile isContinuation cs
    .bad extra
      ("unrecognized character '" ++ decoded (b :: bs.take extra) ++ "'")
      0
  else
    Piece.first c cs

/- What is reported of a piece measured by its bytes. -/
def Piece.problemAt?
    (piece : Piece)
    (span : Span) :
    Option Diagnostic :=
  piece.flaw.map fun flaw =>
    let place := { span with start := span.start + flaw.skip }
    if piece.kind = .directive then
      Diagnostic.warning 100 flaw.message place
    else
      Diagnostic.error 100 flaw.message place

/- The pieces of some bytes, each with its bytes. -/
def bytePieces : List UInt8 → List (Piece × List UInt8)
  | [] => []
  | b :: bs =>
      let piece := Piece.firstByte b bs
      (piece, b :: bs.take piece.extra) ::
        bytePieces (bs.drop piece.extra)
termination_by bs => bs.length
decreasing_by simp only [List.length_drop, List.length_cons]; omega

/- Tokens and problems of pieces of bytes from an offset on. -/
def byteTokensAt
    (file : Option Nat) :
    Nat → List (Piece × List UInt8) → Lexed
  | offset, [] => ⟨[⟨.endOfFile, "", ⟨file, offset, offset⟩⟩], []⟩
  | offset, (piece, bytes) :: rest =>
      let stop := offset + bytes.length
      let span : Span := ⟨file, offset, stop⟩
      let later := byteTokensAt file stop rest
      ⟨(piece.token? (decoded bytes).toList span).toList ++
          later.tokens,
        (piece.problemAt? span).toList ++ later.problems⟩

/- The tokens of the bytes of a text and the problems there. -/
def lexBytes
    (file : Option Nat)
    (bytes : List UInt8) :
    Lexed :=
  byteTokensAt file 0 (bytePieces bytes)

end Gatework.Hdl

------------------------------------------------------------
-- The same tokens
------------------------------------------------------------

namespace Gatework.Hdl

variable {c : Char}
variable {cs : List Char}
variable {b : UInt8}
variable {bs : List UInt8}

theorem isContinuation_eq_false
    (hc : IsAscii c) :
    isContinuation c = false := by
  rw [IsAscii] at hc
  rw [isContinuation, decide_eq_false (Nat.not_le.mpr hc),
    Bool.false_and]

/- No bytes at the front of characters continue another one. -/
theorem countWhile_isContinuation_view
    (cs : List Char) :
    countWhile isContinuation (view cs) = 0 := by
  cases cs with
  | nil => rfl
  | cons c cs =>
      rcases utf8EncodeChar_cases c with
        ⟨hAscii, _⟩ | ⟨_, b, bs, hBytes, hFirst, _⟩
      · rw [view_cons_of_ascii hAscii, countWhile,
          List.takeWhile_cons, isContinuation_eq_false hAscii]
        rfl
      · have hStart : isContinuation (byteChar b) = false := by
          rw [isContinuation, toNat_byteChar,
            decide_eq_false (p := b.toNat < 192) (by omega),
            Bool.and_false]
        rw [view_cons, hBytes, List.map_cons, List.cons_append,
          countWhile, List.takeWhile_cons, hStart]
        rfl

/- A first byte, and bytes that continue it. -/
theorem exists_utf8EncodeChar
    (c : Char) :
    ∃ b bs, String.utf8EncodeChar c = b :: bs ∧
      (IsAscii c → byteChar b = c) ∧
      (¬ IsAscii c → ¬ IsAscii (byteChar b)) ∧
      ∀ d ∈ bs.map byteChar, isContinuation d = true := by
  rcases utf8EncodeChar_cases c with
    ⟨hAscii, hByte⟩ | ⟨hOther, b, bs, hBytes, _, hLater⟩
  · rcases List.map_eq_singleton_iff.mp hByte with ⟨b, hBytes, hb⟩
    exact ⟨b, [], hBytes, fun _ => hb, absurd hAscii, nofun⟩
  · refine ⟨b, bs, hBytes, fun h => absurd h hOther, ?_, ?_⟩
    · intro _
      apply not_isAscii_of_mem hOther
      rw [hBytes]
      exact List.mem_cons_self ..
    · rw [List.forall_mem_map]
      intro d hd
      rw [isContinuation, toNat_byteChar,
        decide_eq_true (hLater d hd).1,
        decide_eq_true (hLater d hd).2]
      rfl

theorem ofPair?_eq_none
    {d : Char}
    (hc : Symbol.ofChar? c = none) :
    Symbol.ofPair? c d = none := by
  unfold Symbol.ofPair?
  split <;> first | rfl | cases hc

/- A character out of place is a piece of its own. -/
theorem first_of_isOutOfPlace
    (hc : isOutOfPlace c = true)
    (cs : List Char) :
    Piece.first c cs = .bad 0
      ("unrecognized character '" ++ c.toString ++ "'") 0 := by
  simp only [isOutOfPlace, Bool.not_eq_true', Bool.or_eq_false_iff,
    beq_eq_false_iff_ne, Option.isSome_eq_false_iff,
    Option.isNone_iff_eq_none] at hc
  rcases hc with ⟨⟨⟨⟨⟨hBlank, hMark⟩, hName⟩, hDigit⟩, hTick⟩, hChar⟩
  have hSlash : c ≠ '/' := by
    rintro rfl
    cases hChar
  have hPair : cs.head?.bind (Symbol.ofPair? c) = none := by
    rw [Option.bind_eq_none_iff]
    exact fun d _ => ofPair?_eq_none hChar
  simp [Piece.first, symbolPiece, hBlank, hSlash, hMark, hName,
    hDigit, hTick, hPair, hChar]

theorem isOutOfPlace_of_not_isAscii
    (hc : ¬ IsAscii c) :
    isOutOfPlace c = true := by
  have hBlank := asciiOnly_isAsciiBlank.eq_false hc
  have hNameChar := asciiOnly_isNameChar.eq_false hc
  have hChar : Symbol.ofChar? c = none := by
    cases hFound : Symbol.ofChar? c with
    | none => rfl
    | some s => exact absurd (isAscii_of_ofChar? hFound) hc
  have hMark : c ≠ '\x60' := by
    rintro rfl
    exact hc (by decide)
  have hTick : c ≠ '\x27' := by
    rintro rfl
    exact hc (by decide)
  simp only [isNameChar, Char.isAlphanum, Bool.or_eq_false_iff]
    at hNameChar
  simp [isOutOfPlace, isNameStart, hBlank, hNameChar, hChar, hMark,
    hTick]

theorem isAscii_of_isOutOfPlace
    (hc : ¬ isOutOfPlace c = true) :
    IsAscii c :=
  Decidable.byContradiction fun hOther =>
    hc (isOutOfPlace_of_not_isAscii hOther)

/- The byte a character starts with stands in its place. -/
theorem isOutOfPlace_byteChar
    (hAscii : IsAscii c → byteChar b = c)
    (hOther : ¬ IsAscii c → ¬ IsAscii (byteChar b)) :
    isOutOfPlace (byteChar b) = isOutOfPlace c := by
  by_cases hc : IsAscii c
  · rw [hAscii hc]
  · rw [isOutOfPlace_of_not_isAscii hc,
      isOutOfPlace_of_not_isAscii (hOther hc)]

/-
  The piece at the front of the bytes of some characters is
  the one at the front of the characters.
-/
theorem firstByte_eq
    (hBytes : bytesOf (c :: cs) = b :: bs) :
    (Piece.firstByte b bs).kind = (Piece.first c cs).kind ∧
      (Piece.firstByte b bs).flaw = (Piece.first c cs).flaw ∧
      (Piece.firstByte b bs).extra + 1 =
        byteLength (c :: cs.take (Piece.first c cs).extra) := by
  rcases exists_utf8EncodeChar c with
    ⟨x, xs, hFront, hAscii, hOther, hLater⟩
  rw [bytesOf, List.flatMap_cons, hFront, List.cons_append] at hBytes
  cases hBytes
  have hView : (xs ++ bytesOf cs).map byteChar =
      xs.map byteChar ++ view cs :=
    List.map_append
  have hPlace := isOutOfPlace_byteChar hAscii hOther
  rw [Piece.firstByte, ← bytesOf, hView, hPlace]
  dsimp only
  by_cases hOut : isOutOfPlace c = true
  · -- The piece takes the bytes of one character.
    have hCount : countWhile isContinuation
        (xs.map byteChar ++ view cs) = xs.length := by
      have hNone := countWhile_isContinuation_view cs
      rw [countWhile] at hNone ⊢
      rw [List.takeWhile_append_of_pos hLater, List.length_append,
        List.length_map, hNone, Nat.add_zero]
    have hText : decoded (b :: xs) = c.toString := by
      rw [← hFront, ← List.append_nil (String.utf8EncodeChar c)]
      exact decoded_bytesOf [c]
    have hSize : xs.length + 1 = c.utf8Size := by
      rw [← String.length_utf8EncodeChar, hFront, List.length_cons]
    rw [if_pos hOut, first_of_isOutOfPlace hOut, hCount,
      List.take_left, hText]
    exact ⟨rfl, rfl, hSize⟩
  · have hc := isAscii_of_isOutOfPlace hOut
    have hOne : xs = [] := by
      have hLength := congrArg List.length hFront
      rw [String.length_utf8EncodeChar, utf8Size_of_isAscii hc,
        List.length_cons] at hLength
      exact List.length_eq_zero_iff.mp (by omega)
    have hSame := first_view c cs
    rw [if_neg hOut, hAscii hc, hOne, List.map_nil, List.nil_append,
      byteLength, utf8Size_of_isAscii hc, ← hSame.extra]
    exact ⟨hSame.kind, hSame.flaw, Nat.add_comm _ 1⟩

/- What is reported of a piece is about text after ASCII. -/
theorem byteLength_take_skip
    {flaw : Flawed}
    (hFlaw : (Piece.first c cs).flaw = some flaw) :
    byteLength ((c :: cs.take (Piece.first c cs).extra).take
      flaw.skip) = flaw.skip := by
  by_cases hOut : isOutOfPlace c = true
  · rw [first_of_isOutOfPlace hOut] at hFlaw
    cases hFlaw
    rfl
  rcases plainIn_or_skip_eq_zero c cs with hPlain | ⟨_, hSkip⟩
  · have hc := isAscii_of_isOutOfPlace hOut
    have hAll : ∀ d ∈ c :: cs.take (Piece.first c cs).extra,
        IsAscii d :=
      List.forall_mem_cons.mpr ⟨hc, hPlain.plain.ascii⟩
    have hSkip := hPlain.skip flaw hFlaw
    rw [byteLength_of_ascii fun d hd => hAll d (List.mem_of_mem_take hd),
      List.length_take, List.length_cons, List.length_take,
      Nat.min_eq_left hPlain.plain.inside]
    omega
  · rw [hSkip flaw hFlaw]
    rfl

theorem token?_congr
    {viewed piece : Piece}
    (hKind : viewed.kind = piece.kind) :
    viewed.token? = piece.token? := by
  funext text span
  rw [Piece.token?, Piece.token?, hKind]

/- Both report the same of a piece, at the same place. -/
theorem problemAt?_eq
    {viewed : Piece}
    (hKind : viewed.kind = (Piece.first c cs).kind)
    (hFlaw : viewed.flaw = (Piece.first c cs).flaw)
    (span : Span) :
    viewed.problemAt? span = (Piece.first c cs).problem?
      (c :: cs.take (Piece.first c cs).extra) span := by
  rw [Piece.problemAt?, Piece.problem?, hKind, hFlaw]
  cases hFound : (Piece.first c cs).flaw with
  | none => rfl
  | some flaw =>
      rw [Option.map_some, Option.map_some,
        byteLength_take_skip hFound]

/- Bytes are read as the characters they stand for. -/
theorem byteTokensAt_bytesOf
    (file : Option Nat)
    (offset : Nat)
    (cs : List Char) :
    byteTokensAt file offset (bytePieces (bytesOf cs)) =
      tokensAt file offset (pieces cs) := by
  fun_induction pieces cs generalizing offset with
  | case1 =>
      rw [bytesOf, List.flatMap_nil, bytePieces, byteTokensAt,
        tokensAt]
  | case2 c cs piece ih =>
      have hSome : bytesOf (c :: cs) ≠ [] := by
        rw [← List.length_pos_iff, length_bytesOf]
        exact Nat.add_pos_left c.utf8Size_pos _
      rcases List.exists_cons_of_ne_nil hSome with ⟨b, bs, hBytes⟩
      rcases firstByte_eq hBytes with ⟨hKind, hFlaw, hExtra⟩
      have hCut : b :: bs = bytesOf (c :: cs.take piece.extra) ++
          bytesOf (cs.drop piece.extra) := by
        rw [← hBytes, ← bytesOf_append, List.cons_append,
          List.take_append_drop]
      have hLength : (bytesOf (c :: cs.take piece.extra)).length =
          (Piece.firstByte b bs).extra + 1 := by
        rw [length_bytesOf, hExtra]
      have hText : b :: bs.take (Piece.firstByte b bs).extra =
          bytesOf (c :: cs.take piece.extra) := by
        rw [← List.take_succ_cons, hCut, List.take_left' hLength]
      have hRest : bs.drop (Piece.firstByte b bs).extra =
          bytesOf (cs.drop piece.extra) := by
        rw [← List.drop_succ_cons (a := b), hCut,
          List.drop_left' hLength]
      rw [hBytes, bytePieces, hText, hRest, byteTokensAt,
        decoded_bytesOf, ih, tokensAt, length_bytesOf,
        String.toList_ofList, token?_congr hKind,
        problemAt?_eq hKind hFlaw]

/- A text may be read byte by byte. -/
theorem lexBytes_eq
    (file : Option Nat)
    (text : String) :
    lexBytes file text.toByteArray.data.toList = lex file text := by
  rw [bytes_eq, lexBytes, byteTokensAt_bytesOf, lex]

end Gatework.Hdl
