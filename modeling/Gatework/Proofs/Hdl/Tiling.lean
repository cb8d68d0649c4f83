import Gatework.Proofs.Hdl.Bytes
import Gatework.Proofs.Hdl.Tokens
import Gatework.Proofs.Source.Bytes

/-
  Tokens tile a text.

  A text is cut into tokens and what is skipped between them:
  blanks, comments and directive lines. All tokens but the one
  that ends the text take at least one character, and with an
  invalid one an error is reported inside it. The same tokens
  come of the bytes of the text.

  Key definitions include:
    * `Hdl.Skippable` and `Hdl.Skipped`
    * `Hdl.Tiles`
    * `Hdl.SkippedBetween` and `Hdl.gaps`

  Key theorems include:
    * `Hdl.first_cases`
    * `Hdl.tiles_lex`
    * `Hdl.exists_reportedBy`
    * `Hdl.lex_tiles`
-/

------------------------------------------------------------
-- Skipped text
------------------------------------------------------------

namespace Gatework.Hdl

/- The mark that ends a block comment does not occur. -/
def Unclosed
    (cs : List Char) :
    Prop :=
  ¬ ['*', '/'] <:+: cs

/- What follows starts a new line, or nothing follows. -/
def EndsLine
    (rest : List Char) :
    Prop :=
  ∀ c ∈ rest.head?, c = '\n'

/-
  Text that is passed over in front of other text. Comments
  and directives go on to the end of their line; a block
  comment ends with the first mark that closes it, and goes on
  to the end of the text if there is none.
-/
inductive Skippable :
    List Char → List Char → Prop where
  | blanks {cs rest} :
      (∀ c ∈ cs, isAsciiBlank c = true) →
      Skippable cs rest
  | line {cs rest} :
      '\n' ∉ cs → EndsLine rest →
      Skippable ('/' :: '/' :: cs) rest
  | directive {cs rest} :
      '\n' ∉ cs → EndsLine rest →
      Skippable ('\x60' :: cs) rest
  | block {cs rest} :
      Unclosed (cs ++ ['*']) →
      Skippable ('/' :: '*' :: (cs ++ ['*', '/'])) rest
  | unfinished {cs} :
      Unclosed cs →
      Skippable ('/' :: '*' :: cs) []

/- Text in front of other text that is passed over in full. -/
inductive Skipped :
    List Char → List Char → Prop where
  | nil {rest} :
      Skipped [] rest
  | cons {item gap rest} :
      Skippable item (gap ++ rest) →
      Skipped gap rest →
      Skipped (item ++ gap) rest

end Gatework.Hdl

------------------------------------------------------------
-- Pieces that are no tokens
------------------------------------------------------------

namespace Gatework.Hdl

variable {c : Char}
variable {cs : List Char}

theorem endsLine_dropWhile
    (cs : List Char) :
    EndsLine (cs.dropWhile staysInLine) := by
  intro c hc
  have hStops := List.head?_dropWhile_not staysInLine cs
  rw [Option.mem_def.mp hc] at hStops
  simpa [staysInLine] using hStops

theorem not_mem_takeWhile_staysInLine
    (cs : List Char) :
    '\n' ∉ cs.takeWhile staysInLine := by
  intro hMem
  have hStays := mem_takeWhile hMem
  cases hStays

/- The mark that closes a comment may start at its front. -/
theorem unclosed_cons
    (hFront : ¬ ['*', '/'] <+: c :: cs)
    (hRest : Unclosed cs) :
    Unclosed (c :: cs) := by
  intro hInfix
  rcases List.infix_cons_iff.mp hInfix with hHere | hLater
  · exact hFront hHere
  · exact hRest hLater

/-
  A block comment goes on to the first mark that closes it,
  or to the end of the text.
-/
theorem commentRest_spec
    (cs : List Char) :
    (commentRest cs = (cs.length, false) ∧ Unclosed cs) ∨
      ∃ body rest, cs = body ++ '*' :: '/' :: rest ∧
        commentRest cs = (body.length + 2, true) ∧
        Unclosed (body ++ ['*']) := by
  fun_induction commentRest cs with
  | case1 => exact .inl ⟨rfl, by simp [Unclosed]⟩
  | case2 rest =>
      exact .inr ⟨[], rest, rfl, rfl, by simp [Unclosed, List.infix_cons_iff]⟩
  | case3 c cs hOpen rest ih =>
      have hFront : ∀ us, us <+: c :: cs → ¬ ['*', '/'] <+: us := by
        rintro us hus hMark
        rcases hMark.trans hus with ⟨vs, hvs⟩
        cases hvs
        exact hOpen _ rfl rfl
      rcases ih with ⟨hLength, hNone⟩ |
        ⟨body, others, rfl, hLength, hNone⟩
      · refine .inl ⟨?_, unclosed_cons (hFront _ List.prefix_rfl) hNone⟩
        simp only [rest, hLength, List.length_cons]
      · refine .inr ⟨c :: body, others, rfl, ?_, ?_⟩
        · simp only [rest, hLength, List.length_cons]
        · apply unclosed_cons _ hNone
          apply hFront
          exact ⟨'/' :: others, by simp⟩

theorem skippable_line
    (rest : List Char) :
    Skippable
      ('/' :: '/' :: rest.takeWhile staysInLine)
      (rest.dropWhile staysInLine) :=
  .line (not_mem_takeWhile_staysInLine rest) (endsLine_dropWhile rest)

/- A block comment behind its opening mark. -/
theorem skippable_block
    (rest : List Char) :
    Skippable
      ('/' :: '*' :: rest.take (commentRest rest).1)
      (rest.drop (commentRest rest).1) := by
  rcases commentRest_spec rest with
    ⟨hLength, hNone⟩ | ⟨body, others, rfl, hLength, hFirst⟩
  · rw [hLength, List.take_length, List.drop_length]
    exact .unfinished hNone
  · have hSplit : body ++ '*' :: '/' :: others =
        (body ++ ['*', '/']) ++ others := by
      simp
    have hCount : body.length + 2 = (body ++ ['*', '/']).length := by
      simp
    rw [hLength, hSplit, hCount, List.take_left, List.drop_left]
    exact .block hFirst

/- A piece is passed over, or it is a token. -/
theorem first_cases
    (c : Char)
    (cs : List Char) :
    Skippable
      (c :: cs.take (Piece.first c cs).extra)
      (cs.drop (Piece.first c cs).extra) ∨
    ∃ kind, (Piece.first c cs).kind = .token kind := by
  unfold Piece.first
  split
  case isTrue hBlank =>
      left
      dsimp only
      rw [take_countWhile, drop_countWhile]
      exact .blanks (List.forall_mem_cons.mpr
        ⟨hBlank, fun _ => mem_takeWhile⟩)
  split
  case isTrue hLine =>
      left
      rcases hLine with ⟨rfl, hHead⟩
      rcases List.head?_eq_some_iff.mp hHead with ⟨rest, rfl⟩
      dsimp only
      rw [take_countWhile, drop_countWhile]
      exact skippable_line rest
  split
  case isTrue hBlock =>
      left
      rcases hBlock with ⟨rfl, hHead⟩
      rcases List.head?_eq_some_iff.mp hHead with ⟨rest, rfl⟩
      exact skippable_block rest
  split
  case isTrue hDirective =>
      left
      rw [hDirective]
      dsimp only
      rw [take_countWhile, drop_countWhile]
      exact .directive (not_mem_takeWhile_staysInLine cs)
        (endsLine_dropWhile cs)
  case isFalse => exact .inr (plainIn_token c cs).isToken

end Gatework.Hdl

------------------------------------------------------------
-- Tiles
------------------------------------------------------------

namespace Gatework.Hdl

/-
  Tokens that tile a text behind some other text of its file.
  In front of each one there is only skipped text, and the
  last one stands at the end.
-/
inductive Tiles
    (file : Option Nat) :
    List Char → List Char → List Token → Prop where
  | last {front gap} :
      Skipped gap [] →
      Tiles file front gap
        [⟨.endOfFile, "", ⟨file, byteLength (front ++ gap),
          byteLength (front ++ gap)⟩⟩]
  | next {front gap body rest kind tokens} :
      Skipped gap (body ++ rest) →
      body ≠ [] →
      kind ≠ .endOfFile →
      Tiles file (front ++ gap ++ body) rest tokens →
      Tiles file front (gap ++ (body ++ rest))
        (⟨kind, String.ofList body,
          ⟨file, byteLength (front ++ gap),
            byteLength (front ++ gap ++ body)⟩⟩ :: tokens)

variable {file : Option Nat}
variable {front cs : List Char}
variable {tokens : List Token}

/- Skipped text in front belongs to the first gap. -/
theorem Tiles.skip
    {item : List Char}
    (hItem : Skippable item cs)
    (hTiles : Tiles file (front ++ item) cs tokens) :
    Tiles file front (item ++ cs) tokens := by
  cases hTiles with
  | last hGap =>
      rw [List.append_assoc]
      apply Tiles.last
      apply Skipped.cons _ hGap
      rwa [List.append_nil]
  | @next _ gap body rest _ _ hGap hBody hKind hRest =>
      rw [List.append_assoc front item gap] at hRest ⊢
      rw [← List.append_assoc item]
      exact .next (.cons hItem hGap) hBody hKind hRest

theorem kind_ne_endOfFile
    {c : Char}
    {kind : TokenKind}
    (hKind : (Piece.first c cs).kind = .token kind) :
    kind ≠ .endOfFile := by
  rintro rfl
  have hRead := tokenText_of_first hKind
  cases hRead

/- The tokens of pieces tile the text that was cut. -/
theorem tiles_tokensAt
    (file : Option Nat)
    (front cs : List Char) :
    Tiles file front cs
      (tokensAt file (byteLength front) (pieces cs)).tokens := by
  fun_induction pieces cs generalizing front with
  | case1 =>
      have hLast := @Tiles.last file front [] .nil
      rwa [List.append_nil] at hLast
  | case2 c cs piece ih =>
      have hCut : c :: cs = (c :: cs.take piece.extra) ++
          cs.drop piece.extra := by
        rw [List.cons_append, List.take_append_drop]
      have hLater := ih (front ++ c :: cs.take piece.extra)
      rw [byteLength_append] at hLater
      rw [tokensAt, Piece.token?]
      cases hKind : piece.kind with
      | token kind =>
          have hToken := @Tiles.next file front [] _ _ _ _ .nil
            (List.cons_ne_nil c (cs.take piece.extra))
            (kind_ne_endOfFile hKind)
            ((List.append_nil front).symm ▸ hLater)
          rw [hCut]
          rwa [List.append_nil, byteLength_append] at hToken
      | _ =>
          rw [hCut]
          apply Tiles.skip _ hLater
          rcases first_cases c cs with hSkip | ⟨kind, hToken⟩
          · exact hSkip
          · have hSame := hToken.symm.trans hKind
            cases hSame

end Gatework.Hdl

------------------------------------------------------------
-- Places of tiles
------------------------------------------------------------

namespace Gatework.Hdl

variable {file : Option Nat}
variable {front cs : List Char}
variable {tokens : List Token}

/-
  The text between two offsets is passed over, with what
  follows it in view.
-/
def SkippedBetween
    (cs : List Char)
    (start stop : Nat) :
    Prop :=
  ∃ us gap vs, cs = us ++ (gap ++ vs) ∧ byteLength us = start ∧
    byteLength (us ++ gap) = stop ∧ Skipped gap vs

/- What lies between tokens and in front of the first one. -/
def gaps : Nat → List Token → List (Nat × Nat)
  | _, [] => []
  | start, t :: ts => (start, t.span.start) :: gaps t.span.stop ts

/- Only the last token is empty, at the end of the text. -/
theorem Tiles.ends
    (hTiles : Tiles file front cs tokens) :
    ∃ ts, tokens = ts ++ [⟨.endOfFile, "",
        ⟨file, byteLength (front ++ cs),
          byteLength (front ++ cs)⟩⟩] ∧
      ∀ t ∈ ts, t.kind ≠ .endOfFile ∧
        t.span.start < t.span.stop := by
  induction hTiles with
  | last => exact ⟨[], rfl, nofun⟩
  | @next front gap body rest _ _ _ hBody hKind _ ih =>
      rcases ih with ⟨ts, rfl, hAll⟩
      have hNonempty : byteLength (front ++ gap) <
          byteLength (front ++ gap ++ body) := by
        rw [byteLength_append (front ++ gap)]
        exact Nat.lt_add_of_pos_right (byteLength_pos hBody)
      rw [← List.append_assoc gap, ← List.append_assoc front,
        ← List.append_assoc front]
      exact ⟨_ :: ts, rfl,
        List.forall_mem_cons.mpr ⟨⟨hKind, hNonempty⟩, hAll⟩⟩

/- A token stands between two characters of its text. -/
theorem Tiles.place
    (hTiles : Tiles file front cs tokens) :
    ∀ t ∈ tokens, t.span.file = file ∧
      ∃ us body vs, front ++ cs = us ++ (body ++ vs) ∧
        t.span.start = byteLength us ∧
        t.span.stop = byteLength (us ++ body) := by
  induction hTiles with
  | @last front gap hGap =>
      rw [List.forall_mem_singleton]
      refine ⟨rfl, front ++ gap, [], [], ?_, rfl, ?_⟩
      · simp
      · simp
  | @next front gap body rest _ _ _ _ _ _ ih =>
      refine List.forall_mem_cons.mpr ⟨⟨rfl, ?_⟩, ?_⟩
      · exact ⟨front ++ gap, body, rest, by simp, rfl, rfl⟩
      · simpa only [List.append_assoc] using ih

theorem Tiles.skippedBetween
    (hTiles : Tiles file front cs tokens) :
    ∀ gap ∈ gaps (byteLength front) tokens,
      SkippedBetween (front ++ cs) gap.1 gap.2 := by
  induction hTiles with
  | @last front gap hGap =>
      rw [gaps, gaps, List.forall_mem_singleton]
      exact ⟨front, gap, [], by simp, rfl, rfl, hGap⟩
  | @next front gap body rest _ _ hGap _ _ _ ih =>
      rw [gaps, List.forall_mem_cons]
      refine ⟨?_, ?_⟩
      · exact ⟨front, gap, body ++ rest, rfl, rfl, rfl, hGap⟩
      · simpa only [List.append_assoc] using ih

end Gatework.Hdl

------------------------------------------------------------
-- Reports
------------------------------------------------------------

namespace Gatework

theorem byteLength_take_lt
    {n : Nat}
    {cs : List Char}
    (hn : n < cs.length) :
    byteLength (cs.take n) < byteLength cs := by
  have hRest : cs.drop n ≠ [] := by
    rw [Ne, List.drop_eq_nil_iff]
    exact Nat.not_le.mpr hn
  calc byteLength (cs.take n)
      < byteLength (cs.take n) + byteLength (cs.drop n) :=
        Nat.lt_add_of_pos_right (byteLength_pos hRest)
    _ = byteLength cs := by
        rw [← byteLength_append, List.take_append_drop]

end Gatework

namespace Gatework.Hdl

variable {file : Option Nat}

/- An error of the lexer about some of the text of a token. -/
def Token.ReportedBy
    (t : Token)
    (d : Diagnostic) :
    Prop :=
  d.severity = .error ∧ d.code = ⟨.error, 100⟩ ∧
    d.span.Within t.span ∧ d.span.start < d.span.stop

/- What is reported of an invalid piece lies inside it. -/
theorem reportedBy_of_first
    {c : Char}
    {cs : List Char}
    (hKind : (Piece.first c cs).kind = .token .invalid)
    (word : String)
    (offset : Nat) :
    let text := c :: cs.take (Piece.first c cs).extra
    let span : Span := ⟨file, offset, offset + byteLength text⟩
    ∃ d, (Piece.first c cs).problem? text span = some d ∧
      Token.ReportedBy ⟨.invalid, word, span⟩ d := by
  intro text span
  have hPlain := (plainIn_or_skip_eq_zero c cs).resolve_right
    fun hOther => hOther.1 _ hKind
  rcases Option.isSome_iff_exists.mp (hPlain.flawed hKind) with
    ⟨flaw, hFlaw⟩
  have hSkip := hPlain.skip flaw hFlaw
  have hInside : flaw.skip < text.length := by
    rw [List.length_cons, List.length_take,
      Nat.min_eq_left hPlain.plain.inside]
    exact Nat.lt_succ_of_le hSkip
  have hPlace := byteLength_take_lt hInside
  have hToken : (Piece.first c cs).kind ≠ .directive := by
    rw [hKind]
    exact nofun
  refine ⟨_, by rw [Piece.problem?, hFlaw, Option.map_some,
    if_neg hToken], rfl, rfl, ⟨rfl, Nat.le_add_right _ _, ?_⟩, ?_⟩
  · exact Nat.le_refl _
  · exact Nat.add_lt_add_left hPlace offset

/- With every invalid token an error inside it is found. -/
theorem exists_reportedBy
    (file : Option Nat)
    (offset : Nat)
    (cs : List Char) :
    ∀ t ∈ (tokensAt file offset (pieces cs)).tokens,
      t.kind = .invalid →
        ∃ d ∈ (tokensAt file offset (pieces cs)).problems,
          t.ReportedBy d := by
  fun_induction pieces cs generalizing offset with
  | case1 =>
      intro t ht hKind
      cases List.mem_singleton.mp ht
      cases hKind
  | case2 c cs piece ih =>
      intro t ht hKind
      rw [tokensAt, List.mem_append] at ht
      rw [tokensAt]
      rcases ht with ht | ht
      · rw [Option.mem_toList, Piece.token?] at ht
        split at ht
        case h_2 => cases ht
        case h_1 kind hPiece =>
            cases ht
            cases hKind
            rcases reportedBy_of_first hPiece _ offset with
              ⟨d, hd, hReported⟩
            exact ⟨d, List.mem_append_left _
              (Option.mem_toList.mpr hd), hReported⟩
      · rcases ih _ t ht hKind with ⟨d, hd, hReported⟩
        exact ⟨d, List.mem_append_right _ hd, hReported⟩

end Gatework.Hdl

------------------------------------------------------------
-- Tokens of a text
------------------------------------------------------------

namespace Gatework.Hdl

theorem tiles_lex
    (file : Option Nat)
    (text : String) :
    Tiles file [] text.toList (lex file text).tokens :=
  tiles_tokensAt file [] text.toList

/-
  The tokens of a text are those of its bytes. They stand one
  behind the other, on boundaries of characters and below any
  bound on its size. All of them take at least one byte but
  the last one, which marks the end. What lies in front of a
  token, up to the one before it, is blanks, comments and
  directive lines; and with each invalid token an error inside
  it is reported.
-/
theorem lex_tiles
    (file : Option Nat)
    {text : String}
    (hSize : text.utf8ByteSize < 2 ^ 32) :
    lexBytes file text.toByteArray.data.toList = lex file text ∧
      (∃ ts, (lex file text).tokens =
        ts ++ [⟨.endOfFile, "",
          ⟨file, text.utf8ByteSize, text.utf8ByteSize⟩⟩] ∧
      ∀ t ∈ ts, t.kind ≠ .endOfFile ∧
        t.span.start < t.span.stop) ∧
      (lex file text).tokens.Pairwise Token.Before ∧
      (∀ t ∈ (lex file text).tokens, t.span.file = file ∧
        t.span.stop < 2 ^ 32 ∧
        OnBoundary text t.span.start ∧
        OnBoundary text t.span.stop) ∧
      (∀ gap ∈ gaps 0 (lex file text).tokens,
        SkippedBetween text.toList gap.1 gap.2) ∧
      ∀ t ∈ (lex file text).tokens, t.kind = .invalid →
        ∃ d ∈ (lex file text).problems, t.ReportedBy d := by
  have hTiles := tiles_lex file text
  refine ⟨lexBytes_eq file text, ?_, pairwise_tokensAt file 0 _, ?_,
    hTiles.skippedBetween, exists_reportedBy file 0 _⟩
  · rw [utf8ByteSize_eq]
    exact hTiles.ends
  · intro t ht
    rcases hTiles.place t ht with
      ⟨hFile, us, body, vs, hText, hStart, hStop⟩
    have hWhole : text = String.ofList (us ++ (body ++ vs)) := by
      rw [← hText, List.nil_append, String.ofList_toList]
    have hBounds : byteLength (us ++ body) ≤ text.utf8ByteSize := by
      rw [hWhole, utf8ByteSize_ofList, ← List.append_assoc,
        byteLength_append (us ++ body)]
      exact Nat.le_add_right _ _
    refine ⟨hFile, ?_, ?_, ?_⟩
    · rw [hStop]
      exact Nat.lt_of_le_of_lt hBounds hSize
    · rw [hStart, hWhole]
      exact onBoundary_byteLength us _
    · rw [hStop, hWhole, ← List.append_assoc]
      exact onBoundary_byteLength (us ++ body) vs

end Gatework.Hdl

namespace Gatework.Hdl

/- A comment and a stray letter of two bytes, and a bad digit. -/
def strayText : String :=
  "a // é\n\x60b\né 2'b12"

theorem lex_tiles_strayText :
    strayText.utf8ByteSize < 2 ^ 32 ∧
      (lex none strayText).tokens =
        [⟨.identifier, "a", ⟨none, 0, 1⟩⟩,
          ⟨.invalid, "é", ⟨none, 11, 13⟩⟩,
          ⟨.invalid, "2'b12", ⟨none, 14, 19⟩⟩,
          ⟨.endOfFile, "", ⟨none, 19, 19⟩⟩] ∧
      lexBytes none strayText.toByteArray.data.toList =
        lex none strayText ∧
      OnBoundary strayText 13 ∧
      SkippedBetween strayText.toList 1 11 ∧
      ∃ d ∈ (lex none strayText).problems,
        Token.ReportedBy
          ⟨.invalid, "2'b12", ⟨none, 14, 19⟩⟩ d := by
  have hSize : strayText.utf8ByteSize < 2 ^ 32 := by
    decide +kernel
  have hTokens : (lex none strayText).tokens =
      [⟨.identifier, "a", ⟨none, 0, 1⟩⟩,
        ⟨.invalid, "é", ⟨none, 11, 13⟩⟩,
        ⟨.invalid, "2'b12", ⟨none, 14, 19⟩⟩,
        ⟨.endOfFile, "", ⟨none, 19, 19⟩⟩] := by
    decide +kernel
  have hTiles := lex_tiles none hSize
  rw [hTokens] at hTiles
  rcases hTiles with ⟨hBytes, _, _, hPlaces, hGaps, hReported⟩
  refine ⟨hSize, hTokens, hBytes, ?_, ?_, ?_⟩
  · exact (hPlaces ⟨.invalid, "é", ⟨none, 11, 13⟩⟩
      (by decide)).2.2.2
  · exact hGaps (1, 11) (by decide)
  · exact hReported _ (by decide) rfl

end Gatework.Hdl
