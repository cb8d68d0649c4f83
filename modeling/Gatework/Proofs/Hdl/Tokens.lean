import Gatework.Proofs.Hdl.LiteralText
import Gatework.Proofs.Source.Bytes
import Gatework.Source.File

/-
  The tokens of a text and their places.

  Tokens stand in the order of the text and do not overlap,
  and each has the text at its place. Where nothing is wrong
  with the text all of them are valid: names are spelled as
  names, and a literal alone is read as the same literal.

  Key definitions include:
    * `Hdl.Token.Before` and `Hdl.Token.Sound`
    * `Hdl.TokenStream`

  Key theorems include:
    * `sliceBytes_between`
    * `Hdl.pairwise_tokensAt` and `Hdl.text_of_mem_tokensAt`
    * `Hdl.isName_of_mem_lex`
    * `Hdl.TokenStream.ofLex`
-/

------------------------------------------------------------
-- Slices of a text
------------------------------------------------------------

namespace Gatework

/- The text between what is before it and what is behind it. -/
theorem sliceBytes_between
    (us vs ws : List Char) :
    sliceBytes (byteLength us) (byteLength us + byteLength vs)
      (String.ofList (us ++ (vs ++ ws))) = String.ofList vs := by
  have hSize : byteLength (us ++ (vs ++ ws)) =
      byteLength us + (byteLength vs + byteLength ws) := by
    rw [byteLength_append, byteLength_append]
  have hFrom : min (byteLength us)
      (byteLength us + (byteLength vs + byteLength ws)) =
        byteLength us := by
    omega
  have hTo : min (max (byteLength us + byteLength vs)
      (byteLength us))
        (byteLength us + (byteLength vs + byteLength ws)) -
          byteLength us = byteLength vs := by
    omega
  rw [sliceBytes, String.toList_ofList]
  simp only [hSize, hFrom, hTo, splitBytes?_append]

end Gatework

------------------------------------------------------------
-- Places of tokens
------------------------------------------------------------

namespace Gatework.Hdl

variable {file : Option Nat}
variable {t : Token}

/- Tokens lie in their file, behind the offset of the first. -/
theorem place_of_mem_tokensAt
    {parts : List (Piece × List Char)}
    {offset : Nat}
    (ht : t ∈ (tokensAt file offset parts).tokens) :
    t.span.file = file ∧ offset ≤ t.span.start ∧
      t.span.start ≤ t.span.stop := by
  induction parts generalizing offset with
  | nil =>
      cases List.mem_singleton.mp ht
      exact ⟨rfl, Nat.le_refl _, Nat.le_refl _⟩
  | cons part parts ih =>
      rcases part with ⟨piece, text⟩
      rw [tokensAt, List.mem_append] at ht
      rcases ht with ht | ht
      · rw [Option.mem_toList, Piece.token?] at ht
        split at ht
        · cases ht
          exact ⟨rfl, Nat.le_refl _, Nat.le_add_right _ _⟩
        · cases ht
      · rcases ih ht with ⟨hFile, hStart, hStop⟩
        exact ⟨hFile, Nat.le_trans (Nat.le_add_right _ _) hStart,
          hStop⟩

/- A token lies in the same file as another, and before it. -/
def Token.Before
    (a b : Token) :
    Prop :=
  a.span.file = b.span.file ∧ a.span.stop ≤ b.span.start

theorem pairwise_tokensAt
    (file : Option Nat)
    (offset : Nat)
    (parts : List (Piece × List Char)) :
    (tokensAt file offset parts).tokens.Pairwise Token.Before := by
  induction parts generalizing offset with
  | nil => exact List.pairwise_singleton _ _
  | cons part parts ih =>
      rcases part with ⟨piece, text⟩
      rw [tokensAt, List.pairwise_append]
      refine ⟨?_, ih _, ?_⟩
      · cases piece.token? text _ with
        | none => exact List.Pairwise.nil
        | some t => exact List.pairwise_singleton _ _
      · intro a ha b hb
        rcases place_of_mem_tokensAt hb with ⟨hFile, hStart, _⟩
        rw [Option.mem_toList, Piece.token?] at ha
        split at ha
        · cases ha
          exact ⟨hFile.symm, hStart⟩
        · cases ha

/- The text at the place of a token is its own. -/
theorem text_of_mem_tokensAt
    {parts : List (Piece × List Char)}
    (front : List Char)
    (ht : t ∈ (tokensAt file (byteLength front) parts).tokens) :
    sliceBytes t.span.start t.span.stop
      (String.ofList (front ++ (parts.map Prod.snd).flatten)) =
        t.text := by
  induction parts generalizing front with
  | nil =>
      cases List.mem_singleton.mp ht
      exact sliceBytes_between front [] []
  | cons part parts ih =>
      rcases part with ⟨piece, text⟩
      rw [tokensAt, List.mem_append] at ht
      rw [List.map_cons, List.flatten_cons]
      rcases ht with ht | ht
      · rw [Option.mem_toList, Piece.token?] at ht
        split at ht
        · cases ht
          exact sliceBytes_between front text _
        · cases ht
      · rw [← byteLength_append] at ht
        have hText := ih (front ++ text) ht
        rwa [List.append_assoc] at hText

/- A token is a piece of the text or the end of the file. -/
theorem piece_of_mem_tokensAt
    {parts : List (Piece × List Char)}
    {offset : Nat}
    (ht : t ∈ (tokensAt file offset parts).tokens) :
    t.word = .stop ∨
      ∃ part ∈ parts, wordOf? part = some t.word := by
  have hWord : t.word ∈ parts.filterMap wordOf? ++ [.stop] := by
    rw [← words_tokensAt file parts offset]
    exact List.mem_map_of_mem ht
  rcases List.mem_append.mp hWord with hWord | hWord
  · exact .inr (List.mem_filterMap.mp hWord)
  · exact .inl (List.mem_singleton.mp hWord)

/- What is wrong with an invalid piece is an error. -/
theorem problem?_of_invalid
    {piece : Piece}
    (hKind : piece.kind = .token .invalid)
    (hFlaw : piece.flaw ≠ none)
    (text : List Char)
    (span : Span) :
    ∃ d, piece.problem? text span = some d ∧ d.isError = true := by
  rcases Option.ne_none_iff_exists'.mp hFlaw with ⟨flaw, hFlaw⟩
  rw [Piece.problem?, hFlaw, Option.map_some, hKind]
  exact ⟨_, rfl, rfl⟩

/- Where there is an invalid piece an error is reported. -/
theorem exists_error
    {parts : List (Piece × List Char)}
    {part : Piece × List Char}
    (hPart : part ∈ parts)
    (hKind : part.1.kind = .token .invalid)
    (hFlaw : part.1.flaw ≠ none)
    (offset : Nat) :
    ∃ d ∈ (tokensAt file offset parts).problems,
      d.isError = true := by
  induction parts generalizing offset with
  | nil => cases hPart
  | cons other parts ih =>
      rcases other with ⟨piece, text⟩
      rcases List.mem_cons.mp hPart with rfl | hPart
      · rcases problem?_of_invalid hKind hFlaw text
          ⟨file, offset, offset + byteLength text⟩ with
          ⟨d, hd, hError⟩
        exact ⟨d, List.mem_append_left _ (Option.mem_toList.mpr hd),
          hError⟩
      · rcases ih hPart (offset + byteLength text) with
          ⟨d, hd, hError⟩
        exact ⟨d, List.mem_append_right _ hd, hError⟩

end Gatework.Hdl

------------------------------------------------------------
-- Sound tokens
------------------------------------------------------------

namespace Gatework.Hdl

variable {file : Option Nat}
variable {text : String}
variable {t : Token}

/-
  A token of a text: it is valid, its text stands at its
  place, and names and literals are spelled as such.
-/
structure Token.Sound
    (text : String)
    (t : Token) :
    Prop where
  start_le_stop : t.span.start ≤ t.span.stop
  text_eq : sliceBytes t.span.start t.span.stop text = t.text
  valid : t.kind ≠ .invalid
  isName : t.kind = .identifier → isName t.text = true
  isLiteral : ∀ kind,
    t.kind = .literal kind → IsLiteral kind t.text

/- The tokens of a text with which nothing is wrong. -/
structure TokenStream (text : String) where
  tokens : List Token
  inOrder : tokens.Pairwise Token.Before
  sound : ∀ t ∈ tokens, t.Sound text

/- A token is the end of the file or a piece with its text. -/
theorem tokenText_of_mem_lex
    (ht : t ∈ (lex file text).tokens) :
    t.kind = .endOfFile ∨
      ∃ part ∈ pieces text.toList,
        part.1.kind = .token t.kind ∧
        t.text = String.ofList part.2 ∧
        TokenText part.1 part.2 t.kind := by
  rcases piece_of_mem_tokensAt ht with
    hStop | ⟨⟨piece, cs⟩, hPart, hWord⟩
  · exact .inl (congrArg Word.kind hStop)
  · rcases of_mem_pieces hPart with ⟨c, rest, hFirst, hFront⟩
    unfold wordOf? at hWord
    split at hWord
    case h_2 => cases hWord
    case h_1 kind hKind =>
        dsimp only at hFirst hFront hKind hWord
        subst hFirst
        have hRead := tokenText_of_first hKind
        rw [← hFront] at hRead
        have hSame := Option.some.inj hWord
        have hTokenKind : t.kind = kind :=
          (congrArg Word.kind hSame).symm
        have hTokenText : t.text = String.ofList cs :=
          (congrArg Word.text hSame).symm
        subst hTokenKind
        exact .inr ⟨_, hPart, hKind, hTokenText, hRead⟩

/- A name is spelled as one, whatever else is wrong. -/
theorem isName_of_mem_lex
    (ht : t ∈ (lex file text).tokens)
    (hKind : t.kind = .identifier) :
    isName t.text = true := by
  rcases tokenText_of_mem_lex ht with
    hStop | ⟨part, _, _, hText, hRead⟩
  · rw [hKind] at hStop
    cases hStop
  · rw [hKind] at hRead
    rw [hText]
    cases hRead with
    | name hName => exact hName

/- Where no error is found all tokens are sound. -/
theorem sound_of_mem_lex
    (hClean : ∀ d ∈ (lex file text).problems, d.isError = false)
    (ht : t ∈ (lex file text).tokens) :
    t.Sound text := by
  have hText := text_of_mem_tokensAt [] ht
  rw [List.nil_append, text_pieces, String.ofList_toList] at hText
  have hPlace := (place_of_mem_tokensAt ht).2.2
  have hName := isName_of_mem_lex ht
  rcases tokenText_of_mem_lex ht with
    hKind | ⟨part, hPart, hKind, hTokenText, hRead⟩
  · constructor
    case start_le_stop => exact hPlace
    case text_eq => exact hText
    case isName => exact hName
    all_goals
      rw [hKind]
      exact nofun
  · constructor
    case start_le_stop => exact hPlace
    case text_eq => exact hText
    case isName => exact hName
    case valid =>
        intro hInvalid
        rw [hInvalid] at hKind hRead
        cases hRead with
        | invalid hFlaw =>
            rcases exists_error hPart hKind hFlaw 0 with
              ⟨d, hd, hError⟩
            rw [hClean d hd] at hError
            cases hError
    case isLiteral =>
        intro form hForm
        rw [hForm] at hRead
        rw [hTokenText]
        cases hRead with
        | literal hLiteral =>
            apply LiteralText.isLiteral
            rwa [String.toList_ofList]

/- The tokens of a text without errors. -/
def TokenStream.ofLex
    (file : Option Nat)
    (text : String)
    (hClean : ∀ d ∈ (lex file text).problems, d.isError = false) :
    TokenStream text where
  tokens := (lex file text).tokens
  inOrder := pairwise_tokensAt file 0 _
  sound := fun _ => sound_of_mem_lex hClean

end Gatework.Hdl
