import Gatework.Hdl.Lexer
import Gatework.Hdl.Parser.Cursor

/-
  Names among tokens.

  A name is that of a token or the one that stands for a
  missing name. In a source no name is empty.

  Key definitions include:
    * `Hdl.Named`

  Key theorems include:
    * `Hdl.named_lex`
-/

------------------------------------------------------------
-- Tokens
------------------------------------------------------------

namespace Gatework.Hdl

/-
  Every name among the tokens has a property, and so has the
  one that stands for a missing name.
-/
structure Named
    (N : String → Prop)
    (tokens : List Token) :
    Prop where
  missing : N Parse.missingName
  text : ∀ t ∈ tokens, t.kind = .identifier → N t.text

theorem text_ne_of_mem_pieces
    {cs : List Char}
    {piece : Piece}
    {text : List Char}
    (hMem : (piece, text) ∈ pieces cs) :
    text ≠ [] := by
  fun_induction pieces cs with
  | case1 => cases hMem
  | case2 c cs first ih =>
      rcases List.mem_cons.mp hMem with hHead | hTail
      · rw [(Prod.mk.inj hHead).2]
        exact List.cons_ne_nil _ _
      · exact ih hTail

theorem text_ne_of_mem_tokensAt
    {file : Option Nat}
    {parts : List (Piece × List Char)}
    (hParts : ∀ part ∈ parts, part.2 ≠ [])
    (offset : Nat) :
    ∀ t ∈ (tokensAt file offset parts).tokens,
      t.kind = .identifier → t.text ≠ "" := by
  induction parts generalizing offset with
  | nil =>
      intro t ht hKind
      rw [List.mem_singleton.mp ht] at hKind
      cases hKind
  | cons part parts ih =>
      rcases part with ⟨piece, text⟩
      intro t ht hKind
      rcases List.mem_append.mp ht with hHead | hTail
      · have hToken := Option.mem_toList.mp hHead
        unfold Piece.token? at hToken
        split at hToken
        case h_1 =>
            cases hToken
            intro hEmpty
            have hText := congrArg String.toList hEmpty
            rw [String.toList_ofList] at hText
            exact hParts _ (List.mem_cons_self ..) hText
        case h_2 => cases hToken
      · exact ih (fun p hp => hParts p (List.mem_cons_of_mem _ hp))
          _ t hTail hKind

/- What is left of some tokens is named as they are. -/
theorem Named.suffix
    {N : String → Prop}
    {tokens rest : List Token}
    (hNamed : Named N tokens)
    (hSuffix : rest <:+ tokens) :
    Named N rest where
  missing := hNamed.missing
  text := fun t ht => hNamed.text t (hSuffix.subset ht)

/- Every name of a source has a text. -/
theorem named_lex
    (file : Option Nat)
    (text : String) :
    Named (· ≠ "") (lex file text).tokens where
  missing := by decide
  text := text_ne_of_mem_tokensAt
    (fun _ hp => text_ne_of_mem_pieces hp) 0

end Gatework.Hdl
