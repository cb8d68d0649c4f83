import Gatework.Proofs.Hdl.BuiltTree
import Gatework.Proofs.Hdl.Finishes

/-
  What is reported of a source that is not read in full.

  The lexer and the parser report errors under one code each,
  and every error that counts is among the findings. So where
  the tree has a placeholder, one of the two codes is found.

  Key definitions include:
    * `Findings.Syntactic`

  Key theorems include:
    * `Hdl.Cursor.Leads.syntactic`
    * `Hdl.reported_or_clean`
-/

------------------------------------------------------------
-- Findings
------------------------------------------------------------

namespace Gatework

/- The codes of the lexer and of the parser. -/
def syntaxCodes : List Code :=
  [⟨.error, 100⟩, ⟨.error, 101⟩]

/- An error of the lexer or of the parser. -/
def Diagnostic.IsSyntaxError
    (d : Diagnostic) :
    Prop :=
  d.isError = true ∧ d.code ∈ syntaxCodes

namespace Findings

/- All errors are of the two codes, and one is there if any. -/
structure Syntactic
    (f : Findings) :
    Prop where
  codes : ∀ d ∈ f.entries, d.isError = true → d.IsSyntaxError
  counted : f.hasErrors = true →
    ∃ d ∈ f.entries, d.isError = true

theorem syntactic_empty :
    Syntactic {} :=
  ⟨nofun, nofun⟩

theorem Syntactic.report
    {f : Findings}
    (hf : f.Syntactic)
    {d : Diagnostic}
    (hd : d.isError = true → d.IsSyntaxError) :
    (f.report d).Syntactic where
  codes := by
    intro e he
    rcases List.mem_append.mp he with he | he
    · exact hf.codes e he
    · rw [List.mem_singleton.mp he]
      exact hd
  counted := by
    intro hErrors
    cases hError : d.isError with
    | true =>
        exact ⟨d, List.mem_append_right _
          (List.mem_singleton_self d), hError⟩
    | false =>
        have hBefore : f.hasErrors = true := by
          simpa [Findings.report, hasErrors, hError] using hErrors
        rcases hf.counted hBefore with ⟨e, he, heError⟩
        exact ⟨e, List.mem_append_left _ he, heError⟩

theorem Syntactic.foldl
    {f : Findings}
    (hf : f.Syntactic)
    {ds : List Diagnostic}
    (hds : ∀ d ∈ ds, d.isError = true → d.IsSyntaxError) :
    (ds.foldl Findings.report f).Syntactic := by
  induction ds generalizing f with
  | nil => exact hf
  | cons d ds ih =>
      rw [List.forall_mem_cons] at hds
      exact ih (hf.report hds.1) hds.2

end Findings

end Gatework

------------------------------------------------------------
-- Lexing and parsing
------------------------------------------------------------

namespace Gatework.Hdl

/- The lexer reports errors under its own code. -/
theorem isSyntaxError_of_mem_tokensAt
    {file : Option Nat}
    {parts : List (Piece × List Char)}
    {offset : Nat}
    {d : Diagnostic}
    (hd : d ∈ (tokensAt file offset parts).problems)
    (hError : d.isError = true) :
    d.IsSyntaxError := by
  refine ⟨hError, ?_⟩
  induction parts generalizing offset with
  | nil => cases hd
  | cons part parts ih =>
      rcases part with ⟨piece, text⟩
      rw [tokensAt, List.mem_append] at hd
      rcases hd with hd | hd
      · rw [Option.mem_toList, Piece.problem?,
          Option.map_eq_some_iff] at hd
        rcases hd with ⟨flaw, _, hSame⟩
        dsimp only at hSame
        split at hSame
        · subst hSame
          cases hError
        · subst hSame
          exact List.mem_cons_self ..
      · exact ih hd

/- The parser reports errors under its own code. -/
theorem Cursor.Leads.syntactic
    {c c' : Cursor}
    (hLeads : Leads c c')
    (hc : c.findings.Syntactic) :
    c'.findings.Syntactic := by
  induction hLeads with
  | refl => exact hc
  | tail _ hStep ih =>
      cases hStep with
      | read hRest hKind => exact ih
      | note name => exact ih
      | find message span =>
          apply ih.report
          exact fun hError =>
            ⟨hError, List.mem_cons_of_mem _ (List.mem_cons_self ..)⟩

theorem syntactic_parseFile
    (number : Nat)
    (source : SourceFile) :
    (parseFile number source).findings.Syntactic := by
  let lexed := lex (some number) source.text
  let start : Cursor :=
    { rest := lexed.tokens
      findings := lexed.problems.foldl Findings.report {} }
  have hReady := @Cursor.ready_of_closed start
    (closed_tokensAt _ _ _)
  have hLeads := (Parse.file_finishes hReady).1
  apply hLeads.syntactic
  apply Findings.syntactic_empty.foldl
  exact fun d => isSyntaxError_of_mem_tokensAt

/- A tree is clean, or an error of the source is reported. -/
theorem reported_or_clean
    (number : Nat)
    (source : SourceFile) :
    (∃ d ∈ (parseFile number source).findings.entries,
      d.IsSyntaxError) ∨
    (parseFile number source).tree.Clean := by
  have hSyntactic := syntactic_parseFile number source
  cases hErrors : (parseFile number source).findings.hasErrors with
  | true =>
      rcases hSyntactic.counted hErrors with ⟨d, hd, hError⟩
      exact .inl ⟨d, hd, hSyntactic.codes d hd hError⟩
  | false => exact .inr (built_parseFile hErrors).1

end Gatework.Hdl
