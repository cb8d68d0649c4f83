import Gatework.Proofs.Hdl.Reported
import Gatework.Proofs.Lowering.Composed

/-
  Placeholders are never lowered.

  Three branches of the lowering refuse what stands in for
  source that could not be read. On a clean tree none of them
  is taken, whatever else is wrong with the source.

  Key definitions include:
    * `Lower.Spares`

  Key theorems include:
    * `Lower.Composed.spares`
    * `not_isMalformed_lowerParsed`
    * `placeholders_reported`
-/

------------------------------------------------------------
-- Steps
------------------------------------------------------------

namespace Gatework

namespace Lower

variable {α β : Type}

/- No error is that of a placeholder. -/
def Spares
    (m : Lower α) :
    Prop :=
  ∀ s p e p', m s p = (.error e, p') → e.isMalformed = false

/- A computation without an error has nothing to spare. -/
theorem spares_pure
    (a : α) :
    Spares (pure a) := by
  rintro s p e p' ⟨⟩

/- Only the failing step is asked what its error is. -/
theorem spares_fail
    {e : LowerError}
    (he : e.isMalformed = false) :
    Spares (fail e : Lower α) := by
  rintro s p _ p' ⟨⟩
  exact he

/- An error of two steps is that of the one which ran last. -/
theorem Spares.bind
    {m : Lower α}
    {f : α → Lower β}
    (hm : Spares m)
    (hf : ∀ a, Spares (f a)) :
    Spares (m >>= f) := by
  intro s p e p' hRun
  rw [bind_apply] at hRun
  cases hFirst : m s p with
  | mk result p₁ =>
      rw [hFirst] at hRun
      cases result with
      | error e' =>
          -- The second step is not run.
          cases hRun
          exact hm s p e p' hFirst
      | ok a => exact hf a s p₁ e p' hRun

theorem spares_read :
    Spares (read : Lower Setting) := by
  rintro s p e p' ⟨⟩

theorem spares_get :
    Spares (get : Lower Progress) := by
  rintro s p e p' ⟨⟩

theorem spares_modify
    (f : Progress → Progress) :
    Spares (modify f : Lower Unit) := by
  rintro s p e p' ⟨⟩

/- What is only reported is no error. -/
theorem spares_warn
    (d : Diagnostic) :
    Spares (warn d) :=
  (spares_modify _).bind fun _ => spares_modify _

theorem spares_textOf
    (span : Span) :
    Spares (textOf span) :=
  spares_read.bind fun _ => spares_pure _

theorem spares_stamping
    (m : Stamping α) :
    Spares (stamping m) := by
  rintro s p e p' ⟨⟩

/-
  An undeclared name is refused under strict names, or else
  it is declared: neither is about a placeholder.
-/
theorem spares_lookup
    (name : String)
    (span : Span) :
    Spares (lookup name span) := by
  apply spares_get.bind
  intro p
  split
  · exact spares_pure _
  · apply spares_read.bind
    intro setting
    split
    · exact spares_fail rfl
    · apply Spares.bind _ fun _ => spares_pure _
      apply spares_get.bind
      intro p'
      dsimp only
      split
      · exact spares_pure _
      · exact (spares_modify _).bind fun _ => spares_warn _

/-
  The flaw of a literal is told by its text, which the
  lexer took from the source.
-/
theorem spares_literal
    (kind : Hdl.LiteralKind)
    (text : String)
    (span : Span) :
    Spares (literal kind text span) := by
  apply spares_read.bind
  intro setting
  split
  case h_1 flaw _ =>
      exact spares_fail
        (LowerError.not_isMalformed_ofLiteral text span flaw)
  case h_2 l _ =>
      dsimp only
      split
      · exact (spares_modify _).bind fun _ => spares_pure _
      · exact spares_pure _

/- A name that is declared twice is an error of its own. -/
theorem spares_declare
    (v : Var)
    (range : Option (Nat × Nat))
    (span : Span) :
    Spares (declare v range span) := by
  apply spares_get.bind
  intro p
  dsimp only
  split
  · exact spares_fail rfl
  · exact spares_modify _

/-
  What is put together for a clean tree refuses no
  placeholder, since none of its steps does.
-/
theorem Composed.spares
    {clean : Prop}
    {rs : List Hdl.RawLiteral}
    {m : Lower α}
    (hm : Composed clean rs m)
    (hClean : clean) :
    Spares m := by
  induction hm with
  | pure a => exact spares_pure a
  | fail he => exact spares_fail (he hClean)
  | bind _ _ hm hf => exact hm.bind hf
  | lookup name span => exact spares_lookup name span
  | literal kind text span => exact spares_literal kind text span
  | fallback _ hf => exact spares_read.bind fun _ => hf _
  | declare v range span => exact spares_declare v range span
  | fresh => exact spares_modify _
  | get => exact spares_get
  | textOf span => exact spares_textOf span
  | warn d => exact spares_warn d
  | stamping m => exact spares_stamping m

end Lower

end Gatework

------------------------------------------------------------
-- Sources
------------------------------------------------------------

namespace Gatework

/-
  What is lowered are the modules of a file, and in a clean
  file no item is anything else.
-/
theorem Hdl.File.Clean.modules
    {f : Hdl.File}
    (hf : f.Clean)
    {decl : Hdl.ModuleDecl}
    (hDecl : decl ∈ f.modules) :
    decl.Clean := by
  rcases List.mem_filterMap.mp hDecl with ⟨item, hItem, hSame⟩
  cases hf item hItem with
  | decl hClean =>
      cases hSame
      exact hClean

/- A file with errors is not lowered, any other is clean. -/
theorem not_isMalformed_lowerParsed
    (number : Nat)
    (source : SourceFile)
    (options : LowerOptions)
    (sources : Sources)
    {e : LowerError}
    (hError : (lowerParsed options sources
      (Hdl.parseFile number source)).result = .error e) :
    e.isMalformed = false := by
  unfold lowerParsed at hError
  split at hError
  case isTrue =>
      cases hError
      rfl
  case isFalse hClear =>
      -- The walk is made with cleanness as given, so it asks
      -- for it nowhere.
      have hClean := (Hdl.built_parseFile
        (Bool.not_eq_true _ ▸ hClear)).1
      have hSpares := (Lower.composed_circuits
        (fun _ : True => fun _ hDecl => hClean.modules hDecl)
          NameMap.empty).spares trivial
      exact hSpares _ _ e _ (Prod.ext hError rfl)

/-
  A file without errors has no placeholder in its tree. Every
  placeholder is reported by an error of the lexer or of the
  parser, and the lowering never meets one, whatever the
  options are.
-/
theorem placeholders_reported
    (number : Nat)
    (source : SourceFile) :
    ((Hdl.parseFile number source).findings.hasErrors = false →
      (Hdl.parseFile number source).tree.Clean) ∧
    (¬ (Hdl.parseFile number source).tree.Clean →
      ∃ d ∈ (Hdl.parseFile number source).findings.entries,
        d.IsSyntaxError) ∧
    ∀ options sources e,
      (lowerParsed options sources
        (Hdl.parseFile number source)).result = .error e →
      e.isMalformed = false := by
  refine ⟨fun hClear => (Hdl.built_parseFile hClear).1, ?_, ?_⟩
  · exact (Hdl.reported_or_clean number source).resolve_right
  · intro options sources e hError
    exact not_isMalformed_lowerParsed number source options sources
      hError

/- A module that is read, and that is refused for its name. -/
def unknownSource : SourceFile :=
  ⟨"unknown.sv", "module m(output y); assign y = a; endmodule"⟩

theorem placeholders_reported_unknown :
    (Hdl.parseFile 0 unknownSource).findings.hasErrors = false ∧
    (Hdl.parseFile 0 unknownSource).tree.Clean ∧
    ∃ e, (lowerSource { strictNames := true } unknownSource).result =
      .error e ∧ e.isMalformed = false := by
  have hClear :
      (Hdl.parseFile 0 unknownSource).findings.hasErrors = false := by
    rw [Hdl.parseFile_spelled 0 unknownSource rfl]
    decide +kernel
  rcases placeholders_reported 0 unknownSource with
    ⟨hClean, _, hSpares⟩
  have hFails : (lowerSource { strictNames := true }
      unknownSource).result.toOption.isNone = true := by
    rw [lowerSource_spelled _ unknownSource rfl]
    decide +kernel
  refine ⟨hClear, hClean hClear, ?_⟩
  unfold lowerSource at hFails ⊢
  cases hResult : (lowerParsed { strictNames := true }
      [unknownSource] (Hdl.parseFile 0 unknownSource)).result with
  | ok circuits =>
      rw [hResult] at hFails
      cases hFails
  | error e => exact ⟨e, rfl, hSpares _ _ e hResult⟩

end Gatework
