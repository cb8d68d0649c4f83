import Gatework.Proofs.Lowering.Composed

/-
  Strict options only refuse.

  Options are looked at where a name is not declared and where
  a literal is read. A lenient run reports the first name it
  has to assume, so as long as it has reported none it has met
  declared names only, and a strict run does the same. A run
  that reads literals strictly tells that all their digits are
  known.

  Key definitions include:
    * `AllKnown`, literals without unknown digits
    * `Progress.Reported`
    * `Lower.Carries`, runs that go the same way under other
      options

  Key theorems include:
    * `Lower.Carries.bind`
    * `Lower.carries_lookup` and `Lower.carries_literal`
    * `Lower.Composed.carries`
    * `strict_options_only_refuse`
-/

------------------------------------------------------------
-- Literals and findings
------------------------------------------------------------

namespace Gatework

/- No literal has an unknown digit. -/
def AllKnown
    (rs : List Hdl.RawLiteral) :
    Prop :=
  ∀ r ∈ rs, r.IsKnown

theorem allKnown_nil :
    AllKnown [] :=
  List.forall_mem_nil _

theorem allKnown_append
    {rs rs' : List Hdl.RawLiteral} :
    AllKnown (rs ++ rs') ↔ AllKnown rs ∧ AllKnown rs' :=
  List.forall_mem_append

/- The warning that a name was not declared. -/
def Diagnostic.IsUndeclared
    (d : Diagnostic) :
    Prop :=
  d.code = ⟨.warning, 200⟩

/- No name was found undeclared. -/
def Findings.AllDeclared
    (f : Findings) :
    Prop :=
  ∀ d ∈ f.entries, ¬ d.IsUndeclared

/- If names were assumed, at least one was reported. -/
def Progress.Reported
    (p : Progress) :
    Prop :=
  p.scope.implicit ≠ [] → ∃ d ∈ p.findings.entries, d.IsUndeclared

/- A step that reports what it assumes and takes nothing back. -/
def Progress.Grows
    (p p' : Progress) :
    Prop :=
  p.findings.entries ⊆ p'.findings.entries ∧
    (p.Reported → p'.Reported)

namespace Progress.Grows

variable {p p' p'' : Progress}

theorem refl
    (p : Progress) :
    p.Grows p :=
  ⟨fun _ h => h, id⟩

theorem trans
    (h : p.Grows p')
    (h' : p'.Grows p'') :
    p.Grows p'' :=
  ⟨fun _ hd => h'.1 (h.1 hd), fun hp => h'.2 (h.2 hp)⟩

/- Findings are added and no name is assumed. -/
theorem of_append
    {ds : List Diagnostic}
    (hImplicit : p'.scope.implicit = p.scope.implicit)
    (hFindings : p'.findings.entries = p.findings.entries ++ ds) :
    p.Grows p' := by
  have hSub : p.findings.entries ⊆ p'.findings.entries := by
    rw [hFindings]
    exact List.subset_append_left ..
  refine ⟨hSub, ?_⟩
  intro hReported hSome
  rcases hReported (hImplicit ▸ hSome) with ⟨d, hd, hCode⟩
  exact ⟨d, hSub hd, hCode⟩

/- Nothing is found and no name is assumed. -/
theorem of_same
    (hImplicit : p'.scope.implicit = p.scope.implicit)
    (hFindings : p'.findings = p.findings) :
    p.Grows p' :=
  of_append hImplicit ((congrArg Findings.entries hFindings).trans
    (List.append_nil _).symm)

end Progress.Grows

end Gatework

------------------------------------------------------------
-- Runs under other options
------------------------------------------------------------

namespace Gatework

namespace Lower

variable {o o' : LowerOptions}
variable {rs rs' : List Hdl.RawLiteral}
variable {α β : Type}

/-
  What a successful run tells: read strictly, its literals are
  known; and under other options it goes the same way, unless
  these refuse a name it reported or a literal it read.
-/
structure Accepted
    (o o' : LowerOptions)
    (rs : List Hdl.RawLiteral)
    (sources : Sources)
    (m : Lower α)
    (p : Progress)
    (a : α)
    (p' : Progress) :
    Prop where
  grows : p.Grows p'
  known : o.strictLiterals = true → AllKnown rs
  again :
    (o'.strictNames = true → p'.findings.AllDeclared) →
    (o'.strictLiterals = true → AllKnown rs) →
    m ⟨o', sources⟩ p = (.ok a, p')

/- Every successful run that has reported what it assumed. -/
def Carries
    (o o' : LowerOptions)
    (rs : List Hdl.RawLiteral)
    (m : Lower α) :
    Prop :=
  ∀ sources p a p', p.Reported → m ⟨o, sources⟩ p = (.ok a, p') →
    Accepted o o' rs sources m p a p'

theorem carries_fail
    (e : LowerError) :
    Carries o o' rs (fail e : Lower α) := by
  rintro sources p a p' _ ⟨⟩

/- A step that does not look at the options. -/
theorem carries_step
    {m : Lower α}
    {g : Sources → Progress → α}
    {f : Progress → Progress}
    (hRun : ∀ o sources p,
      m ⟨o, sources⟩ p = (.ok (g sources p), f p))
    (hf : ∀ p : Progress, p.Grows (f p)) :
    Carries o o' [] m := by
  intro sources p a p' _ hFirst
  rw [hRun] at hFirst
  cases hFirst
  exact ⟨hf p, fun _ => allKnown_nil, fun _ _ => hRun ..⟩

theorem Carries.bind
    {m : Lower α}
    {f : α → Lower β}
    (hm : Carries o o' rs m)
    (hf : ∀ a, Carries o o' rs' (f a)) :
    Carries o o' (rs ++ rs') (m >>= f) := by
  intro sources p b p' hReported hRun
  rw [bind_apply] at hRun
  cases hFirst : m ⟨o, sources⟩ p with
  | mk result p₁ =>
      rw [hFirst] at hRun
      cases result with
      | error e => cases hRun
      | ok a =>
          have h₁ := hm sources p a p₁ hReported hFirst
          have h₂ := hf a sources p₁ b p' (h₁.grows.2 hReported) hRun
          refine ⟨h₁.grows.trans h₂.grows, ?_, ?_⟩
          · intro hStrict
            exact allKnown_append.mpr
              ⟨h₁.known hStrict, h₂.known hStrict⟩
          · intro hNames hLiterals
            have hKnown := fun h => allKnown_append.mp (hLiterals h)
            rw [bind_apply, h₁.again
              (fun h d hd => hNames h d (h₂.grows.1 hd))
              (fun h => (hKnown h).1)]
            exact h₂.again hNames fun h => (hKnown h).2

/- The first step reads no literals. -/
theorem Carries.before
    {m : Lower α}
    {f : α → Lower β}
    (hm : Carries o o' [] m)
    (hf : ∀ a, Carries o o' rs (f a)) :
    Carries o o' rs (m >>= f) :=
  hm.bind hf

theorem carries_pure
    (a : α) :
    Carries o o' [] (pure a : Lower α) :=
  carries_step (g := fun _ _ => a) (f := id) (fun _ _ _ => rfl)
    Progress.Grows.refl

theorem carries_get :
    Carries o o' [] (get : Lower Progress) :=
  carries_step (g := fun _ p => p) (f := id) (fun _ _ _ => rfl)
    Progress.Grows.refl

theorem carries_modify
    {f : Progress → Progress}
    (hf : ∀ p : Progress, p.Grows (f p)) :
    Carries o o' [] (modify f : Lower Unit) :=
  carries_step (g := fun _ _ => ()) (fun _ _ _ => rfl) hf

theorem carries_log
    (message : String) :
    Carries o o' [] (log message) :=
  carries_modify fun _ => .of_same rfl rfl

theorem carries_warn
    (d : Diagnostic) :
    Carries o o' [] (warn d) :=
  (carries_log _).before fun _ =>
    carries_modify fun _ => .of_append rfl rfl

theorem carries_textOf
    (span : Span) :
    Carries o o' [] (textOf span) :=
  carries_step (g := fun sources _ => sources.snippet span)
    (f := id) (fun _ _ _ => rfl) Progress.Grows.refl

theorem carries_stamping
    (m : Stamping α) :
    Carries o o' [] (stamping m) :=
  carries_step (g := fun _ p => (m.run p.marks).1)
    (f := fun p => { p with marks := (m.run p.marks).2 })
    (fun _ _ _ => rfl)
    fun _ => .of_same rfl rfl

end Lower

end Gatework

------------------------------------------------------------
-- Names and literals
------------------------------------------------------------

namespace Gatework

namespace Lower

variable {o o' : LowerOptions}

/- The warning about a name that is assumed to be a net. -/
def assumption
    (name : String)
    (span : Span) :
    Diagnostic :=
  .warning 200
    ("`" ++ name ++ "` is not declared; treating it as a 1-bit net")
    span

/- Where an undeclared name leads to. -/
def assumed
    (name : String)
    (span : Span)
    (p : Progress) :
    Progress :=
  if name ∈ p.scope.implicit then
    p
  else
    { p with
      scope := { p.scope with implicit := name :: p.scope.implicit }
      findings := p.findings.report (assumption name span)
      log := p.log ++ [(assumption name span).message] }

theorem run_assume
    (name : String)
    (span : Span)
    (s : Setting)
    (p : Progress) :
    assume name span s p = (.ok (), assumed name span p) := by
  unfold assume assumed
  rw [bind_apply]
  change (if name ∈ p.scope.implicit then pure () else _ :
    Lower Unit) s p = _
  split <;> rfl

/- A name is reported when it is assumed for the first time. -/
theorem exists_assumption
    (name : String)
    (span : Span)
    {p : Progress}
    (hReported : p.Reported) :
    ∃ d ∈ (assumed name span p).findings.entries,
      d.IsUndeclared := by
  unfold assumed
  split
  case isTrue hKnown => exact hReported (List.ne_nil_of_mem hKnown)
  case isFalse =>
      exact ⟨assumption name span,
        List.mem_append_right _ (List.mem_singleton.mpr rfl), rfl⟩

theorem grows_assumed
    (name : String)
    (span : Span)
    (p : Progress) :
    p.Grows (assumed name span p) := by
  refine ⟨?_, fun hReported _ =>
    exists_assumption name span hReported⟩
  unfold assumed
  split
  · exact fun _ h => h
  · exact List.subset_append_left ..

theorem run_lookup
    (name : String)
    (span : Span)
    (s : Setting)
    (p : Progress) :
    lookup name span s p =
      match p.scope.signals.find? name with
      | some v => (.ok v, p)
      | none =>
          if s.options.strictNames then
            (.error (.unknownName name span), p)
          else
            (.ok (Var.scalar name), assumed name span p) := by
  unfold lookup
  rw [bind_apply]
  change (match p.scope.signals.find? name with
    | some v => pure v
    | none => _ : Lower Var) s p = _
  cases p.scope.signals.find? name with
  | some v => rfl
  | none =>
      change (if s.options.strictNames = true then _ else _ :
        Lower Var) s p = _
      dsimp only
      split
      · rfl
      · rw [bind_apply, run_assume]
        rfl

/-
  Names are looked up alike unless one is not declared, and
  then a lenient run has reported it.
-/
theorem carries_lookup
    (name : String)
    (span : Span) :
    Carries o o' [] (lookup name span) := by
  intro sources p v p' hReported hRun
  rw [run_lookup] at hRun
  cases hFound : p.scope.signals.find? name with
  | some w =>
      rw [hFound] at hRun
      cases hRun
      refine ⟨.refl p, fun _ => allKnown_nil, fun _ _ => ?_⟩
      rw [run_lookup, hFound]
  | none =>
      simp only [hFound] at hRun
      split at hRun
      case isTrue => cases hRun
      case isFalse =>
          cases hRun
          refine ⟨grows_assumed name span p, fun _ => allKnown_nil, ?_⟩
          intro hNames _
          rw [run_lookup, hFound]
          dsimp only
          split
          case isTrue hStrict =>
              rcases exists_assumption name span hReported with
                ⟨d, hd, hCode⟩
              exact absurd hCode (hNames hStrict d hd)
          case isFalse => rfl

/- What follows the reading of a literal. -/
def afterReading
    (text : String)
    (span : Span)
    (read : Except Hdl.LiteralFlaw Hdl.Literal) :
    Lower Hdl.Literal := do
  match read with
  | .error f => fail (.ofLiteral text span f)
  | .ok l =>
      if l.isTruncated then
        log ("literal `" ++ text ++ "` truncated to "
          ++ toString l.width ++ " bits")
      return l

theorem run_literal
    (kind : Hdl.LiteralKind)
    (text : String)
    (span : Span)
    (s : Setting)
    (p : Progress) :
    literal kind text span s p =
      afterReading text span
        (Hdl.Literal.read kind s.options.strictLiterals text) s p :=
  rfl

theorem carries_afterReading
    (text : String)
    (span : Span)
    (l : Hdl.Literal) :
    Carries o o' [] (afterReading text span (.ok l)) := by
  unfold afterReading
  dsimp only
  split
  · exact (carries_log _).before fun _ => carries_pure l
  · exact carries_pure l

/-
  A literal is read alike unless it has an unknown digit, and
  a strict run has seen that it has none.
-/
theorem carries_literal
    (kind : Hdl.LiteralKind)
    (text : String)
    (span : Span) :
    Carries o o' [⟨kind, text⟩] (literal kind text span) := by
  intro sources p l p' hReported hRun
  rw [run_literal] at hRun
  cases hRead : Hdl.Literal.read kind o.strictLiterals text with
  | error f =>
      rw [hRead] at hRun
      cases hRun
  | ok l₀ =>
      rw [hRead] at hRun
      have hRest : Accepted o o' [] sources
          (afterReading text span (.ok l₀)) p l p' :=
        carries_afterReading text span l₀ sources p l p'
          hReported hRun
      have hOther := Hdl.Literal.read_eq_ok_of_read
        (r := ⟨kind, text⟩) hRead
      refine ⟨hRest.grows, ?_, ?_⟩
      · intro hStrict r hr
        rw [List.mem_singleton.mp hr]
        exact hOther.1 hStrict
      · intro hNames hLiterals
        rw [run_literal, hOther.2 o'.strictLiterals fun h =>
          hLiterals h _ (List.mem_singleton.mpr rfl)]
        exact hRest.again hNames fun _ => allKnown_nil

end Lower

end Gatework

------------------------------------------------------------
-- Other steps
------------------------------------------------------------

namespace Gatework

namespace Lower

variable {o o' : LowerOptions}
variable {rs : List Hdl.RawLiteral}
variable {α : Type}

theorem carries_declare
    (v : Var)
    (range : Option (Nat × Nat))
    (span : Span) :
    Carries o o' [] (declare v range span) := by
  intro sources p a p' _ hRun
  have hGet : ∀ options, (get : Lower Progress) ⟨options, sources⟩ p =
      (.ok p, p) := fun _ => rfl
  unfold declare at hRun ⊢
  rw [bind_apply, hGet] at hRun
  dsimp only at hRun
  cases hTaken : p.scope.places.find? v.name with
  | some previous =>
      rw [hTaken] at hRun
      cases hRun
  | none =>
      rw [hTaken] at hRun
      cases hRun
      refine ⟨.of_same rfl rfl, fun _ => allKnown_nil,
        fun _ _ => ?_⟩
      rw [bind_apply, hGet]
      dsimp only
      rw [hTaken]
      rfl

/- No name is assumed in a fresh scope. -/
theorem carries_fresh :
    Carries o o' []
      (modify fun p => { p with scope := {} } : Lower Unit) :=
  carries_modify fun _ =>
    ⟨fun _ h => h, fun _ hSome => absurd rfl hSome⟩

/- The fallback is the same. -/
theorem carries_fallback
    {f : Fallback → Lower α}
    (hSame : o'.fallback = o.fallback)
    (hf : ∀ fallback, Carries o o' rs (f fallback)) :
    Carries o o' rs (do f (← read).options.fallback) := by
  intro sources p a p' hReported hRun
  rcases hf o.fallback sources p a p' hReported hRun with
    ⟨hGrows, hKnown, hAgain⟩
  refine ⟨hGrows, hKnown, fun hNames hLiterals => ?_⟩
  change f o'.fallback ⟨o', sources⟩ p = _
  rw [hSame]
  exact hAgain hNames hLiterals

/-
  Lowering goes the same way under other options that leave
  open branches to the same fallback, since its steps do.
-/
theorem Composed.carries
    {clean : Prop}
    (hSame : o'.fallback = o.fallback)
    {m : Lower α}
    (hm : Composed clean rs m) :
    Carries o o' rs m := by
  induction hm with
  | pure a => exact carries_pure a
  | fail _ => exact carries_fail _
  | bind _ _ hm hf => exact hm.bind hf
  | lookup name span => exact carries_lookup name span
  | literal kind text span => exact carries_literal kind text span
  | fallback _ hf => exact carries_fallback hSame hf
  | declare v range span => exact carries_declare v range span
  | fresh => exact carries_fresh
  | get => exact carries_get
  | textOf span => exact carries_textOf span
  | warn d => exact carries_warn d
  | stamping m => exact carries_stamping m

end Lower

end Gatework

------------------------------------------------------------
-- Sources
------------------------------------------------------------

namespace Gatework

/-
  A file that is lowered is lowered alike under other options,
  unless these refuse a name that was reported or a literal
  that was read.
-/
theorem lowerParsed_again
    {o : LowerOptions}
    (o' : LowerOptions)
    {sources : Sources}
    {parsed : Hdl.Parsed Hdl.File}
    {cs : List Circuit}
    (hOk : (lowerParsed o sources parsed).result = .ok cs)
    (hSame : o'.fallback = o.fallback) :
    (o.strictLiterals = true → AllKnown parsed.tree.literals) ∧
    ((o'.strictNames = true →
        (lowerParsed o sources parsed).findings.AllDeclared) →
      (o'.strictLiterals = true → AllKnown parsed.tree.literals) →
      lowerParsed o' sources parsed =
        lowerParsed o sources parsed) := by
  unfold lowerParsed at hOk ⊢
  split at hOk
  case isTrue => cases hOk
  case isFalse hClear =>
      rw [if_neg hClear, if_neg hClear]
      have hReported :
          ({ findings := parsed.findings } : Progress).Reported :=
        fun hSome => absurd rfl hSome
      have hRun : Lower.circuits parsed.tree.modules NameMap.empty
          ⟨o, sources⟩ { findings := parsed.findings } = (.ok cs, _) :=
        Prod.ext hOk rfl
      -- Nothing is asked of the tree: it need not be clean.
      have hCarries := (@Lower.composed_circuits False
        parsed.tree.modules False.elim NameMap.empty).carries hSame
      have hAccepted := hCarries sources _ cs _ hReported hRun
      refine ⟨hAccepted.known, fun hNames hLiterals => ?_⟩
      have hAgain := hAccepted.again hNames hLiterals
      exact congrArg
        (fun run => (⟨run.1, run.2.findings, run.2.log⟩ : Lowered))
        (hAgain.trans hRun.symm)

/-
  Strict options only refuse. What is lowered under them is
  lowered without them to the same circuits, with the same
  findings and log. What is lowered without them is lowered
  the same way under them if no name is reported as undeclared
  and no literal that is read has an unknown digit, and only
  then under strict literals.
-/
theorem strict_options_only_refuse
    (file : SourceFile)
    (fallback : Fallback) :
    (∀ names literals circuits,
      (lowerSource ⟨names, literals, fallback⟩ file).result =
        .ok circuits →
      lowerSource ⟨false, false, fallback⟩ file =
        lowerSource ⟨names, literals, fallback⟩ file) ∧
    (∀ circuits,
      (lowerSource ⟨false, false, fallback⟩ file).result =
        .ok circuits →
      (lowerSource ⟨false, false, fallback⟩ file).findings.AllDeclared →
      AllKnown (Hdl.parseFile 0 file).tree.literals →
      lowerSource ⟨true, true, fallback⟩ file =
        lowerSource ⟨false, false, fallback⟩ file) ∧
    ∀ names circuits,
      (lowerSource ⟨names, true, fallback⟩ file).result =
        .ok circuits →
      AllKnown (Hdl.parseFile 0 file).tree.literals := by
  refine ⟨?_, ?_, ?_⟩
  · intro names literals circuits hOk
    apply (lowerParsed_again ⟨false, false, fallback⟩ hOk rfl).2
    · exact fun h => Bool.noConfusion h
    · exact fun h => Bool.noConfusion h
  · intro circuits hOk hDeclared hKnown
    exact (lowerParsed_again ⟨true, true, fallback⟩ hOk rfl).2
      (fun _ => hDeclared) (fun _ => hKnown)
  · intro names circuits hOk
    exact (lowerParsed_again ⟨names, true, fallback⟩ hOk rfl).1 rfl

/- A module whose names are declared and whose digits are known. -/
def plainSource : SourceFile :=
  ⟨"plain.sv",
    "module plain(input [3:0] a, output y);\n" ++
    "assign y = a[2] & 1'b1; endmodule\n"⟩

theorem strict_options_only_refuse_plain :
    (lowerSource ⟨true, true, .zero⟩
      plainSource).result.toOption.isSome = true ∧
    lowerSource ⟨false, false, .zero⟩ plainSource =
      lowerSource ⟨true, true, .zero⟩ plainSource ∧
    (lowerSource ⟨false, false, .zero⟩
      plainSource).findings.AllDeclared ∧
    (Hdl.parseFile 0 plainSource).tree.literals =
      [⟨.int, "3"⟩, ⟨.int, "0"⟩, ⟨.int, "2"⟩, ⟨.based, "1'b1"⟩] ∧
    AllKnown (Hdl.parseFile 0 plainSource).tree.literals := by
  rcases strict_options_only_refuse plainSource .zero with
    ⟨hLenient, hStrict, hKnown⟩
  have hText : plainSource.text = String.ofList _ :=
    Hdl.spelled_append rfl rfl
  have hLowered : (lowerSource ⟨false, false, .zero⟩
      plainSource).result.toOption.isSome = true := by
    rw [lowerSource_spelled _ plainSource hText]
    decide +kernel
  have hNone : (lowerSource ⟨false, false, .zero⟩
      plainSource).findings.entries = [] := by
    rw [lowerSource_spelled _ plainSource hText]
    decide +kernel
  have hLiterals : (Hdl.parseFile 0 plainSource).tree.literals =
      [⟨.int, "3"⟩, ⟨.int, "0"⟩, ⟨.int, "2"⟩, ⟨.based, "1'b1"⟩] := by
    rw [Hdl.parseFile_spelled 0 plainSource hText]
    decide +kernel
  have hDeclared : (lowerSource ⟨false, false, .zero⟩
      plainSource).findings.AllDeclared := by
    intro d hd
    rw [hNone] at hd
    cases hd
  have hDigits :
      AllKnown (Hdl.parseFile 0 plainSource).tree.literals := by
    rw [hLiterals]
    unfold AllKnown Hdl.RawLiteral.IsKnown
    decide +kernel
  cases hResult : (lowerSource ⟨false, false, .zero⟩
      plainSource).result with
  | error e =>
      rw [hResult] at hLowered
      cases hLowered
  | ok circuits =>
      have hSame := hStrict circuits hResult hDeclared hDigits
      have hAccepted := hSame ▸ hResult
      refine ⟨hSame ▸ hLowered, ?_, hDeclared, hLiterals, ?_⟩
      · exact hLenient true true circuits hAccepted
      · exact hKnown true circuits hAccepted

end Gatework
