import Gatework.Proofs.Expr.Value

/-
  What evaluation takes from its surroundings.

  A tree reads the signals that occur in it, and of each only
  the low bits, as many as the tree says it has. Evaluation
  depends on nothing else, and if it fails, the signal it
  names is one of them and has no value.

  Key definitions include:
    * `Expr.Missing`, a signal without a value
    * `Expr.Alike`, valuations that agree on what is read

  Key theorems include:
    * `Expr.missing_of_eval_eq_error`
    * `Expr.eval_of_alike`
-/

------------------------------------------------------------
-- Missing signals
------------------------------------------------------------

namespace Gatework

/- A sequence fails where its first failing step does. -/
theorem bind_eq_error_iff
    {ε α β : Type}
    {first : Except ε α}
    {next : α → Except ε β}
    {u : ε} :
    (first >>= next) = .error u ↔
      first = .error u ∨ ∃ a, first = .ok a ∧ next a = .error u := by
  cases first with
  | error e => simp [bind, Except.bind]
  | ok a => simp [bind, Except.bind]

namespace Expr

variable {ρ : Valuation}

/- One of the signals has the name and no value. -/
def Missing
    (ρ : Valuation)
    (u : Unbound)
    (vs : List Var) :
    Prop :=
  ∃ v ∈ vs, v.name = u.name ∧ ρ v.name = none

theorem Missing.mono
    {u : Unbound}
    {vs ws : List Var}
    (hSub : vs ⊆ ws)
    (h : Missing ρ u vs) :
    Missing ρ u ws := by
  rcases h with ⟨v, hv, hName⟩
  exact ⟨v, hSub hv, hName⟩

theorem missing_of_evalParts_eq_error
    {parts : List Expr}
    {u : Unbound}
    (hParts : ∀ p ∈ parts, p.eval ρ = .error u →
      Missing ρ u p.occurrences)
    {high : Nat}
    (hError : evalParts ρ high parts = .error u) :
    Missing ρ u (occurrencesAll parts) := by
  induction parts generalizing high with
  | nil => cases hError
  | cons p ps ih =>
      rw [evalParts, bind_eq_error_iff] at hError
      rcases hError with hHead | ⟨x, _, hTail⟩
      · exact (hParts p (List.mem_cons_self ..) hHead).mono
          (List.subset_append_left ..)
      · exact (ih (fun q hq => hParts q (List.mem_cons_of_mem _ hq))
          hTail).mono (List.subset_append_right ..)

/- Evaluation fails only at a signal without a value. -/
theorem missing_of_eval_eq_error
    {e : Expr}
    {u : Unbound}
    (hError : e.eval ρ = .error u) :
    Missing ρ u e.occurrences := by
  induction e with
  | const m c => cases hError
  | var m v =>
      rw [eval] at hError
      cases hv : ρ v.name with
      | none =>
          rw [hv] at hError
          cases hError
          exact ⟨v, List.mem_singleton.mpr rfl, rfl, hv⟩
      | some x =>
          rw [hv] at hError
          cases hError
  | not m x ih =>
      rw [eval, bind_eq_error_iff] at hError
      rcases hError with h | ⟨_, _, h⟩
      · exact ih h
      · cases h
  | gate m op a b iha ihb =>
      rw [eval, bind_eq_error_iff] at hError
      rcases hError with h | ⟨_, _, h⟩
      · exact (iha h).mono (List.subset_append_left ..)
      · rcases bind_eq_error_iff.mp h with h | ⟨_, _, h⟩
        · exact (ihb h).mono (List.subset_append_right ..)
        · cases h
  | compare m op a b iha ihb =>
      rw [eval, bind_eq_error_iff] at hError
      rcases hError with h | ⟨_, _, h⟩
      · exact (iha h).mono (List.subset_append_left ..)
      · rcases bind_eq_error_iff.mp h with h | ⟨_, _, h⟩
        · exact (ihb h).mono (List.subset_append_right ..)
        · cases h
  | mux m s t f ihs iht ihf =>
      have hTrue : t.occurrences ⊆ (mux m s t f).occurrences :=
        fun _ hv => List.mem_append_right _
          (List.mem_append_left _ hv)
      have hFalse : f.occurrences ⊆ (mux m s t f).occurrences :=
        fun _ hv => List.mem_append_right _
          (List.mem_append_right _ hv)
      rw [eval, bind_eq_error_iff] at hError
      rcases hError with h | ⟨c, _, h⟩
      · exact (ihs h).mono (List.subset_append_left ..)
      · cases hBit : c.testBit 0 with
        | false =>
            rw [hBit] at h
            rcases bind_eq_error_iff.mp h with h | ⟨_, _, h⟩
            · exact (ihf h).mono hFalse
            · cases h
        | true =>
            rw [hBit] at h
            rcases bind_eq_error_iff.mp h with h | ⟨_, _, h⟩
            · exact (iht h).mono hTrue
            · cases h
  | bit m b i ih =>
      rw [eval, bind_eq_error_iff] at hError
      rcases hError with h | ⟨_, _, h⟩
      · exact ih h
      · cases h
  | part m b h l ih =>
      rw [eval, bind_eq_error_iff] at hError
      rcases hError with h | ⟨_, _, h⟩
      · exact ih h
      · cases h
  | concat m parts ih =>
      rw [eval, bind_eq_error_iff] at hError
      rcases hError with h | ⟨_, _, h⟩
      · exact missing_of_evalParts_eq_error
          (fun p hp h => ih p hp h) h
      · cases h

end Expr

end Gatework

------------------------------------------------------------
-- What evaluation depends on
------------------------------------------------------------

namespace Gatework

namespace Expr

variable {ρ ρ' : Valuation}

/-
  Both valuations have the same low bits for every signal the
  tree reads, as many as it reads of it, or have no value for
  it.
-/
def Alike
    (e : Expr)
    (ρ ρ' : Valuation) :
    Prop :=
  ∀ v ∈ e.occurrences,
    (ρ v.name).map (· &&& mask v.width) =
      (ρ' v.name).map (· &&& mask v.width)

theorem evalParts_of_alike
    {parts : List Expr}
    (hParts : ∀ p ∈ parts, p.eval ρ = p.eval ρ')
    (high : Nat) :
    evalParts ρ high parts = evalParts ρ' high parts := by
  induction parts generalizing high with
  | nil => rfl
  | cons p ps ih =>
      have hTail : ∀ high, evalParts ρ high ps =
          evalParts ρ' high ps :=
        ih (fun q hq => hParts q (List.mem_cons_of_mem _ hq))
      rw [evalParts, evalParts, hParts p (List.mem_cons_self ..)]
      simp only [hTail]

/- A tree reads no bits of a signal above its widths of it. -/
theorem eval_of_alike
    {e : Expr}
    (hAlike : e.Alike ρ ρ') :
    e.eval ρ = e.eval ρ' := by
  induction e with
  | const m c => rfl
  | var m v =>
      have hv := hAlike v (List.mem_singleton.mpr rfl)
      rw [eval, eval]
      cases hLeft : ρ v.name with
      | none =>
          cases hRight : ρ' v.name with
          | none => rfl
          | some y =>
              rw [hLeft, hRight] at hv
              cases hv
      | some x =>
          cases hRight : ρ' v.name with
          | none =>
              rw [hLeft, hRight] at hv
              cases hv
          | some y =>
              rw [hLeft, hRight] at hv
              exact congrArg Except.ok (Option.some.inj hv)
  | not m x ih => simp only [eval, ih hAlike]
  | gate m op a b iha ihb =>
      simp only [Alike, occurrences, List.mem_append] at hAlike
      simp only [eval, iha (fun v hv => hAlike v (Or.inl hv)),
        ihb (fun v hv => hAlike v (Or.inr hv))]
  | compare m op a b iha ihb =>
      simp only [Alike, occurrences, List.mem_append] at hAlike
      simp only [eval, iha (fun v hv => hAlike v (Or.inl hv)),
        ihb (fun v hv => hAlike v (Or.inr hv))]
  | mux m s t f ihs iht ihf =>
      simp only [Alike, occurrences, List.mem_append] at hAlike
      simp only [eval, ihs (fun v hv => hAlike v (Or.inl hv)),
        iht (fun v hv => hAlike v (Or.inr (Or.inl hv))),
        ihf (fun v hv => hAlike v (Or.inr (Or.inr hv)))]
  | bit m b i ih => simp only [eval, ih hAlike]
  | part m b h l ih => simp only [eval, ih hAlike]
  | concat m parts ih =>
      have hParts : ∀ p ∈ parts, p.eval ρ = p.eval ρ' := by
        intro p hp
        apply ih p hp
        intro v hv
        exact hAlike v (mem_occurrencesAll.mpr ⟨p, hp, hv⟩)
      rw [eval, eval, evalParts_of_alike hParts]

/-
  Evaluation, and the signal it misses if it fails, depend on
  the signals that are read.
-/
theorem eval_congr
    {e : Expr}
    (hAgree : ∀ v ∈ e.occurrences, ρ v.name = ρ' v.name) :
    e.eval ρ = e.eval ρ' := by
  apply eval_of_alike
  intro v hv
  rw [hAgree v hv]

end Expr

end Gatework
