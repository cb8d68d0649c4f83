import Gatework.Proofs.Diagram.Tests
import Gatework.Proofs.Expr.KnownBits

/-
  Which expressions have diagrams under an order.

  A valid expression is drawn part by part, in a fixed order
  of parts. Where the order of tests has all tests of a part,
  the part has diagrams and the next one is drawn. Where it
  lacks one, drawing stops at a test that is missing, and no
  other error is met before.

  Key definitions include:
    * `Building.Misses`, a computation that stops at a test

  Key theorems include:
    * `Building.misses_seq`
    * `Expr.misses_diagrams`
    * `Forest.build_exact`
-/

------------------------------------------------------------
-- Computations that miss a test
------------------------------------------------------------

namespace Gatework

namespace Building

variable {α β : Type}
variable {Γ Δ : Var → Prop}
variable {forest : Forest}

/- A computation that stops at a test that the order lacks. -/
def Misses
    (Γ : Var → Prop)
    (m : Building α)
    (forest : Forest) :
    Prop :=
  ∃ n forest', m forest = (.error (.unknownVariable n), forest') ∧
    IsTest Γ n ∧ n ∉ forest.order

theorem exists_of_not_covers
    {order : List String}
    (hMissing : ¬ Covers Γ order) :
    ∃ v, Γ v ∧ ∃ i, i < v.width ∧ v.testName i ∉ order := by
  simpa only [Covers, not_forall, exists_prop] using hMissing

theorem Misses.mono
    {m : Building α}
    (hm : Misses Γ m forest)
    (hSub : ∀ v, Γ v → Δ v) :
    Misses Δ m forest := by
  rcases hm with ⟨n, forest', hRun, ⟨v, hv, hTest⟩, hOut⟩
  exact ⟨n, forest', hRun, ⟨v, hSub v hv, hTest⟩, hOut⟩

/- Nothing is done after a test was missed. -/
theorem Misses.bind
    {m : Building α}
    (hm : Misses Γ m forest)
    (f : α → Building β) :
    Misses Γ (m >>= f) forest := by
  rcases hm with ⟨n, forest', hRun, hMissing⟩
  refine ⟨n, forest', ?_, hMissing⟩
  rw [bind_apply, hRun]

/- What was drawn before stays, and the order with it. -/
theorem Gives.misses
    {m : Building α}
    {f : α → Building β}
    {P : α → Forest → Prop}
    (hm : Gives m forest P)
    (hf : ∀ a forest', forest'.Sound →
      forest'.order = forest.order → P a forest' →
      Misses Γ (f a) forest') :
    Misses Γ (m >>= f) forest := by
  rcases hm with ⟨a, forest₁, hRun, hSound, hExtends, hP⟩
  rcases hf a forest₁ hSound hExtends.order_eq hP with
    ⟨n, forest₂, hRest, hTest, hOut⟩
  refine ⟨n, forest₂, ?_, hTest, hExtends.order_eq ▸ hOut⟩
  rw [bind_apply, hRun]
  exact hRest

/-
  Two computations in sequence miss a test if the order lacks
  one of either: the first stops there, or the second does
  after the first has succeeded.
-/
theorem misses_seq
    {m : Building α}
    {f : α → Building β}
    {P : α → Forest → Prop}
    (hGives : Covers Γ forest.order → Gives m forest P)
    (hMisses : ¬ Covers Γ forest.order → Misses Γ m forest)
    (hf : ∀ a forest', forest'.Sound → P a forest' →
      ¬ Covers Δ forest'.order → Misses Δ (f a) forest')
    (hMissing : ¬ Covers (fun v => Γ v ∨ Δ v) forest.order) :
    Misses (fun v => Γ v ∨ Δ v) (m >>= f) forest := by
  by_cases hCovers : Covers Γ forest.order
  · have hRest : ¬ Covers Δ forest.order := by
      intro hBoth
      apply hMissing
      intro v hv
      exact hv.elim (hCovers v) (hBoth v)
    apply (hGives hCovers).misses
    intro a forest' hSound hOrder hP
    exact (hf a forest' hSound hP (hOrder ▸ hRest)).mono
      (fun _ => Or.inr)
  · exact ((hMisses hCovers).bind f).mono (fun _ => Or.inl)

end Building

end Gatework

------------------------------------------------------------
-- Signals
------------------------------------------------------------

namespace Gatework

namespace Building

variable {Γ : Var → Prop}
variable {forest : Forest}
variable {v : Var}

theorem misses_test
    (hv : Γ v)
    {i : Nat}
    (hi : i < v.width)
    (hOut : v.testName i ∉ forest.order) :
    Misses Γ (test (v.testName i)) forest := by
  have hNone : forest.level? (v.testName i) = none := by
    cases hPlace : forest.level? (v.testName i) with
    | none => rfl
    | some level =>
        have hAt := (Forest.lastPlace?_eq_some hPlace).2
        exact absurd (List.mem_of_getElem? hAt) hOut
  refine ⟨v.testName i, forest, ?_, ⟨v, hv, i, hi, rfl⟩, hOut⟩
  unfold test
  rw [hNone]

/- The first bit without a test is where the tests end. -/
theorem misses_tests
    (hSound : forest.Sound)
    (hv : Γ v)
    {is : List Nat}
    (hBits : ∀ i ∈ is, i < v.width)
    (hMissing : ∃ i ∈ is, v.testName i ∉ forest.order) :
    Misses Γ (is.mapM fun i => test (v.testName i)) forest := by
  induction is generalizing forest with
  | nil =>
      rcases hMissing with ⟨i, hi, _⟩
      cases hi
  | cons j is ih =>
      have hj := hBits j (List.mem_cons_self ..)
      rw [List.mapM_cons]
      by_cases hIn : v.testName j ∈ forest.order
      · apply (gives_test hSound hv hj hIn).misses
        intro r forest' hSound' hOrder _
        refine (ih hSound'
          (fun i hi => hBits i (List.mem_cons_of_mem _ hi)) ?_).bind _
        rcases hMissing with ⟨i, hi, hOut⟩
        rcases List.mem_cons.mp hi with rfl | hi
        · exact absurd hIn hOut
        · exact ⟨i, hi, hOrder ▸ hOut⟩
      · exact (misses_test hv hj hIn).bind _

theorem misses_signal
    (hSound : forest.Sound)
    (hv : Γ v)
    (hMissing : ∃ i, i < v.width ∧ v.testName i ∉ forest.order) :
    Misses Γ (signal v) forest := by
  rcases hMissing with ⟨i, hi, hOut⟩
  unfold signal
  by_cases hOne : v.width = 1
  · have hName : v.testName i = v.name := if_pos hOne
    rw [if_pos hOne, ← hName]
    exact (misses_test hv hi hOut).bind _
  · have hNames : (fun i => test (bitName v.name i)) =
        fun i => test (v.testName i) := by
      funext j
      rw [Var.testName, if_neg hOne]
    rw [if_neg hOne, hNames]
    apply misses_tests hSound hv
    · exact fun j hj => List.mem_range.mp hj
    · exact ⟨i, List.mem_range.mpr hi, hOut⟩

end Building

end Gatework

------------------------------------------------------------
-- Expressions
------------------------------------------------------------

namespace Gatework

namespace Expr

open Building

variable {Γ : Var → Prop}
variable {forest : Forest}

/- An expression is drawn where its own tests are in order. -/
theorem Typed.gives
    {e : Expr}
    (he : e.Typed Γ)
    (hSound : forest.Sound)
    (hOrder : Covers (· ∈ e.occurrences) forest.order) :
    Gives e.diagrams forest (fun rs forest' =>
      forest'.Shows (· ∈ e.occurrences) rs e.width
        (fun i τ => (e.value τ).testBit i)) :=
  gives_diagrams (he.mono fun _ hv _ => hv) hSound hOrder

/- Parts are drawn from the last one on. -/
theorem misses_diagramsAll
    {parts : List Expr}
    (hTyped : ∀ p ∈ parts, p.Typed Γ)
    (hParts : ∀ p ∈ parts, ∀ {forest : Forest}, forest.Sound →
      ¬ Covers (· ∈ p.occurrences) forest.order →
      Misses (· ∈ p.occurrences) p.diagrams forest)
    (hSound : forest.Sound)
    (hMissing : ¬ Covers (· ∈ occurrencesAll parts) forest.order) :
    Misses (· ∈ occurrencesAll parts) (diagramsAll parts)
      forest := by
  induction parts generalizing forest with
  | nil => exact absurd (fun v hv => nomatch hv) hMissing
  | cons p ps ih =>
      have hTail : ∀ q ∈ ps, q.Typed Γ :=
        fun q hq => hTyped q (List.mem_cons_of_mem _ hq)
      simp only [occurrencesAll, List.mem_append,
        or_comm (a := _ ∈ p.occurrences)] at hMissing ⊢
      have hLow := gives_diagramsAll (Γ := (· ∈ occurrencesAll ps))
        (fun q hq => gives_diagrams
          ((hTail q hq).mono fun v hv _ =>
            mem_occurrencesAll.mpr ⟨q, hq, hv⟩)) hSound
      rw [diagramsAll]
      apply misses_seq hLow (ih hTail
        (fun q hq => hParts q (List.mem_cons_of_mem _ hq)) hSound) _
        hMissing
      intro low forest' hSound' _ hHigh
      exact (hParts p (List.mem_cons_self ..) hSound' hHigh).bind _

/-
  A typed expression that needs a test which the order lacks
  stops at such a test.
-/
theorem misses_diagrams
    {e : Expr}
    (he : e.Typed Γ)
    (hSound : forest.Sound)
    (hMissing : ¬ Covers (· ∈ e.occurrences) forest.order) :
    Misses (· ∈ e.occurrences) e.diagrams forest := by
  induction e generalizing forest with
  | const m c => exact absurd (fun v hv => nomatch hv) hMissing
  | var m v =>
      have hv : v ∈ (var m v).occurrences := List.mem_singleton.mpr rfl
      rw [diagrams]
      apply misses_signal hSound hv
      rcases exists_of_not_covers hMissing with ⟨w, hw, hOut⟩
      rcases List.mem_singleton.mp hw with rfl
      exact hOut
  | not m x ih =>
      rw [diagrams]
      exact (ih he.1 hSound hMissing).bind _
  | gate m op a b iha ihb =>
      simp only [occurrences, List.mem_append] at hMissing ⊢
      rw [diagrams]
      apply misses_seq (he.1.gives hSound) (iha he.1 hSound) _
        hMissing
      intro xs forest' hSound' _ hRight
      exact (ihb he.2.1 hSound' hRight).bind _
  | compare m op a b iha ihb =>
      simp only [occurrences, List.mem_append] at hMissing ⊢
      rw [diagrams]
      apply misses_seq (he.1.gives hSound) (iha he.1 hSound) _
        hMissing
      intro xs forest' hSound' _ hRight
      exact (ihb he.2.1 hSound' hRight).bind _
  | mux m s t f ihs iht ihf =>
      rcases he with ⟨hs, ht, hf, hScalar, _⟩
      simp only [occurrences, List.mem_append] at hMissing ⊢
      rw [diagrams]
      apply misses_seq (hs.gives hSound) (ihs hs hSound) _ hMissing
      intro selector forest₁ hSound₁ hSel hSides
      -- The selector has one bit, so the sides are drawn next.
      rw [hScalar] at hSel
      rcases hSel.exists_single with ⟨c, rfl, _⟩
      apply misses_seq (ht.gives hSound₁) (iht ht hSound₁) _ hSides
      intro xs forest₂ hSound₂ _ hRight
      exact (ihf hf hSound₂ hRight).bind _
  | bit m b i ih =>
      rw [diagrams]
      exact (ih he.1 hSound hMissing).bind _
  | part m b h l ih =>
      rw [diagrams]
      exact (ih he.1 hSound hMissing).bind _
  | concat m parts ih =>
      have hTyped := typedAll_iff.mp he.1
      rw [diagrams]
      exact misses_diagramsAll hTyped
        (fun p hp _ hSound hOut => ih p hp (hTyped p hp) hSound hOut)
        hSound hMissing

end Expr

end Gatework

------------------------------------------------------------
-- Diagrams under an order
------------------------------------------------------------

namespace Gatework

namespace Forest

open Building

variable {e : Expr}
variable {order : List String}

/- All tests are in the order where the names listed are. -/
theorem covers_iff
    (hOne : OneWidth (· ∈ e.occurrences)) :
    Covers (· ∈ e.occurrences) order ↔
      ∀ n ∈ e.bitVariables, n ∈ order := by
  constructor
  · intro hCovers n hn
    rcases (Expr.mem_bitVariables_iff hOne).mp hn with
      ⟨v, hv, i, hi, rfl⟩
    exact hCovers v hv i hi
  · intro hAll v hv i hi
    exact hAll _ (Expr.covers_bitVariables hOne v hv i hi)

/- The order decides how drawing an expression ends. -/
theorem build_cases
    {Γ : Var → Prop}
    (he : e.Typed Γ)
    (hOne : OneWidth (· ∈ e.occurrences))
    (order : List String) :
    (∀ n ∈ e.bitVariables, n ∈ order) ∧
      (∃ refs forest, (ofOrder order).build e = (.ok refs, forest) ∧
        forest.Shows (· ∈ e.occurrences) refs e.width
          (fun i τ => (e.value τ).testBit i)) ∨
    ∃ n ∈ e.bitVariables, n ∉ order ∧ ∃ forest,
      (ofOrder order).build e =
        (.error (.unknownVariable n), forest) := by
  have hSound := sound_ofOrder order
  by_cases hCovers : Covers (· ∈ e.occurrences) order
  · rcases he.gives hSound hCovers with
      ⟨refs, forest, hRun, _, _, hShows⟩
    exact Or.inl ⟨(covers_iff hOne).mp hCovers,
      refs, forest, hRun, hShows⟩
  · rcases Expr.misses_diagrams he hSound hCovers with
      ⟨n, forest, hRun, hTest, hOut⟩
    exact Or.inr ⟨n, (Expr.mem_bitVariables_iff hOne).mpr hTest,
      hOut, forest, hRun⟩

/-
  A valid expression has diagrams under exactly the orders
  that have all its tests, and is refused for a test that is
  missing otherwise. There is one diagram for each bit. Where
  all signals have values, each diagram has the value of its
  bit under the tests that follow the signals, and there are
  such tests.
-/
theorem build_exact
    (hValid : e.validate = .ok ())
    (hOne : OneWidth (· ∈ e.occurrences))
    (hNames : Unbracketed (· ∈ e.occurrences))
    (order : List String) :
    ((∃ refs forest, (ofOrder order).build e = (.ok refs, forest)) ↔
      ∀ n ∈ e.bitVariables, n ∈ order) ∧
    (∀ err forest, (ofOrder order).build e = (.error err, forest) →
      ∃ n ∈ e.bitVariables, n ∉ order ∧
        err = .unknownVariable n) ∧
    ∀ refs forest, (ofOrder order).build e = (.ok refs, forest) →
      refs.length = e.width ∧
      ∀ ρ : Valuation, (∀ v ∈ e.occurrences, (ρ v.name).isSome) →
        ∃ x, e.eval ρ = .ok x ∧
          (∃ ν, Follows (· ∈ e.occurrences) ρ.filled ν) ∧
          ∀ ν, Follows (· ∈ e.occurrences) ρ.filled ν →
            ∀ i r, refs[i]? = some r →
              forest.eval ν r = x.testBit i := by
  have he := Expr.validate_eq_ok_iff.mp hValid
  rcases build_cases he hOne order with
    ⟨hAll, refs, forest, hRun, hShows⟩ |
      ⟨n, hn, hOut, forest, hRun⟩
  · refine ⟨⟨fun _ => hAll, fun _ => ⟨refs, forest, hRun⟩⟩, ?_, ?_⟩
    · intro err forest' hError
      rw [hRun] at hError
      cases hError
    · intro refs' forest' hRun'
      rw [hRun] at hRun'
      cases hRun'
      refine ⟨hShows.length_eq, ?_⟩
      intro ρ hBound
      refine ⟨e.value ρ.filled, (Expr.known_of_bound hBound).eval,
        exists_follows hNames ρ.filled, ?_⟩
      intro ν hFollows i r hr
      exact (hShows.has i r hr).eval_eq ρ.filled ν hFollows
  · refine ⟨⟨?_, fun hAll => absurd (hAll n hn) hOut⟩, ?_, ?_⟩
    · intro hOk
      rcases hOk with ⟨refs, forest', hRun'⟩
      rw [hRun] at hRun'
      cases hRun'
    · intro err forest' hError
      rw [hRun] at hError
      cases hError
      exact ⟨n, hn, hOut, rfl⟩
    · intro refs forest' hRun'
      rw [hRun] at hRun'
      cases hRun'

/-
  Two bits of a signal, counted upwards, above whether its
  lowest bit differs from another signal.
-/
def ascendingPart : Expr :=
  let v : Expr := .var none ⟨"v", 3, false⟩
  .concat none
    [.part none v 1 2,
     .compare none .neq (.var none ⟨"a", 1, false⟩)
      (.bit none v 0)]

def ascendingValues : Valuation := fun n =>
  if n = "v" then some 5 else if n = "a" then some 1 else none

theorem build_exact_ascendingPart :
    (∃ refs forest,
      (ofOrder ["v[2]", "a", "v[0]", "v[1]"]).build ascendingPart =
        (.ok refs, forest) ∧
      refs.length = 3 ∧
      ∃ ν, Follows (· ∈ ascendingPart.occurrences)
          ascendingValues.filled ν ∧
        ∀ i r, refs[i]? = some r →
          forest.eval ν r = Nat.testBit 4 i) ∧
    ¬ ∃ refs forest, (ofOrder ["v[2]", "a"]).build ascendingPart =
      (.ok refs, forest) := by
  have hWidths : ∀ v ∈ ascendingPart.occurrences,
      ∀ w ∈ ascendingPart.occurrences,
        v.name = w.name → v.width = w.width := by
    decide
  have hNames : Unbracketed (· ∈ ascendingPart.occurrences) := by
    unfold Unbracketed
    decide
  have hBound : ∀ v ∈ ascendingPart.occurrences,
      (ascendingValues v.name).isSome := by
    decide
  have hExact := build_exact (e := ascendingPart) rfl
    (fun v w hv hw => hWidths v hv w hw) hNames
  constructor
  · rcases hExact ["v[2]", "a", "v[0]", "v[1]"] with
      ⟨hIff, _, hBits⟩
    rcases hIff.mpr (by decide +kernel) with ⟨refs, forest, hRun⟩
    rcases hBits refs forest hRun with ⟨hLength, hValues⟩
    rcases hValues ascendingValues hBound with
      ⟨x, hEval, ⟨ν, hFollows⟩, hAll⟩
    cases hEval
    exact ⟨refs, forest, hRun, hLength, ν, hFollows,
      hAll ν hFollows⟩
  · intro hRun
    have hAll := (hExact ["v[2]", "a"]).1.mp hRun
    revert hAll
    decide +kernel

end Forest

end Gatework
