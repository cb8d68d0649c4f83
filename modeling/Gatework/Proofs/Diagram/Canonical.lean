import Gatework.Proofs.Diagram.Tests

/-
  The canonical text of an expression decides its function.

  Two expressions are built in forests of their own, each
  with its own order of tests. A reduced tree tests only what
  its function depends on, so trees of both forests are
  reduced in one common order, where equal functions are
  equal trees; and the text can be read back.

  Key definitions include:
    * `Expr.Drawn`, the trees of an expression
    * `Expr.SameLogic`, one function of the signals
    * `Expr.TextsDecide`

  Key theorems include:
    * `Decision.Reduced.of_ascending`
    * `Expr.Drawn.eq_iff`
    * `Expr.canonicalBy_eq_iff`, for any digest
    * `Expr.canonical_eq_iff`
-/

------------------------------------------------------------
-- Ascending orders
------------------------------------------------------------

namespace Gatework

variable {order other : List String}

/- Places in an ascending order follow the names. -/
theorem Ascending.lt_iff_place_lt
    (hOrder : Ascending order)
    {a b : String}
    {i j : Nat}
    (ha : Forest.lastPlace? a 0 order = some i)
    (hb : Forest.lastPlace? b 0 order = some j) :
    a < b ↔ i < j := by
  have hAt : order[i]? = some a := (Forest.lastPlace?_eq_some ha).2
  have hAt' : order[j]? = some b := (Forest.lastPlace?_eq_some hb).2
  rcases List.getElem?_eq_some_iff.mp hAt with ⟨hi, hGet⟩
  rcases List.getElem?_eq_some_iff.mp hAt' with ⟨hj, hGet'⟩
  have hPairs := List.pairwise_iff_getElem.mp hOrder
  rcases Nat.lt_trichotomy i j with hLess | hSame | hMore
  · have hNames := hPairs i j hi hj hLess
    rw [hGet, hGet'] at hNames
    exact iff_of_true hNames hLess
  · subst hSame
    have hName : a = b := hGet.symm.trans hGet'
    exact iff_of_false (hName ▸ String.lt_irrefl a)
      (Nat.lt_irrefl i)
  · have hNames := hPairs j i hj hi hMore
    rw [hGet, hGet'] at hNames
    exact iff_of_false (String.lt_asymm hNames)
      (Nat.not_lt_of_gt hMore)

namespace Decision

/- A reduced tree tests names at places from its bound on. -/
theorem Reduced.place_of_mem
    {t : Decision}
    {bound : Nat}
    (ht : t.Reduced order bound)
    {a : String}
    (ha : a ∈ t.names) :
    ∃ level, Forest.lastPlace? a 0 order = some level ∧
      bound ≤ level := by
  induction t generalizing bound with
  | leaf b => cases ha
  | test b low high ihLow ihHigh =>
      rcases ht with ⟨level, hPlace, hBound, _, hLow, hHigh⟩
      rcases List.mem_cons.mp ha with rfl | h
      · exact ⟨level, hPlace, hBound⟩
      · have hSide : ∃ place,
            Forest.lastPlace? a 0 order = some place ∧
              level + 1 ≤ place := by
          rcases List.mem_append.mp h with h | h
          · exact ihLow hLow h
          · exact ihHigh hHigh h
        rcases hSide with ⟨place, hFound, hLe⟩
        exact ⟨place, hFound, by omega⟩

/-
  A tree that is reduced in an ascending order is reduced in
  every ascending order that has its tests.
-/
theorem Reduced.of_ascending
    (hOrder : Ascending order)
    (hOther : Ascending other)
    {t : Decision}
    {bound lower : Nat}
    (ht : t.Reduced order bound)
    (hMem : ∀ a ∈ t.names, a ∈ other)
    (hLower : ∀ a ∈ t.names, ∀ level,
      Forest.lastPlace? a 0 other = some level → lower ≤ level) :
    t.Reduced other lower := by
  induction t generalizing bound lower with
  | leaf b => exact trivial
  | test a low high ihLow ihHigh =>
      rcases id ht with ⟨place, hPlace, _, hne, hLow, hHigh⟩
      have hRoot : a ∈ (test a low high).names :=
        List.mem_cons_self ..
      have hLowNames : ∀ b ∈ low.names,
          b ∈ (test a low high).names := fun b hb =>
        List.mem_cons_of_mem _ (List.mem_append_left _ hb)
      have hHighNames : ∀ b ∈ high.names,
          b ∈ (test a low high).names := fun b hb =>
        List.mem_cons_of_mem _ (List.mem_append_right _ hb)
      rcases Forest.exists_lastPlace? (hMem a hRoot) 0 with
        ⟨level, hLevel⟩
      -- What is below the root in one order is below it in
      -- the other.
      have hBelow : ∀ {side : Decision},
          side.Reduced order (place + 1) →
          ∀ b ∈ side.names, ∀ level',
          Forest.lastPlace? b 0 other = some level' →
            level + 1 ≤ level' := by
        intro side hSide b hb level' hLevel'
        rcases hSide.place_of_mem hb with ⟨place', hPlace', hLe⟩
        have hLess : a < b :=
          (hOrder.lt_iff_place_lt hPlace hPlace').mpr hLe
        exact (hOther.lt_iff_place_lt hLevel hLevel').mp hLess
      exact ⟨level, hLevel, hLower a hRoot level hLevel, hne,
        ihLow hLow (fun b hb => hMem b (hLowNames b hb))
          (hBelow hLow),
        ihHigh hHigh (fun b hb => hMem b (hHighNames b hb))
          (hBelow hHigh)⟩

end Decision

end Gatework

------------------------------------------------------------
-- The trees of an expression
------------------------------------------------------------

namespace Gatework

namespace Expr

variable {Γ : Var → Prop}

/-
  Trees, reduced in an order, with the values of the bits of
  an expression.
-/
structure Drawn
    (Γ : Var → Prop)
    (order : List String)
    (e : Expr)
    (ts : List Decision) :
    Prop where
  length_eq : ts.length = e.width
  reduced : ∀ t ∈ ts, t.Reduced order 0
  value_eq : ∀ i t, ts[i]? = some t → ∀ τ ν, Follows Γ τ ν →
    t.value ν = (e.value τ).testBit i

theorem Drawn.mono
    {Δ : Var → Prop}
    {order : List String}
    {e : Expr}
    {ts : List Decision}
    (h : Drawn Γ order e ts)
    (hSub : ∀ v, Γ v → Δ v) :
    Drawn Δ order e ts :=
  ⟨h.length_eq, h.reduced, fun i t ht τ ν hFollows =>
    h.value_eq i t ht τ ν (hFollows.mono hSub)⟩

/- The trees test bits of the signals only. -/
theorem Drawn.isTest
    (hOne : OneWidth Γ)
    {order : List String}
    {e : Expr}
    {ts : List Decision}
    (h : Drawn Γ order e ts)
    {t : Decision}
    (ht : t ∈ ts)
    {a : String}
    (ha : a ∈ t.names) :
    IsTest Γ a := by
  rcases List.getElem?_of_mem ht with ⟨i, hi⟩
  by_cases hTest : IsTest Γ a
  · exact hTest
  · refine absurd ha
      (Decision.not_mem_names_of_free (h.reduced t ht) ?_)
    intro ν x
    rcases exists_follows_of_tests hOne ν with ⟨τ, hFollows⟩
    rw [h.value_eq i t hi τ ν hFollows,
      h.value_eq i t hi τ _ (hFollows.setting hTest x)]

theorem Drawn.plain
    (hOne : OneWidth Γ)
    (hNamed : Named Γ)
    {order : List String}
    {e : Expr}
    {ts : List Decision}
    (h : Drawn Γ order e ts) :
    ∀ t ∈ ts, t.Plain :=
  fun _ ht _ ha => (h.isTest hOne ht ha).not_mem_comma hNamed

/- Trees in an ascending order are trees in a larger one. -/
theorem Drawn.widen
    {order other : List String}
    {e : Expr}
    {ts : List Decision}
    (h : Drawn Γ order e ts)
    (hOrder : Ascending order)
    (hOther : Ascending other)
    (hSub : ∀ a ∈ order, a ∈ other) :
    Drawn Γ other e ts := by
  refine ⟨h.length_eq, ?_, h.value_eq⟩
  intro t ht
  have hReduced := h.reduced t ht
  apply hReduced.of_ascending hOrder hOther
  · intro a ha
    rcases hReduced.place_of_mem ha with ⟨level, hPlace, _⟩
    exact hSub a (List.mem_of_getElem?
      (Forest.lastPlace?_eq_some hPlace).2)
  · intro a ha level hLevel
    exact Nat.zero_le level

/- In one order, trees are equal when the functions are. -/
theorem Drawn.eq_iff
    (hOne : OneWidth Γ)
    (hNamed : Named Γ)
    {order : List String}
    {e₁ e₂ : Expr}
    (he₁ : e₁.Typed Γ)
    (he₂ : e₂.Typed Γ)
    {ts us : List Decision}
    (h₁ : Drawn Γ order e₁ ts)
    (h₂ : Drawn Γ order e₂ us) :
    ts = us ↔
      e₁.width = e₂.width ∧ ∀ τ, e₁.value τ = e₂.value τ := by
  constructor
  · rintro rfl
    have hWidth : e₁.width = e₂.width :=
      h₁.length_eq.symm.trans h₂.length_eq
    refine ⟨hWidth, ?_⟩
    intro τ
    rcases exists_follows hNamed.unbracketed τ with ⟨ν, hFollows⟩
    apply he₁.value_eq_of_bits hWidth (he₂.value_lt τ)
    intro i hi
    have hTree : ts[i]? = some (ts.get ⟨i, h₂.length_eq ▸ hi⟩) :=
      List.getElem?_eq_getElem _
    rw [← h₁.value_eq i _ hTree τ ν hFollows,
      ← h₂.value_eq i _ hTree τ ν hFollows]
  · rintro ⟨hWidth, hValue⟩
    apply List.ext_getElem?
    intro i
    cases hT : ts[i]? with
    | none =>
        have hLong := List.getElem?_eq_none_iff.mp hT
        rw [h₁.length_eq, hWidth, ← h₂.length_eq] at hLong
        exact (List.getElem?_eq_none_iff.mpr hLong).symm
    | some t =>
        cases hU : us[i]? with
        | none =>
            have hLong := List.getElem?_eq_none_iff.mp hU
            rw [h₂.length_eq, ← hWidth, ← h₁.length_eq] at hLong
            rw [List.getElem?_eq_none_iff.mpr hLong] at hT
            cases hT
        | some u =>
            refine congrArg some (Decision.eq_of_value_eq
              (h₁.reduced t (List.mem_of_getElem? hT))
              (h₂.reduced u (List.mem_of_getElem? hU)) ?_)
            intro ν
            rcases exists_follows_of_tests hOne ν with
              ⟨τ, hFollows⟩
            rw [h₁.value_eq i t hT τ ν hFollows,
              h₂.value_eq i u hU τ ν hFollows, hValue]

/-
  The canonical text is the text of such trees, and only the
  text is digested.
-/
theorem explainLogicBy_drawn
    (digest : String → Digest)
    {e : Expr}
    (he : e.Typed Γ)
    {order : List String}
    (hOrder : Building.Covers Γ order) :
    ∃ ts, e.explainLogicBy digest order =
        .ok ⟨treesText ts, digest (treesText ts), order⟩ ∧
      Drawn Γ order e ts := by
  rcases gives_diagrams he
    (Forest.sound_ofOrder order) hOrder with
    ⟨refs, forest, hBuild, hSound, hExtends, hShows⟩
  have hRefs : ∀ r ∈ refs, r < forest.size := by
    intro r hr
    rcases List.getElem?_of_mem hr with ⟨i, hi⟩
    exact (hShows.has i r hi).lt
  have hOrderEq : forest.order = order := hExtends.order_eq
  refine ⟨refs.map forest.tree, ?_, ?_, ?_, ?_⟩
  · rw [explainLogicBy, Forest.build, hBuild]
    simp only
    rw [hSound.renderBits_eq hRefs]
  · rw [List.length_map, hShows.length_eq]
  · intro t ht
    rcases List.mem_map.mp ht with ⟨r, hr, rfl⟩
    rw [← hOrderEq]
    exact (hSound.reduced_tree (hRefs r hr)).mono
      (Nat.zero_le _)
  · intro i t ht τ ν hFollows
    rw [List.getElem?_map] at ht
    rcases Option.map_eq_some_iff.mp ht with ⟨r, hr, rfl⟩
    rw [← forest.eval_eq_value]
    exact (hShows.has i r hr).eval_eq τ ν hFollows

end Expr

end Gatework

------------------------------------------------------------
-- Texts and functions
------------------------------------------------------------

namespace Gatework

namespace Expr

/-
  One width, and one value wherever the signals of both are
  known.
-/
def SameLogic
    (e₁ e₂ : Expr) :
    Prop :=
  e₁.width = e₂.width ∧
    ∀ ρ : Valuation,
      (∀ n ∈ e₁.freeVars.names ++ e₂.freeVars.names,
        (ρ n).isSome) →
      e₁.eval ρ = e₂.eval ρ

/-
  Both canonical texts exist, and they are equal exactly when
  the functions are; then the digests are equal too.
-/
def TextsDecide
    (e₁ e₂ : Expr)
    (x₁ x₂ : Except DiagramError Explanation) :
    Prop :=
  ∃ y₁ y₂, x₁ = .ok y₁ ∧ x₂ = .ok y₂ ∧
    (y₁.canonical = y₂.canonical ↔ SameLogic e₁ e₂) ∧
    (SameLogic e₁ e₂ → y₁.digest = y₂.digest)

/- The function over all numbers or over known signals. -/
theorem sameLogic_iff
    {e₁ e₂ : Expr} :
    SameLogic e₁ e₂ ↔
      e₁.width = e₂.width ∧ ∀ τ, e₁.value τ = e₂.value τ := by
  unfold SameLogic
  refine and_congr_right ?_
  intro _
  constructor
  · intro hEval τ
    have hSame := hEval (fun n => some (τ n)) (fun _ _ => rfl)
    rw [eval_total, eval_total] at hSame
    exact Except.ok.inj hSame
  · intro hValue ρ hBound
    let τ : String → Nat := fun n => (ρ n).getD 0
    have hKnown : ∀ n ∈ e₁.freeVars.names ++ e₂.freeVars.names,
        ρ n = some (τ n) := by
      intro n hn
      rcases Option.isSome_iff_exists.mp (hBound n hn) with ⟨x, hx⟩
      simp only [τ, hx, Option.getD_some]
    have h₁ : e₁.eval ρ = .ok (e₁.value τ) := by
      apply eval_eq_value
      intro v hv
      apply hKnown
      exact List.mem_append_left _
        ((mem_names_freeVars e₁ v.name).mpr
          (List.mem_map_of_mem hv))
    have h₂ : e₂.eval ρ = .ok (e₂.value τ) := by
      apply eval_eq_value
      intro v hv
      apply hKnown
      exact List.mem_append_right _
        ((mem_names_freeVars e₂ v.name).mpr
          (List.mem_map_of_mem hv))
    rw [h₁, h₂, hValue]

/- Trees in one order decide, through their texts. -/
theorem Drawn.textsDecide
    (digest : String → Digest)
    {Γ : Var → Prop}
    (hOne : OneWidth Γ)
    (hNamed : Named Γ)
    {e₁ e₂ : Expr}
    (he₁ : e₁.Typed Γ)
    (he₂ : e₂.Typed Γ)
    {order order₁ order₂ : List String}
    {ts us : List Decision}
    (h₁ : Drawn Γ order e₁ ts)
    (h₂ : Drawn Γ order e₂ us) :
    TextsDecide e₁ e₂
      (.ok ⟨treesText ts, digest (treesText ts), order₁⟩)
      (.ok ⟨treesText us, digest (treesText us), order₂⟩) := by
  have hTrees : ts = us ↔ SameLogic e₁ e₂ :=
    (Drawn.eq_iff hOne hNamed he₁ he₂ h₁ h₂).trans
      sameLogic_iff.symm
  refine ⟨_, _, rfl, rfl, ?_, ?_⟩
  · constructor
    · intro hText
      exact hTrees.mp (treesText_inj (h₁.plain hOne hNamed)
        (h₂.plain hOne hNamed) hText)
    · intro hSame
      exact congrArg treesText (hTrees.mpr hSame)
  · intro hSame
    exact congrArg (fun ts => digest (treesText ts))
      (hTrees.mpr hSame)

/- The signals of two expressions. -/
def ReadByEither
    (e₁ e₂ : Expr)
    (v : Var) :
    Prop :=
  v ∈ e₁.occurrences ∨ v ∈ e₂.occurrences

/-
  The canonical text decides logical equivalence, under the
  ascending order of the tests of each expression and under
  any order that has the tests of both, however texts are
  digested.
-/
theorem canonicalBy_eq_iff
    (digest : String → Digest)
    {e₁ e₂ : Expr}
    (hValid₁ : e₁.validate = .ok ())
    (hValid₂ : e₂.validate = .ok ())
    (hNamed : Named (ReadByEither e₁ e₂))
    (hOne : OneWidth (ReadByEither e₁ e₂)) :
    TextsDecide e₁ e₂ (e₁.explainLogicBy digest e₁.bitVariables)
        (e₂.explainLogicBy digest e₂.bitVariables) ∧
      ∀ order,
        (∀ n ∈ e₁.bitVariables ++ e₂.bitVariables, n ∈ order) →
        TextsDecide e₁ e₂ (e₁.explainLogicBy digest order)
          (e₂.explainLogicBy digest order) := by
  have hSub₁ : ∀ v, v ∈ e₁.occurrences → ReadByEither e₁ e₂ v :=
    fun _ => Or.inl
  have hSub₂ : ∀ v, v ∈ e₂.occurrences → ReadByEither e₁ e₂ v :=
    fun _ => Or.inr
  have he₁ : e₁.Typed (· ∈ e₁.occurrences) :=
    typed_of_validate hValid₁ (fun _ hv => hv)
  have he₂ : e₂.Typed (· ∈ e₂.occurrences) :=
    typed_of_validate hValid₂ (fun _ hv => hv)
  have hAll₁ : e₁.Typed (ReadByEither e₁ e₂) :=
    typed_of_validate hValid₁ hSub₁
  have hAll₂ : e₂.Typed (ReadByEither e₁ e₂) :=
    typed_of_validate hValid₂ hSub₂
  have hCovers₁ := covers_bitVariables (e := e₁)
    (fun v w hv hw => hOne v w (hSub₁ v hv) (hSub₁ w hw))
  have hCovers₂ := covers_bitVariables (e := e₂)
    (fun v w hv hw => hOne v w (hSub₂ v hv) (hSub₂ w hw))
  constructor
  · rcases explainLogicBy_drawn digest he₁ hCovers₁ with
      ⟨ts, hText₁, hDrawn₁⟩
    rcases explainLogicBy_drawn digest he₂ hCovers₂ with
      ⟨us, hText₂, hDrawn₂⟩
    -- Both orders are ascending, so the trees live in one.
    have hCommon := ascending_sortedNames
      (e₁.bitVariables ++ e₂.bitVariables)
    rw [hText₁, hText₂]
    exact Drawn.textsDecide digest hOne hNamed hAll₁ hAll₂
      ((hDrawn₁.mono hSub₁).widen (ascending_sortedNames _) hCommon
        (fun a ha => mem_sortedNames.mpr
          (List.mem_append_left _ ha)))
      ((hDrawn₂.mono hSub₂).widen (ascending_sortedNames _) hCommon
        (fun a ha => mem_sortedNames.mpr
          (List.mem_append_right _ ha)))
  · intro order hOrder
    have hOrder₁ : Building.Covers (· ∈ e₁.occurrences) order :=
      fun v hv i hi => hOrder _
        (List.mem_append_left _ (hCovers₁ v hv i hi))
    have hOrder₂ : Building.Covers (· ∈ e₂.occurrences) order :=
      fun v hv i hi => hOrder _
        (List.mem_append_right _ (hCovers₂ v hv i hi))
    rcases explainLogicBy_drawn digest he₁ hOrder₁ with
      ⟨ts, hText₁, hDrawn₁⟩
    rcases explainLogicBy_drawn digest he₂ hOrder₂ with
      ⟨us, hText₂, hDrawn₂⟩
    rw [hText₁, hText₂]
    exact Drawn.textsDecide digest hOne hNamed hAll₁ hAll₂
      (hDrawn₁.mono hSub₁) (hDrawn₂.mono hSub₂)

/- So it does with the digest that is used. -/
theorem canonical_eq_iff
    {e₁ e₂ : Expr}
    (hValid₁ : e₁.validate = .ok ())
    (hValid₂ : e₂.validate = .ok ())
    (hNamed : Named (ReadByEither e₁ e₂))
    (hOne : OneWidth (ReadByEither e₁ e₂)) :
    TextsDecide e₁ e₂ e₁.explainLogic e₂.explainLogic ∧
      ∀ order,
        (∀ n ∈ e₁.bitVariables ++ e₂.bitVariables, n ∈ order) →
        TextsDecide e₁ e₂ (e₁.explainLogicWith order)
          (e₂.explainLogicWith order) :=
  canonicalBy_eq_iff Digest.ofText hValid₁ hValid₂ hNamed hOne

/- A signal of four bits. -/
def plainSignal : Expr :=
  var none ⟨"a", 4, false⟩

/- The same signal behind a selector that does not matter. -/
def idleSelector : Expr :=
  mux none (var none ⟨"b$0", 1, false⟩) plainSignal plainSignal

theorem canonical_eq_iff_idleSelector :
    ∃ y₁ y₂, idleSelector.explainLogic = .ok y₁ ∧
      plainSignal.explainLogic = .ok y₂ ∧
      y₁.canonical = y₂.canonical ∧ y₁.digest = y₂.digest := by
  let read : List Var := [⟨"b$0", 1, false⟩, ⟨"a", 4, false⟩]
  have hRead : ∀ v, ReadByEither idleSelector plainSignal v →
      v ∈ read := by
    intro v hv
    simpa [ReadByEither, idleSelector, plainSignal, occurrences,
      read] using hv
  have hNames : ∀ v ∈ read,
      v.name.toList.all Hdl.isNameChar = true := by
    decide
  have hWidths : ∀ v ∈ read, ∀ w ∈ read,
      v.name = w.name → v.width = w.width := by
    decide
  have hSame : SameLogic idleSelector plainSignal := by
    refine sameLogic_iff.mpr ⟨rfl, ?_⟩
    intro τ
    have hTyped : idleSelector.Typed Var.HasName :=
      validate_eq_ok_iff.mp rfl
    rw [idleSelector, value_mux hTyped]
    split <;> rfl
  have hDecide := (@canonical_eq_iff idleSelector plainSignal
    rfl rfl (fun v hv => List.all_eq_true.mp (hNames v (hRead v hv)))
    (fun v w hv hw => hWidths v (hRead v hv) w (hRead w hw))).1
  rcases hDecide with ⟨y₁, y₂, hFirst, hSecond, hText, hDigest⟩
  exact ⟨y₁, y₂, hFirst, hSecond, hText.mpr hSame, hDigest hSame⟩

end Expr

end Gatework
