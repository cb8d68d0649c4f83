import Gatework.Proofs.Flatten.Slots

/-
  Merging the outcomes of branches.

  Of several branches the one behind the first guard that
  holds is taken. Merging gives slots that stand for the same
  change of values, although signals that no branch changes
  are passed over.

  Key definitions include:
    * `picked`, the outcome of the branch taken
    * `Branches`, branches that make a state change together

  Key theorems include:
    * `Flattening.yields_mergeOne`
    * `Flattening.yields_merge`
-/

------------------------------------------------------------
-- Changed signals
------------------------------------------------------------

namespace Gatework

namespace Slots

theorem mem_distinct
    {names seen : List String}
    {n : String} :
    n ∈ names.foldl
        (fun seen n => if n ∈ seen then seen else seen ++ [n])
        seen ↔
      n ∈ seen ∨ n ∈ names := by
  induction names generalizing seen with
  | nil => simp
  | cons name names ih =>
      rw [List.foldl_cons, ih, List.mem_cons]
      by_cases hSeen : name ∈ seen
      · rw [if_pos hSeen]
        constructor
        · rintro (h | h)
          · exact Or.inl h
          · exact Or.inr (Or.inr h)
        · rintro (h | rfl | h)
          · exact Or.inl h
          · exact Or.inl hSeen
          · exact Or.inr h
      · rw [if_neg hSeen, List.mem_append, List.mem_singleton,
          or_assoc]

theorem mem_changedIn
    {before : Slots}
    {outcomes : List Slots}
    {n : String} :
    n ∈ before.changedIn outcomes ↔
      ∃ o ∈ outcomes, n ∈ before.changed o := by
  unfold changedIn
  rw [mem_distinct, List.mem_flatMap]
  simp

/- A changed signal is one that the outcome has. -/
theorem contains_of_mem_changed
    {before outcome : Slots}
    {n : String}
    (hn : n ∈ before.changed outcome) :
    outcome.contains n = true := by
  rcases List.mem_map.mp hn with ⟨⟨k, slot⟩, hEntry, rfl⟩
  exact NameMap.contains_of_mem_entries
    (List.mem_filter.mp hEntry).1

/- A signal that is not changed has the value it had. -/
theorem value?_eq_of_not_mem_changed
    {before outcome : Slots}
    {n : String}
    {slot : Slot}
    (hFound : outcome.find? n = some slot)
    (hn : n ∉ before.changed outcome) :
    before.value? n = some slot.value := by
  have hKept : before.keeps n slot = true := by
    cases hKeeps : before.keeps n slot with
    | true => rfl
    | false =>
        exfalso
        apply hn
        apply List.mem_map.mpr
        refine ⟨(n, slot), List.mem_filter.mpr ⟨?_, ?_⟩, rfl⟩
        · exact NameMap.mem_entries_of_find?_eq_some hFound
        · simp [hKeeps]
  unfold keeps at hKept
  split at hKept
  case h_1 old hOld =>
      rw [hOld, Expr.eq_of_identical hKept]
  case h_2 => cases hKept

end Slots

end Gatework

------------------------------------------------------------
-- Branches
------------------------------------------------------------

namespace Gatework

/- The outcomes of guarded branches and of the last one. -/
def outcomesOf
    (arms : List (Expr × Slots))
    (tail : Option Slots) :
    List Slots :=
  arms.map Prod.snd ++ tail.toList

/- The outcome behind the first guard that holds. -/
def picked
    (τ : String → Nat)
    (before : Slots)
    (tail : Option Slots) :
    List (Expr × Slots) → Slots
  | [] => tail.getD before
  | (c, outcome) :: arms =>
      if c.holds τ then outcome else picked τ before tail arms

/-
  Branches from some slots on that together make a change of
  values and write some names.
-/
structure Branches
    (Γ T : Var → Prop)
    (p : Fallback)
    (before : Slots)
    (names : String → Prop)
    (next : (String → Nat) → String → Nat)
    (arms : List (Expr × Slots))
    (tail : Option Slots) :
    Prop where
  guards : ∀ arm ∈ arms, Expr.Scalar Γ arm.1
  typed : ∀ o ∈ outcomesOf arms tail, o.Typed Γ T
  keeps : ∀ o ∈ outcomesOf arms tail, ∀ n,
    before.contains n → o.contains n
  contains : ∀ n,
    (before.contains n ∨
        ∃ o ∈ outcomesOf arms tail, o.contains n) ↔
      before.contains n ∨ names n
  agrees : ∀ τ, Ready p T τ →
    Agree Γ ((picked τ before tail arms).meaning τ)
      (next (before.meaning τ))

theorem picked_mem
    (τ : String → Nat)
    (before : Slots)
    (tail : Option Slots)
    (arms : List (Expr × Slots)) :
    picked τ before tail arms ∈ outcomesOf arms tail ∨
      picked τ before tail arms = before := by
  induction arms with
  | nil =>
      cases tail with
      | none => exact Or.inr rfl
      | some o => exact Or.inl (List.mem_singleton.mpr rfl)
  | cons arm arms ih =>
      rcases arm with ⟨c, outcome⟩
      rw [picked]
      split
      · exact Or.inl (List.mem_cons_self ..)
      · exact ih.imp (List.mem_cons_of_mem _) id

namespace Branches

variable {Γ T : Var → Prop}
variable {p : Fallback}
variable {before : Slots}
variable {names names' : String → Prop}
variable {next next' : (String → Nat) → String → Nat}
variable {arms : List (Expr × Slots)}
variable {tail : Option Slots}

/- No branch at all changes nothing. -/
theorem none :
    Branches Γ T p before Flattening.nothing (fun σ => σ)
      [] none where
  guards := fun arm h => by cases h
  typed := fun o h => by cases h
  keeps := fun o h => by cases h
  contains := fun n => by
    simp [outcomesOf, Flattening.nothing]
  agrees := fun τ _ => Agree.refl _

/- A last branch that is always taken. -/
theorem last
    {outcome : Slots}
    (h : Slots.After Γ T p before names next outcome) :
    Branches Γ T p before names next [] (some outcome) where
  guards := fun arm h => by cases h
  typed := fun o ho => by
    rw [List.mem_singleton.mp ho]
    exact h.typed
  keeps := fun o ho n hn => by
    rw [List.mem_singleton.mp ho]
    exact (h.contains n).mpr (Or.inl hn)
  contains := fun n => by
    simp only [outcomesOf, List.map_nil, List.nil_append,
      Option.toList_some, List.mem_singleton, exists_eq_left,
      h.contains n]
    exact or_self_left
  agrees := h.agrees

/- One more branch before others. -/
theorem cons
    (h : Branches Γ T p before names' next' arms tail)
    {c : Expr}
    (hGuard : Expr.Scalar Γ c)
    {outcome : Slots}
    (hOutcome :
      Slots.After Γ T p before names next outcome)
    (meaning : (String → Nat) → Bool)
    (hMeaning : ∀ τ, Ready p T τ →
      c.holds τ = meaning (before.meaning τ)) :
    Branches Γ T p before (fun n => names n ∨ names' n)
      (fun σ => if meaning σ then next σ else next' σ)
      ((c, outcome) :: arms) tail where
  guards := by
    intro arm hArm
    rcases List.mem_cons.mp hArm with rfl | hRest
    · exact hGuard
    · exact h.guards arm hRest
  typed := by
    intro o ho
    rcases List.mem_cons.mp ho with rfl | hRest
    · exact hOutcome.typed
    · exact h.typed o hRest
  keeps := by
    intro o ho n hn
    rcases List.mem_cons.mp ho with rfl | hRest
    · exact (hOutcome.contains n).mpr (Or.inl hn)
    · exact h.keeps o hRest n hn
  contains := by
    intro n
    have hHead := hOutcome.contains n
    have hTail := h.contains n
    change (_ ∨ ∃ o ∈ outcome :: outcomesOf arms tail, _) ↔ _
    simp only [List.mem_cons, exists_eq_or_imp, hHead]
    grind
  agrees := by
    intro τ hReady
    rw [picked, hMeaning τ hReady]
    split
    · exact hOutcome.agrees τ hReady
    · exact h.agrees τ hReady

end Branches

end Gatework

------------------------------------------------------------
-- Merging one signal
------------------------------------------------------------

namespace Gatework

namespace Flattening

variable {Γ T : Var → Prop}
variable {p : Fallback}
variable {before : Slots}
variable {names : String → Prop}
variable {next : (String → Nat) → String → Nat}
variable {arms : List (Expr × Slots)}
variable {tail : Option Slots}

theorem firstSlot?_spec
    {outcomes : List Slots}
    (hTyped : ∀ o ∈ outcomes, o.Typed Γ T)
    {n : String}
    (hHas : ∃ o ∈ outcomes, o.contains n = true) :
    ∃ slot v, firstSlot? n outcomes = some slot ∧
      v.name = n ∧ T v ∧ slot.Holds Γ v := by
  unfold firstSlot?
  cases hFirst : outcomes.findSome? fun o => o.find? n with
  | none =>
      rcases hHas with ⟨o, ho, hContains⟩
      have hNone := List.findSome?_eq_none_iff.mp hFirst o ho
      simp [NameMap.contains, hNone] at hContains
  | some slot =>
      rcases List.exists_of_findSome?_eq_some hFirst with
        ⟨o, ho, hFound⟩
      rcases hTyped o ho n slot hFound with ⟨v, hv⟩
      exact ⟨slot, v, rfl, hv⟩

/-
  An outcome gives a signal its own value, or the one from
  before if the branch leaves the signal alone.
-/
theorem valueIn_typed
    (hOne : OneWidth Γ)
    {v : Var}
    (hv : Γ v)
    {old : Expr}
    (hOld : old.Typed Γ)
    (hWidth : old.width = v.width)
    {o : Slots}
    (ho : o.Typed Γ T) :
    ((o.value? v.name).getD old).Typed Γ ∧
      ((o.value? v.name).getD old).width = v.width := by
  unfold Slots.value?
  cases hFound : o.find? v.name with
  | none => exact ⟨hOld, hWidth⟩
  | some slot =>
      rcases ho v.name slot hFound with ⟨w, hName, _, hSlot⟩
      exact ⟨hSlot.value, hSlot.width_eq.trans
        (hOne w v hSlot.signal.2.2 hv hName)⟩

theorem valueIn_value
    (hOne : OneWidth Γ)
    {v : Var}
    (hv : Γ v)
    {old : Expr}
    {o : Slots}
    (ho : o.Typed Γ T)
    (hKeeps : before.contains v.name → o.contains v.name)
    {τ : String → Nat}
    (hValue : old.value τ =
      before.meaning τ v.name &&& mask v.width) :
    ((o.value? v.name).getD old).value τ =
      o.meaning τ v.name &&& mask v.width := by
  unfold Slots.value?
  cases hFound : o.find? v.name with
  | none =>
      have hBefore : before.find? v.name = none :=
        NameMap.find?_eq_none_of_imp hKeeps hFound
      rw [Slots.meaning_of_find?_eq_none hBefore] at hValue
      rw [Slots.meaning_of_find?_eq_none hFound]
      exact hValue
  | some slot =>
      rcases ho v.name slot hFound with ⟨w, hName, _, hSlot⟩
      have hWidth : slot.value.width = v.width :=
        hSlot.width_eq.trans
          (hOne w v hSlot.signal.2.2 hv hName)
      rw [Slots.meaning_of_find?_eq_some hFound, ← hWidth]
      exact (hSlot.value.value_and_mask τ).symm

/-
  Branches with the negations of their guards and their
  values: priority chooses the value in the outcome picked.
-/
theorem yields_guarded
    (value : Slots → Expr)
    {width : Nat}
    (hGuards : ∀ arm ∈ arms, Expr.Scalar Γ arm.1)
    (hTyped : ∀ arm ∈ arms, (value arm.2).Typed Γ ∧
      (value arm.2).width = width)
    (otherwise : Expr) :
    Yields
      (arms.mapM fun (c, outcome) => do
        return (c, ← stamp c.neg, value outcome))
      nothing
      (fun guarded =>
        (∀ g ∈ guarded, GuardedBy Γ width g) ∧
        ∀ τ (meaning : Slots → Nat),
          (∀ arm ∈ arms,
            (value arm.2).value τ = meaning arm.2) →
          otherwise.value τ = meaning (tail.getD before) →
          (firstValue τ otherwise guarded).value τ =
            meaning (picked τ before tail arms)) := by
  induction arms with
  | nil =>
      rw [List.mapM_nil]
      apply yields_pure
      constructor
      · intro g hg
        cases hg
      · intro τ meaning _ hOther
        exact hOther
  | cons arm arms ih =>
      have hGuard := hGuards arm (List.mem_cons_self ..)
      have hHead := hTyped arm (List.mem_cons_self ..)
      have hTail := ih
        (fun a ha => hGuards a (List.mem_cons_of_mem _ ha))
        (fun a ha => hTyped a (List.mem_cons_of_mem _ ha))
      rcases arm with ⟨c, outcome⟩
      rw [List.mapM_cons]
      have hNegated : Yields
          (do return (c, ← stamp c.neg, value outcome)) nothing
          (fun g => ∃ notC, notC.unmarked = c.neg.unmarked ∧
            g = (c, notC, value outcome)) :=
        (yields_stamp c.neg).then
          (fun notC hSame => yields_pure ⟨notC, hSame, rfl⟩)
      apply hNegated.then
      rintro _ ⟨notC, hSame, rfl⟩
      apply hTail.then
      rintro guarded ⟨hGuarded, hFirst⟩
      apply yields_pure
      constructor
      · intro g hg
        rcases List.mem_cons.mp hg with rfl | hRest
        · exact ⟨hGuard, hSame, hHead.1, hHead.2⟩
        · exact hGuarded g hRest
      · intro τ meaning hValue hOther
        rw [firstValue, picked]
        split
        · exact hValue (c, outcome) (List.mem_cons_self ..)
        · exact hFirst τ meaning
            (fun a ha => hValue a (List.mem_cons_of_mem _ ha))
            hOther

/- The merged value is the one in the outcome picked. -/
theorem yields_mergeOne
    (hOne : OneWidth Γ)
    (hBefore : before.Typed Γ T)
    (h : Branches Γ T p before names next arms tail)
    {n : String}
    (hHas : ∃ o ∈ outcomesOf arms tail, o.contains n = true)
    (slots : Slots) :
    Yields (mergeOne p before arms tail slots n) nothing
      (fun slots' => ∃ slot v, slots' = slots.insert v.name slot ∧
        v.name = n ∧ T v ∧ slot.Holds Γ v ∧
        ∀ τ, Ready p T τ →
          slot.value.value τ =
            (picked τ before tail arms).meaning τ v.name &&&
              mask v.width) := by
  rcases firstSlot?_spec h.typed hHas with
    ⟨first, v, hFirst, rfl, hTarget, hSlot⟩
  have hv : Γ v := hSlot.signal.2.2
  unfold mergeOne
  rw [show firstSlot? v.name (arms.map Prod.snd ++ tail.toList) =
    some first from hFirst]
  apply (yields_prior hOne hBefore hTarget hSlot.whole
    hSlot.signal).then
  rintro old ⟨hOld, hWidth, hValue⟩
  have hTyped : ∀ o ∈ outcomesOf arms tail, _ :=
    fun o ho => valueIn_typed hOne hv hOld hWidth (h.typed o ho)
  have hValues : ∀ o ∈ outcomesOf arms tail, ∀ τ, Ready p T τ →
      ((o.value? v.name).getD old).value τ =
        o.meaning τ v.name &&& mask v.width :=
    fun o ho τ hReady => valueIn_value hOne hv (h.typed o ho)
      (h.keeps o ho v.name) (hValue τ hReady)
  have hArm : ∀ arm ∈ arms, arm.2 ∈ outcomesOf arms tail :=
    fun arm hArm => List.mem_append_left _
      (List.mem_map_of_mem hArm)
  have hOther :
      ∃ otherwise, otherwise = (tail.map fun o =>
          (o.value? v.name).getD old).getD old ∧
        otherwise.Typed Γ ∧ otherwise.width = v.width ∧
        ∀ τ, Ready p T τ → otherwise.value τ =
          (tail.getD before).meaning τ v.name &&&
            mask v.width := by
    cases tail with
    | none => exact ⟨_, rfl, hOld, hWidth, hValue⟩
    | some o =>
        have ho : o ∈ outcomesOf arms (some o) :=
          List.mem_append_right _ (List.mem_singleton.mpr rfl)
        exact ⟨_, rfl, (hTyped o ho).1, (hTyped o ho).2,
          hValues o ho⟩
  rcases hOther with
    ⟨otherwise, hEq, hOtherTyped, hOtherWidth, hOtherValue⟩
  apply (yields_guarded (fun o => (o.value? v.name).getD old)
    h.guards (fun arm ha => hTyped arm.2 (hArm arm ha))
    otherwise).then
  rintro guarded ⟨hArms, hFirst⟩
  rw [← hOtherWidth] at hArms
  rcases priority_value hOtherTyped hArms with
    ⟨hMerged, hMergedWidth, hMergedValue⟩
  dsimp only
  rw [← hEq]
  apply (yields_stamp (priority guarded otherwise)).then
  intro value hSame
  apply yields_pure
  refine ⟨⟨first.whole, value⟩, v, rfl, rfl, hTarget, ?_, ?_⟩
  · exact ⟨hSlot.whole, hSlot.signal,
      (Expr.typed_iff_of_unmarked hSame).mpr hMerged,
      (Expr.width_eq_of_unmarked hSame).trans
        (hMergedWidth.trans hOtherWidth)⟩
  · intro τ hReady
    change value.value τ = _
    rw [Expr.value_eq_of_unmarked hSame, hMergedValue τ]
    exact hFirst τ (fun o => o.meaning τ v.name &&& mask v.width)
      (fun arm ha => hValues arm.2 (hArm arm ha) τ hReady)
      (hOtherValue τ hReady)

end Flattening

end Gatework

------------------------------------------------------------
-- Merging all signals
------------------------------------------------------------

namespace Gatework

/- Slots after some signals have been merged. -/
structure Merged
    (Γ T : Var → Prop)
    (p : Fallback)
    (before : Slots)
    (arms : List (Expr × Slots))
    (tail : Option Slots)
    (done : List String)
    (slots : Slots) :
    Prop where
  typed : slots.Typed Γ T
  contains : ∀ n,
    slots.contains n ↔ before.contains n ∨ n ∈ done
  agrees : ∀ τ, Ready p T τ → ∀ v, Γ v →
    slots.meaning τ v.name &&& mask v.width =
      if v.name ∈ done then
        (picked τ before tail arms).meaning τ v.name &&&
          mask v.width
      else
        before.meaning τ v.name &&& mask v.width

namespace Merged

variable {Γ T : Var → Prop}
variable {p : Fallback}
variable {before slots : Slots}
variable {arms : List (Expr × Slots)}
variable {tail : Option Slots}
variable {done : List String}

theorem start
    (hBefore : before.Typed Γ T) :
    Merged Γ T p before arms tail [] before where
  typed := hBefore
  contains := fun n => (or_iff_left List.not_mem_nil).symm
  agrees := fun τ _ v _ => by rw [if_neg List.not_mem_nil]

/- One signal more. -/
theorem insert
    (hOne : OneWidth Γ)
    (h : Merged Γ T p before arms tail done slots)
    {slot : Slot}
    {v : Var}
    (hTarget : T v)
    (hSlot : slot.Holds Γ v)
    (hValue : ∀ τ, Ready p T τ →
      slot.value.value τ =
        (picked τ before tail arms).meaning τ v.name &&&
          mask v.width) :
    Merged Γ T p before arms tail (done ++ [v.name])
      (slots.insert v.name slot) where
  typed := h.typed.insert hTarget hSlot
  contains := by
    intro n
    rw [Slots.contains_insert, h.contains n, List.mem_append,
      List.mem_singleton, or_assoc]
  agrees := by
    intro τ hReady w hw
    rw [Slots.meaning_insert]
    simp only [List.mem_append, List.mem_singleton]
    by_cases hName : w.name = v.name
    · have hWidth : w.width = v.width :=
        hOne w v hw hSlot.signal.2.2 hName
      rw [if_pos hName, if_pos (Or.inr hName), hName, hWidth,
        ← hValue τ hReady, ← hSlot.width_eq]
      exact hSlot.value.value_and_mask τ
    · simp only [if_neg hName, or_iff_left hName]
      exact h.agrees τ hReady w hw

end Merged

namespace Flattening

variable {Γ T : Var → Prop}
variable {p : Fallback}
variable {before : Slots}
variable {names : String → Prop}
variable {next : (String → Nat) → String → Nat}
variable {arms : List (Expr × Slots)}
variable {tail : Option Slots}

theorem yields_foldlM_mergeOne
    (hOne : OneWidth Γ)
    (hBefore : before.Typed Γ T)
    (h : Branches Γ T p before names next arms tail)
    {ns : List String}
    (hHas : ∀ n ∈ ns,
      ∃ o ∈ outcomesOf arms tail, o.contains n = true)
    {done : List String}
    {slots : Slots}
    (hDone : Merged Γ T p before arms tail done slots) :
    Yields (ns.foldlM (mergeOne p before arms tail) slots)
      nothing (Merged Γ T p before arms tail (done ++ ns)) := by
  induction ns generalizing done slots with
  | nil =>
      rw [List.append_nil]
      exact yields_pure hDone
  | cons n ns ih =>
      rw [List.foldlM_cons]
      apply (yields_mergeOne hOne hBefore h
        (hHas n (List.mem_cons_self ..)) slots).then
      rintro _ ⟨slot, v, rfl, rfl, hTarget, hSlot, hValue⟩
      rw [List.append_cons]
      exact ih (fun m hm => hHas m (List.mem_cons_of_mem _ hm))
        (hDone.insert hOne hTarget hSlot hValue)

/- An outcome that leaves a signal as it was. -/
theorem meaning_eq_of_not_changed
    {o : Slots}
    {n : String}
    (hKeeps : before.contains n → o.contains n)
    (hn : n ∉ before.changed o)
    (τ : String → Nat) :
    before.meaning τ n = o.meaning τ n := by
  cases hFound : o.find? n with
  | none =>
      have hBefore : before.find? n = none :=
        NameMap.find?_eq_none_of_imp hKeeps hFound
      rw [Slots.meaning_of_find?_eq_none hFound,
        Slots.meaning_of_find?_eq_none hBefore]
  | some slot =>
      rw [Slots.meaning_of_find?_eq_some hFound, Slots.meaning,
        Expr.replacedValue,
        Slots.value?_eq_of_not_mem_changed hFound hn]

/- Merged branches make the change of values they stand for. -/
theorem yields_merge
    (hOne : OneWidth Γ)
    (hBefore : before.Typed Γ T)
    (h : Branches Γ T p before names next arms tail) :
    Yields (merge p before arms tail) nothing
      (Slots.After Γ T p before names next) := by
  have hHas : ∀ n ∈ before.changedIn (outcomesOf arms tail),
      ∃ o ∈ outcomesOf arms tail, o.contains n = true := by
    intro n hn
    rcases Slots.mem_changedIn.mp hn with ⟨o, ho, hChanged⟩
    exact ⟨o, ho, Slots.contains_of_mem_changed hChanged⟩
  apply (yields_foldlM_mergeOne hOne hBefore h hHas
    (Merged.start hBefore)).imp
  intro slots hMerged
  rw [List.nil_append] at hMerged
  refine ⟨hMerged.typed, ?_, ?_⟩
  · intro n
    rw [hMerged.contains, ← h.contains]
    constructor
    · exact Or.imp_right (hHas n)
    · rintro (hn | ⟨o, ho, hContains⟩)
      · exact Or.inl hn
      · by_cases hChanged : n ∈ before.changed o
        · exact Or.inr (Slots.mem_changedIn.mpr ⟨o, ho, hChanged⟩)
        · rcases NameMap.contains_eq_true_iff.mp hContains with
            ⟨slot, hFound⟩
          have hOld := Slots.value?_eq_of_not_mem_changed
            hFound hChanged
          rcases Option.map_eq_some_iff.mp hOld with
            ⟨old, hOldFound, _⟩
          exact Or.inl
            (NameMap.contains_eq_true_iff.mpr ⟨old, hOldFound⟩)
  · intro τ hReady
    refine Agree.trans ?_ (h.agrees τ hReady)
    intro v hv
    rw [hMerged.agrees τ hReady v hv]
    split
    · rfl
    case isFalse hNot =>
        rcases picked_mem τ before tail arms with hMem | hSame
        · rw [meaning_eq_of_not_changed (h.keeps _ hMem v.name)
            (fun hChanged => hNot
              (Slots.mem_changedIn.mpr ⟨_, hMem, hChanged⟩))]
        · rw [hSame]

end Flattening

end Gatework
