import Gatework.Proofs.Flatten.Merge

/-
  Flattening agrees with execution.

  The slots after a statement stand for the change of values
  that the statement makes. The induction carries both ways
  to run a statement: on its own, and as an `else` that goes
  on with a chain of branches.

  Key theorems include:
    * `Flattening.yields_exec`
    * `Stmt.flatten_eq_exec`
-/

------------------------------------------------------------
-- Names written
------------------------------------------------------------

namespace Gatework

namespace Stmt

/- A name that a statement writes. -/
def Writes
    (s : Stmt)
    (n : String) :
    Prop :=
  n ∈ s.targets.map Var.name

/- A name that some labelled arm writes. -/
def LabelledWrites
    (arms : List (Arm Stmt))
    (n : String) :
    Prop :=
  ∃ arm ∈ arms, arm.isDefault = false ∧ arm.body.Writes n

/- A name that the first default arm writes. -/
def DefaultWrites
    (arms : List (Arm Stmt))
    (n : String) :
    Prop :=
  ∃ arm, Arm.defaultIn? arms = some arm ∧ arm.body.Writes n

theorem writes_ifElse
    {c : Expr}
    {t e : Stmt}
    {n : String} :
    (ifElse c t e).Writes n ↔ t.Writes n ∨ e.Writes n := by
  unfold Writes
  rw [targets, List.map_append, List.mem_append]

theorem writes_cons
    {s : Stmt}
    {ss : List Stmt}
    {n : String} :
    (block (s :: ss)).Writes n ↔
      s.Writes n ∨ (block ss).Writes n := by
  unfold Writes
  rw [targets, targets, targetsAll, List.map_append,
    List.mem_append]

theorem writes_case
    {selector : Expr}
    {arms : List (Arm Stmt)}
    {n : String} :
    (case selector arms).Writes n ↔
      ∃ arm ∈ arms, arm.body.Writes n := by
  unfold Writes
  rw [targets]
  simp only [List.mem_map, mem_targetsArms]
  constructor
  · rintro ⟨v, ⟨arm, hArm, hv⟩, hName⟩
    exact ⟨arm, hArm, v, hv, hName⟩
  · rintro ⟨arm, hArm, v, hv, hName⟩
    exact ⟨v, ⟨arm, hArm, hv⟩, hName⟩

/- With at most one default, every arm is one of the two. -/
theorem labelledWrites_or_defaultWrites
    (selector : Expr)
    {arms : List (Arm Stmt)}
    (hCheck : Arm.check arms = .ok ())
    {n : String} :
    LabelledWrites arms n ∨ DefaultWrites arms n ↔
      (case selector arms).Writes n := by
  have hSingle : (arms.filter Arm.isDefault).length ≤ 1 := by
    apply Nat.le_of_not_lt
    intro hMany
    rw [Arm.check, if_pos hMany] at hCheck
    cases hCheck
  rw [writes_case]
  constructor
  · rintro (⟨arm, hArm, _, hn⟩ | ⟨arm, hFirst, hn⟩)
    · exact ⟨arm, hArm, hn⟩
    · exact ⟨arm, List.mem_of_find?_eq_some hFirst, hn⟩
  · rintro ⟨arm, hArm, hn⟩
    cases hDefault : arm.isDefault with
    | false => exact Or.inl ⟨arm, hArm, hDefault, hn⟩
    | true =>
        refine Or.inr ⟨arm, ?_, hn⟩
        have hMem : arm ∈ arms.filter Arm.isDefault :=
          List.mem_filter.mpr ⟨hArm, hDefault⟩
        rw [Arm.defaultIn?, ← List.head?_filter]
        match hList : arms.filter Arm.isDefault with
        | [] =>
            rw [hList] at hMem
            cases hMem
        | [only] =>
            rw [hList] at hMem
            rw [List.mem_singleton.mp hMem]
            rfl
        | _ :: _ :: _ =>
            rw [hList] at hSingle
            exact absurd hSingle (by simp)

end Stmt

end Gatework

------------------------------------------------------------
-- Branches of statements
------------------------------------------------------------

namespace Gatework

namespace Branches

variable {Γ T : Var → Prop}
variable {p : Fallback}
variable {before : Slots}
variable {names names' : String → Prop}
variable {next next' : (String → Nat) → String → Nat}
variable {arms : List (Expr × Slots)}
variable {tail : Option Slots}

theorem congr
    (h : Branches Γ T p before names next arms tail)
    (hNames : ∀ n, names n ↔ names' n)
    (hNext : ∀ σ, next σ = next' σ) :
    Branches Γ T p before names' next' arms tail where
  guards := h.guards
  typed := h.typed
  keeps := h.keeps
  contains := fun n =>
    (h.contains n).trans (or_congr_right (hNames n))
  agrees := fun τ hReady => hNext _ ▸ h.agrees τ hReady

/- A branch behind a condition on the values before. -/
theorem condition
    (h : Branches Γ T p before names' next' arms tail)
    {c cond : Expr}
    (hWidth : c.width = 1)
    (hCond : Slots.Reads Γ before c cond)
    {outcome : Slots}
    (hOutcome :
      Slots.After Γ T p before names next outcome) :
    Branches Γ T p before (fun n => names n ∨ names' n)
      (fun σ =>
        if (c.value σ).testBit 0 then next σ else next' σ)
      ((cond, outcome) :: arms) tail := by
  apply h.cons ⟨hCond.typed, hCond.width_eq.trans hWidth⟩
    hOutcome (fun σ => (c.value σ).testBit 0)
  intro τ _
  rw [Expr.holds, hCond.value_eq τ]

end Branches

end Gatework

------------------------------------------------------------
-- Guards of arms
------------------------------------------------------------

namespace Gatework

variable {Γ : Var → Prop}

/-
  The guard of an arm holds if a label is the selector. A
  label may be wider than the selector.
-/
theorem Arm.isBit_guard_of_words
    {α : Type}
    {selector : Expr}
    (hSelector : selector.Typed Γ)
    (arm : Arm α)
    (hWords : ∀ l ∈ arm.labels, l.value < 2 ^ maxWidth) :
    Expr.IsBit Γ (arm.guard selector)
      (fun τ => arm.labels.any fun l =>
        selector.value τ == l.value) := by
  apply Expr.isBit_disjAll Expr.isBit_zero
  intro l hl
  exact Expr.isBit_equalsConst hSelector (hWords l hl)

theorem Arm.isBit_guard
    {α : Type}
    {selector : Expr}
    (hSelector : selector.Typed Γ)
    (arm : Arm α)
    (hFit : ∀ l ∈ arm.labels, l.value < 2 ^ selector.width) :
    Expr.IsBit Γ (arm.guard selector)
      (fun τ => arm.labels.any fun l =>
        selector.value τ == l.value) := by
  apply Arm.isBit_guard_of_words hSelector
  intro l hl
  exact Nat.lt_of_lt_of_le (hFit l hl)
    (Nat.pow_le_pow_right (by decide) hSelector.width_le)

/- Labels that fit are not cut before they are compared. -/
theorem Stmt.hits_of_fit
    {width : Nat}
    (hWidth : width ≤ maxWidth)
    {labels : List Const}
    (hFit : ∀ l ∈ labels, l.value < 2 ^ width)
    (x : Nat) :
    hits width x ⟨labels, false, ()⟩ =
      labels.any fun l => x == l.value := by
  unfold hits
  simp only [Bool.not_false, Bool.true_and]
  apply Bool.eq_iff_iff.mpr
  simp only [List.any_eq_true]
  apply exists_congr
  intro l
  apply and_congr_right
  intro hl
  rw [and_mask_of_lt hWidth (hFit l hl), beq_iff_eq, beq_iff_eq,
    eq_comm]

end Gatework

------------------------------------------------------------
-- Statements
------------------------------------------------------------

namespace Gatework

namespace Flattening

variable {Γ T : Var → Prop}
variable {p : Fallback}
variable {slots : Slots}

/- A statement makes its change of values on slots. -/
def Runs
    (Γ T : Var → Prop)
    (p : Fallback)
    (s : Stmt)
    (slots : Slots) :
    Prop :=
  Yields (exec p s slots) s.Writes
    (Slots.After Γ T p slots s.Writes fun σ => s.after σ)

/- An `else` makes its change as the rest of a chain. -/
def Continues
    (Γ T : Var → Prop)
    (p : Fallback)
    (s : Stmt)
    (slots : Slots) :
    Prop :=
  Yields (execElse p s slots) s.Writes
    (fun rest => Branches Γ T p slots s.Writes
      (fun σ => s.after σ) rest.1 rest.2)

theorem yields_execAll
    {ss : List Stmt}
    (hAll : ∀ s ∈ ss, ∀ slots, slots.Typed Γ T →
      Runs Γ T p s slots)
    (hBodies : ∀ s ∈ ss, s.Typed Γ)
    (hSlots : slots.Typed Γ T) :
    Yields (execAll p ss slots) (Stmt.block ss).Writes
      (Slots.After Γ T p slots (Stmt.block ss).Writes
        fun σ => (Stmt.block ss).after σ) := by
  induction ss generalizing slots with
  | nil =>
      have hNone : ∀ n, ¬ (Stmt.block []).Writes n :=
        fun n hn => by cases hn
      refine (yields_pure ?_).congr
        (fun n => iff_of_false id (hNone n))
      exact ⟨hSlots, fun n => (or_iff_left (hNone n)).symm,
        fun τ _ => Agree.refl _⟩
  | cons s ss ih =>
      have hRuns : ∀ t ∈ ss, ∀ slots, slots.Typed Γ T →
          Runs Γ T p t slots :=
        fun t ht => hAll t (List.mem_cons_of_mem _ ht)
      have hTyped : ∀ t ∈ ss, t.Typed Γ :=
        fun t ht => hBodies t (List.mem_cons_of_mem _ ht)
      refine ((hAll s (List.mem_cons_self ..) slots hSlots).bind
        (fun middle hMiddle => ?_)).congr
          (fun n => Stmt.writes_cons.symm)
      apply (ih hRuns hTyped hMiddle.typed).imp
      intro last hLast
      refine ⟨hLast.typed, ?_, ?_⟩
      · intro n
        rw [hLast.contains, hMiddle.contains, Stmt.writes_cons,
          or_assoc]
      · intro τ hReady
        -- The rest runs on values that agree with the ones
        -- after the first statement.
        have hRest : (Stmt.block ss).Typed Γ :=
          Stmt.typedAll_iff.mpr hTyped
        exact (hLast.agrees τ hReady).trans
          (Stmt.after_congr hRest (hMiddle.agrees τ hReady))

theorem yields_execLabelled
    {selector sel : Expr}
    (hSel : Slots.Reads Γ slots selector sel)
    {arms : List (Arm Stmt)}
    (hAll : ∀ arm ∈ arms, Runs Γ T p arm.body slots)
    (hFit : ∀ arm ∈ arms, ∀ l ∈ arm.labels,
      l.value < 2 ^ selector.width) :
    Yields (execLabelled p sel arms slots)
      (Stmt.LabelledWrites arms)
      (fun outcomes => ∀ tail names next,
        Branches Γ T p slots names next [] tail →
        Branches Γ T p slots
          (fun n => Stmt.LabelledWrites arms n ∨ names n)
          (fun σ =>
            (Stmt.afterArm σ (Stmt.hits selector.width
              (selector.value σ)) arms).getD (next σ))
          outcomes tail) := by
  induction arms with
  | nil =>
      have hNone : ∀ n, ¬ Stmt.LabelledWrites [] n := by
        rintro n ⟨arm, hArm, _⟩
        cases hArm
      refine (yields_pure ?_).congr
        (fun n => iff_of_false id (hNone n))
      intro tail names next h
      exact h.congr (fun n => (or_iff_right (hNone n)).symm)
        (fun σ => rfl)
  | cons arm arms ih =>
      have hTail := ih
        (fun a ha => hAll a (List.mem_cons_of_mem _ ha))
        (fun a ha => hFit a (List.mem_cons_of_mem _ ha))
      have hBody := hAll arm (List.mem_cons_self ..)
      have hLabels := hFit arm (List.mem_cons_self ..)
      rcases arm with ⟨labels, isDefault, body⟩
      cases isDefault with
      | true =>
          have hWrites : ∀ n,
              Stmt.LabelledWrites arms n ↔
                Stmt.LabelledWrites (⟨labels, true, body⟩ :: arms)
                  n := by
            intro n
            simp [Stmt.LabelledWrites]
          refine (hTail.imp ?_).congr hWrites
          intro outcomes hOutcomes tail names next h
          exact (hOutcomes tail names next h).congr
            (fun n => or_congr_left (hWrites n)) (fun σ => rfl)
      | false =>
          have hWrites : ∀ n,
              body.Writes n ∨ Stmt.LabelledWrites arms n ↔
                Stmt.LabelledWrites (⟨labels, false, body⟩ :: arms)
                  n := by
            intro n
            simp [Stmt.LabelledWrites]
          have hSelFit : ∀ l ∈ labels, l.value < 2 ^ sel.width :=
            hSel.width_eq ▸ hLabels
          have hGuard := Arm.isBit_guard hSel.typed
            ⟨labels, false, ()⟩ hSelFit
          have hMax : selector.width ≤ maxWidth :=
            hSel.width_eq ▸ hSel.typed.width_le
          rw [execLabelled]
          apply (yields_stamp _).then
          intro guard hSame
          refine (hBody.bind fun outcome hOutcome =>
            hTail.finish fun outcomes hOutcomes => yields_pure ?_
            ).congr hWrites
          intro tail names next h
          have hScalar : Expr.Scalar Γ guard :=
            ⟨(Expr.typed_iff_of_unmarked hSame).mpr hGuard.typed,
              (Expr.width_eq_of_unmarked hSame).trans
                hGuard.width_eq⟩
          refine ((hOutcomes tail names next h).cons hScalar
            hOutcome (fun σ =>
              Stmt.hits selector.width (selector.value σ)
                ⟨labels, false, ()⟩) ?_).congr ?_ ?_
          · intro τ _
            rw [Expr.holds, Expr.value_eq_of_unmarked hSame,
              hGuard.bit_eq τ, hSel.value_eq τ,
              Stmt.hits_of_fit hMax hLabels]
          · intro n
            rw [← or_assoc, hWrites]
          · intro σ
            rw [Stmt.afterArm]
            split <;> rfl

theorem yields_execDefault
    {arms : List (Arm Stmt)}
    (hAll : ∀ arm ∈ arms, Runs Γ T p arm.body slots) :
    Yields (execDefault p arms slots)
      (Stmt.DefaultWrites arms)
      (fun tail => Branches Γ T p slots
        (Stmt.DefaultWrites arms)
        (fun σ =>
          (Stmt.afterArm σ Arm.isDefault arms).getD σ)
        [] tail) := by
  induction arms with
  | nil =>
      have hNone : ∀ n, ¬ Stmt.DefaultWrites [] n := by
        rintro n ⟨arm, hArm, _⟩
        cases hArm
      refine (yields_pure ?_).congr
        (fun n => iff_of_false id (hNone n))
      exact Branches.none.congr
        (fun n => iff_of_false id (hNone n)) (fun σ => rfl)
  | cons arm arms ih =>
      have hTail := ih
        (fun a ha => hAll a (List.mem_cons_of_mem _ ha))
      have hBody := hAll arm (List.mem_cons_self ..)
      rcases arm with ⟨labels, isDefault, body⟩
      cases isDefault with
      | true =>
          have hWrites : ∀ n, body.Writes n ↔
              Stmt.DefaultWrites (⟨labels, true, body⟩ :: arms)
                n := by
            intro n
            simp [Stmt.DefaultWrites, Arm.defaultIn?]
          refine (hBody.finish fun outcome hOutcome =>
            yields_pure ?_).congr hWrites
          exact (Branches.last hOutcome).congr hWrites
            (fun σ => rfl)
      | false =>
          have hWrites : ∀ n, Stmt.DefaultWrites arms n ↔
              Stmt.DefaultWrites (⟨labels, false, body⟩ :: arms)
                n := by
            intro n
            simp [Stmt.DefaultWrites, Arm.defaultIn?]
          refine (hTail.imp ?_).congr hWrites
          intro tail h
          exact h.congr hWrites (fun σ => rfl)

theorem branches_ifThen
    {c cond : Expr}
    {t : Stmt}
    {outcome : Slots}
    (hWidth : c.width = 1)
    (hCond : Slots.Reads Γ slots c cond)
    (hOutcome : Slots.After Γ T p slots t.Writes
      (fun σ => t.after σ) outcome) :
    Branches Γ T p slots (Stmt.ifThen c t).Writes
      (fun σ => (Stmt.ifThen c t).after σ)
      [(cond, outcome)] none :=
  (Branches.none.condition hWidth hCond hOutcome).congr
    (fun n => or_iff_left id) (fun σ => by rw [Stmt.after])

theorem branches_ifElse
    {c cond : Expr}
    {t e : Stmt}
    {outcome : Slots}
    {rest : List (Expr × Slots) × Option Slots}
    (hWidth : c.width = 1)
    (hCond : Slots.Reads Γ slots c cond)
    (hOutcome : Slots.After Γ T p slots t.Writes
      (fun σ => t.after σ) outcome)
    (hRest : Branches Γ T p slots e.Writes
      (fun σ => e.after σ) rest.1 rest.2) :
    Branches Γ T p slots (Stmt.ifElse c t e).Writes
      (fun σ => (Stmt.ifElse c t e).after σ)
      ((cond, outcome) :: rest.1) rest.2 :=
  (hRest.condition hWidth hCond hOutcome).congr
    (fun n => Stmt.writes_ifElse.symm)
    (fun σ => by rw [Stmt.after])

/- The branches of a case, labelled ones before the default. -/
theorem yields_case
    (hOne : OneWidth Γ)
    (hSlots : slots.Typed Γ T)
    {selector : Expr}
    {arms : List (Arm Stmt)}
    (hCase : (Stmt.case selector arms).Typed Γ)
    (hFit : (Stmt.case selector arms).LabelsFit)
    (hAll : ∀ arm ∈ arms, Runs Γ T p arm.body slots)
    {β : Type}
    {Q : β → Prop}
    {f : List (Expr × Slots) → Option Slots → Flattening β}
    (hf : ∀ outcomes tail,
      Branches Γ T p slots (Stmt.case selector arms).Writes
        (fun σ => (Stmt.case selector arms).after σ)
        outcomes tail →
      Yields (f outcomes tail) nothing Q) :
    Yields
      (do
        let sel ← condition slots selector
        let outcomes ← execLabelled p sel arms slots
        let tail ← execDefault p arms slots
        f outcomes tail)
      (Stmt.case selector arms).Writes Q := by
  rcases hCase with ⟨hSelector, hCheck, _⟩
  have hLabels := hFit.arms
  have hWrites := fun n =>
    Stmt.labelledWrites_or_defaultWrites selector hCheck (n := n)
  apply (yields_condition hOne hSlots hSelector).then
  intro sel hSel
  refine ((yields_execLabelled hSel hAll hLabels).bind
    fun outcomes hOutcomes => ?_).congr hWrites
  apply (yields_execDefault hAll).finish
  intro tail hTail
  apply hf
  exact (hOutcomes tail _ _ hTail).congr hWrites
    (fun σ => by rw [Stmt.after])

/-
  The slots after a statement stand for the change of values
  that it makes, and exactly the names it writes are noted.
-/
theorem yields_exec
    (hOne : OneWidth Γ)
    {s : Stmt}
    (hs : s.Typed Γ)
    (hFit : s.LabelsFit)
    (hTargets : ∀ v ∈ s.targets, T v)
    {slots : Slots}
    (hSlots : slots.Typed Γ T) :
    Runs Γ T p s slots ∧ Continues Γ T p s slots := by
  induction s generalizing slots with
  | assign a =>
      have hWrite : Runs Γ T p (.assign a) slots := by
        have hNames : ∀ n, n = a.var.name ↔
            (Stmt.assign a).Writes n :=
          fun n => List.mem_singleton.symm
        have hTarget : T a.var :=
          hTargets a.var (List.mem_singleton.mpr rfl)
        apply ((yields_write hOne hSlots hs hTarget).imp
          ?_).congr hNames
        intro slots' h
        exact ⟨h.typed,
          fun n => (h.contains n).trans
            (or_congr_right (hNames n)), h.agrees⟩
      refine ⟨hWrite, ?_⟩
      exact hWrite.finish
        (fun outcome h => yields_pure (Branches.last h))
  | ifThen c t ih =>
      rcases hs with ⟨hc, hWidth, ht⟩
      have hBody := ih ht hFit hTargets hSlots
      constructor
      · apply (yields_condition hOne hSlots hc).then
        intro cond hCond
        apply hBody.1.finish
        intro outcome hOutcome
        exact yields_merge hOne hSlots
          (branches_ifThen hWidth hCond hOutcome)
      · apply (yields_condition hOne hSlots hc).then
        intro cond hCond
        apply hBody.1.finish
        intro outcome hOutcome
        exact yields_pure (branches_ifThen hWidth hCond hOutcome)
  | ifElse c t e iht ihe =>
      rcases hs with ⟨hc, hWidth, ht, he⟩
      have hThen := iht ht hFit.1
        (fun v hv => hTargets v (List.mem_append_left _ hv))
        hSlots
      have hElse := ihe he hFit.2
        (fun v hv => hTargets v (List.mem_append_right _ hv))
        hSlots
      constructor
      · apply (yields_condition hOne hSlots hc).then
        intro cond hCond
        refine (hThen.1.bind fun outcome hOutcome =>
          hElse.2.finish fun rest hRest => ?_).congr
            (fun n => Stmt.writes_ifElse.symm)
        exact yields_merge hOne hSlots
          (branches_ifElse hWidth hCond hOutcome hRest)
      · apply (yields_condition hOne hSlots hc).then
        intro cond hCond
        refine (hThen.1.bind fun outcome hOutcome =>
          hElse.2.finish fun rest hRest => ?_).congr
            (fun n => Stmt.writes_ifElse.symm)
        exact yields_pure
          (branches_ifElse hWidth hCond hOutcome hRest)
  | case selector arms ih =>
      have hAll : ∀ arm ∈ arms, Runs Γ T p arm.body slots := by
        intro arm hArm
        refine (ih arm hArm
          (Stmt.typedArms_iff.mp hs.2.2 arm hArm)
          (Stmt.labelsFitArms_iff.mp hFit arm hArm).2
          (fun v hv => hTargets v
            (Stmt.mem_targetsArms.mpr ⟨arm, hArm, hv⟩))
          hSlots).1
      constructor
      · exact yields_case hOne hSlots hs hFit hAll
          (fun outcomes tail h => yields_merge hOne hSlots h)
      · exact yields_case hOne hSlots hs hFit hAll
          (fun outcomes tail h =>
            (yields_merge hOne hSlots h).then
              (fun merged hMerged =>
                yields_pure (Branches.last hMerged)))
  | block ss ih =>
      have hBodies := Stmt.typedAll_iff.mp hs
      have hRun := yields_execAll (p := p)
        (fun s hMem slots h => (ih s hMem (hBodies s hMem)
          (Stmt.labelsFitAll_iff.mp hFit s hMem)
          (fun v hv => hTargets v
            (Stmt.mem_targetsAll.mpr ⟨s, hMem, hv⟩)) h).1)
        hBodies hSlots
      exact ⟨hRun, hRun.finish
        (fun outcome h => yields_pure (Branches.last h))⟩

end Flattening

end Gatework

------------------------------------------------------------
-- Processes
------------------------------------------------------------

namespace Gatework

/- The value in a slot is the one after the change. -/
theorem Slots.After.value_eq
    {Γ T : Var → Prop}
    {p : Fallback}
    {before slots : Slots}
    {names : String → Prop}
    {next : (String → Nat) → String → Nat}
    (h : Slots.After Γ T p before names next slots)
    {τ : String → Nat}
    (hReady : Ready p T τ)
    {v : Var}
    {slot : Slot}
    (hSlot : slot.Holds Γ v)
    (hFound : slots.find? v.name = some slot) :
    slot.value.value τ =
      next (before.meaning τ) v.name &&& mask v.width := by
  have hCut := hSlot.value.value_and_mask τ
  rw [hSlot.width_eq, ← Slots.meaning_of_find?_eq_some hFound]
    at hCut
  rw [← Slots.meaning_of_find?_eq_some hFound, ← hCut]
  exact h.agrees τ hReady v hSlot.signal.2.2

namespace Stmt

variable {s : Stmt}
variable {p : Fallback}

/- The names listed are the noted ones that have a slot. -/
theorem names_listed
    {order : List String}
    {slots : Slots}
    (hAll : ∀ n ∈ order, slots.contains n = true) :
    (order.filterMap fun n =>
        (slots.find? n).map fun slot => (n, slot)).map Prod.fst =
      order := by
  induction order with
  | nil => rfl
  | cons n order ih =>
      rcases NameMap.contains_eq_true_iff.mp
          (hAll n (List.mem_cons_self ..)) with ⟨slot, hFound⟩
      rw [List.filterMap_cons, hFound]
      exact congrArg (n :: ·)
        (ih (fun m hm => hAll m (List.mem_cons_of_mem _ hm)))

/- What is listed for a name is a slot of its signal. -/
theorem holds_of_mem_flatten
    {Γ : Var → Prop}
    (hOne : OneWidth Γ)
    (hs : s.Typed Γ)
    (hFit : s.LabelsFit)
    (marks : Nat)
    {k : String}
    {slot : Slot}
    (hMem : (k, slot) ∈ (s.flatten p marks).1) :
    ∃ v, v.name = k ∧ slot.Holds Γ v := by
  have hRuns := (Flattening.yields_exec (T := fun _ => True)
    (p := p) hOne hs hFit (fun _ _ => trivial)
    Slots.typed_empty).1
  have hAfter := (hRuns { marks }).1
  rcases List.mem_filterMap.mp hMem with ⟨n, _, hEntry⟩
  rcases Option.map_eq_some_iff.mp hEntry with
    ⟨other, hFound, hPair⟩
  cases hPair
  rcases hAfter.typed k slot hFound with ⟨v, hName, _, hHolds⟩
  exact ⟨v, hName, hHolds⟩

/-
  Flattening agrees with execution. Execution succeeds where
  all names are bound; exactly the written names are listed,
  each once; and the expression listed for a signal has the
  value the signal has after execution, cut to its width.
-/
theorem flatten_eq_exec
    (hValid : s.validate = .ok ())
    (hOne : OneWidth s.Mentions)
    (hFit : s.LabelsFit)
    {ρ : Valuation}
    (hBound : ∀ n, n ∈ s.reads.names ∨ n ∈ s.writes.names →
      (ρ n).isSome)
    (hZero : p = .zero → ∀ n ∈ s.writes.names, ρ n = some 0)
    (marks : Nat) :
    ∃ w, s.exec ρ p = .ok w ∧
      ((s.flatten p marks).1.map Prod.fst).Nodup ∧
      (∀ n, n ∈ (s.flatten p marks).1.map Prod.fst ↔
        n ∈ s.writes.names) ∧
      ∀ k slot, (k, slot) ∈ (s.flatten p marks).1 →
        ∃ v ∈ s.targets, v.name = k ∧
          slot.value.eval ρ =
            .ok ((w.onTop ρ k).getD 0 % 2 ^ v.width) := by
  let τ : String → Nat := fun n => (ρ n).getD 0
  have hMentioned : ∀ v, s.Mentions v →
      ρ v.name = some (τ v.name) := by
    intro v hv
    rcases Option.isSome_iff_exists.mp
        (hBound v.name hv.name_mem) with ⟨x, hx⟩
    simp only [τ, hx, Option.getD_some]
  have hWritten : ∀ n, n ∈ s.writes.names ↔ s.Writes n :=
    mem_names_writes s
  have hReady : Ready p (· ∈ s.targets) τ := by
    intro hp v hv
    have hName := (hWritten v.name).mpr (List.mem_map_of_mem hv)
    simp only [τ, hZero hp v.name hName, Option.getD_some]
  rcases run_eq_after hMentioned
      (fun v hv hp => hReady hp v hv) NameMap.empty with
    ⟨w, hRun, hCurrent⟩
  have hs := typed_mentions_of_validate hValid
  -- The final slots and the names noted on the way.
  rcases (Flattening.yields_exec (T := (· ∈ s.targets)) (p := p)
      hOne hs hFit (fun _ hv => hv) Slots.typed_empty).1
      { marks } with ⟨hAfter, hNotes⟩
  generalize hFinal : Flattening.exec p s NameMap.empty { marks } =
    final at hAfter hNotes
  rcases final with ⟨slots, state⟩
  have hListed : (s.flatten p marks).1 =
      state.order.filterMap fun n =>
        (slots.find? n).map fun slot => (n, slot) := by
    unfold flatten
    rw [show (Flattening.exec p s NameMap.empty).run { marks } =
      (slots, state) from hFinal]
  have hOrder : ∀ n, n ∈ state.order ↔ s.Writes n :=
    fun n => (hNotes.mem n).trans (or_iff_right List.not_mem_nil)
  have hNames : (s.flatten p marks).1.map Prod.fst =
      state.order := by
    rw [hListed]
    apply names_listed
    intro n hn
    exact (hAfter.contains n).mpr (Or.inr ((hOrder n).mp hn))
  refine ⟨w, hRun, ?_, ?_, ?_⟩
  · rw [hNames]
    exact hNotes.nodup List.nodup_nil
  · intro n
    rw [hNames, hOrder, hWritten]
  · intro k slot hMem
    rw [hListed] at hMem
    rcases List.mem_filterMap.mp hMem with ⟨n, _, hEntry⟩
    rcases Option.map_eq_some_iff.mp hEntry with
      ⟨found, hFound, hPair⟩
    cases hPair
    rcases hAfter.typed k slot hFound with ⟨v, rfl, hv, hSlot⟩
    refine ⟨v, hv, rfl, ?_⟩
    have hEval : slot.value.eval ρ = .ok (slot.value.value τ) :=
      Expr.eval_eq_value
        (fun u hu => hMentioned u (hSlot.value.mem hu))
    have hValue : slot.value.value τ =
        w.current τ v.name &&& mask v.width :=
      hCurrent ▸ hAfter.value_eq hReady hSlot hFound
    have hMax : v.width ≤ maxWidth := hSlot.signal.width_le
    rw [hEval, hValue, and_mask hMax,
      Written.onTop_eq_current (hMentioned v (Or.inl hv)),
      Option.getD_some]

/-
  One bit of a signal of two bits is written if a condition
  holds, and the signal is then read as a whole.
-/
def writeThenRead : Stmt :=
  block [
    ifThen (.var none ⟨"c", 1, false⟩)
      (assign ⟨.bit ⟨"y", 2, false⟩ 1,
        .var none ⟨"a", 1, false⟩⟩),
    assign ⟨.whole ⟨"z", 2, false⟩,
      .var none ⟨"y", 2, false⟩⟩]

theorem flatten_eq_exec_writeThenRead :
    ∃ w, writeThenRead.exec (fun _ => some 1) .hold = .ok w ∧
      ((writeThenRead.flatten .hold 0).1.map Prod.fst).Nodup ∧
      (∀ n, n ∈ (writeThenRead.flatten .hold 0).1.map Prod.fst ↔
        n ∈ writeThenRead.writes.names) ∧
      ∀ k slot, (k, slot) ∈ (writeThenRead.flatten .hold 0).1 →
        ∃ v ∈ writeThenRead.targets, v.name = k ∧
          slot.value.eval (fun _ => some 1) =
            .ok ((w.onTop (fun _ => some 1) k).getD 0 %
              2 ^ v.width) := by
  apply flatten_eq_exec
  · rfl
  · exact oneWidth_mentions_iff.mpr (by decide)
  · simp [LabelsFit, LabelsFitAll, writeThenRead]
  · intro n _
    rfl
  · intro hp
    cases hp

end Stmt

end Gatework
