import Gatework.Proofs.Flatten.Priority
import Gatework.Proofs.Stmt.Semantics

/-
  The symbolic values of written signals.

  Slots stand for a state change: read at given values, each
  written signal has the value of its slot and every other
  signal keeps its own.

  Key definitions include:
    * `Flattening.Yields`, what a computation returns and
      which writes it takes note of
    * `Slots.Typed`
    * `Slots.meaning`
    * `Slots.After`, slots that follow a state change

  Key theorems include:
    * `Slots.reads_read`
    * `Flattening.yields_prior`
    * `Flattening.yields_write`
-/

------------------------------------------------------------
-- Computations
------------------------------------------------------------

namespace Gatework

/- The names noted between two states: no name comes twice. -/
structure FlatState.Notes
    (names : String → Prop)
    (st st' : FlatState) :
    Prop where
  nodup : st.order.Nodup → st'.order.Nodup
  mem : ∀ n, n ∈ st'.order ↔ n ∈ st.order ∨ names n

namespace Flattening

variable {α β : Type}
variable {P : α → Prop}
variable {Q : β → Prop}
variable {names names' : String → Prop}

/-
  From every state the result has a property, and exactly
  some names are noted.
-/
def Yields
    (m : Flattening α)
    (names : String → Prop)
    (P : α → Prop) :
    Prop :=
  ∀ st, P (m st).1 ∧ st.Notes names (m st).2

/- No name is noted. -/
def nothing : String → Prop :=
  fun _ => False

theorem notes_nothing
    (st : FlatState) :
    st.Notes nothing st :=
  ⟨fun h => h, fun _ => (or_iff_left id).symm⟩

theorem yields_pure
    {a : α}
    (ha : P a) :
    Yields (pure a) nothing P :=
  fun st => ⟨ha, notes_nothing st⟩

theorem Yields.bind
    {m : Flattening α}
    {f : α → Flattening β}
    (hm : Yields m names P)
    (hf : ∀ a, P a → Yields (f a) names' Q) :
    Yields (m >>= f) (fun n => names n ∨ names' n) Q := by
  intro st
  rcases hm st with ⟨hP, hNotes⟩
  rcases hf (m st).1 hP (m st).2 with ⟨hQ, hNotes'⟩
  refine ⟨hQ, ?_, ?_⟩
  · exact fun h => hNotes'.nodup (hNotes.nodup h)
  · intro n
    exact ((hNotes'.mem n).trans
      (or_congr_left (hNotes.mem n))).trans or_assoc

theorem Yields.congr
    {m : Flattening α}
    (hm : Yields m names P)
    (hNames : ∀ n, names n ↔ names' n) :
    Yields m names' P := by
  intro st
  rcases hm st with ⟨hP, hNotes⟩
  refine ⟨hP, hNotes.nodup, ?_⟩
  intro n
  exact (hNotes.mem n).trans (or_congr_right (hNames n))

theorem Yields.imp
    {m : Flattening α}
    {P' : α → Prop}
    (hm : Yields m names P)
    (hP : ∀ a, P a → P' a) :
    Yields m names P' :=
  fun st => ⟨hP _ (hm st).1, (hm st).2⟩

/- A step that notes nothing before another. -/
theorem Yields.then
    {m : Flattening α}
    {f : α → Flattening β}
    (hm : Yields m nothing P)
    (hf : ∀ a, P a → Yields (f a) names Q) :
    Yields (m >>= f) names Q :=
  (hm.bind hf).congr (fun _ => or_iff_right id)

/- A step before another that notes nothing. -/
theorem Yields.finish
    {m : Flattening α}
    {f : α → Flattening β}
    (hm : Yields m names P)
    (hf : ∀ a, P a → Yields (f a) nothing Q) :
    Yields (m >>= f) names Q :=
  (hm.bind hf).congr (fun _ => or_iff_left id)

/- Stamping changes marks only. -/
theorem yields_stamp
    (e : Expr) :
    Yields (stamp e) nothing
      (fun e' => e'.unmarked = e.unmarked) :=
  fun st => ⟨Expr.unmarked_stamp e st.marks,
    ⟨fun h => h, fun _ => (or_iff_left id).symm⟩⟩

theorem yields_note
    (name : String) :
    Yields (note name) (fun n => n = name) (fun _ => True) := by
  intro st
  refine ⟨trivial, ?_⟩
  change st.Notes _
    (if name ∈ st.order then st
      else { st with order := st.order ++ [name] })
  by_cases hMem : name ∈ st.order
  · rw [if_pos hMem]
    refine ⟨fun h => h, fun n => ⟨Or.inl, ?_⟩⟩
    rintro (h | rfl)
    · exact h
    · exact hMem
  · rw [if_neg hMem]
    constructor
    · intro hNodup
      apply List.nodup_append.mpr
      refine ⟨hNodup, List.pairwise_singleton .., ?_⟩
      intro a ha b hb hEq
      rw [List.mem_singleton.mp hb] at hEq
      exact hMem (hEq ▸ ha)
    · intro n
      exact List.mem_append.trans
        (or_congr_right List.mem_singleton)

end Flattening

end Gatework

------------------------------------------------------------
-- Slots as a state change
------------------------------------------------------------

namespace Gatework

/-
  The slot of a signal: read as a whole it is the signal, and
  its value is typed at the width of the signal.
-/
structure Slot.Holds
    (Γ : Var → Prop)
    (v : Var)
    (slot : Slot) :
    Prop where
  whole : slot.whole.unmarked = .var none v
  signal : (Expr.var none v).Typed Γ
  value : slot.value.Typed Γ
  width_eq : slot.value.width = v.width

namespace Slots

variable {Γ T : Var → Prop}

/- Every slot holds a signal of a set of targets. -/
def Typed
    (Γ T : Var → Prop)
    (slots : Slots) :
    Prop :=
  ∀ n slot, slots.find? n = some slot →
    ∃ v, v.name = n ∧ T v ∧ slot.Holds Γ v

/- The values after what the slots stand for. -/
def meaning
    (slots : Slots)
    (τ : String → Nat) :
    String → Nat :=
  Expr.replacedValue slots.value? τ

theorem typed_empty :
    Typed Γ T NameMap.empty := by
  intro n slot hFound
  cases hFound

theorem meaning_of_find?_eq_some
    {slots : Slots}
    {n : String}
    {slot : Slot}
    (hFound : slots.find? n = some slot)
    (τ : String → Nat) :
    slots.meaning τ n = slot.value.value τ := by
  simp [meaning, Expr.replacedValue, value?, hFound]

theorem meaning_of_find?_eq_none
    {slots : Slots}
    {n : String}
    (hFound : slots.find? n = none)
    (τ : String → Nat) :
    slots.meaning τ n = τ n := by
  simp [meaning, Expr.replacedValue, value?, hFound]

theorem meaning_insert
    (slots : Slots)
    (name : String)
    (slot : Slot)
    (τ : String → Nat)
    (n : String) :
    meaning (slots.insert name slot) τ n =
      if n = name then slot.value.value τ
      else slots.meaning τ n := by
  unfold meaning Expr.replacedValue value?
  rw [NameMap.find?_insert]
  by_cases hn : n = name
  · rw [if_pos hn, if_pos hn]
    rfl
  · rw [if_neg hn, if_neg hn]

theorem contains_insert
    (slots : Slots)
    (name : String)
    (slot : Slot)
    (n : String) :
    (slots.insert name slot).contains n ↔
      slots.contains n ∨ n = name := by
  unfold NameMap.contains
  rw [NameMap.find?_insert]
  split <;> simp_all

theorem Typed.insert
    {slots : Slots}
    (hSlots : slots.Typed Γ T)
    {v : Var}
    {slot : Slot}
    (hTarget : T v)
    (hSlot : slot.Holds Γ v) :
    Typed Γ T (slots.insert v.name slot) := by
  intro n other hFound
  rw [NameMap.find?_insert] at hFound
  split at hFound
  case isTrue hn =>
      cases hFound
      exact ⟨v, hn.symm, hTarget, hSlot⟩
  case isFalse hn => exact hSlots n other hFound

/- What replaces a signal has the width of the signal. -/
theorem Typed.replaces
    (hOne : OneWidth Γ)
    {slots : Slots}
    (hSlots : slots.Typed Γ T)
    {v : Var}
    (hv : Γ v) :
    Expr.Replaces slots.value? Γ v := by
  unfold Expr.Replaces value?
  cases hFound : slots.find? v.name with
  | none => exact hv
  | some slot =>
      rcases hSlots v.name slot hFound with ⟨w, hName, _, hSlot⟩
      have hWidth : w.width = v.width :=
        hOne w v hSlot.signal.2.2 hv hName
      exact ⟨hSlot.value, hSlot.width_eq.trans hWidth⟩

end Slots

end Gatework

------------------------------------------------------------
-- Reading
------------------------------------------------------------

namespace Gatework

/- An expression that gives another one's value later on. -/
structure Slots.Reads
    (Γ : Var → Prop)
    (slots : Slots)
    (e e' : Expr) :
    Prop where
  typed : e'.Typed Γ
  width_eq : e'.width = e.width
  value_eq : ∀ τ, e'.value τ = e.value (slots.meaning τ)

namespace Slots

variable {Γ T : Var → Prop}
variable {slots : Slots}

/- Marks do not matter. -/
theorem Reads.of_unmarked
    {e e' e'' : Expr}
    (h : Reads Γ slots e e')
    (hSame : e''.unmarked = e'.unmarked) :
    Reads Γ slots e e'' where
  typed := (Expr.typed_iff_of_unmarked hSame).mpr h.typed
  width_eq := (Expr.width_eq_of_unmarked hSame).trans h.width_eq
  value_eq := fun τ =>
    (Expr.value_eq_of_unmarked hSame τ).trans (h.value_eq τ)

/- Written signals are read at their values so far. -/
theorem reads_read
    (hOne : OneWidth Γ)
    (hSlots : slots.Typed Γ T)
    {e : Expr}
    (he : e.Typed Γ) :
    Reads Γ slots e (slots.read e) := by
  unfold read
  cases hEmpty : slots.entries.isEmpty with
  | true =>
      have hNone : slots = NameMap.empty := by
        rcases slots with ⟨entries⟩
        exact congrArg NameMap.mk (List.isEmpty_iff.mp hEmpty)
      subst hNone
      exact ⟨he, rfl, fun τ => rfl⟩
  | false =>
      have hReplaces : ∀ v ∈ e.occurrences,
          Expr.Replaces slots.value? Γ v :=
        fun v hv => hSlots.replaces hOne (he.mem hv)
      exact ⟨he.subst hReplaces, Expr.width_subst hReplaces,
        Expr.value_subst hReplaces⟩

end Slots

namespace Flattening

variable {Γ T : Var → Prop}
variable {slots : Slots}

theorem yields_condition
    (hOne : OneWidth Γ)
    (hSlots : slots.Typed Γ T)
    {c : Expr}
    (hc : c.Typed Γ) :
    Yields (condition slots c) nothing
      (fun c' => Slots.Reads Γ slots c c') :=
  (yields_stamp (slots.read c)).imp
    (fun _ hSame =>
      (Slots.reads_read hOne hSlots hc).of_unmarked hSame)

end Flattening

end Gatework

------------------------------------------------------------
-- Writing
------------------------------------------------------------

namespace Gatework

/- Targets that may fall back to 0 are 0 to begin with. -/
def Ready
    (p : Fallback)
    (T : Var → Prop)
    (τ : String → Nat) :
    Prop :=
  p = .zero → ∀ v, T v → τ v.name = 0

/-
  Slots that come from others by a change of values and the
  writes of some names.
-/
structure Slots.After
    (Γ T : Var → Prop)
    (p : Fallback)
    (before : Slots)
    (names : String → Prop)
    (next : (String → Nat) → String → Nat)
    (slots : Slots) :
    Prop where
  typed : slots.Typed Γ T
  contains : ∀ n,
    slots.contains n ↔ before.contains n ∨ names n
  agrees : ∀ τ, Ready p T τ →
    Agree Γ (slots.meaning τ) (next (before.meaning τ))

namespace Flattening

variable {Γ T : Var → Prop}
variable {p : Fallback}
variable {slots : Slots}

/- The value of a signal that nothing has written. -/
theorem fallbackValue_spec
    {v : Var}
    {whole : Expr}
    (hTarget : T v)
    (hWhole : whole.unmarked = .var none v)
    (hVar : (Expr.var none v).Typed Γ) :
    (fallbackValue p whole).Typed Γ ∧
      (fallbackValue p whole).width = v.width ∧
      ∀ τ, Ready p T τ →
        (fallbackValue p whole).value τ =
          τ v.name &&& mask v.width := by
  have hWidth : whole.width = v.width :=
    Expr.width_eq_of_unmarked (e := .var none v) hWhole
  unfold fallbackValue
  cases p with
  | zero =>
      have hPos : 1 ≤ whole.width := hWidth ▸ hVar.width_pos
      have hMax : whole.width ≤ maxWidth := hWidth ▸ hVar.width_le
      have hZero := Expr.isWord_zeros (Γ := Γ) hPos hMax
      refine ⟨hZero.typed, hZero.width_eq.trans hWidth, ?_⟩
      intro τ hReady
      rw [hReady rfl v hTarget, Nat.zero_and]
      apply hZero.value_eq (Nat.two_pow_pos _)
      intro i _
      rw [Nat.zero_testBit]
  | hold =>
      refine ⟨(Expr.typed_iff_of_unmarked
        (e := .var none v) hWhole).mpr hVar, hWidth, ?_⟩
      intro τ _
      exact Expr.value_eq_of_unmarked (e := .var none v) hWhole τ

/- The value of a signal before a statement. -/
theorem yields_prior
    (hOne : OneWidth Γ)
    (hSlots : slots.Typed Γ T)
    {v : Var}
    {whole : Expr}
    (hTarget : T v)
    (hWhole : whole.unmarked = .var none v)
    (hVar : (Expr.var none v).Typed Γ) :
    Yields (prior p slots v.name whole) nothing
      (fun old => old.Typed Γ ∧ old.width = v.width ∧
        ∀ τ, Ready p T τ →
          old.value τ =
            slots.meaning τ v.name &&& mask v.width) := by
  unfold prior Slots.value?
  cases hFound : slots.find? v.name with
  | none =>
      rcases fallbackValue_spec (p := p) hTarget hWhole hVar with
        ⟨hTyped, hWidth, hValue⟩
      apply (yields_stamp (fallbackValue p whole)).imp
      intro old hSame
      refine ⟨(Expr.typed_iff_of_unmarked hSame).mpr hTyped,
        (Expr.width_eq_of_unmarked hSame).trans hWidth, ?_⟩
      intro τ hReady
      rw [Expr.value_eq_of_unmarked hSame, hValue τ hReady,
        Slots.meaning_of_find?_eq_none hFound]
  | some slot =>
      apply yields_pure
      rcases hSlots v.name slot hFound with ⟨w, hName, _, hSlot⟩
      have hWidth : slot.value.width = v.width :=
        hSlot.width_eq.trans
          (hOne w v hSlot.signal.2.2 hVar.2.2 hName)
      refine ⟨hSlot.value, hWidth, ?_⟩
      intro τ _
      rw [Slots.meaning_of_find?_eq_some hFound, ← hWidth,
        hSlot.value.value_and_mask]

/- A new value for the target of an assignment. -/
theorem after_insert
    (hSlots : slots.Typed Γ T)
    {a : Assign}
    (hTarget : T a.var)
    {slot : Slot}
    (hSlot : slot.Holds Γ a.var)
    (hValue : ∀ τ, Ready p T τ →
      slot.value.value τ =
        a.after (slots.meaning τ) a.var.name) :
    Slots.After Γ T p slots (fun n => n = a.var.name)
      a.after (slots.insert a.var.name slot) where
  typed := hSlots.insert hTarget hSlot
  contains := Slots.contains_insert slots a.var.name slot
  agrees := by
    intro τ hReady v _
    rw [Slots.meaning_insert, hValue τ hReady]
    by_cases hName : v.name = a.var.name
    · rw [if_pos hName, hName]
    · rw [if_neg hName, Assign.after, if_neg hName]

/- The slots after an assignment. -/
theorem yields_write
    (hOne : OneWidth Γ)
    (hSlots : slots.Typed Γ T)
    {a : Assign}
    (ha : (Stmt.assign a).Typed Γ)
    (hTarget : T a.var) :
    Yields (write p a slots) (fun n => n = a.var.name)
      (Slots.After Γ T p slots (fun n => n = a.var.name)
        a.after) := by
  rcases ha with ⟨hLeft, hRight, hWidths⟩
  have hVar : (Expr.var none a.var).Typed Γ :=
    Target.typed_var hLeft
  have hVarMax : a.var.width ≤ maxWidth := hVar.width_le
  have hMax := Target.width_le hLeft
  apply (yields_note a.var.name).finish
  intro _ _
  apply (yields_stamp (Expr.ofVar a.var)).then
  intro whole hWhole
  apply (yields_condition hOne hSlots hRight).then
  intro value hRead
  have hValueWidth : value.width = a.target.width :=
    hRead.width_eq.trans hWidths.symm
  cases hField : a.target.field? with
  | none =>
      have hLow : a.target.low = 0 := by
        rw [Target.low, hField, Option.getD_none]
      have hFull : a.target.width = a.var.width := by
        rcases a with ⟨target, rhs⟩
        cases target with
        | whole v => rfl
        | bit v i => cases hField
        | part v m l => cases hField
      apply yields_pure
      apply after_insert hSlots hTarget
      · exact ⟨hWhole, hVar, hRead.typed,
          hValueWidth.trans hFull⟩
      · intro τ _
        change value.value τ = _
        rw [Assign.after, if_pos rfl]
        apply hRead.typed.value_eq_of_bits
          (hValueWidth.trans hFull) (and_mask_lt hVarMax _)
        intro i hi
        have hCovered : 0 ≤ i ∧ i < 0 + a.target.width := by
          omega
        rw [testBit_and_mask hVarMax hi,
          testBit_replaceBits hMax, hLow, if_pos hCovered,
          hRead.value_eq τ, Nat.sub_zero]
  | some low =>
      have hLow : a.target.low = low := by
        rw [Target.low, hField, Option.getD_some]
      apply (yields_prior hOne hSlots hTarget hWhole hVar).then
      rintro old ⟨hOld, hOldWidth, hOldValue⟩
      have hWord := Expr.isWord_splice hOld hRead.typed low
      rw [hOldWidth] at hWord
      apply (yields_stamp (old.splice low value)).then
      intro spliced hSame
      apply yields_pure
      apply after_insert hSlots hTarget
      · refine ⟨hWhole, hVar,
          (Expr.typed_iff_of_unmarked hSame).mpr hWord.typed, ?_⟩
        exact (Expr.width_eq_of_unmarked hSame).trans
          hWord.width_eq
      · intro τ hReady
        change spliced.value τ = _
        rw [Expr.value_eq_of_unmarked hSame, Assign.after,
          if_pos rfl]
        apply hWord.value_eq (and_mask_lt hVarMax _)
        intro i hi
        rw [testBit_and_mask hVarMax hi,
          testBit_replaceBits hMax, hLow, hValueWidth,
          hRead.value_eq τ, hOldValue τ hReady,
          testBit_and_mask hVarMax hi]

end Flattening

end Gatework
