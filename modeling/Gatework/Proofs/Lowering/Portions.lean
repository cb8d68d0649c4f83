import Gatework.Proofs.Lowering.Drivers
import Gatework.Proofs.Lowering.InStep

/-
  What a circuit is put together from.

  Each item of a module gives portions of signals: a
  continuous assignment the bits that its target selects, and
  a process all bits of each signal it writes. A draft takes a
  portion unless one that it has taken covers a bit of it.
  What it then assigns to a signal has the bits of all
  portions of the signal, and 0 elsewhere.

  Key definitions include:
    * `Portion`
    * `Draft.Claims` and `Circuit.Assembles`
    * `Lower.Merges`, a run that stops only at a clash

  Key theorems include:
    * `Lower.merges_claim`
    * `Lower.merges_field` and `Lower.merges_drives`
-/

------------------------------------------------------------
-- Portions
------------------------------------------------------------

namespace Gatework

/-
  Bits of a signal from a low one on, the number whose bits
  they have, and the names it is computed from.
-/
structure Portion where
  name : String
  low : Nat
  width : Nat
  value : (String → Nat) → Nat
  reads : List String

/- The bits that the target of an assignment selects. -/
def Assign.portion
    (a : Assign) :
    Portion :=
  ⟨a.var.name, a.target.low, a.target.width, a.value.value,
    a.value.occurrences.map Var.name⟩

/- All bits of a signal that a process writes. -/
def Slot.portion
    (name : String)
    (slot : Slot) :
    Portion :=
  ⟨name, 0, slot.whole.width, slot.value.value,
    slot.value.occurrences.map Var.name⟩

namespace Portion

def Covers
    (P : Portion)
    (n : String)
    (i : Nat) :
    Prop :=
  P.name = n ∧ P.low ≤ i ∧ i < P.low + P.width

/- The bit is covered, and it is 1. -/
def Sets
    (P : Portion)
    (τ : String → Nat)
    (n : String)
    (i : Nat) :
    Prop :=
  P.Covers n i ∧ (P.value τ).testBit (i - P.low) = true

/- No bit is covered by both. -/
def Apart
    (P Q : Portion) :
    Prop :=
  ∀ n i, P.Covers n i → ¬ Q.Covers n i

/- The bits of the portion are those of an expression. -/
structure Shows
    (e : Expr)
    (P : Portion) :
    Prop where
  width_eq : e.width = P.width
  value_eq : ∀ τ, P.value τ = e.value τ
  reads_eq : P.reads = e.occurrences.map Var.name

/- Some bits, all of them within the signal. -/
structure Inside
    (signals : NameMap Var)
    (P : Portion) :
    Prop where
  pos : 0 < P.width
  le_width : P.low + P.width ≤ widthIn signals P.name

variable {P Q : Portion}
variable {signals : NameMap Var}

theorem Apart.symm
    (h : P.Apart Q) :
    Q.Apart P :=
  fun n i hQ hP => h n i hP hQ

/- Claims on one signal overlap unless they are apart. -/
theorem not_overlaps_iff
    (hP : 0 < P.width)
    (hQ : 0 < Q.width)
    (hName : P.name = Q.name)
    {c w : Claim}
    (hc : c.low = P.low ∧ c.width = P.width)
    (hw : w.low = Q.low ∧ w.width = Q.width) :
    ¬ c.overlaps w = true ↔ P.Apart Q := by
  unfold Claim.overlaps
  rw [hc.1, hc.2, hw.1, hw.2, Bool.and_eq_true,
    decide_eq_true_eq, decide_eq_true_eq]
  constructor
  · rintro hNone n i ⟨_, hLowP, hHighP⟩ ⟨_, hLowQ, hHighQ⟩
    exact hNone (by omega)
  · rintro hApart ⟨hFirst, hSecond⟩
    refine hApart Q.name (max P.low Q.low) ⟨hName, ?_, ?_⟩
      ⟨rfl, ?_, ?_⟩
    all_goals omega

/- Portions of one signal meet if one of them is all of it. -/
theorem name_ne_of_apart
    (hP : P.Inside signals)
    (hAll : Q.low = 0 ∧ Q.width = widthIn signals Q.name)
    (hApart : P.Apart Q) :
    P.name ≠ Q.name := by
  intro hName
  have hPos := hP.pos
  have hEnd := hP.le_width
  rw [hName] at hEnd
  refine hApart Q.name P.low ⟨hName, ?_, ?_⟩ ⟨rfl, ?_, ?_⟩
  all_goals omega

end Portion

end Gatework

------------------------------------------------------------
-- Runs that stop only at a clash
------------------------------------------------------------

namespace Gatework

namespace Lower

variable {α β : Type}
variable {setting : Setting}
variable {I : Scope → Prop}
variable {clash : Prop}
variable {P : α → Prop}
variable {Q : β → Prop}

/-
  A run that keeps a property of the scope and gives a result
  with another one, or that finds bits driven twice.
-/
def Merges
    (setting : Setting)
    (I : Scope → Prop)
    (clash : Prop)
    (m : Lower α)
    (P : α → Prop) :
    Prop :=
  ∀ p, I p.scope →
    match m setting p with
    | (.ok a, p') => I p'.scope ∧ P a
    | (.error e, _) =>
        (∃ name span other, e = .drivenTwice name span other) ∧
          clash

theorem merges_pure
    {a : α}
    (ha : P a) :
    Merges setting I clash (pure a) P :=
  fun _ hI => ⟨hI, ha⟩

theorem Merges.bind
    {m : Lower α}
    {f : α → Lower β}
    (hm : Merges setting I clash m P)
    (hf : ∀ a, P a → Merges setting I clash (f a) Q) :
    Merges setting I clash (m >>= f) Q := by
  intro p hI
  have hFirst := hm p hI
  rw [bind_apply]
  generalize m setting p = run at hFirst
  rcases run with ⟨result, p'⟩
  cases result with
  | error e => exact hFirst
  | ok a => exact hf a hFirst.2 p' hFirst.1

theorem Merges.imp
    {clash' : Prop}
    {P' : α → Prop}
    {m : Lower α}
    (hm : Merges setting I clash m P)
    (hClash : clash → clash')
    (hP : ∀ a, P a → P' a) :
    Merges setting I clash' m P' := by
  intro p hI
  have hRun := hm p hI
  generalize m setting p = run at hRun
  rcases run with ⟨result, p'⟩
  cases result with
  | error e => exact ⟨hRun.1, hClash hRun.2⟩
  | ok a => exact ⟨hRun.1, hP a hRun.2⟩

/- What is kept of an expression is its simplified form. -/
theorem merges_keep_simplify
    {Γ : Var → Prop}
    (hOne : OneWidth Γ)
    {e : Expr}
    (he : e.Typed Γ) :
    Merges setting I clash (keep e.simplify)
      (fun e' => e'.Typed Γ ∧ e'.width = e.width ∧
        ∀ τ, e'.value τ = e.value τ) := by
  intro p hI
  have hSame := Expr.unmarked_stamp e.simplify p.marks
  have hKeeps := Expr.keeps_simplify hOne he
  refine ⟨hI, (Expr.typed_iff_of_unmarked hSame).mpr hKeeps.typed,
    (Expr.width_eq_of_unmarked hSame).trans hKeeps.width_eq, ?_⟩
  intro τ
  rw [Expr.value_eq_of_unmarked hSame, hKeeps.value_eq]

end Lower

end Gatework

------------------------------------------------------------
-- Drafts
------------------------------------------------------------

namespace Gatework

/- The claims of a draft are those of its portions. -/
structure Draft.Claims
    (portions : List Portion)
    (d : Draft) :
    Prop where
  claimed : ∀ n, ∀ c ∈ (d.claims.find? n).getD [],
    ∃ P ∈ portions, P.name = n ∧
      c.low = P.low ∧ c.width = P.width
  claims : ∀ P ∈ portions, ∃ c ∈ (d.claims.find? P.name).getD [],
    c.low = P.low ∧ c.width = P.width

/- A signal that portions of another one are computed from. -/
def Supplies
    (signals : NameMap Var)
    (portions : List Portion)
    (n : String)
    (v : Var) :
    Prop :=
  Reads signals v ∧ ∃ P ∈ portions, P.name = n ∧ v.name ∈ P.reads

/-
  A value with the bits of all portions of a signal, computed
  from what they are computed from.
-/
structure Expr.Gathers
    (signals : NameMap Var)
    (portions : List Portion)
    (n : String)
    (e : Expr) :
    Prop where
  typed : e.Typed (Supplies signals portions n)
  width_eq : e.width = widthIn signals n
  bit_iff : ∀ τ i, (e.value τ).testBit i = true ↔
    ∃ P ∈ portions, P.Sets τ n i

/- A circuit assigns what the portions of each signal make. -/
structure Circuit.Assembles
    (signals : NameMap Var)
    (portions : List Portion)
    (c : Circuit) :
    Prop where
  inside : ∀ P ∈ portions, P.Inside signals
  assigned_iff : ∀ n, (c.assignments.find? n).isSome = true ↔
    ∃ P ∈ portions, P.name = n
  gathers : ∀ n a, c.assignments.find? n = some a →
    a.value.Gathers signals portions n

variable {signals : NameMap Var}
variable {portions : List Portion}

theorem oneWidth_supplies
    (n : String) :
    OneWidth (Supplies signals portions n) :=
  fun v w hv hw => oneWidth_reads signals v w hv.1 hw.1

theorem Supplies.append
    {n : String}
    {v : Var}
    (h : Supplies signals portions n v)
    (more : List Portion) :
    Supplies signals (portions ++ more) n v := by
  rcases h with ⟨hReads, P, hP, hSupply⟩
  exact ⟨hReads, P, List.mem_append_left more hP, hSupply⟩

/- A typed value of a portion is computed from its reads. -/
theorem Expr.Typed.supplied
    {e : Expr}
    (he : e.Typed (Reads signals))
    {P : Portion}
    (hP : P.Shows e)
    (portions : List Portion) :
    e.Typed (Supplies signals (portions ++ [P]) P.name) := by
  apply he.mono
  intro v hv hRead
  refine ⟨hRead, P, by simp, rfl, ?_⟩
  rw [hP.reads_eq]
  exact List.mem_map_of_mem hv

/- Portions of other signals say nothing about a signal. -/
theorem Expr.Gathers.append
    {n : String}
    {e : Expr}
    (he : e.Gathers signals portions n)
    {P : Portion}
    (hOther : n ≠ P.name) :
    e.Gathers signals (portions ++ [P]) n where
  typed := he.typed.mono fun _ _ hv => hv.append [P]
  width_eq := he.width_eq
  bit_iff := by
    intro τ i
    rw [he.bit_iff]
    constructor
    · rintro ⟨Q, hQ, hSets⟩
      exact ⟨Q, List.mem_append_left _ hQ, hSets⟩
    · rintro ⟨Q, hQ, hSets⟩
      rcases List.mem_append.mp hQ with hQ | hQ
      · exact ⟨Q, hQ, hSets⟩
      · rw [List.mem_singleton.mp hQ] at hSets
        exact absurd hSets.1.1.symm hOther

/- A word gathers the portions that have its bits. -/
theorem Expr.IsWord.gathers
    {n : String}
    {e : Expr}
    {meaning : (String → Nat) → Nat → Bool}
    (he : e.IsWord (Supplies signals portions n) (widthIn signals n)
      meaning)
    (hInside : ∀ P ∈ portions, P.Inside signals)
    (hBits : ∀ τ i, i < widthIn signals n →
      (meaning τ i = true ↔ ∃ P ∈ portions, P.Sets τ n i)) :
    e.Gathers signals portions n where
  typed := he.typed
  width_eq := he.width_eq
  bit_iff := by
    intro τ i
    by_cases hi : i < widthIn signals n
    · rw [he.bit_eq τ i hi, hBits τ i hi]
    · -- Neither the value nor a portion reaches beyond the signal.
      have hLt := he.typed.value_lt τ
      rw [he.width_eq] at hLt
      refine iff_of_false ?_ ?_
      · rw [Nat.testBit_lt_two_pow (Nat.lt_of_lt_of_le hLt
          (Nat.pow_le_pow_right (by decide) (Nat.le_of_not_lt hi)))]
        exact Bool.false_ne_true
      · rintro ⟨P, hP, ⟨hName, _, hHigh⟩, _⟩
        have hEnd := (hInside P hP).le_width
        rw [hName] at hEnd
        omega

/- Where no portion is known, all bits are 0. -/
theorem gathers_zeros
    {v : Var}
    (hv : (Expr.var none v).Typed (Reads signals))
    (hInside : ∀ P ∈ portions, P.Inside signals)
    (hNone : ∀ P ∈ portions, P.name ≠ v.name) :
    (Expr.ofNat 0 v.width).Gathers signals portions v.name := by
  have hWidth : v.width = widthIn signals v.name := hv.2.2.2
  have hWord := Expr.isWord_zeros
    (Γ := Supplies signals portions v.name) hv.1 hv.2.1
  rw [hWidth] at hWord ⊢
  refine hWord.gathers hInside ?_
  intro τ i _
  refine iff_of_false Bool.false_ne_true ?_
  rintro ⟨P, hP, hSets⟩
  exact hNone P hP hSets.1.1

/-
  A portion put into the others of its signal, which cover no
  bit of it.
-/
theorem Expr.Gathers.splice
    {P : Portion}
    {old value : Expr}
    (hOld : old.Gathers signals portions P.name)
    (hValue : value.Typed (Reads signals))
    (hP : P.Shows value)
    (hInside : ∀ Q ∈ portions ++ [P], Q.Inside signals)
    (hApart : ∀ Q ∈ portions, Q.Apart P) :
    (old.splice P.low value).Gathers signals (portions ++ [P])
      P.name := by
  have hWord := Expr.isWord_splice
    (hOld.typed.mono fun _ _ hv => hv.append [P])
    (hValue.supplied hP portions) P.low
  rw [hOld.width_eq] at hWord
  refine hWord.gathers hInside ?_
  intro τ i _
  have hCovers : (P.low ≤ i ∧ i < P.low + value.width) ↔
      P.Covers P.name i := by
    rw [hP.width_eq]
    exact (and_iff_right rfl).symm
  simp only [List.mem_append, List.mem_singleton]
  split
  case isTrue hField =>
      have hHere := hCovers.mp hField
      rw [← hP.value_eq]
      constructor
      · intro hBit
        exact ⟨P, Or.inr rfl, hHere, hBit⟩
      · rintro ⟨Q, hQ | rfl, hSets⟩
        · exact absurd hHere (hApart Q hQ P.name i hSets.1)
        · exact hSets.2
  case isFalse hField =>
      rw [hOld.bit_iff]
      constructor
      · rintro ⟨Q, hQ, hSets⟩
        exact ⟨Q, Or.inl hQ, hSets⟩
      · rintro ⟨Q, hQ | rfl, hSets⟩
        · exact ⟨Q, hQ, hSets⟩
        · exact absurd (hCovers.mpr hSets.1) hField

/- A portion that is all of its signal. -/
theorem Expr.Typed.gathers
    {P : Portion}
    {value : Expr}
    (hValue : value.Typed (Reads signals))
    (hP : P.Shows value)
    (hAll : P.low = 0 ∧ P.width = widthIn signals P.name)
    (hInside : ∀ Q ∈ portions ++ [P], Q.Inside signals)
    (hApart : ∀ Q ∈ portions, Q.Apart P) :
    value.Gathers signals (portions ++ [P]) P.name := by
  have hWord := Expr.isWord_self (hValue.supplied hP portions)
  rw [hP.width_eq, hAll.2] at hWord
  refine hWord.gathers hInside ?_
  intro τ i hi
  constructor
  · intro hBit
    refine ⟨P, by simp, ⟨rfl, ?_, ?_⟩, ?_⟩
    · omega
    · omega
    · rw [hP.value_eq, hAll.1]
      exact hBit
  · rintro ⟨Q, hQ, hSets⟩
    rcases List.mem_append.mp hQ with hQ | hQ
    · have hOther := Portion.name_ne_of_apart
        (hInside Q (List.mem_append_left _ hQ)) hAll (hApart Q hQ)
      exact absurd hSets.1.1 hOther
    · rw [List.mem_singleton.mp hQ] at hSets
      have hBit := hSets.2
      rw [hP.value_eq, hAll.1] at hBit
      exact hBit

namespace Circuit

theorem assembles_start
    (signals : NameMap Var)
    (name : String)
    (pins : List Pin) :
    Assembles signals [] { name, pins } where
  inside := by simp
  assigned_iff := by
    intro n
    constructor
    · intro hSome
      cases hSome
    · rintro ⟨P, hP, _⟩
      cases hP
  gathers := nofun

/- One more portion is recorded with all others. -/
theorem Assembles.record
    {d : Draft}
    (hd : d.circuit.Assembles signals portions)
    {P : Portion}
    (hP : P.Inside signals)
    {v : Var}
    (hName : v.name = P.name)
    {value : Expr}
    (hValue : value.Gathers signals (portions ++ [P]) P.name)
    (driver : Stmt)
    (text : String) :
    (d.record ⟨.whole v, value⟩ driver text).circuit.Assembles
      signals (portions ++ [P]) := by
  rcases Draft.circuit_record d ⟨.whole v, value⟩ driver text with
    ⟨sources, hSame⟩
  have hFind : ∀ n, (d.record ⟨.whole v, value⟩ driver
      text).circuit.assignments.find? n =
        if n = P.name then some ⟨.whole v, value⟩
        else d.circuit.assignments.find? n := by
    intro n
    rw [hSame, ← hName]
    exact NameMap.find?_insert ..
  refine ⟨?_, ?_, ?_⟩
  · rw [List.forall_mem_append]
    exact ⟨hd.inside, by simpa using hP⟩
  · intro n
    rw [hFind]
    split
    case isTrue hn =>
        exact iff_of_true rfl ⟨P, by simp, hn.symm⟩
    case isFalse hn =>
        rw [hd.assigned_iff]
        simp only [List.mem_append, List.mem_singleton]
        constructor
        · rintro ⟨Q, hQ, hQn⟩
          exact ⟨Q, Or.inl hQ, hQn⟩
        · rintro ⟨Q, hQ | rfl, hQn⟩
          · exact ⟨Q, hQ, hQn⟩
          · exact absurd hQn.symm hn
  · intro n a hFound
    rw [hFind] at hFound
    split at hFound
    case isTrue hn =>
        cases hFound
        rw [hn]
        exact hValue
    case isFalse hn => exact (hd.gathers n a hFound).append hn

end Circuit

end Gatework

------------------------------------------------------------
-- Taking portions
------------------------------------------------------------

namespace Gatework

/- A draft that has taken portions apart from each other. -/
structure Draft.Takes
    (signals : NameMap Var)
    (portions : List Portion)
    (d : Draft) :
    Prop where
  claims : d.Claims portions
  assembles : d.circuit.Assembles signals portions
  apart : portions.Pairwise Portion.Apart

theorem Draft.takes_start
    (signals : NameMap Var)
    (name : String)
    (pins : List Pin) :
    Draft.Takes signals [] { circuit := { name, pins } } where
  claims :=
    { claimed := by
        intro n c hc
        cases hc
      claims := by simp }
  assembles := Circuit.assembles_start signals name pins
  apart := List.Pairwise.nil

/- A portion apart from those taken may be taken too. -/
theorem pairwise_append_singleton
    {portions : List Portion}
    {P : Portion}
    (hApart : portions.Pairwise Portion.Apart)
    (hP : ∀ Q ∈ portions, Q.Apart P) :
    (portions ++ [P]).Pairwise Portion.Apart := by
  rw [List.pairwise_append]
  exact ⟨hApart, List.pairwise_singleton _ _, by simpa using hP⟩

namespace Lower

variable {setting : Setting}
variable {I : Scope → Prop}
variable {clash : Prop}
variable {signals : NameMap Var}
variable {portions : List Portion}
variable {d : Draft}

/- Bits are claimed unless a portion covers one of them. -/
theorem merges_claim
    (hd : d.Claims portions)
    (hInside : ∀ Q ∈ portions, Q.Inside signals)
    {P : Portion}
    (hP : P.Inside signals)
    (span : Span) :
    Merges setting I (∃ Q ∈ portions, ¬ Q.Apart P)
      (claim d P.name ⟨P.low, P.width, span⟩)
      (fun d' => d'.Claims (portions ++ [P]) ∧
        d'.circuit = d.circuit ∧ ∀ Q ∈ portions, Q.Apart P) := by
  intro p hI
  unfold claim
  cases hFound : ((d.claims.find? P.name).getD []).find?
      (fun c => c.overlaps ⟨P.low, P.width, span⟩) with
  | some other =>
      rcases hd.claimed P.name other
          (List.mem_of_find?_eq_some hFound) with
        ⟨Q, hQ, hName, hOther⟩
      have hOverlaps :
          other.overlaps ⟨P.low, P.width, span⟩ = true :=
        List.find?_some
          (p := fun c : Claim => c.overlaps _) hFound
      refine ⟨⟨_, _, _, rfl⟩, Q, hQ, fun hApart => ?_⟩
      exact (Portion.not_overlaps_iff (hInside Q hQ).pos hP.pos
        hName hOther ⟨rfl, rfl⟩).mpr hApart hOverlaps
  | none =>
      refine ⟨hI, ⟨?_, ?_⟩, rfl, ?_⟩
      · intro n c hc
        rw [NameMap.find?_insert] at hc
        split at hc
        case isTrue hn =>
            subst hn
            rcases List.mem_append.mp hc with hc | hc
            · rcases hd.claimed P.name c hc with ⟨Q, hQ, hSame⟩
              exact ⟨Q, List.mem_append_left _ hQ, hSame⟩
            · rw [List.mem_singleton.mp hc]
              exact ⟨P, by simp, rfl, rfl, rfl⟩
        case isFalse hn =>
            rcases hd.claimed n c hc with ⟨Q, hQ, hSame⟩
            exact ⟨Q, List.mem_append_left _ hQ, hSame⟩
      · intro Q hQ
        rw [NameMap.find?_insert]
        rcases List.mem_append.mp hQ with hQ | hQ
        · rcases hd.claims Q hQ with ⟨c, hc, hSame⟩
          split
          case isTrue hn =>
              rw [hn] at hc
              exact ⟨c, List.mem_append_left _ hc, hSame⟩
          case isFalse => exact ⟨c, hc, hSame⟩
        · rw [List.mem_singleton.mp hQ, if_pos rfl]
          exact ⟨_, List.mem_append_right _
            (List.mem_singleton_self _), rfl, rfl⟩
      · intro Q hQ
        by_cases hName : Q.name = P.name
        · rcases hd.claims Q hQ with ⟨c, hc, hSame⟩
          rw [hName] at hc
          exact (Portion.not_overlaps_iff (hInside Q hQ).pos hP.pos
            hName hSame ⟨rfl, rfl⟩).mp
              (List.find?_eq_none.mp hFound c hc)
        · intro n i hQn hPn
          exact hName (hQn.1.trans hPn.1.symm)

theorem merges_gathered
    {n : String}
    {e : Expr}
    (he : e.Gathers signals portions n) :
    Merges setting I clash (keep e.simplify)
      (fun e' => e'.Gathers signals portions n) := by
  refine (merges_keep_simplify (oneWidth_supplies n) he.typed).imp
    id ?_
  rintro e' ⟨hTyped, hWidth, hValue⟩
  refine ⟨hTyped, hWidth.trans he.width_eq, ?_⟩
  intro τ i
  rw [hValue]
  exact he.bit_iff τ i

theorem Assign.inside_portion
    {a : Assign}
    (ha : (Stmt.assign a).Typed (Reads signals)) :
    a.portion.Inside signals where
  pos := ha.1.width_pos
  le_width := by
    have hWidth : a.var.width = widthIn signals a.var.name :=
      (Target.typed_var ha.1).2.2.2
    change a.target.low + a.target.width ≤ widthIn signals a.var.name
    rw [← hWidth]
    exact Target.low_add_width_le ha.1

theorem Assign.shows_portion
    {a : Assign}
    (ha : (Stmt.assign a).Typed (Reads signals)) :
    a.portion.Shows a.value where
  width_eq := ha.2.2.symm
  value_eq := fun _ => rfl
  reads_eq := rfl

/- What a lowered assignment does to a draft. -/
def addField
    (d : Draft)
    (a : Assign)
    (span : Span)
    (text : String) :
    Lower Draft := do
  let d ← claim d a.var.name ⟨a.target.low, a.target.width, span⟩
  match a.target.field? with
  | none =>
      let rhs ← keep a.value.simplify
      return d.record ⟨.whole a.var, rhs⟩ (.assign a) text
  | some low =>
      let old :=
        match d.circuit.assignments.find? a.var.name with
        | some prior => prior.value
        | none => Expr.ofNat 0 a.var.width
      let rhs ← keep (old.splice low a.value).simplify
      match d.circuit.drivers.find? a.var.name with
      | none => return d.record ⟨.whole a.var, rhs⟩ (.assign a) text
      | some driver =>
          let before := (d.texts.find? a.var.name).getD ""
          return d.record ⟨.whole a.var, rhs⟩
            (.block [driver, .assign a]) (before ++ "\n" ++ text)

theorem continuous_eq
    (d : Draft)
    (lhs value : Hdl.Expr)
    (span : Span) :
    continuous d lhs value span = (do
      let a ← assign lhs value
      let text ← textOf span
      addField d a span (trimText text)) :=
  rfl

/- An assignment adds the portion that its target selects. -/
theorem merges_addField
    (hd : d.Takes signals portions)
    {a : Assign}
    (ha : (Stmt.assign a).Typed (Reads signals))
    (span : Span)
    (text : String) :
    Merges setting I (∃ Q ∈ portions, ¬ Q.Apart a.portion)
      (addField d a span text)
      (fun d' => d'.Takes signals (portions ++ [a.portion]) ∧
        d'.circuit.processes = d.circuit.processes ∧
        (d.circuit.drivers.find? a.var.name = none →
          d'.circuit.drivers =
            d.circuit.drivers.insert a.var.name (.assign a))) := by
  have hPortion := Assign.inside_portion ha
  have hShows := Assign.shows_portion ha
  have hVar := Target.typed_var ha.1
  refine (merges_claim hd.claims hd.assembles.inside hPortion
    span).bind ?_
  rintro d₁ ⟨hClaims, hCircuit, hApart⟩
  have hInside : ∀ Q ∈ portions ++ [a.portion],
      Q.Inside signals := by
    rw [List.forall_mem_append]
    exact ⟨hd.assembles.inside, by simpa using hPortion⟩
  have hRecord : ∀ rhs driver text,
      rhs.Gathers signals (portions ++ [a.portion]) a.var.name →
      (d.circuit.drivers.find? a.var.name = none →
        driver = .assign a) →
      (d₁.record ⟨.whole a.var, rhs⟩ driver text).Takes signals
          (portions ++ [a.portion]) ∧
        (d₁.record ⟨.whole a.var, rhs⟩ driver
          text).circuit.processes = d.circuit.processes ∧
        (d.circuit.drivers.find? a.var.name = none →
          (d₁.record ⟨.whole a.var, rhs⟩ driver
            text).circuit.drivers =
              d.circuit.drivers.insert a.var.name (.assign a)) := by
    intro rhs driver text hRhs hDriver
    refine ⟨⟨?_, ?_, ?_⟩, ?_, ?_⟩
    · exact ⟨hClaims.claimed, hClaims.claims⟩
    · exact (hCircuit ▸ hd.assembles).record hPortion rfl hRhs _ _
    · exact pairwise_append_singleton hd.apart hApart
    · rw [Draft.processes_record, hCircuit]
    · intro hNone
      rcases Draft.circuit_record d₁ ⟨.whole a.var, rhs⟩ driver
          text with ⟨sources, hSame⟩
      rw [hSame, hDriver hNone, hCircuit]
      rfl
  cases hField : a.target.field? with
  | none =>
      have hAll : a.portion.low = 0 ∧
          a.portion.width = widthIn signals a.var.name := by
        refine ⟨?_, ?_⟩
        · change a.target.field?.getD 0 = 0
          rw [hField]
          rfl
        · exact (Target.width_of_field?_eq_none hField).trans
            hVar.2.2.2
      have hWhole := ha.2.1.gathers hShows hAll hInside hApart
      refine (merges_gathered hWhole).bind fun rhs hRhs => ?_
      exact merges_pure (hRecord rhs _ text hRhs fun _ => rfl)
  | some low =>
      have hLow : low = a.portion.low := by
        change low = a.target.field?.getD 0
        rw [hField]
        rfl
      -- The bits go into those of the portions before, or into 0.
      have hInto : ∀ old : Expr,
          old.Gathers signals portions a.var.name →
          Merges setting I (∃ Q ∈ portions, ¬ Q.Apart a.portion)
            (keep (old.splice low a.value).simplify)
            (fun rhs => rhs.Gathers signals
              (portions ++ [a.portion]) a.var.name) := by
        intro old hOld
        rw [hLow]
        exact merges_gathered
          (hOld.splice (P := a.portion) ha.2.1 hShows hInside hApart)
      refine Merges.bind (P := fun rhs => rhs.Gathers signals
        (portions ++ [a.portion]) a.var.name) ?_ ?_
      · rw [hCircuit]
        cases hPrior : d.circuit.assignments.find? a.var.name with
        | some prior => exact hInto _ (hd.assembles.gathers _ _ hPrior)
        | none =>
            refine hInto _ (gathers_zeros hVar hd.assembles.inside ?_)
            intro Q hQ hName
            have hSome :=
              (hd.assembles.assigned_iff _).mpr ⟨Q, hQ, hName⟩
            rw [hPrior] at hSome
            cases hSome
      · intro rhs hRhs
        split
        case h_1 =>
            exact merges_pure (hRecord rhs _ text hRhs fun _ => rfl)
        case h_2 driver hDriver =>
            refine merges_pure (hRecord rhs _ _ hRhs ?_)
            rw [← hCircuit, hDriver]
            exact nofun

theorem Slot.Holds.inside_portion
    {v : Var}
    {slot : Slot}
    (hSlot : slot.Holds (Reads signals) v) :
    (slot.portion v.name).Inside signals ∧
      (slot.portion v.name).Shows slot.value ∧
      slot.whole.width = widthIn signals v.name := by
  have hWhole : slot.whole.width = v.width :=
    Expr.width_eq_of_unmarked (e := .var none v) hSlot.whole
  have hWidth : v.width = widthIn signals v.name :=
    hSlot.signal.2.2.2
  refine ⟨⟨?_, ?_⟩, ⟨?_, fun _ => rfl, rfl⟩, hWhole.trans hWidth⟩
  · exact Nat.lt_of_lt_of_eq hSlot.signal.1 hWhole.symm
  · change 0 + slot.whole.width ≤ widthIn signals v.name
    omega
  · exact hSlot.width_eq.trans hWhole.symm

/- A process adds all bits of each signal that it writes. -/
theorem merges_drive
    (hd : d.Takes signals portions)
    (p : Process)
    (span : Span)
    {v : Var}
    {slot : Slot}
    (hSlot : slot.Holds (Reads signals) v) :
    Merges setting I
      (∃ Q ∈ portions, ¬ Q.Apart (slot.portion v.name))
      (drive p span d (v.name, slot))
      (fun d' =>
        d'.Takes signals (portions ++ [slot.portion v.name]) ∧
        d'.circuit.processes = d.circuit.processes) := by
  rcases Slot.Holds.inside_portion hSlot with
    ⟨hPortion, hShows, hWhole⟩
  refine (merges_claim hd.claims hd.assembles.inside hPortion
    span).bind ?_
  rintro d₁ ⟨hClaims, hCircuit, hApart⟩
  have hInside : ∀ Q ∈ portions ++ [slot.portion v.name],
      Q.Inside signals := by
    rw [List.forall_mem_append]
    exact ⟨hd.assembles.inside, by simpa using hPortion⟩
  have hValue := hSlot.value.gathers hShows ⟨rfl, hWhole⟩ hInside
    hApart
  refine (merges_gathered hValue).bind fun value hKept => ?_
  have hWidth : value.width = v.width :=
    hKept.width_eq.trans hSlot.signal.2.2.2.symm
  rw [hSlot.make_eq hWidth]
  refine merges_pure ⟨⟨?_, ?_, ?_⟩, ?_⟩
  · exact ⟨hClaims.claimed, hClaims.claims⟩
  · exact (hCircuit ▸ hd.assembles).record hPortion rfl hKept _ _
  · exact pairwise_append_singleton hd.apart hApart
  · rw [Draft.processes_record, hCircuit]

/- A clash with a portion is one among more portions. -/
theorem not_pairwise_of_clash
    {P : Portion}
    {more : List Portion}
    (hClash : ∃ Q ∈ portions, ¬ Q.Apart P) :
    ¬ (portions ++ P :: more).Pairwise Portion.Apart := by
  rcases hClash with ⟨Q, hQ, hMeet⟩
  intro hApart
  rw [List.pairwise_append] at hApart
  exact hMeet (hApart.2.2 Q hQ P (List.mem_cons_self ..))

/- The slots of a process are taken in turn. -/
theorem merges_drives
    (p : Process)
    (span : Span)
    {slots : List (String × Slot)}
    (hSlots : ∀ entry ∈ slots,
      ∃ v, v.name = entry.1 ∧ entry.2.Holds (Reads signals) v)
    (hd : d.Takes signals portions) :
    Merges setting I
      (¬ (portions ++ slots.map fun entry =>
        entry.2.portion entry.1).Pairwise Portion.Apart)
      (slots.foldlM (drive p span) d)
      (fun d' => d'.Takes signals (portions ++ slots.map fun entry =>
          entry.2.portion entry.1) ∧
        d'.circuit.processes = d.circuit.processes) := by
  induction slots generalizing portions d with
  | nil =>
      rw [List.foldlM_nil, List.map_nil, List.append_nil]
      exact merges_pure ⟨hd, rfl⟩
  | cons entry slots ih =>
      rcases entry with ⟨k, slot⟩
      rcases hSlots (k, slot) (List.mem_cons_self ..) with
        ⟨v, rfl, hHolds⟩
      rw [List.foldlM_cons, List.map_cons]
      refine ((merges_drive hd p span hHolds).imp
        not_pairwise_of_clash fun _ h => h).bind ?_
      rintro d₁ ⟨hd₁, hProcesses⟩
      have hRest := ih (fun other h =>
        hSlots other (List.mem_cons_of_mem _ h)) hd₁
      rw [List.append_assoc, hProcesses] at hRest
      exact hRest

end Lower

end Gatework
