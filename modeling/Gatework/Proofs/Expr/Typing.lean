import Gatework.Expr.Measures
import Gatework.Expr.Typing
import Gatework.Proofs.Expr.Subtrees
import Gatework.Proofs.Word

/-
  Well-typed expressions over a set of signals.

  Validation runs checks in sequence and says what is wrong;
  `Expr.Typed` states what it establishes. It also takes the
  signals that may be read, so that one statement covers both
  the widths at which a tree reads its signals and which
  signals it reads at all.

  Key definitions include:
    * `Expr.occurrences`, every signal a tree reads
    * `Expr.Typed`
    * `OneWidth`, each name has one width

  Key theorems include:
    * `Expr.validate_eq_ok_iff`
    * `Expr.Typed.width_pos` and `Expr.Typed.width_le`
    * `Expr.mem_names_freeVars`
-/

------------------------------------------------------------
-- Checks in sequence
------------------------------------------------------------

namespace Gatework

theorem ok_bind
    {ε α β : Type}
    (a : α)
    (next : α → Except ε β) :
    (Except.ok a >>= next) = next a :=
  rfl

/- A sequence succeeds when both of its steps do. -/
theorem bind_eq_ok_iff
    {ε α β : Type}
    {first : Except ε α}
    {next : α → Except ε β}
    {b : β} :
    (first >>= next) = .ok b ↔
      ∃ a, first = .ok a ∧ next a = .ok b := by
  cases first with
  | error e =>
      constructor
      · intro h
        cases h
      · rintro ⟨a, hFirst, _⟩
        cases hFirst
  | ok a =>
      constructor
      · intro h
        exact ⟨a, rfl, h⟩
      · rintro ⟨a', hFirst, hNext⟩
        cases hFirst
        exact hNext

theorem eq_ok_of_isSome
    {ε α : Type}
    {result : Except ε α}
    (otherwise : α)
    (hSome : result.toOption.isSome = true) :
    result = .ok (result.toOption.getD otherwise) := by
  cases result with
  | error e => cases hSome
  | ok a => rfl

theorem eq_ok_of_toOption
    {ε α : Type}
    {result : Except ε α}
    {a : α}
    (hSome : result.toOption = some a) :
    result = .ok a := by
  cases result with
  | error e => cases hSome
  | ok b =>
      cases hSome
      rfl

/- Two checks in sequence. -/
theorem check_bind_eq_ok_iff
    {ε : Type}
    {first next : Except ε Unit} :
    (first >>= fun _ => next) = .ok () ↔
      first = .ok () ∧ next = .ok () := by
  rw [bind_eq_ok_iff]
  constructor
  · rintro ⟨_, hFirst, hNext⟩
    exact ⟨hFirst, hNext⟩
  · rintro ⟨hFirst, hNext⟩
    exact ⟨(), hFirst, hNext⟩

end Gatework

------------------------------------------------------------
-- Signals read
------------------------------------------------------------

namespace Gatework

/- A signal whose name is not empty. -/
def Var.HasName
    (v : Var) :
    Prop :=
  v.name ≠ ""

/- A set of signals in which each name has one width. -/
def OneWidth
    (Γ : Var → Prop) :
    Prop :=
  ∀ v w, Γ v → Γ w → v.name = w.name → v.width = w.width

namespace Expr

mutual

/- Every signal a tree reads, as often as it reads it. -/
def occurrences : Expr → List Var
  | const _ _ => []
  | var _ v => [v]
  | not _ x => occurrences x
  | gate _ _ a b => occurrences a ++ occurrences b
  | compare _ _ a b => occurrences a ++ occurrences b
  | mux _ s t f =>
      occurrences s ++ (occurrences t ++ occurrences f)
  | bit _ b _ => occurrences b
  | part _ b _ _ => occurrences b
  | concat _ parts => occurrencesAll parts

def occurrencesAll : List Expr → List Var
  | [] => []
  | p :: ps => occurrences p ++ occurrencesAll ps

end

theorem mem_occurrencesAll
    {v : Var}
    {parts : List Expr} :
    v ∈ occurrencesAll parts ↔
      ∃ p ∈ parts, v ∈ p.occurrences := by
  induction parts with
  | nil => simp [occurrencesAll]
  | cons p ps ih => simp [occurrencesAll, ih]

end Expr

namespace VarSet

/- Inserting adds a name and loses none. -/
theorem mem_names_insert
    {vs : VarSet}
    {v : Var}
    {n : String} :
    n ∈ (vs.insert v).names ↔ n = v.name ∨ n ∈ vs.names := by
  unfold insert names
  induction vs with
  | nil => simp [insertOrdered]
  | cons w ws ih =>
      unfold insertOrdered
      by_cases hLess : v.name < w.name
      · simp [hLess]
      · by_cases hGreater : w.name < v.name
        · simp only [hLess, hGreater, decide_false,
            decide_true, if_true, Bool.false_eq_true, if_false,
            List.map_cons, List.mem_cons, ih]
          constructor
          · rintro (h | h | h)
            · exact Or.inr (Or.inl h)
            · exact Or.inl h
            · exact Or.inr (Or.inr h)
          · rintro (h | h | h)
            · exact Or.inr (Or.inl h)
            · exact Or.inl h
            · exact Or.inr (Or.inr h)
        · have hSame : v.name = w.name :=
            String.le_antisymm
              (String.not_lt.mp hGreater)
              (String.not_lt.mp hLess)
          simp [hSame]

theorem mem_names_union
    {vs ws : VarSet}
    {n : String} :
    n ∈ (vs.union ws).names ↔ n ∈ vs.names ∨ n ∈ ws.names := by
  unfold union
  induction ws generalizing vs with
  | nil => simp [names]
  | cons w ws ih =>
      rw [List.foldl_cons, ih, mem_names_insert]
      simp only [names, List.map_cons, List.mem_cons]
      constructor
      · rintro ((h | h) | h)
        · exact Or.inr (Or.inl h)
        · exact Or.inl h
        · exact Or.inr (Or.inr h)
      · rintro (h | h | h)
        · exact Or.inl (Or.inr h)
        · exact Or.inl (Or.inl h)
        · exact Or.inr h

/- A union holds no signal that neither set holds. -/
theorem mem_of_mem_insert
    {vs : VarSet}
    {v w : Var}
    (hw : w ∈ vs.insert v) :
    w = v ∨ w ∈ vs := by
  unfold insert at hw
  induction vs with
  | nil => simpa [insertOrdered] using hw
  | cons u us ih =>
      unfold insertOrdered at hw
      split at hw
      · simpa using hw
      · split at hw
        · rcases List.mem_cons.mp hw with rfl | hRest
          · exact Or.inr (List.mem_cons_self ..)
          · rcases ih hRest with h | h
            · exact Or.inl h
            · exact Or.inr (List.mem_cons_of_mem _ h)
        · exact Or.inr hw

theorem mem_of_mem_union
    {vs ws : VarSet}
    {w : Var}
    (hw : w ∈ vs.union ws) :
    w ∈ vs ∨ w ∈ ws := by
  unfold union at hw
  induction ws generalizing vs with
  | nil => exact Or.inl hw
  | cons u us ih =>
      rw [List.foldl_cons] at hw
      rcases ih hw with h | h
      · rcases mem_of_mem_insert h with rfl | h
        · exact Or.inr (List.mem_cons_self ..)
        · exact Or.inl h
      · exact Or.inr (List.mem_cons_of_mem _ h)

end VarSet

end Gatework

------------------------------------------------------------
-- Free signals and occurrences
------------------------------------------------------------

namespace Gatework

namespace Expr

theorem mem_names_freeVarsAll
    {parts : List Expr}
    (hParts : ∀ p ∈ parts, ∀ n,
      n ∈ p.freeVars.names ↔ n ∈ p.occurrences.map Var.name)
    {seen : VarSet}
    {n : String} :
    n ∈ (freeVarsAll seen parts).names ↔
      n ∈ seen.names ∨
        n ∈ (occurrencesAll parts).map Var.name := by
  induction parts generalizing seen with
  | nil => simp [freeVarsAll, occurrencesAll]
  | cons p ps ih =>
      have hHead := hParts p (List.mem_cons_self ..) n
      have hTail : ∀ q ∈ ps, ∀ n,
          n ∈ q.freeVars.names ↔
            n ∈ q.occurrences.map Var.name := by
        intro q hq
        exact hParts q (List.mem_cons_of_mem _ hq)
      rw [freeVarsAll, ih hTail, VarSet.mem_names_union, hHead,
        occurrencesAll, List.map_append, List.mem_append,
        or_assoc]

/- The free signals have the names that occur. -/
theorem mem_names_freeVars
    (e : Expr)
    (n : String) :
    n ∈ e.freeVars.names ↔ n ∈ e.occurrences.map Var.name := by
  induction e generalizing n with
  | const m c => simp [freeVars, occurrences, VarSet.names]
  | var m v => simp [freeVars, occurrences, VarSet.names]
  | not m x ih => simpa [freeVars, occurrences] using ih n
  | gate m op a b iha ihb =>
      rw [freeVars, VarSet.mem_names_union, iha, ihb,
        occurrences, List.map_append, List.mem_append]
  | compare m op a b iha ihb =>
      rw [freeVars, VarSet.mem_names_union, iha, ihb,
        occurrences, List.map_append, List.mem_append]
  | mux m s t f ihs iht ihf =>
      rw [freeVars, VarSet.mem_names_union,
        VarSet.mem_names_union, ihs, iht, ihf, occurrences,
        List.map_append, List.map_append, List.mem_append,
        List.mem_append, or_assoc]
  | bit m b i ih => simpa [freeVars, occurrences] using ih n
  | part m b h l ih => simpa [freeVars, occurrences] using ih n
  | concat m parts ih =>
      rw [freeVars, mem_names_freeVarsAll ih, occurrences]
      simp [VarSet.names]

theorem mem_occurrences_of_mem_freeVarsAll
    {parts : List Expr}
    (hParts : ∀ p ∈ parts, ∀ v,
      v ∈ p.freeVars → v ∈ p.occurrences)
    {seen : VarSet}
    {v : Var}
    (hv : v ∈ freeVarsAll seen parts) :
    v ∈ seen ∨ v ∈ occurrencesAll parts := by
  induction parts generalizing seen with
  | nil => exact Or.inl hv
  | cons p ps ih =>
      have hTail : ∀ q ∈ ps, ∀ v,
          v ∈ q.freeVars → v ∈ q.occurrences := by
        intro q hq
        exact hParts q (List.mem_cons_of_mem _ hq)
      rw [freeVarsAll] at hv
      rw [occurrencesAll, List.mem_append]
      rcases ih hTail hv with hSeen | hLater
      · rcases VarSet.mem_of_mem_union hSeen with h | h
        · exact Or.inl h
        · exact Or.inr
            (Or.inl (hParts p (List.mem_cons_self ..) v h))
      · exact Or.inr (Or.inr hLater)

/- A free signal is one that occurs. -/
theorem mem_occurrences_of_mem_freeVars
    {e : Expr}
    {v : Var}
    (hv : v ∈ e.freeVars) :
    v ∈ e.occurrences := by
  induction e generalizing v with
  | const m c => exact hv
  | var m w => exact hv
  | not m x ih => exact ih hv
  | gate m op a b iha ihb =>
      rw [occurrences, List.mem_append]
      exact (VarSet.mem_of_mem_union hv).imp iha ihb
  | compare m op a b iha ihb =>
      rw [occurrences, List.mem_append]
      exact (VarSet.mem_of_mem_union hv).imp iha ihb
  | mux m s t f ihs iht ihf =>
      rw [occurrences, List.mem_append, List.mem_append]
      rcases VarSet.mem_of_mem_union hv with h | h
      · rcases VarSet.mem_of_mem_union h with h | h
        · exact Or.inl (ihs h)
        · exact Or.inr (Or.inl (iht h))
      · exact Or.inr (Or.inr (ihf h))
  | bit m b i ih => exact ih hv
  | part m b h l ih => exact ih hv
  | concat m parts ih =>
      rw [occurrences]
      rcases mem_occurrences_of_mem_freeVarsAll
          (fun p hp v => ih p hp) hv with h | h
      · cases h
      · exact h

end Expr

end Gatework

------------------------------------------------------------
-- Typing
------------------------------------------------------------

namespace Gatework

namespace Expr

mutual

/-
  A tree that passes every check and reads only signals of a
  set.
-/
def Typed
    (Γ : Var → Prop) :
    Expr → Prop
  | const _ c =>
      1 ≤ c.width ∧ c.width ≤ maxWidth ∧ c.value < 2 ^ c.width
  | var _ v => 1 ≤ v.width ∧ v.width ≤ maxWidth ∧ Γ v
  | not _ x => Typed Γ x ∧ x.width = 1
  | gate _ _ a b => Typed Γ a ∧ Typed Γ b ∧ a.width = b.width
  | compare _ _ a b =>
      Typed Γ a ∧ Typed Γ b ∧ a.width = b.width
  | mux _ s t f =>
      Typed Γ s ∧ Typed Γ t ∧ Typed Γ f ∧ s.width = 1 ∧
        t.width = f.width
  | bit _ b i => Typed Γ b ∧ i < b.width
  | part _ b h l => Typed Γ b ∧ max h l < b.width
  | concat _ parts =>
      TypedAll Γ parts ∧ parts ≠ [] ∧
        totalWidth parts ≤ maxWidth

def TypedAll
    (Γ : Var → Prop) :
    List Expr → Prop
  | [] => True
  | p :: ps => Typed Γ p ∧ TypedAll Γ ps

end

variable {Γ Δ : Var → Prop}

theorem typedAll_iff
    {parts : List Expr} :
    TypedAll Γ parts ↔ ∀ p ∈ parts, Typed Γ p := by
  induction parts with
  | nil => simp [TypedAll]
  | cons p ps ih => simp [TypedAll, ih]

end Expr

end Gatework

------------------------------------------------------------
-- Typing and the signals read
------------------------------------------------------------

namespace Gatework

namespace Expr

variable {Γ Δ : Var → Prop}

/- Typing is kept when more signals may be read. -/
theorem Typed.mono
    {e : Expr}
    (hSub : ∀ v, v ∈ e.occurrences → Γ v → Δ v)
    (he : e.Typed Γ) :
    e.Typed Δ := by
  induction e with
  | const m c => exact he
  | var m v =>
      rcases he with ⟨hPos, hMax, hv⟩
      exact ⟨hPos, hMax, hSub v (by simp [occurrences]) hv⟩
  | not m x ih => exact ⟨ih hSub he.1, he.2⟩
  | gate m op a b iha ihb =>
      simp only [occurrences, List.mem_append] at hSub
      rcases he with ⟨ha, hb, hWidths⟩
      exact ⟨iha (fun v hv => hSub v (Or.inl hv)) ha,
        ihb (fun v hv => hSub v (Or.inr hv)) hb, hWidths⟩
  | compare m op a b iha ihb =>
      simp only [occurrences, List.mem_append] at hSub
      rcases he with ⟨ha, hb, hWidths⟩
      exact ⟨iha (fun v hv => hSub v (Or.inl hv)) ha,
        ihb (fun v hv => hSub v (Or.inr hv)) hb, hWidths⟩
  | mux m s t f ihs iht ihf =>
      simp only [occurrences, List.mem_append] at hSub
      rcases he with ⟨hs, ht, hf, hSel, hWidths⟩
      exact ⟨ihs (fun v hv => hSub v (Or.inl hv)) hs,
        iht (fun v hv => hSub v (Or.inr (Or.inl hv))) ht,
        ihf (fun v hv => hSub v (Or.inr (Or.inr hv))) hf,
        hSel, hWidths⟩
  | bit m b i ih => exact ⟨ih hSub he.1, he.2⟩
  | part m b h l ih => exact ⟨ih hSub he.1, he.2⟩
  | concat m parts ih =>
      rcases he with ⟨hParts, hNonempty, hTotal⟩
      refine ⟨typedAll_iff.mpr ?_, hNonempty, hTotal⟩
      intro p hp
      apply ih p hp _ (typedAll_iff.mp hParts p hp)
      intro v hv
      exact hSub v (mem_occurrencesAll.mpr ⟨p, hp, hv⟩)

/- A typed tree reads only signals of its set. -/
theorem Typed.mem
    {e : Expr}
    (he : e.Typed Γ)
    {v : Var}
    (hv : v ∈ e.occurrences) :
    Γ v := by
  induction e with
  | const m c => cases hv
  | var m w =>
      rcases List.mem_singleton.mp hv with rfl
      exact he.2.2
  | not m x ih => exact ih he.1 hv
  | gate m op a b iha ihb =>
      rcases List.mem_append.mp hv with h | h
      · exact iha he.1 h
      · exact ihb he.2.1 h
  | compare m op a b iha ihb =>
      rcases List.mem_append.mp hv with h | h
      · exact iha he.1 h
      · exact ihb he.2.1 h
  | mux m s t f ihs iht ihf =>
      rcases he with ⟨hs, ht, hf, _, _⟩
      rcases List.mem_append.mp hv with h | h
      · exact ihs hs h
      · rcases List.mem_append.mp h with h | h
        · exact iht ht h
        · exact ihf hf h
  | bit m b i ih => exact ih he.1 hv
  | part m b h l ih => exact ih he.1 hv
  | concat m parts ih =>
      rcases mem_occurrencesAll.mp hv with ⟨p, hp, h⟩
      exact ih p hp (typedAll_iff.mp he.1 p hp) h

end Expr

end Gatework

------------------------------------------------------------
-- Widths in range
------------------------------------------------------------

namespace Gatework

theorem one_le_maxWidth : 1 ≤ maxWidth := by
  decide

namespace Expr

variable {Γ : Var → Prop}

/- Typed trees have 1 to 64 bits. -/
theorem Typed.width_bounds
    {e : Expr}
    (he : e.Typed Γ) :
    1 ≤ e.width ∧ e.width ≤ maxWidth := by
  induction e with
  | const m c => exact ⟨he.1, he.2.1⟩
  | var m v => exact ⟨he.1, he.2.1⟩
  | not m x ih => exact ih he.1
  | gate m op a b iha ihb => exact iha he.1
  | compare m op a b iha ihb => exact ⟨Nat.le_refl 1, one_le_maxWidth⟩
  | mux m s t f ihs iht ihf => exact iht he.2.1
  | bit m b i ih => exact ⟨Nat.le_refl 1, one_le_maxWidth⟩
  | part m b h l ih =>
      have hBase := (ih he.1).2
      have hInside := he.2
      rw [width]
      omega
  | concat m parts ih =>
      rcases he with ⟨hParts, hNonempty, hTotal⟩
      refine ⟨?_, hTotal⟩
      cases parts with
      | nil => exact absurd rfl hNonempty
      | cons p ps =>
          have hFirst :=
            (ih p (List.mem_cons_self ..) hParts.1).1
          rw [width, totalWidth]
          omega

theorem Typed.width_pos
    {e : Expr}
    (he : e.Typed Γ) :
    1 ≤ e.width :=
  he.width_bounds.1

theorem Typed.width_le
    {e : Expr}
    (he : e.Typed Γ) :
    e.width ≤ maxWidth :=
  he.width_bounds.2

end Expr

end Gatework

------------------------------------------------------------
-- Validation
------------------------------------------------------------

namespace Gatework

theorem inRange_iff
    {width : Nat} :
    inRange width = true ↔ 1 ≤ width ∧ width ≤ maxWidth := by
  simp [inRange]

namespace Const

theorem make_eq_ok_iff
    {value width : Nat}
    {c : Const} :
    make value width = .ok c ↔
      (1 ≤ width ∧ width ≤ maxWidth ∧ value < 2 ^ width) ∧
        c = plain value width := by
  unfold make
  by_cases hRange : inRange width = true
  · have hBounds := inRange_iff.mp hRange
    by_cases hFits : value < 2 ^ width
    · have hLe : ¬ value > mask width :=
        Nat.not_lt.mpr ((le_mask_iff hBounds.2).mpr hFits)
      simp only [hRange, Bool.not_true, Bool.false_eq_true,
        if_false, hLe, Except.ok.injEq, hBounds, hFits,
        and_self, true_and]
      exact eq_comm
    · have hGt : value > mask width := by
        apply Nat.lt_of_not_le
        intro hLe
        exact hFits ((le_mask_iff hBounds.2).mp hLe)
      simp [hRange, hGt, hFits]
  · have hBounds : ¬ (1 ≤ width ∧ width ≤ maxWidth) :=
      fun h => hRange (inRange_iff.mpr h)
    simp only [Bool.not_eq_true] at hRange
    simp only [hRange, Bool.not_false, if_true, reduceCtorEq,
      false_iff]
    rintro ⟨⟨hPos, hMax, _⟩, _⟩
    exact hBounds ⟨hPos, hMax⟩

end Const

namespace Var

theorem make_eq_ok_iff
    {name : String}
    {width : Nat}
    {v : Var} :
    make name width = .ok v ↔
      (name ≠ "" ∧ 1 ≤ width ∧ width ≤ maxWidth) ∧
        v = ⟨name, width, false⟩ := by
  unfold make
  by_cases hName : name = ""
  · simp [hName]
  · have hFull : name.isEmpty = false := by
      simpa using hName
    by_cases hRange : inRange width = true
    · have hBounds := inRange_iff.mp hRange
      simp only [hFull, hRange, Bool.not_true,
        Bool.false_eq_true, if_false, Except.ok.injEq, ne_eq,
        hName, not_false_eq_true, hBounds, and_self, true_and]
      exact eq_comm
    · have hBounds : ¬ (1 ≤ width ∧ width ≤ maxWidth) :=
        fun h => hRange (inRange_iff.mpr h)
      simp only [Bool.not_eq_true] at hRange
      simp only [hFull, hRange, Bool.not_false,
        Bool.false_eq_true, if_false, if_true, reduceCtorEq,
        false_iff]
      rintro ⟨⟨_, hPos, hMax⟩, _⟩
      exact hBounds ⟨hPos, hMax⟩

end Var

end Gatework

namespace Gatework

namespace Expr

theorem checkSameWidth_eq_ok_iff
    {node : String}
    {a b : Expr} :
    checkSameWidth node a b = .ok () ↔ a.width = b.width := by
  unfold checkSameWidth
  split <;> simp_all

theorem checkConcat_eq_ok_iff
    {parts : List Expr} :
    checkConcat parts = .ok () ↔
      parts ≠ [] ∧ totalWidth parts ≤ maxWidth := by
  unfold checkConcat
  cases parts with
  | nil => simp
  | cons p ps =>
      simp only [List.isEmpty_cons, Bool.false_eq_true, if_false]
      split <;> simp_all

/-
  The check of a node holds exactly if its operands have the
  widths that typing asks for.
-/
theorem checkNode_eq_ok_iff
    {e : Expr} :
    checkNode e = .ok () ↔
      match e with
      | const _ c =>
          1 ≤ c.width ∧ c.width ≤ maxWidth ∧
            c.value < 2 ^ c.width
      | var _ v =>
          v.name ≠ "" ∧ 1 ≤ v.width ∧ v.width ≤ maxWidth
      | not _ x => x.width = 1
      | gate _ _ a b => a.width = b.width
      | compare _ _ a b => a.width = b.width
      | mux _ s t f => s.width = 1 ∧ t.width = f.width
      | bit _ b i => i < b.width
      | part _ b h l => max h l < b.width
      | concat _ parts =>
          parts ≠ [] ∧ totalWidth parts ≤ maxWidth := by
  cases e with
  | const m c =>
      simp only [checkNode]
      cases hMake : Const.make c.value c.width with
      | error f =>
          simp only [Except.map, reduceCtorEq, false_iff]
          intro h
          have hOk := Const.make_eq_ok_iff.mpr ⟨h, rfl⟩
          rw [hMake] at hOk
          cases hOk
      | ok d =>
          simp only [Except.map, true_iff]
          exact (Const.make_eq_ok_iff.mp hMake).1
  | var m v =>
      simp only [checkNode]
      cases hMake : Var.make v.name v.width with
      | error f =>
          simp only [Except.map, reduceCtorEq, false_iff]
          intro h
          have hOk := Var.make_eq_ok_iff.mpr ⟨h, rfl⟩
          rw [hMake] at hOk
          cases hOk
      | ok d =>
          simp only [Except.map, true_iff]
          exact (Var.make_eq_ok_iff.mp hMake).1
  | not m x =>
      simp only [checkNode, checkNot]
      split <;> simp_all
  | gate m op a b => exact checkSameWidth_eq_ok_iff
  | compare m op a b => exact checkSameWidth_eq_ok_iff
  | mux m s t f =>
      simp only [checkNode, checkMux]
      split
      · rename_i hSel
        simp [hSel, checkSameWidth_eq_ok_iff]
      · simp_all
  | bit m b i =>
      simp only [checkNode, checkBit]
      split <;> simp_all
  | part m b h l =>
      simp only [checkNode, checkPart]
      split <;> simp_all
  | concat m parts => exact checkConcat_eq_ok_iff

theorem validateAll_eq_ok_iff
    {parts : List Expr} :
    validateAll parts = .ok () ↔
      ∀ p ∈ parts, p.validate = .ok () := by
  induction parts with
  | nil => simp [validateAll]
  | cons p ps ih =>
      rw [validateAll, check_bind_eq_ok_iff, ih]
      simp

/-
  Validation succeeds exactly on well-typed trees in which
  every signal has a name.
-/
theorem validate_eq_ok_iff
    {e : Expr} :
    e.validate = .ok () ↔ e.Typed Var.HasName := by
  induction e with
  | const m c =>
      rw [validate, checkNode_eq_ok_iff, Typed]
  | var m v =>
      rw [validate, checkNode_eq_ok_iff, Typed]
      constructor
      · rintro ⟨hName, hPos, hMax⟩
        exact ⟨hPos, hMax, hName⟩
      · rintro ⟨hPos, hMax, hName⟩
        exact ⟨hName, hPos, hMax⟩
  | not m x ih =>
      rw [validate, check_bind_eq_ok_iff, checkNode_eq_ok_iff,
        ih, Typed]
  | gate m op a b iha ihb =>
      rw [validate, check_bind_eq_ok_iff, check_bind_eq_ok_iff,
        checkNode_eq_ok_iff, iha, ihb, Typed]
  | compare m op a b iha ihb =>
      rw [validate, check_bind_eq_ok_iff, check_bind_eq_ok_iff,
        checkNode_eq_ok_iff, iha, ihb, Typed]
  | mux m s t f ihs iht ihf =>
      rw [validate, check_bind_eq_ok_iff, check_bind_eq_ok_iff,
        check_bind_eq_ok_iff, checkNode_eq_ok_iff, ihs, iht,
        ihf, Typed]
  | bit m b i ih =>
      rw [validate, check_bind_eq_ok_iff, checkNode_eq_ok_iff,
        ih, Typed]
  | part m b h l ih =>
      rw [validate, check_bind_eq_ok_iff, checkNode_eq_ok_iff,
        ih, Typed]
  | concat m parts ih =>
      rw [validate, check_bind_eq_ok_iff, checkNode_eq_ok_iff,
        validateAll_eq_ok_iff, Typed, typedAll_iff]
      constructor
      · rintro ⟨hParts, hNode⟩
        exact ⟨fun p hp => (ih p hp).mp (hParts p hp), hNode⟩
      · rintro ⟨hParts, hNode⟩
        exact ⟨fun p hp => (ih p hp).mpr (hParts p hp), hNode⟩

/- Validity with a bound on the signals that are read. -/
theorem typed_of_validate
    {Γ : Var → Prop}
    {e : Expr}
    (hValid : e.validate = .ok ())
    (hRead : ∀ v ∈ e.occurrences, Γ v) :
    e.Typed Γ :=
  (validate_eq_ok_iff.mp hValid).mono (fun v hv _ => hRead v hv)

theorem Typed.validate
    {Γ : Var → Prop}
    {e : Expr}
    (he : e.Typed Γ)
    (hNamed : ∀ v, Γ v → v.HasName) :
    e.validate = .ok () :=
  validate_eq_ok_iff.mpr (he.mono (fun v _ hv => hNamed v hv))

end Expr

end Gatework
