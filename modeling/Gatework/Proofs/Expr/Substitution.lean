import Gatework.Definitions
import Gatework.Expr.Stamp
import Gatework.Proofs.Expr.Value

/-
  Marks and substitution.

  Marks never change what an expression means, and putting
  typed expressions in the place of signals of their width
  gives a typed expression: its value is that of the original
  where each replaced signal has the value of what replaces
  it.

  Key definitions include:
    * `Expr.unmarked`, a tree without its marks
    * `Expr.Replaces`, a substitution keeps widths

  Key theorems include:
    * `Expr.unmarked_stamp`
    * `Expr.eq_of_identical`
    * `Expr.Typed.subst`
    * `Expr.value_subst` and `Expr.eval_subst`
-/

------------------------------------------------------------
-- Marks
------------------------------------------------------------

namespace Gatework

namespace Expr

mutual

/- The tree without its marks. -/
def unmarked : Expr → Expr
  | const _ c => const none c
  | var _ v => var none v
  | not _ x => not none (unmarked x)
  | gate _ op a b => gate none op (unmarked a) (unmarked b)
  | compare _ op a b => compare none op (unmarked a) (unmarked b)
  | mux _ s t f => mux none (unmarked s) (unmarked t) (unmarked f)
  | bit _ b i => bit none (unmarked b) i
  | part _ b h l => part none (unmarked b) h l
  | concat _ parts => concat none (unmarkedAll parts)

def unmarkedAll : List Expr → List Expr
  | [] => []
  | p :: ps => unmarked p :: unmarkedAll ps

end

theorem unmarkedAll_eq_map
    (parts : List Expr) :
    unmarkedAll parts = parts.map unmarked := by
  induction parts with
  | nil => rfl
  | cons p ps ih => rw [unmarkedAll, ih, List.map_cons]

theorem stampAll_eq
    {parts : List Expr}
    (hParts : ∀ p ∈ parts, ∀ n,
      (p.stamp n).1.unmarked = p.unmarked)
    (n : Nat) :
    unmarkedAll (stampAll parts n).1 = unmarkedAll parts := by
  induction parts generalizing n with
  | nil => rfl
  | cons p ps ih =>
      have hTail : ∀ q ∈ ps, ∀ n,
          (q.stamp n).1.unmarked = q.unmarked :=
        fun q hq => hParts q (List.mem_cons_of_mem _ hq)
      change
        (p.stamp n).1.unmarked ::
            unmarkedAll (stampAll ps (p.stamp n).2).1 =
          p.unmarked :: unmarkedAll ps
      rw [hParts p (List.mem_cons_self ..), ih hTail]

/- Stamping changes nothing but marks. -/
theorem unmarked_stamp
    (e : Expr)
    (n : Nat) :
    (e.stamp n).1.unmarked = e.unmarked := by
  induction e generalizing n with
  | const m c => cases m <;> rfl
  | var m v => cases m <;> rfl
  | not m x ih =>
      cases m with
      | some k => rfl
      | none =>
          change not none (x.stamp n).1.unmarked = _
          rw [ih]
          rfl
  | gate m op a b iha ihb =>
      cases m with
      | some k => rfl
      | none =>
          change gate none op (a.stamp n).1.unmarked
            (b.stamp (a.stamp n).2).1.unmarked = _
          rw [iha, ihb]
          rfl
  | compare m op a b iha ihb =>
      cases m with
      | some k => rfl
      | none =>
          change compare none op (a.stamp n).1.unmarked
            (b.stamp (a.stamp n).2).1.unmarked = _
          rw [iha, ihb]
          rfl
  | mux m s t f ihs iht ihf =>
      cases m with
      | some k => rfl
      | none =>
          change mux none (s.stamp n).1.unmarked
            (t.stamp (s.stamp n).2).1.unmarked
            (f.stamp (t.stamp (s.stamp n).2).2).1.unmarked = _
          rw [ihs, iht, ihf]
          rfl
  | bit m b i ih =>
      cases m with
      | some k => rfl
      | none =>
          change bit none (b.stamp n).1.unmarked i = _
          rw [ih]
          rfl
  | part m b h l ih =>
      cases m with
      | some k => rfl
      | none =>
          change part none (b.stamp n).1.unmarked h l = _
          rw [ih]
          rfl
  | concat m parts ih =>
      cases m with
      | some k => rfl
      | none =>
          change concat none (unmarkedAll (stampAll parts n).1) = _
          rw [stampAll_eq ih]
          rfl

end Expr

end Gatework

------------------------------------------------------------
-- Meaning without marks
------------------------------------------------------------

namespace Gatework

namespace Expr

variable {Γ : Var → Prop}

theorem totalWidth_unmarkedAll
    {parts : List Expr}
    (hParts : ∀ p ∈ parts, p.unmarked.width = p.width) :
    totalWidth (unmarkedAll parts) = totalWidth parts := by
  induction parts with
  | nil => rfl
  | cons p ps ih =>
      rw [unmarkedAll, totalWidth, totalWidth,
        hParts p (List.mem_cons_self ..),
        ih (fun q hq => hParts q (List.mem_cons_of_mem _ hq))]

theorem width_unmarked
    (e : Expr) :
    e.unmarked.width = e.width := by
  induction e with
  | const m c => rfl
  | var m v => rfl
  | not m x ih => exact ih
  | gate m op a b iha ihb => exact iha
  | compare m op a b iha ihb => rfl
  | mux m s t f ihs iht ihf => exact iht
  | bit m b i ih => rfl
  | part m b h l ih => rfl
  | concat m parts ih => exact totalWidth_unmarkedAll ih

theorem valueParts_unmarkedAll
    {parts : List Expr}
    {τ : String → Nat}
    (hParts : ∀ p ∈ parts, p.unmarked.value τ = p.value τ)
    (high : Nat) :
    valueParts τ high (unmarkedAll parts) =
      valueParts τ high parts := by
  induction parts generalizing high with
  | nil => rfl
  | cons p ps ih =>
      rw [unmarkedAll, valueParts, valueParts, width_unmarked,
        hParts p (List.mem_cons_self ..)]
      exact ih (fun q hq => hParts q (List.mem_cons_of_mem _ hq)) _

theorem value_unmarked
    (e : Expr)
    (τ : String → Nat) :
    e.unmarked.value τ = e.value τ := by
  induction e with
  | const m c => rfl
  | var m v => rfl
  | not m x ih => rw [unmarked, value, value, ih, width_unmarked]
  | gate m op a b iha ihb =>
      rw [unmarked, value, value, iha, ihb, width_unmarked]
  | compare m op a b iha ihb =>
      rw [unmarked, value, value, iha, ihb, width_unmarked]
  | mux m s t f ihs iht ihf =>
      rw [unmarked, value, value, ihs, iht, ihf, width_unmarked]
  | bit m b i ih => rw [unmarked, value, value, ih]
  | part m b h l ih =>
      rw [unmarked, value, value, ih]
      rfl
  | concat m parts ih =>
      rw [unmarked, value, value, valueParts_unmarkedAll ih,
        totalWidth_unmarkedAll (fun p _ => width_unmarked p)]

theorem typed_unmarked
    {e : Expr} :
    e.unmarked.Typed Γ ↔ e.Typed Γ := by
  induction e with
  | const m c => exact Iff.rfl
  | var m v => exact Iff.rfl
  | not m x ih => rw [unmarked, Typed, Typed, ih, width_unmarked]
  | gate m op a b iha ihb =>
      rw [unmarked, Typed, Typed, iha, ihb, width_unmarked,
        width_unmarked]
  | compare m op a b iha ihb =>
      rw [unmarked, Typed, Typed, iha, ihb, width_unmarked,
        width_unmarked]
  | mux m s t f ihs iht ihf =>
      rw [unmarked, Typed, Typed, ihs, iht, ihf, width_unmarked,
        width_unmarked, width_unmarked]
  | bit m b i ih => rw [unmarked, Typed, Typed, ih, width_unmarked]
  | part m b h l ih =>
      rw [unmarked, Typed, Typed, ih, width_unmarked]
  | concat m parts ih =>
      rw [unmarked, Typed, Typed,
        totalWidth_unmarkedAll (fun p _ => width_unmarked p),
        typedAll_iff, typedAll_iff, unmarkedAll_eq_map]
      simp only [List.mem_map, forall_exists_index, and_imp,
        forall_apply_eq_imp_iff₂, ne_eq, List.map_eq_nil_iff]
      constructor
      · rintro ⟨hParts, hRest⟩
        exact ⟨fun p hp => (ih p hp).mp (hParts p hp), hRest⟩
      · rintro ⟨hParts, hRest⟩
        exact ⟨fun p hp => (ih p hp).mpr (hParts p hp), hRest⟩

/- Trees that differ in marks only have one width. -/
theorem width_eq_of_unmarked
    {e e' : Expr}
    (hSame : e'.unmarked = e.unmarked) :
    e'.width = e.width := by
  rw [← width_unmarked e', hSame, width_unmarked]

theorem value_eq_of_unmarked
    {e e' : Expr}
    (hSame : e'.unmarked = e.unmarked)
    (τ : String → Nat) :
    e'.value τ = e.value τ := by
  rw [← value_unmarked e', hSame, value_unmarked]

theorem typed_iff_of_unmarked
    {e e' : Expr}
    (hSame : e'.unmarked = e.unmarked) :
    e'.Typed Γ ↔ e.Typed Γ := by
  rw [← typed_unmarked (e := e'), hSame, typed_unmarked]

end Expr

end Gatework

------------------------------------------------------------
-- Identical trees
------------------------------------------------------------

namespace Gatework

namespace Expr

theorem eq_of_identicalAll
    {ps qs : List Expr}
    (hParts : ∀ p ∈ ps, ∀ q, p.identical q = true → p = q)
    (hSame : identicalAll ps qs = true) :
    ps = qs := by
  induction ps generalizing qs with
  | nil =>
      cases qs with
      | nil => rfl
      | cons q qs => cases hSame
  | cons p ps ih =>
      cases qs with
      | nil => cases hSame
      | cons q qs =>
          rw [identicalAll, Bool.and_eq_true] at hSame
          have hTail : ∀ r ∈ ps, ∀ q,
              r.identical q = true → r = q :=
            fun r hr => hParts r (List.mem_cons_of_mem _ hr)
          rw [hParts p (List.mem_cons_self ..) q hSame.1,
            ih hTail hSame.2]

/- Identical trees are the same tree. -/
theorem eq_of_identical
    {e e' : Expr}
    (hSame : e.identical e' = true) :
    e = e' := by
  induction e generalizing e' with
  | const m c =>
      cases e' with
      | const n d =>
          simp only [identical, Bool.and_eq_true,
            beq_iff_eq] at hSame
          rw [hSame.1, hSame.2]
      | _ => cases hSame
  | var m v =>
      cases e' with
      | var n w =>
          simp only [identical, Bool.and_eq_true,
            beq_iff_eq] at hSame
          rw [hSame.1, hSame.2]
      | _ => cases hSame
  | not m x ih =>
      cases e' with
      | not n y =>
          simp only [identical, Bool.and_eq_true,
            beq_iff_eq] at hSame
          rw [hSame.1, ih hSame.2]
      | _ => cases hSame
  | gate m op a b iha ihb =>
      cases e' with
      | gate n op' a' b' =>
          simp only [identical, Bool.and_eq_true,
            beq_iff_eq] at hSame
          rcases hSame with ⟨⟨⟨hMark, hOp⟩, ha⟩, hb⟩
          rw [hMark, hOp, iha ha, ihb hb]
      | _ => cases hSame
  | compare m op a b iha ihb =>
      cases e' with
      | compare n op' a' b' =>
          simp only [identical, Bool.and_eq_true,
            beq_iff_eq] at hSame
          rcases hSame with ⟨⟨⟨hMark, hOp⟩, ha⟩, hb⟩
          rw [hMark, hOp, iha ha, ihb hb]
      | _ => cases hSame
  | mux m s t f ihs iht ihf =>
      cases e' with
      | mux n s' t' f' =>
          simp only [identical, Bool.and_eq_true,
            beq_iff_eq] at hSame
          rcases hSame with ⟨⟨⟨hMark, hs⟩, ht⟩, hf⟩
          rw [hMark, ihs hs, iht ht, ihf hf]
      | _ => cases hSame
  | bit m b i ih =>
      cases e' with
      | bit n b' i' =>
          simp only [identical, Bool.and_eq_true,
            beq_iff_eq] at hSame
          rcases hSame with ⟨⟨hMark, hIndex⟩, hBase⟩
          rw [hMark, hIndex, ih hBase]
      | _ => cases hSame
  | part m b h l ih =>
      cases e' with
      | part n b' h' l' =>
          simp only [identical, Bool.and_eq_true,
            beq_iff_eq] at hSame
          rcases hSame with ⟨⟨⟨hMark, hHigh⟩, hLow⟩, hBase⟩
          rw [hMark, hHigh, hLow, ih hBase]
      | _ => cases hSame
  | concat m parts ih =>
      cases e' with
      | concat n parts' =>
          simp only [identical, Bool.and_eq_true,
            beq_iff_eq] at hSame
          rw [hSame.1, eq_of_identicalAll
            (fun p hp q => ih p hp) hSame.2]
      | _ => cases hSame

end Expr

end Gatework

------------------------------------------------------------
-- Substitution
------------------------------------------------------------

namespace Gatework

namespace Expr

variable {Γ Δ : Var → Prop}
variable {σ : String → Option Expr}

/-
  What stands for a signal after a substitution is typed and
  has the width at which the signal is read.
-/
def Replaces
    (σ : String → Option Expr)
    (Δ : Var → Prop)
    (v : Var) :
    Prop :=
  match σ v.name with
  | some d => d.Typed Δ ∧ d.width = v.width
  | none => Δ v

/- The values that signals stand for after a substitution. -/
def replacedValue
    (σ : String → Option Expr)
    (τ : String → Nat)
    (name : String) :
    Nat :=
  match σ name with
  | some d => d.value τ
  | none => τ name

theorem substAll_eq_map
    (parts : List Expr) :
    substAll σ parts = parts.map (subst σ) := by
  induction parts with
  | nil => rfl
  | cons p ps ih => rw [substAll, ih, List.map_cons]

theorem totalWidth_substAll
    {parts : List Expr}
    (hParts : ∀ p ∈ parts, (p.subst σ).width = p.width) :
    totalWidth (substAll σ parts) = totalWidth parts := by
  induction parts with
  | nil => rfl
  | cons p ps ih =>
      rw [substAll, totalWidth, totalWidth,
        hParts p (List.mem_cons_self ..),
        ih (fun q hq => hParts q (List.mem_cons_of_mem _ hq))]

/- Substitution keeps widths. -/
theorem width_subst
    {e : Expr}
    (hσ : ∀ v ∈ e.occurrences, Replaces σ Δ v) :
    (e.subst σ).width = e.width := by
  induction e with
  | const m c => rfl
  | var m v =>
      have hv : Replaces σ Δ v := hσ v (by simp [occurrences])
      unfold Replaces at hv
      rw [subst]
      cases hFound : σ v.name with
      | none => rfl
      | some d =>
          rw [hFound] at hv
          exact hv.2
  | not m x ih => exact ih hσ
  | gate m op a b iha ihb =>
      simp only [occurrences, List.mem_append] at hσ
      exact iha (fun v hv => hσ v (Or.inl hv))
  | compare m op a b iha ihb => rfl
  | mux m s t f ihs iht ihf =>
      simp only [occurrences, List.mem_append] at hσ
      exact iht (fun v hv => hσ v (Or.inr (Or.inl hv)))
  | bit m b i ih => rfl
  | part m b h l ih => rfl
  | concat m parts ih =>
      rw [subst, width, width]
      apply totalWidth_substAll
      intro p hp
      apply ih p hp
      intro v hv
      exact hσ v (mem_occurrencesAll.mpr ⟨p, hp, hv⟩)

/- Substitution of fitting trees keeps typing. -/
theorem Typed.subst
    {e : Expr}
    (he : e.Typed Γ)
    (hσ : ∀ v ∈ e.occurrences, Replaces σ Δ v) :
    (e.subst σ).Typed Δ := by
  induction e with
  | const m c => exact he
  | var m v =>
      have hv : Replaces σ Δ v := hσ v (by simp [occurrences])
      unfold Replaces at hv
      rw [Expr.subst]
      cases hFound : σ v.name with
      | none =>
          rw [hFound] at hv
          exact ⟨he.1, he.2.1, hv⟩
      | some d =>
          rw [hFound] at hv
          exact hv.1
  | not m x ih =>
      exact ⟨ih he.1 hσ, (width_subst hσ).trans he.2⟩
  | gate m op a b iha ihb =>
      simp only [occurrences, List.mem_append] at hσ
      have hLeft := fun v hv => hσ v (Or.inl hv)
      have hRight := fun v hv => hσ v (Or.inr hv)
      refine ⟨iha he.1 hLeft, ihb he.2.1 hRight, ?_⟩
      rw [width_subst hLeft, width_subst hRight]
      exact he.2.2
  | compare m op a b iha ihb =>
      simp only [occurrences, List.mem_append] at hσ
      have hLeft := fun v hv => hσ v (Or.inl hv)
      have hRight := fun v hv => hσ v (Or.inr hv)
      refine ⟨iha he.1 hLeft, ihb he.2.1 hRight, ?_⟩
      rw [width_subst hLeft, width_subst hRight]
      exact he.2.2
  | mux m s t f ihs iht ihf =>
      simp only [occurrences, List.mem_append] at hσ
      rcases he with ⟨hs, ht, hf, hSel, hWidths⟩
      have hs' := fun v hv => hσ v (Or.inl hv)
      have ht' := fun v hv => hσ v (Or.inr (Or.inl hv))
      have hf' := fun v hv => hσ v (Or.inr (Or.inr hv))
      refine ⟨ihs hs hs', iht ht ht', ihf hf hf', ?_, ?_⟩
      · rw [width_subst hs']
        exact hSel
      · rw [width_subst ht', width_subst hf']
        exact hWidths
  | bit m b i ih =>
      refine ⟨ih he.1 hσ, ?_⟩
      rw [width_subst (e := b) hσ]
      exact he.2
  | part m b h l ih =>
      refine ⟨ih he.1 hσ, ?_⟩
      rw [width_subst (e := b) hσ]
      exact he.2
  | concat m parts ih =>
      rcases he with ⟨hParts, hNonempty, hTotal⟩
      have hσPart : ∀ p ∈ parts, ∀ v ∈ p.occurrences,
          Replaces σ Δ v := by
        intro p hp v hv
        exact hσ v (mem_occurrencesAll.mpr ⟨p, hp, hv⟩)
      rw [Expr.subst]
      refine ⟨typedAll_iff.mpr ?_, ?_, ?_⟩
      · rw [substAll_eq_map]
        intro q hq
        rcases List.mem_map.mp hq with ⟨p, hp, rfl⟩
        exact ih p hp (typedAll_iff.mp hParts p hp) (hσPart p hp)
      · rw [substAll_eq_map]
        intro hEmpty
        exact hNonempty (List.map_eq_nil_iff.mp hEmpty)
      · rw [totalWidth_substAll
          (fun p hp => width_subst (hσPart p hp))]
        exact hTotal

theorem valueParts_substAll
    {parts : List Expr}
    {τ τ' : String → Nat}
    (hWidths : ∀ p ∈ parts, (p.subst σ).width = p.width)
    (hParts : ∀ p ∈ parts, (p.subst σ).value τ = p.value τ')
    (high : Nat) :
    valueParts τ high (substAll σ parts) =
      valueParts τ' high parts := by
  induction parts generalizing high with
  | nil => rfl
  | cons p ps ih =>
      rw [substAll, valueParts, valueParts,
        hWidths p (List.mem_cons_self ..),
        hParts p (List.mem_cons_self ..)]
      exact ih
        (fun q hq => hWidths q (List.mem_cons_of_mem _ hq))
        (fun q hq => hParts q (List.mem_cons_of_mem _ hq)) _

/-
  The value after a substitution is the value before it where
  replaced signals have the values of what replaces them.
-/
theorem value_subst
    {e : Expr}
    (hσ : ∀ v ∈ e.occurrences, Replaces σ Δ v)
    (τ : String → Nat) :
    (e.subst σ).value τ = e.value (replacedValue σ τ) := by
  induction e with
  | const m c => rfl
  | var m v =>
      have hv : Replaces σ Δ v := hσ v (by simp [occurrences])
      unfold Replaces at hv
      rw [subst, value, replacedValue]
      cases hFound : σ v.name with
      | none => rfl
      | some d =>
          rw [hFound] at hv
          rw [← hv.2]
          exact (hv.1.value_and_mask τ).symm
  | not m x ih =>
      rw [subst, value, value, ih hσ, width_subst (e := x) hσ]
  | gate m op a b iha ihb =>
      simp only [occurrences, List.mem_append] at hσ
      have hLeft := fun v hv => hσ v (Or.inl hv)
      have hRight := fun v hv => hσ v (Or.inr hv)
      rw [subst, value, value, iha hLeft, ihb hRight,
        width_subst hLeft]
  | compare m op a b iha ihb =>
      simp only [occurrences, List.mem_append] at hσ
      have hLeft := fun v hv => hσ v (Or.inl hv)
      have hRight := fun v hv => hσ v (Or.inr hv)
      rw [subst, value, value, iha hLeft, ihb hRight,
        width_subst hLeft]
  | mux m s t f ihs iht ihf =>
      simp only [occurrences, List.mem_append] at hσ
      have hs := fun v hv => hσ v (Or.inl hv)
      have ht := fun v hv => hσ v (Or.inr (Or.inl hv))
      have hf := fun v hv => hσ v (Or.inr (Or.inr hv))
      rw [subst, value, value, ihs hs, iht ht, ihf hf,
        width_subst ht]
  | bit m b i ih => rw [subst, value, value, ih hσ]
  | part m b h l ih =>
      rw [subst, value, value, ih hσ]
      rfl
  | concat m parts ih =>
      have hσPart : ∀ p ∈ parts, ∀ v ∈ p.occurrences,
          Replaces σ Δ v := by
        intro p hp v hv
        exact hσ v (mem_occurrencesAll.mpr ⟨p, hp, hv⟩)
      have hWidths : ∀ p ∈ parts, (p.subst σ).width = p.width :=
        fun p hp => width_subst (hσPart p hp)
      rw [subst, value, value, totalWidth_substAll hWidths,
        valueParts_substAll hWidths
          (fun p hp => ih p hp (hσPart p hp))]

theorem evalParts_substAll
    {parts : List Expr}
    {ρ : Valuation}
    (hWidths : ∀ p ∈ parts, (p.subst σ).width = p.width)
    (hParts : ∀ p ∈ parts, (p.subst σ).eval ρ = p.eval ρ)
    (high : Nat) :
    evalParts ρ high (substAll σ parts) =
      evalParts ρ high parts := by
  induction parts generalizing high with
  | nil => rfl
  | cons p ps ih =>
      have hTail := ih
        (fun q hq => hWidths q (List.mem_cons_of_mem _ hq))
        (fun q hq => hParts q (List.mem_cons_of_mem _ hq))
      rw [substAll, evalParts, evalParts,
        hWidths p (List.mem_cons_self ..),
        hParts p (List.mem_cons_self ..)]
      simp only [hTail]

/-
  Evaluation gives the same after a substitution, the first
  signal missed included, where what replaces a signal
  evaluates as the signal does.
-/
theorem eval_subst
    {e : Expr}
    {ρ : Valuation}
    (hσ : ∀ v ∈ e.occurrences, Replaces σ Δ v)
    (hEval : ∀ v ∈ e.occurrences, ∀ d, σ v.name = some d →
      d.eval ρ = (var none v).eval ρ) :
    (e.subst σ).eval ρ = e.eval ρ := by
  induction e with
  | const m c => rfl
  | var m v =>
      rw [subst]
      cases hFound : σ v.name with
      | none => rfl
      | some d => exact hEval v (by simp [occurrences]) d hFound
  | not m x ih =>
      rw [subst, eval, eval, ih hσ hEval, width_subst (e := x) hσ]
  | gate m op a b iha ihb =>
      simp only [occurrences, List.mem_append] at hσ hEval
      have hLeft := fun v hv => hσ v (Or.inl hv)
      rw [subst, eval, eval, width_subst hLeft,
        iha hLeft (fun v hv => hEval v (Or.inl hv)),
        ihb (fun v hv => hσ v (Or.inr hv))
          (fun v hv => hEval v (Or.inr hv))]
  | compare m op a b iha ihb =>
      simp only [occurrences, List.mem_append] at hσ hEval
      have hLeft := fun v hv => hσ v (Or.inl hv)
      rw [subst, eval, eval, width_subst hLeft,
        iha hLeft (fun v hv => hEval v (Or.inl hv)),
        ihb (fun v hv => hσ v (Or.inr hv))
          (fun v hv => hEval v (Or.inr hv))]
  | mux m s t f ihs iht ihf =>
      simp only [occurrences, List.mem_append] at hσ hEval
      have ht := fun v hv => hσ v (Or.inr (Or.inl hv))
      rw [subst, eval, eval, width_subst ht,
        ihs (fun v hv => hσ v (Or.inl hv))
          (fun v hv => hEval v (Or.inl hv)),
        iht ht (fun v hv => hEval v (Or.inr (Or.inl hv))),
        ihf (fun v hv => hσ v (Or.inr (Or.inr hv)))
          (fun v hv => hEval v (Or.inr (Or.inr hv)))]
  | bit m b i ih => rw [subst, eval, eval, ih hσ hEval]
  | part m b h l ih =>
      rw [subst, eval, eval, ih hσ hEval]
      rfl
  | concat m parts ih =>
      have hIn : ∀ {p v}, p ∈ parts → v ∈ p.occurrences →
          v ∈ (concat m parts).occurrences :=
        fun hp hv => mem_occurrencesAll.mpr ⟨_, hp, hv⟩
      have hWidths : ∀ p ∈ parts, (p.subst σ).width = p.width :=
        fun p hp => width_subst (fun v hv => hσ v (hIn hp hv))
      rw [subst, eval, eval, totalWidth_substAll hWidths,
        evalParts_substAll hWidths fun p hp => ih p hp
          (fun v hv => hσ v (hIn hp hv))
          (fun v hv => hEval v (hIn hp hv))]

/- What is read after a substitution is read in place of a signal. -/
theorem exists_of_mem_occurrences_subst
    {e : Expr}
    {v : Var}
    (hv : v ∈ (e.subst σ).occurrences) :
    ∃ w ∈ e.occurrences,
      v ∈ ((σ w.name).getD (var none w)).occurrences := by
  induction e with
  | const m c => cases hv
  | var m w =>
      refine ⟨w, List.mem_singleton.mpr rfl, ?_⟩
      rw [subst] at hv
      cases hFound : σ w.name with
      | none =>
          rw [hFound] at hv
          exact hv
      | some d =>
          rw [hFound] at hv
          exact hv
  | not m x ih => exact ih hv
  | gate m op a b iha ihb =>
      simp only [occurrences, List.mem_append]
      rcases List.mem_append.mp hv with ha | hb
      · rcases iha ha with ⟨w, hw, hIn⟩
        exact ⟨w, Or.inl hw, hIn⟩
      · rcases ihb hb with ⟨w, hw, hIn⟩
        exact ⟨w, Or.inr hw, hIn⟩
  | compare m op a b iha ihb =>
      simp only [occurrences, List.mem_append]
      rcases List.mem_append.mp hv with ha | hb
      · rcases iha ha with ⟨w, hw, hIn⟩
        exact ⟨w, Or.inl hw, hIn⟩
      · rcases ihb hb with ⟨w, hw, hIn⟩
        exact ⟨w, Or.inr hw, hIn⟩
  | mux m s t f ihs iht ihf =>
      simp only [subst, occurrences, List.mem_append] at hv ⊢
      rcases hv with hs | ht | hf
      · rcases ihs hs with ⟨w, hw, hIn⟩
        exact ⟨w, Or.inl hw, hIn⟩
      · rcases iht ht with ⟨w, hw, hIn⟩
        exact ⟨w, Or.inr (Or.inl hw), hIn⟩
      · rcases ihf hf with ⟨w, hw, hIn⟩
        exact ⟨w, Or.inr (Or.inr hw), hIn⟩
  | bit m b i ih => exact ih hv
  | part m b h l ih => exact ih hv
  | concat m parts ih =>
      rw [subst, occurrences, substAll_eq_map] at hv
      rcases mem_occurrencesAll.mp hv with ⟨q, hq, hIn⟩
      rcases List.mem_map.mp hq with ⟨p, hp, rfl⟩
      rcases ih p hp hIn with ⟨w, hw, hIn⟩
      exact ⟨w, mem_occurrencesAll.mpr ⟨p, hp, hw⟩, hIn⟩

end Expr

end Gatework
