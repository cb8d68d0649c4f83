import Gatework.Flatten
import Gatework.Proofs.Expr.Bits
import Gatework.Proofs.Expr.Substitution

/-
  Merging guarded values by priority.

  Vectors are merged by multiplexers and single bits by a sum
  of products; both give the value behind the first guard
  that holds.

  Key definitions include:
    * `firstValue`, the value that priority chooses
    * `GuardedBy`, what a guarded value needs to be merged

  Key theorems include:
    * `priority_value`
-/

------------------------------------------------------------
-- Products of lists
------------------------------------------------------------

namespace Gatework

namespace Expr

variable {Γ : Var → Prop}

/- A typed single bit. -/
def Scalar
    (Γ : Var → Prop)
    (e : Expr) :
    Prop :=
  e.Typed Γ ∧ e.width = 1

/- The lowest bit of the value. -/
def holds
    (τ : String → Nat)
    (e : Expr) :
    Bool :=
  (e.value τ).testBit 0

theorem Scalar.isBit
    {e : Expr}
    (he : Scalar Γ e) :
    IsBit Γ e (fun τ => e.holds τ) :=
  isBit_self he.1 he.2

theorem isBit_conjAll_some
    {es : List Expr}
    (hAll : ∀ e ∈ es, Scalar Γ e)
    {g : Expr}
    (hg : conjAll? es = some g) :
    IsBit Γ g (fun τ => es.all fun e => e.holds τ) := by
  have hBits :
      IsBit Γ ((conjAll? (es.map fun e => e)).getD (ofBool true))
        (fun τ => es.all fun e => e.holds τ) :=
    isBit_conjAll (fun e he => (hAll e he).isBit)
  rw [List.map_id', hg] at hBits
  exact hBits

theorem isBit_disjAll_some
    {es : List Expr}
    (hAll : ∀ e ∈ es, Scalar Γ e) :
    IsBit Γ ((disjAll? es).getD (ofNat 0 1))
      (fun τ => es.any fun e => e.holds τ) := by
  have hBits :
      IsBit Γ ((disjAll? (es.map fun e => e)).getD (ofNat 0 1))
        (fun τ => es.any fun e => e.holds τ) :=
    isBit_disjAll isBit_zero (fun e he => (hAll e he).isBit)
  rw [List.map_id'] at hBits
  exact hBits

theorem conjAll?_append_single
    (es : List Expr)
    (c : Expr) :
    ∃ g, conjAll? (es ++ [c]) = some g := by
  cases es with
  | nil => exact ⟨c, rfl⟩
  | cons e es => exact ⟨(es ++ [c]).foldl conj e, rfl⟩

end Expr

end Gatework

------------------------------------------------------------
-- Priority
------------------------------------------------------------

namespace Gatework

variable {Γ : Var → Prop}

/- The value behind the first guard that holds. -/
def firstValue
    (τ : String → Nat)
    (otherwise : Expr) :
    List (Expr × Expr × Expr) → Expr
  | [] => otherwise
  | (c, _, v) :: rest =>
      if c.holds τ then v else firstValue τ otherwise rest

/-
  A guard of one bit with its negation, and a typed value of
  a width.
-/
structure GuardedBy
    (Γ : Var → Prop)
    (width : Nat)
    (arm : Expr × Expr × Expr) :
    Prop where
  guard : Expr.Scalar Γ arm.1
  negated : arm.2.1.unmarked = arm.1.neg.unmarked
  value : arm.2.2.Typed Γ
  width_eq : arm.2.2.width = width

namespace GuardedBy

variable {width : Nat}
variable {arm : Expr × Expr × Expr}

theorem scalar_negated
    (h : GuardedBy Γ width arm) :
    Expr.Scalar Γ arm.2.1 := by
  have hNeg := h.guard.isBit.neg
  constructor
  · exact (Expr.typed_iff_of_unmarked h.negated).mpr hNeg.typed
  · rw [Expr.width_eq_of_unmarked h.negated]
    exact hNeg.width_eq

theorem holds_negated
    (h : GuardedBy Γ width arm)
    (τ : String → Nat) :
    arm.2.1.holds τ = !arm.1.holds τ := by
  unfold Expr.holds
  rw [Expr.value_eq_of_unmarked h.negated]
  exact h.guard.isBit.neg.bit_eq τ

end GuardedBy

theorem firstValue_typed
    {otherwise : Expr}
    (hOther : otherwise.Typed Γ)
    {arms : List (Expr × Expr × Expr)}
    (hArms : ∀ arm ∈ arms, GuardedBy Γ otherwise.width arm)
    (τ : String → Nat) :
    (firstValue τ otherwise arms).Typed Γ ∧
      (firstValue τ otherwise arms).width = otherwise.width := by
  induction arms with
  | nil => exact ⟨hOther, rfl⟩
  | cons arm arms ih =>
      have hHead := hArms arm (List.mem_cons_self ..)
      have hTail := ih
        (fun a ha => hArms a (List.mem_cons_of_mem _ ha))
      rcases arm with ⟨c, n, v⟩
      rw [firstValue]
      split
      · exact ⟨hHead.value, hHead.width_eq⟩
      · exact hTail

/- Vectors are chosen by multiplexers. -/
theorem chosen_value
    {otherwise : Expr}
    (hOther : otherwise.Typed Γ)
    {arms : List (Expr × Expr × Expr)}
    (hArms : ∀ arm ∈ arms, GuardedBy Γ otherwise.width arm) :
    let chosen := arms.foldr
      (fun (c, _, v) rest => Expr.choose c v rest) otherwise
    chosen.Typed Γ ∧ chosen.width = otherwise.width ∧
      ∀ τ, chosen.value τ =
        (firstValue τ otherwise arms).value τ := by
  induction arms with
  | nil => exact ⟨hOther, rfl, fun _ => rfl⟩
  | cons arm arms ih =>
      have hHead := hArms arm (List.mem_cons_self ..)
      rcases ih
          (fun a ha => hArms a (List.mem_cons_of_mem _ ha)) with
        ⟨hTyped, hWidth, hValue⟩
      rcases arm with ⟨c, n, v⟩
      have hHeadWidth : v.width = otherwise.width :=
        hHead.width_eq
      have hMux := (⟨hHead.guard.1, hHead.value, hTyped,
        hHead.guard.2, hHeadWidth.trans hWidth.symm⟩ :
          (Expr.choose c v _).Typed Γ)
      refine ⟨hMux, hHeadWidth, ?_⟩
      intro τ
      calc (Expr.choose c v _).value τ
          = if c.holds τ then v.value τ else _ :=
            Expr.value_mux hMux τ
        _ = _ := by
            rw [hValue τ, firstValue]
            split <;> rfl

/-
  The products of the arms: at most one of them is 1, and
  that one has the value behind the first guard that holds,
  provided that all excluded guards are.
-/
theorem products_holds
    {otherwise : Expr}
    (hOther : Expr.Scalar Γ otherwise)
    {arms : List (Expr × Expr × Expr)}
    (hArms : ∀ arm ∈ arms, GuardedBy Γ 1 arm)
    {excluded : List Expr}
    (hExcluded : ∀ e ∈ excluded, Expr.Scalar Γ e) :
    (∀ t ∈ products otherwise excluded arms,
        Expr.Scalar Γ t) ∧
      ∀ τ,
        ((products otherwise excluded arms).any
            fun t => t.holds τ) =
          ((excluded.all fun e => e.holds τ) &&
            (firstValue τ otherwise arms).holds τ) := by
  induction arms generalizing excluded with
  | nil =>
      rw [products]
      cases hAll : Expr.conjAll? excluded with
      | none =>
          have hNone : excluded = [] := by
            cases excluded with
            | nil => rfl
            | cons e es => cases hAll
          subst hNone
          simp [firstValue, hOther]
      | some g =>
          have hBit := (Expr.isBit_conjAll_some hExcluded hAll).conj
            hOther.isBit
          constructor
          · intro t ht
            rw [List.mem_singleton.mp ht]
            exact ⟨hBit.typed, hBit.width_eq⟩
          · intro τ
            simp only [List.any_cons, List.any_nil,
              Bool.or_false, firstValue]
            exact hBit.bit_eq τ
  | cons arm arms ih =>
      have hHead := hArms arm (List.mem_cons_self ..)
      have hTail : ∀ a ∈ arms, GuardedBy Γ 1 a :=
        fun a ha => hArms a (List.mem_cons_of_mem _ ha)
      have hScalar := hHead.scalar_negated
      have hNegated := hHead.holds_negated
      rcases arm with ⟨c, n, v⟩
      have hNext : ∀ e ∈ excluded ++ [n], Expr.Scalar Γ e := by
        intro e he
        rcases List.mem_append.mp he with h | h
        · exact hExcluded e h
        · rw [List.mem_singleton.mp h]
          exact hScalar
      have hHere : ∀ e ∈ excluded ++ [c], Expr.Scalar Γ e := by
        intro e he
        rcases List.mem_append.mp he with h | h
        · exact hExcluded e h
        · rw [List.mem_singleton.mp h]
          exact hHead.guard
      have hValue : Expr.Scalar Γ v :=
        ⟨hHead.value, hHead.width_eq⟩
      rcases ih hTail hNext with ⟨hScalars, hAny⟩
      rcases Expr.conjAll?_append_single excluded c with ⟨g, hg⟩
      have hBit :=
        (Expr.isBit_conjAll_some hHere hg).conj hValue.isBit
      rw [products]
      simp only [hg, Option.getD_some]
      constructor
      · intro t ht
        rcases List.mem_cons.mp ht with rfl | h
        · exact ⟨hBit.typed, hBit.width_eq⟩
        · exact hScalars t h
      · intro τ
        have hFirst : (g.conj v).holds τ = _ := hBit.bit_eq τ
        have hOpposite : n.holds τ = !c.holds τ := hNegated τ
        rw [List.any_cons, hAny, hFirst, firstValue]
        simp only [List.all_append, List.all_cons, List.all_nil,
          Bool.and_true, hOpposite]
        cases hAllHold : excluded.all fun e => e.holds τ <;>
          cases hc : c.holds τ <;> simp

/-
  Merging gives the value behind the first guard that holds,
  at the common width.
-/
theorem priority_value
    {otherwise : Expr}
    (hOther : otherwise.Typed Γ)
    {arms : List (Expr × Expr × Expr)}
    (hArms : ∀ arm ∈ arms, GuardedBy Γ otherwise.width arm) :
    (priority arms otherwise).Typed Γ ∧
      (priority arms otherwise).width = otherwise.width ∧
      ∀ τ, (priority arms otherwise).value τ =
        (firstValue τ otherwise arms).value τ := by
  unfold priority
  by_cases hWide : 1 < otherwise.width
  · rw [if_pos hWide]
    exact chosen_value hOther hArms
  · have hOne : otherwise.width = 1 :=
      Nat.le_antisymm (Nat.le_of_not_lt hWide) hOther.width_pos
    rw [if_neg hWide]
    have hNone : ∀ e ∈ ([] : List Expr), Expr.Scalar Γ e :=
      fun e he => by cases he
    rcases products_holds ⟨hOther, hOne⟩ (hOne ▸ hArms) hNone
      with ⟨hScalars, hAny⟩
    have hSum := Expr.isBit_disjAll_some hScalars
    refine ⟨hSum.typed, hSum.width_eq.trans hOne.symm, ?_⟩
    intro τ
    rcases firstValue_typed hOther hArms τ with
      ⟨hTyped, hWidth⟩
    rw [hSum.value_eq τ, hAny τ]
    exact (hTyped.value_eq_of_bit (hWidth.trans hOne) rfl).symm

end Gatework
