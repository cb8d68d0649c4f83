import Gatework.Proofs.Expr.Same

/-
  Comparing equal is an equivalence of trees.

  An unordered gate tries both orders of its operands. Going
  from one order to the other twice leads back, so the two
  ways of comparing compose like the elements of a group of
  two. Nothing here asks for well-typed trees.

  Key theorems include:
    * `Expr.same_refl`
    * `Expr.same_symm`
    * `Expr.same_trans`
-/

------------------------------------------------------------
-- Gates
------------------------------------------------------------

namespace Gatework

namespace Expr

/- Gates compare in the order written or in the other one. -/
theorem same_gate_iff
    {m n : Mark}
    {op op' : GateOp}
    {a b a' b' : Expr} :
    same (gate m op a b) (gate n op' a' b') = true ↔
      op = op' ∧
        (same a a' = true ∧ same b b' = true ∨
          op.unordered = true ∧
            same a b' = true ∧ same b a' = true) := by
  rw [same]
  simp only [Bool.and_eq_true, Bool.or_eq_true, beq_iff_eq]

end Expr

end Gatework

------------------------------------------------------------
-- Reflexivity
------------------------------------------------------------

namespace Gatework

namespace Expr

theorem sameAll_refl
    {ps : List Expr}
    (hParts : ∀ p ∈ ps, same p p = true) :
    sameAll ps ps = true := by
  induction ps with
  | nil => rfl
  | cons p ps ih =>
      rw [sameAll, hParts p (List.mem_cons_self ..),
        ih (fun q hq => hParts q (List.mem_cons_of_mem _ hq))]
      rfl

theorem same_refl
    (a : Expr) :
    same a a = true := by
  induction a with
  | const m c => simp [same, Const.alike]
  | var m v => simp [same]
  | not m x ih => exact ih
  | gate m op a b iha ihb =>
      exact same_gate_iff.mpr ⟨rfl, Or.inl ⟨iha, ihb⟩⟩
  | compare m op a b iha ihb => simp [same, iha, ihb]
  | mux m s t f ihs iht ihf => simp [same, ihs, iht, ihf]
  | bit m b i ih => simp [same, ih]
  | part m b h l ih => simp [same, ih]
  | concat m ps ih => exact sameAll_refl ih

end Expr

end Gatework

------------------------------------------------------------
-- Symmetry
------------------------------------------------------------

namespace Gatework

namespace Expr

theorem sameAll_symm
    {ps qs : List Expr}
    (hParts : ∀ p ∈ ps, ∀ q, same p q = true → same q p = true)
    (hSame : sameAll ps qs = true) :
    sameAll qs ps = true := by
  induction ps generalizing qs with
  | nil =>
      cases qs with
      | nil => rfl
      | cons q qs => cases hSame
  | cons p ps ih =>
      cases qs with
      | nil => cases hSame
      | cons q qs =>
          rw [sameAll, Bool.and_eq_true] at hSame ⊢
          exact ⟨hParts p (List.mem_cons_self ..) q hSame.1,
            ih (fun r hr => hParts r (List.mem_cons_of_mem _ hr))
              hSame.2⟩

theorem same_symm
    {a b : Expr}
    (hSame : same a b = true) :
    same b a = true := by
  induction a generalizing b with
  | const m c =>
      cases b with
      | const n d =>
          simp only [same, Const.alike, Bool.and_eq_true,
            beq_iff_eq] at hSame ⊢
          exact ⟨hSame.1.symm, hSame.2.symm⟩
      | _ => cases hSame
  | var m v =>
      cases b with
      | var n w =>
          simp only [same, beq_iff_eq] at hSame ⊢
          exact hSame.symm
      | _ => cases hSame
  | not m x ih =>
      cases b with
      | not n y => exact ih hSame
      | _ => cases hSame
  | gate m op x y ihx ihy =>
      cases b with
      | gate n op' x' y' =>
          rcases same_gate_iff.mp hSame with
            ⟨rfl, hOrder | ⟨hOp, hSwap⟩⟩
          · exact same_gate_iff.mpr
              ⟨rfl, Or.inl ⟨ihx hOrder.1, ihy hOrder.2⟩⟩
          · exact same_gate_iff.mpr
              ⟨rfl, Or.inr ⟨hOp, ihy hSwap.2, ihx hSwap.1⟩⟩
      | _ => cases hSame
  | compare m op x y ihx ihy =>
      cases b with
      | compare n op' x' y' =>
          simp only [same, Bool.and_eq_true, beq_iff_eq] at hSame ⊢
          exact ⟨⟨hSame.1.1.symm, ihx hSame.1.2⟩, ihy hSame.2⟩
      | _ => cases hSame
  | mux m s t f ihs iht ihf =>
      cases b with
      | mux n s' t' f' =>
          simp only [same, Bool.and_eq_true] at hSame ⊢
          exact ⟨⟨ihs hSame.1.1, iht hSame.1.2⟩, ihf hSame.2⟩
      | _ => cases hSame
  | bit m x i ih =>
      cases b with
      | bit n x' i' =>
          simp only [same, Bool.and_eq_true, beq_iff_eq] at hSame ⊢
          exact ⟨hSame.1.symm, ih hSame.2⟩
      | _ => cases hSame
  | part m x h l ih =>
      cases b with
      | part n x' h' l' =>
          simp only [same, Bool.and_eq_true, beq_iff_eq] at hSame ⊢
          exact ⟨⟨hSame.1.1.symm, hSame.1.2.symm⟩, ih hSame.2⟩
      | _ => cases hSame
  | concat m ps ih =>
      cases b with
      | concat n qs =>
          exact sameAll_symm (fun p hp q h => ih p hp h) hSame
      | _ => cases hSame

end Expr

end Gatework

------------------------------------------------------------
-- Transitivity
------------------------------------------------------------

namespace Gatework

namespace Expr

theorem sameAll_trans
    {ps qs rs : List Expr}
    (hParts : ∀ p ∈ ps, ∀ q r, same p q = true →
      same q r = true → same p r = true)
    (hLeft : sameAll ps qs = true)
    (hRight : sameAll qs rs = true) :
    sameAll ps rs = true := by
  induction ps generalizing qs rs with
  | nil =>
      cases qs with
      | nil => exact hRight
      | cons q qs => cases hLeft
  | cons p ps ih =>
      cases qs with
      | nil => cases hLeft
      | cons q qs =>
          cases rs with
          | nil => cases hRight
          | cons r rs =>
              rw [sameAll, Bool.and_eq_true] at hLeft hRight ⊢
              exact ⟨hParts p (List.mem_cons_self ..) q r hLeft.1
                  hRight.1,
                ih (fun s hs => hParts s
                  (List.mem_cons_of_mem _ hs)) hLeft.2 hRight.2⟩

theorem same_trans
    {a b c : Expr}
    (hLeft : same a b = true)
    (hRight : same b c = true) :
    same a c = true := by
  induction a generalizing b c with
  | const m x =>
      cases b with
      | const n y =>
          cases c with
          | const k z =>
              simp only [same, Const.alike, Bool.and_eq_true,
                beq_iff_eq] at hLeft hRight ⊢
              exact ⟨hLeft.1.trans hRight.1,
                hLeft.2.trans hRight.2⟩
          | _ => cases hRight
      | _ => cases hLeft
  | var m u =>
      cases b with
      | var n v =>
          cases c with
          | var k w =>
              simp only [same, beq_iff_eq] at hLeft hRight ⊢
              exact hLeft.trans hRight
          | _ => cases hRight
      | _ => cases hLeft
  | not m x ih =>
      cases b with
      | not n y =>
          cases c with
          | not k z => exact ih hLeft hRight
          | _ => cases hRight
      | _ => cases hLeft
  | gate m op x y ihx ihy =>
      cases b with
      | gate n op' x' y' =>
          cases c with
          | gate k op'' x'' y'' =>
              -- Two swaps give the order written; one swap,
              -- before or after, gives the other order.
              rcases same_gate_iff.mp hLeft with
                ⟨rfl, h₁ | ⟨hOp, h₁⟩⟩ <;>
              rcases same_gate_iff.mp hRight with
                ⟨rfl, h₂ | ⟨hOp', h₂⟩⟩ <;>
              refine same_gate_iff.mpr ⟨rfl, ?_⟩
              · exact Or.inl ⟨ihx h₁.1 h₂.1, ihy h₁.2 h₂.2⟩
              · exact Or.inr
                  ⟨hOp', ihx h₁.1 h₂.1, ihy h₁.2 h₂.2⟩
              · exact Or.inr ⟨hOp, ihx h₁.1 h₂.2, ihy h₁.2 h₂.1⟩
              · exact Or.inl ⟨ihx h₁.1 h₂.2, ihy h₁.2 h₂.1⟩
          | _ => cases hRight
      | _ => cases hLeft
  | compare m op x y ihx ihy =>
      cases b with
      | compare n op' x' y' =>
          cases c with
          | compare k op'' x'' y'' =>
              simp only [same, Bool.and_eq_true, beq_iff_eq]
                at hLeft hRight ⊢
              exact ⟨⟨hLeft.1.1.trans hRight.1.1,
                ihx hLeft.1.2 hRight.1.2⟩, ihy hLeft.2 hRight.2⟩
          | _ => cases hRight
      | _ => cases hLeft
  | mux m s t f ihs iht ihf =>
      cases b with
      | mux n s' t' f' =>
          cases c with
          | mux k s'' t'' f'' =>
              simp only [same, Bool.and_eq_true]
                at hLeft hRight ⊢
              exact ⟨⟨ihs hLeft.1.1 hRight.1.1,
                iht hLeft.1.2 hRight.1.2⟩, ihf hLeft.2 hRight.2⟩
          | _ => cases hRight
      | _ => cases hLeft
  | bit m x i ih =>
      cases b with
      | bit n x' i' =>
          cases c with
          | bit k x'' i'' =>
              simp only [same, Bool.and_eq_true, beq_iff_eq]
                at hLeft hRight ⊢
              exact ⟨hLeft.1.trans hRight.1,
                ih hLeft.2 hRight.2⟩
          | _ => cases hRight
      | _ => cases hLeft
  | part m x h l ih =>
      cases b with
      | part n x' h' l' =>
          cases c with
          | part k x'' h'' l'' =>
              simp only [same, Bool.and_eq_true, beq_iff_eq]
                at hLeft hRight ⊢
              exact ⟨⟨hLeft.1.1.trans hRight.1.1,
                hLeft.1.2.trans hRight.1.2⟩,
                ih hLeft.2 hRight.2⟩
          | _ => cases hRight
      | _ => cases hLeft
  | concat m ps ih =>
      cases b with
      | concat n qs =>
          cases c with
          | concat k rs =>
              exact sameAll_trans (fun p hp q r h₁ h₂ => ih p hp h₁ h₂)
                hLeft hRight
          | _ => cases hRight
      | _ => cases hLeft

end Expr

end Gatework
