import Gatework.Expr.Equality
import Gatework.Proofs.Expr.Bits

/-
  Equal trees have equal values.

  Trees are compared without marks and by the names of their
  signals, so they have one value only where each name has one
  width. A tree and its negation are single bits that differ.

  Key theorems include:
    * `Expr.same_sound`
    * `Expr.complementary_sound`
-/

------------------------------------------------------------
-- Equal trees
------------------------------------------------------------

namespace Gatework

namespace Expr

variable {Γ : Var → Prop}

/- Two trees of one width and one value. -/
def Equal
    (a b : Expr) :
    Prop :=
  a.width = b.width ∧ ∀ τ, a.value τ = b.value τ

/- Unordered gates may have their operands swapped. -/
theorem value_gate_swap
    {op : GateOp}
    (hOp : op.unordered = true)
    (x y width : Nat) :
    op.apply x y width = op.apply y x width := by
  cases op with
  | and => rw [GateOp.apply, GateOp.apply, Nat.and_comm x y]
  | or => rw [GateOp.apply, GateOp.apply, Nat.or_comm x y]
  | xor => rw [GateOp.apply, GateOp.apply, Nat.xor_comm x y]
  | xnor => rw [GateOp.apply, GateOp.apply, Nat.xor_comm x y]
  | nand => cases hOp
  | nor => cases hOp

/- Lists of equal trees have equal widths and values. -/
theorem sameAll_sound
    {ps qs : List Expr}
    (hParts : ∀ p ∈ ps, ∀ q ∈ qs, same p q = true → Equal p q)
    (hSame : sameAll ps qs = true) :
    totalWidth ps = totalWidth qs ∧
      ∀ τ high, valueParts τ high ps = valueParts τ high qs := by
  induction ps generalizing qs with
  | nil =>
      cases qs with
      | nil => exact ⟨rfl, fun _ _ => rfl⟩
      | cons q qs => cases hSame
  | cons p ps ih =>
      cases qs with
      | nil => cases hSame
      | cons q qs =>
          rw [sameAll, Bool.and_eq_true] at hSame
          have hHead : Equal p q :=
            hParts p (List.mem_cons_self ..) q
              (List.mem_cons_self ..) hSame.1
          have hTail := ih
            (fun p hp q hq => hParts p (List.mem_cons_of_mem _ hp)
              q (List.mem_cons_of_mem _ hq)) hSame.2
          constructor
          · rw [totalWidth, totalWidth, hHead.1, hTail.1]
          · intro τ high
            rw [valueParts, valueParts, hHead.1, hHead.2 τ]
            exact hTail.2 τ _

/- Trees that compare equal are equal as functions. -/
theorem same_sound
    (hOne : OneWidth Γ)
    {a b : Expr}
    (ha : a.Typed Γ)
    (hb : b.Typed Γ)
    (hSame : a.same b = true) :
    Equal a b := by
  -- Trees with different roots never compare equal; what is
  -- left are two roots of one kind.
  induction a generalizing b with
  | const m c =>
      cases b with
      | const n d =>
          rw [same, Const.alike, Bool.and_eq_true, beq_iff_eq,
            beq_iff_eq] at hSame
          refine ⟨hSame.2, ?_⟩
          intro τ
          rw [value, value, hSame.1, hSame.2]
      | _ => cases hSame
  | var m v =>
      cases b with
      | var n w =>
          rw [same, beq_iff_eq] at hSame
          have hWidth : v.width = w.width :=
            hOne v w ha.2.2 hb.2.2 hSame
          refine ⟨hWidth, ?_⟩
          intro τ
          rw [value, value, hSame, hWidth]
      | _ => cases hSame
  | not m x ih =>
      cases b with
      | not n y =>
          have hInner := ih ha.1 hb.1 hSame
          refine ⟨hInner.1, ?_⟩
          intro τ
          rw [value, value, hInner.1, hInner.2 τ]
      | _ => cases hSame
  | gate m op x y ihx ihy =>
      cases b with
      | gate n op' x' y' =>
          rw [same, Bool.and_eq_true, Bool.or_eq_true,
            Bool.and_eq_true, Bool.and_eq_true, Bool.and_eq_true,
            beq_iff_eq] at hSame
          rcases hSame with ⟨rfl, hOrder | ⟨hOp, hSwap⟩⟩
          · have hx := ihx ha.1 hb.1 hOrder.1
            have hy := ihy ha.2.1 hb.2.1 hOrder.2
            refine ⟨hx.1, ?_⟩
            intro τ
            rw [value, value, hx.1, hx.2 τ, hy.2 τ]
          · have hx := ihx ha.1 hb.2.1 hSwap.1
            have hy := ihy ha.2.1 hb.1 hSwap.2
            have hWidth : x.width = x'.width :=
              hx.1.trans hb.2.2.symm
            refine ⟨hWidth, ?_⟩
            intro τ
            rw [value, value, value_gate_swap hOp, hx.2 τ, hy.2 τ,
              hWidth]
      | _ => cases hSame
  | compare m op x y ihx ihy =>
      cases b with
      | compare n op' x' y' =>
          rw [same, Bool.and_eq_true, Bool.and_eq_true,
            beq_iff_eq] at hSame
          rcases hSame with ⟨⟨rfl, hLeft⟩, hRight⟩
          have hx := ihx ha.1 hb.1 hLeft
          have hy := ihy ha.2.1 hb.2.1 hRight
          refine ⟨rfl, ?_⟩
          intro τ
          rw [value, value, hx.1, hx.2 τ, hy.2 τ]
      | _ => cases hSame
  | mux m s t f ihs iht ihf =>
      cases b with
      | mux n s' t' f' =>
          rw [same, Bool.and_eq_true, Bool.and_eq_true] at hSame
          have hs := ihs ha.1 hb.1 hSame.1.1
          have ht := iht ha.2.1 hb.2.1 hSame.1.2
          have hf := ihf ha.2.2.1 hb.2.2.1 hSame.2
          refine ⟨ht.1, ?_⟩
          intro τ
          rw [value, value, hs.2 τ, ht.1, ht.2 τ, hf.2 τ]
      | _ => cases hSame
  | bit m x i ih =>
      cases b with
      | bit n x' i' =>
          rw [same, Bool.and_eq_true, beq_iff_eq] at hSame
          rcases hSame with ⟨rfl, hBase⟩
          have hx := ih ha.1 hb.1 hBase
          refine ⟨rfl, ?_⟩
          intro τ
          rw [value, value, hx.2 τ]
      | _ => cases hSame
  | part m x h l ih =>
      cases b with
      | part n x' h' l' =>
          rw [same, Bool.and_eq_true, Bool.and_eq_true, beq_iff_eq,
            beq_iff_eq] at hSame
          rcases hSame with ⟨⟨rfl, rfl⟩, hBase⟩
          have hx := ih ha.1 hb.1 hBase
          refine ⟨rfl, ?_⟩
          intro τ
          rw [value, value, hx.2 τ]
          rfl
      | _ => cases hSame
  | concat m ps ih =>
      cases b with
      | concat n qs =>
          have hParts := sameAll_sound
            (fun p hp q hq => ih p hp
              (typedAll_iff.mp ha.1 p hp)
              (typedAll_iff.mp hb.1 q hq)) hSame
          refine ⟨hParts.1, ?_⟩
          intro τ
          rw [value, value, hParts.1, hParts.2 τ]
      | _ => cases hSame

end Expr

end Gatework

------------------------------------------------------------
-- Complementary trees
------------------------------------------------------------

namespace Gatework

namespace Expr

variable {Γ : Var → Prop}

/- Two single bits of which exactly one is 1. -/
def Opposite
    (a b : Expr) :
    Prop :=
  a.width = 1 ∧ b.width = 1 ∧
    ∀ τ, (a.value τ).testBit 0 = !(b.value τ).testBit 0

theorem Opposite.symm
    {a b : Expr}
    (h : Opposite a b) :
    Opposite b a := by
  refine ⟨h.2.1, h.1, ?_⟩
  intro τ
  rw [h.2.2 τ, Bool.not_not]

/- A negation is the opposite of what equals its operand. -/
theorem opposite_not
    (hOne : OneWidth Γ)
    {m : Mark}
    {x b : Expr}
    (hNot : (not m x).Typed Γ)
    (hb : b.Typed Γ)
    (hSame : same x b = true) :
    Opposite (not m x) b := by
  have hEqual := same_sound hOne hNot.1 hb hSame
  refine ⟨hNot.2, hEqual.1 ▸ hNot.2, ?_⟩
  intro τ
  rw [testBit_value_not hNot, hEqual.2 τ]

theorem complementary_sound
    (hOne : OneWidth Γ)
    {a b : Expr}
    (ha : a.Typed Γ)
    (hb : b.Typed Γ)
    (hComp : a.complementary b = true) :
    Opposite a b := by
  unfold complementary at hComp
  split at hComp
  case h_1 m x n y =>
      rcases (Bool.or_eq_true ..).mp hComp with h | h
      · exact opposite_not hOne ha hb h
      · exact (opposite_not hOne hb ha h).symm
  case h_2 m x b _ => exact opposite_not hOne ha hb hComp
  case h_3 a n y _ => exact (opposite_not hOne hb ha hComp).symm
  case h_4 => cases hComp

end Expr

end Gatework
