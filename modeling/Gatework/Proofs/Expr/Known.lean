import Gatework.Proofs.Expr.Simplify

/-
  Evaluation where some signals have no value.

  A multiplexer reads only the side it selects, so a tree can
  have a value although signals are missing. `Expr.Known`
  says when it has one. Simplification never asks for more:
  a rule drops operands or keeps those that were read.

  Key definitions include:
    * `Expr.Known`, every signal that is read has a value
    * `Expr.Refines`, one function that asks for no more
    * `Expr.FromOperands`, the results of the rules of gates

  Key theorems include:
    * `Expr.eval_eq_ok_iff`
    * `Expr.known_of_same`
    * `Expr.refines_simplify`
-/

------------------------------------------------------------
-- Known values
------------------------------------------------------------

namespace Gatework

namespace Valuation

/- The values of signals, with 0 for those that have none. -/
def filled
    (ρ : Valuation) :
    String → Nat :=
  fun n => (ρ n).getD 0

end Valuation

namespace Expr

mutual

/-
  Every signal read on the way to the value of a tree has a
  value itself.
-/
def Known
    (ρ : Valuation) :
    Expr → Prop
  | const _ _ => True
  | var _ v => (ρ v.name).isSome
  | not _ x => Known ρ x
  | gate _ _ a b => Known ρ a ∧ Known ρ b
  | compare _ _ a b => Known ρ a ∧ Known ρ b
  | mux _ s t f =>
      Known ρ s ∧
        if (s.value ρ.filled).testBit 0 then Known ρ t
        else Known ρ f
  | bit _ b _ => Known ρ b
  | part _ b _ _ => Known ρ b
  | concat _ parts => KnownAll ρ parts

def KnownAll
    (ρ : Valuation) :
    List Expr → Prop
  | [] => True
  | p :: ps => Known ρ p ∧ KnownAll ρ ps

end

theorem knownAll_iff
    {ρ : Valuation}
    {parts : List Expr} :
    KnownAll ρ parts ↔ ∀ p ∈ parts, p.Known ρ := by
  induction parts with
  | nil => simp [KnownAll]
  | cons p ps ih => simp [KnownAll, ih]

/- A function of the result of an evaluation. -/
theorem map_eq_ok_iff
    {ε α β : Type}
    {first : Except ε α}
    {g : α → β}
    {b : β} :
    g <$> first = .ok b ↔ ∃ a, first = .ok a ∧ g a = b := by
  cases first <;> simp [Functor.map, Except.map]

theorem evalParts_eq_ok_iff
    {ρ : Valuation}
    {parts : List Expr}
    (hParts : ∀ p ∈ parts, ∀ x,
      p.eval ρ = .ok x ↔ p.Known ρ ∧ p.value ρ.filled = x)
    {high x : Nat} :
    evalParts ρ high parts = .ok x ↔
      KnownAll ρ parts ∧ valueParts ρ.filled high parts = x := by
  induction parts generalizing high with
  | nil => simp [evalParts, KnownAll, valueParts]
  | cons p ps ih =>
      have hHead := hParts p (List.mem_cons_self ..)
      have hTail := @ih
        (fun q hq => hParts q (List.mem_cons_of_mem _ hq))
      rw [evalParts, bind_eq_ok_iff, KnownAll, valueParts]
      simp only [hHead, hTail]
      constructor
      · rintro ⟨_, ⟨hp, rfl⟩, hps, hx⟩
        exact ⟨⟨hp, hps⟩, hx⟩
      · rintro ⟨⟨hp, hps⟩, hx⟩
        exact ⟨_, ⟨hp, rfl⟩, hps, hx⟩

/- Evaluation succeeds exactly on known values. -/
theorem eval_eq_ok_iff
    {ρ : Valuation}
    {e : Expr}
    {x : Nat} :
    e.eval ρ = .ok x ↔ e.Known ρ ∧ e.value ρ.filled = x := by
  induction e generalizing x with
  | const m c => simp [eval, Known, value]
  | var m v =>
      cases hv : ρ v.name with
      | none => simp [eval, Known, hv]
      | some y =>
          simp [eval, Known, value, Valuation.filled, hv]
  | not m y ih =>
      simp [eval, map_eq_ok_iff, ih, Known, value, and_assoc]
  | gate m op a b iha ihb =>
      rw [eval, bind_eq_ok_iff]
      simp [map_eq_ok_iff, iha, ihb, Known, value, and_assoc]
  | compare m op a b iha ihb =>
      rw [eval, bind_eq_ok_iff]
      simp [map_eq_ok_iff, iha, ihb, Known, value, and_assoc]
  | mux m s t f ihs iht ihf =>
      rw [eval, bind_eq_ok_iff]
      simp only [ihs, Known, value, and_assoc, exists_and_left,
        exists_eq_left']
      apply and_congr_right
      intro _
      cases (s.value ρ.filled).testBit 0
      · simp [map_eq_ok_iff, ihf, and_assoc]
      · simp [map_eq_ok_iff, iht, and_assoc]
  | bit m b i ih =>
      simp [eval, map_eq_ok_iff, ih, Known, value, and_assoc]
  | part m b h l ih =>
      simp [eval, map_eq_ok_iff, ih, Known, value, and_assoc]
  | concat m parts ih =>
      simp [eval, map_eq_ok_iff, Known, value, and_assoc,
        evalParts_eq_ok_iff (fun p hp x => ih p hp)]

end Expr

end Gatework

------------------------------------------------------------
-- Equal trees
------------------------------------------------------------

namespace Gatework

namespace Expr

variable {Γ : Var → Prop}
variable {ρ : Valuation}

theorem knownAll_of_same
    {ps qs : List Expr}
    (hParts : ∀ p ∈ ps, ∀ q ∈ qs, same p q = true →
      (p.Known ρ ↔ q.Known ρ))
    (hSame : sameAll ps qs = true) :
    KnownAll ρ ps ↔ KnownAll ρ qs := by
  induction ps generalizing qs with
  | nil =>
      cases qs with
      | nil => exact Iff.rfl
      | cons q qs => cases hSame
  | cons p ps ih =>
      cases qs with
      | nil => cases hSame
      | cons q qs =>
          rw [sameAll, Bool.and_eq_true] at hSame
          have hHead := hParts p (List.mem_cons_self ..) q
            (List.mem_cons_self ..) hSame.1
          have hTail := ih
            (fun p hp q hq => hParts p (List.mem_cons_of_mem _ hp)
              q (List.mem_cons_of_mem _ hq)) hSame.2
          exact and_congr hHead hTail

/-
  Equal trees are known together. Equal selectors have equal
  values, so they select sides in the same places.
-/
theorem known_of_same
    (hOne : OneWidth Γ)
    {a b : Expr}
    (ha : a.Typed Γ)
    (hb : b.Typed Γ)
    (hSame : a.same b = true) :
    a.Known ρ ↔ b.Known ρ := by
  induction a generalizing b with
  | const m c =>
      cases b with
      | const n d => exact Iff.rfl
      | _ => cases hSame
  | var m v =>
      cases b with
      | var n w =>
          rw [same, beq_iff_eq] at hSame
          rw [Known, Known, hSame]
      | _ => cases hSame
  | not m x ih =>
      cases b with
      | not n y =>
          rw [Known, Known]
          exact ih ha.1 hb.1 hSame
      | _ => cases hSame
  | gate m op x y ihx ihy =>
      cases b with
      | gate n op' x' y' =>
          rw [same, Bool.and_eq_true, Bool.or_eq_true,
            Bool.and_eq_true, Bool.and_eq_true,
            Bool.and_eq_true] at hSame
          rw [Known, Known]
          rcases hSame.2 with hOrder | ⟨_, hSwap⟩
          · rw [ihx ha.1 hb.1 hOrder.1, ihy ha.2.1 hb.2.1 hOrder.2]
          · rw [ihx ha.1 hb.2.1 hSwap.1, ihy ha.2.1 hb.1 hSwap.2,
              and_comm]
      | _ => cases hSame
  | compare m op x y ihx ihy =>
      cases b with
      | compare n op' x' y' =>
          rw [same, Bool.and_eq_true, Bool.and_eq_true] at hSame
          rw [Known, Known, ihx ha.1 hb.1 hSame.1.2,
            ihy ha.2.1 hb.2.1 hSame.2]
      | _ => cases hSame
  | mux m s t f ihs iht ihf =>
      cases b with
      | mux n s' t' f' =>
          rw [same, Bool.and_eq_true, Bool.and_eq_true] at hSame
          have hSelector := same_sound hOne ha.1 hb.1 hSame.1.1
          rw [Known, Known, ihs ha.1 hb.1 hSame.1.1,
            hSelector.2, iht ha.2.1 hb.2.1 hSame.1.2,
            ihf ha.2.2.1 hb.2.2.1 hSame.2]
      | _ => cases hSame
  | bit m x i ih =>
      cases b with
      | bit n x' i' =>
          rw [same, Bool.and_eq_true] at hSame
          rw [Known, Known]
          exact ih ha.1 hb.1 hSame.2
      | _ => cases hSame
  | part m x h l ih =>
      cases b with
      | part n x' h' l' =>
          rw [same, Bool.and_eq_true] at hSame
          rw [Known, Known]
          exact ih ha.1 hb.1 hSame.2
      | _ => cases hSame
  | concat m ps ih =>
      cases b with
      | concat n qs =>
          exact knownAll_of_same
            (fun p hp q hq => ih p hp
              (typedAll_iff.mp ha.1 p hp)
              (typedAll_iff.mp hb.1 q hq)) hSame
      | _ => cases hSame

end Expr

end Gatework

------------------------------------------------------------
-- Rules
------------------------------------------------------------

namespace Gatework

namespace Expr

variable {Γ : Var → Prop}
variable {ρ : Valuation}
variable {a b e' : Expr}

/-
  What a rule of a gate can give: a constant of its width, or
  an operand as it is or negated.
-/
inductive FromOperands
    (a b : Expr) :
    Expr → Prop where
  | nat (x : Nat) : FromOperands a b (ofNat x a.width)
  | left : FromOperands a b a
  | right : FromOperands a b b
  | notLeft : a.width = 1 → FromOperands a b (neg a)
  | notRight : a.width = 1 → FromOperands a b (neg b)

theorem fromOperands_of_rule
    {op : GateOp}
    (hRule : reduceGate? op a b = some e') :
    FromOperands a b e' := by
  have hNat := @FromOperands.nat a b
  have hLeft : FromOperands a b a := .left
  have hRight : FromOperands a b b := .right
  have hNotLeft := @FromOperands.notLeft a b
  have hNotRight := @FromOperands.notRight a b
  cases op <;> simp only [reduceGate?] at hRule <;> grind

theorem FromOperands.known
    (h : FromOperands a b e')
    (ha : a.Known ρ)
    (hb : b.Known ρ) :
    e'.Known ρ := by
  cases h with
  | nat x => trivial
  | left => exact ha
  | right => exact hb
  | notLeft => exact ha
  | notRight => exact hb

theorem known_literal
    {positive : Bool}
    (ha : a.Known ρ) :
    (literal a positive).Known ρ := by
  cases positive <;> exact ha

theorem known_of_compare_rule
    {op : CmpOp}
    (ha : a.Known ρ)
    (hb : b.Known ρ)
    (hRule : reduceCompare? op a b = some e') :
    e'.Known ρ := by
  have hBool : ∀ v, (ofBool v).Known ρ := fun _ => trivial
  have hLeft : ∀ c, (bitAgainst op a c).Known ρ :=
    fun _ => known_literal ha
  have hRight : ∀ c, (bitAgainst op b c).Known ρ :=
    fun _ => known_literal hb
  unfold reduceCompare? at hRule
  grind

/- The side selected is known, and so is one equal to it. -/
theorem known_of_mux_rule
    (hOne : OneWidth Γ)
    {m : Mark}
    {s t f : Expr}
    (he : (mux m s t f).Typed Γ)
    (hKnown : (mux m s t f).Known ρ)
    (hRule : reduceMux? s t f = some e') :
    e'.Known ρ := by
  rcases id he with ⟨hs, ht, hf, _, _⟩
  rcases hKnown with ⟨hSelector, hSide⟩
  unfold reduceMux? at hRule
  split at hRule
  case h_1 c hConst =>
      cases hRule
      rw [value_of_asConst? hs hConst] at hSide
      cases hBit : c.value.testBit 0 <;>
        simpa [hBit] using hSide
  case h_2 =>
      have hEqual : t.same f = true → t.Known ρ := by
        intro hSame
        have hBoth := known_of_same (ρ := ρ) hOne ht hf hSame
        split at hSide
        · exact hSide
        · exact hBoth.mpr hSide
      have hNot : (neg s).Known ρ := hSelector
      grind

/- A rule asks for nothing that was not read before it. -/
theorem known_of_rule
    (hOne : OneWidth Γ)
    {e : Expr}
    (he : e.Typed Γ)
    (hKnown : e.Known ρ)
    (hRule : reduce? e = some e') :
    e'.Known ρ := by
  unfold reduce? at hRule
  split at hRule
  case h_1 => cases hRule
  case h_2 => cases hRule
  case h_3 => cases hRule; trivial
  case h_4 => cases hRule; exact hKnown
  case h_5 => cases hRule
  case h_6 m op a b =>
      split at hRule
      case h_1 => cases hRule; trivial
      case h_2 =>
          exact (fromOperands_of_rule hRule).known hKnown.1 hKnown.2
  case h_7 => exact known_of_compare_rule hKnown.1 hKnown.2 hRule
  case h_8 => exact known_of_mux_rule hOne he hKnown hRule
  case h_9 =>
      rcases Option.map_eq_some_iff.mp hRule with ⟨_, _, rfl⟩
      trivial
  case h_10 =>
      rcases Option.map_eq_some_iff.mp hRule with ⟨_, _, rfl⟩
      trivial
  case h_11 =>
      rcases Option.map_eq_some_iff.mp hRule with ⟨_, _, rfl⟩
      trivial

end Expr

end Gatework

------------------------------------------------------------
-- Simplification
------------------------------------------------------------

namespace Gatework

namespace Expr

variable {Γ : Var → Prop}

/- The function of another tree, read from no more signals. -/
structure Refines
    (Γ : Var → Prop)
    (e e' : Expr) :
    Prop extends Keeps Γ e e' where
  known : ∀ ρ, e.Known ρ → e'.Known ρ

theorem Refines.refl
    {e : Expr}
    (he : e.Typed Γ) :
    Refines Γ e e :=
  ⟨Keeps.refl he, fun _ h => h⟩

/- What had a value has the same one. -/
theorem Refines.eval
    {e e' : Expr}
    (h : Refines Γ e e')
    {ρ : Valuation}
    {x : Nat}
    (hEval : e.eval ρ = .ok x) :
    e'.eval ρ = .ok x := by
  rcases eval_eq_ok_iff.mp hEval with ⟨hKnown, hValue⟩
  apply eval_eq_ok_iff.mpr
  exact ⟨h.known ρ hKnown, (h.value_eq _).trans hValue⟩

theorem refines_settleFor
    (hOne : OneWidth Γ)
    {n : Nat}
    {e : Expr}
    (he : e.Typed Γ) :
    Refines Γ e (settleFor n e) := by
  refine ⟨keeps_settleFor hOne he, ?_⟩
  intro ρ hKnown
  induction n generalizing e with
  | zero => exact hKnown
  | succ n ih =>
      rw [settleFor]
      cases hRule : reduce? e with
      | none => exact hKnown
      | some e' =>
          exact ih (reduce?_keeps hOne he hRule).typed
            (known_of_rule hOne he hKnown hRule)

/- Rules after a node with operands in another form. -/
theorem Refines.settle
    (hOne : OneWidth Γ)
    {e e' : Expr}
    (h : Refines Γ e e') :
    Refines Γ e e'.settle := by
  have hRules : Refines Γ e' e'.settle :=
    refines_settleFor hOne h.typed
  exact ⟨h.toKeeps.trans hRules.toKeeps,
    fun ρ hKnown => hRules.known ρ (h.known ρ hKnown)⟩

theorem Refines.mux
    {m n : Mark}
    {s t f s' t' f' : Expr}
    (he : (mux m s t f).Typed Γ)
    (hs : Refines Γ s s')
    (ht : Refines Γ t t')
    (hf : Refines Γ f f') :
    Refines Γ (mux m s t f) (mux n s' t' f') := by
  refine ⟨Keeps.mux he hs.toKeeps ht.toKeeps hf.toKeeps, ?_⟩
  rintro ρ ⟨hSelector, hSide⟩
  refine ⟨hs.known ρ hSelector, ?_⟩
  rw [hs.value_eq]
  split at hSide
  case isTrue hBit =>
      rw [if_pos hBit]
      exact ht.known ρ hSide
  case isFalse hBit =>
      rw [if_neg hBit]
      exact hf.known ρ hSide

theorem knownAll_map
    {ρ : Valuation}
    {g : Expr → Expr}
    {parts : List Expr}
    (hParts : ∀ p ∈ parts, p.Known ρ → (g p).Known ρ)
    (hKnown : KnownAll ρ parts) :
    KnownAll ρ (parts.map g) := by
  apply knownAll_iff.mpr
  intro q hq
  rcases List.mem_map.mp hq with ⟨p, hp, rfl⟩
  exact hParts p hp (knownAll_iff.mp hKnown p hp)

/-
  Simplification keeps type, width and value, and what was
  known before it is known after it.
-/
theorem refines_simplify
    (hOne : OneWidth Γ)
    {e : Expr}
    (he : e.Typed Γ) :
    Refines Γ e e.simplify := by
  induction e with
  | const m c =>
      rw [simplify]
      exact Refines.refl he
  | var m v =>
      rw [simplify]
      exact Refines.refl he
  | not m x ih =>
      have hx := ih he.1
      rw [simplify]
      apply Refines.settle hOne
      exact ⟨Keeps.not he hx.toKeeps, hx.known⟩
  | gate m op a b iha ihb =>
      have ha := iha he.1
      have hb := ihb he.2.1
      rw [simplify]
      apply Refines.settle hOne
      exact ⟨Keeps.gate he ha.toKeeps hb.toKeeps,
        fun ρ h => ⟨ha.known ρ h.1, hb.known ρ h.2⟩⟩
  | compare m op a b iha ihb =>
      have ha := iha he.1
      have hb := ihb he.2.1
      rw [simplify]
      apply Refines.settle hOne
      exact ⟨Keeps.compare he ha.toKeeps hb.toKeeps,
        fun ρ h => ⟨ha.known ρ h.1, hb.known ρ h.2⟩⟩
  | mux m s t f ihs iht ihf =>
      rw [simplify]
      apply Refines.settle hOne
      exact Refines.mux he (ihs he.1) (iht he.2.1) (ihf he.2.2.1)
  | bit m b i ih =>
      have hb := ih he.1
      rw [simplify]
      apply Refines.settle hOne
      exact ⟨Keeps.bit he hb.toKeeps, hb.known⟩
  | part m b h l ih =>
      have hb := ih he.1
      rw [simplify]
      apply Refines.settle hOne
      exact ⟨Keeps.part he hb.toKeeps, hb.known⟩
  | concat m parts ih =>
      have hParts : ∀ p ∈ parts, Refines Γ p p.simplify :=
        fun p hp => ih p hp (typedAll_iff.mp he.1 p hp)
      rw [simplify, simplifyAll_eq_map]
      apply Refines.settle hOne
      exact ⟨Keeps.concat he (fun p hp => (hParts p hp).toKeeps),
        fun ρ => knownAll_map (fun p hp => (hParts p hp).known ρ)⟩

end Expr

end Gatework
