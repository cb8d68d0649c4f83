import Gatework.Proofs.Expr.Typing

/-
  The value of an expression when every signal has one.

  Evaluation can miss a signal; `Expr.value` is what it gives
  when none is missing. For typed trees every bit of a value
  follows from bits of the operands.

  Key definitions include:
    * `Expr.value`
    * `Expr.partsBit`, a bit of parts side by side

  Key theorems include:
    * `Expr.eval_eq_value`
    * `Expr.value_congr`
    * `Expr.Typed.value_lt`
    * `Expr.testBit_value_gate` and its siblings, one for
      each kind of node
-/

------------------------------------------------------------
-- Values
------------------------------------------------------------

namespace Gatework

namespace Expr

mutual

/- The value of an expression, within its width. -/
def value
    (τ : String → Nat) :
    Expr → Nat
  | const _ c => c.value &&& mask c.width
  | var _ v => τ v.name &&& mask v.width
  | not _ x => complement x.width (value τ x)
  | gate _ op a b => op.apply (value τ a) (value τ b) a.width
  | compare _ op a b =>
      (op.holds
        ((value τ a &&& mask a.width) ==
          (value τ b &&& mask a.width))).toNat
  | mux _ s t f =>
      (if (value τ s).testBit 0 then value τ t else value τ f) &&&
        mask t.width
  | bit _ b i => (value τ b >>> i) &&& mask 1
  | part m b h l =>
      (value τ b >>> min h l) &&& mask (part m b h l).width
  | concat _ parts =>
      valueParts τ 0 parts &&& mask (totalWidth parts)

/- The values of parts below an accumulated value. -/
def valueParts
    (τ : String → Nat)
    (high : Nat) :
    List Expr → Nat
  | [] => high
  | p :: ps =>
      valueParts τ
        (shiftedOut high p.width |||
          (value τ p &&& mask p.width)) ps

end

attribute [local simp] value valueParts

theorem evalParts_eq_valueParts
    {ρ : Valuation}
    {τ : String → Nat}
    {parts : List Expr}
    (hParts : ∀ p ∈ parts, p.eval ρ = .ok (p.value τ))
    (high : Nat) :
    evalParts ρ high parts = .ok (valueParts τ high parts) := by
  induction parts generalizing high with
  | nil => rfl
  | cons p ps ih =>
      have hTail : ∀ q ∈ ps, q.eval ρ = .ok (q.value τ) := by
        intro q hq
        exact hParts q (List.mem_cons_of_mem _ hq)
      rw [evalParts, hParts p (List.mem_cons_self ..), valueParts]
      exact ih hTail _

/-
  Evaluation gives the value when it knows every signal that
  is read.
-/
theorem eval_eq_value
    {ρ : Valuation}
    {τ : String → Nat}
    {e : Expr}
    (hBound : ∀ v ∈ e.occurrences, ρ v.name = some (τ v.name)) :
    e.eval ρ = .ok (e.value τ) := by
  induction e with
  | const m c => rfl
  | var m v =>
      have hv : ρ v.name = some (τ v.name) :=
        hBound v (by simp [occurrences])
      simp only [eval, hv, value]
  | not m x ih =>
      simp only [eval, ih hBound, value]
      rfl
  | gate m op a b iha ihb =>
      simp only [occurrences, List.mem_append] at hBound
      simp only [eval, iha (fun v hv => hBound v (Or.inl hv)),
        ihb (fun v hv => hBound v (Or.inr hv)), value]
      rfl
  | compare m op a b iha ihb =>
      simp only [occurrences, List.mem_append] at hBound
      simp only [eval, iha (fun v hv => hBound v (Or.inl hv)),
        ihb (fun v hv => hBound v (Or.inr hv)), value]
      rfl
  | mux m s t f ihs iht ihf =>
      simp only [occurrences, List.mem_append] at hBound
      simp only [eval, ihs (fun v hv => hBound v (Or.inl hv)),
        iht (fun v hv => hBound v (Or.inr (Or.inl hv))),
        ihf (fun v hv => hBound v (Or.inr (Or.inr hv))), value]
      rw [ok_bind]
      cases (s.value τ).testBit 0 <;> rfl
  | bit m b i ih =>
      simp only [eval, ih hBound, value]
      rfl
  | part m b h l ih =>
      simp only [eval, ih hBound, value]
      rfl
  | concat m parts ih =>
      have hParts : ∀ p ∈ parts, p.eval ρ = .ok (p.value τ) := by
        intro p hp
        apply ih p hp
        intro v hv
        exact hBound v (mem_occurrencesAll.mpr ⟨p, hp, hv⟩)
      rw [eval, evalParts_eq_valueParts hParts, value]
      rfl

/- Evaluation under a total assignment gives the value. -/
theorem eval_total
    (τ : String → Nat)
    (e : Expr) :
    e.eval (fun n => some (τ n)) = .ok (e.value τ) :=
  eval_eq_value (fun _ _ => rfl)

theorem valueParts_congr
    {τ τ' : String → Nat}
    {parts : List Expr}
    (hParts : ∀ p ∈ parts, p.value τ = p.value τ')
    (high : Nat) :
    valueParts τ high parts = valueParts τ' high parts := by
  induction parts generalizing high with
  | nil => rfl
  | cons p ps ih =>
      rw [valueParts, valueParts,
        hParts p (List.mem_cons_self ..)]
      exact ih (fun q hq => hParts q (List.mem_cons_of_mem _ hq)) _

/- A value depends on the bits of signals that are read. -/
theorem value_congr
    {τ τ' : String → Nat}
    {e : Expr}
    (hAgree : ∀ v ∈ e.occurrences,
      τ v.name &&& mask v.width = τ' v.name &&& mask v.width) :
    e.value τ = e.value τ' := by
  induction e with
  | const m c => rfl
  | var m v => exact hAgree v (by simp [occurrences])
  | not m x ih => simp [ih hAgree]
  | gate m op a b iha ihb =>
      simp only [occurrences, List.mem_append] at hAgree
      simp [iha (fun v hv => hAgree v (Or.inl hv)),
        ihb (fun v hv => hAgree v (Or.inr hv))]
  | compare m op a b iha ihb =>
      simp only [occurrences, List.mem_append] at hAgree
      simp [iha (fun v hv => hAgree v (Or.inl hv)),
        ihb (fun v hv => hAgree v (Or.inr hv))]
  | mux m s t f ihs iht ihf =>
      simp only [occurrences, List.mem_append] at hAgree
      simp [ihs (fun v hv => hAgree v (Or.inl hv)),
        iht (fun v hv => hAgree v (Or.inr (Or.inl hv))),
        ihf (fun v hv => hAgree v (Or.inr (Or.inr hv)))]
  | bit m b i ih => simp [ih hAgree]
  | part m b h l ih => simp [ih hAgree]
  | concat m parts ih =>
      have hParts : ∀ p ∈ parts, p.value τ = p.value τ' := by
        intro p hp
        apply ih p hp
        intro v hv
        exact hAgree v (mem_occurrencesAll.mpr ⟨p, hp, hv⟩)
      simp [valueParts_congr hParts]

end Expr

end Gatework

------------------------------------------------------------
-- Values fit their width
------------------------------------------------------------

namespace Gatework

namespace Expr

variable {Γ : Var → Prop}

/- The value of a typed tree fits its width. -/
theorem Typed.value_lt
    {e : Expr}
    (he : e.Typed Γ)
    (τ : String → Nat) :
    e.value τ < 2 ^ e.width := by
  have hMax := he.width_le
  cases e with
  | const m c => exact and_mask_lt hMax _
  | var m v => exact and_mask_lt hMax _
  | not m x => exact complement_lt hMax _
  | gate m op a b => exact GateOp.apply_lt hMax op _ _
  | compare m op a b => exact toNat_lt_two _
  | mux m s t f => exact and_mask_lt hMax _
  | bit m b i => exact and_mask_lt one_le_maxWidth _
  | part m b h l => exact and_mask_lt hMax _
  | concat m parts => exact and_mask_lt hMax _

theorem Typed.value_and_mask
    {e : Expr}
    (he : e.Typed Γ)
    (τ : String → Nat) :
    e.value τ &&& mask e.width = e.value τ :=
  and_mask_of_lt he.width_le (he.value_lt τ)

/- Values of one width are equal if their bits are. -/
theorem Typed.value_eq_of_bits
    {e : Expr}
    {x width : Nat}
    {τ : String → Nat}
    (he : e.Typed Γ)
    (hWidth : e.width = width)
    (hx : x < 2 ^ width)
    (hBits : ∀ i, i < width →
      (e.value τ).testBit i = x.testBit i) :
    e.value τ = x := by
  subst hWidth
  exact eq_of_bits_lt (he.value_lt τ) hx hBits

/- A single bit is known by whether it is 1. -/
theorem Typed.value_eq_of_bit
    {e : Expr}
    {b : Bool}
    {τ : String → Nat}
    (he : e.Typed Γ)
    (hWidth : e.width = 1)
    (hBit : (e.value τ).testBit 0 = b) :
    e.value τ = b.toNat := by
  have hLt := he.value_lt τ
  rw [hWidth] at hLt
  rw [eq_toNat_testBit hLt, hBit]

end Expr

end Gatework

------------------------------------------------------------
-- Bits of nodes
------------------------------------------------------------

namespace Gatework

namespace Expr

variable {Γ : Var → Prop}

theorem value_const
    {m : Mark}
    {c : Const}
    (he : (const m c).Typed Γ)
    (τ : String → Nat) :
    (const m c).value τ = c.value :=
  and_mask_of_lt he.2.1 he.2.2

theorem testBit_value_not
    {m : Mark}
    {x : Expr}
    (he : (not m x).Typed Γ)
    (τ : String → Nat) :
    ((not m x).value τ).testBit 0 = !(x.value τ).testBit 0 := by
  rw [value, testBit_complement, he.2]
  rfl

theorem testBit_value_gate
    {m : Mark}
    {op : GateOp}
    {a b : Expr}
    (he : (gate m op a b).Typed Γ)
    (τ : String → Nat)
    {i : Nat}
    (hi : i < a.width) :
    ((gate m op a b).value τ).testBit i =
      op.onBits ((a.value τ).testBit i)
        ((b.value τ).testBit i) := by
  have hMin : i < min a.width maxWidth :=
    Nat.lt_min.mpr ⟨hi, Nat.lt_of_lt_of_le hi he.1.width_le⟩
  rw [value, GateOp.testBit_apply, decide_eq_true hMin,
    Bool.true_and]

theorem value_compare
    {m : Mark}
    {op : CmpOp}
    {a b : Expr}
    (he : (compare m op a b).Typed Γ)
    (τ : String → Nat) :
    (compare m op a b).value τ =
      (op.holds (a.value τ == b.value τ)).toNat := by
  have hRight : b.value τ &&& mask a.width = b.value τ := by
    rw [he.2.2]
    exact he.2.1.value_and_mask τ
  rw [value, he.1.value_and_mask τ, hRight]

theorem value_mux
    {m : Mark}
    {s t f : Expr}
    (he : (mux m s t f).Typed Γ)
    (τ : String → Nat) :
    (mux m s t f).value τ =
      if (s.value τ).testBit 0 then t.value τ else f.value τ := by
  rcases he with ⟨_, ht, hf, _, hWidths⟩
  rw [value]
  split
  · exact ht.value_and_mask τ
  · rw [hWidths]
    exact hf.value_and_mask τ

theorem testBit_value_bit
    {m : Mark}
    {b : Expr}
    {i : Nat}
    (τ : String → Nat) :
    ((bit m b i).value τ).testBit 0 =
      (b.value τ).testBit i := by
  rw [value, Nat.testBit_and, testBit_mask,
    Nat.testBit_shiftRight, Nat.add_zero]
  simp [maxWidth]

theorem testBit_value_part
    {m : Mark}
    {b : Expr}
    {h l : Nat}
    (he : (part m b h l).Typed Γ)
    (τ : String → Nat)
    {i : Nat}
    (hi : i < (part m b h l).width) :
    ((part m b h l).value τ).testBit i =
      (b.value τ).testBit (min h l + i) := by
  have hMin : i < min (part m b h l).width maxWidth :=
    Nat.lt_min.mpr ⟨hi, Nat.lt_of_lt_of_le hi he.width_le⟩
  rw [value, Nat.testBit_and, testBit_mask,
    Nat.testBit_shiftRight, decide_eq_true hMin, Bool.and_true]

end Expr

end Gatework

------------------------------------------------------------
-- Bits of parts
------------------------------------------------------------

namespace Gatework

namespace Expr

variable {Γ : Var → Prop}

/- Bit `i` of parts side by side, the last one lowest. -/
def partsBit
    (τ : String → Nat) :
    List Expr → Nat → Bool
  | [], _ => false
  | p :: ps, i =>
      if i < totalWidth ps then
        partsBit τ ps i
      else
        (p.value τ).testBit (i - totalWidth ps)

/-
  A part goes below what was accumulated before it. Nothing is
  shifted out as long as the whole has room for both.
-/
theorem valueParts_cons
    {p : Expr}
    (hp : p.Typed Γ)
    {ps : List Expr}
    {high : Nat}
    (hHigh : high = 0 ∨ p.width < maxWidth)
    (τ : String → Nat) :
    valueParts τ high (p :: ps) =
      valueParts τ (high <<< p.width ||| p.value τ) ps := by
  have hShift : shiftedOut high p.width = high <<< p.width := by
    unfold shiftedOut
    split
    case isTrue hWide =>
        have hZero : high = 0 := by
          omega
        simp [hZero]
    case isFalse => rfl
  rw [valueParts, hp.value_and_mask τ, hShift]

theorem testBit_valueParts
    {parts : List Expr}
    (hParts : TypedAll Γ parts)
    (hTotal : totalWidth parts ≤ maxWidth)
    (τ : String → Nat)
    {high : Nat}
    (hHigh : high = 0 ∨ totalWidth parts < maxWidth)
    (i : Nat) :
    (valueParts τ high parts).testBit i =
      if i < totalWidth parts then
        partsBit τ parts i
      else
        high.testBit (i - totalWidth parts) := by
  induction parts generalizing high with
  | nil => simp [valueParts, totalWidth]
  | cons p ps ih =>
      rcases hParts with ⟨hp, hps⟩
      have hPos := hp.width_pos
      rw [totalWidth] at hTotal hHigh ⊢
      have hLater : totalWidth ps < maxWidth := by
        omega
      rw [valueParts_cons hp (by omega),
        ih hps (Nat.le_of_lt hLater) (Or.inr hLater), partsBit]
      by_cases hLow : i < totalWidth ps
      · have hInside : i < p.width + totalWidth ps := by
          omega
        simp [hLow, hInside]
      · rw [if_neg hLow, if_neg hLow,
          testBit_append (hp.value_lt τ)]
        by_cases hMid : i < p.width + totalWidth ps
        · have hPart : i - totalWidth ps < p.width := by
            omega
          rw [if_pos hMid, if_pos hPart]
        · have hAbove : ¬ i - totalWidth ps < p.width := by
            omega
          have hIndex :
              i - totalWidth ps - p.width =
                i - (p.width + totalWidth ps) := by
            omega
          rw [if_neg hMid, if_neg hAbove, hIndex]

theorem testBit_value_concat
    {m : Mark}
    {parts : List Expr}
    (he : (concat m parts).Typed Γ)
    (τ : String → Nat)
    {i : Nat}
    (hi : i < totalWidth parts) :
    ((concat m parts).value τ).testBit i =
      partsBit τ parts i := by
  have hMin : i < min (totalWidth parts) maxWidth :=
    Nat.lt_min.mpr ⟨hi, Nat.lt_of_lt_of_le hi he.2.2⟩
  rw [value, Nat.testBit_and, testBit_mask,
    decide_eq_true hMin, Bool.and_true,
    testBit_valueParts he.1 he.2.2 τ (Or.inl rfl), if_pos hi]

end Expr

end Gatework
