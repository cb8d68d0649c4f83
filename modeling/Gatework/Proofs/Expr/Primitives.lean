import Gatework.Expr.Primitives
import Gatework.Proofs.Expr.Simplify

/-
  Decomposition into AND, OR and NOT keeps the function.

  Key definitions include:
    * `Expr.At`, an index for a bit of an expression
    * `Expr.BitByBit`

  Key theorems include:
    * `Expr.isBit_primitiveBit`
    * `Expr.keeps_toPrimitives`
-/

------------------------------------------------------------
-- Gates of single bits
------------------------------------------------------------

namespace Gatework

namespace Expr

variable {Γ : Var → Prop}

theorem IsBit.bitsDiffer
    {a b : Expr}
    {f g : (String → Nat) → Bool}
    (ha : IsBit Γ a f)
    (hb : IsBit Γ b g) :
    IsBit Γ (bitsDiffer a b) (fun τ => !(f τ == g τ)) := by
  refine ((ha.conj hb.neg).disj (ha.neg.conj hb)).congr ?_
  intro τ
  cases f τ <;> cases g τ <;> rfl

theorem IsBit.primitiveGate
    (op : GateOp)
    {a b : Expr}
    {f g : (String → Nat) → Bool}
    (ha : IsBit Γ a f)
    (hb : IsBit Γ b g) :
    IsBit Γ (primitiveGate op a b)
      (fun τ => op.onBits (f τ) (g τ)) := by
  have hDiffer : ∀ τ, (!(f τ == g τ)) = (f τ ^^ g τ) := by
    intro τ
    cases f τ <;> cases g τ <;> rfl
  cases op with
  | and => exact ha.conj hb
  | or => exact ha.disj hb
  | xor => exact (ha.bitsDiffer hb).congr hDiffer
  | xnor =>
      exact ((ha.bitsDiffer hb).congr hDiffer).neg
  | nand => exact (ha.conj hb).neg
  | nor => exact (ha.disj hb).neg

theorem isBit_primitiveMux
    {s t f : Expr}
    {c x y : (String → Nat) → Bool}
    (hs : IsBit Γ s c)
    (ht : IsBit Γ t x)
    (hf : IsBit Γ f y) :
    IsBit Γ (primitiveMux s t f)
      (fun τ => if c τ then x τ else y τ) := by
  refine ((hs.conj ht).disj (hs.neg.conj hf)).congr ?_
  intro τ
  cases c τ <;> cases x τ <;> cases y τ <;> rfl

end Expr

end Gatework

------------------------------------------------------------
-- Single bits
------------------------------------------------------------

namespace Gatework

namespace Expr

variable {Γ : Var → Prop}

/-
  An index stands for bit `i` of a width; without an index
  the width is one bit.
-/
def At
    (index : Option Nat)
    (width i : Nat) :
    Prop :=
  index.getD 0 = i ∧ i < width ∧ (index = none → width = 1)

theorem at_some
    {width i : Nat}
    (hi : i < width) :
    At (some i) width i :=
  ⟨rfl, hi, nofun⟩

theorem at_none
    {width : Nat}
    (hWidth : width = 1) :
    At none width 0 :=
  ⟨rfl, hWidth ▸ Nat.one_pos, fun _ => hWidth⟩

/- A single bit needs no index. -/
theorem At.place
    {index : Option Nat}
    {width i : Nat}
    (hAt : At index width i) :
    At (if width = 1 then none else index) width i := by
  by_cases hWidth : width = 1
  · have hZero : i = 0 := by
      have hi := hAt.2.1
      omega
    rw [if_pos hWidth, hZero]
    exact at_none hWidth
  · rw [if_neg hWidth]
    exact hAt

/- Each bit of an expression is the one computed for its index. -/
def BitByBit
    (Γ : Var → Prop)
    (e : Expr) :
    Prop :=
  ∀ ⦃index i⦄, At index e.width i →
    IsBit Γ (primitiveBit index e) (fun τ => (e.value τ).testBit i)

/- The bit of parts that an index stands for. -/
theorem isBit_primitiveParts
    {parts : List Expr}
    (hTyped : TypedAll Γ parts)
    (hParts : ∀ p ∈ parts, BitByBit Γ p)
    {place : Option Nat}
    {i : Nat}
    (hAt : At place (totalWidth parts) i) :
    IsBit Γ (primitiveParts place parts)
      (fun τ => partsBit τ parts i) := by
  induction parts generalizing place i with
  | nil => exact absurd hAt.2.1 (Nat.not_lt_zero i)
  | cons p ps ih =>
      have hHead := hParts p (List.mem_cons_self ..)
      have hTail := @ih hTyped.2
        (fun q hq => hParts q (List.mem_cons_of_mem _ hq))
      rcases hAt with ⟨hIndex, hi, hNone⟩
      rw [totalWidth] at hi hNone
      cases place with
      | none =>
          -- A single bit is a single part.
          cases hIndex
          have hPos := hTyped.1.width_pos
          have hOne := hNone rfl
          cases ps with
          | nil =>
              rw [totalWidth, Nat.add_zero] at hOne
              refine (hHead (at_none hOne)).congr ?_
              intro τ
              rfl
          | cons q qs =>
              have hPos' := hTyped.2.1.width_pos
              rw [totalWidth] at hOne
              omega
      | some j =>
          cases hIndex
          rw [Option.getD_some] at *
          rw [primitiveParts]
          by_cases hLow : j < totalWidth ps
          · rw [if_pos hLow]
            refine (hTail (at_some hLow)).congr ?_
            intro τ
            rw [partsBit, if_pos hLow]
          · rw [if_neg hLow, if_pos (by omega)]
            refine (hHead (at_some (by omega))).congr ?_
            intro τ
            rw [partsBit, if_neg hLow]

/- Single bits are compared by one gate. -/
theorem isBit_compareBits
    {op : CmpOp}
    {a b x y : Expr}
    (ha : a.Typed Γ)
    (hb : b.Typed Γ)
    (hWidth : a.width = 1)
    (hWidth' : b.width = 1)
    (hx : IsBit Γ x (fun τ => (a.value τ).testBit 0))
    (hy : IsBit Γ y (fun τ => (b.value τ).testBit 0)) :
    IsBit Γ
      (match op with
        | .eq => bitsAgree x y
        | .neq => bitsDiffer x y)
      (fun τ => op.holds (a.value τ == b.value τ)) := by
  have hBits : ∀ τ, ((a.value τ).testBit 0 ==
      (b.value τ).testBit 0) = (a.value τ == b.value τ) := by
    intro τ
    have hLeft := eq_toNat_testBit (hWidth ▸ ha.value_lt τ)
    have hRight := eq_toNat_testBit (hWidth' ▸ hb.value_lt τ)
    generalize (a.value τ).testBit 0 = s at hLeft ⊢
    generalize (b.value τ).testBit 0 = t at hRight ⊢
    rw [hLeft, hRight]
    cases s <;> cases t <;> rfl
  cases op with
  | eq => exact (hx.bitsAgree hy).congr hBits
  | neq =>
      apply (hx.bitsDiffer hy).congr
      intro τ
      rw [hBits τ]
      rfl

/- Words are compared bit by bit. -/
theorem isBit_allBitsAgree
    {a b : Expr}
    (ha : a.Typed Γ)
    (hb : b.Typed Γ)
    (hWidths : a.width = b.width)
    (hLeft : ∀ i, i < a.width → IsBit Γ (primitiveBit (some i) a)
      (fun τ => (a.value τ).testBit i))
    (hRight : ∀ i, i < b.width → IsBit Γ (primitiveBit (some i) b)
      (fun τ => (b.value τ).testBit i)) :
    IsBit Γ
      ((conjAll? ((indicesDown (min a.width b.width)).map fun i =>
        bitsAgree (primitiveBit (some i) a)
          (primitiveBit (some i) b))).getD (ofBool true))
      (fun τ => a.value τ == b.value τ) := by
  rw [← hWidths, Nat.min_self]
  have hAll : ∀ i ∈ indicesDown a.width,
      IsBit Γ (bitsAgree (primitiveBit (some i) a)
          (primitiveBit (some i) b))
        (fun τ =>
          (a.value τ).testBit i == (b.value τ).testBit i) := by
    intro i hi
    have hLow : i < a.width := mem_indicesDown.mp hi
    exact (hLeft i hLow).bitsAgree (hRight i (hWidths ▸ hLow))
  apply (isBit_conjAll hAll).congr
  intro τ
  exact all_bits_eq_iff (ha.value_lt τ) (hWidths ▸ hb.value_lt τ)

theorem bitByBit_const
    {m : Mark}
    {c : Const}
    (he : (const m c).Typed Γ) :
    BitByBit Γ (const m c) := by
  intro index i hAt
  have hPlace := hAt.place
  rw [primitiveBit]
  generalize (if (const m c).width = 1 then none else index) =
    place at hPlace ⊢
  cases place with
  | none =>
      rcases hPlace with ⟨rfl, _, hOne⟩
      exact isBit_self he (hOne rfl)
  | some j =>
      rcases hPlace with ⟨rfl, hi, _⟩
      apply (isBit_ofBool _).congr
      intro τ
      have hWide : j < maxWidth := Nat.lt_of_lt_of_le hi he.2.1
      rw [value_const he, Const.bitAt, decide_eq_true hWide]
      rfl

theorem bitByBit_var
    {m : Mark}
    {v : Var}
    (he : (var m v).Typed Γ) :
    BitByBit Γ (var m v) := by
  intro index i hAt
  have hPlace := hAt.place
  rw [primitiveBit]
  generalize (if (var m v).width = 1 then none else index) =
    place at hPlace ⊢
  cases place with
  | none =>
      rcases hPlace with ⟨rfl, _, hOne⟩
      exact isBit_self he (hOne rfl)
  | some j =>
      rcases hPlace with ⟨rfl, hi, _⟩
      refine ⟨⟨he, hi⟩, rfl, ?_⟩
      intro τ
      exact testBit_value_bit τ

/- A gate works on the bits of its operands at the same place. -/
theorem bitByBit_gate
    {m : Mark}
    {op : GateOp}
    {a b : Expr}
    (he : (gate m op a b).Typed Γ)
    (ha : BitByBit Γ a)
    (hb : BitByBit Γ b) :
    BitByBit Γ (gate m op a b) := by
  intro index i hAt
  have hLeft := hAt.place
  have hRight : At (if (gate m op a b).width = 1 then none
      else index) b.width i := by
    rw [← he.2.2]
    exact hLeft
  rw [primitiveBit_gate]
  apply ((ha hLeft).primitiveGate op (hb hRight)).congr
  intro τ
  exact (testBit_value_gate he τ hAt.2.1).symm

/- A comparison takes one gate for bits and all bits of words. -/
theorem bitByBit_compare
    {m : Mark}
    {op : CmpOp}
    {a b : Expr}
    (he : (compare m op a b).Typed Γ)
    (ha : BitByBit Γ a)
    (hb : BitByBit Γ b) :
    BitByBit Γ (compare m op a b) := by
  intro index i hAt
  rcases id he with ⟨hLeft, hRight, hWidths⟩
  have hZero : i = 0 := by
    have hi : i < 1 := hAt.2.1
    omega
  have hMeaning : ∀ τ, op.holds (a.value τ == b.value τ) =
      ((compare m op a b).value τ).testBit i := by
    intro τ
    rw [hZero, testBit_value_compare he]
  rw [primitiveBit]
  by_cases hWidth : a.width = 1
  · have hWidth' : b.width = 1 := hWidths ▸ hWidth
    rw [if_pos hWidth]
    exact (isBit_compareBits hLeft hRight hWidth hWidth'
      (ha (at_none hWidth))
      (hb (at_none hWidth'))).congr hMeaning
  · have hAgree := isBit_allBitsAgree hLeft hRight hWidths
      (fun i hi => ha (at_some hi))
      (fun i hi => hb (at_some hi))
    rw [if_neg hWidth]
    cases op with
    | eq => exact hAgree.congr hMeaning
    | neq => exact hAgree.neg.congr hMeaning

/- A multiplexer chooses between bits at the same place. -/
theorem bitByBit_mux
    {m : Mark}
    {s t f : Expr}
    (he : (mux m s t f).Typed Γ)
    (hs : BitByBit Γ s)
    (ht : BitByBit Γ t)
    (hf : BitByBit Γ f) :
    BitByBit Γ (mux m s t f) := by
  intro index i hAt
  have hTrue := hAt.place
  have hFalse : At (if (mux m s t f).width = 1 then none
      else index) f.width i := by
    rw [← he.2.2.2.2]
    exact hTrue
  rw [primitiveBit_mux]
  apply (isBit_primitiveMux (hs (at_none he.2.2.2.1))
    (ht hTrue) (hf hFalse)).congr
  intro τ
  rw [value_mux he]
  cases (s.value τ).testBit 0 <;> rfl

/- The bit an index stands for, by AND, OR and NOT. -/
theorem isBit_primitiveBit
    {e : Expr}
    (he : e.Typed Γ) :
    BitByBit Γ e := by
  induction e with
  | const m c => exact bitByBit_const he
  | var m v => exact bitByBit_var he
  | not m x ih =>
      intro index i hAt
      have hZero : i = 0 := by
        have hi := hAt.2.1
        rw [width, he.2] at hi
        omega
      rw [primitiveBit, hZero]
      apply (ih he.1 (at_none he.2)).neg.congr
      intro τ
      rw [testBit_value_not he]
  | gate m op a b iha ihb =>
      exact bitByBit_gate he (iha he.1) (ihb he.2.1)
  | compare m op a b iha ihb =>
      exact bitByBit_compare he (iha he.1) (ihb he.2.1)
  | mux m s t f ihs iht ihf =>
      exact bitByBit_mux he (ihs he.1) (iht he.2.1) (ihf he.2.2.1)
  | bit m b j ih =>
      intro index i hAt
      have hZero : i = 0 := by
        have hi : i < 1 := hAt.2.1
        omega
      have hMeaning : ∀ τ, (b.value τ).testBit j =
          ((bit m b j).value τ).testBit i := by
        intro τ
        rw [hZero, testBit_value_bit]
      have hInner := (ih he.1 (at_some he.2)).congr hMeaning
      cases b with
      | var n v =>
          rw [primitiveBit, hZero]
          exact isBit_self he rfl
      | _ =>
          rw [primitiveBit]
          · exact hInner
          · intro n v h
            cases h
  | part m b h l ih =>
      intro index i hAt
      have hPlace := hAt.place
      rw [primitiveBit, hPlace.1]
      have hInside : min h l + i < b.width := by
        have hi : i < max h l - min h l + 1 := hAt.2.1
        have hTop := he.2
        omega
      apply (ih he.1 (at_some hInside)).congr
      intro τ
      exact (testBit_value_part he τ hAt.2.1).symm
  | concat m parts ih =>
      intro index i hAt
      rw [primitiveBit]
      apply (isBit_primitiveParts he.1
        (fun p hp => ih p hp (typedAll_iff.mp he.1 p hp))
        hAt.place).congr
      intro τ
      exact (testBit_value_concat he τ hAt.2.1).symm

/- An expression by AND, OR and NOT has the same function. -/
theorem keeps_toPrimitives
    {e : Expr}
    (he : e.Typed Γ) :
    Keeps Γ e e.toPrimitives := by
  have hBits : Keeps Γ e
      (if e.width > 1 then
        concat none
          ((indicesDown e.width).map fun i =>
            primitiveBit (some i) e)
      else
        primitiveBit none e) := by
    by_cases hWide : e.width > 1
    · rw [if_pos hWide]
      exact (isWord_concat he.width_pos he.width_le
        (fun i hi => isBit_primitiveBit he (at_some hi))).keeps he
        (fun τ i hi => rfl)
    · have hOne : e.width = 1 := by
        have hPos := he.width_pos
        omega
      rw [if_neg hWide]
      exact (isBit_primitiveBit he (at_none hOne)).keeps he hOne
        (fun τ => rfl)
  cases e with
  | const m c => exact Keeps.refl he
  | var m v => exact Keeps.refl he
  | _ => exact hBits

end Expr

end Gatework
