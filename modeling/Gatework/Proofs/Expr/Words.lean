import Gatework.Proofs.Expr.Dependence
import Gatework.Proofs.Expr.Known

/-
  Evaluation on words of 64 bits.

  A machine computes values in words of 64 bits. It cannot
  shift a word by 64 or more, so masks and shifts that may
  reach the 64th bit take another way there. The evaluator of
  this module works on such words and refuses every other
  shift. For valid trees it refuses none, and its words are
  the numbers that evaluation gives.

  Key definitions include:
    * `Expr.evalWord`
    * `inWords`, a result of evaluation on words

  Key theorems include:
    * `Expr.evalWord_eq`
    * `Expr.valid_evaluates_safely`
-/

------------------------------------------------------------
-- Words
------------------------------------------------------------

namespace Gatework

/- Why evaluation on words stops. -/
inductive Fault where
  | unbound (signal : Unbound)
  | shift (amount : Nat)

/- A word moved up, by less than its length. -/
def shiftUp
    (x : BitVec maxWidth)
    (amount : Nat) :
    Except Fault (BitVec maxWidth) :=
  if amount < maxWidth then .ok (x <<< amount)
  else .error (.shift amount)

/- A word moved down, by less than its length. -/
def shiftDown
    (x : BitVec maxWidth)
    (amount : Nat) :
    Except Fault (BitVec maxWidth) :=
  if amount < maxWidth then .ok (x >>> amount)
  else .error (.shift amount)

/- A word moved up by a width, unless the width is 64. -/
def shiftedOutWord
    (x : BitVec maxWidth)
    (width : Nat) :
    Except Fault (BitVec maxWidth) :=
  if maxWidth ≤ width then .ok 0 else shiftUp x width

/- Low bits, all of them for a width of 64 or more. -/
def maskWord
    (width : Nat) :
    Except Fault (BitVec maxWidth) :=
  if maxWidth ≤ width then
    .ok (BitVec.allOnes maxWidth)
  else do
    let top ← shiftUp 1 width
    return top - 1

/- A word cut to a width. -/
def cutWord
    (width : Nat)
    (x : BitVec maxWidth) :
    Except Fault (BitVec maxWidth) := do
  let m ← maskWord width
  return x &&& m

namespace GateOp

/- A gate on all bits of two words. -/
def onWords
    (op : GateOp)
    (a b : BitVec maxWidth) :
    BitVec maxWidth :=
  match op with
  | and => a &&& b
  | or => a ||| b
  | xor => a ^^^ b
  | xnor => ~~~(a ^^^ b)
  | nand => ~~~(a &&& b)
  | nor => ~~~(a ||| b)

end GateOp

namespace Expr

mutual

/- The value of an expression, computed in words. -/
def evalWord
    (ρ : Valuation) :
    Expr → Except Fault (BitVec maxWidth)
  | const _ c => cutWord c.width (.ofNat maxWidth c.value)
  | var _ v =>
      match ρ v.name with
      | some x => cutWord v.width (.ofNat maxWidth x)
      | none => .error (.unbound ⟨v.name⟩)
  | not _ x => do
      let v ← evalWord ρ x
      cutWord x.width (~~~v)
  | gate _ op a b => do
      let x ← evalWord ρ a
      let y ← evalWord ρ b
      cutWord a.width (op.onWords x y)
  | compare _ op a b => do
      let x ← evalWord ρ a
      let x' ← cutWord a.width x
      let y ← evalWord ρ b
      let y' ← cutWord a.width y
      cutWord 1 (.ofNat maxWidth (op.holds (x' == y')).toNat)
  | mux _ s t f => do
      let c ← evalWord ρ s
      let v ← if c.getLsbD 0 then evalWord ρ t else evalWord ρ f
      cutWord t.width v
  | bit _ b i => do
      let v ← evalWord ρ b
      let x ← shiftDown v i
      cutWord 1 x
  | part m b h l => do
      let v ← evalWord ρ b
      let x ← shiftDown v (min h l)
      cutWord (part m b h l).width x
  | concat _ parts => do
      let v ← evalWordParts ρ 0 parts
      cutWord (totalWidth parts) v

/- Appends parts below an accumulated word. -/
def evalWordParts
    (ρ : Valuation)
    (high : BitVec maxWidth) :
    List Expr → Except Fault (BitVec maxWidth)
  | [] => .ok high
  | p :: ps => do
      let above ← shiftedOutWord high p.width
      let v ← evalWord ρ p
      let v' ← cutWord p.width v
      evalWordParts ρ (above ||| v') ps

end

end Expr

end Gatework

------------------------------------------------------------
-- Numbers in words
------------------------------------------------------------

namespace Gatework

/- In a word, a number is its low 64 bits. -/
theorem getLsbD_ofNat_of_lt
    {i : Nat}
    (hi : i < maxWidth)
    (x : Nat) :
    (BitVec.ofNat maxWidth x).getLsbD i = x.testBit i := by
  rw [BitVec.getLsbD_ofNat, decide_eq_true hi, Bool.true_and]

theorem ofNat_shiftLeft
    (x amount : Nat) :
    BitVec.ofNat maxWidth (x <<< amount) =
      BitVec.ofNat maxWidth x <<< amount := by
  apply BitVec.eq_of_getLsbD_eq
  intro i hi
  rw [BitVec.getLsbD_shiftLeft, BitVec.getLsbD_ofNat,
    BitVec.getLsbD_ofNat, Nat.testBit_shiftLeft]
  by_cases hLow : i < amount
  · simp [hLow, Nat.not_le.mpr hLow]
  · have hIn : i - amount < maxWidth := by
      omega
    simp [hi, hLow, Nat.le_of_not_lt hLow, hIn]

/- Moving down needs a number that the word holds in full. -/
theorem ofNat_shiftRight
    {x : Nat}
    (hx : x < 2 ^ maxWidth)
    (amount : Nat) :
    BitVec.ofNat maxWidth (x >>> amount) =
      BitVec.ofNat maxWidth x >>> amount := by
  apply BitVec.eq_of_getLsbD_eq
  intro i hi
  rw [BitVec.getLsbD_ushiftRight, getLsbD_ofNat_of_lt hi,
    BitVec.getLsbD_ofNat, Nat.testBit_shiftRight]
  by_cases hIn : amount + i < maxWidth
  · rw [decide_eq_true hIn, Bool.true_and]
  · rw [testBit_of_lt_of_le hx (Nat.le_of_not_lt hIn),
      Bool.and_false]

theorem ofNat_complement
    (width x : Nat) :
    BitVec.ofNat maxWidth (complement width x) =
      ~~~BitVec.ofNat maxWidth x &&&
        BitVec.ofNat maxWidth (mask width) := by
  apply BitVec.eq_of_getLsbD_eq
  intro i hi
  rw [BitVec.getLsbD_and, BitVec.getLsbD_not]
  simp only [getLsbD_ofNat_of_lt hi, testBit_complement,
    testBit_mask, decide_eq_true hi, Bool.true_and]
  exact Bool.and_comm _ _

theorem GateOp.ofNat_apply
    (op : GateOp)
    (a b width : Nat) :
    BitVec.ofNat maxWidth (op.apply a b width) =
      op.onWords (.ofNat maxWidth a) (.ofNat maxWidth b) &&&
        BitVec.ofNat maxWidth (mask width) := by
  cases op with
  | and => rw [apply, onWords, BitVec.ofNat_and, BitVec.ofNat_and]
  | or => rw [apply, onWords, BitVec.ofNat_and, BitVec.ofNat_or]
  | xor => rw [apply, onWords, BitVec.ofNat_and, BitVec.ofNat_xor]
  | xnor => rw [apply, onWords, ofNat_complement, BitVec.ofNat_xor]
  | nand => rw [apply, onWords, ofNat_complement, BitVec.ofNat_and]
  | nor => rw [apply, onWords, ofNat_complement, BitVec.ofNat_or]

end Gatework

------------------------------------------------------------
-- Steps in words
------------------------------------------------------------

namespace Gatework

theorem shiftUp_eq
    {amount : Nat}
    (hAmount : amount < maxWidth)
    (x : Nat) :
    shiftUp (.ofNat maxWidth x) amount =
      .ok (.ofNat maxWidth (x <<< amount)) := by
  rw [shiftUp, if_pos hAmount, ofNat_shiftLeft]

theorem shiftedOutWord_eq
    (x width : Nat) :
    shiftedOutWord (.ofNat maxWidth x) width =
      .ok (.ofNat maxWidth (shiftedOut x width)) := by
  unfold shiftedOutWord shiftedOut
  by_cases hWidth : maxWidth ≤ width
  · rw [if_pos hWidth, if_pos hWidth]
    rfl
  · rw [if_neg hWidth, if_neg hWidth,
      shiftUp_eq (Nat.lt_of_not_le hWidth)]

theorem shiftDown_eq
    {x amount : Nat}
    (hx : x < 2 ^ maxWidth)
    (hAmount : amount < maxWidth) :
    shiftDown (.ofNat maxWidth x) amount =
      .ok (.ofNat maxWidth (x >>> amount)) := by
  rw [shiftDown, if_pos hAmount, ofNat_shiftRight hx]

/- Masks are made without a shift by 64 or more. -/
theorem maskWord_eq
    (width : Nat) :
    maskWord width = .ok (.ofNat maxWidth (mask width)) := by
  unfold maskWord mask
  by_cases hWidth : maxWidth ≤ width
  · rw [if_pos hWidth, Nat.min_eq_right hWidth]
    rfl
  · have hLess := Nat.lt_of_not_le hWidth
    have hOne : 1 ≤ 1 <<< width := by
      rw [Nat.one_shiftLeft]
      exact Nat.two_pow_pos width
    have hTop : shiftUp 1 width =
        .ok (.ofNat maxWidth (1 <<< width)) :=
      shiftUp_eq hLess 1
    rw [if_neg hWidth, hTop, Nat.min_eq_left (Nat.le_of_lt hLess),
      ← BitVec.ofNat_sub_ofNat_of_le _ _ (by decide) hOne]
    rfl

theorem cutWord_eq
    (width : Nat)
    (x : BitVec maxWidth) :
    cutWord width x =
      .ok (x &&& BitVec.ofNat maxWidth (mask width)) := by
  rw [cutWord, maskWord_eq]
  rfl

theorem cutWord_ofNat
    (width x : Nat) :
    cutWord width (.ofNat maxWidth x) =
      .ok (.ofNat maxWidth (x &&& mask width)) := by
  rw [cutWord_eq, BitVec.ofNat_and]

/- What is left of a number after a cut fits in a word. -/
theorem and_mask_lt_word
    (width x : Nat) :
    x &&& mask width < 2 ^ maxWidth := by
  have hPow : 2 ^ min width maxWidth ≤ 2 ^ maxWidth :=
    Nat.pow_le_pow_right (by decide) (Nat.min_le_right ..)
  have hPos := Nat.two_pow_pos (min width maxWidth)
  apply Nat.and_lt_two_pow
  rw [mask_eq]
  omega

/- Words are equal when the numbers they hold are. -/
theorem beq_ofNat
    {x y : Nat}
    (hx : x < 2 ^ maxWidth)
    (hy : y < 2 ^ maxWidth) :
    (BitVec.ofNat maxWidth x == BitVec.ofNat maxWidth y) =
      (x == y) := by
  rw [Bool.eq_iff_iff, beq_iff_eq, beq_iff_eq, ← BitVec.toNat_inj,
    BitVec.toNat_ofNat, BitVec.toNat_ofNat, Nat.mod_eq_of_lt hx,
    Nat.mod_eq_of_lt hy]

/- A result of evaluation, with numbers written as words. -/
def inWords : Except Unbound Nat → Except Fault (BitVec maxWidth)
  | .ok x => .ok (.ofNat maxWidth x)
  | .error u => .error (.unbound u)

/- Steps that agree on numbers agree on words. -/
theorem inWords_bind
    {first : Except Unbound Nat}
    {next : Nat → Except Unbound Nat}
    {next' : BitVec maxWidth → Except Fault (BitVec maxWidth)}
    (hNext : ∀ x, first = .ok x →
      next' (.ofNat maxWidth x) = inWords (next x)) :
    (inWords first >>= next') = inWords (first >>= next) := by
  cases first with
  | error u => rfl
  | ok x => exact hNext x rfl

end Gatework

------------------------------------------------------------
-- Evaluation in words
------------------------------------------------------------

namespace Gatework

namespace Expr

variable {Γ : Var → Prop}
variable {ρ : Valuation}

/- The number a typed tree evaluates to fits its width. -/
theorem Typed.lt_of_eval_eq_ok
    {e : Expr}
    (he : e.Typed Γ)
    {x : Nat}
    (hx : e.eval ρ = .ok x) :
    x < 2 ^ e.width := by
  rw [← (eval_eq_ok_iff.mp hx).2]
  exact he.value_lt _

theorem Typed.fits_of_eval_eq_ok
    {e : Expr}
    (he : e.Typed Γ)
    {x : Nat}
    (hx : e.eval ρ = .ok x) :
    x < 2 ^ maxWidth :=
  Nat.lt_of_lt_of_le (he.lt_of_eval_eq_ok hx)
    (Nat.pow_le_pow_right (by decide) he.width_le)

theorem evalWordParts_eq
    {parts : List Expr}
    (hParts : ∀ p ∈ parts, p.evalWord ρ = inWords (p.eval ρ))
    (high : Nat) :
    evalWordParts ρ (.ofNat maxWidth high) parts =
      inWords (evalParts ρ high parts) := by
  induction parts generalizing high with
  | nil => rfl
  | cons p ps ih =>
      rw [evalWordParts, evalParts, shiftedOutWord_eq, ok_bind,
        hParts p (List.mem_cons_self ..)]
      apply inWords_bind
      intro x _
      rw [cutWord_ofNat, ok_bind, ← BitVec.ofNat_or]
      exact ih (fun q hq => hParts q (List.mem_cons_of_mem _ hq)) _

/-
  For typed trees evaluation in words refuses no shift and
  gives the same numbers. Values fit the widths they are read
  at, so what a select moves down was not cut before.
-/
theorem evalWord_eq
    {e : Expr}
    (he : e.Typed Γ) :
    e.evalWord ρ = inWords (e.eval ρ) := by
  induction e with
  | const m c => exact cutWord_ofNat _ _
  | var m v =>
      rw [evalWord, eval]
      cases ρ v.name with
      | none => rfl
      | some x => exact cutWord_ofNat _ _
  | not m x ih =>
      rw [evalWord, eval, ih he.1]
      apply inWords_bind
      intro v _
      rw [cutWord_eq, ← ofNat_complement]
      rfl
  | gate m op a b iha ihb =>
      rw [evalWord, eval, iha he.1, ihb he.2.1]
      apply inWords_bind
      intro x _
      apply inWords_bind
      intro y _
      rw [cutWord_eq, ← GateOp.ofNat_apply]
      rfl
  | compare m op a b iha ihb =>
      rw [evalWord, eval, iha he.1, ihb he.2.1]
      apply inWords_bind
      intro x _
      rw [cutWord_ofNat, ok_bind]
      apply inWords_bind
      intro y _
      rw [cutWord_ofNat, ok_bind,
        beq_ofNat (and_mask_lt_word ..) (and_mask_lt_word ..),
        cutWord_ofNat,
        and_mask_of_lt one_le_maxWidth (toNat_lt_two _)]
      rfl
  | mux m s t f ihs iht ihf =>
      rw [evalWord, eval, ihs he.1, iht he.2.1, ihf he.2.2.1]
      apply inWords_bind
      intro c _
      rw [getLsbD_ofNat_of_lt (by decide)]
      cases c.testBit 0 with
      | false =>
          apply inWords_bind
          intro v _
          exact cutWord_ofNat _ _
      | true =>
          apply inWords_bind
          intro v _
          exact cutWord_ofNat _ _
  | bit m b i ih =>
      have hIndex := Nat.lt_of_lt_of_le he.2 he.1.width_le
      rw [evalWord, eval, ih he.1]
      apply inWords_bind
      intro v hv
      rw [shiftDown_eq (he.1.fits_of_eval_eq_ok hv) hIndex, ok_bind]
      exact cutWord_ofNat _ _
  | part m b h l ih =>
      have hLow : min h l < maxWidth := by
        have hHigh := Nat.lt_of_lt_of_le he.2 he.1.width_le
        omega
      rw [evalWord, eval, ih he.1]
      apply inWords_bind
      intro v hv
      rw [shiftDown_eq (he.1.fits_of_eval_eq_ok hv) hLow, ok_bind]
      exact cutWord_ofNat _ _
  | concat m parts ih =>
      have hParts : ∀ p ∈ parts,
          p.evalWord ρ = inWords (p.eval ρ) :=
        fun p hp => ih p hp (typedAll_iff.mp he.1 p hp)
      have hAll := evalWordParts_eq hParts 0
      rw [evalWord, eval, show (0 : BitVec maxWidth) =
        BitVec.ofNat maxWidth 0 from rfl, hAll]
      apply inWords_bind
      intro v _
      exact cutWord_ofNat _ _

end Expr

end Gatework

------------------------------------------------------------
-- Valid trees
------------------------------------------------------------

namespace Gatework

namespace Expr

variable {Γ : Var → Prop}

theorem inWords_ne_shift
    (result : Except Unbound Nat)
    (amount : Nat) :
    inWords result ≠ .error (.shift amount) := by
  cases result with
  | ok x => exact fun h => by cases h
  | error u => exact fun h => by cases h

/- A typed tree has a value within its width, or misses one. -/
theorem Typed.eval_cases
    {e : Expr}
    (he : e.Typed Γ)
    (ρ : Valuation) :
    (∃ x, e.eval ρ = .ok x ∧ x < 2 ^ e.width) ∨
      ∃ n ∈ e.freeVars.names, ρ n = none ∧
        e.eval ρ = .error ⟨n⟩ := by
  cases hEval : e.eval ρ with
  | ok x => exact Or.inl ⟨x, rfl, he.lt_of_eval_eq_ok hEval⟩
  | error u =>
      rcases missing_of_eval_eq_error hEval with ⟨v, hv, hName, hNone⟩
      have hFree : v.name ∈ e.freeVars.names :=
        (mem_names_freeVars e v.name).mpr (List.mem_map_of_mem hv)
      rw [hName] at hFree hNone
      exact Or.inr ⟨u.name, hFree, hNone, rfl⟩

/-
  A valid tree is 1 to 64 bits wide, and on words of 64 bits
  evaluation gives the same numbers without a shift by 64 or
  more. The value fits the width, or the tree reads a signal
  that has none; if all its signals have one, so has the tree.
  Nothing else about the valuation matters.
-/
theorem valid_evaluates_safely
    {e : Expr}
    (hValid : e.validate = .ok ()) :
    (1 ≤ e.width ∧ e.width ≤ maxWidth) ∧
      (∀ ρ, e.evalWord ρ = inWords (e.eval ρ) ∧
        ∀ amount, e.evalWord ρ ≠ .error (.shift amount)) ∧
      (∀ ρ : Valuation,
        (∃ x, e.eval ρ = .ok x ∧ x < 2 ^ e.width) ∨
          ∃ n ∈ e.freeVars.names, ρ n = none ∧
            e.eval ρ = .error ⟨n⟩) ∧
      (∀ ρ : Valuation,
        (∀ n ∈ e.freeVars.names, (ρ n).isSome = true) →
          ∃ x, e.eval ρ = .ok x) ∧
      ∀ ρ ρ', e.Alike ρ ρ' → e.eval ρ = e.eval ρ' := by
  have he : e.Typed Var.HasName := validate_eq_ok_iff.mp hValid
  refine ⟨⟨he.width_pos, he.width_le⟩, ?_, he.eval_cases, ?_,
    fun _ _ => eval_of_alike⟩
  · intro ρ
    have hWords : e.evalWord ρ = inWords (e.eval ρ) := evalWord_eq he
    refine ⟨hWords, ?_⟩
    rw [hWords]
    exact inWords_ne_shift _
  · intro ρ hBound
    rcases he.eval_cases ρ with ⟨x, hx, _⟩ | ⟨n, hn, hNone, _⟩
    · exact ⟨x, hx⟩
    · have hSome := hBound n hn
      rw [hNone] at hSome
      cases hSome

/- The top bit of a full word above 63 bits of another one. -/
def fullWord : Expr :=
  concat none
    [bit none (var none ⟨"a", 64, false⟩) 63,
      part none (var none ⟨"b", 64, false⟩) 1 63]

/- A value for `a`, and all bits 1 for `b` if it has a value. -/
def fullValues
    (a : Nat)
    (b : Bool) :
    Valuation :=
  fun n =>
    if n = "a" then some a
    else if n = "b" ∧ b then some (2 ^ 64 - 1)
    else none

theorem valid_evaluates_safely_fullWord :
    fullWord.width = 64 ∧
      fullWord.eval (fullValues (2 ^ 63) true) = .ok (2 ^ 64 - 1) ∧
      fullWord.evalWord (fullValues (2 ^ 63) true) =
        .ok (BitVec.allOnes 64) ∧
      fullWord.eval (fullValues (2 ^ 63) false) = .error ⟨"b"⟩ ∧
      fullWord.eval (fullValues (2 ^ 64 + 2 ^ 63) true) =
        fullWord.eval (fullValues (2 ^ 63) true) := by
  have hValue : fullWord.eval (fullValues (2 ^ 63) true) =
      .ok (2 ^ 64 - 1) := by
    decide
  rcases valid_evaluates_safely (e := fullWord) rfl with
    ⟨_, hWords, hCases, _, hAlike⟩
  refine ⟨rfl, hValue, ?_, ?_, ?_⟩
  · rw [(hWords _).1, hValue]
    rfl
  · rcases hCases (fullValues (2 ^ 63) false) with
      ⟨x, hx, _⟩ | ⟨n, hn, hNone, hError⟩
    · cases hx
    · have hNames : fullWord.freeVars.names = ["a", "b"] := rfl
      simp only [hNames, List.mem_cons, List.not_mem_nil,
        or_false] at hn
      rcases hn with rfl | rfl
      · cases hNone
      · exact hError
  · apply hAlike
    unfold Alike
    decide

end Expr

end Gatework
