import Gatework.Lowering.Circuit
import Gatework.Proofs.Lowering.ReadBack

/-
  Places of selects.

  A select of a vector is allowed if it lies within the bounds
  the vector is declared with, and takes the bits it names.
  This holds for numbers below 2 ^ 63. Larger ones are taken
  for the largest bound, which matters only to a vector that
  reaches it.

  Key definitions include:
    * `Hdl.Expr.IsNumeral`, a literal that reads as a number
    * `Scope.Spans`, a signal with its bounds
    * `Lower.Answers`
    * `Lower.Selected`

  Key theorems include:
    * `Lower.answers_range`
    * `Lower.answers_bitSelect` and `Lower.answers_partSelect`
-/

------------------------------------------------------------
-- Numbers and bounds
------------------------------------------------------------

namespace Gatework

/- A literal in any number of parentheses that reads as a number. -/
def Hdl.Expr.IsNumeral
    (strict : Bool)
    (e : Hdl.Expr)
    (n : Nat) :
    Prop :=
  ∃ kind text span l, e.bare = .literal kind text span ∧
    Literal.read kind strict text = .ok l ∧ l.value = n

/- The bounds of a range read as numbers. -/
def Hdl.Range.Reads
    (strict : Bool)
    (r : Hdl.Range)
    (msb lsb : Nat) :
    Prop :=
  r.msb.IsNumeral strict msb ∧ r.lsb.IsNumeral strict lsb

/- The number of bits between two bounds, both included. -/
def bitCount
    (msb lsb : Nat) :
    Nat :=
  max msb lsb - min msb lsb + 1

/- A signal is declared with bounds, and has the bits between. -/
structure Scope.Spans
    (scope : Scope)
    (v : Var)
    (msb lsb : Nat) :
    Prop where
  signal : scope.signals.find? v.name = some v
  width_eq : v.width = bitCount msb lsb
  width_le : v.width ≤ maxWidth
  range : scope.ranges.find? v.name = some (msb, lsb)

/- The bits of a signal from one on, and nothing else. -/
def Expr.TakesBits
    (e : Expr)
    (v : Var)
    (first count : Nat) :
    Prop :=
  e.width = count ∧ ∀ τ k, (e.value τ).testBit k =
    (decide (k < count) && (τ v.name).testBit (first + k))

end Gatework

------------------------------------------------------------
-- Results of steps
------------------------------------------------------------

namespace Gatework

namespace Lower

variable {α β : Type}
variable {s : Setting}
variable {I : Scope → Prop}
variable {P : Except LowerError α → Prop}
variable {Q : Except LowerError β → Prop}

/-
  Where the scope has a property, the result has one too, be
  it a success or not, and the scope keeps its own.
-/
def Answers
    (s : Setting)
    (I : Scope → Prop)
    (m : Lower α)
    (P : Except LowerError α → Prop) :
    Prop :=
  ∀ p, I p.scope → P (m s p).1 ∧ I (m s p).2.scope

theorem answers_pure
    {a : α}
    (ha : P (.ok a)) :
    Answers s I (pure a) P :=
  fun _ hI => ⟨ha, hI⟩

theorem answers_fail
    {e : LowerError}
    (he : P (.error e)) :
    Answers s I (fail e) P :=
  fun _ hI => ⟨he, hI⟩

theorem Answers.bind
    {m : Lower α}
    {f : α → Lower β}
    (hm : Answers s I m P)
    (hOk : ∀ a, P (.ok a) → Answers s I (f a) Q)
    (hError : ∀ e, P (.error e) → Q (.error e)) :
    Answers s I (m >>= f) Q := by
  intro p hI
  have hFirst := hm p hI
  rw [bind_apply]
  generalize m s p = run at hFirst
  rcases run with ⟨result, p'⟩
  cases result with
  | error e => exact ⟨hError e hFirst.1, hFirst.2⟩
  | ok a => exact hOk a hFirst.1 p' hFirst.2

/- A step of which the result is known. -/
theorem Answers.after
    {m : Lower α}
    {f : α → Lower β}
    {a : α}
    (hm : Answers s I m (· = .ok a))
    (hf : Answers s I (f a) Q) :
    Answers s I (m >>= f) Q := by
  apply hm.bind
  · rintro _ ⟨⟩
    exact hf
  · nofun

theorem Answers.imp
    {m : Lower α}
    {P' : Except LowerError α → Prop}
    (hm : Answers s I m P)
    (hP : ∀ r, P r → P' r) :
    Answers s I m P' :=
  fun p hI => ⟨hP _ (hm p hI).1, (hm p hI).2⟩

/- A step that succeeds gives its result. -/
theorem Gets.answers
    {m : Lower α}
    {a : α}
    (hm : Gets I m (· = a)) :
    Answers s I m (· = .ok a) := by
  intro p hI
  rcases hm s p hI with ⟨a, p', hRun, hI', rfl⟩
  rw [hRun]
  exact ⟨rfl, hI'⟩

/- What is read of the setting, the progress or a text is known. -/
theorem answers_read
    {f : Setting → Lower β}
    (hf : Answers s I (f s) Q) :
    Answers s I (read >>= f) Q :=
  fun p hI => hf p hI

theorem answers_get
    {f : Progress → Lower β}
    (hf : ∀ p, I p.scope → Answers s I (f p) Q) :
    Answers s I (get >>= f) Q :=
  fun p hI => hf p hI p hI

theorem answers_textOf
    {f : String → Lower β}
    (hf : ∀ text, Answers s I (f text) Q)
    (span : Span) :
    Answers s I (textOf span >>= f) Q :=
  fun p hI => hf _ p hI

end Lower

end Gatework

------------------------------------------------------------
-- Numerals
------------------------------------------------------------

namespace Gatework

namespace Lower

variable {s : Setting}
variable {I : Scope → Prop}

theorem answers_literal
    {kind : Hdl.LiteralKind}
    {text : String}
    {l : Hdl.Literal}
    (hRead : Hdl.Literal.read kind s.options.strictLiterals text =
      .ok l)
    (span : Span) :
    Answers s I (literal kind text span) (· = .ok l) := by
  unfold literal
  apply answers_read
  rw [hRead]
  dsimp only
  split
  · exact Gets.answers ((gets_log _).bind fun _ _ => gets_pure rfl)
  · exact answers_pure rfl

theorem answers_constant
    {e : Hdl.Expr}
    {n : Nat}
    (he : e.IsNumeral s.options.strictLiterals n) :
    Answers s I (constant e) (· = .ok (some n)) := by
  rcases he with ⟨kind, text, span, l, hBare, hRead, rfl⟩
  unfold constant
  rw [hBare]
  exact (answers_literal hRead span).after (answers_pure rfl)

/- Small bounds are not cut down. -/
theorem min_maxBound
    {n : Nat}
    (hn : n < 2 ^ 63) :
    min n maxBound = n :=
  Nat.min_eq_left (Nat.le_of_lt_succ hn)

theorem answers_bound
    {e : Hdl.Expr}
    {n : Nat}
    (he : e.IsNumeral s.options.strictLiterals n)
    (hn : n < 2 ^ 63) :
    Answers s I (bound e) (· = .ok n) := by
  apply (answers_constant he).after
  dsimp only
  rw [min_maxBound hn]
  exact answers_pure rfl

/- A range is taken if there are at most 64 bits between its bounds. -/
theorem answers_range
    {r : Hdl.Range}
    {msb lsb : Nat}
    (hr : r.Reads s.options.strictLiterals msb lsb)
    (hMsb : msb < 2 ^ 63)
    (hLsb : lsb < 2 ^ 63) :
    Answers s I (range (some r)) (· =
      if 64 < bitCount msb lsb then
        .error (.unsupported
          ("vector of " ++ toString (bitCount msb lsb)
            ++ " bits; at most " ++ toString maxWidth
            ++ " are supported") r.span)
      else
        .ok (bitCount msb lsb, some (msb, lsb))) := by
  apply (answers_bound hr.1 hMsb).after
  apply (answers_bound hr.2 hLsb).after
  dsimp only
  split
  case isTrue hWide =>
      apply answers_fail
      exact (if_pos hWide).symm
  case isFalse hFits =>
      apply answers_pure
      exact (if_neg hFits).symm

end Lower

end Gatework

------------------------------------------------------------
-- Selects
------------------------------------------------------------

namespace Gatework

namespace Scope

variable {scope : Scope}
variable {v : Var}
variable {msb lsb : Nat}

/- What is declared is so in each scope that agrees. -/
theorem Spans.agrees
    {other : Scope}
    (hv : scope.Spans v msb lsb)
    (hAgrees : scope.Agrees other) :
    other.Spans v msb lsb where
  signal := hAgrees.1 ▸ hv.signal
  width_eq := hv.width_eq
  width_le := hv.width_le
  range := hAgrees.2 ▸ hv.range

end Scope

namespace Expr

variable {v : Var}
variable {e : Expr}

/- Bits of a number within a width, cut out of it. -/
theorem testBit_cut
    {width first count : Nat}
    (hMax : width ≤ maxWidth)
    (hInside : first + count ≤ width)
    (x k : Nat) :
    (((x &&& mask width) >>> first) &&& mask count).testBit k =
      (decide (k < count) && x.testBit (first + k)) := by
  rw [Nat.testBit_and, Nat.testBit_shiftRight, testBit_mask]
  by_cases hk : k < count
  · have hIn : first + k < width := by
      omega
    have hMin : k < min count maxWidth := by
      omega
    rw [testBit_and_mask hMax hIn, decide_eq_true hk,
      decide_eq_true hMin, Bool.and_true, Bool.true_and]
  · have hMin : ¬ k < min count maxWidth := by
      omega
    rw [decide_eq_false hk, decide_eq_false hMin, Bool.and_false,
      Bool.false_and]

/- A bit of a signal below its width. -/
theorem takesBits_bit
    {i : Nat}
    (hSame : e.unmarked = bit none (var none v) i)
    (hi : i < v.width)
    (hMax : v.width ≤ maxWidth) :
    e.TakesBits v i 1 := by
  have hBit : e.unmarked = (bit none (var none v) i).unmarked := hSame
  refine ⟨width_eq_of_unmarked hBit, fun τ k => ?_⟩
  rw [value_eq_of_unmarked hBit, value, value]
  exact testBit_cut hMax hi (τ v.name) k

/- The bits of a signal between two places below its width. -/
theorem takesBits_part
    {h l : Nat}
    (hSame : e.unmarked = part none (var none v) h l)
    (hh : h < v.width)
    (hl : l < v.width)
    (hMax : v.width ≤ maxWidth) :
    e.TakesBits v (min h l) (bitCount h l) := by
  have hPart : e.unmarked = (part none (var none v) h l).unmarked :=
    hSame
  have hWidth : (part none (var none v) h l).width = bitCount h l :=
    rfl
  have hInside : min h l + bitCount h l ≤ v.width := by
    unfold bitCount
    omega
  refine ⟨(width_eq_of_unmarked hPart).trans hWidth, fun τ k => ?_⟩
  rw [value_eq_of_unmarked hPart, value, value, hWidth]
  exact testBit_cut hMax hInside (τ v.name) k

end Expr

namespace Lower

variable {s : Setting}
variable {scope : Scope}
variable {v : Var}
variable {msb lsb : Nat}

section

variable {I : Scope → Prop}

/- A node that passes its check is only marked. -/
theorem answers_node
    {e : Expr}
    (he : e.checkNode = .ok ()) :
    Answers s I (node e)
      (fun r => ∃ x, r = .ok x ∧ x.unmarked = e.unmarked) := by
  have hMake : e.make = .ok e := by
    rw [Expr.make, he]
    rfl
  unfold node
  rw [hMake]
  intro p hI
  exact ⟨⟨_, rfl, Expr.unmarked_stamp e p.marks⟩, hI⟩

/-
  A place counts from the low bound, if the signal reaches
  there. No number is cut down to a place of the signal.
-/
theorem answers_position
    {bound : Hdl.Expr}
    {i low : Nat}
    (hBound : bound.IsNumeral s.options.strictLiterals i)
    (hSmall : i < 2 ^ 63 ∨ low + v.width < 2 ^ 63)
    (base : Hdl.Expr)
    (span : Span) :
    Answers s I (position v low base bound span) (fun r =>
      (low ≤ i ∧ i < low + v.width ∧ r = .ok (i - low)) ∨
      ((i < low ∨ low + v.width ≤ i) ∧
        ∃ select, r = .error (.selectOutside v.name select span))) := by
  have hMax : maxBound = 2 ^ 63 - 1 := rfl
  apply (answers_constant hBound).after
  dsimp only
  split
  case isTrue hOutside =>
      apply answers_textOf
      intro text
      apply answers_textOf
      intro front
      apply answers_fail
      refine .inr ⟨?_, _, rfl⟩
      omega
  case isFalse hInside =>
      have hSame : min i maxBound = i := by
        omega
      rw [hSame] at hInside ⊢
      apply answers_pure
      exact .inl ⟨by omega, by omega, rfl⟩

end

/- A select is taken of the signal its base names. -/
theorem answers_selectBase
    (hv : scope.Spans v msb lsb)
    {base : Hdl.Expr}
    {place : Span}
    (hBase : base.bare = .name v.name place)
    (span : Span) :
    Answers s scope.Agrees (selectBase base span)
      (· = .ok (v, min msb lsb)) := by
  unfold selectBase
  rw [hBase]
  have hLookup : Answers s scope.Agrees (lookup v.name place)
      (· = .ok v) := by
    apply answers_get
    intro p hp
    rw [hp.1, hv.signal]
    exact answers_pure rfl
  have hLow : Answers s scope.Agrees (lowBound v.name)
      (· = .ok (min msb lsb)) := by
    apply answers_get
    intro p hp
    rw [hp.2, hv.range]
    exact answers_pure rfl
  exact hLookup.after (hLow.after (answers_pure rfl))

/-
  A select of places that is exact: it is refused if one of
  them is out of bounds, and else is what it should be.
-/
def Selected
    (v : Var)
    (msb lsb : Nat)
    (places : List Nat)
    (span : Span)
    (P : Expr → Prop) :
    Except LowerError Expr → Prop
  | .ok e => (∀ i ∈ places, min msb lsb ≤ i ∧ i ≤ max msb lsb) ∧ P e
  | .error e => (∃ i ∈ places, i < min msb lsb ∨ max msb lsb < i) ∧
      ∃ select, e = .selectOutside v.name select span

section

variable (hv : scope.Spans v msb lsb)
variable {base : Hdl.Expr}
variable {place : Span}
variable (hBase : base.bare = .name v.name place)
variable (span : Span)

include hv hBase

/- The one bit that an index names. -/
theorem answers_bitSelect
    {index : Hdl.Expr}
    {i : Nat}
    (hIndex : index.IsNumeral s.options.strictLiterals i)
    (hSmall : i < 2 ^ 63 ∨ max msb lsb < 2 ^ 63 - 1) :
    Answers s scope.Agrees (bitSelect base index span)
      (Selected v msb lsb [i] span fun e =>
        e.unmarked = .bit none (.var none v) (i - min msb lsb) ∧
          e.TakesBits v (i - min msb lsb) 1) := by
  have hWidth := hv.width_eq
  unfold bitCount at hWidth
  apply (answers_selectBase hv hBase span).after
  dsimp only
  apply (answers_position hIndex (v := v) (by omega) base span).bind
  case hError =>
      rintro _ (⟨_, _, ⟨⟩⟩ | ⟨hOutside, select, ⟨⟩⟩)
      refine ⟨⟨i, List.mem_singleton_self i, ?_⟩, select, rfl⟩
      omega
  case hOk =>
      rintro _ (⟨hLow, hHigh, ⟨⟩⟩ | ⟨_, _, ⟨⟩⟩)
      have hInside : i - min msb lsb < v.width := by
        omega
      have hCheck : (Expr.bit none (Expr.ofVar v)
          (i - min msb lsb)).checkNode = .ok () :=
        if_pos hInside
      apply (answers_node hCheck).imp
      rintro _ ⟨e, rfl, hSame⟩
      refine ⟨?_, hSame,
        Expr.takesBits_bit hSame hInside hv.width_le⟩
      intro j hj
      rw [List.mem_singleton.mp hj]
      omega

/- The bits between the two places that a slice names. -/
theorem answers_partSelect
    {first last : Hdl.Expr}
    {a b : Nat}
    (hFirst : first.IsNumeral s.options.strictLiterals a)
    (hLast : last.IsNumeral s.options.strictLiterals b)
    (hSmallFirst : a < 2 ^ 63 ∨ max msb lsb < 2 ^ 63 - 1)
    (hSmallLast : b < 2 ^ 63 ∨ max msb lsb < 2 ^ 63 - 1) :
    Answers s scope.Agrees (partSelect base first last span)
      (Selected v msb lsb [a, b] span fun e =>
        e.unmarked = .part none (.var none v) (a - min msb lsb)
          (b - min msb lsb) ∧
        e.TakesBits v (min a b - min msb lsb) (bitCount a b)) := by
  have hWidth := hv.width_eq
  unfold bitCount at hWidth
  apply (answers_selectBase hv hBase span).after
  dsimp only
  apply (answers_position hFirst (v := v) (by omega) base span).bind
  case hError =>
      rintro _ (⟨_, _, ⟨⟩⟩ | ⟨hOutside, select, ⟨⟩⟩)
      refine ⟨⟨a, List.mem_cons_self, ?_⟩, select, rfl⟩
      omega
  case hOk =>
      rintro _ (⟨hLow, hHigh, ⟨⟩⟩ | ⟨_, _, ⟨⟩⟩)
      apply (answers_position hLast (v := v) (by omega) base span).bind
      case hError =>
          rintro _ (⟨_, _, ⟨⟩⟩ | ⟨hOutside, select, ⟨⟩⟩)
          refine ⟨⟨b, List.mem_cons_of_mem _ List.mem_cons_self, ?_⟩,
            select, rfl⟩
          omega
      case hOk =>
          rintro _ (⟨hLow', hHigh', ⟨⟩⟩ | ⟨_, _, ⟨⟩⟩)
          have ha : a - min msb lsb < v.width := by
            omega
          have hb : b - min msb lsb < v.width := by
            omega
          have hCheck : (Expr.part none (Expr.ofVar v)
              (a - min msb lsb) (b - min msb lsb)).checkNode =
                .ok () :=
            if_pos (Nat.max_lt.mpr ⟨ha, hb⟩)
          apply (answers_node hCheck).imp
          rintro _ ⟨e, rfl, hSame⟩
          have hTakes := Expr.takesBits_part hSame ha hb
            hv.width_le
          have hPlace : min (a - min msb lsb) (b - min msb lsb) =
              min a b - min msb lsb := by
            omega
          have hCount : bitCount (a - min msb lsb)
              (b - min msb lsb) = bitCount a b := by
            unfold bitCount
            omega
          rw [hPlace, hCount] at hTakes
          refine ⟨?_, hSame, hTakes⟩
          simp only [List.forall_mem_cons, List.not_mem_nil,
            false_imp_iff, implies_true, and_true]
          omega

end

end Lower

end Gatework
