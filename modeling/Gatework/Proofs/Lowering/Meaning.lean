import Gatework.Proofs.Hdl.Literal
import Gatework.Proofs.Hdl.Names
import Gatework.Proofs.Lowering.Context

/-
  What expressions of a source mean.

  The meaning of an expression is a number for all values of
  the signals. Most expressions have a width of their own. A
  literal without a size takes the width of what it is
  combined with, and its own number of bits where there is
  nothing. Meanings are given on the tree alone, without the
  logic it is lowered to.

  Key definitions include:
    * `Meaning`
    * `Hdl.LiteralKind.meaning` and `Hdl.Expr.meaning`
    * `Hdl.Expr.names` and `Hdl.Expr.bounds`, the signals of
      an expression and the bounds of its selects
    * `Hdl.Expr.Selects`, the bits that an expression names

  Key theorems include:
    * `Hdl.Literal.shows_read`
    * `Hdl.Expr.over_of_names`
-/

------------------------------------------------------------
-- Meanings
------------------------------------------------------------

namespace Gatework

/-
  A number for all values of the signals. An open one has a
  value at every width and a width it takes by itself; the
  value of any other does not depend on a width.
-/
structure Meaning where
  isOpen : Bool
  width : Nat
  value : (String → Nat) → Nat → Nat

namespace Meaning

/- A number with a width of its own. -/
def fixed
    (width : Nat)
    (value : (String → Nat) → Nat) :
    Meaning :=
  ⟨false, width, fun τ _ => value τ⟩

/- A number without a width. -/
def free
    (n : Nat) :
    Meaning :=
  ⟨true, Hdl.bitLength n, fun _ _ => n⟩

/- A bit that fills every width. -/
def filling
    (b : Bool) :
    Meaning :=
  ⟨true, 1, fun _ width => if b then 2 ^ width - 1 else 0⟩

/- What is no expression of the language. -/
def absent : Meaning :=
  fixed 1 fun _ => 0

/- The value at the width it takes by itself. -/
def own
    (m : Meaning)
    (τ : String → Nat) :
    Nat :=
  m.value τ m.width

/- As a condition, everything but 0 holds. -/
def holds
    (m : Meaning)
    (τ : String → Nat) :
    Bool :=
  m.own τ != 0

/- The width at which two numbers are combined. -/
def common
    (a b : Meaning) :
    Nat :=
  match a.isOpen, b.isOpen with
  | true, true => max a.width b.width
  | true, false => b.width
  | false, _ => a.width

/- A number from two at their common width. -/
def both
    (a b : Meaning)
    (f : (String → Nat) → Nat → Nat → Nat) :
    Meaning :=
  let width := a.common b
  fixed width fun τ => f τ (a.value τ width) (b.value τ width)

/- One bit, 1 where a test succeeds. -/
def test
    (f : (String → Nat) → Bool) :
    Meaning :=
  fixed 1 fun τ => (f τ).toNat

/- Numbers are equal at their common width. -/
def equals
    (a b : Meaning)
    (τ : String → Nat) :
    Bool :=
  let width := a.common b
  a.value τ width == b.value τ width

/- All bits turned over. -/
def inverted
    (m : Meaning) :
    Meaning :=
  fixed m.width fun τ => 2 ^ m.width - 1 - m.own τ

/- Numbers side by side, the first in the highest place. -/
def joined
    (ms : List Meaning) :
    Meaning :=
  fixed (ms.map width).sum fun τ =>
    ms.foldl (fun high m => high * 2 ^ m.width + m.own τ) 0

end Meaning

end Gatework

------------------------------------------------------------
-- Literals
------------------------------------------------------------

namespace Gatework

/- The number that digits write, where others count as 0. -/
def Radix.written
    (radix : Radix)
    (cs : List Char) :
    Nat :=
  cs.foldl
    (fun n c => n * radix.size + (radix.digit? c).getD 0) 0

namespace Hdl

/- A literal that consists of a size, a radix and digits. -/
def basedMeaning
    (cs : List Char) :
    Meaning :=
  let size := cs.takeWhile (· != '\x27')
  let rest := (cs.dropWhile (· != '\x27')).tail
  match (Literal.splitSign rest).2 with
  | [] => .absent
  | letter :: digits =>
      match Radix.ofLetter? letter with
      | none => .absent
      | some radix =>
          let n := radix.written digits
          if size = [] then
            .free n
          else
            let width := Radix.decimal.written size
            .fixed width fun _ => n % 2 ^ width

/- What the text of a literal means. -/
def LiteralKind.meaning
    (kind : LiteralKind)
    (text : String) :
    Meaning :=
  let cs := Literal.significant text
  match kind with
  | .int => .free (Radix.decimal.written cs)
  | .fill => .filling (cs.getLast? == some '1')
  | .based => basedMeaning cs

theorem digit?_of_isUnknownDigit
    {radix : Radix}
    {c : Char}
    (hUnknown : isUnknownDigit c = true) :
    radix.digit? c = none := by
  simp only [isUnknownDigit, Bool.or_eq_true, beq_iff_eq]
    at hUnknown
  rcases hUnknown with (((rfl | rfl) | rfl) | rfl) | rfl <;>
    cases radix <;> rfl

theorem looseDigit?_eq_some
    {radix : Radix}
    {c : Char}
    {d : Nat}
    (hDigit : looseDigit? radix c = some d) :
    (radix.digit? c).getD 0 = d := by
  unfold looseDigit? at hDigit
  split at hDigit
  case isTrue hUnknown =>
      cases hDigit
      rw [digit?_of_isUnknownDigit hUnknown]
      rfl
  case isFalse => rw [hDigit]; rfl

theorem digit?_decimal
    {c : Char}
    (hc : c.isDigit = true) :
    Radix.decimal.digit? c = some (c.toNat - 48) := by
  have hRange : 48 ≤ c.toNat ∧ c.toNat ≤ 57 := by
    simp only [Char.isDigit, Bool.and_eq_true, decide_eq_true_eq]
      at hc
    exact hc
  have hSmall : decide (c.toNat - 48 < Radix.decimal.size) =
      true := by
    rw [decide_eq_true_eq, Radix.size]
    omega
  unfold Radix.digit?
  rw [if_pos hc, Option.filter_some, if_pos hSmall]

/- Digits appended one by one to a number. -/
theorem appendDigits?_eq_some
    {radix : Radix}
    {cs : List Char}
    {n x : Nat}
    (hDigits : appendDigits? radix cs n = some x) :
    cs.foldl
      (fun n c => n * radix.size + (radix.digit? c).getD 0) n
        = x := by
  induction cs generalizing n with
  | nil =>
      cases hDigits
      rfl
  | cons c cs ih =>
      rw [appendDigits?, Option.bind_eq_bind,
        Option.bind_eq_some_iff] at hDigits
      rcases hDigits with ⟨d, hDigit, hRest⟩
      split at hRest
      case isTrue =>
          rw [List.foldl_cons, looseDigit?_eq_some hDigit]
          exact ih hRest
      case isFalse => cases hRest

theorem foldl_decimal
    {cs : List Char}
    (hAll : cs.all Char.isDigit = true)
    (n : Nat) :
    cs.foldl (fun acc c => 10 * acc + (c.toNat - 48)) n =
      cs.foldl (fun n c => n * Radix.decimal.size +
        (Radix.decimal.digit? c).getD 0) n := by
  induction cs generalizing n with
  | nil => rfl
  | cons c cs ih =>
      rw [List.all_cons, Bool.and_eq_true] at hAll
      rw [List.foldl_cons, List.foldl_cons, ih hAll.2,
        digit?_decimal hAll.1, Nat.mul_comm]
      rfl

/- A plus sign in front adds nothing to a number. -/
theorem written_of_readDecimal?
    {bound n : Nat}
    {cs : List Char}
    (hRead : readDecimal? bound cs = some n) :
    Radix.decimal.written cs = n := by
  simp only [readDecimal?, Option.ite_none_left_eq_some,
    Option.ite_none_right_eq_some, Option.some.injEq,
    Bool.or_eq_true, Bool.not_eq_true', not_or] at hRead
  rcases hRead with ⟨⟨_, hAll⟩, _, hValue⟩
  rw [Bool.not_eq_false] at hAll
  rw [← hValue, foldl_decimal hAll]
  split
  · rfl
  · rfl

theorem written_of_unknown
    {radix : Radix}
    {cs : List Char}
    (hAll : cs.all isUnknownDigit = true) :
    radix.written cs = 0 := by
  unfold Radix.written
  induction cs with
  | nil => rfl
  | cons c cs ih =>
      rw [List.all_cons, Bool.and_eq_true] at hAll
      rw [List.foldl_cons, digit?_of_isUnknownDigit hAll.1,
        Nat.zero_mul]
      exact ih hAll.2

theorem written_of_writtenBy?
    {radix : Radix}
    {digits : List Char}
    {n : Nat}
    (hWritten : writtenBy? radix digits = some n) :
    radix.written digits = n := by
  cases radix with
  | decimal =>
      rw [writtenBy?] at hWritten
      split at hWritten
      case isTrue hAll =>
          cases hWritten
          exact written_of_unknown hAll
      case isFalse => exact written_of_readDecimal? hWritten
  | binary => exact appendDigits?_eq_some hWritten
  | octal => exact appendDigits?_eq_some hWritten
  | hex => exact appendDigits?_eq_some hWritten

theorem splitTick?_eq_some
    {cs size rest : List Char}
    (hSplit : Literal.splitTick? cs = some (size, rest)) :
    size = cs.takeWhile (· != '\x27') ∧
      rest = (cs.dropWhile (· != '\x27')).tail := by
  induction cs generalizing size with
  | nil => cases hSplit
  | cons c cs ih =>
      rw [Literal.splitTick?] at hSplit
      split at hSplit
      case isTrue hTick =>
          cases hSplit
          subst hTick
          simp
      case isFalse hTick =>
          rcases Option.map_eq_some_iff.mp hSplit with
            ⟨⟨size', rest'⟩, hRest, hSame⟩
          cases hSame
          rcases ih hRest with ⟨rfl, rfl⟩
          simp [hTick]

namespace Literal

/- The value of a literal without a size at a width. -/
def valueAt
    (l : Literal)
    (width : Nat) :
    Nat :=
  match l.fill with
  | some b => if b then 2 ^ width - 1 else 0
  | none => l.value

def meaning
    (l : Literal) :
    Meaning :=
  if l.sized then
    .fixed l.width fun _ => l.value
  else
    ⟨true, l.width, fun _ width => l.valueAt width⟩

/- The digits of a literal give its value and its width. -/
structure Shows
    (l : Literal)
    (m : Meaning) :
    Prop where
  meaning_eq : l.meaning = m
  own_eq : l.valueAt l.width = l.value

theorem shows_unsized
    (n : Nat)
    (base : Radix)
    (text : String) :
    (unsized n base text).Shows (.free n) :=
  ⟨rfl, rfl⟩

/- One bit is as wide as it is written. -/
theorem shows_fill
    (b : Bool)
    (text : String) :
    ({ unsized b.toNat .binary text with
      fill := some b } : Literal).Shows (.filling b) := by
  cases b with
  | true => exact ⟨rfl, rfl⟩
  | false => exact ⟨rfl, rfl⟩

theorem shows_sizedBy
    {size : List Char}
    {written : Nat}
    {base : Radix}
    {text : String}
    {l : Literal}
    (hSized : sizedBy size written base text = .ok l)
    (signed : Bool) :
    ({ l with signed } : Literal).Shows
      (if size = [] then
        .free written
      else
        .fixed (Radix.decimal.written size)
          fun _ => written % 2 ^ Radix.decimal.written size) := by
  unfold sizedBy at hSized
  split at hSized
  case isTrue hNone =>
      cases hSized
      rw [if_pos (List.isEmpty_iff.mp hNone)]
      exact ⟨rfl, rfl⟩
  case isFalse hSome =>
      split at hSized
      case h_1 => cases hSized
      case h_2 width hWidth =>
          split at hSized
          case isTrue => cases hSized
          case isFalse hMax =>
              split at hSized
              case isTrue => cases hSized
              case isFalse =>
                  cases hSized
                  rw [if_neg fun h => hSome (List.isEmpty_iff.mpr h),
                    written_of_readDecimal? hWidth,
                    ← and_mask (Nat.le_of_not_lt hMax)]
                  exact ⟨rfl, rfl⟩

theorem shows_readBased
    {strict : Bool}
    {cs size rest : List Char}
    {text : String}
    {l : Literal}
    (hSplit : splitTick? cs = some (size, rest))
    (hRead : readBased strict size rest text = .ok l) :
    l.Shows (basedMeaning cs) := by
  rcases splitTick?_eq_some hSplit with ⟨hSize, hRest⟩
  unfold readBased at hRead
  dsimp only at hRead
  split at hRead
  case h_1 => cases hRead
  case h_2 letter digits hMarked =>
      split at hRead
      case h_1 => cases hRead
      case h_2 base hBase =>
          split at hRead
          case isTrue => cases hRead
          case isFalse =>
              split at hRead
              case h_1 => cases hRead
              case h_2 written hWritten =>
                  rcases bind_eq_ok_iff.mp hRead with
                    ⟨l', hSized, hSame⟩
                  cases hSame
                  simp only [basedMeaning, ← hRest, ← hSize,
                    hMarked, hBase,
                    written_of_writtenBy? hWritten]
                  exact shows_sizedBy hSized _

/- A literal that can be read means what its text means. -/
theorem shows_read
    {kind : LiteralKind}
    {strict : Bool}
    {text : String}
    {l : Literal}
    (hRead : read kind strict text = .ok l) :
    l.Shows (kind.meaning text) := by
  unfold read at hRead
  dsimp only at hRead
  cases kind with
  | int =>
      dsimp only at hRead
      split at hRead
      case h_1 => cases hRead
      case h_2 n hDecimal =>
          cases hRead
          rw [LiteralKind.meaning,
            written_of_readDecimal? hDecimal]
          exact shows_unsized n _ text
  | fill =>
      dsimp only at hRead
      split at hRead
      case isTrue => cases hRead
      case isFalse =>
          cases hRead
          have hOne :
              ((significant text).getLast? == some '1') =
                ((significant text).getLastD '0' == '1') := by
            rw [List.getLastD_eq_getLast?]
            cases (significant text).getLast? with
            | none => rfl
            | some c => rfl
          rw [LiteralKind.meaning, hOne]
          exact shows_fill _ text
  | based =>
      dsimp only at hRead
      split at hRead
      case h_1 => cases hRead
      case h_2 size rest hSplit =>
          exact shows_readBased hSplit hRead

theorem value_resized?
    {c d : Const}
    {width : Nat}
    (hResized : c.resized? width = some d) :
    d.value = c.value := by
  unfold Const.resized? at hResized
  split at hResized
  case h_1 d' hMake =>
      rcases Const.make_eq_ok_iff.mp hMake with ⟨_, rfl⟩
      cases hResized
      rfl
  case h_2 => cases hResized

/- The value of a literal brought to a width. -/
theorem value_fit?
    {l : Literal}
    (hUnsized : l.sized = false)
    {width : Nat}
    {c : Const}
    (hFit : l.fit? width = some c) :
    c.value = l.valueAt width := by
  unfold fit? at hFit
  split at hFit
  case isTrue => cases hFit
  case isFalse hRange =>
      have hIn : inRange width = true := by
        simpa using hRange
      rcases inRange_iff.mp hIn with ⟨hPos, hMax⟩
      split at hFit
      case h_1 one hFill =>
          cases hFit
          rw [valueAt, hFill]
          cases one with
          | true =>
              change mask (clampWidth width) = 2 ^ width - 1
              rw [clampWidth_eq hPos hMax, mask_of_le hMax]
          | false => rfl
      case h_2 hFill =>
          rw [hUnsized] at hFit
          rw [valueAt, hFill]
          exact value_resized? hFit

end Literal

end Hdl

end Gatework

------------------------------------------------------------
-- Expressions
------------------------------------------------------------

namespace Gatework.Hdl

/- A bitwise operator on numbers of a width. -/
def BinaryOp.onNumbers
    (op : BinaryOp)
    (width x y : Nat) :
    Nat :=
  match op with
  | bitOr => x ||| y
  | bitXor => x ^^^ y
  | bitXnor => 2 ^ width - 1 - (x ^^^ y)
  | _ => x &&& y

/- An operator on two meanings. -/
def BinaryOp.combine
    (op : BinaryOp)
    (a b : Meaning) :
    Meaning :=
  match op with
  | eq => .test fun τ => a.equals b τ
  | neq => .test fun τ => !a.equals b τ
  | logAnd => .test fun τ => a.holds τ && b.holds τ
  | logOr => .test fun τ => a.holds τ || b.holds τ
  | _ => a.both b fun _ x y => op.onNumbers (a.common b) x y

namespace Expr

/- The number a literal in parentheses writes. -/
def number
    (e : Expr) :
    Nat :=
  match e.bare with
  | literal kind text _ => (kind.meaning text).own fun _ => 0
  | _ => 0

/- The value of a signal at the width of its name. -/
def signal
    (scope : Scope)
    (n : String) :
    Meaning :=
  let width := widthIn scope.signals n
  .fixed width fun τ => τ n % 2 ^ width

/- Bits of a signal, numbered from its low bound on. -/
def selected
    (scope : Scope)
    (base : Expr)
    (msb lsb : Nat) :
    Meaning :=
  match base.bare with
  | name n _ =>
      let first := min msb lsb - scope.low n
      let width := max msb lsb - min msb lsb + 1
      .fixed width fun τ =>
        (signal scope n).own τ / 2 ^ first % 2 ^ width
  | _ => .absent

mutual

/-
  What an expression means in a scope, which gives the widths
  and the bounds of its signals.
-/
def meaning
    (scope : Scope) :
    Expr → Meaning
  | name n _ => signal scope n
  | literal kind text _ => kind.meaning text
  | index base i _ => selected scope base i.number i.number
  | slice base m l _ => selected scope base m.number l.number
  | concat es _ => .joined (meanings scope es)
  | replicate count es _ =>
      .joined
        (List.replicate count.number (meanings scope es)).flatten
  | unary op x _ =>
      match op with
      | .logNot => .test fun τ => !(meaning scope x).holds τ
      | .bitNot => (meaning scope x).inverted
      | _ => .absent
  | binary a op b _ => op.combine (meaning scope a) (meaning scope b)
  | ternary c t f _ =>
      (meaning scope t).both (meaning scope f) fun τ x y =>
        if (meaning scope c).holds τ then x else y
  | paren e _ => meaning scope e
  | broken _ => .absent

def meanings
    (scope : Scope) :
    List Expr → List Meaning
  | [] => []
  | e :: es => meaning scope e :: meanings scope es

end

mutual

/- The names of the signals in an expression. -/
def names : Expr → List String
  | name n _ => [n]
  | literal _ _ _ => []
  | index b i _ => names b ++ names i
  | slice b m l _ => names b ++ (names m ++ names l)
  | concat es _ => namesAll es
  | replicate c es _ => names c ++ namesAll es
  | unary _ x _ => names x
  | binary a _ b _ => names a ++ names b
  | ternary c t f _ => names c ++ (names t ++ names f)
  | paren e _ => names e
  | broken _ => []

def namesAll : List Expr → List String
  | [] => []
  | e :: es => names e ++ namesAll es

end

mutual

/- The bounds of the selects in an expression. -/
def bounds : Expr → List Nat
  | name _ _ => []
  | literal _ _ _ => []
  | index _ i _ => [i.number]
  | slice _ m l _ => [m.number, l.number]
  | concat es _ => boundsAll es
  | replicate _ es _ => boundsAll es
  | unary _ x _ => bounds x
  | binary a _ b _ => bounds a ++ bounds b
  | ternary c t f _ => bounds c ++ (bounds t ++ bounds f)
  | paren e _ => bounds e
  | broken _ => []

def boundsAll : List Expr → List Nat
  | [] => []
  | e :: es => bounds e ++ boundsAll es

end

/- Every bound of a select is below 2 to the power of 63. -/
def Bounded
    (e : Expr) :
    Prop :=
  ∀ n ∈ e.bounds, n < 2 ^ 63

instance
    (e : Expr) :
    Decidable e.Bounded :=
  inferInstanceAs (Decidable (∀ n ∈ e.bounds, n < 2 ^ 63))

/- A bit of a signal that a select with these bounds takes. -/
def SelectsBetween
    (scope : Scope)
    (base : Expr)
    (msb lsb : Nat)
    (n : String)
    (i : Nat) :
    Prop :=
  (∃ place, base.bare = name n place) ∧
    min msb lsb ≤ scope.low n + i ∧ scope.low n + i ≤ max msb lsb

theorem selectsBetween_iff
    {scope : Scope}
    {base : Expr}
    {n m : String}
    {place : Span}
    (hBare : base.bare = name n place)
    {msb lsb i : Nat} :
    base.SelectsBetween scope msb lsb m i ↔
      n = m ∧ min msb lsb ≤ scope.low n + i ∧
        scope.low n + i ≤ max msb lsb := by
  unfold SelectsBetween
  rw [hBare]
  constructor
  · rintro ⟨⟨_, hSame⟩, hBetween⟩
    cases hSame
    exact ⟨rfl, hBetween⟩
  · rintro ⟨rfl, hBetween⟩
    exact ⟨⟨place, rfl⟩, hBetween⟩

/-
  A bit of a signal, counted from 0, that an expression names:
  any bit by the name of the signal alone.
-/
def Selects
    (scope : Scope)
    (e : Expr)
    (n : String)
    (i : Nat) :
    Prop :=
  match e.bare with
  | name m _ => m = n ∧ i < widthIn scope.signals m
  | index base x _ => base.SelectsBetween scope x.number x.number n i
  | slice base m l _ => base.SelectsBetween scope m.number l.number n i
  | _ => False

theorem bounds_bare
    (e : Expr) :
    e.bare.bounds = e.bounds :=
  bare_congr (fun _ _ => rfl) e

theorem mem_namesAll
    {n : String}
    {es : List Expr} :
    n ∈ namesAll es ↔ ∃ e ∈ es, n ∈ e.names := by
  induction es with
  | nil => simp [namesAll]
  | cons e es ih => simp [namesAll, ih]

theorem mem_boundsAll
    {n : Nat}
    {es : List Expr} :
    n ∈ boundsAll es ↔ ∃ e ∈ es, n ∈ e.bounds := by
  induction es with
  | nil => simp [boundsAll]
  | cons e es ih => simp [boundsAll, ih]

/- What holds of all its names holds throughout a tree. -/
theorem over_of_names
    {N : String → Prop}
    {e : Expr}
    (hNames : ∀ n ∈ e.names, N n) :
    e.Over N True := by
  have hAll : ∀ es : List Expr,
      (∀ e ∈ es, (∀ n ∈ e.names, N n) → e.Over N True) →
      (∀ n ∈ namesAll es, N n) → OverAll N True es := by
    intro es ih hNames
    apply overAll_iff.mpr
    intro e he
    apply ih e he
    intro n hn
    exact hNames n (mem_namesAll.mpr ⟨e, he, hn⟩)
  induction e with
  | name n s => exact hNames n (List.mem_singleton_self n)
  | literal k t s => trivial
  | broken s => trivial
  | index b i s ihBase ihIndex =>
      rcases List.forall_mem_append.mp hNames with ⟨hb, hi⟩
      exact ⟨ihBase hb, ihIndex hi⟩
  | slice b m l s ihBase ihMsb ihLsb =>
      rcases List.forall_mem_append.mp hNames with ⟨hb, hml⟩
      rcases List.forall_mem_append.mp hml with ⟨hm, hl⟩
      exact ⟨ihBase hb, ihMsb hm, ihLsb hl⟩
  | concat es s ih => exact ⟨fun _ => trivial, hAll es ih hNames⟩
  | replicate c es s ihCount ih =>
      rcases List.forall_mem_append.mp hNames with ⟨hc, hes⟩
      exact ⟨ihCount hc, fun _ => trivial, hAll es ih hes⟩
  | unary op x s ih => exact ih hNames
  | binary a op b s iha ihb =>
      rcases List.forall_mem_append.mp hNames with ⟨ha, hb⟩
      exact ⟨iha ha, ihb hb⟩
  | ternary c t f s ihc iht ihf =>
      rcases List.forall_mem_append.mp hNames with ⟨hc, htf⟩
      rcases List.forall_mem_append.mp htf with ⟨ht, hf⟩
      exact ⟨ihc hc, iht ht, ihf hf⟩
  | paren e s ih => exact ih hNames

end Expr

end Gatework.Hdl
