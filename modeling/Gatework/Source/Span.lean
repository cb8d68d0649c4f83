/-
  Spans: ranges of bytes in one source file.

  Key definitions include:
    * `Span`, half open, in a file or in none
    * `Span.merge`
    * `Span.length` and `Span.isEmpty`
-/

namespace Gatework

/-
  The bytes from `start` up to but not including `stop`. A
  span without a file stands for no place at all.
-/
structure Span where
  file : Option Nat
  start : Nat
  stop : Nat
deriving DecidableEq, Repr, Inhabited

namespace Span

/- The span of what has no place in a source. -/
def nowhere : Span :=
  ⟨none, 0, 0⟩

/-
  The smallest span that covers both. Spans of two files
  have none, and the first one stands.
-/
def merge
    (a b : Span) :
    Span :=
  if a.file = b.file then
    ⟨a.file, min a.start b.start, max a.stop b.stop⟩
  else
    a

def length
    (s : Span) :
    Nat :=
  s.stop - s.start

def isEmpty
    (s : Span) :
    Bool :=
  decide (s.stop ≤ s.start)

/- One span lies inside another. -/
def Within
    (a b : Span) :
    Prop :=
  a.file = b.file ∧ b.start ≤ a.start ∧ a.stop ≤ b.stop

end Span

end Gatework
