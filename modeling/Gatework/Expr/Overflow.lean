import Gatework.Expr.Simplify

/-
  Simplification in machine words.

  Widths are words of 32 bits and values words of 64 bits. A
  sum of widths that leaves its word and a shift by 64 bits or
  more stop the program. `Expr.width` and `Expr.simplify`
  calculate with numbers instead. The functions here do what
  those do as long as every number is a word, and have no
  result otherwise. No check of types comes before them: a
  rule reads the widths of any tree it is given.

  Key definitions include:
    * `Expr.width?`
    * `Expr.rule?`, the rule that applies at a node
    * `Expr.settle?`, rules until none applies
    * `Expr.simplify?`
-/

------------------------------------------------------------
-- Words
------------------------------------------------------------

namespace Gatework

/- Widths are below this number. -/
def widthBound : Nat :=
  UInt32.size

/- A width, if a word of 32 bits holds it. -/
def wordOf?
    (width : Nat) :
    Option Nat :=
  if width < widthBound then some width else none

/- A value moved down, by less than the length of a word. -/
def movedDown?
    (value amount : Nat) :
    Option Nat :=
  if amount < maxWidth then some (value >>> amount) else none

end Gatework

------------------------------------------------------------
-- Widths
------------------------------------------------------------

namespace Gatework

namespace Expr

mutual

/- The number of bits of the result, if it is a word. -/
def width? : Expr → Option Nat
  | const _ c => wordOf? c.width
  | var _ v => wordOf? v.width
  | not _ x => width? x
  | gate _ _ a _ => width? a
  | compare _ _ _ _ => some 1
  | mux _ _ t _ => width? t
  | bit _ _ _ => some 1
  | part _ _ msb lsb => wordOf? (max msb lsb - min msb lsb + 1)
  | concat _ parts => widthAbove? 0 parts

/- The widths of parts added to a sum, one after the other. -/
def widthAbove?
    (sum : Nat) :
    List Expr → Option Nat
  | [] => some sum
  | p :: ps => do
      let width ← width? p
      let sum' ← wordOf? (sum + width)
      widthAbove? sum' ps

end

end Expr

end Gatework

------------------------------------------------------------
-- Rules
------------------------------------------------------------

namespace Gatework

namespace Expr

/- A rule that takes the width of an operand first. -/
def ruleAfterWidth?
    (operand e : Expr) :
    Option (Option Expr) :=
  operand.width?.map fun _ => e.reduce?

/-
  The rule that applies at a node, if any; nothing where it
  needs a number that no word holds. A gate asks for the width
  of its first operand in any case, a comparison and a
  multiplexer only when no earlier rule applies, a part select
  and a concatenation only when they fold.
-/
def rule? : Expr → Option (Option Expr)
  | gate m op a b => ruleAfterWidth? a (gate m op a b)
  | compare m op a b =>
      if a.asConst?.isSome && b.asConst?.isSome || a.same b ||
          a.complementary b then
        some (compare m op a b).reduce?
      else
        ruleAfterWidth? a (compare m op a b)
  | mux m s t f =>
      if s.asConst?.isSome || t.same f then
        some (mux m s t f).reduce?
      else
        ruleAfterWidth? t (mux m s t f)
  | part m b h l =>
      match b.asConst? with
      | none => some none
      | some c => do
          let value ← movedDown? c.value (min h l)
          let width ← (part m b h l).width?
          return some (ofNat value width)
  | concat m parts =>
      match foldParts? 0 parts with
      | none => some none
      | some value => do
          let width ← (concat m parts).width?
          return some (ofNat value width)
  | e => some e.reduce?

end Expr

end Gatework

------------------------------------------------------------
-- Simplification
------------------------------------------------------------

namespace Gatework

namespace Expr

/- Applies rules at the root, at most `n` of them. -/
def settleFor? : Nat → Expr → Option Expr
  | 0, e => some e
  | n + 1, e => do
      match ← rule? e with
      | none => some e
      | some e' => settleFor? n e'

/- Applies rules at the root until none applies. -/
def settle?
    (e : Expr) :
    Option Expr :=
  settleFor? e.size e

mutual

/- Simplifies a tree from its leaves to its root. -/
def simplify? : Expr → Option Expr
  | const m c => some (const m c)
  | var m v => some (var m v)
  | not m x => do
      let x' ← simplify? x
      settle? (not (m.keepIf (x'.identical x)) x')
  | gate m op a b => do
      let a' ← simplify? a
      let b' ← simplify? b
      settle? (gate
        (m.keepIf (a'.identical a && b'.identical b)) op a' b')
  | compare m op a b => do
      let a' ← simplify? a
      let b' ← simplify? b
      settle? (compare
        (m.keepIf (a'.identical a && b'.identical b)) op a' b')
  | mux m s t f => do
      let s' ← simplify? s
      let t' ← simplify? t
      let f' ← simplify? f
      settle? (mux
        (m.keepIf (s'.identical s && t'.identical t &&
          f'.identical f)) s' t' f')
  | bit m b i => do
      let b' ← simplify? b
      settle? (bit (m.keepIf (b'.identical b)) b' i)
  | part m b h l => do
      let b' ← simplify? b
      settle? (part (m.keepIf (b'.identical b)) b' h l)
  | concat m parts => do
      let parts' ← simplifyAll? parts
      settle? (concat
        (m.keepIf (identicalAll parts' parts)) parts')

def simplifyAll? : List Expr → Option (List Expr)
  | [] => some []
  | p :: ps => do
      let p' ← simplify? p
      let ps' ← simplifyAll? ps
      return p' :: ps'

end

end Expr

end Gatework
