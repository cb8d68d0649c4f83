/-
  Digits of natural numbers in the radixes a literal can be
  written in.

  Key definitions include:
    * `Radix`
    * `Radix.digits` and `Radix.read?`
    * `padLeft`
-/

------------------------------------------------------------
-- Radixes
------------------------------------------------------------

namespace Gatework

/- The radix a literal is written in. -/
inductive Radix where
  | binary
  | octal
  | decimal
  | hex
deriving DecidableEq, Repr, Inhabited

namespace Radix

/- The number of digit values of a radix. -/
def size : Radix → Nat
  | binary => 2
  | octal => 8
  | decimal => 10
  | hex => 16

/- The letter that introduces digits of a radix. -/
def letter : Radix → Char
  | binary => 'b'
  | octal => 'o'
  | decimal => 'd'
  | hex => 'h'

/- The radix a letter introduces, in either case. -/
def ofLetter? (c : Char) : Option Radix :=
  match c.toLower with
  | 'b' => some binary
  | 'o' => some octal
  | 'd' => some decimal
  | 'h' => some hex
  | _ => none

/-
  The digits of a number, without leading zeros and with
  letters in lower case.
-/
def digits
    (radix : Radix)
    (n : Nat) :
    List Char :=
  Nat.toDigits radix.size n

/- The value of a digit of either case. -/
def digit?
    (radix : Radix)
    (c : Char) :
    Option Nat :=
  let value? :=
    if c.isDigit then some (c.toNat - 48)
    else if 'a' ≤ c.toLower ∧ c.toLower ≤ 'f' then
      some (c.toLower.toNat - 87)
    else none
  value?.filter fun v => decide (v < radix.size)

/- The number that digits stand for, if all are digits. -/
def read?
    (radix : Radix)
    (cs : List Char) :
    Option Nat :=
  cs.foldlM
    (fun acc c => (radix.digit? c).map fun v => radix.size * acc + v) 0

end Radix

end Gatework

------------------------------------------------------------
-- Padding
------------------------------------------------------------

namespace Gatework

/- Puts copies of a character in front up to a length. -/
def padLeft
    (fill : Char)
    (length : Nat)
    (cs : List Char) :
    List Char :=
  List.replicate (length - cs.length) fill ++ cs

end Gatework
