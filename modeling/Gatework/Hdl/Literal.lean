import Gatework.Expr.Typing
import Gatework.Hdl.Token
import Gatework.Text.Blank

/-
  Numbers written as literals.

  A literal is a bare decimal, digits after a radix letter
  with or without a size, or one bit that fills a width.
  Separators and blanks between the digits do not count, and
  unknown digits stand for 0. Numbers of more than 64 bits
  are refused.

  Key definitions include:
    * `Literal`
    * `Literal.read`
    * `Literal.toConst` and `Literal.fit?`
-/

------------------------------------------------------------
-- Digits
------------------------------------------------------------

namespace Gatework

/-
  The number written by decimal digits, with an optional plus
  sign before them, if it is below a bound.
-/
def readDecimal?
    (bound : Nat)
    (cs : List Char) :
    Option Nat :=
  let digits :=
    match cs with
    | '+' :: rest => rest
    | _ => cs
  if digits.isEmpty || !digits.all Char.isDigit then
    none
  else
    let n := digits.foldl (fun acc c => 10 * acc + (c.toNat - 48)) 0
    if n < bound then some n else none

end Gatework

namespace Gatework.Hdl

/- A digit of which the value is not known. -/
def isUnknownDigit
    (c : Char) :
    Bool :=
  c == 'x' || c == 'X' || c == 'z' || c == 'Z' || c == '?'

/- Numbers from here on do not fit a word. -/
def wordBound : Nat :=
  1 <<< maxWidth

/- The value of a digit, 0 for an unknown one. -/
def looseDigit?
    (radix : Radix)
    (c : Char) :
    Option Nat :=
  if isUnknownDigit c then some 0 else radix.digit? c

/-
  Appends the digits of a radix that is a power of two to a
  number, as long as the result fits a word.
-/
def appendDigits?
    (radix : Radix) :
    List Char → Nat → Option Nat
  | [], n => some n
  | c :: cs, n => do
      let d ← looseDigit? radix c
      if n * radix.size < wordBound then
        appendDigits? radix cs (n * radix.size + d)
      else
        none

/-
  The number that the digits of a based literal write. In
  decimal either all digits are unknown or none is.
-/
def writtenBy?
    (radix : Radix)
    (digits : List Char) :
    Option Nat :=
  match radix with
  | .decimal =>
      if digits.all isUnknownDigit then some 0
      else readDecimal? wordBound digits
  | _ => appendDigits? radix digits 0

end Gatework.Hdl

------------------------------------------------------------
-- Literals
------------------------------------------------------------

namespace Gatework.Hdl

/-
  A literal: the number its digits write, its value within
  its width, how it was written, and the bit it fills with.
  An unsized literal is as wide as its value needs.
-/
structure Literal where
  written : Nat
  value : Nat
  width : Nat
  sized : Bool
  signed : Bool
  base : Radix
  fill : Option Bool
  text : String
deriving DecidableEq, Repr, Inhabited

/- Why a text is no literal. -/
inductive LiteralFlaw where
  | tooWide
  | unknownBits
  | malformed
  | zeroWidth
deriving DecidableEq, Repr, Inhabited

/- The number of bits of a number, at least 1. -/
def bitLength
    (n : Nat) :
    Nat :=
  if n = 0 then 1 else n.log2 + 1

namespace Literal

/- A literal without a size. -/
def unsized
    (value : Nat)
    (base : Radix)
    (text : String) :
    Literal :=
  ⟨value, value, bitLength value, false, false, base, none, text⟩

/- A literal with a size; higher bits are cut off. -/
def withSize
    (written width : Nat)
    (base : Radix)
    (text : String) :
    Literal :=
  ⟨written, written &&& mask width, width, true, false, base, none, text⟩

/- The size cut bits off. -/
def isTruncated
    (l : Literal) :
    Bool :=
  l.written != l.value

/- A literal with or without a size in front of its radix. -/
def sizedBy
    (size : List Char)
    (written : Nat)
    (base : Radix)
    (text : String) :
    Except LiteralFlaw Literal :=
  if size.isEmpty then
    .ok (unsized written base text)
  else
    match readDecimal? (1 <<< 32) size with
    | none => .error .tooWide
    | some width =>
        if maxWidth < width then .error .tooWide
        else if width = 0 then .error .zeroWidth
        else .ok (withSize written width base text)

/- The sign letter in front of a radix letter. -/
def splitSign : List Char → Bool × List Char
  | 's' :: rest => (true, rest)
  | 'S' :: rest => (true, rest)
  | cs => (false, cs)

/- Reads what follows the size of a based literal. -/
def readBased
    (strict : Bool)
    (size rest : List Char)
    (text : String) :
    Except LiteralFlaw Literal :=
  let (signed, marked) := splitSign rest
  match marked with
  | [] => .error .malformed
  | letter :: digits =>
      match Radix.ofLetter? letter with
      | none => .error .malformed
      | some base =>
          if strict && digits.any isUnknownDigit then
            .error .unknownBits
          else
            match writtenBy? base digits with
            | none => .error .tooWide
            | some written => do
                let l ← sizedBy size written base text
                return { l with signed }

/- Splits at the first apostrophe. -/
def splitTick? : List Char → Option (List Char × List Char)
  | [] => none
  | c :: cs =>
      if c = '\x27' then
        some ([], cs)
      else
        (splitTick? cs).map fun (size, rest) => (c :: size, rest)

/- The characters that count. -/
def significant
    (text : String) :
    List Char :=
  text.toList.filter fun c => c != '_' && !isBlank c

/-
  Reads a literal. Unknown digits are refused when reading
  strictly.
-/
def read
    (kind : LiteralKind)
    (strict : Bool)
    (text : String) :
    Except LiteralFlaw Literal :=
  let cs := significant text
  match kind with
  | .int =>
      match readDecimal? wordBound cs with
      | none => .error .tooWide
      | some n => .ok (unsized n .decimal text)
  | .fill =>
      let digit := cs.getLastD '0'
      if strict && isUnknownDigit digit then
        .error .unknownBits
      else
        let one := digit == '1'
        .ok { unsized one.toNat .binary text with fill := some one }
  | .based =>
      match splitTick? cs with
      | none => .error .malformed
      | some (size, rest) => readBased strict size rest text

/- The literal at its own width. -/
def toConst
    (l : Literal) :
    Const :=
  ⟨l.value, l.width, l.signed, some l.base, some l.text⟩

/-
  The literal at a width. A sized one fits its own width
  only, a fill bit every width, and any other each width that
  holds its value.
-/
def fit?
    (l : Literal)
    (width : Nat) :
    Option Const :=
  if !inRange width then
    none
  else
    match l.fill with
    | some one =>
        let c := if one then Const.ones width else Const.zeros width
        some { c with raw := some l.text }
    | none =>
        if l.sized then
          if width = l.width then some l.toConst else none
        else
          l.toConst.resized? width

end Literal

end Gatework.Hdl
