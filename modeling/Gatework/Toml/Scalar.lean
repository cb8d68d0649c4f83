import Gatework.Text.Digits
import Gatework.Toml.Basic

/-
  Booleans, numbers, dates and times of TOML text.

  Key definitions include:
    * `Toml.number?`
    * `Toml.moment?`
    * `Toml.scalar?`
-/

------------------------------------------------------------
-- Numbers
------------------------------------------------------------

namespace Gatework

namespace Toml

/-
  Digits of a radix and what follows them. Underscores may
  stand between two digits.
-/
def digits?
    (radix : Radix)
    (cs : List Char) :
    Option (List Char × List Char) :=
  let isPart (c : Char) := (radix.digit? c).isSome || c == '_'
  let run := cs.takeWhile isPart
  if (run.splitOn '_').any List.isEmpty then none
  else some (run.filter fun c => c != '_', cs.dropWhile isPart)

/- An optional sign. -/
def sign : List Char → List Char × List Char
  | '+' :: rest => (['+'], rest)
  | '-' :: rest => (['-'], rest)
  | cs => ([], cs)

/- Digits of which the first is 0 only if it is alone. -/
def whole? : List Char → Option (List Char × List Char)
  | '0' :: rest => some (['0'], rest)
  | cs => digits? .decimal cs

/- An optional fraction. -/
def fraction? : List Char → Option (List Char × List Char)
  | '.' :: rest =>
      (digits? .decimal rest).map fun (ds, rest) => ('.' :: ds, rest)
  | cs => some ([], cs)

/- An optional exponent. -/
def exponent? : List Char → Option (List Char × List Char)
  | [] => some ([], [])
  | c :: rest =>
      if c = 'e' ∨ c = 'E' then
        let (sign, rest) := sign rest
        (digits? .decimal rest).map fun (ds, rest) =>
          (c :: sign ++ ds, rest)
      else
        some ([], c :: rest)

/- An integer that fits 64 bits with sign. -/
def integer?
    (n : Int) :
    Option Toml :=
  let bound : Int := (1 <<< 63 : Nat)
  if -bound ≤ n ∧ n < bound then some (integer n) else none

/- Digits after the mark of their radix. -/
def marked?
    (radix : Radix)
    (cs : List Char) :
    Option (Toml × List Char) := do
  let (ds, rest) ← digits? radix cs
  let n ← radix.read? ds
  let value ← integer? n
  return (value, rest)

/-
  Whether a number is too large for a float of 64 bits, that
  is, rounds to infinity. It is given by its digits and the
  power of ten they are taken with. Only near the largest
  float is its value worked out.
-/
def overflows
    (digits : List Char)
    (power : Int) :
    Bool :=
  let digits := digits.dropWhile fun c => c == '0'
  let magnitude := digits.length + power
  if digits.isEmpty ∨ magnitude < 309 then
    false
  else if 309 < magnitude then
    true
  else
    let n := (Radix.decimal.read? digits).getD 0
    let limit := (1 <<< 1024) - (1 <<< 970)
    decide (limit * Nat.pow 10 (-power).toNat ≤
      n * Nat.pow 10 power.toNat)

/- The power of ten of an exponent. -/
def powerOf
    (exp : List Char) :
    Int :=
  let (sign, digits) := sign (exp.drop 1)
  let n := (Radix.decimal.read? digits).getD 0
  if sign = ['-'] then -(n : Int) else n

/-
  A float by its parts. Large numbers are refused, but not
  those far below zero.
-/
def float?
    (sign whole frac exp : List Char) :
    Option Toml :=
  let power := powerOf exp - (frac.drop 1).length
  if sign ≠ ['-'] ∧ overflows (whole ++ frac.drop 1) power then none
  else some (float (String.ofList (sign ++ whole ++ frac ++ exp)))

/- A decimal number with its sign. -/
def decimal?
    (cs : List Char) :
    Option (Toml × List Char) := do
  let (sign, rest) := sign cs
  let (ds, rest) ← whole? rest
  let (frac, rest) ← fraction? rest
  let (exp, rest) ← exponent? rest
  if frac.isEmpty ∧ exp.isEmpty then
    let n ← Radix.decimal.read? ds
    let value ← integer? (if sign = ['-'] then -(n : Int) else n)
    return (value, rest)
  else
    let value ← float? sign ds frac exp
    return (value, rest)

/- Infinity or no number at all, with a sign. -/
def special?
    (cs : List Char) :
    Option (Toml × List Char) :=
  let (sign, rest) := sign cs
  match rest with
  | 'i' :: 'n' :: 'f' :: rest =>
      some (.float (String.ofList sign ++ "inf"), rest)
  | 'n' :: 'a' :: 'n' :: rest =>
      some (.float (String.ofList sign ++ "nan"), rest)
  | _ => none

/- A number. -/
def number?
    (cs : List Char) :
    Option (Toml × List Char) :=
  match cs with
  | '0' :: 'x' :: rest => marked? .hex rest
  | '0' :: 'o' :: rest => marked? .octal rest
  | '0' :: 'b' :: rest => marked? .binary rest
  | _ => (special? cs).or (decimal? cs)

end Toml

end Gatework

------------------------------------------------------------
-- Dates and times
------------------------------------------------------------

namespace Gatework

namespace Toml

/- A number of a fixed count of digits between two bounds. -/
def fixed?
    (count low high : Nat)
    (cs : List Char) :
    Option (Nat × List Char) := do
  let ds := cs.take count
  let n ← Radix.decimal.read? ds
  if ds.length = count ∧ low ≤ n ∧ n ≤ high then
    return (n, cs.drop count)
  else
    none

/- What follows a character. -/
def mark?
    (c : Char) :
    List Char → Option (List Char)
  | d :: rest => if d = c then some rest else none
  | [] => none

/- The number of days of a month. -/
def daysIn
    (year month : Nat) :
    Nat :=
  if month = 2 then
    if year % 4 = 0 ∧ (year % 100 ≠ 0 ∨ year % 400 = 0) then 29 else 28
  else if month ∈ [4, 6, 9, 11] then 30
  else 31

/- What follows a date. -/
def date?
    (cs : List Char) :
    Option (List Char) := do
  let (year, cs) ← fixed? 4 0 9999 cs
  let (month, cs) ← fixed? 2 1 12 (← mark? '-' cs)
  let (_, cs) ← fixed? 2 1 (daysIn year month) (← mark? '-' cs)
  return cs

/- What follows an optional fraction of a second. -/
def skipFraction : List Char → List Char
  | '.' :: c :: rest =>
      if c.isDigit then rest.dropWhile Char.isDigit else '.' :: c :: rest
  | cs => cs

/- What follows a time of day. -/
def time?
    (cs : List Char) :
    Option (List Char) := do
  let (_, cs) ← fixed? 2 0 23 cs
  let (_, cs) ← fixed? 2 0 59 (← mark? ':' cs)
  let (_, cs) ← fixed? 2 0 60 (← mark? ':' cs)
  return skipFraction cs

/- What follows an optional offset from universal time. -/
def skipOffset
    (cs : List Char) :
    List Char :=
  match cs with
  | [] => []
  | c :: rest =>
      if c = 'Z' ∨ c = 'z' then
        rest
      else if c = '+' ∨ c = '-' then
        (do
          let (_, rest) ← fixed? 2 0 23 rest
          let (_, rest) ← fixed? 2 0 59 (← mark? ':' rest)
          return rest).getD cs
      else
        cs

/- What follows an optional time behind a date. -/
def skipTime
    (cs : List Char) :
    List Char :=
  match cs with
  | [] => []
  | c :: rest =>
      if c = 'T' ∨ c = 't' ∨ c = ' ' then
        ((time? rest).map skipOffset).getD cs
      else
        cs

/- A date, a date with a time, or a time. -/
def moment?
    (cs : List Char) :
    Option (Toml × List Char) := do
  let rest ← ((date? cs).map skipTime).or (time? cs)
  let text := cs.take (cs.length - rest.length)
  return (.moment (String.ofList text), rest)

end Toml

end Gatework

------------------------------------------------------------
-- Any of them
------------------------------------------------------------

namespace Gatework

namespace Toml

/- A boolean, a date or time, or a number. -/
def scalar? : List Char → Option (Toml × List Char)
  | 't' :: 'r' :: 'u' :: 'e' :: rest => some (.boolean true, rest)
  | 'f' :: 'a' :: 'l' :: 's' :: 'e' :: rest => some (.boolean false, rest)
  | cs => (moment? cs).or (number? cs)

end Toml

end Gatework
