/-
  Blanks: the characters of the Unicode property White_Space.

  Key definitions include:
    * `isBlank`
    * `trimBlank`
-/

namespace Gatework

/- Ranges of blanks by code point, both ends included. -/
def blankRanges : List (Nat × Nat) :=
  [(0x09, 0x0D), (0x20, 0x20), (0x85, 0x85), (0xA0, 0xA0),
    (0x1680, 0x1680), (0x2000, 0x200A), (0x2028, 0x2029),
    (0x202F, 0x202F), (0x205F, 0x205F), (0x3000, 0x3000)]

/- A blank of any script. -/
def isBlank
    (c : Char) :
    Bool :=
  blankRanges.any fun range =>
    decide (range.1 ≤ c.toNat) && decide (c.toNat ≤ range.2)

/- The characters between leading and trailing blanks. -/
def trimBlank
    (cs : List Char) :
    List Char :=
  ((cs.dropWhile isBlank).reverse.dropWhile isBlank).reverse

/- A text without leading and trailing blanks. -/
def trimText
    (s : String) :
    String :=
  String.ofList (trimBlank s.toList)

/- The blanks of ASCII inside a line of source. -/
def isAsciiBlank
    (c : Char) :
    Bool :=
  c == ' ' || c == '\t' || c == '\n' || c == '\r' || c == '\x0c'

end Gatework
