import Gatework.Text.Digits
import Gatework.Text.Invisible

/-
  Texts in messages: between backquotes as they are, or
  between double quotes with everything in them made visible.

  Key definitions include:
    * `Text.backquoted`
    * `Text.quoted`
-/

------------------------------------------------------------
-- Quotes
------------------------------------------------------------

namespace Gatework

namespace Text

/- A text between backquotes. -/
def backquoted
    (s : String) :
    String :=
  "`" ++ s ++ "`"

/-
  A character between double quotes. One that does not show
  is written by its code point.
-/
def visible
    (c : Char) :
    List Char :=
  if c = '\x00' then ['\x5c', '0']
  else if c = '\t' then ['\x5c', 't']
  else if c = '\r' then ['\x5c', 'r']
  else if c = '\n' then ['\x5c', 'n']
  else if c = '\x22' ∨ c = '\x5c' then ['\x5c', c]
  else if isInvisible c then
    ['\x5c', 'u', '\x7b'] ++ Radix.hex.digits c.toNat ++ ['\x7d']
  else [c]

/- A text between double quotes. -/
def quoted
    (s : String) :
    String :=
  String.ofList
    ('\x22' :: s.toList.flatMap visible ++ ['\x22'])

end Text

end Gatework
