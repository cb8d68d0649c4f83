import Gatework.Text.Digits

/-
  JSON values and their text on several lines.

  Key definitions include:
    * `Json`
    * `Json.quote`
    * `Json.pretty`
-/

------------------------------------------------------------
-- Values
------------------------------------------------------------

namespace Gatework

/-
  JSON values. Numbers keep their text, objects the order of
  their members. A string with an escape that is no character
  is `brokenStr`, an object with such a key `brokenObj`.
-/
inductive Json where
  | null
  | bool (b : Bool)
  | num (text : String)
  | str (s : String)
  | brokenStr
  | arr (items : List Json)
  | obj (members : List (String × Json))
  | brokenObj
deriving Repr, Inhabited

namespace Json

def ofNat
    (n : Nat) :
    Json :=
  num (toString n)

/- An array of strings. -/
def strings
    (ss : List String) :
    Json :=
  arr (ss.map str)

end Json

end Gatework

------------------------------------------------------------
-- Text
------------------------------------------------------------

namespace Gatework

namespace Json

/-
  A character inside quotes. Quotes, backslashes and control
  characters are escaped.
-/
def escapeChar
    (c : Char) :
    List Char :=
  if c = '\x22' then ['\x5c', '\x22']
  else if c = '\x5c' then ['\x5c', '\x5c']
  else if c = '\x08' then ['\x5c', 'b']
  else if c = '\x0c' then ['\x5c', 'f']
  else if c = '\n' then ['\x5c', 'n']
  else if c = '\r' then ['\x5c', 'r']
  else if c = '\t' then ['\x5c', 't']
  else if c.toNat < 0x20 then
    '\x5c' :: 'u' :: padLeft '0' 4 (Radix.hex.digits c.toNat)
  else [c]

/- A string in quotes. -/
def quote
    (s : String) :
    String :=
  String.ofList
    ('\x22' :: s.toList.flatMap escapeChar ++ ['\x22'])

/- Two blanks for each level. -/
def indent
    (level : Nat) :
    String :=
  String.ofList (List.replicate (2 * level) ' ')

/- Lines between brackets, one for each item. -/
def enclose
    (level : Nat)
    (left right : String)
    (items : List String) :
    String :=
  if items.isEmpty then
    left ++ right
  else
    left ++ "\n" ++
      String.intercalate ",\n"
        (items.map fun item => indent (level + 1) ++ item) ++
      "\n" ++ indent level ++ right

mutual

/- The text of a value at a level of indentation. -/
def prettyAt
    (level : Nat) :
    Json → String
  | null => "null"
  | bool b => if b then "true" else "false"
  | num text => text
  | str s => quote s
  | brokenStr => quote ""
  | arr items => enclose level "[" "]" (prettyItems (level + 1) items)
  | obj members =>
      enclose level "\x7b" "\x7d" (prettyMembers (level + 1) members)
  | brokenObj => enclose level "\x7b" "\x7d" []

def prettyItems
    (level : Nat) :
    List Json → List String
  | [] => []
  | item :: items => prettyAt level item :: prettyItems level items

def prettyMembers
    (level : Nat) :
    List (String × Json) → List String
  | [] => []
  | (key, value) :: members =>
      (quote key ++ ": " ++ prettyAt level value) ::
        prettyMembers level members

end

/- A value on several lines, two blanks for each level. -/
def pretty
    (j : Json) :
    String :=
  prettyAt 0 j

end Json

end Gatework
