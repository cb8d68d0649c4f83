/-
  Name tables: names numbered in the order in which they are
  first seen.

  Key definitions include:
    * `NameTable.number?`
    * `NameTable.add`
    * `NameTable.name?`
-/

namespace Gatework

/- The names in order of their numbers. -/
structure NameTable where
  names : List String := []
deriving DecidableEq, Repr, Inhabited

namespace NameTable

def size
    (t : NameTable) :
    Nat :=
  t.names.length

/- The number of a name that was seen before. -/
def number?
    (t : NameTable)
    (name : String) :
    Option Nat :=
  t.names.findIdx? (· == name)

/- The name behind a number. -/
def name?
    (t : NameTable)
    (number : Nat) :
    Option String :=
  t.names[number]?

/- The number of a name, which is given one if it is new. -/
def add
    (t : NameTable)
    (name : String) :
    Nat × NameTable :=
  match t.number? name with
  | some n => (n, t)
  | none => (t.size, ⟨t.names ++ [name]⟩)

end NameTable

end Gatework
