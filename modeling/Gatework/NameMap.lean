/-
  Finite maps from names, kept in ascending order of names.

  Names are ordered by code point, which is also the order of
  their UTF-8 bytes.

  Key definitions include:
    * `NameMap`
    * `NameMap.find?`
    * `NameMap.insert`
    * `NameMap.ofList`

  Key theorems include:
    * `NameMap.find?_insert_self`
    * `NameMap.find?_insert_of_ne`
-/

------------------------------------------------------------
-- Ordered insertion
------------------------------------------------------------

namespace Gatework

/-
  Inserts into an ascending list. An element already there
  stays, and the new one is dropped.
-/
def insertOrdered
    {α : Type}
    (lt : α → α → Bool)
    (x : α) :
    List α → List α
  | [] => [x]
  | y :: ys =>
      if lt x y then x :: y :: ys
      else if lt y x then y :: insertOrdered lt x ys
      else y :: ys

/- The elements of a list, ascending and without repetition. -/
def sortedSet
    {α : Type}
    (lt : α → α → Bool)
    (xs : List α) :
    List α :=
  xs.foldl (fun acc x => insertOrdered lt x acc) []

/- Names in ascending order without repetition. -/
def sortedNames
    (names : List String) :
    List String :=
  sortedSet (fun a b => decide (a < b)) names

end Gatework

------------------------------------------------------------
-- Maps
------------------------------------------------------------

namespace Gatework

/- A map from names, as entries in ascending order. -/
structure NameMap (α : Type) where
  entries : List (String × α)
deriving Repr, Inhabited

namespace NameMap

variable {α β : Type}

def empty : NameMap α :=
  ⟨[]⟩

/- The value at a name in a list of entries. -/
def findIn
    (name : String) :
    List (String × α) → Option α
  | [] => none
  | (n, v) :: rest => if n = name then some v else findIn name rest

/- The value at a name. -/
def find?
    (m : NameMap α)
    (name : String) :
    Option α :=
  findIn name m.entries

def contains
    (m : NameMap α)
    (name : String) :
    Bool :=
  (m.find? name).isSome

/- Puts an entry at its place, replacing the one there. -/
def insertIn
    (name : String)
    (value : α) :
    List (String × α) → List (String × α)
  | [] => [(name, value)]
  | (n, v) :: rest =>
      if name = n then (name, value) :: rest
      else if name < n then (name, value) :: (n, v) :: rest
      else (n, v) :: insertIn name value rest

/- The map with a new value at a name. -/
def insert
    (m : NameMap α)
    (name : String)
    (value : α) :
    NameMap α :=
  ⟨insertIn name value m.entries⟩

/- The map without a name. -/
def erase
    (m : NameMap α)
    (name : String) :
    NameMap α :=
  ⟨m.entries.filter fun entry => entry.1 != name⟩

/- The map of a list of entries; the last one at a name wins. -/
def ofList
    (entries : List (String × α)) :
    NameMap α :=
  entries.foldl (fun m entry => m.insert entry.1 entry.2) empty

def keys
    (m : NameMap α) :
    List String :=
  m.entries.map Prod.fst

def values
    (m : NameMap α) :
    List α :=
  m.entries.map Prod.snd

/- Applies a function to every value. -/
def map
    (f : α → β)
    (m : NameMap α) :
    NameMap β :=
  ⟨m.entries.map fun entry => (entry.1, f entry.2)⟩

end NameMap

end Gatework

------------------------------------------------------------
-- Lookup after insertion
------------------------------------------------------------

namespace Gatework

namespace NameMap

variable {α : Type}

theorem findIn_insertIn_self
    (name : String)
    (value : α)
    (entries : List (String × α)) :
    findIn name (insertIn name value entries) = some value := by
  induction entries with
  | nil => simp [insertIn, findIn]
  | cons entry rest ih =>
      rcases entry with ⟨n, v⟩
      by_cases hSame : name = n
      · simp [insertIn, findIn, hSame]
      · by_cases hLess : name < n
        · simp [insertIn, findIn, hSame, hLess]
        · have hOther : ¬ n = name := fun h => hSame h.symm
          simp [insertIn, findIn, hSame, hLess, hOther, ih]

theorem findIn_insertIn_of_ne
    {name other : String}
    (value : α)
    (entries : List (String × α))
    (hne : name ≠ other) :
    findIn other (insertIn name value entries) =
      findIn other entries := by
  induction entries with
  | nil => simp [insertIn, findIn, hne]
  | cons entry rest ih =>
      rcases entry with ⟨n, v⟩
      by_cases hSame : name = n
      · subst hSame
        simp [insertIn, findIn, hne]
      · by_cases hLess : name < n
        · simp [insertIn, findIn, hSame, hLess, hne]
        · simp [insertIn, findIn, hSame, hLess, ih]

/- A name just inserted is found with its value. -/
@[simp] theorem find?_insert_self
    (m : NameMap α)
    (name : String)
    (value : α) :
    (m.insert name value).find? name = some value :=
  findIn_insertIn_self name value m.entries

/- Insertion leaves every other name alone. -/
theorem find?_insert_of_ne
    {name other : String}
    (m : NameMap α)
    (value : α)
    (hne : name ≠ other) :
    (m.insert name value).find? other = m.find? other :=
  findIn_insertIn_of_ne value m.entries hne

end NameMap

end Gatework
