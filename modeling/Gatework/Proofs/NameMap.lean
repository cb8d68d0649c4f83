import Gatework.NameMap

/-
  Maps from names and sorted lists of names.

  Key theorems include:
    * `NameMap.find?_insert`
    * `NameMap.mem_entries_of_find?_eq_some` and
      `NameMap.find?_of_mem_entries`
    * `mem_sortedNames`
    * `ascending_sortedNames`
    * `NameMap.ascending_insert`
-/

------------------------------------------------------------
-- Lookup and entries
------------------------------------------------------------

namespace Gatework

namespace NameMap

variable {α : Type}

theorem find?_insert
    (m : NameMap α)
    (name : String)
    (value : α)
    (n : String) :
    (m.insert name value).find? n =
      if n = name then some value else m.find? n := by
  by_cases hn : n = name
  · subst hn
    rw [if_pos rfl, find?_insert_self]
  · rw [if_neg hn, find?_insert_of_ne m value (Ne.symm hn)]

theorem find?_erase
    (m : NameMap α)
    (name n : String) :
    (m.erase name).find? n =
      if n = name then none else m.find? n := by
  rcases m with ⟨entries⟩
  change findIn n (entries.filter fun entry => entry.1 != name) =
    if n = name then none else findIn n entries
  induction entries with
  | nil => simp [findIn]
  | cons entry rest ih =>
      rcases entry with ⟨k, a⟩
      by_cases hk : k = name
      · subst hk
        rw [List.filter_cons_of_neg (by simp), ih, findIn]
        by_cases hn : n = k
        · rw [if_pos hn, if_pos hn]
        · rw [if_neg hn, if_neg hn, if_neg (Ne.symm hn)]
      · rw [List.filter_cons_of_pos (by simpa using hk), findIn,
          findIn, ih]
        by_cases hn : k = n
        · subst hn
          rw [if_pos rfl, if_pos rfl, if_neg hk]
        · rw [if_neg hn, if_neg hn]

theorem find?_map
    {β : Type}
    (f : α → β)
    (m : NameMap α)
    (n : String) :
    (m.map f).find? n = (m.find? n).map f := by
  rcases m with ⟨entries⟩
  change findIn n (entries.map fun entry => (entry.1, f entry.2))
    = (findIn n entries).map f
  induction entries with
  | nil => rfl
  | cons entry rest ih =>
      rcases entry with ⟨k, a⟩
      rw [List.map_cons, findIn, findIn]
      split
      · rfl
      · exact ih

theorem insert_map
    {β : Type}
    (f : α → β)
    (m : NameMap α)
    (name : String)
    (value : α) :
    (m.map f).insert name (f value) =
      (m.insert name value).map f := by
  rcases m with ⟨entries⟩
  apply congrArg NameMap.mk
  change insertIn name (f value)
      (entries.map fun entry => (entry.1, f entry.2)) =
    (insertIn name value entries).map
      fun entry => (entry.1, f entry.2)
  induction entries with
  | nil => rfl
  | cons entry rest ih =>
      rcases entry with ⟨k, a⟩
      rw [List.map_cons, insertIn, insertIn]
      split
      · rfl
      · split
        · rfl
        · rw [ih, List.map_cons]

/- Where a new entry goes is decided by the names alone. -/
theorem keys_insert_congr
    {β : Type}
    {m : NameMap α}
    {m' : NameMap β}
    (hKeys : m.keys = m'.keys)
    (name : String)
    (a : α)
    (b : β) :
    (m.insert name a).keys = (m'.insert name b).keys := by
  rcases m with ⟨entries⟩
  rcases m' with ⟨entries'⟩
  change entries.map Prod.fst = entries'.map Prod.fst at hKeys
  change (insertIn name a entries).map Prod.fst =
    (insertIn name b entries').map Prod.fst
  induction entries generalizing entries' with
  | nil =>
      cases entries' with
      | nil => rfl
      | cons entry rest => cases hKeys
  | cons entry rest ih =>
      cases entries' with
      | nil => cases hKeys
      | cons entry' rest' =>
          rcases entry with ⟨k, x⟩
          rcases entry' with ⟨k', y⟩
          rcases List.cons.inj hKeys with ⟨rfl, hRest⟩
          rw [insertIn, insertIn]
          split
          · exact congrArg (name :: ·) hRest
          · split
            · exact congrArg (name :: k :: ·) hRest
            · exact congrArg (k :: ·) (ih rest' hRest)

theorem mem_entries_of_find?_eq_some
    {m : NameMap α}
    {n : String}
    {a : α}
    (hFound : m.find? n = some a) :
    (n, a) ∈ m.entries := by
  rcases m with ⟨entries⟩
  change findIn n entries = some a at hFound
  induction entries with
  | nil => cases hFound
  | cons entry rest ih =>
      rcases entry with ⟨k, b⟩
      rw [findIn] at hFound
      split at hFound
      case isTrue hk =>
          cases hFound
          subst hk
          exact List.mem_cons_self ..
      case isFalse hk =>
          exact List.mem_cons_of_mem _ (ih hFound)

theorem contains_of_mem_entries
    {m : NameMap α}
    {n : String}
    {a : α}
    (hMem : (n, a) ∈ m.entries) :
    m.contains n = true := by
  rcases m with ⟨entries⟩
  change (findIn n entries).isSome = true
  induction entries with
  | nil => cases hMem
  | cons entry rest ih =>
      rcases entry with ⟨k, b⟩
      rw [findIn]
      by_cases hk : k = n
      · rw [if_pos hk]
        rfl
      · rw [if_neg hk]
        rcases List.mem_cons.mp hMem with h | h
        · cases h
          exact absurd rfl hk
        · exact ih h

/- Where names do not repeat, an entry is what is found. -/
theorem find?_of_mem_entries
    {m : NameMap α}
    (hKeys : m.keys.Nodup)
    {n : String}
    {a : α}
    (hMem : (n, a) ∈ m.entries) :
    m.find? n = some a := by
  rcases m with ⟨entries⟩
  change findIn n entries = some a
  change (entries.map Prod.fst).Nodup at hKeys
  induction entries with
  | nil => cases hMem
  | cons entry rest ih =>
      rcases entry with ⟨k, b⟩
      rw [List.map_cons, List.nodup_cons] at hKeys
      rw [findIn]
      rcases List.mem_cons.mp hMem with hSame | hRest
      · cases hSame
        exact if_pos rfl
      · have hOther : k ≠ n := by
          rintro rfl
          exact hKeys.1 (List.mem_map.mpr ⟨_, hRest, rfl⟩)
        rw [if_neg hOther]
        exact ih hRest hKeys.2

theorem contains_eq_true_iff
    {m : NameMap α}
    {n : String} :
    m.contains n = true ↔ ∃ a, m.find? n = some a :=
  Option.isSome_iff_exists

/- Maps with the same keys have entries at the same names. -/
theorem exists_find?_of_keys_eq
    {β : Type}
    {m : NameMap α}
    {m' : NameMap β}
    (hKeys : m.keys = m'.keys)
    {n : String}
    {a : α}
    (hFound : m.find? n = some a) :
    ∃ b, m'.find? n = some b := by
  have hMem : n ∈ m'.keys := by
    rw [← hKeys]
    exact List.mem_map_of_mem (mem_entries_of_find?_eq_some hFound)
  rcases List.mem_map.mp hMem with ⟨entry, hEntry, rfl⟩
  exact contains_eq_true_iff.mp (contains_of_mem_entries hEntry)

theorem not_contains_iff
    {m : NameMap α}
    {n : String} :
    ¬ m.contains n ↔ m.find? n = none :=
  Option.not_isSome_iff_eq_none

/- A name missing from a larger map is missing. -/
theorem find?_eq_none_of_imp
    {m m' : NameMap α}
    {n : String}
    (hSub : m.contains n → m'.contains n)
    (hNone : m'.find? n = none) :
    m.find? n = none := by
  cases hFound : m.find? n with
  | none => rfl
  | some a =>
      have hHas := hSub (contains_eq_true_iff.mpr ⟨a, hFound⟩)
      rw [contains, hNone] at hHas
      cases hHas

end NameMap

end Gatework

------------------------------------------------------------
-- Sorted names
------------------------------------------------------------

namespace Gatework

/- Names that follow each other in ascending order. -/
def Ascending
    (names : List String) :
    Prop :=
  names.Pairwise (· < ·)

theorem mem_insertOrdered
    {x y : String}
    {names : List String} :
    y ∈ insertOrdered (fun a b => decide (a < b)) x names ↔
      y = x ∨ y ∈ names := by
  induction names with
  | nil => simp [insertOrdered]
  | cons n ns ih =>
      rw [insertOrdered]
      by_cases hLess : x < n
      · simp [hLess]
      · by_cases hMore : n < x
        · simp only [hLess, hMore, decide_false, decide_true,
            Bool.false_eq_true, if_false, if_true, List.mem_cons,
            ih]
          grind
        · have hSame : x = n :=
            String.le_antisymm (String.not_lt.mp hMore)
              (String.not_lt.mp hLess)
          simp [hSame]

theorem ascending_insertOrdered
    {x : String}
    {names : List String}
    (hNames : Ascending names) :
    Ascending
      (insertOrdered (fun a b => decide (a < b)) x names) := by
  induction names with
  | nil => exact List.pairwise_singleton ..
  | cons n ns ih =>
      rcases List.pairwise_cons.mp hNames with ⟨hHead, hTail⟩
      rw [insertOrdered]
      by_cases hLess : x < n
      · rw [if_pos (decide_eq_true hLess)]
        apply List.pairwise_cons.mpr
        refine ⟨?_, hNames⟩
        intro m hm
        rcases List.mem_cons.mp hm with rfl | hRest
        · exact hLess
        · exact String.lt_trans hLess (hHead m hRest)
      · rw [if_neg (by simpa using hLess)]
        by_cases hMore : n < x
        · rw [if_pos (decide_eq_true hMore)]
          apply List.pairwise_cons.mpr
          refine ⟨?_, ih hTail⟩
          intro m hm
          rcases mem_insertOrdered.mp hm with rfl | hRest
          · exact hMore
          · exact hHead m hRest
        · rw [if_neg (by simpa using hMore)]
          exact hNames

/- Sorting keeps the names and puts them in order. -/
theorem sortedNames_spec
    (names sorted : List String)
    (hSorted : Ascending sorted) :
    let result := names.foldl
      (fun acc x =>
        insertOrdered (fun a b => decide (a < b)) x acc) sorted
    Ascending result ∧
      ∀ n, n ∈ result ↔ n ∈ names ∨ n ∈ sorted := by
  induction names generalizing sorted with
  | nil => exact ⟨hSorted, fun n => by simp⟩
  | cons name names ih =>
      rcases ih _ (ascending_insertOrdered (x := name) hSorted)
        with ⟨hAscending, hMem⟩
      refine ⟨hAscending, ?_⟩
      intro n
      rw [List.foldl_cons, hMem, mem_insertOrdered, List.mem_cons]
      grind

theorem ascending_sortedNames
    (names : List String) :
    Ascending (sortedNames names) :=
  (sortedNames_spec names [] List.Pairwise.nil).1

theorem mem_sortedNames
    {names : List String}
    {n : String} :
    n ∈ sortedNames names ↔ n ∈ names := by
  have hMem := (sortedNames_spec names [] List.Pairwise.nil).2 n
  exact hMem.trans (or_iff_left List.not_mem_nil)

/- A name is put among the keys where it belongs. -/
theorem NameMap.keys_insert
    {α : Type}
    (m : NameMap α)
    (name : String)
    (value : α) :
    (m.insert name value).keys =
      insertOrdered (fun a b => decide (a < b)) name m.keys := by
  rcases m with ⟨entries⟩
  change (insertIn name value entries).map Prod.fst =
    insertOrdered _ name (entries.map Prod.fst)
  induction entries with
  | nil => rfl
  | cons entry rest ih =>
      rcases entry with ⟨k, a⟩
      rw [insertIn, List.map_cons, insertOrdered]
      by_cases hSame : name = k
      · subst hSame
        simp
      · by_cases hLess : name < k
        · simp [hSame, hLess]
        · have hMore : k < name :=
            Decidable.byContradiction fun hNot =>
              hSame (String.le_antisymm (String.not_lt.mp hNot)
                (String.not_lt.mp hLess))
          simp [hSame, hLess, hMore, ih]

theorem NameMap.ascending_insert
    {α : Type}
    {m : NameMap α}
    (hKeys : Ascending m.keys)
    (name : String)
    (value : α) :
    Ascending (m.insert name value).keys := by
  rw [NameMap.keys_insert]
  exact ascending_insertOrdered hKeys

end Gatework
