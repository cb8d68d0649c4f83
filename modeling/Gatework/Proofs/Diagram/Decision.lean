import Gatework.Diagram.Basic

/-
  Decision trees and their canonical form.

  A decision tree tests names until it comes to a constant.
  When the tests go down an order of names and no test has
  two equal sides, the tree is determined by its function.

  Key definitions include:
    * `Decision`
    * `Decision.value`
    * `Decision.names`
    * `Decision.Reduced`

  Key theorems include:
    * `Decision.eq_of_value_eq`
    * `Decision.not_mem_names_of_free`
-/

------------------------------------------------------------
-- Places in an order
------------------------------------------------------------

namespace Gatework

namespace Forest

/- The last place of a name holds that name. -/
theorem lastPlace?_eq_some
    {name : String}
    {order : List String}
    {i level : Nat}
    (hPlace : lastPlace? name i order = some level) :
    i ≤ level ∧ order[level - i]? = some name := by
  induction order generalizing i with
  | nil => cases hPlace
  | cons n ns ih =>
      rw [lastPlace?] at hPlace
      split at hPlace
      case h_1 j hRest =>
          cases hPlace
          rcases ih hRest with ⟨hLe, hFound⟩
          have hShift : level - i = level - (i + 1) + 1 := by
            omega
          refine ⟨by omega, ?_⟩
          rw [hShift, List.getElem?_cons_succ]
          exact hFound
      case h_2 =>
          split at hPlace
          case isTrue hName =>
              cases hPlace
              rw [Nat.sub_self, hName]
              exact ⟨Nat.le_refl _, rfl⟩
          case isFalse => cases hPlace

theorem lastPlace?_inj
    {a b : String}
    {order : List String}
    {level : Nat}
    (ha : lastPlace? a 0 order = some level)
    (hb : lastPlace? b 0 order = some level) :
    a = b := by
  have hFirst := (lastPlace?_eq_some ha).2
  rw [(lastPlace?_eq_some hb).2] at hFirst
  exact (Option.some.inj hFirst).symm

theorem lastPlace?_lt
    {name : String}
    {order : List String}
    {level : Nat}
    (hPlace : lastPlace? name 0 order = some level) :
    level < order.length :=
  (List.getElem?_eq_some_iff.mp (lastPlace?_eq_some hPlace).2).1

/- A name in the order has a place. -/
theorem exists_lastPlace?
    {name : String}
    {order : List String}
    (hMem : name ∈ order)
    (i : Nat) :
    ∃ level, lastPlace? name i order = some level := by
  induction order generalizing i with
  | nil => cases hMem
  | cons n ns ih =>
      rw [lastPlace?]
      cases hRest : lastPlace? name (i + 1) ns with
      | some j => exact ⟨j, rfl⟩
      | none =>
          rcases List.mem_cons.mp hMem with rfl | hTail
          · exact ⟨i, if_pos rfl⟩
          · rcases ih hTail (i + 1) with ⟨level, hLevel⟩
            rw [hRest] at hLevel
            cases hLevel

end Forest

end Gatework

------------------------------------------------------------
-- Decision trees
------------------------------------------------------------

namespace Gatework

/- A constant, or a test of a name with two sides. -/
inductive Decision where
  | leaf (b : Bool)
  | test (name : String) (low high : Decision)
deriving DecidableEq, Repr

namespace Decision

/- Where the tests lead. -/
def value
    (ν : String → Bool) :
    Decision → Bool
  | leaf b => b
  | test a low high => if ν a then value ν high else value ν low

/- The number of tests. -/
def size : Decision → Nat
  | leaf _ => 0
  | test _ low high => size low + size high + 1

/- The names tested. -/
def names : Decision → List String
  | leaf _ => []
  | test a low high => a :: (names low ++ names high)

/-
  Tests go down the order, from a place on, and every test
  has two different sides.
-/
def Reduced
    (order : List String) :
    Nat → Decision → Prop
  | _, leaf _ => True
  | bound, test a low high =>
      ∃ level, Forest.lastPlace? a 0 order = some level ∧
        bound ≤ level ∧ low ≠ high ∧
        Reduced order (level + 1) low ∧
        Reduced order (level + 1) high

/- Values with one of them changed. -/
def setting
    (ν : String → Bool)
    (a : String)
    (x : Bool) :
    String → Bool :=
  fun n => if n = a then x else ν n

variable {order : List String}

theorem Reduced.mono
    {t : Decision}
    {bound lower : Nat}
    (ht : t.Reduced order bound)
    (hLe : lower ≤ bound) :
    t.Reduced order lower := by
  cases t with
  | leaf b => exact trivial
  | test a low high =>
      rcases ht with ⟨level, hPlace, hBound, hSides⟩
      exact ⟨level, hPlace, Nat.le_trans hLe hBound, hSides⟩

/- A name above all tests does not matter. -/
theorem value_setting
    {t : Decision}
    {bound level : Nat}
    (ht : t.Reduced order bound)
    {a : String}
    (ha : Forest.lastPlace? a 0 order = some level)
    (hAbove : level < bound)
    (ν : String → Bool)
    (x : Bool) :
    t.value (setting ν a x) = t.value ν := by
  induction t generalizing bound with
  | leaf b => rfl
  | test b low high ihLow ihHigh =>
      rcases ht with ⟨place, hPlace, hBound, _, hLow, hHigh⟩
      have hOther : ¬ b = a := by
        rintro rfl
        rw [ha] at hPlace
        cases hPlace
        omega
      rw [value, value, ihLow hLow (by omega),
        ihHigh hHigh (by omega), setting, if_neg hOther]

/- The value of the root chooses the side. -/
theorem value_setting_root
    {a : String}
    {low high : Decision}
    {bound : Nat}
    (ht : (test a low high).Reduced order bound)
    (ν : String → Bool)
    (x : Bool) :
    (test a low high).value (setting ν a x) =
      (if x then high else low).value ν := by
  rcases ht with ⟨level, hPlace, _, _, hLow, hHigh⟩
  have hRoot : setting ν a x a = x := if_pos rfl
  rw [value, hRoot,
    value_setting hLow hPlace (Nat.lt_succ_self _),
    value_setting hHigh hPlace (Nat.lt_succ_self _)]
  cases x <;> rfl

/-
  A test whose value does not depend on its name has sides of
  one function.
-/
theorem sides_value_eq
    {a : String}
    {low high : Decision}
    {bound : Nat}
    (ht : (test a low high).Reduced order bound)
    {f : (String → Bool) → Bool}
    (hf : ∀ ν x, f (setting ν a x) = f ν)
    (hValue : ∀ ν, (test a low high).value ν = f ν)
    (ν : String → Bool) :
    low.value ν = f ν ∧ high.value ν = f ν := by
  constructor
  · have h := hValue (setting ν a false)
    rw [value_setting_root ht, hf] at h
    exact h
  · have h := hValue (setting ν a true)
    rw [value_setting_root ht, hf] at h
    exact h

/- Corresponding sides of one test have one function. -/
theorem sides_eq_of_value_eq
    {a : String}
    {low high low' high' : Decision}
    {bound bound' : Nat}
    (ht : (test a low high).Reduced order bound)
    (hu : (test a low' high').Reduced order bound')
    (hValue : ∀ ν,
      (test a low high).value ν = (test a low' high').value ν)
    (ν : String → Bool) :
    low.value ν = low'.value ν ∧
      high.value ν = high'.value ν := by
  constructor
  · have h := hValue (setting ν a false)
    rw [value_setting_root ht, value_setting_root hu] at h
    exact h
  · have h := hValue (setting ν a true)
    rw [value_setting_root ht, value_setting_root hu] at h
    exact h

/-
  A test at a place where the other tree does not depend on
  the name would have two sides of one function, so they
  would be equal.
-/
theorem ne_of_value_eq
    {a : String}
    {low high u : Decision}
    {bound level : Nat}
    (ht : (test a low high).Reduced order bound)
    (hu : u.Reduced order (level + 1))
    (hPlace : Forest.lastPlace? a 0 order = some level)
    (hSides : (∀ ν, low.value ν = high.value ν) → low = high) :
    ¬ ∀ ν, (test a low high).value ν = u.value ν := by
  intro hValue
  have hFree : ∀ ν x, u.value (setting ν a x) = u.value ν :=
    fun ν x => value_setting hu hPlace (Nat.lt_succ_self _) ν x
  have hEq : low = high := by
    apply hSides
    intro ν
    rcases sides_value_eq ht hFree hValue ν with ⟨hLow, hHigh⟩
    exact hLow.trans hHigh.symm
  rcases ht with ⟨_, _, _, hne, _⟩
  exact hne hEq

/- Reduced trees of one function are equal. -/
theorem eq_of_value_eq
    {t u : Decision}
    {bound bound' : Nat}
    (ht : t.Reduced order bound)
    (hu : u.Reduced order bound')
    (hValue : ∀ ν, t.value ν = u.value ν) :
    t = u := by
  -- Either sides of a single tree are compared, or sides of
  -- both, so the induction is on the tests of both.
  generalize hSize : t.size + u.size = n
  induction n using Nat.strongRecOn
    generalizing t u bound bound' with
  | _ n ih =>
      have hSides : ∀ {a low high bound},
          (test a low high).Reduced order bound →
          (test a low high).size ≤ n →
          (∀ ν, low.value ν = high.value ν) → low = high := by
        intro a low high bound hTest hSmall hSame
        rcases hTest with ⟨level, _, _, _, hLow, hHigh⟩
        rw [size] at hSmall
        exact ih (low.size + high.size) (by omega) hLow hHigh
          hSame rfl
      cases t with
      | leaf b =>
          cases u with
          | leaf c => rw [show b = c from hValue fun _ => false]
          | test c low high =>
              rcases id hu with ⟨level, hPlace, _⟩
              exfalso
              refine ne_of_value_eq hu (u := leaf b) trivial
                hPlace (hSides hu ?_) (fun ν => (hValue ν).symm)
              omega
      | test a low high =>
          rcases id ht with ⟨level, hPlace, _, hne, hLow, hHigh⟩
          cases u with
          | leaf c =>
              exfalso
              refine ne_of_value_eq ht (u := leaf c) trivial
                hPlace (hSides ht ?_) hValue
              omega
          | test c low' high' =>
              rcases id hu with
                ⟨level', hPlace', _, hne', hLow', hHigh'⟩
              rcases Nat.lt_trichotomy level level' with
                hLess | hSame | hMore
              · exfalso
                have hBelow : (test c low' high').Reduced order
                    (level + 1) :=
                  ⟨level', hPlace', hLess, hne', hLow', hHigh'⟩
                refine ne_of_value_eq ht hBelow hPlace
                  (hSides ht ?_) hValue
                omega
              · subst hSame
                rcases Forest.lastPlace?_inj hPlace hPlace' with rfl
                have hBoth := sides_eq_of_value_eq ht hu hValue
                rw [size, size] at hSize
                rw [ih (low.size + low'.size) (by omega) hLow hLow'
                    (fun ν => (hBoth ν).1) rfl,
                  ih (high.size + high'.size) (by omega) hHigh
                    hHigh' (fun ν => (hBoth ν).2) rfl]
              · exfalso
                have hBelow : (test a low high).Reduced order
                    (level' + 1) :=
                  ⟨level, hPlace, hMore, hne, hLow, hHigh⟩
                refine ne_of_value_eq hu hBelow hPlace'
                  (hSides hu ?_) (fun ν => (hValue ν).symm)
                omega

end Decision

end Gatework

------------------------------------------------------------
-- Dependence
------------------------------------------------------------

namespace Gatework

namespace Decision

variable {order : List String}

theorem setting_comm
    {a b : String}
    (hne : a ≠ b)
    (ν : String → Bool)
    (x y : Bool) :
    setting (setting ν b y) a x = setting (setting ν a x) b y := by
  funext n
  rw [setting, setting, setting, setting]
  by_cases ha : n = a
  · rw [if_pos ha, if_pos ha, if_neg (ha ▸ hne)]
  · rw [if_neg ha, if_neg ha]

/- A reduced tree depends on every name it tests. -/
theorem not_mem_names_of_free
    {t : Decision}
    {bound : Nat}
    (ht : t.Reduced order bound)
    {a : String}
    (hFree : ∀ ν x, t.value (setting ν a x) = t.value ν) :
    a ∉ t.names := by
  induction t generalizing bound with
  | leaf b => exact List.not_mem_nil
  | test b low high ihLow ihHigh =>
      rcases id ht with ⟨level, hPlace, _, hne, hLow, hHigh⟩
      have hRoot : a ≠ b := by
        rintro rfl
        apply hne
        apply eq_of_value_eq hLow hHigh
        intro ν
        rcases sides_value_eq ht hFree (fun _ => rfl) ν with
          ⟨hSame, hSame'⟩
        exact hSame.trans hSame'.symm
      -- A side is the tree with its root set.
      have hSide : ∀ (y : Bool) ν x,
          (if y then high else low).value (setting ν a x) =
            (if y then high else low).value ν := by
        intro y ν x
        rw [← value_setting_root ht (setting ν a x) y,
          ← setting_comm hRoot, hFree, value_setting_root ht]
      intro hMem
      rcases List.mem_cons.mp hMem with h | h
      · exact hRoot h
      · rcases List.mem_append.mp h with h | h
        · exact ihLow hLow (hSide false) h
        · exact ihHigh hHigh (hSide true) h

end Decision

end Gatework
