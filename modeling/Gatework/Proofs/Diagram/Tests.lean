import Gatework.Hdl.Lexer
import Gatework.Proofs.Diagram.Build
import Gatework.Proofs.Diagram.Text
import Gatework.Proofs.NameMap

/-
  The tests of signals.

  Signals whose names have no bracket, each at one width, have
  a test for every bit and no test in common. So values of
  tests and values of signals determine each other, and a
  diagram that shows a bit of an expression tests bits of its
  signals only.

  Key definitions include:
    * `Named`, names as they are written in a module
    * `Unbracketed`, names without a bracket
    * `IsTest`, the tests of a set of signals

  Key theorems include:
    * `Var.testName_inj`
    * `exists_follows` and `exists_follows_of_tests`
    * `Expr.mem_bitVariables_iff`
-/

------------------------------------------------------------
-- Names of tests
------------------------------------------------------------

namespace Gatework

/- Every name is made of the characters of names. -/
def Named
    (Γ : Var → Prop) :
    Prop :=
  ∀ v, Γ v → ∀ c ∈ v.name.toList, Hdl.isNameChar c = true

/- No name has the mark that opens the index of a test. -/
def Unbracketed
    (Γ : Var → Prop) :
    Prop :=
  ∀ v, Γ v → '[' ∉ v.name.toList

/- A test of one of the signals. -/
def IsTest
    (Γ : Var → Prop)
    (a : String) :
    Prop :=
  ∃ v, Γ v ∧ ∃ i, i < v.width ∧ a = v.testName i

theorem toList_bitName
    (name : String)
    (i : Nat) :
    (bitName name i).toList =
      name.toList ++ '[' :: (Nat.toDigits 10 i ++ [']']) := by
  rw [bitName, String.toList_append, String.toList_append,
    String.toList_append, List.append_assoc, List.append_assoc,
    Nat.toString_eq_repr, Nat.toList_repr]
  rfl

theorem toDigits_inj
    {i j : Nat}
    (hSame : Nat.toDigits 10 i = Nat.toDigits 10 j) :
    i = j := by
  rw [← Nat.ofDigitChars_ten_toDigits (n := i), hSame,
    Nat.ofDigitChars_ten_toDigits]

variable {Γ : Var → Prop}

theorem Named.not_mem
    (hNamed : Named Γ)
    {v : Var}
    (hv : Γ v)
    {c : Char}
    (hc : Hdl.isNameChar c = false) :
    c ∉ v.name.toList := by
  intro hMem
  have hTrue := hNamed v hv c hMem
  rw [hc] at hTrue
  cases hTrue

theorem Named.unbracketed
    (hNamed : Named Γ) :
    Unbracketed Γ := by
  intro v hv
  exact hNamed.not_mem hv (by decide)

/- A test belongs to one bit of one signal. -/
theorem Var.testName_inj
    (hNames : Unbracketed Γ)
    {v w : Var}
    (hv : Γ v)
    (hw : Γ w)
    {i j : Nat}
    (hi : i < v.width)
    (hj : j < w.width)
    (hSame : v.testName i = w.testName j) :
    v.name = w.name ∧ i = j := by
  -- A name in brackets is not the name of a signal.
  have hBracket : ∀ {u : Var} {name : String} {k : Nat},
      Γ u → u.name ≠ bitName name k := by
    intro u name k hu hName
    apply hNames u hu
    rw [hName, toList_bitName]
    exact List.mem_append_right _ (List.mem_cons_self ..)
  unfold testName at hSame
  by_cases hvOne : v.width = 1
  · by_cases hwOne : w.width = 1
    · rw [if_pos hvOne, if_pos hwOne] at hSame
      exact ⟨hSame, by omega⟩
    · rw [if_pos hvOne, if_neg hwOne] at hSame
      exact absurd hSame (hBracket hv)
  · by_cases hwOne : w.width = 1
    · rw [if_neg hvOne, if_pos hwOne] at hSame
      exact absurd hSame.symm (hBracket hw)
    · rw [if_neg hvOne, if_neg hwOne] at hSame
      have hChars := congrArg String.toList hSame
      rw [toList_bitName, toList_bitName] at hChars
      rcases eq_of_append_mark (hNames v hv) (hNames w hw)
        hChars with ⟨hName, hDigits⟩
      exact ⟨String.toList_inj.mp hName,
        toDigits_inj (List.append_cancel_right hDigits)⟩

/- Tests have no commas. -/
theorem IsTest.not_mem_comma
    (hNamed : Named Γ)
    {a : String}
    (ha : IsTest Γ a) :
    ',' ∉ a.toList := by
  rcases ha with ⟨v, hv, i, hi, rfl⟩
  have hName : ',' ∉ v.name.toList :=
    hNamed.not_mem hv (by decide)
  unfold Var.testName
  split
  case isTrue => exact hName
  case isFalse =>
      rw [toList_bitName, List.mem_append, List.mem_cons,
        List.mem_append, List.mem_singleton]
      rintro (h | h | h | h)
      · exact hName h
      · cases h
      · have hDigit := Nat.isDigit_of_mem_toDigits (by omega)
          (by omega) h
        revert hDigit
        decide
      · cases h

end Gatework

------------------------------------------------------------
-- Values of tests and values of signals
------------------------------------------------------------

namespace Gatework

variable {Γ : Var → Prop}

/- Some number has given low bits. -/
theorem exists_testBit_eq
    (width : Nat)
    (bits : Nat → Bool) :
    ∃ x : Nat, ∀ i, i < width → x.testBit i = bits i := by
  induction width generalizing bits with
  | zero => exact ⟨0, fun i hi => absurd hi (Nat.not_lt_zero i)⟩
  | succ width ih =>
      rcases ih (fun i => bits (i + 1)) with ⟨x, hx⟩
      refine ⟨2 * x + (bits 0).toNat, ?_⟩
      intro i hi
      cases i with
      | zero =>
          rw [Nat.testBit_zero]
          cases bits 0
          · simp
          · simp
      | succ i =>
          have hHalf : (2 * x + (bits 0).toNat) / 2 = x := by
            cases bits 0
            · simp
            · simp [Nat.mul_add_div]
          rw [Nat.testBit_succ, hHalf]
          exact hx i (by omega)

theorem Follows.mono
    {Δ : Var → Prop}
    {τ : String → Nat}
    {ν : String → Bool}
    (hFollows : Follows Δ τ ν)
    (hSub : ∀ v, Γ v → Δ v) :
    Follows Γ τ ν :=
  fun v hv => hFollows v (hSub v hv)

/- Tests take their values from the signals. -/
theorem exists_follows
    (hNames : Unbracketed Γ)
    (τ : String → Nat) :
    ∃ ν, Follows Γ τ ν := by
  classical
  refine ⟨fun a => decide (∃ v, Γ v ∧ ∃ i, i < v.width ∧
    a = v.testName i ∧ (τ v.name).testBit i = true), ?_⟩
  intro v hv i hi
  rw [Bool.eq_iff_iff, decide_eq_true_iff]
  constructor
  · rintro ⟨w, hw, j, hj, hName, hBit⟩
    rcases Var.testName_inj hNames hv hw hi hj hName with
      ⟨hSame, rfl⟩
    rw [hSame]
    exact hBit
  · intro hBit
    exact ⟨v, hv, i, hi, rfl, hBit⟩

/- Signals take their values from the tests. -/
theorem exists_follows_of_tests
    (hOne : OneWidth Γ)
    (ν : String → Bool) :
    ∃ τ, Follows Γ τ ν := by
  have hValue : ∀ n, ∃ x : Nat, ∀ v, Γ v → v.name = n →
      ∀ i, i < v.width → ν (v.testName i) = x.testBit i := by
    intro n
    by_cases hSome : ∃ v, Γ v ∧ v.name = n
    · rcases hSome with ⟨v, hv, hName⟩
      rcases exists_testBit_eq v.width (fun i => ν (v.testName i))
        with ⟨x, hx⟩
      refine ⟨x, ?_⟩
      intro w hw hOther i hi
      have hWidth := hOne w v hw hv (hOther.trans hName.symm)
      have hTest : w.testName i = v.testName i := by
        rw [Var.testName, Var.testName, hWidth, hOther, hName]
      rw [hTest, hx i (hWidth ▸ hi)]
    · refine ⟨0, ?_⟩
      intro w hw hOther
      exact absurd ⟨w, hw, hOther⟩ hSome
  refine ⟨fun n => Classical.choose (hValue n), ?_⟩
  intro v hv i hi
  exact Classical.choose_spec (hValue v.name) v hv rfl i hi

/- Signals do not see a name that is no test of them. -/
theorem Follows.setting
    {τ : String → Nat}
    {ν : String → Bool}
    (hFollows : Follows Γ τ ν)
    {a : String}
    (ha : ¬ IsTest Γ a)
    (x : Bool) :
    Follows Γ τ (Decision.setting ν a x) := by
  intro v hv i hi
  have hOther : v.testName i ≠ a := by
    rintro rfl
    exact ha ⟨v, hv, i, hi, rfl⟩
  rw [Decision.setting, if_neg hOther]
  exact hFollows v hv i hi

end Gatework

------------------------------------------------------------
-- The tests of an expression
------------------------------------------------------------

namespace Gatework

namespace Expr

/- The names listed are the tests of what is read. -/
theorem mem_bitVariables_iff
    {e : Expr}
    (hOne : OneWidth (· ∈ e.occurrences))
    {a : String} :
    a ∈ e.bitVariables ↔ IsTest (· ∈ e.occurrences) a := by
  rw [bitVariables, mem_sortedNames, List.mem_flatMap]
  constructor
  · intro hListed
    rcases hListed with ⟨v, hv, ha⟩
    refine ⟨v, mem_occurrences_of_mem_freeVars hv, ?_⟩
    unfold Var.testName
    by_cases hScalar : v.width = 1
    · rw [if_pos hScalar] at ha
      refine ⟨0, by omega, ?_⟩
      rw [if_pos hScalar]
      exact List.mem_singleton.mp ha
    · rw [if_neg hScalar] at ha
      rcases List.mem_map.mp ha with ⟨i, hi, hName⟩
      refine ⟨i, List.mem_range.mp hi, ?_⟩
      rw [if_neg hScalar]
      exact hName.symm
  · intro hTest
    rcases hTest with ⟨v, hv, i, hi, rfl⟩
    have hName : v.name ∈ e.freeVars.names :=
      (mem_names_freeVars e v.name).mpr (List.mem_map_of_mem hv)
    rcases List.mem_map.mp hName with ⟨w, hw, hSame⟩
    have hWidth : w.width = v.width :=
      hOne w v (mem_occurrences_of_mem_freeVars hw) hv hSame
    refine ⟨w, hw, ?_⟩
    rw [hSame, hWidth, Var.testName]
    split
    case isTrue => exact List.mem_singleton.mpr rfl
    case isFalse =>
        exact List.mem_map.mpr ⟨i, List.mem_range.mpr hi, rfl⟩

/- The order of an expression has all its tests. -/
theorem covers_bitVariables
    {e : Expr}
    (hOne : OneWidth (· ∈ e.occurrences)) :
    Building.Covers (· ∈ e.occurrences) e.bitVariables :=
  fun v hv i hi =>
    (mem_bitVariables_iff hOne).mpr ⟨v, hv, i, hi, rfl⟩

end Expr

end Gatework
