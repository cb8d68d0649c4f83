import Gatework.Output
import Gatework.Proofs.Definitions
import Gatework.Proofs.Lowering.Circuit

/-
  The values that the signals of a circuit settle at.

  A valuation of the signals that a circuit does not drive
  has one extension in which every driven signal has the
  value of its assignment, provided that the definitions of
  the circuit can be inlined.

  Key definitions include:
    * `Circuit.Binds`, the values a circuit needs
    * `Circuit.Settled` and `Circuit.Extends`

  Key theorems include:
    * `Circuit.exists_settled`
    * `Circuit.Settled.eq_of_extends`
    * `Circuit.Settled.eval_eq`
-/

------------------------------------------------------------
-- Valuations of circuits
------------------------------------------------------------

namespace Gatework

namespace Circuit

/- A value for each signal that is read but not driven. -/
def Binds
    (c : Circuit)
    (ρ : Valuation) :
    Prop :=
  ∀ n ∈ c.freeVars.names, ¬ c.assignments.contains n →
    (ρ n).isSome

/- The values of all signals that are not driven stay. -/
def Extends
    (c : Circuit)
    (ρ ρ' : Valuation) :
    Prop :=
  ∀ n, ¬ c.assignments.contains n → ρ' n = ρ n

/-
  Every driven signal has a value within its width, which is
  the value of its assignment.
-/
def Settled
    (c : Circuit)
    (ρ : Valuation) :
    Prop :=
  ∀ n a, c.assignments.find? n = some a →
    ∃ x, ρ n = some x ∧ x < 2 ^ widthIn c.signals n ∧
      a.value.eval ρ = .ok x

/- A signal that is read, at the width of its name. -/
def ReadIn
    (c : Circuit)
    (v : Var) :
    Prop :=
  Reads c.signals v ∧ v.name ∈ c.freeVars.names

variable {c : Circuit}

theorem oneWidth_readIn :
    OneWidth c.ReadIn := by
  intro v w hv hw
  exact oneWidth_reads c.signals v w hv.1 hw.1

theorem mem_names_foldl_union
    {as : List Assign}
    {seen : VarSet}
    {n : String} :
    n ∈ (as.foldl
        (fun acc a => VarSet.union acc a.value.freeVars)
        seen).names ↔
      n ∈ seen.names ∨
        ∃ a ∈ as, n ∈ a.value.freeVars.names := by
  induction as generalizing seen with
  | nil => simp
  | cons a as ih =>
      rw [List.foldl_cons, ih, VarSet.mem_names_union]
      simp [or_assoc]

/- What an assignment reads, its circuit reads. -/
theorem name_mem_freeVars
    {n : String}
    {a : Assign}
    (hFound : c.assignments.find? n = some a)
    {v : Var}
    (hv : v ∈ a.value.occurrences) :
    v.name ∈ c.freeVars.names := by
  apply mem_names_foldl_union.mpr
  right
  refine ⟨a, ?_, ?_⟩
  · exact List.mem_map_of_mem
      (NameMap.mem_entries_of_find?_eq_some hFound)
  · rw [Expr.mem_names_freeVars]
    exact List.mem_map_of_mem hv

theorem Proper.typed_value
    (hc : c.Proper)
    {n : String}
    {a : Assign}
    (hFound : c.assignments.find? n = some a) :
    a.value.Typed c.ReadIn := by
  apply (hc.driven.drives n a hFound).value.mono
  intro v hv hReads
  exact ⟨hReads, name_mem_freeVars hFound hv⟩

theorem Proper.width_value
    (hc : c.Proper)
    {n : String}
    {a : Assign}
    (hFound : c.assignments.find? n = some a) :
    a.value.width = widthIn c.signals n := by
  have hDrives := hc.driven.drives n a hFound
  have hRead : a.var.width = widthIn c.signals a.var.name :=
    hDrives.signal.2.2.2
  rw [hDrives.width_eq, hRead, hDrives.name_eq]

end Circuit

end Gatework

------------------------------------------------------------
-- Definitions of circuits
------------------------------------------------------------

namespace Gatework

namespace Circuit

/- What a circuit gives for each driven signal. -/
def values
    (c : Circuit) :
    Definitions :=
  c.assignments.map Assign.value

variable {c : Circuit}

theorem find?_values_iff
    {n : String}
    {d : Expr} :
    c.values.find? n = some d ↔
      ∃ a, c.assignments.find? n = some a ∧ a.value = d := by
  unfold values
  rw [NameMap.find?_map, Option.map_eq_some_iff]

theorem find?_values_eq_none_iff
    {n : String} :
    c.values.find? n = none ↔ ¬ c.assignments.contains n := by
  unfold values
  rw [NameMap.find?_map, Option.map_eq_none_iff,
    NameMap.not_contains_iff]

theorem Proper.sized_values
    (hc : c.Proper) :
    Definitions.Sized c.ReadIn c.values := by
  intro n d hDef
  rcases find?_values_iff.mp hDef with ⟨a, hFound, rfl⟩
  refine ⟨hc.typed_value hFound, ?_⟩
  rintro v ⟨hReads, _⟩ rfl
  exact Eq.trans hReads.2 (hc.width_value hFound).symm

end Circuit

end Gatework

------------------------------------------------------------
-- Settled circuits
------------------------------------------------------------

namespace Gatework

namespace Circuit

variable {c : Circuit}
variable {ρ ρ' : Valuation}

/- Every signal that is read has a value. -/
theorem Settled.bound
    (hSettled : c.Settled ρ')
    (hBinds : c.Binds ρ)
    (hExtends : c.Extends ρ ρ')
    {v : Var}
    (hv : c.ReadIn v) :
    ρ' v.name = some ((ρ' v.name).getD 0) := by
  cases hFound : c.assignments.find? v.name with
  | some a =>
      rcases hSettled v.name a hFound with ⟨x, hx, _⟩
      simp [hx]
  | none =>
      have hFree := NameMap.not_contains_iff.mpr hFound
      rw [hExtends v.name hFree]
      rcases Option.isSome_iff_exists.mp
          (hBinds v.name hv.2 hFree) with ⟨x, hx⟩
      simp [hx]

/- A settled valuation solves the definitions. -/
theorem Settled.solves
    (hc : c.Proper)
    (hSettled : c.Settled ρ')
    (hBinds : c.Binds ρ)
    (hExtends : c.Extends ρ ρ') :
    c.values.Solves fun n => (ρ' n).getD 0 := by
  intro n d hDef
  rcases find?_values_iff.mp hDef with ⟨a, hFound, rfl⟩
  rcases hSettled n a hFound with ⟨x, hx, _, hEval⟩
  have hValue := Expr.eval_eq_value
    (τ := fun n => (ρ' n).getD 0) fun v hv =>
      hSettled.bound hBinds hExtends
        ((hc.typed_value hFound).mem hv)
  rw [hEval] at hValue
  simp [← Except.ok.inj hValue, hx]

variable {sort : Digraph.Sorter}
variable {resolved : Definitions}

/- There is a settled extension: inlining gives its values. -/
theorem exists_settled
    (hSort : Digraph.Sorts sort)
    (hc : c.Proper)
    (hResolve : Output.definitions sort c = .ok resolved)
    (hBinds : c.Binds ρ) :
    ∃ ρ', c.Extends ρ ρ' ∧ c.Settled ρ' := by
  rcases Definitions.resolveBy_spec hSort hc.sized_values hResolve
    with ⟨hInlined, hAll⟩
  let τ := Expr.replacedValue resolved.find? fun n =>
    (ρ n).getD 0
  have hSolves : c.values.Solves τ := hInlined.solves hAll _
  let ρ' : Valuation := fun n =>
    if c.assignments.contains n then some (τ n) else ρ n
  have hBound : ∀ v, c.ReadIn v → ρ' v.name = some (τ v.name) := by
    intro v hv
    dsimp only [ρ']
    split
    case isTrue => rfl
    case isFalse hFree =>
        have hNone : resolved.find? v.name = none := by
          cases hFound : resolved.find? v.name with
          | none => rfl
          | some e =>
              rcases hInlined v.name e hFound with ⟨d, hDef, _⟩
              rw [find?_values_eq_none_iff.mpr hFree] at hDef
              cases hDef
        rcases Option.isSome_iff_exists.mp
            (hBinds v.name hv.2 hFree) with ⟨x, hx⟩
        simp only [τ, Expr.replacedValue, hNone, hx,
          Option.getD_some]
  refine ⟨ρ', fun n hFree => if_neg hFree, ?_⟩
  intro n a hFound
  have hHas : c.assignments.contains n = true :=
    NameMap.contains_eq_true_iff.mpr ⟨a, hFound⟩
  have hTyped := hc.typed_value hFound
  have hValue : a.value.value τ = τ n :=
    hSolves n a.value (find?_values_iff.mpr ⟨a, hFound, rfl⟩)
  refine ⟨τ n, if_pos hHas, ?_, ?_⟩
  · rw [← hValue, ← hc.width_value hFound]
    exact hTyped.value_lt τ
  · rw [← hValue]
    exact Expr.eval_eq_value fun v hv => hBound v (hTyped.mem hv)

/- Two settled extensions of one valuation are the same. -/
theorem Settled.eq_of_extends
    (hSort : Digraph.Sorts sort)
    (hc : c.Proper)
    (hResolve : Output.definitions sort c = .ok resolved)
    (hBinds : c.Binds ρ)
    {ρ₁ ρ₂ : Valuation}
    (hSettled₁ : c.Settled ρ₁)
    (hExtends₁ : c.Extends ρ ρ₁)
    (hSettled₂ : c.Settled ρ₂)
    (hExtends₂ : c.Extends ρ ρ₂) :
    ρ₁ = ρ₂ := by
  rcases Definitions.resolveBy_spec hSort hc.sized_values hResolve
    with ⟨hInlined, hAll⟩
  -- Both solve the definitions from the same open signals.
  have hSame : ∀ ρ', c.Settled ρ' → c.Extends ρ ρ' →
      (fun n => (ρ' n).getD 0) =
        Expr.replacedValue resolved.find? fun n =>
          (ρ n).getD 0 := by
    intro ρ' hSettled hExtends
    apply hInlined.eq_of_solves hAll
      (hSettled.solves hc hBinds hExtends)
    intro n hNone
    rw [hExtends n (find?_values_eq_none_iff.mp hNone)]
  have hValues := (hSame ρ₁ hSettled₁ hExtends₁).trans
    (hSame ρ₂ hSettled₂ hExtends₂).symm
  funext n
  cases hFound : c.assignments.find? n with
  | none =>
      have hFree := NameMap.not_contains_iff.mpr hFound
      rw [hExtends₁ n hFree, hExtends₂ n hFree]
  | some a =>
      rcases hSettled₁ n a hFound with ⟨x, hx, _⟩
      rcases hSettled₂ n a hFound with ⟨y, hy, _⟩
      have hAt := congrFun hValues n
      simp only [hx, hy, Option.getD_some] at hAt
      rw [hx, hy, hAt]

/-
  An expression of undriven signals that stands for a driven
  one has its value in every settled extension.
-/
theorem Settled.eval_eq
    (hc : c.Proper)
    (hBinds : c.Binds ρ)
    (hSettled : c.Settled ρ')
    (hExtends : c.Extends ρ ρ')
    {e : Expr}
    (he : e.Typed (Definitions.Open c.ReadIn c.values))
    {n : String}
    (hValue : ∀ τ, c.values.Solves τ → e.value τ = τ n)
    (hDriven : c.assignments.contains n = true) :
    ∃ x, ρ' n = some x ∧ e.eval ρ' = .ok x := by
  rcases NameMap.contains_eq_true_iff.mp hDriven with ⟨a, hFound⟩
  rcases hSettled n a hFound with ⟨x, hx, _⟩
  refine ⟨x, hx, ?_⟩
  have hEval := Expr.eval_eq_value
    (τ := fun n => (ρ' n).getD 0) fun v hv =>
      hSettled.bound hBinds hExtends (he.mem hv).1
  rw [hEval, hValue _ (hSettled.solves hc hBinds hExtends)]
  simp [hx]

end Circuit

end Gatework
