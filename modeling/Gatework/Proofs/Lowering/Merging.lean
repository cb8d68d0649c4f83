import Gatework.Proofs.Hdl.Finishes
import Gatework.Proofs.Lowering.Driven
import Mathlib.Data.List.Pairwise
import Mathlib.Tactic.Choose

/-
  Drivers are merged bit by bit, in any order.

  A module whose drivers can each be lowered alone is lowered
  as a whole unless two of them drive the same bit. Each bit
  of a signal that assignments drive is the one that the only
  assignment to it gives, or 0. So the order of assignments
  and processes plays no part.

  Key definitions include:
    * `Circuit.Joins` and `Circuit.SameFunctions`
    * `Lower.outcome`, what a module is lowered to
    * `Lower.Binds`, the declarations of a module are bound
    * `Hdl.ModuleDecl.Reorders`

  Key theorems include:
    * `Lower.outcome_only`
    * `Lower.outcome_driver`
    * `Lower.outcome_merges_drivers`
-/

------------------------------------------------------------
-- What circuits compute
------------------------------------------------------------

namespace Gatework

namespace Circuit

/-
  Every signal that some assignments write has the bits of
  these assignments: wherever the signals that they read have
  values, a bit is the one that the assignment covering it
  gives, and 0 if none does.
-/
def Joins
    (parts : List Assign)
    (c : Circuit) :
    Prop :=
  ∀ n, (∃ b ∈ parts, b.var.name = n) →
    ∃ a, c.assignments.find? n = some a ∧
      ∀ ρ : Valuation,
        (∀ b ∈ parts, b.var.name = n →
          ∀ m ∈ b.value.freeVars.names, (ρ m).isSome = true) →
        ∃ x, a.value.eval ρ = .ok x ∧ ∀ i,
          (∀ b ∈ parts, b.target.Covers n i →
            ∃ y, b.value.eval ρ = .ok y ∧
              x.testBit i = y.testBit (i - b.target.low)) ∧
          ((∀ b ∈ parts, ¬ b.target.Covers n i) →
            x.testBit i = false)

/-
  The same signals are driven, and each has the same value
  wherever the signals that it is computed from have values.
-/
def SameFunctions
    (c c' : Circuit) :
    Prop :=
  ∀ k,
    (c.assignments.find? k).isSome =
      (c'.assignments.find? k).isSome ∧
    ∀ a a', c.assignments.find? k = some a →
      c'.assignments.find? k = some a' →
      ∀ ρ : Valuation,
        (∀ n ∈ a.value.freeVars.names ++ a'.value.freeVars.names,
          (ρ n).isSome = true) →
        ∃ x, a.value.eval ρ = .ok x ∧ a'.value.eval ρ = .ok x

end Circuit

namespace Lower

/- What a module is lowered to. -/
def outcome
    (setting : Setting)
    (p : Progress)
    (decl : Hdl.ModuleDecl) :
    Except LowerError Circuit :=
  (circuit decl setting p).1

end Lower

end Gatework

------------------------------------------------------------
-- Lowered modules
------------------------------------------------------------

namespace Gatework

namespace Lower

variable {setting : Setting}
variable {p p₁ : Progress}
variable {decl : Hdl.ModuleDecl}
variable {pins : List Pin}
variable {us : List Hdl.Item}

/- The declarations of a module are bound. -/
def Binds
    (setting : Setting)
    (p : Progress)
    (decl : Hdl.ModuleDecl)
    (pins : List Pin)
    (p₁ : Progress) :
    Prop :=
  bind decl setting { p with scope := {} } = (.ok pins, p₁)

/- The circuit of a draft, with the signals in scope. -/
def finished
    (d : Draft) :
    Lower Circuit := do
  let scope := (← get).scope
  return { d.circuit with
    signals := scope.signals
    ranges := scope.ranges }

/- What is declared does not depend on the drivers. -/
theorem circuit_only
    (hus : ∀ u ∈ us, u.isDeclaration = false) :
    circuit (decl.only us) = (do
      modify fun p => { p with scope := {} }
      let pins ← bind decl
      us.foldlM item { circuit := { name := decl.name, pins } } >>=
        finished) := by
  unfold circuit
  rw [bind_only hus]
  simp only [items_only]
  rfl

theorem outcome_only_eq
    (hBinds : Binds setting p decl pins p₁)
    (hus : ∀ u ∈ us, u.isDeclaration = false) :
    outcome setting p (decl.only us) =
      ((us.foldlM item { circuit := { name := decl.name, pins } } >>=
        finished) setting p₁).1 := by
  rw [outcome, circuit_only hus, bind_apply]
  change ((bind decl >>= _) setting { p with scope := {} }).1 = _
  rw [bind_apply, hBinds]

theorem Binds.valid
    (hBinds : Binds setting p decl pins p₁)
    (hDecl : decl.Given) :
    ValidSignals p₁.scope.signals := by
  have hLeads : Leads False (· = {}) (bind decl) _ :=
    leads_bind hDecl
  have hScope := hLeads setting { p with scope := {} } rfl
  rw [hBinds] at hScope
  rcases hScope with ⟨rest, hScope⟩
  exact hScope.valid

theorem merges_finished
    {scope : Scope}
    {clash : Prop}
    (d : Draft) :
    Merges setting scope.Agrees clash (finished d)
      (fun c => c = { d.circuit with
        signals := scope.signals
        ranges := scope.ranges }) := by
  intro p hp
  refine ⟨hp, ?_⟩
  rw [← hp.1, ← hp.2]

/-
  A run that stops only at a clash, and not without one, says
  whether there is one.
-/
theorem Merges.result
    {α : Type}
    {I : Scope → Prop}
    {apart : Prop}
    {m : Lower α}
    {P : α → Prop}
    (hm : Merges setting I (¬ apart) m (fun a => apart ∧ P a))
    (hp : I p.scope) :
    ((∃ name span other,
        (m setting p).1 = .error (.drivenTwice name span other)) ↔
      ¬ apart) ∧
    ((∃ a, (m setting p).1 = .ok a) ↔ apart) ∧
    ∀ a, (m setting p).1 = .ok a → P a := by
  have hRun := hm p hp
  generalize m setting p = run at hRun
  rcases run with ⟨result, p'⟩
  cases result with
  | error e =>
      rcases hRun with ⟨⟨name, span, other, rfl⟩, hClash⟩
      refine ⟨iff_of_true ⟨name, span, other, rfl⟩ hClash,
        iff_of_false ?_ hClash, nofun⟩
      rintro ⟨a, ⟨⟩⟩
  | ok a =>
      rcases hRun with ⟨_, hApart, ha⟩
      refine ⟨iff_of_false ?_ (not_not_intro hApart),
        iff_of_true ⟨a, rfl⟩ hApart, ?_⟩
      · rintro ⟨_, _, _, ⟨⟩⟩
      · rintro _ ⟨⟩
        exact ha

/-
  The shares of drivers decide together what a module with
  these drivers is lowered to.
-/
theorem outcome_only
    (hBinds : Binds setting p decl pins p₁)
    (hDecl : decl.Given)
    (hus : ∀ u ∈ us, u.isDeclaration = false)
    (hGiven : ∀ u ∈ us, u.Given)
    {shares : Hdl.Item → Share}
    (hGives : ∀ u ∈ us, Gives setting p₁.scope u (shares u)) :
    ((∃ name span other, outcome setting p (decl.only us) =
        .error (.drivenTwice name span other)) ↔
      ¬ (us.flatMap fun u =>
        (shares u).portions).Pairwise Portion.Apart) ∧
    ((∃ c, outcome setting p (decl.only us) = .ok c) ↔
      (us.flatMap fun u =>
        (shares u).portions).Pairwise Portion.Apart) ∧
    ∀ c, outcome setting p (decl.only us) = .ok c →
      c.Assembles p₁.scope.signals
        (us.flatMap fun u => (shares u).portions) := by
  have hItems := merges_items (hBinds.valid hDecl) hus hGiven hGives
    (Draft.takes_start p₁.scope.signals decl.name pins)
  rw [List.nil_append] at hItems
  rw [outcome_only_eq hBinds hus]
  refine Merges.result (I := p₁.scope.Agrees)
    (hItems.bind fun d hd => ?_) ⟨rfl, rfl⟩
  refine (merges_finished d).imp id ?_
  rintro c rfl
  exact ⟨hd.apart, hd.assembles.inside, hd.assembles.assigned_iff,
    hd.assembles.gathers⟩

/- A circuit with nothing but a share, in a scope. -/
def Share.Makes
    (scope : Scope)
    (start c : Circuit)
    (sh : Share) :
    Prop :=
  ∃ d, sh.Leaves { circuit := start } d ∧
    c = { d.circuit with
      signals := scope.signals
      ranges := scope.ranges }

/- A driver that can be lowered alone makes up its circuit. -/
theorem exists_place
    (hBinds : Binds setting p decl pins p₁)
    (hDecl : decl.Given)
    {u : Hdl.Item}
    (hDriver : u.isDeclaration = false)
    (hu : u.Given)
    {c : Circuit}
    (hAlone : outcome setting p (decl.only [u]) = .ok c) :
    ∃ sh p₂, share u setting p₁ = (.ok sh, p₂) ∧
      sh.Proper setting.options.fallback p₁.scope.signals ∧
      sh.portions.Pairwise Portion.Apart ∧
      sh.Makes p₁.scope { name := decl.name, pins } c := by
  rw [outcome_only_eq hBinds (by simpa using hDriver),
    List.foldlM_cons] at hAlone
  simp only [List.foldlM_nil, bind_pure] at hAlone
  rw [item_eq _ hDriver, bind_assoc, bind_apply] at hAlone
  generalize hShare : share u setting p₁ = run at hAlone
  rcases run with ⟨result, p₂⟩
  cases result with
  | error e => cases hAlone
  | ok sh =>
      rcases reaches_share (hBinds.valid hDecl) hu p₁ ⟨rfl, rfl⟩ _
        _ hShare with ⟨hAgrees, hProper⟩
      have hPlace : Merges setting p₁.scope.Agrees _ _ _ :=
        merges_place hProper
          (Draft.takes_start p₁.scope.signals decl.name pins)
      rw [List.nil_append] at hPlace
      have hFinish := hPlace.bind (f := finished)
        (Q := fun c => sh.portions.Pairwise Portion.Apart ∧
          sh.Makes p₁.scope { name := decl.name, pins } c)
        fun d hd => (merges_finished d).imp id
          fun c hc => ⟨hd.1.apart, d, hd.2, hc⟩
      rcases hFinish.result hAgrees with ⟨_, hOk, hResult⟩
      exact ⟨sh, p₂, rfl, hProper, hOk.mp ⟨c, hAlone⟩,
        hResult c hAlone⟩

/-
  What a module with one driver is lowered to: the assignment
  is the driver of its signal, and a process stands by itself.
-/
theorem outcome_driver
    (hBinds : Binds setting p decl pins p₁)
    (hDecl : decl.Given)
    {u : Hdl.Item}
    (hDriver : u.isDeclaration = false)
    (hu : u.Given)
    {c : Circuit}
    (hAlone : outcome setting p (decl.only [u]) = .ok c) :
    (∀ a, u.assign? setting p₁ = some a →
      c.processes = [] ∧
        c.drivers.find? a.var.name = some (.assign a)) ∧
    ∀ s, u.process? setting p₁ = some s → c.processes = [s] := by
  rcases exists_place hBinds hDecl hDriver hu hAlone with
    ⟨sh, p₂, hShare, _, _, d, hLeaves, rfl⟩
  have hOf := isOf_share hShare
  cases sh with
  | idle =>
      rcases hOf with ⟨hAssign, hProcess⟩
      rw [hAssign, hProcess]
      exact ⟨nofun, nofun⟩
  | field b span text =>
      rcases hOf with ⟨hAssign, hProcess⟩
      rcases hLeaves with ⟨hNone, hDrivers⟩
      rw [hAssign, hProcess]
      refine ⟨?_, nofun⟩
      rintro a ⟨⟩
      refine ⟨hNone, ?_⟩
      dsimp only
      rw [hDrivers rfl, NameMap.find?_insert, if_pos rfl]
  | process q span slots =>
      rcases hOf with ⟨hAssign, hProcess⟩
      rw [hAssign, hProcess]
      refine ⟨nofun, ?_⟩
      rintro s ⟨⟩
      exact hLeaves

/- A driver that can be lowered alone contributes its share. -/
theorem exists_contribution
    (hBinds : Binds setting p decl pins p₁)
    (hDecl : decl.Given)
    {u : Hdl.Item}
    (hDriver : u.isDeclaration = false)
    (hu : u.Given)
    (hAlone : (outcome setting p (decl.only [u])).isOk = true) :
    ∃ sh, Gives setting p₁.scope u sh ∧
      sh.portions.Pairwise Portion.Apart ∧
      u.Contributes setting p₁ sh.portions := by
  generalize hResult : outcome setting p (decl.only [u]) = result
    at hAlone
  cases result with
  | error e => cases hAlone
  | ok c =>
      rcases exists_place hBinds hDecl hDriver hu hResult with
        ⟨found, p₂, hShare, hProper, hApart, _⟩
      have hContributes := hProper.contributes (isOf_share hShare)
      rcases exists_gives ⟨rfl, rfl⟩ hShare with ⟨sh, hGives, rfl⟩
      rw [Share.portions_later] at hApart hContributes
      exact ⟨sh, hGives, hApart, hContributes⟩

end Lower

end Gatework

------------------------------------------------------------
-- Merging
------------------------------------------------------------

namespace Gatework

variable {signals : NameMap Var}
variable {portions portions' : List Portion}
variable {c c' : Circuit}

instance : Std.Symm Portion.Apart :=
  ⟨fun _ _ hApart => hApart.symm⟩

/- Portions that have a bit in common are the same. -/
theorem Portion.eq_of_covers
    (hApart : portions.Pairwise Portion.Apart)
    {P Q : Portion}
    (hP : P ∈ portions)
    (hQ : Q ∈ portions)
    {n : String}
    {i : Nat}
    (hCoversP : P.Covers n i)
    (hCoversQ : Q.Covers n i) :
    P = Q := by
  by_contra hNe
  exact hApart.forall hP hQ hNe n i hCoversP hCoversQ

theorem Expr.eval_eq_value_getD
    {ρ : Valuation}
    {e : Expr}
    (hBound : ∀ v ∈ e.occurrences, (ρ v.name).isSome = true) :
    e.eval ρ = .ok (e.value fun n => (ρ n).getD 0) := by
  apply Expr.eval_eq_value
  intro v hv
  rcases Option.isSome_iff_exists.mp (hBound v hv) with ⟨x, hx⟩
  rw [hx, Option.getD_some]

namespace Circuit

/- Circuits from the same portions compute the same. -/
theorem Assembles.sameFunctions
    (h : c.Assembles signals portions)
    (h' : c'.Assembles signals portions')
    (hSame : ∀ P, P ∈ portions ↔ P ∈ portions') :
    c.SameFunctions c' := by
  intro k
  constructor
  · rw [Bool.eq_iff_iff, h.assigned_iff, h'.assigned_iff]
    simp only [hSame]
  · intro a a' ha ha' ρ hBound
    simp only [List.forall_mem_append] at hBound
    have hEval : ∀ {e : Expr},
        (∀ n ∈ e.freeVars.names, (ρ n).isSome = true) →
        e.eval ρ = .ok (e.value fun n => (ρ n).getD 0) := by
      intro e he
      refine Expr.eval_eq_value_getD fun v hv => he v.name ?_
      exact (Expr.mem_names_freeVars e _).mpr (List.mem_map_of_mem hv)
    refine ⟨_, hEval hBound.1, ?_⟩
    rw [hEval hBound.2]
    congr 1
    apply Nat.eq_of_testBit_eq
    intro i
    rw [Bool.eq_iff_iff, (h.gathers k a ha).bit_iff,
      (h'.gathers k a' ha').bit_iff]
    simp only [hSame]

/-
  Where assignments give all portions of their signals and no
  portions share a bit, each bit is the one that the only
  assignment covering it gives.
-/
theorem Assembles.joins
    {parts : List Assign}
    (h : c.Assembles signals portions)
    (hApart : portions.Pairwise Portion.Apart)
    (hParts : ∀ b ∈ parts, b.portion ∈ portions)
    (hWhole : ∀ P ∈ portions, (∃ b ∈ parts, b.portion = P) ∨
      P.low = 0 ∧ P.width = widthIn signals P.name) :
    c.Joins parts := by
  rintro n ⟨b, hb, rfl⟩
  -- A portion of all bits would cover those of the assignment.
  have hAssigned : ∀ P ∈ portions, P.name = b.var.name →
      ∃ b' ∈ parts, b'.portion = P := by
    intro P hP hName
    rcases hWhole P hP with hAssigns | hAll
    · exact hAssigns
    · by_cases hSame : b.portion = P
      · exact ⟨b, hb, hSame⟩
      · exact absurd hName.symm (Portion.name_ne_of_apart
          (h.inside _ (hParts b hb)) hAll
          (hApart.forall (hParts b hb) hP hSame))
  have hSome := (h.assigned_iff b.var.name).mpr
    ⟨b.portion, hParts b hb, rfl⟩
  rcases Option.isSome_iff_exists.mp hSome with ⟨a, ha⟩
  have hGathers := h.gathers _ a ha
  refine ⟨a, ha, fun ρ hBound => ?_⟩
  have hValue : ∀ b' ∈ parts, b'.var.name = b.var.name →
      ∀ v ∈ b'.value.occurrences, (ρ v.name).isSome = true := by
    intro b' hb' hName v hv
    refine hBound b' hb' hName v.name ?_
    exact (Expr.mem_names_freeVars _ _).mpr (List.mem_map_of_mem hv)
  refine ⟨_, Expr.eval_eq_value_getD ?_, fun i => ⟨?_, ?_⟩⟩
  · intro v hv
    rcases (hGathers.typed.mem hv).2 with ⟨P, hP, hName, hRead⟩
    rcases hAssigned P hP hName with ⟨b', hb', rfl⟩
    rcases List.mem_map.mp hRead with ⟨w, hw, hSame⟩
    rw [← hSame]
    exact hValue b' hb' hName w hw
  · intro b' hb' hCovers
    refine ⟨_, Expr.eval_eq_value_getD (hValue b' hb' hCovers.1), ?_⟩
    rw [Bool.eq_iff_iff, hGathers.bit_iff]
    constructor
    · rintro ⟨P, hP, hSets⟩
      have hSame := Portion.eq_of_covers hApart hP (hParts b' hb')
        hSets.1 hCovers
      rw [hSame] at hSets
      exact hSets.2
    · intro hBit
      exact ⟨b'.portion, hParts b' hb', hCovers, hBit⟩
  · intro hNone
    rw [Bool.eq_false_iff, Ne, hGathers.bit_iff]
    rintro ⟨P, hP, hSets⟩
    rcases hAssigned P hP hSets.1.1 with ⟨b', hb', rfl⟩
    exact hNone b' hb' hSets.1

end Circuit

end Gatework

------------------------------------------------------------
-- Order
------------------------------------------------------------

namespace Gatework

namespace Hdl.ModuleDecl

variable {decl decl' : ModuleDecl}

/-
  The items are permuted, but the declarations among them
  stand in the same order.
-/
structure Reorders
    (decl' decl : ModuleDecl) :
    Prop where
  same : decl' = { decl with items := decl'.items }
  perm : decl'.items.Perm decl.items
  declarations : decl'.items.filter Item.isDeclaration =
    decl.items.filter Item.isDeclaration

theorem flatMap_declarations
    (items : List Item) :
    items.flatMap Item.declarations =
      (items.filter Item.isDeclaration).flatMap
        Item.declarations := by
  induction items with
  | nil => rfl
  | cons i items ih =>
      rw [List.flatMap_cons, ih]
      cases i <;> rfl

theorem Reorders.only_eq
    (h : decl'.Reorders decl)
    (us : List Item) :
    decl'.only us = decl.only us := by
  unfold only
  rw [flatMap_declarations decl'.items, h.declarations,
    ← flatMap_declarations, h.same]

theorem Reorders.drivers_perm
    (h : decl'.Reorders decl) :
    decl'.drivers.Perm decl.drivers :=
  h.perm.flatMap_right Item.drivers

end Hdl.ModuleDecl

namespace Lower

variable {setting : Setting}
variable {p : Progress}
variable {decl decl' : Hdl.ModuleDecl}

theorem outcome_eq_only
    (decl : Hdl.ModuleDecl) :
    outcome setting p decl =
      outcome setting p (decl.only decl.drivers) := by
  rw [outcome, circuit_eq_only, outcome]

/- Drivers share no bit where all their portions are apart. -/
theorem pairwise_portions_iff
    {us : List Hdl.Item}
    {shares : Hdl.Item → Share}
    (hApart : ∀ u ∈ us, (shares u).portions.Pairwise Portion.Apart)
    (hEach : ∀ u ∈ us, u.Contributes setting p (shares u).portions) :
    (us.flatMap fun u =>
      (shares u).portions).Pairwise Portion.Apart ↔
    us.Pairwise (Hdl.Item.Apart setting p) := by
  rw [List.pairwise_flatMap, and_iff_right hApart]
  exact List.Pairwise.iff_of_mem fun hu hw =>
    ((hEach _ hu).apart_iff (hEach _ hw)).symm

/-
  Drivers are merged exactly, and in any order. If the
  declarations of a module are bound and each driver on its
  own can be lowered, then the module is lowered unless two
  drivers drive the same bit, and then that is reported. Each
  bit of a signal that assignments drive is the one that the
  only assignment to it gives, or 0. So a module with its
  drivers in another order computes the same.
-/
theorem outcome_merges_drivers
    {number : Nat}
    {file : SourceFile}
    (hDecl : decl ∈ (Hdl.parseFile number file).tree.modules)
    {pins : List Pin}
    {p₁ : Progress}
    (hBinds : Binds setting p decl pins p₁)
    (hAlone : ∀ u ∈ decl.drivers,
      (outcome setting p (decl.only [u])).isOk = true) :
    ((∃ name span other, outcome setting p decl =
        .error (.drivenTwice name span other)) ↔
      ¬ decl.drivers.Pairwise (Hdl.Item.Apart setting p₁)) ∧
    ((∃ c, outcome setting p decl = .ok c) ↔
      decl.drivers.Pairwise (Hdl.Item.Apart setting p₁)) ∧
    (∀ c, outcome setting p decl = .ok c →
      c.Joins (decl.drivers.filterMap
        (Hdl.Item.assign? setting p₁))) ∧
    ∀ decl', decl'.Reorders decl →
      ((∃ c', outcome setting p decl' = .ok c') ↔
        ∃ c, outcome setting p decl = .ok c) ∧
      ∀ c c', outcome setting p decl = .ok c →
        outcome setting p decl' = .ok c' →
        c.SameFunctions c' := by
  have hGiven := Hdl.given_of_mem_modules hDecl
  have hDrivers : ∀ u ∈ decl.drivers, u.isDeclaration = false :=
    fun _ hu => Hdl.ModuleDecl.isDeclaration_of_mem_drivers hu
  have hGivens : ∀ u ∈ decl.drivers, u.Given :=
    fun _ hu => hGiven.driver hu
  have hEach := fun u (hu : u ∈ decl.drivers) =>
    exists_contribution hBinds hGiven (hDrivers u hu)
      (hGivens u hu) (hAlone u hu)
  have : Nonempty Share := ⟨.idle⟩
  choose! shares hGives hApart hContributes using hEach
  have hPairwise := pairwise_portions_iff hApart hContributes
  have hMerged := outcome_only hBinds hGiven hDrivers hGivens hGives
  rw [← outcome_eq_only, hPairwise] at hMerged
  rcases hMerged with ⟨hTwice, hOk, hAssembles⟩
  refine ⟨hTwice, hOk, ?_, ?_⟩
  · intro c hc
    refine (hAssembles c hc).joins (hPairwise.mpr (hOk.mp ⟨c, hc⟩))
      ?_ ?_
    · intro b hb
      rcases List.mem_filterMap.mp hb with ⟨u, hu, hAssign⟩
      exact List.mem_flatMap.mpr
        ⟨u, hu, (hContributes u hu).assigns b hAssign⟩
    · intro P hP
      rcases List.mem_flatMap.mp hP with ⟨u, hu, hShare⟩
      refine ((hContributes u hu).whole P hShare).imp_left ?_
      rintro ⟨b, hAssign, hSame⟩
      exact ⟨b, List.mem_filterMap.mpr ⟨u, hu, hAssign⟩, hSame⟩
  · intro decl' hReorders
    have hPerm := hReorders.drivers_perm
    have hMem : ∀ u ∈ decl'.drivers, u ∈ decl.drivers :=
      fun _ hu => hPerm.mem_iff.mp hu
    have hOther := outcome_only hBinds hGiven
      (fun u hu => hDrivers u (hMem u hu))
      (fun u hu => hGivens u (hMem u hu))
      (fun u hu => hGives u (hMem u hu))
    have hPortions := hPerm.flatMap_right
      fun u => (shares u).portions
    rw [← hReorders.only_eq, ← outcome_eq_only,
      hPortions.pairwise_iff fun h => h.symm, hPairwise] at hOther
    rcases hOther with ⟨_, hOk', hAssembles'⟩
    refine ⟨hOk'.trans hOk.symm, fun c c' hc hc' => ?_⟩
    exact (hAssembles c hc).sameFunctions (hAssembles' c' hc')
      fun P => hPortions.mem_iff.symm

/- The default options, for one file. -/
def plain
    (file : SourceFile) :
    Setting :=
  ⟨{}, [file]⟩

/- A net with a value, a bit, more bits and a process. -/
def driversOfAllKinds : SourceFile :=
  ⟨"kinds.sv",
    "module kinds(input a, b, output [3:0] y, output z);\n" ++
    "assign y[0] = a; wire t = a; assign y[2:1] = {a, b};\n" ++
    "always_comb z = t; endmodule\n"⟩

/- Two bits and one of them again. -/
def driversThatClash : SourceFile :=
  ⟨"clash.sv",
    "module clash(input a, b, output [3:0] y);\n" ++
    "assign y[2:1] = {a, b}; assign y[1] = a; endmodule\n"⟩

theorem exists_ok
    {ε α : Type}
    {result : Except ε α}
    (hOk : result.isOk = true) :
    ∃ a, result = .ok a := by
  cases result with
  | error e => cases hOk
  | ok a => exact ⟨a, rfl⟩

/- The signal `a` is 1, all others are 0. -/
def onlyA : Valuation :=
  fun n => some (if n = "a" then 1 else 0)

theorem outcome_merges_drivers_driversOfAllKinds :
    (∃ decl c c',
      decl ∈ (Hdl.parseFile 0 driversOfAllKinds).tree.modules ∧
      decl.drivers.length = 4 ∧
      outcome (plain driversOfAllKinds) {} decl = .ok c ∧
      (∃ a x, c.assignments.find? "y" = some a ∧
        a.value.eval onlyA = .ok x ∧
        x.testBit 2 = true ∧ x.testBit 3 = false) ∧
      outcome (plain driversOfAllKinds) {}
        { decl with items := decl.items.reverse } = .ok c' ∧
      c.SameFunctions c') ∧
    ∃ decl ∈ (Hdl.parseFile 0 driversThatClash).tree.modules,
      ∃ name span other, outcome (plain driversThatClash) {} decl =
        .error (.drivenTwice name span other) := by
  constructor
  · have hRuns : (Hdl.parseFile 0 driversOfAllKinds).tree.modules.any
        (fun decl =>
          let s := plain driversOfAllKinds
          let run := bind decl s {}
          let parts := decl.drivers.filterMap
            (Hdl.Item.assign? s run.2)
          run.1.isOk && decl.drivers.length == 4 &&
            (decl.items.filter Hdl.Item.isDeclaration).length == 1 &&
            decl.drivers.all (fun u =>
              (outcome s {} (decl.only [u])).isOk) &&
            (outcome s {} decl).isOk &&
            parts.any (fun b =>
              decide (b.target.Covers "y" 2) && b.target.low == 1 &&
                (b.value.eval onlyA).toOption == some 2) &&
            parts.all (fun b => !decide (b.target.Covers "y" 3))) =
          true := by
      rw [Hdl.parseFile_spelled 0 driversOfAllKinds
        (Hdl.spelled_append (Hdl.spelled_append rfl rfl) rfl)]
      decide +kernel
    rcases List.any_eq_true.mp hRuns with ⟨decl, hDecl, hRuns⟩
    simp only [Bool.and_eq_true, beq_iff_eq, List.all_eq_true,
      List.any_eq_true, decide_eq_true_eq, Bool.not_eq_true',
      decide_eq_false_iff_not] at hRuns
    rcases hRuns with
      ⟨⟨⟨⟨⟨⟨hBound, hFour⟩, hOne⟩, hAlone⟩, hLowered⟩, hPart⟩, hTop⟩
    rcases hPart with ⟨b, hb, ⟨hCovers, hLow⟩, hTwo⟩
    rcases exists_ok hBound with ⟨pins, hPins⟩
    rcases exists_ok hLowered with ⟨c, hOk⟩
    have hBinds : Binds (plain driversOfAllKinds) {} decl pins _ :=
      Prod.ext hPins rfl
    rcases outcome_merges_drivers hDecl hBinds hAlone with
      ⟨_, _, hJoins, hOrder⟩
    have hReorders : Hdl.ModuleDecl.Reorders
        { decl with items := decl.items.reverse } decl := by
      refine ⟨rfl, List.reverse_perm _, ?_⟩
      rcases List.length_eq_one_iff.mp hOne with ⟨i, hi⟩
      rw [List.filter_reverse, hi]
      rfl
    rcases hOrder _ hReorders with ⟨hSame, hFunctions⟩
    rcases hSame.mpr ⟨c, hOk⟩ with ⟨c', hOk'⟩
    rcases hJoins c hOk "y" ⟨b, hb, hCovers.1⟩ with ⟨a, ha, hValue⟩
    rcases hValue onlyA (fun _ _ _ _ _ => rfl) with ⟨x, hx, hBits⟩
    rcases (hBits 2).1 b hb hCovers with ⟨y, hy, hBit⟩
    rw [hy] at hTwo
    cases hTwo
    rw [hLow] at hBit
    exact ⟨decl, c, c', hDecl, hFour, hOk,
      ⟨a, x, ha, hx, hBit, (hBits 3).2 hTop⟩, hOk',
      hFunctions c c' hOk hOk'⟩
  · have hRuns : (Hdl.parseFile 0 driversThatClash).tree.modules.any
        (fun decl =>
          let s := plain driversThatClash
          let run := bind decl s {}
          run.1.isOk &&
            decl.drivers.all (fun u =>
              (outcome s {} (decl.only [u])).isOk) &&
            (decl.drivers.map fun u =>
              (u.assign? s run.2).any fun b =>
                decide (b.target.Covers "y" 1)) == [true, true]) =
          true := by
      rw [Hdl.parseFile_spelled 0 driversThatClash
        (Hdl.spelled_append rfl rfl)]
      decide +kernel
    rcases List.any_eq_true.mp hRuns with ⟨decl, hDecl, hRuns⟩
    simp only [Bool.and_eq_true, beq_iff_eq, List.all_eq_true]
      at hRuns
    rcases hRuns with ⟨⟨hBound, hAlone⟩, hBoth⟩
    rcases exists_ok hBound with ⟨pins, hPins⟩
    have hBinds : Binds (plain driversThatClash) {} decl pins _ :=
      Prod.ext hPins rfl
    rcases outcome_merges_drivers hDecl hBinds hAlone with ⟨hTwice, _⟩
    refine ⟨decl, hDecl, hTwice.mpr fun hApart => ?_⟩
    -- both assignments write the same bit
    rcases List.map_eq_cons_iff.mp hBoth with
      ⟨u, us, hDrivers, hFirst, hRest⟩
    rcases List.map_eq_cons_iff.mp hRest with
      ⟨w, ws, rfl, hSecond, _⟩
    rw [hDrivers, List.pairwise_cons] at hApart
    rw [Option.any_eq_true] at hFirst hSecond
    rcases hFirst with ⟨b, hb, hCovers⟩
    rcases hSecond with ⟨b', hb', hCovers'⟩
    exact hApart.1 w List.mem_cons_self "y" 1
      (.inl ⟨b, hb, of_decide_eq_true hCovers⟩)
      (.inl ⟨b', hb', of_decide_eq_true hCovers'⟩)

end Lower

end Gatework
