import Gatework.Proofs.Circuit
import Gatework.Proofs.Expr.Primitives
import Gatework.Proofs.Hdl.Finishes
import Mathlib.Data.List.Forall2
import Mathlib.Logic.ExistsUnique

/-
  Outputs compute the functions of their circuits.

  What is prepared for a signal is an expression of signals
  that its circuit does not drive. Whatever these are, the
  driven signals settle at one choice of values, and there the
  expression has the value of the signal.

  Key definitions include:
    * `Output.chosen`
    * `Output.Computes`

  Key theorems include:
    * `Pipeline.keeps_run_ofFlags`
    * `Output.computes_of_resolved`
    * `Output.prepareBy_computes`, for any sort
    * `Output.prepare_computes`
-/

------------------------------------------------------------
-- Passes
------------------------------------------------------------

namespace Gatework

namespace Pipeline

/- The passes succeed on typed expressions and keep them. -/
theorem keeps_run_ofFlags
    {Γ : Var → Prop}
    (hOne : OneWidth Γ)
    (simplify primitives : Bool)
    {e : Expr}
    (he : e.Typed Γ) :
    ∃ e', run (ofFlags simplify primitives) e = .ok e' ∧
      Expr.Keeps Γ e e' := by
  have hPrimitives := Expr.keeps_toPrimitives he
  cases primitives with
  | false =>
      cases simplify with
      | false => exact ⟨e, rfl, Expr.Keeps.refl he⟩
      | true =>
          exact ⟨e.simplify, rfl, Expr.keeps_simplify hOne he⟩
  | true =>
      cases simplify with
      | false => exact ⟨e.toPrimitives, rfl, hPrimitives⟩
      | true =>
          refine ⟨e.toPrimitives.simplify, rfl, ?_⟩
          exact hPrimitives.trans
            (Expr.keeps_simplify hOne hPrimitives.typed)

end Pipeline

end Gatework

------------------------------------------------------------
-- One output
------------------------------------------------------------

namespace Gatework

namespace Output

/-
  An expression for a driven signal of a circuit. It is valid,
  has the width of the signal and reads no driven signal. All
  values of the other signals extend to exactly one settled
  valuation, and there the expression has the signal's value.
-/
structure Computes
    (c : Circuit)
    (signal : String)
    (e : Expr) :
    Prop where
  driven : c.assignments.contains signal = true
  valid : e.validate = .ok ()
  width_eq : e.width = widthIn c.signals signal
  free : ∀ n ∈ e.freeVars.names, ¬ c.assignments.contains n
  settles : ∀ ρ, c.Binds ρ →
    ∃! ρ', c.Extends ρ ρ' ∧ c.Settled ρ'
  eval_eq : ∀ ρ ρ', c.Binds ρ → c.Extends ρ ρ' → c.Settled ρ' →
    ∃ x, ρ' signal = some x ∧ e.eval ρ' = .ok x

variable {c : Circuit}
variable {sort : Digraph.Sorter}
variable {resolved : Definitions}

/- What is inlined for a signal computes it after passes. -/
theorem computes_of_resolved
    (hSort : Digraph.Sorts sort)
    (hc : c.Proper)
    (hResolve : definitions sort c = .ok resolved)
    {signal : String}
    {e : Expr}
    (hFound : resolved.find? signal = some e)
    {e' : Expr}
    (hKeeps : Expr.Keeps
      (Definitions.Open c.ReadIn c.values) e e') :
    Computes c signal e' := by
  rcases Definitions.resolveBy_spec hSort hc.sized_values hResolve
    with ⟨hInlined, _⟩
  rcases hInlined signal e hFound with ⟨d, hDef, hAs⟩
  rcases Circuit.find?_values_iff.mp hDef with ⟨a, hAssign, rfl⟩
  have hDriven : c.assignments.contains signal = true :=
    NameMap.contains_eq_true_iff.mpr ⟨a, hAssign⟩
  have hNamed : ∀ v, Definitions.Open c.ReadIn c.values v →
      v.HasName :=
    fun _ hv => hv.1.1.1
  refine ⟨hDriven, hKeeps.typed.validate hNamed, ?_, ?_, ?_, ?_⟩
  · rw [hKeeps.width_eq, hAs.width_eq, hc.width_value hAssign]
  · intro n hn
    rw [Expr.mem_names_freeVars] at hn
    rcases List.mem_map.mp hn with ⟨v, hv, rfl⟩
    exact Circuit.find?_values_eq_none_iff.mp
      (hKeeps.typed.mem hv).2
  · intro ρ hBinds
    rcases Circuit.exists_settled hSort hc hResolve hBinds with
      ⟨ρ', hExtends, hSettled⟩
    refine ⟨ρ', ⟨hExtends, hSettled⟩, ?_⟩
    rintro ρ'' ⟨hExtends', hSettled'⟩
    exact hSettled'.eq_of_extends hSort hc hResolve hBinds
      hExtends' hSettled hExtends
  · intro ρ ρ' hBinds hExtends hSettled
    apply hSettled.eval_eq hc hBinds hExtends hKeeps.typed ?_
      hDriven
    intro τ hSolves
    rw [hKeeps.value_eq τ]
    exact hAs.solved τ hSolves

end Output

end Gatework

------------------------------------------------------------
-- All outputs
------------------------------------------------------------

namespace Gatework

/- What is selected is driven. -/
theorem Circuit.contains_of_mem_selected
    {c : Circuit}
    {names : List String}
    {entry : String × Assign}
    (hEntry : entry ∈ c.selected names) :
    c.assignments.contains entry.1 = true := by
  unfold selected at hEntry
  split at hEntry
  case isTrue =>
      dsimp only at hEntry
      split at hEntry
      · exact NameMap.contains_of_mem_entries hEntry
      · exact NameMap.contains_of_mem_entries
          (List.mem_filter.mp hEntry).1
  case isFalse =>
      rcases List.mem_filterMap.mp hEntry with ⟨n, _, hSome⟩
      rcases Option.map_eq_some_iff.mp hSome with
        ⟨a, hFound, rfl⟩
      exact NameMap.contains_eq_true_iff.mpr ⟨a, hFound⟩

namespace Output

/- The signals of circuits that outputs are prepared for. -/
def chosen
    (circuits : List Circuit)
    (names : List String) :
    List (Circuit × String) :=
  circuits.flatMap fun c =>
    (c.selected names).map fun entry => (c, entry.1)

/- An output that computes a signal, under its full name. -/
def IsOf
    (single : Bool)
    (o : Output)
    (pick : Circuit × String) :
    Prop :=
  o.name = fullName single pick.1.name pick.2 ∧
    o.inputs = pick.1.inputs ∧
    Computes pick.1 pick.2 o.expr

variable {sort : Digraph.Sorter}

/- The outputs of one circuit, signal by signal. -/
theorem ofCircuit_computes
    (hSort : Digraph.Sorts sort)
    {c : Circuit}
    (hc : c.Proper)
    {resolved : Definitions}
    (hResolve : definitions sort c = .ok resolved)
    (simplify primitives single : Bool)
    {names : List String}
    {outputs : List Output}
    (hOutputs : ofCircuit single
      (Pipeline.ofFlags simplify primitives) names c resolved =
        .ok outputs) :
    List.Forall₂ (IsOf single) outputs
      ((c.selected names).map fun entry => (c, entry.1)) := by
  rcases Definitions.resolveBy_spec hSort hc.sized_values hResolve
    with ⟨hInlined, hAll⟩
  have hOne : OneWidth (Definitions.Open c.ReadIn c.values) :=
    fun v w hv hw => Circuit.oneWidth_readIn v w hv.1 hw.1
  have hDriven : ∀ entry ∈ c.selected names,
      c.assignments.contains entry.1 = true :=
    fun entry hEntry => Circuit.contains_of_mem_selected hEntry
  unfold ofCircuit at hOutputs
  generalize c.selected names = entries at hOutputs hDriven ⊢
  induction entries generalizing outputs with
  | nil =>
      cases hOutputs
      exact List.Forall₂.nil
  | cons entry entries ih =>
      rcases entry with ⟨signal, a⟩
      -- A driven signal has been inlined, so none is left out.
      have hHas : (c.values.find? signal).isSome := by
        cases hNone : c.values.find? signal with
        | some d => rfl
        | none =>
            exact absurd (hDriven _ (List.mem_cons_self ..))
              (Circuit.find?_values_eq_none_iff.mp hNone)
      rcases Option.isSome_iff_exists.mp (hAll signal hHas) with
        ⟨e, hFound⟩
      rcases hInlined signal e hFound with ⟨d, _, hAs⟩
      rcases Pipeline.keeps_run_ofFlags hOne simplify primitives
          hAs.typed with ⟨e', hRun, hKeeps⟩
      rw [List.filterMapM_cons] at hOutputs
      simp only [hFound, hRun] at hOutputs
      rcases bind_eq_ok_iff.mp hOutputs with
        ⟨found, hHead, hRest⟩
      cases hHead
      rcases bind_eq_ok_iff.mp hRest with ⟨rest, hTail, hSame⟩
      cases hSame
      apply List.Forall₂.cons
      · exact ⟨rfl, rfl,
          computes_of_resolved hSort hc hResolve hFound hKeeps⟩
      · exact ih hTail fun entry hEntry =>
          hDriven entry (List.mem_cons_of_mem _ hEntry)

theorem prepareAll_computes
    (hSort : Digraph.Sorts sort)
    {circuits : List Circuit}
    (hProper : ∀ c ∈ circuits, c.Proper)
    (simplify primitives single : Bool)
    {names : List String}
    {outputs : List Output}
    (hPrepared : (prepareAll sort single
      (Pipeline.ofFlags simplify primitives) names
        circuits).2 = .ok outputs) :
    List.Forall₂ (IsOf single) outputs
      (chosen circuits names) := by
  induction circuits generalizing outputs with
  | nil =>
      cases hPrepared
      exact List.Forall₂.nil
  | cons c circuits ih =>
      rw [prepareAll] at hPrepared
      split at hPrepared
      case h_1 => cases hPrepared
      case h_2 resolved hResolve =>
          dsimp only at hPrepared
          split at hPrepared
          case h_1 => cases hPrepared
          case h_2 found hFound =>
              have hHead := ofCircuit_computes hSort
                (hProper c (List.mem_cons_self ..)) hResolve
                simplify primitives single hFound
              generalize hLater : prepareAll sort single _ names
                circuits = later at hPrepared ih
              rcases later with ⟨log, rest⟩
              cases rest with
              | error e => cases hPrepared
              | ok others =>
                  cases hPrepared
                  have hTail := ih
                    (fun d hd => hProper d
                      (List.mem_cons_of_mem _ hd)) rfl
                  exact List.rel_append hHead hTail

/-
  Prepared outputs compute the functions of their circuits:
  there is one for each chosen signal, in order, and whatever
  sort is used and passes are run it computes that signal.
-/
theorem prepareBy_computes
    (hSort : Digraph.Sorts sort)
    {options : LowerOptions}
    {file : SourceFile}
    {circuits : List Circuit}
    (hLowered :
      (lowerSource options file).result = .ok circuits)
    (simplify primitives : Bool)
    (names : List String)
    {outputs : List Output}
    (hPrepared : (prepareBy sort
      (Pipeline.ofFlags simplify primitives) circuits
        names).2 = .ok outputs) :
    List.Forall₂ (IsOf (circuits.length == 1)) outputs
      (chosen circuits names) := by
  apply prepareAll_computes hSort ?_ simplify primitives _ hPrepared
  exact proper_of_lowerParsed
    (fun _ hDecl => Hdl.given_of_mem_modules hDecl) hLowered

/- So do those prepared by depth-first search. -/
theorem prepare_computes
    {options : LowerOptions}
    {file : SourceFile}
    {circuits : List Circuit}
    (hLowered :
      (lowerSource options file).result = .ok circuits)
    (simplify primitives : Bool)
    (names : List String)
    {outputs : List Output}
    (hPrepared : (prepare
      (Pipeline.ofFlags simplify primitives) circuits
        names).2 = .ok outputs) :
    List.Forall₂ (IsOf (circuits.length == 1)) outputs
      (chosen circuits names) :=
  prepareBy_computes Digraph.sorts_topologicalOrder hLowered
    simplify primitives names hPrepared

/- A vector driven bit by bit from a net driven below it. -/
def relay : SourceFile :=
  ⟨"relay.sv",
    "module relay(input a, b, output [1:0] y);\n" ++
    "wire t;\n" ++
    "assign y[0] = t & b;\n" ++
    "assign y[1] = t;\n" ++
    "assign t = ~a;\n" ++
    "endmodule\n"⟩

def relayCircuits : List Circuit :=
  (lowerSource {} relay).result.toOption.getD []

def relayOutputs : List Output :=
  (prepare (Pipeline.ofFlags true true) relayCircuits
    []).2.toOption.getD []

theorem prepare_computes_relay :
    (lowerSource {} relay).result = .ok relayCircuits ∧
      (prepare (Pipeline.ofFlags true true) relayCircuits
        []).2 = .ok relayOutputs ∧
      relayOutputs.map Output.name = ["y"] ∧
      List.Forall₂ (IsOf (relayCircuits.length == 1))
        relayOutputs (chosen relayCircuits []) := by
  -- One evaluation for all facts about the source.
  have hRuns :
      (lowerSource {} relay).result.toOption.isSome = true ∧
        (prepare (Pipeline.ofFlags true true) relayCircuits
          []).2.toOption.isSome = true ∧
        relayOutputs.map Output.name = ["y"] := by
    have hText : relay.text = String.ofList _ :=
      Hdl.spelled_append (Hdl.spelled_append (Hdl.spelled_append
        (Hdl.spelled_append (Hdl.spelled_append rfl rfl) rfl) rfl)
          rfl) rfl
    rw [relayOutputs, relayCircuits, lowerSource_spelled {} relay
      hText]
    decide +kernel
  rcases hRuns with ⟨hLowers, hPrepares, hNames⟩
  have hLowered := eq_ok_of_isSome [] hLowers
  have hPrepared := eq_ok_of_isSome [] hPrepares
  exact ⟨hLowered, hPrepared, hNames,
    prepare_computes hLowered true true [] hPrepared⟩

end Output

end Gatework
