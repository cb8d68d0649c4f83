import Gatework.Definitions
import Gatework.Proofs.Cycle
import Gatework.Proofs.Expr.Substitution
import Gatework.Proofs.NameMap

/-
  Inlining of definitions.

  When definitions have an order, each one inlined reads no
  defined signal, and its value is the one that the signal has
  in the only solution of all definitions together. Any sort
  of the dependencies will do.

  Key definitions include:
    * `Definitions.Solves`, values that satisfy definitions
    * `Definitions.Inlined`, what inlining has done so far

  Key theorems include:
    * `Definitions.graph_spec`
    * `Definitions.resolveBy_spec`
    * `Definitions.Inlined.solves` and
      `Definitions.Inlined.eq_of_solves`
-/

------------------------------------------------------------
-- Dependencies
------------------------------------------------------------

namespace Gatework

namespace Digraph

/- A graph with more nodes and edges, still closed. -/
structure Grows
    (g g' : Digraph) :
    Prop where
  nodes : ∀ n ∈ g.nodes, n ∈ g'.nodes
  edges : ∀ e ∈ g.edges, e ∈ g'.edges
  closed : g.Closed → g'.Closed

theorem Grows.refl
    (g : Digraph) :
    Grows g g :=
  ⟨fun _ h => h, fun _ h => h, fun h => h⟩

theorem Grows.trans
    {g g' g'' : Digraph}
    (h : Grows g g')
    (h' : Grows g' g'') :
    Grows g g'' :=
  ⟨fun n hn => h'.nodes n (h.nodes n hn),
    fun e he => h'.edges e (h.edges e he),
    fun hClosed => h'.closed (h.closed hClosed)⟩

theorem grows_addNode
    (g : Digraph)
    (n : String) :
    Grows g (g.addNode n) :=
  ⟨fun _ hm => mem_nodes_addNode.mpr (Or.inr hm),
    fun _ he => (edges_addNode g n).symm ▸ he,
    fun hClosed => hClosed.addNode n⟩

theorem grows_addEdge
    (g : Digraph)
    (u v : String) :
    Grows g (g.addEdge u v) :=
  ⟨fun _ hm => mem_nodes_addEdge.mpr (Or.inr (Or.inr hm)),
    fun _ he => mem_edges_addEdge.mpr (Or.inl he),
    fun hClosed => hClosed.addEdge u v⟩

end Digraph

namespace Definitions

variable {defs : Definitions}

/- A definition has edges to the defined signals it reads. -/
def Linked
    (defs : Definitions)
    (g : Digraph)
    (name : String)
    (vs : List Var) :
    Prop :=
  ∀ v ∈ vs, (defs.find? v.name).isSome →
    v.name ≠ name ∧ (name, v.name) ∈ g.edges

theorem addReads_spec
    {name : String}
    {vs : List Var}
    {g g' : Digraph}
    (hReads : addReads defs name vs g = .ok g') :
    g.Grows g' ∧ Linked defs g' name vs := by
  induction vs generalizing g with
  | nil =>
      cases hReads
      exact ⟨Digraph.Grows.refl _, fun v hv => absurd hv
        List.not_mem_nil⟩
  | cons v vs ih =>
      rw [addReads] at hReads
      split at hReads
      case h_1 hNone =>
          rcases ih hReads with ⟨hGrows, hLinked⟩
          refine ⟨hGrows, ?_⟩
          intro w hw hSome
          rcases List.mem_cons.mp hw with rfl | hw
          · rw [hNone] at hSome
            cases hSome
          · exact hLinked w hw hSome
      case h_2 d hFound =>
          split at hReads
          case isTrue => cases hReads
          case isFalse hne =>
              split at hReads
              case isTrue => cases hReads
              case isFalse =>
                  rcases ih hReads with ⟨hGrows, hLinked⟩
                  refine ⟨(g.grows_addEdge name v.name).trans
                    hGrows, ?_⟩
                  intro w hw hSome
                  rcases List.mem_cons.mp hw with rfl | hw
                  · exact ⟨hne, hGrows.edges _
                      (Digraph.mem_edges_addEdge.mpr (Or.inr rfl))⟩
                  · exact hLinked w hw hSome

theorem addAll_spec
    {entries : List (String × Expr)}
    {g g' : Digraph}
    (hAll : addAll defs entries g = .ok g') :
    g.Grows g' ∧ ∀ name d, (name, d) ∈ entries →
      name ∈ g'.nodes ∧ Linked defs g' name d.freeVars := by
  induction entries generalizing g with
  | nil =>
      cases hAll
      exact ⟨Digraph.Grows.refl _, fun _ _ h => absurd h
        List.not_mem_nil⟩
  | cons entry rest ih =>
      rcases entry with ⟨name, d⟩
      rw [addAll, bind_eq_ok_iff] at hAll
      rcases hAll with ⟨g₁, hFirst, hRest⟩
      rcases addReads_spec hFirst with ⟨hGrows, hLinked⟩
      rcases ih hRest with ⟨hGrows', hOthers⟩
      refine ⟨((g.grows_addNode name).trans hGrows).trans hGrows',
        ?_⟩
      intro n e hMem
      rcases List.mem_cons.mp hMem with h | h
      · cases h
        constructor
        · exact hGrows'.nodes _ (hGrows.nodes _
            (Digraph.mem_nodes_addNode.mpr (Or.inl rfl)))
        · intro v hv hSome
          rcases hLinked v hv hSome with ⟨hne, hEdge⟩
          exact ⟨hne, hGrows'.edges _ hEdge⟩
      · exact hOthers n e h

/- The graph has an edge for every read of a defined signal. -/
theorem graph_spec
    {g : Digraph}
    (hGraph : defs.graph = .ok g) :
    g.Closed ∧ ∀ name d, defs.find? name = some d →
      name ∈ g.nodes ∧ Linked defs g name d.occurrences := by
  rcases addAll_spec hGraph with ⟨hGrows, hEntries⟩
  have hEmpty : Digraph.empty.Closed :=
    fun u v h => absurd h List.not_mem_nil
  refine ⟨hGrows.closed hEmpty, ?_⟩
  intro name d hFound
  rcases hEntries name d
    (NameMap.mem_entries_of_find?_eq_some hFound) with
    ⟨hNode, hLinked⟩
  refine ⟨hNode, ?_⟩
  intro v hv hSome
  have hName : v.name ∈ d.freeVars.names :=
    (Expr.mem_names_freeVars d v.name).mpr (List.mem_map_of_mem hv)
  rcases List.mem_map.mp hName with ⟨w, hw, hSame⟩
  rw [← hSame] at hSome ⊢
  exact hLinked w hw hSome

end Definitions

end Gatework

------------------------------------------------------------
-- Inlining in order
------------------------------------------------------------

namespace Gatework

namespace Definitions

variable {defs : Definitions}
variable {Γ : Var → Prop}

/- Every defined signal has the value of its definition. -/
def Solves
    (defs : Definitions)
    (τ : String → Nat) :
    Prop :=
  ∀ n d, defs.find? n = some d → d.value τ = τ n

/- Definitions over signals, read at their own widths. -/
def Sized
    (Γ : Var → Prop)
    (defs : Definitions) :
    Prop :=
  ∀ n d, defs.find? n = some d → d.Typed Γ ∧
    ∀ v, Γ v → v.name = n → v.width = d.width

/- A signal that is not defined. -/
def Open
    (Γ : Var → Prop)
    (defs : Definitions)
    (v : Var) :
    Prop :=
  Γ v ∧ defs.find? v.name = none

/-
  A definition in terms of undefined signals. Its value comes
  from its definition when the signals read have the values of
  what was inlined for them.
-/
structure InlinedAs
    (Γ : Var → Prop)
    (defs done : Definitions)
    (n : String)
    (d e : Expr) :
    Prop where
  typed : e.Typed (Open Γ defs)
  width_eq : e.width = d.width
  reads : ∀ v ∈ d.occurrences, (defs.find? v.name).isSome →
    (done.find? v.name).isSome
  value_eq : ∀ τ,
    e.value τ = d.value (Expr.replacedValue done.find? τ)
  solved : ∀ τ, Solves defs τ → e.value τ = τ n

/- Some definitions, all of them inlined. -/
def Inlined
    (Γ : Var → Prop)
    (defs done : Definitions) :
    Prop :=
  ∀ n e, done.find? n = some e →
    ∃ d, defs.find? n = some d ∧ InlinedAs Γ defs done n d e

theorem inlined_empty :
    Inlined Γ defs NameMap.empty :=
  fun _ _ h => nomatch h

/- A definition replaces what it reads by what is inlined. -/
theorem Inlined.replaces
    (hSized : Sized Γ defs)
    {done : Definitions}
    (hDone : Inlined Γ defs done)
    {d : Expr}
    (hd : d.Typed Γ)
    (hReads : ∀ v ∈ d.occurrences, (defs.find? v.name).isSome →
      (done.find? v.name).isSome) :
    ∀ v ∈ d.occurrences,
      Expr.Replaces done.find? (Open Γ defs) v := by
  intro v hv
  unfold Expr.Replaces
  cases hFound : done.find? v.name with
  | some e =>
      rcases hDone v.name e hFound with ⟨d', hDef, hAs⟩
      refine ⟨hAs.typed, ?_⟩
      rw [hAs.width_eq, (hSized v.name d' hDef).2 v (hd.mem hv) rfl]
  | none =>
      refine ⟨hd.mem hv, ?_⟩
      cases hDef : defs.find? v.name with
      | none => rfl
      | some d' =>
          have hSome := hReads v hv (by simp [hDef])
          rw [hFound] at hSome
          cases hSome

/- In a solution the inlined values are the values. -/
theorem Inlined.replacedValue_eq
    {done : Definitions}
    (hDone : Inlined Γ defs done)
    {τ : String → Nat}
    (hSolves : Solves defs τ) :
    Expr.replacedValue done.find? τ = τ := by
  funext n
  unfold Expr.replacedValue
  cases hFound : done.find? n with
  | none => rfl
  | some e =>
      rcases hDone n e hFound with ⟨d, _, hAs⟩
      exact hAs.solved τ hSolves

/- Inlining one definition more keeps those before it. -/
theorem Inlined.insert
    (hSized : Sized Γ defs)
    {done : Definitions}
    (hDone : Inlined Γ defs done)
    {name : String}
    {d : Expr}
    (hDef : defs.find? name = some d)
    (hNew : done.find? name = none)
    (hReads : ∀ v ∈ d.occurrences, (defs.find? v.name).isSome →
      (done.find? v.name).isSome) :
    Inlined Γ defs (done.insert name (d.subst done.find?)) := by
  have hd := (hSized name d hDef).1
  have hReplaces := hDone.replaces hSized hd hReads
  -- What was inlined before did not read the new name.
  have hKept : ∀ {c : Expr},
      (∀ v ∈ c.occurrences, (defs.find? v.name).isSome →
        (done.find? v.name).isSome) → ∀ τ,
      c.value (Expr.replacedValue
          (done.insert name (d.subst done.find?)).find? τ) =
        c.value (Expr.replacedValue done.find? τ) := by
    intro c hc τ
    apply Expr.value_congr
    intro v hv
    have hOther : v.name ≠ name := by
      intro hSame
      have hSome := hc v hv (by simp [hSame, hDef])
      rw [hSame, hNew] at hSome
      cases hSome
    unfold Expr.replacedValue
    rw [NameMap.find?_insert, if_neg hOther]
  have hMore : ∀ n, (done.find? n).isSome →
      ((done.insert name (d.subst done.find?)).find? n).isSome := by
    intro n hn
    rw [NameMap.find?_insert]
    split
    · rfl
    · exact hn
  intro n e hFound
  rw [NameMap.find?_insert] at hFound
  split at hFound
  case isTrue hSame =>
      subst hSame
      cases hFound
      refine ⟨d, hDef, ?_, ?_, ?_, ?_, ?_⟩
      · exact hd.subst hReplaces
      · exact Expr.width_subst hReplaces
      · exact fun v hv hSome => hMore _ (hReads v hv hSome)
      · intro τ
        rw [Expr.value_subst hReplaces, hKept hReads]
      · intro τ hSolves
        rw [Expr.value_subst hReplaces,
          hDone.replacedValue_eq hSolves]
        exact hSolves n d hDef
  case isFalse =>
      rcases hDone n e hFound with ⟨c, hc, hAs⟩
      refine ⟨c, hc, hAs.typed, hAs.width_eq, ?_, ?_, hAs.solved⟩
      · exact fun v hv hSome => hMore _ (hAs.reads v hv hSome)
      · intro τ
        rw [hAs.value_eq, hKept hAs.reads]

/-
  Definitions inlined one after the other. A definition reads
  only signals further down the list that it does not come
  before, so what it reads is inlined when its turn comes.
-/
theorem inlined_inlineInOrder
    (hSized : Sized Γ defs)
    {g : Digraph}
    (hLinked : ∀ name d, defs.find? name = some d →
      Linked defs g name d.occurrences)
    {names : List String}
    {done : Definitions}
    (hDone : Inlined Γ defs done)
    (hNodup : names.Nodup)
    (hNew : ∀ n ∈ names, done.find? n = none)
    (hOrder : names.Pairwise fun u v => (u, v) ∉ g.edges)
    (hAll : ∀ n, (defs.find? n).isSome →
      n ∈ names ∨ (done.find? n).isSome) :
    Inlined Γ defs (inlineInOrder defs names done) ∧
      ∀ n, (defs.find? n).isSome →
        ((inlineInOrder defs names done).find? n).isSome := by
  induction names generalizing done with
  | nil =>
      exact ⟨hDone, fun n hn =>
        (hAll n hn).resolve_left List.not_mem_nil⟩
  | cons name names ih =>
      rcases List.nodup_cons.mp hNodup with ⟨hHead, hTail⟩
      rcases List.pairwise_cons.mp hOrder with ⟨hFirst, hRest⟩
      have hNewTail : ∀ n ∈ names, done.find? n = none :=
        fun n hn => hNew n (List.mem_cons_of_mem _ hn)
      rw [inlineInOrder]
      cases hDef : defs.find? name with
      | none =>
          apply ih hDone hTail hNewTail hRest
          intro n hn
          refine (hAll n hn).imp_left ?_
          intro hMem
          rcases List.mem_cons.mp hMem with rfl | h
          · rw [hDef] at hn
            cases hn
          · exact h
      | some d =>
          have hReads : ∀ v ∈ d.occurrences,
              (defs.find? v.name).isSome →
              (done.find? v.name).isSome := by
            intro v hv hSome
            rcases hLinked name d hDef v hv hSome with
              ⟨hne, hEdge⟩
            rcases hAll v.name hSome with hMem | h
            · rcases List.mem_cons.mp hMem with h | h
              · exact absurd h hne
              · exact absurd hEdge (hFirst v.name h)
            · exact h
          apply ih
            (hDone.insert hSized hDef
              (hNew name (List.mem_cons_self ..)) hReads)
            hTail _ hRest
          · intro n hn
            rw [NameMap.find?_insert]
            split
            case isTrue => exact Or.inr rfl
            case isFalse hne =>
                refine (hAll n hn).imp_left ?_
                intro hMem
                exact (List.mem_cons.mp hMem).resolve_left hne
          · intro n hn
            have hne : n ≠ name := fun h => hHead (h ▸ hn)
            rw [NameMap.find?_insert, if_neg hne]
            exact hNewTail n hn

variable {sort : Digraph.Sorter}

/- Definitions are inlined against an order of the graph. -/
theorem resolveBy_eq_ok
    {resolved : Definitions}
    (hResolve : defs.resolveBy sort = .ok resolved) :
    ∃ g order, defs.graph = .ok g ∧ sort g = .ok order ∧
      inlineInOrder defs order.reverse NameMap.empty = resolved := by
  unfold resolveBy at hResolve
  rw [bind_eq_ok_iff] at hResolve
  rcases hResolve with ⟨g, hGraph, hOrdered⟩
  split at hOrdered
  case h_1 => cases hOrdered
  case h_2 order hOrder =>
      exact ⟨g, order, hGraph, hOrder, Except.ok.inj hOrdered⟩

/-
  Definitions that can be resolved are all inlined.
-/
theorem resolveBy_spec
    (hSort : Digraph.Sorts sort)
    (hSized : Sized Γ defs)
    {resolved : Definitions}
    (hResolve : defs.resolveBy sort = .ok resolved) :
    Inlined Γ defs resolved ∧
      ∀ n, (defs.find? n).isSome →
        (resolved.find? n).isSome := by
  rcases resolveBy_eq_ok hResolve with
    ⟨g, order, hGraph, hOrder, rfl⟩
  rcases graph_spec hGraph with ⟨hClosed, hLinked⟩
  rcases hSort.ordered hClosed hOrder with
    ⟨hAll, hNodup, hPairs⟩
  apply inlined_inlineInOrder hSized
    (fun name d hDef => (hLinked name d hDef).2)
    inlined_empty (List.pairwise_reverse.mpr
      (hNodup.imp Ne.symm))
    (fun _ _ => rfl) (List.pairwise_reverse.mpr hPairs)
  intro n hn
  rcases Option.isSome_iff_exists.mp hn with ⟨d, hDef⟩
  exact Or.inl (List.mem_reverse.mpr
    (hAll n (hLinked n d hDef).1))

end Definitions

end Gatework

------------------------------------------------------------
-- The only solution
------------------------------------------------------------

namespace Gatework

namespace Definitions

variable {defs resolved : Definitions}
variable {Γ : Var → Prop}

/- What is inlined gives a solution from undefined signals. -/
theorem Inlined.solves
    (hInlined : Inlined Γ defs resolved)
    (hAll : ∀ n, (defs.find? n).isSome →
      (resolved.find? n).isSome)
    (τ : String → Nat) :
    Solves defs (Expr.replacedValue resolved.find? τ) := by
  intro n d hDef
  rcases Option.isSome_iff_exists.mp
    (hAll n (by simp [hDef])) with ⟨e, hFound⟩
  rcases hInlined n e hFound with ⟨d', hDef', hAs⟩
  rw [hDef] at hDef'
  cases hDef'
  rw [← hAs.value_eq τ, Expr.replacedValue, hFound]

/- A solution is known from the undefined signals. -/
theorem Inlined.eq_of_solves
    (hInlined : Inlined Γ defs resolved)
    (hAll : ∀ n, (defs.find? n).isSome →
      (resolved.find? n).isSome)
    {τ τ' : String → Nat}
    (hSolves : Solves defs τ')
    (hAgree : ∀ n, defs.find? n = none → τ' n = τ n) :
    τ' = Expr.replacedValue resolved.find? τ := by
  funext n
  unfold Expr.replacedValue
  cases hFound : resolved.find? n with
  | none =>
      apply hAgree
      cases hDef : defs.find? n with
      | none => rfl
      | some d =>
          have hSome := hAll n (by simp [hDef])
          rw [hFound] at hSome
          cases hSome
  | some e =>
      rcases hInlined n e hFound with ⟨d, _, hAs⟩
      rw [← hAs.solved τ' hSolves]
      apply Expr.value_congr
      intro v hv
      rw [hAgree v.name (hAs.typed.mem hv).2]

end Definitions

end Gatework
