import Gatework.Proofs.Cycle
import Gatework.Proofs.Definitions
import Gatework.Proofs.Expr.Known

/-
  When definitions can be inlined, and what an expression is
  after it.

  Inlining fails exactly where a definition depends on itself
  or reads a defined signal at another width. Only reads by
  definitions are compared, and of several reads of a signal
  by one definition only the first: an expression that reads
  a signal at another width itself is inlined all the same,
  and so is a definition that reads it at two.

  Key definitions include:
    * `Definitions.Reads`, the dependencies as a relation
    * `Definitions.Acyclic` and `Definitions.Fits`
    * `Definitions.Flawed`, the errors that are justified
    * `Definitions.StandsFor`, what inlining keeps

  Key theorems include:
    * `Definitions.Proper.resolveBy_isOk_iff`
    * `Definitions.standsFor_subst`
    * `Definitions.inlineBy_exact` and
      `Definitions.inlineBy_wellTyped`, for any sort
    * `Definitions.inline_exact` and
      `Definitions.inline_wellTyped`
-/

------------------------------------------------------------
-- Reads of defined signals
------------------------------------------------------------

namespace Gatework

namespace Definitions

/- The definition of one signal reads another defined one. -/
def Reads
    (defs : Definitions)
    (n m : String) :
    Prop :=
  ∃ d, defs.find? n = some d ∧
    (∃ v ∈ d.occurrences, v.name = m) ∧ (defs.find? m).isSome

/- No signal depends on itself, directly or through others. -/
def Acyclic
    (defs : Definitions) :
    Prop :=
  ∀ n, ¬ Relation.TransGen defs.Reads n n

/- An expression reads defined signals at their widths. -/
def Fits
    (defs : Definitions)
    (e : Expr) :
    Prop :=
  ∀ v ∈ e.occurrences, ∀ d, defs.find? v.name = some d →
    v.width = d.width

/-
  One valid definition for each signal. A definition reads a
  defined signal at one width, which may be the wrong one.
-/
structure Proper
    (defs : Definitions) :
    Prop where
  nodup : defs.keys.Nodup
  valid : ∀ n d, defs.find? n = some d → d.validate = .ok ()
  oneWidth : ∀ n d, defs.find? n = some d →
    OneWidth fun v => v ∈ d.occurrences ∧
      (defs.find? v.name).isSome

theorem proper_of_entries
    {defs : Definitions}
    (hKeys : defs.keys.Nodup)
    (hValid : ∀ entry ∈ defs.entries,
      entry.2.validate.toOption = some ())
    (hWidths : ∀ entry ∈ defs.entries,
      ∀ v ∈ entry.2.occurrences, ∀ w ∈ entry.2.occurrences,
        v.name = w.name → v.width = w.width) :
    defs.Proper := by
  have hMem : ∀ {n d}, defs.find? n = some d →
      (n, d) ∈ defs.entries :=
    NameMap.mem_entries_of_find?_eq_some
  constructor
  · exact hKeys
  · intro n d hDef
    exact eq_ok_of_toOption (hValid _ (hMem hDef))
  · intro n d hDef v w hv hw
    exact hWidths _ (hMem hDef) v hv.1 w hw.1

/- Errors for a reason that is found in the definitions. -/
inductive Flawed
    (defs : Definitions) :
    ReshapeError → Prop where
  | cycle
      {n : String} :
      Relation.TransGen defs.Reads n n → Flawed defs (.cycle n)
  | width
      {n : String}
      {d d' : Expr}
      {v : Var} :
      defs.find? n = some d → v ∈ d.occurrences →
      defs.find? v.name = some d' → v.width ≠ d'.width →
      Flawed defs (.widthMismatch v.name v.width d'.width)

end Definitions

end Gatework

------------------------------------------------------------
-- The graph of reads
------------------------------------------------------------

namespace Gatework

namespace Definitions

variable {defs : Definitions}
variable {g g' : Digraph}
variable {err : ReshapeError}

theorem addReads_cons_eq_ok
    {name : String}
    {v : Var}
    {vs : List Var}
    (hReads : addReads defs name (v :: vs) g = .ok g') :
    defs.find? v.name = none ∧ addReads defs name vs g = .ok g' ∨
      ∃ d, defs.find? v.name = some d ∧ v.width = d.width ∧
        addReads defs name vs (g.addEdge name v.name) = .ok g' := by
  rw [addReads] at hReads
  split at hReads
  case h_1 hNone => exact Or.inl ⟨hNone, hReads⟩
  case h_2 d hFound =>
      split at hReads
      case isTrue => cases hReads
      case isFalse =>
          split at hReads
          case isTrue => cases hReads
          case isFalse hWidth =>
              exact Or.inr ⟨d, hFound, not_not.mp hWidth, hReads⟩

/- What a definition reads fits, unless there is an error. -/
theorem addReads_fits
    {name : String}
    {vs : List Var}
    (hReads : addReads defs name vs g = .ok g')
    {v : Var}
    (hv : v ∈ vs)
    {d : Expr}
    (hFound : defs.find? v.name = some d) :
    v.width = d.width := by
  induction vs generalizing g with
  | nil => cases hv
  | cons w vs ih =>
      rcases addReads_cons_eq_ok hReads with
        ⟨hNone, hRest⟩ | ⟨d', hFound', hWidth, hRest⟩
      · rcases List.mem_cons.mp hv with rfl | hv
        · rw [hNone] at hFound
          cases hFound
        · exact ih hRest hv
      · rcases List.mem_cons.mp hv with rfl | hv
        · rw [hFound'] at hFound
          cases hFound
          exact hWidth
        · exact ih hRest hv

/- An edge that is added stands for a read. -/
theorem addReads_leads
    {name : String}
    {vs : List Var}
    (hReads : addReads defs name vs g = .ok g')
    {n m : String}
    (hEdge : g'.Leads n m) :
    g.Leads n m ∨
      n = name ∧ (∃ v ∈ vs, v.name = m) ∧
        (defs.find? m).isSome := by
  induction vs generalizing g with
  | nil =>
      cases hReads
      exact Or.inl hEdge
  | cons v vs ih =>
      have hLater : (∃ w ∈ vs, w.name = m) →
          ∃ w ∈ v :: vs, w.name = m := by
        intro hRead
        rcases hRead with ⟨w, hw, hm⟩
        exact ⟨w, List.mem_cons_of_mem _ hw, hm⟩
      rcases addReads_cons_eq_ok hReads with
        ⟨_, hRest⟩ | ⟨d, hFound, _, hRest⟩
      · exact (ih hRest).imp_right
          (And.imp_right (And.imp_left hLater))
      · rcases ih hRest with hNext | hRead
        · rcases Digraph.mem_edges_addEdge.mp hNext with
            hOld | hNew
          · exact Or.inl hOld
          · cases hNew
            exact Or.inr ⟨rfl, ⟨v, List.mem_cons_self .., rfl⟩,
              by simp [hFound]⟩
        · exact Or.inr (hRead.imp_right (And.imp_left hLater))

/- A definition is refused for what it reads. -/
theorem addReads_error
    {name : String}
    {d : Expr}
    (hDef : defs.find? name = some d)
    {vs : List Var}
    (hVars : ∀ v ∈ vs, v ∈ d.occurrences)
    (hReads : addReads defs name vs g = .error err) :
    defs.Flawed err := by
  induction vs generalizing g with
  | nil => cases hReads
  | cons v vs ih =>
      have hv := hVars v (List.mem_cons_self ..)
      have hTail : ∀ w ∈ vs, w ∈ d.occurrences :=
        fun w hw => hVars w (List.mem_cons_of_mem _ hw)
      rw [addReads] at hReads
      split at hReads
      case h_1 => exact ih hTail hReads
      case h_2 d' hFound =>
          split at hReads
          case isTrue hSelf =>
              cases hReads
              refine .cycle (.single ⟨d, hDef, ⟨v, hv, hSelf⟩, ?_⟩)
              simp [hDef]
          case isFalse =>
              split at hReads
              case isTrue hWidth =>
                  cases hReads
                  exact .width hDef hv hFound hWidth
              case isFalse => exact ih hTail hReads

theorem addAll_fits
    {entries : List (String × Expr)}
    (hAll : addAll defs entries g = .ok g')
    {n : String}
    {d : Expr}
    (hMem : (n, d) ∈ entries)
    {v : Var}
    (hv : v ∈ d.freeVars)
    {d' : Expr}
    (hFound : defs.find? v.name = some d') :
    v.width = d'.width := by
  induction entries generalizing g with
  | nil => cases hMem
  | cons entry rest ih =>
      rcases entry with ⟨name, e⟩
      rw [addAll, bind_eq_ok_iff] at hAll
      rcases hAll with ⟨g₁, hFirst, hRest⟩
      rcases List.mem_cons.mp hMem with hSame | hMem
      · cases hSame
        exact addReads_fits hFirst hv hFound
      · exact ih hRest hMem

theorem addAll_leads
    {entries : List (String × Expr)}
    (hAll : addAll defs entries g = .ok g')
    {n m : String}
    (hEdge : g'.Leads n m) :
    g.Leads n m ∨
      ∃ d, (n, d) ∈ entries ∧ (∃ v ∈ d.freeVars, v.name = m) ∧
        (defs.find? m).isSome := by
  induction entries generalizing g with
  | nil =>
      cases hAll
      exact Or.inl hEdge
  | cons entry rest ih =>
      rcases entry with ⟨name, e⟩
      rw [addAll, bind_eq_ok_iff] at hAll
      rcases hAll with ⟨g₁, hFirst, hRest⟩
      rcases ih hRest with hEarlier | ⟨d, hMem, hRead⟩
      · rcases addReads_leads hFirst hEarlier with
          hOld | ⟨rfl, hRead⟩
        · refine Or.inl ?_
          unfold Digraph.Leads at hOld ⊢
          rwa [Digraph.edges_addNode] at hOld
        · exact Or.inr ⟨e, List.mem_cons_self .., hRead⟩
      · exact Or.inr ⟨d, List.mem_cons_of_mem _ hMem, hRead⟩

theorem addAll_error
    {entries : List (String × Expr)}
    (hDefs : ∀ n d, (n, d) ∈ entries → defs.find? n = some d)
    (hAll : addAll defs entries g = .error err) :
    defs.Flawed err := by
  induction entries generalizing g with
  | nil => cases hAll
  | cons entry rest ih =>
      rcases entry with ⟨name, e⟩
      rw [addAll] at hAll
      cases hFirst : addReads defs name e.freeVars
        (g.addNode name) with
      | error err' =>
          rw [hFirst] at hAll
          cases hAll
          exact addReads_error
            (hDefs name e (List.mem_cons_self ..))
            (fun v hv => Expr.mem_occurrences_of_mem_freeVars hv)
            hFirst
      | ok g₁ =>
          rw [hFirst, ok_bind] at hAll
          exact ih (fun n d h =>
            hDefs n d (List.mem_cons_of_mem _ h)) hAll

/- The edges of the graph are the reads of definitions. -/
theorem graph_leads_iff
    (hKeys : defs.keys.Nodup)
    (hGraph : defs.graph = .ok g)
    {n m : String} :
    g.Leads n m ↔ defs.Reads n m := by
  constructor
  · intro hEdge
    rcases addAll_leads hGraph hEdge with
      hNone | ⟨d, hMem, ⟨v, hv, hName⟩, hSome⟩
    · cases hNone
    · exact ⟨d, NameMap.find?_of_mem_entries hKeys hMem,
        ⟨v, Expr.mem_occurrences_of_mem_freeVars hv, hName⟩, hSome⟩
  · intro hReads
    rcases hReads with ⟨d, hDef, ⟨v, hv, rfl⟩, hSome⟩
    exact (((graph_spec hGraph).2 n d hDef).2 v hv hSome).2

/- A graph without an error has no edge back to its source. -/
theorem graph_irrefl
    (hKeys : defs.keys.Nodup)
    (hGraph : defs.graph = .ok g)
    (n : String) :
    ¬ g.Leads n n := by
  intro hEdge
  rcases (graph_leads_iff hKeys hGraph).mp hEdge with
    ⟨d, hDef, ⟨v, hv, rfl⟩, hSome⟩
  exact (((graph_spec hGraph).2 _ d hDef).2 v hv hSome).1 rfl

/- The first read of a signal speaks for all of a definition. -/
theorem Proper.fits_of_graph
    (hDefs : defs.Proper)
    (hGraph : defs.graph = .ok g)
    {n : String}
    {d : Expr}
    (hDef : defs.find? n = some d) :
    defs.Fits d := by
  intro v hv d' hFound
  have hName : v.name ∈ d.freeVars.names :=
    (Expr.mem_names_freeVars d v.name).mpr (List.mem_map_of_mem hv)
  rcases List.mem_map.mp hName with ⟨w, hw, hSame⟩
  have hSome : (defs.find? v.name).isSome := by
    simp [hFound]
  have hWidth : v.width = w.width :=
    hDefs.oneWidth n d hDef v w ⟨hv, hSome⟩
      ⟨Expr.mem_occurrences_of_mem_freeVars hw, hSame ▸ hSome⟩
      hSame.symm
  rw [hWidth]
  exact addAll_fits hGraph
    (NameMap.mem_entries_of_find?_eq_some hDef) hw
    (hSame ▸ hFound)

end Definitions

end Gatework

------------------------------------------------------------
-- When definitions can be inlined
------------------------------------------------------------

namespace Gatework

namespace Definitions

variable {defs : Definitions}
variable {e : Expr}
variable {err : ReshapeError}
variable {sort : Digraph.Sorter}

theorem transGen_of_order_error
    (hSort : Digraph.Sorts sort)
    (hKeys : defs.keys.Nodup)
    {g : Digraph}
    (hGraph : defs.graph = .ok g)
    {n : String}
    (hError : sort g = .error n) :
    Relation.TransGen defs.Reads n n := by
  have hCycle := hSort.onCycle (graph_spec hGraph).1 hError
  exact Relation.TransGen.mono
    (fun _ _ h => (graph_leads_iff hKeys hGraph).mp h) _ _ hCycle

/- Every error has its reason. -/
theorem resolveBy_error
    (hSort : Digraph.Sorts sort)
    (hKeys : defs.keys.Nodup)
    (hError : defs.resolveBy sort = .error err) :
    defs.Flawed err := by
  unfold resolveBy at hError
  cases hGraph : defs.graph with
  | error err' =>
      rw [hGraph] at hError
      cases hError
      exact addAll_error
        (fun n d h => NameMap.find?_of_mem_entries hKeys h) hGraph
  | ok g =>
      rw [hGraph, ok_bind] at hError
      split at hError
      case h_1 n hOrder =>
          cases hError
          exact .cycle
            (transGen_of_order_error hSort hKeys hGraph hOrder)
      case h_2 => cases hError

/- An order of the graph shows that nothing reads itself. -/
theorem acyclic_of_order
    (hSort : Digraph.Sorts sort)
    (hKeys : defs.keys.Nodup)
    {g : Digraph}
    (hGraph : defs.graph = .ok g)
    {order : List String}
    (hOrder : sort g = .ok order) :
    defs.Acyclic := by
  intro n hCycle
  have hIff := hSort.isOk_iff
    (graph_spec hGraph).1 (graph_irrefl hKeys hGraph)
  apply hIff.mp ⟨order, hOrder⟩ n
  exact Relation.TransGen.mono
    (fun _ _ h => (graph_leads_iff hKeys hGraph).mpr h) _ _ hCycle

/-
  Definitions can be inlined exactly when none depends on
  itself and each reads defined signals at their widths.
-/
theorem Proper.resolveBy_isOk_iff
    (hDefs : defs.Proper)
    (hSort : Digraph.Sorts sort) :
    (∃ resolved, defs.resolveBy sort = .ok resolved) ↔
      defs.Acyclic ∧
        ∀ n d, defs.find? n = some d → defs.Fits d := by
  constructor
  · intro hOk
    rcases hOk with ⟨resolved, hResolve⟩
    rcases resolveBy_eq_ok hResolve with
      ⟨g, order, hGraph, hOrder, _⟩
    exact ⟨acyclic_of_order hSort hDefs.nodup hGraph hOrder,
      fun n d hDef => hDefs.fits_of_graph hGraph hDef⟩
  · intro hSound
    rcases hSound with ⟨hAcyclic, hFits⟩
    cases hResolve : defs.resolveBy sort with
    | ok resolved => exact ⟨resolved, rfl⟩
    | error err =>
        cases resolveBy_error hSort hDefs.nodup hResolve with
        | cycle hCycle => exact absurd hCycle (hAcyclic _)
        | width hDef hv hFound hWidth =>
            exact absurd (hFits _ _ hDef _ hv _ hFound) hWidth

theorem inlineBy_eq_ok_iff
    {r : Expr} :
    defs.inlineBy sort e = .ok r ↔
      ∃ resolved, defs.resolveBy sort = .ok resolved ∧
        e.subst resolved.find? = r := by
  unfold inlineBy
  rw [bind_eq_ok_iff]
  constructor
  · intro hRun
    rcases hRun with ⟨resolved, hResolve, hPure⟩
    exact ⟨resolved, hResolve, Except.ok.inj hPure⟩
  · intro hRun
    rcases hRun with ⟨resolved, hResolve, rfl⟩
    exact ⟨resolved, hResolve, rfl⟩

/- An expression is inlined whenever the definitions are. -/
theorem inlineBy_isOk_iff
    (sort : Digraph.Sorter)
    (defs : Definitions)
    (e : Expr) :
    (∃ r, defs.inlineBy sort e = .ok r) ↔
      ∃ resolved, defs.resolveBy sort = .ok resolved := by
  constructor
  · intro hOk
    rcases hOk with ⟨r, hInline⟩
    rcases inlineBy_eq_ok_iff.mp hInline with ⟨resolved, h, _⟩
    exact ⟨resolved, h⟩
  · intro hOk
    rcases hOk with ⟨resolved, h⟩
    exact ⟨_, inlineBy_eq_ok_iff.mpr ⟨resolved, h, rfl⟩⟩

theorem inlineBy_error
    (hSort : Digraph.Sorts sort)
    (hKeys : defs.keys.Nodup)
    (hError : defs.inlineBy sort e = .error err) :
    defs.Flawed err := by
  apply resolveBy_error hSort hKeys
  unfold inlineBy at hError
  cases hResolve : defs.resolveBy sort with
  | error err' =>
      rw [hResolve] at hError
      cases hError
      rfl
  | ok resolved =>
      rw [hResolve] at hError
      cases hError

end Definitions

end Gatework

------------------------------------------------------------
-- What inlining keeps
------------------------------------------------------------

namespace Gatework

namespace Definitions

variable {defs done : Definitions}
variable {d e r : Expr}
variable {sort : Digraph.Sorter}

/- Every defined signal has the value of its definition. -/
def Settles
    (defs : Definitions)
    (ρ : Valuation) :
    Prop :=
  ∀ n d, defs.find? n = some d →
    ∃ x, ρ n = some x ∧ d.eval ρ = .ok x

/-
  A typed expression that takes the place of another: it has
  the width, and evaluates to the same wherever the defined
  signals have the values of their definitions.
-/
structure StandsFor
    (defs : Definitions)
    (e r : Expr) :
    Prop where
  typed : r.Typed Var.HasName
  width_eq : r.width = e.width
  eval_eq : ∀ ρ, defs.Settles ρ → r.eval ρ = e.eval ρ

/- A signal that is read evaluates as its definition does. -/
theorem Settles.eval_var
    {ρ : Valuation}
    (hSettles : defs.Settles ρ)
    {v : Var}
    (hDef : defs.find? v.name = some d)
    (hd : d.Typed Var.HasName)
    (hWidth : v.width = d.width) :
    d.eval ρ = (Expr.var none v).eval ρ := by
  rcases hSettles v.name d hDef with ⟨x, hx, hEval⟩
  have hValue := (Expr.eval_eq_ok_iff.mp hEval).2
  have hLt : x < 2 ^ d.width := by
    rw [← hValue]
    exact hd.value_lt _
  simp only [hEval, Expr.eval, hx, hWidth,
    and_mask_of_lt hd.width_le hLt]

/-
  Where what is put in place of signals stands for their
  definitions, the whole stands for the expression.
-/
theorem standsFor_subst
    (hValid : ∀ n d, defs.find? n = some d →
      d.Typed Var.HasName)
    (hDone : ∀ n r, done.find? n = some r →
      ∃ d, defs.find? n = some d ∧ defs.StandsFor d r)
    (he : e.Typed Var.HasName)
    (hFits : defs.Fits e) :
    defs.StandsFor e (e.subst done.find?) := by
  have hReplaces : ∀ v ∈ e.occurrences,
      Expr.Replaces done.find? Var.HasName v := by
    intro v hv
    unfold Expr.Replaces
    cases hFound : done.find? v.name with
    | none => exact he.mem hv
    | some r =>
        rcases hDone v.name r hFound with ⟨d, hDef, hr⟩
        exact ⟨hr.typed, hr.width_eq.trans
          (hFits v hv d hDef).symm⟩
  refine ⟨he.subst hReplaces, Expr.width_subst hReplaces, ?_⟩
  intro ρ hSettles
  apply Expr.eval_subst hReplaces
  intro v hv r hFound
  rcases hDone v.name r hFound with ⟨d, hDef, hr⟩
  rw [hr.eval_eq ρ hSettles]
  exact hSettles.eval_var hDef (hValid v.name d hDef)
    (hFits v hv d hDef)

/- The order does not matter here: less inlined is as good. -/
theorem standsFor_inlineInOrder
    (hValid : ∀ n d, defs.find? n = some d →
      d.Typed Var.HasName)
    (hFits : ∀ n d, defs.find? n = some d → defs.Fits d)
    {names : List String}
    (hDone : ∀ n r, done.find? n = some r →
      ∃ d, defs.find? n = some d ∧ defs.StandsFor d r) :
    ∀ n r, (inlineInOrder defs names done).find? n = some r →
      ∃ d, defs.find? n = some d ∧ defs.StandsFor d r := by
  induction names generalizing done with
  | nil => exact hDone
  | cons name names ih =>
      rw [inlineInOrder]
      cases hDef : defs.find? name with
      | none => exact ih hDone
      | some d =>
          apply ih
          intro n r hFound
          rw [NameMap.find?_insert] at hFound
          split at hFound
          case isTrue hSame =>
              subst hSame
              cases hFound
              exact ⟨d, hDef, standsFor_subst hValid hDone
                (hValid n d hDef) (hFits n d hDef)⟩
          case isFalse => exact hDone n r hFound

theorem Proper.typed
    (hDefs : defs.Proper)
    (n : String)
    (d : Expr)
    (hDef : defs.find? n = some d) :
    d.Typed Var.HasName :=
  Expr.validate_eq_ok_iff.mp (hDefs.valid n d hDef)

theorem Proper.standsFor_inlineBy
    (hDefs : defs.Proper)
    (hSort : Digraph.Sorts sort)
    (he : e.Typed Var.HasName)
    (hFits : defs.Fits e)
    (hInline : defs.inlineBy sort e = .ok r) :
    defs.StandsFor e r := by
  rcases inlineBy_eq_ok_iff.mp hInline with
    ⟨resolved, hResolve, rfl⟩
  have hAll :=
    ((hDefs.resolveBy_isOk_iff hSort).mp ⟨resolved, hResolve⟩).2
  rcases resolveBy_eq_ok hResolve with ⟨_, order, _, _, rfl⟩
  refine standsFor_subst hDefs.typed ?_ he hFits
  exact standsFor_inlineInOrder hDefs.typed hAll
    (fun _ _ h => nomatch h)

/- A signal with a name, read at its width if it is defined. -/
def Fitting
    (defs : Definitions)
    (v : Var) :
    Prop :=
  v.HasName ∧ ∀ d, defs.find? v.name = some d → v.width = d.width

theorem Proper.sized
    (hDefs : defs.Proper)
    (hFits : ∀ n d, defs.find? n = some d → defs.Fits d) :
    Sized defs.Fitting defs := by
  intro n d hDef
  constructor
  · exact (hDefs.typed n d hDef).mono fun v hv hName =>
      ⟨hName, hFits n d hDef v hv⟩
  · intro v hFitting hName
    subst hName
    exact hFitting.2 d hDef

/- No defined signal is left, whatever was read before. -/
theorem Proper.not_mem_inlineBy
    (hDefs : defs.Proper)
    (hSort : Digraph.Sorts sort)
    (hInline : defs.inlineBy sort e = .ok r)
    {v : Var}
    (hv : v ∈ r.occurrences) :
    defs.find? v.name = none := by
  rcases inlineBy_eq_ok_iff.mp hInline with
    ⟨resolved, hResolve, rfl⟩
  have hFits :=
    ((hDefs.resolveBy_isOk_iff hSort).mp ⟨resolved, hResolve⟩).2
  rcases resolveBy_spec hSort (hDefs.sized hFits) hResolve with
    ⟨hInlined, hAll⟩
  rcases Expr.exists_of_mem_occurrences_subst hv with ⟨w, _, hIn⟩
  cases hFound : resolved.find? w.name with
  | some c =>
      rw [hFound] at hIn
      rcases hInlined w.name c hFound with ⟨d, _, hAs⟩
      exact (hAs.typed.mem hIn).2
  | none =>
      rw [hFound] at hIn
      rcases List.mem_singleton.mp hIn with rfl
      rw [← Option.not_isSome_iff_eq_none]
      intro hSome
      have hDone := hAll v.name hSome
      rw [hFound] at hDone
      cases hDone

end Definitions

end Gatework

------------------------------------------------------------
-- Complete inlining
------------------------------------------------------------

namespace Gatework

namespace Definitions

variable {defs : Definitions}
variable {e : Expr}
variable {sort : Digraph.Sorter}

/-
  Inlining by any sort succeeds exactly on definitions of
  which none depends on itself and each reads defined signals
  at their widths, and a signal that is reported depends on
  itself. The result reads no defined signal. It evaluates as
  the expression does wherever defined signals have the values
  of their definitions, if the expression reads them at their
  widths.
-/
theorem inlineBy_exact
    (hSort : Digraph.Sorts sort)
    (hDefs : defs.Proper)
    (hExpr : e.validate = .ok ()) :
    ((∃ r, defs.inlineBy sort e = .ok r) ↔
      defs.Acyclic ∧
        ∀ n d, defs.find? n = some d → defs.Fits d) ∧
    (∀ n, defs.inlineBy sort e = .error (.cycle n) →
      Relation.TransGen defs.Reads n n) ∧
    ∀ r, defs.inlineBy sort e = .ok r →
      (∀ v ∈ r.freeVars, defs.find? v.name = none) ∧
      ∀ ρ, defs.Settles ρ → defs.Fits e →
        r.eval ρ = e.eval ρ := by
  refine ⟨?_, ?_, ?_⟩
  · rw [inlineBy_isOk_iff, hDefs.resolveBy_isOk_iff hSort]
  · intro n hError
    cases inlineBy_error hSort hDefs.nodup hError with
    | cycle hCycle => exact hCycle
  · intro r hInline
    constructor
    · intro v hv
      exact hDefs.not_mem_inlineBy hSort hInline
        (Expr.mem_occurrences_of_mem_freeVars hv)
    · intro ρ hSettles hFits
      have he := Expr.validate_eq_ok_iff.mp hExpr
      exact (hDefs.standsFor_inlineBy hSort he hFits
        hInline).eval_eq ρ hSettles

/- So does inlining by depth-first search. -/
theorem inline_exact
    (hDefs : defs.Proper)
    (hExpr : e.validate = .ok ()) :
    ((∃ r, defs.inline e = .ok r) ↔
      defs.Acyclic ∧
        ∀ n d, defs.find? n = some d → defs.Fits d) ∧
    (∀ n, defs.inline e = .error (.cycle n) →
      Relation.TransGen defs.Reads n n) ∧
    ∀ r, defs.inline e = .ok r →
      (∀ v ∈ r.freeVars, defs.find? v.name = none) ∧
      ∀ ρ, defs.Settles ρ → defs.Fits e →
        r.eval ρ = e.eval ρ :=
  inlineBy_exact Digraph.sorts_topologicalOrder hDefs hExpr

/- A signal of which both definition and result are read. -/
def shared : Definitions :=
  let word (name : String) : Expr := .var none ⟨name, 2, false⟩
  ⟨[("p", .gate none .or (word "q") (word "c")),
    ("q", .gate none .and (word "a") (word "b"))]⟩

def sharedPair : Expr :=
  .concat none
    [.var none ⟨"p", 2, false⟩, .var none ⟨"q", 2, false⟩]

/- The values of all signals where the definitions hold. -/
def sharedValues : Valuation := fun n =>
  if n = "p" ∨ n = "a" then some 3
  else if n = "c" then some 2
  else some 1

theorem proper_shared : shared.Proper := by
  apply proper_of_entries <;> decide

theorem fits_sharedPair : shared.Fits sharedPair := by
  intro v hv d hDef
  simp only [sharedPair, Expr.occurrences, Expr.occurrencesAll,
    List.mem_cons, List.mem_append, List.not_mem_nil,
    or_false] at hv
  rcases hv with rfl | rfl
  · cases hDef
    rfl
  · cases hDef
    rfl

theorem inline_exact_shared :
    shared.Proper ∧ sharedPair.validate = .ok () ∧
      shared.Acyclic ∧ shared.Settles sharedValues ∧
      ∃ r, shared.inline sharedPair = .ok r ∧
        (∀ v ∈ r.freeVars, shared.find? v.name = none) ∧
        r.eval sharedValues = .ok 13 := by
  have hValid : sharedPair.validate = .ok () := rfl
  rcases inline_exact proper_shared hValid with
    ⟨hIff, _, hResult⟩
  have hSettles : shared.Settles sharedValues := by
    intro n d hDef
    have hMem := NameMap.mem_entries_of_find?_eq_some hDef
    simp only [shared, List.mem_cons, List.not_mem_nil,
      or_false, Prod.mk.injEq] at hMem
    rcases hMem with ⟨rfl, rfl⟩ | ⟨rfl, rfl⟩
    · exact ⟨3, rfl, rfl⟩
    · exact ⟨1, rfl, rfl⟩
  have hInline : ∃ r, shared.inline sharedPair = .ok r :=
    ⟨_, rfl⟩
  rcases hInline with ⟨r, hInline⟩
  rcases hResult r hInline with ⟨hFree, hEval⟩
  refine ⟨proper_shared, hValid, (hIff.mp ⟨r, hInline⟩).1,
    hSettles, r, hInline, hFree, ?_⟩
  rw [hEval sharedValues hSettles fits_sharedPair]
  rfl

/-
  An expression that reads defined signals at their widths
  stays valid and keeps its width, by whatever sort. A
  definition that reads one at another width is refused.
-/
theorem inlineBy_wellTyped
    (hSort : Digraph.Sorts sort)
    (hDefs : defs.Proper)
    (hExpr : e.validate = .ok ()) :
    (∀ r, defs.inlineBy sort e = .ok r → defs.Fits e →
      r.validate = .ok () ∧ r.width = e.width) ∧
    ∀ n d, defs.find? n = some d → ¬ defs.Fits d →
      ∃ err, defs.inlineBy sort e = .error err ∧
        defs.Flawed err ∧
        (defs.Acyclic → ∃ signal declared actual,
          err = .widthMismatch signal declared actual) := by
  constructor
  · intro r hInline hFits
    have he := Expr.validate_eq_ok_iff.mp hExpr
    have hStands := hDefs.standsFor_inlineBy hSort he hFits hInline
    exact ⟨Expr.validate_eq_ok_iff.mpr hStands.typed,
      hStands.width_eq⟩
  · intro n d hDef hMisread
    cases hInline : defs.inlineBy sort e with
    | error err =>
        have hFlawed := inlineBy_error hSort hDefs.nodup hInline
        refine ⟨err, rfl, hFlawed, ?_⟩
        intro hAcyclic
        cases hFlawed with
        | cycle hCycle => exact absurd hCycle (hAcyclic _)
        | width => exact ⟨_, _, _, rfl⟩
    | ok r =>
        have hFits := (hDefs.resolveBy_isOk_iff hSort).mp
          ((inlineBy_isOk_iff sort defs e).mp ⟨r, hInline⟩)
        exact absurd (hFits.2 n d hDef) hMisread

/- The same of inlining by depth-first search. -/
theorem inline_wellTyped
    (hDefs : defs.Proper)
    (hExpr : e.validate = .ok ()) :
    (∀ r, defs.inline e = .ok r → defs.Fits e →
      r.validate = .ok () ∧ r.width = e.width) ∧
    ∀ n d, defs.find? n = some d → ¬ defs.Fits d →
      ∃ err, defs.inline e = .error err ∧ defs.Flawed err ∧
        (defs.Acyclic → ∃ signal declared actual,
          err = .widthMismatch signal declared actual) :=
  inlineBy_wellTyped Digraph.sorts_topologicalOrder hDefs hExpr

/- A pair of bits, read as a single one by the other signal. -/
def misread : Definitions :=
  ⟨[("t", .var none ⟨"v", 2, false⟩),
    ("u", .not none (.var none ⟨"t", 1, false⟩))]⟩

theorem inline_wellTyped_shared :
    (∃ r, shared.inline sharedPair = .ok r ∧
      r.validate = .ok () ∧ r.width = 4) ∧
    ∃ err, misread.inline (.var none ⟨"u", 1, false⟩) =
      .error err ∧ misread.Flawed err := by
  constructor
  · have hInline : ∃ r, shared.inline sharedPair = .ok r :=
      ⟨_, rfl⟩
    rcases hInline with ⟨r, hInline⟩
    exact ⟨r, hInline, (inline_wellTyped proper_shared rfl).1 r
      hInline fits_sharedPair⟩
  · have hProper : misread.Proper := by
      apply proper_of_entries <;> decide
    have hMisread : ¬ misread.Fits
        (.not none (.var none ⟨"t", 1, false⟩)) := by
      intro hFits
      exact absurd (hFits ⟨"t", 1, false⟩ (by decide) _ rfl)
        (by decide)
    rcases (inline_wellTyped hProper
        (e := .var none ⟨"u", 1, false⟩) rfl).2
      "u" _ rfl hMisread with ⟨err, hError, hFlawed, _⟩
    exact ⟨err, hError, hFlawed⟩

/- A pair of bits under another name. -/
def renamed : Definitions :=
  ⟨[("t", .var none ⟨"v", 2, false⟩)]⟩

/- A gate that reads a single bit there. -/
def narrowGate : Expr :=
  .gate none .and (.var none ⟨"t", 1, false⟩)
    (.var none ⟨"a", 1, false⟩)

/- A pair of bits, read by one signal at two widths. -/
def readTwice : Definitions :=
  ⟨[("t", .var none ⟨"v", 2, false⟩),
    ("u", .concat none
      [.var none ⟨"t", 2, false⟩, .var none ⟨"t", 1, false⟩])]⟩

/-
  An expression that reads a signal at another width becomes
  a gate of unequal operands. A signal of three bits becomes
  an expression of four where its definition reads another
  one at two widths.
-/
theorem inline_illTyped_narrowReads :
    renamed.Proper ∧ narrowGate.validate = .ok () ∧
      (∃ r, renamed.inline narrowGate = .ok r ∧
        r.validate ≠ .ok ()) ∧
      readTwice.keys.Nodup ∧
      (∀ entry ∈ readTwice.entries,
        entry.2.validate.toOption = some ()) ∧
      ∃ r, readTwice.inline (.var none ⟨"u", 3, false⟩) = .ok r ∧
        r.width = 4 := by
  refine ⟨?_, rfl, ⟨_, rfl, nofun⟩, ?_, ?_, _, rfl, rfl⟩
  · apply proper_of_entries <;> decide
  · decide
  · decide

end Definitions

end Gatework
