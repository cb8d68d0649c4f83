import Gatework.TopologicalOrder

/-
  The order of a graph without a cycle.

  The depth-first search lists every node once, whatever the
  edges are; the search against the edges then makes sure that
  no edge leads from a node to an earlier one.

  Key definitions include:
    * `Digraph.Closed`, edges lead between nodes
    * `Digraph.work`, the steps a search can still take

  Key theorems include:
    * `Digraph.mem_finished`
    * `Digraph.topologicalOrder_spec`
-/

------------------------------------------------------------
-- Graphs
------------------------------------------------------------

namespace Gatework

namespace Digraph

/- Every edge leads between nodes of the graph. -/
def Closed
    (g : Digraph) :
    Prop :=
  ∀ u v, (u, v) ∈ g.edges → u ∈ g.nodes ∧ v ∈ g.nodes

theorem mem_nodes_addNode
    {g : Digraph}
    {n m : String} :
    m ∈ (g.addNode n).nodes ↔ m = n ∨ m ∈ g.nodes := by
  unfold addNode
  split
  case isTrue hMem =>
      have hIn : n ∈ g.nodes := List.contains_iff_mem.mp hMem
      constructor
      · exact Or.inr
      · rintro (rfl | h)
        · exact hIn
        · exact h
  case isFalse =>
      rw [List.mem_append, List.mem_singleton, or_comm]

theorem edges_addNode
    (g : Digraph)
    (n : String) :
    (g.addNode n).edges = g.edges := by
  unfold addNode
  split <;> rfl

theorem mem_nodes_addEdge
    {g : Digraph}
    {u v m : String} :
    m ∈ (g.addEdge u v).nodes ↔ m = v ∨ m = u ∨ m ∈ g.nodes := by
  change m ∈ ((g.addNode u).addNode v).nodes ↔ _
  rw [mem_nodes_addNode, mem_nodes_addNode]

theorem mem_edges_addEdge
    {g : Digraph}
    {u v : String}
    {e : String × String} :
    e ∈ (g.addEdge u v).edges ↔ e ∈ g.edges ∨ e = (u, v) := by
  change e ∈ ((g.addNode u).addNode v).edges ++ [(u, v)] ↔ _
  rw [edges_addNode, edges_addNode, List.mem_append,
    List.mem_singleton]

theorem Closed.addNode
    {g : Digraph}
    (hClosed : g.Closed)
    (n : String) :
    (g.addNode n).Closed := by
  intro u v hEdge
  rw [edges_addNode] at hEdge
  rcases hClosed u v hEdge with ⟨hu, hv⟩
  exact ⟨mem_nodes_addNode.mpr (Or.inr hu),
    mem_nodes_addNode.mpr (Or.inr hv)⟩

theorem Closed.addEdge
    {g : Digraph}
    (hClosed : g.Closed)
    (s t : String) :
    (g.addEdge s t).Closed := by
  intro u v hEdge
  rcases mem_edges_addEdge.mp hEdge with h | h
  · rcases hClosed u v h with ⟨hu, hv⟩
    exact ⟨mem_nodes_addEdge.mpr (Or.inr (Or.inr hu)),
      mem_nodes_addEdge.mpr (Or.inr (Or.inr hv))⟩
  · cases h
    exact ⟨mem_nodes_addEdge.mpr (Or.inr (Or.inl rfl)),
      mem_nodes_addEdge.mpr (Or.inl rfl)⟩

theorem mem_successors
    {g : Digraph}
    {u v : String} :
    v ∈ g.successors u ↔ (u, v) ∈ g.edges := by
  unfold successors
  rw [List.mem_map]
  constructor
  · rintro ⟨⟨s, t⟩, hEdge, rfl⟩
    rcases List.mem_filter.mp hEdge with ⟨hIn, hSource⟩
    rcases beq_iff_eq.mp hSource with rfl
    exact hIn
  · intro hEdge
    exact ⟨(u, v), List.mem_filter.mpr
      ⟨hEdge, beq_self_eq_true u⟩, rfl⟩

theorem mem_predecessors
    {g : Digraph}
    {u v : String} :
    u ∈ g.predecessors v ↔ (u, v) ∈ g.edges := by
  unfold predecessors
  rw [List.mem_map]
  constructor
  · rintro ⟨⟨s, t⟩, hEdge, rfl⟩
    rcases List.mem_filter.mp hEdge with ⟨hIn, hTarget⟩
    rcases beq_iff_eq.mp hTarget with rfl
    exact hIn
  · intro hEdge
    exact ⟨(u, v), List.mem_filter.mpr
      ⟨hEdge, beq_self_eq_true v⟩, rfl⟩

end Digraph

end Gatework

------------------------------------------------------------
-- The forward search ends
------------------------------------------------------------

namespace Gatework

namespace Digraph

/-
  The edges from nodes not met yet and those nodes: what a
  search can still put on its stack or meet.
-/
def work
    (g : Digraph)
    (met : List String) :
    Nat :=
  g.edges.countP (fun e => e.1 ∉ met) +
    g.nodes.countP (fun n => n ∉ met)

/- Edges from a node just met are open no more. -/
theorem countP_edges
    {top : String}
    {met : List String}
    (hTop : top ∉ met)
    (edges : List (String × String)) :
    edges.countP (fun e => e.1 ∉ top :: met) +
        (edges.filter fun e => e.1 == top).length =
      edges.countP (fun e => e.1 ∉ met) := by
  rw [← List.countP_eq_length_filter]
  induction edges with
  | nil => rfl
  | cons e edges ih =>
      rw [List.countP_cons, List.countP_cons, List.countP_cons]
      by_cases hSource : e.1 = top
      · have hOpen : e.1 ∉ met := hSource ▸ hTop
        have hMet : ¬ e.1 ∉ top :: met := fun h =>
          h (List.mem_cons.mpr (Or.inl hSource))
        rw [if_pos (beq_iff_eq.mpr hSource),
          if_pos (decide_eq_true hOpen), decide_eq_false hMet,
          if_neg Bool.false_ne_true]
        omega
      · have hSame : e.1 ∉ top :: met ↔ e.1 ∉ met := by
          rw [List.mem_cons, or_iff_right hSource]
        rw [if_neg (fun h => hSource (beq_iff_eq.mp h))]
        simp only [hSame] at ih ⊢
        omega

/- A node just met is open no more. -/
theorem countP_nodes
    {top : String}
    {met nodes : List String}
    (hTop : top ∉ met)
    (hNode : top ∈ nodes) :
    nodes.countP (fun n => n ∉ top :: met) + 1 ≤
      nodes.countP (fun n => n ∉ met) := by
  have hMono : ∀ ns : List String,
      ns.countP (fun n => n ∉ top :: met) ≤
        ns.countP (fun n => n ∉ met) := by
    intro ns
    apply List.countP_mono_left
    intro n _ hn
    rw [decide_eq_true_iff] at hn ⊢
    exact fun h => hn (List.mem_cons_of_mem _ h)
  induction nodes with
  | nil => cases hNode
  | cons n nodes ih =>
      rw [List.countP_cons, List.countP_cons]
      by_cases hSame : n = top
      · subst hSame
        have hMet : ¬ n ∉ n :: met := fun h =>
          h (List.mem_cons_self ..)
        rw [if_pos (decide_eq_true hTop), decide_eq_false hMet,
          if_neg Bool.false_ne_true]
        have hRest := hMono nodes
        omega
      · have hIn : top ∈ nodes := by
          rcases List.mem_cons.mp hNode with h | h
          · exact absurd h.symm hSame
          · exact h
        have hOpen : n ∉ top :: met ↔ n ∉ met := by
          rw [List.mem_cons, or_iff_right hSame]
        have hRest := ih hIn
        rw [decide_eq_decide.mpr hOpen]
        omega

/- Meeting a node pays for what it puts on the stack. -/
theorem work_cons
    {g : Digraph}
    {top : String}
    {met : List String}
    (hTop : top ∉ met)
    (hNode : top ∈ g.nodes) :
    g.work (top :: met) + (g.successors top).length + 1 ≤
      g.work met := by
  have hEdges := countP_edges hTop g.edges
  have hNodes := countP_nodes hTop hNode
  unfold work successors
  rw [List.length_map]
  omega

theorem work_lt_searchBound
    (g : Digraph)
    (met : List String) :
    g.work met + 1 ≤ g.searchBound := by
  have hEdges : g.edges.countP (fun e => e.1 ∉ met) ≤ _ :=
    List.countP_le_length
  have hNodes : g.nodes.countP (fun n => n ∉ met) ≤ _ :=
    List.countP_le_length
  unfold work searchBound
  omega

/- What a search that has emptied its stack leaves behind. -/
structure Complete
    (state state' : Search)
    (stack : List String) :
    Prop where
  met : ∀ n, n ∈ state.discovered ∨ n ∈ stack →
    n ∈ state'.discovered
  listed : ∀ n ∈ state'.discovered, n ∈ state'.finished
  nodup : state'.finished.Nodup

theorem complete_of_empty
    {state : Search}
    (hOpen : ∀ n ∈ state.discovered,
      n ∈ state.finished ∨ n ∈ [])
    (hNodup : state.finished.Nodup) :
    Complete state state [] where
  met := fun _ hn => hn.resolve_right List.not_mem_nil
  listed := fun n hn =>
    (hOpen n hn).resolve_right List.not_mem_nil
  nodup := hNodup

/- A list with an element that it may have already. -/
def listedWith
    (finished : List String)
    (top : String) :
    List String :=
  if finished.contains top then finished else top :: finished

theorem mem_listedWith
    {top n : String}
    {finished : List String} :
    n ∈ listedWith finished top ↔ n = top ∨ n ∈ finished := by
  unfold listedWith
  split
  case isTrue hMem =>
      have hIn : top ∈ finished := List.contains_iff_mem.mp hMem
      constructor
      · exact Or.inr
      · rintro (rfl | h)
        · exact hIn
        · exact h
  case isFalse => exact List.mem_cons

theorem nodup_listedWith
    {top : String}
    {finished : List String}
    (hNodup : finished.Nodup) :
    (listedWith finished top).Nodup := by
  unfold listedWith
  split
  case isTrue => exact hNodup
  case isFalse hMem =>
      refine List.nodup_cons.mpr ⟨?_, hNodup⟩
      exact fun h => hMem (List.contains_iff_mem.mpr h)

/- The successors of a node that are not met yet. -/
def fresh
    (g : Digraph)
    (top : String)
    (met : List String) :
    List String :=
  (g.successors top).filter fun s => !met.contains s

theorem searchFrom_met
    {g : Digraph}
    {top : String}
    {state : Search}
    (hMet : top ∈ state.discovered)
    (fuel : Nat)
    (stack : List String) :
    searchFrom g (fuel + 1) (top :: stack) state =
      searchFrom g fuel stack
        ⟨state.discovered, listedWith state.finished top⟩ := by
  rw [searchFrom, if_pos (List.contains_iff_mem.mpr hMet)]
  rfl

theorem searchFrom_new
    {g : Digraph}
    {top : String}
    {state : Search}
    (hNew : top ∉ state.discovered)
    (fuel : Nat)
    (stack : List String) :
    searchFrom g (fuel + 1) (top :: stack) state =
      searchFrom g fuel
        ((g.fresh top (top :: state.discovered)).reverse ++
          (top :: stack))
        ⟨top :: state.discovered, state.finished⟩ := by
  rw [searchFrom,
    if_neg (fun h => hNew (List.contains_iff_mem.mp h))]
  rfl

/-
  With enough steps the stack gets empty. On the way every
  node met is listed or on the stack.
-/
theorem searchFrom_complete
    {g : Digraph}
    (hClosed : g.Closed)
    {fuel : Nat}
    {stack : List String}
    {state : Search}
    (hFuel : stack.length + g.work state.discovered ≤ fuel)
    (hStack : ∀ n ∈ stack, n ∈ g.nodes)
    (hOpen : ∀ n ∈ state.discovered,
      n ∈ state.finished ∨ n ∈ stack)
    (hNodup : state.finished.Nodup) :
    Complete state (searchFrom g fuel stack state) stack := by
  induction fuel generalizing stack state with
  | zero =>
      have hNil : stack = [] :=
        List.length_eq_zero_iff.mp (by omega)
      subst hNil
      exact complete_of_empty hOpen hNodup
  | succ fuel ih =>
      cases stack with
      | nil => exact complete_of_empty hOpen hNodup
      | cons top stack =>
          rw [List.length_cons] at hFuel
          by_cases hMet : top ∈ state.discovered
          · -- The node leaves the stack and is listed.
            rw [searchFrom_met hMet]
            have hOpen' : ∀ n ∈ state.discovered,
                n ∈ listedWith state.finished top ∨ n ∈ stack := by
              intro n hn
              rcases hOpen n hn with h | h
              · exact Or.inl (mem_listedWith.mpr (Or.inr h))
              · exact (List.mem_cons.mp h).imp_left
                  (fun h => mem_listedWith.mpr (Or.inl h))
            have hFuel' : stack.length + g.work state.discovered ≤
                fuel := by
              omega
            have hDone := @ih stack
              ⟨state.discovered, listedWith state.finished top⟩
              hFuel'
              (fun n hn => hStack n (List.mem_cons_of_mem _ hn))
              hOpen' (nodup_listedWith hNodup)
            refine ⟨?_, hDone.listed, hDone.nodup⟩
            rintro n (h | h)
            · exact hDone.met n (Or.inl h)
            · rcases List.mem_cons.mp h with rfl | h
              · exact hDone.met n (Or.inl hMet)
              · exact hDone.met n (Or.inr h)
          · -- The node stays below its fresh successors.
            rw [searchFrom_new hMet]
            have hTop := hStack top (List.mem_cons_self ..)
            have hWork := work_cons hMet hTop
            have hFresh :
                (g.fresh top (top :: state.discovered)).length ≤
                  (g.successors top).length :=
              List.length_filter_le ..
            generalize hSuccs :
              g.fresh top (top :: state.discovered) = succs
              at hFresh ⊢
            have hStack' : ∀ n ∈ succs.reverse ++ (top :: stack),
                n ∈ g.nodes := by
              intro n hn
              rcases List.mem_append.mp hn with h | h
              · rw [List.mem_reverse, ← hSuccs] at h
                have hEdge := mem_successors.mp
                  (List.mem_filter.mp h).1
                exact (hClosed _ _ hEdge).2
              · exact hStack n h
            have hOpen' : ∀ n ∈ top :: state.discovered,
                n ∈ state.finished ∨
                  n ∈ succs.reverse ++ (top :: stack) := by
              intro n hn
              rcases List.mem_cons.mp hn with rfl | h
              · exact Or.inr (List.mem_append_right _
                  (List.mem_cons_self ..))
              · exact (hOpen n h).imp_right (List.mem_append_right _)
            have hFuel' : (succs.reverse ++ (top :: stack)).length +
                g.work (top :: state.discovered) ≤ fuel := by
              rw [List.length_append, List.length_reverse,
                List.length_cons]
              omega
            have hDone := @ih (succs.reverse ++ (top :: stack))
              ⟨top :: state.discovered, state.finished⟩
              hFuel' hStack' hOpen' hNodup
            refine ⟨?_, hDone.listed, hDone.nodup⟩
            rintro n (h | h)
            · exact hDone.met n (Or.inl (List.mem_cons_of_mem _ h))
            · exact hDone.met n (Or.inr (List.mem_append_right _ h))

/- A search from a node, unless it has been met. -/
def searchNext
    (g : Digraph)
    (state : Search)
    (n : String) :
    Search :=
  if state.discovered.contains n then state
  else searchFrom g g.searchBound [n] state

theorem complete_searchNext
    {g : Digraph}
    (hClosed : g.Closed)
    {n : String}
    (hn : n ∈ g.nodes)
    {state : Search}
    (hListed : ∀ m ∈ state.discovered, m ∈ state.finished)
    (hNodup : state.finished.Nodup) :
    Complete state (g.searchNext state n) [n] := by
  unfold searchNext
  split
  case isTrue hMet =>
      refine ⟨?_, hListed, hNodup⟩
      rintro m (h | h)
      · exact h
      · rw [List.mem_singleton.mp h]
        exact List.contains_iff_mem.mp hMet
  case isFalse =>
      have hBound := g.work_lt_searchBound state.discovered
      apply searchFrom_complete hClosed
      · rw [List.length_singleton]
        omega
      · intro m hm
        rw [List.mem_singleton.mp hm]
        exact hn
      · exact fun m hm => Or.inl (hListed m hm)
      · exact hNodup

/- Searching from nodes in turn lists all of them, once. -/
theorem foldl_searchFrom
    {g : Digraph}
    (hClosed : g.Closed)
    {ns : List String}
    (hNodes : ∀ n ∈ ns, n ∈ g.nodes)
    {state : Search}
    (hListed : ∀ n ∈ state.discovered, n ∈ state.finished)
    (hNodup : state.finished.Nodup) :
    Complete state (ns.foldl g.searchNext state) ns := by
  induction ns generalizing state with
  | nil =>
      exact complete_of_empty (fun n hn => Or.inl (hListed n hn))
        hNodup
  | cons n ns ih =>
      have hTail : ∀ m ∈ ns, m ∈ g.nodes := fun m hm =>
        hNodes m (List.mem_cons_of_mem _ hm)
      have hStep := complete_searchNext hClosed
        (hNodes n (List.mem_cons_self ..)) hListed hNodup
      have hDone := ih hTail hStep.listed hStep.nodup
      rw [List.foldl_cons]
      refine ⟨?_, hDone.listed, hDone.nodup⟩
      rintro m (h | h)
      · exact hDone.met m (Or.inl (hStep.met m (Or.inl h)))
      · rcases List.mem_cons.mp h with rfl | h
        · exact hDone.met m (Or.inl (hStep.met m
            (Or.inr (List.mem_singleton.mpr rfl))))
        · exact hDone.met m (Or.inr h)

/- The list comes from searches from all nodes in turn. -/
theorem finished_eq
    (g : Digraph) :
    g.finished =
      (g.nodes.foldl g.searchNext ⟨[], []⟩).finished :=
  rfl

/- The search lists every node, and none twice. -/
theorem mem_finished
    {g : Digraph}
    (hClosed : g.Closed) :
    (∀ n ∈ g.nodes, n ∈ g.finished) ∧ g.finished.Nodup := by
  have hDone := @foldl_searchFrom g hClosed g.nodes
    (fun n hn => hn) ⟨[], []⟩
    (fun n hn => absurd hn List.not_mem_nil) List.nodup_nil
  rw [finished_eq]
  exact ⟨fun n hn => hDone.listed n (hDone.met n (Or.inr hn)),
    hDone.nodup⟩

end Digraph

end Gatework

------------------------------------------------------------
-- The search against the edges
------------------------------------------------------------

namespace Gatework

namespace Digraph

/- What was met before stays in front. -/
theorem exists_meetBackwards
    (g : Digraph)
    (fuel : Nat)
    (stack met : List String) :
    ∃ more, meetBackwards g fuel stack met = met ++ more := by
  induction fuel generalizing stack met with
  | zero => exact ⟨[], (List.append_nil met).symm⟩
  | succ fuel ih =>
      cases stack with
      | nil => exact ⟨[], (List.append_nil met).symm⟩
      | cons top stack =>
          rw [meetBackwards]
          split
          case isTrue => exact ih stack met
          case isFalse =>
              rcases ih _ (met ++ [top]) with ⟨more, hMore⟩
              refine ⟨top :: more, ?_⟩
              rw [hMore, List.append_assoc]
              rfl

theorem meetBackwards_nil
    (g : Digraph)
    (fuel : Nat)
    (met : List String) :
    meetBackwards g fuel [] met = met := by
  cases fuel <;> rfl

/-
  A search meets its first node alone if all predecessors of
  that node have been met; otherwise it meets one of them
  second.
-/
theorem meetBackwards_cases
    {g : Digraph}
    {n : String}
    {met : List String}
    (hn : n ∉ met) :
    (meetBackwards g g.searchBound [n] met = met ++ [n] ∧
        ∀ p, (p, n) ∈ g.edges → p ∈ met ++ [n]) ∨
      ∃ p more,
        meetBackwards g g.searchBound [n] met =
          met ++ [n] ++ p :: more ∧
        (p, n) ∈ g.edges ∧ p ∉ met ++ [n] := by
  have hNew : ¬ met.contains n = true :=
    fun h => hn (List.contains_iff_mem.mp h)
  have hAll : ∀ p, (p, n) ∈ g.edges → p ∉ met ++ [n] →
      p ∈ (g.predecessors n).filter fun p =>
        !(met ++ [n]).contains p := by
    intro p hEdge hOut
    refine List.mem_filter.mpr ⟨mem_predecessors.mpr hEdge, ?_⟩
    simpa using hOut
  unfold searchBound
  rw [meetBackwards, if_neg hNew]
  simp only [List.append_nil]
  generalize hFresh : ((g.predecessors n).filter fun p =>
    !(met ++ [n]).contains p) = others at hAll ⊢
  cases others with
  | nil =>
      refine Or.inl ⟨meetBackwards_nil _ _ _, ?_⟩
      intro p hEdge
      by_cases hMet : p ∈ met ++ [n]
      · exact hMet
      · exact absurd (hAll p hEdge hMet) List.not_mem_nil
  | cons q qs =>
      cases hStack : (q :: qs).reverse with
      | nil => exact absurd hStack (by simp)
      | cons p rest =>
          have hp : p ∈ q :: qs := by
            rw [← List.mem_reverse, hStack]
            exact List.mem_cons_self ..
          rw [← hFresh, List.mem_filter] at hp
          have hOut : ¬ (met ++ [n]).contains p = true := by
            simpa using hp.2
          have hEdge := mem_predecessors.mp hp.1
          have hEdges : 0 < g.edges.length :=
            List.length_pos_of_mem hEdge
          have hFuel : 2 * (g.nodes.length + g.edges.length) =
              2 * (g.nodes.length + g.edges.length) - 1 + 1 := by
            omega
          rw [hFuel, meetBackwards, if_neg hOut]
          rcases exists_meetBackwards g _ _ (met ++ [n] ++ [p]) with
            ⟨more, hMore⟩
          refine Or.inr ⟨p, more, ?_, hEdge, ?_⟩
          · rw [hMore, List.append_assoc]
            rfl
          · exact fun h => hOut (List.contains_iff_mem.mpr h)

/-
  One node of a list on which cycles are looked for: either
  all its predecessors have been met, and the rest of the list
  decides, or one that has not been met is found.
-/
theorem cycleIn?_cons
    {g : Digraph}
    {n : String}
    {met : List String}
    (hn : n ∉ met)
    (rest : List String) :
    (cycleIn? g met (n :: rest) = cycleIn? g (met ++ [n]) rest ∧
        ∀ p, (p, n) ∈ g.edges → p ∈ met ++ [n]) ∨
      ∃ p, cycleIn? g met (n :: rest) = some p ∧
        (p, n) ∈ g.edges ∧ p ∉ met ++ [n] := by
  have hDrop : ∀ more,
      (met ++ [n] ++ more).drop (met.length + 1) = more := by
    intro more
    rw [← List.length_singleton (a := n), ← List.length_append,
      List.drop_left]
  rw [cycleIn?]
  rcases meetBackwards_cases (g := g) hn with
    ⟨hMet, hBefore⟩ | ⟨p, more, hMet, hEdge, hOut⟩
  · have hNone := hDrop []
    rw [List.append_nil] at hNone
    refine Or.inl ⟨?_, hBefore⟩
    simp only [hMet, hNone]
  · refine Or.inr ⟨p, ?_, hEdge, hOut⟩
    simp only [hMet, hDrop]

/- No edge leads back in a list without a cycle. -/
theorem pairwise_of_cycleIn?
    {g : Digraph}
    {order met : List String}
    (hNodup : (met ++ order).Nodup)
    (hNone : cycleIn? g met order = none) :
    order.Pairwise fun u v => (v, u) ∉ g.edges := by
  induction order generalizing met with
  | nil => exact List.Pairwise.nil
  | cons n rest ih =>
      have hMoved : (met ++ [n] ++ rest).Nodup := by
        rw [List.append_assoc]
        exact hNodup
      rcases List.nodup_append.mp hNodup with ⟨_, _, hApart⟩
      have hn : n ∉ met := fun h =>
        hApart n h n (List.mem_cons_self ..) rfl
      rcases cycleIn?_cons (g := g) hn rest with
        ⟨hNext, hBefore⟩ | ⟨p, hSome, _⟩
      · rw [hNext] at hNone
        refine List.pairwise_cons.mpr ⟨?_, ih hMoved hNone⟩
        intro v hv hEdge
        rcases List.nodup_append.mp hMoved with ⟨_, _, hApart'⟩
        exact hApart' v (hBefore v hEdge) v hv rfl
      · rw [hNone] at hSome
        cases hSome

/-
  An order of a graph has every node once, and no edge leads
  from a node to an earlier one.
-/
theorem topologicalOrder_spec
    {g : Digraph}
    (hClosed : g.Closed)
    {order : List String}
    (hOrder : g.topologicalOrder = .ok order) :
    (∀ n ∈ g.nodes, n ∈ order) ∧ order.Nodup ∧
      order.Pairwise fun u v => (v, u) ∉ g.edges := by
  unfold topologicalOrder at hOrder
  split at hOrder
  case h_1 => cases hOrder
  case h_2 hNone =>
      cases hOrder
      rcases mem_finished hClosed with ⟨hAll, hNodup⟩
      exact ⟨hAll, hNodup, pairwise_of_cycleIn? hNodup hNone⟩

end Digraph

end Gatework
