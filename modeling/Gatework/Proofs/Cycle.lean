import Gatework.Proofs.TopologicalOrder
import Mathlib.Logic.Relation

/-
  Cycles of a graph.

  The search lists a node after everything its edges lead to,
  except for nodes that are still on the stack, and these lead
  to the node themselves. So where an edge of the finished
  list points back to a node listed later, that node leads to
  where the edge starts. A node that the search against the
  edges meets second starts such an edge, hence it lies on a
  cycle.

  Key definitions include:
    * `Digraph.Leads`, the edges as a relation
    * `Digraph.Nested`, what holds of the stack of a search
    * `Digraph.Backed`, what holds of the nodes listed
    * `Digraph.Sorts`, what is asked of a topological sort

  Key theorems include:
    * `Digraph.backed_finished`
    * `Digraph.transGen_of_error`
    * `Digraph.sorts_topologicalOrder`
    * `Digraph.Sorts.isOk_iff`
-/

------------------------------------------------------------
-- Stacks
------------------------------------------------------------

namespace Gatework

namespace Digraph

/- An edge leads from one node to another. -/
def Leads
    (g : Digraph)
    (u v : String) :
    Prop :=
  (u, v) ∈ g.edges

/-
  The first place of a node that has been met and not listed.
  It has everything above it that the node leads to, if not
  met before, and the node leads to everything above it.
-/
structure Nested
    (g : Digraph)
    (state : Search)
    (stack : List String) :
    Prop where
  reaches : ∀ {above n below}, stack = above ++ n :: below →
    n ∉ above → n ∈ state.discovered → n ∉ state.finished →
    ∀ m ∈ above, Relation.ReflTransGen g.Leads n m
  covers : ∀ {above n below}, stack = above ++ n :: below →
    n ∉ above → n ∈ state.discovered → n ∉ state.finished →
    ∀ m, g.Leads n m → m ∈ state.discovered ∨ m ∈ above

/-
  Where a node of a list leads, that node comes after it or
  leads back to it.
-/
def Backed
    (g : Digraph)
    (finished : List String) :
    Prop :=
  ∀ later n earlier, finished = later ++ n :: earlier →
    ∀ m, g.Leads n m →
      m ∈ earlier ∨ Relation.ReflTransGen g.Leads m n

variable {g : Digraph}
variable {state : Search}
variable {top : String}
variable {stack : List String}

/- A stack of one node that has not been met. -/
theorem nested_singleton
    (hNew : top ∉ state.discovered) :
    g.Nested state [top] := by
  have hMet : ∀ {above n below}, [top] = above ++ n :: below →
      n ∉ state.discovered := by
    intro above n below hSplit
    have hMem : n ∈ [top] := by
      rw [hSplit]
      exact List.mem_append_right _ (List.mem_cons_self ..)
    rw [List.mem_singleton.mp hMem]
    exact hNew
  constructor
  · intro above n below hSplit _ hn
    exact absurd hn (hMet hSplit)
  · intro above n below hSplit _ hn
    exact absurd hn (hMet hSplit)

/- A node met before leaves the stack and is listed. -/
theorem Nested.pop
    (h : g.Nested state (top :: stack))
    (hMet : top ∈ state.discovered) :
    g.Nested
      ⟨state.discovered, listedWith state.finished top⟩ stack := by
  -- The node is listed now, so what is looked at is another.
  have hOther : ∀ {above n},
      n ∉ above → n ∉ listedWith state.finished top →
      n ∉ top :: above ∧ n ∉ state.finished := by
    intro above n hAbove hListed
    rw [mem_listedWith, not_or] at hListed
    refine ⟨?_, hListed.2⟩
    rw [List.mem_cons, not_or]
    exact ⟨hListed.1, hAbove⟩
  constructor
  · intro above n below hSplit hAbove hn hOpen m hm
    rcases hOther hAbove hOpen with ⟨hFirst, hOpen'⟩
    exact h.reaches (congrArg (top :: ·) hSplit) hFirst hn hOpen'
      m (List.mem_cons_of_mem _ hm)
  · intro above n below hSplit hAbove hn hOpen m hm
    rcases hOther hAbove hOpen with ⟨hFirst, hOpen'⟩
    rcases h.covers (congrArg (top :: ·) hSplit) hFirst hn hOpen'
      m hm with hSeen | hIn
    · exact Or.inl hSeen
    · rcases List.mem_cons.mp hIn with rfl | hIn
      · exact Or.inl hMet
      · exact Or.inr hIn

/- A place behind some nodes, when it is none of them. -/
theorem exists_split
    {front rest above below : List String}
    {n : String}
    (hSplit : front ++ rest = above ++ n :: below)
    (hFront : n ∉ front) :
    ∃ mid, above = front ++ mid ∧ rest = mid ++ n :: below := by
  rcases List.append_eq_append_iff.mp hSplit with
    ⟨mid, hAbove, hRest⟩ | ⟨mid, hLonger, hRest⟩
  · exact ⟨mid, hAbove, hRest⟩
  · cases mid with
    | nil =>
        rw [List.append_nil] at hLonger
        exact ⟨[], by rw [List.append_nil, hLonger], hRest.symm⟩
    | cons x xs =>
        rcases List.cons.inj hRest with ⟨rfl, _⟩
        refine absurd ?_ hFront
        rw [hLonger]
        exact List.mem_append_right _ (List.mem_cons_self ..)

/- A node met for the first time stays below its successors. -/
theorem Nested.push
    (h : g.Nested state (top :: stack)) :
    g.Nested ⟨top :: state.discovered, state.finished⟩
      ((g.fresh top (top :: state.discovered)).reverse ++
        (top :: stack)) := by
  have hFresh : ∀ m,
      m ∈ (g.fresh top (top :: state.discovered)).reverse ↔
        g.Leads top m ∧ m ∉ top :: state.discovered := by
    intro m
    rw [List.mem_reverse, fresh, List.mem_filter, mem_successors]
    simp [Leads]
  generalize (g.fresh top (top :: state.discovered)).reverse =
    succs at hFresh ⊢
  -- A place in the new stack is the one of the top or an old one.
  have hPlace : ∀ {above n below},
      succs ++ (top :: stack) = above ++ n :: below →
      n ∉ above → n ∈ top :: state.discovered →
      above = succs ∧ n = top ∨
        ∃ mid, above = succs ++ (top :: mid) ∧
          top :: stack = (top :: mid) ++ n :: below ∧
          n ∉ top :: mid ∧ n ∈ state.discovered := by
    intro above n below hSplit hAbove hn
    have hOld : n ∉ succs := fun hIn => ((hFresh n).mp hIn).2 hn
    rcases exists_split hSplit hOld with ⟨mid, rfl, hRest⟩
    cases mid with
    | nil =>
        rcases List.cons.inj hRest with ⟨rfl, _⟩
        exact Or.inl ⟨List.append_nil succs, rfl⟩
    | cons x mid =>
        rcases List.cons.inj hRest with ⟨rfl, hStack⟩
        have hMid : n ∉ top :: mid := fun hIn =>
          hAbove (List.mem_append_right _ hIn)
        refine Or.inr ⟨mid, rfl, hRest, hMid, ?_⟩
        rcases List.mem_cons.mp hn with rfl | hn
        · exact absurd (List.mem_cons_self ..) hMid
        · exact hn
  constructor
  · intro above n below hSplit hAbove hn hOpen m hm
    rcases hPlace hSplit hAbove hn with
      ⟨rfl, rfl⟩ | ⟨mid, rfl, hOld, hMid, hMet⟩
    · exact .single ((hFresh m).mp hm).1
    · have hReach := h.reaches hOld hMid hMet hOpen
      rcases List.mem_append.mp hm with hIn | hIn
      · exact (hReach top (List.mem_cons_self ..)).tail
          ((hFresh m).mp hIn).1
      · exact hReach m hIn
  · intro above n below hSplit hAbove hn hOpen m hm
    rcases hPlace hSplit hAbove hn with
      ⟨rfl, rfl⟩ | ⟨mid, rfl, hOld, hMid, hMet⟩
    · by_cases hSeen : m ∈ n :: state.discovered
      · exact Or.inl hSeen
      · exact Or.inr ((hFresh m).mpr ⟨hm, hSeen⟩)
    · rcases h.covers hOld hMid hMet hOpen m hm with hSeen | hIn
      · exact Or.inl (List.mem_cons_of_mem _ hSeen)
      · exact Or.inr (List.mem_append_right _ hIn)

end Digraph

end Gatework

------------------------------------------------------------
-- The list of a search
------------------------------------------------------------

namespace Gatework

namespace Digraph

variable {g : Digraph}
variable {state : Search}
variable {top : String}
variable {stack : List String}

/-
  A node is listed once everything it leads to has been met.
  What is not listed by then is further down the stack and
  leads to the node.
-/
theorem Backed.list
    (hBacked : g.Backed state.finished)
    (h : g.Nested state (top :: stack))
    (hOpen : ∀ n ∈ state.discovered,
      n ∈ state.finished ∨ n ∈ top :: stack)
    (hMet : top ∈ state.discovered) :
    g.Backed (listedWith state.finished top) := by
  unfold listedWith
  split
  case isTrue => exact hBacked
  case isFalse hListed =>
      have hNew : top ∉ state.finished := fun hIn =>
        hListed (List.contains_iff_mem.mpr hIn)
      intro later n earlier hSplit m hm
      cases later with
      | cons x later =>
          exact hBacked later n earlier (List.cons.inj hSplit).2 m hm
      | nil =>
          rcases List.cons.inj hSplit with ⟨rfl, rfl⟩
          have hTop : top :: stack = [] ++ top :: stack := rfl
          have hSeen : m ∈ state.discovered := by
            rcases h.covers hTop List.not_mem_nil hMet hNew m hm with
              hSeen | hIn
            · exact hSeen
            · cases hIn
          by_cases hDone : m ∈ state.finished
          · exact Or.inl hDone
          · refine Or.inr ?_
            rcases List.eq_append_cons_of_mem
              ((hOpen m hSeen).resolve_left hDone) with
              ⟨above, below, hPlace, hAbove⟩
            cases above with
            | nil =>
                rcases List.cons.inj hPlace with ⟨rfl, _⟩
                exact .refl
            | cons x above =>
                rcases List.cons.inj hPlace with ⟨rfl, _⟩
                exact h.reaches hPlace hAbove hSeen hDone _
                  (List.mem_cons_self ..)

/- Every step of a search keeps the list backed. -/
theorem backed_searchFrom
    {fuel : Nat}
    (h : g.Nested state stack)
    (hOpen : ∀ n ∈ state.discovered,
      n ∈ state.finished ∨ n ∈ stack)
    (hBacked : g.Backed state.finished) :
    g.Backed (searchFrom g fuel stack state).finished := by
  induction fuel generalizing stack state with
  | zero => exact hBacked
  | succ fuel ih =>
      cases stack with
      | nil => exact hBacked
      | cons top stack =>
          by_cases hMet : top ∈ state.discovered
          · rw [searchFrom_met hMet]
            apply ih (h.pop hMet) _ (hBacked.list h hOpen hMet)
            intro n hn
            rcases hOpen n hn with hDone | hIn
            · exact Or.inl (mem_listedWith.mpr (Or.inr hDone))
            · rcases List.mem_cons.mp hIn with rfl | hIn
              · exact Or.inl (mem_listedWith.mpr (Or.inl rfl))
              · exact Or.inr hIn
          · rw [searchFrom_new hMet]
            apply ih h.push _ hBacked
            intro n hn
            rcases List.mem_cons.mp hn with rfl | hn
            · exact Or.inr (List.mem_append_right _
                (List.mem_cons_self ..))
            · exact (hOpen n hn).imp_right
                (List.mem_append_right _)

theorem backed_foldl
    (hClosed : g.Closed)
    {ns : List String}
    (hNodes : ∀ n ∈ ns, n ∈ g.nodes)
    (hListed : ∀ n ∈ state.discovered, n ∈ state.finished)
    (hNodup : state.finished.Nodup)
    (hBacked : g.Backed state.finished) :
    g.Backed (ns.foldl g.searchNext state).finished := by
  induction ns generalizing state with
  | nil => exact hBacked
  | cons n ns ih =>
      have hStep := complete_searchNext hClosed
        (hNodes n (List.mem_cons_self ..)) hListed hNodup
      rw [List.foldl_cons]
      apply ih (fun m hm => hNodes m (List.mem_cons_of_mem _ hm))
        hStep.listed hStep.nodup
      unfold searchNext
      split
      case isTrue => exact hBacked
      case isFalse hNew =>
          apply backed_searchFrom _
            (fun m hm => Or.inl (hListed m hm)) hBacked
          exact nested_singleton
            (fun hIn => hNew (List.contains_iff_mem.mpr hIn))

/- The finished list is backed. -/
theorem backed_finished
    (hClosed : g.Closed) :
    g.Backed g.finished := by
  rw [finished_eq]
  apply backed_foldl hClosed (fun _ hn => hn)
  · intro n hn
    cases hn
  · exact List.nodup_nil
  · intro later n earlier hSplit
    cases later <;> cases hSplit

end Digraph

end Gatework

------------------------------------------------------------
-- Orders and cycles
------------------------------------------------------------

namespace Gatework

namespace Digraph

variable {g : Digraph}

/-
  What is found starts an edge to a node of the list, and it
  is neither that node nor one met before.
-/
theorem exists_of_cycleIn?
    {met order : List String}
    {p : String}
    (hNodup : (met ++ order).Nodup)
    (hFound : cycleIn? g met order = some p) :
    ∃ before n after, order = before ++ n :: after ∧
      g.Leads p n ∧ p ∉ met ++ (before ++ [n]) := by
  induction order generalizing met with
  | nil => cases hFound
  | cons n rest ih =>
      have hMoved : (met ++ [n] ++ rest).Nodup := by
        rw [List.append_assoc]
        exact hNodup
      have hn : n ∉ met := by
        intro hIn
        rcases List.nodup_append.mp hNodup with ⟨_, _, hApart⟩
        exact hApart n hIn n (List.mem_cons_self ..) rfl
      rcases cycleIn?_cons (g := g) hn rest with
        ⟨hNext, _⟩ | ⟨q, hSome, hEdge, hOut⟩
      · rw [hNext] at hFound
        rcases ih hMoved hFound with
          ⟨before, k, after, rfl, hEdge, hOut⟩
        rw [List.append_assoc] at hOut
        exact ⟨n :: before, k, after, rfl, hEdge, hOut⟩
      · rw [hFound] at hSome
        cases hSome
        exact ⟨[], n, rest, rfl, hEdge, hOut⟩

/- A node that is reported lies on a cycle. -/
theorem transGen_of_error
    (hClosed : g.Closed)
    {p : String}
    (hError : g.topologicalOrder = .error p) :
    Relation.TransGen g.Leads p p := by
  rcases mem_finished hClosed with ⟨hAll, hNodup⟩
  have hFound : cycleIn? g [] g.finished = some p := by
    unfold topologicalOrder at hError
    split at hError
    case h_1 hSome =>
        cases hError
        exact hSome
    case h_2 => cases hError
  rcases exists_of_cycleIn? hNodup hFound with
    ⟨before, n, after, hOrder, hEdge, hOut⟩
  -- The edge starts further down the list than it ends.
  have hIn : p ∈ before ++ n :: after := by
    rw [← hOrder]
    exact hAll p (hClosed p n hEdge).1
  have hAfter : p ∈ after := by
    rw [List.append_cons] at hIn
    exact (List.mem_append.mp hIn).resolve_left hOut
  rcases List.append_of_mem hAfter with ⟨mid, last, rfl⟩
  have hPlace : g.finished =
      (before ++ n :: mid) ++ p :: last := by
    rw [hOrder, List.append_assoc]
    rfl
  rcases backed_finished hClosed _ p last hPlace n hEdge with
    hLast | hBack
  · rw [hPlace] at hNodup
    rcases List.nodup_append.mp hNodup with ⟨_, _, hApart⟩
    refine absurd rfl (hApart n ?_ n (List.mem_cons_of_mem _ hLast))
    exact List.mem_append_right _ (List.mem_cons_self ..)
  · exact .head' hEdge hBack

end Digraph

end Gatework

------------------------------------------------------------
-- Topological sorts
------------------------------------------------------------

namespace Gatework

namespace Digraph

/-
  A sort of closed graphs. An order has every node once, and
  no edge leads from a node to an earlier one. A node that is
  reported lies on a cycle. Nothing else is used of a sort.
-/
structure Sorts
    (sort : Sorter) :
    Prop where
  ordered : ∀ {g : Digraph} {order}, g.Closed →
    sort g = .ok order →
    (∀ n ∈ g.nodes, n ∈ order) ∧ order.Nodup ∧
      order.Pairwise fun u v => (v, u) ∉ g.edges
  onCycle : ∀ {g : Digraph} {n}, g.Closed → sort g = .error n →
    Relation.TransGen g.Leads n n

/- The depth-first search with its check is such a sort. -/
theorem sorts_topologicalOrder :
    Sorts topologicalOrder where
  ordered hClosed hOrder := topologicalOrder_spec hClosed hOrder
  onCycle hClosed hError := transGen_of_error hClosed hError

variable {sort : Sorter}
variable {g : Digraph}

/- Along the edges of an ordered graph places ascend. -/
theorem Sorts.idxOf_lt_of_transGen
    (hSort : Sorts sort)
    (hClosed : g.Closed)
    (hIrrefl : ∀ n, ¬ g.Leads n n)
    {order : List String}
    (hOrder : sort g = .ok order)
    {u v : String}
    (hLeads : Relation.TransGen g.Leads u v) :
    order.idxOf u < order.idxOf v := by
  rcases hSort.ordered hClosed hOrder with
    ⟨hAll, hNodup, hPairs⟩
  have hStep : ∀ {a b}, g.Leads a b →
      order.idxOf a < order.idxOf b := by
    intro a b hEdge
    have ha : order.idxOf a < order.length :=
      List.idxOf_lt_length_iff.mpr (hAll a (hClosed a b hEdge).1)
    have hb : order.idxOf b < order.length :=
      List.idxOf_lt_length_iff.mpr (hAll b (hClosed a b hEdge).2)
    rcases Nat.lt_trichotomy (order.idxOf a) (order.idxOf b) with
      hLess | hSame | hMore
    · exact hLess
    · have hEq : a = b := by
        rw [← List.getElem_idxOf ha, ← List.getElem_idxOf hb]
        exact getElem_congr_idx hSame
      exact absurd (hEq ▸ hEdge) (hIrrefl b)
    · have hBack := List.pairwise_iff_getElem.mp hPairs _ _ hb ha
        hMore
      rw [List.getElem_idxOf, List.getElem_idxOf] at hBack
      exact absurd hEdge hBack
  induction hLeads with
  | single hEdge => exact hStep hEdge
  | tail _ hEdge ih => exact Nat.lt_trans ih (hStep hEdge)

/-
  A graph without edges from a node to itself has an order
  exactly when it has no cycle.
-/
theorem Sorts.isOk_iff
    (hSort : Sorts sort)
    (hClosed : g.Closed)
    (hIrrefl : ∀ n, ¬ g.Leads n n) :
    (∃ order, sort g = .ok order) ↔
      ∀ n, ¬ Relation.TransGen g.Leads n n := by
  constructor
  · intro hOrdered n hCycle
    rcases hOrdered with ⟨order, hOrder⟩
    exact Nat.lt_irrefl _
      (hSort.idxOf_lt_of_transGen hClosed hIrrefl hOrder hCycle)
  · intro hAcyclic
    cases hOrder : sort g with
    | ok order => exact ⟨order, rfl⟩
    | error p =>
        exact absurd (hSort.onCycle hClosed hOrder) (hAcyclic p)

end Digraph

end Gatework
