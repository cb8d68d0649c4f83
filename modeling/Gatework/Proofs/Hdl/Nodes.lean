import Gatework.Proofs.Hdl.Clean
import Gatework.Proofs.Hdl.Outline

/-
  Nodes over tokens.

  While a node of the tree is read, the tokens since its start
  hold the nodes inside it, one behind the other. A node that
  is read to its end covers its tokens, from the start of the
  first to the end of the last.

  Key definitions include:
    * `Hdl.InOrder` and `Hdl.Covers`
    * `Hdl.Built`, `Hdl.Holds` and `Hdl.Node`

  Key theorems include:
    * `Hdl.Covers.merge`
    * `Hdl.Holds.append`
    * `Hdl.Node.read` and `Hdl.Node.close`
-/

------------------------------------------------------------
-- Places of many tokens
------------------------------------------------------------

namespace Gatework.Hdl

/- Tokens that do not overlap, in the order of one file. -/
structure InOrder
    (ts : List Token) :
    Prop where
  before : ts.Pairwise Token.Before
  start_le_stop : ∀ t ∈ ts, t.span.start ≤ t.span.stop

variable {s s' : Span}
variable {us vs ts : List Token}
variable {t first last : Token}

namespace InOrder

theorem sublist
    (hOrder : InOrder ts)
    (hSub : us.Sublist ts) :
    InOrder us where
  before := hOrder.before.sublist hSub
  start_le_stop := fun t ht => hOrder.start_le_stop t (hSub.mem ht)

theorem left
    (hOrder : InOrder (us ++ vs)) :
    InOrder us :=
  hOrder.sublist (List.sublist_append_left us vs)

/- The first token starts before all others. -/
theorem first_le
    (hOrder : InOrder ts)
    (hFirst : ts.head? = some first)
    (ht : t ∈ ts) :
    first.span.file = t.span.file ∧
      first.span.start ≤ t.span.start := by
  cases ts with
  | nil => cases hFirst
  | cons u ts =>
      cases hFirst
      rcases List.mem_cons.mp ht with rfl | ht
      · exact ⟨rfl, Nat.le_refl _⟩
      · rcases List.rel_of_pairwise_cons hOrder.before ht with
          ⟨hFile, hStop⟩
        have hSelf := hOrder.start_le_stop _
          (List.mem_cons_self ..)
        exact ⟨hFile, Nat.le_trans hSelf hStop⟩

/- The last token stops behind all others. -/
theorem le_last
    (hOrder : InOrder ts)
    (hLast : ts.getLast? = some last)
    (ht : t ∈ ts) :
    t.span.file = last.span.file ∧
      t.span.stop ≤ last.span.stop := by
  rcases List.getLast?_eq_some_iff.mp hLast with ⟨front, rfl⟩
  rcases List.mem_append.mp ht with hFront | hSame
  · have hBefore := (List.pairwise_append.mp hOrder.before).2.2
      t hFront last (List.mem_singleton_self _)
    have hSelf := hOrder.start_le_stop last (by simp)
    exact ⟨hBefore.1, Nat.le_trans hBefore.2 hSelf⟩
  · rw [List.mem_singleton.mp hSame]
    exact ⟨rfl, Nat.le_refl _⟩

end InOrder

/- The span from the first of some tokens to the last. -/
def Covers
    (s : Span)
    (ts : List Token) :
    Prop :=
  ∃ first last, ts.head? = some first ∧
    ts.getLast? = some last ∧
    s = ⟨first.span.file, first.span.start, last.span.stop⟩

namespace Covers

theorem single
    (t : Token) :
    Covers t.span [t] :=
  ⟨t, t, rfl, rfl, rfl⟩

theorem ne_nil
    (hs : Covers s ts) :
    ts ≠ [] := by
  rintro rfl
  rcases hs with ⟨first, last, hFirst, _⟩
  cases hFirst

/- What covers some of the tokens lies inside. -/
theorem within
    (hs : Covers s us)
    (hSub : us ⊆ ts)
    (hs' : Covers s' ts)
    (hOrder : InOrder ts) :
    s.Within s' := by
  rcases hs with ⟨f, l, hf, hl, rfl⟩
  rcases hs' with ⟨f', l', hf', hl', rfl⟩
  have hFirst := hOrder.first_le hf'
    (hSub (List.mem_of_head? hf))
  have hLast := hOrder.le_last hl'
    (hSub (List.mem_of_getLast? hl))
  exact ⟨hFirst.1.symm, hFirst.2, hLast.2⟩

/- What covers earlier tokens ends before later ones. -/
theorem apart
    (hs : Covers s us)
    (hSub : us ⊆ ts)
    (hs' : Covers s' vs)
    (hOrder : InOrder (ts ++ vs)) :
    s.stop ≤ s'.start := by
  rcases hs with ⟨f, l, hf, hl, rfl⟩
  rcases hs' with ⟨f', l', hf', hl', rfl⟩
  have hBefore := (List.pairwise_append.mp hOrder.before).2.2 l
    (hSub (List.mem_of_getLast? hl)) f' (List.mem_of_head? hf')
  exact hBefore.2

/- From the first tokens to the last. -/
theorem merge
    (hs : Covers s us)
    (hPrefix : us <+: ts)
    (hs' : Covers s' vs)
    (hSuffix : vs <:+ ts)
    (hOrder : InOrder ts) :
    Covers (s.merge s') ts := by
  rcases hs with ⟨f, l, hf, hl, rfl⟩
  rcases hs' with ⟨f', l', hf', hl', rfl⟩
  have hHead : ts.head? = some f := by
    rcases hPrefix with ⟨more, rfl⟩
    rw [List.head?_append, hf]
    rfl
  have hEnd : ts.getLast? = some l' := by
    rcases hSuffix with ⟨front, rfl⟩
    rw [List.getLast?_append, hl']
    rfl
  have hFirst := hOrder.first_le hHead
    (hSuffix.subset (List.mem_of_head? hf'))
  have hLast := hOrder.le_last hEnd
    (hPrefix.subset (List.mem_of_getLast? hl))
  refine ⟨f, l', hHead, hEnd, ?_⟩
  unfold Span.merge
  rw [if_pos hFirst.1, Nat.min_eq_left hFirst.2,
    Nat.max_eq_right hLast.2]

end Covers

end Gatework.Hdl

------------------------------------------------------------
-- Nodes that are read
------------------------------------------------------------

namespace Gatework.Hdl

variable {text : String}
variable {facts more : Prop}
variable {begun : Bool}
variable {start : Span}
variable {parts : List Outline}
variable {o : Outline}
variable {taken ahead us : List Token}
variable {t : Token}

/- A node was read from its first token to its last. -/
structure Built
    (text : String)
    (o : Outline)
    (facts : Prop)
    (taken : List Token) :
    Prop where
  covers : Covers o.span taken
  faithful : o.Faithful text
  facts : facts

/- Tokens in which some nodes lie one behind the other. -/
structure Holds
    (text : String)
    (parts : List Outline)
    (taken : List Token) :
    Prop where
  covered : ∀ part ∈ parts, ∃ us ⊆ taken, Covers part.span us
  apart : parts.Pairwise Outline.Apart
  faithful : ∀ part ∈ parts, part.Faithful text

theorem holds_nil
    (text : String)
    (taken : List Token) :
    Holds text [] taken where
  covered := nofun
  apart := List.Pairwise.nil
  faithful := nofun

namespace Holds

theorem append
    (hHolds : Holds text parts taken)
    (hBuilt : Built text o facts us)
    (hOrder : InOrder (taken ++ us)) :
    Holds text (parts ++ [o]) (taken ++ us) where
  covered := by
    intro part hPart
    rcases List.mem_append.mp hPart with hPart | hPart
    · rcases hHolds.covered part hPart with ⟨vs, hSub, hCovers⟩
      exact ⟨vs, List.Subset.trans hSub (List.subset_append_left _ _),
        hCovers⟩
    · rw [List.mem_singleton.mp hPart]
      exact ⟨us, List.subset_append_right _ _, hBuilt.covers⟩
  apart := by
    rw [List.pairwise_append]
    refine ⟨hHolds.apart, List.pairwise_singleton _ _, ?_⟩
    intro part hPart other hOther
    rw [List.mem_singleton.mp hOther]
    rcases hHolds.covered part hPart with ⟨vs, hSub, hCovers⟩
    exact hCovers.apart hSub hBuilt.covers hOrder
  faithful := by
    intro part hPart
    rcases List.mem_append.mp hPart with hPart | hPart
    · exact hHolds.faithful part hPart
    · rw [List.mem_singleton.mp hPart]
      exact hBuilt.faithful

theorem grow
    (hHolds : Holds text parts taken)
    (us : List Token) :
    Holds text parts (taken ++ us) :=
  { hHolds with
    covered := fun part hPart => by
      rcases hHolds.covered part hPart with ⟨vs, hSub, hCovers⟩
      exact ⟨vs, List.Subset.trans hSub (List.subset_append_left _ _),
        hCovers⟩ }

/- A node around all of them is faithful. -/
theorem node
    (hHolds : Holds text parts taken)
    {s : Span}
    (hCovers : Covers s taken)
    (hOrder : InOrder taken) :
    (Outline.node .inner s parts).Faithful text := by
  refine .node ?_ ?_ hHolds.apart hHolds.faithful
  · exact trivial
  · intro part hPart
    rcases hHolds.covered part hPart with ⟨us, hSub, hPart⟩
    exact hPart.within hSub hCovers hOrder

end Holds

/-
  A node that is being read: its first tokens are those of a
  span, and the tokens since then hold its parts. The span is
  that of the first token, or of a node around which this one
  grows. What is known of the parts is kept as a fact.
-/
structure Node
    (text : String)
    (facts : Prop)
    (begun : Bool)
    (start : Span)
    (parts : List Outline)
    (taken ahead : List Token) :
    Prop where
  facts : facts
  begun : begun = true → taken ≠ []
  opened : taken ++ ahead ≠ [] → ∃ us, Covers start us ∧
    us <+: taken ++ ahead ∧ us.length ≤ max taken.length 1
  holds : Holds text parts taken

namespace Node

theorem imp
    (hNode : Node text facts begun start parts taken ahead)
    (hFacts : facts → more) :
    Node text more begun start parts taken ahead :=
  { hNode with facts := hFacts hNode.facts }

/- It does not matter that a token was read. -/
theorem weaken
    (hNode : Node text facts true start parts taken ahead) :
    Node text facts begun start parts taken ahead :=
  { hNode with begun := fun _ => hNode.begun rfl }

/- A part that was read has tokens. -/
theorem begin
    (hNode : Node text facts begun start parts taken ahead)
    (hSome : parts ≠ []) :
    Node text facts true start parts taken ahead := by
  refine { hNode with begun := fun _ => ?_ }
  rcases List.exists_mem_of_ne_nil parts hSome with ⟨part, hPart⟩
  rcases hNode.holds.covered part hPart with ⟨us, hSub, hCovers⟩
  rintro rfl
  exact hCovers.ne_nil (List.subset_nil.mp hSub)

/- Tokens behind the first ones belong to the node. -/
theorem grow
    (hNode : Node text facts begun start parts taken (us ++ ahead)) :
    Node text facts begun start parts (taken ++ us) ahead where
  facts := hNode.facts
  begun := fun h => List.append_ne_nil_of_left_ne_nil
    (hNode.begun h) us
  opened := by
    intro hSome
    rw [List.append_assoc] at hSome ⊢
    rcases hNode.opened hSome with ⟨vs, hCovers, hPrefix, hLength⟩
    refine ⟨vs, hCovers, hPrefix, ?_⟩
    rw [List.length_append]
    omega
  holds := hNode.holds.grow us

/- A token was read. -/
theorem read
    (hNode : Node text facts begun start parts taken (t :: ahead)) :
    Node text facts true start parts (taken ++ [t]) ahead :=
  { @grow _ _ _ _ _ _ _ [t] hNode with
    begun := fun _ => List.append_ne_nil_of_right_ne_nil _
      (List.cons_ne_nil t []) }

/- One more part was read. -/
theorem append
    (hNode : Node text facts begun start parts taken (us ++ ahead))
    (hBuilt : Built text o more us)
    (hOrder : InOrder (taken ++ us)) :
    Node text (facts ∧ more) true start (parts ++ [o])
      (taken ++ us) ahead where
  facts := ⟨hNode.facts, hBuilt.facts⟩
  begun := fun _ => List.append_ne_nil_of_right_ne_nil _
    hBuilt.covers.ne_nil
  opened := hNode.grow.opened
  holds := hNode.holds.append hBuilt hOrder

/- A node that reaches to its last tokens is done. -/
theorem close
    (hNode : Node text facts true start parts taken ahead)
    {last : Span}
    (hLast : Covers last us)
    (hSuffix : us <:+ taken)
    (hOrder : InOrder (taken ++ ahead)) :
    Covers (start.merge last) taken ∧
      (Outline.node .inner (start.merge last) parts).Faithful
        text := by
  have hRead := hNode.begun rfl
  have hPos := List.length_pos_iff.mpr hRead
  rcases hNode.opened
      (List.append_ne_nil_of_left_ne_nil hRead ahead) with
    ⟨vs, hStart, hPrefix, hLength⟩
  have hFront : vs <+: taken :=
    List.prefix_of_prefix_length_le hPrefix
      (List.prefix_append taken ahead) (by omega)
  have hCovers := hStart.merge hFront hLast hSuffix hOrder.left
  exact ⟨hCovers, hNode.holds.node hCovers hOrder.left⟩

end Node

/- A node around a node that was read. -/
theorem Built.node
    (hBuilt : Built text o facts taken)
    (ahead : List Token) :
    Node text facts true o.span [o] taken ahead where
  facts := hBuilt.facts
  begun := fun _ => hBuilt.covers.ne_nil
  opened := fun _ => ⟨taken, hBuilt.covers,
    List.prefix_append taken ahead, Nat.le_max_left _ _⟩
  holds :=
    { covered := fun part hPart => by
        rw [List.mem_singleton.mp hPart]
        exact ⟨taken, fun _ h => h, hBuilt.covers⟩
      apart := List.pairwise_singleton _ _
      faithful := fun part hPart => by
        rw [List.mem_singleton.mp hPart]
        exact hBuilt.faithful }

end Gatework.Hdl
