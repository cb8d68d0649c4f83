import Gatework.Proofs.Expr.Equivalence
import Gatework.Proofs.Expr.NormalForm
import Mathlib.Data.Set.Card

/-
  Reports count the different gates of a tree.

  Trees that compare equal are one gate, however often they
  occur. The subtrees are gathered node by node, and nothing
  is gathered below a tree that equals one found before: what
  the operands of that tree equal has been found as well, or
  is still to come. Trees that wait to be looked at are part
  of the invariant, so a tree may be found before its
  operands are.

  Key definitions include:
    * `Expr.equality` and `Expr.gateClasses`
    * `Expr.Closes`, what is found has its operands found

  Key theorems include:
    * `Expr.exists_operand_of_same`
    * `Expr.collects_collect` and `Expr.covers_collect`
    * `Expr.count_gates`
    * `Expr.gateCounts_exact`
-/

------------------------------------------------------------
-- Classes of gates
------------------------------------------------------------

namespace Gatework

namespace Expr

/- Comparing equal, as an equivalence of trees. -/
def equality : Setoid Expr where
  r a b := a.same b = true
  iseqv := ⟨same_refl, same_symm, same_trans⟩

/- The different gates of one name in a tree. -/
def gateClasses
    (e : Expr)
    (name : String) :
    Set (Quotient equality) :=
  {q | ∃ x, e.Subtree x ∧ x.gateName? = some name ∧
    Quotient.mk equality x = q}

end Expr

end Gatework

------------------------------------------------------------
-- Equal trees
------------------------------------------------------------

namespace Gatework

namespace Expr

variable {a b x : Expr}

theorem exists_of_sameAll
    {ps qs : List Expr}
    (hSame : sameAll ps qs = true)
    (hx : x ∈ ps) :
    ∃ y ∈ qs, x.same y = true := by
  induction ps generalizing qs with
  | nil => cases hx
  | cons p ps ih =>
      cases qs with
      | nil => cases hSame
      | cons q qs =>
          rw [sameAll, Bool.and_eq_true] at hSame
          rcases List.mem_cons.mp hx with rfl | hRest
          · exact ⟨q, List.mem_cons_self .., hSame.1⟩
          · rcases ih hSame.2 hRest with ⟨y, hy, hEqual⟩
            exact ⟨y, List.mem_cons_of_mem _ hy, hEqual⟩

/-
  An operand of a tree equals some operand of each equal
  tree, though not always the one at its place.
-/
theorem exists_operand_of_same
    (hSame : a.same b = true)
    (hx : x ∈ a.operands) :
    ∃ y ∈ b.operands, x.same y = true := by
  cases a <;> cases b <;> try cases hSame
  case const.const => cases hx
  case var.var => cases hx
  case not.not m p n q =>
      rcases List.mem_singleton.mp hx with rfl
      exact ⟨q, List.mem_singleton.mpr rfl, hSame⟩
  case gate.gate m op p q n op' p' q' =>
      rcases same_gate_iff.mp hSame with
        ⟨_, hOrder | ⟨_, hSwap⟩⟩
      · have hAll : sameAll [p, q] [p', q'] = true := by
          simp [sameAll, hOrder.1, hOrder.2]
        exact exists_of_sameAll hAll hx
      · rcases List.mem_pair.mp hx with rfl | rfl
        · exact ⟨q', by simp [operands], hSwap.1⟩
        · exact ⟨p', by simp [operands], hSwap.2⟩
  case compare.compare m op p q n op' p' q' =>
      rw [same, Bool.and_eq_true, Bool.and_eq_true] at hSame
      have hAll : sameAll [p, q] [p', q'] = true := by
        simp [sameAll, hSame.1.2, hSame.2]
      exact exists_of_sameAll hAll hx
  case mux.mux m s t f n s' t' f' =>
      rw [same, Bool.and_eq_true, Bool.and_eq_true] at hSame
      have hAll : sameAll [s, t, f] [s', t', f'] = true := by
        simp [sameAll, hSame.1.1, hSame.1.2, hSame.2]
      exact exists_of_sameAll hAll hx
  case bit.bit m p i n q j =>
      rw [same, Bool.and_eq_true] at hSame
      rcases List.mem_singleton.mp hx with rfl
      exact ⟨q, List.mem_singleton.mpr rfl, hSame.2⟩
  case part.part m p h l n q h' l' =>
      rw [same, Bool.and_eq_true] at hSame
      rcases List.mem_singleton.mp hx with rfl
      exact ⟨q, List.mem_singleton.mpr rfl, hSame.2⟩
  case concat.concat m ps n qs => exact exists_of_sameAll hSame hx

/- Equal trees are gates of one name, or no gates. -/
theorem gateName?_eq_of_same
    (hSame : a.same b = true) :
    a.gateName? = b.gateName? := by
  cases a <;> cases b <;> try cases hSame
  case gate.gate =>
      rw [gateName?, gateName?, (same_gate_iff.mp hSame).1]
  case compare.compare =>
      rw [same, Bool.and_eq_true, Bool.and_eq_true,
        beq_iff_eq] at hSame
      rw [gateName?, gateName?, hSame.1.1]
  all_goals rfl

/- Subtrees of equal trees are equal in pairs. -/
theorem Subtree.exists_same
    (hSame : a.same b = true)
    (hx : a.Subtree x) :
    ∃ y, b.Subtree y ∧ x.same y = true := by
  induction hx with
  | root => exact ⟨b, .root, hSame⟩
  | operand _ hOperand ih =>
      rcases ih with ⟨y, hy, hEqual⟩
      rcases exists_operand_of_same hEqual hOperand with
        ⟨z, hz, hBelow⟩
      exact ⟨z, .operand hy hz, hBelow⟩

/- Equal trees have the same different gates. -/
theorem gateClasses_eq_of_same
    (hSame : a.same b = true)
    (name : String) :
    a.gateClasses name = b.gateClasses name := by
  have hSub : ∀ {a b : Expr}, a.same b = true →
      a.gateClasses name ⊆ b.gateClasses name := by
    rintro a b hSame q ⟨x, hx, hName, rfl⟩
    rcases hx.exists_same hSame with ⟨y, hy, hEqual⟩
    refine ⟨y, hy, ?_, Quotient.sound (same_symm hEqual)⟩
    rw [← gateName?_eq_of_same hEqual, hName]
  exact Set.Subset.antisymm (hSub hSame) (hSub (same_symm hSame))

end Expr

end Gatework

------------------------------------------------------------
-- Gathering
------------------------------------------------------------

namespace Gatework

namespace Expr

variable {e x : Expr}
variable {seen pending parts : List Expr}

/- Gathering goes on with the operands of a new tree. -/
theorem collect_eq
    (seen : List Expr)
    (e : Expr) :
    collect seen e =
      if seen.any e.same then seen
      else collectAll (e :: seen) e.operands := by
  cases e <;> rw [collect] <;> rfl

/- Some tree of a list equals this one. -/
def CoveredBy
    (found : List Expr)
    (x : Expr) :
    Prop :=
  ∃ y ∈ found, x.same y = true

/-
  The operands of each tree that was found are found as well,
  or still to be looked at.
-/
def Closes
    (found pending : List Expr) :
    Prop :=
  ∀ x ∈ found, ∀ y ∈ x.operands, CoveredBy (found ++ pending) y

theorem CoveredBy.mono
    {found more : List Expr}
    (hCovered : CoveredBy found x)
    (hSub : found ⊆ more) :
    CoveredBy more x := by
  rcases hCovered with ⟨y, hy, hSame⟩
  exact ⟨y, hSub hy, hSame⟩

/- What equals a covered tree is covered. -/
theorem CoveredBy.of_same
    {found : List Expr}
    {y : Expr}
    (hCovered : CoveredBy found y)
    (hSame : x.same y = true) :
    CoveredBy found x := by
  rcases hCovered with ⟨z, hz, hOther⟩
  exact ⟨z, hz, same_trans hSame hOther⟩

/-
  What gathering trees does: it keeps what was found and adds
  subtrees that differ from all others. Of the trees and of
  what waits behind them only the latter is left to be looked
  at, and the trees are covered.
-/
structure Collects
    (seen found trees : List Expr) :
    Prop where
  keeps : seen ⊆ found
  within : ∀ x ∈ found, x ∈ seen ∨ ∃ e ∈ trees, e.Subtree x
  differ : seen.Pairwise (fun a b => a.same b = false) →
    found.Pairwise fun a b => a.same b = false
  closes : ∀ pending, Closes seen (trees ++ pending) →
    Closes found pending
  covers : ∀ e ∈ trees, CoveredBy found e

theorem collects_nil
    (seen : List Expr) :
    Collects seen seen [] :=
  ⟨List.Subset.refl _, fun _ hx => Or.inl hx, id,
    fun _ hCloses => hCloses, by simp⟩

/- One tree is gathered after the other. -/
theorem Collects.cons
    {found more : List Expr}
    (hHead : Collects seen found [e])
    (hTail : Collects found more parts) :
    Collects seen more (e :: parts) where
  keeps := List.Subset.trans hHead.keeps hTail.keeps
  within := by
    intro x hx
    rcases hTail.within x hx with hFound | ⟨p, hp, hIn⟩
    · rcases hHead.within x hFound with hSeen | ⟨p, hp, hIn⟩
      · exact Or.inl hSeen
      · rcases List.mem_singleton.mp hp with rfl
        exact Or.inr ⟨p, List.mem_cons_self .., hIn⟩
    · exact Or.inr ⟨p, List.mem_cons_of_mem _ hp, hIn⟩
  differ := fun hDiffer => hTail.differ (hHead.differ hDiffer)
  closes := fun pending hCloses =>
    hTail.closes pending (hHead.closes (parts ++ pending) hCloses)
  covers := by
    rw [List.forall_mem_cons]
    refine ⟨?_, hTail.covers⟩
    exact (hHead.covers e (List.mem_singleton.mpr rfl)).mono
      hTail.keeps

/- A tree that equals one found before adds nothing. -/
theorem collects_known
    (hKnown : CoveredBy seen e) :
    Collects seen seen [e] where
  keeps := List.Subset.refl _
  within := fun _ hx => Or.inl hx
  differ := id
  closes := by
    intro pending hCloses x hx y hy
    rcases hCloses x hx y hy with ⟨z, hz, hSame⟩
    rcases List.mem_append.mp hz with hSeen | hWaits
    · exact ⟨z, List.mem_append_left _ hSeen, hSame⟩
    · rcases List.mem_cons.mp hWaits with rfl | hPending
      · exact (hKnown.of_same hSame).mono
          (List.subset_append_left _ _)
      · exact ⟨z, List.mem_append_right _ hPending, hSame⟩
  covers := by
    intro p hp
    rcases List.mem_singleton.mp hp with rfl
    exact hKnown

/- A new tree counts as found while its operands wait. -/
theorem collects_new
    {found : List Expr}
    (hNew : ∀ y ∈ seen, e.same y = false)
    (hOperands : Collects (e :: seen) found e.operands) :
    Collects seen found [e] where
  keeps := List.Subset.trans (List.subset_cons_self _ _)
    hOperands.keeps
  within := by
    intro x hx
    rcases hOperands.within x hx with hFirst | ⟨y, hy, hIn⟩
    · rcases List.mem_cons.mp hFirst with rfl | hSeen
      · exact Or.inr ⟨x, List.mem_singleton.mpr rfl, .root⟩
      · exact Or.inl hSeen
    · exact Or.inr ⟨e, List.mem_singleton.mpr rfl,
        hIn.ofOperand hy⟩
  differ := fun hDiffer =>
    hOperands.differ (List.pairwise_cons.mpr ⟨hNew, hDiffer⟩)
  closes := by
    intro pending hCloses
    apply hOperands.closes
    intro x hx y hy
    rcases List.mem_cons.mp hx with rfl | hSeen
    · refine ⟨y, ?_, same_refl y⟩
      exact List.mem_append_right _ (List.mem_append_left _ hy)
    · apply (hCloses x hSeen y hy).mono
      intro z hz
      simp only [List.mem_append, List.mem_cons] at hz ⊢
      tauto
  covers := by
    intro p hp
    rcases List.mem_singleton.mp hp with rfl
    exact ⟨p, hOperands.keeps (List.mem_cons_self ..),
      same_refl p⟩

theorem collects_collectAll
    (hParts : ∀ p ∈ parts, ∀ seen,
      Collects seen (collect seen p) [p])
    (seen : List Expr) :
    Collects seen (collectAll seen parts) parts := by
  induction parts generalizing seen with
  | nil => exact collects_nil seen
  | cons p ps ih =>
      rw [List.forall_mem_cons] at hParts
      exact (hParts.1 seen).cons (ih hParts.2 _)

/- Gathering a tree, by induction on the tree. -/
theorem collects_collect
    (e : Expr)
    (seen : List Expr) :
    Collects seen (collect seen e) [e] := by
  induction e using inductionOperands generalizing seen with
  | node e ih =>
      rw [collect_eq]
      cases hAny : seen.any e.same with
      | true => exact collects_known (List.any_eq_true.mp hAny)
      | false =>
          refine collects_new ?_
            (collects_collectAll ih (e :: seen))
          simpa using hAny

/- Whatever equals a subtree of a tree is found once. -/
theorem covers_collect
    (hx : e.Subtree x) :
    CoveredBy (collect [] e) x := by
  have hCollects := collects_collect e []
  have hCloses : Closes (collect [] e) [] :=
    hCollects.closes [] (by simp [Closes])
  induction hx with
  | root => exact hCollects.covers e (List.mem_singleton.mpr rfl)
  | operand _ hOperand ih =>
      rcases ih with ⟨y, hy, hSame⟩
      rcases exists_operand_of_same hSame hOperand with
        ⟨z, hz, hEqual⟩
      have hCovered := hCloses y hy z hz
      rw [List.append_nil] at hCovered
      exact hCovered.of_same hEqual

theorem subtree_of_mem_collect
    (hx : x ∈ collect [] e) :
    e.Subtree x := by
  rcases (collects_collect e []).within x hx with hNone | hSome
  · cases hNone
  · rcases hSome with ⟨p, hp, hIn⟩
    rcases List.mem_singleton.mp hp with rfl
    exact hIn

theorem pairwise_collect
    (e : Expr) :
    (collect [] e).Pairwise fun a b => a.same b = false :=
  (collects_collect e []).differ List.Pairwise.nil

end Expr

end Gatework

------------------------------------------------------------
-- Counting
------------------------------------------------------------

namespace Gatework

namespace Expr

/- The trees found that are gates of a name. -/
def gatesFound
    (e : Expr)
    (name : String) :
    List Expr :=
  (collect [] e).filter fun x => x.gateName? == some name

/- The classes of gates are those of the gates found. -/
theorem gateClasses_eq
    (e : Expr)
    (name : String) :
    e.gateClasses name =
      {q | q ∈ (e.gatesFound name).map (Quotient.mk equality)} := by
  ext q
  constructor
  · rintro ⟨x, hx, hName, rfl⟩
    rcases covers_collect hx with ⟨y, hy, hSame⟩
    refine List.mem_map.mpr ⟨y, ?_, ?_⟩
    · rw [gatesFound, List.mem_filter, beq_iff_eq,
        ← gateName?_eq_of_same hSame]
      exact ⟨hy, hName⟩
    · exact Quotient.sound (same_symm hSame)
  · intro hq
    rcases List.mem_map.mp hq with ⟨x, hx, rfl⟩
    rw [gatesFound, List.mem_filter, beq_iff_eq] at hx
    exact ⟨x, subtree_of_mem_collect hx.1, hx.2, rfl⟩

/- No two gates found are of one class. -/
theorem nodup_classes
    (e : Expr)
    (name : String) :
    ((e.gatesFound name).map (Quotient.mk equality)).Nodup := by
  rw [List.Nodup, List.pairwise_map]
  refine ((pairwise_collect e).filter _).imp ?_
  intro a b hDiffer hEqual
  have hSame : a.same b = true := Quotient.exact hEqual
  rw [hDiffer] at hSame
  cases hSame

theorem finite_gateClasses
    (e : Expr)
    (name : String) :
    (e.gateClasses name).Finite := by
  rw [gateClasses_eq]
  exact List.finite_toSet _

/- Found gates of a name are counted class by class. -/
theorem count_gates
    (e : Expr)
    (name : String) :
    ((collect [] e).filterMap gateName?).count name =
      (e.gateClasses name).ncard := by
  classical
  have hClasses : e.gateClasses name =
      (((e.gatesFound name).map
        (Quotient.mk equality)).toFinset : Set _) := by
    rw [gateClasses_eq, List.coe_toFinset]
  rw [hClasses, Set.ncard_coe_finset,
    List.toFinset_card_of_nodup (nodup_classes e name),
    List.length_map, gatesFound, List.count_filterMap,
    List.countP_eq_length_filter]

/- Reports list every name a gate can have. -/
theorem mem_gateNames
    (e : Expr)
    (name : String)
    (hName : e.gateName? = some name) :
    name ∈ gateNames := by
  cases e <;> cases hName
  case not => decide
  case gate m op a b => cases op <;> decide
  case compare m op a b => cases op <;> decide
  case mux => decide

/- Looking up a table of counts that leaves zeros out. -/
theorem lookup_counts
    (names : List String)
    (count : String → Nat)
    (g : String)
    (hAbsent : g ∉ names → count g = 0) :
    ((names.map fun name => (name, count name)).filter
      fun entry => entry.2 != 0).lookup g =
        if count g = 0 then none else some (count g) := by
  induction names with
  | nil => simp [hAbsent]
  | cons name names ih =>
      by_cases hSame : g = name
      · subst hSame
        cases hCount : count g with
        | zero =>
            simpa [hCount] using ih fun _ => hCount
        | succ n => simp [hCount]
      · have hRest := ih fun hNone => hAbsent (by simp [hSame, hNone])
        have hOther : (g == name) = false := by simp [hSame]
        cases hCount : count name with
        | zero => simpa [hCount] using hRest
        | succ n => simpa [hCount, List.lookup_cons, hOther] using hRest

/- Leaving zeros out keeps the sum. -/
theorem sum_counts
    (names : List String)
    (count : String → Nat) :
    (((names.map fun name => (name, count name)).filter
      fun entry => entry.2 != 0).map Prod.snd).sum =
        (names.map count).sum := by
  induction names with
  | nil => rfl
  | cons name names ih =>
      cases hZero : count name with
      | zero => simpa [hZero] using ih
      | succ n => simpa [hZero] using ih

/-
  The breakdown has for each name the number of different
  gates of that name, and no entry where there are none. The
  total is the sum over all names, and equal trees have one
  breakdown.
-/
theorem gateCounts_exact :
    (∀ (e : Expr) (g : String),
      (e.gateClasses g).Finite ∧
      e.gateCounts.lookup g =
        if (e.gateClasses g).ncard = 0 then none
        else some (e.gateClasses g).ncard) ∧
    (∀ e : Expr, e.gateCount =
      (gateNames.map fun g => (e.gateClasses g).ncard).sum) ∧
    (∀ a b : Expr, a.same b = true →
      a.gateCounts = b.gateCounts) := by
  have hCounts : ∀ e : Expr, e.gateCounts =
      (gateNames.map fun g => (g, (e.gateClasses g).ncard)).filter
        fun entry => entry.2 != 0 := by
    intro e
    simp only [gateCounts, count_gates]
  refine ⟨?_, ?_, ?_⟩
  · intro e g
    refine ⟨finite_gateClasses e g, ?_⟩
    rw [hCounts]
    apply lookup_counts
    intro hNone
    rw [← count_gates, List.count_eq_zero]
    intro hFound
    rcases List.mem_filterMap.mp hFound with ⟨x, _, hName⟩
    exact hNone (mem_gateNames x g hName)
  · intro e
    rw [gateCount, hCounts, ← List.sum_eq_foldl, sum_counts]
  · intro a b hSame
    rw [hCounts, hCounts]
    simp only [gateClasses_eq_of_same hSame]

/- An AND and its complement, with the inputs swapped or not. -/
def eitherWay
    (swapped : Bool) :
    Expr :=
  let a := var none (Var.scalar "a")
  let b := var none (Var.scalar "b")
  let both := gate none .and a b
  let other := if swapped then gate none .and b a else both
  gate none .or both (not none other)

/- Swapped inputs of an unordered gate make no other gate. -/
theorem gateCounts_exact_eitherWay :
    (eitherWay true).same (eitherWay false) = true ∧
    (eitherWay true).gateCounts = (eitherWay false).gateCounts ∧
    (eitherWay true).gateCounts =
      [("AND", 1), ("NOT", 1), ("OR", 1)] ∧
    ((eitherWay true).gateClasses "AND").ncard = 1 := by
  have hSame : (eitherWay true).same (eitherWay false) = true := by
    decide +kernel
  have hCounts : (eitherWay true).gateCounts =
      [("AND", 1), ("NOT", 1), ("OR", 1)] := by
    decide +kernel
  refine ⟨hSame, gateCounts_exact.2.2 _ _ hSame, hCounts, ?_⟩
  have hLookup := (gateCounts_exact.1 (eitherWay true) "AND").2
  rw [hCounts] at hLookup
  split at hLookup
  · cases hLookup
  · exact (Option.some.inj hLookup).symm

end Expr

end Gatework
