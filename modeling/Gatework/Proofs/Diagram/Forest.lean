import Gatework.Proofs.Diagram.Decision

/-
  The nodes of a forest.

  A sound forest stores every test once, above its sides, and
  remembers only right answers. Its references are canonical:
  equal functions have equal references. Forests only grow,
  and growing changes no function.

  Key definitions include:
    * `Forest.tree`, the decision tree below a reference
    * `Forest.Sound`
    * `Forest.Extends`
    * `Forest.Makes`, a forest grown to hold a function

  Key theorems include:
    * `Forest.eval_eq_value`
    * `Forest.Sound.eq_iff_eval_eq`
    * `Forest.makeNode_makes`
-/

------------------------------------------------------------
-- Trees below references
------------------------------------------------------------

namespace Gatework

namespace Forest

/- The decision tree below a reference, cut at a height. -/
def treeFor
    (forest : Forest) :
    Nat → Ref → Decision
  | 0, f => .leaf (f == Ref.one)
  | n + 1, f =>
      if f < 2 then
        .leaf (f == Ref.one)
      else
        let d := forest.node f
        .test (forest.signal d.level)
          (treeFor forest n d.low) (treeFor forest n d.high)

/- The decision tree below a reference. -/
def tree
    (forest : Forest)
    (f : Ref) :
    Decision :=
  treeFor forest forest.size f

/- The level of the node of a reference. -/
def levelOf
    (forest : Forest)
    (f : Ref) :
    Nat :=
  (forest.node f).level

theorem evalFor_eq_value
    (forest : Forest)
    (ν : String → Bool)
    (n : Nat)
    (f : Ref) :
    forest.evalFor ν n f = (forest.treeFor n f).value ν := by
  induction n generalizing f with
  | zero => rfl
  | succ n ih =>
      rw [evalFor, treeFor]
      by_cases hSmall : f < 2
      · rw [if_pos hSmall, if_pos hSmall]
        rfl
      · rw [if_neg hSmall, if_neg hSmall, ih, Decision.value]
        split <;> rfl

/- A diagram has the value of its tree. -/
theorem eval_eq_value
    (forest : Forest)
    (ν : String → Bool)
    (f : Ref) :
    forest.eval ν f = (forest.tree f).value ν :=
  evalFor_eq_value forest ν forest.size f

theorem tree_constant
    (forest : Forest)
    {f : Ref}
    (hf : f < 2) :
    forest.tree f = .leaf (f == Ref.one) := by
  unfold tree
  cases hn : forest.size with
  | zero => rfl
  | succ n => rw [treeFor, if_pos hf]

@[simp] theorem eval_zero
    (forest : Forest)
    (ν : String → Bool) :
    forest.eval ν Ref.zero = false := by
  rw [eval_eq_value, forest.tree_constant (by decide)]
  rfl

@[simp] theorem eval_one
    (forest : Forest)
    (ν : String → Bool) :
    forest.eval ν Ref.one = true := by
  rw [eval_eq_value, forest.tree_constant (by decide)]
  rfl

end Forest

end Gatework

------------------------------------------------------------
-- Growing
------------------------------------------------------------

namespace Gatework

namespace Forest

/- A forest that keeps every node of another. -/
structure Extends
    (forest forest' : Forest) :
    Prop where
  order_eq : forest'.order = forest.order
  size_le : forest.size ≤ forest'.size
  node_eq : ∀ f, f < forest.size →
    forest'.node f = forest.node f

namespace Extends

variable {forest forest' forest'' : Forest}

theorem refl
    (forest : Forest) :
    forest.Extends forest :=
  ⟨rfl, Nat.le_refl _, fun _ _ => rfl⟩

theorem trans
    (h : forest.Extends forest')
    (h' : forest'.Extends forest'') :
    forest.Extends forest'' where
  order_eq := h'.order_eq.trans h.order_eq
  size_le := Nat.le_trans h.size_le h'.size_le
  node_eq := fun f hf =>
    (h'.node_eq f (Nat.lt_of_lt_of_le hf h.size_le)).trans
      (h.node_eq f hf)

theorem lt
    (h : forest.Extends forest')
    {f : Ref}
    (hf : f < forest.size) :
    f < forest'.size :=
  Nat.lt_of_lt_of_le hf h.size_le

theorem levelOf_eq
    (h : forest.Extends forest')
    {f : Ref}
    (hf : f < forest.size) :
    forest'.levelOf f = forest.levelOf f := by
  unfold levelOf
  rw [h.node_eq f hf]

theorem bottom_eq
    (h : forest.Extends forest') :
    forest'.bottom = forest.bottom := by
  unfold bottom
  rw [h.order_eq]

theorem signal_eq
    (h : forest.Extends forest')
    (level : Nat) :
    forest'.signal level = forest.signal level := by
  unfold signal
  rw [h.order_eq]

theorem level?_eq
    (h : forest.Extends forest')
    (name : String) :
    forest'.level? name = forest.level? name := by
  unfold level?
  rw [h.order_eq]

end Extends

end Forest

end Gatework

------------------------------------------------------------
-- Sound forests
------------------------------------------------------------

namespace Gatework

namespace Forest

/-
  A node with two different sides, which come before it and
  test lower levels, at a level where a signal is found.
-/
structure Proper
    (forest : Forest)
    (f : Ref) :
    Prop where
  differs : (forest.node f).low ≠ (forest.node f).high
  low_lt : (forest.node f).low < f
  high_lt : (forest.node f).high < f
  level_low :
    forest.levelOf f < forest.levelOf (forest.node f).low
  level_high :
    forest.levelOf f < forest.levelOf (forest.node f).high
  place :
    forest.level? (forest.signal (forest.levelOf f)) =
      some (forest.levelOf f)

/- The highest level that one of three diagrams tests. -/
def top
    (forest : Forest)
    (f g h : Ref) :
    Nat :=
  min (forest.levelOf f)
    (min (forest.levelOf g) (forest.levelOf h))

/- A diagram that is one of two by a third. -/
structure Chosen
    (forest : Forest)
    (f g h r : Ref) :
    Prop where
  f_lt : f < forest.size
  g_lt : g < forest.size
  h_lt : h < forest.size
  r_lt : r < forest.size
  level_le : forest.top f g h ≤ forest.levelOf r
  eval_eq : ∀ ν, forest.eval ν r =
    if forest.eval ν f then forest.eval ν g else forest.eval ν h

/-
  The constants come first, all other nodes are proper, the
  table of nodes holds exactly these, and all answers that
  are kept are right.
-/
structure Sound
    (forest : Forest) :
    Prop where
  two_le : 2 ≤ forest.size
  constant : ∀ f, f < 2 →
    forest.node f = ⟨forest.bottom, f, f⟩
  proper : ∀ f, 2 ≤ f → f < forest.size → forest.Proper f
  unique_iff : ∀ level low high r,
    forest.unique[(level, low, high)]? = some r ↔
      2 ≤ r ∧ r < forest.size ∧
        forest.node r = ⟨level, low, high⟩
  chosen : ∀ f g h r,
    forest.known[(f, g, h)]? = some r → forest.Chosen f g h r

/- The start: constants only. -/
theorem sound_ofOrder
    (order : List String) :
    (ofOrder order).Sound where
  two_le := Nat.le_refl 2
  constant := by
    intro f hf
    match f, hf with
    | 0, _ => rfl
    | 1, _ => rfl
  proper := fun f hLe hLt => absurd hLt (Nat.not_lt.mpr hLe)
  unique_iff := by
    intro level low high r
    constructor
    · intro hFound
      simp [ofOrder] at hFound
    · rintro ⟨hLe, hLt, _⟩
      exact absurd hLt (Nat.not_lt.mpr hLe)
  chosen := by
    intro f g h r hFound
    simp [ofOrder] at hFound

/-
  Heights beyond a reference do not matter, since sides come
  before their node; nor does growing.
-/
theorem Sound.treeFor_eq
    {forest forest' : Forest}
    (hSound : forest.Sound)
    (hExtends : forest.Extends forest')
    {f : Ref}
    (hf : f < forest.size)
    {n m : Nat}
    (hn : f ≤ n)
    (hm : f ≤ m) :
    forest'.treeFor m f = forest.treeFor n f := by
  induction f using Nat.strongRecOn generalizing n m with
  | _ f ih =>
      by_cases hSmall : f < 2
      · have hLeaf : ∀ (forest : Forest) k,
            forest.treeFor k f = .leaf (f == Ref.one) := by
          intro forest k
          cases k with
          | zero => rfl
          | succ k => rw [treeFor, if_pos hSmall]
        rw [hLeaf, hLeaf]
      · have hLe : 2 ≤ f := Nat.le_of_not_lt hSmall
        have hProper := hSound.proper f hLe hf
        have hLow := hProper.low_lt
        have hHigh := hProper.high_lt
        cases n with
        | zero => exact absurd (Nat.le_trans hLe hn) (by decide)
        | succ n =>
            cases m with
            | zero =>
                exact absurd (Nat.le_trans hLe hm) (by decide)
            | succ m =>
                have hBelow : ∀ {g : Ref} {k : Nat},
                    g < f → f ≤ k + 1 → g ≤ k :=
                  fun hg hk =>
                    Nat.le_of_lt_succ (Nat.lt_of_lt_of_le hg hk)
                rw [treeFor, treeFor, if_neg hSmall,
                  if_neg hSmall]
                simp only [hExtends.node_eq f hf,
                  hExtends.signal_eq]
                rw [ih _ hLow (Nat.lt_trans hLow hf)
                    (hBelow hLow hn) (hBelow hLow hm),
                  ih _ hHigh (Nat.lt_trans hHigh hf)
                    (hBelow hHigh hn) (hBelow hHigh hm)]

namespace Sound

variable {forest forest' : Forest}

theorem tree_eq
    (hSound : forest.Sound)
    (hExtends : forest.Extends forest')
    {f : Ref}
    (hf : f < forest.size) :
    forest'.tree f = forest.tree f :=
  hSound.treeFor_eq hExtends hf (Nat.le_of_lt hf)
    (Nat.le_of_lt (hExtends.lt hf))

/- Growing changes no function. -/
theorem eval_eq
    (hSound : forest.Sound)
    (hExtends : forest.Extends forest')
    {f : Ref}
    (hf : f < forest.size)
    (ν : String → Bool) :
    forest'.eval ν f = forest.eval ν f := by
  rw [eval_eq_value, eval_eq_value, hSound.tree_eq hExtends hf]

theorem tree_test
    (hSound : forest.Sound)
    {f : Ref}
    (hLe : 2 ≤ f)
    (hLt : f < forest.size) :
    forest.tree f =
      .test (forest.signal (forest.levelOf f))
        (forest.tree (forest.node f).low)
        (forest.tree (forest.node f).high) := by
  have hHeight : forest.treeFor (forest.size + 1) f =
      forest.tree f :=
    hSound.treeFor_eq (Extends.refl forest) hLt
      (Nat.le_of_lt hLt) (Nat.le_succ_of_le (Nat.le_of_lt hLt))
  rw [← hHeight, treeFor, if_neg (Nat.not_lt.mpr hLe)]
  rfl

/- A test goes on at the side of its value. -/
theorem eval_test
    (hSound : forest.Sound)
    {f : Ref}
    (hLe : 2 ≤ f)
    (hLt : f < forest.size)
    (ν : String → Bool) :
    forest.eval ν f =
      if ν (forest.signal (forest.levelOf f)) then
        forest.eval ν (forest.node f).high
      else
        forest.eval ν (forest.node f).low := by
  rw [eval_eq_value, hSound.tree_test hLe hLt, Decision.value,
    eval_eq_value, eval_eq_value]

theorem levelOf_constant
    (hSound : forest.Sound)
    {f : Ref}
    (hf : f < 2) :
    forest.levelOf f = forest.bottom := by
  unfold levelOf
  rw [hSound.constant f hf]

/- Above the bottom there are only tests. -/
theorem two_le_of_levelOf_lt
    (hSound : forest.Sound)
    {f : Ref}
    (hLevel : forest.levelOf f < forest.bottom) :
    2 ≤ f := by
  apply Nat.le_of_not_lt
  intro hSmall
  rw [hSound.levelOf_constant hSmall] at hLevel
  exact Nat.lt_irrefl _ hLevel

theorem levelOf_lt
    (hSound : forest.Sound)
    {f : Ref}
    (hLe : 2 ≤ f)
    (hLt : f < forest.size) :
    forest.levelOf f < forest.bottom :=
  lastPlace?_lt (hSound.proper f hLe hLt).place

theorem levelOf_le
    (hSound : forest.Sound)
    {f : Ref}
    (hf : f < forest.size) :
    forest.levelOf f ≤ forest.bottom := by
  by_cases hSmall : f < 2
  · exact Nat.le_of_eq (hSound.levelOf_constant hSmall)
  · exact Nat.le_of_lt
      (hSound.levelOf_lt (Nat.le_of_not_lt hSmall) hf)

end Sound

end Forest

end Gatework

------------------------------------------------------------
-- References are canonical
------------------------------------------------------------

namespace Gatework

theorem DiagramNode.eq_of_parts
    {d e : DiagramNode}
    (hLevel : d.level = e.level)
    (hLow : d.low = e.low)
    (hHigh : d.high = e.high) :
    d = e := by
  rcases d with ⟨level, low, high⟩
  cases hLevel
  cases hLow
  cases hHigh
  rfl

namespace Forest

namespace Sound

variable {forest : Forest}

/- No node is stored twice, since both are in one table. -/
theorem node_inj
    (hSound : forest.Sound)
    {f g : Ref}
    (hLeF : 2 ≤ f)
    (hf : f < forest.size)
    (hLeG : 2 ≤ g)
    (hg : g < forest.size)
    (hNode : forest.node f = forest.node g) :
    f = g := by
  rcases hTests : forest.node g with ⟨level, low, high⟩
  have hFoundF := (hSound.unique_iff level low high f).mpr
    ⟨hLeF, hf, hNode.trans hTests⟩
  have hFoundG := (hSound.unique_iff level low high g).mpr
    ⟨hLeG, hg, hTests⟩
  rw [hFoundF] at hFoundG
  exact Option.some.inj hFoundG

/- No two references have one tree. -/
theorem tree_inj
    (hSound : forest.Sound)
    {f g : Ref}
    (hf : f < forest.size)
    (hg : g < forest.size)
    (hTree : forest.tree f = forest.tree g) :
    f = g := by
  induction f using Nat.strongRecOn generalizing g with
  | _ f ih =>
      by_cases hSmallF : f < 2
      · rw [forest.tree_constant hSmallF] at hTree
        by_cases hSmallG : g < 2
        · rw [forest.tree_constant hSmallG] at hTree
          match f, g, hSmallF, hSmallG with
          | 0, 0, _, _ => rfl
          | 1, 1, _, _ => rfl
          | 0, 1, _, _ => cases hTree
          | 1, 0, _, _ => cases hTree
        · rw [hSound.tree_test (Nat.le_of_not_lt hSmallG) hg]
            at hTree
          cases hTree
      · have hLeF : 2 ≤ f := Nat.le_of_not_lt hSmallF
        have hProperF := hSound.proper f hLeF hf
        rw [hSound.tree_test hLeF hf] at hTree
        by_cases hSmallG : g < 2
        · rw [forest.tree_constant hSmallG] at hTree
          cases hTree
        · have hLeG : 2 ≤ g := Nat.le_of_not_lt hSmallG
          have hProperG := hSound.proper g hLeG hg
          rw [hSound.tree_test hLeG hg] at hTree
          injection hTree with hSignal hLow hHigh
          have hLevel : forest.levelOf f = forest.levelOf g := by
            have hPlace := hProperF.place
            rw [hSignal, hProperG.place] at hPlace
            exact (Option.some.inj hPlace).symm
          have hLowEq := ih _ hProperF.low_lt
            (Nat.lt_trans hProperF.low_lt hf)
            (Nat.lt_trans hProperG.low_lt hg) hLow
          have hHighEq := ih _ hProperF.high_lt
            (Nat.lt_trans hProperF.high_lt hf)
            (Nat.lt_trans hProperG.high_lt hg) hHigh
          exact hSound.node_inj hLeF hf hLeG hg
            (DiagramNode.eq_of_parts hLevel hLowEq hHighEq)

/- The tree of a reference is reduced. -/
theorem reduced_tree
    (hSound : forest.Sound)
    {f : Ref}
    (hf : f < forest.size) :
    (forest.tree f).Reduced forest.order (forest.levelOf f) := by
  induction f using Nat.strongRecOn with
  | _ f ih =>
      by_cases hSmall : f < 2
      · rw [forest.tree_constant hSmall]
        exact trivial
      · have hLe : 2 ≤ f := Nat.le_of_not_lt hSmall
        have hProper := hSound.proper f hLe hf
        have hLow := Nat.lt_trans hProper.low_lt hf
        have hHigh := Nat.lt_trans hProper.high_lt hf
        rw [hSound.tree_test hLe hf]
        refine ⟨forest.levelOf f, hProper.place, Nat.le_refl _,
          ?_, ?_, ?_⟩
        · intro hSame
          exact hProper.differs (hSound.tree_inj hLow hHigh hSame)
        · exact (ih _ hProper.low_lt hLow).mono hProper.level_low
        · exact (ih _ hProper.high_lt hHigh).mono
            hProper.level_high

/- References are equal exactly if their functions are. -/
theorem eq_iff_eval_eq
    (hSound : forest.Sound)
    {f g : Ref}
    (hf : f < forest.size)
    (hg : g < forest.size) :
    f = g ↔ ∀ ν, forest.eval ν f = forest.eval ν g := by
  constructor
  · rintro rfl ν
    rfl
  · intro hValue
    apply hSound.tree_inj hf hg
    apply Decision.eq_of_value_eq (hSound.reduced_tree hf)
      (hSound.reduced_tree hg)
    intro ν
    rw [← eval_eq_value, ← eval_eq_value, hValue ν]

end Sound

end Forest

end Gatework

------------------------------------------------------------
-- Making nodes
------------------------------------------------------------

namespace Gatework

namespace Forest

/-
  A sound forest grown out of another, with a reference to a
  function that tests only levels from a given one on.
-/
structure Makes
    (forest : Forest)
    (level : Nat)
    (function : (String → Bool) → Bool)
    (r : Ref)
    (forest' : Forest) :
    Prop where
  sound : forest'.Sound
  extend : forest.Extends forest'
  r_lt : r < forest'.size
  level_le : level ≤ forest'.levelOf r
  eval_eq : ∀ ν, forest'.eval ν r = function ν

theorem Chosen.extend
    {forest forest' : Forest}
    (hSound : forest.Sound)
    (hExtends : forest.Extends forest')
    {f g h r : Ref}
    (hc : forest.Chosen f g h r) :
    forest'.Chosen f g h r where
  f_lt := hExtends.lt hc.f_lt
  g_lt := hExtends.lt hc.g_lt
  h_lt := hExtends.lt hc.h_lt
  r_lt := hExtends.lt hc.r_lt
  level_le := by
    unfold top
    rw [hExtends.levelOf_eq hc.f_lt, hExtends.levelOf_eq hc.g_lt,
      hExtends.levelOf_eq hc.h_lt, hExtends.levelOf_eq hc.r_lt]
    exact hc.level_le
  eval_eq := by
    intro ν
    rw [hSound.eval_eq hExtends hc.f_lt,
      hSound.eval_eq hExtends hc.g_lt,
      hSound.eval_eq hExtends hc.h_lt,
      hSound.eval_eq hExtends hc.r_lt]
    exact hc.eval_eq ν

theorem Proper.extend
    {forest forest' : Forest}
    (hExtends : forest.Extends forest')
    {f : Ref}
    (hf : f < forest.size)
    (hp : forest.Proper f) :
    forest'.Proper f := by
  have hNode := hExtends.node_eq f hf
  have hLevel := hExtends.levelOf_eq hf
  have hLow := hExtends.levelOf_eq (Nat.lt_trans hp.low_lt hf)
  have hHigh := hExtends.levelOf_eq (Nat.lt_trans hp.high_lt hf)
  refine ⟨?_, ?_, ?_, ?_, ?_, ?_⟩
  · rw [hNode]
    exact hp.differs
  · rw [hNode]
    exact hp.low_lt
  · rw [hNode]
    exact hp.high_lt
  · rw [hNode, hLevel, hLow]
    exact hp.level_low
  · rw [hNode, hLevel, hHigh]
    exact hp.level_high
  · rw [hLevel, hExtends.signal_eq, hExtends.level?_eq]
    exact hp.place

/- A forest with one node more, entered in the table. -/
def pushed
    (forest : Forest)
    (d : DiagramNode) :
    Forest :=
  { forest with
    nodes := forest.nodes.push d
    unique :=
      forest.unique.insert (d.level, d.low, d.high) forest.size }

section Pushed

variable {forest : Forest}
variable {d : DiagramNode}

theorem size_pushed
    (forest : Forest)
    (d : DiagramNode) :
    (forest.pushed d).size = forest.size + 1 :=
  Array.size_push ..

theorem node_pushed_self
    (forest : Forest)
    (d : DiagramNode) :
    (forest.pushed d).node forest.size = d := by
  simp [node, pushed, size, Array.getD_eq_getD_getElem?]

theorem extends_pushed
    (forest : Forest)
    (d : DiagramNode) :
    forest.Extends (forest.pushed d) where
  order_eq := rfl
  size_le := by
    rw [size_pushed]
    exact Nat.le_succ _
  node_eq := by
    intro f hf
    have hSmall : f < forest.nodes.size := hf
    have hOther : ¬ f = forest.nodes.size := Nat.ne_of_lt hf
    simp [node, pushed, Array.getD_eq_getD_getElem?,
      Array.getElem?_push, hOther, hSmall]

/- A new test above its sides keeps a forest sound. -/
theorem sound_pushed
    (hSound : forest.Sound)
    (hne : d.low ≠ d.high)
    (hLow : d.low < forest.size)
    (hHigh : d.high < forest.size)
    (hLevelLow : d.level < forest.levelOf d.low)
    (hLevelHigh : d.level < forest.levelOf d.high)
    (hPlace : forest.level? (forest.signal d.level) = some d.level)
    (hNew : forest.unique[(d.level, d.low, d.high)]? = none) :
    (forest.pushed d).Sound := by
  have hExtends := extends_pushed forest d
  have hSelf := node_pushed_self forest d
  have hSplit : ∀ f, f < (forest.pushed d).size →
      f < forest.size ∨ f = forest.size := by
    intro f hf
    rw [size_pushed] at hf
    exact Nat.lt_or_eq_of_le (Nat.le_of_lt_succ hf)
  refine ⟨?_, ?_, ?_, ?_, ?_⟩
  · exact Nat.le_trans hSound.two_le hExtends.size_le
  · intro f hf
    rw [hExtends.node_eq f (Nat.lt_of_lt_of_le hf hSound.two_le),
      hExtends.bottom_eq]
    exact hSound.constant f hf
  · intro f hLe hf
    rcases hSplit f hf with hOld | rfl
    · exact (hSound.proper f hLe hOld).extend hExtends hOld
    · have hLevel : (forest.pushed d).levelOf forest.size =
          d.level := by
        rw [levelOf, hSelf]
      refine ⟨?_, ?_, ?_, ?_, ?_, ?_⟩
      · rw [hSelf]
        exact hne
      · rw [hSelf]
        exact hLow
      · rw [hSelf]
        exact hHigh
      · rw [hLevel, hSelf, hExtends.levelOf_eq hLow]
        exact hLevelLow
      · rw [hLevel, hSelf, hExtends.levelOf_eq hHigh]
        exact hLevelHigh
      · rw [hLevel]
        exact hPlace
  · intro level low high r
    change (forest.unique.insert (d.level, d.low, d.high)
      forest.size)[(level, low, high)]? = some r ↔ _
    rw [Std.HashMap.getElem?_insert]
    by_cases hKey : d = ⟨level, low, high⟩
    · subst hKey
      rw [if_pos (beq_self_eq_true _)]
      constructor
      · intro hFound
        cases hFound
        refine ⟨hSound.two_le, ?_, hSelf⟩
        rw [size_pushed]
        exact Nat.lt_succ_self _
      · rintro ⟨hLe, hr, hNode⟩
        rcases hSplit r hr with hOld | rfl
        · rw [hExtends.node_eq r hOld] at hNode
          have hFound := (hSound.unique_iff level low high r).mpr
            ⟨hLe, hOld, hNode⟩
          rw [hNew] at hFound
          cases hFound
        · rfl
    · have hOther : ¬ ((d.level, d.low, d.high) ==
          (level, low, high)) = true := by
        intro hSame
        apply hKey
        have hPair := eq_of_beq hSame
        injection hPair with hLevel hSides
        injection hSides with hLowEq hHighEq
        rw [← hLevel, ← hLowEq, ← hHighEq]
      rw [if_neg hOther, hSound.unique_iff]
      constructor
      · rintro ⟨hLe, hr, hNode⟩
        exact ⟨hLe, hExtends.lt hr,
          (hExtends.node_eq r hr).trans hNode⟩
      · rintro ⟨hLe, hr, hNode⟩
        rcases hSplit r hr with hOld | rfl
        · exact ⟨hLe, hOld, (hExtends.node_eq r hOld).symm.trans
            hNode⟩
        · rw [hSelf] at hNode
          exact absurd hNode hKey
  · intro f g h r hFound
    exact (hSound.chosen f g h r hFound).extend hSound hExtends

end Pushed

/-
  The reference for a test is that of the function that tests
  the signal of the level first.
-/
theorem makeNode_makes
    {forest : Forest}
    (hSound : forest.Sound)
    {level : Nat}
    {low high : Ref}
    (hPlace : forest.level? (forest.signal level) = some level)
    (hLow : low < forest.size)
    (hHigh : high < forest.size)
    (hLevelLow : level < forest.levelOf low)
    (hLevelHigh : level < forest.levelOf high) :
    forest.Makes level
      (fun ν => if ν (forest.signal level) then
        forest.eval ν high else forest.eval ν low)
      (forest.makeNode level low high).1
      (forest.makeNode level low high).2 := by
  unfold makeNode
  by_cases hSame : low = high
  · subst hSame
    rw [if_pos rfl]
    refine ⟨hSound, Extends.refl forest, hLow,
      Nat.le_of_lt hLevelLow, ?_⟩
    intro ν
    simp
  · rw [if_neg hSame]
    cases hFound : forest.unique[(level, low, high)]? with
    | some r =>
        rcases (hSound.unique_iff level low high r).mp hFound with
          ⟨hLe, hr, hNode⟩
        refine ⟨hSound, Extends.refl forest, hr, ?_, ?_⟩
        · exact Nat.le_of_eq
            (congrArg DiagramNode.level hNode).symm
        · intro ν
          change forest.eval ν r = _
          rw [hSound.eval_test hLe hr, levelOf, hNode]
    | none =>
        have hExtends := extends_pushed forest ⟨level, low, high⟩
        have hSelf := node_pushed_self forest ⟨level, low, high⟩
        have hPushed := sound_pushed (d := ⟨level, low, high⟩)
          hSound hSame hLow hHigh hLevelLow hLevelHigh hPlace hFound
        have hr : forest.size <
            (forest.pushed ⟨level, low, high⟩).size := by
          rw [size_pushed]
          exact Nat.lt_succ_self _
        refine ⟨hPushed, hExtends, hr, ?_, ?_⟩
        · exact Nat.le_of_eq
            (congrArg DiagramNode.level hSelf).symm
        · intro ν
          change (forest.pushed ⟨level, low, high⟩).eval ν
            forest.size = _
          rw [hPushed.eval_test hSound.two_le hr, levelOf, hSelf,
            hSound.eval_eq hExtends hLow,
            hSound.eval_eq hExtends hHigh]
          rfl

end Forest

end Gatework
