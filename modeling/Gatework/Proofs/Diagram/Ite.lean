import Gatework.Proofs.Diagram.Forest

/-
  If-then-else on diagrams.

  The recursion goes down one level at a time, so it ends;
  the bound on its depth is never reached. What it makes is a
  diagram of the function chosen, in a sound forest.

  Key definitions include:
    * `Forest.IteRuns`, the recursion without a bound

  Key theorems include:
    * `Forest.IteRuns.makes`
    * `Forest.ite_runs`
-/

------------------------------------------------------------
-- The recursion
------------------------------------------------------------

namespace Gatework

namespace Forest

/- No rule gives the answer at once. -/
def Undecided
    (f g h : Ref) :
    Prop :=
  f ≠ Ref.one ∧ f ≠ Ref.zero ∧ g ≠ h ∧
    ¬ (g = Ref.one ∧ h = Ref.zero)

/- The forest that keeps one answer more. -/
def remember
    (forest : Forest)
    (f g h r : Ref) :
    Forest :=
  { forest with known := forest.known.insert (f, g, h) r }

/-
  A finished run of if-then-else: from a forest and three
  references to a reference and the forest grown.
-/
inductive IteRuns :
    Forest → Ref → Ref → Ref → Ref → Forest → Prop where
  | one {forest : Forest} {g h : Ref} :
      IteRuns forest Ref.one g h g forest
  | zero {forest : Forest} {g h : Ref} :
      IteRuns forest Ref.zero g h h forest
  | same {forest : Forest} {f g : Ref}
      (hOne : f ≠ Ref.one) (hZero : f ≠ Ref.zero) :
      IteRuns forest f g g g forest
  | self {forest : Forest} {f : Ref}
      (hOne : f ≠ Ref.one) (hZero : f ≠ Ref.zero) :
      IteRuns forest f Ref.one Ref.zero f forest
  | known {forest : Forest} {f g h r : Ref}
      (hOpen : Undecided f g h)
      (hFound : forest.known[(f, g, h)]? = some r) :
      IteRuns forest f g h r forest
  | split {forest forest₁ forest₂ : Forest}
      {f g h low high : Ref}
      (hOpen : Undecided f g h)
      (hNew : forest.known[(f, g, h)]? = none)
      (hLow : IteRuns forest
        (forest.cofactors f (forest.top f g h)).1
        (forest.cofactors g (forest.top f g h)).1
        (forest.cofactors h (forest.top f g h)).1 low forest₁)
      (hHigh : IteRuns forest₁
        (forest.cofactors f (forest.top f g h)).2
        (forest.cofactors g (forest.top f g h)).2
        (forest.cofactors h (forest.top f g h)).2 high forest₂) :
      IteRuns forest f g h
        (forest₂.makeNode (forest.top f g h) low high).1
        ((forest₂.makeNode (forest.top f g h) low high).2.remember
          f g h
          (forest₂.makeNode (forest.top f g h) low high).1)

end Forest

end Gatework

------------------------------------------------------------
-- Cofactors
------------------------------------------------------------

namespace Gatework

namespace Forest

/- The sides of a diagram at a level above all it tests. -/
structure Sides
    (forest : Forest)
    (f : Ref)
    (level : Nat)
    (sides : Ref × Ref) :
    Prop where
  low_lt : sides.1 < forest.size
  high_lt : sides.2 < forest.size
  level_low : level < forest.levelOf sides.1
  level_high : level < forest.levelOf sides.2
  eval_eq : ∀ ν, forest.eval ν f =
    if ν (forest.signal level) then forest.eval ν sides.2
    else forest.eval ν sides.1

variable {forest : Forest}
variable {f g h : Ref}

theorem Sound.sides_cofactors
    (hSound : forest.Sound)
    (hf : f < forest.size)
    {level : Nat}
    (hLevel : level ≤ forest.levelOf f)
    (hAbove : level < forest.bottom) :
    forest.Sides f level (forest.cofactors f level) := by
  unfold cofactors
  by_cases hSame : (forest.node f).level = level
  · subst hSame
    have hLe := hSound.two_le_of_levelOf_lt hAbove
    have hProper := hSound.proper f hLe hf
    simp only [if_true]
    exact ⟨Nat.lt_trans hProper.low_lt hf,
      Nat.lt_trans hProper.high_lt hf, hProper.level_low,
      hProper.level_high, hSound.eval_test hLe hf⟩
  · have hBelow : level < forest.levelOf f :=
      Nat.lt_of_le_of_ne hLevel (fun h => hSame h.symm)
    simp only [hSame, if_false]
    refine ⟨hf, hf, hBelow, hBelow, ?_⟩
    intro ν
    simp

theorem top_le_f
    (forest : Forest)
    (f g h : Ref) :
    forest.top f g h ≤ forest.levelOf f :=
  Nat.min_le_left _ _

theorem top_le_g
    (forest : Forest)
    (f g h : Ref) :
    forest.top f g h ≤ forest.levelOf g :=
  Nat.le_trans (Nat.min_le_right _ _) (Nat.min_le_left _ _)

theorem top_le_h
    (forest : Forest)
    (f g h : Ref) :
    forest.top f g h ≤ forest.levelOf h :=
  Nat.le_trans (Nat.min_le_right _ _) (Nat.min_le_right _ _)

theorem lt_top
    {level : Nat}
    (hf : level < forest.levelOf f)
    (hg : level < forest.levelOf g)
    (hh : level < forest.levelOf h) :
    level < forest.top f g h := by
  unfold top
  omega

theorem Extends.top_eq
    {forest' : Forest}
    (hExtends : forest.Extends forest')
    (hf : f < forest.size)
    (hg : g < forest.size)
    (hh : h < forest.size) :
    forest'.top f g h = forest.top f g h := by
  unfold top
  rw [hExtends.levelOf_eq hf, hExtends.levelOf_eq hg,
    hExtends.levelOf_eq hh]

/- The condition is a test, so the top level has a signal. -/
theorem Sound.top_lt
    (hSound : forest.Sound)
    (hf : f < forest.size)
    (hOpen : Undecided f g h) :
    forest.top f g h < forest.bottom := by
  rcases hOpen with ⟨hOne, hZero, _⟩
  have hLe : 2 ≤ f := by
    match f, hOne, hZero with
    | 0, _, hZero => exact absurd rfl hZero
    | 1, hOne, _ => exact absurd rfl hOne
    | n + 2, _, _ => exact Nat.le_add_left 2 n
  exact Nat.lt_of_le_of_lt (forest.top_le_f f g h)
    (hSound.levelOf_lt hLe hf)

theorem Sound.place_top
    (hSound : forest.Sound)
    (hf : f < forest.size)
    (hg : g < forest.size)
    (hh : h < forest.size)
    (hAbove : forest.top f g h < forest.bottom) :
    forest.level? (forest.signal (forest.top f g h)) =
      some (forest.top f g h) := by
  have hPlace : ∀ c, c < forest.size →
      forest.levelOf c = forest.top f g h →
      forest.level? (forest.signal (forest.top f g h)) =
        some (forest.top f g h) := by
    intro c hc hLevel
    rw [← hLevel] at hAbove ⊢
    exact (hSound.proper c
      (hSound.two_le_of_levelOf_lt hAbove) hc).place
  have hCases : forest.levelOf f = forest.top f g h ∨
      forest.levelOf g = forest.top f g h ∨
      forest.levelOf h = forest.top f g h := by
    unfold top
    omega
  rcases hCases with hTop | hTop | hTop
  · exact hPlace f hf hTop
  · exact hPlace g hg hTop
  · exact hPlace h hh hTop

end Forest

end Gatework

------------------------------------------------------------
-- What a run makes
------------------------------------------------------------

namespace Gatework

namespace Forest

theorem extends_remember
    (forest : Forest)
    (f g h r : Ref) :
    forest.Extends (forest.remember f g h r) :=
  ⟨rfl, Nat.le_refl _, fun _ _ => rfl⟩

/- A right answer may be kept. -/
theorem sound_remember
    {forest : Forest}
    (hSound : forest.Sound)
    {f g h r : Ref}
    (hChosen : forest.Chosen f g h r) :
    (forest.remember f g h r).Sound := by
  have hExtends := extends_remember forest f g h r
  refine ⟨hSound.two_le, hSound.constant, ?_,
    hSound.unique_iff, ?_⟩
  · intro c hLe hc
    exact (hSound.proper c hLe hc).extend hExtends hc
  · intro f' g' h' r' hFound
    change (forest.known.insert (f, g, h) r)[(f', g', h')]? =
      some r' at hFound
    rw [Std.HashMap.getElem?_insert] at hFound
    split at hFound
    case isTrue hKey =>
        cases hFound
        have hPair := eq_of_beq hKey
        injection hPair with hFirst hRest
        injection hRest with hSecond hThird
        subst hFirst hSecond hThird
        exact hChosen.extend hSound hExtends
    case isFalse =>
        exact (hSound.chosen f' g' h' r' hFound).extend hSound
          hExtends

/- If-then-else as a function of the values of tests. -/
def choice
    (forest : Forest)
    (f g h : Ref)
    (ν : String → Bool) :
    Bool :=
  if forest.eval ν f then forest.eval ν g else forest.eval ν h

theorem Sound.choice_eq
    {forest forest' : Forest}
    (hSound : forest.Sound)
    (hExtends : forest.Extends forest')
    {f g h : Ref}
    (hf : f < forest.size)
    (hg : g < forest.size)
    (hh : h < forest.size)
    (ν : String → Bool) :
    forest'.choice f g h ν = forest.choice f g h ν := by
  unfold choice
  rw [hSound.eval_eq hExtends hf, hSound.eval_eq hExtends hg,
    hSound.eval_eq hExtends hh]

/- A choice is a test of the choices between the sides. -/
theorem choice_of_sides
    {forest : Forest}
    {f g h : Ref}
    {level : Nat}
    {fs gs hs : Ref × Ref}
    (hF : forest.Sides f level fs)
    (hG : forest.Sides g level gs)
    (hH : forest.Sides h level hs)
    (ν : String → Bool) :
    forest.choice f g h ν =
      if ν (forest.signal level) then
        forest.choice fs.2 gs.2 hs.2 ν
      else
        forest.choice fs.1 gs.1 hs.1 ν := by
  unfold choice
  rw [hF.eval_eq ν, hG.eval_eq ν, hH.eval_eq ν]
  cases ν (forest.signal level) <;> simp

/- A reference that is there already. -/
theorem Sound.makes_self
    {forest : Forest}
    (hSound : forest.Sound)
    {r : Ref}
    (hr : r < forest.size)
    {level : Nat}
    (hLevel : level ≤ forest.levelOf r)
    {function : (String → Bool) → Bool}
    (hEval : ∀ ν, forest.eval ν r = function ν) :
    forest.Makes level function r forest :=
  ⟨hSound, Extends.refl forest, hr, hLevel, hEval⟩

theorem Makes.congr
    {forest forest' : Forest}
    {level : Nat}
    {function function' : (String → Bool) → Bool}
    {r : Ref}
    (hMade : forest.Makes level function r forest')
    (hFunction : ∀ ν, function ν = function' ν) :
    forest.Makes level function' r forest' :=
  { hMade with
    eval_eq := fun ν => (hMade.eval_eq ν).trans (hFunction ν) }

/- Diagrams made one after the other as sides of a test. -/
theorem Makes.test
    {forest forest₁ forest₂ : Forest}
    {lowLevel highLevel level : Nat}
    {lowFunction highFunction : (String → Bool) → Bool}
    {low high : Ref}
    (hLow : forest.Makes lowLevel lowFunction low forest₁)
    (hHigh : forest₁.Makes highLevel highFunction high forest₂)
    (hPlace : forest.level? (forest.signal level) = some level)
    (hLevelLow : level < lowLevel)
    (hLevelHigh : level < highLevel) :
    forest.Makes level
      (fun ν => if ν (forest.signal level) then highFunction ν
        else lowFunction ν)
      (forest₂.makeNode level low high).1
      (forest₂.makeNode level low high).2 := by
  have hExtends := hLow.extend.trans hHigh.extend
  have hLowLt : low < forest₂.size := hHigh.extend.lt hLow.r_lt
  have hPlace₂ : forest₂.level? (forest₂.signal level) =
      some level := by
    rw [hExtends.signal_eq, hExtends.level?_eq]
    exact hPlace
  have hBelowLow : level < forest₂.levelOf low := by
    rw [hHigh.extend.levelOf_eq hLow.r_lt]
    exact Nat.lt_of_lt_of_le hLevelLow hLow.level_le
  have hBelowHigh : level < forest₂.levelOf high :=
    Nat.lt_of_lt_of_le hLevelHigh hHigh.level_le
  have hMade := makeNode_makes hHigh.sound hPlace₂ hLowLt
    hHigh.r_lt hBelowLow hBelowHigh
  refine ⟨hMade.sound, hExtends.trans hMade.extend, hMade.r_lt,
    hMade.level_le, ?_⟩
  intro ν
  rw [hMade.eval_eq ν, hHigh.eval_eq ν, hExtends.signal_eq,
    hLow.sound.eval_eq hHigh.extend hLow.r_lt, hLow.eval_eq ν]

/- A choice just made may be kept. -/
theorem Makes.remember
    {forest forest' : Forest}
    (hSound : forest.Sound)
    {f g h r : Ref}
    (hf : f < forest.size)
    (hg : g < forest.size)
    (hh : h < forest.size)
    (hMade : forest.Makes (forest.top f g h)
      (forest.choice f g h) r forest') :
    forest.Makes (forest.top f g h) (forest.choice f g h) r
      (forest'.remember f g h r) := by
  have hExtends := hMade.extend
  have hKept := extends_remember forest' f g h r
  have hChosen : forest'.Chosen f g h r := by
    refine ⟨hExtends.lt hf, hExtends.lt hg, hExtends.lt hh,
      hMade.r_lt, ?_, ?_⟩
    · rw [hExtends.top_eq hf hg hh]
      exact hMade.level_le
    · intro ν
      rw [hMade.eval_eq ν]
      exact (hSound.choice_eq hExtends hf hg hh ν).symm
  refine ⟨sound_remember hMade.sound hChosen,
    hExtends.trans hKept, hKept.lt hMade.r_lt, ?_, ?_⟩
  · rw [hKept.levelOf_eq hMade.r_lt]
    exact hMade.level_le
  · intro ν
    rw [hMade.sound.eval_eq hKept hMade.r_lt]
    exact hMade.eval_eq ν

/-
  A run makes the function chosen. The induction is on the
  run; the sides of the result are below the top level, since
  a run makes nothing above the tests it is given.
-/
theorem IteRuns.makes
    {forest forest' : Forest}
    {f g h r : Ref}
    (hRun : IteRuns forest f g h r forest')
    (hSound : forest.Sound)
    (hf : f < forest.size)
    (hg : g < forest.size)
    (hh : h < forest.size) :
    forest.Makes (forest.top f g h) (forest.choice f g h)
      r forest' := by
  induction hRun with
  | @one forest g h =>
      exact hSound.makes_self hg (forest.top_le_g _ g h)
        (fun ν => by simp [choice])
  | @zero forest g h =>
      exact hSound.makes_self hh (forest.top_le_h _ g h)
        (fun ν => by simp [choice])
  | @same forest f g hOne hZero =>
      exact hSound.makes_self hg (forest.top_le_g f g g)
        (fun ν => by simp [choice])
  | @self forest f hOne hZero =>
      exact hSound.makes_self hf (forest.top_le_f f _ _)
        (fun ν => by cases h : forest.eval ν f <;> simp [choice, h])
  | @known forest f g h r hOpen hFound =>
      have hChosen := hSound.chosen f g h r hFound
      exact hSound.makes_self hChosen.r_lt hChosen.level_le
        hChosen.eval_eq
  | @split forest forest₁ forest₂ f g h low high hOpen hNew hLow
      hHigh ihLow ihHigh =>
      have hTop := hSound.top_lt hf hOpen
      have hF := hSound.sides_cofactors hf
        (forest.top_le_f f g h) hTop
      have hG := hSound.sides_cofactors hg
        (forest.top_le_g f g h) hTop
      have hH := hSound.sides_cofactors hh
        (forest.top_le_h f g h) hTop
      have hPlace := hSound.place_top hf hg hh hTop
      have hLevelLow :=
        lt_top hF.level_low hG.level_low hH.level_low
      have hLevelHigh :=
        lt_top hF.level_high hG.level_high hH.level_high
      have hMadeLow := ihLow hSound hF.low_lt hG.low_lt hH.low_lt
      have hExtends := hMadeLow.extend
      have hMadeHigh := ihHigh hMadeLow.sound
        (hExtends.lt hF.high_lt) (hExtends.lt hG.high_lt)
        (hExtends.lt hH.high_lt)
      rw [hExtends.top_eq hF.high_lt hG.high_lt hH.high_lt]
        at hMadeHigh
      have hMade := hMadeLow.test hMadeHigh hPlace hLevelLow
        hLevelHigh
      apply Makes.remember hSound hf hg hh
      apply hMade.congr
      intro ν
      rw [choice_of_sides hF hG hH ν,
        hSound.choice_eq hExtends hF.high_lt hG.high_lt hH.high_lt]

end Forest

end Gatework

------------------------------------------------------------
-- Termination
------------------------------------------------------------

namespace Gatework

namespace Forest

/-
  The bound on the depth is never reached: the top level of
  the arguments and the depth left cover all levels.
-/
theorem iteFor_runs
    {forest : Forest}
    (hSound : forest.Sound)
    {f g h : Ref}
    (hf : f < forest.size)
    (hg : g < forest.size)
    (hh : h < forest.size)
    {n : Nat}
    (hDepth : forest.bottom < n + forest.top f g h) :
    IteRuns forest f g h (iteFor n forest f g h).1
      (iteFor n forest f g h).2 := by
  induction n generalizing forest f g h with
  | zero =>
      have hLevel := hSound.levelOf_le hf
      have hTop := forest.top_le_f f g h
      omega
  | succ n ih =>
      rw [iteFor]
      by_cases hOne : f = Ref.one
      · rw [if_pos hOne, hOne]
        exact .one
      by_cases hZero : f = Ref.zero
      · rw [if_neg hOne, if_pos hZero, hZero]
        exact .zero
      by_cases hSame : g = h
      · rw [if_neg hOne, if_neg hZero, if_pos hSame, hSame]
        exact .same hOne hZero
      by_cases hSelf : g = Ref.one ∧ h = Ref.zero
      · rw [if_neg hOne, if_neg hZero, if_neg hSame,
          if_pos hSelf, hSelf.1, hSelf.2]
        exact .self hOne hZero
      have hOpen : Undecided f g h := ⟨hOne, hZero, hSame, hSelf⟩
      rw [if_neg hOne, if_neg hZero, if_neg hSame, if_neg hSelf]
      cases hFound : forest.known[(f, g, h)]? with
      | some r => exact .known hOpen hFound
      | none =>
          have hTop := hSound.top_lt hf hOpen
          have hF := hSound.sides_cofactors hf
            (forest.top_le_f f g h) hTop
          have hG := hSound.sides_cofactors hg
            (forest.top_le_g f g h) hTop
          have hH := hSound.sides_cofactors hh
            (forest.top_le_h f g h) hTop
          have hLevelLow :=
            lt_top hF.level_low hG.level_low hH.level_low
          have hLevelHigh :=
            lt_top hF.level_high hG.level_high hH.level_high
          have hRunLow := ih hSound hF.low_lt hG.low_lt hH.low_lt
            (by omega)
          have hMade := hRunLow.makes hSound hF.low_lt hG.low_lt
            hH.low_lt
          have hExtends := hMade.extend
          refine .split hOpen hFound hRunLow
            (ih hMade.sound (hExtends.lt hF.high_lt)
              (hExtends.lt hG.high_lt) (hExtends.lt hH.high_lt) ?_)
          rw [hExtends.top_eq hF.high_lt hG.high_lt hH.high_lt,
            hExtends.bottom_eq]
          omega

/- If-then-else comes to an end. -/
theorem ite_runs
    {forest : Forest}
    (hSound : forest.Sound)
    {f g h : Ref}
    (hf : f < forest.size)
    (hg : g < forest.size)
    (hh : h < forest.size) :
    IteRuns forest f g h (forest.ite f g h).1
      (forest.ite f g h).2 :=
  iteFor_runs hSound hf hg hh (by omega)

end Forest

end Gatework
