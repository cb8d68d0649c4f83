import Gatework.Proofs.Diagram.Session
import Gatework.Proofs.Expr.Value

/-
  The diagrams of an expression.

  A valid expression whose tests are all in the order has a
  diagram for each bit, and each diagram has the value of its
  bit whenever the tests have the values of the bits of the
  signals.

  Key definitions include:
    * `Var.testName`, the test for one bit of a signal
    * `Follows`, tests that have the values of bits
    * `Forest.Shows`, diagrams of given bits
    * `Expr.HasDiagrams`, wherever the tests are in order

  Key theorems include:
    * `Expr.gives_diagrams`
-/

------------------------------------------------------------
-- Tests of signals
------------------------------------------------------------

namespace Gatework

/- The name of the test for a bit of a signal. -/
def Var.testName
    (v : Var)
    (i : Nat) :
    String :=
  if v.width = 1 then v.name else bitName v.name i

/- The tests have the values of the bits of the signals. -/
def Follows
    (Γ : Var → Prop)
    (τ : String → Nat)
    (ν : String → Bool) :
    Prop :=
  ∀ v, Γ v → ∀ i, i < v.width →
    ν (v.testName i) = (τ v.name).testBit i

namespace Forest

variable {Γ : Var → Prop}

/- A diagram with the value of a bit. -/
structure Has
    (Γ : Var → Prop)
    (forest : Forest)
    (r : Ref)
    (bit : (String → Nat) → Bool) :
    Prop where
  lt : r < forest.size
  eval_eq : ∀ τ ν, Follows Γ τ ν → forest.eval ν r = bit τ

/- A list of diagrams with the values of bits in a row. -/
structure Shows
    (Γ : Var → Prop)
    (forest : Forest)
    (refs : List Ref)
    (width : Nat)
    (bits : Nat → (String → Nat) → Bool) :
    Prop where
  length_eq : refs.length = width
  has : ∀ i r, refs[i]? = some r → Has Γ forest r (bits i)

theorem Has.extend
    {forest forest' : Forest}
    (hSound : forest.Sound)
    (hExtends : forest.Extends forest')
    {r : Ref}
    {bit : (String → Nat) → Bool}
    (h : Has Γ forest r bit) :
    Has Γ forest' r bit where
  lt := hExtends.lt h.lt
  eval_eq := by
    intro τ ν hFollows
    rw [hSound.eval_eq hExtends h.lt]
    exact h.eval_eq τ ν hFollows

theorem Has.congr
    {forest : Forest}
    {r : Ref}
    {bit bit' : (String → Nat) → Bool}
    (h : Has Γ forest r bit)
    (hBit : ∀ τ, bit τ = bit' τ) :
    Has Γ forest r bit' :=
  ⟨h.lt, fun τ ν hFollows =>
    (h.eval_eq τ ν hFollows).trans (hBit τ)⟩

theorem Shows.extend
    {forest forest' : Forest}
    (hSound : forest.Sound)
    (hExtends : forest.Extends forest')
    {refs : List Ref}
    {width : Nat}
    {bits : Nat → (String → Nat) → Bool}
    (h : Shows Γ forest refs width bits) :
    Shows Γ forest' refs width bits :=
  ⟨h.length_eq, fun i r hr => (h.has i r hr).extend hSound hExtends⟩

theorem Shows.congr
    {forest : Forest}
    {refs : List Ref}
    {width : Nat}
    {bits bits' : Nat → (String → Nat) → Bool}
    (h : Shows Γ forest refs width bits)
    (hBits : ∀ i, i < width → ∀ τ, bits i τ = bits' i τ) :
    Shows Γ forest refs width bits' := by
  refine ⟨h.length_eq, ?_⟩
  intro i r hr
  have hi : i < width := by
    rw [← h.length_eq]
    exact (List.getElem?_eq_some_iff.mp hr).1
  exact (h.has i r hr).congr (hBits i hi)

theorem shows_nil
    {forest : Forest}
    {bits : Nat → (String → Nat) → Bool} :
    Shows Γ forest [] 0 bits := by
  refine ⟨rfl, ?_⟩
  intro i r hr
  cases hr

/- The diagram of a single bit. -/
theorem Shows.exists_single
    {forest : Forest}
    {refs : List Ref}
    {bits : Nat → (String → Nat) → Bool}
    (h : Shows Γ forest refs 1 bits) :
    ∃ r, refs = [r] ∧ Has Γ forest r (bits 0) := by
  rcases List.length_eq_one_iff.mp h.length_eq with ⟨r, rfl⟩
  exact ⟨r, rfl, h.has 0 r rfl⟩

/- The lowest bit and the others. -/
theorem shows_cons_iff
    {forest : Forest}
    {r : Ref}
    {refs : List Ref}
    {width : Nat}
    {bits : Nat → (String → Nat) → Bool} :
    Shows Γ forest (r :: refs) (width + 1) bits ↔
      Has Γ forest r (bits 0) ∧
        Shows Γ forest refs width (fun i => bits (i + 1)) := by
  constructor
  · intro h
    refine ⟨h.has 0 r rfl, Nat.succ.inj h.length_eq, ?_⟩
    intro i s hs
    exact h.has (i + 1) s hs
  · rintro ⟨hHead, hTail⟩
    refine ⟨congrArg (· + 1) hTail.length_eq, ?_⟩
    intro i s hs
    cases i with
    | zero =>
        cases hs
        exact hHead
    | succ i => exact hTail.has i s hs

end Forest

end Gatework

------------------------------------------------------------
-- Computations that succeed
------------------------------------------------------------

namespace Gatework

namespace Building

variable {α β : Type}
variable {forest : Forest}

/- A computation that succeeds and keeps the forest sound. -/
def Gives
    (m : Building α)
    (forest : Forest)
    (P : α → Forest → Prop) :
    Prop :=
  ∃ a forest', m forest = (.ok a, forest') ∧ forest'.Sound ∧
    forest.Extends forest' ∧ P a forest'

theorem gives_pure
    (hSound : forest.Sound)
    {P : α → Forest → Prop}
    {a : α}
    (ha : P a forest) :
    Gives (pure a) forest P :=
  ⟨a, forest, rfl, hSound, Forest.Extends.refl forest, ha⟩

theorem Gives.bind
    {m : Building α}
    {f : α → Building β}
    {P : α → Forest → Prop}
    {Q : β → Forest → Prop}
    (hm : Gives m forest P)
    (hf : ∀ a forest', forest'.Sound → forest.Extends forest' →
      P a forest' → Gives (f a) forest' Q) :
    Gives (m >>= f) forest Q := by
  rcases hm with ⟨a, forest₁, hRun, hSound₁, hExtends₁, hP⟩
  rcases hf a forest₁ hSound₁ hExtends₁ hP with
    ⟨b, forest₂, hRest, hSound₂, hExtends₂, hQ⟩
  refine ⟨b, forest₂, ?_, hSound₂, hExtends₁.trans hExtends₂, hQ⟩
  rw [bind_apply, hRun]
  exact hRest

variable {Γ : Var → Prop}
variable {F G H : (String → Nat) → Bool}

theorem gives_ite
    (hSound : forest.Sound)
    {f g h : Ref}
    (hf : forest.Has Γ f F)
    (hg : forest.Has Γ g G)
    (hh : forest.Has Γ h H) :
    Gives (step fun forest => forest.ite f g h) forest
      (fun r forest' => forest'.Has Γ r
        (fun τ => if F τ then G τ else H τ)) := by
  have hMade := (Forest.ite_runs hSound hf.lt hg.lt hh.lt).makes
    hSound hf.lt hg.lt hh.lt
  refine ⟨(forest.ite f g h).1, (forest.ite f g h).2, rfl,
    hMade.sound, hMade.extend, hMade.r_lt, ?_⟩
  intro τ ν hFollows
  rw [hMade.eval_eq, Forest.choice, hf.eval_eq τ ν hFollows,
    hg.eval_eq τ ν hFollows, hh.eval_eq τ ν hFollows]

theorem has_zero
    (hSound : forest.Sound) :
    forest.Has Γ Ref.zero (fun _ => false) :=
  ⟨Nat.lt_of_lt_of_le Nat.zero_lt_two hSound.two_le,
    fun _ ν _ => forest.eval_zero ν⟩

theorem has_one
    (hSound : forest.Sound) :
    forest.Has Γ Ref.one (fun _ => true) :=
  ⟨Nat.lt_of_lt_of_le Nat.one_lt_two hSound.two_le,
    fun _ ν _ => forest.eval_one ν⟩

theorem Gives.imp
    {m : Building α}
    {P Q : α → Forest → Prop}
    (hm : Gives m forest P)
    (hImp : ∀ a forest', P a forest' → Q a forest') :
    Gives m forest Q := by
  rcases hm with ⟨a, forest', hRun, hSound, hExtends, hP⟩
  exact ⟨a, forest', hRun, hSound, hExtends, hImp a forest' hP⟩

theorem gives_not
    (hSound : forest.Sound)
    {f : Ref}
    (hf : forest.Has Γ f F) :
    Gives (step fun forest => forest.not f) forest
      (fun r forest' => forest'.Has Γ r (fun τ => !F τ)) := by
  apply (gives_ite hSound hf (has_zero hSound)
    (has_one hSound)).imp
  intro r forest' h
  exact h.congr (fun τ => by cases F τ <;> rfl)

theorem gives_and
    (hSound : forest.Sound)
    {f g : Ref}
    (hf : forest.Has Γ f F)
    (hg : forest.Has Γ g G) :
    Gives (step fun forest => forest.and f g) forest
      (fun r forest' => forest'.Has Γ r
        (fun τ => F τ && G τ)) := by
  apply (gives_ite hSound hf hg (has_zero hSound)).imp
  intro r forest' h
  exact h.congr (fun τ => by cases F τ <;> rfl)

theorem gives_or
    (hSound : forest.Sound)
    {f g : Ref}
    (hf : forest.Has Γ f F)
    (hg : forest.Has Γ g G) :
    Gives (step fun forest => forest.or f g) forest
      (fun r forest' => forest'.Has Γ r
        (fun τ => F τ || G τ)) := by
  apply (gives_ite hSound hf (has_one hSound) hg).imp
  intro r forest' h
  exact h.congr (fun τ => by cases F τ <;> rfl)

theorem gives_xor
    (hSound : forest.Sound)
    {f g : Ref}
    (hf : forest.Has Γ f F)
    (hg : forest.Has Γ g G) :
    Gives (step fun forest => forest.xor f g) forest
      (fun r forest' => forest'.Has Γ r
        (fun τ => F τ ^^ G τ)) := by
  rw [step_xor]
  apply (gives_not hSound hg).bind
  intro ng forest' hSound' hExtends hng
  apply (gives_ite hSound' (hf.extend hSound hExtends) hng
    (hg.extend hSound hExtends)).imp
  intro r forest'' h
  exact h.congr (fun τ => by cases F τ <;> cases G τ <;> rfl)

theorem gives_gate
    (hSound : forest.Sound)
    (op : GateOp)
    {x y : Ref}
    (hx : forest.Has Γ x F)
    (hy : forest.Has Γ y G) :
    Gives (gate op x y) forest
      (fun r forest' => forest'.Has Γ r
        (fun τ => op.onBits (F τ) (G τ))) := by
  have hNegated : ∀ {m : Building Ref} {B : (String → Nat) → Bool},
      Gives m forest (fun r forest' => forest'.Has Γ r B) →
      Gives (do
        let r ← m
        step fun forest => forest.not r) forest
        (fun r forest' => forest'.Has Γ r (fun τ => !B τ)) := by
    intro m B hm
    apply hm.bind
    intro r forest' hSound' _ hr
    exact gives_not hSound' hr
  cases op with
  | and => exact gives_and hSound hx hy
  | or => exact gives_or hSound hx hy
  | xor => exact gives_xor hSound hx hy
  | xnor => exact hNegated (gives_xor hSound hx hy)
  | nand => exact hNegated (gives_and hSound hx hy)
  | nor => exact hNegated (gives_or hSound hx hy)

/- The test for a bit of a signal. -/
theorem gives_test
    (hSound : forest.Sound)
    {v : Var}
    (hv : Γ v)
    {i : Nat}
    (hi : i < v.width)
    (hOrder : v.testName i ∈ forest.order) :
    Gives (test (v.testName i)) forest
      (fun r forest' => forest'.Has Γ r
        (fun τ => (τ v.name).testBit i)) := by
  rcases Forest.exists_lastPlace? hOrder 0 with ⟨level, hLevel⟩
  have hMade := Forest.test_makes hSound hLevel
  refine ⟨_, _, ?_, hMade.sound, hMade.extend, hMade.r_lt, ?_⟩
  · unfold test
    rw [show forest.level? (v.testName i) = some level from hLevel]
  · intro τ ν hFollows
    rw [hMade.eval_eq]
    exact hFollows v hv i hi

end Building

end Gatework

------------------------------------------------------------
-- Bits in a row
------------------------------------------------------------

namespace Gatework

namespace Building

variable {Γ : Var → Prop}
variable {forest : Forest}

theorem gives_mapBits
    {f : Ref → Building Ref}
    {op : Bool → Bool}
    (hf : ∀ {forest x F}, forest.Sound → forest.Has Γ x F →
      Gives (f x) forest (fun r forest' =>
        forest'.Has Γ r (fun τ => op (F τ))))
    {xs : List Ref}
    {width : Nat}
    {F : Nat → (String → Nat) → Bool}
    (hSound : forest.Sound)
    (hxs : forest.Shows Γ xs width F) :
    Gives (mapBits f xs) forest (fun rs forest' =>
      forest'.Shows Γ rs width (fun i τ => op (F i τ))) := by
  induction xs generalizing forest width F with
  | nil =>
      cases hxs.length_eq
      exact gives_pure hSound Forest.shows_nil
  | cons x xs ih =>
      cases hxs.length_eq
      rcases Forest.shows_cons_iff.mp hxs with ⟨hHead, hTail⟩
      rw [mapBits]
      apply (hf hSound hHead).bind
      intro r forest₁ hSound₁ hExtends₁ hr
      apply (ih hSound₁ (hTail.extend hSound hExtends₁)).bind
      intro rs forest₂ hSound₂ hExtends₂ hrs
      exact gives_pure hSound₂ (Forest.shows_cons_iff.mpr
        ⟨hr.extend hSound₁ hExtends₂, hrs⟩)

theorem gives_zipBits
    {f : Ref → Ref → Building Ref}
    {op : (String → Nat) → Bool → Bool → Bool}
    {start : Forest}
    (hf : ∀ {forest x y F G}, forest.Sound → start.Extends forest →
      forest.Has Γ x F → forest.Has Γ y G →
      Gives (f x y) forest (fun r forest' =>
        forest'.Has Γ r (fun τ => op τ (F τ) (G τ))))
    {xs ys : List Ref}
    {width : Nat}
    {F G : Nat → (String → Nat) → Bool}
    (hSound : forest.Sound)
    (hStart : start.Extends forest)
    (hxs : forest.Shows Γ xs width F)
    (hys : forest.Shows Γ ys width G) :
    Gives (zipBits f xs ys) forest (fun rs forest' =>
      forest'.Shows Γ rs width
        (fun i τ => op τ (F i τ) (G i τ))) := by
  induction xs generalizing ys forest width F G with
  | nil =>
      cases hxs.length_eq
      exact gives_pure hSound Forest.shows_nil
  | cons x xs ih =>
      cases hxs.length_eq
      cases ys with
      | nil => cases hys.length_eq
      | cons y ys =>
          rcases Forest.shows_cons_iff.mp hxs with ⟨hx, hTailX⟩
          rcases Forest.shows_cons_iff.mp hys with ⟨hy, hTailY⟩
          rw [zipBits]
          apply (hf hSound hStart hx hy).bind
          intro r forest₁ hSound₁ hExtends₁ hr
          apply (ih hSound₁ (hStart.trans hExtends₁)
            (hTailX.extend hSound hExtends₁)
            (hTailY.extend hSound hExtends₁)).bind
          intro rs forest₂ hSound₂ hExtends₂ hrs
          exact gives_pure hSound₂ (Forest.shows_cons_iff.mpr
            ⟨hr.extend hSound₁ hExtends₂, hrs⟩)

/- Whether the bits below a width agree. -/
def allAgree
    (F G : Nat → (String → Nat) → Bool)
    (τ : String → Nat) :
    Nat → Bool
  | 0 => true
  | n + 1 => (F 0 τ == G 0 τ) &&
      allAgree (fun i => F (i + 1)) (fun i => G (i + 1)) τ n

theorem allAgree_iff
    {F G : Nat → (String → Nat) → Bool}
    {τ : String → Nat}
    {n : Nat} :
    allAgree F G τ n = true ↔
      ∀ i, i < n → F i τ = G i τ := by
  induction n generalizing F G with
  | zero =>
      refine ⟨fun _ i hi => absurd hi (Nat.not_lt_zero i), ?_⟩
      intro _
      rfl
  | succ n ih =>
      rw [allAgree, Bool.and_eq_true, beq_iff_eq, ih]
      constructor
      · rintro ⟨hHead, hTail⟩ i hi
        cases i with
        | zero => exact hHead
        | succ i => exact hTail i (Nat.lt_of_succ_lt_succ hi)
      · intro hAll
        exact ⟨hAll 0 (Nat.succ_pos n),
          fun i hi => hAll (i + 1) (Nat.succ_lt_succ hi)⟩

theorem gives_agree
    {acc : Ref}
    {A : (String → Nat) → Bool}
    {xs ys : List Ref}
    {width : Nat}
    {F G : Nat → (String → Nat) → Bool}
    (hSound : forest.Sound)
    (hAcc : forest.Has Γ acc A)
    (hxs : forest.Shows Γ xs width F)
    (hys : forest.Shows Γ ys width G) :
    Gives (agree acc xs ys) forest (fun r forest' =>
      forest'.Has Γ r
        (fun τ => A τ && allAgree F G τ width)) := by
  induction xs generalizing acc A ys forest width F G with
  | nil =>
      cases hxs.length_eq
      exact gives_pure hSound
        (hAcc.congr (fun τ => (Bool.and_true _).symm))
  | cons x xs ih =>
      cases hxs.length_eq
      cases ys with
      | nil => cases hys.length_eq
      | cons y ys =>
          rcases Forest.shows_cons_iff.mp hxs with ⟨hx, hTailX⟩
          rcases Forest.shows_cons_iff.mp hys with ⟨hy, hTailY⟩
          rw [agree]
          apply (gives_xor hSound hx hy).bind
          intro d forest₁ hSound₁ hExtends₁ hd
          apply (gives_not hSound₁ hd).bind
          intro e forest₂ hSound₂ hExtends₂ he
          have hExtends := hExtends₁.trans hExtends₂
          apply (gives_and hSound₂ (hAcc.extend hSound hExtends)
            he).bind
          intro acc' forest₃ hSound₃ hExtends₃ hAcc'
          have hExtends' := hExtends.trans hExtends₃
          apply (ih hSound₃ hAcc'
            (hTailX.extend hSound hExtends')
            (hTailY.extend hSound hExtends')).imp
          intro r forest' hr
          apply hr.congr
          intro τ
          have hSame : (!(F 0 τ ^^ G 0 τ)) = (F 0 τ == G 0 τ) := by
            cases F 0 τ <;> cases G 0 τ <;> rfl
          rw [List.length_cons, allAgree, hSame, Bool.and_assoc]

/- One test for each element of a list. -/
theorem gives_tests
    {α : Type}
    {xs : List α}
    {name : α → String}
    {F : Nat → (String → Nat) → Bool}
    (hTests : ∀ i x, xs[i]? = some x →
      ∀ forest' : Forest, forest'.Sound →
        forest.Extends forest' →
        Gives (test (name x)) forest'
          (fun r forest'' => forest''.Has Γ r (F i)))
    (hSound : forest.Sound) :
    Gives (xs.mapM fun x => test (name x)) forest
      (fun rs forest' => forest'.Shows Γ rs xs.length F) := by
  induction xs generalizing forest F with
  | nil =>
      rw [List.mapM_nil]
      exact gives_pure hSound Forest.shows_nil
  | cons x xs ih =>
      rw [List.mapM_cons]
      apply (hTests 0 x rfl forest hSound
        (Forest.Extends.refl forest)).bind
      intro r forest₁ hSound₁ hExtends₁ hr
      have hRest : ∀ i y, xs[i]? = some y →
          ∀ forest' : Forest, forest'.Sound →
            forest₁.Extends forest' →
            Gives (test (name y)) forest'
              (fun r forest'' => forest''.Has Γ r (F (i + 1))) :=
        fun i y hy forest' hSound' hExtends' =>
          hTests (i + 1) y hy forest' hSound'
            (hExtends₁.trans hExtends')
      apply (ih hRest hSound₁).bind
      intro rs forest₂ hSound₂ hExtends₂ hrs
      exact gives_pure hSound₂ (Forest.shows_cons_iff.mpr
        ⟨hr.extend hSound₁ hExtends₂, hrs⟩)

/- The order has a test for every bit of the signals. -/
def Covers
    (Γ : Var → Prop)
    (order : List String) :
    Prop :=
  ∀ v, Γ v → ∀ i, i < v.width → v.testName i ∈ order

theorem gives_signal
    (hSound : forest.Sound)
    (hOrder : Covers Γ forest.order)
    {v : Var}
    (hv : Γ v) :
    Gives (signal v) forest (fun rs forest' =>
      forest'.Shows Γ rs v.width
        (fun i τ => (τ v.name).testBit i)) := by
  unfold signal
  by_cases hOne : v.width = 1
  · have hName : v.testName 0 = v.name := if_pos hOne
    have hi : 0 < v.width := by
      omega
    rw [if_pos hOne, hOne, ← hName]
    apply (gives_test hSound hv hi (hOrder v hv 0 hi)).bind
    intro r forest' hSound' _ hr
    rw [hName]
    exact gives_pure hSound'
      (Forest.shows_cons_iff.mpr ⟨hr, Forest.shows_nil⟩)
  · rw [if_neg hOne]
    have hTests : Gives
        ((List.range v.width).mapM fun i => test (bitName v.name i))
        forest (fun rs forest' =>
          forest'.Shows Γ rs (List.range v.width).length
            (fun i τ => (τ v.name).testBit i)) := by
      apply gives_tests _ hSound
      intro i j hj forest' hSound' hExtends
      rcases List.getElem?_eq_some_iff.mp hj with ⟨hi, hEq⟩
      rw [List.length_range] at hi
      rw [List.getElem_range] at hEq
      have hName : bitName v.name j = v.testName i := by
        rw [Var.testName, if_neg hOne, hEq]
      rw [hName]
      apply gives_test hSound' hv hi
      rw [hExtends.order_eq]
      exact hOrder v hv i hi
    rw [List.length_range] at hTests
    exact hTests

/- Two operands of one width, and what is made of them. -/
theorem gives_operands
    {β : Type}
    {ma mb : Building (List Ref)}
    {width : Nat}
    {F G : Nat → (String → Nat) → Bool}
    (hOrder : Covers Γ forest.order)
    (ha : ∀ ⦃forest : Forest⦄, forest.Sound →
      Covers Γ forest.order →
      Gives ma forest (fun rs forest' =>
        forest'.Shows Γ rs width F))
    (hb : ∀ ⦃forest : Forest⦄, forest.Sound →
      Covers Γ forest.order →
      Gives mb forest (fun rs forest' =>
        forest'.Shows Γ rs width G))
    {node : String}
    {k : List Ref → List Ref → Building β}
    {Q : β → Forest → Prop}
    (hk : ∀ xs ys forest', forest'.Sound → forest.Extends forest' →
      forest'.Shows Γ xs width F → forest'.Shows Γ ys width G →
      Gives (k xs ys) forest' Q)
    (hSound : forest.Sound) :
    Gives (do
      let xs ← ma
      let ys ← mb
      checkBits node xs ys
      k xs ys) forest Q := by
  apply (ha hSound hOrder).bind
  intro xs forest₁ hSound₁ hExtends₁ hxs
  apply (hb hSound₁ (hExtends₁.order_eq ▸ hOrder)).bind
  intro ys forest₂ hSound₂ hExtends₂ hys
  have hCheck : checkBits node xs ys = pure () := by
    rw [checkBits, hxs.length_eq, hys.length_eq, if_pos rfl]
  rw [hCheck]
  have hPass : Gives (pure () : Building Unit) forest₂
      (fun _ forest' => forest' = forest₂) :=
    gives_pure hSound₂ rfl
  apply hPass.bind
  rintro _ _ _ _ rfl
  exact hk xs ys _ hSound₂ (hExtends₁.trans hExtends₂)
    (hxs.extend hSound₁ hExtends₂) hys

end Building

namespace Expr

open Building

variable {Γ : Var → Prop}
variable {forest : Forest}

/-
  An expression has diagrams, one for each bit, in every
  forest whose order has the tests it needs.
-/
def HasDiagrams
    (Γ : Var → Prop)
    (e : Expr) :
    Prop :=
  ∀ ⦃forest : Forest⦄, forest.Sound → Covers Γ forest.order →
    Gives e.diagrams forest (fun rs forest' =>
      forest'.Shows Γ rs e.width
        (fun i τ => (e.value τ).testBit i))

/- Parts side by side, the last one lowest. -/
theorem gives_diagramsAll
    {parts : List Expr}
    (hParts : ∀ p ∈ parts, HasDiagrams Γ p)
    (hSound : forest.Sound)
    (hOrder : Covers Γ forest.order) :
    Gives (diagramsAll parts) forest (fun rs forest' =>
      forest'.Shows Γ rs (totalWidth parts)
        (fun i τ => partsBit τ parts i)) := by
  induction parts generalizing forest with
  | nil => exact gives_pure hSound Forest.shows_nil
  | cons p ps ih =>
      rw [diagramsAll]
      apply (ih (fun q hq => hParts q (List.mem_cons_of_mem _ hq))
        hSound hOrder).bind
      intro low forest₁ hSound₁ hExtends₁ hLow
      apply (hParts p (List.mem_cons_self ..) hSound₁
        (hExtends₁.order_eq ▸ hOrder)).bind
      intro high forest₂ hSound₂ hExtends₂ hHigh
      apply gives_pure hSound₂
      constructor
      · rw [List.length_append, hLow.length_eq, hHigh.length_eq,
          totalWidth, Nat.add_comm]
      · intro i r hr
        rw [List.getElem?_append, hLow.length_eq] at hr
        split at hr
        case isTrue hi =>
            apply ((hLow.has i r hr).extend hSound₁ hExtends₂).congr
            intro τ
            rw [partsBit, if_pos hi]
        case isFalse hi =>
            apply (hHigh.has _ r hr).congr
            intro τ
            rw [partsBit, if_neg hi]

/- The bits of a constant are constants. -/
theorem shows_const
    {m : Mark}
    {c : Const}
    (he : (const m c).Typed Γ)
    (hSound : forest.Sound) :
    forest.Shows Γ
      ((List.range c.width).map fun i => Ref.ofBool (c.bitAt i))
      c.width (fun i τ => ((const m c).value τ).testBit i) := by
  refine ⟨by rw [List.length_map, List.length_range], ?_⟩
  intro i r hr
  rw [List.getElem?_map] at hr
  rcases Option.map_eq_some_iff.mp hr with ⟨j, hj, rfl⟩
  rcases List.getElem?_eq_some_iff.mp hj with ⟨hi, hEq⟩
  rw [List.length_range] at hi
  rw [List.getElem_range] at hEq
  subst hEq
  have hBit : ∀ τ, c.bitAt i =
      ((const m c).value τ).testBit i := by
    intro τ
    have hMax : i < maxWidth := Nat.lt_of_lt_of_le hi he.2.1
    rw [value_const he, Const.bitAt, decide_eq_true hMax,
      Bool.true_and]
  unfold Ref.ofBool
  cases hc : c.bitAt i with
  | true =>
      exact (has_one hSound).congr (fun τ => hc ▸ hBit τ)
  | false =>
      exact (has_zero hSound).congr (fun τ => hc ▸ hBit τ)

/- Operands are equal when all their bits agree. -/
theorem allAgree_eq
    {m : Mark}
    {op : CmpOp}
    {a b : Expr}
    (he : (compare m op a b).Typed Γ)
    (τ : String → Nat) :
    allAgree
        (fun i τ => (a.value τ).testBit i)
        (fun i τ => (b.value τ).testBit i) τ a.width =
      (a.value τ == b.value τ) := by
  rcases he with ⟨ha, hb, hWidths⟩
  apply Bool.eq_iff_iff.mpr
  rw [allAgree_iff, beq_iff_eq]
  constructor
  · exact eq_of_bits_lt (ha.value_lt τ) (hWidths ▸ hb.value_lt τ)
  · intro hEq i _
    rw [hEq]

/- The diagrams of a gate join those of its operands. -/
theorem hasDiagrams_gate
    {m : Mark}
    {op : GateOp}
    {a b : Expr}
    (he : (gate m op a b).Typed Γ)
    (ha : HasDiagrams Γ a)
    (hb : HasDiagrams Γ b) :
    HasDiagrams Γ (gate m op a b) := by
  intro forest hSound hOrder
  have hWidths : b.width = a.width := he.2.2.symm
  unfold HasDiagrams at hb
  rw [hWidths] at hb
  rw [diagrams]
  apply gives_operands hOrder ha hb _ hSound
  intro xs ys forest' hSound' _ hxs hys
  apply (gives_zipBits
    (fun h _ hx hy => gives_gate h op hx hy) hSound'
    (Forest.Extends.refl forest') hxs hys).imp
  intro rs forest'' hShows
  apply hShows.congr
  intro i hi τ
  exact (testBit_value_gate he τ hi).symm

/- A comparison is one diagram, of all bits that agree. -/
theorem hasDiagrams_compare
    {m : Mark}
    {op : CmpOp}
    {a b : Expr}
    (he : (compare m op a b).Typed Γ)
    (ha : HasDiagrams Γ a)
    (hb : HasDiagrams Γ b) :
    HasDiagrams Γ (compare m op a b) := by
  intro forest hSound hOrder
  have hWidths : b.width = a.width := he.2.2.symm
  unfold HasDiagrams at hb
  rw [hWidths] at hb
  rw [diagrams]
  apply gives_operands hOrder ha hb _ hSound
  intro xs ys forest' hSound' _ hxs hys
  apply (gives_agree hSound' (has_one hSound') hxs hys).bind
  intro same forest₂ hSound₂ _ hAgree
  have hEq : forest₂.Has Γ same
      (fun τ => a.value τ == b.value τ) :=
    hAgree.congr (fun τ => by rw [Bool.true_and, allAgree_eq he])
  have hLast : ∀ {forest : Forest} {r : Ref},
      forest.Has Γ r (fun τ =>
        op.holds (a.value τ == b.value τ)) →
      forest.Shows Γ [r] 1 (fun i τ =>
        ((compare m op a b).value τ).testBit i) := by
    intro forest r hr
    refine Forest.shows_cons_iff.mpr ⟨?_, Forest.shows_nil⟩
    apply hr.congr
    intro τ
    rw [value_compare he, testBit_zero_toNat]
  cases op with
  | eq => exact gives_pure hSound₂ (hLast hEq)
  | neq =>
      apply (gives_not hSound₂ hEq).bind
      intro r forest₃ hSound₃ _ hr
      exact gives_pure hSound₃ (hLast hr)

/- The one diagram of the selector chooses for each bit. -/
theorem hasDiagrams_mux
    {m : Mark}
    {s t f : Expr}
    (he : (mux m s t f).Typed Γ)
    (hs : HasDiagrams Γ s)
    (ht : HasDiagrams Γ t)
    (hf : HasDiagrams Γ f) :
    HasDiagrams Γ (mux m s t f) := by
  intro forest hSound hOrder
  have hWidths : f.width = t.width := he.2.2.2.2.symm
  unfold HasDiagrams at hf
  rw [hWidths] at hf
  rw [diagrams]
  apply (hs hSound hOrder).bind
  intro selector forest₁ hSound₁ hExtends₁ hSel
  have hOrder₁ : Covers Γ forest₁.order :=
    hExtends₁.order_eq ▸ hOrder
  rw [he.2.2.2.1] at hSel
  rcases hSel.exists_single with ⟨c, rfl, hc⟩
  apply gives_operands hOrder₁ ht hf _ hSound₁
  intro xs ys forest' hSound' hExtends' hxs hys
  have hc' := hc.extend hSound₁ hExtends'
  apply (gives_zipBits
    (fun h hExtends hx hy => gives_ite h
      (hc'.extend hSound' hExtends) hx hy)
    hSound' (Forest.Extends.refl forest') hxs hys).imp
  intro rs forest'' hShows
  apply hShows.congr
  intro i hi τ
  rw [value_mux he]
  cases (s.value τ).testBit 0 <;> rfl

/- A part select takes some of the diagrams of its operand. -/
theorem hasDiagrams_part
    {m : Mark}
    {b : Expr}
    {h l : Nat}
    (he : (part m b h l).Typed Γ)
    (hb : HasDiagrams Γ b) :
    HasDiagrams Γ (part m b h l) := by
  intro forest hSound hOrder
  rw [diagrams]
  apply (hb hSound hOrder).bind
  intro bits forest' hSound' _ hBits
  have hInside : max h l < b.width := he.2
  have hLength := hBits.length_eq
  rw [hLength, if_pos hInside]
  apply gives_pure hSound'
  constructor
  · rw [List.length_take, List.length_drop, hLength]
    change min (max h l - min h l + 1) _ =
      max h l - min h l + 1
    omega
  · intro i r hr
    have hi : i < (part m b h l).width := by
      have hLt := (List.getElem?_eq_some_iff.mp hr).1
      rw [List.length_take] at hLt
      exact Nat.lt_of_lt_of_le hLt (Nat.min_le_left _ _)
    have hTaken : i < max h l - min h l + 1 := hi
    rw [List.getElem?_take, if_pos hTaken,
      List.getElem?_drop] at hr
    apply (hBits.has _ r hr).congr
    intro τ
    exact (testBit_value_part he τ hi).symm

/- Every typed expression has diagrams. -/
theorem gives_diagrams
    {e : Expr}
    (he : e.Typed Γ) :
    HasDiagrams Γ e := by
  induction e with
  | const m c =>
      intro forest hSound _
      rw [diagrams]
      exact gives_pure hSound (shows_const he hSound)
  | var m v =>
      intro forest hSound hOrder
      rw [diagrams]
      apply (gives_signal hSound hOrder he.2.2).imp
      intro rs forest' hShows
      apply hShows.congr
      intro i hi τ
      exact (testBit_and_mask he.2.1 hi _).symm
  | not m x ih =>
      intro forest hSound hOrder
      rw [diagrams]
      apply (ih he.1 hSound hOrder).bind
      intro bits forest' hSound' _ hBits
      apply (gives_mapBits (fun h hb => gives_not h hb) hSound'
        hBits).imp
      intro rs forest'' hShows
      apply hShows.congr
      intro i hi τ
      rw [he.2] at hi
      rw [Nat.lt_one_iff.mp hi]
      exact (testBit_value_not he τ).symm
  | gate m op a b iha ihb =>
      exact hasDiagrams_gate he (iha he.1) (ihb he.2.1)
  | compare m op a b iha ihb =>
      exact hasDiagrams_compare he (iha he.1) (ihb he.2.1)
  | mux m s t f ihs iht ihf =>
      exact hasDiagrams_mux he (ihs he.1) (iht he.2.1) (ihf he.2.2.1)
  | bit m b i ih =>
      intro forest hSound hOrder
      rw [diagrams]
      apply (ih he.1 hSound hOrder).bind
      intro bits forest' hSound' _ hBits
      have hi : i < bits.length := by
        rw [hBits.length_eq]
        exact he.2
      rw [List.getElem?_eq_getElem hi]
      apply gives_pure hSound'
      refine Forest.shows_cons_iff.mpr ⟨?_, Forest.shows_nil⟩
      apply (hBits.has i _ (List.getElem?_eq_getElem hi)).congr
      intro τ
      exact (testBit_value_bit τ).symm
  | part m b h l ih => exact hasDiagrams_part he (ih he.1)
  | concat m parts ih =>
      intro forest hSound hOrder
      rw [diagrams]
      apply (gives_diagramsAll
        (fun p hp => ih p hp (typedAll_iff.mp he.1 p hp))
        hSound hOrder).imp
      intro rs forest' hShows
      apply hShows.congr
      intro i hi τ
      exact (testBit_value_concat he τ hi).symm

end Expr

end Gatework
