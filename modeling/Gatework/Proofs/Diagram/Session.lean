import Gatework.Diagram.Build
import Gatework.Proofs.Diagram.Ite
import Gatework.Proofs.Expr.Typing

/-
  Sessions: calls on one forest, one after the other.

  Every call, also one that fails on the way, comes down to
  finitely many tests of signals and runs of if-then-else on
  references returned before. Each of these keeps the forest
  sound and the functions of older references.

  Key definitions include:
    * `Forest.Steps`, tests and runs of if-then-else
    * `Forest.Call`
    * `Forest.Session`

  Key theorems include:
    * `Forest.Holding.steps`
    * `Forest.Call.run_steps`
    * `Forest.session_invariant`
-/

------------------------------------------------------------
-- Steps
------------------------------------------------------------

namespace Gatework

namespace Forest

/-
  Tests of signals and runs of if-then-else on references at
  hand, which results are added to.
-/
inductive Steps :
    Forest → List Ref → Forest → List Ref → Prop where
  | done {forest : Forest} {refs : List Ref} :
      Steps forest refs forest refs
  | test {forest forest' : Forest} {refs refs' : List Ref}
      {name : String} {level : Nat}
      (hLevel : forest.level? name = some level)
      (hRest : Steps
        (forest.makeNode level Ref.zero Ref.one).2
        ((forest.makeNode level Ref.zero Ref.one).1 :: refs)
        forest' refs') :
      Steps forest refs forest' refs'
  | ite {forest forest₁ forest' : Forest} {refs refs' : List Ref}
      {f g h r : Ref}
      (hf : f ∈ refs) (hg : g ∈ refs) (hh : h ∈ refs)
      (hRun : IteRuns forest f g h r forest₁)
      (hRest : Steps forest₁ (r :: refs) forest' refs') :
      Steps forest refs forest' refs'

theorem Steps.trans
    {forest forest₁ forest' : Forest}
    {refs refs₁ refs' : List Ref}
    (hFirst : Steps forest refs forest₁ refs₁)
    (hThen : Steps forest₁ refs₁ forest' refs') :
    Steps forest refs forest' refs' := by
  induction hFirst with
  | done => exact hThen
  | test hLevel _ ih => exact .test hLevel (ih hThen)
  | ite hf hg hh hRun _ ih => exact .ite hf hg hh hRun (ih hThen)

/- A sound forest that has all references at hand. -/
structure Holding
    (forest : Forest)
    (refs : List Ref) :
    Prop where
  sound : forest.Sound
  zero_mem : Ref.zero ∈ refs
  one_mem : Ref.one ∈ refs
  lt : ∀ r ∈ refs, r < forest.size

theorem holding_ofOrder
    (order : List String) :
    (ofOrder order).Holding [Ref.zero, Ref.one] where
  sound := sound_ofOrder order
  zero_mem := List.mem_cons_self ..
  one_mem := List.mem_cons_of_mem _ (List.mem_cons_self ..)
  lt := by
    intro r hr
    rcases List.mem_cons.mp hr with rfl | hRest
    · exact Nat.zero_lt_two
    · rw [List.mem_singleton.mp hRest]
      exact Nat.one_lt_two

/- The place of a signal is the place of what it holds. -/
theorem signal_of_level?
    {forest : Forest}
    {name : String}
    {level : Nat}
    (hLevel : forest.level? name = some level) :
    forest.signal level = name := by
  have hFound := (lastPlace?_eq_some hLevel).2
  rw [Nat.sub_zero] at hFound
  unfold signal
  rw [List.getD_eq_getElem?_getD, hFound, Option.getD_some]

/- The test of a signal is the function of its value. -/
theorem test_makes
    {forest : Forest}
    (hSound : forest.Sound)
    {name : String}
    {level : Nat}
    (hLevel : forest.level? name = some level) :
    forest.Makes level (fun ν => ν name)
      (forest.makeNode level Ref.zero Ref.one).1
      (forest.makeNode level Ref.zero Ref.one).2 := by
  have hSignal := signal_of_level? hLevel
  have hZero : Ref.zero < forest.size :=
    Nat.lt_of_lt_of_le Nat.zero_lt_two hSound.two_le
  have hOne : Ref.one < forest.size :=
    Nat.lt_of_lt_of_le Nat.one_lt_two hSound.two_le
  have hBelow : ∀ {f : Ref}, f < 2 → level < forest.levelOf f := by
    intro f hf
    rw [hSound.levelOf_constant hf]
    exact lastPlace?_lt hLevel
  have hMade := makeNode_makes hSound (hSignal ▸ hLevel) hZero hOne
    (hBelow Nat.zero_lt_two) (hBelow Nat.one_lt_two)
  apply hMade.congr
  intro ν
  rw [hSignal, eval_zero, eval_one]
  cases ν name <;> rfl

namespace Holding

variable {forest forest' : Forest}
variable {refs refs' : List Ref}

theorem cons
    (hHold : forest.Holding refs)
    {level : Nat}
    {function : (String → Bool) → Bool}
    {r : Ref}
    (hMade : forest.Makes level function r forest') :
    forest'.Holding (r :: refs) where
  sound := hMade.sound
  zero_mem := List.mem_cons_of_mem _ hHold.zero_mem
  one_mem := List.mem_cons_of_mem _ hHold.one_mem
  lt := by
    intro s hs
    rcases List.mem_cons.mp hs with rfl | hOld
    · exact hMade.r_lt
    · exact hMade.extend.lt (hHold.lt s hOld)

/- Steps keep the forest sound and only add to it. -/
theorem steps
    (hHold : forest.Holding refs)
    (hSteps : Steps forest refs forest' refs') :
    forest'.Holding refs' ∧ forest.Extends forest' ∧
      ∀ r ∈ refs, r ∈ refs' := by
  induction hSteps with
  | done => exact ⟨hHold, Extends.refl _, fun _ hr => hr⟩
  | test hLevel _ ih =>
      have hMade := test_makes hHold.sound hLevel
      rcases ih (hHold.cons hMade) with ⟨hLast, hExtends, hSub⟩
      exact ⟨hLast, hMade.extend.trans hExtends,
        fun r hr => hSub r (List.mem_cons_of_mem _ hr)⟩
  | ite hf hg hh hRun _ ih =>
      have hMade := hRun.makes hHold.sound (hHold.lt _ hf)
        (hHold.lt _ hg) (hHold.lt _ hh)
      rcases ih (hHold.cons hMade) with ⟨hLast, hExtends, hSub⟩
      exact ⟨hLast, hMade.extend.trans hExtends,
        fun r hr => hSub r (List.mem_cons_of_mem _ hr)⟩

end Holding

end Forest

end Gatework

------------------------------------------------------------
-- Building by steps
------------------------------------------------------------

namespace Gatework

namespace Building

variable {α β : Type}
variable {forest : Forest}
variable {refs : List Ref}

/-
  A computation that comes to its end by steps and returns
  references at hand then. It may fail after some steps.
-/
def Performs
    (m : Building α)
    (out : α → List Ref)
    (forest : Forest)
    (refs : List Ref) :
    Prop :=
  ∃ refs', Forest.Steps forest refs (m forest).2 refs' ∧
    ∀ a, (m forest).1 = .ok a → ∀ r ∈ out a, r ∈ refs'

/- One reference. -/
def single : Ref → List Ref :=
  fun r => [r]

/- A list of references. -/
def every : List Ref → List Ref :=
  fun rs => rs

/- A step after another, which is left out on failure. -/
theorem bind_apply
    (m : Building α)
    (f : α → Building β)
    (forest : Forest) :
    (m >>= f) forest =
      match m forest with
      | (.ok a, forest') => f a forest'
      | (.error err, forest') => (.error err, forest') := by
  change (match m forest with
    | (a, s) => ExceptT.bindCont f a s) = _
  rcases m forest with ⟨result, forest'⟩
  cases result <;> rfl

theorem performs_pure
    {out : α → List Ref}
    {a : α}
    (hOut : ∀ r ∈ out a, r ∈ refs) :
    Performs (pure a) out forest refs := by
  refine ⟨refs, .done, ?_⟩
  intro b hb
  cases hb
  exact hOut

theorem performs_throw
    {out : α → List Ref}
    (err : DiagramError) :
    Performs (throw err) out forest refs := by
  refine ⟨refs, .done, ?_⟩
  intro b hb
  cases hb

theorem performs_bind
    {m : Building α}
    {f : α → Building β}
    {out : α → List Ref}
    {out' : β → List Ref}
    (hHold : forest.Holding refs)
    (hm : Performs m out forest refs)
    (hf : ∀ a forest' refs', forest'.Holding refs' →
      (∀ r ∈ refs, r ∈ refs') → (∀ r ∈ out a, r ∈ refs') →
      Performs (f a) out' forest' refs') :
    Performs (m >>= f) out' forest refs := by
  rcases hm with ⟨refs₁, hSteps, hOut⟩
  rcases hHold.steps hSteps with ⟨hHold₁, _, hSub⟩
  unfold Performs
  rw [bind_apply]
  cases hResult : m forest with
  | mk result forest₁ =>
      rw [hResult] at hSteps hOut hHold₁
      cases result with
      | error err =>
          refine ⟨refs₁, hSteps, ?_⟩
          intro b hb
          cases hb
      | ok a =>
          rcases hf a forest₁ refs₁ hHold₁ hSub (hOut a rfl) with
            ⟨refs₂, hRest, hLast⟩
          exact ⟨refs₂, hSteps.trans hRest, hLast⟩

/- A run of if-then-else on references at hand. -/
theorem performs_ite
    (hHold : forest.Holding refs)
    {f g h : Ref}
    (hf : f ∈ refs)
    (hg : g ∈ refs)
    (hh : h ∈ refs) :
    Performs (step fun forest => forest.ite f g h) single
      forest refs := by
  have hRun := Forest.ite_runs hHold.sound (hHold.lt f hf)
    (hHold.lt g hg) (hHold.lt h hh)
  refine ⟨_, .ite hf hg hh hRun .done, ?_⟩
  intro r hr
  cases hr
  intro s hs
  exact List.mem_cons.mpr (Or.inl (List.mem_singleton.mp hs))

theorem performs_not
    (hHold : forest.Holding refs)
    {f : Ref}
    (hf : f ∈ refs) :
    Performs (step fun forest => forest.not f) single
      forest refs :=
  performs_ite hHold hf hHold.zero_mem hHold.one_mem

theorem performs_and
    (hHold : forest.Holding refs)
    {f g : Ref}
    (hf : f ∈ refs)
    (hg : g ∈ refs) :
    Performs (step fun forest => forest.and f g) single
      forest refs :=
  performs_ite hHold hf hg hHold.zero_mem

theorem performs_or
    (hHold : forest.Holding refs)
    {f g : Ref}
    (hf : f ∈ refs)
    (hg : g ∈ refs) :
    Performs (step fun forest => forest.or f g) single
      forest refs :=
  performs_ite hHold hf hHold.one_mem hg

/- Exclusive or is a negation and a choice. -/
theorem step_xor
    (f g : Ref) :
    (step fun forest => forest.xor f g) = (do
      let ng ← step fun forest => forest.not g
      step fun forest => forest.ite f ng g) :=
  rfl

theorem performs_xor
    (hHold : forest.Holding refs)
    {f g : Ref}
    (hf : f ∈ refs)
    (hg : g ∈ refs) :
    Performs (step fun forest => forest.xor f g) single
      forest refs := by
  rw [step_xor]
  apply performs_bind hHold (performs_not hHold hg)
  intro ng forest' refs' hHold' hSub hng
  exact performs_ite hHold' (hSub f hf)
    (hng ng (List.mem_singleton.mpr rfl)) (hSub g hg)

theorem performs_gate
    (hHold : forest.Holding refs)
    (op : GateOp)
    {x y : Ref}
    (hx : x ∈ refs)
    (hy : y ∈ refs) :
    Performs (gate op x y) single forest refs := by
  have hNegated : ∀ {m : Building Ref},
      Performs m single forest refs →
      Performs (do
        let r ← m
        step fun forest => forest.not r) single forest refs := by
    intro m hm
    apply performs_bind hHold hm
    intro r forest' refs' hHold' _ hr
    exact performs_not hHold' (hr r (List.mem_singleton.mpr rfl))
  cases op with
  | and => exact performs_and hHold hx hy
  | or => exact performs_or hHold hx hy
  | xor => exact performs_xor hHold hx hy
  | xnor => exact hNegated (performs_xor hHold hx hy)
  | nand => exact hNegated (performs_and hHold hx hy)
  | nor => exact hNegated (performs_or hHold hx hy)

theorem performs_test
    (forest : Forest)
    (refs : List Ref)
    (name : String) :
    Performs (test name) single forest refs := by
  unfold Performs test
  cases hLevel : forest.level? name with
  | none =>
      refine ⟨refs, .done, ?_⟩
      intro r hr
      cases hr
  | some level =>
      refine ⟨_, .test hLevel .done, ?_⟩
      intro r hr
      cases hr
      intro s hs
      exact List.mem_cons.mpr (Or.inl (List.mem_singleton.mp hs))

/- A step for each element of a list. -/
theorem performs_mapM
    {f : α → Building Ref}
    {xs : List α}
    (hf : ∀ x forest refs, Performs (f x) single forest refs)
    (hHold : forest.Holding refs) :
    Performs (xs.mapM f) every forest refs := by
  induction xs generalizing forest refs with
  | nil =>
      rw [List.mapM_nil]
      exact performs_pure (fun r hr => by cases hr)
  | cons x xs ih =>
      rw [List.mapM_cons]
      apply performs_bind hHold (hf x forest refs)
      intro r forest₁ refs₁ hHold₁ hSub hr
      apply performs_bind hHold₁ (ih hHold₁)
      intro rs forest₂ refs₂ hHold₂ hSub₂ hrs
      apply performs_pure
      intro s hs
      rcases List.mem_cons.mp hs with rfl | hRest
      · exact hSub₂ s (hr s (List.mem_singleton.mpr rfl))
      · exact hrs s hRest

theorem performs_mapBits
    {f : Ref → Building Ref}
    (hf : ∀ x forest refs, forest.Holding refs → x ∈ refs →
      Performs (f x) single forest refs)
    {xs : List Ref}
    (hxs : ∀ x ∈ xs, x ∈ refs)
    (hHold : forest.Holding refs) :
    Performs (mapBits f xs) every forest refs := by
  induction xs generalizing forest refs with
  | nil => exact performs_pure (fun r hr => by cases hr)
  | cons x xs ih =>
      rw [mapBits]
      apply performs_bind hHold
        (hf x forest refs hHold (hxs x (List.mem_cons_self ..)))
      intro r forest₁ refs₁ hHold₁ hSub hr
      have hTail : ∀ y ∈ xs, y ∈ refs₁ :=
        fun y hy => hSub y (hxs y (List.mem_cons_of_mem _ hy))
      apply performs_bind hHold₁ (ih hTail hHold₁)
      intro rs forest₂ refs₂ hHold₂ hSub₂ hrs
      apply performs_pure
      intro s hs
      rcases List.mem_cons.mp hs with rfl | hRest
      · exact hSub₂ s (hr s (List.mem_singleton.mpr rfl))
      · exact hrs s hRest

theorem performs_zipBits
    {f : Ref → Ref → Building Ref}
    {c : Ref}
    (hf : ∀ x y forest refs, forest.Holding refs → c ∈ refs →
      x ∈ refs → y ∈ refs → Performs (f x y) single forest refs)
    {xs ys : List Ref}
    (hc : c ∈ refs)
    (hxs : ∀ x ∈ xs, x ∈ refs)
    (hys : ∀ y ∈ ys, y ∈ refs)
    (hHold : forest.Holding refs) :
    Performs (zipBits f xs ys) every forest refs := by
  induction xs generalizing ys forest refs with
  | nil => exact performs_pure (fun r hr => by cases hr)
  | cons x xs ih =>
      cases ys with
      | nil => exact performs_pure (fun r hr => by cases hr)
      | cons y ys =>
          rw [zipBits]
          apply performs_bind hHold
            (hf x y forest refs hHold hc
              (hxs x (List.mem_cons_self ..))
              (hys y (List.mem_cons_self ..)))
          intro r forest₁ refs₁ hHold₁ hSub hr
          have hTailX : ∀ z ∈ xs, z ∈ refs₁ :=
            fun z hz => hSub z (hxs z (List.mem_cons_of_mem _ hz))
          have hTailY : ∀ z ∈ ys, z ∈ refs₁ :=
            fun z hz => hSub z (hys z (List.mem_cons_of_mem _ hz))
          apply performs_bind hHold₁
            (ih (hSub c hc) hTailX hTailY hHold₁)
          intro rs forest₂ refs₂ hHold₂ hSub₂ hrs
          apply performs_pure
          intro s hs
          rcases List.mem_cons.mp hs with rfl | hRest
          · exact hSub₂ s (hr s (List.mem_singleton.mpr rfl))
          · exact hrs s hRest

theorem performs_agree
    {acc : Ref}
    {xs ys : List Ref}
    (hAcc : acc ∈ refs)
    (hxs : ∀ x ∈ xs, x ∈ refs)
    (hys : ∀ y ∈ ys, y ∈ refs)
    (hHold : forest.Holding refs) :
    Performs (agree acc xs ys) single forest refs := by
  have hStop : ∀ {acc forest refs}, acc ∈ refs →
      Performs (pure acc) single forest refs := by
    intro acc forest refs hMem
    apply performs_pure
    intro r hr
    rw [List.mem_singleton.mp hr]
    exact hMem
  induction xs generalizing ys acc forest refs with
  | nil => exact hStop hAcc
  | cons x xs ih =>
      cases ys with
      | nil => exact hStop hAcc
      | cons y ys =>
          rw [agree]
          apply performs_bind hHold (performs_xor hHold
            (hxs x (List.mem_cons_self ..))
            (hys y (List.mem_cons_self ..)))
          intro d forest₁ refs₁ hHold₁ hSub₁ hd
          apply performs_bind hHold₁ (performs_not hHold₁
            (hd d (List.mem_singleton.mpr rfl)))
          intro e forest₂ refs₂ hHold₂ hSub₂ he
          apply performs_bind hHold₂ (performs_and hHold₂
            (hSub₂ acc (hSub₁ acc hAcc))
            (he e (List.mem_singleton.mpr rfl)))
          intro acc' forest₃ refs₃ hHold₃ hSub₃ hAcc'
          have hSub : ∀ r ∈ refs, r ∈ refs₃ :=
            fun r hr => hSub₃ r (hSub₂ r (hSub₁ r hr))
          exact ih (hAcc' acc' (List.mem_singleton.mpr rfl))
            (fun z hz => hSub z (hxs z (List.mem_cons_of_mem _ hz)))
            (fun z hz => hSub z (hys z (List.mem_cons_of_mem _ hz)))
            hHold₃

theorem performs_signal
    (hHold : forest.Holding refs)
    (v : Var) :
    Performs (signal v) every forest refs := by
  unfold signal
  split
  · apply performs_bind hHold (performs_test forest refs v.name)
    intro r forest' refs' _ _ hr
    exact performs_pure hr
  · apply performs_mapM _ hHold
    intro i forest' refs'
    exact performs_test forest' refs' (bitName v.name i)

theorem performs_checkBits
    (node : String)
    (xs ys : List Ref) :
    Performs (checkBits node xs ys) (fun _ => []) forest refs := by
  unfold checkBits
  split
  · exact performs_pure (fun r hr => by cases hr)
  · exact performs_throw _

/- Two operands of one length, and what is made of them. -/
theorem performs_operands
    {ma mb : Building (List Ref)}
    (ha : ∀ forest refs, forest.Holding refs →
      Performs ma every forest refs)
    (hb : ∀ forest refs, forest.Holding refs →
      Performs mb every forest refs)
    {node : String}
    {k : List Ref → List Ref → Building β}
    {out : β → List Ref}
    (hk : ∀ xs ys forest' refs', forest'.Holding refs' →
      (∀ r ∈ refs, r ∈ refs') → (∀ x ∈ xs, x ∈ refs') →
      (∀ y ∈ ys, y ∈ refs') → Performs (k xs ys) out forest' refs')
    (hHold : forest.Holding refs) :
    Performs (do
      let xs ← ma
      let ys ← mb
      checkBits node xs ys
      k xs ys) out forest refs := by
  apply performs_bind hHold (ha forest refs hHold)
  intro xs forest₁ refs₁ hHold₁ hSub₁ hxs
  apply performs_bind hHold₁ (hb forest₁ refs₁ hHold₁)
  intro ys forest₂ refs₂ hHold₂ hSub₂ hys
  apply performs_bind hHold₂ (performs_checkBits node xs ys)
  intro _ forest₃ refs₃ hHold₃ hSub₃ _
  exact hk xs ys forest₃ refs₃ hHold₃
    (fun r hr => hSub₃ r (hSub₂ r (hSub₁ r hr)))
    (fun x hx => hSub₃ x (hSub₂ x (hxs x hx)))
    (fun y hy => hSub₃ y (hys y hy))

theorem performs_diagramsAll
    {parts : List Expr}
    (hParts : ∀ p ∈ parts, ∀ forest refs, forest.Holding refs →
      Performs p.diagrams every forest refs)
    (hHold : forest.Holding refs) :
    Performs (Expr.diagramsAll parts) every forest refs := by
  induction parts generalizing forest refs with
  | nil => exact performs_pure (fun r hr => by cases hr)
  | cons p ps ih =>
      rw [Expr.diagramsAll]
      apply performs_bind hHold
        (ih (fun q hq => hParts q (List.mem_cons_of_mem _ hq)) hHold)
      intro low forest₁ refs₁ hHold₁ _ hLow
      apply performs_bind hHold₁
        (hParts p (List.mem_cons_self ..) forest₁ refs₁ hHold₁)
      intro high forest₂ refs₂ _ hSub hHigh
      apply performs_pure
      intro r hr
      rcases List.mem_append.mp hr with h | h
      · exact hSub r (hLow r h)
      · exact hHigh r h

/- The diagrams of any expression are made by steps. -/
theorem performs_diagrams
    (e : Expr)
    (hHold : forest.Holding refs) :
    Performs e.diagrams every forest refs := by
  induction e generalizing forest refs with
  | const m c =>
      apply performs_pure
      intro r hr
      rcases List.mem_map.mp hr with ⟨i, _, rfl⟩
      unfold Ref.ofBool
      split
      · exact hHold.one_mem
      · exact hHold.zero_mem
  | var m v => exact performs_signal hHold v
  | not m x ih =>
      rw [Expr.diagrams]
      apply performs_bind hHold (ih hHold)
      intro bits forest' refs' hHold' _ hBits
      exact performs_mapBits
        (fun b forest refs hHold hb => performs_not hHold hb)
        hBits hHold'
  | gate m op a b iha ihb =>
      rw [Expr.diagrams]
      apply performs_operands (fun _ _ h => iha h)
        (fun _ _ h => ihb h) _ hHold
      intro xs ys forest' refs' hHold' _ hxs hys
      exact performs_zipBits
        (fun x y forest refs hHold _ hx hy =>
          performs_gate hHold op hx hy)
        hHold'.zero_mem hxs hys hHold'
  | compare m op a b iha ihb =>
      rw [Expr.diagrams]
      apply performs_operands (fun _ _ h => iha h)
        (fun _ _ h => ihb h) _ hHold
      intro xs ys forest' refs' hHold' _ hxs hys
      apply performs_bind hHold'
        (performs_agree hHold'.one_mem hxs hys hHold')
      intro same forest₂ refs₂ hHold₂ _ hSame
      cases op with
      | eq => exact performs_pure hSame
      | neq =>
          apply performs_bind hHold₂ (performs_not hHold₂
            (hSame same (List.mem_singleton.mpr rfl)))
          intro r forest₃ refs₃ _ _ hr
          exact performs_pure hr
  | mux m s t f ihs iht ihf =>
      rw [Expr.diagrams]
      apply performs_bind hHold (ihs hHold)
      intro selector forest₁ refs₁ hHold₁ _ hSel
      match selector with
      | [] => exact performs_throw _
      | [c] =>
          apply performs_operands (fun _ _ h => iht h)
            (fun _ _ h => ihf h) _ hHold₁
          intro xs ys forest' refs' hHold' hSub hxs hys
          exact performs_zipBits
            (fun x y forest refs hHold hc hx hy =>
              performs_ite hHold hc hx hy)
            (hSub c (hSel c (List.mem_singleton.mpr rfl)))
            hxs hys hHold'
      | _ :: _ :: _ => exact performs_throw _
  | bit m b i ih =>
      rw [Expr.diagrams]
      apply performs_bind hHold (ih hHold)
      intro bits forest' refs' _ _ hBits
      cases hFound : bits[i]? with
      | none => exact performs_throw _
      | some r =>
          apply performs_pure
          intro s hs
          rw [List.mem_singleton.mp hs]
          exact hBits r (List.mem_of_getElem? hFound)
  | part m b h l ih =>
      rw [Expr.diagrams]
      apply performs_bind hHold (ih hHold)
      intro bits forest' refs' _ _ hBits
      split
      · apply performs_pure
        intro r hr
        exact hBits r (List.mem_of_mem_drop (List.mem_of_mem_take hr))
      · exact performs_throw _
  | concat m parts ih =>
      rw [Expr.diagrams]
      exact performs_diagramsAll (fun p hp _ _ h => ih p hp h) hHold

end Building

end Gatework

------------------------------------------------------------
-- Calls
------------------------------------------------------------

namespace Gatework

namespace Forest

/- A call on a forest. -/
inductive Call where
  | var (name : String)
  | not (f : Ref)
  | and (f g : Ref)
  | or (f g : Ref)
  | xor (f g : Ref)
  | ite (f g h : Ref)
  | build (e : Expr)

namespace Call

/- The references a call is given. -/
def arguments : Call → List Ref
  | var _ => []
  | not f => [f]
  | and f g => [f, g]
  | or f g => [f, g]
  | xor f g => [f, g]
  | ite f g h => [f, g, h]
  | build _ => []

/- The references a call returns, or an error. -/
def run
    (forest : Forest) :
    Call → Except DiagramError (List Ref) × Forest
  | var name =>
      let (result, forest') := forest.var name
      (result.map fun r => [r], forest')
  | not f =>
      let (r, forest') := forest.not f
      (.ok [r], forest')
  | and f g =>
      let (r, forest') := forest.and f g
      (.ok [r], forest')
  | or f g =>
      let (r, forest') := forest.or f g
      (.ok [r], forest')
  | xor f g =>
      let (r, forest') := forest.xor f g
      (.ok [r], forest')
  | ite f g h =>
      let (r, forest') := forest.ite f g h
      (.ok [r], forest')
  | build e => forest.build e

/- The references of a result; none if the call failed. -/
def returned : Except DiagramError (List Ref) → List Ref
  | .ok refs => refs
  | .error _ => []

/- Every call comes to its end by steps. -/
theorem run_steps
    {forest : Forest}
    {refs : List Ref}
    (hHold : forest.Holding refs)
    {c : Call}
    (hArgs : ∀ f ∈ c.arguments, f ∈ refs) :
    ∃ refs', Steps forest refs (c.run forest).2 refs' ∧
      ∀ r ∈ returned (c.run forest).1, r ∈ refs' := by
  have hStep : ∀ {f : Forest → Ref × Forest},
      Building.Performs (Building.step f) Building.single
        forest refs →
      ∃ refs', Steps forest refs (f forest).2 refs' ∧
        ∀ r ∈ returned (.ok [(f forest).1]), r ∈ refs' := by
    rintro f ⟨refs', hSteps, hOut⟩
    exact ⟨refs', hSteps, hOut _ rfl⟩
  cases c with
  | var name =>
      rcases Building.performs_test forest refs name with
        ⟨refs', hSteps, hOut⟩
      refine ⟨refs', hSteps, ?_⟩
      change ∀ r ∈ returned
        ((Building.test name forest).1.map fun r => [r]), r ∈ refs'
      cases hResult : (Building.test name forest).1 with
      | error err =>
          intro r hr
          cases hr
      | ok r => exact hOut r hResult
  | not f =>
      exact hStep (Building.performs_not hHold
        (hArgs f (List.mem_cons_self ..)))
  | and f g =>
      exact hStep (Building.performs_and hHold
        (hArgs f (by simp [arguments]))
        (hArgs g (by simp [arguments])))
  | or f g =>
      exact hStep (Building.performs_or hHold
        (hArgs f (by simp [arguments]))
        (hArgs g (by simp [arguments])))
  | xor f g =>
      exact hStep (Building.performs_xor hHold
        (hArgs f (by simp [arguments]))
        (hArgs g (by simp [arguments])))
  | ite f g h =>
      exact hStep (Building.performs_ite hHold
        (hArgs f (by simp [arguments]))
        (hArgs g (by simp [arguments]))
        (hArgs h (by simp [arguments])))
  | build e =>
      rcases Building.performs_diagrams e hHold with
        ⟨refs', hSteps, hOut⟩
      refine ⟨refs', hSteps, ?_⟩
      change ∀ r ∈ returned (e.diagrams forest).1, r ∈ refs'
      cases hResult : (e.diagrams forest).1 with
      | error err =>
          intro r hr
          cases hr
      | ok bits => exact hOut bits hResult

end Call

end Forest

end Gatework

------------------------------------------------------------
-- Sessions
------------------------------------------------------------

namespace Gatework

namespace Forest

/-
  Calls one after the other, each on references returned
  before. Results are added to the references at hand.
-/
inductive Session :
    Forest → List Ref → Forest → List Ref → Prop where
  | done {forest : Forest} {refs : List Ref} :
      Session forest refs forest refs
  | call {forest forest' : Forest} {refs refs' : List Ref}
      (c : Call)
      (hArgs : ∀ f ∈ c.arguments, f ∈ refs)
      (hRest : Session (c.run forest).2
        (refs ++ Call.returned (c.run forest).1) forest' refs') :
      Session forest refs forest' refs'

theorem Holding.call
    {forest : Forest}
    {refs : List Ref}
    (hHold : forest.Holding refs)
    {c : Call}
    (hArgs : ∀ f ∈ c.arguments, f ∈ refs) :
    (c.run forest).2.Holding
        (refs ++ Call.returned (c.run forest).1) ∧
      forest.Extends (c.run forest).2 := by
  rcases Call.run_steps hHold hArgs with ⟨refs', hSteps, hOut⟩
  rcases hHold.steps hSteps with ⟨hLast, hExtends, _⟩
  refine ⟨⟨hLast.sound, ?_, ?_, ?_⟩, hExtends⟩
  · exact List.mem_append_left _ hHold.zero_mem
  · exact List.mem_append_left _ hHold.one_mem
  · intro r hr
    rcases List.mem_append.mp hr with hOld | hNew
    · exact hExtends.lt (hHold.lt r hOld)
    · exact hLast.lt r (hOut r hNew)

theorem Holding.session
    {forest forest' : Forest}
    {refs refs' : List Ref}
    (hHold : forest.Holding refs)
    (hSession : Session forest refs forest' refs') :
    forest'.Holding refs' ∧ forest.Extends forest' := by
  induction hSession with
  | done => exact ⟨hHold, Extends.refl _⟩
  | call c hArgs _ ih =>
      rcases hHold.call hArgs with ⟨hNext, hExtends⟩
      rcases ih hNext with ⟨hLast, hRest⟩
      exact ⟨hLast, hExtends.trans hRest⟩

/-
  After any session the forest is sound and stores no test
  twice; references are equal exactly if their functions are;
  every further call comes to its end by steps, each a single
  test or a finished run of if-then-else; and the references
  at hand keep their functions in every session that follows.
-/
theorem session_invariant
    {order : List String}
    {forest : Forest}
    {refs : List Ref}
    (hSession : Session (ofOrder order) [Ref.zero, Ref.one]
      forest refs) :
    forest.Sound ∧
      (∀ f g, 2 ≤ f → f < forest.size → 2 ≤ g →
        g < forest.size → forest.node f = forest.node g →
        f = g) ∧
      (∀ r ∈ refs, r < forest.size) ∧
      (∀ f g, f < forest.size → g < forest.size →
        (f = g ↔ ∀ ν, forest.eval ν f = forest.eval ν g)) ∧
      (∀ c : Call, (∀ f ∈ c.arguments, f ∈ refs) →
        ∃ refs', Steps forest refs (c.run forest).2 refs' ∧
          ∀ r ∈ Call.returned (c.run forest).1, r ∈ refs') ∧
      ∀ forest' refs', Session forest refs forest' refs' →
        ∀ r ∈ refs, ∀ ν,
          forest'.eval ν r = forest.eval ν r := by
  have hHold := ((holding_ofOrder order).session hSession).1
  refine ⟨hHold.sound, ?_, hHold.lt, ?_, ?_, ?_⟩
  · intro f g hLeF hf hLeG hg hNode
    exact hHold.sound.node_inj hLeF hf hLeG hg hNode
  · intro f g hf hg
    exact hHold.sound.eq_iff_eval_eq hf hg
  · intro c hArgs
    exact Call.run_steps hHold hArgs
  · intro forest' refs' hLater r hr ν
    exact hHold.sound.eval_eq (hHold.session hLater).2
      (hHold.lt r hr) ν

/-
  The test of a signal, a build that fails on its second
  operand, and the negation of the test.
-/
theorem session_invariant_failedBuild :
    ∃ forest refs,
      Session (ofOrder ["a"]) [Ref.zero, Ref.one] forest refs ∧
      2 ∈ refs ∧ forest.Sound ∧
      ∀ r ∈ refs, (r = 2 ↔
        ∀ ν, forest.eval ν r = forest.eval ν 2) := by
  let a : Expr := .var none ⟨"a", 1, false⟩
  let b : Expr := .var none ⟨"b", 1, false⟩
  have hTest : ((Call.var "a").run (ofOrder ["a"])).1 =
      .ok [2] := by
    simp [Call.run, Forest.var, Building.test, level?, lastPlace?,
      makeNode, ofOrder, Ref.zero, Ref.one]
    rfl
  have hMem : ∀ rest : List Ref,
      2 ∈ [Ref.zero, Ref.one] ++ Call.returned
        ((Call.var "a").run (ofOrder ["a"])).1 ++ rest := by
    intro rest
    rw [hTest]
    exact List.mem_append_left _ (by decide)
  have hNone : ∀ {refs : List Ref}, ∀ f ∈ ([] : List Ref),
      f ∈ refs :=
    fun f hf => by cases hf
  have hTwo : ∀ {rest}, ∀ f ∈ (Call.not 2).arguments,
      f ∈ [Ref.zero, Ref.one] ++ Call.returned
        ((Call.var "a").run (ofOrder ["a"])).1 ++ rest := by
    intro rest f hf
    rw [List.mem_singleton.mp hf]
    exact hMem rest
  have hSession : Session (ofOrder ["a"]) [Ref.zero, Ref.one]
      _ _ :=
    .call (.var "a") hNone
      (.call (.build (.gate none .and a b)) hNone
        (.call (.not 2) hTwo .done))
  rcases session_invariant hSession with
    ⟨hSound, _, hLt, hEqual, _⟩
  refine ⟨_, _, hSession, List.mem_append_left _ (hMem _),
    hSound, ?_⟩
  intro r hr
  exact hEqual r 2 (hLt r hr)
    (hLt 2 (List.mem_append_left _ (hMem _)))

end Forest

end Gatework
