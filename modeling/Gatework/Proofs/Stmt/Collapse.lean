import Gatework.Proofs.Expr.Known
import Gatework.Proofs.Stmt.Reshape

/-
  An `if` with `else` as one assignment.

  Collapsing looks through blocks of one statement and takes
  the branches of every `if` together. It succeeds just if no
  `else` is missing on the way and all branches end in
  assignments to the same bits. The assignment it gives runs
  as the `if` does, down to the signal reported as unbound: a
  multiplexer reads the side it selects and no other.

  Key definitions include:
    * `Stmt.unwrapped`, a statement without blocks of one
    * `Stmt.Reaches`, what branches and blocks of one lead to
    * `Stmt.Uniform`, branches that end in one target

  Key theorems include:
    * `Stmt.collapse_eq_ok_iff`
    * `Stmt.run_collapse`
    * `Stmt.toMux_exact`
-/

------------------------------------------------------------
-- Equal targets
------------------------------------------------------------

namespace Gatework

namespace Target

variable {t u v : Target}

theorem same_refl
    (t : Target) :
    t.same t = true := by
  cases t <;> simp [same, toExpr, Expr.same]

theorem same_symm
    (h : t.same u = true) :
    u.same t = true := by
  cases t <;> cases u <;>
    simp_all [same, toExpr, Expr.same]

theorem same_trans
    (h : t.same u = true)
    (h' : u.same v = true) :
    t.same v = true := by
  cases t <;> cases u <;> cases v <;>
    simp_all [same, toExpr, Expr.same]

end Target

end Gatework

------------------------------------------------------------
-- Branches
------------------------------------------------------------

namespace Gatework

namespace Stmt

/- The statement inside blocks of one. -/
def unwrapped : Stmt → Stmt
  | block [s] => unwrapped s
  | s => s

/- An `if`, with or without `else`. -/
def isIf : Stmt → Bool
  | ifThen _ _ => true
  | ifElse _ _ _ => true
  | _ => false

/- Neither an `if` nor a block of one statement. -/
def isLeaf : Stmt → Bool
  | ifThen _ _ => false
  | ifElse _ _ _ => false
  | block [_] => false
  | _ => true

/-
  What is reached from a statement through the branches of
  `if` statements and through blocks of one statement.
-/
inductive Reaches : Stmt → Stmt → Prop where
  | self {s : Stmt} : Reaches s s
  | body {c : Expr} {t u : Stmt} :
      Reaches t u → Reaches (ifThen c t) u
  | onTrue {c : Expr} {t e u : Stmt} :
      Reaches t u → Reaches (ifElse c t e) u
  | onFalse {c : Expr} {t e u : Stmt} :
      Reaches e u → Reaches (ifElse c t e) u
  | only {s u : Stmt} : Reaches s u → Reaches (block [s]) u

/-
  Every `if` that is reached has an `else`, every leaf is an
  assignment, and all of these have the same target.
-/
structure Uniform
    (s : Stmt) :
    Prop where
  hasElse : ∀ c t, ¬ s.Reaches (ifThen c t)
  assigns : ∀ u, s.Reaches u → u.isLeaf = true →
    ∃ a, u = assign a
  oneTarget : ∀ a b, s.Reaches (assign a) → s.Reaches (assign b) →
    a.target.same b.target = true

variable {s t e : Stmt}
variable {c : Expr}
variable {a b : Assign}

/- What leads to a uniform statement's parts is uniform. -/
theorem Uniform.of_reaches
    (hs : s.Uniform)
    (hSub : ∀ u, t.Reaches u → s.Reaches u) :
    t.Uniform where
  hasElse := fun c u h => hs.hasElse c u (hSub _ h)
  assigns := fun u h => hs.assigns u (hSub u h)
  oneTarget := fun a b ha hb =>
    hs.oneTarget a b (hSub _ ha) (hSub _ hb)

theorem uniform_assign
    (a : Assign) :
    (assign a).Uniform where
  hasElse := by
    intro c t h
    cases h
  assigns := by
    intro u h _
    cases h
    exact ⟨a, rfl⟩
  oneTarget := by
    intro x y hx hy
    cases hx
    cases hy
    exact Target.same_refl a.target

/- A block of one is uniform just if its statement is. -/
theorem uniform_only :
    (block [s]).Uniform ↔ s.Uniform := by
  constructor
  · intro h
    exact h.of_reaches (fun u hu => hu.only)
  · intro h
    refine ⟨?_, ?_, ?_⟩
    · intro c t hReach
      cases hReach with
      | only hIn => exact h.hasElse c t hIn
    · intro u hReach hLeaf
      cases hReach with
      | self => cases hLeaf
      | only hIn => exact h.assigns u hIn hLeaf
    · intro a b ha hb
      cases ha with
      | only ha =>
          cases hb with
          | only hb => exact h.oneTarget a b ha hb

/-
  An `if` with `else` is uniform just if both branches are
  and the targets of one are the targets of the other.
-/
theorem uniform_ifElse :
    (ifElse c t e).Uniform ↔
      t.Uniform ∧ e.Uniform ∧
        ∀ a b, t.Reaches (assign a) → e.Reaches (assign b) →
          a.target.same b.target = true := by
  constructor
  · intro h
    refine ⟨h.of_reaches (fun u hu => hu.onTrue),
      h.of_reaches (fun u hu => hu.onFalse), ?_⟩
    intro a b ha hb
    exact h.oneTarget a b ha.onTrue hb.onFalse
  · intro h
    have hTrue := h.1
    have hFalse := h.2.1
    have hBoth := h.2.2
    refine ⟨?_, ?_, ?_⟩
    · intro d u hReach
      cases hReach with
      | onTrue hIn => exact hTrue.hasElse d u hIn
      | onFalse hIn => exact hFalse.hasElse d u hIn
    · intro u hReach hLeaf
      cases hReach with
      | self => cases hLeaf
      | onTrue hIn => exact hTrue.assigns u hIn hLeaf
      | onFalse hIn => exact hFalse.assigns u hIn hLeaf
    · intro a b ha hb
      cases ha with
      | onTrue ha =>
          cases hb with
          | onTrue hb => exact hTrue.oneTarget a b ha hb
          | onFalse hb => exact hBoth a b ha hb
      | onFalse ha =>
          cases hb with
          | onTrue hb => exact Target.same_symm (hBoth b a hb ha)
          | onFalse hb => exact hFalse.oneTarget a b ha hb

end Stmt

end Gatework

------------------------------------------------------------
-- When collapsing succeeds
------------------------------------------------------------

namespace Gatework

namespace Stmt

variable {s t e : Stmt}
variable {c : Expr}
variable {a b : Assign}

/- Both branches collapse, and they have the same target. -/
theorem collapse_ifElse_eq_ok_iff :
    (ifElse c t e).collapse = .ok a ↔
      ∃ x y, t.collapse = .ok x ∧ e.collapse = .ok y ∧
        x.target.same y.target = true ∧
        a = ⟨x.target, Expr.choose c x.value y.value⟩ := by
  rw [collapse, bind_eq_ok_iff]
  constructor
  · intro h
    rcases h with ⟨x, hx, hRest⟩
    rcases bind_eq_ok_iff.mp hRest with ⟨y, hy, hEnd⟩
    by_cases hSame : x.target.same y.target = true
    · rw [if_pos hSame] at hEnd
      exact ⟨x, y, hx, hy, hSame, (Except.ok.inj hEnd).symm⟩
    · rw [if_neg hSame] at hEnd
      cases hEnd
  · intro h
    rcases h with ⟨x, y, hx, hy, hSame, hEq⟩
    refine ⟨x, hx, bind_eq_ok_iff.mpr ⟨y, hy, ?_⟩⟩
    rw [if_pos hSame, hEq]
    rfl

/- The target is the one of an assignment that is reached. -/
theorem target_of_collapse
    (h : s.collapse = .ok a) :
    ∃ b, s.Reaches (assign b) ∧ b.target = a.target := by
  induction s generalizing a with
  | assign b =>
      cases h
      exact ⟨b, .self, rfl⟩
  | ifThen c t ih => cases h
  | ifElse c t e iht ihe =>
      rcases collapse_ifElse_eq_ok_iff.mp h with
        ⟨x, y, hx, _, _, hEq⟩
      rcases iht hx with ⟨b, hReach, hTarget⟩
      refine ⟨b, hReach.onTrue, ?_⟩
      rw [hTarget, hEq]
  | case s arms ih => cases h
  | block ss ih =>
      cases ss with
      | nil => cases h
      | cons s rest =>
          cases rest with
          | nil =>
              rw [collapse] at h
              rcases ih s (List.mem_singleton_self s) h with
                ⟨b, hReach, hTarget⟩
              exact ⟨b, hReach.only, hTarget⟩
          | cons next rest => cases h

/- A leaf that is not an assignment is not uniform. -/
theorem not_uniform_of_isLeaf
    (hLeaf : s.isLeaf = true)
    (hOther : ∀ a, s ≠ assign a) :
    ¬ s.Uniform := by
  intro h
  rcases h.assigns s .self hLeaf with ⟨a, hEq⟩
  exact hOther a hEq

/- Uniform branches are those that are one assignment. -/
theorem collapse_eq_ok_iff :
    (∃ a, s.collapse = .ok a) ↔ s.Uniform := by
  induction s with
  | assign b =>
      constructor
      · intro _
        exact uniform_assign b
      · intro _
        exact ⟨b, rfl⟩
  | ifThen c t ih =>
      constructor
      · intro h
        rcases h with ⟨a, ha⟩
        cases ha
      · intro h
        exact absurd .self (h.hasElse c t)
  | ifElse c t e iht ihe =>
      rw [uniform_ifElse, ← iht, ← ihe]
      constructor
      · intro h
        rcases h with ⟨a, ha⟩
        rcases collapse_ifElse_eq_ok_iff.mp ha with
          ⟨x, y, hx, hy, hSame, _⟩
        refine ⟨⟨x, hx⟩, ⟨y, hy⟩, ?_⟩
        -- Targets are compared through the ones that are kept.
        intro p q hp hq
        rcases target_of_collapse hx with ⟨x', hx', hLeft⟩
        rcases target_of_collapse hy with ⟨y', hy', hRight⟩
        have hFirst := (iht.mp ⟨x, hx⟩).oneTarget p x' hp hx'
        have hLast := (ihe.mp ⟨y, hy⟩).oneTarget y' q hy' hq
        rw [hLeft] at hFirst
        rw [hRight] at hLast
        exact Target.same_trans hFirst
          (Target.same_trans hSame hLast)
      · intro h
        rcases h with ⟨⟨x, hx⟩, ⟨y, hy⟩, hSame⟩
        rcases target_of_collapse hx with ⟨x', hx', hLeft⟩
        rcases target_of_collapse hy with ⟨y', hy', hRight⟩
        have hTargets := hSame x' y' hx' hy'
        rw [hLeft, hRight] at hTargets
        exact ⟨_, collapse_ifElse_eq_ok_iff.mpr
          ⟨x, y, hx, hy, hTargets, rfl⟩⟩
  | case s arms ih =>
      constructor
      · intro h
        rcases h with ⟨a, ha⟩
        cases ha
      · intro h
        exact absurd h (not_uniform_of_isLeaf rfl (by simp))
  | block ss ih =>
      cases ss with
      | nil =>
          constructor
          · intro h
            rcases h with ⟨a, ha⟩
            cases ha
          · intro h
            exact absurd h (not_uniform_of_isLeaf rfl (by simp))
      | cons s rest =>
          cases rest with
          | nil =>
              rw [uniform_only, ← ih s (List.mem_singleton_self s)]
              rw [collapse]
          | cons next rest =>
              constructor
              · intro h
                rcases h with ⟨a, ha⟩
                cases ha
              · intro h
                exact absurd h (not_uniform_of_isLeaf rfl (by simp))

/-
  An `if` inside blocks of one is made an assignment just if
  its branches can be taken together.
-/
theorem toMux_eq_ok_iff
    {s' : Stmt} :
    s.toMux = .ok s' ↔
      s.unwrapped.isIf = true ∧
        ∃ a, s.collapse = .ok a ∧ s' = assign a := by
  induction s with
  | assign b => simp [toMux, unwrapped, isIf]
  | ifThen c t ih => simp [toMux, collapse, Except.map]
  | ifElse c t e iht ihe =>
      have hUnwrapped : (ifElse c t e).unwrapped = ifElse c t e :=
        rfl
      rw [toMux, hUnwrapped, isIf]
      cases collapse (ifElse c t e) with
      | error x => simp [Except.map]
      | ok a => simp [Except.map, eq_comm]
  | case s arms ih => simp [toMux, unwrapped, isIf]
  | block ss ih =>
      cases ss with
      | nil => simp [toMux, unwrapped, isIf]
      | cons s rest =>
          cases rest with
          | nil =>
              rw [toMux, unwrapped, collapse]
              exact ih s (List.mem_singleton_self s)
          | cons next rest => simp [toMux, unwrapped, isIf]

end Stmt

end Gatework

------------------------------------------------------------
-- Execution
------------------------------------------------------------

namespace Gatework

variable {Γ : Var → Prop}
variable {ρ : Valuation}

/- A choice is the side that its selector picks. -/
theorem Expr.eval_choose
    {c x y : Expr}
    (hTyped : (Expr.choose c x y).Typed Γ)
    (ρ : Valuation) :
    (Expr.choose c x y).eval ρ =
      (do
        let v ← c.eval ρ
        if v.testBit 0 then x.eval ρ else y.eval ρ) := by
  have hx := hTyped.2.1
  have hy := hTyped.2.2.1
  have hWidths : x.width = y.width := hTyped.2.2.2.2
  -- The cut to the common width changes neither side.
  have hCut : ∀ z : Expr, z.Typed Γ → z.width = x.width →
      (do
        let v ← z.eval ρ
        return v &&& mask x.width) = z.eval ρ := by
    intro z hz hWidth
    cases hEval : z.eval ρ with
    | error u => rfl
    | ok v =>
        have hValue := (eval_eq_ok_iff.mp hEval).2
        have hSmall : v < 2 ^ x.width := by
          rw [← hValue, ← hWidth]
          exact hz.value_lt ρ.filled
        rw [ok_bind, and_mask_of_lt hx.width_le hSmall]
        rfl
  rw [choose, eval]
  cases c.eval ρ with
  | error u => rfl
  | ok v =>
      rw [ok_bind, ok_bind]
      by_cases hBit : v.testBit 0 = true
      · rw [if_pos hBit, if_pos hBit]
        exact hCut x hx rfl
      · rw [if_neg hBit, if_neg hBit]
        exact hCut y hy hWidths.symm

/- Equal bits are given equal values, or the same is missed. -/
theorem Assign.exec_congr
    {a b : Assign}
    (hTarget : a.target.Alike b.target)
    {w : Written}
    (hValue : a.value.eval (w.onTop ρ) = b.value.eval (w.onTop ρ)) :
    a.exec ρ w = b.exec ρ w := by
  have hName : a.var.name = b.var.name := hTarget.name_eq
  have hWidth : a.var.width = b.var.width := hTarget.signal_eq
  unfold Assign.exec
  rw [hValue, hName, hWidth, hTarget.low_eq, hTarget.width_eq]

namespace Stmt

variable {p : Fallback}

theorem run_only
    (w : Written)
    (s : Stmt) :
    run ρ p w (block [s]) = run ρ p w s := by
  rw [run, runAll]
  cases run ρ p w s with
  | error u => rfl
  | ok w' => rfl

/-
  The assignment runs as the branches do. The induction is on
  the branches; each `if` on the way selects the same side as
  the multiplexer that stands for it.
-/
theorem run_collapse
    (hOne : OneWidth Γ)
    {s : Stmt}
    (hs : s.Typed Γ)
    {a : Assign}
    (hCollapse : s.collapse = .ok a)
    (w : Written) :
    a.exec ρ w = run ρ p w s := by
  induction s generalizing a with
  | assign b =>
      cases hCollapse
      rw [run]
  | ifThen c t ih => cases hCollapse
  | ifElse c t e iht ihe =>
      rcases collapse_ifElse_eq_ok_iff.mp hCollapse with
        ⟨x, y, hx, hy, hSame, hEq⟩
      have hTrue := redoes_collapse hOne hs.2.2.1 hx
      have hFalse := redoes_collapse hOne hs.2.2.2 hy
      have hAlike : x.target.Alike y.target :=
        Target.alike_of_same hOne hTrue.typed.1 hFalse.typed.1
          hSame
      have hMux := (redoes_collapse hOne hs hCollapse).typed.2.1
      rw [hEq] at hMux
      have hChoice := Expr.eval_choose hMux (w.onTop ρ)
      rw [run, ← iht hs.2.2.1 hx, ← ihe hs.2.2.2 hy, hEq]
      cases hCond : c.eval (w.onTop ρ) with
      | error u =>
          rw [hCond] at hChoice
          unfold Assign.exec
          rw [hChoice]
          rfl
      | ok v =>
          rw [hCond, ok_bind] at hChoice
          rw [ok_bind]
          by_cases hBit : v.testBit 0 = true
          · rw [if_pos hBit] at hChoice
            rw [if_pos hBit]
            apply Assign.exec_congr
            · exact Target.Alike.refl x.target
            · exact hChoice
          · rw [if_neg hBit] at hChoice
            rw [if_neg hBit]
            apply Assign.exec_congr
            · exact hAlike
            · exact hChoice
  | case s arms ih => cases hCollapse
  | block ss ih =>
      cases ss with
      | nil => cases hCollapse
      | cons s rest =>
          cases rest with
          | nil =>
              rw [collapse] at hCollapse
              rw [run_only]
              exact ih s (List.mem_singleton_self s) hs.1 hCollapse
          | cons next rest => cases hCollapse

end Stmt

end Gatework

------------------------------------------------------------
-- One assignment
------------------------------------------------------------

namespace Gatework

namespace Stmt

variable {s : Stmt}

/- Blocks of one around a statement make no difference. -/
theorem uniform_unwrapped :
    s.unwrapped.Uniform ↔ s.Uniform := by
  induction s with
  | assign b => rfl
  | ifThen c t ih => rfl
  | ifElse c t e iht ihe => rfl
  | case s arms ih => rfl
  | block ss ih =>
      cases ss with
      | nil => rfl
      | cons s rest =>
          cases rest with
          | nil =>
              rw [unwrapped, uniform_only]
              exact ih s (List.mem_singleton_self s)
          | cons next rest => rfl

/-
  An `if` is made one assignment just if, inside blocks of
  one, it has an `else` at every `if` that is reached and
  assigns the same target at every leaf. The assignment is
  valid and runs as the `if` does, errors included.
-/
theorem toMux_exact
    (hValid : s.validate = .ok ())
    (hOne : OneWidth s.Mentions) :
    ((∃ s', s.toMux = .ok s') ↔
      s.unwrapped.isIf = true ∧ s.unwrapped.Uniform) ∧
    ∀ s', s.toMux = .ok s' →
      s'.validate = .ok () ∧
        ∀ ρ p, s'.exec ρ p = s.exec ρ p := by
  constructor
  · rw [uniform_unwrapped, ← collapse_eq_ok_iff]
    constructor
    · intro h
      rcases h with ⟨s', hMux⟩
      rcases toMux_eq_ok_iff.mp hMux with ⟨hIf, a, ha, _⟩
      exact ⟨hIf, a, ha⟩
    · intro h
      rcases h with ⟨hIf, a, ha⟩
      exact ⟨assign a, toMux_eq_ok_iff.mpr ⟨hIf, a, ha, rfl⟩⟩
  · intro s' hMux
    have hs := typed_named_of_validate hValid
    have hOneNamed : OneWidth (fun v => s.Mentions v ∧ v.HasName) :=
      fun v u hv hu => hOne v u hv.1 hu.1
    rcases toMux_eq_ok_iff.mp hMux with ⟨_, a, ha, hEq⟩
    refine ⟨?_, ?_⟩
    · exact (redoes_toMux hOneNamed hs hMux).typed.validate
        (fun v hv => hv.2)
    · intro ρ p
      rw [hEq]
      exact run_collapse hOneNamed hs ha NameMap.empty

/-
  A block around an `if` that assigns one bit, with another
  `if` in its `else` branch.
-/
def nestedBit : Stmt :=
  let bit : Target := .bit ⟨"y", 2, false⟩ 1
  let signal : String → Expr := fun n => .var none ⟨n, 1, false⟩
  block [ifElse (signal "c")
    (block [assign ⟨bit, signal "a"⟩])
    (block [ifElse (signal "d")
      (assign ⟨bit, signal "b"⟩)
      (assign ⟨bit, signal "e"⟩)])]

/- Both selectors and one of the three values are known. -/
def bitKnown : Valuation
  | "c" => some 0
  | "d" => some 1
  | "b" => some 1
  | "y" => some 1
  | _ => none

/- The inner selector picks a value that is missing. -/
def bitMissing : Valuation
  | "c" => some 0
  | "d" => some 0
  | _ => none

theorem toMux_exact_nestedBit :
    nestedBit.unwrapped.Uniform ∧
    ∃ s', nestedBit.toMux = .ok s' ∧ s'.validate = .ok () ∧
      s'.exec bitKnown .zero = .ok ⟨[("y", 3)]⟩ ∧
      s'.exec bitMissing .hold = .error ⟨"e"⟩ := by
  have hExact := @toMux_exact nestedBit rfl
    (oneWidth_mentions_iff.mpr (by decide))
  rcases hExact.2 _ rfl with ⟨hValid, hExec⟩
  refine ⟨(hExact.1.mp ⟨_, rfl⟩).2, _, rfl, hValid, ?_, ?_⟩
  · rw [hExec]
    rfl
  · rw [hExec]
    rfl

end Stmt

end Gatework
