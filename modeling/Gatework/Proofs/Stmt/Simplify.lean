import Gatework.Proofs.Expr.Known
import Gatework.Proofs.Stmt.Typing
import Gatework.Stmt.Exec
import Gatework.Stmt.Reshape

/-
  Other forms of the expressions in a statement.

  Conditions, selectors and values are replaced one by one;
  targets and labels stay, so a statement keeps what it
  writes. When each new expression has the value of the old
  one wherever that has a value, execution is the same.

  Key theorems include:
    * `Stmt.typed_mapExprs`
    * `Stmt.run_mapExprs`
    * `simplify_preserves`
-/

------------------------------------------------------------
-- Lists of statements and arms
------------------------------------------------------------

namespace Gatework

namespace Stmt

variable {f : Expr → Expr}

theorem mapExprsAll_eq_map
    (ss : List Stmt) :
    mapExprsAll f ss = ss.map (mapExprs f) := by
  induction ss with
  | nil => rfl
  | cons s ss ih => rw [mapExprsAll, List.map_cons, ih]

theorem mapExprsArms_eq_map
    (arms : List (Arm Stmt)) :
    mapExprsArms f arms =
      arms.map fun arm =>
        ⟨arm.labels, arm.isDefault, mapExprs f arm.body⟩ := by
  induction arms with
  | nil => rfl
  | cons arm arms ih =>
      rcases arm with ⟨labels, isDefault, body⟩
      rw [mapExprsArms, List.map_cons, ih]

/- The check of arms looks at labels, not at bodies. -/
theorem check_mapExprsArms
    (arms : List (Arm Stmt)) :
    Arm.check (mapExprsArms f arms) = Arm.check arms := by
  have hDefaults :
      ((mapExprsArms f arms).filter Arm.isDefault).length =
        (arms.filter Arm.isDefault).length := by
    rw [mapExprsArms_eq_map, List.filter_map, List.length_map]
    rfl
  unfold Arm.check
  rw [hDefaults]
  congr 1
  clear hDefaults
  induction arms with
  | nil => rfl
  | cons arm arms ih =>
      rcases arm with ⟨labels, isDefault, body⟩
      rw [mapExprsArms, List.forM, List.forM, ih]

end Stmt

end Gatework

------------------------------------------------------------
-- Written names
------------------------------------------------------------

namespace Gatework

namespace Stmt

variable {f : Expr → Expr}

theorem writesAll_mapExprs
    {ss : List Stmt}
    (hAll : ∀ s ∈ ss, (s.mapExprs f).writes = s.writes)
    (seen : VarSet) :
    writesAll seen (mapExprsAll f ss) = writesAll seen ss := by
  induction ss generalizing seen with
  | nil => rfl
  | cons s ss ih =>
      rw [mapExprsAll, writesAll, writesAll,
        hAll s (List.mem_cons_self ..),
        ih (fun t ht => hAll t (List.mem_cons_of_mem _ ht))]

theorem writesArms_mapExprs
    {arms : List (Arm Stmt)}
    (hAll : ∀ arm ∈ arms,
      (arm.body.mapExprs f).writes = arm.body.writes)
    (seen : VarSet) :
    writesArms seen (mapExprsArms f arms) =
      writesArms seen arms := by
  induction arms generalizing seen with
  | nil => rfl
  | cons arm arms ih =>
      have hHead := hAll arm (List.mem_cons_self ..)
      rcases arm with ⟨labels, isDefault, body⟩
      rw [mapExprsArms, writesArms, writesArms, hHead,
        ih (fun other h => hAll other (List.mem_cons_of_mem _ h))]

/- Targets stay, so the same signals are written. -/
theorem writes_mapExprs
    (s : Stmt) :
    (s.mapExprs f).writes = s.writes := by
  induction s with
  | assign a => rfl
  | ifThen c t ih => exact ih
  | ifElse c t e iht ihe =>
      rw [mapExprs, writes, writes, iht, ihe]
  | case s arms ih => exact writesArms_mapExprs ih []
  | block ss ih => exact writesAll_mapExprs ih []

end Stmt

end Gatework

------------------------------------------------------------
-- Typing
------------------------------------------------------------

namespace Gatework

namespace Stmt

variable {Γ : Var → Prop}
variable {f : Expr → Expr}

/- A statement with expressions in another form is typed. -/
theorem typed_mapExprs
    (hf : ∀ e : Expr, e.Typed Γ → Expr.Keeps Γ e (f e))
    {s : Stmt}
    (hs : s.Typed Γ) :
    (s.mapExprs f).Typed Γ := by
  induction s with
  | assign a =>
      rcases hs with ⟨hTarget, hValue, hWidths⟩
      have hNew := hf a.value hValue
      exact ⟨hTarget, hNew.typed, hWidths.trans hNew.width_eq.symm⟩
  | ifThen c t ih =>
      rcases hs with ⟨hc, hWidth, ht⟩
      have hNew := hf c hc
      exact ⟨hNew.typed, hNew.width_eq.trans hWidth, ih ht⟩
  | ifElse c t e iht ihe =>
      rcases hs with ⟨hc, hWidth, ht, he⟩
      have hNew := hf c hc
      exact ⟨hNew.typed, hNew.width_eq.trans hWidth, iht ht,
        ihe he⟩
  | case s arms ih =>
      rcases hs with ⟨hSelector, hCheck, hArms⟩
      refine ⟨(hf s hSelector).typed, ?_, typedArms_iff.mpr ?_⟩
      · rw [check_mapExprsArms]
        exact hCheck
      · rw [mapExprsArms_eq_map]
        intro other hOther
        rcases List.mem_map.mp hOther with ⟨arm, hArm, rfl⟩
        exact ih arm hArm (typedArms_iff.mp hArms arm hArm)
  | block ss ih =>
      apply typedAll_iff.mpr
      rw [mapExprsAll_eq_map]
      intro other hOther
      rcases List.mem_map.mp hOther with ⟨s, hMem, rfl⟩
      exact ih s hMem (typedAll_iff.mp hs s hMem)

end Stmt

end Gatework

------------------------------------------------------------
-- Execution
------------------------------------------------------------

namespace Gatework

namespace Stmt

variable {f : Expr → Expr}
variable {ρ : Valuation}
variable {p : Fallback}

theorem runAll_mapExprs
    {ss : List Stmt}
    (hAll : ∀ s ∈ ss, ∀ w w', run ρ p w s = .ok w' →
      run ρ p w (s.mapExprs f) = .ok w')
    {w w' : Written}
    (hRun : runAll ρ p w ss = .ok w') :
    runAll ρ p w (mapExprsAll f ss) = .ok w' := by
  induction ss generalizing w with
  | nil => exact hRun
  | cons s ss ih =>
      rw [runAll, bind_eq_ok_iff] at hRun
      rcases hRun with ⟨next, hFirst, hRest⟩
      rw [mapExprsAll, runAll, bind_eq_ok_iff]
      exact ⟨next, hAll s (List.mem_cons_self ..) w next hFirst,
        ih (fun t ht => hAll t (List.mem_cons_of_mem _ ht)) hRest⟩

/- No arm is picked before, so none is afterwards. -/
theorem runArm_mapExprs_none
    {picked : Arm Unit → Bool}
    {arms : List (Arm Stmt)}
    {w : Written}
    (hRun : runArm ρ p w picked arms = none) :
    runArm ρ p w picked (mapExprsArms f arms) = none := by
  induction arms with
  | nil => rfl
  | cons arm arms ih =>
      rcases arm with ⟨labels, isDefault, body⟩
      rw [runArm] at hRun
      rw [mapExprsArms, runArm]
      split at hRun
      case isTrue => cases hRun
      case isFalse hPicked =>
          rw [if_neg hPicked]
          exact ih hRun

/- The same arm is picked, and it runs as before. -/
theorem runArm_mapExprs_some
    {picked : Arm Unit → Bool}
    {arms : List (Arm Stmt)}
    (hAll : ∀ arm ∈ arms, ∀ w w', run ρ p w arm.body = .ok w' →
      run ρ p w (arm.body.mapExprs f) = .ok w')
    {w w' : Written}
    (hRun : runArm ρ p w picked arms = some (.ok w')) :
    runArm ρ p w picked (mapExprsArms f arms) =
      some (.ok w') := by
  induction arms with
  | nil => cases hRun
  | cons arm arms ih =>
      have hHead := hAll arm (List.mem_cons_self ..) w w'
      rcases arm with ⟨labels, isDefault, body⟩
      rw [runArm] at hRun
      rw [mapExprsArms, runArm]
      split at hRun
      case isTrue hPicked =>
          rw [if_pos hPicked]
          exact congrArg some (hHead (Option.some.inj hRun))
      case isFalse hPicked =>
          rw [if_neg hPicked]
          exact ih (fun other h =>
            hAll other (List.mem_cons_of_mem _ h)) hRun

/-
  Execution stays when every expression keeps its width and
  the value it has. A case compares labels at the width of
  its selector.
-/
theorem run_mapExprs
    {Γ : Var → Prop}
    (hWidth : ∀ e : Expr, e.Typed Γ → (f e).width = e.width)
    (hEval : ∀ e : Expr, e.Typed Γ → ∀ ρ x,
      e.eval ρ = .ok x → (f e).eval ρ = .ok x)
    {s : Stmt}
    (hs : s.Typed Γ)
    {w w' : Written}
    (hRun : run ρ p w s = .ok w') :
    run ρ p w (s.mapExprs f) = .ok w' := by
  induction s generalizing w w' with
  | assign a =>
      rw [run, Assign.exec, bind_eq_ok_iff] at hRun
      rcases hRun with ⟨x, hx, hWrite⟩
      rw [mapExprs, run, Assign.exec, bind_eq_ok_iff]
      exact ⟨x, hEval a.value hs.2.1 _ x hx, hWrite⟩
  | ifThen c t ih =>
      rw [run, bind_eq_ok_iff] at hRun
      rcases hRun with ⟨x, hx, hBranch⟩
      rw [mapExprs, run, bind_eq_ok_iff, writes_mapExprs]
      refine ⟨x, hEval c hs.1 _ x hx, ?_⟩
      split at hBranch
      case isTrue hBit =>
          rw [if_pos hBit]
          exact ih hs.2.2 hBranch
      case isFalse hBit =>
          rw [if_neg hBit]
          exact hBranch
  | ifElse c t e iht ihe =>
      rw [run, bind_eq_ok_iff] at hRun
      rcases hRun with ⟨x, hx, hBranch⟩
      rw [mapExprs, run, bind_eq_ok_iff]
      refine ⟨x, hEval c hs.1 _ x hx, ?_⟩
      split at hBranch
      case isTrue hBit =>
          rw [if_pos hBit]
          exact iht hs.2.2.1 hBranch
      case isFalse hBit =>
          rw [if_neg hBit]
          exact ihe hs.2.2.2 hBranch
  | case s arms ih =>
      have hArms : ∀ arm ∈ arms, ∀ w w',
          run ρ p w arm.body = .ok w' →
          run ρ p w (arm.body.mapExprs f) = .ok w' :=
        fun arm hArm w w' =>
          ih arm hArm (typedArms_iff.mp hs.2.2 arm hArm)
      rw [run, bind_eq_ok_iff] at hRun
      rcases hRun with ⟨x, hx, hPick⟩
      rw [mapExprs, run, bind_eq_ok_iff, hWidth s hs.1,
        writesArms_mapExprs (fun arm _ => writes_mapExprs arm.body)]
      refine ⟨x, hEval s hs.1 _ x hx, ?_⟩
      -- A labelled arm, else the default, else the fallback.
      cases hHit : runArm ρ p w (hits s.width x) arms with
      | some result =>
          simp only [hHit] at hPick
          subst hPick
          rw [runArm_mapExprs_some hArms hHit]
      | none =>
          rw [runArm_mapExprs_none hHit]
          simp only [hHit] at hPick
          cases hDefault : runArm ρ p w Arm.isDefault arms with
          | some result =>
              simp only [hDefault] at hPick
              subst hPick
              simp only [runArm_mapExprs_some hArms hDefault]
          | none =>
              simp only [hDefault] at hPick
              simp only [runArm_mapExprs_none hDefault]
              exact hPick
  | block ss ih =>
      rw [run] at hRun
      rw [mapExprs, run]
      exact runAll_mapExprs
        (fun s hMem w w' =>
          ih s hMem (typedAll_iff.mp hs s hMem)) hRun

end Stmt

end Gatework

------------------------------------------------------------
-- Simplification
------------------------------------------------------------

namespace Gatework

namespace Expr

/- The signals of a tree that refines another one. -/
theorem Refines.mem_freeVars
    {e e' : Expr}
    (h : Refines (· ∈ e.occurrences) e e')
    (hOne : OneWidth (· ∈ e.occurrences))
    {v : Var}
    (hv : v ∈ e'.freeVars) :
    ∃ u ∈ e.freeVars, u.name = v.name ∧ u.width = v.width := by
  have hOccurs : v ∈ e.occurrences :=
    h.typed.mem (mem_occurrences_of_mem_freeVars hv)
  have hName : v.name ∈ e.freeVars.names :=
    (mem_names_freeVars e v.name).mpr (List.mem_map_of_mem hOccurs)
  rcases List.mem_map.mp hName with ⟨u, hu, hEq⟩
  exact ⟨u, hu, hEq,
    hOne u v (mem_occurrences_of_mem_freeVars hu) hOccurs hEq⟩

end Expr

/-
  Simplification preserves types and meaning. A simplified
  expression is valid, has the same width, reads no further
  signals and has every value the expression has, also where
  some signals have none. A simplified statement is valid and
  writes what the statement writes.
-/
theorem simplify_preserves :
    (∀ e : Expr, e.validate = .ok () →
      OneWidth (· ∈ e.occurrences) →
      e.simplify.validate = .ok () ∧
      e.simplify.width = e.width ∧
      (∀ v ∈ e.simplify.freeVars, ∃ u ∈ e.freeVars,
        u.name = v.name ∧ u.width = v.width) ∧
      ∀ ρ x, e.eval ρ = .ok x → e.simplify.eval ρ = .ok x) ∧
    ∀ s : Stmt, s.validate = .ok () → OneWidth s.Mentions →
      s.simplify.validate = .ok () ∧
      ∀ ρ p w, s.exec ρ p = .ok w → s.simplify.exec ρ p = .ok w := by
  constructor
  · intro e hValid hOne
    have he : e.Typed (· ∈ e.occurrences) :=
      Expr.typed_of_validate hValid (fun _ hv => hv)
    have hNew := Expr.refines_simplify hOne he
    have hNamed : ∀ v ∈ e.occurrences, v.HasName :=
      fun v hv => (Expr.validate_eq_ok_iff.mp hValid).mem hv
    exact ⟨hNew.typed.validate hNamed, hNew.width_eq,
      fun v hv => hNew.mem_freeVars hOne hv,
      fun ρ x hx => hNew.eval hx⟩
  · intro s hValid hOne
    have hs : s.Typed (fun v => s.Mentions v ∧ v.HasName) :=
      (Stmt.validate_eq_ok_iff.mp hValid).mono
        (fun v hv hName => ⟨hv, hName⟩)
    have hOneNamed : OneWidth (fun v => s.Mentions v ∧ v.HasName) :=
      fun v u hv hu => hOne v u hv.1 hu.1
    have hNew : ∀ e : Expr,
        e.Typed (fun v => s.Mentions v ∧ v.HasName) →
        Expr.Refines (fun v => s.Mentions v ∧ v.HasName) e e.simplify :=
      fun e he => Expr.refines_simplify hOneNamed he
    constructor
    · apply Stmt.validate_eq_ok_iff.mpr
      exact (Stmt.typed_mapExprs (fun e he => (hNew e he).toKeeps)
        hs).mono (fun _ _ hv => hv.2)
    · intro ρ p w hExec
      exact Stmt.run_mapExprs (fun e he => (hNew e he).width_eq)
        (fun e he ρ x hx => (hNew e he).eval hx) hs hExec

/-
  A choice whose selector and first side simplify, and whose
  second side reads a signal of its own.
-/
def oneSided : Expr :=
  .mux none
    (.gate none .and (.var none ⟨"s", 1, false⟩) (.ofNat 1 1))
    (.gate none .xor (.var none ⟨"a", 2, false⟩)
      (.var none ⟨"a", 2, false⟩))
    (.var none ⟨"b", 2, false⟩)

/- The choice, assigned and then read back. -/
def assignedOneSided : Stmt :=
  .block [
    .assign ⟨.whole ⟨"y", 2, false⟩, oneSided⟩,
    .ifThen (.not none (.bit none (.var none ⟨"y", 2, false⟩) 0))
      (.assign ⟨.bit ⟨"z", 2, false⟩ 1, .ofNat 1 1⟩)]

/- The signal of the second side has no value. -/
def firstSide : Valuation
  | "s" => some 1
  | "a" => some 3
  | "z" => some 1
  | _ => none

theorem simplify_preserves_oneSided :
    oneSided.simplify.eval firstSide = .ok 0 ∧
      oneSided.simplify.freeVars.names = ["b", "s"] ∧
      ∃ w, assignedOneSided.simplify.exec firstSide .hold = .ok w ∧
        w.find? "y" = some 0 ∧ w.find? "z" = some 3 := by
  have hOne : ∀ v ∈ oneSided.occurrences, ∀ u ∈ oneSided.occurrences,
      v.name = u.name → v.width = u.width := by
    decide
  have hExpr := simplify_preserves.1 oneSided rfl
    (fun v u hv hu => hOne v hv u hu)
  have hStmt := simplify_preserves.2 assignedOneSided rfl
    (Stmt.oneWidth_mentions_iff.mpr (by decide))
  refine ⟨hExpr.2.2.2 firstSide 0 rfl, by decide +kernel, ?_⟩
  exact ⟨_, hStmt.2 firstSide .hold _ rfl, rfl, rfl⟩

end Gatework
