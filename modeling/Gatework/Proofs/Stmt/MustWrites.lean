import Gatework.Proofs.Stmt.Selection

/-
  What a statement surely writes.

  A case with a default counts two kinds of names: those that
  every labelled arm surely writes, and those that the default
  and some labelled arm surely write. A run that takes the
  default can leave out a name of the first kind, and one that
  takes a labelled arm a name of the second kind. A run that
  takes no such arm writes every name that is counted.

  Key definitions include:
    * `Stmt.Takes`, an arm taken by a run
    * `Stmt.LeavesOut`, an arm without a counted name

  Key theorems include:
    * `Stmt.mem_names_mustWrites_case`
    * `Stmt.run_keeps_writing` and `Stmt.run_keeps`
    * `Stmt.mustWrites_written`
-/

------------------------------------------------------------
-- Sets of names
------------------------------------------------------------

namespace Gatework

namespace VarSet

theorem hasName_eq_true_iff
    {vs : VarSet}
    {n : String} :
    vs.hasName n = true ↔ n ∈ vs.names := by
  simp [hasName, names]

theorem mem_names_inter
    {vs ws : VarSet}
    {n : String} :
    n ∈ (vs.inter ws).names ↔ n ∈ vs.names ∧ n ∈ ws.names := by
  constructor
  · intro hn
    rcases List.mem_map.mp hn with ⟨v, hv, rfl⟩
    rcases List.mem_filter.mp hv with ⟨hFirst, hSecond⟩
    exact ⟨List.mem_map_of_mem hFirst,
      hasName_eq_true_iff.mp hSecond⟩
  · intro hn
    rcases List.mem_map.mp hn.1 with ⟨v, hv, rfl⟩
    exact List.mem_map_of_mem (List.mem_filter.mpr
      ⟨hv, hasName_eq_true_iff.mpr hn.2⟩)

theorem mem_names_foldl_inter
    {first : VarSet}
    {rest : List VarSet}
    {n : String} :
    n ∈ (rest.foldl inter first).names ↔
      ∀ vs ∈ first :: rest, n ∈ vs.names := by
  induction rest generalizing first with
  | nil => simp
  | cons vs rest ih =>
      rw [List.foldl_cons, ih]
      simp [mem_names_inter, and_assoc]

theorem mem_names_foldl_union
    {first : VarSet}
    {rest : List VarSet}
    {n : String} :
    n ∈ (rest.foldl union first).names ↔
      ∃ vs ∈ first :: rest, n ∈ vs.names := by
  induction rest generalizing first with
  | nil => simp
  | cons vs rest ih =>
      rw [List.foldl_cons, ih]
      simp [mem_names_union, or_assoc]

end VarSet

end Gatework

------------------------------------------------------------
-- What is counted
------------------------------------------------------------

namespace Gatework

namespace Stmt

theorem mustDefault_eq
    (arms : List (Arm Stmt)) :
    mustDefault arms =
      (Arm.defaultIn? arms).map (fun arm => arm.body.mustWrites) := by
  unfold Arm.defaultIn?
  induction arms with
  | nil => rfl
  | cons arm arms ih =>
      rcases arm with ⟨labels, isDefault, body⟩
      rw [mustDefault, List.find?_cons]
      cases isDefault with
      | true => rfl
      | false => exact ih

theorem mustLabelled_eq
    (arms : List (Arm Stmt)) :
    mustLabelled arms =
      (Arm.labelledIn arms).map (fun arm => arm.body.mustWrites) := by
  unfold Arm.labelledIn
  induction arms with
  | nil => rfl
  | cons arm arms ih =>
      rcases arm with ⟨labels, isDefault, body⟩
      rw [mustLabelled, List.filter_cons]
      cases isDefault with
      | true => exact ih
      | false => exact congrArg (body.mustWrites :: ·) ih

/-
  A case counts a name if it has a default, and then by the
  default alone where there is no other arm, else because
  every labelled arm has it or the default and one of them.
-/
theorem mem_names_mustWrites_case
    {selector : Expr}
    {arms : List (Arm Stmt)}
    {n : String} :
    n ∈ (case selector arms).mustWrites.names ↔
      ∃ other, Arm.defaultIn? arms = some other ∧
        (Arm.labelledIn arms = [] ∧
            n ∈ other.body.mustWrites.names ∨
          Arm.labelledIn arms ≠ [] ∧
            ((∀ arm ∈ Arm.labelledIn arms,
                n ∈ arm.body.mustWrites.names) ∨
              n ∈ other.body.mustWrites.names ∧
                ∃ arm ∈ Arm.labelledIn arms,
                  n ∈ arm.body.mustWrites.names)) := by
  rw [mustWrites, mustDefault_eq, mustLabelled_eq]
  cases Arm.defaultIn? arms with
  | none => simp [mustOfCase, VarSet.names]
  | some other =>
      cases Arm.labelledIn arms with
      | nil => simp [mustOfCase]
      | cons arm rest =>
          simp only [Option.map_some, List.map_cons, mustOfCase,
            VarSet.mem_names_union, VarSet.mem_names_inter,
            VarSet.mem_names_foldl_inter,
            VarSet.mem_names_foldl_union]
          simp

theorem mem_names_mustWritesAll
    {seen : VarSet}
    {ss : List Stmt}
    {n : String} :
    n ∈ (mustWritesAll seen ss).names ↔
      n ∈ seen.names ∨ ∃ s ∈ ss, n ∈ s.mustWrites.names := by
  induction ss generalizing seen with
  | nil => simp [mustWritesAll]
  | cons s ss ih =>
      rw [mustWritesAll, ih, VarSet.mem_names_union]
      simp [or_assoc]

theorem mem_names_mustWrites_block
    {ss : List Stmt}
    {n : String} :
    n ∈ (block ss).mustWrites.names ↔
      ∃ s ∈ ss, n ∈ s.mustWrites.names := by
  rw [mustWrites, mem_names_mustWritesAll]
  simp [VarSet.names]

end Stmt

end Gatework

------------------------------------------------------------
-- Runs
------------------------------------------------------------

namespace Gatework

namespace Arm

variable {α : Type}
variable {arms : List (Arm α)}
variable {arm : Arm α}
variable {picked : Arm α → Bool}

/- What is taken is a labelled arm or the default. -/
theorem labelled_or_default_of_first?
    (hFirst : first? picked arms = some arm) :
    arm ∈ labelledIn arms ∨ defaultIn? arms = some arm := by
  unfold first? at hFirst
  rcases Option.or_eq_some_iff.mp hFirst with hFound | ⟨_, hDefault⟩
  · exact Or.inl (List.mem_of_find?_eq_some hFound)
  · exact Or.inr hDefault

theorem mem_of_first?
    (hFirst : first? picked arms = some arm) :
    arm ∈ arms := by
  rcases labelled_or_default_of_first? hFirst with h | h
  · exact (mem_labelledIn.mp h).1
  · exact List.mem_of_find?_eq_some h

theorem exists_first?_of_default
    {other : Arm α}
    (hDefault : defaultIn? arms = some other)
    (picked : Arm α → Bool) :
    ∃ arm, first? picked arms = some arm := by
  unfold first?
  rw [hDefault]
  cases (labelledIn arms).find? picked with
  | none => exact ⟨other, rfl⟩
  | some arm => exact ⟨arm, rfl⟩

end Arm

namespace Stmt

variable {ρ : Valuation}
variable {p : Fallback}
variable {w w' : Written}

/- A case that runs takes an arm or falls back. -/
theorem run_case_eq_ok_iff
    {selector : Expr}
    {arms : List (Arm Stmt)} :
    run ρ p w (case selector arms) = .ok w' ↔
      ∃ value, selector.eval (w.onTop ρ) = .ok value ∧
        ((∃ arm,
            Arm.first? (isHit selector.width value) arms =
              some arm ∧
            run ρ p w arm.body = .ok w') ∨
          Arm.first? (isHit selector.width value) arms = none ∧
            applyFallback ρ p (writesArms [] arms).names w =
              .ok w') := by
  cases hValue : selector.eval (w.onTop ρ) with
  | error u =>
      rw [run, hValue]
      constructor
      · intro hRun
        cases hRun
      · intro hSome
        rcases hSome with ⟨value, hOk, _⟩
        cases hOk
  | ok value =>
      rw [run_case hValue]
      cases hFirst :
          Arm.first? (isHit selector.width value) arms with
      | none => simp [hFirst]
      | some arm => simp [hFirst]

/-
  What is kept when an open name is given the value it falls
  back to is kept by the fallback of all names.
-/
theorem applyFallback_keeps
    {I : Written → Prop}
    {names : List String}
    (hFill : ∀ n ∈ names, ∀ w,
      (p = .hold → (ρ n).isSome) → I w →
        I (w.insert n (p.value (ρ n))))
    (hRun : applyFallback ρ p names w = .ok w')
    (hI : I w) :
    I w' := by
  induction names generalizing w with
  | nil =>
      cases hRun
      exact hI
  | cons name names ih =>
      have hHere := hFill name (List.mem_cons_self ..) w
      have hLater := fun n hn =>
        hFill n (List.mem_cons_of_mem _ hn)
      rw [applyFallback.eq_def] at hRun
      dsimp only at hRun
      split at hRun
      case isTrue => exact ih hLater hRun hI
      case isFalse =>
          split at hRun
          case h_1 => exact ih hLater hRun (hHere nofun hI)
          case h_2 v hBound =>
              rw [hBound] at hHere
              exact ih hLater hRun (hHere (fun _ => rfl) hI)
          case h_3 => cases hRun

/-
  What is kept by every assignment to a target, and when an
  open target falls back, is kept by a run.
-/
theorem run_keeps_writing
    {I : Written → Prop}
    {T : Var → Prop}
    (hAssign : ∀ (a : Assign) w w', T a.var →
      a.exec ρ w = .ok w' → I w → I w')
    (hFill : ∀ v w, T v → (p = .hold → (ρ v.name).isSome) →
      I w → I (w.insert v.name (p.value (ρ v.name))))
    {s : Stmt}
    (hTargets : ∀ v ∈ s.targets, T v)
    (hRun : run ρ p w s = .ok w')
    (hI : I w) :
    I w' := by
  have hNames : ∀ t : Stmt, (∀ v ∈ t.targets, T v) →
      ∀ n ∈ t.writes.names, ∀ w,
        (p = .hold → (ρ n).isSome) → I w →
          I (w.insert n (p.value (ρ n))) := by
    intro t ht n hn w
    rcases List.mem_map.mp ((mem_names_writes t n).mp hn) with
      ⟨v, hv, rfl⟩
    exact hFill v w (ht v hv)
  induction s generalizing w w' with
  | assign a =>
      exact hAssign a w w'
        (hTargets a.var (List.mem_singleton.mpr rfl)) hRun hI
  | ifThen c t ih =>
      rw [run, bind_eq_ok_iff] at hRun
      rcases hRun with ⟨value, _, hBranch⟩
      split at hBranch
      · exact ih hTargets hBranch hI
      · exact applyFallback_keeps (hNames t hTargets) hBranch hI
  | ifElse c t e iht ihe =>
      rw [run, bind_eq_ok_iff] at hRun
      rcases hRun with ⟨value, _, hBranch⟩
      split at hBranch
      · exact iht
          (fun v hv => hTargets v (List.mem_append_left _ hv))
          hBranch hI
      · exact ihe
          (fun v hv => hTargets v (List.mem_append_right _ hv))
          hBranch hI
  | case selector arms ih =>
      rcases run_case_eq_ok_iff.mp hRun with
        ⟨value, _, ⟨arm, hFirst, hBody⟩ | ⟨_, hFallback⟩⟩
      · have hArm := Arm.mem_of_first? hFirst
        exact ih arm hArm
          (fun v hv => hTargets v
            (mem_targetsArms.mpr ⟨arm, hArm, hv⟩))
          hBody hI
      · exact applyFallback_keeps
          (hNames (case selector arms) hTargets) hFallback hI
  | block ss ih =>
      rw [run] at hRun
      induction ss generalizing w with
      | nil =>
          cases hRun
          exact hI
      | cons s ss ihRest =>
          rw [runAll, bind_eq_ok_iff] at hRun
          rcases hRun with ⟨w₁, hFirst, hRest⟩
          refine ihRest
            (fun t ht => ih t (List.mem_cons_of_mem _ ht))
            (fun v hv => hTargets v (List.mem_append_right _ hv))
            hRest ?_
          exact ih s (List.mem_cons_self ..)
            (fun v hv => hTargets v (List.mem_append_left _ hv))
            hFirst hI

/- What every single write keeps is kept by a run. -/
theorem run_keeps
    {I : Written → Prop}
    (hInsert : ∀ w n x, I w → I (w.insert n x))
    {s : Stmt}
    (hRun : run ρ p w s = .ok w')
    (hI : I w) :
    I w' := by
  refine run_keeps_writing (T := fun _ => True) ?_ ?_
    (fun _ _ => trivial) hRun hI
  · intro a w w' _ hExec hI
    rw [Assign.exec, bind_eq_ok_iff] at hExec
    rcases hExec with ⟨value, _, hWritten⟩
    cases hWritten
    exact hInsert w _ _ hI
  · intro v w _ _ hI
    exact hInsert w _ _ hI

/- A name stays written. -/
theorem run_contains
    {s : Stmt}
    (hRun : run ρ p w s = .ok w')
    {n : String}
    (hWritten : w.contains n = true) :
    w'.contains n = true := by
  apply run_keeps (I := fun w => w.contains n = true) _ hRun
    hWritten
  intro w m x hHas
  rw [NameMap.contains, NameMap.find?_insert]
  split
  · rfl
  · exact hHas

end Stmt

end Gatework

------------------------------------------------------------
-- Names that are left out
------------------------------------------------------------

namespace Gatework

namespace Stmt

/-
  A run that starts with some values written takes an arm,
  out of the arms of a case somewhere in the statement.
-/
inductive Takes
    (ρ : Valuation)
    (p : Fallback) :
    Written → Stmt → List (Arm Stmt) → Arm Stmt → Prop where
  | here {w selector arms value arm} :
      selector.eval (w.onTop ρ) = .ok value →
      Arm.first? (isHit selector.width value) arms = some arm →
      Takes ρ p w (case selector arms) arms arm
  | inArm {w selector arms value arm arms' arm'} :
      selector.eval (w.onTop ρ) = .ok value →
      Arm.first? (isHit selector.width value) arms = some arm →
      Takes ρ p w arm.body arms' arm' →
      Takes ρ p w (case selector arms) arms' arm'
  | inThen {w c t value arms arm} :
      c.eval (w.onTop ρ) = .ok value →
      value.testBit 0 = true →
      Takes ρ p w t arms arm →
      Takes ρ p w (ifThen c t) arms arm
  | inTrue {w c t e value arms arm} :
      c.eval (w.onTop ρ) = .ok value →
      value.testBit 0 = true →
      Takes ρ p w t arms arm →
      Takes ρ p w (ifElse c t e) arms arm
  | inFalse {w c t e value arms arm} :
      c.eval (w.onTop ρ) = .ok value →
      value.testBit 0 = false →
      Takes ρ p w e arms arm →
      Takes ρ p w (ifElse c t e) arms arm
  | inFirst {w s ss arms arm} :
      Takes ρ p w s arms arm →
      Takes ρ p w (block (s :: ss)) arms arm
  | inRest {w w' s ss arms arm} :
      run ρ p w s = .ok w' →
      Takes ρ p w' (block ss) arms arm →
      Takes ρ p w (block (s :: ss)) arms arm

/-
  An arm that does not surely write a name which the case
  counts: the default, where the name is in every labelled
  arm, or a labelled arm, where the name is in the default
  and in another labelled arm.
-/
inductive LeavesOut
    (arms : List (Arm Stmt))
    (n : String) :
    Arm Stmt → Prop where
  | byDefault {arm} :
      Arm.defaultIn? arms = some arm →
      n ∉ arm.body.mustWrites.names →
      Arm.labelledIn arms ≠ [] →
      (∀ other ∈ Arm.labelledIn arms,
        n ∈ other.body.mustWrites.names) →
      LeavesOut arms n arm
  | byLabelled {arm default other} :
      arm ∈ Arm.labelledIn arms →
      n ∉ arm.body.mustWrites.names →
      Arm.defaultIn? arms = some default →
      n ∈ default.body.mustWrites.names →
      other ∈ Arm.labelledIn arms →
      n ∈ other.body.mustWrites.names →
      LeavesOut arms n arm

variable {ρ : Valuation}
variable {p : Fallback}
variable {w w' : Written}
variable {n : String}

/- An arm has a counted name unless it leaves it out. -/
theorem mustWrites_or_leavesOut
    {selector : Expr}
    {arms : List (Arm Stmt)}
    {arm : Arm Stmt}
    {picked : Arm Stmt → Bool}
    (hMust : n ∈ (case selector arms).mustWrites.names)
    (hFirst : Arm.first? picked arms = some arm) :
    n ∈ arm.body.mustWrites.names ∨ LeavesOut arms n arm := by
  by_cases hArm : n ∈ arm.body.mustWrites.names
  · exact Or.inl hArm
  · refine Or.inr ?_
    rcases mem_names_mustWrites_case.mp hMust with
      ⟨other, hDefault, hKinds⟩
    rcases Arm.labelled_or_default_of_first? hFirst with
      hLabelled | hTaken
    · rcases hKinds with ⟨hNone, _⟩ | ⟨_, hEvery | ⟨hOther, hSome⟩⟩
      · rw [hNone] at hLabelled
        cases hLabelled
      · exact absurd (hEvery arm hLabelled) hArm
      · rcases hSome with ⟨arm', hArm', hIn⟩
        exact .byLabelled hLabelled hArm hDefault hOther hArm' hIn
    · rw [hTaken] at hDefault
      cases hDefault
      rcases hKinds with ⟨_, hOther⟩ | ⟨hNonempty, hEvery | ⟨hOther, _⟩⟩
      · exact absurd hOther hArm
      · exact .byDefault hTaken hArm hNonempty hEvery
      · exact absurd hOther hArm

/-
  A name that is counted is written by the end of a run, or
  the run has taken an arm that leaves it out. Blocks carry
  what one member wrote over the members after it.
-/
theorem contains_or_leavesOut
    {s : Stmt}
    (hRun : run ρ p w s = .ok w')
    (hMust : n ∈ s.mustWrites.names) :
    w'.contains n = true ∨
      ∃ arms arm, Takes ρ p w s arms arm ∧
        LeavesOut arms n arm := by
  induction s generalizing w w' with
  | assign a =>
      rw [run, Assign.exec, bind_eq_ok_iff] at hRun
      rcases hRun with ⟨value, _, hWritten⟩
      cases hWritten
      rcases List.mem_singleton.mp hMust with rfl
      refine Or.inl ?_
      rw [NameMap.contains, NameMap.find?_insert_self]
      rfl
  | ifThen c t ih => cases hMust
  | ifElse c t e iht ihe =>
      rcases VarSet.mem_names_inter.mp hMust with ⟨hThen, hElse⟩
      rw [run, bind_eq_ok_iff] at hRun
      rcases hRun with ⟨value, hValue, hBranch⟩
      cases hBit : value.testBit 0 with
      | true =>
          rw [if_pos hBit] at hBranch
          refine (iht hBranch hThen).imp_right ?_
          intro hOut
          rcases hOut with ⟨arms, arm, hTakes, hLeaves⟩
          exact ⟨arms, arm, .inTrue hValue hBit hTakes, hLeaves⟩
      | false =>
          rw [if_neg (by simp [hBit])] at hBranch
          refine (ihe hBranch hElse).imp_right ?_
          intro hOut
          rcases hOut with ⟨arms, arm, hTakes, hLeaves⟩
          exact ⟨arms, arm, .inFalse hValue hBit hTakes, hLeaves⟩
  | case selector arms ih =>
      rcases run_case_eq_ok_iff.mp hRun with
        ⟨value, hValue, ⟨arm, hFirst, hBody⟩ | ⟨hNone, _⟩⟩
      · rcases mustWrites_or_leavesOut hMust hFirst with hIn | hOut
        · refine (ih arm (Arm.mem_of_first? hFirst) hBody
            hIn).imp_right ?_
          intro hOut
          rcases hOut with ⟨arms', arm', hTakes, hLeaves⟩
          exact ⟨arms', arm', .inArm hValue hFirst hTakes, hLeaves⟩
        · exact Or.inr ⟨arms, arm, .here hValue hFirst, hOut⟩
      · -- A case that counts names has a default to take.
        rcases mem_names_mustWrites_case.mp hMust with
          ⟨other, hDefault, _⟩
        rcases Arm.exists_first?_of_default hDefault
          (isHit selector.width value) with ⟨arm, hFirst⟩
        rw [hNone] at hFirst
        cases hFirst
  | block ss ih =>
      rw [run] at hRun
      rw [mem_names_mustWrites_block] at hMust
      induction ss generalizing w with
      | nil =>
          rcases hMust with ⟨s, hs, _⟩
          cases hs
      | cons s ss ihRest =>
          rw [runAll, bind_eq_ok_iff] at hRun
          rcases hRun with ⟨w₁, hFirst, hRest⟩
          rcases hMust with ⟨t, ht, hIn⟩
          rcases List.mem_cons.mp ht with rfl | hLater
          · rcases ih t (List.mem_cons_self ..) hFirst hIn with
              hWritten | ⟨arms, arm, hTakes, hLeaves⟩
            · refine Or.inl ?_
              exact run_contains (s := block ss) hRest hWritten
            · exact Or.inr ⟨arms, arm, .inFirst hTakes, hLeaves⟩
          · refine (ihRest
              (fun u hu => ih u (List.mem_cons_of_mem _ hu))
              hRest ⟨t, hLater, hIn⟩).imp_right ?_
            intro hOut
            rcases hOut with ⟨arms, arm, hTakes, hLeaves⟩
            exact ⟨arms, arm, .inRest hFirst hTakes, hLeaves⟩

/-
  Every signal that a statement surely writes is written,
  unless the run takes an arm of a case that leaves it out:
  the default, where all labelled arms have the signal, or a
  labelled arm, where the default and another one have it.
-/
theorem mustWrites_written
    {s : Stmt}
    {ρ : Valuation}
    {p : Fallback}
    {w : Written}
    (hExec : s.exec ρ p = .ok w)
    {v : Var}
    (hv : v ∈ s.mustWrites) :
    w.contains v.name = true ∨
      ∃ arms arm, Takes ρ p NameMap.empty s arms arm ∧
        LeavesOut arms v.name arm :=
  contains_or_leavesOut hExec (List.mem_map_of_mem hv)

/-
  A case that counts one name because both labelled arms
  write it, and another one because the first of them and the
  default do.
-/
def sharedCase : Stmt :=
  let copy (target source : String) : Stmt :=
    assign ⟨.whole ⟨target, 1, false⟩,
      .var none ⟨source, 1, false⟩⟩
  case pairSelector
    [.labelled [⟨0, 2, false, none, none⟩]
      (block [copy "y" "a", copy "z" "a"]),
     .labelled [⟨1, 2, false, none, none⟩] (copy "y" "b"),
     .default (copy "z" "c")]

/- The first arm writes both names. -/
theorem mustWrites_written_sharedCase :
    sharedCase.exec (fun _ => some 0) .zero =
        .ok ⟨[("y", 0), ("z", 0)]⟩ ∧
      ⟨"z", 1, false⟩ ∈ sharedCase.mustWrites ∧
      NameMap.contains (α := Nat) ⟨[("y", 0), ("z", 0)]⟩ "z" =
        true := by
  have hMust : ⟨"z", 1, false⟩ ∈ sharedCase.mustWrites := by
    decide
  refine ⟨rfl, hMust, ?_⟩
  rcases mustWrites_written (s := sharedCase)
      (ρ := fun _ => some 0) (p := .zero) rfl hMust with
    hWritten | ⟨arms, arm, hTakes, hLeaves⟩
  · exact hWritten
  · cases hTakes with
    | here hValue hFirst =>
        cases hValue
        cases hFirst
        cases hLeaves with
        | byDefault hDefault => cases hDefault
        | byLabelled _ hNot => exact absurd (by decide) hNot
    | inArm hValue hFirst hBody =>
        cases hValue
        cases hFirst
        cases hBody with
        | inFirst hFirst => cases hFirst
        | inRest _ hRest =>
            cases hRest with
            | inFirst hFirst => cases hFirst
            | inRest _ hRest => cases hRest

/-
  The default leaves out the name of the labelled arms, and
  the second labelled arm that of the default.
-/
theorem mustWrites_leftOut_sharedCase :
    sharedCase.validate = .ok () ∧
      sharedCase.mustWrites = [⟨"y", 1, false⟩, ⟨"z", 1, false⟩] ∧
      sharedCase.exec (fun _ => some 2) .zero =
        .ok ⟨[("z", 0)]⟩ ∧
      NameMap.contains (α := Nat) ⟨[("z", 0)]⟩ "y" = false ∧
      sharedCase.exec (fun _ => some 1) .zero =
        .ok ⟨[("y", 1)]⟩ ∧
      NameMap.contains (α := Nat) ⟨[("y", 1)]⟩ "z" = false := by
  refine ⟨rfl, ?_, rfl, rfl, rfl, rfl⟩
  decide

end Stmt

end Gatework
