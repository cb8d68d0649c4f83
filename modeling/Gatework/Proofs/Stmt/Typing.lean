import Gatework.Proofs.Expr.Typing
import Gatework.Stmt.Effects

/-
  Well-typed statements over a set of signals.

  Key definitions include:
    * `Stmt.targets` and `Stmt.readings`, every signal that a
      statement writes or reads
    * `Stmt.Typed`
    * `Stmt.LabelsFit`, labels hold at the selector's width

  Key theorems include:
    * `Stmt.validate_eq_ok_iff`
    * `Stmt.mem_names_writes` and `Stmt.mem_names_reads`
-/

------------------------------------------------------------
-- Induction
------------------------------------------------------------

namespace Gatework

namespace Stmt

/-
  Induction over statements, where a case comes with the
  statement for each body and a block for each member.
-/
@[induction_eliminator]
theorem inductionBodies
    {motive : Stmt → Prop}
    (assign : ∀ a, motive (assign a))
    (ifThen : ∀ c t, motive t → motive (ifThen c t))
    (ifElse : ∀ c t e,
      motive t → motive e → motive (ifElse c t e))
    (case : ∀ s arms,
      (∀ arm ∈ arms, motive arm.body) → motive (case s arms))
    (block : ∀ ss, (∀ s ∈ ss, motive s) → motive (block ss))
    (s : Stmt) :
    motive s := by
  refine @Stmt.rec motive
    (fun arms => ∀ arm ∈ arms, motive arm.body)
    (fun ss => ∀ s ∈ ss, motive s)
    (fun arm => motive arm.body)
    assign ifThen ifElse case block ?_ ?_ ?_ ?_ ?_ s
  · intro arm hArm
    cases hArm
  · intro arm arms hHead hTail other hOther
    rcases List.mem_cons.mp hOther with rfl | hRest
    · exact hHead
    · exact hTail other hRest
  · intro s hs
    cases hs
  · intro s ss hHead hTail other hOther
    rcases List.mem_cons.mp hOther with rfl | hRest
    · exact hHead
    · exact hTail other hRest
  · intro labels isDefault body hBody
    exact hBody

end Stmt

end Gatework

------------------------------------------------------------
-- Signals written and read
------------------------------------------------------------

namespace Gatework

namespace Stmt

mutual

/- Every signal a statement writes, as often as it does. -/
def targets : Stmt → List Var
  | assign a => [a.var]
  | ifThen _ t => targets t
  | ifElse _ t e => targets t ++ targets e
  | case _ arms => targetsArms arms
  | block ss => targetsAll ss

def targetsAll : List Stmt → List Var
  | [] => []
  | s :: ss => targets s ++ targetsAll ss

def targetsArms : List (Arm Stmt) → List Var
  | [] => []
  | ⟨_, _, s⟩ :: arms => targets s ++ targetsArms arms

end

mutual

/- Every signal a statement reads, as often as it does. -/
def readings : Stmt → List Var
  | assign a => a.value.occurrences
  | ifThen c t => c.occurrences ++ readings t
  | ifElse c t e => c.occurrences ++ (readings t ++ readings e)
  | case s arms => s.occurrences ++ readingsArms arms
  | block ss => readingsAll ss

def readingsAll : List Stmt → List Var
  | [] => []
  | s :: ss => readings s ++ readingsAll ss

def readingsArms : List (Arm Stmt) → List Var
  | [] => []
  | ⟨_, _, s⟩ :: arms => readings s ++ readingsArms arms

end

/- A signal that a statement writes or reads. -/
def Mentions
    (s : Stmt)
    (v : Var) :
    Prop :=
  v ∈ s.targets ∨ v ∈ s.readings

/- Whether each name has one width can be computed. -/
theorem oneWidth_mentions_iff
    {s : Stmt} :
    OneWidth s.Mentions ↔
      ∀ v ∈ s.targets ++ s.readings,
        ∀ w ∈ s.targets ++ s.readings,
          v.name = w.name → v.width = w.width := by
  constructor
  · intro hOne v hv w hw
    exact hOne v w (List.mem_append.mp hv) (List.mem_append.mp hw)
  · intro hAll v w hv hw
    exact hAll v (List.mem_append.mpr hv)
      w (List.mem_append.mpr hw)

theorem mem_targetsAll
    {v : Var}
    {ss : List Stmt} :
    v ∈ targetsAll ss ↔ ∃ s ∈ ss, v ∈ s.targets := by
  induction ss with
  | nil => simp [targetsAll]
  | cons s ss ih => simp [targetsAll, ih]

theorem mem_targetsArms
    {v : Var}
    {arms : List (Arm Stmt)} :
    v ∈ targetsArms arms ↔
      ∃ arm ∈ arms, v ∈ arm.body.targets := by
  induction arms with
  | nil => simp [targetsArms]
  | cons arm arms ih =>
      rcases arm with ⟨labels, isDefault, body⟩
      simp [targetsArms, ih]

theorem mem_readingsAll
    {v : Var}
    {ss : List Stmt} :
    v ∈ readingsAll ss ↔ ∃ s ∈ ss, v ∈ s.readings := by
  induction ss with
  | nil => simp [readingsAll]
  | cons s ss ih => simp [readingsAll, ih]

theorem mem_readingsArms
    {v : Var}
    {arms : List (Arm Stmt)} :
    v ∈ readingsArms arms ↔
      ∃ arm ∈ arms, v ∈ arm.body.readings := by
  induction arms with
  | nil => simp [readingsArms]
  | cons arm arms ih =>
      rcases arm with ⟨labels, isDefault, body⟩
      simp [readingsArms, ih]

end Stmt

end Gatework

------------------------------------------------------------
-- Names written and read
------------------------------------------------------------

namespace Gatework

namespace Stmt

theorem mem_names_writesAll
    {ss : List Stmt}
    (hAll : ∀ s ∈ ss, ∀ n,
      n ∈ s.writes.names ↔ n ∈ s.targets.map Var.name)
    {seen : VarSet}
    {n : String} :
    n ∈ (writesAll seen ss).names ↔
      n ∈ seen.names ∨ n ∈ (targetsAll ss).map Var.name := by
  induction ss generalizing seen with
  | nil => simp [writesAll, targetsAll]
  | cons s ss ih =>
      have hTail : ∀ t ∈ ss, ∀ n,
          n ∈ t.writes.names ↔ n ∈ t.targets.map Var.name :=
        fun t ht => hAll t (List.mem_cons_of_mem _ ht)
      rw [writesAll, ih hTail, VarSet.mem_names_union,
        hAll s (List.mem_cons_self ..), targetsAll,
        List.map_append, List.mem_append, or_assoc]

theorem mem_names_writesArms
    {arms : List (Arm Stmt)}
    (hAll : ∀ arm ∈ arms, ∀ n,
      n ∈ arm.body.writes.names ↔
        n ∈ arm.body.targets.map Var.name)
    {seen : VarSet}
    {n : String} :
    n ∈ (writesArms seen arms).names ↔
      n ∈ seen.names ∨ n ∈ (targetsArms arms).map Var.name := by
  induction arms generalizing seen with
  | nil => simp [writesArms, targetsArms]
  | cons arm arms ih =>
      have hTail : ∀ other ∈ arms, ∀ n,
          n ∈ other.body.writes.names ↔
            n ∈ other.body.targets.map Var.name :=
        fun other h => hAll other (List.mem_cons_of_mem _ h)
      have hHead := hAll arm (List.mem_cons_self ..)
      rcases arm with ⟨labels, isDefault, body⟩
      rw [writesArms, ih hTail, VarSet.mem_names_union, hHead,
        targetsArms, List.map_append, List.mem_append, or_assoc]

/- The set of written signals has the names of the targets. -/
theorem mem_names_writes
    (s : Stmt)
    (n : String) :
    n ∈ s.writes.names ↔ n ∈ s.targets.map Var.name := by
  induction s generalizing n with
  | assign a => exact Iff.rfl
  | ifThen c t ih => exact ih n
  | ifElse c t e iht ihe =>
      rw [writes, VarSet.mem_names_union, iht, ihe, targets,
        List.map_append, List.mem_append]
  | case s arms ih =>
      rw [writes, mem_names_writesArms ih, targets]
      simp [VarSet.names]
  | block ss ih =>
      rw [writes, mem_names_writesAll ih, targets]
      simp [VarSet.names]

theorem mem_names_readsAll
    {ss : List Stmt}
    (hAll : ∀ s ∈ ss, ∀ n,
      n ∈ s.reads.names ↔ n ∈ s.readings.map Var.name)
    {seen : VarSet}
    {n : String} :
    n ∈ (readsAll seen ss).names ↔
      n ∈ seen.names ∨ n ∈ (readingsAll ss).map Var.name := by
  induction ss generalizing seen with
  | nil => simp [readsAll, readingsAll]
  | cons s ss ih =>
      have hTail : ∀ t ∈ ss, ∀ n,
          n ∈ t.reads.names ↔ n ∈ t.readings.map Var.name :=
        fun t ht => hAll t (List.mem_cons_of_mem _ ht)
      rw [readsAll, ih hTail, VarSet.mem_names_union,
        hAll s (List.mem_cons_self ..), readingsAll,
        List.map_append, List.mem_append, or_assoc]

theorem mem_names_readsArms
    {arms : List (Arm Stmt)}
    (hAll : ∀ arm ∈ arms, ∀ n,
      n ∈ arm.body.reads.names ↔
        n ∈ arm.body.readings.map Var.name)
    {seen : VarSet}
    {n : String} :
    n ∈ (readsArms seen arms).names ↔
      n ∈ seen.names ∨ n ∈ (readingsArms arms).map Var.name := by
  induction arms generalizing seen with
  | nil => simp [readsArms, readingsArms]
  | cons arm arms ih =>
      have hTail : ∀ other ∈ arms, ∀ n,
          n ∈ other.body.reads.names ↔
            n ∈ other.body.readings.map Var.name :=
        fun other h => hAll other (List.mem_cons_of_mem _ h)
      have hHead := hAll arm (List.mem_cons_self ..)
      rcases arm with ⟨labels, isDefault, body⟩
      rw [readsArms, ih hTail, VarSet.mem_names_union, hHead,
        readingsArms, List.map_append, List.mem_append, or_assoc]

/- The set of signals read has the names of the readings. -/
theorem mem_names_reads
    (s : Stmt)
    (n : String) :
    n ∈ s.reads.names ↔ n ∈ s.readings.map Var.name := by
  induction s generalizing n with
  | assign a => exact Expr.mem_names_freeVars a.value n
  | ifThen c t ih =>
      rw [reads, VarSet.mem_names_union, ih,
        Expr.mem_names_freeVars, readings, List.map_append,
        List.mem_append]
  | ifElse c t e iht ihe =>
      rw [reads, VarSet.mem_names_union, VarSet.mem_names_union,
        iht, ihe, Expr.mem_names_freeVars, readings,
        List.map_append, List.map_append, List.mem_append,
        List.mem_append, or_assoc]
  | case s arms ih =>
      rw [reads, mem_names_readsArms ih, Expr.mem_names_freeVars,
        readings, List.map_append, List.mem_append]
  | block ss ih =>
      rw [reads, mem_names_readsAll ih, readings]
      simp [VarSet.names]

/- What a statement mentions has a name it writes or reads. -/
theorem Mentions.name_mem
    {s : Stmt}
    {v : Var}
    (hv : s.Mentions v) :
    v.name ∈ s.reads.names ∨ v.name ∈ s.writes.names := by
  rcases hv with h | h
  · exact Or.inr
      ((mem_names_writes s v.name).mpr (List.mem_map_of_mem h))
  · exact Or.inl
      ((mem_names_reads s v.name).mpr (List.mem_map_of_mem h))

end Stmt

end Gatework

------------------------------------------------------------
-- Typing
------------------------------------------------------------

namespace Gatework

namespace Stmt

mutual

/-
  A statement that passes every check and mentions only
  signals of a set.
-/
def Typed
    (Γ : Var → Prop) :
    Stmt → Prop
  | assign a =>
      a.target.toExpr.Typed Γ ∧ a.value.Typed Γ ∧
        a.target.width = a.value.width
  | ifThen c t => c.Typed Γ ∧ c.width = 1 ∧ Typed Γ t
  | ifElse c t e =>
      c.Typed Γ ∧ c.width = 1 ∧ Typed Γ t ∧ Typed Γ e
  | case s arms =>
      s.Typed Γ ∧ Arm.check arms = .ok () ∧ TypedArms Γ arms
  | block ss => TypedAll Γ ss

def TypedAll
    (Γ : Var → Prop) :
    List Stmt → Prop
  | [] => True
  | s :: ss => Typed Γ s ∧ TypedAll Γ ss

def TypedArms
    (Γ : Var → Prop) :
    List (Arm Stmt) → Prop
  | [] => True
  | ⟨_, _, s⟩ :: arms => Typed Γ s ∧ TypedArms Γ arms

end

mutual

/- Every label of a case holds at the width of its selector. -/
def LabelsFit : Stmt → Prop
  | assign _ => True
  | ifThen _ t => LabelsFit t
  | ifElse _ t e => LabelsFit t ∧ LabelsFit e
  | case s arms => LabelsFitArms s.width arms
  | block ss => LabelsFitAll ss

def LabelsFitAll : List Stmt → Prop
  | [] => True
  | s :: ss => LabelsFit s ∧ LabelsFitAll ss

def LabelsFitArms
    (width : Nat) :
    List (Arm Stmt) → Prop
  | [] => True
  | ⟨labels, _, s⟩ :: arms =>
      (∀ l ∈ labels, l.value < 2 ^ width) ∧ LabelsFit s ∧
        LabelsFitArms width arms

end

variable {Γ Δ : Var → Prop}

theorem typedAll_iff
    {ss : List Stmt} :
    TypedAll Γ ss ↔ ∀ s ∈ ss, s.Typed Γ := by
  induction ss with
  | nil => simp [TypedAll]
  | cons s ss ih => simp [TypedAll, ih]

theorem typedArms_iff
    {arms : List (Arm Stmt)} :
    TypedArms Γ arms ↔ ∀ arm ∈ arms, arm.body.Typed Γ := by
  induction arms with
  | nil => simp [TypedArms]
  | cons arm arms ih =>
      rcases arm with ⟨labels, isDefault, body⟩
      simp [TypedArms, ih]

theorem labelsFitAll_iff
    {ss : List Stmt} :
    LabelsFitAll ss ↔ ∀ s ∈ ss, s.LabelsFit := by
  induction ss with
  | nil => simp [LabelsFitAll]
  | cons s ss ih => simp [LabelsFitAll, ih]

theorem labelsFitArms_iff
    {width : Nat}
    {arms : List (Arm Stmt)} :
    LabelsFitArms width arms ↔
      ∀ arm ∈ arms,
        (∀ l ∈ arm.labels, l.value < 2 ^ width) ∧
          arm.body.LabelsFit := by
  induction arms with
  | nil => simp [LabelsFitArms]
  | cons arm arms ih =>
      rcases arm with ⟨labels, isDefault, body⟩
      simp [LabelsFitArms, ih, and_assoc]

/- The labels of a case itself hold at its selector. -/
theorem LabelsFit.arms
    {selector : Expr}
    {arms : List (Arm Stmt)}
    (hFit : (case selector arms).LabelsFit) :
    ∀ arm ∈ arms, ∀ l ∈ arm.labels,
      l.value < 2 ^ selector.width :=
  fun arm hArm => (labelsFitArms_iff.mp hFit arm hArm).1

end Stmt

end Gatework

------------------------------------------------------------
-- Targets
------------------------------------------------------------

namespace Gatework

namespace Target

variable {Γ : Var → Prop}

theorem occurrences_toExpr
    (t : Target) :
    t.toExpr.occurrences = [t.var] := by
  cases t <;> rfl

theorem ofExpr?_toExpr
    (t : Target) :
    ofExpr? t.toExpr = some t := by
  cases t <;> rfl

/- A typed target writes a typed signal. -/
theorem typed_var
    {t : Target}
    (ht : t.toExpr.Typed Γ) :
    (Expr.var none t.var).Typed Γ := by
  cases t with
  | whole v => exact ht
  | bit v i => exact ht.1
  | part v m l => exact ht.1

theorem width_le
    {t : Target}
    (ht : t.toExpr.Typed Γ) :
    t.width ≤ maxWidth :=
  ht.width_le

theorem width_of_field?_eq_none
    {t : Target}
    (hField : t.field? = none) :
    t.width = t.var.width := by
  cases t with
  | whole v => rfl
  | bit v i => cases hField
  | part v m l => cases hField

/- A typed target lies in its signal. -/
theorem low_add_width_le
    {t : Target}
    (ht : t.toExpr.Typed Γ) :
    t.low + t.width ≤ t.var.width := by
  cases t with
  | whole v => exact Nat.le_of_eq (Nat.zero_add _)
  | bit v i => exact ht.2
  | part v m l =>
      have hInside := ht.2
      simp only [low, field?, width, toExpr, var, Expr.width,
        Option.getD_some] at hInside ⊢
      omega

end Target

end Gatework

------------------------------------------------------------
-- Validation
------------------------------------------------------------

namespace Gatework

namespace Assign

theorem make_eq_ok_iff
    {lhs rhs : Expr}
    {a : Assign} :
    make lhs rhs = .ok a ↔
      lhs.width = rhs.width ∧ Target.ofExpr? lhs = some a.target ∧
        rhs = a.value := by
  unfold make
  cases Target.ofExpr? lhs with
  | none => simp
  | some target =>
      dsimp only
      rcases a with ⟨target', value⟩
      split <;> simp [*]

theorem make_toExpr_eq_ok_iff
    {t : Target}
    {value : Expr} :
    (do discard (make t.toExpr value) : Except Flaw Unit) =
        .ok () ↔
      t.width = value.width := by
  unfold make
  rw [Target.ofExpr?_toExpr]
  by_cases hWidths : t.toExpr.width = value.width
  · have hTarget : t.width = value.width := hWidths
    simp only [hWidths, if_true, hTarget, iff_true]
    rfl
  · have hTarget : ¬ t.width = value.width := hWidths
    simp only [hWidths, if_false, hTarget, iff_false]
    intro h
    cases h

end Assign

namespace Stmt

theorem checkCondition_eq_ok_iff
    {c : Expr} :
    checkCondition c = .ok () ↔ c.width = 1 := by
  unfold checkCondition
  split <;> simp_all

theorem validateAll_eq_ok_iff
    {ss : List Stmt} :
    validateAll ss = .ok () ↔ ∀ s ∈ ss, s.validate = .ok () := by
  induction ss with
  | nil => simp [validateAll]
  | cons s ss ih =>
      rw [validateAll, check_bind_eq_ok_iff, ih]
      simp

theorem validateArms_eq_ok_iff
    {arms : List (Arm Stmt)} :
    validateArms arms = .ok () ↔
      ∀ arm ∈ arms, arm.body.validate = .ok () := by
  induction arms with
  | nil => simp [validateArms]
  | cons arm arms ih =>
      rcases arm with ⟨labels, isDefault, body⟩
      rw [validateArms, check_bind_eq_ok_iff, ih]
      simp

/-
  Validation succeeds exactly on well-typed statements in
  which every signal has a name.
-/
theorem validate_eq_ok_iff
    {s : Stmt} :
    s.validate = .ok () ↔ s.Typed Var.HasName := by
  induction s with
  | assign a =>
      rw [validate, check_bind_eq_ok_iff, check_bind_eq_ok_iff,
        Assign.make_toExpr_eq_ok_iff, Expr.validate_eq_ok_iff,
        Expr.validate_eq_ok_iff, Typed]
  | ifThen c t ih =>
      rw [validate, check_bind_eq_ok_iff, check_bind_eq_ok_iff,
        checkCondition_eq_ok_iff, Expr.validate_eq_ok_iff, ih,
        Typed]
  | ifElse c t e iht ihe =>
      rw [validate, check_bind_eq_ok_iff, check_bind_eq_ok_iff,
        check_bind_eq_ok_iff, checkCondition_eq_ok_iff,
        Expr.validate_eq_ok_iff, iht, ihe, Typed]
  | case s arms ih =>
      rw [validate, check_bind_eq_ok_iff, check_bind_eq_ok_iff,
        validateArms_eq_ok_iff, Expr.validate_eq_ok_iff, Typed,
        typedArms_iff]
      constructor
      · rintro ⟨hs, hCheck, hArms⟩
        exact ⟨hs, hCheck,
          fun arm h => (ih arm h).mp (hArms arm h)⟩
      · rintro ⟨hs, hCheck, hArms⟩
        exact ⟨hs, hCheck,
          fun arm h => (ih arm h).mpr (hArms arm h)⟩
  | block ss ih =>
      rw [validate, validateAll_eq_ok_iff, Typed, typedAll_iff]
      constructor
      · intro hAll s hs
        exact (ih s hs).mp (hAll s hs)
      · intro hAll s hs
        exact (ih s hs).mpr (hAll s hs)

variable {Γ Δ : Var → Prop}

/- Typing is kept when more signals may be mentioned. -/
theorem Typed.mono
    {s : Stmt}
    (hSub : ∀ v, s.Mentions v → Γ v → Δ v)
    (hs : s.Typed Γ) :
    s.Typed Δ := by
  induction s with
  | assign a =>
      rcases hs with ⟨hTarget, hValue, hWidths⟩
      refine ⟨hTarget.mono ?_, hValue.mono ?_, hWidths⟩
      · intro v hv
        rw [Target.occurrences_toExpr] at hv
        exact hSub v (Or.inl hv)
      · intro v hv
        exact hSub v (Or.inr hv)
  | ifThen c t ih =>
      rcases hs with ⟨hc, hWidth, ht⟩
      refine ⟨hc.mono ?_, hWidth, ih ?_ ht⟩
      · intro v hv
        exact hSub v (Or.inr (List.mem_append_left _ hv))
      · rintro v (hv | hv)
        · exact hSub v (Or.inl hv)
        · exact hSub v (Or.inr (List.mem_append_right _ hv))
  | ifElse c t e iht ihe =>
      rcases hs with ⟨hc, hWidth, ht, he⟩
      refine ⟨hc.mono ?_, hWidth, iht ?_ ht, ihe ?_ he⟩
      · intro v hv
        exact hSub v (Or.inr (List.mem_append_left _ hv))
      · rintro v (hv | hv)
        · exact hSub v (Or.inl (List.mem_append_left _ hv))
        · exact hSub v (Or.inr (List.mem_append_right _
            (List.mem_append_left _ hv)))
      · rintro v (hv | hv)
        · exact hSub v (Or.inl (List.mem_append_right _ hv))
        · exact hSub v (Or.inr (List.mem_append_right _
            (List.mem_append_right _ hv)))
  | case s arms ih =>
      rcases hs with ⟨hs, hCheck, hArms⟩
      refine ⟨hs.mono ?_, hCheck, typedArms_iff.mpr ?_⟩
      · intro v hv
        exact hSub v (Or.inr (List.mem_append_left _ hv))
      · intro arm hArm
        apply ih arm hArm _ (typedArms_iff.mp hArms arm hArm)
        rintro v (hv | hv)
        · exact hSub v
            (Or.inl (mem_targetsArms.mpr ⟨arm, hArm, hv⟩))
        · exact hSub v (Or.inr (List.mem_append_right _
            (mem_readingsArms.mpr ⟨arm, hArm, hv⟩)))
  | block ss ih =>
      apply typedAll_iff.mpr
      intro s hMem
      apply ih s hMem _ (typedAll_iff.mp hs s hMem)
      rintro v (hv | hv)
      · exact hSub v (Or.inl (mem_targetsAll.mpr ⟨s, hMem, hv⟩))
      · exact hSub v
          (Or.inr (mem_readingsAll.mpr ⟨s, hMem, hv⟩))

/- A typed statement mentions only signals of its set. -/
theorem Typed.mem
    {s : Stmt}
    (hs : s.Typed Γ)
    {v : Var}
    (hv : s.Mentions v) :
    Γ v := by
  induction s with
  | assign a =>
      rcases hs with ⟨hTarget, hValue, _⟩
      rcases hv with hv | hv
      · exact hTarget.mem
          ((Target.occurrences_toExpr a.target).symm ▸ hv)
      · exact hValue.mem hv
  | ifThen c t ih =>
      rcases hs with ⟨hc, _, ht⟩
      rcases hv with hv | hv
      · exact ih ht (Or.inl hv)
      · rcases List.mem_append.mp hv with hv | hv
        · exact hc.mem hv
        · exact ih ht (Or.inr hv)
  | ifElse c t e iht ihe =>
      rcases hs with ⟨hc, _, ht, he⟩
      rcases hv with hv | hv
      · rcases List.mem_append.mp hv with hv | hv
        · exact iht ht (Or.inl hv)
        · exact ihe he (Or.inl hv)
      · rcases List.mem_append.mp hv with hv | hv
        · exact hc.mem hv
        · rcases List.mem_append.mp hv with hv | hv
          · exact iht ht (Or.inr hv)
          · exact ihe he (Or.inr hv)
  | case s arms ih =>
      rcases hs with ⟨hs, _, hArms⟩
      have hBody := typedArms_iff.mp hArms
      rcases hv with hv | hv
      · rcases mem_targetsArms.mp hv with ⟨arm, hArm, hv⟩
        exact ih arm hArm (hBody arm hArm) (Or.inl hv)
      · rcases List.mem_append.mp hv with hv | hv
        · exact hs.mem hv
        · rcases mem_readingsArms.mp hv with ⟨arm, hArm, hv⟩
          exact ih arm hArm (hBody arm hArm) (Or.inr hv)
  | block ss ih =>
      have hAll := typedAll_iff.mp hs
      rcases hv with hv | hv
      · rcases mem_targetsAll.mp hv with ⟨s, hMem, hv⟩
        exact ih s hMem (hAll s hMem) (Or.inl hv)
      · rcases mem_readingsAll.mp hv with ⟨s, hMem, hv⟩
        exact ih s hMem (hAll s hMem) (Or.inr hv)

/- A valid statement is typed over what it mentions. -/
theorem typed_mentions_of_validate
    {s : Stmt}
    (hValid : s.validate = .ok ()) :
    s.Typed s.Mentions :=
  (validate_eq_ok_iff.mp hValid).mono (fun _ hv _ => hv)

/- It is typed over those of its signals that have a name. -/
theorem typed_named_of_validate
    {s : Stmt}
    (hValid : s.validate = .ok ()) :
    s.Typed (fun v => s.Mentions v ∧ v.HasName) :=
  (validate_eq_ok_iff.mp hValid).mono (fun _ hv hName => ⟨hv, hName⟩)

/- A statement typed over named signals is valid. -/
theorem Typed.validate
    {s : Stmt}
    (hs : s.Typed Γ)
    (hNamed : ∀ v, Γ v → v.HasName) :
    s.validate = .ok () :=
  validate_eq_ok_iff.mpr (hs.mono (fun v _ hv => hNamed v hv))

end Stmt

end Gatework
