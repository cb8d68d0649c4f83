import Gatework.Proofs.Flatten.Correctness

/-
  The order of reads and writes in a process.

  A statement cut out of a process starts from the values
  that signals have after the whole process. It still comes
  to the value it has within the process if every signal it
  reads is either set by itself first, or has its last value
  by then.

  Key definitions include:
    * `Stmt.sets`, a signal set as a whole on every path
    * `Stmt.inOrder`
    * `Stmt.Tracks`, a run on last values beside the one
      within the process

  Key theorems include:
    * `Stmt.Tracks.value_eq`
    * `Stmt.run_tracks`
-/

------------------------------------------------------------
-- Order
------------------------------------------------------------

namespace Gatework

/-
  The signals of an expression are known: each has been set,
  or is not among the open ones.
-/
def Expr.known
    (set unsettled : String → Bool)
    (e : Expr) :
    Bool :=
  e.freeVars.names.all fun n => set n || !unsettled n

namespace Stmt

/- A statement writes a name on some path. -/
def writesName
    (s : Stmt)
    (n : String) :
    Bool :=
  s.writes.names.contains n

mutual

/- A statement gives a name a new value on every path. -/
def sets
    (n : String) :
    Stmt → Bool
  | assign a => a.target.field?.isNone && a.var.name == n
  | ifThen _ _ => false
  | ifElse _ t e => sets n t && sets n e
  | case _ arms => arms.any Arm.isDefault && setsArms n arms
  | block ss => setsAll n ss

def setsAll
    (n : String) :
    List Stmt → Bool
  | [] => false
  | s :: ss => sets n s || setsAll n ss

def setsArms
    (n : String) :
    List (Arm Stmt) → Bool
  | [] => true
  | ⟨_, _, s⟩ :: arms => sets n s && setsArms n arms

end

mutual

/-
  Every read is of a signal that has been set or that is
  settled, where what is written from the read on is not.
-/
def inOrder
    (set unsettled : String → Bool) :
    Stmt → Bool
  | assign a =>
      a.value.known set fun n =>
        unsettled n || (assign a).writesName n
  | ifThen c t =>
      (c.known set fun n => unsettled n || (ifThen c t).writesName n) &&
        inOrder set unsettled t
  | ifElse c t e =>
      (c.known set fun n =>
        unsettled n || (ifElse c t e).writesName n) &&
        inOrder set unsettled t && inOrder set unsettled e
  | case s arms =>
      (s.known set fun n => unsettled n || (case s arms).writesName n) &&
        inOrderArms set unsettled arms
  | block ss => inOrderAll set unsettled ss

def inOrderAll
    (set unsettled : String → Bool) :
    List Stmt → Bool
  | [] => true
  | s :: ss =>
      inOrder set (fun n => unsettled n || (block ss).writesName n) s &&
        inOrderAll (fun n => set n || sets n s) unsettled ss

def inOrderArms
    (set unsettled : String → Bool) :
    List (Arm Stmt) → Bool
  | [] => true
  | ⟨_, _, s⟩ :: arms =>
      inOrder set unsettled s && inOrderArms set unsettled arms

end

variable {set unsettled : String → Bool}

theorem writesName_eq_true_iff
    {s : Stmt}
    {n : String} :
    s.writesName n = true ↔ s.Writes n := by
  unfold writesName Writes
  rw [← mem_names_writes, List.contains_iff_mem]

theorem writesName_eq_false_iff
    {s : Stmt}
    {n : String} :
    s.writesName n = false ↔ ¬ s.Writes n := by
  rw [← writesName_eq_true_iff, Bool.not_eq_true]

theorem setsArms_iff
    {n : String}
    {arms : List (Arm Stmt)} :
    setsArms n arms = true ↔
      ∀ arm ∈ arms, sets n arm.body = true := by
  induction arms with
  | nil => simp [setsArms]
  | cons arm arms ih =>
      rcases arm with ⟨labels, isDefault, body⟩
      simp [setsArms, ih]

theorem inOrderArms_iff
    {arms : List (Arm Stmt)} :
    inOrderArms set unsettled arms = true ↔
      ∀ arm ∈ arms, inOrder set unsettled arm.body = true := by
  induction arms with
  | nil => simp [inOrderArms]
  | cons arm arms ih =>
      rcases arm with ⟨labels, isDefault, body⟩
      simp [inOrderArms, ih]

end Stmt

end Gatework

------------------------------------------------------------
-- Last values
------------------------------------------------------------

namespace Gatework

namespace Stmt

variable {Γ : Var → Prop}
variable {τ : String → Nat}

/- A name that is not written keeps its value. -/
theorem after_of_not_writes
    {s : Stmt}
    (hs : s.Typed Γ)
    {n : String}
    (hn : ¬ s.Writes n)
    (σ : String → Nat) :
    s.after σ n = σ n := by
  apply after_keeps (T := fun v => v.name ≠ n)
    (I := fun σ' => σ' n = σ n) ?_ hs ?_ rfl
  · intro a σ' ha _ hKept
    rw [Assign.after, if_neg ha.symm]
    exact hKept
  · rintro v hv rfl
    exact hn (List.mem_map_of_mem hv)

/- Signals that are settled have their last values. -/
def Last
    (Γ : Var → Prop)
    (τ : String → Nat)
    (unsettled : String → Bool)
    (σ : String → Nat) :
    Prop :=
  ∀ v, Γ v → unsettled v.name = false → ∀ i < v.width,
    (σ v.name).testBit i = (τ v.name).testBit i

/- Before a statement, what it does not write is settled. -/
theorem Last.before
    {s : Stmt}
    (hs : s.Typed Γ)
    {unsettled : String → Bool}
    {σ : String → Nat}
    (hLast : Last Γ τ unsettled (s.after σ)) :
    Last Γ τ (fun n => unsettled n || s.writesName n) σ := by
  intro v hv hSettled i hi
  rw [Bool.or_eq_false_iff, writesName_eq_false_iff] at hSettled
  rw [← after_of_not_writes hs hSettled.2 σ]
  exact hLast v hv hSettled.1 i hi

end Stmt

end Gatework

------------------------------------------------------------
-- Runs on last values
------------------------------------------------------------

namespace Gatework

namespace Stmt

variable {Γ : Var → Prop}
variable {p : Fallback}
variable {ρ : Valuation}
variable {τ start : String → Nat}
variable {mixed set set' : String → Bool}
variable {w : Written}
variable {σ : String → Nat}

/-
  What has been written on top of last values `τ`, beside the
  values `σ` in a process that was at `start` before. Signals
  that have been set are equal. Unless a signal is mixed, that
  is, written before and again, each of its bits is equal or
  has its last value.
-/
structure Tracks
    (Γ : Var → Prop)
    (p : Fallback)
    (τ start : String → Nat)
    (mixed set : String → Bool)
    (w : Written)
    (σ : String → Nat) :
    Prop where
  small : ∀ v, Γ v → w.current τ v.name < 2 ^ v.width
  same : ∀ v, Γ v → set v.name = true → ∀ i < v.width,
    (w.current τ v.name).testBit i = (σ v.name).testBit i
  near : ∀ v, Γ v → mixed v.name = false → ∀ i < v.width,
    (w.current τ v.name).testBit i = (σ v.name).testBit i ∨
      (w.current τ v.name).testBit i = (τ v.name).testBit i
  kept : ∀ n, w.find? n = none → σ n = start n
  written : p = .zero → ∀ n, set n = true →
    w.find? n ≠ none

theorem Tracks.mono
    (h : Tracks Γ p τ start mixed set w σ)
    (hSet : ∀ n, set' n = true → set n = true) :
    Tracks Γ p τ start mixed set' w σ where
  small := h.small
  same := fun v hv hn => h.same v hv (hSet v.name hn)
  near := h.near
  kept := h.kept
  written := fun hp n hn => h.written hp n (hSet n hn)

/- An expression whose signals are known has one value. -/
theorem Tracks.value_eq
    (h : Tracks Γ p τ start mixed set w σ)
    {unsettled : String → Bool}
    (hMixed : ∀ n, unsettled n = false → mixed n = false)
    (hLast : Last Γ τ unsettled σ)
    {e : Expr}
    (he : e.Typed Γ)
    (hKnown : e.known set unsettled = true) :
    e.value (w.current τ) = e.value σ := by
  have hBits : ∀ v ∈ e.occurrences, ∀ i < v.width,
      (w.current τ v.name).testBit i = (σ v.name).testBit i := by
    intro v hv i hi
    have hName := (Expr.mem_names_freeVars e v.name).mpr
      (List.mem_map_of_mem hv)
    have hOk := List.all_eq_true.mp hKnown v.name hName
    rw [Bool.or_eq_true, Bool.not_eq_true'] at hOk
    rcases hOk with hSet | hSettled
    · exact h.same v (he.mem hv) hSet i hi
    · have hEnd := hLast v (he.mem hv) hSettled i hi
      rcases h.near v (he.mem hv) (hMixed _ hSettled) i hi with
        hSame | hFinal
      · exact hSame
      · exact hFinal.trans hEnd.symm
  apply Expr.value_congr
  intro v hv
  apply Nat.eq_of_testBit_eq
  intro i
  rw [Nat.testBit_and, Nat.testBit_and, testBit_mask]
  by_cases hi : i < v.width
  · rw [hBits v hv i hi]
  · rw [decide_eq_false (by omega), Bool.and_false, Bool.and_false]

/- The same assignment on both sides. -/
theorem Tracks.assign
    (hOne : OneWidth Γ)
    (h : Tracks Γ p τ start mixed set w σ)
    {a : Assign}
    (ha : (Stmt.assign a).Typed Γ)
    (hValue : a.value.value (w.current τ) = a.value.value σ)
    {w' : Written}
    (hCurrent : Written.current w' τ = a.after (w.current τ))
    (hFind : ∀ n, w'.find? n = none →
      w.find? n = none ∧ n ≠ a.var.name) :
    Tracks Γ p τ start mixed
      (fun n => set n || (Stmt.assign a).sets n) w'
      (a.after σ) := by
  have hVar := Target.typed_var ha.1
  have hMax : a.var.width ≤ maxWidth := hVar.2.1
  have hField := Target.width_le ha.1
  have hWidth : ∀ v, Γ v → v.name = a.var.name →
      v.width = a.var.width :=
    fun v hv hName => hOne v a.var hv hVar.2.2 hName
  -- A bit of the target is written, or as it was.
  have hBit : ∀ i < a.var.width, ∀ σ' : String → Nat,
      (a.after σ' a.var.name).testBit i =
        if a.target.low ≤ i ∧ i < a.target.low + a.target.width
        then (a.value.value σ').testBit (i - a.target.low)
        else (σ' a.var.name).testBit i := by
    intro i hi σ'
    rw [Assign.after, if_pos rfl, testBit_and_mask hMax hi,
      testBit_replaceBits hField]
  have hOther : ∀ n, n ≠ a.var.name → ∀ σ' : String → Nat,
      a.after σ' n = σ' n := by
    intro n hn σ'
    rw [Assign.after, if_neg hn]
  constructor
  case small =>
      intro v hv
      rw [hCurrent]
      by_cases hName : v.name = a.var.name
      · rw [Assign.after, if_pos hName, hWidth v hv hName]
        exact and_mask_lt hMax _
      · rw [hOther _ hName]
        exact h.small v hv
  case same =>
      intro v hv hSet i hi
      rw [hCurrent]
      by_cases hName : v.name = a.var.name
      · rw [hWidth v hv hName] at hi
        rw [hName, hBit i hi, hBit i hi, hValue]
        split
        case isTrue => rfl
        case isFalse hOut =>
            rcases (Bool.or_eq_true ..).mp hSet with hOld | hNew
            · have hSame := h.same v hv hOld i
                (hWidth v hv hName ▸ hi)
              rw [hName] at hSame
              exact hSame
            · exfalso
              rw [sets, Bool.and_eq_true,
                Option.isNone_iff_eq_none] at hNew
              apply hOut
              rw [Target.low, hNew.1, Option.getD_none,
                Target.width_of_field?_eq_none hNew.1]
              exact ⟨Nat.zero_le i, by
                rw [Nat.zero_add]
                exact hi⟩
      · rw [hOther _ hName, hOther _ hName]
        apply h.same v hv _ i hi
        rcases (Bool.or_eq_true ..).mp hSet with hOld | hNew
        · exact hOld
        · rw [sets, Bool.and_eq_true, beq_iff_eq] at hNew
          exact absurd hNew.2.symm hName
  case near =>
      intro v hv hMixed i hi
      rw [hCurrent]
      by_cases hName : v.name = a.var.name
      · rw [hWidth v hv hName] at hi
        have hOld := h.near v hv hMixed i (hWidth v hv hName ▸ hi)
        rw [hName] at hOld ⊢
        rw [hBit i hi, hBit i hi, hValue]
        split
        · exact Or.inl rfl
        · exact hOld
      · rw [hOther _ hName, hOther _ hName]
        exact h.near v hv hMixed i hi
  case kept =>
      intro n hn
      rcases hFind n hn with ⟨hNone, hName⟩
      rw [hOther n hName]
      exact h.kept n hNone
  case written =>
      intro hp n hn hNone
      rcases hFind n hNone with ⟨hOld, hName⟩
      rcases (Bool.or_eq_true ..).mp hn with hSet | hNew
      · exact h.written hp n hSet hOld
      · rw [sets, Bool.and_eq_true, beq_iff_eq] at hNew
        exact hName hNew.2.symm

/- What is open after an insertion is another open name. -/
theorem find?_of_insert
    {n m : String}
    {x : Nat}
    (hNone : (w.insert n x).find? m = none) :
    w.find? m = none ∧ m ≠ n := by
  rw [NameMap.find?_insert] at hNone
  split at hNone
  case isTrue => cases hNone
  case isFalse hOther => exact ⟨hNone, hOther⟩

/- A name is held at its last value. -/
theorem Tracks.insertHeld
    (h : Tracks Γ p τ start mixed set w σ)
    {n : String}
    (hOpen : w.contains n = false) :
    Tracks Γ p τ start mixed set (w.insert n (τ n)) σ := by
  have hSame := Written.current_insert_same (τ := τ) hOpen
  constructor
  case small => rw [hSame]; exact h.small
  case same => rw [hSame]; exact h.same
  case near => rw [hSame]; exact h.near
  case kept => exact fun m hm => h.kept m (find?_of_insert hm).1
  case written =>
      exact fun hp m hm hNone => h.written hp m hm (find?_of_insert hNone).1

/- An open name is set to 0, which it is in the process. -/
theorem Tracks.insertZero
    (h : Tracks Γ .zero τ start mixed set w σ)
    {n : String}
    (hOpen : w.contains n = false)
    (hZero : mixed n = false → start n = 0) :
    Tracks Γ .zero τ start mixed set (w.insert n 0) σ := by
  have hNone : w.find? n = none := by
    simpa [NameMap.contains] using hOpen
  have hCurrent : ∀ m, Written.current (w.insert n 0) τ m =
      if m = n then 0 else w.current τ m :=
    fun m => congrFun (Written.current_insert w τ n 0) m
  constructor
  case small =>
      intro v hv
      rw [hCurrent]
      split
      · exact Nat.two_pow_pos _
      · exact h.small v hv
  case same =>
      intro v hv hSet i hi
      rw [hCurrent]
      split
      case isTrue hName =>
          exact absurd (hName ▸ hNone) (h.written rfl _ hSet)
      case isFalse => exact h.same v hv hSet i hi
  case near =>
      intro v hv hMixed i hi
      rw [hCurrent]
      split
      case isTrue hName =>
          rw [h.kept v.name (hName ▸ hNone),
            hName, hZero (hName ▸ hMixed)]
          exact Or.inl rfl
      case isFalse => exact h.near v hv hMixed i hi
  case kept => exact fun m hm => h.kept m (find?_of_insert hm).1
  case written =>
      exact fun hp m hm hOpen => h.written hp m hm (find?_of_insert hOpen).1

/-
  The fallback gives names their last values or 0. It is 0 in
  the process as well unless the name is mixed.
-/
theorem Tracks.fallback
    (hBound : ∀ v, Γ v → ρ v.name = some (τ v.name))
    {names : List String}
    (hNames : ∀ n ∈ names, ∃ v, Γ v ∧ v.name = n)
    (hZero : p = .zero → ∀ n ∈ names, mixed n = false →
      start n = 0)
    (h : Tracks Γ p τ start mixed set w σ) :
    ∃ w', applyFallback ρ p names w = .ok w' ∧
      Tracks Γ p τ start mixed set w' σ := by
  induction names generalizing w with
  | nil => exact ⟨w, rfl, h⟩
  | cons n names ih =>
      have hRest : ∀ {w' : Written},
          Tracks Γ p τ start mixed set w' σ →
          ∃ w'', applyFallback ρ p names w' = .ok w'' ∧
            Tracks Γ p τ start mixed set w'' σ :=
        fun h' => ih
          (fun m hm => hNames m (List.mem_cons_of_mem _ hm))
          (fun hp m hm => hZero hp m (List.mem_cons_of_mem _ hm))
          h'
      unfold applyFallback
      cases hOpen : w.contains n with
      | true => exact hRest h
      | false =>
          rcases hNames n (List.mem_cons_self ..) with
            ⟨v, hv, rfl⟩
          cases hp : p with
          | zero =>
              subst hp
              exact hRest (h.insertZero (hOpen)
                (hZero rfl v.name (List.mem_cons_self ..)))
          | hold =>
              rw [hBound v hv]
              subst hp
              exact hRest (h.insertHeld hOpen)

/- The arm that is run is the arm that is taken. -/
theorem runArm_cases
    (picked : Arm Unit → Bool)
    (arms : List (Arm Stmt)) :
    (runArm ρ p w picked arms = none ∧
        afterArm σ picked arms = none ∧
        ∀ arm ∈ arms,
          picked ⟨arm.labels, arm.isDefault, ()⟩ = false) ∨
      ∃ arm ∈ arms,
        runArm ρ p w picked arms = some (run ρ p w arm.body) ∧
        afterArm σ picked arms = some (arm.body.after σ) := by
  induction arms with
  | nil => exact Or.inl ⟨rfl, rfl, nofun⟩
  | cons arm arms ih =>
      rcases arm with ⟨labels, d, s⟩
      rw [runArm, afterArm]
      cases hPicked : picked ⟨labels, d, ()⟩ with
      | true =>
          exact Or.inr ⟨⟨labels, d, s⟩, List.mem_cons_self ..,
            rfl, rfl⟩
      | false =>
          rcases ih with ⟨hRun, hAfter, hNone⟩ |
            ⟨arm, hArm, hTaken⟩
          · exact Or.inl ⟨hRun, hAfter,
              List.forall_mem_cons.mpr ⟨hPicked, hNone⟩⟩
          · exact Or.inr ⟨arm, List.mem_cons_of_mem _ hArm,
              hTaken⟩

theorem exec_tracks
    (hOne : OneWidth Γ)
    (hBound : ∀ v, Γ v → ρ v.name = some (τ v.name))
    {a : Assign}
    (ha : (Stmt.assign a).Typed Γ)
    (h : Tracks Γ p τ start mixed set w σ)
    (hValue : a.value.value (w.current τ) = a.value.value σ) :
    ∃ w', a.exec ρ w = .ok w' ∧
      Tracks Γ p τ start mixed
        (fun n => set n || (Stmt.assign a).sets n) w'
        (a.after σ) := by
  have hTarget := hBound a.var (Target.typed_var ha.1).2.2
  have hEval := eval_onTop
    (fun v hv => hBound v (ha.2.1.mem hv)) w
  let new :=
    replaceBits (w.current τ a.var.name) a.target.low
        a.target.width (a.value.value (w.current τ)) &&&
      mask a.var.width
  refine ⟨w.insert a.var.name new, ?_, ?_⟩
  · unfold Assign.exec
    rw [hEval, Written.onTop_eq_current hTarget]
    rfl
  · apply h.assign hOne ha hValue
    · rw [Written.current_insert]
      rfl
    · exact fun n hn => find?_of_insert hn

/- A condition that is known before a statement. -/
theorem Tracks.eval_eq
    (hBound : ∀ v, Γ v → ρ v.name = some (τ v.name))
    (h : Tracks Γ p τ start mixed set w σ)
    {s : Stmt}
    (hs : s.Typed Γ)
    {unsettled : String → Bool}
    (hMixed : ∀ n, unsettled n = false → mixed n = false)
    (hLast : Last Γ τ unsettled (s.after σ))
    {e : Expr}
    (he : e.Typed Γ)
    (hKnown : e.known set
      (fun n => unsettled n || s.writesName n) = true) :
    e.eval (w.onTop ρ) = .ok (e.value σ) := by
  rw [← h.value_eq
    (fun n hn => hMixed n (Bool.or_eq_false_iff.mp hn).1)
    (hLast.before hs) he hKnown]
  exact eval_onTop (fun v hv => hBound v (he.mem hv)) w

/- A statement that is left out falls back. -/
theorem Tracks.leave
    (hBound : ∀ v, Γ v → ρ v.name = some (τ v.name))
    (h : Tracks Γ p τ start mixed set w σ)
    {s : Stmt}
    (hs : s.Typed Γ)
    (hZero : p = .zero → ∀ n, s.Writes n → mixed n = false →
      start n = 0) :
    ∃ w', applyFallback ρ p s.writes.names w = .ok w' ∧
      Tracks Γ p τ start mixed set w' σ := by
  have hNames : ∀ n ∈ s.writes.names, s.Writes n :=
    fun n hn => (mem_names_writes s n).mp hn
  refine h.fallback hBound ?_
    (fun hp n hn => hZero hp n (hNames n hn))
  intro n hn
  rcases List.mem_map.mp (hNames n hn) with ⟨v, hv, rfl⟩
  exact ⟨v, hs.mem (Or.inl hv), rfl⟩

/-
  A statement runs on last values beside its run in the
  process, whatever has been set before and is settled in the
  end.
-/
def RunsBeside
    (Γ : Var → Prop)
    (p : Fallback)
    (ρ : Valuation)
    (τ start : String → Nat)
    (mixed : String → Bool)
    (s : Stmt) :
    Prop :=
  ∀ set unsettled w σ,
    (∀ n, unsettled n = false → mixed n = false) →
    s.inOrder set unsettled = true →
    Tracks Γ p τ start mixed set w σ →
    Last Γ τ unsettled (s.after σ) →
    ∃ w', run ρ p w s = .ok w' ∧
      Tracks Γ p τ start mixed (fun n => set n || s.sets n) w'
        (s.after σ)

theorem runsBeside_ifThen
    (hBound : ∀ v, Γ v → ρ v.name = some (τ v.name))
    {c : Expr}
    {t : Stmt}
    (hs : (ifThen c t).Typed Γ)
    (hZero : p = .zero → ∀ n, t.Writes n → mixed n = false →
      start n = 0)
    (ht : RunsBeside Γ p ρ τ start mixed t) :
    RunsBeside Γ p ρ τ start mixed (ifThen c t) := by
  intro set unsettled w σ hMixed hOrder h hLast
  rw [inOrder, Bool.and_eq_true] at hOrder
  have hCond := h.eval_eq hBound hs hMixed hLast hs.1 hOrder.1
  have hSet : ∀ n, (set n || (ifThen c t).sets n) = true →
      set n = true := by
    intro n hn
    rw [sets, Bool.or_false] at hn
    exact hn
  rw [run, hCond, ok_bind]
  rw [after] at hLast ⊢
  split at hLast
  case isTrue hTaken =>
      rw [if_pos hTaken, if_pos hTaken]
      rcases ht set unsettled w σ hMixed hOrder.2 h hLast with
        ⟨w', hRun, h'⟩
      refine ⟨w', hRun, h'.mono ?_⟩
      intro n hn
      rw [hSet n hn, Bool.true_or]
  case isFalse hNot =>
      rw [if_neg hNot, if_neg hNot]
      rcases h.leave hBound hs.2.2 hZero with ⟨w', hRun, h'⟩
      exact ⟨w', hRun, h'.mono hSet⟩

theorem runsBeside_ifElse
    (hBound : ∀ v, Γ v → ρ v.name = some (τ v.name))
    {c : Expr}
    {t e : Stmt}
    (hs : (ifElse c t e).Typed Γ)
    (ht : RunsBeside Γ p ρ τ start mixed t)
    (he : RunsBeside Γ p ρ τ start mixed e) :
    RunsBeside Γ p ρ τ start mixed (ifElse c t e) := by
  intro set unsettled w σ hMixed hOrder h hLast
  rw [inOrder, Bool.and_eq_true, Bool.and_eq_true] at hOrder
  have hCond := h.eval_eq hBound hs hMixed hLast hs.1
    hOrder.1.1
  have hSet : ∀ n, (set n || (ifElse c t e).sets n) = true →
      (set n || t.sets n) = true ∧
        (set n || e.sets n) = true := by
    intro n hn
    rw [sets, Bool.or_and_distrib_left, Bool.and_eq_true] at hn
    exact hn
  rw [run, hCond, ok_bind]
  rw [after] at hLast ⊢
  split at hLast
  case isTrue hTaken =>
      rw [if_pos hTaken, if_pos hTaken]
      rcases ht set unsettled w σ hMixed hOrder.1.2 h hLast with
        ⟨w', hRun, h'⟩
      exact ⟨w', hRun, h'.mono fun n hn => (hSet n hn).1⟩
  case isFalse hNot =>
      rw [if_neg hNot, if_neg hNot]
      rcases he set unsettled w σ hMixed hOrder.2 h hLast with
        ⟨w', hRun, h'⟩
      exact ⟨w', hRun, h'.mono fun n hn => (hSet n hn).2⟩

theorem runsBeside_block
    {ss : List Stmt}
    (hs : (block ss).Typed Γ)
    (hAll : ∀ s ∈ ss, RunsBeside Γ p ρ τ start mixed s) :
    RunsBeside Γ p ρ τ start mixed (block ss) := by
  induction ss with
  | nil =>
      intro set unsettled w σ hMixed hOrder h hLast
      refine ⟨w, rfl, h.mono ?_⟩
      intro n hn
      rw [sets, setsAll, Bool.or_false] at hn
      exact hn
  | cons s ss ih =>
      intro set unsettled w σ hMixed hOrder h hLast
      rw [inOrder, inOrderAll, Bool.and_eq_true] at hOrder
      have hRest : Last Γ τ unsettled
          ((block ss).after (s.after σ)) := hLast
      rcases hAll s (List.mem_cons_self ..) set _ w σ
          (fun n hn => hMixed n (Bool.or_eq_false_iff.mp hn).1)
          hOrder.1 h
          (Last.before (s := block ss) hs.2 hRest) with
        ⟨w₁, hRun, h₁⟩
      rcases ih hs.2
          (fun s' h' => hAll s' (List.mem_cons_of_mem _ h'))
          _ unsettled w₁ (s.after σ) hMixed hOrder.2 h₁ hRest with
        ⟨w₂, hRun', h₂⟩
      refine ⟨w₂, ?_, h₂.mono ?_⟩
      · rw [run, runAll, hRun]
        exact hRun'
      · intro n hn
        rw [sets, setsAll, ← Bool.or_assoc] at hn
        exact hn

theorem runsBeside_case
    (hBound : ∀ v, Γ v → ρ v.name = some (τ v.name))
    {selector : Expr}
    {arms : List (Arm Stmt)}
    (hs : (case selector arms).Typed Γ)
    (hZero : p = .zero → ∀ n, (case selector arms).Writes n →
      mixed n = false → start n = 0)
    (hAll : ∀ arm ∈ arms,
      RunsBeside Γ p ρ τ start mixed arm.body) :
    RunsBeside Γ p ρ τ start mixed (case selector arms) := by
  intro set unsettled w σ hMixed hOrder h hLast
  rw [inOrder, Bool.and_eq_true] at hOrder
  have hSelector := h.eval_eq hBound hs hMixed hLast hs.1
    hOrder.1
  have hArms := inOrderArms_iff.mp hOrder.2
  have hTaken : ∀ arm ∈ arms,
      (case selector arms).after σ = arm.body.after σ →
      ∃ w', run ρ p w arm.body = .ok w' ∧
        Tracks Γ p τ start mixed
          (fun n => set n || (case selector arms).sets n) w'
          ((case selector arms).after σ) := by
    intro arm hArm hAfter
    rw [hAfter] at hLast ⊢
    rcases hAll arm hArm set unsettled w σ hMixed
        (hArms arm hArm) h hLast with ⟨w', hRun, h'⟩
    refine ⟨w', hRun, h'.mono ?_⟩
    intro n hn
    rw [Bool.or_eq_true, sets, Bool.and_eq_true] at hn
    rw [Bool.or_eq_true]
    exact hn.imp id fun hSets => setsArms_iff.mp hSets.2 arm hArm
  rw [run, hSelector, ok_bind]
  rw [after] at hTaken ⊢
  rcases runArm_cases (ρ := ρ) (p := p) (w := w) (σ := σ)
      (hits selector.width (selector.value σ)) arms with
    ⟨hRun, hAfter, _⟩ | ⟨arm, hArm, hRun, hAfter⟩
  · rw [hRun, hAfter]
    rw [hAfter] at hTaken
    rcases runArm_cases (ρ := ρ) (p := p) (w := w) (σ := σ)
        Arm.isDefault arms with
      ⟨hRun', hAfter', hNone⟩ | ⟨arm, hArm, hRun', hAfter'⟩
    · rw [hRun', hAfter']
      rcases h.leave hBound hs hZero with ⟨w', hLeft, h'⟩
      refine ⟨w', hLeft, h'.mono ?_⟩
      intro n hn
      -- Without a default nothing is set.
      have hOpen : arms.any Arm.isDefault = false :=
        List.any_eq_false.mpr fun arm hArm => by
          rw [hNone arm hArm]
          exact Bool.false_ne_true
      rw [sets, hOpen, Bool.false_and, Bool.or_false] at hn
      exact hn
    · rw [hRun', hAfter']
      rw [hAfter'] at hTaken
      exact hTaken arm hArm rfl
  · rw [hRun, hAfter]
    rw [hAfter] at hTaken
    exact hTaken arm hArm rfl

/-
  A run on last values stays beside the one in the process.
-/
theorem run_tracks
    (hOne : OneWidth Γ)
    (hBound : ∀ v, Γ v → ρ v.name = some (τ v.name))
    {s : Stmt}
    (hs : s.Typed Γ)
    (hZero : p = .zero → ∀ n, s.Writes n → mixed n = false →
      start n = 0) :
    RunsBeside Γ p ρ τ start mixed s := by
  induction s with
  | assign a =>
      intro set unsettled w σ hMixed hOrder h hLast
      exact exec_tracks hOne hBound hs h (h.value_eq
        (fun n hn => hMixed n (Bool.or_eq_false_iff.mp hn).1)
        (hLast.before hs) hs.2.1 hOrder)
  | ifThen c t ih =>
      exact runsBeside_ifThen hBound hs hZero (ih hs.2.2 hZero)
  | ifElse c t e iht ihe =>
      apply runsBeside_ifElse hBound hs
      · exact iht hs.2.2.1 fun hp n hn =>
          hZero hp n (writes_ifElse.mpr (Or.inl hn))
      · exact ihe hs.2.2.2 fun hp n hn =>
          hZero hp n (writes_ifElse.mpr (Or.inr hn))
  | case s arms ih =>
      apply runsBeside_case hBound hs hZero
      intro arm hArm
      exact ih arm hArm (typedArms_iff.mp hs.2.2 arm hArm)
        fun hp n hn => hZero hp n
          (writes_case.mpr ⟨arm, hArm, hn⟩)
  | block ss ih =>
      apply runsBeside_block hs
      intro s hMem
      apply ih s hMem (typedAll_iff.mp hs s hMem)
      intro hp n hn
      apply hZero hp n
      rcases List.mem_map.mp hn with ⟨v, hv, rfl⟩
      exact List.mem_map_of_mem (mem_targetsAll.mpr ⟨s, hMem, hv⟩)

end Stmt

end Gatework

------------------------------------------------------------
-- Cuts
------------------------------------------------------------

namespace Gatework

namespace Stmt

/- A statement of a process with those before and after it. -/
structure Cut where
  before : List Stmt
  driver : Stmt
  after : List Stmt

/- A list up to the first statement that writes a name. -/
def cutAll
    (name : String) :
    List Stmt → Option Cut
  | [] => none
  | s :: ss =>
      if s.writesName name then
        some ⟨[], s, ss⟩
      else
        (cutAll name ss).map fun cut =>
          { cut with before := s :: cut.before }

/-
  The driver of a name in a process: the only statement of a
  block that writes it, or else all of the process.
-/
def cut
    (body : Stmt)
    (name : String) :
    Cut :=
  match body with
  | block ss =>
      match cutAll name ss with
      | some cut =>
          if (block cut.after).writesName name then ⟨[], body, []⟩
          else cut
      | none => ⟨[], body, []⟩
  | _ => ⟨[], body, []⟩

theorem writes_block
    {ss : List Stmt}
    {n : String} :
    (block ss).Writes n ↔ ∃ s ∈ ss, s.Writes n := by
  induction ss with
  | nil => exact iff_of_false List.not_mem_nil (by simp)
  | cons s ss ih => simp [writes_cons, ih]

theorem cut_of_not_block
    {body : Stmt}
    (hBody : ∀ ss, body ≠ block ss)
    (name : String) :
    body.cut name = ⟨[], body, []⟩ := by
  unfold cut
  split
  case h_1 ss => exact absurd rfl (hBody ss)
  case h_2 => rfl

theorem cutAll_spec
    {name : String}
    {ss : List Stmt}
    {cut : Cut}
    (hCut : cutAll name ss = some cut) :
    ss = cut.before ++ cut.driver :: cut.after ∧
      cut.driver.writesName name = true ∧
      ∀ s ∈ cut.before, s.writesName name = false := by
  induction ss generalizing cut with
  | nil => cases hCut
  | cons s ss ih =>
      rw [cutAll] at hCut
      split at hCut
      case isTrue hWrites =>
          cases hCut
          exact ⟨rfl, hWrites, nofun⟩
      case isFalse hNot =>
          rcases Option.map_eq_some_iff.mp hCut with
            ⟨rest, hRest, rfl⟩
          rcases ih hRest with ⟨hParts, hDriver, hBefore⟩
          refine ⟨congrArg (s :: ·) hParts, hDriver, ?_⟩
          exact List.forall_mem_cons.mpr
            ⟨Bool.not_eq_true _ |>.mp hNot, hBefore⟩

/- A list without a cut does not write the name. -/
theorem cutAll_eq_none
    {name : String}
    {ss : List Stmt}
    (hCut : cutAll name ss = none) :
    ∀ s ∈ ss, s.writesName name = false := by
  induction ss with
  | nil => exact nofun
  | cons s ss ih =>
      rw [cutAll] at hCut
      split at hCut
      case isTrue => cases hCut
      case isFalse hNot =>
          exact List.forall_mem_cons.mpr
            ⟨Bool.not_eq_true _ |>.mp hNot,
              ih (Option.map_eq_none_iff.mp hCut)⟩

/-
  The driver is the one statement that is left when those
  that do not write the name are dropped.
-/
theorem driver_cut_block
    (ss : List Stmt)
    (name : String) :
    ((block ss).cut name).driver =
      match ss.filter (·.writesName name) with
      | [only] => only
      | _ => block ss := by
  unfold cut
  dsimp only
  split
  case h_2 hNone =>
      have hEmpty : ss.filter (·.writesName name) = [] :=
        List.filter_eq_nil_iff.mpr fun s hs => by
          rw [cutAll_eq_none hNone s hs]
          exact Bool.false_ne_true
      rw [hEmpty]
  case h_1 cut hCut =>
      rcases cutAll_spec hCut with ⟨hParts, hDriver, hBefore⟩
      have hFirst : cut.before.filter (·.writesName name) = [] :=
        List.filter_eq_nil_iff.mpr fun s hs => by
          rw [hBefore s hs]
          exact Bool.false_ne_true
      have hFilter : ss.filter (·.writesName name) =
          cut.driver :: cut.after.filter (·.writesName name) := by
        rw [hParts, List.filter_append, hFirst, List.nil_append,
          List.filter_cons, if_pos hDriver]
      rw [hFilter]
      split
      case isTrue hAgain =>
          rw [writesName_eq_true_iff, writes_block] at hAgain
          rcases hAgain with ⟨s, hs, hWrites⟩
          have hMem : s ∈ cut.after.filter (·.writesName name) :=
            List.mem_filter.mpr
              ⟨hs, writesName_eq_true_iff.mpr hWrites⟩
          generalize cut.after.filter (·.writesName name) = rest
            at hMem
          cases hMem <;> rfl
      case isFalse hOnly =>
          have hLast : cut.after.filter (·.writesName name) = [] :=
            List.filter_eq_nil_iff.mpr fun s hs hWrites => by
              apply hOnly
              rw [writesName_eq_true_iff, writes_block]
              exact ⟨s, hs, writesName_eq_true_iff.mp hWrites⟩
          rw [hLast]

/- Either nothing is cut, or the only writer of a block is. -/
theorem cut_cases
    (body : Stmt)
    (name : String) :
    body.cut name = ⟨[], body, []⟩ ∨
      body = block ((body.cut name).before ++
          (body.cut name).driver :: (body.cut name).after) ∧
        (body.cut name).driver.Writes name ∧
        ∀ s ∈ (body.cut name).before ++ (body.cut name).after,
          ¬ s.Writes name := by
  unfold cut
  split
  case h_2 => exact Or.inl rfl
  case h_1 ss =>
      split
      case h_2 => exact Or.inl rfl
      case h_1 cut hCut =>
          split
          case isTrue => exact Or.inl rfl
          case isFalse hAfter =>
              rcases cutAll_spec hCut with ⟨rfl, hDriver, hBefore⟩
              refine Or.inr ⟨rfl,
                writesName_eq_true_iff.mp hDriver, ?_⟩
              intro s hs
              rcases List.mem_append.mp hs with hs | hs
              · exact writesName_eq_false_iff.mp (hBefore s hs)
              · intro hWrites
                apply hAfter
                rw [writesName_eq_true_iff, writes_block]
                exact ⟨s, hs, hWrites⟩

variable {Γ : Var → Prop}

theorem afterAll_append
    (σ : String → Nat)
    (before after : List Stmt) :
    afterAll σ (before ++ after) =
      afterAll (afterAll σ before) after := by
  induction before generalizing σ with
  | nil => rfl
  | cons s before ih => exact ih (s.after σ)

/- A process runs the driver between the other statements. -/
theorem after_cut
    (body : Stmt)
    (name : String)
    (σ : String → Nat) :
    body.after σ =
      (block (body.cut name).after).after
        ((body.cut name).driver.after
          ((block (body.cut name).before).after σ)) := by
  rcases cut_cases body name with hCut | ⟨hBody, _⟩
  · rw [hCut]
    rfl
  · conv => lhs; rw [hBody]
    exact afterAll_append σ _ _

theorem typed_cut
    {body : Stmt}
    (hBody : body.Typed Γ)
    (name : String) :
    (body.cut name).driver.Typed Γ ∧
      (block (body.cut name).before).Typed Γ ∧
      (block (body.cut name).after).Typed Γ := by
  rcases cut_cases body name with hCut | ⟨hParts, _⟩
  · rw [hCut]
    exact ⟨hBody, trivial, trivial⟩
  · rw [hParts] at hBody
    have hAll := typedAll_iff.mp hBody
    refine ⟨?_, typedAll_iff.mpr ?_, typedAll_iff.mpr ?_⟩
    · exact hAll _ (List.mem_append_right _
        (List.mem_cons_self ..))
    · exact fun s hs => hAll s (List.mem_append_left _ hs)
    · exact fun s hs => hAll s
        (List.mem_append_right _ (List.mem_cons_of_mem _ hs))

theorem writes_of_cut
    {body : Stmt}
    {name n : String}
    (hn : (body.cut name).driver.Writes n) :
    body.Writes n := by
  rcases cut_cases body name with hCut | ⟨hParts, _⟩
  · rw [hCut] at hn
    exact hn
  · rw [hParts, writes_block]
    exact ⟨_, List.mem_append_right _ (List.mem_cons_self ..), hn⟩

/- The driver of a name that is written writes it. -/
theorem writes_driver_cut
    {body : Stmt}
    {name : String}
    (hWrites : body.Writes name) :
    (body.cut name).driver.Writes name := by
  rcases cut_cases body name with hCut | ⟨_, hDriver, _⟩
  · rw [hCut]
    exact hWrites
  · exact hDriver

/- The other statements leave the name alone. -/
theorem not_writes_around_cut
    (body : Stmt)
    (name : String) :
    ¬ (block (body.cut name).before).Writes name ∧
      ¬ (block (body.cut name).after).Writes name := by
  rcases cut_cases body name with hCut | ⟨_, _, hOnly⟩
  · rw [hCut]
    exact ⟨List.not_mem_nil, List.not_mem_nil⟩
  · rw [writes_block, writes_block]
    constructor
    · rintro ⟨s, hs, hWrites⟩
      exact hOnly s (List.mem_append_left _ hs) hWrites
    · rintro ⟨s, hs, hWrites⟩
      exact hOnly s (List.mem_append_right _ hs) hWrites

end Stmt

end Gatework
