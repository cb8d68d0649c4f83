import Gatework.Proofs.Stmt.MustWrites

/-
  The values a run writes fit their signals.

  An assignment cuts what it writes to the width of its
  signal, also where it replaces some bits of a value that is
  too large. The fallback 0 fits every signal. A value that is
  held is the one bound to the signal as it stands, and it
  stays only as long as no assignment writes the signal.

  Key definitions include:
    * `Stmt.WritesWithin`

  Key theorems include:
    * `Stmt.run_within`
    * `Stmt.exec_within_widths`
-/

------------------------------------------------------------
-- Targets
------------------------------------------------------------

namespace Gatework

namespace Stmt

variable {Γ : Var → Prop}

/- The targets of a typed statement are typed signals. -/
theorem Typed.target
    {s : Stmt}
    (hs : s.Typed Γ)
    {v : Var}
    (hv : v ∈ s.targets) :
    (Expr.var none v).Typed Γ := by
  induction s with
  | assign a =>
      rcases List.mem_singleton.mp hv with rfl
      exact Target.typed_var hs.1
  | ifThen c t ih => exact ih hs.2.2 hv
  | ifElse c t e iht ihe =>
      rcases List.mem_append.mp hv with hThen | hElse
      · exact iht hs.2.2.1 hThen
      · exact ihe hs.2.2.2 hElse
  | case selector arms ih =>
      rcases mem_targetsArms.mp hv with ⟨arm, hArm, hIn⟩
      exact ih arm hArm (typedArms_iff.mp hs.2.2 arm hArm) hIn
  | block ss ih =>
      rcases mem_targetsAll.mp hv with ⟨t, ht, hIn⟩
      exact ih t ht (typedAll_iff.mp hs t ht) hIn

end Stmt

end Gatework

------------------------------------------------------------
-- Values written
------------------------------------------------------------

namespace Gatework

namespace Stmt

variable {Γ : Var → Prop}
variable {ρ : Valuation}
variable {p : Fallback}
variable {w w' : Written}

/-
  Every name written is that of a target, and its value fits
  each signal of the name, unless it is the value that was
  bound to the name and is held.
-/
def WritesWithin
    (Γ : Var → Prop)
    (ρ : Valuation)
    (p : Fallback)
    (targets : List Var)
    (w : Written) :
    Prop :=
  ∀ k x, w.find? k = some x →
    k ∈ targets.map Var.name ∧
      ∀ v, Γ v → v.name = k →
        x < 2 ^ v.width ∨ p = .hold ∧ ρ k = some x

/- A write of a value that fits or is held is within. -/
theorem WritesWithin.insert
    {targets : List Var}
    (hWithin : WritesWithin Γ ρ p targets w)
    {u : Var}
    (hu : u ∈ targets)
    {x : Nat}
    (hx : ∀ v, Γ v → v.name = u.name →
      x < 2 ^ v.width ∨ p = .hold ∧ ρ u.name = some x) :
    WritesWithin Γ ρ p targets (w.insert u.name x) := by
  intro k y hFound
  rw [NameMap.find?_insert] at hFound
  split at hFound
  case isTrue hSame =>
      cases hFound
      subst hSame
      exact ⟨List.mem_map_of_mem hu, hx⟩
  case isFalse => exact hWithin k y hFound

/- A run of a typed statement goes on writing within. -/
theorem run_within
    (hOne : OneWidth Γ)
    {s : Stmt}
    (hs : s.Typed Γ)
    (hRun : run ρ p w s = .ok w')
    (hWithin : WritesWithin Γ ρ p s.targets w) :
    WritesWithin Γ ρ p s.targets w' := by
  refine run_keeps_writing (T := (· ∈ s.targets)) ?_ ?_
    (fun _ hv => hv) hRun hWithin
  · intro a w w' ha hExec hBefore
    have hTarget := hs.target ha
    rw [Assign.exec, bind_eq_ok_iff] at hExec
    rcases hExec with ⟨value, _, hWritten⟩
    cases hWritten
    refine hBefore.insert ha ?_
    intro v hv hName
    rw [hOne v a.var hv hTarget.2.2 hName]
    exact Or.inl (and_mask_lt hTarget.width_le _)
  · intro v w hv hBound hBefore
    refine hBefore.insert hv ?_
    intro u _ _
    cases p with
    | zero => exact Or.inl (Nat.two_pow_pos u.width)
    | hold =>
        rcases Option.isSome_iff_exists.mp (hBound rfl) with
          ⟨x, hx⟩
        refine Or.inr ⟨rfl, ?_⟩
        rw [Fallback.value, hx, Option.getD_some]

/-
  What is executed writes signals of the statement only, and
  a value that fits the signal, or else the value that was
  bound to the signal and is held.
-/
theorem exec_within_widths
    {s : Stmt}
    (hValid : s.validate = .ok ())
    (hOne : OneWidth s.Mentions)
    {ρ : Valuation}
    {p : Fallback}
    {w : Written}
    (hExec : s.exec ρ p = .ok w) :
    ∀ k x, w.find? k = some x →
      k ∈ s.writes.names ∧
        ∀ v, s.Mentions v → v.name = k →
          x < 2 ^ v.width ∨ p = .hold ∧ ρ k = some x := by
  have hEmpty : WritesWithin s.Mentions ρ p s.targets
      NameMap.empty := by
    intro k x hFound
    cases hFound
  intro k x hFound
  rw [mem_names_writes]
  exact run_within hOne (typed_mentions_of_validate hValid) hExec
    hEmpty k x hFound

/-
  A bit is written into a signal, and if the condition holds
  a second signal gets a value.
-/
def bitThenBranch : Stmt :=
  block
    [assign ⟨.bit ⟨"y", 2, false⟩ 0, .var none ⟨"a", 1, false⟩⟩,
     ifThen (.var none ⟨"c", 1, false⟩)
       (assign ⟨.whole ⟨"z", 2, false⟩,
         .const none ⟨1, 2, false, none, none⟩⟩)]

/- No signal has a value of its width. -/
def wideValues
    (c : Nat) :
    Valuation :=
  fun n => some (if n = "c" then c else 7)

/-
  The bit is put into a value that is too large, and what
  comes out is cut; the second signal holds such a value.
-/
theorem exec_within_widths_bitThenBranch :
    bitThenBranch.validate = .ok () ∧
      OneWidth bitThenBranch.Mentions ∧
      bitThenBranch.exec (wideValues 2) .hold =
        .ok ⟨[("y", 3), ("z", 7)]⟩ ∧
      (("y" ∈ bitThenBranch.writes.names ∧ 3 < 2 ^ 2) ∧
        (Fallback.hold = .hold ∧ wideValues 2 "z" = some 7)) := by
  have hValid : bitThenBranch.validate = .ok () := rfl
  have hOne : OneWidth bitThenBranch.Mentions :=
    oneWidth_mentions_iff.mpr (by decide)
  have hExec : bitThenBranch.exec (wideValues 2) .hold =
      .ok ⟨[("y", 3), ("z", 7)]⟩ := rfl
  have hWithin := exec_within_widths hValid hOne hExec
  refine ⟨hValid, hOne, hExec, ?_, ?_⟩
  · rcases hWithin "y" 3 rfl with ⟨hWritten, hFits⟩
    rcases hFits ⟨"y", 2, false⟩ (Or.inl (by decide)) rfl with
      hLt | ⟨_, hHeld⟩
    · exact ⟨hWritten, hLt⟩
    · cases hHeld
  · rcases (hWithin "z" 7 rfl).2 ⟨"z", 2, false⟩
        (Or.inl (by decide)) rfl with hLt | hHeld
    · exact absurd hLt (by decide)
    · exact hHeld

/-
  A signal of one bit keeps the value 2 that is bound to it,
  where the fallback 0 or an assignment would fit it.
-/
theorem exec_beyond_width_heldBit :
    let s : Stmt := ifThen (.var none ⟨"c", 1, false⟩)
      (assign ⟨.whole ⟨"y", 1, false⟩,
        .var none ⟨"a", 1, false⟩⟩)
    let ρ : Valuation :=
      fun n => some (if n = "y" then 2 else 0)
    s.validate = .ok () ∧
      OneWidth s.Mentions ∧
      s.writes = [⟨"y", 1, false⟩] ∧
      s.exec ρ .hold = .ok ⟨[("y", 2)]⟩ ∧
      NameMap.find? (α := Nat) ⟨[("y", 2)]⟩ "y" = some 2 ∧
      ¬ 2 < 2 ^ 1 := by
  refine ⟨rfl, ?_, rfl, rfl, rfl, by decide⟩
  exact oneWidth_mentions_iff.mpr (by decide)

end Stmt

end Gatework
