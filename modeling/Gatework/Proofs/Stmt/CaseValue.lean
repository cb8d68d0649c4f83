import Gatework.Proofs.Stmt.Collapse
import Gatework.Proofs.Stmt.NestedIfs

/-
  The value of a case.

  The arms of a case that assign one target are one value.
  Wherever the signals that the case reads are known, and
  under `hold` the signal it writes, the value is what the
  execution of the case leaves in the bits of the target.

  Key definitions include:
    * `Target.selected`, the bits of a target in a word

  Key theorems include:
    * `Stmt.exec_selected`
    * `Stmt.known_caseTo`
    * `Stmt.muxForm_computes`
-/

------------------------------------------------------------
-- Bits of a target
------------------------------------------------------------

namespace Gatework

namespace Target

variable {Γ : Var → Prop}
variable {t : Target}

/- The bits of a word that a target selects. -/
def selected
    (t : Target)
    (x : Nat) :
    Nat :=
  (x >>> t.low) &&& mask t.width

theorem testBit_selected
    (ht : t.toExpr.Typed Γ)
    (x : Nat)
    {i : Nat}
    (hi : i < t.width) :
    (t.selected x).testBit i = x.testBit (t.low + i) := by
  unfold selected
  rw [testBit_and_mask (width_le ht) hi, Nat.testBit_shiftRight]

theorem selected_lt
    (ht : t.toExpr.Typed Γ)
    (x : Nat) :
    t.selected x < 2 ^ t.width :=
  and_mask_lt ht.width_le _

/- A target is read as the bits that it selects. -/
theorem value_eq_selected
    (ht : t.toExpr.Typed Γ)
    (σ : String → Nat) :
    t.toExpr.value σ = t.selected (σ t.var.name) := by
  apply ht.value_eq_of_bits rfl (selected_lt ht _)
  intro i hi
  rw [testBit_value ht σ hi, testBit_selected ht _ hi]

/- The bits that are replaced are the new ones. -/
theorem selected_replaceBits
    (ht : t.toExpr.Typed Γ)
    {x : Nat}
    (hx : x < 2 ^ t.width)
    (old : Nat) :
    t.selected (replaceBits old t.low t.width x &&&
      mask t.var.width) = x := by
  have hInside := low_add_width_le ht
  apply eq_of_bits_lt (selected_lt ht _) hx
  intro i hi
  have hCovered : t.low ≤ t.low + i ∧ t.low + i < t.low + t.width := by
    omega
  rw [testBit_selected ht _ hi,
    testBit_and_mask (typed_var ht).2.1 (by omega),
    testBit_replaceBits (width_le ht), if_pos hCovered,
    Nat.add_sub_cancel_left]

theorem Alike.selected_eq
    {u : Target}
    (hAlike : t.Alike u)
    (x : Nat) :
    t.selected x = u.selected x := by
  unfold selected
  rw [hAlike.low_eq, hAlike.width_eq]

end Target

namespace Stmt

variable {Γ : Var → Prop}

/- The fallback is the bits of what the signal falls back to. -/
theorem value_fallbackValue_eq_selected
    {t : Target}
    (ht : t.toExpr.Typed Γ)
    (p : Fallback)
    (ρ : Valuation) :
    (fallbackValue t p).value ρ.filled =
      t.selected (p.value (ρ t.var.name)) := by
  cases p with
  | zero =>
      have hZero := Expr.isWord_zeros (Γ := Γ) ht.width_pos
        ht.width_le
      apply hZero.value_eq (Target.selected_lt ht _)
      intro i hi
      rw [Target.testBit_selected ht _ hi]
      exact (Nat.zero_testBit _).symm
  | hold => exact Target.value_eq_selected ht ρ.filled

end Stmt

end Gatework

------------------------------------------------------------
-- Execution
------------------------------------------------------------

namespace Gatework

variable {Γ : Var → Prop}
variable {ρ : Valuation}
variable {p : Fallback}

/- An assignment leaves its value in the bits of its target. -/
theorem Assign.exec_selected
    {a : Assign}
    (ha : (Stmt.assign a).Typed Γ)
    (hKnown : a.value.Known ρ) :
    ∃ w y, a.exec ρ NameMap.empty = .ok w ∧
      w.find? a.var.name = some y ∧
      a.target.selected y = a.value.value ρ.filled := by
  rcases ha with ⟨hTarget, hValue, hWidths⟩
  have hTop : Written.onTop NameMap.empty ρ = ρ := rfl
  have hSmall : a.value.value ρ.filled < 2 ^ a.target.width := by
    rw [hWidths]
    exact hValue.value_lt _
  let new :=
    replaceBits ((ρ a.var.name).getD 0) a.target.low a.target.width
        (a.value.value ρ.filled) &&&
      mask a.var.width
  refine ⟨NameMap.insert NameMap.empty a.var.name new, new, ?_,
    NameMap.find?_insert_self _ _ _,
    Target.selected_replaceBits hTarget hSmall _⟩
  unfold Assign.exec
  rw [hTop, hKnown.eval]
  rfl

namespace Stmt

/- A body runs as its only assignment. -/
theorem run_single
    {body : Stmt}
    {a : Assign}
    (hSingle : single body = .ok a)
    (w : Written) :
    run ρ p w body = a.exec ρ w := by
  apply single_induction
    (motive := fun s => run ρ p w s = a.exec ρ w) _ _ hSingle
  · rw [run]
  · intro s ih
    rw [run_only, ih]

/- It reads what its only assignment reads. -/
theorem readings_of_single
    {body : Stmt}
    {a : Assign}
    (hSingle : single body = .ok a) :
    body.readings = a.value.occurrences := by
  apply single_induction
    (motive := fun s => s.readings = a.value.occurrences) _ _ hSingle
  · rw [readings]
  · intro s ih
    rw [readings, readingsAll, readingsAll, List.append_nil, ih]

variable {selector : Expr}
variable {arms : List (Arm Stmt)}
variable {t : Target}

/- A case whose arms assign a target writes no other signal. -/
theorem writes_of_assignsTo
    (hAssigns : ∀ arm ∈ arms, arm.body.AssignsTo t)
    {n : String}
    (hn : n ∈ (case selector arms).writes.names) :
    n = t.var.name := by
  rcases writes_case.mp ((mem_names_writes _ n).mp hn) with
    ⟨arm, hArm, hWrites⟩
  rcases hAssigns arm hArm with ⟨a, hSingle, hAlike⟩
  exact (writes_of_single hSingle hWrites).trans hAlike.name_eq

/- With any arm it may write the target. -/
theorem name_mem_writes
    (hArms : arms ≠ [])
    (hAssigns : ∀ arm ∈ arms, arm.body.AssignsTo t) :
    t.var.name ∈ (case selector arms).writes.names := by
  rcases List.exists_mem_of_ne_nil arms hArms with ⟨arm, hArm⟩
  rcases hAssigns arm hArm with ⟨a, hSingle, hAlike⟩
  have hWrites : arm.body.Writes a.var.name := by
    apply single_induction
      (motive := fun s => s.Writes a.var.name) _ _ hSingle
    · exact List.mem_singleton_self _
    · intro s ih
      exact writes_single.mpr ih
  rw [← hAlike.name_eq]
  exact (mem_names_writes _ _).mpr
    (writes_case.mpr ⟨arm, hArm, hWrites⟩)

/-
  A case leaves in the bits of the target what the selected
  arm assigns, or the fallback.
-/
theorem exec_selected
    (hCase : (case selector arms).Typed Γ)
    (hFit : ∀ arm ∈ arms, ∀ l ∈ arm.labels,
      l.value < 2 ^ selector.width)
    (hArms : arms ≠ [])
    (ht : t.toExpr.Typed Γ)
    (hAssigns : ∀ arm ∈ arms, arm.body.AssignsTo t)
    (hKnown : ∀ arm ∈ arms, ∀ a, single arm.body = .ok a →
      a.value.Known ρ)
    (hBound : p = .hold → (ρ t.var.name).isSome)
    {value : Nat}
    (hValue : selector.eval ρ = .ok value)
    {x : Expr}
    (hx : valueOf t p ((Arm.select? arms value).map Arm.body) =
      .ok x) :
    ∃ w y, (case selector arms).exec ρ p = .ok w ∧
      w.find? t.var.name = some y ∧
      t.selected y = x.value ρ.filled := by
  rw [exec_case_of_fit hCase.1.width_le hFit hValue]
  cases hSelect : Arm.select? arms value with
  | some arm =>
      rw [hSelect] at hx
      have hArm := mem_of_select?_eq_some hSelect
      rcases hAssigns arm hArm with ⟨a, hSingle, hAlike⟩
      change valueOf t p (some arm.body) = .ok x at hx
      rw [valueOf, hSingle] at hx
      cases hx
      have hTyped := (redoes_single
        (typedArms_iff.mp hCase.2.2 arm hArm) hSingle).typed
      rcases Assign.exec_selected hTyped (hKnown arm hArm a hSingle)
        with ⟨w, y, hRun, hFind, hSelected⟩
      refine ⟨w, y, ?_, ?_, ?_⟩
      · rw [execTaken, exec, run_single hSingle]
        exact hRun
      · rw [← hAlike.name_eq]
        exact hFind
      · rw [← hAlike.selected_eq]
        exact hSelected
  | none =>
      rw [hSelect] at hx
      cases hx
      have hBoundAll : p = .hold →
          ∀ n ∈ (case selector arms).writes.names,
            (ρ n).isSome := by
        intro hp n hn
        rw [writes_of_assignsTo hAssigns hn]
        exact hBound hp
      have hMem : t.var.name ∈ (case selector arms).writes.names :=
        name_mem_writes hArms hAssigns
      rcases applyFallback_find? hBoundAll NameMap.empty with
        ⟨w, hRun, hFind⟩
      refine ⟨w, p.value (ρ t.var.name), hRun, ?_, ?_⟩
      · rw [hFind, if_pos hMem]
        rfl
      · exact (value_fallbackValue_eq_selected ht p ρ).symm

end Stmt

end Gatework

------------------------------------------------------------
-- Known values
------------------------------------------------------------

namespace Gatework

namespace Stmt

variable {ρ : Valuation}
variable {p : Fallback}
variable {selector : Expr}
variable {arms : List (Arm Stmt)}
variable {t : Target}

theorem known_selectValue
    {cond x y : Expr}
    (hCond : cond.Known ρ)
    (hx : x.Known ρ)
    (hy : y.Known ρ) :
    (selectValue cond x y).Known ρ := by
  unfold selectValue
  by_cases hOne : x.width = 1
  · rw [if_pos hOne]
    exact ⟨⟨hCond, hx⟩, ⟨hCond, hy⟩⟩
  · rw [if_neg hOne]
    refine ⟨hCond, ?_⟩
    split
    · exact hx
    · exact hy

theorem known_fallbackValue
    (hBound : p = .hold → (ρ t.var.name).isSome) :
    (fallbackValue t p).Known ρ := by
  cases p with
  | zero => trivial
  | hold =>
      apply Expr.known_of_bound
      intro v hv
      rw [fallbackValue, Target.occurrences_toExpr,
        List.mem_singleton] at hv
      rw [hv]
      exact hBound rfl

section

variable (hKnown : ∀ arm ∈ arms, ∀ a, single arm.body = .ok a →
  a.value.Known ρ)
variable (hBound : p = .hold → (ρ t.var.name).isSome)

include hKnown

theorem known_chainValue
    (hSelector : selector.Known ρ)
    {last : Expr}
    (hLast : last.Known ρ)
    {e : Expr}
    (he : chainValue selector last arms = .ok e) :
    e.Known ρ := by
  induction arms generalizing e with
  | nil =>
      cases he
      exact hLast
  | cons arm arms ih =>
      rw [chainValue, bind_eq_ok_iff] at he
      rcases he with ⟨rest, hRest, he⟩
      rw [bind_eq_ok_iff] at he
      rcases he with ⟨a, hSingle, he⟩
      cases he
      apply known_selectValue
      · exact Arm.known_guard hSelector arm
      · exact hKnown arm (List.mem_cons_self ..) a hSingle
      · exact ih
          (fun b hb => hKnown b (List.mem_cons_of_mem _ hb)) hRest

include hBound

theorem known_valueOf
    {body : Option Stmt}
    (hBody : ∀ s, body = some s → ∃ arm ∈ arms, arm.body = s)
    {x : Expr}
    (hx : valueOf t p body = .ok x) :
    x.Known ρ := by
  cases body with
  | none =>
      cases hx
      exact known_fallbackValue hBound
  | some s =>
      rcases hBody s rfl with ⟨arm, hArm, hEq⟩
      rw [valueOf, bind_eq_ok_iff] at hx
      rcases hx with ⟨a, hSingle, hx⟩
      cases hx
      rw [← hEq] at hSingle
      exact hKnown arm hArm a hSingle

/- The value of a case is known where all it reads is. -/
theorem known_caseTo
    (hSelector : selector.Known ρ)
    (hCommon : commonTarget selector arms = .ok t)
    {e : Expr}
    (hForm : caseTo selector arms .mux p = .ok (.expr e)) :
    e.Known ρ := by
  rcases caseTo_cases hForm with ⟨_, hBinary | hGuarded⟩
  · have hBits := hBinary.2
    unfold binaryCase at hBits
    rw [hCommon, ok_bind] at hBits
    rcases bind_eq_ok_iff.mp hBits with ⟨x, hx, hRest⟩
    rcases bind_eq_ok_iff.mp hRest with ⟨y, hy, hResult⟩
    cases hResult
    apply known_selectValue hSelector
    · exact known_valueOf hKnown hBound
        (fun _ hs => mem_of_select? hs) hx
    · exact known_valueOf hKnown hBound
        (fun _ hs => mem_of_select? hs) hy
  · have hChain := hGuarded.2
    unfold guardedCase at hChain
    dsimp only at hChain
    rw [hCommon, ok_bind] at hChain
    rcases bind_eq_ok_iff.mp hChain with ⟨last, hLast, hRest⟩
    rcases bind_eq_ok_iff.mp hRest with ⟨x, hx, hResult⟩
    cases hResult
    apply known_chainValue _ hSelector _ hx
    · intro arm hArm
      exact hKnown arm (Arm.mem_labelledIn.mp hArm).1
    · exact known_valueOf hKnown hBound
        (fun _ hs => mem_of_default hs) hLast

end

/- All that the arms assign is known where the case reads. -/
theorem known_of_reads
    (hReads : ∀ n ∈ (case selector arms).reads.names,
      (ρ n).isSome) :
    selector.Known ρ ∧
      ∀ arm ∈ arms, ∀ a, single arm.body = .ok a →
        a.value.Known ρ := by
  have hReadings : ∀ v ∈ (case selector arms).readings,
      (ρ v.name).isSome := by
    intro v hv
    exact hReads v.name
      ((mem_names_reads _ _).mpr (List.mem_map_of_mem hv))
  refine ⟨?_, ?_⟩
  · apply Expr.known_of_bound
    intro v hv
    exact hReadings v (List.mem_append_left _ hv)
  · intro arm hArm a hSingle
    apply Expr.known_of_bound
    intro v hv
    rw [← readings_of_single hSingle] at hv
    exact hReadings v (List.mem_append_right _
      (mem_readingsArms.mpr ⟨arm, hArm, hv⟩))

/-
  The value of a case is valid and as wide as the target that
  every arm assigns. Where the signals that the case reads
  are bound, and under `hold` the target, the case runs and
  leaves that value in the bits of the target.
-/
theorem muxForm_computes
    (hValid : (case selector arms).validate = .ok ())
    (hFit : ∀ arm ∈ arms, ∀ l ∈ arm.labels,
      l.value < 2 ^ selector.width)
    (hOne : OneWidth (case selector arms).Mentions)
    {e : Expr}
    (hForm : caseTo selector arms .mux p = .ok (.expr e)) :
    ∃ t, commonTarget selector arms = .ok t ∧
      (∀ arm ∈ arms, arm.body.AssignsTo t) ∧
      e.validate = .ok () ∧ e.width = t.width ∧
      ∀ ρ : Valuation,
        (∀ n ∈ (case selector arms).reads.names, (ρ n).isSome) →
        (p = .hold → (ρ t.var.name).isSome) →
        ∃ w y, (case selector arms).exec ρ p = .ok w ∧
          w.find? t.var.name = some y ∧
          e.eval ρ = .ok (t.selected y) := by
  have hCase := typed_named_of_validate hValid
  have hOneNamed : OneWidth
      (fun v => (case selector arms).Mentions v ∧ v.HasName) :=
    fun v u hv hu => hOne v u hv.1 hu.1
  rcases computes_mux hOneNamed hCase hFit hForm with
    ⟨t, hCommon, ht, hAssigns, he, hWidth, hValue⟩
  have hArms := (caseTo_cases hForm).1
  refine ⟨t, hCommon, hAssigns, ?_, hWidth, ?_⟩
  · exact Expr.validate_eq_ok_iff.mpr
      (he.mono (fun _ _ hv => hv.2))
  · intro ρ hReads hBound
    rcases known_of_reads hReads with ⟨hSelector, hKnown⟩
    have heKnown := known_caseTo hKnown hBound hSelector hCommon hForm
    rcases hValue ρ.filled with ⟨x, hx, hSame⟩
    rcases exec_selected hCase hFit hArms ht hAssigns hKnown hBound
        hSelector.eval hx with ⟨w, y, hExec, hFind, hSelected⟩
    refine ⟨w, y, hExec, hFind, ?_⟩
    rw [heKnown.eval, hSame, hSelected]

/- Two arms that share a label and assign two bits of four. -/
def middleArms : List (Arm Stmt) :=
  let middle : Target := .part ⟨"y", 4, false⟩ 2 1
  [.labelled [⟨1, 2, false, none, none⟩]
    (assign ⟨middle, .var none ⟨"a", 2, false⟩⟩),
   .labelled
    [⟨2, 2, false, none, none⟩, ⟨1, 2, false, none, none⟩]
    (block [assign ⟨middle, .ofNat 0 2⟩])]

def middleValues
    (s : Nat) :
    Valuation
  | "s" => some s
  | "a" => some 3
  | "y" => some 13
  | _ => none

/- The first arm for 1, and the old bits for 3. -/
theorem muxForm_computes_middle :
    ∃ e,
      caseTo pairSelector middleArms .mux .hold = .ok (.expr e) ∧
        e.validate = .ok () ∧ e.width = 2 ∧
        (case pairSelector middleArms).exec (middleValues 1) .hold =
          .ok ⟨[("y", 15)]⟩ ∧
        e.eval (middleValues 1) = .ok 3 ∧
        (case pairSelector middleArms).exec (middleValues 3) .hold =
          .ok ⟨[("y", 13)]⟩ ∧
        e.eval (middleValues 3) = .ok 2 := by
  have hOne : (case pairSelector middleArms).exec (middleValues 1)
      .hold = .ok ⟨[("y", 15)]⟩ := rfl
  have hThree : (case pairSelector middleArms).exec (middleValues 3)
      .hold = .ok ⟨[("y", 13)]⟩ := rfl
  rcases @muxForm_computes .hold pairSelector middleArms rfl
      (by decide) (oneWidth_mentions_iff.mpr (by decide)) _ rfl with
    ⟨t, hCommon, _, hValid, hWidth, hRun⟩
  cases hCommon
  rcases hRun (middleValues 1) (by decide) (fun _ => rfl) with
    ⟨w, y, hExec, hFind, hEval⟩
  cases hOne.symm.trans hExec
  cases hFind
  rcases hRun (middleValues 3) (by decide) (fun _ => rfl) with
    ⟨w', y', hExec', hFind', hEval'⟩
  cases hThree.symm.trans hExec'
  cases hFind'
  exact ⟨_, rfl, hValid, hWidth, hOne, hEval, hThree, hEval'⟩

end Stmt

end Gatework
