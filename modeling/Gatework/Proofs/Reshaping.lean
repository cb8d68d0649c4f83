import Gatework.Proofs.Hdl.Finishes
import Gatework.Proofs.Lowering.Drivers
import Gatework.Proofs.Stmt.Reshape
import Gatework.Reshaping

/-
  Drivers in another shape.

  All steps but one make the change of values the driver
  makes. The value of a case is given to its signal as a
  whole, so that step is only right for arms that assign all
  bits of the signal. Otherwise the result is not even valid.

  Key definitions include:
    * `Reshaping.Spans`
    * `Stmt.Within`, the signals of a statement

  Key theorems include:
    * `Reshaping.redoes_steps`
    * `Reshaping.assigns_value`
    * `reshaped_driver_agrees`
-/

------------------------------------------------------------
-- Steps that change nothing
------------------------------------------------------------

namespace Gatework

namespace Reshaping

variable {Γ : Var → Prop}
variable {r : Reshaping}

/- The steps on the expressions of a statement. -/
def rewrite
    (r : Reshaping)
    (s : Stmt) :
    Stmt :=
  let s := if r.primitives then s.toPrimitives else s
  if r.simplify then s.simplify else s

/- The steps after a case has been brought into its form. -/
def steps
    (r : Reshaping)
    (s : Stmt) :
    Except ReshapeError Stmt :=
  (if r.toMux && isIf s then s.toMux else .ok s).map r.rewrite

/- A case in its form, other statements as they are. -/
def formed
    (r : Reshaping)
    (c : Circuit)
    (signal : String)
    (s : Stmt) :
    Except ReshapeError Stmt :=
  match r.caseForm with
  | some form => reshapeCase form r.fallback c signal s
  | none => .ok s

theorem apply_eq_ok_iff
    {c : Circuit}
    {signal : String}
    {s s' : Stmt} :
    r.apply c signal s = .ok s' ↔
      ∃ middle, r.formed c signal s = .ok middle ∧
        r.steps middle = .ok s' := by
  have hSteps : ∀ s, (do
      let s ← if r.toMux && isIf s then s.toMux else .ok s
      return r.rewrite s) = r.steps s := by
    intro s
    unfold steps
    split
    · cases s.toMux <;> rfl
    · rfl
  have hBind : r.apply c signal s =
      (r.formed c signal s).bind r.steps := by
    unfold apply formed
    cases r.caseForm with
    | none => exact hSteps s
    | some form =>
        dsimp only
        cases reshapeCase form r.fallback c signal s with
        | error e => rfl
        | ok middle => exact hSteps middle
  rw [hBind]
  exact bind_eq_ok_iff

theorem redoes_rewrite
    (hOne : OneWidth Γ)
    {s : Stmt}
    (hs : s.Typed Γ) :
    Stmt.Redoes Γ s (r.rewrite s) := by
  have hFirst : Stmt.Redoes Γ s
      (if r.primitives then s.toPrimitives else s) := by
    split
    · exact Stmt.redoes_mapExprs
        (fun _ he => Expr.keeps_toPrimitives he) hs
    · exact Stmt.Redoes.refl hs
  unfold rewrite
  dsimp only
  split
  · exact hFirst.trans (Stmt.redoes_mapExprs
      (fun _ he => Expr.keeps_simplify hOne he) hFirst.typed)
  · exact hFirst

theorem redoes_steps
    (hOne : OneWidth Γ)
    {s s' : Stmt}
    (hs : s.Typed Γ)
    (hSteps : r.steps s = .ok s') :
    Stmt.Redoes Γ s s' := by
  unfold steps at hSteps
  generalize hMiddle :
    (if r.toMux && isIf s then s.toMux else .ok s) = result
    at hSteps
  cases result with
  | error e => cases hSteps
  | ok middle =>
      cases hSteps
      have hFirst : Stmt.Redoes Γ s middle := by
        split at hMiddle
        · exact Stmt.redoes_toMux hOne hs hMiddle
        · cases hMiddle
          exact Stmt.Redoes.refl hs
      exact hFirst.trans (redoes_rewrite hOne hFirst.typed)

/-
  An assignment keeps its target, and its value is only
  rewritten, whether the widths agree or not.
-/
theorem steps_assign
    (hOne : OneWidth Γ)
    {t : Target}
    {e : Expr}
    (he : e.Typed Γ)
    {s' : Stmt}
    (hSteps : r.steps (.assign ⟨t, e⟩) = .ok s') :
    ∃ e', s' = .assign ⟨t, e'⟩ ∧ Expr.Keeps Γ e e' := by
  have hPlain : (r.toMux && isIf (.assign ⟨t, e⟩)) = false :=
    Bool.and_false _
  unfold steps at hSteps
  rw [hPlain] at hSteps
  cases hSteps
  unfold rewrite
  cases r.primitives <;> cases r.simplify
  · exact ⟨e, rfl, Expr.Keeps.refl he⟩
  · exact ⟨e.simplify, rfl, Expr.keeps_simplify hOne he⟩
  · exact ⟨e.toPrimitives, rfl, Expr.keeps_toPrimitives he⟩
  · have hFirst := Expr.keeps_toPrimitives he
    exact ⟨e.toPrimitives.simplify, rfl,
      hFirst.trans (Expr.keeps_simplify hOne hFirst.typed)⟩

end Reshaping

end Gatework

------------------------------------------------------------
-- The value of a case
------------------------------------------------------------

namespace Gatework

/- A field that is the whole number is replaced by a value. -/
theorem replaceBits_whole
    {width value : Nat}
    (hWidth : width ≤ maxWidth)
    (hValue : value < 2 ^ width)
    (old : Nat) :
    replaceBits old 0 width value &&& mask width = value := by
  apply eq_of_bits_lt (and_mask_lt hWidth _) hValue
  intro i hi
  rw [testBit_and_mask hWidth hi, testBit_replaceBits hWidth,
    if_pos ⟨Nat.zero_le i, by omega⟩, Nat.sub_zero]

/- An assignment to all bits of a signal gives its value. -/
theorem Assign.after_spanning
    {a : Assign}
    {v : Var}
    (hMax : v.width ≤ maxWidth)
    (hName : a.var.name = v.name)
    (hSignal : a.var.width = v.width)
    (hLow : a.target.low = 0)
    (hWidth : a.target.width = v.width)
    {σ : String → Nat}
    (hSmall : a.value.value σ < 2 ^ v.width) :
    a.after σ v.name = a.value.value σ := by
  unfold Assign.after
  rw [if_pos hName.symm, hSignal, hLow, hWidth]
  exact replaceBits_whole hMax hSmall _

namespace Stmt

variable {Γ : Var → Prop}
variable {selector : Expr}
variable {arms : List (Arm Stmt)}
variable {p : Fallback}
variable {e : Expr}
variable {v : Var}

/- The target of arms that span a signal is the signal. -/
theorem target_of_spans
    (hOne : OneWidth Γ)
    (hVar : (Expr.var none v).Typed Γ)
    (hWrites : (case selector arms).Writes v.name)
    {t : Target}
    (ht : t.toExpr.Typed Γ)
    (hAssigns : ∀ arm ∈ arms, arm.body.AssignsTo t)
    (hWidth : t.width = v.width) :
    t.var.name = v.name ∧ t.var.width = v.width ∧ t.low = 0 := by
  rcases writes_case.mp hWrites with ⟨arm, hArm, hn⟩
  rcases hAssigns arm hArm with ⟨a, hSingle, hAlike⟩
  have hName : t.var.name = v.name :=
    hAlike.name_eq.symm.trans (writes_of_single hSingle hn).symm
  have hSignal : t.var.width = v.width :=
    hOne _ _ (Target.typed_var ht).2.2 hVar.2.2 hName
  have hInside := Target.low_add_width_le ht
  exact ⟨hName, hSignal, by omega⟩

/- What all bits of a signal fall back to is their value. -/
theorem value_fallbackValue
    {t : Target}
    (ht : t.toExpr.Typed Γ)
    (hMax : v.width ≤ maxWidth)
    (hName : t.var.name = v.name)
    (hLow : t.low = 0)
    (hWidth : t.width = v.width)
    {σ : String → Nat}
    (hReady : p = .zero → σ v.name = 0) :
    (fallbackValue t p).value σ = σ v.name &&& mask v.width := by
  cases p with
  | zero =>
      have hZero := Expr.isWord_zeros (Γ := Γ) ht.width_pos
        ht.width_le
      rw [hReady rfl, Nat.zero_and]
      exact hZero.value_eq (Nat.two_pow_pos _)
        (fun i _ => (Nat.zero_testBit i).symm)
  | hold =>
      apply ht.value_eq_of_bits hWidth (and_mask_lt hMax _)
      intro i hi
      have hBit := Target.testBit_value ht σ (hWidth ▸ hi)
      rw [hLow, Nat.zero_add, hName] at hBit
      rw [testBit_and_mask hMax hi]
      exact hBit

/-
  The value of a case, given to the whole signal, is what the
  case makes of the signal, if its arms assign all the bits.
-/
theorem after_value
    (hOne : OneWidth Γ)
    (hCase : (case selector arms).Typed Γ)
    (hLabels : (case selector arms).LabelsFit)
    (hForm : caseTo selector arms .mux p = .ok (.expr e))
    (hVar : (Expr.var none v).Typed Γ)
    (hWrites : (case selector arms).Writes v.name)
    (hWidth : e.width = v.width)
    {σ : String → Nat}
    (hReady : p = .zero → σ v.name = 0) :
    (assign ⟨.whole v, e⟩).after σ v.name =
      (case selector arms).after σ v.name &&& mask v.width := by
  have hFit := hLabels.arms
  rcases computes_mux hOne hCase hFit hForm with
    ⟨t, _, ht, hAssigns, he, hTarget, hValue⟩
  have hMax : v.width ≤ maxWidth := hVar.2.1
  have hSpans : t.width = v.width := hTarget.symm.trans hWidth
  rcases target_of_spans hOne hVar hWrites ht hAssigns hSpans with
    ⟨hName, hSignal, hLow⟩
  have hSmall : e.value σ < 2 ^ v.width :=
    hWidth ▸ he.value_lt σ
  rw [after, Assign.after_spanning hMax rfl rfl rfl rfl hSmall,
    after_case hCase.1 hFit]
  change e.value σ = _
  rcases hValue σ with ⟨x, hx, hSame⟩
  rw [hSame] at hSmall ⊢
  have hBodies : ∀ s,
      (Arm.select? arms (selector.value σ)).map Arm.body = some s →
        s.Typed Γ ∧ s.AssignsTo t := by
    intro s hs
    rcases mem_of_select? hs with ⟨arm, hArm, rfl⟩
    exact ⟨typedArms_iff.mp hCase.2.2 arm hArm,
      hAssigns arm hArm⟩
  generalize (Arm.select? arms (selector.value σ)).map Arm.body =
    body at hx hBodies ⊢
  cases body with
  | none =>
      cases hx
      exact value_fallbackValue ht hMax hName hLow hSpans hReady
  | some s =>
      rcases hBodies s rfl with ⟨hs, a, hSingle, hAlike⟩
      rw [valueOf, hSingle] at hx
      cases hx
      change a.value.value σ = s.after σ v.name &&& mask v.width
      rw [← (redoes_single hs hSingle).after_eq, after,
        Assign.after_spanning hMax (hAlike.name_eq.trans hName)
          (hAlike.signal_eq.trans hSignal)
          (hAlike.low_eq.trans hLow)
          (hAlike.width_eq.trans hSpans) hSmall,
        and_mask_of_lt hMax hSmall]

end Stmt

end Gatework

------------------------------------------------------------
-- Drivers
------------------------------------------------------------

namespace Gatework

namespace Stmt

/- A signal whose name a statement reads or writes. -/
def Within
    (signals : NameMap Var)
    (s : Stmt)
    (v : Var) :
    Prop :=
  Reads signals v ∧
    (v.name ∈ s.reads.names ∨ v.name ∈ s.writes.names)

theorem oneWidth_within
    (signals : NameMap Var)
    (s : Stmt) :
    OneWidth (Within signals s) :=
  fun v w hv hw => oneWidth_reads signals v w hv.1 hw.1

theorem typed_within
    {signals : NameMap Var}
    {s : Stmt}
    (hs : s.Typed (Reads signals)) :
    s.Typed (Within signals s) :=
  hs.mono fun _ hv hReads => ⟨hReads, hv.name_mem⟩

end Stmt

namespace Reshaping

variable {r : Reshaping}
variable {c : Circuit}
variable {k : String}
variable {s s' : Stmt}

/-
  The value of a case is only taken where the arms assign as
  many bits as the signal has.
-/
def Spans
    (r : Reshaping)
    (c : Circuit)
    (signal : String) :
    Stmt → Prop
  | .case selector arms =>
      r.caseForm = some .mux →
        ∀ t, Stmt.commonTarget selector arms = .ok t →
          t.width = widthIn c.signals signal
  | _ => True

/-
  A signal is assigned a value in place of a case. If it has
  the width of the signal, it is what the case makes of it.
-/
structure AssignsValue
    (r : Reshaping)
    (Γ : Var → Prop)
    (v : Var)
    (e : Expr)
    (s s' : Stmt) :
    Prop where
  form_eq : r.caseForm = some .mux
  stmt_eq : s' = .assign ⟨.whole v, e⟩
  signal : (Expr.var none v).Typed Γ
  value : e.Typed Γ
  after_eq : e.width = v.width → ∀ σ,
    (r.fallback = .zero → σ v.name = 0) →
      s'.after σ v.name = s.after σ v.name &&& mask v.width

theorem caseTo_ifChain
    {selector : Expr}
    {arms : List (Arm Stmt)}
    {p : Fallback}
    {result : CaseResult}
    (hForm : Stmt.caseTo selector arms .ifChain p = .ok result) :
    ∃ s, result = .stmt s := by
  unfold Stmt.caseTo at hForm
  split at hForm
  case isTrue => cases hForm
  case isFalse =>
      dsimp only at hForm
      split at hForm
      · unfold Stmt.binaryCase at hForm
        dsimp only at hForm
        split at hForm <;> cases hForm <;> exact ⟨_, rfl⟩
      · cases hForm
        exact ⟨_, rfl⟩

theorem caseTo_mux
    {selector : Expr}
    {arms : List (Arm Stmt)}
    {p : Fallback}
    {result : CaseResult}
    (hForm : Stmt.caseTo selector arms .mux p = .ok result) :
    ∃ e, result = .expr e := by
  unfold Stmt.caseTo at hForm
  split at hForm
  case isTrue => cases hForm
  case isFalse =>
      dsimp only at hForm
      split at hForm
      · unfold Stmt.binaryCase at hForm
        rcases bind_eq_ok_iff.mp hForm with ⟨_, _, hForm⟩
        rcases bind_eq_ok_iff.mp hForm with ⟨_, _, hForm⟩
        rcases bind_eq_ok_iff.mp hForm with ⟨_, _, hForm⟩
        cases hForm
        exact ⟨_, rfl⟩
      · unfold Stmt.guardedCase at hForm
        rcases bind_eq_ok_iff.mp hForm with ⟨_, _, hForm⟩
        rcases bind_eq_ok_iff.mp hForm with ⟨_, _, hForm⟩
        rcases bind_eq_ok_iff.mp hForm with ⟨_, _, hForm⟩
        cases hForm
        exact ⟨_, rfl⟩

/- The value of a case, assigned and then rewritten. -/
theorem assigns_value
    {selector : Expr}
    {arms : List (Arm Stmt)}
    (hs : s = .case selector arms)
    (hForm : r.caseForm = some .mux)
    (hc : c.Proper)
    (hDriver : c.drivers.find? k = some s)
    (hWrites : s.Writes k)
    {a : Assign}
    (ha : c.assignments.find? k = some a)
    {e : Expr}
    (hTo : Stmt.caseTo selector arms .mux r.fallback =
      .ok (.expr e))
    (hSteps : r.steps (.assign ⟨a.target, e⟩) = .ok s') :
    ∃ v e, v.name = k ∧
      r.AssignsValue (s.Within c.signals) v e s s' ∧
      (e.width = v.width ↔ r.Spans c k s) := by
  have hProper := hc.driven.drivers k s hDriver
  have hTyped := Stmt.typed_within hProper.1
  have hOne := Stmt.oneWidth_within c.signals s
  have hDrives := hc.driven.drives k a ha
  have hName : a.var.name = k := hDrives.name_eq
  have hSignal :
      (Expr.var none a.var).Typed (s.Within c.signals) := by
    rcases hDrives.signal with ⟨hPos, hMax, hReads⟩
    refine ⟨hPos, hMax, hReads, Or.inr ?_⟩
    rw [hName]
    exact (Stmt.mem_names_writes s k).mpr hWrites
  have hWidthIn : a.var.width = widthIn c.signals k :=
    hName ▸ hDrives.signal.2.2.2
  subst hs
  rcases Stmt.computes_mux hOne hTyped hProper.2.arms hTo with
    ⟨t, hCommon, _, _, he, hTarget, _⟩
  rw [hDrives.whole] at hSteps
  rcases steps_assign hOne he hSteps with ⟨e', rfl, hKeeps⟩
  refine ⟨a.var, e', hName, ⟨hForm, rfl, hSignal, hKeeps.typed, ?_⟩,
    ?_⟩
  · intro hWidth σ hReady
    have hSame : Assign.after σ ⟨.whole a.var, e'⟩ =
        Assign.after σ ⟨.whole a.var, e⟩ := by
      apply Assign.after_congr
      · exact Target.Alike.refl (.whole a.var)
      · exact hKeeps.value_eq σ
    rw [Stmt.after, hSame]
    exact Stmt.after_value hOne hTyped hProper.2 hTo hSignal
      (hName.symm ▸ hWrites) (hKeeps.width_eq.symm.trans hWidth)
      hReady
  · rw [hKeeps.width_eq, hTarget, hWidthIn]
    constructor
    · intro hWidth _ t' hCommon'
      cases hCommon.symm.trans hCommon'
      exact hWidth
    · intro hSpans
      exact hSpans hForm t hCommon

/-
  Either the steps redo the driver, or they assign the value
  of a case, which has the width of the signal just if the
  arms assign that many bits.
-/
theorem apply_spec
    (hc : c.Proper)
    (hDriver : c.drivers.find? k = some s)
    (hWrites : s.Writes k)
    (hApply : r.apply c k s = .ok s') :
    (Stmt.Redoes (s.Within c.signals) s s' ∧ r.Spans c k s) ∨
      ∃ v e, v.name = k ∧
        r.AssignsValue (s.Within c.signals) v e s s' ∧
        (e.width = v.width ↔ r.Spans c k s) := by
  have hProper := hc.driven.drivers k s hDriver
  have hs := Stmt.typed_within hProper.1
  have hOne := Stmt.oneWidth_within c.signals s
  rcases apply_eq_ok_iff.mp hApply with ⟨middle, hFormed, hSteps⟩
  unfold formed at hFormed
  cases hForm : r.caseForm with
  | none =>
      rw [hForm] at hFormed
      cases hFormed
      refine Or.inl ⟨redoes_steps hOne hs hSteps, ?_⟩
      cases s with
      | case selector arms =>
          intro hMux
          cases hForm.symm.trans hMux
      | _ => trivial
  | some form =>
      rw [hForm] at hFormed
      cases s with
      | case selector arms =>
          rcases bind_eq_ok_iff.mp hFormed with
            ⟨result, hTo, hMiddle⟩
          cases form with
          | ifChain =>
              rcases caseTo_ifChain hTo with ⟨chain, rfl⟩
              cases hMiddle
              have hFirst := Stmt.redoes_ifChain hs hProper.2.arms hTo
              refine Or.inl ⟨hFirst.trans
                (redoes_steps hOne hFirst.typed hSteps), ?_⟩
              intro hMux
              cases hForm.symm.trans hMux
          | mux =>
              rcases caseTo_mux hTo with ⟨e, rfl⟩
              rcases NameMap.exists_find?_of_keys_eq
                  hc.driven.keys_eq.symm hDriver with ⟨a, ha⟩
              rw [ha] at hMiddle
              cases hMiddle
              exact Or.inr (assigns_value rfl hForm hc hDriver
                hWrites ha hTo hSteps)
      | _ =>
          cases hFormed
          exact Or.inl ⟨redoes_steps hOne hs hSteps, trivial⟩

end Reshaping

end Gatework

------------------------------------------------------------
-- Execution
------------------------------------------------------------

namespace Gatework

namespace Stmt

variable {signals : NameMap Var}
variable {s s' : Stmt}
variable {ρ : Valuation}
variable {p : Fallback}

/-
  Where the names of a statement are bound, and those it
  writes are 0 if they may fall back to 0, a statement over
  them runs as it changes the values.
-/
theorem exec_within
    (hBound : ∀ n, n ∈ s.reads.names ∨ n ∈ s.writes.names →
      (ρ n).isSome)
    (hZero : p = .zero → ∀ n ∈ s.writes.names, ρ n = some 0)
    (hTyped : s'.Typed (s.Within signals))
    (hWrites : ∀ n, s'.Writes n → s.Writes n) :
    ∃ w, s'.exec ρ p = .ok w ∧
      ∀ k, s.Writes k → w.onTop ρ k =
        some (s'.after (fun n => (ρ n).getD 0) k) := by
  let τ : String → Nat := fun n => (ρ n).getD 0
  have hNames : ∀ n, n ∈ s.reads.names ∨ n ∈ s.writes.names →
      ρ n = some (τ n) := by
    intro n hn
    rcases Option.isSome_iff_exists.mp (hBound n hn) with ⟨x, hx⟩
    simp only [τ, hx, Option.getD_some]
  have hReady : ∀ v ∈ s'.targets, p = .zero → τ v.name = 0 := by
    intro v hv hp
    have hName := (mem_names_writes s v.name).mpr
      (hWrites v.name (List.mem_map_of_mem hv))
    simp only [τ, hZero hp v.name hName, Option.getD_some]
  rcases run_eq_after
      (fun v hv => hNames v.name (hTyped.mem hv).2) hReady
      NameMap.empty with ⟨w, hRun, hCurrent⟩
  refine ⟨w, hRun, ?_⟩
  intro k hk
  have hName := (mem_names_writes s k).mpr hk
  rw [Written.onTop_eq_current (hNames k (Or.inr hName)), hCurrent]
  rfl

/- A statement that redoes another one ends with its values. -/
theorem Redoes.exec
    (h : Redoes (s.Within signals) s s')
    (hs : s.Typed (s.Within signals))
    (hBound : ∀ n, n ∈ s.reads.names ∨ n ∈ s.writes.names →
      (ρ n).isSome)
    (hZero : p = .zero → ∀ n ∈ s.writes.names, ρ n = some 0)
    {k : String}
    (hk : s.Writes k) :
    ∃ w w', s.exec ρ p = .ok w ∧ s'.exec ρ p = .ok w' ∧
      w'.onTop ρ k = w.onTop ρ k := by
  rcases exec_within hBound hZero hs (fun _ hn => hn) with
    ⟨w, hRun, hValue⟩
  rcases exec_within hBound hZero h.typed h.writes with
    ⟨w', hRun', hValue'⟩
  refine ⟨w, w', hRun, hRun', ?_⟩
  rw [hValue k hk, hValue' k hk, h.after_eq]

end Stmt

namespace Reshaping

variable {r : Reshaping}
variable {signals : NameMap Var}
variable {v : Var}
variable {e : Expr}
variable {s s' : Stmt}
variable {ρ : Valuation}

theorem AssignsValue.typed
    (h : r.AssignsValue (s.Within signals) v e s s')
    (hWidth : e.width = v.width) :
    s'.Typed (s.Within signals) := by
  rcases h with ⟨_, rfl, hSignal, he, _⟩
  exact ⟨hSignal, he, hWidth.symm⟩

/- A value is valid just if it is as wide as the signal. -/
theorem AssignsValue.validate_iff
    (h : r.AssignsValue (s.Within signals) v e s s') :
    s'.validate = .ok () ↔ e.width = v.width := by
  rw [Stmt.validate_eq_ok_iff]
  constructor
  · intro hTyped
    rw [h.stmt_eq] at hTyped
    exact hTyped.2.2.symm
  · intro hWidth
    exact (h.typed hWidth).mono fun _ _ hv => hv.1.1

/- The value leaves the signal as the case does, cut. -/
theorem AssignsValue.exec
    (h : r.AssignsValue (s.Within signals) v e s s')
    (hWidth : e.width = v.width)
    (hs : s.Typed (s.Within signals))
    (hBound : ∀ n, n ∈ s.reads.names ∨ n ∈ s.writes.names →
      (ρ n).isSome)
    (hZero : r.fallback = .zero →
      ∀ n ∈ s.writes.names, ρ n = some 0)
    (hk : s.Writes v.name) :
    ∃ w w' x, s.exec ρ r.fallback = .ok w ∧
      s'.exec ρ r.fallback = .ok w' ∧
      w.onTop ρ v.name = some x ∧
      w'.onTop ρ v.name = some (x &&& mask v.width) ∧
      ((∀ y, ρ v.name = some y → y < 2 ^ v.width) →
        x < 2 ^ v.width) := by
  let τ : String → Nat := fun n => (ρ n).getD 0
  have hName := (Stmt.mem_names_writes s v.name).mpr hk
  have hWrites : ∀ n, s'.Writes n → s.Writes n := by
    intro n hn
    rw [h.stmt_eq] at hn
    rw [List.mem_singleton.mp hn]
    exact hk
  rcases Stmt.exec_within hBound hZero hs (fun _ hn => hn) with
    ⟨w, hRun, hValue⟩
  rcases Stmt.exec_within hBound hZero (h.typed hWidth)
      hWrites with ⟨w', hRun', hValue'⟩
  have hReady : r.fallback = .zero → τ v.name = 0 := by
    intro hp
    simp only [τ, hZero hp v.name hName, Option.getD_some]
  refine ⟨w, w', s.after τ v.name, hRun, hRun',
    hValue v.name hk, ?_, ?_⟩
  · rw [hValue' v.name hk, h.after_eq hWidth τ hReady]
  · intro hRange
    apply Stmt.after_lt (Stmt.oneWidth_within signals s) hs
      h.signal
    rcases Option.isSome_iff_exists.mp
        (hBound v.name (Or.inr hName)) with ⟨y, hy⟩
    simp only [τ, hy, Option.getD_some]
    exact hRange y hy

end Reshaping

/-
  A driver in another shape, for every way to reshape it. The
  result is valid just if no value of a case is assigned to a
  signal of more or fewer bits. Then it runs where the driver
  runs and leaves the signal with the same bits, and with the
  same number unless a value beyond the width of the signal
  was held and cut.
-/
theorem reshaped_driver_agrees
    {options : LowerOptions}
    {file : SourceFile}
    {circuits : List Circuit}
    (hLowered : (lowerSource options file).result = .ok circuits)
    {c : Circuit}
    (hc : c ∈ circuits)
    {k : String}
    {s : Stmt}
    (hDriver : c.drivers.find? k = some s)
    {r : Reshaping}
    {s' : Stmt}
    (hApply : r.apply c k s = .ok s') :
    (s'.validate = .ok () ↔ r.Spans c k s) ∧
      (r.Spans c k s → ∀ ρ : Valuation,
        (∀ n, n ∈ s.reads.names ∨ n ∈ s.writes.names →
          (ρ n).isSome) →
        (r.fallback = .zero →
          ∀ n ∈ s.writes.names, ρ n = some 0) →
        ∃ w w', s.exec ρ r.fallback = .ok w ∧
          s'.exec ρ r.fallback = .ok w' ∧
          (w'.onTop ρ k).map (· % 2 ^ widthIn c.signals k) =
            (w.onTop ρ k).map (· % 2 ^ widthIn c.signals k) ∧
          ((r.caseForm = some .mux → ∀ x, ρ k = some x →
              x < 2 ^ widthIn c.signals k) →
            w'.onTop ρ k = w.onTop ρ k)) := by
  have hGiven : ∀ decl ∈ (Hdl.parseFile 0 file).tree.modules,
      decl.Given :=
    fun _ hDecl => Hdl.given_of_mem_modules hDecl
  have hProper := proper_of_lowerParsed hGiven hLowered c hc
  have hTraced := traced_of_lowerParsed hGiven hLowered c hc
  have hWrites := hTraced.writes k s hDriver
  have hs := Stmt.typed_within
    (hProper.driven.drivers k s hDriver).1
  rcases Reshaping.apply_spec hProper hDriver hWrites hApply with
    ⟨hRedoes, hSpans⟩ | ⟨v, e, rfl, hAssigns, hSpans⟩
  · constructor
    · refine iff_of_true (Stmt.validate_eq_ok_iff.mpr ?_) hSpans
      exact hRedoes.typed.mono fun _ _ hv => hv.1.1
    · intro _ ρ hBound hZero
      rcases hRedoes.exec hs hBound hZero hWrites with
        ⟨w, w', hRun, hRun', hSame⟩
      exact ⟨w, w', hRun, hRun', congrArg _ hSame, fun _ => hSame⟩
  · have hWidthIn : v.width = widthIn c.signals v.name :=
      hAssigns.signal.2.2.1.2
    have hMax : v.width ≤ maxWidth := hAssigns.signal.2.1
    refine ⟨hAssigns.validate_iff.trans hSpans, ?_⟩
    rw [← hSpans, ← hWidthIn]
    intro hWidth ρ hBound hZero
    rcases hAssigns.exec hWidth hs hBound hZero hWrites with
      ⟨w, w', x, hRun, hRun', hValue, hValue', hSmall⟩
    refine ⟨w, w', hRun, hRun', ?_, ?_⟩
    · rw [hValue, hValue', and_mask hMax]
      exact congrArg some (Nat.mod_mod _ _)
    · intro hRange
      rw [hValue, hValue', and_mask_of_lt hMax
        (hSmall (hRange hAssigns.form_eq))]

/-
  The driver of a signal in the first circuit of a file, and
  what it becomes.
-/
def firstReshaped?
    (r : Reshaping)
    (file : SourceFile)
    (k : String) :
    Option (Circuit × Stmt × Stmt) := do
  let circuits ← (lowerSource {} file).result.toOption
  let c ← circuits.head?
  let s ← c.drivers.find? k
  let s' ← (r.apply c k s).toOption
  return (c, s, s')

theorem firstReshaped?_spec
    {r : Reshaping}
    {file : SourceFile}
    {k : String}
    {c : Circuit}
    {s s' : Stmt}
    (hFirst : firstReshaped? r file k = some (c, s, s')) :
    ∃ circuits, (lowerSource {} file).result = .ok circuits ∧
      c ∈ circuits ∧ c.drivers.find? k = some s ∧
      r.apply c k s = .ok s' := by
  unfold firstReshaped? at hFirst
  rcases Option.bind_eq_some_iff.mp hFirst with
    ⟨circuits, hLowered, hFirst⟩
  rcases Option.bind_eq_some_iff.mp hFirst with
    ⟨d, hHead, hFirst⟩
  rcases Option.bind_eq_some_iff.mp hFirst with
    ⟨t, hDriver, hFirst⟩
  rcases Option.bind_eq_some_iff.mp hFirst with
    ⟨t', hApply, hFirst⟩
  cases hFirst
  exact ⟨circuits, eq_ok_of_toOption hLowered,
    List.mem_of_head? hHead, hDriver, eq_ok_of_toOption hApply⟩

/- A case that picks a bit. -/
def pickedBit : SourceFile :=
  ⟨"pick.sv",
    "module pick(input s, a, b, output y); always_comb\n" ++
    "case (s) 0: y = a; 1: y = b; endcase endmodule\n"⟩

/- A case that picks the upper bit of two. -/
def pickedUpper : SourceFile :=
  ⟨"pick.sv",
    "module pick(input s, a, b, output [1:0] y); always_comb\n" ++
    "case (s) 0: y[1] = a; 1: y[1] = b; endcase endmodule\n"⟩

/- The second input is picked, and it is 1. -/
def pickSecond : Valuation :=
  fun n => some (if n = "s" ∨ n = "b" then 1 else 0)

/- The value of a case that assigns the whole signal. -/
theorem reshaped_driver_agrees_pickedBit :
    ∃ c s s',
      firstReshaped? { caseForm := some .mux } pickedBit "y" =
        some (c, s, s') ∧
      s'.validate = .ok () ∧
      ∃ w w', s.exec pickSecond .zero = .ok w ∧
        s'.exec pickSecond .zero = .ok w' ∧
        w'.onTop pickSecond "y" = w.onTop pickSecond "y" := by
  have hRuns : (firstReshaped? { caseForm := some .mux }
      pickedBit "y").any (fun (c, s, s') =>
        s'.validate.toOption.isSome &&
          s.writes.names == ["y"] &&
          widthIn c.signals "y" == 1) = true := by
    rw [firstReshaped?, lowerSource_spelled {} pickedBit
      (Hdl.spelled_append rfl rfl)]
    decide +kernel
  rcases Option.any_eq_true .. |>.mp hRuns with
    ⟨⟨c, s, s'⟩, hFirst, hFacts⟩
  simp only [Bool.and_eq_true, beq_iff_eq] at hFacts
  rcases hFacts with ⟨⟨hValid, hWrites⟩, hWidth⟩
  rcases firstReshaped?_spec hFirst with
    ⟨circuits, hLowered, hc, hDriver, hApply⟩
  have hValidates : s'.validate = .ok () := eq_ok_of_isSome () hValid
  rcases reshaped_driver_agrees hLowered hc hDriver hApply with
    ⟨hSpans, hAgrees⟩
  rcases hAgrees (hSpans.mp hValidates) pickSecond
      (fun _ _ => rfl)
      (by
        intro _ n hn
        rw [hWrites, List.mem_singleton] at hn
        rw [hn]
        rfl) with
    ⟨w, w', hRun, hRun', _, hSame⟩
  refine ⟨c, s, s', hFirst, hValidates, w, w', hRun, hRun',
    hSame ?_⟩
  rintro _ x ⟨⟩
  rw [hWidth]
  decide

/-
  The value of a case that assigns one bit is given to the
  whole signal: it is too narrow, and the bit it lands on is
  not the one of the case.
-/
theorem reshaped_driver_differs_pickedUpper :
    ∃ circuits c s s',
      (lowerSource {} pickedUpper).result = .ok circuits ∧
      c ∈ circuits ∧ c.drivers.find? "y" = some s ∧
      Reshaping.apply { caseForm := some .mux } c "y" s = .ok s' ∧
      s'.validate ≠ .ok () ∧
      ∃ w w', s.exec pickSecond .zero = .ok w ∧
        s'.exec pickSecond .zero = .ok w' ∧
        w.onTop pickSecond "y" = some 2 ∧
        w'.onTop pickSecond "y" = some 1 := by
  have hRuns : (firstReshaped? { caseForm := some .mux }
      pickedUpper "y").any (fun (_, s, s') =>
        s'.validate.toOption.isNone &&
          (s.exec pickSecond .zero).toOption.any (fun w =>
            w.onTop pickSecond "y" == some 2) &&
          (s'.exec pickSecond .zero).toOption.any (fun w =>
            w.onTop pickSecond "y" == some 1)) = true := by
    rw [firstReshaped?, lowerSource_spelled {} pickedUpper
      (Hdl.spelled_append rfl rfl)]
    decide +kernel
  rcases Option.any_eq_true .. |>.mp hRuns with
    ⟨⟨c, s, s'⟩, hFirst, hFacts⟩
  simp only [Bool.and_eq_true, Option.any_eq_true,
    beq_iff_eq] at hFacts
  rcases hFacts with
    ⟨⟨hInvalid, w, hRun, hValue⟩, w', hRun', hValue'⟩
  rcases firstReshaped?_spec hFirst with
    ⟨circuits, hLowered, hc, hDriver, hApply⟩
  refine ⟨circuits, c, s, s', hLowered, hc, hDriver, hApply, ?_,
    w, w', eq_ok_of_toOption hRun, eq_ok_of_toOption hRun',
    hValue, hValue'⟩
  intro hValid
  rw [hValid] at hInvalid
  cases hInvalid

end Gatework
