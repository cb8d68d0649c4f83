import Gatework.Proofs.Flatten.Correctness
import Gatework.Proofs.Lowering.Declarations
import Gatework.Proofs.Lowering.Stmt

/-
  Lowered circuits are well typed.

  Each item leaves a draft in which every driven signal is
  given by an expression of its own width that reads all
  signals at their widths, next to a proper statement that
  drives it. No check on the way fails, so lowering only stops
  at faults of the source.

  Key definitions include:
    * `Assign.Drives` and `Circuit.DrivenOver`
    * `Draft.Proper` and `Circuit.Proper`
    * `Circuit.Named`, names with a property of names of a file

  Key theorems include:
    * `Lower.ensures_item`
    * `Lower.ensures_circuit`
    * `lowerParsed_named` and `lowerParsed_spec`
-/

------------------------------------------------------------
-- Drafts
------------------------------------------------------------

namespace Gatework

/-
  An assignment that drives a signal as a whole: of its width
  and typed over some signals.
-/
structure Assign.Drives
    (Γ : Var → Prop)
    (name : String)
    (a : Assign) :
    Prop where
  whole : a.target = .whole a.var
  name_eq : a.var.name = name
  signal : (Expr.var none a.var).Typed Γ
  value : a.value.Typed Γ
  width_eq : a.value.width = a.var.width

/-
  What a circuit drives, over some signals: each signal once
  and as a whole, with a driver, and by proper statements.
-/
structure Circuit.DrivenOver
    (Γ : Var → Prop)
    (c : Circuit) :
    Prop where
  drives : ∀ n a, c.assignments.find? n = some a →
    a.Drives Γ n
  drivers : ∀ n s, c.drivers.find? n = some s →
    s.Proper Γ
  processes : ∀ s ∈ c.processes, s.Proper Γ
  keys_eq : c.assignments.keys = c.drivers.keys
  ascending : Ascending c.assignments.keys

/- A draft of a circuit with its name and pins. -/
structure Draft.Proper
    (Γ : Var → Prop)
    (name : String)
    (pins : List Pin)
    (d : Draft) :
    Prop where
  name_eq : d.circuit.name = name
  pins_eq : d.circuit.pins = pins
  driven : d.circuit.DrivenOver Γ

/- A circuit over its own signals, with pins among them. -/
structure Circuit.Proper
    (c : Circuit) :
    Prop where
  driven : c.DrivenOver (Reads c.signals)
  pins_nodup : (c.pins.map Pin.name).Nodup
  pins_declared : ∀ pin ∈ c.pins, ∃ v,
    c.signals.find? pin.name = some v ∧ v.width = pin.width

namespace Draft

variable {Γ : Var → Prop}
variable {name : String}
variable {pins : List Pin}
variable {d : Draft}

theorem proper_start
    (Γ : Var → Prop)
    (name : String)
    (pins : List Pin) :
    Draft.Proper Γ name pins
      { circuit := { name, pins } } where
  name_eq := rfl
  pins_eq := rfl
  driven :=
    { drives := nofun
      drivers := nofun
      processes := by simp
      keys_eq := rfl
      ascending := List.Pairwise.nil }

/- Recording adds an assignment and a driver. -/
theorem circuit_record
    (d : Draft)
    (a : Assign)
    (driver : Stmt)
    (text : String) :
    ∃ sources, (d.record a driver text).circuit =
      { d.circuit with
        sources
        drivers := d.circuit.drivers.insert a.var.name driver
        assignments :=
          d.circuit.assignments.insert a.var.name a } := by
  unfold record Circuit.withSource
  dsimp only
  split
  · exact ⟨_, rfl⟩
  · exact ⟨d.circuit.sources, rfl⟩

/- A draft stays proper when a whole signal is recorded. -/
theorem Proper.record
    (hd : d.Proper Γ name pins)
    {v : Var}
    (hVar : (Expr.var none v).Typed Γ)
    {value : Expr}
    (hValue : value.Typed Γ ∧ value.width = v.width)
    {driver : Stmt}
    (hDriver : driver.Proper Γ)
    (text : String) :
    (d.record ⟨.whole v, value⟩ driver text).Proper
      Γ name pins := by
  have hDrives :
      (Assign.mk (.whole v) value).Drives Γ v.name :=
    ⟨rfl, rfl, hVar, hValue.1, hValue.2⟩
  rcases circuit_record d ⟨.whole v, value⟩ driver text with
    ⟨sources, hSame⟩
  refine ⟨?_, ?_, ?_⟩
  · rw [hSame]
    exact hd.name_eq
  · rw [hSame]
    exact hd.pins_eq
  · rw [hSame]
    constructor
    case drives =>
        intro n b hFound
        rw [NameMap.find?_insert] at hFound
        split at hFound
        case isTrue hn =>
            cases hFound
            exact hn ▸ hDrives
        case isFalse => exact hd.driven.drives n b hFound
    case drivers =>
        intro n s hFound
        rw [NameMap.find?_insert] at hFound
        split at hFound
        case isTrue =>
            cases hFound
            exact hDriver
        case isFalse => exact hd.driven.drivers n s hFound
    case processes => exact hd.driven.processes
    case keys_eq =>
        exact NameMap.keys_insert_congr hd.driven.keys_eq _ _ _
    case ascending =>
        exact NameMap.ascending_insert hd.driven.ascending _ _

/- One more process. -/
theorem Proper.process
    (hd : d.Proper Γ name pins)
    {s : Stmt}
    (hs : s.Proper Γ) :
    Draft.Proper Γ name pins
      { d with
        circuit :=
          { d.circuit with
            processes := d.circuit.processes ++ [s] } } := by
  refine { hd with driven := { hd.driven with processes := ?_ } }
  intro t ht
  rcases List.mem_append.mp ht with ht | ht
  · exact hd.driven.processes t ht
  · rw [List.mem_singleton.mp ht]
    exact hs

end Draft

namespace Lower

variable {I : Scope → Prop}
variable {Γ : Var → Prop}

/- A claim changes nothing of the circuit. -/
theorem ensures_claim
    {d : Draft}
    {name : String}
    {pins : List Pin}
    (hd : d.Proper Γ name pins)
    (driven : String)
    (wanted : Claim) :
    Ensures False I (claim d driven wanted)
      (Draft.Proper Γ name pins) := by
  unfold claim
  dsimp only
  split
  · exact ensures_fail rfl
  · exact ensures_pure { hd with }

theorem ensures_keep_simplify
    (hOne : OneWidth Γ)
    {e : Expr}
    (he : e.Typed Γ) :
    Ensures False I (keep e.simplify)
      (fun e' => e'.Typed Γ ∧ e'.width = e.width) := by
  have hKeeps := Expr.keeps_simplify hOne he
  apply (ensures_kept hKeeps.typed.denotes).imp
  intro e' he'
  exact ⟨he'.typed, he'.width_eq.trans hKeeps.width_eq⟩

/- A value put into the bits of another one keeps its width. -/
theorem ensures_splice
    (hOne : OneWidth Γ)
    {old value : Expr}
    (hOld : old.Typed Γ)
    (hValue : value.Typed Γ)
    (low : Nat) :
    Ensures False I (keep (old.splice low value).simplify)
      (fun e => e.Typed Γ ∧ e.width = old.width) := by
  have hSplice := Expr.isWord_splice hOld hValue low
  apply (ensures_keep_simplify hOne hSplice.typed).imp
  intro e he
  exact ⟨he.1, he.2.trans hSplice.width_eq⟩

end Lower

/- The assignment of a value to the signal of a slot. -/
theorem Slot.Holds.make_eq
    {Γ : Var → Prop}
    {slot : Slot}
    {v : Var}
    (hSlot : slot.Holds Γ v)
    {value : Expr}
    (hWidth : value.width = v.width) :
    Assign.make slot.whole value = .ok ⟨.whole v, value⟩ := by
  rcases slot with ⟨whole, old⟩
  have hWhole := hSlot.whole
  cases whole with
  | var m w =>
      cases hWhole
      exact if_pos hWidth.symm
  | _ => cases hWhole

end Gatework

------------------------------------------------------------
-- Items
------------------------------------------------------------

namespace Gatework

namespace Lower

/- A process whose body and parts are proper. -/
structure Process.Proper
    (Γ : Var → Prop)
    (p : Process) :
    Prop where
  body : p.body.Proper Γ
  parts : ∀ part ∈ p.parts, part.1.Proper Γ

/- The driver of a signal is a part or the whole body. -/
theorem Process.Proper.driver
    {Γ : Var → Prop}
    {p : Process}
    (hp : p.Proper Γ)
    (name : String) :
    (p.driver name).1.Proper Γ := by
  unfold Process.driver
  split
  case h_1 only hOnly =>
      have hIn := List.mem_singleton_self only
      rw [← hOnly] at hIn
      exact hp.parts only (List.mem_filter.mp hIn).1
  case h_2 => exact hp.body

variable {scope : Scope}
variable {N : String → Prop}
variable {Γ : Var → Prop}
variable {name : String}
variable {pins : List Pin}
variable {d : Draft}

section

variable (hValid : ValidSignals scope.signals)
variable (hΓ : ∀ v, N v.name →
  v.width = widthIn scope.signals v.name → Γ v)

include hValid hΓ

theorem ensures_process?
    {body : Hdl.Stmt}
    (hBody : body.Over N) :
    Ensures False scope.Agrees (process? body)
      (fun p => ∀ q, p = some q → q.Proper Γ) := by
  unfold process?
  split
  case h_1 label ss span =>
      have hAll := Hdl.Stmt.overAll_iff.mp hBody
      apply (ensures_stmts hValid hΓ hAll).bind
      intro parts hParts
      apply (ensures_textOf span).bind
      intro text _
      apply ensures_pure
      rintro _ ⟨⟩
      refine ⟨Stmt.proper_block ?_, hParts⟩
      intro s hs
      rcases List.mem_map.mp hs with ⟨part, hPart, rfl⟩
      exact hParts part hPart
  case h_2 =>
      apply (ensures_stmt hValid hΓ hBody).bind
      intro s hs
      cases s with
      | none => exact ensures_pure nofun
      | some t =>
          apply (ensures_textOf body.span).bind
          intro text _
          apply ensures_pure
          rintro _ ⟨⟩
          exact ⟨hs t rfl, by simp⟩

end

section

variable (hOne : OneWidth Γ)

include hOne

/- A slot is recorded for the signal it is a slot of. -/
theorem ensures_drive
    {I : Scope → Prop}
    {p : Process}
    (hp : p.Proper Γ)
    (span : Span)
    (hd : d.Proper Γ name pins)
    {v : Var}
    {slot : Slot}
    (hSlot : slot.Holds Γ v) :
    Ensures False I (drive p span d (v.name, slot))
      (Draft.Proper Γ name pins) := by
  apply (ensures_claim hd _ _).bind
  intro d' hd'
  apply (ensures_keep_simplify hOne hSlot.value).bind
  rintro value ⟨hValue, hWidth⟩
  have hSame : value.width = v.width :=
    hWidth.trans hSlot.width_eq
  apply Ensures.bind (P := (· = ⟨.whole v, value⟩))
  · exact ensures_checked_ok (hSlot.make_eq hSame) rfl
  · rintro _ rfl
    apply ensures_pure
    exact hd'.record hSlot.signal ⟨hValue, hSame⟩
      (hp.driver v.name) _

end

section

variable (hValid : ValidSignals scope.signals)
variable (hΓ : ∀ v, N v.name →
  v.width = widthIn scope.signals v.name → Γ v)
variable (hOne : OneWidth Γ)

include hValid hΓ hOne

theorem ensures_continuous
    (hd : d.Proper Γ name pins)
    {lhs value : Hdl.Expr}
    (hLhs : lhs.Over N False)
    (hValue : value.Over N False)
    (span : Span) :
    Ensures False scope.Agrees (continuous d lhs value span)
      (Draft.Proper Γ name pins) := by
  apply (ensures_assign hValid hΓ hLhs hValue).bind
  intro a ha
  have hAssign : (Stmt.assign a).Proper Γ :=
    ⟨ha.typed, trivial⟩
  apply (ensures_textOf span).bind
  intro text _
  apply (ensures_claim hd _ _).bind
  intro d' hd'
  rcases ha.typed with ⟨hTarget, hTyped, hWidths⟩
  have hVar := Target.typed_var hTarget
  cases hField : a.target.field? with
  | none =>
      apply (ensures_keep_simplify hOne hTyped).bind
      rintro rhs ⟨hRhs, hWidth⟩
      apply ensures_pure
      have hWhole : rhs.width = a.var.width := by
        rw [hWidth, ← hWidths]
        exact Target.width_of_field?_eq_none hField
      exact hd'.record hVar ⟨hRhs, hWhole⟩ hAssign _
  | some low =>
      -- The bits go into what is driven so far, or into 0.
      have hInto : ∀ old : Expr,
          old.Typed Γ →
          old.width = a.var.width →
          Ensures False scope.Agrees
            (keep (old.splice low a.value).simplify)
            (fun rhs => rhs.Typed Γ ∧
              rhs.width = a.var.width) := by
        intro old hOld hWidth
        apply (ensures_splice hOne hOld hTyped low).imp
        rintro rhs ⟨hRhs, hSame⟩
        exact ⟨hRhs, hSame.trans hWidth⟩
      refine Ensures.bind (P := fun rhs =>
        rhs.Typed Γ ∧
          rhs.width = a.var.width) ?_ ?_
      · cases hPrior :
            d'.circuit.assignments.find? a.var.name with
        | none =>
            have hZero := Expr.isWord_zeros
              (Γ := Γ) hVar.1 hVar.2.1
            exact hInto _ hZero.typed hZero.width_eq
        | some prior =>
            have hDrives := hd'.driven.drives _ prior hPrior
            apply hInto _ hDrives.value
            exact hDrives.width_eq.trans
              (hOne _ _ hDrives.signal.2.2 hVar.2.2
                hDrives.name_eq)
      · intro rhs hRhs
        split
        case h_1 =>
            exact ensures_pure (hd'.record hVar hRhs hAssign _)
        case h_2 driver hDriver =>
            have hBoth : ∀ s ∈ [driver, .assign a],
                s.Proper Γ := by
              simpa using
                ⟨hd'.driven.drivers _ driver hDriver, hAssign⟩
            exact ensures_pure (hd'.record hVar hRhs
              (Stmt.proper_block hBoth) _)

theorem ensures_combinational
    (hd : d.Proper Γ name pins)
    {body : Hdl.Stmt}
    (hBody : body.Over N) :
    Ensures False scope.Agrees (combinational d body)
      (Draft.Proper Γ name pins) := by
  apply (ensures_process? hValid hΓ hBody).bind
  intro found hFound
  cases found with
  | none => exact ensures_pure hd
  | some p =>
      have hp := hFound p rfl
      rcases hp.body with ⟨hTyped, hFit⟩
      apply ensures_read.bind
      intro setting _
      apply (ensures_stamping fun marks => ?_).bind
      · intro slots hSlots
        apply ensures_foldlM
          (Q := Draft.Proper Γ name pins)
        · exact hd.process hp.body
        · exact hSlots
      · intro entry hEntry d' hd'
        rcases Stmt.holds_of_mem_flatten
            hOne hTyped hFit marks hEntry with ⟨v, hName, hHolds⟩
        rcases entry with ⟨k, slot⟩
        cases hName
        exact ensures_drive hOne hp body.span hd' hHolds

theorem ensures_tie
    (hd : d.Proper Γ name pins)
    {entry : Hdl.DeclName}
    (hEntry : entry.Over N) :
    Ensures False scope.Agrees (tie d entry)
      (Draft.Proper Γ name pins) := by
  rcases hEntry with ⟨hName, hInit⟩
  unfold tie
  split
  case h_1 => exact ensures_pure hd
  case h_2 value hSome =>
      have hLhs : (Hdl.Expr.name entry.name entry.span).Over N False :=
        hName
      exact ensures_continuous hValid hΓ hOne hd hLhs
        (hInit value hSome) entry.span

/- Every item leaves the draft proper. -/
theorem ensures_item
    (hd : d.Proper Γ name pins)
    {i : Hdl.Item}
    (hi : i.Over N) :
    Ensures False scope.Agrees (item d i)
      (Draft.Proper Γ name pins) := by
  unfold item
  split
  case h_1 => exact ensures_pure hd
  case h_2 decl =>
      apply ensures_foldlM hd
      intro entry hEntry d' hd'
      exact ensures_tie hValid hΓ hOne hd' (hi entry hEntry)
  case h_3 => exact ensures_continuous hValid hΓ hOne hd hi.1 hi.2 _
  case h_4 => exact ensures_combinational hValid hΓ hOne hd hi
  case h_5 =>
      split
      · exact ensures_combinational hValid hΓ hOne hd hi
      · exact ensures_refuse _ _
  all_goals exact ensures_refuse _ _

end

end Lower

end Gatework

------------------------------------------------------------
-- Circuits
------------------------------------------------------------

namespace Gatework

/- A signal with a property that its name has, at its width. -/
def ReadsNamed
    (N : String → Prop)
    (signals : NameMap Var)
    (v : Var) :
    Prop :=
  Reads signals v ∧ N v.name

theorem oneWidth_readsNamed
    (N : String → Prop)
    (signals : NameMap Var) :
    OneWidth (ReadsNamed N signals) :=
  fun v w hv hw => oneWidth_reads signals v w hv.1 hw.1

/- The circuit and all that it drives have such names. -/
structure Circuit.Named
    (N : String → Prop)
    (c : Circuit) :
    Prop where
  name : N c.name
  driven : ∀ n, c.assignments.contains n = true → N n

/- What is driven over signals is driven over more of them. -/
theorem Circuit.DrivenOver.mono
    {Γ Γ' : Var → Prop}
    {c : Circuit}
    (hc : c.DrivenOver Γ)
    (hΓ : ∀ v, Γ v → Γ' v) :
    c.DrivenOver Γ' := by
  have hStmt : ∀ {s : Stmt}, s.Proper Γ → s.Proper Γ' :=
    fun hs => ⟨hs.1.mono fun v _ => hΓ v, hs.2⟩
  refine { hc with drives := ?_, drivers := ?_, processes := ?_ }
  · intro n a ha
    have hDrives := hc.drives n a ha
    exact { hDrives with
      signal := hDrives.signal.mono fun v _ => hΓ v
      value := hDrives.value.mono fun v _ => hΓ v }
  · exact fun n s hs => hStmt (hc.drivers n s hs)
  · exact fun s hs => hStmt (hc.processes s hs)

namespace Lower

variable {N : String → Prop}
variable (hText : ∀ n, N n → n ≠ "")

include hText

/-
  A lowered circuit is proper. Its signals are those left by
  the declarations, which the items do not change. What holds
  of all names in its source holds of those that it drives.
-/
theorem ensures_circuit
    {decl : Hdl.ModuleDecl}
    (hDecl : decl.Given)
    (hNames : decl.Over N) :
    Ensures False (fun _ => True) (circuit decl)
      (fun c => c.Proper ∧ c.name = decl.name ∧ c.Named N) := by
  apply (leads_modify (J := (· = {})) fun _ _ => rfl).bind
  intro _
  apply (leads_bind hDecl).bind
  intro pins
  apply leads_of_each
  rintro scope ⟨rest, hScope⟩
  have hItems : Ensures False scope.Agrees
      (decl.items.foldlM item
        { circuit := { name := decl.name, pins } })
      (Draft.Proper (ReadsNamed N scope.signals) decl.name
        pins) := by
    apply ensures_foldlM (Draft.proper_start _ _ _)
    intro i hi d hd
    exact ensures_item hScope.valid
      (fun _ hName hWidth => ⟨⟨hText _ hName, hWidth⟩, hName⟩)
      (oneWidth_readsNamed N scope.signals) hd
      (hNames.items i hi)
  refine Leads.imp (hItems.bind (Q := fun c =>
    c.Proper ∧ c.name = decl.name ∧ c.Named N) ?_) ?_
    (fun _ _ h => ⟨trivial, h.2⟩)
  · intro draft hDraft
    apply ensures_get.bind
    intro p hp
    apply ensures_pure
    refine ⟨⟨?_, ?_, ?_⟩, hDraft.name_eq, ?_, ?_⟩
    · rw [hp.1]
      have hDriven := hDraft.driven.mono fun _ hv => hv.1
      exact { hDriven with }
    · rw [hDraft.pins_eq]
      exact hScope.nodup
    · rw [hDraft.pins_eq, hp.1]
      exact hScope.settled
    · rw [hDraft.name_eq]
      exact hNames.name
    · intro n hn
      rcases NameMap.contains_eq_true_iff.mp hn with ⟨a, ha⟩
      have hDrives := hDraft.driven.drives n a ha
      exact hDrives.name_eq ▸ hDrives.signal.2.2.2
  · rintro _ rfl
    exact ⟨rfl, rfl⟩

/- Circuits differ in their names, also from those before. -/
theorem ensures_circuits
    {decls : List Hdl.ModuleDecl}
    (hDecls : ∀ decl ∈ decls, decl.Given ∧ decl.Over N)
    (seen : NameMap Span) :
    Ensures False (fun _ => True) (circuits decls seen)
      (fun cs => (∀ c ∈ cs, c.Proper ∧ c.Named N) ∧
        (cs.map Circuit.name).Nodup ∧
        ∀ c ∈ cs, seen.find? c.name = none) := by
  induction decls generalizing seen with
  | nil =>
      rw [circuits]
      exact ensures_pure (by simp)
  | cons decl decls ih =>
      rw [circuits]
      split
      case h_1 => exact ensures_fail rfl
      case h_2 hNew =>
          have hDecl := hDecls decl (List.mem_cons_self ..)
          apply (ensures_circuit hText hDecl.1 hDecl.2).bind
          rintro c ⟨hc, hName, hNamed⟩
          apply (ih
            (fun d hd => hDecls d (List.mem_cons_of_mem _ hd))
            (seen.insert decl.name decl.span)).bind
          rintro cs ⟨hcs, hNodup, hUnseen⟩
          have hOthers : ∀ d ∈ cs, d.name ≠ decl.name ∧
              seen.find? d.name = none := by
            intro d hd
            have hUnseen := hUnseen d hd
            rw [NameMap.find?_insert] at hUnseen
            split at hUnseen
            case isTrue => cases hUnseen
            case isFalse hNe => exact ⟨hNe, hUnseen⟩
          apply ensures_pure
          refine ⟨List.forall_mem_cons.mpr ⟨⟨hc, hNamed⟩, hcs⟩,
            ?_, ?_⟩
          · apply List.nodup_cons.mpr
            refine ⟨fun hIn => ?_, hNodup⟩
            rcases List.mem_map.mp hIn with ⟨d, hd, hSame⟩
            exact (hOthers d hd).1 (hSame.trans hName)
          · rw [List.forall_mem_cons, hName]
            exact ⟨hNew, fun d hd => (hOthers d hd).2⟩

end Lower

/-
  Lowering a parsed file meets no flaw, and what it gives is
  proper and named apart. What holds of all names in the file
  holds of the circuits and of what they drive.
-/
theorem lowerParsed_named
    {N : String → Prop}
    (hText : ∀ n, N n → n ≠ "")
    {parsed : Hdl.Parsed Hdl.File}
    (hDecls : ∀ decl ∈ parsed.tree.modules,
      decl.Given ∧ decl.Over N)
    (options : LowerOptions)
    (sources : Sources) :
    match (lowerParsed options sources parsed).result with
    | .error e => e.isFlaw = false
    | .ok circuits => (∀ c ∈ circuits, c.Proper ∧ c.Named N) ∧
        (circuits.map Circuit.name).Nodup := by
  have hRun := Lower.ensures_circuits hText hDecls NameMap.empty
    ⟨options, sources⟩ { findings := parsed.findings } trivial
  unfold lowerParsed
  by_cases hErrors : parsed.findings.hasErrors = true
  · rw [if_pos hErrors]
    rfl
  · rw [if_neg hErrors]
    change match (Lower.circuits parsed.tree.modules
        NameMap.empty ⟨options, sources⟩
        { findings := parsed.findings }).1 with
      | .error e => e.isFlaw = false
      | .ok circuits => (∀ c ∈ circuits, c.Proper ∧ c.Named N) ∧
          (circuits.map Circuit.name).Nodup
    generalize Lower.circuits parsed.tree.modules
      NameMap.empty ⟨options, sources⟩
      { findings := parsed.findings } = final at hRun ⊢
    rcases final with ⟨result, progress⟩
    cases result with
    | error e => exact eq_false_of_ne_true hRun
    | ok circuits => exact ⟨hRun.2.1, hRun.2.2.1⟩

/-
  Lowering a parsed file meets no flaw, and what it gives is
  proper and named apart.
-/
theorem lowerParsed_spec
    {parsed : Hdl.Parsed Hdl.File}
    (hGiven : ∀ decl ∈ parsed.tree.modules, decl.Given)
    (options : LowerOptions)
    (sources : Sources) :
    match (lowerParsed options sources parsed).result with
    | .error e => e.isFlaw = false
    | .ok circuits => (∀ c ∈ circuits, c.Proper) ∧
        (circuits.map Circuit.name).Nodup := by
  have hNamed := lowerParsed_named (fun _ hn => hn)
    (fun decl hDecl => ⟨hGiven decl hDecl, hGiven decl hDecl⟩)
    options sources
  generalize (lowerParsed options sources parsed).result = result
    at hNamed ⊢
  cases result with
  | error e => exact hNamed
  | ok circuits => exact ⟨fun c hc => (hNamed.1 c hc).1, hNamed.2⟩

/- What lowering gives is proper, if nothing is left out. -/
theorem proper_of_lowerParsed
    {options : LowerOptions}
    {sources : Sources}
    {parsed : Hdl.Parsed Hdl.File}
    (hGiven : ∀ decl ∈ parsed.tree.modules, decl.Given)
    {circuits : List Circuit}
    (hLowered :
      (lowerParsed options sources parsed).result =
        .ok circuits) :
    ∀ c ∈ circuits, c.Proper := by
  have hSpec := lowerParsed_spec hGiven options sources
  rw [hLowered] at hSpec
  exact hSpec.1

end Gatework
