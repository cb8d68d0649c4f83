import Gatework.Proofs.Lowering.Circuit
import Gatework.Proofs.Stmt.Order

/-
  What lowering records for the signals of a process.

  A process claims every bit of what it writes, so no later
  item replaces its records: in the finished circuit each of
  its signals has the flattened value it has after the
  process, and as driver the only part of the process that
  writes it or the process as a whole.

  That expressions, statements and declarations are lowered to
  proper ones is not shown again: what `Ensures` says of any
  setting holds of the given one. The walk here is along the
  items and what they record.

  Key definitions include:
    * `Lower.Reaches`, what a successful run under a setting
      leads to
    * `Circuit.Records`
    * `Draft.Traced` and `Circuit.Traced`

  Key theorems include:
    * `Stmt.flatten_spec`
    * `Lower.reaches_combinational`
    * `traced_of_lowerParsed`
-/

------------------------------------------------------------
-- Runs under a setting
------------------------------------------------------------

namespace Gatework

namespace Lower

variable {α β : Type}
variable {setting : Setting}
variable {I : Scope → Prop}
variable {P : α → Scope → Prop}
variable {Q : β → Scope → Prop}

/-
  Under a setting, a run that succeeds from a scope with a
  property leads to a result and a scope with another one.
-/
def Reaches
    (setting : Setting)
    (I : Scope → Prop)
    (m : Lower α)
    (P : α → Scope → Prop) :
    Prop :=
  ∀ p, I p.scope → ∀ a p', m setting p = (.ok a, p') →
    P a p'.scope

theorem Leads.reaches
    {flawed : Prop}
    {m : Lower α}
    (hm : Leads flawed I m P) :
    Reaches setting I m P := by
  intro p hI a p' hRun
  have hResult := hm setting p hI
  rw [hRun] at hResult
  exact hResult

theorem Ensures.reaches
    {flawed : Prop}
    {m : Lower α}
    {P : α → Prop}
    (hm : Ensures flawed I m P) :
    Reaches setting I m (fun a scope => I scope ∧ P a) :=
  Leads.reaches hm

theorem reaches_pure
    {a : α}
    (ha : ∀ scope, I scope → P a scope) :
    Reaches setting I (pure a) P := by
  intro p hI b p' hRun
  cases hRun
  exact ha p.scope hI

theorem reaches_read :
    Reaches setting I (read : Lower Setting)
      (fun s scope => s = setting ∧ I scope) := by
  intro p hI a p' hRun
  cases hRun
  exact ⟨rfl, hI⟩

theorem reaches_stamping
    {m : Stamping α} :
    Reaches setting I (stamping m)
      (fun a scope => I scope ∧ ∃ marks, a = (m marks).1) := by
  intro p hI a p' hRun
  cases hRun
  exact ⟨hI, p.marks, rfl⟩

theorem Reaches.bind
    {m : Lower α}
    {f : α → Lower β}
    (hm : Reaches setting I m P)
    (hf : ∀ a, Reaches setting (P a) (f a) Q) :
    Reaches setting I (m >>= f) Q := by
  intro p hI b p' hRun
  rw [bind_apply] at hRun
  generalize hFirst : m setting p = run at hRun
  rcases run with ⟨result, middle⟩
  cases result with
  | error e => cases hRun
  | ok a => exact hf a middle (hm p hI a middle hFirst) b p' hRun

theorem Reaches.imp
    {J : Scope → Prop}
    {m : Lower α}
    {P' : α → Scope → Prop}
    (hm : Reaches setting I m P)
    (hI : ∀ scope, J scope → I scope)
    (hP : ∀ a scope, P a scope → P' a scope) :
    Reaches setting J m P' :=
  fun p hJ a p' hRun => hP a _ (hm p (hI _ hJ) a p' hRun)

/- A run that can be told for each scope it may start in. -/
theorem reaches_of_each
    {m : Lower α}
    (hEach : ∀ scope, I scope → Reaches setting (· = scope) m P) :
    Reaches setting I m P :=
  fun p hI => hEach p.scope hI p rfl

/- Facts that do not speak of the scope may be used freely. -/
theorem reaches_of_fact
    {m : Lower α}
    {fact : Prop}
    (hm : fact → Reaches setting I m P) :
    Reaches setting (fun scope => I scope ∧ fact) m P :=
  fun p h => hm h.2 p h.1

theorem reaches_any
    {m : Lower α} :
    Reaches setting I m (fun _ _ => True) :=
  fun _ _ _ _ _ => trivial

theorem reaches_refuse
    (what : String)
    (span : Span) :
    Reaches setting I (refuse what span) P := by
  have hRefuse : Leads False I (refuse what span) P :=
    leads_refuse what span
  exact hRefuse.reaches

/-
  A step on each element that carries a state along, where
  what holds of the state speaks of the elements to come.
-/
theorem reaches_foldlM
    {J : List α → β → Prop}
    {f : β → α → Lower β}
    (hf : ∀ x xs b, J (x :: xs) b →
      Reaches setting I (f b x)
        (fun b' scope => I scope ∧ J xs b'))
    {xs : List α}
    {b : β}
    (hb : J xs b) :
    Reaches setting I (xs.foldlM f b)
      (fun b' scope => I scope ∧ J [] b') := by
  induction xs generalizing b with
  | nil =>
      rw [List.foldlM_nil]
      exact reaches_pure fun _ hI => ⟨hI, hb⟩
  | cons x xs ih =>
      rw [List.foldlM_cons]
      refine (hf x xs b hb).bind ?_
      intro b'
      exact reaches_of_fact fun hb' => ih hb'

end Lower

end Gatework

------------------------------------------------------------
-- Flattened processes
------------------------------------------------------------

namespace Gatework

namespace Stmt

variable {Γ : Var → Prop}
variable {s : Stmt}

/-
  Exactly the written names are listed, each once, with a
  slot for its signal that has the value after the statement
  where targets that may fall back to 0 are 0.
-/
theorem flatten_spec
    (hOne : OneWidth Γ)
    (hs : s.Typed Γ)
    (hFit : s.LabelsFit)
    (p : Fallback)
    (marks : Nat) :
    ((s.flatten p marks).1.map Prod.fst).Nodup ∧
      (∀ n, n ∈ (s.flatten p marks).1.map Prod.fst ↔
        s.Writes n) ∧
      ∀ k slot, (k, slot) ∈ (s.flatten p marks).1 →
        ∃ v, v.name = k ∧ slot.Holds Γ v ∧
          ∀ τ, Ready p (· ∈ s.targets) τ →
            slot.value.value τ = s.after τ k &&& mask v.width := by
  rcases (Flattening.yields_exec (T := (· ∈ s.targets)) (p := p)
      hOne hs hFit (fun _ hv => hv) Slots.typed_empty).1
      { marks } with ⟨hAfter, hNotes⟩
  generalize hFinal : Flattening.exec p s NameMap.empty { marks } =
    final at hAfter hNotes
  rcases final with ⟨slots, state⟩
  have hListed : (s.flatten p marks).1 =
      state.order.filterMap fun n =>
        (slots.find? n).map fun slot => (n, slot) := by
    unfold flatten
    rw [show (Flattening.exec p s NameMap.empty).run { marks } =
      (slots, state) from hFinal]
  have hOrder : ∀ n, n ∈ state.order ↔ s.Writes n :=
    fun n => (hNotes.mem n).trans (or_iff_right List.not_mem_nil)
  have hNames : (s.flatten p marks).1.map Prod.fst =
      state.order := by
    rw [hListed]
    apply names_listed
    intro n hn
    exact (hAfter.contains n).mpr (Or.inr ((hOrder n).mp hn))
  refine ⟨?_, ?_, ?_⟩
  · rw [hNames]
    exact hNotes.nodup List.nodup_nil
  · intro n
    rw [hNames, hOrder]
  · intro k slot hMem
    rw [hListed] at hMem
    rcases List.mem_filterMap.mp hMem with ⟨n, _, hEntry⟩
    rcases Option.map_eq_some_iff.mp hEntry with
      ⟨found, hFound, hPair⟩
    cases hPair
    rcases hAfter.typed k slot hFound with ⟨v, rfl, _, hSlot⟩
    refine ⟨v, rfl, hSlot, ?_⟩
    intro τ hReady
    exact hAfter.value_eq hReady hSlot hFound

end Stmt

end Gatework

------------------------------------------------------------
-- Records
------------------------------------------------------------

namespace Gatework

/-
  A circuit holds what a process makes of a name: its value
  after the process, flattened and simplified, and its driver.
-/
structure Circuit.Records
    (p : Fallback)
    (body : Stmt)
    (name : String)
    (c : Circuit) :
    Prop where
  assigned : ∃ marks slot a,
    (name, slot) ∈ (body.flatten p marks).1 ∧
      c.assignments.find? name = some a ∧
      a.value.unmarked = slot.value.simplify.unmarked
  driven : c.drivers.find? name = some (body.cut name).driver

/- Every bit of a signal is claimed at once. -/
def Draft.Claimed
    (signals : NameMap Var)
    (name : String)
    (d : Draft) :
    Prop :=
  ∃ claim ∈ (d.claims.find? name).getD [],
    claim.low = 0 ∧ claim.width = widthIn signals name

/-
  A draft in which drivers write their signals, and in which
  names that belong to processes are claimed and recorded.
-/
structure Draft.Traced
    (signals : NameMap Var)
    (p : Fallback)
    (owns : Stmt → String → Prop)
    (d : Draft) :
    Prop where
  writes : ∀ n s, d.circuit.drivers.find? n = some s → s.Writes n
  claimed : ∀ body n, owns body n → d.Claimed signals n
  recorded : ∀ body n, owns body n → d.circuit.Records p body n

/- The same of a finished circuit and all its processes. -/
structure Circuit.Traced
    (p : Fallback)
    (c : Circuit) :
    Prop where
  writes : ∀ n s, c.drivers.find? n = some s → s.Writes n
  recorded : ∀ body ∈ c.processes, ∀ n, body.Writes n →
    c.Records p body n

namespace Draft

variable {signals : NameMap Var}
variable {p : Fallback}
variable {owns : Stmt → String → Prop}
variable {d : Draft}

/- The names that the processes of a draft write. -/
def Owns
    (d : Draft)
    (body : Stmt)
    (name : String) :
    Prop :=
  body ∈ d.circuit.processes ∧ body.Writes name

theorem traced_start
    (signals : NameMap Var)
    (p : Fallback)
    (name : String)
    (pins : List Pin) :
    Traced signals p (Owns { circuit := { name, pins } })
      { circuit := { name, pins } } where
  writes := nofun
  claimed := fun _ _ h => by cases h.1
  recorded := fun _ _ h => by cases h.1

theorem processes_record
    (d : Draft)
    (a : Assign)
    (driver : Stmt)
    (text : String) :
    (d.record a driver text).circuit.processes =
      d.circuit.processes := by
  rcases circuit_record d a driver text with ⟨sources, hSame⟩
  rw [hSame]

/- Records of a name that no process owns may change. -/
theorem Traced.record
    (hd : d.Traced signals p owns)
    {a : Assign}
    {driver : Stmt}
    (hWrites : driver.Writes a.var.name)
    (hFree : ∀ body, ¬ owns body a.var.name)
    (text : String) :
    (d.record a driver text).Traced signals p owns := by
  rcases circuit_record d a driver text with ⟨sources, hSame⟩
  refine ⟨?_, hd.claimed, ?_⟩
  · intro n s hFound
    rw [hSame, NameMap.find?_insert] at hFound
    split at hFound
    case isTrue hn =>
        cases hFound
        exact hn ▸ hWrites
    case isFalse => exact hd.writes n s hFound
  · intro body n hOwns
    have hOther : n ≠ a.var.name := by
      rintro rfl
      exact hFree body hOwns
    have hRecords := hd.recorded body n hOwns
    rw [hSame]
    constructor
    · dsimp only
      rw [NameMap.find?_insert, if_neg hOther]
      exact hRecords.assigned
    · dsimp only
      rw [NameMap.find?_insert, if_neg hOther]
      exact hRecords.driven

/- Recording what a process makes of a name. -/
theorem records_record
    {v : Var}
    {value : Expr}
    {body driver : Stmt}
    {marks : Nat}
    {slot : Slot}
    (hSlot : (v.name, slot) ∈ (body.flatten p marks).1)
    (hValue : value.unmarked = slot.value.simplify.unmarked)
    (hDriver : driver = (body.cut v.name).driver)
    (text : String) :
    (d.record ⟨.whole v, value⟩ driver text).circuit.Records p
      body v.name := by
  rcases circuit_record d ⟨.whole v, value⟩ driver text with
    ⟨sources, hSame⟩
  rw [hSame]
  constructor
  · refine ⟨marks, slot, ⟨.whole v, value⟩, hSlot, ?_, hValue⟩
    dsimp only
    exact NameMap.find?_insert_self ..
  · dsimp only
    rw [← hDriver]
    exact NameMap.find?_insert_self ..

end Draft

end Gatework

------------------------------------------------------------
-- Items
------------------------------------------------------------

namespace Gatework

theorem Draft.Traced.mono
    {signals : NameMap Var}
    {p : Fallback}
    {owns owns' : Stmt → String → Prop}
    {d : Draft}
    (hd : d.Traced signals p owns)
    (hOwns : ∀ body n, owns' body n → owns body n) :
    d.Traced signals p owns' where
  writes := hd.writes
  claimed := fun body n h => hd.claimed body n (hOwns body n h)
  recorded := fun body n h => hd.recorded body n (hOwns body n h)

namespace Lower

variable {setting : Setting}
variable {I : Scope → Prop}
variable {signals : NameMap Var}
variable {p : Fallback}
variable {owns : Stmt → String → Prop}
variable {d : Draft}

/-
  A claim on bits of a signal fails if a process owns it, and
  it leaves the circuit as it is.
-/
theorem reaches_claim
    (hd : d.Traced signals p owns)
    {name : String}
    {wanted : Claim}
    (hPos : 0 < wanted.width)
    (hLow : wanted.low < widthIn signals name) :
    Reaches setting I (claim d name wanted)
      (fun d' scope => I scope ∧
        d'.Traced signals p owns ∧ d'.circuit = d.circuit ∧
        wanted ∈ (d'.claims.find? name).getD [] ∧
        ∀ body, ¬ owns body name) := by
  intro progress hI d' progress' hRun
  unfold claim at hRun
  cases hNone : ((d.claims.find? name).getD []).find?
      (fun c => c.overlaps wanted) with
  | some other =>
      simp only [hNone] at hRun
      cases hRun
  | none =>
      simp only [hNone] at hRun
      cases hRun
      have hFree : ∀ body, ¬ owns body name := by
        intro body hOwns
        rcases hd.claimed body name hOwns with
          ⟨held, hHeld, hZero, hAll⟩
        have hApart := List.find?_eq_none.mp hNone held hHeld
        apply hApart
        unfold Claim.overlaps
        rw [hZero, hAll, Bool.and_eq_true]
        exact ⟨decide_eq_true (by omega), decide_eq_true (by omega)⟩
      have hClaims : ∀ n claim,
          claim ∈ (d.claims.find? n).getD [] →
          claim ∈ ((d.claims.insert name
            ((d.claims.find? name).getD [] ++ [wanted])).find?
              n).getD [] := by
        intro n claim hClaim
        rw [NameMap.find?_insert]
        split
        case isTrue hn =>
            subst hn
            exact List.mem_append_left _ hClaim
        case isFalse => exact hClaim
      refine ⟨hI, ⟨hd.writes, ?_, hd.recorded⟩, rfl, ?_, hFree⟩
      · intro body n hOwns
        rcases hd.claimed body n hOwns with ⟨held, hHeld, hAll⟩
        exact ⟨held, hClaims n held hHeld, hAll⟩
      · rw [NameMap.find?_insert, if_pos rfl]
        exact List.mem_append_right _ (List.mem_singleton_self _)

/- A process whose parts are the statements of its body. -/
def Process.Split
    (q : Process) :
    Prop :=
  q.parts = [] ∧ (∀ ss, q.body ≠ .block ss) ∨
    q.body = .block (q.parts.map Prod.fst)

theorem writesTo_eq
    (name : String)
    (s : Stmt) :
    Process.writesTo name s = s.writesName name := by
  rw [Bool.eq_iff_iff, Stmt.writesName_eq_true_iff]
  unfold Process.writesTo Stmt.Writes
  rw [List.any_eq_true, ← Stmt.mem_names_writes, VarSet.names,
    List.mem_map]
  simp only [beq_iff_eq]

/- The driver of a name is the one that is cut out. -/
theorem Process.Split.driver_eq
    {q : Process}
    (hq : q.Split)
    (name : String) :
    (q.driver name).1 = (q.body.cut name).driver := by
  unfold Process.driver
  rcases hq with ⟨hNone, hBody⟩ | hBody
  · rw [hNone, Stmt.cut_of_not_block hBody]
    rfl
  · have hFilter : (q.parts.map Prod.fst).filter
        (·.writesName name) =
          (q.parts.filter fun part =>
            writesTo name part.1).map Prod.fst := by
      rw [List.filter_map]
      congr 2
      funext part
      exact (writesTo_eq name part.1).symm
    rw [hBody, Stmt.driver_cut_block, hFilter]
    split
    case h_1 only hOnly => rw [hOnly]; rfl
    case h_2 hMany =>
        split
        case h_1 only hOnly =>
            rcases List.map_eq_singleton_iff.mp hOnly with
              ⟨part, hPart, _⟩
            exact absurd hPart (hMany part)
        case h_2 => rfl

/- A slot of a process is recorded for its signal. -/
theorem reaches_drive
    (hd : d.Traced signals p owns)
    {q : Process}
    (hq : q.Split)
    {marks : Nat}
    {v : Var}
    {slot : Slot}
    (hMem : (v.name, slot) ∈ (q.body.flatten p marks).1)
    (hWrites : q.body.Writes v.name)
    (hSlot : slot.Holds (Reads signals) v)
    (span : Span) :
    Reaches setting I (drive q span d (v.name, slot))
      (fun d' scope => I scope ∧
        d'.Traced signals p (fun body n =>
          owns body n ∨ body = q.body ∧ n = v.name) ∧
        d'.circuit.processes = d.circuit.processes) := by
  have hWhole : slot.whole.width = v.width :=
    Expr.width_eq_of_unmarked (e := .var none v) hSlot.whole
  have hWidth : v.width = widthIn signals v.name :=
    hSlot.signal.2.2.2
  have hPos : 0 < slot.whole.width := by
    rw [hWhole]
    exact hSlot.signal.1
  refine (reaches_claim hd hPos
    (by rw [← hWidth, ← hWhole]; exact hPos)).bind ?_
  intro d₁
  refine reaches_of_fact ?_
  rintro ⟨hd₁, hCircuit, hClaim, hFree⟩
  have hKeep : Ensures False I (keep slot.value.simplify) _ :=
    ensures_keep slot.value.simplify
  refine hKeep.reaches.bind ?_
  intro value
  refine reaches_of_fact ?_
  intro hValue
  have hSame : value.width = slot.value.width :=
    (Expr.width_eq_of_unmarked hValue).trans
      (Expr.keeps_simplify (oneWidth_reads signals)
        hSlot.value).width_eq
  rw [hSlot.make_eq (hSame.trans hSlot.width_eq)]
  refine reaches_pure ?_
  intro scope hI
  have hDriver := hq.driver_eq v.name
  have hOwn : (q.driver v.name).1.Writes v.name := by
    rw [hDriver]
    exact Stmt.writes_driver_cut hWrites
  have hOthers := hd₁.record (a := ⟨.whole v, value⟩) hOwn hFree
    (q.driver v.name).2
  have hNew := Draft.records_record (d := d₁) hMem hValue hDriver
    (q.driver v.name).2
  refine ⟨hI, ⟨hOthers.writes, ?_, ?_⟩, ?_⟩
  · rintro body n (hOwns | ⟨_, rfl⟩)
    · exact hOthers.claimed body n hOwns
    · exact ⟨_, hClaim, rfl, hWhole.trans hWidth⟩
  · rintro body n (hOwns | ⟨rfl, rfl⟩)
    · exact hOthers.recorded body n hOwns
    · exact hNew
  · rw [← hCircuit]
    exact d₁.processes_record _ _ _

variable {scope : Scope}

theorem reaches_branch
    {c : Expr}
    {body : Stmt}
    {otherwise : Option Stmt} :
    Reaches setting I (branch c body otherwise)
      (fun s _ => ∀ ss, s ≠ .block ss) := by
  refine reaches_any.bind fun _ => ?_
  apply reaches_pure
  intro _ _ ss
  cases otherwise <;> exact nofun

/- Only a block is lowered to a block. -/
theorem reaches_stmt
    {body : Hdl.Stmt}
    (hBody : ∀ label ss span, body = .block label ss span → False) :
    Reaches setting I (stmt body)
      (fun found _ =>
        ∀ t, found = some t → ∀ ss, t ≠ .block ss) := by
  cases body with
  | blocking t v span =>
      rw [stmt]
      refine reaches_any.bind fun a => ?_
      apply reaches_pure
      rintro _ _ _ ⟨⟩ ss hBlock
      cases hBlock
  | nonBlocking t v span =>
      rw [stmt]
      exact reaches_refuse _ _
  | block label ss span => exact (hBody label ss span rfl).elim
  | ifThen c t span =>
      rw [stmt]
      refine reaches_any.bind fun c' => ?_
      refine reaches_any.bind fun t' => ?_
      refine reaches_branch.bind fun s => ?_
      apply reaches_pure
      rintro _ hBlock _ ⟨⟩
      exact hBlock
  | ifElse c t e span =>
      rw [stmt]
      refine reaches_any.bind fun c' => ?_
      refine reaches_any.bind fun t' => ?_
      refine reaches_any.bind fun e' => ?_
      refine reaches_branch.bind fun s => ?_
      apply reaches_pure
      rintro _ hBlock _ ⟨⟩
      exact hBlock
  | case kind selector items span =>
      rw [stmt]
      refine reaches_any.bind fun _ => ?_
      refine reaches_any.bind fun s => ?_
      refine reaches_any.bind fun arms' => ?_
      refine reaches_any.bind fun _ => ?_
      apply reaches_pure
      rintro _ _ _ ⟨⟩ ss hBlock
      cases hBlock
  | onEvent events body span =>
      rw [stmt]
      exact reaches_refuse _ _
  | empty span =>
      rw [stmt]
      apply reaches_pure
      intro _ _ t hNone
      cases hNone
  | broken span =>
      rw [stmt]
      exact reaches_refuse _ _

/- The parts of a lowered process are those of its body. -/
theorem reaches_process?
    (hValid : ValidSignals scope.signals)
    {body : Hdl.Stmt}
    (hBody : body.Given) :
    Reaches setting scope.Agrees (process? body)
      (fun found s => scope.Agrees s ∧ ∀ q, found = some q →
        q.body.Proper (Reads scope.signals) ∧ q.Split) := by
  have hProper : Reaches setting scope.Agrees (process? body) _ :=
    (ensures_process? hValid (reads_of_given _) hBody).reaches
  have hSplit : Reaches setting scope.Agrees (process? body)
      (fun found _ => ∀ q, found = some q → q.Split) := by
    unfold process?
    split
    case h_1 label ss span =>
        refine reaches_any.bind fun parts => ?_
        refine reaches_any.bind fun text => ?_
        apply reaches_pure
        rintro _ _ _ ⟨⟩
        exact Or.inr rfl
    case h_2 hOther =>
        refine (reaches_stmt hOther).bind fun found => ?_
        cases found with
        | none => exact reaches_pure nofun
        | some t =>
            refine Reaches.imp
              (reaches_of_fact (I := fun _ => True) ?_)
              (fun _ h => ⟨trivial, h⟩) (fun _ _ h => h)
            intro hBlock
            refine reaches_any.bind fun text => ?_
            apply reaches_pure
            rintro _ _ _ ⟨⟩
            exact Or.inl ⟨rfl, hBlock t rfl⟩
  intro p hI found p' hRun
  have hFirst := hProper p hI found p' hRun
  have hSecond := hSplit p hI found p' hRun
  exact ⟨hFirst.1, fun q hq =>
    ⟨(hFirst.2 q hq).body, hSecond q hq⟩⟩

/- All slots of a process are recorded in turn. -/
theorem reaches_drives
    {q : Process}
    (hq : q.Split)
    {marks : Nat}
    (hNames : ∀ n,
      n ∈ (q.body.flatten p marks).1.map Prod.fst ↔
        q.body.Writes n)
    (hSlots : ∀ k slot, (k, slot) ∈ (q.body.flatten p marks).1 →
      ∃ v, v.name = k ∧ slot.Holds (Reads signals) v ∧
        ∀ τ, Ready p (· ∈ q.body.targets) τ →
          slot.value.value τ = q.body.after τ k &&& mask v.width)
    (hd : d.Traced signals p d.Owns)
    (span : Span) :
    Reaches setting I
      ((q.body.flatten p marks).1.foldlM (drive q span)
        { d with
          circuit :=
            { d.circuit with
              processes := d.circuit.processes ++ [q.body] } })
      (fun d' s => I s ∧
        d'.Traced signals p (fun body n =>
          d.Owns body n ∨ body = q.body ∧ q.body.Writes n) ∧
        d'.circuit.processes = d.circuit.processes ++ [q.body]) := by
  -- Of the slots recorded so far the names are owned.
  let J : List (String × Slot) → Draft → Prop := fun rest d' =>
    ∃ done, done ++ rest = (q.body.flatten p marks).1 ∧
      d'.Traced signals p (fun body n =>
        d.Owns body n ∨ body = q.body ∧ n ∈ done.map Prod.fst) ∧
      d'.circuit.processes = d.circuit.processes ++ [q.body]
  have hStep : ∀ entry rest d', J (entry :: rest) d' →
      Reaches setting I (drive q span d' entry)
        (fun d'' s => I s ∧ J rest d'') := by
    rintro ⟨k, slot⟩ rest d' ⟨done, hAll, hd', hProcesses⟩
    have hMem : (k, slot) ∈ (q.body.flatten p marks).1 := by
      rw [← hAll]
      exact List.mem_append_right _ (List.mem_cons_self ..)
    rcases hSlots k slot hMem with ⟨v, rfl, hHolds, _⟩
    have hWrites := (hNames v.name).mp (List.mem_map_of_mem hMem)
    refine Reaches.imp
      (reaches_drive hd' hq hMem hWrites hHolds span)
      (fun _ h => h) ?_
    rintro d'' s ⟨hI, hd'', hSame⟩
    refine ⟨hI, done ++ [(v.name, slot)], ?_, ?_, ?_⟩
    · rw [← hAll, List.append_assoc]
      rfl
    · apply hd''.mono
      rintro body n (hOwns | ⟨hBody, hn⟩)
      · exact Or.inl (Or.inl hOwns)
      · rw [List.map_append, List.mem_append] at hn
        rcases hn with hn | hn
        · exact Or.inl (Or.inr ⟨hBody, hn⟩)
        · exact Or.inr ⟨hBody, List.mem_singleton.mp hn⟩
    · rw [hSame, hProcesses]
  have hStart : J (q.body.flatten p marks).1
      { d with
        circuit :=
          { d.circuit with
            processes := d.circuit.processes ++ [q.body] } } := by
    refine ⟨[], rfl, ⟨hd.writes, ?_, ?_⟩, rfl⟩
    · rintro body n (hOwns | ⟨_, hn⟩)
      · exact hd.claimed body n hOwns
      · cases hn
    · rintro body n (hOwns | ⟨_, hn⟩)
      · exact { hd.recorded body n hOwns with }
      · cases hn
  refine Reaches.imp (reaches_foldlM hStep hStart)
    (fun _ h => h) ?_
  rintro d' s ⟨hI, done, hAll, hd', hProcesses⟩
  rw [List.append_nil] at hAll
  refine ⟨hI, hd'.mono ?_, hProcesses⟩
  rintro body n (hOwns | ⟨hBody, hn⟩)
  · exact Or.inl hOwns
  · rw [hAll]
    exact Or.inr ⟨hBody, (hNames n).mpr hn⟩

/- A process owns what it writes from then on. -/
theorem reaches_combinational
    (hValid : ValidSignals scope.signals)
    (hd : d.Traced scope.signals setting.options.fallback d.Owns)
    {body : Hdl.Stmt}
    (hBody : body.Given) :
    Reaches setting scope.Agrees (combinational d body)
      (fun d' s => scope.Agrees s ∧
        d'.Traced scope.signals setting.options.fallback
          d'.Owns) := by
  refine (reaches_process? hValid hBody).bind ?_
  intro found
  refine reaches_of_fact ?_
  intro hFound
  cases found with
  | none => exact reaches_pure fun _ hI => ⟨hI, hd⟩
  | some q =>
      rcases hFound q rfl with ⟨⟨hTyped, hFit⟩, hSplit⟩
      refine reaches_read.bind ?_
      intro s
      refine Reaches.imp (reaches_of_fact ?_)
        (fun _ h => ⟨h.2, h.1⟩) (fun _ _ h => h)
      rintro rfl
      refine reaches_stamping.bind ?_
      intro slots
      refine reaches_of_fact ?_
      rintro ⟨marks, rfl⟩
      rcases Stmt.flatten_spec (oneWidth_reads scope.signals)
          hTyped hFit s.options.fallback marks with
        ⟨_, hNames, hSlots⟩
      refine Reaches.imp (reaches_drives hSplit hNames hSlots hd
        body.span) (fun _ h => h) ?_
      rintro d' s' ⟨hI, hd', hProcesses⟩
      refine ⟨hI, hd'.mono ?_⟩
      rintro other n ⟨hOther, hn⟩
      rw [hProcesses] at hOther
      rcases List.mem_append.mp hOther with hOther | hOther
      · exact Or.inl ⟨hOther, hn⟩
      · rw [List.mem_singleton] at hOther
        exact Or.inr ⟨hOther, hOther ▸ hn⟩

/- A continuous assignment drives what no process owns. -/
theorem reaches_continuous
    (hValid : ValidSignals scope.signals)
    (hd : d.Traced scope.signals p d.Owns)
    {lhs value : Hdl.Expr}
    (hLhs : lhs.Given)
    (hValue : value.Given)
    (span : Span) :
    Reaches setting scope.Agrees (continuous d lhs value span)
      (fun d' s => scope.Agrees s ∧
        d'.Traced scope.signals p d'.Owns) := by
  refine (ensures_assign hValid (reads_of_given _) hLhs
    hValue).reaches.bind ?_
  intro a
  refine reaches_of_fact ?_
  rintro ⟨⟨hTarget, _⟩, _⟩
  have hText : Ensures False scope.Agrees (textOf span) _ :=
    ensures_textOf span
  refine hText.reaches.bind ?_
  intro text
  refine reaches_of_fact ?_
  intro _
  have hWidth : a.var.width = widthIn scope.signals a.var.name :=
    (Target.typed_var hTarget).2.2.2
  have hInside : a.target.low + a.target.width ≤ a.var.width :=
    Target.low_add_width_le hTarget
  have hPos : 0 < a.target.width := hTarget.width_pos
  refine (reaches_claim hd hPos
    (show a.target.low < _ by omega)).bind ?_
  intro d₁
  refine reaches_of_fact ?_
  rintro ⟨hd₁, hCircuit, _, hFree⟩
  have hRecord : ∀ rhs driver text, driver.Writes a.var.name →
      Draft.Traced scope.signals p
        (d₁.record ⟨.whole a.var, rhs⟩ driver text).Owns
        (d₁.record ⟨.whole a.var, rhs⟩ driver text) := by
    intro rhs driver text hWrites
    apply (hd₁.record (a := ⟨.whole a.var, rhs⟩) hWrites hFree
      text).mono
    rintro body n ⟨hBody, hn⟩
    rw [Draft.processes_record, hCircuit] at hBody
    exact ⟨hBody, hn⟩
  have hOwn : (Stmt.assign a).Writes a.var.name :=
    List.mem_singleton_self a.var.name
  have hKept : ∀ e : Expr, Reaches setting scope.Agrees (keep e)
      (fun _ s => scope.Agrees s) := by
    intro e
    have hKeep : Ensures False scope.Agrees (keep e) _ :=
      ensures_keep e
    exact Reaches.imp hKeep.reaches (fun _ h => h)
      (fun _ _ h => h.1)
  cases hField : a.target.field? with
  | none =>
      refine (hKept _).bind ?_
      intro rhs
      exact reaches_pure fun _ hI =>
        ⟨hI, hRecord rhs (.assign a) _ hOwn⟩
  | some low =>
      refine (hKept _).bind ?_
      intro rhs
      dsimp only
      cases d₁.circuit.drivers.find? a.var.name with
      | none =>
          exact reaches_pure fun _ hI =>
            ⟨hI, hRecord rhs (.assign a) _ hOwn⟩
      | some driver =>
          have hBoth :
              (Stmt.block [driver, .assign a]).Writes a.var.name :=
            Stmt.writes_cons.mpr
              (Or.inr (Stmt.writes_cons.mpr (Or.inl hOwn)))
          exact reaches_pure fun _ hI =>
            ⟨hI, hRecord rhs (.block [driver, .assign a]) _ hBoth⟩

theorem reaches_tie
    (hValid : ValidSignals scope.signals)
    (hd : d.Traced scope.signals p d.Owns)
    {entry : Hdl.DeclName}
    (hEntry : entry.Given) :
    Reaches setting scope.Agrees (tie d entry)
      (fun d' s => scope.Agrees s ∧
        d'.Traced scope.signals p d'.Owns) := by
  rcases hEntry with ⟨hName, hInit⟩
  unfold tie
  split
  case h_1 => exact reaches_pure fun _ hI => ⟨hI, hd⟩
  case h_2 value hSome =>
      have hLhs : (Hdl.Expr.name entry.name entry.span).Given :=
        hName
      exact reaches_continuous hValid hd hLhs
        (hInit value hSome) entry.span

/- Every item keeps the records of the processes before it. -/
theorem reaches_item
    (hValid : ValidSignals scope.signals)
    (hd : d.Traced scope.signals setting.options.fallback d.Owns)
    {i : Hdl.Item}
    (hi : i.Given) :
    Reaches setting scope.Agrees (item d i)
      (fun d' s => scope.Agrees s ∧
        d'.Traced scope.signals setting.options.fallback
          d'.Owns) := by
  unfold item
  split
  case h_1 => exact reaches_pure fun _ hI => ⟨hI, hd⟩
  case h_2 decl =>
      let J : List Hdl.DeclName → Draft → Prop := fun rest d' =>
        (∀ entry ∈ rest, entry.Given) ∧
          d'.Traced scope.signals setting.options.fallback d'.Owns
      have hStart : J decl.names d := ⟨hi, hd⟩
      refine Reaches.imp (reaches_foldlM (J := J) ?_ hStart)
        (fun _ h => h) (fun _ _ h => ⟨h.1, h.2.2⟩)
      rintro entry rest d' ⟨hRest, hd'⟩
      refine Reaches.imp (reaches_tie hValid hd'
        (hRest entry (List.mem_cons_self ..))) (fun _ h => h) ?_
      rintro d'' s ⟨hI, hd''⟩
      exact ⟨hI, fun other h =>
        hRest other (List.mem_cons_of_mem _ h), hd''⟩
  case h_3 => exact reaches_continuous hValid hd hi.1 hi.2 _
  case h_4 => exact reaches_combinational hValid hd hi
  case h_5 =>
      split
      · exact reaches_combinational hValid hd hi
      · exact reaches_refuse _ _
  all_goals exact reaches_refuse _ _

end Lower

end Gatework

------------------------------------------------------------
-- Circuits
------------------------------------------------------------

namespace Gatework

namespace Lower

variable {setting : Setting}

/- A lowered circuit holds the records of all its processes. -/
theorem reaches_circuit
    {decl : Hdl.ModuleDecl}
    (hDecl : decl.Given) :
    Reaches setting (fun _ => True) (circuit decl)
      (fun c _ => c.Traced setting.options.fallback) := by
  have hClear : Leads False (fun _ => True)
      (modify fun p => { p with scope := {} } : Lower Unit)
      (fun _ => (· = {})) :=
    leads_modify fun _ _ => rfl
  have hBind : Leads False (· = {}) (bind decl) _ :=
    leads_bind hDecl
  refine hClear.reaches.bind ?_
  intro _
  refine hBind.reaches.bind ?_
  intro pins
  refine reaches_of_each ?_
  rintro scope ⟨rest, hScope⟩
  let J : List Hdl.Item → Draft → Prop := fun rest d =>
    (∀ i ∈ rest, i.Given) ∧
      d.Traced scope.signals setting.options.fallback d.Owns
  have hStart : J decl.items
      { circuit := { name := decl.name, pins } } :=
    ⟨hDecl.items, Draft.traced_start ..⟩
  have hItems : Reaches setting scope.Agrees
      (decl.items.foldlM item
        { circuit := { name := decl.name, pins } })
      (fun d s => scope.Agrees s ∧ J [] d) := by
    refine reaches_foldlM ?_ hStart
    rintro i rest d ⟨hRest, hd⟩
    refine Reaches.imp (reaches_item hScope.valid hd
      (hRest i (List.mem_cons_self ..))) (fun _ h => h) ?_
    rintro d' s ⟨hI, hd'⟩
    exact ⟨hI, fun other h =>
      hRest other (List.mem_cons_of_mem _ h), hd'⟩
  refine Reaches.imp (hItems.bind (Q := fun c _ =>
    c.Traced setting.options.fallback) ?_) ?_ (fun _ _ h => h)
  · intro draft progress h c progress' hRun
    cases hRun
    have hDraft := h.2.2
    exact ⟨hDraft.writes, fun body hBody n hn =>
      { hDraft.recorded body n ⟨hBody, hn⟩ with }⟩
  · rintro _ rfl
    exact ⟨rfl, rfl⟩

theorem reaches_circuits
    {decls : List Hdl.ModuleDecl}
    (hDecls : ∀ decl ∈ decls, decl.Given)
    (seen : NameMap Span) :
    Reaches setting (fun _ => True) (circuits decls seen)
      (fun cs _ =>
        ∀ c ∈ cs, c.Traced setting.options.fallback) := by
  induction decls generalizing seen with
  | nil =>
      rw [circuits]
      exact reaches_pure (by simp)
  | cons decl decls ih =>
      rw [circuits]
      split
      case h_1 previous _ =>
          have hFail : Leads False (fun _ => True)
              (fail (.redeclared decl.name decl.span previous) :
                Lower (List Circuit))
              (fun cs _ =>
                ∀ c ∈ cs, c.Traced setting.options.fallback) :=
            leads_fail rfl
          exact hFail.reaches
      case h_2 =>
          refine (reaches_circuit
            (hDecls decl (List.mem_cons_self ..))).bind ?_
          intro c p hc cs p' hRun
          have hRest := ih
            (fun d hd => hDecls d (List.mem_cons_of_mem _ hd))
            (seen.insert decl.name decl.span)
          refine (hRest.bind (Q := fun cs _ => ∀ c ∈ cs,
            c.Traced setting.options.fallback) ?_) p trivial cs p'
            hRun
          intro others p hOthers cs p' hRun
          cases hRun
          exact List.forall_mem_cons.mpr ⟨hc, hOthers⟩

end Lower

/- What lowering gives holds the records of its processes. -/
theorem traced_of_lowerParsed
    {options : LowerOptions}
    {sources : Sources}
    {parsed : Hdl.Parsed Hdl.File}
    (hGiven : ∀ decl ∈ parsed.tree.modules, decl.Given)
    {circuits : List Circuit}
    (hLowered :
      (lowerParsed options sources parsed).result =
        .ok circuits) :
    ∀ c ∈ circuits, c.Traced options.fallback := by
  unfold lowerParsed at hLowered
  split at hLowered
  case isTrue => cases hLowered
  case isFalse =>
      change (Lower.circuits parsed.tree.modules NameMap.empty
        ⟨options, sources⟩ { findings := parsed.findings }).1 =
          .ok circuits at hLowered
      exact Lower.reaches_circuits hGiven NameMap.empty _ trivial
        circuits _ (Prod.ext hLowered rfl)

end Gatework
