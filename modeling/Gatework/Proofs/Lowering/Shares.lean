import Gatework.Proofs.Lowering.Portions

/-
  The items of a module, one by one.

  A module is its declarations and its drivers: assignments,
  processes and the values that nets are tied to. What a
  driver is lowered to does not depend on the other drivers;
  only putting it into the draft does.

  Key definitions include:
    * `Hdl.ModuleDecl.drivers` and `Hdl.ModuleDecl.only`
    * `Lower.Share`, what a driver is lowered to
    * `Lower.share` and `Lower.place`

  Key theorems include:
    * `Lower.circuit_eq_only`
    * `Lower.item_eq`
    * `Lower.exists_gives`
    * `Lower.merges_items`
-/

------------------------------------------------------------
-- Declarations and drivers
------------------------------------------------------------

namespace Gatework.Hdl

namespace Item

def isDeclaration : Item → Bool
  | net _ => true
  | pins _ => true
  | _ => false

/- What is declared, without the values of nets. -/
def declarations : Item → List Item
  | net decl =>
      [net { decl with
        names := decl.names.map fun entry =>
          { entry with init := none } }]
  | pins decl => [pins decl]
  | _ => []

/- A net that is tied to a value is assigned to. -/
def drivers : Item → List Item
  | net decl =>
      decl.names.filterMap fun entry =>
        entry.init.map fun value =>
          assign (.name entry.name entry.span) value entry.span
  | pins _ => []
  | i => [i]

theorem isDeclaration_of_mem_drivers
    {i u : Item}
    (hu : u ∈ i.drivers) :
    u.isDeclaration = false := by
  cases i with
  | net decl =>
      rcases List.mem_filterMap.mp hu with ⟨entry, _, hEntry⟩
      rcases Option.map_eq_some_iff.mp hEntry with ⟨value, _, rfl⟩
      rfl
  | pins decl => cases hu
  | _ =>
      rw [List.mem_singleton.mp hu]
      rfl

theorem Given.driver
    {i u : Item}
    (hi : i.Given)
    (hu : u ∈ i.drivers) :
    u.Given := by
  cases i with
  | net decl =>
      rcases List.mem_filterMap.mp hu with ⟨entry, hEntry, hSome⟩
      rcases Option.map_eq_some_iff.mp hSome with
        ⟨value, hInit, rfl⟩
      have hGiven := hi entry hEntry
      exact ⟨hGiven.1, hGiven.2 value hInit⟩
  | pins decl => cases hu
  | _ =>
      rw [List.mem_singleton.mp hu]
      exact hi

end Item

namespace ModuleDecl

def drivers
    (decl : ModuleDecl) :
    List Item :=
  decl.items.flatMap Item.drivers

/- The declarations of a module with some drivers only. -/
def only
    (decl : ModuleDecl)
    (drivers : List Item) :
    ModuleDecl :=
  { decl with
    items := decl.items.flatMap Item.declarations ++ drivers }

variable {decl : ModuleDecl}

theorem isDeclaration_of_mem_drivers
    {u : Item}
    (hu : u ∈ decl.drivers) :
    u.isDeclaration = false := by
  rcases List.mem_flatMap.mp hu with ⟨i, _, hDriver⟩
  exact Item.isDeclaration_of_mem_drivers hDriver

theorem Given.driver
    (hDecl : decl.Given)
    {u : Item}
    (hu : u ∈ decl.drivers) :
    u.Given := by
  rcases List.mem_flatMap.mp hu with ⟨i, hi, hDriver⟩
  exact Item.Given.driver (hDecl.items i hi) hDriver

end ModuleDecl

end Gatework.Hdl

namespace Gatework

namespace Lower

variable {decl : Hdl.ModuleDecl}
variable {us : List Hdl.Item}

theorem bindItem_of_driver
    (listed : List String)
    (found : BodyPins)
    {u : Hdl.Item}
    (hu : u.isDeclaration = false) :
    bindItem listed found u = pure found := by
  cases u with
  | net decl => cases hu
  | pins decl => cases hu
  | _ => rfl

theorem bindItem_declarations
    (listed : List String)
    (found : BodyPins)
    (i : Hdl.Item) :
    i.declarations.foldlM (bindItem listed) found =
      bindItem listed found i := by
  cases i with
  | net decl =>
      rw [Hdl.Item.declarations, List.foldlM_cons]
      simp only [List.foldlM_nil, bind_pure, bindItem]
      congr 1
      funext bounds
      rw [List.foldlM_map]
      rfl
  | pins decl =>
      rw [Hdl.Item.declarations, List.foldlM_cons]
      simp only [List.foldlM_nil, bind_pure]
  | _ => rfl

/- Drivers declare nothing. -/
theorem bind_only
    (hus : ∀ u ∈ us, u.isDeclaration = false) :
    bind (decl.only us) = bind decl := by
  have hItems : ∀ listed found,
      (decl.only us).items.foldlM (bindItem listed) found =
        decl.items.foldlM (bindItem listed) found := by
    intro listed found
    have hDrivers : ∀ found,
        us.foldlM (bindItem listed) found = pure found := by
      intro found
      induction us with
      | nil => rfl
      | cons u us ih =>
          rw [List.forall_mem_cons] at hus
          rw [List.foldlM_cons, bindItem_of_driver _ _ hus.1,
            pure_bind, ih hus.2]
    rw [Hdl.ModuleDecl.only, List.foldlM_append]
    simp only [hDrivers, bind_pure]
    induction decl.items generalizing found with
    | nil => rfl
    | cons i items ih =>
        rw [List.flatMap_cons, List.foldlM_append,
          bindItem_declarations, List.foldlM_cons]
        congr 1
        funext found'
        exact ih found'
  unfold bind
  simp only [hItems]
  rfl

theorem item_declarations
    (d : Draft)
    (i : Hdl.Item) :
    i.declarations.foldlM item d = pure d := by
  cases i with
  | net decl =>
      rw [Hdl.Item.declarations, List.foldlM_cons]
      simp only [List.foldlM_nil, bind_pure, item]
      rw [List.foldlM_map]
      induction decl.names with
      | nil => rfl
      | cons entry names ih =>
          rw [List.foldlM_cons]
          exact ih
  | pins decl => rfl
  | _ => rfl

theorem item_drivers
    (d : Draft)
    (i : Hdl.Item) :
    i.drivers.foldlM item d = item d i := by
  cases i with
  | net decl =>
      rw [Hdl.Item.drivers, item]
      induction decl.names generalizing d with
      | nil => rfl
      | cons entry names ih =>
          rw [List.filterMap_cons, List.foldlM_cons, tie]
          cases entry.init with
          | none => exact ih d
          | some value =>
              rw [Option.map_some, List.foldlM_cons]
              congr 1
              funext d'
              exact ih d'
  | pins decl => rfl
  | _ =>
      rw [Hdl.Item.drivers, List.foldlM_cons]
      · simp only [List.foldlM_nil, bind_pure]
      all_goals exact nofun

/- Declarations and drivers are all that is lowered. -/
theorem items_drivers
    (items : List Hdl.Item)
    (d : Draft) :
    items.foldlM item d =
      (items.flatMap Hdl.Item.drivers).foldlM item d := by
  induction items generalizing d with
  | nil => rfl
  | cons i items ih =>
      rw [List.flatMap_cons, List.foldlM_append, item_drivers,
        List.foldlM_cons]
      congr 1
      funext d'
      exact ih d'

theorem items_only
    (d : Draft) :
    (decl.only us).items.foldlM item d = us.foldlM item d := by
  rw [Hdl.ModuleDecl.only, List.foldlM_append]
  have hNothing : (decl.items.flatMap
      Hdl.Item.declarations).foldlM item d = pure d := by
    induction decl.items with
    | nil => rfl
    | cons i items ih =>
        rw [List.flatMap_cons, List.foldlM_append,
          item_declarations, pure_bind, ih]
  rw [hNothing, pure_bind]

/- A module is its declarations with its drivers. -/
theorem circuit_eq_only
    (decl : Hdl.ModuleDecl) :
    circuit decl = circuit (decl.only decl.drivers) := by
  unfold circuit
  rw [bind_only fun _ hu =>
    Hdl.ModuleDecl.isDeclaration_of_mem_drivers hu]
  simp only [items_only, items_drivers decl.items]
  rfl

end Lower

end Gatework

------------------------------------------------------------
-- Shares
------------------------------------------------------------

namespace Gatework

namespace Lower

/-
  What a driver is lowered to: nothing, an assignment, or a
  process with the value of each signal that it writes.
-/
inductive Share where
  | idle
  | field (a : Assign) (span : Span) (text : String)
  | process (q : Process) (span : Span)
      (slots : List (String × Slot))

namespace Share

/- The share with trees that were built later. -/
def later
    (d : Nat) :
    Share → Share
  | idle => idle
  | field a span text => field (a.later d) span text
  | process q span slots =>
      process (q.later d) span (slots.map (Stmt.laterEntry d))

def portions : Share → List Portion
  | idle => []
  | field a _ _ => [a.portion]
  | process _ _ slots =>
      slots.map fun entry => entry.2.portion entry.1

/- A typed assignment, or a proper process as flattened. -/
def Proper
    (p : Fallback)
    (signals : NameMap Var) :
    Share → Prop
  | idle => True
  | field a _ _ => (Stmt.assign a).Typed (Reads signals)
  | process q _ slots =>
      q.body.Proper (Reads signals) ∧
        ∃ marks, slots = (q.body.flatten p marks).1

/- The same bits of the same signals are driven alike. -/
theorem portions_later
    (d : Nat)
    (share : Share) :
    (share.later d).portions = share.portions := by
  cases share with
  | idle => rfl
  | field a span text =>
      rw [later, portions, portions, Assign.portion, Assign.later]
      simp only [Expr.value_later, Expr.occurrences_later]
      rfl
  | process q span slots =>
      rw [later, portions, portions, List.map_map]
      congr 1
      funext entry
      simp only [Function.comp_apply, Stmt.laterEntry, Slot.later,
        Slot.portion, Expr.width_later, Expr.value_later,
        Expr.occurrences_later]

end Share

/- What a process is lowered to. -/
def processShare
    (body : Hdl.Stmt) :
    Lower Share := do
  match ← process? body with
  | none => return .idle
  | some q =>
      let slots ← stamping (q.body.flatten (← read).options.fallback)
      return .process q body.span slots

/- What a driver is lowered to. -/
def share : Hdl.Item → Lower Share
  | .net _ => return .idle
  | .pins _ => return .idle
  | .assign lhs value span => do
      let a ← assign lhs value
      let text ← textOf span
      return .field a span (trimText text)
  | .alwaysComb body _ => processShare body
  | .always (.onEvent sensitivity body span) _ =>
      if sensitivity.isCombinational then
        processShare body
      else
        refuse "edge-sensitive `always` block" span
  | .always body _ =>
      refuse "`always` block without a sensitivity list" body.span
  | .alwaysFf _ _ span => refuse "`always_ff` block" span
  | .alwaysLatch _ span => refuse "`always_latch` block" span
  | .broken span => refuse "malformed module item" span

/- Puts a share into a draft. -/
def place
    (d : Draft) :
    Share → Lower Draft
  | .idle => return d
  | .field a span text => addField d a span text
  | .process q span slots =>
      slots.foldlM (drive q span)
        { d with
          circuit :=
            { d.circuit with
              processes := d.circuit.processes ++ [q.body] } }

theorem combinational_eq
    (d : Draft)
    (body : Hdl.Stmt) :
    combinational d body = processShare body >>= place d := by
  unfold combinational processShare
  rw [bind_assoc]
  congr 1
  funext found
  cases found with
  | none => rfl
  | some q => rfl

/- A driver is lowered and put into the draft. -/
theorem item_eq
    (d : Draft)
    {u : Hdl.Item}
    (hu : u.isDeclaration = false) :
    item d u = share u >>= place d := by
  cases u with
  | net decl => cases hu
  | pins decl => cases hu
  | assign lhs value span =>
      rw [item, continuous_eq, share]
      simp only [bind_assoc, pure_bind, place]
  | alwaysComb body span => exact combinational_eq d body
  | always body span =>
      cases body with
      | onEvent sensitivity inner place' =>
          rw [item, share]
          split
          · exact combinational_eq d inner
          · rfl
      | _ => rfl
  | _ => rfl

/- The same driver is lowered to the same share, later. -/
theorem inStep_share
    {d : Nat}
    (u : Hdl.Item) :
    InStep d (Share.later d) (share u) (share u) := by
  have hProcess : ∀ body, InStep d (Share.later d)
      (processShare body) (processShare body) := by
    intro body
    refine (inStep_process? body).bind fun found => ?_
    cases found with
    | none => exact inStep_pure rfl
    | some q =>
        refine inStep_read.bind fun s => ?_
        refine (inStep_stamping (Stmt.flatten_later _ q.body)).bind
          fun slots => ?_
        exact inStep_pure rfl
  cases u with
  | net decl => exact inStep_pure rfl
  | pins decl => exact inStep_pure rfl
  | assign lhs value span =>
      refine (inStep_assign lhs value).bind fun a => ?_
      exact (inStep_textOf span).bind fun text => inStep_pure rfl
  | alwaysComb body span => exact hProcess body
  | always body span =>
      cases body with
      | onEvent sensitivity inner place =>
          rw [share]
          split
          · exact hProcess inner
          · exact Fails.inStep (fails_refuse _ _)
      | _ => exact Fails.inStep (fails_refuse _ _)
  | _ => exact Fails.inStep (fails_refuse _ _)

variable {setting : Setting}
variable {scope : Scope}

theorem reaches_share
    (hValid : ValidSignals scope.signals)
    {u : Hdl.Item}
    (hu : u.Given) :
    Reaches setting scope.Agrees (share u)
      (fun share s => scope.Agrees s ∧
        share.Proper setting.options.fallback scope.signals) := by
  have hProcess : ∀ {body : Hdl.Stmt}, body.Given →
      Reaches setting scope.Agrees (processShare body)
        (fun share s => scope.Agrees s ∧
          share.Proper setting.options.fallback scope.signals) := by
    intro body hBody
    refine (reaches_process? hValid hBody).bind fun found => ?_
    refine reaches_of_fact fun hFound => ?_
    cases found with
    | none => exact reaches_pure fun _ hI => ⟨hI, trivial⟩
    | some q =>
        refine reaches_read.bind fun s => ?_
        refine Reaches.imp (reaches_of_fact ?_)
          (fun _ h => ⟨h.2, h.1⟩) (fun _ _ h => h)
        rintro rfl
        refine reaches_stamping.bind fun slots => ?_
        refine reaches_of_fact fun hSlots => ?_
        exact reaches_pure fun _ hI =>
          ⟨hI, (hFound q rfl).1, hSlots⟩
  cases u with
  | net decl => exact reaches_pure fun _ hI => ⟨hI, trivial⟩
  | pins decl => exact reaches_pure fun _ hI => ⟨hI, trivial⟩
  | assign lhs value span =>
      refine (ensures_assign hValid (reads_of_given scope.signals)
        hu.1 hu.2).reaches.bind
        fun a => ?_
      refine reaches_of_fact fun ha => ?_
      have hText : Ensures False scope.Agrees (textOf span) _ :=
        ensures_textOf span
      refine hText.reaches.bind fun text => ?_
      exact reaches_pure fun _ hI => ⟨hI.1, ha.typed⟩
  | alwaysComb body span => exact hProcess hu
  | always body span =>
      cases body with
      | onEvent sensitivity inner place =>
          rw [share]
          split
          · exact hProcess hu
          · exact reaches_refuse _ _
      | _ => exact reaches_refuse _ _
  | _ => exact reaches_refuse _ _

end Lower

end Gatework

------------------------------------------------------------
-- Runs
------------------------------------------------------------

namespace Gatework

namespace Lower

variable {setting : Setting}
variable {scope : Scope}
variable {portions : List Portion}
variable {d : Draft}

/-
  What a share leaves in a draft besides its portions. An
  assignment to a signal with no driver becomes its driver.
-/
def Share.Leaves
    (d d' : Draft) :
    Share → Prop
  | idle => d' = d
  | field a _ _ =>
      d'.circuit.processes = d.circuit.processes ∧
        (d.circuit.drivers.find? a.var.name = none →
          d'.circuit.drivers =
            d.circuit.drivers.insert a.var.name (.assign a))
  | process q _ _ =>
      d'.circuit.processes = d.circuit.processes ++ [q.body]

/- The slots of a process belong to signals. -/
theorem Share.Proper.holds
    {p : Fallback}
    {signals : NameMap Var}
    {q : Process}
    {span : Span}
    {slots : List (String × Slot)}
    (h : (Share.process q span slots).Proper p signals) :
    ∀ entry ∈ slots,
      ∃ v, v.name = entry.1 ∧ entry.2.Holds (Reads signals) v := by
  rcases h with ⟨⟨hTyped, hFit⟩, marks, rfl⟩
  rintro ⟨k, slot⟩ hEntry
  exact Stmt.holds_of_mem_flatten (oneWidth_reads signals)
    hTyped hFit marks hEntry

/- A share adds its portions to those of the draft. -/
theorem merges_place
    {I : Scope → Prop}
    {signals : NameMap Var}
    {p : Fallback}
    {share : Share}
    (hShare : share.Proper p signals)
    (hd : d.Takes signals portions) :
    Merges setting I
      (¬ (portions ++ share.portions).Pairwise Portion.Apart)
      (place d share)
      (fun d' => d'.Takes signals (portions ++ share.portions) ∧
        share.Leaves d d') := by
  cases share with
  | idle =>
      rw [Share.portions, List.append_nil]
      exact merges_pure ⟨hd, rfl⟩
  | field a span text =>
      exact (merges_addField hd hShare span text).imp
        not_pairwise_of_clash fun _ h => h
  | process q span slots =>
      have hStart : Draft.Takes signals portions
          { d with
            circuit :=
              { d.circuit with
                processes := d.circuit.processes ++ [q.body] } } :=
        ⟨⟨hd.claims.claimed, hd.claims.claims⟩,
          ⟨hd.assembles.inside, hd.assembles.assigned_iff,
            hd.assembles.gathers⟩, hd.apart⟩
      exact merges_drives q span hShare.holds hStart

/-
  Whatever was lowered before, a driver gives a share, which
  is known but for the marks that were taken before.
-/
def Gives
    (setting : Setting)
    (scope : Scope)
    (u : Hdl.Item)
    (sh : Share) :
    Prop :=
  ∀ p, scope.Agrees p.scope →
    ∃ p', share u setting p = (.ok (sh.later p.marks), p')

/- A driver that is lowered once can always be lowered. -/
theorem exists_gives
    {u : Hdl.Item}
    {p p' : Progress}
    {found : Share}
    (hp : scope.Agrees p.scope)
    (hRun : share u setting p = (.ok found, p')) :
    ∃ sh, Gives setting scope u sh ∧ found = sh.later p.marks := by
  -- Both runs are compared with one that starts at mark 0.
  have hCompare : ∀ q, scope.Agrees q.scope →
      Progress.Ahead q.marks { p with marks := 0 } q := by
    intro q hq
    exact ⟨⟨hq.1.trans hp.1.symm, hq.2.trans hp.2.symm⟩,
      (Nat.zero_add _).symm⟩
  have hFirst := inStep_share u setting _ _ (hCompare p hp)
  have hAny := fun (q : Progress) (hq : scope.Agrees q.scope) =>
    inStep_share u setting _ _ (hCompare q hq)
  rw [hRun] at hFirst
  generalize share u setting { p with marks := 0 } = start
    at hFirst hAny
  rcases start with ⟨result, q₀⟩
  cases result with
  | error e => exact hFirst.elim
  | ok sh =>
      refine ⟨sh, fun q hq => ?_, hFirst.1⟩
      have hSecond := hAny q hq
      generalize share u setting q = second at hSecond
      rcases second with ⟨result, q'⟩
      cases result with
      | error e => exact hSecond.elim
      | ok sh' => exact ⟨q', by rw [hSecond.1]⟩

theorem merges_item
    (hValid : ValidSignals scope.signals)
    {u : Hdl.Item}
    (hDriver : u.isDeclaration = false)
    (hu : u.Given)
    {sh : Share}
    (hGives : Gives setting scope u sh)
    (hd : d.Takes scope.signals portions) :
    Merges setting scope.Agrees
      (¬ (portions ++ sh.portions).Pairwise Portion.Apart)
      (item d u)
      (fun d' =>
        d'.Takes scope.signals (portions ++ sh.portions)) := by
  intro p hp
  rcases hGives p hp with ⟨p', hRun⟩
  have hShare := reaches_share hValid hu p hp _ p' hRun
  rw [item_eq d hDriver, bind_apply, hRun]
  have hPlace : Merges setting scope.Agrees _ _ _ :=
    (merges_place hShare.2 hd).imp id fun _ h => h.1
  rw [Share.portions_later] at hPlace
  exact hPlace p' hShare.1

/- All drivers together add all their portions. -/
theorem merges_items
    (hValid : ValidSignals scope.signals)
    {us : List Hdl.Item}
    (hDrivers : ∀ u ∈ us, u.isDeclaration = false)
    (hus : ∀ u ∈ us, u.Given)
    {shares : Hdl.Item → Share}
    (hGives : ∀ u ∈ us, Gives setting scope u (shares u))
    (hd : d.Takes scope.signals portions) :
    Merges setting scope.Agrees
      (¬ (portions ++ us.flatMap fun u =>
        (shares u).portions).Pairwise Portion.Apart)
      (us.foldlM item d)
      (fun d' => d'.Takes scope.signals
        (portions ++ us.flatMap fun u => (shares u).portions)) := by
  induction us generalizing portions d with
  | nil =>
      rw [List.foldlM_nil, List.flatMap_nil, List.append_nil]
      exact merges_pure hd
  | cons u us ih =>
      rw [List.forall_mem_cons] at hDrivers hus hGives
      rw [List.foldlM_cons, List.flatMap_cons,
        ← List.append_assoc]
      refine ((merges_item hValid hDrivers.1 hus.1 hGives.1 hd).imp
        ?_ fun _ h => h).bind fun d' hd' =>
          ih hDrivers.2 hus.2 hGives.2 hd'
      intro hClash hApart
      exact hClash (hApart.sublist (List.sublist_append_left ..))

end Lower

end Gatework
