import Gatework.Proofs.Lowering.Shares

/-
  What the items of a module drive.

  The declarations of a module leave a scope in which each of
  its drivers can be lowered by itself. A continuous
  assignment then drives the bits that its target writes, and
  a process all bits of each signal that a statement of it
  writes. None of this looks at a module as a whole or at what
  other drivers left behind.

  Key definitions include:
    * `Hdl.Item.assign?` and `Hdl.Item.process?`
    * `Hdl.Item.Drives` and `Hdl.Item.Apart`

  Key theorems include:
    * `Hdl.Item.renders_of_assign?`
    * `Lower.isOf_share`
    * `Lower.Share.Proper.contributes`
-/

------------------------------------------------------------
-- Drivers of signals
------------------------------------------------------------

namespace Gatework

namespace Hdl.Item

/- What an assignment is lowered to, if it can be. -/
def assign?
    (setting : Setting)
    (p : Progress) :
    Item → Option Assign
  | assign lhs value _ =>
      (Lower.assign lhs value setting p).1.toOption
  | _ => none

/- The body of a combinational process. -/
def body? : Item → Option Stmt
  | alwaysComb body _ => some body
  | always (.onEvent sensitivity body _) _ =>
      if sensitivity.isCombinational then some body else none
  | _ => none

/- What a process is lowered to, if it can be and does anything. -/
def process?
    (setting : Setting)
    (p : Progress)
    (u : Item) :
    Option Gatework.Stmt :=
  u.body?.bind fun body =>
    (Lower.stmt body setting p).1.toOption.join

/-
  An item drives a bit of a signal. An assignment drives the
  bits that its target writes, and a process every bit of each
  signal that it writes.
-/
def Drives
    (setting : Setting)
    (p : Progress)
    (u : Item)
    (n : String)
    (i : Nat) :
    Prop :=
  (∃ a, u.assign? setting p = some a ∧ a.target.Covers n i) ∨
    ∃ s, u.process? setting p = some s ∧
      n ∈ s.writes.names ∧ i < widthIn p.scope.signals n

/- No bit is driven by both. -/
def Apart
    (setting : Setting)
    (p : Progress)
    (u w : Item) :
    Prop :=
  ∀ n i, u.Drives setting p n i → ¬ w.Drives setting p n i

/-
  A lowered assignment writes the bits that its left side
  selects and takes the value that its right side means.
-/
theorem renders_of_assign?
    {setting : Setting}
    {p : Progress}
    (hValid : ValidSignals p.scope.signals)
    {lhs value : Expr}
    (hLhs : lhs.Given)
    (hValue : value.Given)
    {span : Span}
    {a : Assign}
    (hAssign : (assign lhs value span).assign? setting p = some a) :
    a.Renders (Reads p.scope.signals) p.scope lhs value := by
  have hLowered := Lower.ensures_assign hValid
    (Lower.reads_of_given p.scope.signals) hLhs hValue setting p
    ⟨rfl, rfl⟩
  rw [assign?] at hAssign
  generalize Lower.assign lhs value setting p = run
    at hLowered hAssign
  rcases run with ⟨result, p'⟩
  cases result with
  | error e => cases hAssign
  | ok a' =>
      cases hAssign
      exact hLowered.2

end Hdl.Item

end Gatework

------------------------------------------------------------
-- Drivers and their shares
------------------------------------------------------------

namespace Gatework

namespace Lower

variable {setting : Setting}
variable {p p' : Progress}
variable {u : Hdl.Item}

/- A process consists of what its body is lowered to. -/
theorem stmt_of_process?
    {body : Hdl.Stmt}
    {found : Option Process}
    (hRun : process? body setting p = (.ok found, p')) :
    (stmt body setting p).1 = .ok (found.map Process.body) := by
  unfold process? at hRun
  split at hRun
  case h_1 label ss span =>
      rw [stmt, bind_apply]
      rw [bind_apply] at hRun
      generalize stmts ss setting p = run at hRun ⊢
      rcases run with ⟨result, p₁⟩
      cases result with
      | error e => cases hRun
      | ok parts =>
          cases hRun
          rfl
  case h_2 =>
      rw [bind_apply] at hRun
      generalize stmt body setting p = run at hRun ⊢
      rcases run with ⟨result, p₁⟩
      cases result with
      | error e => cases hRun
      | ok s? =>
          cases s? with
          | none =>
              cases hRun
              rfl
          | some s =>
              cases hRun
              rfl

/- The share is that of an item that drives what it drives. -/
def Share.IsOf
    (setting : Setting)
    (p : Progress)
    (u : Hdl.Item) :
    Share → Prop
  | idle => u.assign? setting p = none ∧ u.process? setting p = none
  | field a _ _ =>
      u.assign? setting p = some a ∧ u.process? setting p = none
  | process q _ _ =>
      u.assign? setting p = none ∧
        u.process? setting p = some q.body

theorem isOf_share
    {sh : Share}
    (hRun : share u setting p = (.ok sh, p')) :
    sh.IsOf setting p u := by
  have hProcess : ∀ {body : Hdl.Stmt},
      u.assign? setting p = none → u.body? = some body →
      processShare body setting p = (.ok sh, p') →
      sh.IsOf setting p u := by
    intro body hAssign hBody hRun
    unfold processShare at hRun
    rw [bind_apply] at hRun
    generalize hFound : process? body setting p = run at hRun
    rcases run with ⟨result, p₁⟩
    cases result with
    | error e => cases hRun
    | ok found =>
        have hStmt := stmt_of_process? hFound
        have hSame : u.process? setting p = found.map Process.body := by
          rw [Hdl.Item.process?, hBody, Option.bind_some, hStmt]
          rfl
        cases found with
        | none =>
            cases hRun
            exact ⟨hAssign, hSame⟩
        | some q =>
            cases hRun
            exact ⟨hAssign, hSame⟩
  cases u with
  | assign lhs value span =>
      rw [share, bind_apply] at hRun
      have hAssign : (Hdl.Item.assign lhs value span).assign? setting p =
          (assign lhs value setting p).1.toOption := rfl
      generalize assign lhs value setting p = run at hRun hAssign
      rcases run with ⟨result, p₁⟩
      cases result with
      | error e => cases hRun
      | ok a =>
          cases hRun
          exact ⟨hAssign, rfl⟩
  | alwaysComb body span => exact hProcess rfl rfl hRun
  | always body span =>
      cases body with
      | onEvent sensitivity inner place =>
          rw [share] at hRun
          split at hRun
          case isTrue hComb =>
              exact hProcess rfl (if_pos hComb) hRun
          case isFalse => cases hRun
      | _ => cases hRun
  | net decl =>
      cases hRun
      exact ⟨rfl, rfl⟩
  | pins decl =>
      cases hRun
      exact ⟨rfl, rfl⟩
  | _ => cases hRun

end Lower

end Gatework

------------------------------------------------------------
-- Drivers and their portions
------------------------------------------------------------

namespace Gatework

/- What an item drives, in terms of portions. -/
structure Hdl.Item.Contributes
    (setting : Setting)
    (p : Progress)
    (portions : List Portion)
    (u : Item) :
    Prop where
  drives_iff : ∀ n i, u.Drives setting p n i ↔
    ∃ P ∈ portions, P.Covers n i
  assigns : ∀ a, u.assign? setting p = some a →
    a.portion ∈ portions
  whole : ∀ P ∈ portions,
    (∃ a, u.assign? setting p = some a ∧ a.portion = P) ∨
      P.low = 0 ∧ P.width = widthIn p.scope.signals P.name

/- Items share no bit where their portions are apart. -/
theorem Hdl.Item.Contributes.apart_iff
    {setting : Setting}
    {p : Progress}
    {u w : Item}
    {portions portions' : List Portion}
    (hu : u.Contributes setting p portions)
    (hw : w.Contributes setting p portions') :
    u.Apart setting p w ↔
      ∀ P ∈ portions, ∀ Q ∈ portions', P.Apart Q := by
  constructor
  · intro hApart P hP Q hQ n i hCoversP hCoversQ
    exact hApart n i ((hu.drives_iff n i).mpr ⟨P, hP, hCoversP⟩)
      ((hw.drives_iff n i).mpr ⟨Q, hQ, hCoversQ⟩)
  · intro hApart n i hDrives hDrives'
    rcases (hu.drives_iff n i).mp hDrives with ⟨P, hP, hCoversP⟩
    rcases (hw.drives_iff n i).mp hDrives' with ⟨Q, hQ, hCoversQ⟩
    exact hApart P hP Q hQ n i hCoversP hCoversQ

namespace Lower

variable {setting : Setting}
variable {p : Progress}
variable {u : Hdl.Item}

theorem contributes_idle
    (hOf : Share.idle.IsOf setting p u) :
    u.Contributes setting p [] := by
  rcases hOf with ⟨hAssign, hProcess⟩
  refine ⟨fun n i => ?_, ?_, nofun⟩
  · simp [Hdl.Item.Drives, hAssign, hProcess]
  · simp [hAssign]

theorem contributes_field
    {a : Assign}
    {span : Span}
    {text : String}
    (hOf : (Share.field a span text).IsOf setting p u) :
    u.Contributes setting p [a.portion] := by
  rcases hOf with ⟨hAssign, hProcess⟩
  refine ⟨fun n i => ?_, ?_, ?_⟩
  · simp only [Hdl.Item.Drives, hAssign, hProcess,
      List.mem_singleton, exists_eq_left, Option.some.injEq,
      exists_eq_left', reduceCtorEq, false_and, exists_false,
      or_false]
    exact Iff.rfl
  · intro b hb
    cases hAssign.symm.trans hb
    exact List.mem_singleton_self _
  · intro P hP
    rw [List.mem_singleton.mp hP]
    exact Or.inl ⟨a, hAssign, rfl⟩

/- A process drives all bits of the signals with slots. -/
theorem contributes_process
    {q : Process}
    {span : Span}
    {slots : List (String × Slot)}
    (hProper : (Share.process q span slots).Proper
      setting.options.fallback p.scope.signals)
    (hOf : (Share.process q span slots).IsOf setting p u) :
    u.Contributes setting p
      (slots.map fun entry => entry.2.portion entry.1) := by
  rcases hOf with ⟨hAssign, hProcess⟩
  have hWhole : ∀ entry ∈ slots,
      entry.2.whole.width = widthIn p.scope.signals entry.1 := by
    intro entry hEntry
    rcases hProper.holds entry hEntry with ⟨v, hName, hHolds⟩
    rw [← hName]
    exact (Slot.Holds.inside_portion hHolds).2.2
  have hNames : ∀ n, n ∈ q.body.writes.names ↔
      n ∈ slots.map Prod.fst := by
    rcases hProper with ⟨⟨hTyped, hFit⟩, marks, rfl⟩
    intro n
    rw [Stmt.mem_names_writes]
    exact ((Stmt.flatten_spec (oneWidth_reads p.scope.signals)
      hTyped hFit setting.options.fallback marks).2.1 n).symm
  have hDrives : ∀ n i, u.Drives setting p n i ↔
      n ∈ slots.map Prod.fst ∧ i < widthIn p.scope.signals n := by
    intro n i
    simp only [Hdl.Item.Drives, hAssign, hProcess, hNames,
      reduceCtorEq, false_and, exists_false, false_or,
      Option.some.injEq, exists_eq_left']
  refine ⟨fun n i => (hDrives n i).trans ?_, ?_, ?_⟩
  · constructor
    · rintro ⟨hn, hi⟩
      rcases List.mem_map.mp hn with ⟨entry, hEntry, rfl⟩
      refine ⟨_, List.mem_map_of_mem hEntry, rfl,
        Nat.zero_le _, ?_⟩
      change i < 0 + entry.2.whole.width
      rw [hWhole entry hEntry, Nat.zero_add]
      exact hi
    · rintro ⟨P, hP, hName, _, hHigh⟩
      rcases List.mem_map.mp hP with ⟨entry, hEntry, rfl⟩
      have hName : entry.1 = n := hName
      subst hName
      change i < 0 + entry.2.whole.width at hHigh
      rw [hWhole entry hEntry, Nat.zero_add] at hHigh
      exact ⟨List.mem_map_of_mem hEntry, hHigh⟩
  · intro a ha
    cases hAssign.symm.trans ha
  · intro P hP
    rcases List.mem_map.mp hP with ⟨entry, hEntry, rfl⟩
    exact Or.inr ⟨rfl, hWhole entry hEntry⟩

/- A driver contributes the portions of its share. -/
theorem Share.Proper.contributes
    {sh : Share}
    (hShare : sh.Proper setting.options.fallback p.scope.signals)
    (hOf : sh.IsOf setting p u) :
    u.Contributes setting p sh.portions := by
  cases sh with
  | idle => exact contributes_idle hOf
  | field a span text => exact contributes_field hOf
  | process q span slots => exact contributes_process hShare hOf

end Lower

end Gatework
