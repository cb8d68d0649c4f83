import Gatework.Proofs.Hdl.Finishes
import Gatework.Proofs.Lowering.Drivers
import Gatework.Proofs.Stmt.Order

/-
  Drivers where all signals have their values.

  The driver of a signal can be one statement of a process.
  Run by itself it reads what signals have in the end, not
  what they have at its place, so it gives the value of the
  signal only if the order of reads and writes allows it.

  Key definitions include:
    * `Circuit.SettledAt`, values that solve all assignments
    * `Circuit.ordersDriver`

  Key theorems include:
    * `Circuit.last_values`
    * `recorded_driver_agrees`
-/

------------------------------------------------------------
-- Values of all signals
------------------------------------------------------------

namespace Gatework

namespace Circuit

/- Values within the widths that solve all assignments. -/
structure SettledAt
    (c : Circuit)
    (ρ : Valuation) :
    Prop where
  bound : ∀ n, ∃ x, ρ n = some x ∧ x < 2 ^ widthIn c.signals n
  solves : ∀ n a, c.assignments.find? n = some a →
    a.value.eval ρ = .ok ((ρ n).getD 0)

/-
  A signal of a process whose value depends on signals of the
  same process, where open values are 0.
-/
def feedsBack
    (p : Fallback)
    (c : Circuit)
    (body : Stmt)
    (n : String) :
    Bool :=
  p == .zero && body.writesName n &&
    (c.assignments.find? n).any fun a =>
      a.value.freeVars.names.any body.writesName

/- A name that is written before a driver and in it. -/
def mixed
    (cut : Stmt.Cut)
    (n : String) :
    Bool :=
  (Stmt.block cut.before).writesName n && cut.driver.writesName n

/-
  A name that may have another value in a driver than in the
  end, even where the driver does not write it any more.
-/
def unsettled
    (p : Fallback)
    (c : Circuit)
    (body : Stmt)
    (cut : Stmt.Cut)
    (n : String) :
    Bool :=
  mixed cut n || (Stmt.block cut.after).writesName n ||
    c.feedsBack p body n

/-
  The signal of a driver does not feed back, and the reads of
  the driver are in order. Where open values are held, what
  has not been written before the driver counts as set.
-/
def ordersDriver
    (p : Fallback)
    (c : Circuit)
    (body : Stmt)
    (name : String) :
    Bool :=
  let cut := body.cut name
  !c.feedsBack p body name &&
    cut.driver.inOrder
      (fun n => p == .hold && !(Stmt.block cut.before).writesName n)
      (c.unsettled p body cut)

/-
  The values a process starts from: those that may fall back
  to 0 are 0, and all others have the values given.
-/
def startOf
    (p : Fallback)
    (body : Stmt)
    (τ : String → Nat)
    (n : String) :
    Nat :=
  if p == .zero && body.writesName n then 0 else τ n

variable {p : Fallback}
variable {c : Circuit}
variable {body : Stmt}
variable {ρ : Valuation}
variable {τ : String → Nat}

theorem ready_startOf
    (p : Fallback)
    (body : Stmt)
    (τ : String → Nat) :
    Ready p (· ∈ body.targets) (startOf p body τ) := by
  intro hp v hv
  have hWrites : body.writesName v.name = true :=
    Stmt.writesName_eq_true_iff.mpr (List.mem_map_of_mem hv)
  rw [startOf, hp, hWrites]
  rfl

/-
  A signal that does not feed back has its value after the
  process, from values with open ones at 0.
-/
theorem last_values
    (hc : c.Proper)
    (hTraced : c.Traced p)
    (hBody : body ∈ c.processes)
    (hSettled : c.SettledAt ρ)
    (hτ : ∀ n, ρ n = some (τ n))
    {v : Var}
    (hv : Reads c.signals v)
    (hFeeds : c.feedsBack p body v.name = false)
    {i : Nat}
    (hi : i < v.width) :
    (body.after (startOf p body τ) v.name).testBit i =
      (τ v.name).testBit i := by
  have hProper := hc.driven.processes body hBody
  have hOne := oneWidth_reads c.signals
  by_cases hWrites : body.Writes v.name
  · rcases (hTraced.recorded body hBody v.name hWrites).assigned
      with ⟨marks, slot, a, hSlot, hFound, hSame⟩
    rcases (Stmt.flatten_spec hOne hProper.1 hProper.2 p
      marks).2.2 v.name slot hSlot with ⟨u, hName, hHolds, hValue⟩
    have hWidth : v.width = u.width :=
      hOne v u hv hHolds.signal.2.2 hName.symm
    -- The assignment solved is the slot, whatever the values.
    have hAssigned : ∀ τ', a.value.value τ' =
        slot.value.value τ' := by
      intro τ'
      rw [Expr.value_eq_of_unmarked hSame]
      exact (Expr.keeps_simplify hOne hHolds.value).value_eq τ'
    have hSolved : a.value.value τ = τ v.name := by
      have hEval := hSettled.solves v.name a hFound
      rw [Expr.eval_eq_value (fun u _ => hτ u.name), hτ] at hEval
      exact Except.ok.inj hEval
    have hStart : a.value.value (startOf p body τ) =
        a.value.value τ := by
      apply Expr.value_congr
      intro u hu
      rw [startOf, if_neg]
      intro hOpen
      rw [Bool.and_eq_true] at hOpen
      rw [feedsBack, hOpen.1,
        Stmt.writesName_eq_true_iff.mpr hWrites, hFound] at hFeeds
      exact List.any_eq_false.mp hFeeds u.name
        ((Expr.mem_names_freeVars a.value u.name).mpr
          (List.mem_map_of_mem hu)) hOpen.2
    rw [← hSolved, ← hStart, hAssigned,
      hValue _ (ready_startOf p body τ)]
    rw [hWidth] at hi
    rw [testBit_and_mask hHolds.signal.2.1 hi]
  · rw [Stmt.after_of_not_writes hProper.1 hWrites, startOf,
      Stmt.writesName_eq_false_iff.mpr hWrites, Bool.and_false]
    rfl

end Circuit

end Gatework

------------------------------------------------------------
-- Drivers
------------------------------------------------------------

namespace Gatework

namespace Circuit

variable {p : Fallback}
variable {c : Circuit}
variable {body : Stmt}
variable {k : String}
variable {ρ : Valuation}

/- Before anything is written, all values are last ones. -/
theorem tracks_start
    {cut : Stmt.Cut}
    (hBefore : (Stmt.block cut.before).Typed (Reads c.signals))
    {τ : String → Nat}
    (hSmall : ∀ v, Reads c.signals v → τ v.name < 2 ^ v.width) :
    Stmt.Tracks (Reads c.signals) p τ
      ((Stmt.block cut.before).after (startOf p body τ))
      (mixed cut)
      (fun n => p == .hold && !(Stmt.block cut.before).writesName n)
      NameMap.empty
      ((Stmt.block cut.before).after (startOf p body τ)) where
  small := hSmall
  same := by
    intro v _ hSet i _
    rw [Bool.and_eq_true, Bool.not_eq_true', beq_iff_eq,
      Stmt.writesName_eq_false_iff] at hSet
    rw [Stmt.after_of_not_writes hBefore hSet.2, startOf, hSet.1]
    rfl
  near := fun _ _ _ _ _ => Or.inr rfl
  kept := fun _ _ => rfl
  written := by
    rintro rfl n hSet
    cases hSet

/- Settled names have their last values after the driver. -/
theorem last_after_driver
    (hc : c.Proper)
    (hTraced : c.Traced p)
    (hBody : body ∈ c.processes)
    (k : String)
    (hSettled : c.SettledAt ρ)
    {τ : String → Nat}
    (hτ : ∀ n, ρ n = some (τ n)) :
    Stmt.Last (Reads c.signals) τ
      (c.unsettled p body (body.cut k))
      ((body.cut k).driver.after
        ((Stmt.block (body.cut k).before).after
          (startOf p body τ))) := by
  intro v hv hn i hi
  rw [unsettled, Bool.or_eq_false_iff, Bool.or_eq_false_iff,
    Stmt.writesName_eq_false_iff] at hn
  rcases hn with ⟨⟨_, hLater⟩, hFeeds⟩
  have hAfter :=
    (Stmt.typed_cut (hc.driven.processes body hBody).1 k).2.2
  rw [← last_values hc hTraced hBody hSettled hτ hv hFeeds hi,
    Stmt.after_cut body k, Stmt.after_of_not_writes hAfter hLater]

/-
  A driver whose reads are in order runs and leaves its signal
  at the value that it has.
-/
theorem exec_driver
    (hc : c.Proper)
    (hTraced : c.Traced p)
    (hBody : body ∈ c.processes)
    (hk : body.Writes k)
    (hOrder : c.ordersDriver p body k = true)
    (hSettled : c.SettledAt ρ) :
    ∃ w, (body.cut k).driver.exec ρ p = .ok w ∧
      w.onTop ρ k = ρ k := by
  let τ : String → Nat := fun n => (ρ n).getD 0
  have hτ : ∀ n, ρ n = some (τ n) := by
    intro n
    rcases hSettled.bound n with ⟨x, hx, _⟩
    simp only [τ, hx, Option.getD_some]
  have hSmall : ∀ v, Reads c.signals v →
      τ v.name < 2 ^ v.width := by
    intro v hv
    rcases hSettled.bound v.name with ⟨x, hx, hLt⟩
    rw [hv.2]
    simp only [τ, hx, Option.getD_some, hLt]
  have hTyped := (hc.driven.processes body hBody).1
  rcases Stmt.typed_cut hTyped k with ⟨hDriver, hBefore, _⟩
  rw [ordersDriver, Bool.and_eq_true, Bool.not_eq_true'] at hOrder
  have hLast := last_after_driver hc hTraced hBody k hSettled hτ
  have hZero : p = .zero → ∀ n, (body.cut k).driver.Writes n →
      mixed (body.cut k) n = false →
      (Stmt.block (body.cut k).before).after
        (startOf p body τ) n = 0 := by
    intro hp n hn hMixed
    rw [mixed, Stmt.writesName_eq_true_iff.mpr hn, Bool.and_true,
      Stmt.writesName_eq_false_iff] at hMixed
    rw [Stmt.after_of_not_writes hBefore hMixed, startOf, hp,
      Stmt.writesName_eq_true_iff.mpr (Stmt.writes_of_cut hn)]
    rfl
  have hUnmixed : ∀ n,
      c.unsettled p body (body.cut k) n = false →
        mixed (body.cut k) n = false := by
    intro n hn
    rw [unsettled, Bool.or_eq_false_iff,
      Bool.or_eq_false_iff] at hn
    exact hn.1.1
  rcases Stmt.run_tracks (oneWidth_reads c.signals)
      (fun v _ => hτ v.name) hDriver hZero _ _ NameMap.empty _
      hUnmixed hOrder.2 (tracks_start hBefore hSmall) hLast with
    ⟨w, hRun, hTracks⟩
  refine ⟨w, hRun, ?_⟩
  rcases List.mem_map.mp hk with ⟨v, hv, rfl⟩
  have hSignal : Reads c.signals v := hTyped.mem (Or.inl hv)
  -- Only the driver writes the signal, so it is settled.
  have hOwn : c.unsettled p body (body.cut v.name) v.name =
      false := by
    rcases Stmt.not_writes_around_cut body v.name with
      ⟨hNotBefore, hNotAfter⟩
    rw [unsettled, mixed, hOrder.1,
      Stmt.writesName_eq_false_iff.mpr hNotBefore,
      Stmt.writesName_eq_false_iff.mpr hNotAfter]
    rfl
  rw [Written.onTop_eq_current (hτ v.name), hτ v.name]
  congr 1
  apply eq_of_bits_lt (hTracks.small v hSignal) (hSmall v hSignal)
  intro i hi
  rcases hTracks.near v hSignal (hUnmixed v.name hOwn) i hi with
    hSame | hFinal
  · rw [hSame]
    exact hLast v hSignal hOwn i hi
  · exact hFinal

end Circuit

/-
  The driver recorded for a signal of a process agrees with
  the flattened assignment wherever all signals have their
  values, if the reads of the driver are in order.
-/
theorem recorded_driver_agrees
    {options : LowerOptions}
    {file : SourceFile}
    {circuits : List Circuit}
    (hLowered : (lowerSource options file).result = .ok circuits)
    {c : Circuit}
    (hc : c ∈ circuits)
    {body : Stmt}
    (hBody : body ∈ c.processes)
    {k : String}
    (hk : body.Writes k) :
    ∃ a driver,
      c.assignments.find? k = some a ∧
      c.drivers.find? k = some driver ∧
      driver = (body.cut k).driver ∧
      (c.ordersDriver options.fallback body k = true →
        ∀ ρ, c.SettledAt ρ →
          ∃ w x, driver.exec ρ options.fallback = .ok w ∧
            w.onTop ρ k = some x ∧ a.value.eval ρ = .ok x) := by
  have hGiven : ∀ decl ∈ (Hdl.parseFile 0 file).tree.modules,
      decl.Given :=
    fun _ hDecl => Hdl.given_of_mem_modules hDecl
  have hProper := proper_of_lowerParsed hGiven hLowered c hc
  have hTraced := traced_of_lowerParsed hGiven hLowered c hc
  have hRecords := hTraced.recorded body hBody k hk
  rcases hRecords.assigned with ⟨_, _, a, _, hAssigned, _⟩
  refine ⟨a, _, hAssigned, hRecords.driven, rfl, ?_⟩
  intro hOrder ρ hSettled
  rcases Circuit.exec_driver hProper hTraced hBody hk hOrder
      hSettled with ⟨w, hRun, hValue⟩
  rcases hSettled.bound k with ⟨x, hx, _⟩
  refine ⟨w, x, hRun, hValue.trans hx, ?_⟩
  rw [hSettled.solves k a hAssigned, hx, Option.getD_some]

/- Some names are 1 and all others are 0. -/
def bitsOn
    (ones : List String) :
    Valuation :=
  fun n => some (if n ∈ ones then 1 else 0)

/- Whether such values are settled can be computed. -/
def Circuit.settledOn
    (c : Circuit)
    (ones : List String) :
    Bool :=
  (ones.all fun n => 0 < widthIn c.signals n) &&
    c.assignments.entries.all fun entry =>
      (entry.2.value.eval (bitsOn ones)).toOption ==
        bitsOn ones entry.1

theorem Circuit.settledAt_of_settledOn
    {c : Circuit}
    {ones : List String}
    (hOn : c.settledOn ones = true) :
    c.SettledAt (bitsOn ones) := by
  rw [settledOn, Bool.and_eq_true, List.all_eq_true,
    List.all_eq_true] at hOn
  constructor
  · intro n
    refine ⟨_, rfl, ?_⟩
    split
    case isTrue hn =>
        have hWidth := of_decide_eq_true (hOn.1 n hn)
        exact Nat.one_lt_two_pow (Nat.pos_iff_ne_zero.mp hWidth)
    case isFalse => exact Nat.two_pow_pos _
  · intro n a hFound
    have hSame := beq_iff_eq.mp (hOn.2 (n, a)
      (NameMap.mem_entries_of_find?_eq_some hFound))
    exact eq_ok_of_toOption hSame

/- The first circuit of a file and its first process. -/
def firstProcess?
    (file : SourceFile) :
    Option (Circuit × Stmt) := do
  let circuits ← (lowerSource {} file).result.toOption
  let c ← circuits.head?
  let body ← c.processes.head?
  return (c, body)

theorem firstProcess?_spec
    {file : SourceFile}
    {c : Circuit}
    {body : Stmt}
    (hFirst : firstProcess? file = some (c, body)) :
    ∃ circuits, (lowerSource {} file).result = .ok circuits ∧
      c ∈ circuits ∧ body ∈ c.processes := by
  unfold firstProcess? at hFirst
  rcases Option.bind_eq_some_iff.mp hFirst with
    ⟨circuits, hLowered, hFirst⟩
  rcases Option.bind_eq_some_iff.mp hFirst with
    ⟨d, hHead, hFirst⟩
  rcases Option.bind_eq_some_iff.mp hFirst with
    ⟨s, hProcess, hFirst⟩
  cases hFirst
  exact ⟨circuits, eq_ok_of_toOption hLowered,
    List.mem_of_head? hHead, List.mem_of_head? hProcess⟩

/- A signal is chosen, and then read for another one. -/
def chosenThenRead : SourceFile :=
  ⟨"chosen.sv",
    "module chosen(input s, a, b, output t, y); always_comb\n" ++
    "begin if (s) t = a; else t = b; y = ~t; end endmodule\n"⟩

/- The second of two statements drives the signal alone. -/
theorem recorded_driver_agrees_chosenThenRead :
    ∃ c body a driver,
      firstProcess? chosenThenRead = some (c, body) ∧
      c.assignments.find? "y" = some a ∧
      c.drivers.find? "y" = some driver ∧
      c.SettledAt (bitsOn ["s", "a", "t"]) ∧
      ∃ w x, driver.exec (bitsOn ["s", "a", "t"]) .zero = .ok w ∧
        w.onTop (bitsOn ["s", "a", "t"]) "y" = some x ∧
        a.value.eval (bitsOn ["s", "a", "t"]) = .ok x := by
  have hRuns : (firstProcess? chosenThenRead).any
      (fun (c, body) =>
        body.writesName "y" && c.ordersDriver .zero body "y" &&
          c.settledOn ["s", "a", "t"]) = true := by
    rw [firstProcess?, lowerSource_spelled {} chosenThenRead
      (Hdl.spelled_append rfl rfl)]
    decide +kernel
  rcases Option.any_eq_true .. |>.mp hRuns with
    ⟨⟨c, body⟩, hFirst, hFacts⟩
  simp only [Bool.and_eq_true] at hFacts
  rcases hFacts with ⟨⟨hWrites, hOrder⟩, hOn⟩
  have hSettled := Circuit.settledAt_of_settledOn hOn
  rcases firstProcess?_spec hFirst with
    ⟨circuits, hLowered, hc, hBody⟩
  rcases recorded_driver_agrees hLowered hc hBody
      (Stmt.writesName_eq_true_iff.mp hWrites) with
    ⟨a, driver, hAssigned, hDriver, _, hAgrees⟩
  exact ⟨c, body, a, driver, hFirst, hAssigned, hDriver, hSettled,
    hAgrees hOrder _ hSettled⟩

/- A signal is read for another one between two writes. -/
def readBetweenWrites : SourceFile :=
  ⟨"between.sv",
    "module between(input a, b, output t, y); always_comb\n" ++
    "begin t = a; y = t; t = b; end endmodule\n"⟩

/-
  The statement in the middle drives its signal alone, but by
  itself it reads what is only written after it.
-/
theorem recorded_driver_differs_readBetweenWrites :
    ∃ circuits c body a driver w,
      (lowerSource {} readBetweenWrites).result = .ok circuits ∧
      c ∈ circuits ∧ body ∈ c.processes ∧ body.Writes "y" ∧
      c.assignments.find? "y" = some a ∧
      c.drivers.find? "y" = some driver ∧
      c.SettledAt (bitsOn ["a", "y"]) ∧
      driver.exec (bitsOn ["a", "y"]) .zero = .ok w ∧
      w.onTop (bitsOn ["a", "y"]) "y" = some 0 ∧
      a.value.eval (bitsOn ["a", "y"]) = .ok 1 := by
  have hRuns : (firstProcess? readBetweenWrites).any
      (fun (c, body) =>
        body.writesName "y" && c.settledOn ["a", "y"] &&
          (c.assignments.find? "y").any (fun a =>
            (a.value.eval (bitsOn ["a", "y"])).toOption ==
              some 1) &&
          (c.drivers.find? "y").any (fun driver =>
            (driver.exec (bitsOn ["a", "y"])
              .zero).toOption.any (fun w =>
                w.onTop (bitsOn ["a", "y"]) "y" == some 0))) =
        true := by
    rw [firstProcess?, lowerSource_spelled {} readBetweenWrites
      (Hdl.spelled_append rfl rfl)]
    decide +kernel
  rcases Option.any_eq_true .. |>.mp hRuns with
    ⟨⟨c, body⟩, hFirst, hFacts⟩
  simp only [Bool.and_eq_true, Option.any_eq_true,
    beq_iff_eq] at hFacts
  rcases hFacts with ⟨⟨⟨hWrites, hOn⟩, a, hAssigned, hValue⟩,
    driver, hDriver, w, hRun, hOther⟩
  rcases firstProcess?_spec hFirst with
    ⟨circuits, hLowered, hc, hBody⟩
  exact ⟨circuits, c, body, a, driver, w, hLowered, hc, hBody,
    Stmt.writesName_eq_true_iff.mp hWrites, hAssigned, hDriver,
    Circuit.settledAt_of_settledOn hOn, eq_ok_of_toOption hRun,
    hOther, eq_ok_of_toOption hValue⟩

end Gatework
