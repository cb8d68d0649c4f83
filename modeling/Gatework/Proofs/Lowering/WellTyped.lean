import Gatework.Proofs.Hdl.Finishes
import Gatework.Proofs.Lowering.Circuit

/-
  Lowering gives only well-typed circuits.

  Whatever a source is, lowering it meets no flaw of the logic
  it builds. The circuits it gives are named apart. In each of
  them the pins are signals, every driven signal is assigned
  as a whole and has a driver, all statements are valid, and
  no signal is used at another width than its own.

  Key definitions include:
    * `Circuit.States` and `Circuit.Mentions`
    * `Circuit.WellTyped`

  Key theorems include:
    * `lowerSource_wellTyped`
-/

------------------------------------------------------------
-- Well-typed circuits
------------------------------------------------------------

namespace Gatework

namespace Circuit

/- A driver or a process of a circuit. -/
def States
    (c : Circuit)
    (s : Stmt) :
    Prop :=
  (∃ k, c.drivers.find? k = some s) ∨ s ∈ c.processes

/- A signal in an assignment, a driver or a process. -/
def Mentions
    (c : Circuit)
    (v : Var) :
    Prop :=
  (∃ k a, c.assignments.find? k = some a ∧
    (Stmt.assign a).Mentions v) ∨
  ∃ s, c.States s ∧ s.Mentions v

/- A circuit of which all parts fit together. -/
structure WellTyped
    (c : Circuit) :
    Prop where
  pins_nodup : (c.pins.map Pin.name).Nodup
  pins_declared : ∀ pin ∈ c.pins, ∃ v,
    c.signals.find? pin.name = some v ∧ v.width = pin.width
  keys_eq : c.assignments.keys = c.drivers.keys
  assigned : ∀ k a, c.assignments.find? k = some a →
    (∃ v, a.target = .whole v ∧ v.name = k) ∧
    a.value.validate = .ok () ∧
    a.value.width = widthIn c.signals k
  stated : ∀ s, c.States s →
    s.validate = .ok () ∧ s.LabelsFit
  width_eq : ∀ v, c.Mentions v →
    v.width = widthIn c.signals v.name

variable {c : Circuit}

theorem Proper.stated
    (hc : c.Proper)
    {s : Stmt}
    (hs : c.States s) :
    s.Proper (Reads c.signals) := by
  rcases hs with ⟨k, hk⟩ | hs
  · exact hc.driven.drivers k s hk
  · exact hc.driven.processes s hs

/- An assignment is a typed statement. -/
theorem Proper.typed_assign
    (hc : c.Proper)
    {k : String}
    {a : Assign}
    (hk : c.assignments.find? k = some a) :
    (Stmt.assign a).Typed (Reads c.signals) := by
  have hDrives := hc.driven.drives k a hk
  have hTarget : a.target.toExpr = .var none a.var := by
    rw [hDrives.whole]
    rfl
  refine ⟨hTarget ▸ hDrives.signal, hDrives.value, ?_⟩
  rw [hDrives.width_eq, hDrives.whole]
  rfl

theorem Proper.wellTyped
    (hc : c.Proper) :
    c.WellTyped where
  pins_nodup := hc.pins_nodup
  pins_declared := hc.pins_declared
  keys_eq := hc.driven.keys_eq
  assigned := by
    intro k a hk
    have hDrives := hc.driven.drives k a hk
    refine ⟨⟨a.var, hDrives.whole, hDrives.name_eq⟩, ?_, ?_⟩
    · exact hDrives.value.validate fun _ hv => hv.1
    · rw [hDrives.width_eq, hDrives.signal.2.2.2,
        hDrives.name_eq]
  stated := by
    intro s hs
    rcases hc.stated hs with ⟨hTyped, hFit⟩
    refine ⟨Stmt.validate_eq_ok_iff.mpr ?_, hFit⟩
    exact hTyped.mono fun _ _ hv => hv.1
  width_eq := by
    rintro v (⟨k, a, hk, hv⟩ | ⟨s, hs, hv⟩)
    · exact ((hc.typed_assign hk).mem hv).2
    · exact ((hc.stated hs).1.mem hv).2

end Circuit

end Gatework

------------------------------------------------------------
-- Sources
------------------------------------------------------------

namespace Gatework

/-
  Lowering a source meets no flaw, whatever its text and the
  options are, and gives only well-typed circuits whose names
  differ.
-/
theorem lowerSource_wellTyped
    (options : LowerOptions)
    (file : SourceFile) :
    (∀ f, (lowerSource options file).result ≠ .error (.flaw f)) ∧
    ∀ circuits,
      (lowerSource options file).result = .ok circuits →
      (circuits.map Circuit.name).Nodup ∧
      ∀ c ∈ circuits, c.WellTyped := by
  have hGiven : ∀ decl ∈ (Hdl.parseFile 0 file).tree.modules,
      decl.Given :=
    fun _ hDecl => Hdl.given_of_mem_modules hDecl
  have hSpec := lowerParsed_spec hGiven options [file]
  unfold lowerSource
  generalize (lowerParsed options [file]
    (Hdl.parseFile 0 file)).result = result at hSpec ⊢
  cases result with
  | error e =>
      refine ⟨?_, nofun⟩
      rintro f ⟨⟩
      cases hSpec
  | ok circuits =>
      refine ⟨nofun, ?_⟩
      rintro _ ⟨⟩
      exact ⟨hSpec.2, fun c hc => (hSpec.1 c hc).wellTyped⟩

/-
  A selector whose pins are declared in its body, with a case,
  a fill literal and an undeclared net, and an empty module.
-/
def picking : SourceFile :=
  ⟨"pick.sv",
    "module pick(s, y); input [1:0] s; output [1:0] y;\n" ++
    "always_comb case (s) 2: y = '1;\n" ++
    "default: y[0] = k; endcase endmodule\n" ++
    "module none; endmodule\n"⟩

theorem lowerSource_wellTyped_picking :
    ∃ circuits, (lowerSource {} picking).result = .ok circuits ∧
      circuits.map Circuit.name = ["pick", "none"] ∧
      ∀ c ∈ circuits, c.WellTyped := by
  have hNames :
      ((lowerSource {} picking).result.toOption.getD []).map
        Circuit.name = ["pick", "none"] := by
    rw [lowerSource_spelled {} picking (Hdl.spelled_append
      (Hdl.spelled_append (Hdl.spelled_append rfl rfl) rfl) rfl)]
    decide +kernel
  have hTyped := (lowerSource_wellTyped {} picking).2
  generalize (lowerSource {} picking).result = result
    at hNames hTyped
  cases result with
  | error e => cases hNames
  | ok circuits =>
      exact ⟨circuits, rfl, hNames, (hTyped circuits rfl).2⟩

end Gatework
