import Gatework.Expr.Simplify
import Gatework.Flatten
import Gatework.Hdl.Parser.File
import Gatework.Lowering.Stmt
import Gatework.Stmt.Effects

/-
  Lowering of modules.

  Declarations are bound first, so that items may read what
  is declared further down. Assignments and combinational
  processes are then lowered in order, each to one simplified
  expression per signal. No bit is driven twice; bits of a
  signal that continuous assignments leave open are 0.

  Key definitions include:
    * `Draft`
    * `Lower.bind`
    * `Lower.item`
    * `Lower.circuit`
    * `Lowered` and `lowerSource`
-/

------------------------------------------------------------
-- Drafts
------------------------------------------------------------

namespace Gatework

/- Bits of a signal driven by an item at a place. -/
structure Claim where
  low : Nat
  width : Nat
  span : Span
deriving DecidableEq, Repr, Inhabited

namespace Claim

/- Some bit belongs to both. -/
def overlaps
    (a b : Claim) :
    Bool :=
  decide (a.low < b.low + b.width) && decide (b.low < a.low + a.width)

end Claim

/-
  A circuit in the making, with the claims on each signal and
  the text of each driver.
-/
structure Draft where
  circuit : Circuit
  claims : NameMap (List Claim) := NameMap.empty
  texts : NameMap String := NameMap.empty
deriving Repr, Inhabited

namespace Draft

/- The assignment and driver of a signal with their text. -/
def record
    (d : Draft)
    (a : Assign)
    (driver : Stmt)
    (text : String) :
    Draft :=
  let name := a.var.name
  let c := d.circuit.withSource a.value text
  { d with
    circuit :=
      { c with
        drivers := c.drivers.insert name driver
        assignments := c.assignments.insert name a }
    texts := d.texts.insert name text }

end Draft

namespace Lower

/- Claims bits of a signal that no item drives yet. -/
def claim
    (d : Draft)
    (name : String)
    (wanted : Claim) :
    Lower Draft :=
  let claims := (d.claims.find? name).getD []
  match claims.find? fun c => c.overlaps wanted with
  | some other => fail (.drivenTwice name wanted.span other.span)
  | none =>
      return { d with claims := d.claims.insert name (claims ++ [wanted]) }

end Lower

end Gatework

------------------------------------------------------------
-- Declarations
------------------------------------------------------------

namespace Gatework

namespace Lower

/- A bound of a vector. -/
def bound
    (e : Hdl.Expr) :
    Lower Nat := do
  match ← constant e with
  | some value => return min value maxBound
  | none =>
      refuse ("range bound `" ++ (← textOf e.span) ++ "` is not a constant")
        e.span

/- The width of a declaration and its bounds. -/
def range : Option Hdl.Range → Lower (Nat × Option (Nat × Nat))
  | none => return (1, none)
  | some r => do
      let msb ← bound r.msb
      let lsb ← bound r.lsb
      let width := max msb lsb - min msb lsb + 1
      if maxWidth < width then
        refuse ("vector of " ++ toString width ++ " bits; at most "
          ++ toString maxWidth ++ " are supported") r.span
      else
        return (width, some (msb, lsb))

def pinDirection : Hdl.Direction → PinDirection
  | .input => .input
  | .output => .output
  | .inout => .inout

/- Declares a pin. -/
def declarePin
    (decl : Hdl.PinDecl)
    (name : String) :
    Lower Pin := do
  let (width, bounds) ← range decl.range
  let v ← checked (Var.make name width)
  declare { v with signed := decl.signed } bounds decl.span
  return ⟨name, pinDirection decl.direction, width, bounds, decl.signed⟩

/-
  The pins declared in a body, and those among them without a
  kind of net, which a later declaration may give.
-/
structure BodyPins where
  pins : NameMap Pin := NameMap.empty
  untyped : List String := []
deriving Repr, Inhabited

/- Declares a pin in the body of a module. -/
def bindPin
    (listed : List String)
    (decl : Hdl.PinDecl)
    (found : BodyPins)
    (name : String) :
    Lower BodyPins := do
  if name ∈ listed then
    let pin ← declarePin decl name
    let untyped :=
      if decl.net = .implicit then name :: found.untyped else found.untyped
    return ⟨found.pins.insert name pin, untyped⟩
  else
    refuse ("`" ++ name ++ "` is declared as a port but is not in the port list")
      decl.span

/- Declares a net unless it only gives a pin its kind. -/
def bindNet
    (decl : Hdl.NetDecl)
    (width : Nat)
    (bounds : Option (Nat × Nat))
    (found : BodyPins)
    (entry : Hdl.DeclName) :
    Lower BodyPins := do
  let known := (← get).scope.signals.find? entry.name
  if known.map Var.width = some width ∧ entry.name ∈ found.untyped then
    return { found with untyped := found.untyped.filter (· != entry.name) }
  else
    let v ← checked (Var.make entry.name width)
    declare { v with signed := decl.signed } bounds entry.span
    return found

/- Binds the declarations of an item. -/
def bindItem
    (listed : List String)
    (found : BodyPins) :
    Hdl.Item → Lower BodyPins
  | .pins decl => decl.names.foldlM (bindPin listed decl) found
  | .net decl => do
      let (width, bounds) ← range decl.range
      decl.names.foldlM (bindNet decl width bounds) found
  | _ => return found

/- The pins in the order of the head. -/
def listedPins
    (span : Span) :
    List String → NameMap Pin → Lower (List Pin)
  | [], _ => return []
  | name :: names, pins =>
      match pins.find? name with
      | none =>
          refuse ("port `" ++ name ++ "` has no direction declaration") span
      | some pin => return pin :: (← listedPins span names (pins.erase name))

/- Declares the pins of one declaration in the head. -/
def headPins
    (decl : Hdl.PinDecl) :
    Lower (List Pin) :=
  decl.names.mapM (declarePin decl)

/- Binds all declarations and gives the pins in order. -/
def bind
    (decl : Hdl.ModuleDecl) :
    Lower (List Pin) := do
  let declared ←
    match decl.header with
    | .declared pins => pins.mapM headPins
    | _ => pure []
  let listed :=
    match decl.header with
    | .named names => names
    | _ => []
  let found ← decl.items.foldlM (bindItem listed) {}
  let others ← listedPins decl.span listed found.pins
  return declared.flatten ++ others

end Lower

end Gatework

------------------------------------------------------------
-- Items
------------------------------------------------------------

namespace Gatework

namespace Lower

/-
  A continuous assignment. One to some bits of a signal goes
  into what other assignments drive of it.
-/
def continuous
    (d : Draft)
    (lhs value : Hdl.Expr)
    (span : Span) :
    Lower Draft := do
  let a ← assign lhs value
  let v := a.var
  let text := trimText (← textOf span)
  let d ← claim d v.name ⟨a.target.low, a.target.width, span⟩
  match a.target.field? with
  | none =>
      let rhs ← keep a.value.simplify
      return d.record ⟨.whole v, rhs⟩ (.assign a) text
  | some low =>
      let old :=
        match d.circuit.assignments.find? v.name with
        | some prior => prior.value
        | none => Expr.ofNat 0 v.width
      let rhs ← keep (old.splice low a.value).simplify
      match d.circuit.drivers.find? v.name with
      | none => return d.record ⟨.whole v, rhs⟩ (.assign a) text
      | some driver =>
          let before := (d.texts.find? v.name).getD ""
          return d.record ⟨.whole v, rhs⟩ (.block [driver, .assign a])
            (before ++ "\n" ++ text)

/- A lowered process with the statements it consists of. -/
structure Process where
  body : Stmt
  text : String
  parts : List (Stmt × String)
deriving Repr, Inhabited

namespace Process

/- The statement writes a signal. -/
def writesTo
    (name : String)
    (s : Stmt) :
    Bool :=
  s.writes.any fun v => v.name == name

/-
  The statement that drives a signal: the only one among the
  parts that writes it, or else the whole process.
-/
def driver
    (p : Process)
    (name : String) :
    Stmt × String :=
  match p.parts.filter fun part => writesTo name part.1 with
  | [only] => only
  | _ => (p.body, p.text)

end Process

/- Lowers the body of a process. -/
def process?
    (body : Hdl.Stmt) :
    Lower (Option Process) := do
  match body with
  | .block _ ss span =>
      let parts ← stmts ss
      let text := trimText (← textOf span)
      return some ⟨.block (parts.map Prod.fst), text, parts⟩
  | _ =>
      match ← stmt body with
      | none => return none
      | some s => return some ⟨s, trimText (← textOf body.span), []⟩

/- Records what a process drives of one signal. -/
def drive
    (p : Process)
    (span : Span)
    (d : Draft)
    (entry : String × Slot) :
    Lower Draft := do
  let (name, slot) := entry
  let d ← claim d name ⟨0, slot.whole.width, span⟩
  let a ← checked (Assign.make slot.whole (← keep slot.value.simplify))
  let (driver, text) := p.driver name
  return d.record a driver text

/- A combinational process. -/
def combinational
    (d : Draft)
    (body : Hdl.Stmt) :
    Lower Draft := do
  match ← process? body with
  | none => return d
  | some p =>
      let c := d.circuit
      let d :=
        { d with circuit := { c with processes := c.processes ++ [p.body] } }
      let slots ← stamping (p.body.flatten (← read).options.fallback)
      slots.foldlM (drive p body.span) d

/- A net that is tied to a value where it is declared. -/
def tie
    (d : Draft)
    (entry : Hdl.DeclName) :
    Lower Draft :=
  match entry.init with
  | none => return d
  | some value => continuous d (.name entry.name entry.span) value entry.span

/- Lowers an item of a module. -/
def item
    (d : Draft) :
    Hdl.Item → Lower Draft
  | .pins _ => return d
  | .net decl => decl.names.foldlM tie d
  | .assign lhs value span => continuous d lhs value span
  | .alwaysComb body _ => combinational d body
  | .always (.onEvent sensitivity body span) _ =>
      if sensitivity.isCombinational then
        combinational d body
      else
        refuse "edge-sensitive `always` block" span
  | .always body _ =>
      refuse "`always` block without a sensitivity list" body.span
  | .alwaysFf _ _ span => refuse "`always_ff` block" span
  | .alwaysLatch _ span => refuse "`always_latch` block" span
  | .broken span => refuse "malformed module item" span

/- Lowers a module. -/
def circuit
    (decl : Hdl.ModuleDecl) :
    Lower Circuit := do
  modify fun p => { p with scope := {} }
  let pins ← bind decl
  let draft ← decl.items.foldlM item { circuit := { name := decl.name, pins } }
  let scope := (← get).scope
  return { draft.circuit with signals := scope.signals, ranges := scope.ranges }

/- Lowers modules whose names differ. -/
def circuits : List Hdl.ModuleDecl → NameMap Span → Lower (List Circuit)
  | [], _ => return []
  | decl :: rest, seen =>
      match seen.find? decl.name with
      | some previous => fail (.redeclared decl.name decl.span previous)
      | none => do
          let c ← circuit decl
          return c :: (← circuits rest (seen.insert decl.name decl.span))

end Lower

end Gatework

------------------------------------------------------------
-- Sources
------------------------------------------------------------

namespace Gatework

/- The circuits of a source or why there are none. -/
structure Lowered where
  result : Except LowerError (List Circuit)
  findings : Findings
  log : List String

/- Lowers a parsed file; one with errors is not lowered. -/
def lowerParsed
    (options : LowerOptions)
    (sources : Sources)
    (parsed : Hdl.Parsed Hdl.File) :
    Lowered :=
  if parsed.findings.hasErrors then
    ⟨.error (.notParsed parsed.findings.errorCount), parsed.findings, []⟩
  else
    let start : Progress := { findings := parsed.findings }
    let (result, progress) :=
      (((Lower.circuits parsed.tree.modules NameMap.empty).run
        ⟨options, sources⟩).run).run start
    ⟨result, progress.findings, progress.log⟩

/- Reads and lowers a source file. -/
def lowerSource
    (options : LowerOptions)
    (file : SourceFile) :
    Lowered :=
  lowerParsed options [file] (Hdl.parseFile 0 file)

theorem lowerSource_spelled
    (options : LowerOptions)
    (file : SourceFile)
    {cs : List Char}
    (hText : file.text = String.ofList cs) :
    lowerSource options file =
      lowerParsed options [file]
        (Hdl.parseLexed Hdl.Parse.file
          (Hdl.tokensAt (some 0) 0 (Hdl.pieces cs))) := by
  rw [lowerSource, Hdl.parseFile_spelled 0 file hText]

end Gatework
