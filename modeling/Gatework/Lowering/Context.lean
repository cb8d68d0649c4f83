import Gatework.Circuit
import Gatework.Expr.Stamp
import Gatework.Lowering.Error
import Gatework.Source.File

/-
  What lowering knows and what it notes on its way.

  Declared signals are known by name. A name that was not
  declared is a net of one bit, which is reported once, or an
  error when names are strict.

  Key definitions include:
    * `LowerOptions`
    * `Scope`
    * `Lower`
    * `Lower.lookup` and `Lower.literal`
-/

------------------------------------------------------------
-- States
------------------------------------------------------------

namespace Gatework

/- How names, unknown digits and open branches are taken. -/
structure LowerOptions where
  strictNames : Bool := false
  strictLiterals : Bool := false
  fallback : Fallback := .zero
deriving DecidableEq, Repr, Inhabited

/- The options and the sources that spans point into. -/
structure Setting where
  options : LowerOptions
  sources : Sources
deriving Repr, Inhabited

/-
  The declared signals of a module: their bounds, where they
  were declared, and the undeclared names used so far.
-/
structure Scope where
  signals : NameMap Var := NameMap.empty
  ranges : NameMap (Nat × Nat) := NameMap.empty
  places : NameMap Span := NameMap.empty
  implicit : List String := []
deriving Repr, Inhabited

/- The scope, the next mark, the findings and the log. -/
structure Progress where
  scope : Scope := {}
  marks : Nat := 0
  findings : Findings := {}
  log : List String := []
deriving Repr, Inhabited

/- Lowering reads a setting, goes on or fails, and notes. -/
abbrev Lower := ReaderT Setting (ExceptT LowerError (StateM Progress))

namespace Lower

def fail
    {α : Type}
    (e : LowerError) :
    Lower α :=
  throw e

/- Stops at a construct outside the language. -/
def refuse
    {α : Type}
    (what : String)
    (span : Span) :
    Lower α :=
  throw (.unsupported what span)

/- Goes on with a checked result. -/
def checked
    {α : Type}
    (r : Except Flaw α) :
    Lower α :=
  match r with
  | .ok a => return a
  | .error f => throw (.flaw f)

def log
    (message : String) :
    Lower Unit :=
  modify fun p => { p with log := p.log ++ [message] }

/- Reports a warning and logs its message. -/
def warn
    (d : Diagnostic) :
    Lower Unit := do
  log d.message
  modify fun p => { p with findings := p.findings.report d }

/- The text of a span. -/
def textOf
    (span : Span) :
    Lower String :=
  return (← read).sources.snippet span

/- Runs a computation on marks. -/
def stamping
    {α : Type}
    (m : Stamping α) :
    Lower α :=
  modifyGet fun p =>
    let (a, marks) := m.run p.marks
    (a, { p with marks })

/- An expression with a mark on every node. -/
def keep
    (e : Expr) :
    Lower Expr :=
  stamping e.stamp

/- A node that passes its check, with a mark. -/
def node
    (e : Expr) :
    Lower Expr := do
  keep (← checked e.make)

end Lower

end Gatework

------------------------------------------------------------
-- Names and literals
------------------------------------------------------------

namespace Gatework

namespace Lower

/- Declares a signal unless its name is taken. -/
def declare
    (v : Var)
    (range : Option (Nat × Nat))
    (span : Span) :
    Lower Unit := do
  let scope := (← get).scope
  match scope.places.find? v.name with
  | some previous => fail (.redeclared v.name span previous)
  | none =>
      let ranges :=
        match range with
        | some r => scope.ranges.insert v.name r
        | none => scope.ranges
      modify fun p =>
        { p with
          scope :=
            { scope with
              signals := scope.signals.insert v.name v
              ranges
              places := scope.places.insert v.name span } }

/- Reports an undeclared name the first time it is used. -/
def assume
    (name : String)
    (span : Span) :
    Lower Unit := do
  let scope := (← get).scope
  if name ∈ scope.implicit then
    return ()
  else
    modify fun p =>
      { p with scope := { scope with implicit := name :: scope.implicit } }
    warn (.warning 200
      ("`" ++ name ++ "` is not declared; treating it as a 1-bit net") span)

/- The signal a name refers to. -/
def lookup
    (name : String)
    (span : Span) :
    Lower Var := do
  match (← get).scope.signals.find? name with
  | some v => return v
  | none =>
      if (← read).options.strictNames then
        fail (.unknownName name span)
      else
        assume name span
        return Var.scalar name

/- The low bound of a vector, 0 for a single bit. -/
def lowBound
    (name : String) :
    Lower Nat :=
  return match (← get).scope.ranges.find? name with
    | some (msb, lsb) => min msb lsb
    | none => 0

/- Reads a literal and logs it if bits are cut off. -/
def literal
    (kind : Hdl.LiteralKind)
    (text : String)
    (span : Span) :
    Lower Hdl.Literal := do
  match Hdl.Literal.read kind (← read).options.strictLiterals text with
  | .error f => fail (.ofLiteral text span f)
  | .ok l =>
      if l.isTruncated then
        log ("literal `" ++ text ++ "` truncated to "
          ++ toString l.width ++ " bits")
      return l

end Lower

end Gatework
