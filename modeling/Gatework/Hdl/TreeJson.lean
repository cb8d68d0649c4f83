import Gatework.Hdl.Tree
import Gatework.Json.Basic
import Gatework.NameTable

/-
  Trees of sources as JSON.

  A form with fields is an object with one member, named for
  the form; a form without fields is a string. Names are
  written as their numbers.

  Key definitions include:
    * `Hdl.Expr.toJson`
    * `Hdl.Stmt.toJson`
    * `Hdl.File.toJson`
-/

------------------------------------------------------------
-- Parts
------------------------------------------------------------

namespace Gatework.Hdl

namespace TreeJson

/- The number that stands for a span without a file. -/
def noFile : Nat :=
  (1 <<< 32) - 1

/- A place is told by its file and offsets, never by lines. -/
def span
    (s : Span) :
    Json :=
  .obj [("file", .ofNat (s.file.getD noFile)), ("start", .ofNat s.start),
    ("end", .ofNat s.stop)]

/- A form with its fields, of which the last is its place. -/
def form
    (name : String)
    (fields : List (String × Json))
    (s : Span) :
    Json :=
  .obj [(name, .obj (fields ++ [("span", span s)]))]

/- A value or null. -/
def optional
    {α : Type}
    (f : α → Json) :
    Option α → Json
  | none => .null
  | some a => f a

/- The number of a name. -/
def name
    (table : NameTable)
    (s : String) :
    Json :=
  optional Json.ofNat (table.number? s)

def names
    (table : NameTable)
    (ss : List String) :
    Json :=
  .arr (ss.map (name table))

/-
  The digits of a literal are not written: its place finds
  them in the source.
-/
def literalKind : LiteralKind → String
  | .int => "Int"
  | .based => "Based"
  | .fill => "Fill"

/- Operators are told by what they do, not by their signs. -/
def unaryOp : UnaryOp → String
  | .logNot => "LogNot"
  | .bitNot => "BitNot"
  | .redAnd => "RedAnd"
  | .redNand => "RedNand"
  | .redOr => "RedOr"
  | .redNor => "RedNor"
  | .redXor => "RedXor"
  | .redXnor => "RedXnor"

def binaryOp : BinaryOp → String
  | .eq => "Eq"
  | .neq => "Neq"
  | .logAnd => "LogAnd"
  | .logOr => "LogOr"
  | .bitAnd => "BitAnd"
  | .bitOr => "BitOr"
  | .bitXor => "BitXor"
  | .bitXnor => "BitXnor"

def edge : Edge → String
  | .posedge => "Posedge"
  | .negedge => "Negedge"

def caseKind : CaseKind → String
  | .exact => "Case"
  | .casez => "Casez"
  | .casex => "Casex"

def direction : Direction → String
  | .input => "Input"
  | .output => "Output"
  | .inout => "Inout"

/-
  A declaration without a kind of net still has a name for it.
-/
def netKind : NetKind → String
  | .wire => "Wire"
  | .logic => "Logic"
  | .reg => "Reg"
  | .implicit => "Implicit"

end TreeJson

end Gatework.Hdl

------------------------------------------------------------
-- Expressions
------------------------------------------------------------

namespace Gatework.Hdl

open TreeJson

namespace Expr

variable (table : NameTable)

mutual

def toJson : Expr → Json
  | name n s => form "Identifier" [("name", TreeJson.name table n)] s
  | literal k _ s => form "Literal" [("kind", .str (literalKind k))] s
  | index b i s => form "Index" [("base", toJson b), ("index", toJson i)] s
  | slice b m l s =>
      form "RangeSelect"
        [("base", toJson b), ("msb", toJson m), ("lsb", toJson l)] s
  | concat es s => form "Concat" [("elements", .arr (toJsonAll es))] s
  | replicate c es s =>
      form "Repeat" [("count", toJson c), ("elements", .arr (toJsonAll es))] s
  | unary op x s =>
      form "Unary" [("op", .str (unaryOp op)), ("operand", toJson x)] s
  | binary a op b s =>
      form "Binary"
        [("left", toJson a), ("op", .str (binaryOp op)), ("right", toJson b)] s
  | ternary c t f s =>
      form "Ternary"
        [("condition", toJson c), ("then_expr", toJson t),
          ("else_expr", toJson f)] s
  | paren x s => form "Paren" [("inner", toJson x)] s
  -- A placeholder has no fields, only a place.
  | broken s => .obj [("Error", TreeJson.span s)]

def toJsonAll : List Expr → List Json
  | [] => []
  | e :: es => toJson e :: toJsonAll es

end

end Expr

end Gatework.Hdl

------------------------------------------------------------
-- Statements
------------------------------------------------------------

namespace Gatework.Hdl

open TreeJson

namespace Sensitivity

variable (table : NameTable)

/- An event of any edge has null for it. -/
def eventJson
    (e : Event) :
    Json :=
  .obj
    [("edge", optional (fun k => .str (edge k)) e.edge),
      ("signal", e.signal.toJson table), ("span", TreeJson.span e.span)]

def toJson : Sensitivity → Json
  | star => .str "Star"
  | events items => .obj [("List", .arr (items.map (eventJson table)))]

end Sensitivity

namespace Stmt

variable (table : NameTable)

mutual

def toJson : Stmt → Json
  | blocking t v s =>
      form "Blocking" [("target", t.toJson table), ("value", v.toJson table)] s
  | nonBlocking t v s =>
      form "NonBlocking"
        [("target", t.toJson table), ("value", v.toJson table)] s
  | block label ss s =>
      form "Block"
        [("label", optional (TreeJson.name table) label),
          ("stmts", .arr (toJsonAll ss))] s
  -- Both kinds of `if` are one form, which may lack a branch.
  | ifThen c t s =>
      form "If"
        [("condition", c.toJson table), ("then_stmt", toJson t),
          ("else_stmt", .null)] s
  | ifElse c t e s =>
      form "If"
        [("condition", c.toJson table), ("then_stmt", toJson t),
          ("else_stmt", toJson e)] s
  | case k x arms s =>
      form "Case"
        [("kind", .str (caseKind k)), ("expr", x.toJson table),
          ("arms", .arr (toJsonArms arms))] s
  | onEvent v b s =>
      form "EventControl"
        [("sensitivity", v.toJson table), ("body", toJson b)] s
  | empty s => .obj [("Null", TreeJson.span s)]
  | broken s => .obj [("Error", TreeJson.span s)]

def toJsonAll : List Stmt → List Json
  | [] => []
  | s :: ss => toJson s :: toJsonAll ss

def toJsonArms : List (CaseArm Stmt) → List Json
  | [] => []
  | ⟨labels, isDefault, body, s⟩ :: arms =>
      .obj
        [("patterns", .arr (labels.map fun e => e.toJson table)),
          ("is_default", .bool isDefault), ("body", toJson body),
          ("span", TreeJson.span s)] ::
        toJsonArms arms

end

end Stmt

end Gatework.Hdl

------------------------------------------------------------
-- Modules
------------------------------------------------------------

namespace Gatework.Hdl

open TreeJson

variable (table : NameTable)

/-
  Bounds are trees, not numbers: what they are worth is found
  out when the module is lowered.
-/
def Range.toJson
    (r : Range) :
    Json :=
  .obj [("msb", r.msb.toJson table), ("lsb", r.lsb.toJson table),
    ("span", TreeJson.span r.span)]

def PinDecl.toJson
    (p : PinDecl) :
    Json :=
  .obj
    [("direction", .str (TreeJson.direction p.direction)), ("net", .str (netKind p.net)),
      ("signed", .bool p.signed), ("range", optional (Range.toJson table) p.range),
      ("names", TreeJson.names table p.names), ("span", TreeJson.span p.span)]

def DeclName.toJson
    (n : DeclName) :
    Json :=
  .obj
    [("name", TreeJson.name table n.name),
      ("init", optional (fun e => e.toJson table) n.init),
      ("span", TreeJson.span n.span)]

/-
  Placeholders of any kind are told as errors with the place
  that was skipped.
-/
def Item.toJson : Item → Json
  | .net d =>
      form "NetDecl"
        [("net", .str (netKind d.net)), ("signed", .bool d.signed),
          ("range", optional (Range.toJson table) d.range),
          ("names", .arr (d.names.map (DeclName.toJson table)))] d.span
  | .pins d => .obj [("PortDecl", d.toJson table)]
  | .assign t v s =>
      form "ContinuousAssign"
        [("target", t.toJson table), ("value", v.toJson table)] s
  | .always b s => form "AlwaysBlock" [("body", b.toJson table)] s
  | .alwaysComb b s => form "AlwaysComb" [("body", b.toJson table)] s
  | .alwaysFf v b s =>
      form "AlwaysFf"
        [("sensitivity", v.toJson table), ("body", b.toJson table)] s
  | .alwaysLatch b s => form "AlwaysLatch" [("body", b.toJson table)] s
  | .broken s => .obj [("Error", TreeJson.span s)]

/- The style of a head, its pins and its names. -/
def Header.fields : Header → List (String × Json)
  | .declared pins =>
      [("port_style", .str "Ansi"), ("port_names", .arr []),
        ("ports", .arr (pins.map (PinDecl.toJson table)))]
  | .named listed =>
      [("port_style", .str "NonAnsi"), ("ports", .arr []),
        ("port_names", TreeJson.names table listed)]
  | .empty =>
      [("port_style", .str "Empty"), ("ports", .arr []),
        ("port_names", .arr [])]

/-
  All three styles of a head have the same members, so the
  lists that a style has no use for are empty.
-/
def TopItem.toJson : TopItem → Json
  | .decl m =>
      form "Module"
        (("name", TreeJson.name table m.name) ::
          ("items", .arr (m.items.map (Item.toJson table))) ::
          m.header.fields table) m.span
  | .broken s => .obj [("Error", TreeJson.span s)]

def File.toJson
    (f : File) :
    Json :=
  .obj [("items", .arr (f.items.map (TopItem.toJson table))),
    ("span", TreeJson.span f.span)]

end Gatework.Hdl
