import Std.Data.HashMap

/-
  Reduced ordered binary decision diagrams.

  A forest holds nodes that several diagrams share. A node
  tests the signal at its level and leads to a low and a high
  node; references 0 and 1 are the two constants. Nodes are
  never made twice, so equal references are equal functions.
  Every operation goes through `ite`, whose results are kept.

  Key definitions include:
    * `Ref`
    * `Forest`
    * `Forest.makeNode`
    * `Forest.ite`
    * `Forest.eval`
    * `Forest.render`
-/

------------------------------------------------------------
-- Forests
------------------------------------------------------------

namespace Gatework

/- A reference to a node of a forest. -/
abbrev Ref := Nat

namespace Ref

/- The diagram of the constant 0. -/
def zero : Ref :=
  0

/- The diagram of the constant 1. -/
def one : Ref :=
  1

def ofBool
    (b : Bool) :
    Ref :=
  if b then one else zero

end Ref

/- A node: the level it tests and where it leads. -/
structure DiagramNode where
  level : Nat
  low : Ref
  high : Ref
deriving DecidableEq, Repr, Inhabited

/-
  Nodes over a fixed order of signals. The first two nodes
  stand for the constants, at a level below every signal.
-/
structure Forest where
  order : List String
  nodes : Array DiagramNode
  unique : Std.HashMap (Nat × Ref × Ref) Ref
  known : Std.HashMap (Ref × Ref × Ref) Ref

namespace Forest

/- The level of the constants. -/
def bottom
    (forest : Forest) :
    Nat :=
  forest.order.length

/- The forest with no node but the constants. -/
def ofOrder
    (order : List String) :
    Forest :=
  ⟨order,
    #[⟨order.length, Ref.zero, Ref.zero⟩,
      ⟨order.length, Ref.one, Ref.one⟩],
    ∅, ∅⟩

/- The number of nodes, constants included. -/
def size
    (forest : Forest) :
    Nat :=
  forest.nodes.size

/- The node of a reference; a constant outside the forest. -/
def node
    (forest : Forest)
    (f : Ref) :
    DiagramNode :=
  forest.nodes.getD f ⟨forest.bottom, f, f⟩

/- The signal at a level. -/
def signal
    (forest : Forest)
    (level : Nat) :
    String :=
  forest.order.getD level ""

/- The last place of a name in a list, counting from `i`. -/
def lastPlace?
    (name : String)
    (i : Nat) :
    List String → Option Nat
  | [] => none
  | n :: ns =>
      match lastPlace? name (i + 1) ns with
      | some j => some j
      | none => if n = name then some i else none

/- The level of a signal. -/
def level?
    (forest : Forest)
    (name : String) :
    Option Nat :=
  lastPlace? name 0 forest.order

/-
  The reference for a test of a level, making a node only if
  both sides differ and there is none yet.
-/
def makeNode
    (forest : Forest)
    (level : Nat)
    (low high : Ref) :
    Ref × Forest :=
  if low = high then
    (low, forest)
  else
    match forest.unique[(level, low, high)]? with
    | some r => (r, forest)
    | none =>
        let r := forest.nodes.size
        (r,
          { forest with
            nodes := forest.nodes.push ⟨level, low, high⟩
            unique := forest.unique.insert (level, low, high) r })

/- The two sides of a diagram at a level at or above it. -/
def cofactors
    (forest : Forest)
    (f : Ref)
    (level : Nat) :
    Ref × Ref :=
  let n := forest.node f
  if n.level = level then (n.low, n.high) else (f, f)

/-
  If `f` then `g` else `h`, with a bound on the number of
  levels left. The low side is made before the high side.
-/
def iteFor : Nat → Forest → Ref → Ref → Ref → Ref × Forest
  | 0, forest, f, _, _ => (f, forest)
  | n + 1, forest, f, g, h =>
      if f = Ref.one then (g, forest)
      else if f = Ref.zero then (h, forest)
      else if g = h then (g, forest)
      else if g = Ref.one ∧ h = Ref.zero then (f, forest)
      else
        match forest.known[(f, g, h)]? with
        | some r => (r, forest)
        | none =>
            let top := min (forest.node f).level
              (min (forest.node g).level (forest.node h).level)
            let fs := forest.cofactors f top
            let gs := forest.cofactors g top
            let hs := forest.cofactors h top
            let (low, forest) := iteFor n forest fs.1 gs.1 hs.1
            let (high, forest) := iteFor n forest fs.2 gs.2 hs.2
            let (r, forest) := forest.makeNode top low high
            (r, { forest with known := forest.known.insert (f, g, h) r })

/- If `f` then `g` else `h`. -/
def ite
    (forest : Forest)
    (f g h : Ref) :
    Ref × Forest :=
  iteFor (forest.bottom + 1) forest f g h

def not
    (forest : Forest)
    (f : Ref) :
    Ref × Forest :=
  forest.ite f Ref.zero Ref.one

def and
    (forest : Forest)
    (f g : Ref) :
    Ref × Forest :=
  forest.ite f g Ref.zero

def or
    (forest : Forest)
    (f g : Ref) :
    Ref × Forest :=
  forest.ite f Ref.one g

/- Exclusive or; the negation of `g` is made first. -/
def xor
    (forest : Forest)
    (f g : Ref) :
    Ref × Forest :=
  let (ng, forest) := forest.not g
  forest.ite f ng g

end Forest

end Gatework

------------------------------------------------------------
-- Reading diagrams
------------------------------------------------------------

namespace Gatework

namespace Forest

/- Follows a diagram down, with a bound on the steps. -/
def evalFor
    (forest : Forest)
    (value : String → Bool) :
    Nat → Ref → Bool
  | 0, f => f == Ref.one
  | n + 1, f =>
      if f < 2 then
        f == Ref.one
      else
        let d := forest.node f
        evalFor forest value n
          (if value (forest.signal d.level) then d.high else d.low)

/- The value of a diagram. -/
def eval
    (forest : Forest)
    (value : String → Bool)
    (f : Ref) :
    Bool :=
  evalFor forest value forest.size f

/- Writes a diagram, with a bound on its height. -/
def renderFor
    (forest : Forest) :
    Nat → Ref → String
  | 0, _ => ""
  | n + 1, f =>
      if f = Ref.zero then "FALSE"
      else if f = Ref.one then "TRUE"
      else
        let d := forest.node f
        "ite(" ++ forest.signal d.level ++ ", " ++
          renderFor forest n d.high ++ ", " ++
          renderFor forest n d.low ++ ")"

/- A diagram as nested tests, the high side first. -/
def render
    (forest : Forest)
    (f : Ref) :
    String :=
  renderFor forest (forest.bottom + 1) f

/- Diagrams of bits, the highest first; one bit stands alone. -/
def renderBits
    (forest : Forest)
    (bits : List Ref) :
    String :=
  match bits with
  | [b] => forest.render b
  | _ =>
      "\x7b" ++
        String.intercalate ", " (bits.reverse.map forest.render) ++
        "\x7d"

end Forest

end Gatework
