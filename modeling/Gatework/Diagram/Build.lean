import Gatework.Digest
import Gatework.Diagram.Basic
import Gatework.Expr.Measures

/-
  Diagrams of expressions, their canonical text and digest.

  A signal of one bit is one test; bit `i` of a wider signal
  is a test of its own, named with the index in brackets.

  Key definitions include:
    * `DiagramError`
    * `Forest.build`
    * `Expr.bitVariables`
    * `Explanation`
    * `Expr.explainLogic`
-/

------------------------------------------------------------
-- Errors
------------------------------------------------------------

namespace Gatework

/- Why an expression has no diagram. -/
inductive DiagramError where
  | operandBits (node : String) (a b : Nat)
  | selectorBits (bits : Nat)
  | bitOutside (index bits : Nat)
  | partOutside (msb lsb bits : Nat)
  | unknownVariable (name : String)
deriving DecidableEq, Repr, Inhabited

namespace DiagramError

/- A disagreement of widths at a kind of node. -/
def widthText
    (node detail : String) :
    String :=
  "width mismatch in " ++ node ++ ": " ++ detail

def message : DiagramError → String
  | operandBits node a b =>
      widthText node
        (toString a ++ " bits against " ++ toString b ++ " bits")
  | selectorBits n =>
      widthText "Mux" ("selector is " ++ toString n ++ " bits wide")
  | bitOutside i n =>
      widthText "BitSelect"
        ("index " ++ toString i ++ " outside " ++ toString n ++
          " bits")
  | partOutside m l n =>
      widthText "PartSelect"
        ("[" ++ toString m ++ ":" ++ toString l ++ "] outside " ++
          toString n ++ " bits")
  | unknownVariable name =>
      "variable `" ++ name ++ "` is not in the variable order"

end DiagramError

end Gatework

------------------------------------------------------------
-- Construction
------------------------------------------------------------

namespace Gatework

/- The name of the test for one bit of a wider signal. -/
def bitName
    (name : String)
    (i : Nat) :
    String :=
  name ++ "[" ++ toString i ++ "]"

/-
  Steps that make nodes and may fail. Nodes made before a
  failure stay in the forest.
-/
abbrev Building := ExceptT DiagramError (StateM Forest)

namespace Building

/- A step that cannot fail. -/
def step
    (f : Forest → Ref × Forest) :
    Building Ref :=
  fun forest =>
    let (r, forest) := f forest
    (.ok r, forest)

/- The test of one signal. -/
def test
    (name : String) :
    Building Ref :=
  fun forest =>
    match forest.level? name with
    | none => (.error (.unknownVariable name), forest)
    | some level =>
        let (r, forest) := forest.makeNode level Ref.zero Ref.one
        (.ok r, forest)

/- A gate on two diagrams. -/
def gate
    (op : GateOp)
    (x y : Ref) :
    Building Ref :=
  match op with
  | .and => step fun forest => forest.and x y
  | .or => step fun forest => forest.or x y
  | .xor => step fun forest => forest.xor x y
  | .xnor => do
      let r ← step fun forest => forest.xor x y
      step fun forest => forest.not r
  | .nand => do
      let r ← step fun forest => forest.and x y
      step fun forest => forest.not r
  | .nor => do
      let r ← step fun forest => forest.or x y
      step fun forest => forest.not r

/- The same step on corresponding bits, lowest first. -/
def zipBits
    (f : Ref → Ref → Building Ref) :
    List Ref → List Ref → Building (List Ref)
  | x :: xs, y :: ys => do
      let r ← f x y
      let rs ← zipBits f xs ys
      return r :: rs
  | _, _ => return []

/- The same step on every bit, lowest first. -/
def mapBits
    (f : Ref → Building Ref) :
    List Ref → Building (List Ref)
  | [] => return []
  | x :: xs => do
      let r ← f x
      let rs ← mapBits f xs
      return r :: rs

/- Two lists have one length. -/
def checkBits
    (node : String)
    (xs ys : List Ref) :
    Building Unit :=
  if xs.length = ys.length then return ()
  else throw (.operandBits node xs.length ys.length)

/- All corresponding bits agree, and so does `acc`. -/
def agree
    (acc : Ref) :
    List Ref → List Ref → Building Ref
  | x :: xs, y :: ys => do
      let d ← step fun forest => forest.xor x y
      let e ← step fun forest => forest.not d
      let acc' ← step fun forest => forest.and acc e
      agree acc' xs ys
  | _, _ => return acc

/- The tests of a signal, lowest bit first. -/
def signal
    (v : Var) :
    Building (List Ref) :=
  if v.width = 1 then do
    let r ← test v.name
    return [r]
  else
    (List.range v.width).mapM fun i => test (bitName v.name i)

end Building

namespace Expr

open Building in
mutual

/- The diagrams of an expression, lowest bit first. -/
def diagrams : Expr → Building (List Ref)
  | const _ c =>
      return (List.range c.width).map fun i =>
        Ref.ofBool (c.bitAt i)
  | var _ v => signal v
  | not _ x => do
      let bits ← diagrams x
      mapBits (fun b => step fun forest => forest.not b) bits
  | gate _ op a b => do
      let xs ← diagrams a
      let ys ← diagrams b
      checkBits op.kind xs ys
      zipBits (Building.gate op) xs ys
  | compare _ op a b => do
      let xs ← diagrams a
      let ys ← diagrams b
      checkBits op.kind xs ys
      let same ← agree Ref.one xs ys
      match op with
      | .eq => return [same]
      | .neq =>
          let r ← step fun forest => forest.not same
          return [r]
  | mux _ s t f => do
      let selector ← diagrams s
      match selector with
      | [c] =>
          let xs ← diagrams t
          let ys ← diagrams f
          checkBits "Mux" xs ys
          zipBits (fun x y => step fun forest => forest.ite c x y)
            xs ys
      | _ => throw (.selectorBits selector.length)
  | bit _ b i => do
      let bits ← diagrams b
      match bits[i]? with
      | some r => return [r]
      | none => throw (.bitOutside i bits.length)
  | part _ b m l => do
      let bits ← diagrams b
      if max m l < bits.length then
        return (bits.drop (min m l)).take (max m l - min m l + 1)
      else
        throw (.partOutside m l bits.length)
  | concat _ parts => diagramsAll parts

/- The diagrams of parts, the last part first. -/
def diagramsAll : List Expr → Building (List Ref)
  | [] => return []
  | p :: ps => do
      let low ← diagramsAll ps
      let high ← diagrams p
      return low ++ high

end

end Expr

namespace Forest

/-
  Adds the diagrams of an expression to a forest. The forest
  may have grown even if there is an error.
-/
def build
    (forest : Forest)
    (e : Expr) :
    Except DiagramError (List Ref) × Forest :=
  e.diagrams forest

/- Adds the test of one signal. -/
def var
    (forest : Forest)
    (name : String) :
    Except DiagramError Ref × Forest :=
  Building.test name forest

end Forest

end Gatework

------------------------------------------------------------
-- Canonical text
------------------------------------------------------------

namespace Gatework

namespace Expr

/- The names of the tests an expression needs, ascending. -/
def bitVariables
    (e : Expr) :
    List String :=
  sortedNames (e.freeVars.flatMap fun v =>
    if v.width = 1 then [v.name]
    else (List.range v.width).map fun i => bitName v.name i)

end Expr

/- The canonical text of a function, its digest and order. -/
structure Explanation where
  canonical : String
  digest : Digest
  order : List String
deriving DecidableEq, Repr, Inhabited

namespace Expr

/-
  The canonical text under a given order of tests, with the
  digest that a function of texts gives it.
-/
def explainLogicBy
    (digest : String → Digest)
    (e : Expr)
    (order : List String) :
    Except DiagramError Explanation :=
  match (Forest.ofOrder order).build e with
  | (.error err, _) => .error err
  | (.ok bits, forest) =>
      let canonical := forest.renderBits bits
      .ok ⟨canonical, digest canonical, order⟩

def explainLogicWith
    (e : Expr)
    (order : List String) :
    Except DiagramError Explanation :=
  e.explainLogicBy Digest.ofText order

/- The canonical text under the ascending order of tests. -/
def explainLogic
    (e : Expr) :
    Except DiagramError Explanation :=
  e.explainLogicWith e.bitVariables

end Expr

end Gatework
