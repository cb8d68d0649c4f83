import Gatework.NameMap
import Gatework.Expr.Equality

/-
  What an expression reads and how large it is.

  Key definitions include:
    * `VarSet` and `Expr.freeVars`
    * `Expr.depth`
    * `Expr.gateCounts`, `Expr.gateCount` and
      `Expr.gateSummary`
    * `Expr.literals`
    * `Expr.isPrimitive`
-/

------------------------------------------------------------
-- Sets of signals
------------------------------------------------------------

namespace Gatework

/-
  Signals in ascending order of names, one for each name.
-/
abbrev VarSet := List Var

namespace VarSet

def insert
    (vs : VarSet)
    (v : Var) :
    VarSet :=
  insertOrdered (fun a b => decide (a.name < b.name)) v vs

/- Both sets; for a name in both, the signal of the first. -/
def union
    (vs ws : VarSet) :
    VarSet :=
  ws.foldl insert vs

def hasName
    (vs : VarSet)
    (name : String) :
    Bool :=
  vs.any fun v => v.name == name

/- The signals of the first set whose names are in both. -/
def inter
    (vs ws : VarSet) :
    VarSet :=
  vs.filter fun v => ws.hasName v.name

def names
    (vs : VarSet) :
    List String :=
  vs.map Var.name

end VarSet

namespace Expr

mutual

/- The signals read, each with the width it first has. -/
def freeVars : Expr → VarSet
  | const _ _ => []
  | var _ v => [v]
  | not _ x => freeVars x
  | gate _ _ a b => (freeVars a).union (freeVars b)
  | compare _ _ a b => (freeVars a).union (freeVars b)
  | mux _ s t f =>
      ((freeVars s).union (freeVars t)).union (freeVars f)
  | bit _ b _ => freeVars b
  | part _ b _ _ => freeVars b
  | concat _ parts => freeVarsAll [] parts

def freeVarsAll
    (seen : VarSet) :
    List Expr → VarSet
  | [] => seen
  | p :: ps => freeVarsAll (seen.union (freeVars p)) ps

end

end Expr

end Gatework

------------------------------------------------------------
-- Depth
------------------------------------------------------------

namespace Gatework

namespace Expr

mutual

/- The number of nodes above the deepest leaf. -/
def depth : Expr → Nat
  | const _ _ => 0
  | var _ _ => 0
  | not _ x => depth x + 1
  | gate _ _ a b => max (depth a) (depth b) + 1
  | compare _ _ a b => max (depth a) (depth b) + 1
  | mux _ s t f => max (depth s) (max (depth t) (depth f)) + 1
  | bit _ b _ => depth b + 1
  | part _ b _ _ => depth b + 1
  | concat _ parts => depthAll parts

/- One more than the depth of the deepest part, if any. -/
def depthAll : List Expr → Nat
  | [] => 0
  | p :: ps => max (depth p + 1) (depthAll ps)

end

end Expr

end Gatework

------------------------------------------------------------
-- Gates
------------------------------------------------------------

namespace Gatework

namespace Expr

/- The name of the root as a gate, if it counts as one. -/
def gateName? : Expr → Option String
  | not _ _ => some "NOT"
  | gate _ op _ _ => some op.name
  | compare _ op _ _ => some op.name
  | mux _ _ _ _ => some "MUX"
  | _ => none

mutual

/-
  Adds the subexpressions of a tree that equal none found so
  far. Below a tree found before there is nothing new.
-/
def collect
    (seen : List Expr)
    (e : Expr) :
    List Expr :=
  if seen.any e.same then
    seen
  else
    match e with
    | const m c => const m c :: seen
    | var m v => var m v :: seen
    | not m x => collect (not m x :: seen) x
    | gate m op a b =>
        collect (collect (gate m op a b :: seen) a) b
    | compare m op a b =>
        collect (collect (compare m op a b :: seen) a) b
    | mux m s t f =>
        collect (collect (collect (mux m s t f :: seen) s) t) f
    | bit m b i => collect (bit m b i :: seen) b
    | part m b h l => collect (part m b h l :: seen) b
    | concat m parts => collectAll (concat m parts :: seen) parts

def collectAll
    (seen : List Expr)
    (parts : List Expr) :
    List Expr :=
  match parts with
  | [] => seen
  | p :: ps => collectAll (collect seen p) ps

end

/- Names of gates in the order reports list them. -/
def gateNames : List String :=
  ["AND", "EQ", "MUX", "NAND", "NEQ", "NOR", "NOT", "OR",
    "XNOR", "XOR"]

/-
  How many different gates of each name an expression has.
  Names without a gate are left out.
-/
def gateCounts
    (e : Expr) :
    List (String × Nat) :=
  let found := (collect [] e).filterMap gateName?
  (gateNames.map fun name => (name, found.count name)).filter
    fun entry => entry.2 != 0

/- The number of different gates. -/
def gateCount
    (e : Expr) :
    Nat :=
  (e.gateCounts.map Prod.snd).foldl (· + ·) 0

/- The counts of gates on one line. -/
def gateSummary
    (e : Expr) :
    String :=
  String.intercalate ", "
    (e.gateCounts.map fun entry =>
      entry.1 ++ ":" ++ toString entry.2)

end Expr

end Gatework

------------------------------------------------------------
-- Literals
------------------------------------------------------------

namespace Gatework

namespace Expr

/- The bit that a leaf or bit select stands for. -/
def literalBit? : Expr → Option Nat
  | bit _ _ i => some i
  | var _ v => if v.width = 1 then some 0 else none
  | _ => none

/- The literals of a product, negated ones marked `true`. -/
def productLiterals : Expr → List (Nat × Bool)
  | gate _ .and a b => productLiterals a ++ productLiterals b
  | not _ x => (literalBit? x).toList.map fun i => (i, true)
  | e => (literalBit? e).toList.map fun i => (i, false)

/- Order by bit, a plain literal before a negated one. -/
def literalLess
    (x y : Nat × Bool) :
    Bool :=
  decide (x.1 < y.1) || x.1 == y.1 && (!x.2 && y.2)

/- The literals of a product as an ascending set. -/
def literals
    (e : Expr) :
    List (Nat × Bool) :=
  sortedSet literalLess e.productLiterals

/- Built from signals, bits of signals, AND, OR and NOT. -/
def isPrimitive : Expr → Bool
  | const _ _ => true
  | var _ _ => true
  | bit _ b _ => b.asVar?.isSome
  | not _ x => isPrimitive x
  | gate _ .and a b => isPrimitive a && isPrimitive b
  | gate _ .or a b => isPrimitive a && isPrimitive b
  | _ => false

end Expr

end Gatework
