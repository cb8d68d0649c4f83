import Gatework.Expr.Measures
import Gatework.Stmt.Basic

/-
  What a statement reads and writes, and the measures of its
  tree.

  Key definitions include:
    * `Stmt.reads`, signals read
    * `Stmt.writes`, signals written on some path
    * `Stmt.mustWrites`, signals written on every path
    * `Stmt.size` and `Stmt.mustSize`
    * `Stmt.depth` and `Stmt.delay`
-/

------------------------------------------------------------
-- Reads
------------------------------------------------------------

namespace Gatework

namespace Stmt

mutual

/-
  The signals read. An assignment reads its right-hand side
  only; conditions and selectors are read.
-/
def reads : Stmt → VarSet
  | assign a => a.value.freeVars
  | ifThen c t => c.freeVars.union (reads t)
  | ifElse c t e => (c.freeVars.union (reads t)).union (reads e)
  | case s arms => readsArms s.freeVars arms
  | block ss => readsAll [] ss

def readsAll
    (seen : VarSet) :
    List Stmt → VarSet
  | [] => seen
  | s :: ss => readsAll (seen.union (reads s)) ss

def readsArms
    (seen : VarSet) :
    List (Arm Stmt) → VarSet
  | [] => seen
  | ⟨_, _, s⟩ :: arms => readsArms (seen.union (reads s)) arms

end

end Stmt

end Gatework

------------------------------------------------------------
-- Writes
------------------------------------------------------------

namespace Gatework

namespace Stmt

mutual

/- The signals written on at least one path. -/
def writes : Stmt → VarSet
  | assign a => [a.var]
  | ifThen _ t => writes t
  | ifElse _ t e => (writes t).union (writes e)
  | case _ arms => writesArms [] arms
  | block ss => writesAll [] ss

def writesAll
    (seen : VarSet) :
    List Stmt → VarSet
  | [] => seen
  | s :: ss => writesAll (seen.union (writes s)) ss

def writesArms
    (seen : VarSet) :
    List (Arm Stmt) → VarSet
  | [] => seen
  | ⟨_, _, s⟩ :: arms => writesArms (seen.union (writes s)) arms

end

/-
  What a case surely writes, given what the first default
  and each labelled arm surely write: what every labelled arm
  writes, and what the default and some labelled arm write.
  Without a default nothing is sure.
-/
def mustOfCase
    (default? : Option VarSet)
    (labelled : List VarSet) :
    VarSet :=
  match default?, labelled with
  | none, _ => []
  | some d, [] => d
  | some d, first :: rest =>
      (rest.foldl VarSet.inter first).union
        (d.inter (rest.foldl VarSet.union first))

mutual

/- The signals written on every path. -/
def mustWrites : Stmt → VarSet
  | assign a => [a.var]
  | ifThen _ _ => []
  | ifElse _ t e => (mustWrites t).inter (mustWrites e)
  | case _ arms =>
      mustOfCase (mustDefault arms) (mustLabelled arms)
  | block ss => mustWritesAll [] ss

def mustWritesAll
    (seen : VarSet) :
    List Stmt → VarSet
  | [] => seen
  | s :: ss => mustWritesAll (seen.union (mustWrites s)) ss

/- What the first default arm surely writes. -/
def mustDefault : List (Arm Stmt) → Option VarSet
  | [] => none
  | ⟨_, d, s⟩ :: arms =>
      if d then some (mustWrites s) else mustDefault arms

/- What each labelled arm surely writes. -/
def mustLabelled : List (Arm Stmt) → List VarSet
  | [] => []
  | ⟨_, d, s⟩ :: arms =>
      if d then mustLabelled arms
      else mustWrites s :: mustLabelled arms

end

end Stmt

end Gatework

------------------------------------------------------------
-- Sizes
------------------------------------------------------------

namespace Gatework

namespace Stmt

mutual

/- The number of statements in a tree. -/
def size : Stmt → Nat
  | assign _ => 1
  | ifThen _ t => size t + 1
  | ifElse _ t e => size t + size e + 1
  | case _ arms => sizeArms arms + 1
  | block ss => sizeAll ss + 1

def sizeAll : List Stmt → Nat
  | [] => 0
  | s :: ss => size s + sizeAll ss

def sizeArms : List (Arm Stmt) → Nat
  | [] => 0
  | ⟨_, _, s⟩ :: arms => size s + sizeArms arms

end

mutual

/-
  The number of statements that decide what is surely
  written. An `if` without `else` and a case without default
  decide it without looking further.
-/
def mustSize : Stmt → Nat
  | assign _ => 1
  | ifThen _ _ => 1
  | ifElse _ t e => mustSize t + mustSize e + 1
  | case _ arms =>
      match mustSizeDefault arms with
      | none => 1
      | some n => n + mustSizeLabelled arms + 1
  | block ss => mustSizeAll ss + 1

def mustSizeAll : List Stmt → Nat
  | [] => 0
  | s :: ss => mustSize s + mustSizeAll ss

def mustSizeDefault : List (Arm Stmt) → Option Nat
  | [] => none
  | ⟨_, d, s⟩ :: arms =>
      if d then some (mustSize s) else mustSizeDefault arms

def mustSizeLabelled : List (Arm Stmt) → Nat
  | [] => 0
  | ⟨_, d, s⟩ :: arms =>
      if d then mustSizeLabelled arms
      else mustSize s + mustSizeLabelled arms

end

end Stmt

end Gatework

------------------------------------------------------------
-- Depth and delay
------------------------------------------------------------

namespace Gatework

namespace Stmt

mutual

/- The number of nodes above the deepest leaf. -/
def depth : Stmt → Nat
  | assign a => a.value.depth + 1
  | ifThen c t => max c.depth (depth t) + 1
  | ifElse c t e => max c.depth (max (depth t) (depth e)) + 1
  | case s arms => max s.depth (depthArms arms) + 1
  | block ss => depthAll ss

/- One more than the depth of the deepest statement, if any. -/
def depthAll : List Stmt → Nat
  | [] => 0
  | s :: ss => max (depth s + 1) (depthAll ss)

/- The depth of the deepest arm, each one above its body. -/
def depthArms : List (Arm Stmt) → Nat
  | [] => 0
  | ⟨_, _, s⟩ :: arms => max (depth s + 1) (depthArms arms)

end

mutual

/- The gates on the longest path, branches counting as one. -/
def delay : Stmt → Nat
  | assign a => a.value.depth
  | ifThen c t => max c.depth (delay t) + 1
  | ifElse c t e => max c.depth (max (delay t) (delay e)) + 1
  | case s arms => max s.depth (delayArms arms) + 1
  | block ss => delayAll ss

def delayAll : List Stmt → Nat
  | [] => 0
  | s :: ss => max (delay s) (delayAll ss)

/- The delay of the slowest arm, each one above its body. -/
def delayArms : List (Arm Stmt) → Nat
  | [] => 0
  | ⟨_, _, s⟩ :: arms => max (delay s + 1) (delayArms arms)

end

end Stmt

end Gatework
