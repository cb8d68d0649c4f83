import Gatework.Expr.Stamp
import Gatework.Definitions

/-
  Flattening: the value that each signal has after a process,
  as one expression.

  Statements run one after the other on symbolic values. A
  read of a signal written before sees the written value, and
  a write to some of its bits keeps the others. The branches
  of an `if` chain or a case are merged by priority: the
  first condition that holds wins. A branch that leaves a
  signal alone keeps the value from before the statement, or
  the fallback if there was none.

  Key definitions include:
    * `Slot` and `Slots`
    * `priority`
    * `Flattening.merge`
    * `Stmt.flatten`
-/

------------------------------------------------------------
-- Slots
------------------------------------------------------------

namespace Gatework

/- A written signal, read as a whole, and its value so far. -/
structure Slot where
  whole : Expr
  value : Expr
deriving Repr, Inhabited

/- The signals written so far. -/
abbrev Slots := NameMap Slot

namespace Slots

/- The value of a written signal. -/
def value?
    (slots : Slots)
    (name : String) :
    Option Expr :=
  (slots.find? name).map Slot.value

/- An expression with written signals replaced. -/
def read
    (slots : Slots)
    (e : Expr) :
    Expr :=
  if slots.entries.isEmpty then e else e.subst slots.value?

/- A signal still has the very value it had before. -/
def keeps
    (before : Slots)
    (name : String)
    (slot : Slot) :
    Bool :=
  match before.value? name with
  | some old => old.identical slot.value
  | none => false

/- The signals that an outcome changes, in ascending order. -/
def changed
    (before outcome : Slots) :
    List String :=
  (outcome.entries.filter fun entry => !before.keeps entry.1 entry.2).map
    Prod.fst

/- The signals that some outcome changes, as they come. -/
def changedIn
    (before : Slots)
    (outcomes : List Slots) :
    List String :=
  (outcomes.flatMap before.changed).foldl
    (fun names n => if n ∈ names then names else names ++ [n]) []

end Slots

end Gatework

------------------------------------------------------------
-- Priority
------------------------------------------------------------

namespace Gatework

/- The products of a sum: earlier guards exclude later ones. -/
def products
    (otherwise : Expr) :
    List Expr → List (Expr × Expr × Expr) → List Expr
  | excluded, [] =>
      match Expr.conjAll? excluded with
      | some g => [g.conj otherwise]
      | none => [otherwise]
  | excluded, (c, notC, v) :: rest =>
      let guard := (Expr.conjAll? (excluded ++ [c])).getD c
      guard.conj v :: products otherwise (excluded ++ [notC]) rest

/-
  Guarded values merged so that the first guard that holds
  wins. Vectors are chosen by multiplexers; single bits are a
  sum of products. Each guard comes with its negation.
-/
def priority
    (arms : List (Expr × Expr × Expr))
    (otherwise : Expr) :
    Expr :=
  if 1 < otherwise.width then
    arms.foldr (fun (c, _, v) rest => Expr.choose c v rest) otherwise
  else
    (Expr.disjAll? (products otherwise [] arms)).getD (Expr.ofNat 0 1)

end Gatework

------------------------------------------------------------
-- Flattening
------------------------------------------------------------

namespace Gatework

/- The written signals in order of first write, and marks. -/
structure FlatState where
  order : List String := []
  marks : Nat
deriving Repr, Inhabited

abbrev Flattening := StateM FlatState

namespace Flattening

/- Runs a computation on marks. -/
def stamping
    {α : Type}
    (m : Stamping α) :
    Flattening α :=
  fun s =>
    let (a, marks) := m.run s.marks
    (a, { s with marks })

def stamp
    (e : Expr) :
    Flattening Expr :=
  stamping e.stamp

/- Takes note of a write to a signal. -/
def note
    (name : String) :
    Flattening Unit :=
  modify fun s =>
    if name ∈ s.order then s else { s with order := s.order ++ [name] }

/- The value of a signal that nothing has written. -/
def fallbackValue
    (p : Fallback)
    (whole : Expr) :
    Expr :=
  match p with
  | .zero => Expr.ofNat 0 whole.width
  | .hold => whole

/- The value of a signal before a statement. -/
def prior
    (p : Fallback)
    (slots : Slots)
    (name : String)
    (whole : Expr) :
    Flattening Expr :=
  match slots.value? name with
  | some v => return v
  | none => stamp (fallbackValue p whole)

/- The write of an assignment. -/
def write
    (p : Fallback)
    (a : Assign)
    (slots : Slots) :
    Flattening Slots := do
  let name := a.var.name
  note name
  let whole ← stamp (Expr.ofVar a.var)
  let value ← stamp (slots.read a.value)
  match a.target.field? with
  | none => return slots.insert name ⟨whole, value⟩
  | some low =>
      let old ← prior p slots name whole
      let spliced ← stamp (old.splice low value)
      return slots.insert name ⟨whole, spliced⟩

/- The slot of a signal in the first outcome that has one. -/
def firstSlot?
    (name : String)
    (outcomes : List Slots) :
    Option Slot :=
  outcomes.findSome? fun o => o.find? name

/- Merges the outcomes of branches for one signal. -/
def mergeOne
    (p : Fallback)
    (before : Slots)
    (arms : List (Expr × Slots))
    (tail : Option Slots)
    (slots : Slots)
    (name : String) :
    Flattening Slots := do
  match firstSlot? name (arms.map Prod.snd ++ tail.toList) with
  | none => return slots
  | some slot =>
      let old ← prior p before name slot.whole
      let valueIn (o : Slots) : Expr := (o.value? name).getD old
      let guarded ← arms.mapM fun (c, outcome) => do
        return (c, ← stamp c.neg, valueIn outcome)
      let otherwise := (tail.map valueIn).getD old
      let value ← stamp (priority guarded otherwise)
      return slots.insert name ⟨slot.whole, value⟩

/-
  Merges the outcomes of guarded branches and of what runs
  when no guard holds. Signals that no branch changes keep
  their value.
-/
def merge
    (p : Fallback)
    (before : Slots)
    (arms : List (Expr × Slots))
    (tail : Option Slots) :
    Flattening Slots :=
  (before.changedIn (arms.map Prod.snd ++ tail.toList)).foldlM
    (mergeOne p before arms tail) before

/- A condition on the values before a statement. -/
def condition
    (slots : Slots)
    (c : Expr) :
    Flattening Expr :=
  stamp (slots.read c)

mutual

/- The slots after a statement. -/
def exec
    (p : Fallback) :
    Stmt → Slots → Flattening Slots
  | .assign a, slots => write p a slots
  | .block ss, slots => execAll p ss slots
  | .ifThen c t, slots => do
      let cond ← condition slots c
      let outcome ← exec p t slots
      merge p slots [(cond, outcome)] none
  | .ifElse c t e, slots => do
      let cond ← condition slots c
      let outcome ← exec p t slots
      let (arms, tail) ← execElse p e slots
      merge p slots ((cond, outcome) :: arms) tail
  | .case selector arms, slots => do
      let sel ← condition slots selector
      let outcomes ← execLabelled p sel arms slots
      let tail ← execDefault p arms slots
      merge p slots outcomes tail

def execAll
    (p : Fallback) :
    List Stmt → Slots → Flattening Slots
  | [], slots => return slots
  | s :: ss, slots => do
      let next ← exec p s slots
      execAll p ss next

/- An `else` that is an `if` again goes on with the chain. -/
def execElse
    (p : Fallback) :
    Stmt → Slots → Flattening (List (Expr × Slots) × Option Slots)
  | .ifThen c t, slots => do
      let cond ← condition slots c
      let outcome ← exec p t slots
      return ([(cond, outcome)], none)
  | .ifElse c t e, slots => do
      let cond ← condition slots c
      let outcome ← exec p t slots
      let (arms, tail) ← execElse p e slots
      return ((cond, outcome) :: arms, tail)
  | .assign a, slots => return ([], some (← write p a slots))
  | .block ss, slots => return ([], some (← execAll p ss slots))
  | .case selector arms, slots => do
      let sel ← condition slots selector
      let outcomes ← execLabelled p sel arms slots
      let tail ← execDefault p arms slots
      return ([], some (← merge p slots outcomes tail))

/- The labelled arms with their guards. -/
def execLabelled
    (p : Fallback)
    (selector : Expr) :
    List (Arm Stmt) → Slots → Flattening (List (Expr × Slots))
  | [], _ => return []
  | ⟨labels, isDefault, body⟩ :: arms, slots => do
      if isDefault then
        execLabelled p selector arms slots
      else
        let guard ← stamp (Arm.guard selector ⟨labels, isDefault, ()⟩)
        let outcome ← exec p body slots
        return (guard, outcome) :: (← execLabelled p selector arms slots)

/- The first default arm. -/
def execDefault
    (p : Fallback) :
    List (Arm Stmt) → Slots → Flattening (Option Slots)
  | [], _ => return none
  | ⟨_, isDefault, body⟩ :: arms, slots => do
      if isDefault then
        return some (← exec p body slots)
      else
        execDefault p arms slots

end

end Flattening

namespace Stmt

/-
  The value of every signal that a process writes, in order
  of first write.
-/
def flatten
    (p : Fallback)
    (s : Stmt) :
    Stamping (List (String × Slot)) :=
  fun marks =>
    let (slots, state) := (Flattening.exec p s NameMap.empty).run { marks }
    (state.order.filterMap fun n => (slots.find? n).map fun slot => (n, slot),
      state.marks)

end Stmt

end Gatework
