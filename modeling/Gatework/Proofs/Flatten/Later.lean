import Gatework.Flatten
import Gatework.Proofs.Expr.Later
import Gatework.Proofs.NameMap
import Gatework.Proofs.Stmt.Typing

/-
  Processes that are flattened later.

  Flattening tells a value that was kept from one that was
  written anew by its marks. A process that was lowered later
  and is flattened later still shares its values as before, so
  its signals get the same values with later marks.

  Key definitions include:
    * `Stmt.later` and `Slots.later`
    * `Flattening.InStep`

  Key theorems include:
    * `Flattening.inStep_exec`
    * `Stmt.flatten_later`
-/

------------------------------------------------------------
-- Later statements and slots
------------------------------------------------------------

namespace Gatework

/- The assignment with a value that was built later. -/
def Assign.later
    (d : Nat)
    (a : Assign) :
    Assign :=
  ⟨a.target, a.value.later d⟩

namespace Stmt

mutual

/- The statement with trees that were built later. -/
def later
    (d : Nat) :
    Stmt → Stmt
  | assign a => assign (a.later d)
  | ifThen c t => ifThen (c.later d) (later d t)
  | ifElse c t e => ifElse (c.later d) (later d t) (later d e)
  | case s arms => case (s.later d) (laterArms d arms)
  | block ss => block (laterAll d ss)

def laterAll
    (d : Nat) :
    List Stmt → List Stmt
  | [] => []
  | s :: ss => later d s :: laterAll d ss

def laterArms
    (d : Nat) :
    List (Arm Stmt) → List (Arm Stmt)
  | [] => []
  | ⟨labels, isDefault, s⟩ :: arms =>
      ⟨labels, isDefault, later d s⟩ :: laterArms d arms

end

theorem laterAll_eq_map
    {d : Nat}
    (ss : List Stmt) :
    laterAll d ss = ss.map (later d) := by
  induction ss with
  | nil => rfl
  | cons s ss ih => rw [laterAll, ih, List.map_cons]

end Stmt

/- The slot with trees that were built later. -/
def Slot.later
    (d : Nat)
    (slot : Slot) :
    Slot :=
  ⟨slot.whole.later d, slot.value.later d⟩

namespace Slots

variable {d : Nat}

def later
    (d : Nat)
    (slots : Slots) :
    Slots :=
  slots.map (Slot.later d)

theorem find?_later
    (slots : Slots)
    (n : String) :
    (slots.later d).find? n = (slots.find? n).map (Slot.later d) :=
  NameMap.find?_map (Slot.later d) slots n

theorem value?_later
    (slots : Slots)
    (n : String) :
    (slots.later d).value? n =
      (slots.value? n).map (Expr.later d) := by
  unfold value?
  rw [find?_later, Option.map_map, Option.map_map]
  rfl

theorem read_later
    (slots : Slots)
    (e : Expr) :
    (slots.later d).read (e.later d) = (slots.read e).later d := by
  unfold read
  rw [show (slots.later d).entries.isEmpty =
    slots.entries.isEmpty from List.isEmpty_map]
  split
  · rfl
  · exact Expr.subst_later (value?_later slots) e

theorem changed_later
    (before outcome : Slots) :
    (before.later d).changed (outcome.later d) =
      before.changed outcome := by
  have hKeeps : ∀ n slot,
      (before.later d).keeps n (slot.later d) =
        before.keeps n slot := by
    intro n slot
    unfold keeps
    rw [value?_later]
    cases before.value? n with
    | none => rfl
    | some old => exact Expr.identical_later old slot.value
  unfold changed later NameMap.map
  dsimp only
  rw [List.filter_map, List.map_map]
  apply congrArg (List.map Prod.fst)
  apply List.filter_congr
  intro entry _
  exact congrArg Bool.not (hKeeps entry.1 entry.2)

theorem changedIn_later
    (before : Slots)
    (outcomes : List Slots) :
    (before.later d).changedIn (outcomes.map (later d)) =
      before.changedIn outcomes := by
  unfold changedIn
  rw [List.flatMap_map]
  congr 2
  funext outcome
  exact changed_later before outcome

end Slots

end Gatework

------------------------------------------------------------
-- Priority
------------------------------------------------------------

namespace Gatework

variable {d : Nat}

/- A guard, its negation and a value, all of them later. -/
def laterTriple
    (d : Nat)
    (arm : Expr × Expr × Expr) :
    Expr × Expr × Expr :=
  (arm.1.later d, arm.2.1.later d, arm.2.2.later d)

theorem products_later
    (otherwise : Expr)
    (excluded : List Expr)
    (arms : List (Expr × Expr × Expr)) :
    products (otherwise.later d) (excluded.map (Expr.later d))
        (arms.map (laterTriple d)) =
      (products otherwise excluded arms).map (Expr.later d) := by
  induction arms generalizing excluded with
  | nil =>
      rw [List.map_nil, products, products,
        Expr.conjAll?_map_later]
      cases Expr.conjAll? excluded <;> rfl
  | cons arm arms ih =>
      rcases arm with ⟨c, notC, v⟩
      have hMore : ∀ e : Expr, excluded.map (Expr.later d) ++
          [e.later d] = (excluded ++ [e]).map (Expr.later d) := by
        intro e
        rw [List.map_append, List.map_singleton]
      rw [List.map_cons, laterTriple, products, products, hMore,
        hMore, Expr.conjAll?_map_later, ih, List.map_cons,
        Option.getD_map (Expr.later d) c]
      rfl

theorem priority_later
    (arms : List (Expr × Expr × Expr))
    (otherwise : Expr) :
    priority (arms.map (laterTriple d)) (otherwise.later d) =
      (priority arms otherwise).later d := by
  unfold priority
  rw [Expr.width_later]
  split
  · induction arms with
    | nil => rfl
    | cons arm arms ih =>
        rw [List.map_cons, List.foldr_cons, List.foldr_cons, ih]
        rfl
  · have hProducts := products_later (d := d) otherwise [] arms
    rw [List.map_nil] at hProducts
    rw [hProducts, Expr.disjAll?_map_later]
    exact Option.getD_map (Expr.later d) (Expr.ofNat 0 1) _

theorem Arm.guard_later
    {α : Type}
    (selector : Expr)
    (arm : Arm α) :
    arm.guard (selector.later d) = (arm.guard selector).later d := by
  have hLabels : (arm.labels.map fun l =>
      (selector.later d).equalsConst l.value) =
        (arm.labels.map fun l =>
          selector.equalsConst l.value).map (Expr.later d) := by
    rw [List.map_map]
    congr 1
    funext l
    exact Expr.equalsConst_later selector l.value
  unfold guard
  rw [hLabels, Expr.disjAll?_map_later]
  exact Option.getD_map (Expr.later d) (Expr.ofNat 0 1) _

end Gatework

------------------------------------------------------------
-- Computations
------------------------------------------------------------

namespace Gatework

/- The state in which marks have gone on further. -/
def FlatState.later
    (d : Nat)
    (s : FlatState) :
    FlatState :=
  { s with marks := s.marks + d }

namespace Flattening

variable {α β γ δ : Type}
variable {d : Nat}

/-
  Two computations, the second one from later marks on, that
  give the same but for that.
-/
def InStep
    (d : Nat)
    (g : α → β)
    (m : Flattening α)
    (m' : Flattening β) :
    Prop :=
  ∀ s, m' (s.later d) = (g (m s).1, (m s).2.later d)

theorem inStep_pure
    {g : α → β}
    {a : α}
    {b : β}
    (hb : b = g a) :
    InStep d g (pure a) (pure b) :=
  fun s => congrArg (·, s.later d) hb

theorem InStep.bind
    {g : α → β}
    {h : γ → δ}
    {m : Flattening α}
    {m' : Flattening β}
    {f : α → Flattening γ}
    {f' : β → Flattening δ}
    (hm : InStep d g m m')
    (hf : ∀ a, InStep d h (f a) (f' (g a))) :
    InStep d h (m >>= f) (m' >>= f') := by
  intro s
  change f' (m' (s.later d)).1 (m' (s.later d)).2 = _
  rw [hm s]
  exact hf (m s).1 (m s).2

theorem inStep_stamp
    (e : Expr) :
    InStep d (Expr.later d) (stamp e) (stamp (e.later d)) := by
  intro s
  have hStamp := Expr.stamp_later (d := d) e s.marks
  change (((e.later d).stamp (s.marks + d)).1,
    ({ s with marks := ((e.later d).stamp (s.marks + d)).2 } :
      FlatState)) = _
  rw [hStamp]
  rfl

theorem inStep_note
    (name : String) :
    InStep d id (note name) (note name) := by
  intro s
  change ((), if name ∈ s.order then s.later d else
    ({ s.later d with order := s.order ++ [name] } : FlatState)) =
      ((), FlatState.later d (if name ∈ s.order then s else
        { s with order := s.order ++ [name] }))
  split <;> rfl

theorem inStep_mapM
    {g : α → γ}
    {h : β → δ}
    {f : α → Flattening β}
    {f' : γ → Flattening δ}
    (hf : ∀ a, InStep d h (f a) (f' (g a)))
    (xs : List α) :
    InStep d (List.map h) (xs.mapM f) ((xs.map g).mapM f') := by
  induction xs with
  | nil =>
      rw [List.map_nil, List.mapM_nil, List.mapM_nil]
      exact inStep_pure rfl
  | cons x xs ih =>
      rw [List.map_cons, List.mapM_cons, List.mapM_cons]
      refine (hf x).bind fun y => ih.bind fun ys => ?_
      exact inStep_pure rfl

theorem inStep_foldlM
    {g : β → δ}
    {f : β → α → Flattening β}
    {f' : δ → α → Flattening δ}
    (hf : ∀ b a, InStep d g (f b a) (f' (g b) a))
    (xs : List α)
    (b : β) :
    InStep d g (xs.foldlM f b) (xs.foldlM f' (g b)) := by
  induction xs generalizing b with
  | nil =>
      rw [List.foldlM_nil, List.foldlM_nil]
      exact inStep_pure rfl
  | cons x xs ih =>
      rw [List.foldlM_cons, List.foldlM_cons]
      exact (hf b x).bind ih

end Flattening

end Gatework

------------------------------------------------------------
-- Merging
------------------------------------------------------------

namespace Gatework

namespace Flattening

variable {d : Nat}

theorem inStep_prior
    (p : Fallback)
    (slots : Slots)
    (name : String)
    (whole : Expr) :
    InStep d (Expr.later d) (prior p slots name whole)
      (prior p (slots.later d) name (whole.later d)) := by
  unfold prior
  rw [Slots.value?_later]
  cases slots.value? name with
  | some v => exact inStep_pure rfl
  | none =>
      have hFallback : fallbackValue p (whole.later d) =
          (fallbackValue p whole).later d := by
        cases p with
        | zero =>
            rw [fallbackValue, Expr.width_later]
            rfl
        | hold => rfl
      rw [Option.map_none, hFallback]
      exact inStep_stamp _

theorem inStep_write
    (p : Fallback)
    (a : Assign)
    (slots : Slots) :
    InStep d (Slots.later d) (write p a slots)
      (write p (a.later d) (slots.later d)) := by
  have hInsert : ∀ slot : Slot,
      (slots.later d).insert a.var.name (slot.later d) =
        Slots.later d (slots.insert a.var.name slot) :=
    NameMap.insert_map (Slot.later d) slots a.var.name
  have hRead : InStep d (Expr.later d) (stamp (slots.read a.value))
      (stamp ((slots.later d).read (a.value.later d))) := by
    rw [Slots.read_later]
    exact inStep_stamp _
  refine (inStep_note a.var.name).bind fun _ => ?_
  refine (inStep_stamp (Expr.ofVar a.var)).bind fun whole => ?_
  refine hRead.bind fun value => ?_
  rw [show (a.later d).target.field? = a.target.field? from rfl]
  cases a.target.field? with
  | none => exact inStep_pure (hInsert ⟨whole, value⟩)
  | some low =>
      refine (inStep_prior p slots a.var.name whole).bind
        fun old => ?_
      rw [Expr.splice_later]
      refine (inStep_stamp _).bind fun spliced => ?_
      exact inStep_pure (hInsert ⟨whole, spliced⟩)

/- A guard and the slots behind it, all of them later. -/
def laterBranch
    (d : Nat)
    (arm : Expr × Slots) :
    Expr × Slots :=
  (arm.1.later d, arm.2.later d)

/- The outcomes of branches and of what runs otherwise. -/
theorem outcomes_later
    (arms : List (Expr × Slots))
    (tail : Option Slots) :
    (arms.map (laterBranch d)).map Prod.snd ++
        (tail.map (Slots.later d)).toList =
      (arms.map Prod.snd ++ tail.toList).map (Slots.later d) := by
  rw [List.map_append, List.map_map, List.map_map,
    Option.toList_map]
  rfl

theorem firstSlot?_later
    (name : String)
    (outcomes : List Slots) :
    firstSlot? name (outcomes.map (Slots.later d)) =
      (firstSlot? name outcomes).map (Slot.later d) := by
  unfold firstSlot?
  induction outcomes with
  | nil => rfl
  | cons o outcomes ih =>
      rw [List.map_cons, List.findSome?_cons, List.findSome?_cons,
        Slots.find?_later]
      cases o.find? name with
      | none => exact ih
      | some slot => rfl

theorem inStep_mergeOne
    (p : Fallback)
    (before : Slots)
    (arms : List (Expr × Slots))
    (tail : Option Slots)
    (slots : Slots)
    (name : String) :
    InStep d (Slots.later d)
      (mergeOne p before arms tail slots name)
      (mergeOne p (before.later d) (arms.map (laterBranch d))
        (tail.map (Slots.later d)) (slots.later d) name) := by
  unfold mergeOne
  rw [outcomes_later, firstSlot?_later]
  cases firstSlot? name (arms.map Prod.snd ++ tail.toList) with
  | none => exact inStep_pure rfl
  | some slot =>
      have hValue : ∀ (o : Slots) (old : Expr),
          ((o.later d).value? name).getD (old.later d) =
            ((o.value? name).getD old).later d := by
        intro o old
        rw [Slots.value?_later]
        exact Option.getD_map (Expr.later d) old _
      refine (inStep_prior p before name slot.whole).bind
        fun old => ?_
      have hOtherwise :
          ((tail.map (Slots.later d)).map fun o =>
            (o.value? name).getD (old.later d)).getD (old.later d) =
          ((tail.map fun o =>
            (o.value? name).getD old).getD old).later d := by
        cases tail with
        | none => rfl
        | some o => exact hValue o old
      refine (inStep_mapM (g := laterBranch d) (h := laterTriple d)
        ?_ arms).bind fun guarded => ?_
      · rintro ⟨c, outcome⟩
        refine (inStep_stamp c.neg).bind fun notC => ?_
        exact inStep_pure (congrArg _ (congrArg _ (hValue outcome old)))
      · dsimp only
        rw [hOtherwise, priority_later]
        refine (inStep_stamp _).bind fun value => ?_
        exact inStep_pure (NameMap.insert_map (Slot.later d) slots
          name ⟨slot.whole, value⟩)

theorem inStep_merge
    (p : Fallback)
    (before : Slots)
    (arms : List (Expr × Slots))
    (tail : Option Slots) :
    InStep d (Slots.later d) (merge p before arms tail)
      (merge p (before.later d) (arms.map (laterBranch d))
        (tail.map (Slots.later d))) := by
  unfold merge
  rw [outcomes_later, Slots.changedIn_later]
  exact inStep_foldlM (inStep_mergeOne p before arms tail) _ before

end Flattening

end Gatework

------------------------------------------------------------
-- Statements
------------------------------------------------------------

namespace Gatework

namespace Flattening

variable {p : Fallback}
variable {d : Nat}

theorem inStep_condition
    (slots : Slots)
    (c : Expr) :
    InStep d (Expr.later d) (condition slots c)
      (condition (slots.later d) (c.later d)) := by
  unfold condition
  rw [Slots.read_later]
  exact inStep_stamp _

/- A statement and the same one later, on its own. -/
def RunsInStep
    (p : Fallback)
    (d : Nat)
    (s : Stmt) :
    Prop :=
  ∀ slots, InStep d (Slots.later d) (exec p s slots)
    (exec p (s.later d) (slots.later d))

/- The branches of a chain and what runs otherwise, later. -/
def laterChain
    (d : Nat)
    (rest : List (Expr × Slots) × Option Slots) :
    List (Expr × Slots) × Option Slots :=
  (rest.1.map (laterBranch d), rest.2.map (Slots.later d))

/- A statement and the same one later, as an `else`. -/
def ContinuesInStep
    (p : Fallback)
    (d : Nat)
    (s : Stmt) :
    Prop :=
  ∀ slots, InStep d (laterChain d) (execElse p s slots)
    (execElse p (s.later d) (slots.later d))

theorem inStep_execAll
    {ss : List Stmt}
    (hAll : ∀ s ∈ ss, RunsInStep p d s)
    (slots : Slots) :
    InStep d (Slots.later d) (execAll p ss slots)
      (execAll p (Stmt.laterAll d ss) (slots.later d)) := by
  induction ss generalizing slots with
  | nil => exact inStep_pure rfl
  | cons s ss ih =>
      rw [Stmt.laterAll, execAll, execAll]
      refine (hAll s (List.mem_cons_self ..) slots).bind
        fun next => ?_
      exact ih (fun t ht => hAll t (List.mem_cons_of_mem _ ht)) next

theorem inStep_execLabelled
    {arms : List (Arm Stmt)}
    (hAll : ∀ arm ∈ arms, RunsInStep p d arm.body)
    (selector : Expr)
    (slots : Slots) :
    InStep d (List.map (laterBranch d))
      (execLabelled p selector arms slots)
      (execLabelled p (selector.later d) (Stmt.laterArms d arms)
        (slots.later d)) := by
  induction arms with
  | nil => exact inStep_pure rfl
  | cons arm arms ih =>
      have hRest := ih fun a ha =>
        hAll a (List.mem_cons_of_mem _ ha)
      have hBody := hAll arm (List.mem_cons_self ..)
      rcases arm with ⟨labels, isDefault, body⟩
      rw [Stmt.laterArms, execLabelled, execLabelled]
      cases isDefault with
      | true => exact hRest
      | false =>
          rw [Arm.guard_later]
          refine (inStep_stamp _).bind fun guard => ?_
          refine (hBody slots).bind fun outcome => ?_
          exact hRest.bind fun outcomes => inStep_pure rfl

theorem inStep_execDefault
    {arms : List (Arm Stmt)}
    (hAll : ∀ arm ∈ arms, RunsInStep p d arm.body)
    (slots : Slots) :
    InStep d (Option.map (Slots.later d))
      (execDefault p arms slots)
      (execDefault p (Stmt.laterArms d arms) (slots.later d)) := by
  induction arms with
  | nil => exact inStep_pure rfl
  | cons arm arms ih =>
      have hRest := ih fun a ha =>
        hAll a (List.mem_cons_of_mem _ ha)
      have hBody := hAll arm (List.mem_cons_self ..)
      rcases arm with ⟨labels, isDefault, body⟩
      rw [Stmt.laterArms, execDefault, execDefault]
      cases isDefault with
      | true =>
          exact (hBody slots).bind fun outcome => inStep_pure rfl
      | false => exact hRest

/- The slots after a later statement are later slots. -/
theorem inStep_exec
    (s : Stmt) :
    RunsInStep p d s ∧ ContinuesInStep p d s := by
  induction s with
  | assign a =>
      refine ⟨inStep_write p a, fun slots => ?_⟩
      exact (inStep_write p a slots).bind fun _ => inStep_pure rfl
  | ifThen c t ih =>
      constructor
      · intro slots
        refine (inStep_condition slots c).bind fun cond => ?_
        refine (ih.1 slots).bind fun outcome => ?_
        exact inStep_merge p slots [(cond, outcome)] none
      · intro slots
        refine (inStep_condition slots c).bind fun cond => ?_
        exact (ih.1 slots).bind fun outcome => inStep_pure rfl
  | ifElse c t e iht ihe =>
      constructor
      · intro slots
        refine (inStep_condition slots c).bind fun cond => ?_
        refine (iht.1 slots).bind fun outcome => ?_
        refine (ihe.2 slots).bind fun rest => ?_
        exact inStep_merge p slots ((cond, outcome) :: rest.1) rest.2
      · intro slots
        refine (inStep_condition slots c).bind fun cond => ?_
        refine (iht.1 slots).bind fun outcome => ?_
        exact (ihe.2 slots).bind fun rest => inStep_pure rfl
  | case selector arms ih =>
      have hAll : ∀ arm ∈ arms, RunsInStep p d arm.body :=
        fun arm hArm => (ih arm hArm).1
      constructor
      · intro slots
        refine (inStep_condition slots selector).bind fun sel => ?_
        refine (inStep_execLabelled hAll sel slots).bind
          fun outcomes => ?_
        refine (inStep_execDefault hAll slots).bind fun tail => ?_
        exact inStep_merge p slots outcomes tail
      · intro slots
        refine (inStep_condition slots selector).bind fun sel => ?_
        refine (inStep_execLabelled hAll sel slots).bind
          fun outcomes => ?_
        refine (inStep_execDefault hAll slots).bind fun tail => ?_
        exact (inStep_merge p slots outcomes tail).bind
          fun _ => inStep_pure rfl
  | block ss ih =>
      have hRun := inStep_execAll (p := p) (d := d)
        fun s hs => (ih s hs).1
      refine ⟨hRun, fun slots => ?_⟩
      exact (hRun slots).bind fun _ => inStep_pure rfl

end Flattening

namespace Stmt

variable {d : Nat}

/- What a process makes of a signal, later. -/
def laterEntry
    (d : Nat)
    (entry : String × Slot) :
    String × Slot :=
  (entry.1, entry.2.later d)

/- A later process is flattened to the same, later. -/
theorem flatten_later
    (p : Fallback)
    (s : Stmt) :
    Stamping.InStep d (List.map (laterEntry d)) (s.flatten p)
      ((s.later d).flatten p) := by
  intro marks
  have hRun := (Flattening.inStep_exec (p := p) (d := d) s).1
    NameMap.empty { marks }
  generalize hFinal : Flattening.exec p s NameMap.empty
    { marks } = final at hRun
  rcases final with ⟨slots, state⟩
  unfold flatten
  rw [show (Flattening.exec p s NameMap.empty).run { marks } =
      (slots, state) from hFinal,
    show (Flattening.exec p (s.later d) NameMap.empty).run
      { marks := marks + d } = (slots.later d, state.later d)
        from hRun]
  refine Prod.ext ?_ rfl
  change state.order.filterMap _ = (state.order.filterMap _).map _
  rw [List.map_filterMap]
  congr 1
  funext n
  rw [Slots.find?_later, Option.map_map, Option.map_map]
  rfl

end Stmt

end Gatework
