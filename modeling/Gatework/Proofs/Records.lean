import Gatework.Command.Run
import Gatework.Proofs.RecordNames

/-
  The records of one run.

  Where no two chosen signals meet, records have names of
  their own. Each then has a file of its own, no other record
  is written over it, and a stored record is compared with the
  output that it was made of.

  Key definitions include:
    * `Output.IsRecord`
    * `Session.Leaves`, what sessions leave on the disk
    * `Output.KeptApart`

  Key theorems include:
    * `Golden.pick?_eq_some`
    * `Command.leaves_saves`
    * `Output.records_apart`
-/

------------------------------------------------------------
-- Records
------------------------------------------------------------

namespace Gatework

namespace Golden

theorem name_capture
    {name : String}
    {e : Expr}
    {order : List String}
    {g : Golden}
    (hCapture : capture name e order = .ok g) :
    g.name = name := by
  rcases bind_eq_ok_iff.mp hCapture with ⟨explained, _, hSame⟩
  cases hSame
  rfl

/- Where names differ, the record of a name is picked. -/
theorem pick?_eq_some
    {fresh : List Golden}
    (hNames : (fresh.map Golden.name).Nodup)
    {g : Golden}
    (hg : g ∈ fresh)
    {stored : Golden}
    (hName : stored.name = g.name) :
    pick? fresh stored = some g := by
  unfold pick?
  split
  case h_1 only => rw [List.mem_singleton.mp hg]
  case h_2 =>
      cases hFound : fresh.find? fun h => h.name == stored.name with
      | none =>
          have hNone := List.find?_eq_none.mp hFound g hg
          exact absurd (beq_iff_eq.mpr hName.symm) hNone
      | some h =>
          have hSame := List.find?_some hFound
          exact congrArg some (List.inj_on_of_nodup_map hNames
            (List.mem_of_find?_eq_some hFound) hg
            ((beq_iff_eq.mp hSame).trans hName))

end Golden

namespace Output

/- The record of an output under its name. -/
def IsRecord
    (stem : Option String)
    (lone : Bool)
    (o : Output)
    (g : Golden) :
    Prop :=
  Golden.capture (o.goldenName stem lone) o.expr o.inputs = .ok g

/- Each output has its record. -/
theorem forall₂_capture
    {stem : Option String}
    {outputs : List Output}
    {fresh : List Golden}
    (hCapture : capture stem outputs = .ok fresh) :
    List.Forall₂ (IsRecord stem (outputs.length == 1)) outputs
      fresh := by
  unfold capture at hCapture
  generalize (outputs.length == 1) = lone at hCapture ⊢
  induction outputs generalizing fresh with
  | nil =>
      cases hCapture
      exact List.Forall₂.nil
  | cons o outputs ih =>
      rw [List.mapM_cons] at hCapture
      rcases bind_eq_ok_iff.mp hCapture with ⟨g, hFirst, hCapture⟩
      rcases bind_eq_ok_iff.mp hCapture with ⟨gs, hRest, hSame⟩
      cases hSame
      exact List.Forall₂.cons hFirst (ih hRest)

theorem map_name_capture
    {stem : Option String}
    {outputs : List Output}
    {fresh : List Golden}
    (hCapture : capture stem outputs = .ok fresh) :
    fresh.map Golden.name = recordNames stem outputs := by
  have hRecords := forall₂_capture hCapture
  unfold recordNames
  generalize (outputs.length == 1) = lone at hRecords ⊢
  clear hCapture
  induction hRecords with
  | nil => rfl
  | cons ho _ ih =>
      rw [List.map_cons, List.map_cons, ih, Golden.name_capture ho]

end Output

end Gatework

------------------------------------------------------------
-- Sessions on a disk
------------------------------------------------------------

namespace Gatework

namespace Session

variable {α β : Type}
variable {I P Q : Disk → Prop}

/-
  Where the disk has a property, a session that goes on to its
  end leaves one with another property.
-/
def Leaves
    (I : Disk → Prop)
    (s : Session (StateM Disk) α)
    (P : Disk → Prop) :
    Prop :=
  ∀ d, I d → ∀ t a t' d',
    (s.run.run t).run d = ((.ok a, t'), d') → P d'

theorem run_bind
    (s : Session (StateM Disk) α)
    (f : α → Session (StateM Disk) β)
    (t : Transcript)
    (d : Disk) :
    ((s >>= f).run.run t).run d =
      match (s.run.run t).run d with
      | ((.ok a, t'), d') => ((f a).run.run t').run d'
      | ((.error e, t'), d') => ((.error e, t'), d') := by
  rw [ExceptT.run_bind, StateT.run_bind, StateT.run_bind]
  generalize (s.run.run t).run d = found
  rcases found with ⟨⟨result, t'⟩, d'⟩
  cases result <;> rfl

theorem Leaves.bind
    {s : Session (StateM Disk) α}
    {f : α → Session (StateM Disk) β}
    (hs : Leaves I s P)
    (hf : ∀ a, Leaves P (f a) Q) :
    Leaves I (s >>= f) Q := by
  intro d hI t b t' d' hRun
  rw [run_bind] at hRun
  generalize hFirst : (s.run.run t).run d = found at hRun
  rcases found with ⟨⟨result, t₁⟩, d₁⟩
  cases result with
  | error e => cases hRun
  | ok a => exact hf a d₁ (hs d hI t a t₁ d₁ hFirst) t₁ b t' d' hRun

/- An access to files that is needed to go on. -/
theorem leaves_demand
    {failure : DiskError → Failure}
    {access : StateM Disk (Except DiskError α)}
    (hAccess : ∀ d, I d → ∀ a d', access d = (.ok a, d') → P d') :
    Leaves I (demand failure access) P := by
  intro d hI t a t' d' hRun
  have hStep : ((demand failure access).run.run t).run d =
      match access d with
      | (.ok a, d') => ((.ok a, t), d')
      | (.error e, d') => ((.error (.failed (failure e)), t), d') := by
    have hAccess : ((liftM access :
        Session (StateM Disk) (Except DiskError α)).run.run t).run d =
          ((.ok (access d).1, t), (access d).2) :=
      rfl
    unfold demand
    rw [run_bind, hAccess]
    rcases access d with ⟨result, d₁⟩
    cases result <;> rfl
  rw [hStep] at hRun
  generalize hFound : access d = found at hRun
  rcases found with ⟨result, d₁⟩
  cases result with
  | error e => cases hRun
  | ok b =>
      cases hRun
      exact hAccess d hI _ _ hFound

theorem leaves_pure
    (a : α) :
    Leaves I (pure a) I := by
  intro d hI t b t' d' hRun
  cases hRun
  exact hI

theorem leaves_say
    (message : String) :
    Leaves I (say message) I := by
  intro d hI t a t' d' hRun
  cases hRun
  exact hI

end Session

namespace Command

open Session

theorem leaves_remark
    {I : Disk → Prop}
    (c : Command)
    (message : String) :
    Leaves I (c.remark message) I := by
  unfold remark
  split
  · exact leaves_pure ()
  · exact leaves_say message

/- The files of some records are there, with their texts. -/
structure Keeps
    (dir : String)
    (records : List Golden)
    (d : Disk) :
    Prop where
  usual : d.Usual
  filed : ∀ g ∈ records,
    d.Filed (Golden.pathIn dir g.name) (g.text ++ "\n")

/- One more record is saved beside others. -/
theorem leaves_save
    (c : Command)
    {dir : String}
    {saved : List Golden}
    {g : Golden}
    (hBeside : ∀ h ∈ saved, Path.Beside
      (Golden.pathIn dir h.name) (Golden.pathIn dir g.name)) :
    Leaves (Keeps dir saved) (c.save dir g)
      (Keeps dir (saved ++ [g])) := by
  have hPath : Golden.pathIn dir g.name =
      Path.join dir g.name ++ ".json" :=
    Path.join_append _ _ (by decide)
  unfold save
  refine Leaves.bind (P := Keeps dir saved) ?_ fun _ => ?_
  · apply leaves_demand
    intro d hd _ d' hMade
    have hGrows := Disk.grows_makeFolders dir d
    change Disk.makeFolders dir d = _ at hMade
    rw [hMade] at hGrows
    exact ⟨hGrows.usual hd.usual, fun h hh =>
      (hd.filed h hh).extends hGrows.stays⟩
  · refine Leaves.bind (P := Keeps dir (saved ++ [g])) ?_
      fun _ => leaves_remark c _
    apply leaves_demand
    intro d hd _ d' hRun
    have hWrite : d.write (Golden.pathIn dir g.name)
        (g.text ++ "\n") = .ok d' := by
      change Disk.attempt _ d = _ at hRun
      unfold Disk.attempt at hRun
      split at hRun
      case h_1 after hAfter =>
          cases hRun
          exact hAfter
      case h_2 => cases hRun
    refine ⟨Disk.usual_write hd.usual hWrite, ?_⟩
    rw [List.forall_mem_append]
    constructor
    · intro h hh
      exact (hd.filed h hh).write (hBeside h hh) hWrite
    · rintro _ (_ | ⟨_, ⟨⟩⟩)
      apply Disk.filed_of_write ?_ hWrite
      intro place hLeads
      rw [hPath] at hLeads
      exact hd.usual.not_sink (by decide) (by decide) hLeads

/- All records are saved: by induction on those to come. -/
theorem leaves_saves
    (c : Command)
    {dir : String}
    (saved : List Golden)
    {records : List Golden}
    (hBeside : (saved ++ records).Pairwise fun g h =>
      Path.Beside (Golden.pathIn dir g.name)
        (Golden.pathIn dir h.name)) :
    Leaves (Keeps dir saved) (records.forM (c.save dir))
      (Keeps dir (saved ++ records)) := by
  induction records generalizing saved with
  | nil =>
      rw [List.append_nil]
      exact leaves_pure _
  | cons g records ih =>
      have hFirst := (List.pairwise_append.mp hBeside).2.2
      rw [List.append_cons] at hBeside ⊢
      change Leaves _ (c.save dir g >>= fun _ =>
        records.forM (c.save dir)) _
      refine Leaves.bind (leaves_save c fun h hh =>
        hFirst h hh g (List.mem_cons_self ..)) fun _ => ?_
      exact ih _ hBeside

end Command

end Gatework

------------------------------------------------------------
-- Records of one run
------------------------------------------------------------

namespace Gatework

namespace Output

/-
  Records of outputs that do not get in each other's way. Each
  is picked for what was stored under its name. Each has a
  path of its own, and once all are saved, all can be read.
-/
structure KeptApart
    (stem : Option String)
    (outputs : List Output)
    (fresh : List Golden) :
    Prop where
  records :
    List.Forall₂ (IsRecord stem (outputs.length == 1)) outputs fresh
  names : (fresh.map Golden.name).Nodup
  picked : ∀ g ∈ fresh, ∀ stored : Golden, stored.name = g.name →
    Golden.pick? fresh stored = some g
  paths : ∀ dir,
    (fresh.map fun g => Golden.pathIn dir g.name).Nodup
  saved : ∀ (c : Command) dir,
    Session.Leaves Disk.Usual (fresh.forM (c.save dir))
      fun d => ∀ g ∈ fresh,
        d.read (Golden.pathIn dir g.name) = .ok (g.text ++ "\n")

theorem keptApart_of_beside
    {stem : Option String}
    {outputs : List Output}
    {fresh : List Golden}
    (hCapture : capture stem outputs = .ok fresh)
    (hNames : (recordNames stem outputs).Nodup)
    (hBeside : ∀ dir, (recordNames stem outputs).Pairwise fun m n =>
      Path.Beside (Golden.pathIn dir m) (Golden.pathIn dir n)) :
    KeptApart stem outputs fresh := by
  rw [← map_name_capture hCapture] at hNames hBeside
  have hPaths : ∀ dir, fresh.Pairwise fun g h => Path.Beside
      (Golden.pathIn dir g.name) (Golden.pathIn dir h.name) := by
    intro dir
    have hAll := hBeside dir
    rwa [List.pairwise_map] at hAll
  refine ⟨forall₂_capture hCapture, hNames, ?_, ?_, ?_⟩
  · intro g hg stored hName
    exact Golden.pick?_eq_some hNames hg hName
  · intro dir
    exact List.pairwise_map.mpr ((hPaths dir).imp Path.Beside.ne)
  · intro c dir d hUsual t a t' d' hRun g hg
    have hNone : Command.Keeps dir [] d :=
      ⟨hUsual, fun _ h => nomatch h⟩
    have hKeeps : Command.Keeps dir fresh d' :=
      Command.leaves_saves c [] (hPaths dir) d hNone t a t' d' hRun
    exact (hKeeps.filed g hg).read

/-
  The outputs of a source have names of their own. So have
  their records, exactly if the source has one module or no
  two of the chosen signals meet, and then the records are
  kept apart.
-/
theorem records_apart
    {options : LowerOptions}
    {file : SourceFile}
    {circuits : List Circuit}
    (hLowered :
      (lowerSource options file).result = .ok circuits)
    (simplify primitives : Bool)
    {names : List String}
    (hNames : names.Nodup)
    {outputs : List Output}
    (hPrepared : (prepare
      (Pipeline.ofFlags simplify primitives) circuits
        names).2 = .ok outputs)
    (stem : Option String) :
    (outputs.map Output.name).Nodup ∧
      ((recordNames stem outputs).Nodup ↔
        circuits.length = 1 ∨
          ∀ p ∈ chosen circuits names,
            ∀ q ∈ chosen circuits names, ¬ Meets p q) ∧
      ∀ fresh, capture stem outputs = .ok fresh →
        (recordNames stem outputs).Nodup →
          KeptApart stem outputs fresh := by
  rcases lowerSource_named hLowered with ⟨hCircuits, hApart⟩
  have hProper : ∀ c ∈ circuits, c.Proper :=
    fun c hc => (hCircuits c hc).1
  have hNamed : ∀ c ∈ circuits, c.Named IsPlain :=
    fun c hc => (hCircuits c hc).2
  have hOutputs := prepareAll_computes
    Digraph.sorts_topologicalOrder hProper simplify primitives
    (circuits.length == 1) hPrepared
  have hChosen := pairwise_chosen hProper hApart hNames
  have hSingle : (circuits.length == 1) = true →
      ∀ p ∈ chosen circuits names, ∀ q ∈ chosen circuits names,
        p.1.name = q.1.name := by
    intro hOne p hp q hq
    rw [beq_iff_eq, List.length_eq_one_iff] at hOne
    rcases hOne with ⟨c, rfl⟩
    rw [List.mem_singleton.mp (of_mem_chosen hp).1,
      List.mem_singleton.mp (of_mem_chosen hq).1]
  refine ⟨nodup_names hNamed hOutputs hChosen hSingle, ?_, ?_⟩
  · rw [nodup_recordNames_iff hNamed hOutputs hChosen hSingle,
      beq_iff_eq]
  · intro fresh hCapture hRecords
    exact keptApart_of_beside hCapture hRecords
      (pairwise_beside hNamed hOutputs hRecords)

/- Modules of which one continues the name of the other. -/
def twoStages : SourceFile :=
  ⟨"stages.sv",
    "module m(input x, output n_y);\n" ++
    "assign n_y = x;\n" ++
    "endmodule\n" ++
    "module m_n(input x, output z);\n" ++
    "assign z = ~x;\n" ++
    "endmodule\n"⟩

/- The circuits of a source. -/
def circuitsOf
    (file : SourceFile) :
    List Circuit :=
  (lowerSource {} file).result.toOption.getD []

def outputsOf
    (file : SourceFile) :
    List Output :=
  (prepare (Pipeline.ofFlags false false) (circuitsOf file)
    []).2.toOption.getD []

def recordsOf
    (file : SourceFile) :
    List Golden :=
  (capture (some "g") (outputsOf file)).toOption.getD []

theorem records_apart_twoStages :
    (lowerSource {} twoStages).result = .ok (circuitsOf twoStages) ∧
      (prepare (Pipeline.ofFlags false false)
        (circuitsOf twoStages) []).2 = .ok (outputsOf twoStages) ∧
      capture (some "g") (outputsOf twoStages) =
        .ok (recordsOf twoStages) ∧
      recordNames (some "g") (outputsOf twoStages) =
        ["g_m_n_y", "g_m_n_z"] ∧
      KeptApart (some "g") (outputsOf twoStages)
        (recordsOf twoStages) := by
  -- One evaluation for all facts about the source.
  have hRuns :
      (lowerSource {} twoStages).result.toOption.isSome = true ∧
        (prepare (Pipeline.ofFlags false false)
          (circuitsOf twoStages) []).2.toOption.isSome = true ∧
        (capture (some "g")
          (outputsOf twoStages)).toOption.isSome = true ∧
        recordNames (some "g") (outputsOf twoStages) =
          ["g_m_n_y", "g_m_n_z"] := by
    have hText : twoStages.text = String.ofList _ :=
      Hdl.spelled_append (Hdl.spelled_append (Hdl.spelled_append
        (Hdl.spelled_append (Hdl.spelled_append rfl rfl) rfl) rfl)
          rfl) rfl
    rw [outputsOf, circuitsOf, lowerSource_spelled {} twoStages hText]
    decide +kernel
  rcases hRuns with ⟨hLowers, hPrepares, hCaptures, hRecords⟩
  have hLowered := eq_ok_of_isSome [] hLowers
  have hPrepared := eq_ok_of_isSome [] hPrepares
  have hCapture := eq_ok_of_isSome [] hCaptures
  have hNodup :
      (recordNames (some "g") (outputsOf twoStages)).Nodup := by
    rw [hRecords]
    decide
  exact ⟨hLowered, hPrepared, hCapture, hRecords,
    (records_apart hLowered false false List.nodup_nil hPrepared
      (some "g")).2.2 _ hCapture hNodup⟩

/-
  Modules of which one continues the name of the other, and
  signals that make up for it.
-/
def sameRecord : SourceFile :=
  ⟨"same.sv",
    "module a(input x, output b_c);\n" ++
    "assign b_c = x;\n" ++
    "endmodule\n" ++
    "module a_b(input x, output c);\n" ++
    "assign c = ~x;\n" ++
    "endmodule\n"⟩

/- Two outputs with names of their own, and one record. -/
theorem records_clash_sameRecord :
    (lowerSource {} sameRecord).result = .ok (circuitsOf sameRecord) ∧
      (prepare (Pipeline.ofFlags false false)
        (circuitsOf sameRecord) []).2 = .ok (outputsOf sameRecord) ∧
      (outputsOf sameRecord).map Output.name = ["a.b_c", "a_b.c"] ∧
      recordNames (some "g") (outputsOf sameRecord) =
        ["g_a_b_c", "g_a_b_c"] ∧
      ¬ (recordNames (some "g") (outputsOf sameRecord)).Nodup := by
  -- One evaluation for all facts about the source.
  have hRuns :
      (lowerSource {} sameRecord).result.toOption.isSome = true ∧
        (prepare (Pipeline.ofFlags false false)
          (circuitsOf sameRecord) []).2.toOption.isSome = true ∧
        (outputsOf sameRecord).map Output.name =
          ["a.b_c", "a_b.c"] ∧
        recordNames (some "g") (outputsOf sameRecord) =
          ["g_a_b_c", "g_a_b_c"] := by
    have hText : sameRecord.text = String.ofList _ :=
      Hdl.spelled_append (Hdl.spelled_append (Hdl.spelled_append
        (Hdl.spelled_append (Hdl.spelled_append rfl rfl) rfl) rfl)
          rfl) rfl
    rw [outputsOf, circuitsOf, lowerSource_spelled {} sameRecord hText]
    decide +kernel
  rcases hRuns with ⟨hLowers, hPrepares, hNames, hRecords⟩
  refine ⟨eq_ok_of_isSome [] hLowers, eq_ok_of_isSome [] hPrepares,
    hNames, hRecords, ?_⟩
  rw [hRecords]
  decide

end Output

end Gatework
