import Gatework.Proofs.Disk
import Gatework.Proofs.Hdl.Tokens
import Gatework.Proofs.Output
import Mathlib.Data.List.Nodup

/-
  The names of the outputs and records of one run.

  No name of a source has a period in it, so the full names of
  outputs differ. In the name of a record the period is an
  underscore, which names may have. Records of two outputs
  have one name exactly if the module of one continues the
  name of the other's, and the signal of that makes up for it.

  Key definitions include:
    * `IsPlain`, names without periods and slashes
    * `Output.Meets`, signals whose records have one name
    * `Output.recordNames`

  Key theorems include:
    * `Output.pairwise_chosen`
    * `Output.nodup_names`
    * `Output.nodup_recordNames_iff`
    * `Output.pairwise_beside`
-/

------------------------------------------------------------
-- Names of sources
------------------------------------------------------------

namespace Gatework

/- A name without periods and slashes. -/
def IsPlain
    (name : String) :
    Prop :=
  name ≠ "" ∧ ∀ c ∈ name.toList, c ≠ '.' ∧ c ≠ '/'

theorem isPlain_of_isName
    {name : String}
    (hName : Hdl.isName name = true) :
    IsPlain name := by
  have hPlain : ∀ c : Char, Hdl.isNameChar c = true →
      c ≠ '.' ∧ c ≠ '/' := by
    rintro c hc
    constructor <;> rintro rfl <;> cases hc
  have hFirst : ∀ c : Char, Hdl.isNameStart c = true →
      c ≠ '.' ∧ c ≠ '/' := by
    rintro c hc
    constructor <;> rintro rfl <;> cases hc
  rw [Hdl.isName, Bool.and_eq_true] at hName
  have hChars := hName.2
  cases hText : name.toList with
  | nil =>
      rw [hText] at hChars
      cases hChars
  | cons c cs =>
      rw [hText, Bool.and_eq_true, List.all_eq_true] at hChars
      constructor
      · rintro rfl
        cases hText
      · rw [hText, List.forall_mem_cons]
        exact ⟨hFirst c hChars.1,
          fun d hd => hPlain d (hChars.2 d hd)⟩

theorem named_isPlain
    (file : Option Nat)
    (text : String) :
    Hdl.Named IsPlain (Hdl.lex file text).tokens where
  missing := by
    refine ⟨by decide, ?_⟩
    simp [Hdl.Parse.missingName]
  text := fun _ ht hKind =>
    isPlain_of_isName (Hdl.isName_of_mem_lex ht hKind)

/-
  Circuits of a source are proper, have names that differ, and
  the names in them are plain.
-/
theorem lowerSource_named
    {options : LowerOptions}
    {file : SourceFile}
    {circuits : List Circuit}
    (hLowered :
      (lowerSource options file).result = .ok circuits) :
    (∀ c ∈ circuits, c.Proper ∧ c.Named IsPlain) ∧
      (circuits.map Circuit.name).Nodup := by
  have hNamed := named_isPlain (some 0) file.text
  have hSpec := lowerParsed_named (N := IsPlain)
    (fun _ hn => hn.1)
    (fun decl hDecl => ⟨Hdl.given_of_mem_modules hDecl,
      Hdl.over_of_mem_modules hNamed hDecl⟩)
    options [file]
  change (lowerParsed options [file] (Hdl.parseFile 0 file)).result
    = .ok circuits at hLowered
  rw [hLowered] at hSpec
  exact hSpec

end Gatework

------------------------------------------------------------
-- Chosen signals
------------------------------------------------------------

namespace Gatework

/- No signal is selected twice. -/
theorem Circuit.nodup_selected
    {c : Circuit}
    (hc : c.Proper)
    {names : List String}
    (hNames : names.Nodup) :
    ((c.selected names).map Prod.fst).Nodup := by
  have hKeys : (c.assignments.entries.map Prod.fst).Nodup := by
    apply hc.driven.ascending.imp
    rintro n _ hLess rfl
    exact String.lt_irrefl n hLess
  unfold selected
  split
  case isTrue =>
      dsimp only
      split
      · exact hKeys
      · exact hKeys.sublist
          (List.filter_sublist.map Prod.fst)
  case isFalse =>
      have hFirst : ∀ found : List String,
          ((found.filterMap fun n =>
            (c.assignments.find? n).map fun a => (n, a)).map
              Prod.fst).Sublist found := by
        intro found
        induction found with
        | nil => exact List.Sublist.slnil
        | cons n found ih =>
            rw [List.filterMap_cons]
            cases c.assignments.find? n with
            | none => exact ih.cons n
            | some a => exact ih.cons_cons n
      exact hNames.sublist (hFirst names)

namespace Output

/- What is chosen is driven by one of the circuits. -/
theorem of_mem_chosen
    {circuits : List Circuit}
    {names : List String}
    {p : Circuit × String}
    (hp : p ∈ chosen circuits names) :
    p.1 ∈ circuits ∧ p.1.assignments.contains p.2 = true := by
  rcases List.mem_flatMap.mp hp with ⟨c, hc, hIn⟩
  rcases List.mem_map.mp hIn with ⟨entry, hEntry, rfl⟩
  exact ⟨hc, Circuit.contains_of_mem_selected hEntry⟩

/- A signal is chosen once. -/
theorem pairwise_chosen
    {circuits : List Circuit}
    (hProper : ∀ c ∈ circuits, c.Proper)
    (hCircuits : (circuits.map Circuit.name).Nodup)
    {names : List String}
    (hNames : names.Nodup) :
    (chosen circuits names).Pairwise fun p q =>
      p.1.name = q.1.name → p.2 ≠ q.2 := by
  rw [chosen, List.pairwise_flatMap]
  constructor
  · intro c hc
    have hSelected := Circuit.nodup_selected (hProper c hc) hNames
    rw [List.Nodup, List.pairwise_map] at hSelected
    rw [List.pairwise_map]
    apply hSelected.imp
    intro _ _ hne _
    exact hne
  · rw [List.Nodup, List.pairwise_map] at hCircuits
    apply hCircuits.imp
    intro c c' hne p hp q hq hSame
    rcases List.mem_map.mp hp with ⟨_, _, rfl⟩
    rcases List.mem_map.mp hq with ⟨_, _, rfl⟩
    exact absurd hSame hne

end Output

end Gatework

------------------------------------------------------------
-- Names of outputs
------------------------------------------------------------

namespace Gatework

section

variable {mark : String}
variable {k : Char}
variable (hMark : mark.toList = [k])
variable {a x b y : String}

include hMark

theorem toList_joined
    (u v : String) :
    (u ++ mark ++ v).toList = u.toList ++ k :: v.toList := by
  rw [String.toList_append, String.toList_append, hMark,
    List.append_assoc, List.singleton_append]

/- What the longer left text has more starts with the mark. -/
theorem joined_of_append
    {more : List Char}
    (hLeft : b.toList = a.toList ++ more)
    (hRight : k :: x.toList = more ++ k :: y.toList) :
    (a = b ∧ x = y) ∨
      ∃ t, b = a ++ mark ++ t ∧ x = t ++ mark ++ y := by
  cases more with
  | nil =>
      rw [List.append_nil] at hLeft
      exact .inl ⟨String.ext hLeft.symm,
        String.ext (List.cons.inj hRight).2⟩
  | cons c t =>
      rcases List.cons.inj hRight with ⟨rfl, hRest⟩
      refine .inr ⟨String.ofList t, ?_, ?_⟩
      · apply String.ext
        rw [toList_joined hMark, String.toList_ofList, hLeft]
      · apply String.ext
        rw [toList_joined hMark, String.toList_ofList]
        exact hRest

/-
  Texts on either side of a mark are joined to one text. If
  other ones give the same, one of the two left ones goes on
  behind the other, and the right ones make up for it.
-/
theorem joined_eq_iff :
    a ++ mark ++ x = b ++ mark ++ y ↔
      (a = b ∧ x = y) ∨
      (∃ t, b = a ++ mark ++ t ∧ x = t ++ mark ++ y) ∨
      ∃ t, a = b ++ mark ++ t ∧ y = t ++ mark ++ x := by
  constructor
  · intro hSame
    have hLists := congrArg String.toList hSame
    rw [toList_joined hMark, toList_joined hMark] at hLists
    rcases List.append_eq_append_iff.mp hLists with
      ⟨more, hLeft, hRight⟩ | ⟨more, hLeft, hRight⟩
    · rcases joined_of_append hMark hLeft hRight with
        hEqual | hMore
      · exact .inl hEqual
      · exact .inr (.inl hMore)
    · rcases joined_of_append hMark hLeft hRight with
        hEqual | hMore
      · exact .inl ⟨hEqual.1.symm, hEqual.2.symm⟩
      · exact .inr (.inr hMore)
  · rintro (⟨rfl, rfl⟩ | ⟨t, rfl, rfl⟩ | ⟨t, rfl, rfl⟩)
    · rfl
    · simp only [String.append_assoc]
    · simp only [String.append_assoc]

end

namespace Output

/-
  The module of the second signal goes on behind the name of
  the first one's, and the first signal makes up for it.
-/
def Meets
    (p q : Circuit × String) :
    Prop :=
  ∃ t, q.1.name = p.1.name ++ "_" ++ t ∧ p.2 = t ++ "_" ++ q.2

variable {single : Bool}
variable {o : Output}
variable {p q : Circuit × String}

theorem not_meets_self
    (p : Circuit × String) :
    ¬ Meets p p := by
  rintro ⟨t, hName, _⟩
  have hSize := congrArg (fun s => s.toList.length) hName
  have hMark : "_".toList.length = 1 := rfl
  simp only [String.toList_append, List.length_append] at hSize
  omega

/- A signal as it is named in the names of records. -/
def flatName
    (single : Bool)
    (p : Circuit × String) :
    String :=
  if single then p.2 else p.1.name ++ "_" ++ p.2

theorem flatName_eq_iff :
    flatName false p = flatName false q ↔
      (p.1.name = q.1.name ∧ p.2 = q.2) ∨ Meets p q ∨
        Meets q p :=
  joined_eq_iff rfl

/- Signals of circuits with plain names, plain themselves. -/
def PlainPick
    (p : Circuit × String) :
    Prop :=
  IsPlain p.1.name ∧ IsPlain p.2

theorem not_mem_flatName
    (hp : PlainPick p) :
    '/' ∉ (flatName single p).toList := by
  intro hSlash
  unfold flatName at hSlash
  split at hSlash
  case isTrue => exact (hp.2.2 _ hSlash).2 rfl
  case isFalse =>
      rw [String.toList_append, List.mem_append,
        String.toList_append, List.mem_append] at hSlash
      rcases hSlash with (hIn | hIn) | hIn
      · exact (hp.1.2 _ hIn).2 rfl
      · exact absurd hIn (by decide)
      · exact (hp.2.2 _ hIn).2 rfl

/- Without a period, full names tell signals apart. -/
theorem fullName_eq_iff
    (hp : PlainPick p)
    (hq : PlainPick q) :
    fullName false p.1.name p.2 = fullName false q.1.name q.2 ↔
      p.1.name = q.1.name ∧ p.2 = q.2 := by
  have hNone : ∀ {a b t : String}, IsPlain b →
      b ≠ a ++ "." ++ t := by
    rintro a b t hb rfl
    have hMark : '.' ∈ (a ++ "." ++ t).toList := by simp
    exact (hb.2 '.' hMark).1 rfl
  have hMark : ".".toList = ['.'] := rfl
  refine (joined_eq_iff hMark).trans ?_
  constructor
  · rintro (hSame | ⟨t, hName, _⟩ | ⟨t, hName, _⟩)
    · exact hSame
    · exact absurd hName (hNone hq.1)
    · exact absurd hName (hNone hp.1)
  · exact .inl

/- A period becomes an underscore, and nothing else changes. -/
theorem map_fullName
    (hp : PlainPick p) :
    (fullName single p.1.name p.2).map
        (fun c => if c = '.' then '_' else c) =
      flatName single p := by
  have hKeeps : ∀ s : String, IsPlain s →
      s.toList.map (fun c => if c = '.' then '_' else c) =
        s.toList := by
    intro s hs
    apply (List.map_congr_left fun c hc => ?_).trans (List.map_id _)
    exact if_neg (hs.2 c hc).1
  apply String.ext
  unfold fullName flatName
  rw [String.toList_map]
  split
  case isTrue => exact hKeeps _ hp.2
  case isFalse =>
      simp only [String.toList_append, List.map_append,
        hKeeps _ hp.1, hKeeps _ hp.2]
      rfl

/- The name of the record of one output, or of several. -/
def underStem
    (stem : Option String)
    (lone : Bool)
    (name : String) :
    String :=
  match stem with
  | none => name
  | some s => if lone then s else s ++ "_" ++ name

/- The record of an output that is named after its signal. -/
theorem goldenName_eq
    (hp : PlainPick p)
    (ho : IsOf single o p)
    (stem : Option String)
    (lone : Bool) :
    o.goldenName stem lone =
      underStem stem lone (flatName single p) := by
  have hText : o.name.map (fun c => if c = '.' then '_' else c) =
      flatName single p := by
    rw [ho.1, map_fullName hp]
  exact congrArg (underStem stem lone) hText

end Output

end Gatework

------------------------------------------------------------
-- Names of records
------------------------------------------------------------

namespace Gatework

namespace Output

/- The names of the records of outputs. -/
def recordNames
    (stem : Option String)
    (outputs : List Output) :
    List String :=
  outputs.map fun o => o.goldenName stem (outputs.length == 1)

variable {circuits : List Circuit}
variable {names : List String}
variable {outputs : List Output}
variable {single : Bool}

theorem plainPick_of_mem_chosen
    (hNamed : ∀ c ∈ circuits, c.Named IsPlain)
    {p : Circuit × String}
    (hp : p ∈ chosen circuits names) :
    PlainPick p := by
  rcases of_mem_chosen hp with ⟨hc, hDriven⟩
  exact ⟨(hNamed p.1 hc).name, (hNamed p.1 hc).driven p.2 hDriven⟩

/- What outputs and what they compute have in common. -/
theorem map_eq_of_isOf
    {α : Type}
    {f : Output → α}
    {g : Circuit × String → α}
    {picks : List (Circuit × String)}
    (hOutputs : List.Forall₂ (IsOf single) outputs picks)
    (hSame : ∀ o p, p ∈ picks → IsOf single o p → f o = g p) :
    outputs.map f = picks.map g := by
  induction hOutputs with
  | nil => rfl
  | @cons o p outputs picks ho _ ih =>
      rw [List.map_cons, List.map_cons,
        hSame o p (List.mem_cons_self ..) ho,
        ih fun o q hq => hSame o q (List.mem_cons_of_mem _ hq)]

section

variable (hNamed : ∀ c ∈ circuits, c.Named IsPlain)
variable (hOutputs : List.Forall₂ (IsOf single) outputs
  (chosen circuits names))
variable (hChosen : (chosen circuits names).Pairwise fun p q =>
  p.1.name = q.1.name → p.2 ≠ q.2)
variable (hSingle : single = true →
  ∀ p ∈ chosen circuits names, ∀ q ∈ chosen circuits names,
    p.1.name = q.1.name)

include hNamed hOutputs hChosen hSingle

/- Full names tell outputs apart. -/
theorem nodup_names :
    (outputs.map Output.name).Nodup := by
  rw [map_eq_of_isOf (g := fun p => fullName single p.1.name p.2)
    hOutputs fun o p _ ho => ho.1, List.Nodup, List.pairwise_map]
  apply hChosen.imp_of_mem
  intro p q hp hq hne hSame
  cases single with
  | true => exact hne (hSingle rfl p hp q hq) hSame
  | false =>
      have hBoth := (fullName_eq_iff
        (plainPick_of_mem_chosen hNamed hp)
        (plainPick_of_mem_chosen hNamed hq)).mp hSame
      exact hne hBoth.1 hBoth.2

omit hNamed hOutputs in
theorem nodup_flatNames_iff :
    ((chosen circuits names).map (flatName single)).Nodup ↔
      single = true ∨
        ∀ p ∈ chosen circuits names, ∀ q ∈ chosen circuits names,
          ¬ Meets p q := by
  cases single with
  | true =>
      refine ⟨fun _ => .inl rfl, fun _ => ?_⟩
      rw [List.Nodup, List.pairwise_map]
      apply hChosen.imp_of_mem
      intro p q hp hq hne hSame
      exact hne (hSingle rfl p hp q hq) hSame
  | false =>
      constructor
      · intro hNodup
        refine .inr fun p hp q hq hMeets => ?_
        have hSame := List.inj_on_of_nodup_map hNodup hp hq
          (flatName_eq_iff.mpr (.inr (.inl hMeets)))
        subst hSame
        exact not_meets_self p hMeets
      · rintro (hNone | hApart)
        · cases hNone
        · rw [List.Nodup, List.pairwise_map]
          apply hChosen.imp_of_mem
          intro p q hp hq hne hSame
          rcases flatName_eq_iff.mp hSame with
            hBoth | hMeets | hMeets
          · exact hne hBoth.1 hBoth.2
          · exact hApart p hp q hq hMeets
          · exact hApart q hq p hp hMeets

omit hChosen hSingle in
theorem recordNames_eq
    (stem : Option String) :
    recordNames stem outputs =
      ((chosen circuits names).map (flatName single)).map
        (underStem stem (outputs.length == 1)) := by
  rw [List.map_map]
  exact map_eq_of_isOf hOutputs fun o p hp ho =>
    goldenName_eq (plainPick_of_mem_chosen hNamed hp) ho stem _

/-
  Records have names of their own exactly if there is only
  one circuit or no two of the chosen signals meet.
-/
theorem nodup_recordNames_iff
    (stem : Option String) :
    (recordNames stem outputs).Nodup ↔
      single = true ∨
        ∀ p ∈ chosen circuits names, ∀ q ∈ chosen circuits names,
          ¬ Meets p q := by
  rw [← nodup_flatNames_iff hChosen hSingle,
    recordNames_eq hNamed hOutputs]
  cases hLone : outputs.length == 1 with
  | true =>
      rw [hOutputs.length_eq, beq_iff_eq,
        List.length_eq_one_iff] at hLone
      rcases hLone with ⟨p, hOnly⟩
      simp [hOnly]
  | false =>
      apply List.nodup_map_iff
      cases stem with
      | none => exact Function.injective_id
      | some s => exact fun _ _ h => (String.append_right_inj _).mp h

omit hChosen hSingle in
/-
  Names of several records are the same text, and then texts
  without a slash.
-/
theorem exists_front
    (stem : Option String)
    (hMany : outputs.length ≠ 1) :
    ∃ front, ∀ name ∈ recordNames stem outputs,
      ∃ rest, name = front ++ rest ∧ '/' ∉ rest.toList := by
  have hFlat : ∀ name ∈ (chosen circuits names).map
      (flatName single), '/' ∉ name.toList := by
    intro name hName
    rcases List.mem_map.mp hName with ⟨p, hp, rfl⟩
    exact not_mem_flatName (plainPick_of_mem_chosen hNamed hp)
  rw [recordNames_eq hNamed hOutputs,
    beq_eq_false_iff_ne.mpr hMany]
  cases stem with
  | none =>
      refine ⟨"", fun name hName => ?_⟩
      rw [List.mem_map] at hName
      rcases hName with ⟨flat, hIn, rfl⟩
      exact ⟨flat, String.empty_append.symm, hFlat flat hIn⟩
  | some s =>
      refine ⟨s ++ "_", fun name hName => ?_⟩
      rw [List.mem_map] at hName
      rcases hName with ⟨flat, hIn, rfl⟩
      exact ⟨flat, rfl, hFlat flat hIn⟩

omit hChosen hSingle in
/- Records with names of their own have files of their own. -/
theorem pairwise_beside
    {stem : Option String}
    (hNodup : (recordNames stem outputs).Nodup)
    (dir : String) :
    (recordNames stem outputs).Pairwise fun m n =>
      Path.Beside (Golden.pathIn dir m) (Golden.pathIn dir n) := by
  by_cases hLone : outputs.length = 1
  · rcases List.length_eq_one_iff.mp hLone with ⟨o, rfl⟩
    exact List.pairwise_singleton ..
  · rcases exists_front hNamed hOutputs stem hLone with
      ⟨front, hFront⟩
    apply hNodup.imp_of_mem
    intro m n hm hn hne
    rcases hFront m hm with ⟨x, rfl, hx⟩
    rcases hFront n hn with ⟨y, rfl, hy⟩
    have hFile : ∀ rest : String, '/' ∉ rest.toList →
        '/' ∉ (rest ++ ".json").toList := by
      intro rest hRest hIn
      rw [String.toList_append, List.mem_append] at hIn
      exact hIn.elim hRest (by decide)
    refine ⟨Path.join dir front, x ++ ".json", y ++ ".json",
      ?_, ?_, hFile x hx, hFile y hy, ?_⟩
    · rw [Golden.pathIn, String.append_assoc,
        Path.join_append _ _ (hFile x hx)]
    · rw [Golden.pathIn, String.append_assoc,
        Path.join_append _ _ (hFile y hy)]
    · intro hSame
      exact hne (congrArg (front ++ ·)
        ((String.append_left_inj _).mp hSame))

end

end Output

end Gatework
