import Gatework.Disk
import Gatework.Proofs.Expr.Typing

/-
  Files keep their texts.

  A path leads to a place in a folder. Making folders and
  writing a file touch no other place, and folders stay, so
  other paths lead where they led before. Paths that differ
  only behind their last slash lead to places that differ.

  Key definitions include:
    * `Disk.LeadsTo` and `Disk.Filed`
    * `Disk.Extends`, all that stands stays
    * `Path.Beside`, two files of one folder

  Key theorems include:
    * `Disk.grows_makeFolders`
    * `Disk.write_eq_ok`
    * `Disk.LeadsTo.ne_of_beside`
    * `Disk.Filed.write` and `Disk.filed_of_write`
-/

------------------------------------------------------------
-- Components of paths
------------------------------------------------------------

namespace Gatework

namespace Path

/-
  What follows a path without a slash becomes part of its last
  component.
-/
theorem exists_pieces_append
    (path : List Char) :
    ∃ above last, ∀ rest, '/' ∉ rest →
      pieces (path ++ rest) = above ++ [last ++ rest] := by
  induction path with
  | nil =>
      refine ⟨[], [], ?_⟩
      intro rest hRest
      exact List.splitOn_eq_singleton hRest
  | cons c path ih =>
      rcases ih with ⟨above, last, hPieces⟩
      unfold pieces at hPieces ⊢
      by_cases hSlash : c = '/'
      · refine ⟨[] :: above, last, ?_⟩
        intro rest hRest
        rw [List.cons_append, List.splitOn_cons_eq_if_modifyHead,
          if_pos (by simpa using hSlash), hPieces rest hRest]
        rfl
      · cases above with
        | nil =>
            refine ⟨[], c :: last, ?_⟩
            intro rest hRest
            rw [List.cons_append, List.splitOn_cons_eq_if_modifyHead,
              if_neg (by simpa using hSlash), hPieces rest hRest]
            rfl
        | cons first above =>
            refine ⟨(c :: first) :: above, last, ?_⟩
            intro rest hRest
            rw [List.cons_append, List.splitOn_cons_eq_if_modifyHead,
              if_neg (by simpa using hSlash), hPieces rest hRest]
            rfl

/- Two files of one folder. -/
def Beside
    (path other : String) :
    Prop :=
  ∃ front a b : String, path = front ++ a ∧ other = front ++ b ∧
    '/' ∉ a.toList ∧ '/' ∉ b.toList ∧ a ≠ b

theorem Beside.ne
    {path other : String}
    (h : Beside path other) :
    path ≠ other := by
  rcases h with ⟨front, a, b, rfl, rfl, _, _, hne⟩
  exact fun hSame => hne ((String.append_right_inj front).mp hSame)

theorem isAbsolute_append
    (path : String)
    {rest : String}
    (hRest : '/' ∉ rest.toList) :
    isAbsolute (path ++ rest) = isAbsolute path := by
  unfold isAbsolute
  rw [String.toList_append]
  cases path.toList with
  | cons c cs => rfl
  | nil =>
      rw [List.nil_append]
      cases hHead : rest.toList with
      | nil => rfl
      | cons c cs =>
          have hOther : c ≠ '/' := by
            rintro rfl
            exact hRest (hHead ▸ List.mem_cons_self ..)
          simp [hOther]

/- Joining looks only at the first component of a path. -/
theorem join_append
    (dir path : String)
    {rest : String}
    (hRest : '/' ∉ rest.toList) :
    join dir (path ++ rest) = join dir path ++ rest := by
  unfold join
  rw [isAbsolute_append path hRest]
  split
  · rfl
  · split
    · rw [String.append_assoc]
    · rw [String.append_assoc, String.append_assoc,
        String.append_assoc]

end Path

end Gatework

------------------------------------------------------------
-- Entries
------------------------------------------------------------

namespace Gatework

namespace Disk

variable {d d' d'' : Disk}
variable {p place : DiskPlace}

theorem find?_put
    (d : Disk)
    (hPlace : place.names ≠ [])
    (entry : DiskEntry)
    (p : DiskPlace) :
    (d.put place entry).find? p =
      if p = place then some entry else d.find? p := by
  unfold find?
  by_cases hRoot : p.names.isEmpty = true
  · have hOther : p ≠ place := by
      rintro rfl
      exact hPlace (List.isEmpty_iff.mp hRoot)
    simp [hRoot, hOther]
  · rw [if_neg hRoot, if_neg hRoot]
    by_cases hSame : p = place
    · subst hSame
      simp [put]
    · have hKeeps : ∀ e : DiskPlace × DiskEntry,
          (decide ((e.1 != place) = true ∧ (e.1 == p) = true)) =
            (e.1 == p) := by
        intro e
        by_cases hp : e.1 = p
        · simp [hp, hSame]
        · simp [hp]
      simp only [put, List.find?_cons, List.find?_filter, hKeeps,
        beq_eq_false_iff_ne.mpr (Ne.symm hSame), if_neg hSame]

theorem names_child_ne
    (p : DiskPlace)
    (name : String) :
    (p.child name).names ≠ [] := by
  simp [DiskPlace.child]

/- Whatever stands at a place on a disk still stands there. -/
def Extends
    (d d' : Disk) :
    Prop :=
  ∀ p e, d.find? p = some e → d'.find? p = some e

theorem Extends.refl
    (d : Disk) :
    d.Extends d :=
  fun _ _ h => h

theorem Extends.trans
    (hFirst : d.Extends d')
    (hSecond : d'.Extends d'') :
    d.Extends d'' :=
  fun p e h => hSecond p e (hFirst p e h)

/- The folders of a disk are folders of another one, too. -/
def KeepsFolders
    (d d' : Disk) :
    Prop :=
  ∀ p, d.find? p = some .folder → d'.find? p = some .folder

theorem Extends.keepsFolders
    (h : d.Extends d') :
    d.KeepsFolders d' :=
  fun p hFolder => h p .folder hFolder

/- Only the place of the null device is a sink. -/
def Usual
    (d : Disk) :
    Prop :=
  ∀ p, d.find? p = some .sink → p = ⟨.root, ["dev", "null"]⟩

/- What is put where nothing stood covers nothing. -/
theorem extends_put
    (hNone : d.find? place = none)
    (entry : DiskEntry) :
    d.Extends (d.put place entry) := by
  have hPlace : place.names ≠ [] := by
    intro hEmpty
    simp [find?, hEmpty] at hNone
  intro p e hFound
  rw [find?_put d hPlace, if_neg, hFound]
  rintro rfl
  rw [hNone] at hFound
  cases hFound

theorem Usual.put
    (h : d.Usual)
    (hPlace : place.names ≠ [])
    {entry : DiskEntry}
    (hEntry : entry ≠ .sink) :
    (d.put place entry).Usual := by
  intro p hSink
  rw [find?_put d hPlace] at hSink
  split at hSink
  case isTrue => exact absurd (Option.some.inj hSink) hEntry
  case isFalse => exact h p hSink

end Disk

end Gatework

------------------------------------------------------------
-- Places of paths
------------------------------------------------------------

namespace Gatework

namespace Disk

variable {d d' : Disk}
variable {path other name : String}
variable {here above folder place : DiskPlace}

/- A name that is looked up in a folder and can be one. -/
def IsEntry
    (name : String) :
    Prop :=
  ¬ isHere name ∧ name ≠ ".." ∧ name.utf8ByteSize ≤ 255

/-
  The names of a path but the last are those of folders. The
  last one, a proper name, is looked up in the last of them.
-/
def LeadsTo
    (d : Disk)
    (path : String)
    (place : DiskPlace) :
    Prop :=
  ∃ first above, start path = .ok first ∧
    d.walk first (names path).dropLast = .ok above ∧
    IsEntry ((names path).getLastD "") ∧
    place = above.child ((names path).getLastD "")

theorem lookUp_of_isEntry
    (d : Disk)
    (folder : DiskPlace)
    (hName : IsEntry name) :
    d.lookUp folder name = .ok (d.find? (folder.child name)) := by
  rcases hName with ⟨hHere, hOuter, hLength⟩
  unfold lookUp
  rw [if_neg (not_or.mpr ⟨hHere, hOuter⟩),
    if_neg (Nat.not_lt.mpr hLength)]

/- What is no folder was looked up under a proper name. -/
theorem isEntry_of_lookUp
    {found : Option DiskEntry}
    (hFound : d.lookUp folder name = .ok found)
    (hOther : found ≠ some .folder) :
    IsEntry name := by
  unfold lookUp at hFound
  split at hFound
  case isTrue =>
      cases hFound
      exact absurd rfl hOther
  case isFalse hName =>
      split at hFound
      case isTrue => cases hFound
      case isFalse hLength =>
          rcases not_or.mp hName with ⟨hHere, hOuter⟩
          exact ⟨hHere, hOuter, Nat.le_of_not_lt hLength⟩

theorem KeepsFolders.lookUp
    (h : d.KeepsFolders d')
    (hFound : d.lookUp folder name = .ok (some .folder)) :
    d'.lookUp folder name = .ok (some .folder) := by
  unfold Disk.lookUp at hFound ⊢
  split at hFound
  case isTrue hName => rw [if_pos hName]
  case isFalse hName =>
      split at hFound
      case isTrue => cases hFound
      case isFalse hLength =>
          rw [if_neg hName, if_neg hLength]
          exact congrArg Except.ok (h _ (Except.ok.inj hFound))

/- Where the name of a folder leads to from another one. -/
def entered
    (here : DiskPlace)
    (name : String) :
    DiskPlace :=
  if isHere name then here
  else if name = ".." then here.outer
  else here.child name

theorem walk_cons_eq_ok_iff
    {parts : List String} :
    d.walk here (name :: parts) = .ok above ↔
      d.lookUp here name = .ok (some .folder) ∧
        d.walk (entered here name) parts = .ok above := by
  have hNext : (if isHere name then d.walk here parts
      else if name = ".." then d.walk here.outer parts
      else d.walk (here.child name) parts) =
        d.walk (entered here name) parts := by
    unfold entered
    split
    · rfl
    · split <;> rfl
  rw [walk]
  cases d.lookUp here name with
  | error e => exact ⟨nofun, nofun⟩
  | ok found =>
      cases found with
      | none => exact ⟨nofun, nofun⟩
      | some entry =>
          cases entry with
          | folder =>
              rw [← hNext]
              exact ⟨fun h => ⟨rfl, h⟩, And.right⟩
          | file text => exact ⟨nofun, nofun⟩
          | sink => exact ⟨nofun, nofun⟩

/- Names lead on to the same folder. -/
theorem KeepsFolders.walk
    (h : d.KeepsFolders d')
    {parts : List String}
    (hWalk : d.walk here parts = .ok above) :
    d'.walk here parts = .ok above := by
  induction parts generalizing here with
  | nil => exact hWalk
  | cons name parts ih =>
      rcases walk_cons_eq_ok_iff.mp hWalk with ⟨hFound, hRest⟩
      exact walk_cons_eq_ok_iff.mpr ⟨h.lookUp hFound, ih hRest⟩

theorem LeadsTo.keeps
    (hPath : d.LeadsTo path place)
    (h : d.KeepsFolders d') :
    d'.LeadsTo path place := by
  rcases hPath with ⟨first, above, hStart, hWalk, hName, hPlace⟩
  exact ⟨first, above, hStart, h.walk hWalk, hName, hPlace⟩

/- What is located stands at the last name of the path. -/
theorem locate_eq_ok
    {parts : List String}
    {found : DiskPlace × Option DiskEntry}
    (hLocate : d.locate path parts = .ok found) :
    ∃ first above, start path = .ok first ∧
      d.walk first parts.dropLast = .ok above ∧
      d.lookUp above (parts.getLastD "") = .ok found.2 ∧
      found.1 = above.child (parts.getLastD "") := by
  rcases bind_eq_ok_iff.mp hLocate with ⟨first, hStart, hLocate⟩
  rcases bind_eq_ok_iff.mp hLocate with ⟨above, hWalk, hLocate⟩
  rcases bind_eq_ok_iff.mp hLocate with ⟨entry, hFound, hSame⟩
  cases hSame
  exact ⟨first, above, hStart, hWalk, hFound, rfl⟩

/- The text of a file is read. -/
theorem LeadsTo.read
    (hPath : d.LeadsTo path place)
    {text : String}
    (hFile : d.find? place = some (.file text)) :
    d.read path = .ok text := by
  rcases hPath with ⟨first, above, hStart, hWalk, hName, rfl⟩
  have hFound := lookUp_of_isEntry d above hName
  rw [hFile] at hFound
  have hLocate : d.locate path (names path) =
      .ok (above.child ((names path).getLastD ""),
        some (.file text)) := by
    simp only [locate, hStart, hWalk, hFound, bind, Except.bind,
      pure, Except.pure]
  simp only [Disk.read, hLocate, bind, Except.bind]

end Disk

end Gatework

------------------------------------------------------------
-- Folders and files
------------------------------------------------------------

namespace Gatework

namespace Disk

variable {d d' : Disk}
variable {path other text : String}
variable {p q place : DiskPlace}

/- A folder is made where nothing stood. -/
theorem makeFolder_eq_ok
    (hMade : makeFolder path d = .ok d') :
    ∃ place, d.find? place = none ∧ d' = d.put place .folder := by
  rcases bind_eq_ok_iff.mp hMade with
    ⟨⟨place, entry⟩, hLocate, hPut⟩
  cases entry with
  | some entry => cases hPut
  | none =>
      cases hPut
      rcases locate_eq_ok hLocate with
        ⟨first, above, _, _, hFound, hPlace⟩
      have hName := isEntry_of_lookUp hFound nofun
      rw [lookUp_of_isEntry d above hName] at hFound
      refine ⟨place, ?_, rfl⟩
      rw [show place = _ from hPlace]
      exact Except.ok.inj hFound

/- Changes that cover nothing and add no sinks. -/
structure Grows
    (d d' : Disk) :
    Prop where
  stays : d.Extends d'
  usual : d.Usual → d'.Usual

theorem Grows.refl
    (d : Disk) :
    d.Grows d :=
  ⟨Extends.refl d, id⟩

theorem Grows.trans
    {d'' : Disk}
    (hFirst : d.Grows d')
    (hSecond : d'.Grows d'') :
    d.Grows d'' :=
  ⟨hFirst.stays.trans hSecond.stays,
    fun h => hSecond.usual (hFirst.usual h)⟩

theorem grows_makeFolder
    (hMade : makeFolder path d = .ok d') :
    d.Grows d' := by
  rcases makeFolder_eq_ok hMade with ⟨place, hNone, rfl⟩
  have hPlace : place.names ≠ [] := by
    intro hEmpty
    simp [find?, hEmpty] at hNone
  exact ⟨extends_put hNone _, fun h => h.put hPlace nofun⟩

theorem grows_ensureFolder
    (hMade : ensureFolder path d = .ok d') :
    d.Grows d' := by
  unfold ensureFolder at hMade
  split at hMade
  case h_1 after hAfter =>
      cases hMade
      exact grows_makeFolder hAfter
  case h_2 =>
      split at hMade
      · cases hMade
        exact Grows.refl d
      · cases hMade

/- A change that fails leaves the disk as it was. -/
theorem grows_attempt
    {change : Disk → Except DiskError Disk}
    (hChange : ∀ d', change d = .ok d' → d.Grows d') :
    d.Grows (attempt change d).2 := by
  unfold attempt
  split
  case h_1 after hAfter => exact hChange after hAfter
  case h_2 => exact Grows.refl d

theorem grows_makeFoldersBy
    (n : Nat)
    (path : String)
    (d : Disk) :
    d.Grows (makeFoldersBy n path d).2 := by
  have hEnsure : ∀ d : Disk,
      d.Grows (attempt (ensureFolder path) d).2 :=
    fun d => grows_attempt fun _ h => grows_ensureFolder h
  induction n generalizing path d with
  | zero => exact hEnsure d
  | succ n ih =>
      rw [makeFoldersBy]
      dsimp only
      split
      case h_1 above _ _ =>
          split
          case isTrue => exact hEnsure d
          case isFalse =>
              have hAbove := ih above d fun d =>
                grows_attempt fun _ h => grows_ensureFolder h
              split
              case h_1 after hMade =>
                  rw [hMade] at hAbove
                  exact hAbove.trans (hEnsure after)
              case h_2 => exact hAbove
      case h_2 => exact hEnsure d

/- Making folders covers nothing, even where it fails. -/
theorem grows_makeFolders
    (path : String)
    (d : Disk) :
    d.Grows (makeFolders path d).2 := by
  unfold makeFolders
  split
  · exact Grows.refl d
  · exact grows_makeFoldersBy _ path d

/-
  A file is written at the place of its path, unless that is a
  sink, which stays.
-/
theorem write_eq_ok
    (hWrite : d.write path text = .ok d') :
    ∃ place, d.LeadsTo path place ∧
      d.find? place ≠ some .folder ∧
      d' = if d.find? place = some .sink then d
        else d.put place (.file text) := by
  rcases bind_eq_ok_iff.mp hWrite with ⟨first, hStart, hWrite⟩
  rcases bind_eq_ok_iff.mp hWrite with ⟨above, hWalk, hWrite⟩
  split at hWrite
  case isTrue => cases hWrite
  case isFalse hBare =>
      rw [Decidable.not_not.mp hBare] at hWalk hWrite
      rcases bind_eq_ok_iff.mp hWrite with ⟨found, hFound, hPut⟩
      have hOther : found ≠ some .folder := by
        rintro rfl
        cases hPut
      have hName := isEntry_of_lookUp hFound hOther
      rw [lookUp_of_isEntry d above hName] at hFound
      cases hFound
      refine ⟨_, ⟨first, above, hStart, hWalk, hName, rfl⟩,
        hOther, ?_⟩
      split at hPut
      case h_1 hFolder => exact absurd hFolder hOther
      case h_2 hSink =>
          cases hPut
          rw [if_pos hSink]
      case h_3 hNotSink =>
          cases hPut
          rw [if_neg hNotSink]

end Disk

end Gatework

------------------------------------------------------------
-- Files side by side
------------------------------------------------------------

namespace Gatework

namespace Disk

variable {d d' : Disk}
variable {path other text : String}
variable {p q place : DiskPlace}

theorem exists_names_append
    (front : String) :
    ∃ (above : List String) (last : String), ∀ rest : String,
      '/' ∉ rest.toList →
      names (front ++ rest) = above ++ [last ++ rest] := by
  rcases Path.exists_pieces_append front.toList with
    ⟨above, last, hPieces⟩
  refine ⟨above.map String.ofList, String.ofList last, ?_⟩
  intro rest hRest
  rw [names, String.toList_append, hPieces _ hRest,
    List.map_append, List.map_singleton, String.ofList_append,
    String.ofList_toList]

/- Where a path starts is told by its first character. -/
theorem start_eq_ok
    {first : DiskPlace}
    (hStart : start path = .ok first) :
    first = if Path.isAbsolute path then ⟨.root, []⟩
      else .working := by
  unfold start at hStart
  split at hStart
  · cases hStart
  · split at hStart
    · cases hStart
    · split at hStart
      · cases hStart
      · split at hStart
        case isTrue hRoot =>
            cases hStart
            rw [if_pos hRoot]
        case isFalse hRoot =>
            cases hStart
            rw [if_neg hRoot]

/- Two files of one folder have places of their own. -/
theorem LeadsTo.ne_of_beside
    (hPath : d.LeadsTo path p)
    (hOther : d.LeadsTo other q)
    (hBeside : Path.Beside path other) :
    p ≠ q := by
  rcases hBeside with ⟨front, a, b, rfl, rfl, ha, hb, hne⟩
  rcases exists_names_append front with ⟨above, last, hNames⟩
  rcases hPath with ⟨first, here, hStart, hWalk, _, rfl⟩
  rcases hOther with ⟨first', here', hStart', hWalk', _, rfl⟩
  have hFirst : first = first' := by
    rw [start_eq_ok hStart, start_eq_ok hStart',
      Path.isAbsolute_append front ha,
      Path.isAbsolute_append front hb]
  rw [hNames a ha, List.dropLast_concat] at hWalk
  rw [hNames b hb, List.dropLast_concat, ← hFirst] at hWalk'
  have hHere : here = here' :=
    Except.ok.inj (hWalk.symm.trans hWalk')
  subst hHere
  intro hSame
  have hEnds : last ++ a = last ++ b := by
    simpa [DiskPlace.child, hNames a ha, hNames b hb] using hSame
  exact hne ((String.append_right_inj last).mp hEnds)

/- A path leads to a file with this text. -/
def Filed
    (d : Disk)
    (path text : String) :
    Prop :=
  ∃ place, d.LeadsTo path place ∧
    d.find? place = some (.file text)

theorem Filed.read
    (h : d.Filed path text) :
    d.read path = .ok text := by
  rcases h with ⟨place, hPath, hFile⟩
  exact hPath.read hFile

theorem Filed.extends
    (h : d.Filed path text)
    (hExtends : d.Extends d') :
    d'.Filed path text := by
  rcases h with ⟨place, hPath, hFile⟩
  exact ⟨place, hPath.keeps hExtends.keepsFolders,
    hExtends place _ hFile⟩

/- Writing a file removes no folder. -/
theorem keepsFolders_write
    (hWrite : d.write path text = .ok d') :
    d.KeepsFolders d' := by
  rcases write_eq_ok hWrite with ⟨place, hPath, hOther, rfl⟩
  have hPlace : place.names ≠ [] := by
    rcases hPath with ⟨_, above, _, _, _, rfl⟩
    exact names_child_ne above _
  intro p hFolder
  split
  case isTrue => exact hFolder
  case isFalse =>
      rw [find?_put d hPlace, if_neg, hFolder]
      rintro rfl
      exact hOther hFolder

theorem usual_write
    (h : d.Usual)
    (hWrite : d.write path text = .ok d') :
    d'.Usual := by
  rcases write_eq_ok hWrite with ⟨place, hPath, _, rfl⟩
  rcases hPath with ⟨_, above, _, _, _, rfl⟩
  split
  case isTrue => exact h
  case isFalse => exact h.put (names_child_ne above _) nofun

/- A file keeps its text when one beside it is written. -/
theorem Filed.write
    {new : String}
    (h : d.Filed other text)
    (hBeside : Path.Beside other path)
    (hWrite : d.write path new = .ok d') :
    d'.Filed other text := by
  rcases h with ⟨q, hOther, hFile⟩
  refine ⟨q, hOther.keeps (keepsFolders_write hWrite), ?_⟩
  rcases write_eq_ok hWrite with ⟨p, hPath, _, rfl⟩
  have hApart := hOther.ne_of_beside hPath hBeside
  rcases hPath with ⟨_, above, _, _, _, rfl⟩
  split
  case isTrue => exact hFile
  case isFalse =>
      rw [find?_put d (names_child_ne above _),
        if_neg hApart, hFile]

/-
  What is written is there to be read, where the path does not
  lead to a sink.
-/
theorem filed_of_write
    (hSink : ∀ place, d.LeadsTo path place →
      d.find? place ≠ some .sink)
    (hWrite : d.write path text = .ok d') :
    d'.Filed path text := by
  have hFolders := keepsFolders_write hWrite
  rcases write_eq_ok hWrite with ⟨place, hPath, _, rfl⟩
  refine ⟨place, hPath.keeps hFolders, ?_⟩
  rw [if_neg (hSink place hPath)]
  rcases hPath with ⟨_, above, _, _, _, rfl⟩
  rw [find?_put d (names_child_ne above _), if_pos rfl]

/- The null device has no extension. -/
theorem Usual.not_sink
    (h : d.Usual)
    {front extension : String}
    (hSlash : '/' ∉ extension.toList)
    (hLength : 4 < extension.toList.length)
    (hPath : d.LeadsTo (front ++ extension) place) :
    d.find? place ≠ some .sink := by
  rcases exists_names_append front with ⟨above, last, hNames⟩
  rcases hPath with ⟨_, here, _, _, _, rfl⟩
  rw [hNames extension hSlash, List.getLastD_concat]
  intro hSink
  have hNull : here.names ++ [last ++ extension] =
      ["dev"] ++ ["null"] :=
    congrArg DiskPlace.names (h _ hSink)
  have hText := (List.append_inj' hNull rfl).2
  have hSize : (last ++ extension).toList.length = 4 := by
    rw [(List.cons.inj hText).1]
    rfl
  rw [String.toList_append, List.length_append] at hSize
  omega

end Disk

end Gatework
