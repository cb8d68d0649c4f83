import Gatework.Path

/-
  Files and folders, and what programs need of them.

  Files are kept below a working folder and below the folders
  around it, whose names are not known. Of the rest of the
  system only the places that every system has are known.

  Key definitions include:
    * `DiskError`
    * `DiskPlace`
    * `Disk`
    * `Disk.read`, `Disk.write` and `Disk.makeFolders`
    * `DiskAccess`
-/

------------------------------------------------------------
-- Errors
------------------------------------------------------------

namespace Gatework

/- Why an access fails. -/
inductive DiskError where
  | missing
  | alreadyThere
  | notFolder
  | isFolder
  | nameTooLong
  | nulInName
deriving DecidableEq, Repr, Inhabited

namespace DiskError

def message : DiskError → String
  | missing => "No such file or directory (os error 2)"
  | alreadyThere => "File exists (os error 17)"
  | notFolder => "Not a directory (os error 20)"
  | isFolder => "Is a directory (os error 21)"
  | nameTooLong => "File name too long (os error 36)"
  | nulInName => "file name contained an unexpected NUL byte"

end DiskError

end Gatework

------------------------------------------------------------
-- Places
------------------------------------------------------------

namespace Gatework

/-
  A folder to start from: the root, or one some levels above
  the working folder, which itself is at level 0.
-/
inductive Anchor where
  | root
  | above (levels : Nat)
deriving DecidableEq, Repr, Inhabited

/- The names that lead from a folder to what they name. -/
structure DiskPlace where
  anchor : Anchor
  names : List String := []
deriving DecidableEq, Repr, Inhabited

namespace DiskPlace

/- The working folder. -/
def working : DiskPlace :=
  ⟨.above 0, []⟩

/- The place of a name in a folder. -/
def child
    (p : DiskPlace)
    (name : String) :
    DiskPlace :=
  { p with names := p.names ++ [name] }

/- The folder around a place. The root is its own. -/
def outer
    (p : DiskPlace) :
    DiskPlace :=
  if p.names.isEmpty then
    match p.anchor with
    | .root => p
    | .above levels => ⟨.above (levels + 1), []⟩
  else
    { p with names := p.names.dropLast }

end DiskPlace

end Gatework

------------------------------------------------------------
-- Entries
------------------------------------------------------------

namespace Gatework

/-
  What stands at a place: a file with its text, a folder, or a
  sink, which is empty whatever is written to it.
-/
inductive DiskEntry where
  | file (text : String)
  | folder
  | sink
deriving DecidableEq, Repr, Inhabited

/- The places that every system has. -/
def standingEntries : List (DiskPlace × DiskEntry) :=
  (⟨.root, ["dev", "null"]⟩, .sink) ::
    ["bin", "dev", "etc", "home", "lib", "proc", "root", "tmp", "usr",
      "var"].map fun name => (⟨.root, [name]⟩, .folder)

/- Entries by their places. -/
structure Disk where
  entries : List (DiskPlace × DiskEntry) := standingEntries
deriving Repr, Inhabited

namespace Disk

/- The entry at a place. A place without names is a folder. -/
def find?
    (d : Disk)
    (place : DiskPlace) :
    Option DiskEntry :=
  if place.names.isEmpty then some .folder
  else (d.entries.find? fun entry => entry.1 == place).map Prod.snd

/- The disk with another entry at a place. -/
def put
    (d : Disk)
    (place : DiskPlace)
    (entry : DiskEntry) :
    Disk :=
  ⟨(place, entry) :: d.entries.filter fun e => e.1 != place⟩

/- The paths of all files in the working folder, with texts. -/
def files
    (d : Disk) :
    List (String × String) :=
  d.entries.filterMap fun (place, entry) =>
    match place.anchor, entry with
    | .above 0, .file text =>
        some (String.intercalate "/" place.names, text)
    | _, _ => none

/- The files that are new or have another text than before. -/
def changesSince
    (after before : Disk) :
    List (String × String) :=
  after.files.filter fun f => !before.files.contains f

end Disk

end Gatework

------------------------------------------------------------
-- Paths
------------------------------------------------------------

namespace Gatework

namespace Disk

/- The names of a path, with empty ones between slashes. -/
def names
    (path : String) :
    List String :=
  (Path.pieces path.toList).map String.ofList

/- The names of a path without the slashes at its end. -/
def bareNames
    (path : String) :
    List String :=
  ((names path).reverse.dropWhile String.isEmpty).reverse

/- A name that stands for the folder it is looked up in. -/
def isHere
    (name : String) :
    Bool :=
  name == "" || name == "."

/- The folder a path starts from, if it can be a path at all. -/
def start
    (path : String) :
    Except DiskError DiskPlace :=
  if path.toList.contains '\x00' then .error .nulInName
  else if path.isEmpty then .error .missing
  else if 4096 ≤ path.utf8ByteSize then .error .nameTooLong
  else if Path.isAbsolute path then .ok ⟨.root, []⟩
  else .ok .working

/- What stands at a name in a folder, if anything does. -/
def lookUp
    (d : Disk)
    (folder : DiskPlace)
    (name : String) :
    Except DiskError (Option DiskEntry) :=
  if isHere name ∨ name = ".." then .ok (some .folder)
  else if 255 < name.utf8ByteSize then .error .nameTooLong
  else .ok (d.find? (folder.child name))

/- The folder that names lead to from another one. -/
def walk
    (d : Disk) :
    DiskPlace → List String → Except DiskError DiskPlace
  | here, [] => .ok here
  | here, name :: names => do
      match ← d.lookUp here name with
      | none => .error .missing
      | some .folder =>
          if isHere name then walk d here names
          else if name = ".." then walk d here.outer names
          else walk d (here.child name) names
      | some _ => .error .notFolder

/-
  The place that the names of a path end at, and what stands
  there. All but the last must be those of folders.
-/
def locate
    (d : Disk)
    (path : String)
    (names : List String) :
    Except DiskError (DiskPlace × Option DiskEntry) := do
  let above ← d.walk (← start path) names.dropLast
  let name := names.getLastD ""
  return (above.child name, ← d.lookUp above name)

/- Whether a path leads to a folder. -/
def isFolder
    (d : Disk)
    (path : String) :
    Bool :=
  match d.locate path (names path) with
  | .ok (_, some .folder) => true
  | _ => false

end Disk

end Gatework

------------------------------------------------------------
-- Reading and writing
------------------------------------------------------------

namespace Gatework

namespace Disk

/- The text of a file. -/
def read
    (d : Disk)
    (path : String) :
    Except DiskError String := do
  match ← d.locate path (names path) with
  | (_, none) => .error .missing
  | (_, some .folder) => .error .isFolder
  | (_, some .sink) => .ok ""
  | (_, some (.file text)) => .ok text

/-
  Makes a file with a text or gives one another text. The
  folder around it must be there, and a path that ends with a
  slash is not that of a file.
-/
def write
    (d : Disk)
    (path text : String) :
    Except DiskError Disk := do
  let bare := bareNames path
  let above ← d.walk (← start path) bare.dropLast
  let name := bare.getLastD ""
  if bare ≠ names path then
    .error .isFolder
  else
    match ← d.lookUp above name with
    | some .folder => .error .isFolder
    | some .sink => .ok d
    | _ => .ok (d.put (above.child name) (.file text))

/- Makes one folder. -/
def makeFolder
    (path : String)
    (d : Disk) :
    Except DiskError Disk := do
  match ← d.locate path (bareNames path) with
  | (place, none) => .ok (d.put place .folder)
  | (_, some _) => .error .alreadyThere

/- Makes one folder unless it is there. -/
def ensureFolder
    (path : String)
    (d : Disk) :
    Except DiskError Disk :=
  match makeFolder path d with
  | .ok after => .ok after
  | .error e => if d.isFolder path then .ok d else .error e

/- A change of the disk that may fail and then changes nothing. -/
def attempt
    (change : Disk → Except DiskError Disk) :
    StateM Disk (Except DiskError Unit) :=
  fun d =>
    match change d with
    | .ok after => (.ok (), after)
    | .error e => (.error e, d)

/-
  Makes a folder and up to a number of folders around it. The
  ones around it are made only if it cannot be made without
  them, and stay if it cannot be made with them.
-/
def makeFoldersBy : Nat → String → StateM Disk (Except DiskError Unit)
  | 0, path => attempt (ensureFolder path)
  | n + 1, path => fun d =>
      match makeFolder path d, Path.parent? path with
      | .error .missing, some above =>
          if above.isEmpty then
            attempt (ensureFolder path) d
          else
            match makeFoldersBy n above d with
            | (.ok (), after) => attempt (ensureFolder path) after
            | failed => failed
      | _, _ => attempt (ensureFolder path) d

/- Makes the folders of a path that are not there. -/
def makeFolders
    (path : String) :
    StateM Disk (Except DiskError Unit) :=
  if path.isEmpty then pure (.ok ())
  else makeFoldersBy path.length path

/- Puts a file on a disk together with the folders around it. -/
def place
    (d : Disk)
    (path text : String) :
    Except DiskError Disk := do
  match makeFolders ((Path.parent? path).getD "") d with
  | (.ok (), d) => d.write path text
  | (.error e, _) => .error e

end Disk

end Gatework

------------------------------------------------------------
-- Access
------------------------------------------------------------

namespace Gatework

/- What a program does with files. -/
class DiskAccess (m : Type → Type) where
  readText : String → m (Except DiskError String)
  writeText : String → String → m (Except DiskError Unit)
  makeFolders : String → m (Except DiskError Unit)

instance : DiskAccess (StateM Disk) where
  readText path := fun d => (d.read path, d)
  writeText path text := Disk.attempt fun d => d.write path text
  makeFolders path := Disk.makeFolders path

end Gatework
