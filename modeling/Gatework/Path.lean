/-
  File paths as texts, with `/` between components.

  Key definitions include:
    * `Path.join`
    * `Path.parent?`
    * `Path.fileName?`
    * `Path.stem?`
    * `Path.withFileName`
-/

------------------------------------------------------------
-- Components
------------------------------------------------------------

namespace Gatework

namespace Path

/- The pieces of a text between slashes. -/
def pieces
    (path : List Char) :
    List (List Char) :=
  path.splitOn '/'

/- A path from the root. -/
def isAbsolute
    (path : String) :
    Bool :=
  path.toList.head? == some '/'

/-
  The path of a second path seen from a first. One from the
  root stands for itself.
-/
def join
    (base path : String) :
    String :=
  if isAbsolute path ∨ base.isEmpty then path
  else if base.toList.getLast? = some '/' then base ++ path
  else base ++ "/" ++ path

end Path

end Gatework

------------------------------------------------------------
-- File names
------------------------------------------------------------

namespace Gatework

namespace Path

/-
  A path without slashes at its end and without components
  that stand for the directory itself there.
-/
def dropTail : List Char → List Char
  | '/' :: rest => dropTail rest
  | '.' :: '/' :: rest => dropTail ('/' :: rest)
  | rest => rest

/-
  Splits a path into what stands before its last component
  and that component.
-/
def splitLast
    (path : String) :
    List Char × List Char :=
  let kept := dropTail path.toList.reverse
  let name := (kept.takeWhile fun c => c != '/').reverse
  let before := (kept.dropWhile fun c => c != '/').reverse
  (before, name)

/- The last component, if it is a name. -/
def fileName?
    (path : String) :
    Option String :=
  let name := (splitLast path).2
  if name.isEmpty ∨ name = ['.'] ∨ name = ['.', '.'] then none
  else some (String.ofList name)

/- The file name without its last extension. -/
def stem?
    (path : String) :
    Option String := do
  let name ← fileName? path
  let cs := name.toList.reverse
  match cs.dropWhile fun c => c != '.' with
  | [] => return name
  | _ :: before =>
      if before.isEmpty then return name
      else return String.ofList before.reverse

/- Slashes at the end of a text that is not the root. -/
def dropSlashes
    (before : List Char) :
    List Char :=
  let kept := (dropTail before.reverse).reverse
  if kept.isEmpty then before.take 1 else kept

/- The path above the last component; none above the root. -/
def parent?
    (path : String) :
    Option String :=
  let (before, name) := splitLast path
  if name.isEmpty then none
  else some (String.ofList (dropSlashes before))

/-
  The path with another last component. A path without a file
  name gets one below it.
-/
def withFileName
    (path name : String) :
    String :=
  match fileName? path, parent? path with
  | some _, some above => join above name
  | _, _ => join path name

end Path

end Gatework
