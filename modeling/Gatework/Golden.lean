import Gatework.Path
import Gatework.Diagram.Build
import Gatework.Json.Parser

/-
  Golden records: the function of one output, kept so that a
  later run can tell whether the logic has changed.

  Key definitions include:
    * `Golden`
    * `Golden.capture`
    * `Golden.text` and `Golden.parse?`
    * `Golden.compare`
-/

------------------------------------------------------------
-- Records
------------------------------------------------------------

namespace Gatework

/-
  One record: the canonical text of an output, its digest,
  and the signals read, sorted and in order of declaration.
-/
structure Golden where
  name : String
  digest : Digest
  expr : String
  flat : List String
  decl : List String
deriving DecidableEq, Repr, Inhabited

namespace Golden

/-
  The names read, in order of declaration. Names that are not
  read are dropped, and names read but not declared follow in
  ascending order.
-/
def declared
    (flat order : List String) :
    List String :=
  let known := order.filter fun n => flat.contains n
  known ++ flat.filter fun n => !known.contains n

/- Records an expression under a name. -/
def capture
    (name : String)
    (e : Expr)
    (order : List String) :
    Except DiagramError Golden := do
  let explained ← e.explainLogic
  let flat := e.freeVars.names
  return ⟨name, explained.digest, explained.canonical, flat,
    declared flat order⟩

/- The file of a record in a directory. -/
def pathIn
    (dir name : String) :
    String :=
  Path.join dir (name ++ ".json")

end Golden

end Gatework

------------------------------------------------------------
-- Text
------------------------------------------------------------

namespace Gatework

namespace Golden

def toJson
    (g : Golden) :
    Json :=
  .obj
    [("name", .str g.name),
      ("hash", .str g.digest.hex),
      ("expr", .str g.expr),
      ("inputs",
        .obj [("flat", .strings g.flat),
          ("decl", .strings g.decl)])]

/- The text of a record. -/
def text
    (g : Golden) :
    String :=
  g.toJson.pretty

/- The only value of a member; none if it is there twice. -/
def member?
    (key : String)
    (members : List (String × Json)) :
    Option Json :=
  match members.filter fun m => m.1 == key with
  | [m] => some m.2
  | _ => none

def asString? : Json → Option String
  | .str s => some s
  | _ => none

def asStrings? : Json → Option (List String)
  | .arr items => items.mapM asString?
  | _ => none

/- Values of the fields of an object or a list. -/
def fields?
    (keys : List String) :
    Json → Option (List Json)
  | .obj members => keys.mapM fun key => member? key members
  | .arr items =>
      if items.length = keys.length then some items else none
  | _ => none

/- A digest from its digits. -/
def asDigest?
    (j : Json) :
    Option Digest := do
  let s ← asString? j
  (Digest.ofHex s).toOption

/-
  A record from a JSON value: an object, whose other members
  do not matter, or the list of its fields.
-/
def ofJson?
    (j : Json) :
    Option Golden := do
  match ← fields? ["name", "hash", "expr", "inputs"] j with
  | [name, hash, expr, inputs] =>
      match ← fields? ["flat", "decl"] inputs with
      | [flat, decl] =>
          return ⟨← asString? name, ← asDigest? hash,
            ← asString? expr, ← asStrings? flat,
            ← asStrings? decl⟩
      | _ => none
  | _ => none

/- Reads a record. -/
def parse?
    (s : String) :
    Option Golden := do
  let j ← Json.parse? s
  ofJson? j

end Golden

end Gatework

------------------------------------------------------------
-- Comparison
------------------------------------------------------------

namespace Gatework

/- How a fresh record compares with a stored one. -/
inductive Verdict where
  | agrees
  | digestDiffers (expected actual : Digest)
  | inputsChanged (expected actual : List String)
deriving DecidableEq, Repr, Inhabited

namespace Verdict

def isMatch : Verdict → Bool
  | agrees => true
  | _ => false

def message : Verdict → String
  | agrees => "match"
  | digestDiffers expected actual =>
      "hash mismatch: expected " ++ expected.hex ++ ", got " ++
        actual.hex
  | inputsChanged expected actual =>
      "inputs changed: expected [" ++
        String.intercalate ", " expected ++ "], got [" ++
        String.intercalate ", " actual ++ "]"

end Verdict

namespace Golden

/- Compares a fresh record with a stored one. -/
def compare
    (fresh stored : Golden) :
    Verdict :=
  if fresh.flat ≠ stored.flat then
    .inputsChanged stored.flat fresh.flat
  else if fresh.digest ≠ stored.digest then
    .digestDiffers stored.digest fresh.digest
  else
    .agrees

end Golden

end Gatework
