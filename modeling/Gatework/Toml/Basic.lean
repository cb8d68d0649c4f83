import Gatework.Toml.Error

/-
  TOML documents: values, and tables put together from
  headers and entries.

  A table is defined once. A header may name a table that so
  far was only passed through on the way to a deeper one, and
  dotted keys may extend tables that dotted keys have made.

  Key definitions include:
    * `Toml`
    * `Toml.Route` and `Toml.descend`
    * `Toml.Outline`
    * `Toml.assemble`
-/

------------------------------------------------------------
-- Values
------------------------------------------------------------

namespace Gatework

/-
  How a table came about: by its own header, on the way to a
  deeper header, by dotted keys, or as a value in braces.
-/
inductive TableOrigin where
  | header
  | implied
  | dotted
  | inline
deriving DecidableEq, Repr, Inhabited

/-
  Values. Numbers with a fraction or exponent, dates and times
  keep their text. An array is made of headers or of values.
-/
inductive Toml where
  | string (s : String)
  | integer (n : Int)
  | float (text : String)
  | boolean (b : Bool)
  | moment (text : String)
  | array (byHeaders : Bool) (items : List Toml)
  | table (origin : TableOrigin) (entries : List (String × Toml))
deriving Repr, Inhabited

namespace Toml

/- What a value is, in a message. -/
def kind : Toml → String
  | string _ => "string"
  | integer _ => "integer"
  | float _ => "float"
  | boolean _ => "boolean"
  | moment _ => "datetime"
  | array _ _ => "array"
  | table .inline _ => "inline table"
  | table _ _ => "table"

/- The entries of a table, in the order they were made. -/
abbrev Entries := List (String × Toml)

namespace Entries

/- The value at a key. -/
def find?
    (key : String)
    (entries : Entries) :
    Option Toml :=
  (List.find? (fun entry => entry.1 == key) entries).map Prod.snd

/- The entries with another value at a key that is there. -/
def replace
    (key : String)
    (value : Toml)
    (entries : Entries) :
    Entries :=
  entries.map fun entry =>
    if entry.1 = key then (key, value) else entry

/- The entries without a key. -/
def erase
    (key : String)
    (entries : Entries) :
    Entries :=
  entries.filter fun entry => entry.1 != key

/- The entries with a new key at the end. -/
def append?
    (key : String)
    (value : Toml)
    (entries : Entries) :
    Option Entries :=
  match entries.find? key with
  | some _ => none
  | none => some (entries ++ [(key, value)])

end Entries

end Toml

end Gatework

------------------------------------------------------------
-- Paths into tables
------------------------------------------------------------

namespace Gatework

namespace Toml

/- Where a path stands: in a header, on a line, or in braces. -/
inductive Route where
  | header
  | line
  | braces
deriving DecidableEq, Repr, Inhabited

namespace Route

/- How tables come about that are missing on a path. -/
def origin : Route → TableOrigin
  | header => .implied
  | line => .dotted
  | braces => .dotted

/-
  Whether a path leads through a value. Dotted keys do not
  extend a table that is complete: one with a header on lines,
  and one with braces inside braces.
-/
def enters : Route → Toml → Bool
  | _, table .dotted _ => true
  | braces, _ => false
  | _, table .implied _ => true
  | header, table .header _ => true
  | _, array byHeaders _ => byHeaders
  | _, _ => false

/- The error of a path that ends in a key before its time. -/
def refusal
    (path : List String)
    (key : String) :
    Route → Toml → TomlError
  | line, table .header _ => .repeatedKey key none
  | braces, table _ _ => .repeatedKey key none
  | header, v => .inHeader (.notTable path v.kind)
  | _, v => .notTable path v.kind

end Route

/-
  Changes the table at the end of a path. Missing tables on
  the way are made, and the last table of an array made by
  headers is entered. The second list holds the keys behind.
-/
def descend
    (route : Route)
    (change : TableOrigin → Entries → Except TomlError Entries) :
    List String → List String → TableOrigin → Entries →
      Except TomlError Entries
  | [], _, origin, entries => change origin entries
  | key :: path, behind, _, entries =>
      let here := behind ++ [key]
      match entries.find? key with
      | none => do
          let inner ← descend route change path here route.origin []
          return entries ++ [(key, .table route.origin inner)]
      | some value =>
          if route.enters value then
            match value with
            | .table origin inner => do
                let inner ← descend route change path here origin inner
                return entries.replace key (.table origin inner)
            | .array byHeaders items =>
                match items.getLast? with
                | some (.table origin inner) => do
                    let inner ←
                      descend route change path here origin inner
                    return entries.replace key
                      (.array byHeaders
                        (items.dropLast ++ [.table origin inner]))
                | _ => .error (route.refusal here key value)
            | _ => .error (route.refusal here key value)
          else
            .error (route.refusal here key value)

/- A key, possibly dotted, with its value. -/
structure Entry where
  path : List String
  key : String
  value : Toml
deriving Repr, Inhabited

/-
  Adds an entry to a table whose place a message may tell.
  Behind dots it must stand in a table that dotted keys have
  made.
-/
def addEntry
    (route : Route)
    (place : Option (List String))
    (entries : Entries)
    (e : Entry) :
    Except TomlError Entries :=
  descend route
    (fun origin inner =>
      if (origin == .dotted) == e.path.isEmpty then
        .error (.repeatedKey e.key none)
      else
        match inner.append? e.key e.value with
        | some inner => .ok inner
        | none => .error (.repeatedKey e.key place))
    e.path [] .header entries

/- Adds the entries of lines one after the other. -/
def addLines
    (place : List String)
    (start : Entries)
    (es : List Entry) :
    Except TomlError Entries :=
  es.foldlM (addEntry .line (some place)) start

/- The table of entries in braces. -/
def inlineTable
    (es : List Entry) :
    Except TomlError Toml :=
  (es.foldlM (addEntry .braces none) []).map (table .inline)

end Toml

end Gatework

------------------------------------------------------------
-- Documents
------------------------------------------------------------

namespace Gatework

namespace Toml

/- A header: the path to a table, or to an array it extends. -/
structure Header where
  path : List String
  key : String
  extendsArray : Bool
deriving Repr, Inhabited

namespace Header

/- The path that ends with the key itself. -/
def place
    (h : Header) :
    List String :=
  h.path ++ [h.key]

/- The error of a header for something that is defined. -/
def repeated
    (h : Header) :
    TomlError :=
  .inHeader (.repeatedKey (writtenKey h.key) (some h.path))

end Header

/- A header and the entries up to the next one. -/
structure Section where
  header : Header
  entries : List Entry
deriving Repr, Inhabited

/-
  Adds the table of a section. One that was passed through
  before is filled and moves to the end.
-/
def addTable
    (s : Section)
    (entries : Entries) :
    Except TomlError Entries :=
  let key := s.header.key
  match entries.find? key with
  | none => do
      let inner ← addLines s.header.place [] s.entries
      return entries ++ [(key, .table .header inner)]
  | some (.table .implied start) => do
      let inner ← addLines s.header.place start s.entries
      return entries.erase key ++ [(key, .table .header inner)]
  | some _ => .error s.header.repeated

/- Adds the table of a section to its array. -/
def addToArray
    (s : Section)
    (entries : Entries) :
    Except TomlError Entries :=
  let key := s.header.key
  match entries.find? key with
  | none => do
      let inner ← addLines s.header.place [] s.entries
      return entries ++ [(key, .array true [.table .header inner])]
  | some (.array true items) => do
      let inner ← addLines s.header.place [] s.entries
      return entries.replace key
        (.array true (items ++ [.table .header inner]))
  | some _ => .error s.header.repeated

/- Adds a section to a document. -/
def addSection
    (root : Entries)
    (s : Section) :
    Except TomlError Entries :=
  descend .header
    (fun _ inner =>
      if s.header.extendsArray then addToArray s inner
      else addTable s inner)
    s.header.path [] .header root

/- Entries before the first header, then sections. -/
structure Outline where
  top : List Entry := []
  sections : List Section := []
deriving Repr, Inhabited

namespace Outline

/- The outline with an entry in front of all. -/
def withEntry
    (o : Outline)
    (e : Entry) :
    Outline :=
  { o with top := e :: o.top }

/- The outline below a header that stands in front of all. -/
def under
    (o : Outline)
    (h : Header) :
    Outline :=
  ⟨[], ⟨h, o.top⟩ :: o.sections⟩

end Outline

/- The document of an outline, or what is wrong with it first. -/
def assemble
    (o : Outline) :
    Except TomlError Entries := do
  let root ← addLines [] [] o.top
  o.sections.foldlM addSection root

end Toml

end Gatework
