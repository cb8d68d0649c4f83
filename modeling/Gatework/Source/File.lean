import Gatework.Source.Bytes
import Gatework.Source.Span

/-
  Source files: texts with lines, and the places of spans in
  them.

  Lines and columns count from one; a column counts bytes.
  Where lines start is kept in an index of words of 32 bits,
  in which an offset is looked up by halving. Lines and columns
  are such words as well.

  Key definitions include:
    * `search`, in an increasing row of words
    * `SourceFile.lineCol` and `SourceFile.lineCol?`, by the
      index of line starts
    * `SourceFile.lineText`, by a scan of the text
    * `Sources` and `Sources.locate?`
-/

------------------------------------------------------------
-- Search in a row of words
------------------------------------------------------------

namespace Gatework

/-
  Where a word stands in an increasing row: at the entry that
  is the word, or in front of the first entry above it.
-/
inductive Spot where
  | found (i : Nat)
  | missing (i : Nat)
deriving DecidableEq, Repr

/-
  The last entry of a stretch that is at most a word, or the
  first one if all are above it. The stretch is halved until
  one entry is left.
-/
def narrow
    (row : Array UInt32)
    (word : UInt32)
    (base size : Nat)
    (hSome : 0 < size)
    (hInside : base + size ≤ row.size) :
    Fin row.size :=
  if hOne : size = 1 then
    ⟨base, by omega⟩
  else
    let half := size / 2
    if word < row[base + half] then
      narrow row word base (size - half) (by omega) (by omega)
    else
      narrow row word (base + half) (size - half) (by omega)
        (by omega)
termination_by size

/- The spot of a word in an increasing row. -/
def search
    (row : Array UInt32)
    (word : UInt32) :
    Spot :=
  if hSome : 0 < row.size then
    let i := narrow row word 0 row.size hSome (by omega)
    if row[i] = word then
      .found i
    else if row[i] < word then
      .missing (i + 1)
    else
      .missing i
  else
    .missing 0

end Gatework

------------------------------------------------------------
-- Arithmetic of words
------------------------------------------------------------

namespace Gatework

/- The word behind a word, if there is one. -/
def nextWord?
    (word : UInt32) :
    Option UInt32 :=
  if word.toNat + 1 < UInt32.size then some (word + 1) else none

/- How far a word is above another one, if it is. -/
def difference?
    (word start : UInt32) :
    Option UInt32 :=
  if start ≤ word then some (word - start) else none

end Gatework

------------------------------------------------------------
-- One file
------------------------------------------------------------

namespace Gatework

/- The byte that ends a line. -/
def newline : UInt8 := 10

/- The offset behind each line end among some bytes. -/
def startsAfter
    (bytes : List UInt8) :
    List Nat :=
  (bytes.zipIdx.filter (·.1 == newline)).map (·.2 + 1)

/- A text under the name it is shown with. -/
structure SourceFile where
  name : String
  text : String
deriving DecidableEq, Repr, Inhabited

namespace SourceFile

/- The bytes of the text. -/
def bytes
    (f : SourceFile) :
    List UInt8 :=
  f.text.toByteArray.data.toList

/- The offset of the first byte of each line. -/
def offsets
    (f : SourceFile) :
    List Nat :=
  0 :: startsAfter f.bytes

/- The index of lines: their offsets as words. -/
def lineStarts
    (f : SourceFile) :
    Array UInt32 :=
  (f.offsets.map Nat.toUInt32).toArray

/-
  The line around an offset, counted from zero: the last one
  that starts at the offset or before it.
-/
def lineAt
    (f : SourceFile)
    (offset : UInt32) :
    Nat :=
  match search f.lineStarts offset with
  | .found i => i
  | .missing i => i - 1

/-
  The line and column of an offset, in words that start again
  at zero behind the largest one.
-/
def lineCol
    (f : SourceFile)
    (offset : Nat) :
    UInt32 × UInt32 :=
  let word := offset.toUInt32
  let line := f.lineAt word
  let start := f.lineStarts.getD line 0
  (line.toUInt32 + 1, word - start + 1)

/-
  The line and column of an offset, if no step of the
  arithmetic leaves its word.
-/
def lineCol?
    (f : SourceFile)
    (offset : Nat) :
    Option (UInt32 × UInt32) := do
  let word := offset.toUInt32
  let line := f.lineAt word
  let start := f.lineStarts.getD line 0
  let number ← nextWord? line.toUInt32
  let above ← difference? word start
  let column ← nextWord? above
  return (number, column)

/- The text between two offsets. -/
def snippet
    (f : SourceFile)
    (start stop : Nat) :
    String :=
  sliceBytes start stop f.text

/- A character other than a line end. -/
def inLine
    (c : Char) :
    Bool :=
  c != '\n'

/-
  The line around an offset, without its line end. An offset
  past the text belongs to its last line.
-/
def lineText
    (f : SourceFile)
    (offset : Nat) :
    String :=
  let cs := f.text.toList
  match splitBytes? (min offset (byteLength cs)) cs with
  | none => ""
  | some (before, after) =>
      String.ofList
        ((before.reverse.takeWhile inLine).reverse ++ after.takeWhile inLine)

end SourceFile

end Gatework

------------------------------------------------------------
-- All files of one run
------------------------------------------------------------

namespace Gatework

/- Files by number. -/
abbrev Sources := List SourceFile

/- Where a span starts and where its last byte stands. -/
structure Location where
  name : String
  startLine : Nat
  startCol : Nat
  endLine : Nat
  endCol : Nat
deriving DecidableEq, Repr, Inhabited

namespace Location

/- The form in which messages name a place. -/
def text
    (l : Location) :
    String :=
  l.name ++ ":" ++ toString l.startLine ++ ":" ++ toString l.startCol

end Location

namespace Sources

/- The file of a span. -/
def fileOf?
    (sources : Sources)
    (span : Span) :
    Option SourceFile :=
  span.file.bind fun i => sources[i]?

/- Lines and columns of a span, if it is in a file. -/
def locate?
    (sources : Sources)
    (span : Span) :
    Option Location :=
  (sources.fileOf? span).map fun file =>
    let first := file.lineCol span.start
    let last := file.lineCol (max (span.stop - 1) span.start)
    ⟨file.name, first.1.toNat, first.2.toNat, last.1.toNat,
      last.2.toNat⟩

/- The text of a span, empty if it is in no file. -/
def snippet
    (sources : Sources)
    (span : Span) :
    String :=
  match sources.fileOf? span with
  | some file => file.snippet span.start span.stop
  | none => ""

end Sources

end Gatework
