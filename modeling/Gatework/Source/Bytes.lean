/-
  Texts measured and cut by the bytes of their UTF-8 form.

  Key definitions include:
    * `byteLength`
    * `splitBytes?`, a cut on a character boundary
    * `sliceBytes`
-/

namespace Gatework

/- The number of bytes of some characters. -/
def byteLength : List Char → Nat
  | [] => 0
  | c :: cs => c.utf8Size + byteLength cs

theorem byteLength_append
    (xs ys : List Char) :
    byteLength (xs ++ ys) = byteLength xs + byteLength ys := by
  induction xs with
  | nil => simp [byteLength]
  | cons c cs ih => simp only [List.cons_append, byteLength, ih]; omega

/-
  The characters before and after a number of bytes, or
  nothing if that place is past the end or inside a
  character.
-/
def splitBytes? : Nat → List Char → Option (List Char × List Char)
  | 0, cs => some ([], cs)
  | _ + 1, [] => none
  | n + 1, c :: cs =>
      if c.utf8Size ≤ n + 1 then
        (splitBytes? (n + 1 - c.utf8Size) cs).map fun (xs, ys) => (c :: xs, ys)
      else
        none

/-
  The text between two byte offsets, both brought into the
  text and the second not before the first. It is empty if
  one of them falls inside a character.
-/
def sliceBytes
    (start stop : Nat)
    (s : String) :
    String :=
  let cs := s.toList
  let size := byteLength cs
  let from_ := min start size
  let upTo := min (max stop from_) size
  match splitBytes? from_ cs with
  | none => ""
  | some (_, rest) =>
      match splitBytes? (upTo - from_) rest with
      | none => ""
      | some (inside, _) => String.ofList inside

end Gatework
