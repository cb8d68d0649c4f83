import Gatework.Text.Blank
import Gatework.Text.Digits
import Gatework.Digest.Sha256

/-
  Digests of canonical texts and their hexadecimal form.

  Key definitions include:
    * `Digest`
    * `Digest.ofText`
    * `Digest.hex`
    * `Digest.ofHex`
-/

------------------------------------------------------------
-- Digests
------------------------------------------------------------

namespace Gatework

/- A digest of 32 bytes. -/
structure Digest where
  bytes : List UInt8
deriving DecidableEq, Repr, Inhabited

namespace Digest

/- The bytes of a text in UTF-8. -/
def utf8
    (s : String) :
    List UInt8 :=
  s.toUTF8.toList

/- The digest of a text. -/
def ofText
    (s : String) :
    Digest :=
  ⟨Sha256.hash (utf8 s)⟩

/- Two hexadecimal digits for a byte. -/
def byteHex
    (b : UInt8) :
    List Char :=
  padLeft '0' 2 (Radix.hex.digits b.toNat)

/- All bytes as hexadecimal digits. -/
def hex
    (d : Digest) :
    String :=
  String.ofList (d.bytes.flatMap byteHex)

/- The first four bytes, as a mark in reports. -/
def brief
    (d : Digest) :
    String :=
  "LogicHash(" ++
    String.ofList ((d.bytes.take 4).flatMap byteHex) ++ "..)"

end Digest

end Gatework

------------------------------------------------------------
-- Reading
------------------------------------------------------------

namespace Gatework

/- Why a text is not a digest. -/
inductive DigestError where
  | length (bytes : Nat)
  | digit (byte : UInt8)
deriving DecidableEq, Repr, Inhabited

namespace DigestError

def message : DigestError → String
  | length n => "expected 64 hex digits, found " ++ toString n
  | digit b =>
      "invalid hex digit `" ++
        String.singleton (Char.ofNat b.toNat) ++ "`"

end DigestError

namespace Digest

/- The value of a hexadecimal digit of either case. -/
def hexValue
    (b : UInt8) :
    Except DigestError UInt8 :=
  if 0x30 ≤ b ∧ b ≤ 0x39 then .ok (b - 0x30)
  else if 0x61 ≤ b ∧ b ≤ 0x66 then .ok (b - 0x57)
  else if 0x41 ≤ b ∧ b ≤ 0x46 then .ok (b - 0x37)
  else .error (.digit b)

/- Bytes from pairs of digits. -/
def readPairs : List UInt8 → Except DigestError (List UInt8)
  | high :: low :: rest => do
      let h ← hexValue high
      let l ← hexValue low
      let bytes ← readPairs rest
      return (h <<< 4 ||| l) :: bytes
  | _ => .ok []

/- Reads 64 hexadecimal digits, with blanks around them. -/
def ofHex
    (s : String) :
    Except DigestError Digest := do
  let digits := utf8 (trimText s)
  if digits.length ≠ 64 then
    .error (.length digits.length)
  else
    let bytes ← readPairs digits
    return ⟨bytes⟩

end Digest

end Gatework
