/-
  The SHA-256 message digest.

  A message is followed by a bit 1, zeros and its length in
  bits up to whole blocks of 64 bytes. Each block is expanded
  into 64 words, which 64 rounds mix into a state of eight
  words; the state after the last block is the digest.

  Key definitions include:
    * `Sha256.pad`
    * `Sha256.schedule`
    * `Sha256.compress`
    * `Sha256.hash`
-/

------------------------------------------------------------
-- Words
------------------------------------------------------------

namespace Gatework

namespace Sha256

/- Rotation towards the low bits. -/
def rotate
    (x : UInt32)
    (n : UInt32) :
    UInt32 :=
  (x >>> n) ||| (x <<< (32 - n))

def upperSigma0
    (x : UInt32) :
    UInt32 :=
  rotate x 2 ^^^ rotate x 13 ^^^ rotate x 22

def upperSigma1
    (x : UInt32) :
    UInt32 :=
  rotate x 6 ^^^ rotate x 11 ^^^ rotate x 25

def lowerSigma0
    (x : UInt32) :
    UInt32 :=
  rotate x 7 ^^^ rotate x 18 ^^^ (x >>> 3)

def lowerSigma1
    (x : UInt32) :
    UInt32 :=
  rotate x 17 ^^^ rotate x 19 ^^^ (x >>> 10)

/- Each bit of `x` chooses between `y` and `z`. -/
def pick
    (x y z : UInt32) :
    UInt32 :=
  (x &&& y) ^^^ ((~~~ x) &&& z)

def majority
    (x y z : UInt32) :
    UInt32 :=
  (x &&& y) ^^^ (x &&& z) ^^^ (y &&& z)

/- The constants of the rounds. -/
def roundConstants : List UInt32 :=
  [0x428a2f98, 0x71374491, 0xb5c0fbcf, 0xe9b5dba5,
    0x3956c25b, 0x59f111f1, 0x923f82a4, 0xab1c5ed5,
    0xd807aa98, 0x12835b01, 0x243185be, 0x550c7dc3,
    0x72be5d74, 0x80deb1fe, 0x9bdc06a7, 0xc19bf174,
    0xe49b69c1, 0xefbe4786, 0x0fc19dc6, 0x240ca1cc,
    0x2de92c6f, 0x4a7484aa, 0x5cb0a9dc, 0x76f988da,
    0x983e5152, 0xa831c66d, 0xb00327c8, 0xbf597fc7,
    0xc6e00bf3, 0xd5a79147, 0x06ca6351, 0x14292967,
    0x27b70a85, 0x2e1b2138, 0x4d2c6dfc, 0x53380d13,
    0x650a7354, 0x766a0abb, 0x81c2c92e, 0x92722c85,
    0xa2bfe8a1, 0xa81a664b, 0xc24b8b70, 0xc76c51a3,
    0xd192e819, 0xd6990624, 0xf40e3585, 0x106aa070,
    0x19a4c116, 0x1e376c08, 0x2748774c, 0x34b0bcb5,
    0x391c0cb3, 0x4ed8aa4a, 0x5b9cca4f, 0x682e6ff3,
    0x748f82ee, 0x78a5636f, 0x84c87814, 0x8cc70208,
    0x90befffa, 0xa4506ceb, 0xbef9a3f7, 0xc67178f2]

end Sha256

end Gatework

------------------------------------------------------------
-- Blocks
------------------------------------------------------------

namespace Gatework

namespace Sha256

/- Big-endian bytes of a number. -/
def bytesOf
    (count n : Nat) :
    List UInt8 :=
  ((List.range count).map fun i =>
    UInt8.ofNat (n >>> (8 * (count - 1 - i))))

/- The message with its padding. -/
def pad
    (message : List UInt8) :
    List UInt8 :=
  let zeros := (119 - message.length % 64) % 64
  message ++ 0x80 :: List.replicate zeros 0 ++
    bytesOf 8 (8 * message.length)

/- Bytes taken in groups of four, as big-endian words. -/
def wordsOf : List UInt8 → List UInt32
  | a :: b :: c :: d :: rest =>
      ((a.toUInt32 <<< 24) ||| (b.toUInt32 <<< 16) |||
        (c.toUInt32 <<< 8) ||| d.toUInt32) :: wordsOf rest
  | _ => []

/- Words taken in groups of sixteen, at most `n` groups. -/
def blocksOf : Nat → List UInt32 → List (List UInt32)
  | 0, _ => []
  | n + 1, words =>
      if words.isEmpty then []
      else words.take 16 :: blocksOf n (words.drop 16)

/-
  Extends a schedule, held with the latest word first, by a
  number of words.
-/
def extendSchedule : Nat → List UInt32 → List UInt32
  | 0, latest => latest
  | n + 1, latest =>
      let word (i : Nat) : UInt32 := latest.getD i 0
      extendSchedule n
        ((lowerSigma1 (word 1) + word 6 + lowerSigma0 (word 14) +
          word 15) :: latest)

/- The 64 words a block is expanded into. -/
def schedule
    (block : List UInt32) :
    List UInt32 :=
  (extendSchedule 48 block.reverse).reverse

end Sha256

end Gatework

------------------------------------------------------------
-- Rounds
------------------------------------------------------------

namespace Gatework

namespace Sha256

/- The eight words of state. -/
structure State where
  a : UInt32
  b : UInt32
  c : UInt32
  d : UInt32
  e : UInt32
  f : UInt32
  g : UInt32
  h : UInt32
deriving DecidableEq, Repr, Inhabited

namespace State

def initial : State :=
  ⟨0x6a09e667, 0xbb67ae85, 0x3c6ef372, 0xa54ff53a,
    0x510e527f, 0x9b05688c, 0x1f83d9ab, 0x5be0cd19⟩

def add
    (s t : State) :
    State :=
  ⟨s.a + t.a, s.b + t.b, s.c + t.c, s.d + t.d,
    s.e + t.e, s.f + t.f, s.g + t.g, s.h + t.h⟩

def words
    (s : State) :
    List UInt32 :=
  [s.a, s.b, s.c, s.d, s.e, s.f, s.g, s.h]

end State

/- One round with its constant and its word. -/
def round
    (s : State)
    (constant word : UInt32) :
    State :=
  let t1 := s.h + upperSigma1 s.e + pick s.e s.f s.g + constant +
    word
  let t2 := upperSigma0 s.a + majority s.a s.b s.c
  ⟨t1 + t2, s.a, s.b, s.c, s.d + t1, s.e, s.f, s.g⟩

/- The state after a block. -/
def compress
    (s : State)
    (block : List UInt32) :
    State :=
  s.add ((roundConstants.zip (schedule block)).foldl
    (fun t kw => round t kw.1 kw.2) s)

/- The digest of a message, 32 bytes. -/
def hash
    (message : List UInt8) :
    List UInt8 :=
  let words := wordsOf (pad message)
  let final := (blocksOf words.length words).foldl compress
    State.initial
  final.words.flatMap fun w => bytesOf 4 w.toNat

end Sha256

end Gatework
