import Gatework.Source.Bytes

/-
  Texts as bytes.

  The bytes of a text are those of its characters, one behind
  the other. A character of ASCII is one byte, and no byte of
  another one is a character of ASCII.

  Key definitions include:
    * `OnBoundary`
    * `IsAscii`, `bytesOf` and `byteChar`

  Key theorems include:
    * `splitBytes?_append`
    * `OnBoundary.exists_append`
    * `bytes_eq`
    * `utf8EncodeChar_cases`
-/

------------------------------------------------------------
-- Bytes of texts
------------------------------------------------------------

namespace Gatework

theorem utf8ByteSize_ofList
    (cs : List Char) :
    (String.ofList cs).utf8ByteSize = byteLength cs := by
  induction cs with
  | nil => rfl
  | cons c cs ih =>
      have hFirst : (String.ofList [c]).utf8ByteSize = c.utf8Size := by
        rw [← String.singleton_eq_ofList,
          String.utf8ByteSize_singleton]
      rw [← List.singleton_append, String.ofList_append,
        String.utf8ByteSize_append, hFirst, ih]
      rfl

theorem utf8ByteSize_eq
    (text : String) :
    text.utf8ByteSize = byteLength text.toList := by
  rw [← utf8ByteSize_ofList, String.ofList_toList]

theorem byteLength_pos
    {cs : List Char}
    (hSome : cs ≠ []) :
    0 < byteLength cs := by
  cases cs with
  | nil => exact absurd rfl hSome
  | cons c cs => exact Nat.add_pos_left c.utf8Size_pos _

theorem splitBytes?_append
    (us vs : List Char) :
    splitBytes? (byteLength us) (us ++ vs) = some (us, vs) := by
  induction us with
  | nil => cases vs <;> rfl
  | cons c us ih =>
      have hPos := c.utf8Size_pos
      obtain ⟨n, hn⟩ : ∃ n, byteLength (c :: us) = n + 1 :=
        ⟨_, (Nat.succ_pred_eq_of_pos (Nat.add_pos_left hPos _)).symm⟩
      have hSize : c.utf8Size ≤ n + 1 :=
        hn ▸ Nat.le_add_right _ _
      have hRest : n + 1 - c.utf8Size = byteLength us := by
        rw [← hn, byteLength, Nat.add_sub_cancel_left]
      rw [hn, List.cons_append, splitBytes?, if_pos hSize, hRest, ih]
      rfl

/- A byte offset where a character starts or the text ends. -/
def OnBoundary
    (text : String)
    (offset : Nat) :
    Prop :=
  String.Pos.Raw.IsValid text ⟨offset⟩

theorem onBoundary_byteLength
    (us vs : List Char) :
    OnBoundary (String.ofList (us ++ vs)) (byteLength us) := by
  apply String.Pos.Raw.isValid_iff_exists_append.mpr
  refine ⟨.ofList us, .ofList vs, String.ofList_append, ?_⟩
  rw [← utf8ByteSize_ofList]
  rfl

theorem OnBoundary.exists_append
    {text : String}
    {offset : Nat}
    (hPlace : OnBoundary text offset) :
    ∃ us vs, text.toList = us ++ vs ∧ byteLength us = offset := by
  obtain ⟨front, rest, rfl, hEnd⟩ :=
    String.Pos.Raw.isValid_iff_exists_append.mp hPlace
  refine ⟨front.toList, rest.toList, String.toList_append, ?_⟩
  rw [← utf8ByteSize_eq]
  exact (congrArg String.Pos.Raw.byteIdx hEnd).symm

theorem OnBoundary.le
    {text : String}
    {offset : Nat}
    (hPlace : OnBoundary text offset) :
    offset ≤ text.utf8ByteSize := by
  obtain ⟨us, vs, hText, rfl⟩ := hPlace.exists_append
  rw [utf8ByteSize_eq, hText, byteLength_append]
  exact Nat.le_add_right _ _

end Gatework

------------------------------------------------------------
-- Bytes of characters
------------------------------------------------------------

namespace Gatework

/- A character of one byte. -/
def IsAscii
    (c : Char) :
    Prop :=
  c.toNat < 128

instance
    (c : Char) :
    Decidable (IsAscii c) := by
  unfold IsAscii
  infer_instance

/- The bytes of some characters. -/
def bytesOf
    (cs : List Char) :
    List UInt8 :=
  cs.flatMap String.utf8EncodeChar

theorem bytesOf_append
    (xs ys : List Char) :
    bytesOf (xs ++ ys) = bytesOf xs ++ bytesOf ys :=
  List.flatMap_append

theorem length_bytesOf
    (cs : List Char) :
    (bytesOf cs).length = byteLength cs := by
  induction cs with
  | nil => rfl
  | cons c cs ih =>
      rw [bytesOf, List.flatMap_cons, List.length_append,
        String.length_utf8EncodeChar, ← bytesOf, ih]
      rfl

/- The bytes of a text are those of its characters. -/
theorem bytes_eq
    (text : String) :
    text.toByteArray.data.toList = bytesOf text.toList := by
  have hBytes := @String.toByteArray_ofList text.toList
  rw [String.ofList_toList] at hBytes
  rw [hBytes, List.utf8Encode, List.data_toByteArray,
    List.toList_toArray]
  rfl

/- A byte read as the character with its number. -/
def byteChar
    (b : UInt8) :
    Char :=
  Char.ofNat b.toNat

theorem toNat_byteChar
    (b : UInt8) :
    (byteChar b).toNat = b.toNat := by
  have hByte := b.toNat_lt
  have hValid : b.toNat.isValidChar := .inl (by omega)
  rw [byteChar, Char.ofNat, dif_pos hValid]
  rfl

/-
  A character of ASCII is one byte. Any other one starts with
  a byte that continues nothing, and goes on with bytes that
  do. None of them is a character of ASCII.
-/
theorem utf8EncodeChar_cases
    (c : Char) :
    (IsAscii c ∧ (String.utf8EncodeChar c).map byteChar = [c]) ∨
      ¬ IsAscii c ∧ ∃ b bs, String.utf8EncodeChar c = b :: bs ∧
        192 ≤ b.toNat ∧
        ∀ d ∈ bs, 128 ≤ d.toNat ∧ d.toNat < 192 := by
  have hSame : c.toNat = c.val.toNat := rfl
  have hBound := c.val.toNat_lt
  unfold IsAscii String.utf8EncodeChar
  by_cases hAscii : c.val.toNat ≤ 127
  · left
    rw [if_pos hAscii]
    refine ⟨by omega, ?_⟩
    rw [List.map_singleton, byteChar, UInt8.toNat_ofNat',
      Nat.mod_eq_of_lt (by omega), ← hSame, Char.ofNat_toNat]
  · right
    rw [if_neg hAscii]
    refine ⟨by omega, ?_⟩
    split
    case isTrue =>
        refine ⟨_, _, rfl, ?_, ?_⟩
        · rw [UInt8.toNat_ofNat']
          omega
        · simp only [List.forall_mem_singleton, UInt8.toNat_ofNat']
          omega
    split
    case isTrue =>
        refine ⟨_, _, rfl, ?_, ?_⟩
        · rw [UInt8.toNat_ofNat']
          omega
        · simp only [List.forall_mem_cons, UInt8.toNat_ofNat']
          refine ⟨by omega, by omega, nofun⟩
    case isFalse =>
        refine ⟨_, _, rfl, ?_, ?_⟩
        · rw [UInt8.toNat_ofNat']
          omega
        · simp only [List.forall_mem_cons, UInt8.toNat_ofNat']
          refine ⟨by omega, by omega, by omega, nofun⟩

end Gatework
