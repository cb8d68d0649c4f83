import Mathlib.Algebra.Ring.Nat
import Mathlib.Data.List.Induction
import Mathlib.Data.Prod.Lex
import Mathlib.Order.Monotone.Basic
import Gatework.Proofs.Source.Bytes
import Gatework.Source.File

/-
  Lines and columns of offsets.

  An offset is looked up in the index of lines by halving. The
  line found has as many lines in front of it as there are line
  ends before the offset, and it is the one that a scan of the
  text finds around the offset. Numbers of lines and columns are
  words; the end of a text may be one byte too far for them.

  Key definitions include:
    * `Increasing`, `AboveFrom` and `Spot.Fits`
    * `SourceFile.InLineFrom`
    * `SourceFile.LineStart` and `SourceFile.lines`

  Key theorems include:
    * `search_fits`
    * `SourceFile.lineAt_spec`
    * `SourceFile.lineCol?_spec`
    * `SourceFile.lineCol?_eq_none_iff`
    * `SourceFile.getElem?_lines`
    * `SourceFile.lineCol_exact`
-/

------------------------------------------------------------
-- Search in an increasing row
------------------------------------------------------------

namespace Gatework

variable {row : Array UInt32}
variable {word : UInt32}

/- Entries of an ascending list stand in their order. -/
theorem lt_of_pairwise
    {α : Type}
    [LT α]
    {xs : List α}
    (hPairs : xs.Pairwise (· < ·))
    {i j : Nat}
    {x y : α}
    (hOrder : i < j)
    (hx : xs[i]? = some x)
    (hy : xs[j]? = some y) :
    x < y := by
  obtain ⟨hi, rfl⟩ := List.getElem?_eq_some_iff.mp hx
  obtain ⟨hj, rfl⟩ := List.getElem?_eq_some_iff.mp hy
  exact List.pairwise_iff_getElem.mp hPairs i j hi hj hOrder

/- Each entry is below all later ones. -/
def Increasing
    (row : Array UInt32) :
    Prop :=
  row.toList.Pairwise (· < ·)

theorem Increasing.lt
    (hRow : Increasing row)
    {i j : Nat}
    {x y : UInt32}
    (hOrder : i < j)
    (hx : row[i]? = some x)
    (hy : row[j]? = some y) :
    x < y := by
  rw [← Array.getElem?_toList] at hx hy
  exact lt_of_pairwise hRow hOrder hx hy

/- All entries from an index on are above a word. -/
def AboveFrom
    (row : Array UInt32)
    (word : UInt32)
    (i : Nat) :
    Prop :=
  ∀ j entry, i ≤ j → row[j]? = some entry → word < entry

theorem AboveFrom.mono
    {i j : Nat}
    (hAbove : AboveFrom row word i)
    (hLater : i ≤ j) :
    AboveFrom row word j :=
  fun k entry hk hEntry =>
    hAbove k entry (Nat.le_trans hLater hk) hEntry

theorem Increasing.aboveFrom
    (hRow : Increasing row)
    {i : Nat}
    {x : UInt32}
    (hx : row[i]? = some x)
    (hWord : word < x) :
    AboveFrom row word i := by
  intro j y hj hy
  rcases Nat.eq_or_lt_of_le hj with rfl | hj
  · rw [hx] at hy
    cases hy
    exact hWord
  · exact UInt32.lt_trans hWord (hRow.lt hj hx hy)

/-
  The last entry that is at most a word, or the first one if
  all are above it.
-/
def IsEdge
    (row : Array UInt32)
    (word : UInt32)
    (i : Fin row.size) :
    Prop :=
  (i.val = 0 ∨ row[i] ≤ word) ∧ AboveFrom row word (i + 1)

/-
  Halving keeps two facts of a stretch: behind it all entries
  are above the word, and its first entry is not, unless it is
  the first of the row.
-/
theorem isEdge_narrow
    (hRow : Increasing row)
    {base size : Nat}
    (hSome : 0 < size)
    (hInside : base + size ≤ row.size)
    (hFront : base = 0 ∨ row[base] ≤ word)
    (hBehind : AboveFrom row word (base + size)) :
    IsEdge row word (narrow row word base size hSome hInside) := by
  fun_induction narrow row word base size hSome hInside with
  | case1 base hSome hInside =>
      exact ⟨hFront, hBehind⟩
  | case2 base size hSome hInside hMore half hBelow ih =>
      -- the entry in the middle is above the word, and so is
      -- all that is dropped behind it
      have hMiddle := hRow.aboveFrom
        (Array.getElem?_eq_getElem _) hBelow
      exact ih hFront (hMiddle.mono (by omega))
  | case3 base size hSome hInside hMore half hAbove ih =>
      have hMiddle := UInt32.not_lt.mp hAbove
      exact ih (.inr hMiddle) (hBehind.mono (by omega))

/- What a spot says of the entries around it. -/
def Spot.Fits
    (row : Array UInt32)
    (word : UInt32) :
    Spot → Prop
  | .found i => row[i]? = some word
  | .missing i => i ≤ row.size ∧ AboveFrom row word i ∧
      ∀ j entry, j < i → row[j]? = some entry → entry < word

/- The search finds the spot of each word. -/
theorem search_fits
    (hRow : Increasing row)
    (word : UInt32) :
    (search row word).Fits row word := by
  unfold search
  split
  case isFalse hNone =>
      refine ⟨Nat.zero_le _, fun j entry _ hEntry => ?_, nofun⟩
      obtain ⟨hj, _⟩ := Array.getElem?_eq_some_iff.mp hEntry
      exact absurd (Nat.zero_lt_of_lt hj) hNone
  case isTrue hSome =>
      have hEnd : AboveFrom row word (0 + row.size) := by
        intro j entry hj hEntry
        obtain ⟨hLess, _⟩ := Array.getElem?_eq_some_iff.mp hEntry
        omega
      extract_lets i
      obtain ⟨hUpTo, hAbove⟩ : IsEdge row word i :=
        isEdge_narrow hRow hSome _ (.inl rfl) hEnd
      have hi : row[i.val]? = some row[i] :=
        Array.getElem?_eq_getElem i.isLt
      split
      case isTrue hSame =>
          rw [hSame] at hi
          exact hi
      split
      case isTrue hOther hBelow =>
          refine ⟨i.isLt, hAbove, fun j entry hj hEntry => ?_⟩
          rcases Nat.eq_or_lt_of_le (Nat.le_of_lt_succ hj) with
            rfl | hj
          · rw [hi] at hEntry
            cases hEntry
            exact hBelow
          · exact UInt32.lt_trans (hRow.lt hj hEntry hi) hBelow
      case isFalse hOther hBelow =>
          -- only the first entry may be above the word
          have hWord : word < row[i] :=
            UInt32.lt_of_le_of_ne (UInt32.not_lt.mp hBelow)
              (Ne.symm hOther)
          have hFirst : i.val = 0 :=
            hUpTo.resolve_right (UInt32.not_le.mpr hWord)
          refine ⟨i.isLt.le, hRow.aboveFrom hi hWord, ?_⟩
          intro j entry hj
          omega

example : search #[0, 3, 6, 7] 5 = .missing 2 := by
  decide +kernel

end Gatework

------------------------------------------------------------
-- Line ends among bytes
------------------------------------------------------------

namespace Gatework

variable {bytes : List UInt8}
variable {offset : Nat}

theorem startsAfter_concat
    (bytes : List UInt8)
    (b : UInt8) :
    startsAfter (bytes ++ [b]) =
      startsAfter bytes ++
        if b = newline then [bytes.length + 1] else [] := by
  by_cases hEnd : b = newline <;>
    simp [startsAfter, List.zipIdx_append, hEnd]

theorem mem_startsAfter :
    offset ∈ startsAfter bytes ↔
      ∃ i, bytes[i]? = some newline ∧ offset = i + 1 := by
  simp only [startsAfter, List.mem_map, List.mem_filter,
    List.mem_zipIdx_iff_getElem?, Prod.exists, beq_iff_eq]
  constructor
  · rintro ⟨b, i, ⟨hByte, rfl⟩, rfl⟩
    exact ⟨i, hByte, rfl⟩
  · rintro ⟨i, hByte, rfl⟩
    exact ⟨newline, i, ⟨hByte, rfl⟩, rfl⟩

theorem pos_and_le_of_mem_startsAfter
    (hStart : offset ∈ startsAfter bytes) :
    0 < offset ∧ offset ≤ bytes.length := by
  obtain ⟨i, hByte, rfl⟩ := mem_startsAfter.mp hStart
  obtain ⟨hInside, _⟩ := List.getElem?_eq_some_iff.mp hByte
  omega

theorem pairwise_startsAfter
    (bytes : List UInt8) :
    (startsAfter bytes).Pairwise (· < ·) := by
  induction bytes using List.reverseRecOn with
  | nil => exact .nil
  | append_singleton bytes b ih =>
      rw [startsAfter_concat, List.pairwise_append]
      refine ⟨ih, ?_, ?_⟩
      · split
        · exact List.pairwise_singleton _ _
        · exact .nil
      · intro x hx y hy
        have hBound := (pos_and_le_of_mem_startsAfter hx).2
        split at hy
        · rw [List.mem_singleton.mp hy]
          omega
        · cases hy

/- As many lines start up to an offset as end before it. -/
theorem countP_startsAfter
    (bytes : List UInt8)
    (offset : Nat) :
    (startsAfter bytes).countP (· ≤ offset) =
      (bytes.take offset).count newline := by
  induction bytes using List.reverseRecOn with
  | nil =>
      rw [List.take_nil]
      rfl
  | append_singleton bytes b ih =>
      rw [startsAfter_concat, List.countP_append, ih,
        List.take_append, List.count_append]
      congr 1
      rcases Nat.lt_or_ge bytes.length offset with hLast | hBefore
      · have hNext : bytes.length + 1 ≤ offset := hLast
        rw [List.take_of_length_le (Nat.le_sub_of_add_le' hNext)]
        by_cases hEnd : b = newline <;> simp [hEnd, hNext]
      · rw [Nat.sub_eq_zero_of_le hBefore, List.take_zero]
        by_cases hEnd : b = newline <;> simp [hEnd]
        omega

end Gatework

------------------------------------------------------------
-- The line around an offset
------------------------------------------------------------

namespace Gatework

/-
  How many entries have a property that holds up to one of
  them and of no later one.
-/
theorem countP_eq_of_edge
    {xs : List Nat}
    {p : Nat → Bool}
    {i : Nat}
    (hInside : i < xs.length)
    (hUpTo : ∀ j x, j ≤ i → xs[j]? = some x → p x = true)
    (hBehind : ∀ j x, i < j → xs[j]? = some x → p x = false) :
    xs.countP p = i + 1 := by
  have hTake : (xs.take (i + 1)).countP p =
      (xs.take (i + 1)).length := by
    apply List.countP_eq_length.mpr
    intro x hx
    obtain ⟨j, hEntry⟩ := List.mem_iff_getElem?.mp hx
    rw [List.getElem?_take] at hEntry
    split at hEntry
    case isTrue hj =>
        exact hUpTo j x (Nat.le_of_lt_succ hj) hEntry
    case isFalse => cases hEntry
  have hDrop : (xs.drop (i + 1)).countP p = 0 := by
    apply List.countP_eq_zero.mpr
    intro x hx
    obtain ⟨j, hEntry⟩ := List.mem_iff_getElem?.mp hx
    rw [List.getElem?_drop] at hEntry
    exact Bool.eq_false_iff.mp (hBehind _ x (by omega) hEntry)
  rw [← List.take_append_drop (i + 1) xs, List.countP_append,
    hTake, hDrop, List.length_take, Nat.min_eq_left hInside]

namespace SourceFile

variable {f : SourceFile}
variable {line start offset : Nat}

theorem length_bytes
    (f : SourceFile) :
    f.bytes.length = f.text.utf8ByteSize :=
  rfl

theorem pairwise_offsets
    (f : SourceFile) :
    f.offsets.Pairwise (· < ·) :=
  List.pairwise_cons.mpr
    ⟨fun _ hStart => (pos_and_le_of_mem_startsAfter hStart).1,
      pairwise_startsAfter f.bytes⟩

theorem le_of_mem_offsets
    (hStart : start ∈ f.offsets) :
    start ≤ f.text.utf8ByteSize := by
  rcases List.mem_cons.mp hStart with rfl | hStart
  · exact Nat.zero_le _
  · exact (pos_and_le_of_mem_startsAfter hStart).2

/-
  An offset is in a line: the line starts at it or before it,
  and all later ones start behind it.
-/
structure InLineFrom
    (f : SourceFile)
    (offset line start : Nat) :
    Prop where
  starts : f.offsets[line]? = some start
  le : start ≤ offset
  lt : ∀ i later, line < i → f.offsets[i]? = some later →
    offset < later

theorem InLineFrom.start_eq
    (hPlace : f.InLineFrom offset line start)
    {later : Nat}
    (hStart : f.offsets[line]? = some later) :
    later = start :=
  Option.some_inj.mp (hStart.symm.trans hPlace.starts)

/- In front of a line are as many lines as line ends. -/
theorem InLineFrom.line_eq
    (hPlace : f.InLineFrom offset line start) :
    line = (f.bytes.take offset).count newline := by
  obtain ⟨hInside, _⟩ :=
    List.getElem?_eq_some_iff.mp hPlace.starts
  have hLines : f.offsets.countP (· ≤ offset) = line + 1 := by
    apply countP_eq_of_edge hInside
    · intro i x hi hEntry
      apply decide_eq_true
      apply Nat.le_trans _ hPlace.le
      rcases Nat.eq_or_lt_of_le hi with rfl | hi
      · exact Nat.le_of_eq (hPlace.start_eq hEntry)
      · exact Nat.le_of_lt (lt_of_pairwise (pairwise_offsets f)
          hi hEntry hPlace.starts)
    · intro i x hi hEntry
      exact decide_eq_false
        (Nat.not_le.mpr (hPlace.lt i x hi hEntry))
  rw [offsets, List.countP_cons_of_pos (by simp),
    countP_startsAfter] at hLines
  exact (Nat.succ.inj hLines).symm

theorem InLineFrom.line_le
    (hPlace : f.InLineFrom offset line start) :
    line ≤ f.text.utf8ByteSize :=
  calc line
      = (f.bytes.take offset).count newline := hPlace.line_eq
    _ ≤ (f.bytes.take offset).length := List.count_le_length
    _ ≤ f.bytes.length := List.length_take_le' ..
    _ = f.text.utf8ByteSize := length_bytes f

/- The first line is the one with no line end before it. -/
theorem InLineFrom.start_eq_zero_iff
    (hPlace : f.InLineFrom offset line start) :
    start = 0 ↔ newline ∉ f.bytes.take offset := by
  rw [← List.count_eq_zero, ← hPlace.line_eq]
  constructor
  · rintro rfl
    rcases Nat.eq_zero_or_pos line with hZero | hPos
    · exact hZero
    · have hLess := lt_of_pairwise (pairwise_offsets f) hPos
        (show f.offsets[0]? = some 0 from rfl) hPlace.starts
      exact absurd hLess (Nat.lt_irrefl 0)
  · rintro rfl
    have hFirst : f.offsets[0]? = some 0 := rfl
    exact (hPlace.start_eq hFirst).symm

/-
  The start of the line around an offset: right behind a line
  end or at the front of the text, with no line end between it
  and the offset.
-/
def LineStart
    (f : SourceFile)
    (start offset : Nat) :
    Prop :=
  start ≤ offset ∧
    (start = 0 ∨ f.bytes[start - 1]? = some newline) ∧
    ∀ i, start ≤ i → i < offset → f.bytes[i]? ≠ some newline

theorem InLineFrom.lineStart
    (hPlace : f.InLineFrom offset line start) :
    f.LineStart start offset := by
  refine ⟨hPlace.le, ?_, ?_⟩
  · rcases List.mem_cons.mp (List.mem_of_getElem? hPlace.starts)
      with hFront | hLater
    · exact .inl hFront
    · obtain ⟨i, hEnd, rfl⟩ := mem_startsAfter.mp hLater
      exact .inr hEnd
  · -- a line end in between starts another line there, which
    -- is neither up to this one nor behind it
    intro i hFrom hBefore hEnd
    have hNext : i + 1 ∈ f.offsets :=
      List.mem_cons_of_mem _ (mem_startsAfter.mpr ⟨i, hEnd, rfl⟩)
    obtain ⟨j, hj⟩ := List.mem_iff_getElem?.mp hNext
    rcases Nat.lt_trichotomy line j with hLater | rfl | hEarlier
    · have hLess := hPlace.lt j _ hLater hj
      omega
    · have hSame := hPlace.start_eq hj
      omega
    · have hLess := lt_of_pairwise (pairwise_offsets f)
        hEarlier hj hPlace.starts
      omega

/- A later offset is in a later line, or in the same one. -/
theorem InLineFrom.lt_or_eq
    {offset' line' start' : Nat}
    (hPlace : f.InLineFrom offset line start)
    (hPlace' : f.InLineFrom offset' line' start')
    (hOrder : offset < offset') :
    line < line' ∨ line = line' ∧ start = start' := by
  rcases Nat.lt_trichotomy line line' with hLess | rfl | hMore
  · exact .inl hLess
  · exact .inr ⟨rfl, hPlace'.start_eq hPlace.starts⟩
  · have hBehind := hPlace'.lt line start hMore hPlace.starts
    have hLe := hPlace.le
    omega

end SourceFile

end Gatework

------------------------------------------------------------
-- Words of the index
------------------------------------------------------------

namespace Gatework

/- Only the largest word has none behind it. -/
theorem nextWord?_eq_none_iff
    {word : UInt32} :
    nextWord? word = none ↔ word.toNat + 1 = UInt32.size := by
  have hWord : word.toNat < UInt32.size := word.toNat_lt
  rw [nextWord?, ite_eq_right_iff]
  simp only [reduceCtorEq, imp_false]
  omega

theorem nextWord?_eq_some
    {word next : UInt32}
    (hNext : nextWord? word = some next) :
    next = word + 1 ∧ next.toNat = word.toNat + 1 := by
  rw [nextWord?, Option.ite_none_right_eq_some] at hNext
  obtain ⟨hFits, hNext⟩ := hNext
  cases hNext
  refine ⟨rfl, ?_⟩
  rw [UInt32.toNat_add, UInt32.toNat_one]
  exact Nat.mod_eq_of_lt hFits

end Gatework

namespace Gatework.SourceFile

variable {f : SourceFile}
variable {line start offset : Nat}
variable (hSize : f.text.utf8ByteSize < 2 ^ 32)

include hSize

theorem toNat_toUInt32
    (hStart : start ≤ f.text.utf8ByteSize) :
    start.toUInt32.toNat = start :=
  UInt32.toNat_ofNat_of_lt' (Nat.lt_of_le_of_lt hStart hSize)

theorem getElem?_lineStarts
    (hStart : f.offsets[line]? = some start) :
    ∃ word, f.lineStarts[line]? = some word ∧
      word.toNat = start := by
  refine ⟨start.toUInt32, ?_, ?_⟩
  · rw [lineStarts, List.getElem?_toArray, List.getElem?_map,
      hStart]
    rfl
  · exact toNat_toUInt32 hSize
      (le_of_mem_offsets (List.mem_of_getElem? hStart))

theorem getElem?_offsets
    {word : UInt32}
    (hWord : f.lineStarts[line]? = some word) :
    f.offsets[line]? = some word.toNat := by
  rw [lineStarts, List.getElem?_toArray, List.getElem?_map,
    Option.map_eq_some_iff] at hWord
  obtain ⟨start, hStart, rfl⟩ := hWord
  rw [hStart, toNat_toUInt32 hSize
    (le_of_mem_offsets (List.mem_of_getElem? hStart))]

theorem increasing_lineStarts :
    Increasing f.lineStarts := by
  rw [Increasing, lineStarts, List.toList_toArray,
    List.pairwise_map]
  apply (pairwise_offsets f).imp_of_mem
  intro x y hx hy hLess
  rw [UInt32.lt_iff_toNat_lt,
    toNat_toUInt32 hSize (le_of_mem_offsets hx),
    toNat_toUInt32 hSize (le_of_mem_offsets hy)]
  exact hLess

/- The index gives the last line that starts up to a word. -/
theorem lineAt_spec
    (word : UInt32) :
    ∃ start, f.lineStarts[f.lineAt word]? = some start ∧
      start ≤ word ∧
      AboveFrom f.lineStarts word (f.lineAt word + 1) := by
  have hRow := increasing_lineStarts hSize
  have hFits := search_fits hRow word
  unfold lineAt
  split
  case h_1 i hSpot =>
      rw [hSpot] at hFits
      refine ⟨word, hFits, UInt32.le_refl _, ?_⟩
      exact fun j later hj hLater => hRow.lt hj hFits hLater
  case h_2 i hSpot =>
      rw [hSpot] at hFits
      obtain ⟨hEnd, hAbove, hBelow⟩ := hFits
      -- the first line starts at zero, which no word is below
      have hStart : f.offsets[0]? = some 0 := rfl
      obtain ⟨first, hFirst, hZero⟩ :=
        getElem?_lineStarts hSize hStart
      have hSome : 0 < i := by
        refine Nat.pos_of_ne_zero fun hNone => ?_
        have hLess := hAbove 0 first (Nat.le_of_eq hNone) hFirst
        rw [UInt32.lt_iff_toNat_lt, hZero] at hLess
        exact Nat.not_lt_zero _ hLess
      have hInside : i - 1 < f.lineStarts.size := by omega
      have hEntry := Array.getElem?_eq_getElem hInside
      refine ⟨f.lineStarts[i - 1], hEntry, ?_, ?_⟩
      · exact UInt32.le_of_lt (hBelow _ _ (by omega) hEntry)
      · exact hAbove.mono (by omega)

/-
  An offset of the text is placed in the line around it, unless
  there is no word for the line or for the column.
-/
theorem lineCol?_spec
    (hOffset : offset ≤ f.text.utf8ByteSize) :
    ∃ line start, f.InLineFrom offset line start ∧
      (f.lineCol? offset = none ↔
        line + 1 = UInt32.size ∨
          offset - start + 1 = UInt32.size) ∧
      ∀ number column, f.lineCol? offset = some (number, column) →
        f.lineCol offset = (number, column) ∧
          number.toNat = line + 1 ∧
          column.toNat = offset - start + 1 := by
  have hWord := toNat_toUInt32 hSize hOffset
  obtain ⟨start, hStart, hLe, hAbove⟩ :=
    lineAt_spec hSize offset.toUInt32
  have hPlace : f.InLineFrom offset (f.lineAt offset.toUInt32)
      start.toNat := by
    refine ⟨getElem?_offsets hSize hStart, ?_, ?_⟩
    · rwa [UInt32.le_iff_toNat_le, hWord] at hLe
    · intro i later hi hLater
      obtain ⟨word, hEntry, rfl⟩ :=
        getElem?_lineStarts hSize hLater
      have hLess := hAbove i word hi hEntry
      rwa [UInt32.lt_iff_toNat_lt, hWord] at hLess
  have hLine := toNat_toUInt32 hSize hPlace.line_le
  have hGap : (offset.toUInt32 - start).toNat =
      offset - start.toNat := by
    rw [UInt32.toNat_sub_of_le _ _ hLe, hWord]
  have hAt : f.lineStarts.getD (f.lineAt offset.toUInt32) 0 =
      start := by
    rw [Array.getD_eq_getD_getElem?, hStart]
    rfl
  refine ⟨_, _, hPlace, ?_, ?_⟩
  · rw [← hLine, ← hGap, ← nextWord?_eq_none_iff,
      ← nextWord?_eq_none_iff, lineCol?, hAt, difference?,
      if_pos hLe]
    simp only [Option.bind_eq_bind, Option.bind_some]
    cases nextWord? (f.lineAt offset.toUInt32).toUInt32 with
    | none => exact ⟨fun _ => .inl rfl, fun _ => rfl⟩
    | some number =>
        cases nextWord? (offset.toUInt32 - start) with
        | none => exact ⟨fun _ => .inr rfl, fun _ => rfl⟩
        | some column => exact ⟨nofun, fun h => nomatch h⟩
  · intro number column hSome
    rw [lineCol?, hAt, difference?, if_pos hLe] at hSome
    simp only [Option.bind_eq_bind, Option.bind_some,
      Option.bind_eq_some_iff, Option.pure_def, Option.some.injEq,
      Prod.mk.injEq] at hSome
    obtain ⟨_, hNumber, _, hColumn, rfl, rfl⟩ := hSome
    obtain ⟨rfl, hNumber⟩ := nextWord?_eq_some hNumber
    obtain ⟨rfl, hColumn⟩ := nextWord?_eq_some hColumn
    rw [lineCol, hAt, hNumber, hColumn, hLine, hGap]
    exact ⟨rfl, rfl, rfl⟩

end Gatework.SourceFile

------------------------------------------------------------
-- Lines of a text
------------------------------------------------------------

namespace Gatework

theorem byteChar_eq_iff
    {b : UInt8} :
    byteChar b = '\n' ↔ b = newline := by
  rw [← Char.toNat_inj, toNat_byteChar, ← UInt8.toNat_inj]
  exact Iff.rfl

/- The byte of a line end is in no other character. -/
theorem count_utf8EncodeChar
    (c : Char) :
    (String.utf8EncodeChar c).count newline = [c].count '\n' := by
  rcases utf8EncodeChar_cases c with
    ⟨_, hByte⟩ | ⟨hOther, b, bs, hBytes, hFirst, hLater⟩
  · obtain ⟨b, hSingle, rfl⟩ := List.map_eq_singleton_iff.mp hByte
    rw [hSingle, List.count_singleton, List.count_singleton]
    simp only [beq_iff_eq, byteChar_eq_iff]
  · have hNone : newline ∉ b :: bs := by
      intro hMem
      rcases List.mem_cons.mp hMem with rfl | hMem
      · exact absurd hFirst (by decide)
      · exact absurd (hLater _ hMem).1 (by decide)
    have hLine : '\n' ∉ [c] := by
      intro hMem
      rw [← List.mem_singleton.mp hMem] at hOther
      exact hOther (by decide)
    rw [hBytes, List.count_eq_zero.mpr hNone,
      List.count_eq_zero.mpr hLine]

theorem count_bytesOf
    (cs : List Char) :
    (bytesOf cs).count newline = cs.count '\n' := by
  induction cs with
  | nil => rfl
  | cons c cs ih =>
      rw [bytesOf, List.flatMap_cons, List.count_append,
        ← bytesOf, ih, count_utf8EncodeChar, ← List.count_append]
      rfl

theorem length_splitOn
    (cs : List Char) :
    (cs.splitOn '\n').length = cs.count '\n' + 1 := by
  induction cs with
  | nil => rfl
  | cons c cs ih =>
      rw [List.splitOn_cons_eq_if_modifyHead]
      by_cases hEnd : c = '\n' <;> simp [hEnd, ih]

theorem getElem?_splitOn_zero
    (cs : List Char) :
    (cs.splitOn '\n')[0]? =
      some (cs.takeWhile SourceFile.inLine) := by
  induction cs with
  | nil => rfl
  | cons c cs ih =>
      rw [List.splitOn_cons_eq_if_modifyHead, List.takeWhile_cons]
      by_cases hEnd : c = '\n' <;>
        simp [hEnd, SourceFile.inLine, ih]

/-
  The line around a place among characters: as many lines are
  in front of it as there are line ends.
-/
theorem getElem?_splitOn_append
    (us vs : List Char) :
    ((us ++ vs).splitOn '\n')[us.count '\n']? =
      some ((us.reverse.takeWhile SourceFile.inLine).reverse ++
        vs.takeWhile SourceFile.inLine) := by
  -- the last character in front of the place goes over to what
  -- is behind it
  induction us using List.reverseRecOn generalizing vs with
  | nil => exact getElem?_splitOn_zero vs
  | append_singleton us c ih =>
      rw [List.append_assoc, List.singleton_append,
        List.count_append, List.reverse_concat,
        List.takeWhile_cons]
      by_cases hEnd : c = '\n'
      · subst hEnd
        rw [List.splitOn_append_cons_self,
          List.count_singleton_self, ← length_splitOn,
          List.getElem?_append_right (Nat.le_refl _),
          Nat.sub_self, getElem?_splitOn_zero]
        rfl
      · have hInLine : SourceFile.inLine c = true :=
          bne_iff_ne.mpr hEnd
        rw [List.count_singleton, if_neg (mt beq_iff_eq.mp hEnd),
          Nat.add_zero, ih, List.takeWhile_cons, if_pos hInLine,
          if_pos hInLine, List.reverse_cons, List.append_assoc,
          List.singleton_append]

namespace SourceFile

/- The lines of a text, without their line ends. -/
def lines
    (f : SourceFile) :
    List String :=
  (f.text.toList.splitOn '\n').map String.ofList

/- A scan finds the line with as many line ends before it. -/
theorem getElem?_lines
    {f : SourceFile}
    {offset : Nat}
    (hPlace : OnBoundary f.text offset) :
    f.lines[(f.bytes.take offset).count newline]? =
      some (f.lineText offset) := by
  obtain ⟨us, vs, hText, rfl⟩ := hPlace.exists_append
  have hFront : f.bytes.take (byteLength us) = bytesOf us := by
    rw [bytes, bytes_eq, hText, bytesOf_append, ← length_bytesOf,
      List.take_left]
  have hInside : min (byteLength us) (byteLength (us ++ vs)) =
      byteLength us := by
    rw [byteLength_append]
    omega
  rw [hFront, count_bytesOf, lines, lineText, hText,
    List.getElem?_map, getElem?_splitOn_append, hInside,
    splitBytes?_append]
  rfl

end SourceFile

end Gatework

------------------------------------------------------------
-- The index and the scan
------------------------------------------------------------

namespace Gatework.SourceFile

/-
  Only at the end of the largest texts an offset has no place:
  there the column is no word if the text is one line, and the
  line is none if the text is nothing but line ends.
-/
theorem lineCol?_eq_none_iff
    {f : SourceFile}
    {offset : Nat}
    (hSize : f.text.utf8ByteSize < 2 ^ 32)
    (hOffset : offset ≤ f.text.utf8ByteSize) :
    f.lineCol? offset = none ↔
      offset + 1 = 2 ^ 32 ∧
        (newline ∉ f.bytes.take offset ∨
          ∀ b ∈ f.bytes.take offset, b = newline) := by
  obtain ⟨line, start, hLine, hNone, _⟩ := lineCol?_spec hSize hOffset
  have hLength : (f.bytes.take offset).length = offset := by
    rw [List.length_take, length_bytes]
    exact Nat.min_eq_left hOffset
  have hCount : line ≤ offset := by
    calc line
        = (f.bytes.take offset).count newline := hLine.line_eq
      _ ≤ (f.bytes.take offset).length := List.count_le_length
      _ = offset := hLength
  have hAll : line = offset ↔
      ∀ b ∈ f.bytes.take offset, b = newline := by
    have hFull : (f.bytes.take offset).count newline =
        (f.bytes.take offset).length ↔
          ∀ b ∈ f.bytes.take offset, newline = b :=
      List.count_eq_length
    rw [hLength, ← hLine.line_eq] at hFull
    exact hFull.trans (forall₂_congr fun _ _ => eq_comm)
  have hLe := hLine.le
  rw [hNone, ← hLine.start_eq_zero_iff, ← hAll, UInt32.size]
  omega

/-
  The line of an offset counts the line ends before it, the
  column counts from the start of that line, and the line of
  that number is the one that a scan finds around the offset.
  Offsets and their places are in the same order.

  Only the end of the largest texts has no place: there the
  column of a text that is one line is no word, and neither is
  the line of a text that is nothing but line ends.
-/
theorem lineCol_exact
    {f : SourceFile}
    (hSize : f.text.utf8ByteSize < 2 ^ 32) :
    (∀ offset, OnBoundary f.text offset →
      (f.lineCol? offset = none ↔
        offset + 1 = 2 ^ 32 ∧
          (newline ∉ f.bytes.take offset ∨
            ∀ b ∈ f.bytes.take offset, b = newline))) ∧
    (∀ offset line col, OnBoundary f.text offset →
      f.lineCol? offset = some (line, col) →
      ∃ start, f.lineCol offset = (line, col) ∧
        line.toNat = (f.bytes.take offset).count newline + 1 ∧
        f.LineStart start offset ∧
        col.toNat = offset - start + 1 ∧
        f.lines[line.toNat - 1]? = some (f.lineText offset)) ∧
    ∀ offset offset' place place', OnBoundary f.text offset →
      OnBoundary f.text offset' → offset < offset' →
      f.lineCol? offset = some place →
      f.lineCol? offset' = some place' →
      toLex place < toLex place' := by
  refine ⟨fun _ hPlace => lineCol?_eq_none_iff hSize hPlace.le, ?_, ?_⟩
  · intro offset line col hPlace hSome
    obtain ⟨_, start, hLine, _, hWords⟩ :=
      lineCol?_spec hSize hPlace.le
    obtain ⟨hTotal, hNumber, hColumn⟩ := hWords line col hSome
    have hScan := getElem?_lines hPlace
    rw [← hLine.line_eq] at hScan ⊢
    refine ⟨start, hTotal, hNumber, hLine.lineStart, hColumn, ?_⟩
    rw [hNumber]
    exact hScan
  · intro offset offset' place place' hPlace hPlace' hOrder hSome
      hSome'
    obtain ⟨_, _, hLine, _, hWords⟩ :=
      lineCol?_spec hSize hPlace.le
    obtain ⟨_, _, hLine', _, hWords'⟩ :=
      lineCol?_spec hSize hPlace'.le
    obtain ⟨_, hNumber, hColumn⟩ := hWords _ _ hSome
    obtain ⟨_, hNumber', hColumn'⟩ := hWords' _ _ hSome'
    rw [Prod.Lex.toLex_lt_toLex, UInt32.lt_iff_toNat_lt,
      UInt32.lt_iff_toNat_lt, ← UInt32.toNat_inj, hNumber, hColumn,
      hNumber', hColumn']
    rcases hLine.lt_or_eq hLine' hOrder with hLess | ⟨rfl, rfl⟩
    · exact .inl (Nat.succ_lt_succ hLess)
    · have hLe := hLine.le
      exact .inr ⟨rfl, by omega⟩

/- An empty line between others, and a letter of two bytes. -/
def gapped : SourceFile :=
  ⟨"m.sv", "é\ncd\n\nx"⟩

theorem lineCol_exact_gapped :
    gapped.text.utf8ByteSize < 2 ^ 32 ∧
      OnBoundary gapped.text 6 ∧ OnBoundary gapped.text 8 ∧
      gapped.lineCol? 6 = some (3, 1) ∧
      gapped.lineCol 6 = (3, 1) ∧
      (gapped.bytes.take 6).count newline = 2 ∧
      gapped.LineStart 6 6 ∧
      gapped.lines[2]? = some (gapped.lineText 6) ∧
      gapped.lineText 6 = "" ∧
      toLex ((3, 1) : UInt32 × UInt32) < toLex (4, 2) ∧
      gapped.lineCol? 8 ≠ none := by
  have hSize : gapped.text.utf8ByteSize < 2 ^ 32 := by
    decide +kernel
  have hGap : OnBoundary gapped.text 6 :=
    onBoundary_byteLength ['é', '\n', 'c', 'd', '\n'] ['\n', 'x']
  have hEnd : OnBoundary gapped.text 8 :=
    onBoundary_byteLength ['é', '\n', 'c', 'd', '\n', '\n', 'x'] []
  have hGapPlace : gapped.lineCol? 6 = some (3, 1) := by
    decide +kernel
  have hEndPlace : gapped.lineCol? 8 = some (4, 2) := by
    decide +kernel
  have hText : gapped.lineText 6 = "" := by
    decide +kernel
  obtain ⟨hNone, hPlaces, hOrder⟩ := lineCol_exact hSize
  obtain ⟨start, hTotal, hLine, hStart, hCol, hScan⟩ :=
    hPlaces 6 3 1 hGap hGapPlace
  have hSame : start = 6 := by
    have hLe := hStart.1
    have hOne : (1 : UInt32).toNat = 1 := rfl
    omega
  subst hSame
  refine ⟨hSize, hGap, hEnd, hGapPlace, hTotal,
    (Nat.succ.inj hLine).symm, hStart, hScan, hText,
    hOrder 6 8 _ _ hGap hEnd (by decide) hGapPlace hEndPlace, ?_⟩
  intro hStop
  have hLarge := ((hNone 8 hEnd).mp hStop).1
  omega

/- A file that is one line of a letter. -/
def oneLine
    (length : Nat) :
    SourceFile :=
  ⟨"m.sv", String.ofList (List.replicate length 'a')⟩

theorem byteLength_replicate
    (length : Nat) :
    byteLength (List.replicate length 'a') = length := by
  induction length with
  | zero => rfl
  | succ n ih =>
      have hOne : 'a'.utf8Size = 1 := by
        decide
      rw [List.replicate_succ, byteLength, ih, hOne, Nat.add_comm]

theorem size_oneLine
    (length : Nat) :
    (oneLine length).text.utf8ByteSize = length := by
  rw [oneLine, utf8ByteSize_ofList, byteLength_replicate]

theorem newline_not_mem_oneLine
    (length offset : Nat) :
    newline ∉ (oneLine length).bytes.take offset := by
  intro hMem
  have hEnd : newline ∈ (oneLine length).bytes :=
    List.mem_of_mem_take hMem
  rw [bytes, bytes_eq, ← List.count_pos_iff, count_bytesOf,
    List.count_pos_iff, oneLine, String.toList_ofList] at hEnd
  exact absurd (List.eq_of_mem_replicate hEnd) (by decide)

theorem onBoundary_oneLine
    (length : Nat) :
    OnBoundary (oneLine length).text length := by
  have hEnd := onBoundary_byteLength (List.replicate length 'a') []
  rw [byteLength_replicate, List.append_nil] at hEnd
  exact hEnd

/-
  Not every offset of a text shorter than the number of words
  has a place: at the end of the longest line the column is no
  word.
-/
theorem lineCol_oneLine :
    ¬ ∀ (f : SourceFile) (offset : Nat),
      f.text.utf8ByteSize < 2 ^ 32 → OnBoundary f.text offset →
      ∃ line col, f.lineCol? offset = some (line, col) := by
  intro hAll
  have hSize : (oneLine (2 ^ 32 - 1)).text.utf8ByteSize < 2 ^ 32 := by
    rw [size_oneLine]
    decide
  have hEnd := onBoundary_oneLine (2 ^ 32 - 1)
  obtain ⟨line, col, hSome⟩ := hAll _ _ hSize hEnd
  have hNone := (lineCol?_eq_none_iff hSize hEnd.le).mpr
    ⟨by decide, .inl (newline_not_mem_oneLine _ _)⟩
  cases hNone.symm.trans hSome

end Gatework.SourceFile
