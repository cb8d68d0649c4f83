import Gatework.Proofs.Expr.Primitives

/-
  The rules of decomposition into AND, OR and NOT.

  The rules continue with rebuilt trees: a bit of an
  expression, or an equality written out, both of which can
  be larger than the tree they come from. On valid
  expressions the rules always come to an end, with one
  result, and this result is what the structural function
  gives.

  Key definitions include:
    * `Expr.Splits`, the rules for a single bit
    * `Expr.Decomposes`, the rules for an expression

  Key theorems include:
    * `Expr.Splits.unique`
    * `Expr.splits_primitiveBit`
    * `Expr.decomposes_iff`
-/

------------------------------------------------------------
-- Rules of decomposition
------------------------------------------------------------

namespace Gatework

namespace Expr

/- The results of a comparison of single bits. -/
def compareBits
    (op : CmpOp)
    (x y : Expr) :
    Expr :=
  match op with
  | .eq => bitsAgree x y
  | .neq => bitsDiffer x y

/-
  The decomposition of a single bit. Selects continue with
  the bit they select and wide comparisons with an equality
  of bits.
-/
inductive Splits : Expr → Expr → Prop where
  | const {m : Mark} {c : Const} :
      Splits (const m c) (const m c)
  | var {m : Mark} {v : Var} :
      Splits (var m v) (var m v)
  | not {m : Mark} {x r : Expr}
      (hx : Splits x r) :
      Splits (not m x) (neg r)
  | gate {m : Mark} {op : GateOp} {a b x y : Expr}
      (ha : Splits a x) (hb : Splits b y) :
      Splits (gate m op a b) (primitiveGate op x y)
  | compareBits {m : Mark} {op : CmpOp} {a b x y : Expr}
      (hWidth : a.width = 1)
      (ha : Splits a x) (hb : Splits b y) :
      Splits (compare m op a b) (compareBits op x y)
  | compareWords {m : Mark} {op : CmpOp} {a b r : Expr}
      (hWidth : a.width ≠ 1)
      (hEqual : Splits (equals a b) r) :
      Splits (compare m op a b) (literal r (op.holds true))
  | mux {m : Mark} {s t f c x y : Expr}
      (hs : Splits s c) (ht : Splits t x) (hf : Splits f y) :
      Splits (mux m s t f) (primitiveMux c x y)
  | bitOfVar {m n : Mark} {v : Var} {i : Nat} :
      Splits (bit m (var n v) i) (bit m (var n v) i)
  | bit {m : Mark} {b r : Expr} {i : Nat}
      (hBase : b.asVar? = none)
      (hBit : Splits (bitOf b i) r) :
      Splits (bit m b i) r
  | part {m : Mark} {b r : Expr} {h l : Nat}
      (hBit : Splits (bitOf b (min h l)) r) :
      Splits (part m b h l) r
  | concat {m : Mark} {parts : List Expr} {p r : Expr}
      (hLast : parts.getLast? = some p)
      (hPart : Splits p r) :
      Splits (concat m parts) r
  | noParts {m : Mark} :
      Splits (concat m []) (ofBool false)

/-
  The decomposition of an expression: leaves stay, a single
  bit is split, and a word is split bit by bit.
-/
inductive Decomposes : Expr → Expr → Prop where
  | const {m : Mark} {c : Const} :
      Decomposes (const m c) (const m c)
  | var {m : Mark} {v : Var} :
      Decomposes (var m v) (var m v)
  | bit {e r : Expr}
      (hConst : e.asConst? = none) (hVar : e.asVar? = none)
      (hWidth : ¬ e.width > 1)
      (hSplit : Splits e r) :
      Decomposes e r
  | word {e : Expr} {result : Nat → Expr}
      (hConst : e.asConst? = none) (hVar : e.asVar? = none)
      (hWidth : e.width > 1)
      (hSplits : ∀ i, i < e.width →
        Splits (bitOf e i) (result i)) :
      Decomposes e
        (concat none ((indicesDown e.width).map result))

/- The rules for single bits give one result at most. -/
theorem Splits.unique
    {e r r' : Expr}
    (h : Splits e r)
    (h' : Splits e r') :
    r = r' := by
  induction h generalizing r' with
  | const => cases h'; rfl
  | var => cases h'; rfl
  | not hx ih =>
      cases h' with
      | not hx' => rw [ih hx']
  | gate ha hb iha ihb =>
      cases h' with
      | gate ha' hb' => rw [iha ha', ihb hb']
  | compareBits hWidth ha hb iha ihb =>
      cases h' with
      | compareBits _ ha' hb' => rw [iha ha', ihb hb']
      | compareWords hWide _ => exact absurd hWidth hWide
  | compareWords hWidth hEqual ih =>
      cases h' with
      | compareBits hOne _ _ => exact absurd hOne hWidth
      | compareWords _ hEqual' => rw [ih hEqual']
  | mux hs ht hf ihs iht ihf =>
      cases h' with
      | mux hs' ht' hf' => rw [ihs hs', iht ht', ihf hf']
  | bitOfVar =>
      cases h' with
      | bitOfVar => rfl
      | bit hBase _ => cases hBase
  | bit hBase hBit ih =>
      cases h' with
      | bitOfVar => cases hBase
      | bit _ hBit' => exact ih hBit'
  | part hBit ih =>
      cases h' with
      | part hBit' => exact ih hBit'
  | concat hLast hPart ih =>
      cases h' with
      | concat hLast' hPart' =>
          cases hLast.symm.trans hLast'
          exact ih hPart'
      | noParts => cases hLast
  | noParts =>
      cases h' with
      | concat hLast _ => cases hLast
      | noParts => rfl

theorem Decomposes.unique
    {e r r' : Expr}
    (h : Decomposes e r)
    (h' : Decomposes e r') :
    r = r' := by
  cases h with
  | const =>
      cases h' with
      | const => rfl
      | bit hConst => cases hConst
      | word hConst => cases hConst
  | var =>
      cases h' with
      | var => rfl
      | bit _ hVar => cases hVar
      | word _ hVar => cases hVar
  | bit hConst hVar hWidth hSplit =>
      cases h' with
      | const => cases hConst
      | var => cases hVar
      | bit _ _ _ hSplit' => exact hSplit.unique hSplit'
      | word _ _ hWide _ => exact absurd hWide hWidth
  | word hConst hVar hWidth hSplits =>
      cases h' with
      | const => cases hConst
      | var => cases hVar
      | bit _ _ hNarrow _ => exact absurd hWidth hNarrow
      | word _ _ _ hSplits' =>
          congr 1
          apply List.map_congr_left
          intro i hi
          have hLow := mem_indicesDown.mp hi
          exact (hSplits i hLow).unique (hSplits' i hLow)

end Expr

end Gatework

------------------------------------------------------------
-- The rules come to an end
------------------------------------------------------------

namespace Gatework

namespace Expr

variable {Γ : Var → Prop}

theorem Splits.bitsAgree
    {a b x y : Expr}
    (ha : Splits a x)
    (hb : Splits b y) :
    Splits (bitsAgree a b) (bitsAgree x y) :=
  .gate (.gate ha hb) (.gate (.not ha) (.not hb))

theorem splits_foldl_conj
    {indices : List Nat}
    {expr result : Nat → Expr}
    (hAll : ∀ i ∈ indices, Splits (expr i) (result i))
    {a x : Expr}
    (ha : Splits a x) :
    Splits ((indices.map expr).foldl conj a)
      ((indices.map result).foldl conj x) := by
  induction indices generalizing a x with
  | nil => exact ha
  | cons i is ih =>
      have hHead := hAll i (List.mem_cons_self ..)
      exact ih (fun j hj => hAll j (List.mem_cons_of_mem _ hj))
        (.gate ha hHead)

theorem splits_conjAll
    {indices : List Nat}
    {expr result : Nat → Expr}
    (hAll : ∀ i ∈ indices, Splits (expr i) (result i)) :
    Splits ((conjAll? (indices.map expr)).getD (ofBool true))
      ((conjAll? (indices.map result)).getD (ofBool true)) := by
  cases indices with
  | nil => exact .const
  | cons i is =>
      exact splits_foldl_conj
        (fun j hj => hAll j (List.mem_cons_of_mem _ hj))
        (hAll i (List.mem_cons_self ..))

/- Each bit splits into the one computed for its index. -/
def SplitsByBit
    (e : Expr) :
    Prop :=
  ∀ ⦃index i⦄, At index e.width i →
    Splits (bitOf e i) (primitiveBit index e)

theorem splits_primitiveParts
    {parts : List Expr}
    (hTyped : TypedAll Γ parts)
    (hParts : ∀ p ∈ parts, SplitsByBit p)
    {i : Nat}
    (hi : i < totalWidth parts) :
    Splits (bitOfParts parts i)
      (primitiveParts (some i) parts) := by
  induction parts with
  | nil => exact absurd hi (Nat.not_lt_zero i)
  | cons p ps ih =>
      rw [totalWidth] at hi
      rw [bitOfParts, primitiveParts]
      by_cases hLow : i < totalWidth ps
      · rw [if_pos hLow, if_pos hLow]
        exact ih hTyped.2
          (fun q hq => hParts q (List.mem_cons_of_mem _ hq)) hLow
      · rw [if_neg hLow, if_neg hLow, if_pos (by omega),
          if_pos (by omega)]
        exact hParts p (List.mem_cons_self ..)
          (at_some (by omega))

/- Parts of one bit in all are a single part. -/
theorem exists_single_part
    {parts : List Expr}
    (hTyped : TypedAll Γ parts)
    (hWidth : totalWidth parts = 1) :
    ∃ p, parts = [p] ∧ p.width = 1 := by
  match parts, hTyped, hWidth with
  | [], _, hWidth => cases hWidth
  | [p], _, hWidth =>
      rw [totalWidth, totalWidth, Nat.add_zero] at hWidth
      exact ⟨p, rfl, hWidth⟩
  | p :: q :: qs, hTyped, hWidth =>
      have hFirst := hTyped.1.width_pos
      have hSecond := hTyped.2.1.width_pos
      rw [totalWidth, totalWidth] at hWidth
      omega

theorem splitsByBit_const
    {m : Mark}
    {c : Const} :
    SplitsByBit (const m c) := by
  intro index i hAt
  rw [bitOf, primitiveBit]
  split
  · exact .const
  · cases index with
    | none => exact absurd (hAt.2.2 rfl) ‹_›
    | some j =>
        cases hAt.1
        exact .const

theorem splitsByBit_var
    {m : Mark}
    {v : Var} :
    SplitsByBit (var m v) := by
  intro index i hAt
  rw [bitOf, primitiveBit]
  split
  · exact .var
  · cases index with
    | none => exact absurd (hAt.2.2 rfl) ‹_›
    | some j =>
        cases hAt.1
        exact .bitOfVar

theorem splitsByBit_gate
    {m : Mark}
    {op : GateOp}
    {a b : Expr}
    (he : (gate m op a b).Typed Γ)
    (ha : SplitsByBit a)
    (hb : SplitsByBit b) :
    SplitsByBit (gate m op a b) := by
  intro index i hAt
  have hPlace := hAt.place
  have hPlace' : At (if (gate m op a b).width = 1 then none
      else index) b.width i := by
    rw [← he.2.2]
    exact hPlace
  have hLeft := ha hPlace
  have hRight := hb hPlace'
  rw [primitiveBit_gate]
  by_cases hWidth : (gate m op a b).width = 1
  · have hOne : a.width = 1 := hWidth
    have hOne' : b.width = 1 := he.2.2 ▸ hOne
    rw [bitOf_of_width_eq_one hOne] at hLeft
    rw [bitOf_of_width_eq_one hOne'] at hRight
    rw [bitOf_of_width_eq_one hWidth]
    exact .gate hLeft hRight
  · rw [bitOf, if_neg hWidth]
    exact .gate hLeft hRight

/- Bits are compared by a gate, words bit by bit. -/
theorem splitsByBit_compare
    {m : Mark}
    {op : CmpOp}
    {a b : Expr}
    (hWidths : a.width = b.width)
    (ha : SplitsByBit a)
    (hb : SplitsByBit b) :
    SplitsByBit (compare m op a b) := by
  intro index i hAt
  have hZero : i = 0 := by
    have hi : i < 1 := hAt.2.1
    omega
  subst hZero
  rw [bitOf_of_width_eq_one rfl, primitiveBit]
  by_cases hWidth : a.width = 1
  · have hWidth' : b.width = 1 := hWidths ▸ hWidth
    have hLeft := ha (at_none hWidth)
    have hRight := hb (at_none hWidth')
    rw [bitOf_of_width_eq_one hWidth] at hLeft
    rw [bitOf_of_width_eq_one hWidth'] at hRight
    rw [if_pos hWidth]
    exact .compareBits hWidth hLeft hRight
  · have hEqual : Splits (equals a b) _ :=
      splits_conjAll (fun i hi => by
        have hLow := mem_indicesDown.mp hi
        exact (ha (at_some (by omega))).bitsAgree
          (hb (at_some (by omega))))
    rw [if_neg hWidth]
    cases op with
    | eq => exact .compareWords hWidth hEqual
    | neq => exact .compareWords hWidth hEqual

theorem splitsByBit_mux
    {m : Mark}
    {s t f : Expr}
    (he : (mux m s t f).Typed Γ)
    (hs : SplitsByBit s)
    (ht : SplitsByBit t)
    (hf : SplitsByBit f) :
    SplitsByBit (mux m s t f) := by
  intro index i hAt
  rcases he with ⟨_, _, _, hScalar, hWidths⟩
  have hPlace := hAt.place
  have hPlace' : At (if (mux m s t f).width = 1 then none
      else index) f.width i := by
    rw [← hWidths]
    exact hPlace
  have hSelector := hs (at_none hScalar)
  have hTrue := ht hPlace
  have hFalse := hf hPlace'
  rw [bitOf_of_width_eq_one hScalar] at hSelector
  rw [primitiveBit_mux]
  by_cases hWidth : (mux m s t f).width = 1
  · have hLeft : t.width = 1 := hWidth
    have hRight : f.width = 1 := hWidths ▸ hLeft
    rw [bitOf_of_width_eq_one hLeft] at hTrue
    rw [bitOf_of_width_eq_one hRight] at hFalse
    rw [bitOf_of_width_eq_one hWidth]
    exact .mux hSelector hTrue hFalse
  · rw [bitOf, if_neg hWidth]
    exact .mux hSelector hTrue hFalse

/- One bit of a concatenation is a bit of one part. -/
theorem splitsByBit_concat
    {m : Mark}
    {parts : List Expr}
    (hTyped : TypedAll Γ parts)
    (hParts : ∀ p ∈ parts, SplitsByBit p) :
    SplitsByBit (concat m parts) := by
  intro index i hAt
  rw [primitiveBit]
  by_cases hWidth : (concat m parts).width = 1
  · rcases exists_single_part hTyped hWidth with ⟨p, rfl, hp⟩
    have hInner := hParts p (List.mem_cons_self ..) (at_none hp)
    rw [bitOf_of_width_eq_one hp] at hInner
    rw [bitOf_of_width_eq_one hWidth, if_pos hWidth]
    exact .concat rfl hInner
  · rw [bitOf, if_neg hWidth, if_neg hWidth]
    cases index with
    | none => exact absurd (hAt.2.2 rfl) hWidth
    | some j =>
        cases hAt.1
        exact splits_primitiveParts hTyped hParts hAt.2.1

/-
  The rules come to an end on every bit of a typed tree, with
  the bit that the structural function gives. The induction
  is on the tree and not on the rebuilt one: a bit of a node
  is rebuilt from bits of its operands.
-/
theorem splits_primitiveBit
    {e : Expr}
    (he : e.Typed Γ) :
    SplitsByBit e := by
  induction e with
  | const m c => exact splitsByBit_const
  | var m v => exact splitsByBit_var
  | not m x ih =>
      intro index i hAt
      have hx := ih he.1 (at_none he.2)
      rw [bitOf_of_width_eq_one he.2] at hx
      have hWidth : (not m x).width = 1 := he.2
      rw [bitOf_of_width_eq_one hWidth, primitiveBit]
      exact .not hx
  | gate m op a b iha ihb =>
      exact splitsByBit_gate he (iha he.1) (ihb he.2.1)
  | compare m op a b iha ihb =>
      exact splitsByBit_compare he.2.2 (iha he.1) (ihb he.2.1)
  | mux m s t f ihs iht ihf =>
      exact splitsByBit_mux he (ihs he.1) (iht he.2.1)
        (ihf he.2.2.1)
  | bit m b j ih =>
      intro index i _
      have hInner := ih he.1 (at_some he.2)
      rw [bitOf_of_width_eq_one rfl]
      cases b with
      | var n v =>
          rw [primitiveBit]
          exact .bitOfVar
      | _ =>
          rw [primitiveBit]
          · exact .bit rfl hInner
          · intro n v h
            cases h
  | part m b h l ih =>
      intro index i hAt
      have hInside : min h l + i < b.width := by
        have hi : i < max h l - min h l + 1 := hAt.2.1
        have hTop := he.2
        omega
      have hInner := ih he.1 (at_some hInside)
      rw [primitiveBit, hAt.place.1]
      by_cases hWidth : (part m b h l).width = 1
      · have hZero : i = 0 := by
          have hi := hAt.2.1
          omega
        rw [hZero, Nat.add_zero] at hInner ⊢
        rw [bitOf_of_width_eq_one hWidth]
        exact .part hInner
      · rw [bitOf, if_neg hWidth]
        exact hInner
  | concat m parts ih =>
      exact splitsByBit_concat he.1 fun p hp =>
        ih p hp (typedAll_iff.mp he.1 p hp)

/- Decomposition has one result, which is computed. -/
theorem decomposes_iff
    {e : Expr}
    (he : e.Typed Γ)
    {r : Expr} :
    Decomposes e r ↔ r = e.toPrimitives := by
  have hRuns : Decomposes e e.toPrimitives := by
    have hBits : e.asConst? = none → e.asVar? = none →
        Decomposes e
          (if e.width > 1 then
            concat none ((indicesDown e.width).map fun i =>
              primitiveBit (some i) e)
          else
            primitiveBit none e) := by
      intro hConst hVar
      by_cases hWide : e.width > 1
      · rw [if_pos hWide]
        exact .word hConst hVar hWide
          (fun i hi => splits_primitiveBit he (at_some hi))
      · have hOne : e.width = 1 := by
          have hPos := he.width_pos
          omega
        have hSplit := splits_primitiveBit he (at_none hOne)
        rw [bitOf_of_width_eq_one hOne] at hSplit
        rw [if_neg hWide]
        exact .bit hConst hVar hWide hSplit
    cases e with
    | const m c => exact .const
    | var m v => exact .var
    | _ => exact hBits rfl rfl
  constructor
  · intro h
    exact h.unique hRuns
  · rintro rfl
    exact hRuns

end Expr

end Gatework
