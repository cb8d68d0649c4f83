import Gatework.Hdl.Lexer
import Gatework.Proofs.Diagram.Tests
import Gatework.Proofs.Expr.Equivalence

/-
  Trees compare equal when their keys are equal.

  A key says at its end and up to its first parenthesis what
  the root is. Between the parentheses the keys of operands
  are parted by commas, and a comma within an operand stands
  in parentheses of its own. So the root and the keys of its
  operands can be read off a key, as long as names are made of
  the characters of names.

  Key definitions include:
    * `Expr.Root`, what a key says of a root
    * `cut`, a text cut at its first comma outside parentheses
    * `Whole`, a text that is never cut
    * `Expr.Identified`, every signal has an identifier

  Key theorems include:
    * `Expr.key_eq_of_same`
    * `Expr.Root.text_inj`
    * `Expr.same_of_key_eq`
    * `Expr.equality_matches_key`
-/

------------------------------------------------------------
-- Ordered pairs
------------------------------------------------------------

namespace Gatework

namespace Expr

theorem orderedPair_comm
    (x y : String) :
    orderedPair x y = orderedPair y x := by
  unfold orderedPair
  by_cases hLess : y < x
  · rw [if_pos hLess, if_neg (String.lt_asymm hLess)]
  · by_cases hGreater : x < y
    · rw [if_neg hLess, if_pos hGreater]
    · rw [if_neg hLess, if_neg hGreater,
        String.le_antisymm (String.not_lt.mp hLess)
          (String.not_lt.mp hGreater)]

theorem orderedPair_cases
    (x y : String) :
    orderedPair x y = (x, y) ∨ orderedPair x y = (y, x) := by
  unfold orderedPair
  by_cases hLess : y < x
  · exact Or.inr (if_pos hLess)
  · exact Or.inl (if_neg hLess)

/- Ordering two texts forgets their order and nothing else. -/
theorem eq_or_swap_of_orderedPair
    {x y x' y' : String}
    (hSame : orderedPair x y = orderedPair x' y') :
    x = x' ∧ y = y' ∨ x = y' ∧ y = x' := by
  rcases orderedPair_cases x y with h | h <;>
  rcases orderedPair_cases x' y' with h' | h' <;>
  rw [h, h', Prod.mk.injEq] at hSame
  · exact Or.inl hSame
  · exact Or.inr hSame
  · exact Or.inr ⟨hSame.2, hSame.1⟩
  · exact Or.inl ⟨hSame.2, hSame.1⟩

end Expr

end Gatework

------------------------------------------------------------
-- Roots
------------------------------------------------------------

namespace Gatework

namespace Expr

/- The operator of a key that lists its operands. -/
inductive Head where
  | not
  | gate (op : GateOp)
  | compare (op : CmpOp)
  | mux
  | concat
deriving DecidableEq

namespace Head

def name : Head → String
  | not => "NOT"
  | gate op => op.name
  | compare op => op.name
  | mux => "MUX"
  | concat => "CONCAT"

def ofName? : String → Option Head
  | "NOT" => some not
  | "AND" => some (gate .and)
  | "OR" => some (gate .or)
  | "XOR" => some (gate .xor)
  | "XNOR" => some (gate .xnor)
  | "NAND" => some (gate .nand)
  | "NOR" => some (gate .nor)
  | "EQ" => some (compare .eq)
  | "NEQ" => some (compare .neq)
  | "MUX" => some mux
  | "CONCAT" => some concat
  | _ => none

theorem ofName?_name
    (h : Head) :
    ofName? h.name = some h := by
  cases h with
  | gate op => cases op <;> rfl
  | compare op => cases op <;> rfl
  | _ => rfl

theorem name_inj
    {h h' : Head}
    (hSame : h.name = h'.name) :
    h = h' := by
  apply Option.some.inj
  rw [← ofName?_name h, hSame, ofName?_name]

theorem isNameChar_of_mem_name
    (h : Head) :
    ∀ c ∈ h.name.toList, Hdl.isNameChar c = true := by
  rw [← List.all_eq_true]
  cases h with
  | gate op => cases op <;> rfl
  | compare op => cases op <;> rfl
  | _ => rfl

end Head

/-
  What a key says of a root: a constant, a signal, an operator
  with the keys of its operands, or a select with the key of
  its base.
-/
inductive Root where
  | number (width value : Nat)
  | signal (name : String)
  | call (head : Head) (operands : List String)
  | bit (base : String) (index : Nat)
  | part (base : String) (msb lsb : Nat)

def Root.text : Root → String
  | number width value => toString width ++ "'d" ++ toString value
  | signal name => name
  | call head operands =>
      head.name ++ Text.parens (String.intercalate "," operands)
  | bit base index => bitText base index
  | part base msb lsb => partText base msb lsb

/- Keys of the operands of a gate, sorted if unordered. -/
def gateKeys
    (op : GateOp)
    (x y : String) :
    String × String :=
  if op.unordered then orderedPair x y else (x, y)

def root : Expr → Root
  | const _ c => .number c.width c.value
  | var _ v => .signal v.name
  | not _ x => .call .not [key x]
  | gate _ op a b =>
      .call (.gate op)
        [(gateKeys op (key a) (key b)).1,
          (gateKeys op (key a) (key b)).2]
  | compare _ op a b => .call (.compare op) [key a, key b]
  | mux _ s t f => .call .mux [key s, key t, key f]
  | bit _ b i => .bit (key b) i
  | part _ b m l => .part (key b) m l
  | concat _ parts => .call .concat (keyAll parts)

/- A key is the text of the root. -/
theorem text_root
    (e : Expr) :
    e.root.text = e.key := by
  cases e with
  | gate m op a b =>
      rw [root, Root.text, String.intercalate_cons_cons,
        String.intercalate_singleton, key]
      rfl
  | mux m s t f =>
      rw [root, Root.text, String.intercalate_cons_cons,
        String.intercalate_cons_cons, String.intercalate_singleton,
        key]
      simp only [String.append_assoc]
      rfl
  | compare m op a b =>
      rw [root, Root.text, String.intercalate_cons_cons,
        String.intercalate_singleton, key]
      rfl
  | not m x =>
      rw [root, Root.text, String.intercalate_singleton, key]
      rfl
  | _ => rfl

/- Keys sorted by an unordered gate come in either order. -/
theorem gateKeys_comm
    {op : GateOp}
    (hOp : op.unordered = true)
    (x y : String) :
    gateKeys op x y = gateKeys op y x := by
  rw [gateKeys, gateKeys, if_pos hOp, if_pos hOp,
    orderedPair_comm]

theorem eq_or_swap_of_gateKeys
    {op : GateOp}
    {x y x' y' : String}
    (hSame : gateKeys op x y = gateKeys op x' y') :
    x = x' ∧ y = y' ∨
      op.unordered = true ∧ x = y' ∧ y = x' := by
  unfold gateKeys at hSame
  by_cases hOp : op.unordered = true
  · rw [if_pos hOp, if_pos hOp] at hSame
    exact (eq_or_swap_of_orderedPair hSame).imp_right
      fun h => ⟨hOp, h⟩
  · rw [if_neg hOp, if_neg hOp, Prod.mk.injEq] at hSame
    exact Or.inl hSame

end Expr

end Gatework

------------------------------------------------------------
-- Equal trees have equal keys
------------------------------------------------------------

namespace Gatework

namespace Expr

theorem keyAll_eq_of_sameAll
    {ps qs : List Expr}
    (hParts : ∀ p ∈ ps, ∀ q, same p q = true → key p = key q)
    (hSame : sameAll ps qs = true) :
    keyAll ps = keyAll qs := by
  induction ps generalizing qs with
  | nil =>
      cases qs with
      | nil => rfl
      | cons q qs => cases hSame
  | cons p ps ih =>
      cases qs with
      | nil => cases hSame
      | cons q qs =>
          rw [sameAll, Bool.and_eq_true] at hSame
          rw [keyAll, keyAll,
            hParts p (List.mem_cons_self ..) q hSame.1,
            ih (fun r hr => hParts r (List.mem_cons_of_mem _ hr))
              hSame.2]

/- Trees that compare equal have one key. -/
theorem key_eq_of_same
    {a b : Expr}
    (hSame : same a b = true) :
    key a = key b := by
  induction a generalizing b with
  | const m c =>
      cases b with
      | const n d =>
          simp only [same, Const.alike, Bool.and_eq_true,
            beq_iff_eq] at hSame
          rw [key, key, hSame.1, hSame.2]
      | _ => cases hSame
  | var m v =>
      cases b with
      | var n w => exact beq_iff_eq.mp hSame
      | _ => cases hSame
  | not m x ih =>
      cases b with
      | not n y => rw [key, key, ih hSame]
      | _ => cases hSame
  | gate m op x y ihx ihy =>
      cases b with
      | gate n op' x' y' =>
          rw [← text_root, ← text_root, root, root]
          rcases same_gate_iff.mp hSame with
            ⟨rfl, hOrder | ⟨hOp, hSwap⟩⟩
          · rw [ihx hOrder.1, ihy hOrder.2]
          · rw [ihx hSwap.1, ihy hSwap.2, gateKeys_comm hOp]
      | _ => cases hSame
  | compare m op x y ihx ihy =>
      cases b with
      | compare n op' x' y' =>
          simp only [same, Bool.and_eq_true, beq_iff_eq] at hSame
          rw [key, key, hSame.1.1, ihx hSame.1.2, ihy hSame.2]
      | _ => cases hSame
  | mux m s t f ihs iht ihf =>
      cases b with
      | mux n s' t' f' =>
          simp only [same, Bool.and_eq_true] at hSame
          rw [key, key, ihs hSame.1.1, iht hSame.1.2, ihf hSame.2]
      | _ => cases hSame
  | bit m x i ih =>
      cases b with
      | bit n x' i' =>
          simp only [same, Bool.and_eq_true, beq_iff_eq] at hSame
          rw [key, key, hSame.1, ih hSame.2]
      | _ => cases hSame
  | part m x h l ih =>
      cases b with
      | part n x' h' l' =>
          simp only [same, Bool.and_eq_true, beq_iff_eq] at hSame
          rw [key, key, hSame.1.1, hSame.1.2, ih hSame.2]
      | _ => cases hSame
  | concat m ps ih =>
      cases b with
      | concat n qs =>
          rw [key, key, keyAll_eq_of_sameAll
            (fun p hp q h => ih p hp h) hSame]
      | _ => cases hSame

end Expr

end Gatework

------------------------------------------------------------
-- Texts cut at a comma
------------------------------------------------------------

namespace Gatework

/- How many parentheses are open after a character. -/
def depthAfter
    (depth : Nat)
    (c : Char) :
    Nat :=
  if c = '(' then depth + 1
  else if c = ')' then depth - 1
  else depth

/-
  What comes before and after the first comma at which no
  parenthesis is open. There are `depth` of them open at the
  start.
-/
def cut
    (depth : Nat) :
    List Char → List Char × Option (List Char)
  | [] => ([], none)
  | c :: cs =>
      if c = ',' ∧ depth = 0 then
        ([], some cs)
      else
        let rest := cut (depthAfter depth c) cs
        (c :: rest.1, rest.2)

/-
  A text that is not cut, and leaves the depth as it is,
  wherever `depth` parentheses or more are open.
-/
def Passes
    (depth : Nat)
    (s : List Char) :
    Prop :=
  ∀ n rest, cut (n + depth) (s ++ rest) =
    (s ++ (cut (n + depth) rest).1, (cut (n + depth) rest).2)

namespace Passes

variable {depth : Nat}
variable {s t : List Char}

theorem nil : Passes depth [] :=
  fun _ _ => rfl

theorem append
    (hs : Passes depth s)
    (ht : Passes depth t) :
    Passes depth (s ++ t) := by
  intro n rest
  rw [List.append_assoc, hs n, ht n, List.append_assoc]

theorem deeper
    (hs : Passes depth s) :
    Passes (depth + 1) s := by
  intro n rest
  rw [Nat.add_comm depth 1, ← Nat.add_assoc]
  exact hs (n + 1) rest

theorem char
    {c : Char}
    (hOpen : c ≠ '(')
    (hClose : c ≠ ')')
    (hComma : c ≠ ',') :
    Passes depth [c] := by
  intro n rest
  rw [List.singleton_append, cut, if_neg (fun h => hComma h.1),
    depthAfter, if_neg hOpen, if_neg hClose]
  rfl

theorem of_forall
    (hChars : ∀ c ∈ s, c ≠ '(' ∧ c ≠ ')' ∧ c ≠ ',') :
    Passes depth s := by
  induction s with
  | nil => exact nil
  | cons c cs ih =>
      rcases hChars c (List.mem_cons_self ..) with ⟨h₁, h₂, h₃⟩
      exact (char h₁ h₂ h₃).append
        (ih fun d hd => hChars d (List.mem_cons_of_mem _ hd))

/- A comma is passed over where a parenthesis is open. -/
theorem comma : Passes 1 [','] := by
  intro n rest
  rw [List.singleton_append, cut, if_neg (fun h => by omega)]
  rfl

/- Between parentheses, one more of them is open. -/
theorem parens
    (hs : Passes 1 s) :
    Passes 0 ('(' :: (s ++ [')'])) := by
  intro n rest
  have hClose : cut (n + 1) (')' :: rest) =
      (')' :: (cut n rest).1, (cut n rest).2) := by
    rw [cut, if_neg (fun h => by simp at h)]
    rfl
  rw [List.cons_append, cut, if_neg (fun h => by simp at h)]
  rw [show depthAfter (n + 0) '(' = n + 1 from rfl,
    List.append_assoc, hs n, List.singleton_append, hClose]
  simp

/- Texts with commas between them pass inside parentheses. -/
theorem intercalate
    {ss : List (List Char)}
    (hAll : ∀ s ∈ ss, Passes 0 s) :
    Passes 1 ([','].intercalate ss) := by
  induction ss with
  | nil => exact nil
  | cons s ss ih =>
      have hHead : Passes 1 s :=
        (hAll s (List.mem_cons_self ..)).deeper
      have hTail := ih
        fun t ht => hAll t (List.mem_cons_of_mem _ ht)
      cases ss with
      | nil =>
          rw [List.intercalate_singleton]
          exact hHead
      | cons t ts =>
          rw [List.intercalate_cons_cons]
          exact (hHead.append comma).append hTail

end Passes

/- A text that is not empty and is cut nowhere. -/
def Whole
    (s : String) :
    Prop :=
  s ≠ "" ∧ Passes 0 s.toList

theorem cut_intercalate
    {s : List Char}
    {ss : List (List Char)}
    (hs : Passes 0 s) :
    cut 0 ([','].intercalate (s :: ss)) =
      (s, if ss = [] then none else some ([','].intercalate ss)) := by
  cases ss with
  | nil =>
      have hCut := hs 0 []
      rw [List.append_nil] at hCut
      rw [List.intercalate_singleton, hCut]
      simp [cut]
  | cons t ts =>
      rw [List.intercalate_cons_cons, List.append_assoc, hs 0]
      simp [cut]

/- Whole texts can be told apart between commas. -/
theorem eq_of_intercalate
    {ss ts : List (List Char)}
    (hs : ∀ s ∈ ss, s ≠ [] ∧ Passes 0 s)
    (ht : ∀ t ∈ ts, t ≠ [] ∧ Passes 0 t)
    (hSame : [','].intercalate ss = [','].intercalate ts) :
    ss = ts := by
  -- The first texts agree by a cut; no list of whole texts but
  -- the empty one is written as nothing.
  have hEmpty : ∀ {t : List Char} {ts : List (List Char)},
      t ≠ [] → [','].intercalate (t :: ts) ≠ [] := by
    intro t ts hNonempty hNil
    cases ts with
    | nil =>
        rw [List.intercalate_singleton] at hNil
        exact hNonempty hNil
    | cons u us =>
        rw [List.intercalate_cons_cons] at hNil
        simp at hNil
  induction ss generalizing ts with
  | nil =>
      cases ts with
      | nil => rfl
      | cons t ts =>
          exact absurd hSame.symm
            (hEmpty (ht t (List.mem_cons_self ..)).1)
  | cons s ss ih =>
      have hHead := hs s (List.mem_cons_self ..)
      cases ts with
      | nil => exact absurd hSame (hEmpty hHead.1)
      | cons t ts =>
          have hCut := congrArg (cut 0) hSame
          rw [cut_intercalate hHead.2,
            cut_intercalate (ht t (List.mem_cons_self ..)).2,
            Prod.mk.injEq] at hCut
          rcases hCut with ⟨rfl, hRest⟩
          have hTail : [','].intercalate ss =
              [','].intercalate ts := by
            by_cases hNil : ss = [] <;> by_cases hNil' : ts = []
            · rw [hNil, hNil']
            · simp [hNil, hNil'] at hRest
            · simp [hNil, hNil'] at hRest
            · simpa [hNil, hNil'] using hRest
          rw [ih (fun u hu => hs u (List.mem_cons_of_mem _ hu))
            (fun u hu => ht u (List.mem_cons_of_mem _ hu)) hTail]

end Gatework

------------------------------------------------------------
-- Texts of roots
------------------------------------------------------------

namespace Gatework

/- Characters of names are no marks of keys. -/
theorem isNameChar_digit
    {n : Nat}
    {c : Char}
    (hc : c ∈ Nat.toDigits 10 n) :
    Hdl.isNameChar c = true := by
  have hDigit := Nat.isDigit_of_mem_toDigits (by decide)
    (by decide) hc
  simp [Hdl.isNameChar, Char.isAlphanum, hDigit]

theorem not_mem_of_isNameChar
    {s : List Char}
    (hs : ∀ c ∈ s, Hdl.isNameChar c = true)
    {mark : Char}
    (hMark : Hdl.isNameChar mark = false) :
    mark ∉ s := by
  intro hMem
  have hTrue := hs mark hMem
  rw [hMark] at hTrue
  cases hTrue

theorem Passes.of_isNameChar
    {depth : Nat}
    {s : List Char}
    (hs : ∀ c ∈ s, Hdl.isNameChar c = true) :
    Passes depth s := by
  apply Passes.of_forall
  intro c hc
  refine ⟨?_, ?_, ?_⟩ <;>
  · rintro rfl
    exact not_mem_of_isNameChar hs (by decide) hc

namespace Expr

namespace Root

theorem toList_number
    (width value : Nat) :
    (number width value).text.toList =
      Nat.toDigits 10 width ++
        '\x27' :: 'd' :: Nat.toDigits 10 value := by
  rw [text, String.toList_append, String.toList_append,
    Nat.toString_eq_repr, Nat.toString_eq_repr, Nat.toList_repr,
    Nat.toList_repr, List.append_assoc]
  rfl

theorem toList_call
    (head : Head)
    (operands : List String) :
    (call head operands).text.toList =
      head.name.toList ++ '(' ::
        ([','].intercalate (operands.map String.toList) ++
          [')']) := by
  rw [text, Text.parens, String.toList_append,
    String.toList_append, String.toList_append,
    String.toList_intercalate]
  rfl

theorem toList_bit
    (base : String)
    (index : Nat) :
    (bit base index).text.toList =
      base.toList ++ '[' :: (Nat.toDigits 10 index ++ [']']) :=
  toList_bitName base index

theorem toList_part
    (base : String)
    (msb lsb : Nat) :
    (part base msb lsb).text.toList =
      base.toList ++ '[' ::
        ((Nat.toDigits 10 msb ++ ':' :: Nat.toDigits 10 lsb) ++
          [']']) := by
  rw [text, partText]
  simp [String.toList_append, Nat.toString_eq_repr,
    Nat.toList_repr]

/- Names are identifiers and keys of operands are whole. -/
def Plain : Root → Prop
  | number _ _ => True
  | signal name =>
      name ≠ "" ∧ ∀ c ∈ name.toList, Hdl.isNameChar c = true
  | call _ operands => ∀ x ∈ operands, Whole x
  | bit base _ => Whole base
  | part base _ _ => Whole base

theorem Plain.passes
    {r : Root}
    (h : r.Plain) :
    Passes 0 r.text.toList := by
  have hDigits : ∀ n, Passes 0 (Nat.toDigits 10 n) :=
    fun _ => .of_isNameChar fun _ => isNameChar_digit
  have hMark : ∀ c : Char, c ≠ '(' → c ≠ ')' → c ≠ ',' →
      Passes 0 [c] :=
    fun _ => .char
  cases r with
  | number width value =>
      rw [toList_number]
      exact (hDigits width).append
        ((hMark '\x27' (by decide) (by decide) (by decide)).append
          ((hMark 'd' (by decide) (by decide) (by decide)).append
            (hDigits value)))
  | signal name => exact .of_isNameChar h.2
  | call head operands =>
      rw [toList_call]
      apply Passes.append
      · exact .of_isNameChar head.isNameChar_of_mem_name
      · apply Passes.parens
        apply Passes.intercalate
        intro s hs
        rcases List.mem_map.mp hs with ⟨x, hx, rfl⟩
        exact (h x hx).2
  | bit base index =>
      rw [toList_bit]
      exact h.2.append
        ((hMark '[' (by decide) (by decide) (by decide)).append
          ((hDigits index).append
            (hMark ']' (by decide) (by decide) (by decide))))
  | part base msb lsb =>
      rw [toList_part]
      exact h.2.append
        ((hMark '[' (by decide) (by decide) (by decide)).append
          (((hDigits msb).append
            ((hMark ':' (by decide) (by decide) (by decide)).append
              (hDigits lsb))).append
            (hMark ']' (by decide) (by decide) (by decide))))

theorem Plain.whole
    {r : Root}
    (h : r.Plain) :
    Whole r.text := by
  refine ⟨?_, h.passes⟩
  intro hEmpty
  have hNil : r.text.toList = [] := by rw [hEmpty]; rfl
  cases r with
  | number width value => simp [toList_number] at hNil
  | signal name => exact h.1 hEmpty
  | call head operands => simp [toList_call] at hNil
  | bit base index => simp [toList_bit] at hNil
  | part base msb lsb => simp [toList_part] at hNil

/- The closing bracket or parenthesis at the end of a text. -/
def closingMark?
    (s : List Char) :
    Option Char :=
  s.getLast?.filter fun c => c == ')' || c == ']'

def closing : Root → Option Char
  | number _ _ => none
  | signal _ => none
  | call _ _ => some ')'
  | bit _ _ => some ']'
  | part _ _ _ => some ']'

theorem closingMark?_eq_none
    {s : List Char}
    (hs : ∀ c ∈ s, c ≠ ')' ∧ c ≠ ']') :
    closingMark? s = none := by
  apply Option.filter_eq_none_iff.mpr
  intro c hc hMark
  have hOther := hs c (List.mem_of_getLast? hc)
  simp [hOther] at hMark

theorem closingMark?_append
    {mark : Char}
    (hMark : mark = ')' ∨ mark = ']')
    (s : List Char) :
    closingMark? (s ++ [mark]) = some mark := by
  rw [closingMark?, List.getLast?_concat]
  rcases hMark with rfl | rfl <;> rfl

theorem Plain.closingMark?_text
    {r : Root}
    (h : r.Plain) :
    closingMark? r.text.toList = r.closing := by
  have hName : ∀ c, Hdl.isNameChar c = true →
      c ≠ ')' ∧ c ≠ ']' := by
    intro c hc
    constructor <;>
    · rintro rfl
      exact absurd hc (by decide)
  cases r with
  | number width value =>
      apply closingMark?_eq_none
      intro c hc
      rw [toList_number] at hc
      rcases List.mem_append.mp hc with hWidth | hTick
      · exact hName c (isNameChar_digit hWidth)
      · rcases List.mem_cons.mp hTick with rfl | hRadix
        · decide
        · rcases List.mem_cons.mp hRadix with rfl | hValue
          · decide
          · exact hName c (isNameChar_digit hValue)
  | signal name =>
      exact closingMark?_eq_none fun c hc => hName c (h.2 c hc)
  | call head operands =>
      rw [toList_call, ← List.cons_append, ← List.append_assoc]
      exact closingMark?_append (Or.inl rfl) _
  | bit base index =>
      rw [toList_bit, ← List.cons_append, ← List.append_assoc]
      exact closingMark?_append (Or.inr rfl) _
  | part base msb lsb =>
      rw [toList_part, ← List.cons_append, ← List.append_assoc]
      exact closingMark?_append (Or.inr rfl) _

/- A select ends with what stands in its last brackets. -/
theorem eq_of_brackets
    {base base' : String}
    {s s' : List Char}
    (hs : '[' ∉ s)
    (hs' : '[' ∉ s')
    (hSame : base.toList ++ '[' :: (s ++ [']']) =
      base'.toList ++ '[' :: (s' ++ [']'])) :
    base = base' ∧ s = s' := by
  have hReverse := congrArg List.reverse hSame
  simp only [List.reverse_append, List.reverse_cons,
    List.reverse_nil, List.append_assoc, List.nil_append,
    List.cons_append, List.cons.injEq, true_and] at hReverse
  rcases eq_of_append_mark
    (fun h => hs (List.mem_reverse.mp h))
    (fun h => hs' (List.mem_reverse.mp h)) hReverse with
    ⟨hInner, hBase⟩
  exact ⟨String.toList_inj.mp (List.reverse_inj.mp hBase),
    List.reverse_inj.mp hInner⟩

theorem number_inj
    {w v w' v' : Nat}
    (hSame : (number w v).text = (number w' v').text) :
    number w v = number w' v' := by
  have hTick : ∀ n, '\x27' ∉ Nat.toDigits 10 n :=
    fun _ => not_mem_of_isNameChar (fun _ => isNameChar_digit)
      (by decide)
  have hText := congrArg String.toList hSame
  rw [toList_number, toList_number] at hText
  rcases eq_of_append_mark (hTick w) (hTick w') hText with
    ⟨hWidth, hRest⟩
  injection hRest with _ hValue
  rw [toDigits_inj hWidth, toDigits_inj hValue]

theorem number_ne_signal
    {w v : Nat}
    {name : String}
    (hName : (signal name).Plain) :
    (number w v).text ≠ (signal name).text := by
  intro hSame
  have hTick : '\x27' ∈ name.toList := by
    rw [show name = (number w v).text from hSame.symm,
      toList_number]
    exact List.mem_append_right _ (List.mem_cons_self ..)
  exact not_mem_of_isNameChar hName.2 (by decide) hTick

theorem call_inj
    {head head' : Head}
    {operands operands' : List String}
    (h : (call head operands).Plain)
    (h' : (call head' operands').Plain)
    (hSame : (call head operands).text =
      (call head' operands').text) :
    call head operands = call head' operands' := by
  have hOpen : ∀ head : Head, '(' ∉ head.name.toList :=
    fun head => not_mem_of_isNameChar head.isNameChar_of_mem_name
      (by decide)
  have hWhole : ∀ {xs : List String}, (∀ x ∈ xs, Whole x) →
      ∀ s ∈ xs.map String.toList, s ≠ [] ∧ Passes 0 s := by
    intro xs hAll s hs
    rcases List.mem_map.mp hs with ⟨x, hx, rfl⟩
    exact ⟨fun hNil => (hAll x hx).1 (String.toList_eq_nil_iff.mp hNil),
      (hAll x hx).2⟩
  have hText := congrArg String.toList hSame
  rw [toList_call, toList_call] at hText
  rcases eq_of_append_mark (hOpen head) (hOpen head') hText with
    ⟨hHead, hRest⟩
  have hOperands := eq_of_intercalate (hWhole h) (hWhole h')
    (List.append_cancel_right hRest)
  rw [Head.name_inj (String.toList_inj.mp hHead),
    (List.map_inj_right fun _ _ => String.toList_inj.mp).mp
      hOperands]

/- One bit is selected by a number, several by two. -/
theorem select_inj
    {r r' : Root}
    (hClosing : r.closing = some ']')
    (hClosing' : r'.closing = some ']')
    (hSame : r.text = r'.text) :
    r = r' := by
  have hMark : ∀ mark : Char, Hdl.isNameChar mark = false →
      ∀ n, mark ∉ Nat.toDigits 10 n :=
    fun _ h _ => not_mem_of_isNameChar (fun _ => isNameChar_digit) h
  have hBracket := hMark '[' (by decide)
  have hColon := hMark ':' (by decide)
  have hRange : ∀ m l, '[' ∉
      Nat.toDigits 10 m ++ ':' :: Nat.toDigits 10 l := by
    intro m l hMem
    rcases List.mem_append.mp hMem with h | h
    · exact hBracket m h
    · rcases List.mem_cons.mp h with h | h
      · cases h
      · exact hBracket l h
  have hText := congrArg String.toList hSame
  cases r with
  | bit base index =>
      cases r' with
      | bit base' index' =>
          rw [toList_bit, toList_bit] at hText
          rcases eq_of_brackets (hBracket _) (hBracket _) hText with
            ⟨rfl, hIndex⟩
          rw [toDigits_inj hIndex]
      | part base' msb lsb =>
          rw [toList_bit, toList_part] at hText
          rcases eq_of_brackets (hBracket _) (hRange _ _) hText with
            ⟨_, hIndex⟩
          exact absurd (hIndex ▸ List.mem_append_right _
            (List.mem_cons_self ..)) (hColon index)
      | _ => cases hClosing'
  | part base msb lsb =>
      cases r' with
      | bit base' index =>
          rw [toList_bit, toList_part] at hText
          rcases eq_of_brackets (hRange _ _) (hBracket _) hText with
            ⟨_, hIndex⟩
          exact absurd (hIndex ▸ List.mem_append_right _
            (List.mem_cons_self ..)) (hColon index)
      | part base' msb' lsb' =>
          rw [toList_part, toList_part] at hText
          rcases eq_of_brackets (hRange _ _) (hRange _ _) hText with
            ⟨rfl, hInner⟩
          rcases eq_of_append_mark (hColon _) (hColon _) hInner with
            ⟨hMsb, hLsb⟩
          rw [toDigits_inj hMsb, toDigits_inj hLsb]
      | _ => cases hClosing'
  | _ => cases hClosing

/- The root can be read off the key. -/
theorem text_inj
    {r r' : Root}
    (h : r.Plain)
    (h' : r'.Plain)
    (hSame : r.text = r'.text) :
    r = r' := by
  have hClosing : r.closing = r'.closing := by
    rw [← h.closingMark?_text, ← h'.closingMark?_text, hSame]
  cases r with
  | number w v =>
      cases r' with
      | number w' v' => exact number_inj hSame
      | signal name => exact absurd hSame (number_ne_signal h')
      | _ => cases hClosing
  | signal name =>
      cases r' with
      | number w v => exact absurd hSame.symm (number_ne_signal h)
      | signal name' => exact congrArg signal hSame
      | _ => cases hClosing
  | call head operands =>
      cases r' with
      | call head' operands' => exact call_inj h h' hSame
      | _ => cases hClosing
  | bit base index => exact select_inj rfl hClosing.symm hSame
  | part base msb lsb => exact select_inj rfl hClosing.symm hSame

end Root

end Expr

end Gatework

------------------------------------------------------------
-- Equal keys come from equal trees
------------------------------------------------------------

namespace Gatework

/- A word of the shape of a name, be it a keyword or not. -/
def Hdl.isIdentifier
    (word : String) :
    Bool :=
  match word.toList with
  | [] => false
  | c :: cs => isNameStart c && cs.all isNameChar

theorem Hdl.isNameChar_of_isIdentifier
    {word : String}
    (hWord : isIdentifier word = true) :
    word ≠ "" ∧ ∀ c ∈ word.toList, isNameChar c = true := by
  unfold isIdentifier at hWord
  cases hText : word.toList with
  | nil =>
      rw [hText] at hWord
      cases hWord
  | cons c cs =>
      simp only [hText, Bool.and_eq_true, List.all_eq_true] at hWord
      refine ⟨?_, ?_⟩
      · rintro rfl
        cases hText
      · intro d hd
        rcases List.mem_cons.mp hd with rfl | hRest
        · rcases Bool.or_eq_true_iff.mp hWord.1 with h | h
          · simp [isNameChar, Char.isAlphanum, h]
          · simp [isNameChar, h]
        · exact hWord.2 d hRest

namespace Expr

/- Every signal read has an identifier for a name. -/
def Identified
    (e : Expr) :
    Prop :=
  ∀ v ∈ e.occurrences, Hdl.isIdentifier v.name = true

theorem whole_keyAll
    {parts : List Expr}
    (hParts : ∀ p ∈ parts, Whole p.key) :
    ∀ x ∈ keyAll parts, Whole x := by
  induction parts with
  | nil =>
      intro x hx
      cases hx
  | cons p ps ih =>
      intro x hx
      rcases List.mem_cons.mp hx with rfl | hRest
      · exact hParts p (List.mem_cons_self ..)
      · exact ih (fun q hq => hParts q (List.mem_cons_of_mem _ hq))
          x hRest

theorem whole_gateKeys
    {op : GateOp}
    {x y : String}
    (hx : Whole x)
    (hy : Whole y) :
    Whole (gateKeys op x y).1 ∧ Whole (gateKeys op x y).2 := by
  unfold gateKeys
  split
  · rcases orderedPair_cases x y with h | h <;> rw [h]
    · exact ⟨hx, hy⟩
    · exact ⟨hy, hx⟩
  · exact ⟨hx, hy⟩

theorem plain_root
    {e : Expr}
    (he : e.Identified) :
    e.root.Plain := by
  have hWhole : ∀ {x : Expr}, x.root.Plain → Whole x.key := by
    intro x hx
    rw [← text_root]
    exact hx.whole
  induction e with
  | const m c => trivial
  | var m v =>
      exact Hdl.isNameChar_of_isIdentifier
        (he v (List.mem_singleton.mpr rfl))
  | not m x ih =>
      intro k hk
      rw [List.mem_singleton.mp hk]
      exact hWhole (ih he)
  | gate m op a b iha ihb =>
      have ha := hWhole (iha fun v hv =>
        he v (List.mem_append_left _ hv))
      have hb := hWhole (ihb fun v hv =>
        he v (List.mem_append_right _ hv))
      simpa [root, Root.Plain] using whole_gateKeys ha hb
  | compare m op a b iha ihb =>
      have ha := hWhole (iha fun v hv =>
        he v (List.mem_append_left _ hv))
      have hb := hWhole (ihb fun v hv =>
        he v (List.mem_append_right _ hv))
      simpa [root, Root.Plain] using And.intro ha hb
  | mux m s t f ihs iht ihf =>
      have hs := hWhole (ihs fun v hv =>
        he v (List.mem_append_left _ hv))
      have ht := hWhole (iht fun v hv =>
        he v (List.mem_append_right _ (List.mem_append_left _ hv)))
      have hf := hWhole (ihf fun v hv =>
        he v (List.mem_append_right _ (List.mem_append_right _ hv)))
      simpa [root, Root.Plain] using And.intro hs (And.intro ht hf)
  | bit m b i ih => exact hWhole (ih he)
  | part m b h l ih => exact hWhole (ih he)
  | concat m parts ih =>
      apply whole_keyAll
      intro p hp
      apply hWhole (ih p hp _)
      intro v hv
      exact he v (mem_occurrencesAll.mpr ⟨p, hp, hv⟩)

theorem sameAll_of_keyAll_eq
    {ps qs : List Expr}
    (hParts : ∀ p ∈ ps, ∀ q ∈ qs, key p = key q → same p q = true)
    (hKeys : keyAll ps = keyAll qs) :
    sameAll ps qs = true := by
  induction ps generalizing qs with
  | nil =>
      cases qs with
      | nil => rfl
      | cons q qs => cases hKeys
  | cons p ps ih =>
      cases qs with
      | nil => cases hKeys
      | cons q qs =>
          injection hKeys with hHead hTail
          rw [sameAll, hParts p (List.mem_cons_self ..) q
            (List.mem_cons_self ..) hHead]
          exact ih (fun r hr s hs => hParts r
            (List.mem_cons_of_mem _ hr) s
            (List.mem_cons_of_mem _ hs)) hTail

theorem root_eq_of_key_eq
    {a b : Expr}
    (ha : a.Identified)
    (hb : b.Identified)
    (hKey : key a = key b) :
    a.root = b.root :=
  Root.text_inj (plain_root ha) (plain_root hb)
    (by rw [text_root, text_root, hKey])

/- Trees with identifiers and one key compare equal. -/
theorem same_of_key_eq
    {a b : Expr}
    (ha : a.Identified)
    (hb : b.Identified)
    (hKey : key a = key b) :
    same a b = true := by
  have hLeft : ∀ {xs ys : List Var},
      (∀ v ∈ xs ++ ys, Hdl.isIdentifier v.name = true) →
      ∀ v ∈ xs, Hdl.isIdentifier v.name = true :=
    fun h v hv => h v (List.mem_append_left _ hv)
  have hRight : ∀ {xs ys : List Var},
      (∀ v ∈ xs ++ ys, Hdl.isIdentifier v.name = true) →
      ∀ v ∈ ys, Hdl.isIdentifier v.name = true :=
    fun h v hv => h v (List.mem_append_right _ hv)
  -- The roots agree, so both trees are of one kind and the
  -- keys of their operands agree.
  induction a generalizing b with
  | const m c =>
      have hRoot := root_eq_of_key_eq ha hb hKey
      cases b with
      | const n d =>
          injection hRoot with hWidth hValue
          simp [same, Const.alike, hWidth, hValue]
      | _ => cases hRoot
  | var m v =>
      have hRoot := root_eq_of_key_eq ha hb hKey
      cases b with
      | var n w =>
          injection hRoot with hName
          exact beq_iff_eq.mpr hName
      | _ => cases hRoot
  | not m x ih =>
      have hRoot := root_eq_of_key_eq ha hb hKey
      cases b with
      | not n y =>
          simp only [root, Root.call.injEq, List.cons.injEq] at hRoot
          exact ih ha hb hRoot.2.1
      | _ => cases hRoot
  | gate m op x y ihx ihy =>
      have hRoot := root_eq_of_key_eq ha hb hKey
      cases b with
      | gate n op' x' y' =>
          simp only [root, Root.call.injEq, Head.gate.injEq,
            List.cons.injEq, and_true] at hRoot
          rcases hRoot with ⟨rfl, hFirst, hSecond⟩
          rcases eq_or_swap_of_gateKeys
            (Prod.ext hFirst hSecond) with ⟨hx, hy⟩ | ⟨hOp, hx, hy⟩
          · exact same_gate_iff.mpr ⟨rfl, Or.inl
              ⟨ihx (hLeft ha) (hLeft hb) hx,
                ihy (hRight ha) (hRight hb) hy⟩⟩
          · exact same_gate_iff.mpr ⟨rfl, Or.inr
              ⟨hOp, ihx (hLeft ha) (hRight hb) hx,
                ihy (hRight ha) (hLeft hb) hy⟩⟩
      | _ => cases hRoot
  | compare m op x y ihx ihy =>
      have hRoot := root_eq_of_key_eq ha hb hKey
      cases b with
      | compare n op' x' y' =>
          simp only [root, Root.call.injEq, Head.compare.injEq,
            List.cons.injEq, and_true] at hRoot
          rcases hRoot with ⟨rfl, hx, hy⟩
          simp [same, ihx (hLeft ha) (hLeft hb) hx,
            ihy (hRight ha) (hRight hb) hy]
      | _ => cases hRoot
  | mux m s t f ihs iht ihf =>
      have hRoot := root_eq_of_key_eq ha hb hKey
      cases b with
      | mux n s' t' f' =>
          simp only [root, Root.call.injEq, List.cons.injEq,
            true_and, and_true] at hRoot
          rcases hRoot with ⟨hs, ht, hf⟩
          simp [same, ihs (hLeft ha) (hLeft hb) hs,
            iht (hLeft (hRight ha)) (hLeft (hRight hb)) ht,
            ihf (hRight (hRight ha)) (hRight (hRight hb)) hf]
      | _ => cases hRoot
  | bit m x i ih =>
      have hRoot := root_eq_of_key_eq ha hb hKey
      cases b with
      | bit n y j =>
          have hy : y.Identified := hb
          injection hRoot with hBase hIndex
          simp [same, hIndex, ih ha hy hBase]
      | _ => cases hRoot
  | part m x h l ih =>
      have hRoot := root_eq_of_key_eq ha hb hKey
      cases b with
      | part n y h' l' =>
          have hy : y.Identified := hb
          injection hRoot with hBase hMsb hLsb
          simp [same, hMsb, hLsb, ih ha hy hBase]
      | _ => cases hRoot
  | concat m ps ih =>
      have hRoot := root_eq_of_key_eq ha hb hKey
      cases b with
      | concat n qs =>
          injection hRoot with _ hParts
          apply sameAll_of_keyAll_eq _ hParts
          intro p hp q hq hSame
          apply ih p hp _ _ hSame
          · intro v hv
            exact ha v (mem_occurrencesAll.mpr ⟨p, hp, hv⟩)
          · intro v hv
            exact hb v (mem_occurrencesAll.mpr ⟨q, hq, hv⟩)
      | _ => cases hRoot

end Expr

end Gatework

------------------------------------------------------------
-- Equality
------------------------------------------------------------

namespace Gatework

namespace Expr

/-
  Valid trees that compare equal and agree on the widths of
  signals have one width, and one value wherever the signals
  they read have values.
-/
theorem eval_of_same
    {a b : Expr}
    (ha : a.validate = .ok ())
    (hb : b.validate = .ok ())
    (hOne : OneWidth (· ∈ a.occurrences ++ b.occurrences))
    (hSame : same a b = true) :
    a.width = b.width ∧
      ∀ ρ : Valuation,
        (∀ v ∈ a.occurrences ++ b.occurrences,
          (ρ v.name).isSome = true) →
        ∃ x, a.eval ρ = .ok x ∧ b.eval ρ = .ok x := by
  have hEqual := same_sound hOne
    (typed_of_validate ha fun _ => List.mem_append_left _)
    (typed_of_validate hb fun _ => List.mem_append_right _) hSame
  refine ⟨hEqual.1, ?_⟩
  intro ρ hBound
  have hKnown : ∀ v ∈ a.occurrences ++ b.occurrences,
      ρ v.name = some ((ρ v.name).getD 0) := by
    intro v hv
    rcases Option.isSome_iff_exists.mp (hBound v hv) with ⟨x, hx⟩
    rw [hx]
    rfl
  refine ⟨a.value fun n => (ρ n).getD 0, ?_, ?_⟩
  · exact eval_eq_value fun v hv =>
      hKnown v (List.mem_append_left _ hv)
  · rw [hEqual.2]
    exact eval_eq_value fun v hv =>
      hKnown v (List.mem_append_right _ hv)

/-
  Comparing equal is an equivalence, and equal trees have one
  key. With identifiers for names, trees with one key are
  equal. Equal trees that are valid and agree on the widths of
  signals have one width and one value.
-/
theorem equality_matches_key
    (a b : Expr) :
    same a a = true ∧
      (same a b = true → same b a = true) ∧
      (∀ c, same a b = true → same b c = true →
        same a c = true) ∧
      (same a b = true → key a = key b) ∧
      (a.Identified → b.Identified →
        (same a b = true ↔ key a = key b)) ∧
      (a.validate = .ok () → b.validate = .ok () →
        OneWidth (· ∈ a.occurrences ++ b.occurrences) →
        same a b = true →
        a.width = b.width ∧
          ∀ ρ : Valuation,
            (∀ v ∈ a.occurrences ++ b.occurrences,
              (ρ v.name).isSome = true) →
            ∃ x, a.eval ρ = .ok x ∧ b.eval ρ = .ok x) :=
  ⟨same_refl a, same_symm, fun _ => same_trans, key_eq_of_same,
    fun ha hb => ⟨key_eq_of_same, same_of_key_eq ha hb⟩,
    eval_of_same⟩

/- A bit of a signal and a negated gate, in either order. -/
def orderedXor
    (swapped : Bool) :
    Expr :=
  let x : Expr := bit none (var none ⟨"a", 4, false⟩) 2
  let y : Expr := gate none .nand (var none ⟨"b", 1, false⟩)
    (const none ⟨1, 1, false, none, some "1"⟩)
  if swapped then gate none .xor y x else gate none .xor x y

theorem equality_matches_key_orderedXor :
    key (orderedXor false) = "XOR(NAND(b,1'd1),a[2])" ∧
      key (orderedXor true) = key (orderedXor false) ∧
      same (orderedXor false) (orderedXor true) = true ∧
      same (orderedXor true) (orderedXor false) = true ∧
      ∃ x, (orderedXor false).eval (fun _ => some 5) = .ok x ∧
        (orderedXor true).eval (fun _ => some 5) = .ok x := by
  have hNames : ∀ s, (orderedXor s).Identified := by
    unfold Identified
    decide
  have hWidths : ∀ v ∈ (orderedXor false).occurrences ++
        (orderedXor true).occurrences,
      ∀ w ∈ (orderedXor false).occurrences ++
        (orderedXor true).occurrences,
      v.name = w.name → v.width = w.width := by
    decide
  have hKey : key (orderedXor false) = key (orderedXor true) := by
    decide
  rcases equality_matches_key (orderedXor false) (orderedXor true)
    with ⟨_, hSymm, _, _, hKeys, hValues⟩
  have hSame := (hKeys (hNames _) (hNames _)).mpr hKey
  refine ⟨by decide, hKey.symm, hSame, hSymm hSame, ?_⟩
  exact (hValues rfl rfl (fun v w hv hw => hWidths v hv w hw)
    hSame).2 _ (fun _ _ => rfl)

end Expr

end Gatework
