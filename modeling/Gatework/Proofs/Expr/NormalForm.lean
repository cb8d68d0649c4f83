import Mathlib.Algebra.Order.BigOperators.Group.List
import Mathlib.Algebra.Order.Ring.Nat
import Gatework.Expr.Overflow
import Gatework.Proofs.Expr.Known
import Gatework.Proofs.Expr.Subtrees

/-
  Simplification reaches a normal form in one pass.

  A rule folds a node to a constant, gives one of its operands
  or what is below one, or negates an operand. Each time the
  tree gets smaller or is a constant, so rules at one node come
  to an end. Everything a rule gives is built on operands that
  are simplified already, so only its root can ask for another
  rule.

  Nothing here asks for well-typed trees. A tree of another
  kind may ask for a width that is too large for a word, or
  move a constant down by its whole word; the pass then has no
  result. `Expr.Strays` says of which trees this is true, and
  no well-typed tree is one of them.

  Key definitions include:
    * `Expr.Result`, what a rule can give
    * `Expr.Overflows`, a rule needs a number that is no word
    * `Expr.Normal`, no rule applies at any node
    * `Expr.Settles`, rules at the root up to the last one
    * `Expr.Strays`, some rule on the way overflows

  Key theorems include:
    * `Expr.result_of_rule`
    * `Expr.settle?_cases`
    * `Expr.simplify?_cases`
    * `Expr.simplify_reaches_normal`
-/

------------------------------------------------------------
-- Operands
------------------------------------------------------------

namespace Gatework

namespace Expr

theorem sizeAll_eq_sum
    (parts : List Expr) :
    sizeAll parts = (parts.map size).sum := by
  induction parts with
  | nil => rfl
  | cons p ps ih => rw [sizeAll, List.map_cons, List.sum_cons, ih]

/- A node counts one more than its operands together. -/
theorem size_eq_sum
    (e : Expr) :
    e.size = (e.operands.map size).sum + 1 := by
  cases e with
  | concat m parts => rw [size, operands, sizeAll_eq_sum]
  | _ => simp [size, operands, Nat.add_assoc]

theorem size_pos
    (e : Expr) :
    0 < e.size := by
  rw [size_eq_sum]
  exact Nat.succ_pos _

theorem size_lt_of_mem_operands
    {e x : Expr}
    (hx : x ∈ e.operands) :
    x.size < e.size := by
  rw [size_eq_sum e]
  exact Nat.lt_succ_of_le
    (List.le_sum_of_mem (List.mem_map_of_mem hx))

mutual

theorem identical_refl
    (e : Expr) :
    e.identical e = true := by
  cases e with
  | concat m parts => simp [identical, identicalAll_refl parts]
  | _ => simp [identical, identical_refl]

theorem identicalAll_refl
    (parts : List Expr) :
    identicalAll parts parts = true := by
  cases parts with
  | nil => rfl
  | cons p ps =>
      rw [identicalAll, identical_refl p, identicalAll_refl ps]
      rfl

end

end Expr

end Gatework

------------------------------------------------------------
-- What a rule gives
------------------------------------------------------------

namespace Gatework

namespace Expr

/-
  What a rule can give: a constant, an operand, the operand of
  a negated one, or the negation of an operand of a node that
  has others beside it.
-/
inductive Result (e : Expr) : Expr → Prop where
  | folded (c : Const) : Result e (const none c)
  | operand {x : Expr} (hx : x ∈ e.operands) : Result e x
  | inner {m : Mark} {x : Expr} (hx : not m x ∈ e.operands) :
      Result e x
  | negated {x : Expr} (hx : x ∈ e.operands)
      (hSize : x.size + 1 < e.size) : Result e (neg x)

variable {m : Mark}
variable {a b s t f e' : Expr}

/- A gate has two operands, so one negated is smaller. -/
theorem FromOperands.result
    {op : GateOp}
    (h : FromOperands a b e') :
    Result (gate m op a b) e' := by
  have ha := a.size_pos
  have hb := b.size_pos
  cases h with
  | nat x => exact .folded _
  | left => exact .operand (by simp [operands])
  | right => exact .operand (by simp [operands])
  | notLeft _ => exact .negated (by simp [operands]) (by rw [size]; omega)
  | notRight _ => exact .negated (by simp [operands]) (by rw [size]; omega)

theorem result_of_compare_rule
    {op : CmpOp}
    (hRule : reduceCompare? op a b = some e') :
    Result (compare m op a b) e' := by
  have ha := a.size_pos
  have hb := b.size_pos
  have hBool : ∀ v, Result (compare m op a b) (ofBool v) :=
    fun _ => .folded _
  have hLeft : ∀ c, Result (compare m op a b) (bitAgainst op a c) := by
    intro c
    unfold bitAgainst literal
    split
    · exact .operand (by simp [operands])
    · exact .negated (by simp [operands]) (by rw [size]; omega)
  have hRight : ∀ c, Result (compare m op a b) (bitAgainst op b c) := by
    intro c
    unfold bitAgainst literal
    split
    · exact .operand (by simp [operands])
    · exact .negated (by simp [operands]) (by rw [size]; omega)
  unfold reduceCompare? at hRule
  grind

theorem result_of_mux_rule
    (hRule : reduceMux? s t f = some e') :
    Result (mux m s t f) e' := by
  have ht := t.size_pos
  have hf := f.size_pos
  have hSelector : Result (mux m s t f) s :=
    .operand (by simp [operands])
  have hNegated : Result (mux m s t f) (neg s) :=
    .negated (by simp [operands]) (by rw [size]; omega)
  have hTrue : Result (mux m s t f) t :=
    .operand (by simp [operands])
  have hFalse : Result (mux m s t f) f :=
    .operand (by simp [operands])
  unfold reduceMux? at hRule
  grind

theorem result_of_rule
    {e : Expr}
    (hRule : reduce? e = some e') :
    Result e e' := by
  unfold reduce? at hRule
  split at hRule
  case h_1 => cases hRule
  case h_2 => cases hRule
  case h_3 => cases hRule; exact .folded _
  case h_4 m n x =>
      cases hRule
      exact .inner (List.mem_singleton.mpr rfl : Expr.not n _ ∈ _)
  case h_5 => cases hRule
  case h_6 =>
      split at hRule
      case h_1 => cases hRule; exact .folded _
      case h_2 => exact (fromOperands_of_rule hRule).result
  case h_7 => exact result_of_compare_rule hRule
  case h_8 => exact result_of_mux_rule hRule
  case h_9 =>
      rcases Option.map_eq_some_iff.mp hRule with ⟨_, _, rfl⟩
      exact .folded _
  case h_10 =>
      rcases Option.map_eq_some_iff.mp hRule with ⟨_, _, rfl⟩
      exact .folded _
  case h_11 =>
      rcases Option.map_eq_some_iff.mp hRule with ⟨_, _, rfl⟩
      exact .folded _

/-
  A rule leaves a smaller tree, except that a concatenation of
  nothing, which has one node, becomes a constant.
-/
theorem Result.size_lt
    {e : Expr}
    (h : Result e e') :
    e'.size < e.size ∨ ∃ c, e' = const none c := by
  cases h with
  | folded c => exact Or.inr ⟨c, rfl⟩
  | operand hx => exact Or.inl (size_lt_of_mem_operands hx)
  | inner hx =>
      have hInner := size_lt_of_mem_operands hx
      rw [size] at hInner
      exact Or.inl (Nat.lt_of_succ_lt hInner)
  | negated _ hSize => exact Or.inl hSize

theorem Result.size_le
    {e : Expr}
    (h : Result e e') :
    e'.size ≤ e.size := by
  rcases h.size_lt with hLess | ⟨c, rfl⟩
  · exact Nat.le_of_lt hLess
  · exact e.size_pos

end Expr

end Gatework

------------------------------------------------------------
-- Widths in words
------------------------------------------------------------

namespace Gatework

theorem wordOf?_of_lt
    {width : Nat}
    (hWidth : width < widthBound) :
    wordOf? width = some width :=
  if_pos hWidth

theorem wordOf?_of_le
    {width : Nat}
    (hWidth : widthBound ≤ width) :
    wordOf? width = none :=
  if_neg (Nat.not_lt.mpr hWidth)

namespace Expr

/- A sum that leaves its word on the way never comes back. -/
theorem widthAbove?_eq
    {parts : List Expr}
    (hParts : ∀ p ∈ parts, p.width? = wordOf? p.width)
    {sum : Nat}
    (hSum : sum < widthBound) :
    widthAbove? sum parts = wordOf? (sum + totalWidth parts) := by
  induction parts generalizing sum with
  | nil => exact (wordOf?_of_lt hSum).symm
  | cons p ps ih =>
      have hTail : ∀ q ∈ ps, q.width? = wordOf? q.width :=
        fun q hq => hParts q (List.mem_cons_of_mem _ hq)
      rw [widthAbove?, hParts p (List.mem_cons_self ..), totalWidth,
        ← Nat.add_assoc]
      by_cases hNext : sum + p.width < widthBound
      · rw [wordOf?_of_lt (by omega), Option.bind_eq_bind,
          Option.bind_some, wordOf?_of_lt hNext]
        exact ih hTail hNext
      · have hLarge := Nat.le_of_not_lt hNext
        rw [wordOf?_of_le (Nat.le_add_right_of_le hLarge)]
        cases hWord : wordOf? p.width with
        | none => rfl
        | some width =>
            have hEq : width = p.width := by
              simp only [wordOf?, Option.ite_none_right_eq_some] at hWord
              exact (Option.some.inj hWord.2).symm
            rw [Option.bind_eq_bind, Option.bind_some, hEq,
              wordOf?_of_le hLarge]
            rfl

/- A width is calculated in words exactly when it is a word. -/
theorem width?_eq
    (e : Expr) :
    e.width? = wordOf? e.width := by
  induction e with
  | const m c => rfl
  | var m v => rfl
  | not m x ih => exact ih
  | gate m op a b iha ihb => exact iha
  | compare m op a b iha ihb => rfl
  | mux m s t f ihs iht ihf => exact iht
  | bit m b i ih => rfl
  | part m b h l ih => rfl
  | concat m parts ih =>
      rw [width?, widthAbove?_eq ih (by decide), Nat.zero_add]
      rfl

theorem width?_of_lt
    {e : Expr}
    (hWidth : e.width < widthBound) :
    e.width? = some e.width := by
  rw [width?_eq, wordOf?_of_lt hWidth]

theorem width?_of_le
    {e : Expr}
    (hWidth : widthBound ≤ e.width) :
    e.width? = none := by
  rw [width?_eq, wordOf?_of_le hWidth]

end Expr

end Gatework

------------------------------------------------------------
-- Rules in words
------------------------------------------------------------

namespace Gatework

namespace Expr

/-
  The rule at the root needs a number that no word holds. Only
  a part select of a constant moves a word down; all others
  ask for a width.
-/
def Overflows : Expr → Prop
  | gate _ _ a _ => widthBound ≤ a.width
  | compare _ _ a b =>
      (a.asConst? = none ∨ b.asConst? = none) ∧
        a.same b = false ∧ a.complementary b = false ∧
        widthBound ≤ a.width
  | mux _ s t f =>
      s.asConst? = none ∧ t.same f = false ∧
        widthBound ≤ t.width
  | part m b h l =>
      b.asConst? ≠ none ∧
        (maxWidth ≤ min h l ∨ widthBound ≤ (part m b h l).width)
  | concat _ parts =>
      (∀ p ∈ parts, p.asConst? ≠ none) ∧
        widthBound ≤ totalWidth parts
  | _ => False

theorem foldParts?_eq_none_iff
    {parts : List Expr}
    {high : Nat} :
    foldParts? high parts = none ↔ ∃ p ∈ parts, p.asConst? = none := by
  induction parts generalizing high with
  | nil => simp [foldParts?]
  | cons p ps ih =>
      cases hConst : p.asConst? with
      | none => simp [foldParts?, hConst]
      | some c => simp [foldParts?, hConst, ih]

/- In words a rule is the rule of numbers, or has no result. -/
theorem rule?_cases
    (e : Expr) :
    e.Overflows ∧ e.rule? = none ∨
      ¬ e.Overflows ∧ e.rule? = some e.reduce? := by
  have hAfter : ∀ x : Expr,
      widthBound ≤ x.width ∧ ruleAfterWidth? x e = none ∨
        ¬ widthBound ≤ x.width ∧
          ruleAfterWidth? x e = some e.reduce? := by
    intro x
    by_cases hWidth : widthBound ≤ x.width
    · left
      exact ⟨hWidth, by rw [ruleAfterWidth?, width?_of_le hWidth]; rfl⟩
    · right
      refine ⟨hWidth, ?_⟩
      rw [ruleAfterWidth?, width?_of_lt (Nat.lt_of_not_le hWidth)]
      rfl
  cases e with
  | const m c => exact Or.inr ⟨not_false, rfl⟩
  | var m v => exact Or.inr ⟨not_false, rfl⟩
  | not m x => exact Or.inr ⟨not_false, rfl⟩
  | bit m b i => exact Or.inr ⟨not_false, rfl⟩
  | gate m op a b => exact hAfter a
  | compare m op a b =>
      by_cases hEarly : (a.asConst?.isSome && b.asConst?.isSome ||
          a.same b || a.complementary b) = true
      · right
        rw [rule?, if_pos hEarly]
        refine ⟨?_, rfl⟩
        rintro ⟨hConst, hSame, hCompl, _⟩
        rcases hConst with h | h <;> simp [hSame, hCompl, h] at hEarly
      · rw [rule?, if_neg hEarly]
        simp only [Bool.or_eq_true, Bool.and_eq_true, not_or,
          Bool.not_eq_true] at hEarly
        have hConst : a.asConst? = none ∨ b.asConst? = none := by
          cases ha : a.asConst? with
          | none => exact Or.inl rfl
          | some c =>
              simp only [ha, Option.isSome_some, true_and,
                Option.not_isSome_iff_eq_none] at hEarly
              exact Or.inr hEarly.1.1
        rcases hAfter a with ⟨hWide, hNone⟩ | ⟨hFits, hSome⟩
        · exact Or.inl ⟨⟨hConst, hEarly.1.2, hEarly.2, hWide⟩, hNone⟩
        · exact Or.inr ⟨fun h => hFits h.2.2.2, hSome⟩
  | mux m s t f =>
      by_cases hEarly : (s.asConst?.isSome || t.same f) = true
      · right
        rw [rule?, if_pos hEarly]
        refine ⟨?_, rfl⟩
        rintro ⟨hConst, hSame, _⟩
        simp [hConst, hSame] at hEarly
      · rw [rule?, if_neg hEarly]
        simp only [Bool.or_eq_true, not_or, Bool.not_eq_true,
          Option.isSome_eq_false_iff, Option.isNone_iff_eq_none]
          at hEarly
        rcases hAfter t with ⟨hWide, hNone⟩ | ⟨hFits, hSome⟩
        · exact Or.inl ⟨⟨hEarly.1, hEarly.2, hWide⟩, hNone⟩
        · exact Or.inr ⟨fun h => hFits h.2.2, hSome⟩
  | part m b h l =>
      rw [rule?, reduce?]
      cases hConst : b.asConst? with
      | none => exact Or.inr ⟨fun h => h.1 hConst, rfl⟩
      | some c =>
          have hFold : b.asConst? ≠ none := by
            simp [hConst]
          by_cases hMoved : maxWidth ≤ min h l
          · left
            refine ⟨⟨hFold, Or.inl hMoved⟩, ?_⟩
            simp [movedDown?, Nat.not_lt.mpr hMoved]
          · by_cases hWidth : widthBound ≤ (part m b h l).width
            · left
              refine ⟨⟨hFold, Or.inr hWidth⟩, ?_⟩
              simp [movedDown?, Nat.lt_of_not_le hMoved,
                width?_of_le hWidth]
            · right
              refine ⟨fun hOver => hOver.2.elim hMoved hWidth, ?_⟩
              simp [movedDown?, Nat.lt_of_not_le hMoved,
                width?_of_lt (Nat.lt_of_not_le hWidth)]
  | concat m parts =>
      rw [rule?, reduce?]
      cases hFold : foldParts? 0 parts with
      | none =>
          rcases foldParts?_eq_none_iff.mp hFold with ⟨p, hp, hConst⟩
          exact Or.inr ⟨fun h => h.1 p hp hConst, rfl⟩
      | some value =>
          have hAll : ∀ p ∈ parts, p.asConst? ≠ none := by
            intro p hp hConst
            have hNone : foldParts? 0 parts = none :=
              foldParts?_eq_none_iff.mpr ⟨p, hp, hConst⟩
            cases hNone.symm.trans hFold
          by_cases hWidth : widthBound ≤ (concat m parts).width
          · left
            refine ⟨⟨hAll, hWidth⟩, ?_⟩
            simp [width?_of_le hWidth]
          · right
            refine ⟨fun hOver => hWidth hOver.2, ?_⟩
            simp [width?_of_lt (Nat.lt_of_not_le hWidth), width]

end Expr

end Gatework

------------------------------------------------------------
-- Normal forms
------------------------------------------------------------

namespace Gatework

namespace Expr

/- No rule applies at any node of the tree. -/
inductive Normal : Expr → Prop where
  | intro {e : Expr} (root : rule? e = some none)
      (operands : ∀ x ∈ e.operands, Normal x) : Normal e

theorem Normal.root
    {e : Expr}
    (h : Normal e) :
    rule? e = some none := by
  cases h
  assumption

theorem Normal.of_mem_operands
    {e x : Expr}
    (h : Normal e)
    (hx : x ∈ e.operands) :
    Normal x := by
  cases h with
  | intro _ hOperands => exact hOperands x hx

/- Below the root, a rule on normal operands leaves no work. -/
theorem Result.normal_operands
    {e e' : Expr}
    (h : Result e e')
    (hNormal : ∀ x ∈ e.operands, Normal x) :
    ∀ x ∈ e'.operands, Normal x := by
  intro x hx
  cases h with
  | folded c => cases hx
  | operand hMem => exact (hNormal _ hMem).of_mem_operands hx
  | inner hMem =>
      have hInner := (hNormal _ hMem).of_mem_operands
        (List.mem_singleton.mpr rfl)
      exact hInner.of_mem_operands hx
  | negated hMem _ =>
      rw [List.mem_singleton.mp hx]
      exact hNormal _ hMem

end Expr

end Gatework

------------------------------------------------------------
-- Rules at one node
------------------------------------------------------------

namespace Gatework

namespace Expr

/-
  Rules at the root, one after the other, up to the tree to
  which none applies, or to one at which a rule overflows.
-/
inductive Settles : Expr → Option Expr → Prop where
  | stop {e : Expr} (hNone : rule? e = some none) :
      Settles e (some e)
  | overflow {e : Expr} (hNone : rule? e = none) : Settles e none
  | step {e e' : Expr} {r : Option Expr}
      (hRule : rule? e = some (some e')) (hRest : Settles e' r) :
      Settles e r

theorem settleFor?_of_none
    {n : Nat}
    {e : Expr}
    (hNone : rule? e = some none) :
    settleFor? n e = some e := by
  cases n with
  | zero => rfl
  | succ n => rw [settleFor?, hNone]; rfl

theorem reduce?_of_rule
    {e : Expr}
    {r : Option Expr}
    (hRule : rule? e = some r) :
    reduce? e = r := by
  rcases e.rule?_cases with ⟨_, hNone⟩ | ⟨_, hSome⟩
  · cases hNone.symm.trans hRule
  · exact Option.some.inj (hSome.symm.trans hRule)

/- As many rules as there are nodes are never too few. -/
theorem settles_settleFor?
    {n : Nat}
    {e : Expr}
    (hSize : e.size ≤ n) :
    Settles e (settleFor? n e) := by
  induction n generalizing e with
  | zero => exact absurd e.size_pos (Nat.not_lt.mpr hSize)
  | succ n ih =>
      rw [settleFor?]
      cases hRule : rule? e with
      | none => exact .overflow hRule
      | some r =>
          cases r with
          | none => exact .stop hRule
          | some e' =>
              apply Settles.step hRule
              have hResult := result_of_rule (reduce?_of_rule hRule)
              rcases hResult.size_lt with hLess | ⟨c, rfl⟩
              · exact ih (by omega)
              · rw [Option.bind_eq_bind, Option.bind_some]
                dsimp only
                rw [settleFor?_of_none rfl]
                exact .stop rfl

/- Rules at a node come to an end, at what settling gives. -/
theorem settles_settle?
    (e : Expr) :
    Settles e e.settle? :=
  settles_settleFor? (Nat.le_refl _)

/- Where words suffice, they settle what numbers do. -/
theorem settleFor_of_words
    {n : Nat}
    {e e' : Expr}
    (hResult : settleFor? n e = some e') :
    settleFor n e = e' := by
  induction n generalizing e with
  | zero => exact Option.some.inj hResult
  | succ n ih =>
      rw [settleFor?] at hResult
      cases hRule : rule? e with
      | none => simp [hRule] at hResult
      | some r =>
          rw [hRule, Option.bind_eq_bind, Option.bind_some] at hResult
          rw [settleFor, reduce?_of_rule hRule]
          cases r with
          | none => exact Option.some.inj hResult
          | some e'' => exact ih hResult

/-
  After a rule over normal operands no rule overflows: at most
  a new negation asks for one more.
-/
theorem Result.settleFor?_isSome
    {e e' : Expr}
    (h : Result e e')
    (hNormal : ∀ x ∈ e.operands, Normal x)
    (n : Nat) :
    (settleFor? n e').isSome := by
  have hStop : ∀ {m : Nat} {x : Expr}, rule? x = some none →
      (settleFor? m x).isSome := by
    intro m x hNone
    rw [settleFor?_of_none hNone]
    rfl
  cases h with
  | folded c => exact hStop rfl
  | operand hMem => exact hStop (hNormal _ hMem).root
  | inner hMem =>
      have hInner := (hNormal _ hMem).of_mem_operands
        (List.mem_singleton.mpr rfl)
      exact hStop hInner.root
  | @negated x hMem _ =>
      cases n with
      | zero => rfl
      | succ n =>
          cases x with
          | const m c => exact hStop (x := ofNat _ _) rfl
          | not m y =>
              have hInner := (hNormal _ hMem).of_mem_operands
                (List.mem_singleton.mpr rfl)
              exact hStop (x := y) hInner.root
          | _ => rfl

/-
  Over normal operands the first rule overflows, or none does
  and settling gives what it gives with numbers.
-/
theorem settle?_cases
    {e : Expr}
    (hNormal : ∀ x ∈ e.operands, Normal x) :
    e.Overflows ∧ e.settle? = none ∨
      ¬ e.Overflows ∧ e.settle? = some e.settle := by
  obtain ⟨n, hn⟩ := Nat.exists_eq_succ_of_ne_zero
    (Nat.ne_of_gt e.size_pos)
  rcases e.rule?_cases with ⟨hOver, hNone⟩ | ⟨hFits, hRule⟩
  · left
    refine ⟨hOver, ?_⟩
    rw [settle?, hn, settleFor?, hNone]
    rfl
  · right
    have hSome : e.settle?.isSome := by
      rw [settle?, hn, settleFor?, hRule, Option.bind_eq_bind,
        Option.bind_some]
      cases hReduce : e.reduce? with
      | none => rfl
      | some e' =>
          exact (result_of_rule hReduce).settleFor?_isSome hNormal n
    rcases Option.isSome_iff_exists.mp hSome with ⟨e', hResult⟩
    have hSettle : e.settle = e' := settleFor_of_words hResult
    rw [hSettle]
    exact ⟨hFits, hResult⟩

theorem Settles.normal
    {e e' : Expr}
    (h : Settles e (some e'))
    (hOperands : ∀ x ∈ e.operands, Normal x) :
    Normal e' := by
  generalize hr : some e' = r at h
  induction h with
  | stop hNone =>
      cases hr
      exact ⟨hNone, hOperands⟩
  | overflow _ => cases hr
  | step hRule _ ih =>
      have hResult := result_of_rule (reduce?_of_rule hRule)
      exact ih (hResult.normal_operands hOperands) hr

theorem Settles.size_le
    {e e' : Expr}
    (h : Settles e (some e')) :
    e'.size ≤ e.size := by
  generalize hr : some e' = r at h
  induction h with
  | stop _ =>
      cases hr
      exact Nat.le_refl _
  | overflow _ => cases hr
  | step hRule _ ih =>
      have hResult := result_of_rule (reduce?_of_rule hRule)
      exact Nat.le_trans (ih hr) hResult.size_le

end Expr

end Gatework

------------------------------------------------------------
-- Simplification
------------------------------------------------------------

namespace Gatework

namespace Expr

/-
  A tree with its operands simplified. It keeps its mark if no
  operand changed.
-/
def prepared : Expr → Expr
  | const m c => const m c
  | var m v => var m v
  | not m x =>
      not (m.keepIf (x.simplify.identical x)) x.simplify
  | gate m op a b =>
      gate (m.keepIf (a.simplify.identical a &&
        b.simplify.identical b)) op a.simplify b.simplify
  | compare m op a b =>
      compare (m.keepIf (a.simplify.identical a &&
        b.simplify.identical b)) op a.simplify b.simplify
  | mux m s t f =>
      mux (m.keepIf (s.simplify.identical s &&
        t.simplify.identical t && f.simplify.identical f))
        s.simplify t.simplify f.simplify
  | bit m b i =>
      bit (m.keepIf (b.simplify.identical b)) b.simplify i
  | part m b h l =>
      part (m.keepIf (b.simplify.identical b)) b.simplify h l
  | concat m parts =>
      concat (m.keepIf (identicalAll (parts.map simplify) parts))
        (parts.map simplify)

/- Some rule on the way through a tree overflows. -/
def Strays
    (e : Expr) :
    Prop :=
  ∃ x, e.Subtree x ∧ x.prepared.Overflows

theorem simplify_eq_settle
    (e : Expr) :
    e.simplify = e.prepared.settle := by
  cases e with
  | concat m parts => rw [simplify, simplifyAll_eq_map]; rfl
  | const m c => rfl
  | var m v => rfl
  | _ => rw [simplify]; rfl

theorem operands_prepared
    (e : Expr) :
    e.prepared.operands = e.operands.map simplify := by
  cases e <;> rfl

theorem prepared_of_operands
    {e : Expr}
    (hSame : ∀ x ∈ e.operands, x.simplify = x) :
    e.prepared = e := by
  cases e with
  | concat m parts =>
      have hParts : parts.map simplify = parts :=
        (List.map_congr_left hSame).trans (List.map_id' parts)
      rw [prepared, hParts, identicalAll_refl]
      rfl
  | _ =>
      simp only [operands, List.mem_cons, List.not_mem_nil, or_false,
        forall_eq_or_imp, forall_eq] at hSame
      simp [prepared, hSame, identical_refl, Mark.keepIf]

theorem simplifyAll?_eq_map
    {parts : List Expr}
    (hParts : ∀ p ∈ parts, p.simplify? = some p.simplify) :
    simplifyAll? parts = some (parts.map simplify) := by
  induction parts with
  | nil => rfl
  | cons p ps ih =>
      rw [simplifyAll?, hParts p (List.mem_cons_self ..),
        ih (fun q hq => hParts q (List.mem_cons_of_mem _ hq))]
      rfl

theorem simplifyAll?_of_mem
    {parts : List Expr}
    {p : Expr}
    (hp : p ∈ parts)
    (hNone : p.simplify? = none) :
    simplifyAll? parts = none := by
  induction parts with
  | nil => cases hp
  | cons q qs ih =>
      rw [simplifyAll?]
      rcases List.mem_cons.mp hp with rfl | hRest
      · rw [hNone]
        rfl
      · cases q.simplify? <;> simp [ih hRest]

/- Over operands that simplify, a tree settles. -/
theorem simplify?_of_operands
    {e : Expr}
    (hAll : ∀ x ∈ e.operands, x.simplify? = some x.simplify) :
    e.simplify? = e.prepared.settle? := by
  cases e with
  | concat m parts =>
      have hParts : simplifyAll? parts = some (parts.map simplify) :=
        simplifyAll?_eq_map hAll
      rw [simplify?, hParts]
      rfl
  | const m c => rfl
  | var m v => rfl
  | _ =>
      simp only [operands, List.mem_cons, List.not_mem_nil, or_false,
        forall_eq_or_imp, forall_eq] at hAll
      simp [simplify?, prepared, hAll]

/- An operand without a result leaves the tree without one. -/
theorem simplify?_of_mem_operands
    {e x : Expr}
    (hx : x ∈ e.operands)
    (hNone : x.simplify? = none) :
    e.simplify? = none := by
  cases e with
  | concat m parts =>
      have hParts : simplifyAll? parts = none :=
        simplifyAll?_of_mem hx hNone
      rw [simplify?, hParts]
      rfl
  | const m c => cases hx
  | var m v => cases hx
  | mux m s t f =>
      simp only [operands, List.mem_cons, List.not_mem_nil,
        or_false] at hx
      rcases hx with rfl | rfl | rfl <;> simp [simplify?, hNone]
  | gate m op a b =>
      simp only [operands, List.mem_cons, List.not_mem_nil,
        or_false] at hx
      rcases hx with rfl | rfl <;> simp [simplify?, hNone]
  | compare m op a b =>
      simp only [operands, List.mem_cons, List.not_mem_nil,
        or_false] at hx
      rcases hx with rfl | rfl <;> simp [simplify?, hNone]
  | _ =>
      rw [List.mem_singleton.mp hx] at hNone
      simp [simplify?, hNone]

/-
  A tree strays, or simplification in words gives what it
  gives with numbers, and no rule applies anywhere in that.
-/
theorem simplify?_cases
    (e : Expr) :
    e.Strays ∧ e.simplify? = none ∨
      ¬ e.Strays ∧ e.simplify? = some e.simplify ∧
        Normal e.simplify ∧ e.simplify.size ≤ e.size := by
  induction e using inductionOperands with
  | node e ih =>
      by_cases hBelow : ∃ x ∈ e.operands, x.Strays
      · rcases hBelow with ⟨x, hx, hStrays⟩
        rcases ih x hx with ⟨_, hNone⟩ | ⟨hFits, _⟩
        · rcases hStrays with ⟨y, hy, hOver⟩
          exact Or.inl ⟨⟨y, hy.ofOperand hx, hOver⟩,
            simplify?_of_mem_operands hx hNone⟩
        · exact absurd hStrays hFits
      · have hAll : ∀ x ∈ e.operands,
            x.simplify? = some x.simplify ∧ Normal x.simplify ∧
              x.simplify.size ≤ x.size := by
          intro x hx
          rcases ih x hx with ⟨hStrays, _⟩ | ⟨_, h⟩
          · exact absurd ⟨x, hx, hStrays⟩ hBelow
          · exact h
        have hNormal : ∀ x ∈ e.prepared.operands, Normal x := by
          intro x hx
          rw [operands_prepared] at hx
          rcases List.mem_map.mp hx with ⟨y, hy, rfl⟩
          exact (hAll y hy).2.1
        have hNode : e.prepared.size ≤ e.size := by
          rw [size_eq_sum, size_eq_sum e, operands_prepared,
            List.map_map]
          exact Nat.succ_le_succ
            (List.sum_le_sum fun x hx => (hAll x hx).2.2)
        rw [simplify?_of_operands fun x hx => (hAll x hx).1,
          simplify_eq_settle]
        rcases settle?_cases hNormal with
          ⟨hOver, hNone⟩ | ⟨hFits, hSome⟩
        · exact Or.inl ⟨⟨e, .root, hOver⟩, hNone⟩
        · right
          have hSettles := hSome ▸ settles_settle? e.prepared
          refine ⟨?_, hSome, hSettles.normal hNormal,
            Nat.le_trans hSettles.size_le hNode⟩
          rintro ⟨y, hy, hOver⟩
          rcases subtree_cases hy with rfl | ⟨x, hx, hSub⟩
          · exact hFits hOver
          · exact hBelow ⟨x, hx, y, hSub, hOver⟩

/- A tree in normal form is left as it is. -/
theorem simplify?_of_normal
    {e : Expr}
    (h : Normal e) :
    e.simplify? = some e ∧ e.simplify = e := by
  induction h with
  | @intro e hRoot _ ih =>
      have hPrepared : e.prepared = e :=
        prepared_of_operands fun x hx => (ih x hx).2
      have hWords : e.simplify? = e.prepared.settle? :=
        simplify?_of_operands fun x hx => by
          rw [(ih x hx).1, (ih x hx).2]
      rw [hWords, simplify_eq_settle, hPrepared]
      have hSettle : e.settle? = some e := settleFor?_of_none hRoot
      exact ⟨hSettle, settleFor_of_words hSettle⟩

end Expr

end Gatework

------------------------------------------------------------
-- Typed trees
------------------------------------------------------------

namespace Gatework

namespace Expr

variable {Γ : Var → Prop}

theorem Typed.of_mem_operands
    {e x : Expr}
    (he : e.Typed Γ)
    (hx : x ∈ e.operands) :
    x.Typed Γ := by
  cases e with
  | concat m parts => exact typedAll_iff.mp he.1 x hx
  | const m c => cases hx
  | var m v => cases hx
  | _ =>
      simp only [operands, List.mem_cons, List.not_mem_nil,
        or_false] at hx
      grind [Typed]

theorem Typed.of_subtree
    {e x : Expr}
    (he : e.Typed Γ)
    (hx : e.Subtree x) :
    x.Typed Γ := by
  induction hx with
  | root => exact he
  | operand _ hOperand ih => exact ih.of_mem_operands hOperand

/- No rule on the way through a typed tree overflows. -/
theorem not_strays_of_typed
    (hOne : OneWidth Γ)
    {e : Expr}
    (he : e.Typed Γ) :
    ¬ e.Strays := by
  rintro ⟨x, hSub, hOver⟩
  have hx : x.Typed Γ := he.of_subtree hSub
  have hNarrow : ∀ {y : Expr}, y.Typed Γ →
      ¬ widthBound ≤ y.simplify.width := by
    intro y hy
    have hMax := hy.width_le
    rw [(keeps_simplify hOne hy).width_eq]
    simp only [widthBound, UInt32.size, maxWidth] at hMax ⊢
    omega
  cases x with
  | const m c => exact hOver
  | var m v => exact hOver
  | not m y => exact hOver
  | bit m b i => exact hOver
  | gate m op a b => exact hNarrow hx.1 hOver
  | compare m op a b => exact hNarrow hx.1 hOver.2.2.2
  | mux m s t f => exact hNarrow hx.2.1 hOver.2.2
  | part m b h l =>
      have hMax := hx.1.width_le
      have hIn := hx.2
      rcases hOver.2 with hMoved | hWide
      · omega
      · simp only [width, widthBound, UInt32.size, maxWidth]
          at hWide hMax
        omega
  | concat m parts =>
      have hKept := (keepsAll_map fun p hp =>
        keeps_simplify hOne (typedAll_iff.mp hx.1 p hp)).2.1
      have hMax := hx.2.2
      have hWide := hOver.2
      rw [hKept] at hWide
      simp only [widthBound, UInt32.size, maxWidth] at hWide hMax
      omega

/-
  Simplification of any tree, typed or not. The rules come to
  an end at its root, as at every other node. The tree has no
  result exactly when a rule on the way overflows, which
  happens in no tree that passes validation. No rule applies
  at any node of a result, a second pass gives it again, and
  it has no more nodes than the tree.
-/
theorem simplify_reaches_normal
    (e : Expr) :
    Settles e e.settle? ∧
    (e.simplify? = none ↔ e.Strays) ∧
    (e.validate = .ok () → OneWidth (· ∈ e.occurrences) →
      ¬ e.Strays) ∧
    ∀ e', e.simplify? = some e' →
      e'.Normal ∧ e'.simplify? = some e' ∧ e'.size ≤ e.size := by
  refine ⟨e.settles_settle?, ?_, ?_, ?_⟩
  · rcases e.simplify?_cases with ⟨hStrays, hNone⟩ | ⟨hFits, hSome, _⟩
    · exact ⟨fun _ => hStrays, fun _ => hNone⟩
    · constructor
      · intro hNone
        cases hNone.symm.trans hSome
      · exact fun hStrays => absurd hStrays hFits
  · intro hValid hOne
    exact not_strays_of_typed hOne
      (typed_of_validate hValid fun _ hv => hv)
  · intro e' hResult
    rcases e.simplify?_cases with ⟨_, hNone⟩ | ⟨_, hSome, hNormal, hSize⟩
    · cases hNone.symm.trans hResult
    · cases hSome.symm.trans hResult
      exact ⟨hNormal, (simplify?_of_normal hNormal).1, hSize⟩

/-
  An exclusive or with a constant bit under a conjunction that
  also selects bits its vector does not have.
-/
def selectOutside : Expr :=
  .conj
    (.gate none .xor (.neg (.var none (.scalar "a"))) (.ofBool true))
    (.part none (.var none ⟨"v", 2, false⟩) 9 4)

theorem simplify_reaches_normal_selectOutside :
    selectOutside.validate ≠ .ok () ∧
      (.conj (.var none (.scalar "a"))
        (.part none (.var none ⟨"v", 2, false⟩) 9 4) : Expr).Normal ∧
      ¬ (.neg (.neg (.var none (.scalar "a"))) : Expr).Strays := by
  have hOne : ∀ v ∈ [Var.scalar "a"], ∀ w ∈ [Var.scalar "a"],
      v.name = w.name → v.width = w.width := by
    decide
  refine ⟨nofun, ?_, ?_⟩
  · exact ((simplify_reaches_normal selectOutside).2.2.2 _ rfl).1
  · exact (simplify_reaches_normal _).2.2.1 rfl
      (fun v w hv hw => hOne v hv w hw)

/- A select of a bit that a word of 64 bits does not have. -/
def selectPastWord : Expr :=
  .part none (.ofNat 1 8) 64 64

/- A conjunction of as many bits as there are words. -/
def widestConj : Expr :=
  .conj (.part none (.var none (.scalar "a")) 4294967295 0)
    (.var none (.scalar "a"))

/-
  Not every tree has a simplified form: one select moves a
  constant past its word, one operand is too wide for a word.
-/
theorem simplify_without_result :
    selectPastWord.simplify? = none ∧ widestConj.simplify? = none ∧
      ¬ ∀ e : Expr, ∃ e', e.simplify? = some e' := by
  refine ⟨rfl, rfl, ?_⟩
  intro hAll
  rcases hAll selectPastWord with ⟨e', hResult⟩
  cases hResult

end Expr

end Gatework
