import Gatework.Proofs.Hdl.Names
import Gatework.Proofs.Hdl.ReadBack

/-
  Expressions written with as few parentheses as possible.

  Operators have levels, and an operand is put in parentheses
  where its level is below the one its place asks for. The
  parser groups the words of a tree so written into that tree
  again, whatever comes after them that does not go on from
  an expression.

  A tree in front of other words is read to where it becomes
  the left operand of what follows. Its level decides from
  which powers on this is so, and which tokens may follow.

  Key definitions include:
    * `Hdl.BinaryOp.level` and `Hdl.Expr.level`
    * `Hdl.Expr.words`
    * `Hdl.Expr.stripped`
    * `Hdl.Parse.ReadsAt`

  Key theorems include:
    * `Hdl.Parse.readsAt_binary`, `Hdl.Parse.readsAt_ternary`,
      `Hdl.Parse.readsAt_index` and `Hdl.Parse.readsAt_slice`
    * `Hdl.Parse.readsAt_words`
    * `Hdl.Parse.expression_regroups`
-/

------------------------------------------------------------
-- Levels
------------------------------------------------------------

namespace Gatework.Hdl

/- The symbol of an operator in front of its operand. -/
def UnaryOp.symbol : UnaryOp → Symbol
  | logNot => .bang
  | bitNot => .tilde
  | redAnd => .ampersand
  | redNand => .tildeAmpersand
  | redOr => .pipe
  | redNor => .tildePipe
  | redXor => .caret
  | redXnor => .tildeCaret

theorem UnaryOp.ofSymbol?_symbol
    (op : UnaryOp) :
    ofSymbol? op.symbol = some op := by
  cases op <;> rfl

namespace BinaryOp

/- The symbol of an operator between its operands. -/
def symbol : BinaryOp → Symbol
  | eq => .doubleEquals
  | neq => .bangEquals
  | logAnd => .doubleAmpersand
  | logOr => .doublePipe
  | bitAnd => .ampersand
  | bitOr => .pipe
  | bitXor => .caret
  | bitXnor => .tildeCaret

/- The operators from the loosest to the tightest. -/
def level : BinaryOp → Nat
  | logOr => 1
  | logAnd => 2
  | bitOr => 3
  | bitXor => 4
  | bitXnor => 4
  | bitAnd => 5
  | eq => 6
  | neq => 6

theorem ofSymbol?_symbol
    (op : BinaryOp) :
    ofSymbol? op.symbol = some op := by
  cases op <;> rfl

theorem level_bounds
    (op : BinaryOp) :
    1 ≤ op.level ∧ op.level ≤ 6 := by
  cases op <;> decide

/- Powers are levels with room for the right operand. -/
theorem power_add_one
    (op : BinaryOp) :
    op.power + 1 = 2 * op.level := by
  cases op <;> rfl

end BinaryOp

namespace Expr

/- The level of operators in front of their operand. -/
def unaryLevel : Nat :=
  7

/- The level of what holds together by itself. -/
def closedLevel : Nat :=
  8

/- The level of the outermost operator, a choice the loosest. -/
def level : Expr → Nat
  | ternary _ _ _ _ => 0
  | binary _ op _ _ => op.level
  | unary _ _ _ => unaryLevel
  | _ => closedLevel

end Expr

end Gatework.Hdl

------------------------------------------------------------
-- Written trees
------------------------------------------------------------

namespace Gatework.Hdl

/- Words between parentheses where these are needed. -/
def Word.enclosed
    (needed : Bool)
    (words : List Word) :
    List Word :=
  if needed then Word.parens words else words

namespace Expr

mutual

/-
  The words of a tree. Parentheses stand around an operand of
  a lower level, a right operand of the same level, an
  operator between operands or a choice behind an operator in
  front, any operator under a select, and a choice as operand
  or condition.
-/
def words : Expr → List Word
  | name n _ => [.name n]
  | literal form text _ => [⟨.literal form, text⟩]
  | index base i _ =>
      Word.enclosed (base.level < closedLevel) (words base) ++
        Word.bracketed (words i)
  | slice base msb lsb _ =>
      Word.enclosed (base.level < closedLevel) (words base) ++
        Word.bracketed (words msb ++ .mark .colon :: words lsb)
  | concat es _ => Word.braced (wordsList es)
  | replicate count es _ =>
      Word.braced (words count ++ Word.braced (wordsList es))
  | unary op x _ =>
      .mark op.symbol ::
        Word.enclosed (x.level < unaryLevel) (words x)
  | binary l op r _ =>
      Word.enclosed (l.level < op.level) (words l) ++
        .mark op.symbol ::
          Word.enclosed (r.level < op.level + 1) (words r)
  | ternary c t f _ =>
      Word.enclosed (c.level < 1) (words c) ++
        .mark .question :: (words t ++ .mark .colon :: words f)
  | paren inner _ => words inner
  | broken _ => []

/- Expressions with commas between them. -/
def wordsList : List Expr → List Word
  | [] => []
  | e :: es => words e ++ wordsMore es

/- Expressions that each follow a comma. -/
def wordsMore : List Expr → List Word
  | [] => []
  | e :: es => .mark .comma :: (words e ++ wordsMore es)

end

mutual

/-
  Names, literals, selects, operators and lists with elements:
  no parentheses of its own, and nothing broken.
-/
def Whole : Expr → Prop
  | name _ _ => True
  | literal _ _ _ => True
  | index base i _ => Whole base ∧ Whole i
  | slice base msb lsb _ => Whole base ∧ Whole msb ∧ Whole lsb
  | concat es _ => es ≠ [] ∧ WholeAll es
  | replicate count es _ => Whole count ∧ es ≠ [] ∧ WholeAll es
  | unary _ x _ => Whole x
  | binary l _ r _ => Whole l ∧ Whole r
  | ternary c t f _ => Whole c ∧ Whole t ∧ Whole f
  | paren _ _ => False
  | broken _ => False

def WholeAll : List Expr → Prop
  | [] => True
  | e :: es => Whole e ∧ WholeAll es

end

mutual

/- The tree without parentheses and places. -/
def stripped : Expr → Expr
  | name n _ => .name n Span.nowhere
  | literal form text _ => .literal form text Span.nowhere
  | index base i _ => .index (stripped base) (stripped i) Span.nowhere
  | slice base msb lsb _ =>
      .slice (stripped base) (stripped msb) (stripped lsb)
        Span.nowhere
  | concat es _ => .concat (strippedAll es) Span.nowhere
  | replicate count es _ =>
      .replicate (stripped count) (strippedAll es) Span.nowhere
  | unary op x _ => .unary op (stripped x) Span.nowhere
  | binary l op r _ =>
      .binary (stripped l) op (stripped r) Span.nowhere
  | ternary c t f _ =>
      .ternary (stripped c) (stripped t) (stripped f) Span.nowhere
  | paren inner _ => stripped inner
  | broken _ => .broken Span.nowhere

def strippedAll : List Expr → List Expr
  | [] => []
  | e :: es => stripped e :: strippedAll es

end

theorem wholeAll_iff
    {es : List Expr} :
    WholeAll es ↔ ∀ e ∈ es, e.Whole := by
  induction es with
  | nil => simp [WholeAll]
  | cons e es ih => simp [WholeAll, ih]

/- Trees that differ from one in parentheses and places only. -/
abbrev Regroups
    (t e : Expr) :
    Prop :=
  e.stripped = t.stripped

/-
  Regrouping is a congruence: what is built from trees that
  differ in parentheses and places differs in no more. Each
  holds by evaluating `stripped` at the node.
-/

theorem Regroups.index
    {t e i j : Expr}
    {s p : Span}
    (hBase : t.Regroups e)
    (hIndex : i.Regroups j) :
    (index t i s).Regroups (index e j p) :=
  congrArg₂ (Expr.index · · Span.nowhere) hBase hIndex

theorem Regroups.slice
    {t e m n k l : Expr}
    {s p : Span}
    (hBase : t.Regroups e)
    (hMsb : m.Regroups n)
    (hLsb : k.Regroups l) :
    (slice t m k s).Regroups (slice e n l p) := by
  show Expr.slice e.stripped n.stripped l.stripped Span.nowhere =
    Expr.slice t.stripped m.stripped k.stripped Span.nowhere
  rw [hBase, hMsb, hLsb]

theorem Regroups.unary
    {op : UnaryOp}
    {t e : Expr}
    {s p : Span}
    (hInner : t.Regroups e) :
    (unary op t s).Regroups (unary op e p) :=
  congrArg (Expr.unary op · Span.nowhere) hInner

theorem Regroups.binary
    {op : BinaryOp}
    {l a r b : Expr}
    {s p : Span}
    (hLeft : l.Regroups a)
    (hRight : r.Regroups b) :
    (binary l op r s).Regroups (binary a op b p) :=
  congrArg₂ (Expr.binary · op · Span.nowhere) hLeft hRight

theorem Regroups.ternary
    {c a t b f d : Expr}
    {s p : Span}
    (hCond : c.Regroups a)
    (hTrue : t.Regroups b)
    (hFalse : f.Regroups d) :
    (ternary c t f s).Regroups (ternary a b d p) := by
  show Expr.ternary a.stripped b.stripped d.stripped Span.nowhere =
    Expr.ternary c.stripped t.stripped f.stripped Span.nowhere
  rw [hCond, hTrue, hFalse]

theorem strippedAll_cons
    {t e : Expr}
    {ts es : List Expr}
    (hHead : t.Regroups e)
    (hTail : strippedAll es = strippedAll ts) :
    strippedAll (e :: es) = strippedAll (t :: ts) :=
  congrArg₂ List.cons hHead hTail

theorem Regroups.concat
    {ts es : List Expr}
    {s p : Span}
    (hAll : strippedAll es = strippedAll ts) :
    (concat ts s).Regroups (concat es p) :=
  congrArg (Expr.concat · Span.nowhere) hAll

theorem Regroups.replicate
    {n c : Expr}
    {ts es : List Expr}
    {s p : Span}
    (hCount : n.Regroups c)
    (hAll : strippedAll es = strippedAll ts) :
    (replicate n ts s).Regroups (replicate c es p) :=
  congrArg₂ (Expr.replicate · · Span.nowhere) hCount hAll

theorem leading_enclosed
    {words : List Word}
    (hWords : ∀ k, leading words k ≠ Parse.rbrace)
    (needed : Bool)
    (k : TokenKind) :
    leading (Word.enclosed needed words) k ≠ Parse.rbrace := by
  cases needed with
  | true => exact nofun
  | false => exact hWords k

/- No written tree starts with a closing brace. -/
theorem Whole.leading_words
    {t : Expr}
    (hWhole : t.Whole)
    (k : TokenKind) :
    leading t.words k ≠ Parse.rbrace := by
  induction t generalizing k with
  | name n s => exact nofun
  | literal form text s => exact nofun
  | index base i s ihBase ihIndex =>
      rw [words, leading_append]
      exact leading_enclosed (ihBase hWhole.1) _ _
  | slice base msb lsb s ihBase ihMsb ihLsb =>
      rw [words, leading_append]
      exact leading_enclosed (ihBase hWhole.1) _ _
  | concat es s ih => exact nofun
  | replicate count es s ihCount ih => exact nofun
  | unary op x s ih =>
      cases op <;> exact nofun
  | binary l op r s ihLeft ihRight =>
      rw [words, leading_append]
      exact leading_enclosed (ihLeft hWhole.1) _ _
  | ternary c t f s ihCond ihTrue ihFalse =>
      rw [words, leading_append]
      exact leading_enclosed (ihCond hWhole.1) _ _
  | paren inner s ih => exact hWhole.elim
  | broken s => exact hWhole.elim

end Expr

end Gatework.Hdl

------------------------------------------------------------
-- Reading at a level
------------------------------------------------------------

namespace Gatework.Hdl

namespace Parse

variable {P Q R : Expr → Prop}
variable {words more : List Word}
variable {level fuel power : Nat}

/- A power at which operators of a level are read. -/
def Fits
    (level power : Nat) :
    Prop :=
  Expr.unaryLevel ≤ level ∨ power ≤ 2 * level - 1

/-
  A kind of token that is not read into an operand of an
  expression of a level.
-/
def Closes
    (level : Nat)
    (k : TokenKind) :
    Prop :=
  level < Expr.closedLevel → Ending (2 * level) k

/- What ends an expression ends those of more power. -/
theorem Ending.of_le
    {k : TokenKind}
    {other : Nat}
    (hk : Ending power k)
    (hPower : power ≤ other) :
    Ending other k := by
  cases k with
  | symbol mark =>
      unfold Ending endsAt at hk ⊢
      split at hk
      case h_1 =>
          rw [decide_eq_true_eq] at hk ⊢
          omega
      case h_2 => exact hk
      case h_3 =>
          split at hk
          case isTrue hRefused =>
              rw [if_pos hRefused]
              rw [decide_eq_true_eq] at hk ⊢
              omega
          case isFalse hRefused =>
              rw [if_neg hRefused]
              split at hk
              · rw [decide_eq_true_eq] at hk ⊢
                omega
              · rfl
      case h_4 => rfl
  | _ => rfl

/-
  Words are read at a level: in front of a token that closes
  the level, at each power that fits, their tree is the left
  operand of whatever goes on from it.
-/
def ReadsAt
    (level : Nat)
    (words : List Word)
    (P : Expr → Prop) :
    Prop :=
  ∀ fuel power more next Q, words.length ≤ fuel + 1 →
    Fits level power →
    (∀ k, next k → Closes level (leading more k)) →
    (∀ left n, P left → fuel + 1 ≤ n + words.length →
      Takes (extendAll (exprAt fuel) power n left) more next Q) →
    Takes (exprAt (fuel + 1) power) (words ++ more) next Q

theorem Fits.zero
    (level : Nat) :
    Fits level 0 :=
  Or.inr (Nat.zero_le _)

/- What ends an expression closes the levels that fit it. -/
theorem Fits.closes
    (hFits : Fits level power)
    {k : TokenKind}
    (hk : Ending power k) :
    Closes level k := by
  intro hOpen
  rcases hFits with hUnary | hPower
  · have hAll : Ending unaryPower k := ending_unaryPower hk.ne_lbracket
    apply hAll.of_le
    unfold Expr.unaryLevel at hUnary
    unfold unaryPower
    omega
  · exact hk.of_le (by omega)

theorem ReadsAt.imp
    (hReads : ReadsAt level words P)
    (hImp : ∀ e, P e → Q e) :
    ReadsAt level words Q := by
  intro fuel power more next S hFuel hFits hNext hMore
  apply hReads fuel power more next S hFuel hFits hNext
  exact fun left n hLeft => hMore left n (hImp left hLeft)

/- An expression that is one operand. -/
theorem readsAt_operand
    (hOperand : ∀ fuel, words.length ≤ fuel + 1 →
      Takes (operand (exprAt fuel)) words (Closes level) P)
    (hSome : 0 < words.length) :
    ReadsAt level words P := by
  intro fuel power more next Q hFuel _ hNext hMore
  apply (hOperand fuel hFuel).bind ?_ hNext
  intro left hLeft
  exact hMore left fuel hLeft (by omega)

/- The words alone. -/
theorem ReadsAt.whole
    (hReads : ReadsAt level words P)
    (hSome : 0 < words.length)
    (hFits : Fits level power)
    (hFuel : words.length ≤ fuel) :
    Takes (exprAt fuel power) words (Ending power) P := by
  cases fuel with
  | zero => omega
  | succ fuel =>
      have hRead := hReads fuel power [] (Ending power) P hFuel hFits
        (fun _ hk => hFits.closes hk)
        (fun left n hLeft _ => takes_extendAll_stop hLeft n)
      rwa [List.append_nil] at hRead

/- The level of words that are enclosed below some level. -/
def raised
    (least level : Nat) :
    Nat :=
  if level < least then Expr.closedLevel else level

theorem le_raised
    {least : Nat}
    (hLeast : least ≤ Expr.closedLevel)
    (level : Nat) :
    least ≤ raised least level := by
  unfold raised
  split
  · exact hLeast
  · omega

theorem raised_closedLevel
    (t : Expr) :
    raised Expr.closedLevel t.level = Expr.closedLevel := by
  have hLevel : t.level ≤ Expr.closedLevel := by
    unfold Expr.level
    split
    · exact Nat.zero_le _
    · exact Nat.le_trans (BinaryOp.level_bounds _).2 (by decide)
    · decide
    · exact Nat.le_refl _
  unfold raised
  split
  · rfl
  · omega

theorem length_enclosed_pos
    (hSome : 0 < words.length)
    (needed : Bool) :
    0 < (Word.enclosed needed words).length := by
  cases needed with
  | true => exact Nat.succ_pos _
  | false => exact hSome

/- Parentheses hold a tree of any level together. -/
theorem ReadsAt.enclosed
    (hReads : ReadsAt level words P)
    (hSome : 0 < words.length)
    (hParen : ∀ e span, P e → P (.paren e span))
    (least : Nat) :
    ReadsAt (raised least level)
      (Word.enclosed (level < least) words) P := by
  unfold raised
  by_cases hNeeded : level < least
  · rw [if_pos hNeeded, decide_eq_true hNeeded]
    refine readsAt_operand ?_ (Nat.succ_pos _)
    intro fuel hFuel
    simp only [Word.enclosed, if_true, Word.parens,
      List.length_append, List.length_cons] at hFuel
    apply (takes_operand_paren
      (hReads.whole hSome (.zero level) (by omega))).imp
    rintro _ ⟨inner, span, rfl, hInner⟩
    exact hParen inner span hInner
  · rw [if_neg hNeeded, decide_eq_false hNeeded]
    exact hReads

/- An operator closes its left operand. -/
theorem closes_symbol
    {op : BinaryOp}
    (hLevel : op.level ≤ level) :
    Closes level (.symbol op.symbol) := by
  intro _
  have hPower := op.power_add_one
  have hLess : op.power < 2 * level := by
    omega
  cases op
  all_goals exact decide_eq_true hLess

/- An operator between operands of suitable levels. -/
theorem readsAt_binary
    {op : BinaryOp}
    {levelR : Nat}
    {wordsR : List Word}
    (hLeft : ReadsAt level words P)
    (hRight : ReadsAt levelR wordsR Q)
    (hSome : 0 < words.length)
    (hSomeR : 0 < wordsR.length)
    (hLevel : op.level ≤ level)
    (hLevelR : op.level + 1 ≤ levelR) :
    ReadsAt op.level (words ++ .mark op.symbol :: wordsR)
      (fun e => ∃ l r span, e = .binary l op r span ∧
        P l ∧ Q r) := by
  intro fuel power more next S hFuel hFits hNext hMore
  have hBounds := op.level_bounds
  have hPower := op.power_add_one
  have hLow : power ≤ op.power := by
    unfold Fits Expr.unaryLevel at hFits
    omega
  rw [List.length_append, List.length_cons] at hFuel hMore
  rw [List.append_assoc, List.cons_append]
  apply hLeft fuel power _ _ _ (by omega)
  · unfold Fits at hFits ⊢
    omega
  · exact fun _ _ => closes_symbol hLevel
  · intro left n hl hn
    have hOperand : Takes (exprAt fuel (op.power + 1)) wordsR
        (Closes op.level) Q := by
      have hFitsR : Fits levelR (op.power + 1) := by
        unfold Fits
        omega
      apply (hRight.whole hSomeR hFitsR (by omega)).weaken
      intro k hk
      rw [hPower]
      exact hk (by unfold Expr.closedLevel; omega)
    cases n with
    | zero => omega
    | succ n =>
        apply takes_extendAll_grown
          (takes_extend_binary op.ofSymbol?_symbol hLow hOperand)
          ?_ hNext
        rintro _ ⟨right, span, rfl, hr⟩
        apply hMore _ n ⟨left, right, span, rfl, hl, hr⟩
        omega

/- A choice, whose condition is no choice. -/
theorem readsAt_ternary
    {levelT levelF : Nat}
    {wordsT wordsF : List Word}
    (hCond : ReadsAt level words P)
    (hTrue : ReadsAt levelT wordsT Q)
    (hFalse : ReadsAt levelF wordsF R)
    (hSome : 0 < words.length)
    (hSomeT : 0 < wordsT.length)
    (hSomeF : 0 < wordsF.length)
    (hLevel : 1 ≤ level) :
    ReadsAt 0
      (words ++ .mark .question ::
        (wordsT ++ .mark .colon :: wordsF))
      (fun e => ∃ c t f span, e = .ternary c t f span ∧
        P c ∧ Q t ∧ R f) := by
  intro fuel power more next S hFuel hFits hNext hMore
  have hZero : power = 0 := by
    unfold Fits Expr.unaryLevel at hFits
    omega
  subst hZero
  simp only [List.length_append, List.length_cons] at hFuel hMore
  rw [List.append_assoc, List.cons_append]
  apply hCond fuel 0 _ _ _ (by omega) (.zero level)
  · intro k _ _
    exact decide_eq_true (by omega)
  · intro cond n hc hn
    have hFirst : Takes (exprAt fuel 0) wordsT (Ending 0) Q :=
      hTrue.whole hSomeT (.zero levelT) (by omega)
    have hSecond : Takes (exprAt fuel 0) wordsF (Closes 0) R := by
      apply (hFalse.whole hSomeF (.zero levelF) (by omega)).weaken
      intro k hk
      exact hk (by decide)
    cases n with
    | zero => omega
    | succ n =>
        apply takes_extendAll_grown
          (takes_extend_choice hFirst hSecond) ?_ hNext
        rintro _ ⟨t, f, span, rfl, ht, hf⟩
        apply hMore _ n ⟨cond, t, f, span, rfl, hc, ht, hf⟩
        omega

/- A select behind a base that holds together. -/
theorem readsAt_select
    {wordsS : List Word}
    (hBase : ReadsAt Expr.closedLevel words P)
    (hSome : 0 < words.length)
    (hSomeS : 0 < wordsS.length)
    (hSelect : ∀ fuel power base, wordsS.length ≤ fuel →
      P base →
      Takes (extend (exprAt fuel) power base) wordsS
        (fun _ => True) (Step.Grows Q)) :
    ReadsAt Expr.closedLevel (words ++ wordsS) Q := by
  intro fuel power more next S hFuel hFits hNext hMore
  rw [List.length_append] at hFuel hMore
  rw [List.append_assoc]
  apply hBase fuel power _ _ _ (by omega) hFits
  · exact fun _ _ hOpen => absurd hOpen (Nat.lt_irrefl _)
  · intro base n hb hn
    cases n with
    | zero => omega
    | succ n =>
        apply takes_extendAll_grown
          (hSelect fuel power base (by omega) hb) ?_
          (fun _ _ => trivial)
        intro e he
        apply hMore e n he
        omega

end Parse

end Gatework.Hdl

------------------------------------------------------------
-- Lists
------------------------------------------------------------

namespace Gatework.Hdl

namespace Parse

variable {exprAt : Nat → Parse Expr}
variable {P : Expr → Prop}
variable {words more : List Word}
variable {next : TokenKind → Prop}
variable {R : List Expr → Prop}

/- An item and the items behind commas. -/
theorem takes_commaList
    (hFirst : Takes (exprAt 0) words (Ending 0) P)
    (hMore : ∀ fuel, more.length ≤ fuel →
      Takes (afterCommas (exprAt 0) fuel) more (· = rbrace) R)
    (hNext : leading more rbrace = .symbol .comma ∨
      leading more rbrace = rbrace) :
    Takes (commaList (exprAt 0)) (words ++ more) (· = rbrace)
      (fun es => ∃ first others, es = first :: others ∧
        P first ∧ R others) := by
  apply hFirst.bind
  · intro first hP
    apply takes_get
    intro c rest hShows _
    apply (hMore c.rest.length hShows.length_le).map
    intro others hR
    exact ⟨first, others, rfl, hP, hR⟩
  · rintro _ rfl
    rcases hNext with hKind | hKind
    · rw [hKind]
      rfl
    · rw [hKind]
      rfl

/- A number of copies of a list. -/
theorem takes_operand_copies
    (hCount : Takes (exprAt 0) words (Ending 0) P)
    (hStart : ∀ k, leading words k ≠ rbrace)
    (hList : Takes (commaList (exprAt 0)) more (· = rbrace) R) :
    Takes (operand exprAt)
      (Word.braced (words ++ Word.braced more)) next
      (fun e => ∃ count es span, e = .replicate count es span ∧
        P count ∧ R es) := by
  have hClose : ∀ next,
      Takes (expect rbrace) [.mark .rightBrace] next
        (fun _ => True) :=
    fun _ => @takes_expect _ (.mark .rightBrace) nofun
  have hBraces : Takes (braces (exprAt 0))
      (.mark .leftBrace :: (words ++ (.mark .leftBrace ::
        (more ++ [.mark .rightBrace, .mark .rightBrace])))) next
      (fun e => ∃ count es span, e = .replicate count es span ∧
        P count ∧ R es) := by
    apply takes_here
    intro start
    apply Takes.cons (@takes_expect _ (.mark .leftBrace) nofun)
    intro _ _
    apply takes_eat_other.peek
    · rintro _ rfl
      apply hCount.bind ?_ (fun _ _ => rfl)
      intro count hP
      apply Takes.cons (@takes_eat _ (.mark .leftBrace) nofun)
      rintro _ rfl
      apply hList.bind ?_ (fun _ _ => rfl)
      intro es hR
      apply Takes.cons (hClose _)
      intro _ _
      apply (hClose _).last
      intro _ _
      exact (takes_since start).map fun span _ =>
        ⟨count, es, span, rfl, hP, hR⟩
    · intro k _
      rw [leading_append]
      exact hStart _
  have hWords : Word.braced (words ++ Word.braced more) =
      .mark .leftBrace :: (words ++ (.mark .leftBrace ::
        (more ++ [.mark .rightBrace, .mark .rightBrace]))) := by
    simp [Word.braced]
  rw [hWords]
  apply takes_here
  intro start
  apply takes_token
  intro _ _ _
  exact hBraces

end Parse

end Gatework.Hdl

------------------------------------------------------------
-- Whole trees
------------------------------------------------------------

namespace Gatework.Hdl

namespace Expr

theorem Whole.length_pos
    {t : Expr}
    (hWhole : t.Whole) :
    0 < t.words.length := by
  apply List.length_pos_iff.mpr
  intro hNil
  have hLeading := hWhole.leading_words Parse.rbrace
  rw [hNil] at hLeading
  exact hLeading rfl

/- What follows an element of a list is a comma or the end. -/
theorem leading_wordsMore
    (es : List Expr) :
    leading (wordsMore es) Parse.rbrace = .symbol .comma ∨
      leading (wordsMore es) Parse.rbrace = Parse.rbrace := by
  cases es with
  | nil => exact Or.inr rfl
  | cons e es => exact Or.inl rfl

end Expr

namespace Parse

variable {fuel : Nat}

/- The tree is complete, and its words are read at its level. -/
structure Readable
    (t : Expr) :
    Prop where
  whole : t.Whole
  reads : ReadsAt t.level t.words t.Regroups

/- Elements behind commas, up to the closing brace. -/
theorem takes_wordsMore
    {ts : List Expr}
    (hts : ∀ t ∈ ts, Readable t)
    (hFuel : (Expr.wordsMore ts).length ≤ fuel)
    {count : Nat}
    (hCount : (Expr.wordsMore ts).length ≤ count) :
    Takes (afterCommas (exprAt fuel 0) count) (Expr.wordsMore ts)
      (· = rbrace)
      (fun es => Expr.strippedAll es = Expr.strippedAll ts) := by
  induction ts generalizing count with
  | nil =>
      apply ((takes_afterCommas_nil count).weaken _).imp
      · rintro _ rfl
        rfl
      · rintro _ rfl
        exact nofun
  | cons t ts ih =>
      rw [List.forall_mem_cons] at hts
      rw [Expr.wordsMore, List.length_cons, List.length_append]
        at hFuel hCount
      cases count with
      | zero => omega
      | succ count =>
          have hItem : Takes (exprAt fuel 0) t.words (Ending 0)
              t.Regroups :=
            hts.1.reads.whole hts.1.whole.length_pos (.zero _)
              (by omega)
          have hLater := @ih hts.2 (by omega) count (by omega)
          rw [Expr.wordsMore]
          apply (takes_afterCommas_cons hItem hLater _).imp
          · rintro _ ⟨e, es, rfl, he, hes⟩
            exact Expr.strippedAll_cons he hes
          · rintro _ rfl
            rcases Expr.leading_wordsMore ts with hKind | hKind
            · rw [hKind]
              rfl
            · rw [hKind]
              rfl

/- An operand in its place, in parentheses if need be. -/
theorem readsAt_enclosed
    {t : Expr}
    (ht : Readable t)
    (least : Nat) :
    ReadsAt (raised least t.level)
      (Word.enclosed (t.level < least) t.words) t.Regroups :=
  ht.reads.enclosed ht.whole.length_pos (fun _ _ he => he) least

/- The base of a select. -/
theorem readsAt_base
    {t : Expr}
    (ht : Readable t) :
    ReadsAt Expr.closedLevel
      (Word.enclosed (t.level < Expr.closedLevel) t.words)
      t.Regroups := by
  have hBase := readsAt_enclosed ht Expr.closedLevel
  rwa [raised_closedLevel] at hBase

/- A tree between other words, from the lowest power on. -/
theorem Readable.inner
    {t : Expr}
    (ht : Readable t)
    (hFuel : t.words.length ≤ fuel) :
    Takes (exprAt fuel 0) t.words (Ending 0) t.Regroups :=
  ht.reads.whole ht.whole.length_pos (.zero _) hFuel

variable {s : Span}

theorem readsAt_index
    {base i : Expr}
    (hBase : Readable base)
    (hIndex : Readable i) :
    ReadsAt (Expr.index base i s).level (Expr.index base i s).words
      (Expr.index base i s).Regroups := by
  rw [Expr.words]
  refine readsAt_select (readsAt_base hBase)
    (length_enclosed_pos hBase.whole.length_pos _)
    (Nat.succ_pos _) ?_
  intro fuel power b hFuel hb
  simp only [Word.bracketed, List.length_append,
    List.length_cons] at hFuel
  apply (takes_extend_index (hIndex.inner (by omega))).imp
  intro step hStep
  apply hStep.imp
  rintro _ ⟨e, span, rfl, he⟩
  exact Expr.Regroups.index hb he

theorem readsAt_slice
    {base msb lsb : Expr}
    (hBase : Readable base)
    (hMsb : Readable msb)
    (hLsb : Readable lsb) :
    ReadsAt (Expr.slice base msb lsb s).level
      (Expr.slice base msb lsb s).words
      (Expr.slice base msb lsb s).Regroups := by
  rw [Expr.words]
  refine readsAt_select (readsAt_base hBase)
    (length_enclosed_pos hBase.whole.length_pos _)
    (Nat.succ_pos _) ?_
  intro fuel power b hFuel hb
  simp only [Word.bracketed, List.length_append,
    List.length_cons] at hFuel
  apply (takes_extend_slice (hMsb.inner (by omega))
    (hLsb.inner (by omega))).imp
  intro step hStep
  apply hStep.imp
  rintro _ ⟨m, l, span, rfl, hm, hl⟩
  exact Expr.Regroups.slice hb hm hl

theorem readsAt_concat
    {t : Expr}
    {ts : List Expr}
    (ht : Readable t)
    (hts : ∀ e ∈ ts, Readable e) :
    ReadsAt (Expr.concat (t :: ts) s).level
      (Expr.concat (t :: ts) s).words
      (Expr.concat (t :: ts) s).Regroups := by
  refine readsAt_operand ?_ (Nat.succ_pos _)
  intro fuel hFuel
  rw [Expr.words, Expr.wordsList] at hFuel ⊢
  simp only [Word.braced, List.length_append,
    List.length_cons] at hFuel
  apply (takes_operand_braces (ht.inner (by omega))
    ht.whole.leading_words
    (fun _ hCount => takes_wordsMore hts (by omega) hCount)
    (Expr.leading_wordsMore ts)).imp
  rintro _ ⟨first, others, span, rfl, hf, ho⟩
  exact Expr.Regroups.concat (Expr.strippedAll_cons hf ho)

theorem readsAt_replicate
    {count t : Expr}
    {ts : List Expr}
    (hCount : Readable count)
    (ht : Readable t)
    (hts : ∀ e ∈ ts, Readable e) :
    ReadsAt (Expr.replicate count (t :: ts) s).level
      (Expr.replicate count (t :: ts) s).words
      (Expr.replicate count (t :: ts) s).Regroups := by
  refine readsAt_operand ?_ (Nat.succ_pos _)
  intro fuel hFuel
  rw [Expr.words, Expr.wordsList] at hFuel ⊢
  simp only [Word.braced, List.length_append,
    List.length_cons] at hFuel
  apply (takes_operand_copies (hCount.inner (by omega))
    hCount.whole.leading_words
    (takes_commaList (ht.inner (by omega))
      (fun _ hMore => takes_wordsMore hts (by omega) hMore)
      (Expr.leading_wordsMore ts))).imp
  rintro _ ⟨c, _, span, rfl, hc, first, others, rfl, hf, ho⟩
  exact Expr.Regroups.replicate hc (Expr.strippedAll_cons hf ho)

theorem readsAt_unary
    {op : UnaryOp}
    {x : Expr}
    (hx : Readable x) :
    ReadsAt (Expr.unary op x s).level (Expr.unary op x s).words
      (Expr.unary op x s).Regroups := by
  have hOperand := readsAt_enclosed hx Expr.unaryLevel
  refine readsAt_operand ?_ (Nat.succ_pos _)
  intro fuel hFuel
  rw [Expr.words] at hFuel ⊢
  rw [List.length_cons] at hFuel
  have hFits : Fits (raised Expr.unaryLevel x.level) unaryPower :=
    Or.inl (le_raised (by decide) _)
  apply (takes_operand_unary op.ofSymbol?_symbol
    ((hOperand.whole
      (length_enclosed_pos hx.whole.length_pos _) hFits
      (by omega)).weaken _)).imp
  · rintro _ ⟨inner, span, rfl, hInner⟩
    exact Expr.Regroups.unary hInner
  · intro k hk
    apply ending_unaryPower
    exact Ending.ne_lbracket (hk (Nat.lt_succ_self _))

theorem readsAt_binaryWords
    {op : BinaryOp}
    {l r : Expr}
    (hLeft : Readable l)
    (hRight : Readable r) :
    ReadsAt (Expr.binary l op r s).level (Expr.binary l op r s).words
      (Expr.binary l op r s).Regroups := by
  have hBounds := op.level_bounds
  have hClosed : op.level + 1 ≤ Expr.closedLevel := by
    unfold Expr.closedLevel
    omega
  rw [Expr.words]
  apply (readsAt_binary
    (readsAt_enclosed hLeft op.level)
    (readsAt_enclosed hRight (op.level + 1))
    (length_enclosed_pos hLeft.whole.length_pos _)
    (length_enclosed_pos hRight.whole.length_pos _)
    (le_raised (by omega) _) (le_raised hClosed _)).imp
  rintro _ ⟨a, b, span, rfl, ha, hb⟩
  exact Expr.Regroups.binary ha hb

theorem readsAt_ternaryWords
    {c t f : Expr}
    (hCond : Readable c)
    (hTrue : Readable t)
    (hFalse : Readable f) :
    ReadsAt (Expr.ternary c t f s).level (Expr.ternary c t f s).words
      (Expr.ternary c t f s).Regroups := by
  rw [Expr.words]
  apply (readsAt_ternary
    (readsAt_enclosed hCond 1)
    hTrue.reads hFalse.reads
    (length_enclosed_pos hCond.whole.length_pos _)
    hTrue.whole.length_pos hFalse.whole.length_pos
    (le_raised (by decide) _)).imp
  rintro _ ⟨a, b, d, span, rfl, ha, hb, hd⟩
  exact Expr.Regroups.ternary ha hb hd

/-
  Every tree is read at its level, by induction on the tree
  with one step for each form.
-/
theorem readsAt_words
    {t : Expr}
    (hWhole : t.Whole) :
    ReadsAt t.level t.words t.Regroups := by
  induction t with
  | name n s =>
      refine readsAt_operand ?_ (Nat.succ_pos _)
      intro fuel _
      apply (takes_operand_name n).imp
      rintro _ ⟨span, rfl⟩
      rfl
  | literal form text s =>
      refine readsAt_operand ?_ (Nat.succ_pos _)
      intro fuel _
      apply (takes_operand_literal form text).imp
      rintro _ ⟨span, rfl⟩
      rfl
  | index base i s ihBase ihIndex =>
      exact readsAt_index ⟨hWhole.1, ihBase hWhole.1⟩
        ⟨hWhole.2, ihIndex hWhole.2⟩
  | slice base msb lsb s ihBase ihMsb ihLsb =>
      rcases hWhole with ⟨hBase, hMsb, hLsb⟩
      exact readsAt_slice ⟨hBase, ihBase hBase⟩ ⟨hMsb, ihMsb hMsb⟩
        ⟨hLsb, ihLsb hLsb⟩
  | concat es s ih =>
      rcases hWhole with ⟨hSome, hAll⟩
      rw [Expr.wholeAll_iff] at hAll
      have hEach : ∀ e ∈ es, Readable e :=
        fun e he => ⟨hAll e he, ih e he (hAll e he)⟩
      cases es with
      | nil => exact absurd rfl hSome
      | cons t ts =>
          rw [List.forall_mem_cons] at hEach
          exact readsAt_concat hEach.1 hEach.2
  | replicate count es s ihCount ih =>
      rcases hWhole with ⟨hCount, hSome, hAll⟩
      rw [Expr.wholeAll_iff] at hAll
      have hEach : ∀ e ∈ es, Readable e :=
        fun e he => ⟨hAll e he, ih e he (hAll e he)⟩
      cases es with
      | nil => exact absurd rfl hSome
      | cons t ts =>
          rw [List.forall_mem_cons] at hEach
          exact readsAt_replicate ⟨hCount, ihCount hCount⟩ hEach.1
            hEach.2
  | unary op x s ih => exact readsAt_unary ⟨hWhole, ih hWhole⟩
  | binary l op r s ihLeft ihRight =>
      exact readsAt_binaryWords ⟨hWhole.1, ihLeft hWhole.1⟩
        ⟨hWhole.2, ihRight hWhole.2⟩
  | ternary c t f s ihCond ihTrue ihFalse =>
      rcases hWhole with ⟨hCond, hTrue, hFalse⟩
      exact readsAt_ternaryWords ⟨hCond, ihCond hCond⟩
        ⟨hTrue, ihTrue hTrue⟩ ⟨hFalse, ihFalse hFalse⟩
  | paren inner s ih => exact hWhole.elim
  | broken s => exact hWhole.elim

end Parse

/-
  Tokens that go on from an expression: a choice, a select and
  operators between operands, also those that are refused.
-/
def TokenKind.continues : TokenKind → Bool
  | .symbol mark =>
      mark == .question || mark == .leftBracket ||
        mark.isRefused || (BinaryOp.ofSymbol? mark).isSome
  | _ => false

namespace Parse

theorem ending_of_not_continues
    {k : TokenKind}
    (hk : k.continues = false) :
    Ending 0 k := by
  cases k with
  | symbol mark =>
      cases mark
      all_goals first | rfl | cases hk
  | _ => rfl

/-
  From the tokens of a tree written with the parentheses that
  levels ask for, in front of a token that does not go on
  from an expression, just these are read, nothing is
  reported, and the result is the tree up to parentheses and
  places.
-/
theorem expression_regroups
    {t : Expr}
    (hWhole : t.Whole)
    {tokens rest : List Token}
    (hTokens : List.Forall₂ Token.Says tokens t.words)
    (hNext : (headKind rest).continues = false)
    {c : Cursor}
    (hRest : c.rest = tokens ++ rest) :
    (expression c).1.stripped = t.stripped ∧
      (expression c).2.rest = rest ∧
      (expression c).2.findings = c.findings := by
  have hLength : t.words.length ≤ c.rest.length + 1 := by
    rw [hRest, List.length_append, hTokens.length_eq]
    omega
  have hReadable : Readable t := ⟨hWhole, readsAt_words hWhole⟩
  have hTakes := hReadable.inner hLength
  exact hTakes c rest ⟨tokens, hRest, hTokens⟩
    (ending_of_not_continues hNext)

/-
  A choice whose condition has a looser operand on the left
  and a select of an operator on the right.
-/
def groupedTree : Expr :=
  let s := Span.nowhere
  let name (n : String) : Expr := .name n s
  .ternary
    (.binary
      (.binary (name "a") .bitOr (name "b") s) .bitAnd
      (.unary .bitNot
        (.index (.binary (name "c") .bitXor (name "d") s)
          (.literal .int "0" s) s) s) s)
    (.replicate (.literal .int "2" s)
      [name "e", .unary .redXor (name "f") s] s)
    (.binary (.binary (name "g") .eq (name "h") s) .neq
      (.binary (name "i") .eq (name "j") s) s) s

/- The tree comes back from its words and a semicolon. -/
theorem expression_regroups_groupedTree :
    let token (w : Word) : Token := ⟨w.kind, w.text, Span.nowhere⟩
    let stop : List Token := [token (.mark .semicolon)]
    let c : Cursor :=
      ⟨groupedTree.words.map token ++ stop, none, {}, {}, false⟩
    String.join (groupedTree.words.map Word.text) =
        "(a|b)&~(c^d)[0]?\x7b2\x7be,^f\x7d\x7d:g==h!=(i==j)" ∧
      groupedTree.Whole ∧
      (expression c).1.stripped = groupedTree.stripped ∧
      (expression c).2.rest = stop ∧
      (expression c).2.findings = c.findings := by
  intro token stop c
  have hWhole : groupedTree.Whole := by
    simp [groupedTree, Expr.Whole, Expr.WholeAll]
  have hTokens : List.Forall₂ Token.Says
      (groupedTree.words.map token) groupedTree.words := by
    rw [List.forall₂_map_left_iff, List.forall₂_same]
    exact fun w _ => ⟨rfl, fun _ => rfl⟩
  refine ⟨by decide, hWhole, ?_⟩
  exact expression_regroups hWhole hTokens rfl rfl

end Parse

end Gatework.Hdl
