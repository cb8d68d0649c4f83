import Gatework.Hdl.Parser.Expr
import Gatework.Proofs.Hdl.Lexer
import Mathlib.Data.List.Forall2

/-
  What parsers read when the words they look for are there.

  A parser takes words if it reads exactly their tokens, in
  front of a token of a suitable kind, and reports nothing.
  Parsers one after the other take their words one after the
  other, where the first word of the second is what follows
  the first. Nothing is said of places, of how symbols are
  spelled and of the table of names.

  Key definitions include:
    * `Hdl.Token.Says` and `Hdl.Cursor.Shows`
    * `Hdl.Parse.Takes`
    * `Hdl.Parse.endsAt`

  Key theorems include:
    * `Hdl.Parse.Takes.bind`
    * `Hdl.Parse.takes_operand_name`,
      `Hdl.Parse.takes_operand_literal`,
      `Hdl.Parse.takes_operand_paren`,
      `Hdl.Parse.takes_operand_unary` and
      `Hdl.Parse.takes_operand_braces`
    * `Hdl.Parse.takes_extendAll_stop` and
      `Hdl.Parse.takes_extendAll_grown`
    * `Hdl.Parse.takes_extend_binary`,
      `Hdl.Parse.takes_extend_choice`,
      `Hdl.Parse.takes_extend_index` and
      `Hdl.Parse.takes_extend_slice`
-/

------------------------------------------------------------
-- Steps
------------------------------------------------------------

namespace Gatework.Hdl

/- The kind of the first token, at the end that of the end. -/
def headKind : List Token → TokenKind
  | [] => .endOfFile
  | t :: _ => t.kind

/- The kind of the first word, or of what follows the words. -/
def leading
    (words : List Word)
    (next : TokenKind) :
    TokenKind :=
  match words with
  | [] => next
  | w :: _ => w.kind

theorem leading_append
    (words more : List Word)
    (next : TokenKind) :
    leading (words ++ more) next =
      leading words (leading more next) := by
  cases words <;> rfl

/- Kinds of tokens of which the text matters. -/
def TokenKind.hasText : TokenKind → Bool
  | identifier => true
  | literal _ => true
  | _ => false

/- A token of the kind of a word, and of its text if it has one. -/
def Token.Says
    (t : Token)
    (w : Word) :
    Prop :=
  t.kind = w.kind ∧ (w.kind.hasText = true → t.text = w.text)

theorem Token.says_word
    (t : Token) :
    t.Says t.word :=
  ⟨rfl, fun _ => rfl⟩

/- The tokens left say some words in front of a rest. -/
def Cursor.Shows
    (c : Cursor)
    (words : List Word)
    (rest : List Token) :
    Prop :=
  ∃ tokens, c.rest = tokens ++ rest ∧
    List.Forall₂ Token.Says tokens words

namespace Cursor.Shows

variable {c : Cursor}
variable {w : Word}
variable {words : List Word}
variable {rest : List Token}

theorem of_nil
    (hShows : c.Shows [] rest) :
    c.rest = rest := by
  rcases hShows with ⟨tokens, hRest, hWords⟩
  rw [hRest, List.forall₂_nil_right_iff.mp hWords]
  rfl

theorem of_cons
    (hShows : c.Shows (w :: words) rest) :
    ∃ t tokens, c.rest = t :: (tokens ++ rest) ∧ t.Says w ∧
      List.Forall₂ Token.Says tokens words := by
  rcases hShows with ⟨tokens, hRest, hWords⟩
  rcases List.forall₂_cons_right_iff.mp hWords with
    ⟨t, others, hw, hOthers, rfl⟩
  exact ⟨t, others, hRest, hw, hOthers⟩

theorem split
    {more : List Word}
    (hShows : c.Shows (words ++ more) rest) :
    ∃ others, c.Shows words (others ++ rest) ∧
      List.Forall₂ Token.Says others more := by
  rcases hShows with ⟨tokens, hRest, hWords⟩
  refine ⟨tokens.drop words.length,
    ⟨tokens.take words.length, ?_, ?_⟩, ?_⟩
  · rw [hRest, ← List.append_assoc, List.take_append_drop]
  · exact List.forall₂_take_append tokens words more hWords
  · exact List.forall₂_drop_append tokens words more hWords

theorem kind_eq
    (hShows : c.Shows words rest) :
    c.kind = leading words (headKind rest) := by
  cases words with
  | nil =>
      rw [Cursor.kind, hShows.of_nil]
      cases rest <;> rfl
  | cons w words =>
      rcases hShows.of_cons with ⟨t, tokens, hRest, hSays, _⟩
      rw [Cursor.kind, hRest]
      exact hSays.1

theorem length_le
    (hShows : c.Shows words rest) :
    words.length ≤ c.rest.length := by
  rcases hShows with ⟨tokens, hRest, hWords⟩
  rw [hRest, List.length_append, hWords.length_eq]
  exact Nat.le_add_right _ _

end Cursor.Shows

namespace Parse

variable {α β : Type}
variable {P : α → Prop}
variable {Q : β → Prop}
variable {words more : List Word}
variable {next : TokenKind → Prop}

/-
  Where the tokens left say some words in front of a suitable
  kind, a parser reads just these, reports nothing, and gives
  a result with a property.
-/
def Takes
    (m : Parse α)
    (words : List Word)
    (next : TokenKind → Prop)
    (P : α → Prop) :
    Prop :=
  ∀ (c : Cursor) (rest : List Token), c.Shows words rest →
    next (headKind rest) →
    P (m c).1 ∧ (m c).2.rest = rest ∧ (m c).2.findings = c.findings

theorem takes_pure
    {a : α}
    (ha : P a) :
    Takes (pure a) [] next P :=
  fun _ _ hShows _ => ⟨ha, hShows.of_nil, rfl⟩

/- The second parser starts with what follows the first. -/
theorem Takes.bind
    {m : Parse α}
    {f : α → Parse β}
    {after : TokenKind → Prop}
    (hm : Takes m words after P)
    (hf : ∀ a, P a → Takes (f a) more next Q)
    (hNext : ∀ k, next k → after (leading more k)) :
    Takes (m >>= f) (words ++ more) next Q := by
  intro c rest hShows hRest
  rcases hShows.split with ⟨others, hFirst, hOthers⟩
  have hKind : headKind (others ++ rest) =
      leading more (headKind rest) := by
    cases hOthers with
    | nil => rfl
    | cons hSays _ => exact hSays.1
  rcases hm c (others ++ rest) hFirst (hKind ▸ hNext _ hRest) with
    ⟨ha, hLeft, hSame⟩
  rcases hf _ ha (m c).2 rest ⟨others, hLeft, hOthers⟩ hRest with
    ⟨hb, hEnd, hLast⟩
  exact ⟨hb, hEnd, hLast.trans hSame⟩

theorem Takes.imp
    {m : Parse α}
    {P' : α → Prop}
    (hm : Takes m words next P)
    (hP : ∀ a, P a → P' a) :
    Takes m words next P' := by
  intro c rest hShows hRest
  rcases hm c rest hShows hRest with ⟨ha, hLeft⟩
  exact ⟨hP _ ha, hLeft⟩

theorem Takes.weaken
    {m : Parse α}
    {after : TokenKind → Prop}
    (hm : Takes m words after P)
    (hNext : ∀ k, next k → after k) :
    Takes m words next P :=
  fun c rest hShows hRest => hm c rest hShows (hNext _ hRest)

/- A first step that reads nothing. -/
theorem Takes.peek
    {m : Parse α}
    {f : α → Parse β}
    {after : TokenKind → Prop}
    (hm : Takes m [] after P)
    (hf : ∀ a, P a → Takes (f a) words next Q)
    (hNext : ∀ k, next k → after (leading words k)) :
    Takes (m >>= f) words next Q :=
  hm.bind hf hNext

/- A first step that reads one word, whatever follows. -/
theorem Takes.cons
    {m : Parse α}
    {f : α → Parse β}
    {w : Word}
    (hm : Takes m [w] (fun _ => True) P)
    (hf : ∀ a, P a → Takes (f a) words next Q) :
    Takes (m >>= f) (w :: words) next Q :=
  hm.bind hf fun _ _ => trivial

/- A last step that reads nothing more. -/
theorem Takes.last
    {m : Parse α}
    {f : α → Parse β}
    (hm : Takes m words next P)
    (hf : ∀ a, P a → Takes (f a) [] next Q) :
    Takes (m >>= f) words next Q := by
  have hBoth := hm.bind hf (fun _ hk => hk)
  rwa [List.append_nil] at hBoth

theorem Takes.map
    {m : Parse α}
    {f : α → β}
    (hm : Takes m words next P)
    (hf : ∀ a, P a → Q (f a)) :
    Takes (do return f (← m)) words next Q :=
  hm.last fun a ha => takes_pure (hf a ha)

/- A look at the cursor before going on. -/
theorem takes_get
    {f : Cursor → Parse β}
    (hf : ∀ c rest, c.Shows words rest → next (headKind rest) →
      Takes (f c) words next Q) :
    Takes (get >>= f) words next Q :=
  fun c rest hShows hRest =>
    hf c rest hShows hRest c rest hShows hRest

theorem takes_kind
    {f : TokenKind → Parse β}
    (hf : ∀ k, next k → Takes (f (leading words k)) words next Q) :
    Takes (kind >>= f) words next Q := by
  intro c rest hShows hRest
  have hGoes := hf _ hRest c rest hShows hRest
  rw [← hShows.kind_eq] at hGoes
  exact hGoes

theorem takes_here
    {f : Span → Parse β}
    (hf : ∀ span, Takes (f span) words next Q) :
    Takes (here >>= f) words next Q :=
  takes_get fun c _ _ _ => hf c.here

theorem takes_since
    (start : Span) :
    Takes (since start) [] next (fun _ => True) :=
  fun _ _ hShows _ => ⟨trivial, hShows.of_nil, rfl⟩

theorem takes_exhaust :
    Takes exhaust [] next (fun _ => True) :=
  fun _ _ hShows _ => ⟨trivial, hShows.of_nil, rfl⟩

theorem takes_advance
    {w : Word}
    (hw : w.kind ≠ .endOfFile) :
    Takes advance [w] next (fun _ => True) := by
  intro c rest hShows _
  rcases hShows.of_cons with ⟨t, tokens, hRest, hSays, hTokens⟩
  have hAdvance : c.advance =
      { c with rest := tokens ++ rest, last := some t.span } := by
    rw [Cursor.advance, hRest]
    exact if_neg (hSays.1 ▸ hw)
  change True ∧ c.advance.rest = rest ∧
    c.advance.findings = c.findings
  rw [hAdvance, List.forall₂_nil_right_iff.mp hTokens]
  exact ⟨trivial, rfl, rfl⟩

theorem takes_eat
    {w : Word}
    (hw : w.kind ≠ .endOfFile) :
    Takes (eat w.kind) [w] next (· = true) := by
  apply takes_get
  intro c rest hShows hRest
  have hKind : c.kind = w.kind := hShows.kind_eq
  rw [hKind, decide_eq_true rfl]
  exact (takes_advance hw).map fun _ _ => rfl

/- A token of another kind is not read. -/
theorem takes_eat_other
    {kind : TokenKind} :
    Takes (eat kind) [] (· ≠ kind) (· = false) := by
  apply takes_get
  intro c rest hShows hRest
  have hKind : c.kind ≠ kind := hShows.kind_eq ▸ hRest
  rw [decide_eq_false hKind]
  exact takes_pure rfl

theorem takes_expect
    {w : Word}
    (hw : w.kind ≠ .endOfFile) :
    Takes (expect w.kind) [w] next (fun _ => True) := by
  apply (takes_eat hw).last
  rintro _ rfl
  exact takes_pure trivial

end Parse

end Gatework.Hdl

------------------------------------------------------------
-- Operands
------------------------------------------------------------

namespace Gatework.Hdl

namespace Parse

variable {exprAt : Nat → Parse Expr}
variable {P : Expr → Prop}
variable {words : List Word}
variable {next : TokenKind → Prop}

/-
  A kind of token that does not go on from an expression of
  operators of a power.
-/
def endsAt
    (power : Nat) :
    TokenKind → Bool
  | .symbol .question => decide (power ≠ 0)
  | .symbol .leftBracket => false
  | .symbol mark =>
      if mark.isRefused then
        decide (unaryPower ≤ power)
      else
        match BinaryOp.ofSymbol? mark with
        | some op => decide (op.power < power)
        | none => true
  | _ => true

/- What an expression inside of others ends in front of. -/
abbrev Ending
    (power : Nat)
    (k : TokenKind) :
    Prop :=
  endsAt power k = true

/- A look at the current token before going on. -/
theorem takes_token
    {α : Type}
    {Q : α → Prop}
    {w : Word}
    {absent : Parse α}
    {f : Token → Parse α}
    (hf : ∀ text span, (w.kind.hasText = true → text = w.text) →
      Takes (f ⟨w.kind, text, span⟩) (w :: words) next Q) :
    Takes
      (do
        match (← get).rest with
        | [] => absent
        | token :: _ => f token)
      (w :: words) next Q := by
  apply takes_get
  intro c rest hShows _
  rcases hShows.of_cons with
    ⟨⟨kind, text, span⟩, tokens, hRest, ⟨hKind, hText⟩, _⟩
  rw [hRest]
  cases hKind
  exact hf text span hText

theorem takes_expectName
    (n : String) :
    Takes expectName [.name n] next (· = n) := by
  have hStep : Takes advance [.name n] next (fun _ => True) :=
    takes_advance nofun
  apply takes_get
  intro c rest hShows _
  rcases hShows.of_cons with
    ⟨⟨kind, text, span⟩, tokens, hRest, ⟨hKind, hText⟩, _⟩
  cases hKind
  cases hText rfl
  rw [hRest]
  apply hStep.last
  intro _ _
  exact fun c rest hShows _ => ⟨rfl, hShows.of_nil, rfl⟩

theorem takes_operand_name
    (n : String) :
    Takes (operand exprAt) [.name n] next
      (fun e => ∃ span, e = .name n span) := by
  apply takes_here
  intro start
  apply takes_token
  intro _ _ _
  exact (takes_expectName n).map fun _ h => ⟨start, h ▸ rfl⟩

theorem takes_operand_literal
    (form : LiteralKind)
    (text : String) :
    Takes (operand exprAt) [⟨.literal form, text⟩] next
      (fun e => ∃ span, e = .literal form text span) := by
  apply takes_here
  intro start
  apply takes_token
  intro _ _ hText
  cases hText rfl
  have hStep : Takes advance [⟨.literal form, text⟩] next
      (fun _ => True) := takes_advance nofun
  exact hStep.map fun _ _ => ⟨start, rfl⟩

/- An expression between parentheses. -/
theorem takes_operand_paren
    (hInner : Takes (exprAt 0) words (Ending 0) P) :
    Takes (operand exprAt) (Word.parens words) next
      (fun e => ∃ inner span, e = .paren inner span ∧ P inner) := by
  apply takes_here
  intro start
  apply takes_token
  intro _ _ _
  have hClose : Takes (expect rparen) [.mark .rightParen] next
      (fun _ => True) := takes_expect nofun
  apply Takes.cons (@takes_advance _ (.mark .leftParen) nofun)
  intro _ _
  apply hInner.bind ?_ (fun _ _ => rfl)
  intro inner hP
  apply hClose.last
  intro _ _
  exact (takes_since start).map fun span _ => ⟨inner, span, rfl, hP⟩

/- An operator in front of its operand. -/
theorem takes_operand_unary
    {s : Symbol}
    {op : UnaryOp}
    (hOp : UnaryOp.ofSymbol? s = some op)
    (hInner : Takes (exprAt unaryPower) words next P) :
    Takes (operand exprAt) (.mark s :: words) next
      (fun e => ∃ inner span, e = .unary op inner span ∧ P inner) := by
  apply takes_here
  intro start
  apply takes_token
  intro _ _ _
  have hUnary : Takes (unary exprAt start op) (.mark s :: words) next
      (fun e => ∃ inner span, e = .unary op inner span ∧ P inner) := by
    apply Takes.cons (@takes_advance _ (.mark s) nofun)
    intro _ _
    exact hInner.map fun inner hP => ⟨inner, _, rfl, hP⟩
  cases s
  all_goals cases hOp
  all_goals exact hUnary

theorem takes_afterCommas_nil
    {item : Parse Expr}
    (fuel : Nat) :
    Takes (afterCommas item fuel) [] (· ≠ .symbol .comma)
      (· = []) := by
  cases fuel with
  | zero =>
      apply takes_exhaust.last
      intro _ _
      exact takes_pure rfl
  | succ fuel =>
      apply takes_eat_other.last
      rintro _ rfl
      exact takes_pure rfl

/- One more item behind a comma. -/
theorem takes_afterCommas_cons
    {item : Parse Expr}
    {after : TokenKind → Prop}
    {more : List Word}
    {R : List Expr → Prop}
    {fuel : Nat}
    (hItem : Takes item words after P)
    (hMore : Takes (afterCommas item fuel) more next R)
    (hNext : ∀ k, next k → after (leading more k)) :
    Takes (afterCommas item (fuel + 1))
      (.mark .comma :: (words ++ more)) next
      (fun es => ∃ e es', es = e :: es' ∧ P e ∧ R es') := by
  apply Takes.cons (@takes_eat _ (.mark .comma) nofun)
  rintro _ rfl
  apply hItem.bind ?_ hNext
  intro e he
  exact hMore.map fun es' hes' => ⟨e, es', rfl, he, hes'⟩

section

variable {more : List Word}
variable {R : List Expr → Prop}
variable (hFirst : Takes (exprAt 0) words (Ending 0) P)
variable (hStart : ∀ k, leading words k ≠ rbrace)
variable (hMore : ∀ fuel, more.length ≤ fuel →
  Takes (afterCommas (exprAt 0) fuel) more (· = rbrace) R)
variable (hNext : leading more rbrace = .symbol .comma ∨
  leading more rbrace = rbrace)

include hFirst hStart hMore hNext

/- Parts between braces, of which the first starts with none. -/
theorem takes_braces :
    Takes (braces (exprAt 0))
      (.mark .leftBrace :: (words ++ (more ++ [.mark .rightBrace])))
      next
      (fun e => ∃ first others span,
        e = .concat (first :: others) span ∧
          P first ∧ R others) := by
  have hAfter : ∀ k,
      leading (more ++ [.mark .rightBrace]) k = .symbol .comma ∨
      leading (more ++ [.mark .rightBrace]) k = rbrace := by
    intro k
    rw [leading_append]
    exact hNext
  have hEnds : ∀ k,
      leading (more ++ [.mark .rightBrace]) k ≠ lbrace ∧
      Ending 0 (leading (more ++ [.mark .rightBrace]) k) := by
    intro k
    rcases hAfter k with hKind | hKind
    · rw [hKind]
      exact ⟨nofun, rfl⟩
    · rw [hKind]
      exact ⟨nofun, rfl⟩
  have hClose : Takes (expect rbrace) [.mark .rightBrace] next
      (fun _ => True) := @takes_expect _ (.mark .rightBrace) nofun
  apply takes_here
  intro start
  apply Takes.cons (@takes_expect _ (.mark .leftBrace) nofun)
  intro _ _
  apply takes_eat_other.peek
  · rintro _ rfl
    apply hFirst.bind ?_ (fun k _ => (hEnds k).2)
    intro first hP
    apply takes_eat_other.peek ?_ (fun k _ => (hEnds k).1)
    rintro _ rfl
    apply takes_get
    intro c rest hShows _
    have hLength := hShows.length_le
    rw [List.length_append] at hLength
    apply (hMore c.rest.length (by omega)).bind ?_ (fun _ _ => rfl)
    intro others hR
    apply hClose.last
    intro _ _
    exact (takes_since start).map fun span _ =>
      ⟨first, others, span, rfl, hP, hR⟩
  · intro k _
    rw [leading_append]
    exact hStart _

theorem takes_operand_braces :
    Takes (operand exprAt) (Word.braced (words ++ more)) next
      (fun e => ∃ first others span,
        e = .concat (first :: others) span ∧
          P first ∧ R others) := by
  rw [Word.braced, List.cons_append, List.append_assoc]
  apply takes_here
  intro start
  apply takes_token
  intro _ _ _
  exact takes_braces hFirst hStart hMore hNext

end

end Parse

end Gatework.Hdl

------------------------------------------------------------
-- Operators and selects
------------------------------------------------------------

namespace Gatework.Hdl

namespace Parse

variable {exprAt : Nat → Parse Expr}
variable {power : Nat}
variable {left : Expr}
variable {P Q : Expr → Prop}
variable {words more : List Word}
variable {next after : TokenKind → Prop}

/- A step that goes on to an expression with a property. -/
def Step.Grows
    (P : Expr → Prop) :
    Step → Prop
  | .grown e => P e
  | .done => False

theorem Step.Grows.imp
    {step : Step}
    (hStep : step.Grows P)
    (hP : ∀ e, P e → Q e) :
    step.Grows Q := by
  cases step with
  | grown e => exact hP e hStep
  | done => exact hStep

/- A token that does not go on from an expression is left. -/
theorem takes_extend_stop :
    Takes (extend exprAt power left) [] (Ending power)
      (· = .done) := by
  apply takes_kind
  intro k hk
  rw [leading]
  split
  case h_1 =>
      rw [if_neg (of_decide_eq_true hk)]
      exact takes_pure rfl
  case h_2 => cases hk
  case h_3 mark hQuestion hBracket =>
      rw [Ending, endsAt] at hk
      · cases hRefused : mark.isRefused with
        | true =>
            rw [hRefused, if_pos rfl] at hk
            have hHigh := Nat.not_lt.mpr (of_decide_eq_true hk)
            rw [if_pos rfl, if_neg hHigh]
            exact takes_pure rfl
        | false =>
            rw [hRefused, if_neg Bool.false_ne_true] at hk
            rw [if_neg Bool.false_ne_true]
            cases hOp : BinaryOp.ofSymbol? mark with
            | some op =>
                rw [hOp] at hk
                dsimp only at hk ⊢
                rw [if_pos (of_decide_eq_true hk)]
                exact takes_pure rfl
            | none => exact takes_pure rfl
      · exact hQuestion
      · exact hBracket
  case h_4 => exact takes_pure rfl

theorem takes_extendAll_stop
    (hLeft : P left)
    (n : Nat) :
    Takes (extendAll exprAt power n left) [] (Ending power) P := by
  cases n with
  | zero =>
      apply takes_exhaust.last
      intro _ _
      exact takes_pure hLeft
  | succ n =>
      apply takes_extend_stop.last
      rintro _ rfl
      exact takes_pure hLeft

theorem takes_extendAll_grown
    {n : Nat}
    (hStep : Takes (extend exprAt power left) words after
      (Step.Grows P))
    (hMore : ∀ e, P e →
      Takes (extendAll exprAt power n e) more next Q)
    (hNext : ∀ k, next k → after (leading more k)) :
    Takes (extendAll exprAt power (n + 1) left) (words ++ more)
      next Q := by
  apply hStep.bind ?_ hNext
  intro step hGrows
  cases step with
  | grown e => exact hMore e hGrows
  | done => exact hGrows.elim

/- One step and nothing behind it. -/
theorem takes_extendAll_last
    {n : Nat}
    (hStep : Takes (extend exprAt power left) words (Ending power)
      (Step.Grows P)) :
    Takes (extendAll exprAt power (n + 1) left) words
      (Ending power) P := by
  have hBoth := takes_extendAll_grown hStep
    (fun e he => takes_extendAll_stop he n) (fun _ hk => hk)
  rwa [List.append_nil] at hBoth

/- An operator and its right operand. -/
theorem takes_extend_binary
    {s : Symbol}
    {op : BinaryOp}
    (hOp : BinaryOp.ofSymbol? s = some op)
    (hPower : power ≤ op.power)
    (hRight : Takes (exprAt (op.power + 1)) words next P) :
    Takes (extend exprAt power left) (.mark s :: words) next
      (Step.Grows fun e => ∃ right span,
        e = .binary left op right span ∧ P right) := by
  apply takes_kind
  intro k _
  have hBoth : Takes
      (do
        advance
        let right ← exprAt (op.power + 1)
        return Step.grown
          (.binary left op right (left.span.merge right.span)))
      (.mark s :: words) next
      (Step.Grows fun e => ∃ right span,
        e = .binary left op right span ∧ P right) := by
    apply Takes.cons (@takes_advance _ (.mark s) nofun)
    intro _ _
    exact hRight.map fun right hP => ⟨right, _, rfl, hP⟩
  have hLow : ¬ op.power < power := Nat.not_lt.mpr hPower
  cases s
  all_goals cases hOp
  all_goals
    change Takes (if BinaryOp.power _ < power then _ else _) _ _ _
    rw [if_neg hLow]
    exact hBoth

/- The two values of a choice, which only stands outside. -/
theorem takes_extend_choice
    (hTrue : Takes (exprAt 0) words (Ending 0) P)
    (hFalse : Takes (exprAt 0) more next Q) :
    Takes (extend exprAt 0 left)
      (.mark .question :: (words ++ .mark .colon :: more)) next
      (Step.Grows fun e => ∃ ifTrue ifFalse span,
        e = .ternary left ifTrue ifFalse span ∧
          P ifTrue ∧ Q ifFalse) := by
  have hChoice : Takes (choice exprAt left)
      (.mark .question :: (words ++ .mark .colon :: more)) next
      (fun e => ∃ ifTrue ifFalse span,
        e = .ternary left ifTrue ifFalse span ∧
          P ifTrue ∧ Q ifFalse) := by
    apply Takes.cons (@takes_advance _ (.mark .question) nofun)
    intro _ _
    apply hTrue.bind ?_ (fun _ _ => rfl)
    intro ifTrue hP
    apply Takes.cons (@takes_expect _ (.mark .colon) nofun)
    intro _ _
    exact hFalse.map fun ifFalse hQ =>
      ⟨ifTrue, ifFalse, _, rfl, hP, hQ⟩
  apply takes_kind
  intro k _
  exact hChoice.map fun _ he => he

/- A select of one bit. -/
theorem takes_extend_index
    (hIndex : Takes (exprAt 0) words (Ending 0) P) :
    Takes (extend exprAt power left) (Word.bracketed words) next
      (Step.Grows fun e => ∃ index span,
        e = .index left index span ∧ P index) := by
  have hClose : Takes (expect rbracket) [.mark .rightBracket] next
      (fun _ => True) := @takes_expect _ (.mark .rightBracket) nofun
  have hColon : Takes (ifEaten colon (exprAt 0)) [] (· ≠ colon)
      (· = none) := by
    apply takes_eat_other.last
    rintro _ rfl
    exact takes_pure rfl
  have hSelect : Takes (select (exprAt 0) left)
      (Word.bracketed words) next
      (fun e => ∃ index span,
        e = .index left index span ∧ P index) := by
    apply Takes.cons (@takes_expect _ (.mark .leftBracket) nofun)
    intro _ _
    apply hIndex.bind ?_ (fun _ _ => rfl)
    intro index hP
    apply hColon.peek
    · rintro _ rfl
      apply hClose.last
      intro _ _
      exact (takes_since _).map fun span _ => ⟨index, span, rfl, hP⟩
    · exact fun _ _ => nofun
  apply takes_kind
  intro k _
  exact hSelect.map fun _ he => he

/- A select of neighbouring bits. -/
theorem takes_extend_slice
    (hMsb : Takes (exprAt 0) words (Ending 0) P)
    (hLsb : Takes (exprAt 0) more (Ending 0) Q) :
    Takes (extend exprAt power left)
      (Word.bracketed (words ++ .mark .colon :: more)) next
      (Step.Grows fun e => ∃ msb lsb span,
        e = .slice left msb lsb span ∧ P msb ∧ Q lsb) := by
  have hClose : Takes (expect rbracket) [.mark .rightBracket] next
      (fun _ => True) := @takes_expect _ (.mark .rightBracket) nofun
  have hColon : Takes (ifEaten colon (exprAt 0))
      (.mark .colon :: more) (Ending 0)
      (fun found => ∃ lsb, found = some lsb ∧ Q lsb) := by
    apply Takes.cons (@takes_eat _ (.mark .colon) nofun)
    rintro _ rfl
    exact hLsb.map fun lsb hQ => ⟨lsb, rfl, hQ⟩
  have hInner : Takes (select (exprAt 0) left)
      (.mark .leftBracket :: (words ++ (.mark .colon :: more ++
        [.mark .rightBracket]))) next
      (fun e => ∃ msb lsb span,
        e = .slice left msb lsb span ∧ P msb ∧ Q lsb) := by
    apply Takes.cons (@takes_expect _ (.mark .leftBracket) nofun)
    intro _ _
    apply hMsb.bind ?_ (fun _ _ => rfl)
    intro msb hP
    apply hColon.bind ?_ (fun _ _ => rfl)
    rintro _ ⟨lsb, rfl, hQ⟩
    apply hClose.last
    intro _ _
    exact (takes_since _).map fun span _ =>
      ⟨msb, lsb, span, rfl, hP, hQ⟩
  have hSelect : Takes (select (exprAt 0) left)
      (Word.bracketed (words ++ .mark .colon :: more)) next
      (fun e => ∃ msb lsb span,
        e = .slice left msb lsb span ∧ P msb ∧ Q lsb) := by
    rw [Word.bracketed, List.cons_append, List.append_assoc]
    exact hInner
  apply takes_kind
  intro k _
  exact hSelect.map fun _ he => he

end Parse

end Gatework.Hdl
