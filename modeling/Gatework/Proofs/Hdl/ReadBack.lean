import Gatework.Hdl.Parser.File
import Gatework.Proofs.Hdl.Printed
import Gatework.Proofs.Hdl.Takes

/-
  Printed expressions are parsed to their own trees.

  The infix form of an expression is read back whole, with
  its parentheses and with the negated gates as complements.
  Every operand is followed by a token that ends it or by the
  operator it stands in front of, so the powers of operators
  never regroup what was printed.

  Key definitions include:
    * `Expr.ReadsAs`

  Key theorems include:
    * `Hdl.Parse.takes_exprAt`
    * `Hdl.Parse.expression_verilog`
-/

------------------------------------------------------------
-- Trees of printed expressions
------------------------------------------------------------

namespace Gatework

/- The operator between the operands of a gate. -/
def GateOp.operator : GateOp → Hdl.BinaryOp
  | and | nand => .bitAnd
  | or | nor => .bitOr
  | xor | xnor => .bitXor

def CmpOp.operator : CmpOp → Hdl.BinaryOp
  | eq => .eq
  | neq => .neq

theorem GateOp.ofSymbol?_sign
    (op : GateOp) :
    Hdl.BinaryOp.ofSymbol? op.sign = some op.operator := by
  cases op <;> rfl

theorem CmpOp.ofSymbol?_sign
    (op : CmpOp) :
    Hdl.BinaryOp.ofSymbol? op.sign = some op.operator := by
  cases op <;> rfl

namespace Hdl.Expr

/- An operator between two trees, in parentheses. -/
def IsBetween
    (op : BinaryOp)
    (P Q : Expr → Prop)
    (e : Expr) :
    Prop :=
  ∃ l r inner outer, e = .paren (.binary l op r inner) outer ∧
    P l ∧ Q r

/- The complement of a tree. -/
def IsComplement
    (P : Expr → Prop)
    (e : Expr) :
    Prop :=
  ∃ x span, e = .unary .bitNot x span ∧ P x

/- A number without a radix. -/
def IsInt
    (n : Nat)
    (e : Expr) :
    Prop :=
  ∃ span, e = .literal .int (toString n) span

end Hdl.Expr

namespace Expr

mutual

/-
  What the infix form of an expression reads back as, apart
  from places.
-/
def ReadsAs : Expr → Hdl.Expr → Prop
  | const _ c, e => ∃ span, e = .literal .based c.verilog span
  | var _ v, e => ∃ span, e = .name v.name span
  | not _ x, e =>
      ∃ inner span, e = .paren inner span ∧
        inner.IsComplement (ReadsAs x)
  | gate _ op a b, e =>
      if op.isNegated then
        e.IsComplement
          (·.IsBetween op.operator (ReadsAs a) (ReadsAs b))
      else
        e.IsBetween op.operator (ReadsAs a) (ReadsAs b)
  | compare _ op a b, e =>
      e.IsBetween op.operator (ReadsAs a) (ReadsAs b)
  | mux _ s t f, e =>
      ∃ c x y inner outer, e = .paren (.ternary c x y inner) outer ∧
        ReadsAs s c ∧ ReadsAs t x ∧ ReadsAs f y
  | bit _ b i, e =>
      ∃ base index span, e = .index base index span ∧
        ReadsAs b base ∧ index.IsInt i
  | part _ b m l, e =>
      ∃ base msb lsb span, e = .slice base msb lsb span ∧
        ReadsAs b base ∧ msb.IsInt m ∧ lsb.IsInt l
  | concat _ parts, e =>
      ∃ es span, e = .concat es span ∧ ReadsAsAll parts es

def ReadsAsAll : List Expr → List Hdl.Expr → Prop
  | [], es => es = []
  | p :: ps, es =>
      ∃ e es', es = e :: es' ∧ ReadsAs p e ∧ ReadsAsAll ps es'

end

/- The first word of a printed expression. -/
theorem leading_words
    (e : Expr)
    (k : Hdl.TokenKind) :
    Hdl.leading e.words k ≠ Hdl.Parse.rbrace := by
  induction e generalizing k with
  | const m c => rintro ⟨⟩
  | var m v => rintro ⟨⟩
  | not m x => rintro ⟨⟩
  | gate m op a b =>
      rw [words]
      cases op.isNegated with
      | true => rintro ⟨⟩
      | false => rintro ⟨⟩
  | compare m op a b => rintro ⟨⟩
  | mux m s t f => rintro ⟨⟩
  | bit m b i ih =>
      rw [words, Hdl.leading_append]
      exact ih _
  | part m b h l ih =>
      rw [words, Hdl.leading_append]
      exact ih _
  | concat m parts => rintro ⟨⟩

theorem length_words_pos
    (e : Expr) :
    0 < e.words.length := by
  apply List.length_pos_iff.mpr
  intro hNil
  have hLeading := leading_words e Hdl.Parse.rbrace
  rw [hNil] at hLeading
  exact hLeading rfl

end Expr

end Gatework

------------------------------------------------------------
-- Reading
------------------------------------------------------------

namespace Gatework.Hdl

namespace Parse

variable {α : Type}
variable {P Q : Expr → Prop}
variable {words more : List Word}
variable {next : TokenKind → Prop}
variable {fuel power : Nat}

/- What ends an expression ends its operands as well. -/
theorem Ending.mono
    {k : TokenKind}
    (hk : Ending 0 k)
    (power : Nat) :
    Ending power k := by
  cases k with
  | symbol mark =>
      cases mark
      all_goals first | rfl | cases hk
  | _ => rfl

theorem Ending.ne_lbracket
    {k : TokenKind}
    (hk : Ending power k) :
    k ≠ lbracket := by
  rintro rfl
  cases hk

/- Nothing but a select goes on from behind a complement. -/
theorem ending_unaryPower
    {k : TokenKind}
    (hk : k ≠ lbracket) :
    Ending unaryPower k := by
  cases k with
  | symbol mark =>
      cases mark
      case leftBracket => exact absurd rfl hk
      all_goals rfl
  | _ => rfl

/- An expression that ends behind its operand. -/
theorem takes_exprAt_operand
    (hLeft : Takes (operand (exprAt fuel)) words
      (· ≠ lbracket) P) :
    Takes (exprAt (fuel + 1) power) words (Ending power) P := by
  apply (hLeft.weaken fun _ hk => hk.ne_lbracket).last
  intro left hP
  exact takes_extendAll_stop hP fuel

theorem takes_exprAt_int
    (n : Nat) :
    Takes (exprAt (fuel + 1) power) [.int n] (Ending power)
      (·.IsInt n) :=
  takes_exprAt_operand (takes_operand_literal .int (toString n))

/-
  A printed expression is read up to where it ends, and its
  tree is the left operand of whatever goes on from it. The
  fuel left for that is that of the expression but for one
  step, which a select takes.
-/
def ReadsBack
    (e : Gatework.Expr) :
    Prop :=
  ∀ fuel power more next Q, e.words.length ≤ fuel + 1 →
    (∀ k, next k → leading more k ≠ lbracket) →
    (∀ left n, e.ReadsAs left → fuel ≤ n + 1 →
      Takes (extendAll (exprAt fuel) power n left) more next Q) →
    Takes (exprAt (fuel + 1) power) (e.words ++ more) next Q

variable {e a b c : Gatework.Expr}

/- An expression that is one operand. -/
theorem readsBack_of_operand
    (hOperand : ∀ fuel, e.words.length ≤ fuel + 1 →
      Takes (operand (exprAt fuel)) e.words (· ≠ lbracket)
        e.ReadsAs) :
    ReadsBack e := by
  intro fuel power more next Q hFuel hNext hMore
  apply (hOperand fuel hFuel).bind ?_ hNext
  intro left hLeft
  exact hMore left fuel hLeft (Nat.le_succ fuel)

/- A printed expression alone. -/
theorem ReadsBack.whole
    (he : ReadsBack e)
    (hFuel : e.words.length ≤ fuel) :
    Takes (exprAt fuel power) e.words (Ending power) e.ReadsAs := by
  have hSome := e.length_words_pos
  cases fuel with
  | zero => omega
  | succ fuel =>
      have hRead := he fuel power [] (Ending power) e.ReadsAs hFuel
        (fun _ hk => hk.ne_lbracket)
        (fun left n hLeft _ => takes_extendAll_stop hLeft n)
      rwa [List.append_nil] at hRead

/- Two printed expressions with an operator between them. -/
theorem ReadsBack.binary
    (ha : ReadsBack a)
    (hb : ReadsBack b)
    {s : Symbol}
    {op : BinaryOp}
    (hOp : BinaryOp.ofSymbol? s = some op)
    (hFuel : (a.words ++ .mark s :: b.words).length ≤ fuel) :
    Takes (exprAt fuel 0) (a.words ++ .mark s :: b.words) (Ending 0)
      (fun e => ∃ l r span, e = .binary l op r span ∧
        a.ReadsAs l ∧ b.ReadsAs r) := by
  have hLeft := a.length_words_pos
  have hRight := b.length_words_pos
  rw [List.length_append, List.length_cons] at hFuel
  cases fuel with
  | zero => omega
  | succ fuel =>
      apply ha fuel 0 _ _ _ (by omega)
      · intro k _
        cases s
        all_goals cases hOp
        all_goals exact nofun
      · intro left n hl hn
        have hOperand : Takes (exprAt fuel (op.power + 1)) b.words
            (Ending 0) b.ReadsAs :=
          (hb.whole (by omega)).weaken fun _ hk => hk.mono _
        cases n with
        | zero => omega
        | succ n =>
            apply (takes_extendAll_last (takes_extend_binary hOp
              (Nat.zero_le _) hOperand)).imp
            rintro _ ⟨right, span, rfl, hr⟩
            exact ⟨left, right, span, rfl, hl, hr⟩

theorem ReadsBack.between
    (ha : ReadsBack a)
    (hb : ReadsBack b)
    {s : Symbol}
    {op : BinaryOp}
    (hOp : BinaryOp.ofSymbol? s = some op)
    (hFuel : (a.words ++ .mark s :: b.words).length ≤ fuel) :
    Takes (operand (exprAt fuel))
      (Word.parens (a.words ++ .mark s :: b.words)) next
      (·.IsBetween op a.ReadsAs b.ReadsAs) := by
  apply (takes_operand_paren (ha.binary hb hOp hFuel)).imp
  rintro _ ⟨_, outer, rfl, l, r, inner, rfl, hl, hr⟩
  exact ⟨l, r, inner, outer, rfl, hl, hr⟩

/- Three printed expressions as a choice. -/
theorem ReadsBack.ternary
    (ha : ReadsBack a)
    (hb : ReadsBack b)
    (hc : ReadsBack c)
    (hFuel : (a.words ++ .mark .question ::
      (b.words ++ .mark .colon :: c.words)).length ≤ fuel) :
    Takes (exprAt fuel 0)
      (a.words ++ .mark .question ::
        (b.words ++ .mark .colon :: c.words)) (Ending 0)
      (fun e => ∃ s t f span, e = .ternary s t f span ∧
        a.ReadsAs s ∧ b.ReadsAs t ∧ c.ReadsAs f) := by
  have hCond := a.length_words_pos
  have hTrue := b.length_words_pos
  simp only [List.length_append, List.length_cons] at hFuel
  cases fuel with
  | zero => omega
  | succ fuel =>
      have hFirst : Takes (exprAt fuel 0) b.words (Ending 0)
          b.ReadsAs := hb.whole (by omega)
      have hSecond : Takes (exprAt fuel 0) c.words (Ending 0)
          c.ReadsAs := hc.whole (by omega)
      apply ha fuel 0 _ _ _ (by omega)
      · exact fun _ _ => nofun
      · intro cond n hs hn
        cases n with
        | zero => omega
        | succ n =>
            apply (takes_extendAll_last
              (takes_extend_choice hFirst hSecond)).imp
            rintro _ ⟨t, f, span, rfl, ht, hf⟩
            exact ⟨cond, t, f, span, rfl, hs, ht, hf⟩

theorem takes_complement
    (hInner : Takes (exprAt fuel unaryPower) words
      (Ending unaryPower) P) :
    Takes (operand (exprAt fuel)) (.mark .tilde :: words)
      (· ≠ lbracket) (·.IsComplement P) :=
  takes_operand_unary rfl
    (hInner.weaken fun _ hk => ending_unaryPower hk)

/- A name with a select behind it. -/
theorem readsBack_of_select
    {n : String}
    {words : List Word}
    (hWords : e.words = .name n :: words)
    (hSome : 0 < words.length)
    (hSelect : ∀ fuel power (base : Expr), words.length ≤ fuel →
      (∃ span, base = .name n span) →
      Takes (extend (exprAt fuel) power base) words
        (fun _ => True) (Step.Grows e.ReadsAs)) :
    ReadsBack e := by
  intro fuel power more next Q hFuel hNext hMore
  rw [hWords, List.length_cons] at hFuel
  cases fuel with
  | zero => omega
  | succ fuel =>
      rw [hWords, List.cons_append]
      apply Takes.cons (takes_operand_name n)
      intro base hBase
      apply takes_extendAll_grown
        (hSelect _ power base (by omega) hBase) ?_
        (fun _ _ => trivial)
      intro left hLeft
      exact hMore left fuel hLeft (Nat.le_refl _)

/- Parts behind commas, up to the closing brace. -/
theorem takes_afterCommas_parts
    {parts : List Gatework.Expr}
    (hEach : ∀ p ∈ parts, ReadsBack p)
    (hFuel : (Gatework.Expr.wordsAfter parts).length ≤ fuel)
    {count : Nat}
    (hCount : (Gatework.Expr.wordsAfter parts).length ≤ count) :
    Takes (afterCommas (exprAt fuel 0) count)
      (Gatework.Expr.wordsAfter parts) (· = rbrace)
      (Gatework.Expr.ReadsAsAll parts) := by
  induction parts generalizing count with
  | nil =>
      apply (takes_afterCommas_nil count).weaken
      rintro _ rfl
      exact nofun
  | cons p ps ih =>
      rw [List.forall_mem_cons] at hEach
      rw [Gatework.Expr.wordsAfter, List.cons_append,
        List.length_cons, List.length_append] at hFuel hCount
      cases count with
      | zero => omega
      | succ count =>
          have hItem : Takes (exprAt fuel 0) p.words (Ending 0)
              p.ReadsAs := hEach.1.whole (by omega)
          have hLater := @ih hEach.2 (by omega) count (by omega)
          rw [Gatework.Expr.wordsAfter, List.cons_append]
          apply takes_afterCommas_cons hItem hLater
          rintro _ rfl
          cases ps with
          | nil => rfl
          | cons q ps => rfl

/- A gate, which is a complement if it is a negated one. -/
theorem ReadsBack.gate
    (ha : ReadsBack a)
    (hb : ReadsBack b)
    (m : Mark)
    (op : GateOp) :
    ReadsBack (.gate m op a b) := by
  have hTree : (Gatework.Expr.gate m op a b).ReadsAs = fun e =>
      if op.isNegated then
        e.IsComplement (·.IsBetween op.operator a.ReadsAs b.ReadsAs)
      else
        e.IsBetween op.operator a.ReadsAs b.ReadsAs := by
    funext e
    rw [Gatework.Expr.ReadsAs]
  apply readsBack_of_operand
  intro fuel hFuel
  rw [Gatework.Expr.words] at hFuel
  rw [Gatework.Expr.words, hTree]
  cases hNegated : op.isNegated with
  | true =>
      simp [hNegated, Word.parens] at hFuel
      cases fuel with
      | zero => omega
      | succ fuel =>
          apply takes_complement
          apply takes_exprAt_operand
          apply ha.between hb op.ofSymbol?_sign
          simp
          omega
  | false =>
      simp [hNegated, Word.parens] at hFuel
      apply ha.between hb op.ofSymbol?_sign
      simp
      omega

/- Parts between braces. -/
theorem ReadsBack.concat
    {parts : List Gatework.Expr}
    (ha : ReadsBack a)
    (hEach : ∀ p ∈ parts, ReadsBack p)
    (m : Mark) :
    ReadsBack (.concat m (a :: parts)) := by
  have hWords : (Gatework.Expr.concat m (a :: parts)).words =
      Word.braced (a.words ++ Gatework.Expr.wordsAfter parts) := by
    rw [Gatework.Expr.words, Gatework.Expr.wordsAfter]
    rfl
  apply readsBack_of_operand
  intro fuel hFuel
  rw [hWords] at hFuel ⊢
  simp [Word.braced] at hFuel
  have hFirst : Takes (exprAt fuel 0) a.words (Ending 0)
      a.ReadsAs := ha.whole (by omega)
  have hNext : leading (Gatework.Expr.wordsAfter parts) rbrace =
      .symbol .comma ∨
      leading (Gatework.Expr.wordsAfter parts) rbrace = rbrace := by
    cases parts with
    | nil => exact Or.inr rfl
    | cons p ps => exact Or.inl rfl
  apply (takes_operand_braces hFirst a.leading_words
    (fun _ hCount => takes_afterCommas_parts hEach (by omega) hCount)
    hNext).imp
  rintro _ ⟨first, others, span, rfl, hf, ho⟩
  exact ⟨first :: others, span, rfl, first, others, rfl, hf, ho⟩

/-
  Every plain expression that passes its checks reads back:
  by induction on the expression, with one step for each form
  of text.
-/
theorem readsBack_of_typed
    {Γ : Var → Prop}
    (hTyped : e.Typed Γ)
    (hPlain : e.isPlain = true) :
    ReadsBack e := by
  induction e with
  | const m c =>
      apply readsBack_of_operand
      intro fuel _
      exact takes_operand_literal .based c.verilog
  | var m v =>
      apply readsBack_of_operand
      intro fuel _
      exact takes_operand_name v.name
  | not m x ih =>
      apply readsBack_of_operand
      intro fuel hFuel
      simp only [Gatework.Expr.words, Word.parens, List.length_append,
        List.length_cons] at hFuel
      cases fuel with
      | zero => omega
      | succ fuel =>
          apply takes_operand_paren
          apply takes_exprAt_operand
          apply takes_complement
          exact (ih hTyped.1 hPlain).whole (by omega)
  | gate m op a b iha ihb =>
      rcases Bool.and_eq_true_iff.mp hPlain with ⟨ha, hb⟩
      exact (iha hTyped.1 ha).gate (ihb hTyped.2.1 hb) m op
  | compare m op a b iha ihb =>
      rcases Bool.and_eq_true_iff.mp hPlain with ⟨ha, hb⟩
      apply readsBack_of_operand
      intro fuel hFuel
      apply (iha hTyped.1 ha).between (ihb hTyped.2.1 hb)
        op.ofSymbol?_sign
      simp [Gatework.Expr.words, Word.parens] at hFuel ⊢
      omega
  | mux m s t f ihs iht ihf =>
      simp only [Gatework.Expr.isPlain, Bool.and_eq_true] at hPlain
      rcases hPlain with ⟨⟨hs, ht⟩, hf⟩
      apply readsBack_of_operand
      intro fuel hFuel
      apply (takes_operand_paren ((ihs hTyped.1 hs).ternary
        (iht hTyped.2.1 ht) (ihf hTyped.2.2.1 hf) ?_)).imp
      · rintro _ ⟨_, outer, rfl, c, x, y, inner, rfl, hc, hx, hy⟩
        exact ⟨c, x, y, inner, outer, rfl, hc, hx, hy⟩
      · simp [Gatework.Expr.words, Word.parens] at hFuel ⊢
        omega
  | bit m b i ih =>
      cases b with
      | var n v =>
          apply readsBack_of_select rfl (by simp [Word.bracketed])
          intro fuel power base hFuel hBase
          cases fuel with
          | zero => cases hFuel
          | succ fuel =>
              apply (takes_extend_index (takes_exprAt_int i)).imp
              intro step hStep
              apply hStep.imp
              rintro _ ⟨index, span, rfl, hIndex⟩
              exact ⟨base, index, span, rfl, hBase, hIndex⟩
      | _ => cases hPlain
  | part m b h l ih =>
      cases b with
      | var n v =>
          apply readsBack_of_select rfl (by simp [Word.bracketed])
          intro fuel power base hFuel hBase
          cases fuel with
          | zero => cases hFuel
          | succ fuel =>
              apply (takes_extend_slice (takes_exprAt_int h)
                (takes_exprAt_int l)).imp
              intro step hStep
              apply hStep.imp
              rintro _ ⟨msb, lsb, span, rfl, hMsb, hLsb⟩
              exact ⟨base, msb, lsb, span, rfl, hBase, hMsb, hLsb⟩
      | _ => cases hPlain
  | concat m parts ih =>
      rcases hTyped with ⟨hAll, hSome, _⟩
      have hEach : ∀ p ∈ parts, ReadsBack p := fun p hp =>
        ih p hp (Gatework.Expr.typedAll_iff.mp hAll p hp)
          (Gatework.Expr.isPlainAll_iff.mp hPlain p hp)
      cases parts with
      | nil => exact absurd rfl hSome
      | cons p ps =>
          rw [List.forall_mem_cons] at hEach
          exact hEach.1.concat hEach.2 m

theorem takes_expression
    {Γ : Var → Prop}
    (hTyped : e.Typed Γ)
    (hPlain : e.isPlain = true) :
    Takes expression e.words (Ending 0) e.ReadsAs := by
  apply takes_get
  intro c rest hShows _
  apply (readsBack_of_typed hTyped hPlain).whole
  exact Nat.le_succ_of_le hShows.length_le

/-
  From the tokens of a printed expression all are read but the
  end of the file, and nothing is reported.
-/
theorem expression_verilog
    {Γ : Var → Prop}
    (hTyped : e.Typed Γ)
    (hPlain : e.isPlain = true)
    {file : Option Nat}
    (start : Cursor)
    (hStart : start.rest = (lex file e.verilog).tokens) :
    e.ReadsAs (expression start).1 ∧
      (expression start).2.rest.map Token.word = [.stop] ∧
      (expression start).2.findings = start.findings := by
  have hLexed := (Gatework.Expr.lex_verilog hPlain file).1
  rw [← hStart] at hLexed
  rcases List.map_eq_append_iff.mp hLexed with
    ⟨tokens, rest, hTokens, hWords, hRest⟩
  have hStop : headKind rest = .endOfFile := by
    rcases List.map_eq_singleton_iff.mp hRest with ⟨t, rfl, ht⟩
    exact congrArg Word.kind ht
  have hSays : List.Forall₂ Token.Says tokens e.words := by
    rw [← hWords, List.forall₂_map_right_iff, List.forall₂_same]
    exact fun t _ => t.says_word
  rcases takes_expression hTyped hPlain start rest
    ⟨tokens, hTokens, hSays⟩ (hStop ▸ rfl) with
    ⟨hTree, hLeft, hSame⟩
  exact ⟨hTree, hLeft ▸ hRest, hSame⟩

end Parse

end Gatework.Hdl
