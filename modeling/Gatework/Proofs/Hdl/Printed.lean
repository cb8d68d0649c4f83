import Gatework.Proofs.Expr.Typing
import Gatework.Proofs.Hdl.Lexer

/-
  Printed expressions are cut into the words they are built
  from.

  An expression is plain if its names are names of the
  language, its selects are taken of signals and its constants
  carry no text of their own. In its infix form no two words
  run together: operators stand between blanks, and what a
  complement or a parenthesis is in front of cannot make it a
  longer symbol. A constant alone is one literal, and what is
  read of the literal is the constant.

  Key definitions include:
    * `Expr.isPlain`
    * `Expr.words`

  Key theorems include:
    * `Expr.spells_verilog`
    * `Expr.lex_verilog`
    * `Const.printed_parses_back`
-/

------------------------------------------------------------
-- Words of expressions
------------------------------------------------------------

namespace Gatework

namespace GateOp

/- The symbol of a gate between its operands. -/
def sign : GateOp → Hdl.Symbol
  | and | nand => .ampersand
  | or | nor => .pipe
  | xor | xnor => .caret

/- Gates printed as the complement of another one. -/
def isNegated : GateOp → Bool
  | and | or | xor => false
  | xnor | nand | nor => true

end GateOp

/- The symbol of a comparison. -/
def CmpOp.sign : CmpOp → Hdl.Symbol
  | eq => .doubleEquals
  | neq => .bangEquals

namespace Expr

open Hdl (Word)

mutual

/-
  Names are names of the language, selects are taken of
  signals, and constants carry no text of their own.
-/
def isPlain : Expr → Bool
  | const _ c => c.raw.isNone
  | var _ v => Hdl.isName v.name
  | not _ x => isPlain x
  | gate _ _ a b => isPlain a && isPlain b
  | compare _ _ a b => isPlain a && isPlain b
  | mux _ s t f => isPlain s && isPlain t && isPlain f
  | bit _ b _ => b.asVar?.isSome && isPlain b
  | part _ b _ _ => b.asVar?.isSome && isPlain b
  | concat _ parts => isPlainAll parts

def isPlainAll : List Expr → Bool
  | [] => true
  | p :: ps => isPlain p && isPlainAll ps

end

mutual

/- The words of the infix form. -/
def words : Expr → List Word
  | const _ c => [.const c]
  | var _ v => [.name v.name]
  | not _ x => Word.parens (.mark .tilde :: words x)
  | gate _ op a b =>
      (if op.isNegated then [.mark .tilde] else []) ++
        Word.parens (words a ++ .mark op.sign :: words b)
  | compare _ op a b => Word.parens (words a ++ .mark op.sign :: words b)
  | mux _ s t f =>
      Word.parens (words s ++ .mark .question ::
        (words t ++ .mark .colon :: words f))
  | bit _ b i => words b ++ Word.bracketed [.int i]
  | part _ b m l =>
      words b ++ Word.bracketed [.int m, .mark .colon, .int l]
  | concat _ parts => Word.braced (wordsAfter parts).tail

/- The words of parts, each after a comma. -/
def wordsAfter : List Expr → List Word
  | [] => []
  | p :: ps => .mark .comma :: words p ++ wordsAfter ps

end

theorem isPlainAll_iff
    {parts : List Expr} :
    isPlainAll parts = true ↔ ∀ p ∈ parts, p.isPlain = true := by
  induction parts with
  | nil => simp [isPlainAll]
  | cons p ps ih => simp [isPlainAll, ih]

end Expr

end Gatework

------------------------------------------------------------
-- Texts around expressions
------------------------------------------------------------

namespace Gatework

namespace Text

@[simp] theorem toList_parens
    (s : String) :
    (parens s).toList = '(' :: s.toList ++ [')'] := by
  simp [parens]

@[simp] theorem toList_braced
    (s : String) :
    (braced s).toList = '\x7b' :: s.toList ++ ['\x7d'] := by
  simp [braced]

end Text

theorem GateOp.toList_between
    (op : GateOp)
    (a b : String) :
    (op.between a b).toList =
      (if op.isNegated then ['~'] else []) ++
        ('(' :: (a.toList ++
          (' ' :: op.sign.spelling.toList ++ [' ']) ++
          b.toList) ++ [')']) := by
  cases op <;>
    simp [between, sign, isNegated, Hdl.Symbol.spelling]

namespace Hdl

variable {cs ds rest : List Char}
variable {words more : List Word}

/- A character that an expression can start with. -/
def isOpening
    (c : Char) :
    Bool :=
  isNameStart c || c.isDigit || c == '(' || c == '~' || c == '\x7b'

/- Characters that start as an expression does. -/
def Opens
    (cs : List Char) :
    Prop :=
  ∃ c rest, cs = c :: rest ∧ isOpening c = true

theorem Opens.append
    (hOpens : Opens cs)
    (rest : List Char) :
    Opens (cs ++ rest) := by
  rcases hOpens with ⟨c, others, rfl, hc⟩
  exact ⟨c, others ++ rest, rfl, hc⟩

/- Characters that no expression starts with do not stand there. -/
theorem Opens.head_ne
    (hOpens : Opens cs)
    {d : Char}
    (hd : isOpening d = false) :
    cs.head? ≠ some d := by
  rcases hOpens with ⟨c, others, rfl, hc⟩
  rintro ⟨⟩
  rw [hd] at hc
  cases hc

theorem Opens.notBlank
    (hOpens : Opens cs) :
    StopsAt isAsciiBlank cs := by
  intro c hc
  have hOther : ∀ d, isOpening d = false → c ≠ d := by
    rintro d hd rfl
    exact hOpens.head_ne hd hc
  simp [isAsciiBlank, hOther ' ' rfl, hOther '\t' rfl,
    hOther '\n' rfl, hOther '\r' rfl, hOther '\x0c' rfl]

theorem spells_tilde
    (hRest : Opens rest) :
    Spells ['~'] [.mark .tilde] rest := by
  apply spells_symbol (c := '~') (s := .tilde) rfl nofun
  intro d hd
  unfold Symbol.ofPair?
  split
  case h_10 => exact absurd hd (hRest.head_ne rfl)
  case h_11 => exact absurd hd (hRest.head_ne rfl)
  case h_12 => exact absurd hd (hRest.head_ne rfl)
  all_goals simp_all

/- A symbol that starts no longer one, between others. -/
theorem Spells.around
    {c d : Char}
    {s t : Symbol}
    (hc : Symbol.ofChar? c = some s)
    (hd : Symbol.ofChar? d = some t)
    (hs : s ≠ .slash)
    (ht : t ≠ .slash)
    (hLeft : ∀ e, Symbol.ofPair? c e = none)
    (hRight : ∀ e, Symbol.ofPair? d e = none)
    (hInner : Spells cs words (d :: rest)) :
    Spells (c :: cs ++ [d]) (.mark s :: words ++ [.mark t]) rest := by
  have hFront : Spells [c] [.mark s] (cs ++ [d] ++ rest) :=
    spells_symbol hc hs fun e _ => hLeft e
  have hBack : Spells [d] [.mark t] rest :=
    spells_symbol hd ht fun e _ => hRight e
  exact hFront.append (Spells.append hInner hBack)

theorem Spells.parens
    (hInner : Spells cs words (')' :: rest)) :
    Spells ('(' :: cs ++ [')']) (Word.parens words) rest :=
  hInner.around rfl rfl nofun nofun (fun _ => rfl) (fun _ => rfl)

theorem Spells.braced
    (hInner : Spells cs words ('\x7d' :: rest)) :
    Spells ('\x7b' :: cs ++ ['\x7d']) (Word.braced words) rest :=
  hInner.around rfl rfl nofun nofun (fun _ => rfl) (fun _ => rfl)

theorem Spells.bracketed
    (hInner : Spells cs words (']' :: rest)) :
    Spells ('[' :: cs ++ [']']) (Word.bracketed words) rest :=
  hInner.around rfl rfl nofun nofun (fun _ => rfl) (fun _ => rfl)

/- Two texts with a symbol between blanks between them. -/
theorem Spells.joined
    (s : Symbol)
    (hLeft : ∀ rest, Ends rest → Spells cs words rest)
    (hRight : Spells ds more rest)
    (hOpens : Opens ds) :
    Spells (cs ++ (' ' :: s.spelling.toList ++ [' ']) ++ ds)
      (words ++ .mark s :: more) rest := by
  have hMiddle := spells_between s (hOpens.append rest).notBlank
  have hTail := hMiddle.append hRight
  have hFront : Spells cs words
      ((' ' :: s.spelling.toList ++ [' '] ++ ds) ++ rest) :=
    hLeft _ (stopsAt_cons rfl _)
  rw [List.append_assoc]
  exact hFront.append hTail

end Hdl

end Gatework

------------------------------------------------------------
-- Infix form
------------------------------------------------------------

namespace Gatework

namespace Expr

open Hdl (Spells Ends Opens Word)

theorem opens_verilog
    {e : Expr}
    (he : e.isPlain = true) :
    Opens e.verilog.toList := by
  induction e with
  | const m c =>
      rcases Hdl.toDigits_cases c.width with ⟨d, ds, hDigits, hd, _⟩
      rw [verilog, Const.toList_verilog
        (Option.isNone_iff_eq_none.mp he), hDigits]
      have hAll : ∀ d < 10, Hdl.isOpening d.digitChar = true := by
        decide
      exact ⟨d.digitChar, _, rfl, hAll d hd⟩
  | var m v =>
      rw [verilog]
      have hChars := (Bool.and_eq_true_iff.mp he).2
      split at hChars
      case h_1 => cases hChars
      case h_2 c cs hText =>
          rw [hText]
          refine ⟨c, cs, rfl, ?_⟩
          simp [Hdl.isOpening, (Bool.and_eq_true_iff.mp hChars).1]
  | not m x ih =>
      rw [verilog, Text.toList_parens]
      exact ⟨'(', _, rfl, rfl⟩
  | gate m op a b iha ihb =>
      rw [verilog, GateOp.toList_between]
      cases op.isNegated with
      | true => exact ⟨'~', _, rfl, rfl⟩
      | false => exact ⟨'(', _, rfl, rfl⟩
  | compare m op a b iha ihb =>
      rw [verilog, Text.toList_parens]
      exact ⟨'(', _, rfl, rfl⟩
  | mux m s t f ihs iht ihf =>
      rw [verilog, Text.toList_parens]
      exact ⟨'(', _, rfl, rfl⟩
  | bit m b i ih =>
      rw [verilog, bitText, String.append_assoc, String.append_assoc,
        String.toList_append]
      exact (ih (Bool.and_eq_true_iff.mp he).2).append _
  | part m b h l ih =>
      rw [verilog, partText]
      simp only [String.toList_append, List.append_assoc]
      exact (ih (Bool.and_eq_true_iff.mp he).2).append _
  | concat m parts ih =>
      rw [verilog, Text.toList_braced]
      exact ⟨'\x7b', _, rfl, rfl⟩

/- The characters of parts, each after a comma and a blank. -/
def textAfter : List Expr → List Char
  | [] => []
  | p :: ps => ',' :: ' ' :: p.verilog.toList ++ textAfter ps

theorem toList_commas
    (p : Expr)
    (ps : List Expr) :
    (Text.commas (verilogAll (p :: ps))).toList =
      p.verilog.toList ++ textAfter ps := by
  induction ps generalizing p with
  | nil => simp [verilogAll, Text.commas, textAfter]
  | cons q ps ih =>
      have hMore : Text.commas (verilogAll (p :: q :: ps)) =
          p.verilog ++ ", " ++ Text.commas (verilogAll (q :: ps)) :=
        String.intercalate_cons_cons
      rw [hMore, String.toList_append, ih, textAfter]
      simp

theorem ends_textAfter
    (parts : List Expr)
    {rest : List Char}
    (hRest : Ends rest) :
    Ends (textAfter parts ++ rest) := by
  cases parts with
  | nil => exact hRest
  | cons p ps => exact Hdl.stopsAt_cons rfl _

/- Parts after commas spell one after the other. -/
theorem spells_textAfter
    {parts : List Expr}
    (hPlain : ∀ p ∈ parts, p.isPlain = true)
    (hEach : ∀ p ∈ parts, ∀ rest, Ends rest →
      Spells p.verilog.toList p.words rest)
    {rest : List Char}
    (hRest : Ends rest) :
    Spells (textAfter parts) (wordsAfter parts) rest := by
  induction parts with
  | nil => exact Hdl.spells_nil _
  | cons p ps ih =>
      rw [List.forall_mem_cons] at hPlain hEach
      have hOpens := opens_verilog hPlain.1
      have hLater := ih hPlain.2 hEach.2
      have hHere := (hEach.1 _ (ends_textAfter ps hRest)).append
        hLater
      have hBlank : Spells [' '] []
          ((p.verilog.toList ++ textAfter ps) ++ rest) := by
        apply Hdl.spells_blank
        exact ((hOpens.append _).append rest).notBlank
      have hComma : Spells [','] [.mark .comma]
          (([' '] ++ (p.verilog.toList ++ textAfter ps)) ++ rest) :=
        Hdl.spells_symbol rfl (by decide) fun _ _ => rfl
      exact hComma.append (hBlank.append hHere)

/-
  The infix form of a plain expression spells its words in
  front of all that ends a name: by induction on the
  expression, with one step for each form of text.
-/
theorem spells_verilog
    {e : Expr}
    (he : e.isPlain = true)
    {rest : List Char}
    (hRest : Ends rest) :
    Spells e.verilog.toList e.words rest := by
  have hClose : ∀ rest, Ends (')' :: rest) := Hdl.stopsAt_cons rfl
  induction e generalizing rest with
  | const m c =>
      exact Hdl.spells_const (Option.isNone_iff_eq_none.mp he) hRest
  | var m v => exact Hdl.spells_name he hRest
  | not m x ih =>
      rw [verilog, words, Text.toList_parens, String.toList_append]
      have hx : x.isPlain = true := he
      have hTilde := Hdl.spells_tilde
        ((opens_verilog hx).append (')' :: rest))
      exact (hTilde.append (ih hx (hClose rest))).parens
  | gate m op a b iha ihb =>
      rcases Bool.and_eq_true_iff.mp he with ⟨ha, hb⟩
      have hInner := Spells.joined op.sign
        (fun _ => iha ha) (ihb hb (hClose rest)) (opens_verilog hb)
      rw [verilog, words, GateOp.toList_between]
      cases op.isNegated with
      | true =>
          exact (Hdl.spells_tilde ⟨'(', _, rfl, rfl⟩).append
            hInner.parens
      | false => exact hInner.parens
  | compare m op a b iha ihb =>
      rcases Bool.and_eq_true_iff.mp he with ⟨ha, hb⟩
      have hInner := Spells.joined op.sign
        (fun _ => iha ha) (ihb hb (hClose rest)) (opens_verilog hb)
      have hText : (verilog a ++ " " ++ op.symbol ++ " " ++
          verilog b).toList = a.verilog.toList ++
            (' ' :: op.sign.spelling.toList ++ [' ']) ++
              b.verilog.toList := by
        cases op <;> simp [CmpOp.symbol, CmpOp.sign,
          Hdl.Symbol.spelling]
      rw [verilog, words, Text.toList_parens, hText]
      exact hInner.parens
  | mux m s t f ihs iht ihf =>
      simp only [isPlain, Bool.and_eq_true] at he
      rcases he with ⟨⟨hs, ht⟩, hf⟩
      have hSides := Spells.joined .colon
        (fun _ => iht ht) (ihf hf (hClose rest)) (opens_verilog hf)
      have hOpens := (opens_verilog ht).append
        (' ' :: Hdl.Symbol.colon.spelling.toList ++ [' '])
      have hInner := Spells.joined .question
        (fun _ => ihs hs) hSides (hOpens.append _)
      have hText : (verilog s ++ " ? " ++ verilog t ++ " : " ++
          verilog f).toList = s.verilog.toList ++
            (' ' :: Hdl.Symbol.question.spelling.toList ++ [' ']) ++
              (t.verilog.toList ++
                (' ' :: Hdl.Symbol.colon.spelling.toList ++ [' ']) ++
                  f.verilog.toList) := by
        simp [Hdl.Symbol.spelling]
      rw [verilog, words, Text.toList_parens, hText]
      exact hInner.parens
  | bit m b i ih =>
      have hIndex : Spells (Nat.toDigits 10 i) [.int i]
          (']' :: rest) := Hdl.spells_int i (Hdl.stopsAt_cons rfl _)
      have hText : (bitText (verilog b) i).toList =
          b.verilog.toList ++
            ('[' :: Nat.toDigits 10 i ++ [']']) := by
        simp [bitText]
      rw [verilog, words, hText]
      exact (ih (Bool.and_eq_true_iff.mp he).2
        (Hdl.stopsAt_cons rfl _)).append hIndex.bracketed
  | part m b h l ih =>
      have hLow : Spells (Nat.toDigits 10 l) [.int l]
          (']' :: rest) := Hdl.spells_int l (Hdl.stopsAt_cons rfl _)
      have hColon : Spells [':'] [.mark .colon]
          (Nat.toDigits 10 l ++ ']' :: rest) :=
        Hdl.spells_symbol rfl (by decide) fun _ _ => rfl
      have hHigh : Spells (Nat.toDigits 10 h) [.int h]
          ([':'] ++ Nat.toDigits 10 l ++ ']' :: rest) :=
        Hdl.spells_int h (Hdl.stopsAt_cons rfl _)
      have hText : (partText (verilog b) h l).toList =
          b.verilog.toList ++
            ('[' :: (Nat.toDigits 10 h ++
              ([':'] ++ Nat.toDigits 10 l)) ++ [']']) := by
        simp [partText]
      rw [verilog, words, hText]
      exact (ih (Bool.and_eq_true_iff.mp he).2
        (Hdl.stopsAt_cons rfl _)).append
          (hHigh.append (hColon.append hLow)).bracketed
  | concat m parts ih =>
      have hPlain := isPlainAll_iff.mp he
      have hEnds : Ends ('\x7d' :: rest) := Hdl.stopsAt_cons rfl _
      rw [verilog, words, Text.toList_braced]
      apply Spells.braced
      cases parts with
      | nil => exact Hdl.spells_nil _
      | cons p ps =>
          rw [toList_commas, wordsAfter]
          rw [List.forall_mem_cons] at hPlain
          have hLater := spells_textAfter hPlain.2
            (fun q hq _ hEnd =>
              ih q (List.mem_cons_of_mem p hq)
                (hPlain.2 q hq) hEnd) hEnds
          exact (ih p (List.mem_cons_self ..) hPlain.1
            (ends_textAfter ps hEnds)).append hLater

/- The tokens of a printed expression. -/
theorem lex_verilog
    {e : Expr}
    (he : e.isPlain = true)
    (file : Option Nat) :
    (Hdl.lex file e.verilog).tokens.map Hdl.Token.word =
        e.words ++ [.stop] ∧
      (Hdl.lex file e.verilog).problems = [] :=
  Hdl.lex_of_spells (spells_verilog he (Hdl.stopsAt_nil _)) file

end Expr

end Gatework

------------------------------------------------------------
-- Constants
------------------------------------------------------------

namespace Gatework

namespace Const

/-
  A constant without a text of its own is printed as one
  based literal, of which nothing is cut off. Read back, with
  unknown digits refused or not, it has the value, width and
  sign it had, and the radix it was printed in.
-/
theorem printed_parses_back
    {c : Const}
    (hc : c.Fits)
    (hRaw : c.raw = none)
    (file : Option Nat)
    (strict : Bool) :
    (Hdl.lex file c.verilog).tokens.map Hdl.Token.word =
        [⟨.literal .based, c.verilog⟩, .stop] ∧
      (Hdl.lex file c.verilog).problems = [] ∧
      ∃ l, Hdl.Literal.read .based strict c.verilog = .ok l ∧
        l.sized = true ∧ l.isTruncated = false ∧
        l.toConst = ⟨c.value, c.width, c.signed,
          some (c.base.getD .binary), some c.verilog⟩ := by
  have hSpells := Hdl.spells_const hRaw (Hdl.stopsAt_nil _)
  rcases Hdl.lex_of_spells hSpells file with ⟨hTokens, hProblems⟩
  have hUncut : c.printedLiteral.isTruncated = false := by
    simp [Hdl.Literal.isTruncated, printedLiteral]
  exact ⟨hTokens, hProblems, c.printedLiteral,
    Hdl.Literal.read_verilog strict hc hRaw, rfl, hUncut, rfl⟩

/-
  The largest word, signed, in a radix whose digits do not
  divide the word evenly.
-/
def octalWord : Const :=
  ⟨2 ^ 64 - 1, 64, true, some .octal, none⟩

/- A digit more would not fit, and none is lost. -/
theorem printed_parses_back_octalWord :
    octalWord.Fits ∧ octalWord.raw = none ∧
      octalWord.verilog = "64'so1777777777777777777777" ∧
      (Hdl.lex none octalWord.verilog).tokens.map
          Hdl.Token.word =
        [⟨.literal .based, octalWord.verilog⟩, .stop] ∧
      ∃ l, Hdl.Literal.read .based true octalWord.verilog =
          .ok l ∧
        l.sized = true ∧ l.toConst.value = 2 ^ 64 - 1 ∧
        l.toConst.signed = true ∧
        l.toConst.base = some .octal := by
  have hFits : octalWord.Fits := by
    unfold Const.Fits
    decide
  have hRaw : octalWord.raw = none := rfl
  rcases printed_parses_back hFits hRaw none true with
    ⟨hTokens, _, l, hRead, hSized, _, hConst⟩
  refine ⟨hFits, hRaw, by decide +kernel, hTokens, l, hRead,
    hSized, ?_⟩
  rw [hConst]
  exact ⟨rfl, rfl, rfl⟩

end Const

end Gatework
