import Gatework.Hdl.Literal
import Gatework.Hdl.Tree
import Gatework.Proofs.Expr.Typing

/-
  Literals with digits that are not known.

  Unknown digits are refused when literals are read strictly
  and stand for 0 otherwise; nothing else about reading
  changes. Which literals of a file are read does not depend
  on what else is in it: those of sensitivity lists are not,
  and a range is read again for every pin.

  Key definitions include:
    * `Hdl.RawLiteral`, a literal as it is written
    * `Hdl.RawLiteral.IsKnown`
    * `Hdl.File.literals`, the literals that lowering reads

  Key theorems include:
    * `Hdl.Literal.read_strict_eq_ok_iff`
    * `Hdl.Literal.read_eq_ok_of_read`
-/

------------------------------------------------------------
-- Unknown digits
------------------------------------------------------------

namespace Gatework.Hdl

/- A literal as it is written. -/
structure RawLiteral where
  kind : LiteralKind
  text : String
deriving DecidableEq, Repr

namespace RawLiteral

/-
  Some digit is not known. A bit that fills a width has one
  digit, at its end.
-/
def hasUnknownDigit
    (r : RawLiteral) :
    Bool :=
  match r.kind with
  | .fill => isUnknownDigit ((Literal.significant r.text).getLastD '0')
  | _ => r.text.toList.any isUnknownDigit

/- All digits are known. -/
def IsKnown
    (r : RawLiteral) :
    Prop :=
  r.hasUnknownDigit = false

end RawLiteral

/-
  An unknown digit is no separator or blank, no known digit
  and no letter of a radix.
-/
theorem of_isUnknownDigit
    {c : Char}
    (hc : isUnknownDigit c = true) :
    (c != '_' && !isBlank c) = true ∧ c.isDigit = false ∧
      Radix.ofLetter? c = none := by
  simp only [isUnknownDigit, Bool.or_eq_true, beq_iff_eq] at hc
  rcases hc with (((rfl | rfl) | rfl) | rfl) | rfl <;> decide

theorem any_significant
    (text : String) :
    (Literal.significant text).any isUnknownDigit =
      text.toList.any isUnknownDigit := by
  rw [Literal.significant, List.any_filter]
  apply List.any_congr rfl
  intro c
  cases hc : isUnknownDigit c with
  | false => exact Bool.and_false _
  | true => rw [(of_isUnknownDigit hc).1, Bool.and_true]

/- A number that was read has known digits only. -/
theorem known_of_readDecimal?
    {bound n : Nat}
    {cs : List Char}
    (hRead : readDecimal? bound cs = some n) :
    cs.any isUnknownDigit = false := by
  have hDigits : ∀ {ds : List Char},
      ¬ (ds.isEmpty || !ds.all Char.isDigit) = true →
      ds.any isUnknownDigit = false := by
    intro ds hAll
    simp only [Bool.or_eq_true, Bool.not_eq_true', not_or,
      Bool.not_eq_false] at hAll
    rw [List.any_eq_false]
    intro c hc hUnknown
    have hDigit := List.all_eq_true.mp hAll.2 c hc
    rw [(of_isUnknownDigit hUnknown).2.1] at hDigit
    cases hDigit
  unfold readDecimal? at hRead
  split at hRead
  · rw [Option.ite_none_left_eq_some] at hRead
    exact (List.any_cons ..).trans (hDigits hRead.1)
  · rw [Option.ite_none_left_eq_some] at hRead
    exact hDigits hRead.1

namespace Literal

theorem eq_of_splitTick?
    {cs size rest : List Char}
    (hSplit : splitTick? cs = some (size, rest)) :
    cs = size ++ '\x27' :: rest := by
  induction cs generalizing size with
  | nil => cases hSplit
  | cons c cs ih =>
      rw [splitTick?] at hSplit
      split at hSplit
      case isTrue hTick =>
          cases hSplit
          rw [hTick]
          rfl
      case isFalse =>
          rcases Option.map_eq_some_iff.mp hSplit with
            ⟨⟨front, rest'⟩, hFront, hSame⟩
          cases hSame
          rw [ih hFront]
          rfl

theorem known_of_sizedBy
    {size : List Char}
    {written : Nat}
    {base : Radix}
    {text : String}
    {l : Literal}
    (hSized : sizedBy size written base text = .ok l) :
    size.any isUnknownDigit = false := by
  unfold sizedBy at hSized
  split at hSized
  case isTrue hEmpty => rw [List.isEmpty_iff.mp hEmpty]; rfl
  case isFalse =>
      split at hSized
      case h_1 => cases hSized
      case h_2 width hWidth => exact known_of_readDecimal? hWidth

/- What stands before the digits holds no unknown ones. -/
theorem any_of_splitSign
    {rest digits : List Char}
    {letter : Char}
    {signed : Bool}
    {base : Radix}
    (hSign : splitSign rest = (signed, letter :: digits))
    (hLetter : Radix.ofLetter? letter = some base) :
    rest.any isUnknownDigit = digits.any isUnknownDigit := by
  have hKnown : isUnknownDigit letter = false := by
    rw [← Bool.not_eq_true]
    intro hUnknown
    rw [(of_isUnknownDigit hUnknown).2.2] at hLetter
    cases hLetter
  unfold splitSign at hSign
  split at hSign <;> cases hSign
  · rw [List.any_cons, List.any_cons, hKnown]
    rfl
  · rw [List.any_cons, List.any_cons, hKnown]
    rfl
  · rw [List.any_cons, hKnown, Bool.false_or]

theorem readBased_strict_eq_ok_iff
    {size rest : List Char}
    {text : String}
    {l : Literal} :
    readBased true size rest text = .ok l ↔
      readBased false size rest text = .ok l ∧
        (size ++ '\x27' :: rest).any isUnknownDigit = false := by
  unfold readBased
  rcases hSign : splitSign rest with ⟨signed, marked⟩
  cases marked with
  | nil => simp
  | cons letter digits =>
      cases hLetter : Radix.ofLetter? letter with
      | none => simp [hLetter]
      | some base =>
          have hRest : ('\x27' :: rest).any isUnknownDigit =
              digits.any isUnknownDigit := by
            rw [List.any_cons, any_of_splitSign hSign hLetter]
            rfl
          simp only [hLetter, List.any_append, hRest]
          cases hDigits : digits.any isUnknownDigit with
          | true => simp
          | false =>
              cases hWritten : writtenBy? base digits with
              | none => simp
              | some written =>
                  simp only [Bool.and_false, Bool.false_eq_true,
                    if_false, Bool.or_false]
                  constructor
                  · intro hRead
                    refine ⟨hRead, ?_⟩
                    rcases bind_eq_ok_iff.mp hRead with
                      ⟨_, hSized, _⟩
                    exact known_of_sizedBy hSized
                  · exact And.left

/- Reading strictly refuses unknown digits and nothing else. -/
theorem read_strict_eq_ok_iff
    {r : RawLiteral}
    {l : Literal} :
    read r.kind true r.text = .ok l ↔
      read r.kind false r.text = .ok l ∧ r.IsKnown := by
  rcases r with ⟨kind, text⟩
  rw [RawLiteral.IsKnown, RawLiteral.hasUnknownDigit]
  cases kind with
  | int =>
      refine ⟨fun hRead => ⟨hRead, ?_⟩, And.left⟩
      rw [← any_significant]
      unfold read at hRead
      dsimp only at hRead
      split at hRead
      case h_1 => cases hRead
      case h_2 n hNumber => exact known_of_readDecimal? hNumber
  | fill =>
      unfold read
      dsimp only
      generalize (significant text).getLastD '0' = digit
      cases hDigit : isUnknownDigit digit with
      | true => simp
      | false => simp
  | based =>
      rw [← any_significant]
      unfold read
      dsimp only
      cases hSplit : splitTick? (significant text) with
      | none => simp
      | some parts =>
          rw [eq_of_splitTick? hSplit]
          exact readBased_strict_eq_ok_iff

/-
  A literal that was read is read alike in the other way of
  reading, except strictly if it has an unknown digit.
-/
theorem read_eq_ok_of_read
    {r : RawLiteral}
    {strict : Bool}
    {l : Literal}
    (hRead : read r.kind strict r.text = .ok l) :
    (strict = true → r.IsKnown) ∧
      ∀ strict', (strict' = true → r.IsKnown) →
        read r.kind strict' r.text = .ok l := by
  have hLenient : read r.kind false r.text = .ok l := by
    cases strict with
    | true => exact (read_strict_eq_ok_iff.mp hRead).1
    | false => exact hRead
  constructor
  · rintro rfl
    exact (read_strict_eq_ok_iff.mp hRead).2
  · intro strict' hKnown
    cases strict' with
    | true => exact read_strict_eq_ok_iff.mpr ⟨hLenient, hKnown rfl⟩
    | false => exact hLenient

end Literal

end Gatework.Hdl

------------------------------------------------------------
-- Literals of a tree
------------------------------------------------------------

namespace Gatework.Hdl

namespace Expr

mutual

/- The literals of an expression. -/
def literals : Expr → List RawLiteral
  | name _ _ => []
  | literal kind text _ => [⟨kind, text⟩]
  | index base i _ => literals base ++ literals i
  | slice base msb lsb _ =>
      literals base ++ (literals msb ++ literals lsb)
  | concat elements _ => literalsAll elements
  | replicate count elements _ =>
      literals count ++ literalsAll elements
  | unary _ x _ => literals x
  | binary left _ right _ => literals left ++ literals right
  | ternary c t f _ => literals c ++ (literals t ++ literals f)
  | paren inner _ => literals inner
  | broken _ => []

def literalsAll : List Expr → List RawLiteral
  | [] => []
  | e :: es => literals e ++ literalsAll es

end

/- Parentheses hold the literals of what is inside. -/
theorem literals_bare
    (e : Expr) :
    e.bare.literals = e.literals :=
  bare_congr (fun _ _ => rfl) e

end Expr

namespace Stmt

mutual

/-
  The literals of a statement. Events that start it and the
  labels of a default are not read.
-/
def literals : Stmt → List RawLiteral
  | blocking target value _ => target.literals ++ value.literals
  | nonBlocking target value _ => target.literals ++ value.literals
  | block _ body _ => literalsAll body
  | ifThen c t _ => c.literals ++ literals t
  | ifElse c t e _ => c.literals ++ (literals t ++ literals e)
  | case _ selector arms _ => selector.literals ++ literalsArms arms
  | onEvent _ body _ => literals body
  | empty _ => []
  | broken _ => []

def literalsAll : List Stmt → List RawLiteral
  | [] => []
  | s :: ss => literals s ++ literalsAll ss

def literalsArms : List (CaseArm Stmt) → List RawLiteral
  | [] => []
  | ⟨labels, isDefault, body, _⟩ :: rest =>
      literals body ++
        ((if isDefault then [] else labels.flatMap Expr.literals) ++
          literalsArms rest)

end

end Stmt

/- The literals of the bounds of a vector. -/
def Range.literals
    (r : Range) :
    List RawLiteral :=
  r.msb.literals ++ r.lsb.literals

/- The bounds are read for every pin. -/
def PinDecl.literals
    (decl : PinDecl) :
    List RawLiteral :=
  decl.names.flatMap fun _ => decl.range.elim [] Range.literals

namespace Item

/- The literals of declarations. -/
def boundLiterals : Item → List RawLiteral
  | net decl => decl.range.elim [] Range.literals
  | pins decl => decl.literals
  | _ => []

/- The literals of what drives signals. -/
def logicLiterals : Item → List RawLiteral
  | net decl =>
      decl.names.flatMap fun entry => entry.init.elim [] Expr.literals
  | pins _ => []
  | assign target value _ => target.literals ++ value.literals
  | always body _ => body.literals
  | alwaysComb body _ => body.literals
  | alwaysFf _ body _ => body.literals
  | alwaysLatch body _ => body.literals
  | broken _ => []

end Item

def Header.literals : Header → List RawLiteral
  | declared pins => pins.flatMap PinDecl.literals
  | _ => []

/- The literals of a module, those of declarations first. -/
def ModuleDecl.literals
    (decl : ModuleDecl) :
    List RawLiteral :=
  (decl.header.literals ++ decl.items.flatMap Item.boundLiterals) ++
    decl.items.flatMap Item.logicLiterals

/- The literals that are read when a file is lowered. -/
def File.literals
    (f : File) :
    List RawLiteral :=
  f.modules.flatMap ModuleDecl.literals

end Gatework.Hdl
