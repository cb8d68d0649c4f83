import Gatework.Expr.Basic

/-
  Text forms of constants and expressions.

  Key definitions include:
    * `Const.verilog`, a constant as a literal
    * `Expr.verilog`, the infix form
    * `Expr.inline`, the gate form on one line
    * `Expr.label`, the text of the root alone
    * `Expr.key`, a text shared by trees that differ only in
      the operand order of unordered gates
    * `Expr.symbolic` and `Expr.explain`, two forms that
      write a single constant bit as `1` or `0`
-/

------------------------------------------------------------
-- Punctuation
------------------------------------------------------------

namespace Gatework

namespace Text

/- A text between braces. -/
def braced
    (s : String) :
    String :=
  "\x7b" ++ s ++ "\x7d"

/- A text between parentheses. -/
def parens
    (s : String) :
    String :=
  "(" ++ s ++ ")"

/- Texts with a comma and a blank between neighbours. -/
def commas
    (ss : List String) :
    String :=
  String.intercalate ", " ss

end Text

end Gatework

------------------------------------------------------------
-- Constants
------------------------------------------------------------

namespace Gatework

namespace Const

/-
  A constant as a literal. Text it was written as is kept
  when it names a radix; otherwise the digits follow the
  recorded radix, or binary when there is none. Binary digits
  are padded to the width.
-/
def verilog
    (c : Const) :
    String :=
  match c.raw.filter (fun raw => raw.toList.contains '\x27') with
  | some raw => raw
  | none =>
      let radix := c.base.getD .binary
      let digits :=
        match radix with
        | .binary => padLeft '0' c.width (radix.digits c.value)
        | _ => radix.digits c.value
      toString c.width ++ "'" ++ (if c.signed then "s" else "") ++
        String.ofList (radix.letter :: digits)

/- The digit of a constant of one bit. -/
def scalarDigit?
    (c : Const) :
    Option String :=
  if c.width = 1 then
    some (if c.value = 1 then "1" else "0")
  else
    none

end Const

end Gatework

------------------------------------------------------------
-- Infix form
------------------------------------------------------------

namespace Gatework

namespace GateOp

/- A gate between two operands already written out. -/
def between
    (op : GateOp)
    (a b : String) :
    String :=
  match op with
  | and => Text.parens (a ++ " & " ++ b)
  | or => Text.parens (a ++ " | " ++ b)
  | xor => Text.parens (a ++ " ^ " ++ b)
  | xnor => "~" ++ Text.parens (a ++ " ^ " ++ b)
  | nand => "~" ++ Text.parens (a ++ " & " ++ b)
  | nor => "~" ++ Text.parens (a ++ " | " ++ b)

end GateOp

namespace Expr

/- The text of a bit select. -/
def bitText
    (base : String)
    (index : Nat) :
    String :=
  base ++ "[" ++ toString index ++ "]"

/- The text of a part select. -/
def partText
    (base : String)
    (msb lsb : Nat) :
    String :=
  base ++ "[" ++ toString msb ++ ":" ++ toString lsb ++ "]"

mutual

/- The infix form, fully parenthesised. -/
def verilog : Expr → String
  | const _ c => c.verilog
  | var _ v => v.name
  | not _ x => Text.parens ("~" ++ verilog x)
  | gate _ op a b => op.between (verilog a) (verilog b)
  | compare _ op a b =>
      Text.parens (verilog a ++ " " ++ op.symbol ++ " " ++ verilog b)
  | mux _ s t f =>
      Text.parens
        (verilog s ++ " ? " ++ verilog t ++ " : " ++ verilog f)
  | bit _ b i => bitText (verilog b) i
  | part _ b m l => partText (verilog b) m l
  | concat _ parts => Text.braced (Text.commas (verilogAll parts))

def verilogAll : List Expr → List String
  | [] => []
  | p :: ps => verilog p :: verilogAll ps

end

end Expr

end Gatework

------------------------------------------------------------
-- Gate form
------------------------------------------------------------

namespace Gatework

namespace Expr

mutual

/- The gate form: names of gates with operands in braces. -/
def inline : Expr → String
  | const _ c => c.verilog
  | var _ v => v.name
  | not _ x => "NOT" ++ Text.braced (inline x)
  | gate _ op a b =>
      op.name ++ Text.braced (Text.commas [inline a, inline b])
  | compare _ op a b =>
      op.name ++ Text.braced (Text.commas [inline a, inline b])
  | mux _ s t f =>
      "MUX" ++ Text.braced (Text.commas [inline s, inline t, inline f])
  | bit _ b i => bitText (verilog b) i
  | part _ b m l => partText (verilog b) m l
  | concat _ parts =>
      "CONCAT" ++ Text.braced (Text.commas (inlineAll parts))

def inlineAll : List Expr → List String
  | [] => []
  | p :: ps => inline p :: inlineAll ps

end

/- The text of the root: a leaf or select, else its gate. -/
def label
    (e : Expr) :
    String :=
  match e with
  | const _ c => c.verilog
  | var _ v => v.name
  | not _ _ => "NOT"
  | gate _ op _ _ => op.name
  | compare _ op _ _ => op.name
  | mux _ _ _ _ => "MUX"
  | bit _ _ _ => e.verilog
  | part _ _ _ _ => e.verilog
  | concat _ _ => "CONCAT"

end Expr

end Gatework

------------------------------------------------------------
-- Key
------------------------------------------------------------

namespace Gatework

namespace Expr

/- Two texts in ascending order. -/
def orderedPair
    (x y : String) :
    String × String :=
  if y < x then (y, x) else (x, y)

mutual

/-
  A key in which the operands of unordered gates are sorted
  by their own keys, so that trees equal up to that order
  have one key.
-/
def key : Expr → String
  | const _ c => toString c.width ++ "'d" ++ toString c.value
  | var _ v => v.name
  | not _ x => "NOT" ++ Text.parens (key x)
  | gate _ op a b =>
      let (x, y) :=
        if op.unordered then orderedPair (key a) (key b)
        else (key a, key b)
      op.name ++ Text.parens (x ++ "," ++ y)
  | compare _ op a b =>
      op.name ++ Text.parens (key a ++ "," ++ key b)
  | mux _ s t f =>
      "MUX" ++ Text.parens (key s ++ "," ++ key t ++ "," ++ key f)
  | bit _ b i => bitText (key b) i
  | part _ b m l => partText (key b) m l
  | concat _ parts =>
      "CONCAT" ++ Text.parens (String.intercalate "," (keyAll parts))

def keyAll : List Expr → List String
  | [] => []
  | p :: ps => key p :: keyAll ps

end

end Expr

end Gatework

------------------------------------------------------------
-- Forms with bare bits
------------------------------------------------------------

namespace Gatework

namespace Expr

/- A constant: a bare digit for one bit, else a literal. -/
def bareConst
    (c : Const) :
    String :=
  c.scalarDigit?.getD c.verilog

mutual

/- The operator form printed beside a diagram. -/
def symbolic : Expr → String
  | const _ c => bareConst c
  | var _ v => v.name
  | not _ x => "~" ++ Text.parens (symbolic x)
  | gate _ op a b =>
      match op with
      | .xnor => Text.parens (symbolic a ++ " ~^ " ++ symbolic b)
      | _ => op.between (symbolic a) (symbolic b)
  | compare _ op a b =>
      op.name ++ Text.parens (Text.commas [symbolic a, symbolic b])
  | mux _ s t f =>
      "MUX" ++
        Text.parens (Text.commas [symbolic s, symbolic t, symbolic f])
  | bit _ b i => bitText (verilog b) i
  | part _ b m l => partText (verilog b) m l
  | concat _ parts => Text.braced (Text.commas (symbolicAll parts))

def symbolicAll : List Expr → List String
  | [] => []
  | p :: ps => symbolic p :: symbolicAll ps

end

mutual

/- The reader's form, with XNOR written as equality. -/
def explain : Expr → String
  | const _ c => bareConst c
  | var _ v => v.name
  | not _ x => Text.parens ("~" ++ explain x)
  | gate _ op a b =>
      match op with
      | .xnor => Text.parens (explain a ++ " == " ++ explain b)
      | .nand | .nor =>
          op.name ++ Text.parens (Text.commas [explain a, explain b])
      | _ => op.between (explain a) (explain b)
  | compare _ op a b => verilog (compare none op a b)
  | mux _ s t f =>
      Text.parens
        (explain s ++ " ? " ++ explain t ++ " : " ++ explain f)
  | bit _ b i => bitText (verilog b) i
  | part _ b m l => partText (verilog b) m l
  | concat _ parts => Text.braced (Text.commas (explainAll parts))

def explainAll : List Expr → List String
  | [] => []
  | p :: ps => explain p :: explainAll ps

end

end Expr

end Gatework
