import Gatework.Definitions

/-
  Passes over expressions and lists of passes.

  Key definitions include:
    * `Pass`
    * `Pipeline`
    * `Pipeline.ofFlags`
    * `Pipeline.run`
-/

namespace Gatework

/- A change of an expression that keeps its meaning. -/
inductive Pass where
  | simplify
  | primitives
  | inline (defs : Definitions)
deriving Inhabited

namespace Pass

def name : Pass → String
  | simplify => "simplify"
  | primitives => "primitives"
  | inline _ => "resolve"

def run
    (pass : Pass)
    (e : Expr) :
    Except ReshapeError Expr :=
  match pass with
  | simplify => .ok e.simplify
  | primitives => .ok e.toPrimitives
  | inline defs => defs.inline e

end Pass

/- Passes in the order they run. -/
abbrev Pipeline := List Pass

namespace Pipeline

/- Primitives first, then simplification, as wanted. -/
def ofFlags
    (simplify primitives : Bool) :
    Pipeline :=
  (if primitives then [Pass.primitives] else []) ++
    (if simplify then [Pass.simplify] else [])

/- Runs passes in order, each on the result before it. -/
def run : Pipeline → Expr → Except ReshapeError Expr
  | [], e => .ok e
  | pass :: rest, e => do
      let e' ← pass.run e
      run rest e'

end Pipeline

end Gatework
