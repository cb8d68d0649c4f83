import Gatework.Expr.Basic

/-
  Stamping: every node of a tree gets a mark of its own.

  A tree is stamped before it is put into several places, so
  that its copies can be told from equal trees built apart.

  Key definitions include:
    * `Stamping`
    * `Expr.stamp`
-/

namespace Gatework

/- A computation that takes fresh marks. -/
abbrev Stamping := StateM Nat

namespace Stamping

/- A mark that was not taken before. -/
def fresh : Stamping Mark := do
  let n ← get
  set (n + 1)
  return some n

end Stamping

namespace Expr

mutual

/-
  Marks every node that has no mark. Below a marked node all
  nodes are marked, so it is left as it is.
-/
def stamp : Expr → Stamping Expr
  | const none c => return const (← Stamping.fresh) c
  | var none v => return var (← Stamping.fresh) v
  | not none x => do
      let x' ← stamp x
      return not (← Stamping.fresh) x'
  | gate none op a b => do
      let a' ← stamp a
      let b' ← stamp b
      return gate (← Stamping.fresh) op a' b'
  | compare none op a b => do
      let a' ← stamp a
      let b' ← stamp b
      return compare (← Stamping.fresh) op a' b'
  | mux none s t f => do
      let s' ← stamp s
      let t' ← stamp t
      let f' ← stamp f
      return mux (← Stamping.fresh) s' t' f'
  | bit none b i => do
      let b' ← stamp b
      return bit (← Stamping.fresh) b' i
  | part none b m l => do
      let b' ← stamp b
      return part (← Stamping.fresh) b' m l
  | concat none parts => do
      let parts' ← stampAll parts
      return concat (← Stamping.fresh) parts'
  | e => return e

def stampAll : List Expr → Stamping (List Expr)
  | [] => return []
  | p :: ps => do
      let p' ← stamp p
      return p' :: (← stampAll ps)

end

end Expr

end Gatework
