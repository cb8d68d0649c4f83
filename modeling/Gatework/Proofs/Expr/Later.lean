import Gatework.Expr.Bits
import Gatework.Proofs.Expr.Substitution

/-
  Trees that are built later.

  Marks count up, so a tree that is built when others have
  taken marks differs from the same tree built first by a
  constant in its marks. All that is made of trees is then
  made alike: what is taken out of a later tree, put into it
  or stamped on it is again the same, later.

  Key definitions include:
    * `Expr.later`

  Key theorems include:
    * `Expr.bitOf_later` and `Expr.splice_later`
    * `Expr.subst_later`
    * `Expr.identical_later`
    * `Expr.stamp_later`
-/

------------------------------------------------------------
-- Later trees
------------------------------------------------------------

namespace Gatework

/- A mark that was taken later. -/
def Mark.later
    (d : Nat)
    (mark : Mark) :
    Mark :=
  mark.map (· + d)

theorem Mark.beq_later
    (d : Nat)
    (m n : Mark) :
    (m.later d == n.later d) = (m == n) := by
  rw [Bool.eq_iff_iff, beq_iff_eq, beq_iff_eq]
  exact (Option.map_injective (add_left_injective d)).eq_iff

namespace Expr

mutual

/- The tree with marks that were taken later. -/
def later
    (d : Nat) :
    Expr → Expr
  | const m c => const (m.later d) c
  | var m v => var (m.later d) v
  | not m x => not (m.later d) (later d x)
  | gate m op a b => gate (m.later d) op (later d a) (later d b)
  | compare m op a b =>
      compare (m.later d) op (later d a) (later d b)
  | mux m s t f =>
      mux (m.later d) (later d s) (later d t) (later d f)
  | bit m b i => bit (m.later d) (later d b) i
  | part m b h l => part (m.later d) (later d b) h l
  | concat m parts => concat (m.later d) (laterAll d parts)

def laterAll
    (d : Nat) :
    List Expr → List Expr
  | [] => []
  | p :: ps => later d p :: laterAll d ps

end

variable {d : Nat}

theorem laterAll_eq_map
    (parts : List Expr) :
    laterAll d parts = parts.map (later d) := by
  induction parts with
  | nil => rfl
  | cons p ps ih => rw [laterAll, ih, List.map_cons]

/- Without their marks the trees are the same. -/
theorem unmarked_later
    (e : Expr) :
    (e.later d).unmarked = e.unmarked := by
  induction e with
  | const m c => rfl
  | var m v => rfl
  | not m x ih => rw [later, unmarked, unmarked, ih]
  | gate m op a b iha ihb =>
      rw [later, unmarked, unmarked, iha, ihb]
  | compare m op a b iha ihb =>
      rw [later, unmarked, unmarked, iha, ihb]
  | mux m s t f ihs iht ihf =>
      rw [later, unmarked, unmarked, ihs, iht, ihf]
  | bit m b i ih => rw [later, unmarked, unmarked, ih]
  | part m b h l ih => rw [later, unmarked, unmarked, ih]
  | concat m parts ih =>
      rw [later, unmarked, unmarked, laterAll_eq_map,
        unmarkedAll_eq_map, unmarkedAll_eq_map, List.map_map]
      congr 1
      exact List.map_congr_left ih

@[simp] theorem width_later
    (e : Expr) :
    (e.later d).width = e.width :=
  width_eq_of_unmarked (unmarked_later e)

@[simp] theorem value_later
    (e : Expr)
    (τ : String → Nat) :
    (e.later d).value τ = e.value τ :=
  value_eq_of_unmarked (unmarked_later e) τ

@[simp] theorem totalWidth_map_later
    (parts : List Expr) :
    totalWidth (parts.map (later d)) = totalWidth parts := by
  induction parts with
  | nil => rfl
  | cons p ps ih =>
      rw [List.map_cons, totalWidth, totalWidth, width_later, ih]

@[simp] theorem occurrences_later
    (e : Expr) :
    (e.later d).occurrences = e.occurrences := by
  induction e with
  | const m c => rfl
  | var m v => rfl
  | not m x ih => rw [later, occurrences, occurrences, ih]
  | gate m op a b iha ihb =>
      rw [later, occurrences, occurrences, iha, ihb]
  | compare m op a b iha ihb =>
      rw [later, occurrences, occurrences, iha, ihb]
  | mux m s t f ihs iht ihf =>
      rw [later, occurrences, occurrences, ihs, iht, ihf]
  | bit m b i ih => rw [later, occurrences, occurrences, ih]
  | part m b h l ih => rw [later, occurrences, occurrences, ih]
  | concat m parts ih =>
      rw [later, occurrences, occurrences, laterAll_eq_map]
      induction parts with
      | nil => rfl
      | cons p ps ihParts =>
          rw [List.map_cons, occurrencesAll, occurrencesAll,
            ih p (List.mem_cons_self ..),
            ihParts fun q hq => ih q (List.mem_cons_of_mem _ hq)]

@[simp] theorem asConst?_later
    (e : Expr) :
    (e.later d).asConst? = e.asConst? := by
  cases e <;> rfl

/- Trees are told apart as well as they were. -/
theorem identical_later
    (e e' : Expr) :
    (e.later d).identical (e'.later d) = e.identical e' := by
  induction e generalizing e' with
  | const m c =>
      cases e' with
      | const n c' =>
          simp only [later, identical, Mark.beq_later]
      | _ => rfl
  | var m v =>
      cases e' with
      | var n w =>
          simp only [later, identical, Mark.beq_later]
      | _ => rfl
  | not m x ih =>
      cases e' with
      | not n y =>
          simp only [later, identical, Mark.beq_later, ih]
      | _ => rfl
  | gate m op a b iha ihb =>
      cases e' with
      | gate n op' a' b' =>
          simp only [later, identical, Mark.beq_later, iha, ihb]
      | _ => rfl
  | compare m op a b iha ihb =>
      cases e' with
      | compare n op' a' b' =>
          simp only [later, identical, Mark.beq_later, iha, ihb]
      | _ => rfl
  | mux m s t f ihs iht ihf =>
      cases e' with
      | mux n s' t' f' =>
          simp only [later, identical, Mark.beq_later, ihs, iht, ihf]
      | _ => rfl
  | bit m b i ih =>
      cases e' with
      | bit n b' i' =>
          simp only [later, identical, Mark.beq_later, ih]
      | _ => rfl
  | part m b h l ih =>
      cases e' with
      | part n b' h' l' =>
          simp only [later, identical, Mark.beq_later, ih]
      | _ => rfl
  | concat m parts ih =>
      cases e' with
      | concat n others =>
          rw [later, later, identical, identical, Mark.beq_later,
            laterAll_eq_map, laterAll_eq_map]
          congr 1
          induction parts generalizing others with
          | nil => cases others <;> rfl
          | cons p ps ihParts =>
              cases others with
              | nil => rfl
              | cons q qs =>
                  rw [List.map_cons, List.map_cons, identicalAll,
                    identicalAll, ih p (List.mem_cons_self ..),
                    ihParts fun r hr =>
                      ih r (List.mem_cons_of_mem _ hr)]
      | _ => rfl

end Expr

end Gatework

------------------------------------------------------------
-- Bits
------------------------------------------------------------

namespace Gatework

namespace Expr

variable {d : Nat}

theorem joinAll?_map_later
    (op : GateOp)
    (es : List Expr) :
    joinAll? op (es.map (later d)) =
      (joinAll? op es).map (later d) := by
  cases es with
  | nil => rfl
  | cons e es =>
      rw [List.map_cons, joinAll?, joinAll?, Option.map_some,
        List.foldl_map]
      exact congrArg some (List.foldl_hom (later d) fun _ _ => rfl)

theorem conjAll?_map_later
    (es : List Expr) :
    conjAll? (es.map (later d)) = (conjAll? es).map (later d) :=
  joinAll?_map_later .and es

theorem disjAll?_map_later
    (es : List Expr) :
    disjAll? (es.map (later d)) = (disjAll? es).map (later d) :=
  joinAll?_map_later .or es

theorem bitOfParts_later
    {parts : List Expr}
    (hParts : ∀ p ∈ parts, ∀ i,
      (p.later d).bitOf i = (p.bitOf i).later d)
    (i : Nat) :
    bitOfParts (parts.map (later d)) i =
      (bitOfParts parts i).later d := by
  induction parts with
  | nil =>
      rw [List.map_nil, bitOfParts]
      rfl
  | cons p ps ih =>
      have hTail := ih fun q hq =>
        hParts q (List.mem_cons_of_mem _ hq)
      rw [List.map_cons, bitOfParts, bitOfParts,
        totalWidth_map_later, width_later, hTail,
        hParts p (List.mem_cons_self ..)]
      split
      · rfl
      · split <;> rfl

/- A bit of a later tree is the bit, later. -/
theorem bitOf_later
    (e : Expr)
    (i : Nat) :
    (e.later d).bitOf i = (e.bitOf i).later d := by
  induction e generalizing i with
  | gate m op a b iha ihb =>
      rw [later, bitOf, bitOf, ← later, width_later]
      split
      · rfl
      · rw [iha, ihb]
        rfl
  | mux m s t f ihs iht ihf =>
      rw [later, bitOf, bitOf, ← later, width_later]
      split
      · rfl
      · rw [iht, ihf]
        rfl
  | part m b h l ih =>
      rw [later, bitOf, bitOf, ← later, width_later]
      split
      · rfl
      · exact ih _
  | concat m parts ih =>
      rw [later, bitOf, bitOf, ← later, width_later]
      split
      · rfl
      · rw [laterAll_eq_map]
        exact bitOfParts_later ih i
  | _ =>
      rw [later, bitOf, bitOf, ← later, width_later]
      split <;> rfl

theorem join_map_later
    (bits : List Expr) :
    join (bits.map (later d)) = (join bits).later d := by
  match bits with
  | [] => rfl
  | [b] => rfl
  | b :: c :: rest =>
      change concat none _ = later d (concat none _)
      rw [later, laterAll_eq_map]
      rfl

theorem splice_later
    (whole : Expr)
    (low : Nat)
    (value : Expr) :
    (whole.later d).splice low (value.later d) =
      (whole.splice low value).later d := by
  unfold splice
  rw [width_later, width_later, ← join_map_later, List.map_map]
  congr 2
  funext i
  rw [Function.comp_apply]
  split
  · exact bitOf_later value _
  · exact bitOf_later whole i

theorem equalsConst_later
    (subject : Expr)
    (value : Nat) :
    (subject.later d).equalsConst value =
      (subject.equalsConst value).later d := by
  unfold equalsConst
  rw [width_later]
  split
  · rfl
  · have hLiterals : (indicesDown subject.width).map (fun i =>
        literal ((subject.later d).bitOf i) (value.testBit i)) =
          ((indicesDown subject.width).map fun i =>
            literal (subject.bitOf i) (value.testBit i)).map
              (later d) := by
      rw [List.map_map]
      congr 1
      funext i
      rw [Function.comp_apply, bitOf_later]
      unfold literal
      split <;> rfl
    rw [hLiterals, conjAll?_map_later]
    exact Option.getD_map (later d) (ofBool true) _

end Expr

end Gatework

------------------------------------------------------------
-- Substitution and stamps
------------------------------------------------------------

namespace Gatework

namespace Expr

variable {d : Nat}

/- Later trees in the place of signals. -/
theorem subst_later
    {σ σ' : String → Option Expr}
    (hσ : ∀ n, σ' n = (σ n).map (later d))
    (e : Expr) :
    (e.later d).subst σ' = (e.subst σ).later d := by
  induction e with
  | const m c => rfl
  | var m v =>
      rw [later, subst, subst, hσ]
      cases σ v.name <;> rfl
  | not m x ih =>
      rw [later, subst, subst, ih]
      rfl
  | gate m op a b iha ihb =>
      rw [later, subst, subst, iha, ihb]
      rfl
  | compare m op a b iha ihb =>
      rw [later, subst, subst, iha, ihb]
      rfl
  | mux m s t f ihs iht ihf =>
      rw [later, subst, subst, ihs, iht, ihf]
      rfl
  | bit m b i ih =>
      rw [later, subst, subst, ih]
      rfl
  | part m b h l ih =>
      rw [later, subst, subst, ih]
      rfl
  | concat m parts ih =>
      rw [later, subst, subst, later, laterAll_eq_map,
        laterAll_eq_map]
      congr 1
      induction parts with
      | nil => rfl
      | cons p ps ihParts =>
          rw [List.map_cons, substAll, substAll, List.map_cons,
            ih p (List.mem_cons_self ..),
            ihParts fun q hq => ih q (List.mem_cons_of_mem _ hq)]

end Expr

namespace Stamping

variable {α β γ δ : Type}
variable {d : Nat}

/-
  Two computations that take as many marks, the second one
  from later marks on, and give the same but for that.
-/
def InStep
    (d : Nat)
    (g : α → β)
    (m : Stamping α)
    (m' : Stamping β) :
    Prop :=
  ∀ n, m' (n + d) = (g (m n).1, (m n).2 + d)

theorem inStep_pure
    {g : α → β}
    {a : α}
    {b : β}
    (hb : b = g a) :
    InStep d g (pure a) (pure b) :=
  fun n => congrArg (·, n + d) hb

theorem inStep_fresh :
    InStep d (Mark.later d) fresh fresh :=
  fun n => Prod.ext rfl (Nat.add_right_comm n d 1)

theorem InStep.bind
    {g : α → β}
    {h : γ → δ}
    {m : Stamping α}
    {m' : Stamping β}
    {f : α → Stamping γ}
    {f' : β → Stamping δ}
    (hm : InStep d g m m')
    (hf : ∀ a, InStep d h (f a) (f' (g a))) :
    InStep d h (m >>= f) (m' >>= f') := by
  intro n
  change f' (m' (n + d)).1 (m' (n + d)).2 = _
  rw [hm n]
  exact hf (m n).1 (m n).2

/- A node is marked after all that is below it. -/
theorem InStep.node
    {h : γ → δ}
    {f : Mark → γ}
    {f' : Mark → δ}
    (hf : ∀ m, f' (m.later d) = h (f m)) :
    InStep d h (do return f (← fresh)) (do return f' (← fresh)) :=
  inStep_fresh.bind fun m => inStep_pure (hf m)

end Stamping

namespace Expr

variable {d : Nat}

theorem stampAll_later
    {parts : List Expr}
    (hParts : ∀ p ∈ parts,
      Stamping.InStep d (later d) p.stamp (p.later d).stamp) :
    Stamping.InStep d (List.map (later d)) (stampAll parts)
      (stampAll (parts.map (later d))) := by
  induction parts with
  | nil => exact Stamping.inStep_pure rfl
  | cons p ps ih =>
      rw [List.map_cons, stampAll, stampAll]
      refine (hParts p (List.mem_cons_self ..)).bind fun p' => ?_
      refine (ih fun q hq =>
        hParts q (List.mem_cons_of_mem _ hq)).bind fun ps' => ?_
      exact Stamping.inStep_pure rfl

/- Marks taken later are later marks. -/
theorem stamp_later
    (e : Expr) :
    Stamping.InStep d (later d) e.stamp (e.later d).stamp := by
  induction e with
  | const m c =>
      cases m with
      | some k => exact Stamping.inStep_pure rfl
      | none => exact Stamping.InStep.node fun m => rfl
  | var m v =>
      cases m with
      | some k => exact Stamping.inStep_pure rfl
      | none => exact Stamping.InStep.node fun m => rfl
  | not m x ih =>
      cases m with
      | some k => exact Stamping.inStep_pure rfl
      | none =>
          refine ih.bind fun x' => ?_
          exact Stamping.InStep.node fun m => rfl
  | gate m op a b iha ihb =>
      cases m with
      | some k => exact Stamping.inStep_pure rfl
      | none =>
          refine iha.bind fun a' => ihb.bind fun b' => ?_
          exact Stamping.InStep.node fun m => rfl
  | compare m op a b iha ihb =>
      cases m with
      | some k => exact Stamping.inStep_pure rfl
      | none =>
          refine iha.bind fun a' => ihb.bind fun b' => ?_
          exact Stamping.InStep.node fun m => rfl
  | mux m s t f ihs iht ihf =>
      cases m with
      | some k => exact Stamping.inStep_pure rfl
      | none =>
          refine ihs.bind fun s' => iht.bind fun t' => ?_
          refine ihf.bind fun f' => ?_
          exact Stamping.InStep.node fun m => rfl
  | bit m b i ih =>
      cases m with
      | some k => exact Stamping.inStep_pure rfl
      | none =>
          refine ih.bind fun b' => ?_
          exact Stamping.InStep.node fun m => rfl
  | part m b h l ih =>
      cases m with
      | some k => exact Stamping.inStep_pure rfl
      | none =>
          refine ih.bind fun b' => ?_
          exact Stamping.InStep.node fun m => rfl
  | concat m parts ih =>
      cases m with
      | some k => exact Stamping.inStep_pure rfl
      | none =>
          rw [later, laterAll_eq_map]
          refine (stampAll_later ih).bind fun parts' => ?_
          refine Stamping.InStep.node fun m => ?_
          rw [later, laterAll_eq_map]

end Expr

end Gatework
