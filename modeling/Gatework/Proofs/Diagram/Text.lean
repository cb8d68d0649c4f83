import Gatework.Proofs.Diagram.Ite

/-
  The text of diagrams.

  A diagram is written as its decision tree. No text of a
  tree begins another one, as long as no name has a comma, so
  the text of a list of trees can be read back.

  Key definitions include:
    * `Decision.text` and `treesText`
    * `Decision.Plain`, no name has a comma

  Key theorems include:
    * `Forest.Sound.renderBits_eq`
    * `Decision.eq_of_text_append`
    * `treesText_inj`
-/

------------------------------------------------------------
-- Text
------------------------------------------------------------

namespace Gatework

namespace Decision

/- Nested tests, the high side first. -/
def text : Decision → String
  | leaf false => "FALSE"
  | leaf true => "TRUE"
  | test a low high =>
      "ite(" ++ a ++ ", " ++ text high ++ ", " ++ text low ++ ")"

end Decision

/- The text of trees between braces. -/
def bracedText
    (ts : List Decision) :
    String :=
  "\x7b" ++ String.intercalate ", " (ts.map Decision.text) ++
    "\x7d"

/- The text of trees, the last first; one stands alone. -/
def treesText : List Decision → String
  | [t] => t.text
  | ts => bracedText ts.reverse

namespace Forest

namespace Sound

variable {forest : Forest}

/- Levels go up on the way down, so the height suffices. -/
theorem renderFor_eq
    (hSound : forest.Sound)
    {n : Nat}
    {f : Ref}
    (hf : f < forest.size)
    (hHeight : forest.bottom < n + forest.levelOf f) :
    forest.renderFor n f = (forest.tree f).text := by
  induction n generalizing f with
  | zero =>
      have hLevel := hSound.levelOf_le hf
      omega
  | succ n ih =>
      rw [renderFor]
      by_cases hZero : f = Ref.zero
      · rw [if_pos hZero, hZero, forest.tree_constant (by decide)]
        rfl
      by_cases hOne : f = Ref.one
      · rw [if_neg hZero, if_pos hOne, hOne,
          forest.tree_constant (by decide)]
        rfl
      have hLe : 2 ≤ f := by
        match f, hOne, hZero with
        | 0, _, hZero => exact absurd rfl hZero
        | 1, hOne, _ => exact absurd rfl hOne
        | n + 2, _, _ => exact Nat.le_add_left 2 n
      have hProper := hSound.proper f hLe hf
      have hLow := hProper.level_low
      have hHigh := hProper.level_high
      rw [if_neg hZero, if_neg hOne, hSound.tree_test hLe hf,
        Decision.text,
        ← ih (Nat.lt_trans hProper.low_lt hf) (by omega),
        ← ih (Nat.lt_trans hProper.high_lt hf) (by omega)]
      rfl

/- Diagrams are written as their trees. -/
theorem renderBits_eq
    (hSound : forest.Sound)
    {bits : List Ref}
    (hBits : ∀ r ∈ bits, r < forest.size) :
    forest.renderBits bits = treesText (bits.map forest.tree) := by
  have hOne : ∀ r ∈ bits,
      forest.render r = (forest.tree r).text :=
    fun r hr => hSound.renderFor_eq (hBits r hr) (by omega)
  match bits, hOne with
  | [], _ => rfl
  | [r], hOne => exact hOne r (List.mem_singleton.mpr rfl)
  | r :: s :: rest, hOne =>
      have hAll : (r :: s :: rest).reverse.map forest.render =
          (((r :: s :: rest).map forest.tree).reverse.map
            Decision.text) := by
        rw [← List.map_reverse, List.map_map]
        apply List.map_congr_left
        intro t ht
        exact hOne t (List.mem_reverse.mp ht)
      have hBraces : forest.renderBits (r :: s :: rest) =
          "\x7b" ++ String.intercalate ", "
            ((r :: s :: rest).reverse.map forest.render) ++
            "\x7d" := rfl
      rw [hBraces, hAll]
      rfl

end Sound

end Forest

end Gatework

------------------------------------------------------------
-- Reading text back
------------------------------------------------------------

namespace Gatework

/- What stands before the first mark is known. -/
theorem eq_of_append_mark
    {mark : Char}
    {xs ys rest rest' : List Char}
    (hx : mark ∉ xs)
    (hy : mark ∉ ys)
    (hSame : xs ++ mark :: rest = ys ++ mark :: rest') :
    xs = ys ∧ rest = rest' := by
  induction xs generalizing ys with
  | nil =>
      cases ys with
      | nil =>
          injection hSame with _ hRest
          exact ⟨rfl, hRest⟩
      | cons y ys =>
          injection hSame with hHead _
          exact absurd (hHead ▸ List.mem_cons_self ..) hy
  | cons x xs ih =>
      cases ys with
      | nil =>
          injection hSame with hHead _
          exact absurd (hHead ▸ List.mem_cons_self ..) hx
      | cons y ys =>
          injection hSame with hHead hTail
          have hx' : mark ∉ xs :=
            fun h => hx (List.mem_cons_of_mem _ h)
          have hy' : mark ∉ ys :=
            fun h => hy (List.mem_cons_of_mem _ h)
          rcases ih hx' hy' hTail with ⟨hEq, hRest⟩
          exact ⟨by rw [hHead, hEq], hRest⟩

namespace Decision

/- No name tested has a comma. -/
def Plain
    (t : Decision) :
    Prop :=
  ∀ a ∈ t.names, ',' ∉ a.toList

theorem Plain.sides
    {a : String}
    {low high : Decision}
    (hPlain : (test a low high).Plain) :
    ',' ∉ a.toList ∧ low.Plain ∧ high.Plain := by
  refine ⟨hPlain a (List.mem_cons_self ..), ?_, ?_⟩
  · intro b hb
    exact hPlain b
      (List.mem_cons_of_mem _ (List.mem_append_left _ hb))
  · intro b hb
    exact hPlain b
      (List.mem_cons_of_mem _ (List.mem_append_right _ hb))

theorem toList_text_test
    (a : String)
    (low high : Decision)
    (rest : List Char) :
    (test a low high).text.toList ++ rest =
      'i' :: 't' :: 'e' :: '(' :: (a.toList ++ ',' :: ' ' ::
        (high.text.toList ++ ',' :: ' ' ::
          (low.text.toList ++ ')' :: rest))) := by
  rw [text]
  simp [String.toList_append]

/-
  No text begins another one: a text says at its first
  character what it is, a name ends at a comma, and the sides
  are read one after the other.
-/
theorem eq_of_text_append
    {t u : Decision}
    (ht : t.Plain)
    (hu : u.Plain)
    {rest rest' : List Char}
    (hSame : t.text.toList ++ rest = u.text.toList ++ rest') :
    t = u ∧ rest = rest' := by
  induction t generalizing u rest rest' with
  | leaf b =>
      cases u with
      | leaf c =>
          cases b <;> cases c
          · exact ⟨rfl, List.append_cancel_left hSame⟩
          · cases hSame
          · cases hSame
          · exact ⟨rfl, List.append_cancel_left hSame⟩
      | test c low high =>
          rw [toList_text_test] at hSame
          cases b <;> cases hSame
  | test a low high ihLow ihHigh =>
      rw [toList_text_test] at hSame
      cases u with
      | leaf c => cases c <;> cases hSame
      | test c low' high' =>
          rw [toList_text_test] at hSame
          rcases ht.sides with ⟨ha, hLow, hHigh⟩
          rcases hu.sides with ⟨hc, hLow', hHigh'⟩
          simp only [List.cons.injEq, true_and] at hSame
          rcases eq_of_append_mark ha hc hSame with ⟨hName, hSides⟩
          simp only [List.cons.injEq, true_and] at hSides
          rcases ihHigh hHigh hHigh' hSides with ⟨hEqHigh, hRest⟩
          simp only [List.cons.injEq, true_and] at hRest
          rcases ihLow hLow hLow' hRest with ⟨hEqLow, hEnd⟩
          simp only [List.cons.injEq, true_and] at hEnd
          rw [String.toList_inj.mp hName, hEqHigh, hEqLow]
          exact ⟨rfl, hEnd⟩

/- A text begins with none of the other marks. -/
theorem exists_text_head
    (t : Decision) :
    ∃ c cs, t.text.toList = c :: cs ∧
      c ≠ '\x7b' ∧ c ≠ '\x7d' := by
  cases t with
  | leaf b => cases b <;> exact ⟨_, _, rfl, by decide, by decide⟩
  | test a low high =>
      have hText := toList_text_test a low high []
      rw [List.append_nil] at hText
      exact ⟨_, _, hText, by decide, by decide⟩

end Decision

/- The texts that follow the first one in a list. -/
def followingText
    (ts : List Decision) :
    List Char :=
  ts.flatMap fun t => ',' :: ' ' :: t.text.toList

theorem toList_intercalate_text
    (t : Decision)
    (ts : List Decision) :
    (String.intercalate ", "
        ((t :: ts).map Decision.text)).toList =
      t.text.toList ++ followingText ts := by
  induction ts generalizing t with
  | nil =>
      rw [List.map_singleton, String.intercalate_singleton]
      exact (List.append_nil _).symm
  | cons u us ih =>
      have hRest := ih u
      rw [List.map_cons] at hRest
      rw [List.map_cons, List.map_cons,
        String.intercalate_cons_cons, String.toList_append, hRest,
        String.toList_append, followingText, followingText,
        List.flatMap_cons]
      simp

theorem followingText_inj
    {ts us : List Decision}
    (ht : ∀ t ∈ ts, t.Plain)
    (hu : ∀ u ∈ us, u.Plain)
    (hSame : followingText ts ++ ['\x7d'] =
      followingText us ++ ['\x7d']) :
    ts = us := by
  induction ts generalizing us with
  | nil =>
      cases us with
      | nil => rfl
      | cons u us => cases hSame
  | cons t ts ih =>
      cases us with
      | nil => cases hSame
      | cons u us =>
          rw [followingText, followingText, List.flatMap_cons,
            List.flatMap_cons] at hSame
          simp only [List.cons_append, List.cons.injEq, true_and,
            List.append_assoc] at hSame
          rcases Decision.eq_of_text_append
            (ht t (List.mem_cons_self ..))
            (hu u (List.mem_cons_self ..)) hSame with ⟨rfl, hRest⟩
          rw [ih (fun t h => ht t (List.mem_cons_of_mem _ h))
            (fun u h => hu u (List.mem_cons_of_mem _ h)) hRest]

theorem toList_bracedText
    (ts : List Decision) :
    (bracedText ts).toList =
      '\x7b' :: ((String.intercalate ", "
        (ts.map Decision.text)).toList ++ ['\x7d']) := by
  rw [bracedText, String.toList_append, String.toList_append]
  rfl

theorem bracedText_inj
    {ts us : List Decision}
    (ht : ∀ t ∈ ts, t.Plain)
    (hu : ∀ u ∈ us, u.Plain)
    (hSame : bracedText ts = bracedText us) :
    ts = us := by
  have hList := congrArg String.toList hSame
  rw [toList_bracedText, toList_bracedText] at hList
  injection hList with _ hList
  cases ts with
  | nil =>
      cases us with
      | nil => rfl
      | cons u us =>
          rcases u.exists_text_head with ⟨c, cs, hHead, _, hClose⟩
          rw [toList_intercalate_text, hHead] at hList
          injection hList with hMark _
          exact absurd hMark.symm hClose
  | cons t ts =>
      rw [toList_intercalate_text, List.append_assoc] at hList
      cases us with
      | nil =>
          rcases t.exists_text_head with ⟨c, cs, hHead, _, hClose⟩
          rw [hHead] at hList
          injection hList with hMark _
          exact absurd hMark hClose
      | cons u us =>
          rw [toList_intercalate_text, List.append_assoc] at hList
          rcases Decision.eq_of_text_append
            (ht t (List.mem_cons_self ..))
            (hu u (List.mem_cons_self ..)) hList with ⟨rfl, hRest⟩
          rw [followingText_inj
            (fun t h => ht t (List.mem_cons_of_mem _ h))
            (fun u h => hu u (List.mem_cons_of_mem _ h)) hRest]

/- One tree and trees in braces begin with different marks. -/
theorem text_ne_bracedText
    (t : Decision)
    (ts : List Decision) :
    t.text ≠ bracedText ts := by
  intro hSame
  have hList := congrArg String.toList hSame
  rcases t.exists_text_head with ⟨c, cs, hHead, hOpen, _⟩
  rw [hHead, toList_bracedText] at hList
  injection hList with hMark _
  exact hOpen hMark

/- The text of trees without commas in names says which. -/
theorem treesText_inj
    {ts us : List Decision}
    (ht : ∀ t ∈ ts, t.Plain)
    (hu : ∀ u ∈ us, u.Plain)
    (hSame : treesText ts = treesText us) :
    ts = us := by
  have hBraced : ∀ {ts us : List Decision},
      (∀ t ∈ ts, t.Plain) → (∀ u ∈ us, u.Plain) →
      bracedText ts.reverse = bracedText us.reverse → ts = us := by
    intro ts us ht hu hSame
    apply List.reverse_inj.mp
    exact bracedText_inj
      (fun t h => ht t (List.mem_reverse.mp h))
      (fun u h => hu u (List.mem_reverse.mp h)) hSame
  unfold treesText at hSame
  split at hSame
  case h_1 t =>
      split at hSame
      case h_1 u =>
          have hEq := (Decision.eq_of_text_append
            (ht t (List.mem_singleton.mpr rfl))
            (hu u (List.mem_singleton.mpr rfl))
            (congrArg (fun s => s.toList ++ []) hSame)).1
          rw [hEq]
      case h_2 => exact absurd hSame (text_ne_bracedText t _)
  case h_2 =>
      split at hSame
      case h_1 u => exact absurd hSame.symm (text_ne_bracedText u _)
      case h_2 => exact hBraced ht hu hSame

end Gatework
