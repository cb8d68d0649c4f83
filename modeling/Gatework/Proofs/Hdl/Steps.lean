import Gatework.Proofs.Hdl.Named
import Mathlib.Logic.Relation

/-
  What parsers give, and how they come to an end.

  A parser moves by single steps that read a token, take note
  of a name or report a problem. Every loop has a bound on its
  rounds, and a cursor keeps a mark of a loop that was cut off
  at it, which is no such step. Each round of a loop costs a
  token, so on tokens that end with the end of the file their
  number is bound enough.

  One description serves for every parser: in front of such
  tokens, named as is asked, it only makes moves, and what it
  gives has a property.

  Key definitions include:
    * `Hdl.Closed`
    * `Hdl.Cursor.Step` and `Hdl.Cursor.Leads`
    * `Hdl.Cursor.Ready`
    * `Hdl.Parse.Gives` and `Hdl.Parse.Reads`

  Key theorems include:
    * `Hdl.Cursor.Leads.suffix` and `Hdl.Cursor.Leads.closed`
    * `Hdl.Cursor.Leads.exhausted`
    * `Hdl.Parse.Gives.bind`
    * `Hdl.Parse.gives_expectName`
    * `Hdl.Parse.gives_commaList` and
      `Hdl.Parse.gives_itemsUntil`
-/

------------------------------------------------------------
-- Moves of a cursor
------------------------------------------------------------

namespace Gatework.Hdl

/- Tokens of which the last one is the end of the file. -/
def Closed
    (tokens : List Token) :
    Prop :=
  ∃ t, tokens.getLast? = some t ∧ t.kind = .endOfFile

theorem Closed.length_pos
    {tokens : List Token}
    (hClosed : Closed tokens) :
    0 < tokens.length := by
  rcases hClosed with ⟨t, hLast, _⟩
  exact List.length_pos_of_mem (List.mem_of_getLast? hLast)

/- Tokens that are left behind another kind of token. -/
theorem Closed.tail
    {t : Token}
    {rest : List Token}
    (hClosed : Closed (t :: rest))
    (hKind : t.kind ≠ .endOfFile) :
    Closed rest := by
  rcases hClosed with ⟨last, hLast, hEnd⟩
  cases rest with
  | nil =>
      cases hLast
      exact absurd hEnd hKind
  | cons u rest => exact ⟨last, hLast, hEnd⟩

theorem Closed.drop
    {tokens : List Token}
    (hClosed : Closed tokens)
    {i : Nat}
    (hi : i < tokens.length) :
    Closed (tokens.drop i) := by
  rcases hClosed with ⟨t, hLast, hEnd⟩
  refine ⟨t, ?_, hEnd⟩
  rw [List.getLast?_drop, if_neg (by omega), hLast]

namespace Cursor

/-
  One move of a parser: it reads a token in front of others,
  takes note of a name or reports a problem.
-/
inductive Step : Cursor → Cursor → Prop where
  | read {c t rest} :
      c.rest = t :: rest →
      t.kind ≠ .endOfFile →
      Step c { c with rest := rest, last := some t.span }
  | note {c} (name : String) :
      Step c { c with names := (c.names.add name).2 }
  | find {c} (message : String) (span : Span) :
      Step c (c.report message span)

/- Any number of moves. -/
abbrev Leads : Cursor → Cursor → Prop :=
  Relation.ReflTransGen Step

variable {c c' : Cursor}

theorem Step.suffix
    (hStep : Step c c') :
    c'.rest <:+ c.rest := by
  cases hStep with
  | read hRest _ =>
      rw [hRest]
      exact List.suffix_cons _ _
  | note name => exact List.suffix_refl _
  | find message span => exact List.suffix_refl _

/- No move goes back. -/
theorem Leads.suffix
    (hLeads : Leads c c') :
    c'.rest <:+ c.rest := by
  induction hLeads with
  | refl => exact List.suffix_refl _
  | tail _ hStep ih => exact hStep.suffix.trans ih

theorem Leads.length_le
    (hLeads : Leads c c') :
    c'.rest.length ≤ c.rest.length :=
  hLeads.suffix.length_le

/- No move goes past the end of the file. -/
theorem Leads.closed
    (hLeads : Leads c c')
    (hClosed : Closed c.rest) :
    Closed c'.rest := by
  induction hLeads with
  | refl => exact hClosed
  | tail _ hStep ih =>
      cases hStep with
      | read hRest hKind =>
          rw [hRest] at ih
          exact ih.tail hKind
      | note name => exact ih
      | find message span => exact ih

/- No move is that of a loop that is cut off. -/
theorem Leads.exhausted
    (hLeads : Leads c c') :
    c'.exhausted = c.exhausted := by
  induction hLeads with
  | refl => rfl
  | tail _ hStep ih =>
      cases hStep with
      | read hRest hKind => exact ih
      | note name => exact ih
      | find message span => exact ih

theorem kind_eq_of_rest_eq
    (hRest : c'.rest = c.rest) :
    c'.kind = c.kind := by
  unfold kind
  rw [hRest]

/- A token that is not the end of the file is read. -/
theorem step_advance
    (hKind : c.kind ≠ .endOfFile) :
    Step c c.advance ∧
      c.advance.rest.length < c.rest.length := by
  unfold kind at hKind
  unfold advance
  cases hRest : c.rest with
  | nil =>
      rw [hRest] at hKind
      exact absurd rfl hKind
  | cons t rest =>
      rw [hRest] at hKind
      dsimp only at hKind ⊢
      rw [if_neg hKind]
      exact ⟨.read hRest hKind, Nat.lt_succ_self _⟩

theorem leads_advance
    (c : Cursor) :
    Leads c c.advance := by
  by_cases hKind : c.kind = .endOfFile
  · have hStay : c.advance = c := by
      unfold kind at hKind
      unfold advance
      cases hRest : c.rest with
      | nil => rfl
      | cons t rest =>
          rw [hRest] at hKind
          exact if_pos hKind
    rw [hStay]
  · exact .single (step_advance hKind).1

theorem leads_missing
    (c : Cursor)
    (what : String) :
    Leads c (c.missing what) := by
  unfold missing
  split
  · exact .refl
  · exact .single (.find _ _)

/-
  A cursor in front of at most so many tokens, of which the
  last one is the end of the file and all names have a
  property.
-/
structure Ready
    (N : String → Prop)
    (n : Nat)
    (c : Cursor) :
    Prop where
  closed : Closed c.rest
  named : Named N c.rest
  length_le : c.rest.length ≤ n

variable {N : String → Prop}
variable {n k : Nat}

theorem Ready.leads
    (hReady : c.Ready N n)
    (hLeads : Leads c c') :
    c'.Ready N n where
  closed := hLeads.closed hReady.closed
  named := hReady.named.suffix hLeads.suffix
  length_le := Nat.le_trans hLeads.length_le hReady.length_le

theorem Ready.atMost
    (hReady : c.Ready N n)
    (hLength : c.rest.length ≤ k) :
    c.Ready N k :=
  { hReady with length_le := hLength }

/- There is always a token to start from. -/
theorem Ready.pos
    (hReady : c.Ready N n) :
    0 < n :=
  Nat.lt_of_lt_of_le hReady.closed.length_pos hReady.length_le

end Cursor

end Gatework.Hdl

------------------------------------------------------------
-- Parsers without loops
------------------------------------------------------------

namespace Gatework.Hdl

namespace Parse

open Cursor

variable {α β : Type}
variable {N : String → Prop}
variable {n k : Nat}
variable {kind : TokenKind}
variable {m : Parse α}
variable {P : α → Prop}
variable {Q : β → Prop}

/- A parser that makes moves which read no token. -/
def Stays
    (m : Parse α) :
    Prop :=
  ∀ c : Cursor, Leads c (m c).2 ∧ (m c).2.rest = c.rest

/-
  In front of tokens that are named and closed, at most so
  many, a parser only makes moves and gives what has a
  property.
-/
def Gives
    (N : String → Prop)
    (n : Nat)
    (m : Parse α)
    (P : α → Prop) :
    Prop :=
  ∀ c : Cursor, c.Ready N n → Leads c (m c).2 ∧ P (m c).1

/- A parser of which the result does not matter. -/
def Moves
    (N : String → Prop)
    (n : Nat)
    (m : Parse α) :
    Prop :=
  Gives N n m fun _ => True

/- The same in front of a token of a kind. -/
def GivesAt
    (N : String → Prop)
    (n : Nat)
    (kind : TokenKind)
    (m : Parse α)
    (P : α → Prop) :
    Prop :=
  ∀ c : Cursor, c.Ready N n → c.kind = kind →
    Leads c (m c).2 ∧ P (m c).1

/-
  In front of a token of a kind and at most so many tokens
  behind it, a parser reads the token, too. This is what lets
  it call other parsers with a smaller bound.
-/
def Reads
    (N : String → Prop)
    (n : Nat)
    (kind : TokenKind)
    (m : Parse α)
    (P : α → Prop) :
    Prop :=
  ∀ c : Cursor, c.Ready N (n + 1) → c.kind = kind →
    Leads c (m c).2 ∧
      (m c).2.rest.length < c.rest.length ∧ P (m c).1

theorem Gives.mono
    (hm : Gives N n m P)
    (hk : k ≤ n) :
    Gives N k m P :=
  fun c hReady => hm c
    (hReady.atMost (Nat.le_trans hReady.length_le hk))

theorem gives_zero
    (m : Parse α) :
    Gives N 0 m P :=
  fun _ hReady => absurd hReady.pos (Nat.lt_irrefl 0)

theorem bind_apply
    (m : Parse α)
    (f : α → Parse β)
    (c : Cursor) :
    (m >>= f) c = f (m c).1 (m c).2 :=
  rfl

theorem Gives.bind
    {f : α → Parse β}
    (hm : Gives N n m P)
    (hf : ∀ a, P a → Gives N n (f a) Q) :
    Gives N n (m >>= f) Q := by
  intro c hReady
  rcases hm c hReady with ⟨hLeads, ha⟩
  rcases hf _ ha _ (hReady.leads hLeads) with ⟨hMore, hb⟩
  exact ⟨hLeads.trans hMore, hb⟩

theorem Gives.moves
    (hm : Gives N n m P) :
    Moves N n m :=
  fun c hReady => ⟨(hm c hReady).1, trivial⟩

/- A step whose result does not matter for what follows. -/
theorem Moves.then
    {f : α → Parse β}
    (hm : Moves N n m)
    (hf : ∀ a, Gives N n (f a) Q) :
    Gives N n (m >>= f) Q :=
  hm.bind fun a _ => hf a

theorem Moves.discard
    (hm : Moves N n m) :
    Moves N n (discard m) :=
  fun c hReady => ⟨(hm c hReady).1, trivial⟩

theorem Stays.moves
    (hm : Stays m) :
    Moves N n m :=
  fun c _ => ⟨(hm c).1, trivial⟩

theorem Stays.then
    {f : α → Parse β}
    (hm : Stays m)
    (hf : ∀ a, Gives N n (f a) Q) :
    Gives N n (m >>= f) Q :=
  hm.moves.then hf

/- What comes before the token is read. -/
theorem Stays.before
    {f : α → Parse β}
    (hm : Stays m)
    (hf : ∀ a, Reads N n kind (f a) Q) :
    Reads N n kind (m >>= f) Q := by
  intro c hReady hKind
  rcases hm c with ⟨hLeads, hRest⟩
  rcases hf (m c).1 (m c).2 (hReady.leads hLeads)
    ((kind_eq_of_rest_eq hRest).trans hKind) with
    ⟨hMore, hShorter, hb⟩
  exact ⟨hLeads.trans hMore, hRest ▸ hShorter, hb⟩

/- A token that is there is read, the others come after it. -/
theorem reads_advance
    {f : Unit → Parse β}
    (hKind : kind ≠ .endOfFile)
    (hf : Gives N n (f ()) Q) :
    Reads N n kind (advance >>= f) Q := by
  intro c hReady hHere
  rcases step_advance (hHere ▸ hKind) with ⟨hStep, hShorter⟩
  have hBehind : c.advance.rest.length ≤ n := by
    have hLength := hReady.length_le
    omega
  rcases hf c.advance ((hReady.leads (.single hStep)).atMost
    hBehind) with ⟨hMore, hb⟩
  exact ⟨.head hStep hMore,
    Nat.lt_of_le_of_lt hMore.length_le hShorter, hb⟩

theorem Reads.givesAt
    (hm : Reads N n kind m P) :
    GivesAt N (n + 1) kind m P := by
  intro c hReady hKind
  rcases hm c hReady hKind with ⟨hLeads, _, ha⟩
  exact ⟨hLeads, ha⟩

theorem Gives.at
    (hm : Gives N n m P)
    (kind : TokenKind) :
    GivesAt N n kind m P :=
  fun c hReady _ => hm c hReady

/- The kind of the current token decides what follows. -/
theorem gives_kind
    {f : TokenKind → Parse β}
    (hf : ∀ kind, GivesAt N n kind (f kind) Q) :
    Gives N n (Parse.kind >>= f) Q :=
  fun c hReady => hf c.kind c hReady rfl

/- The cursor is looked at, and bounds what follows. -/
theorem gives_get
    {f : Cursor → Parse β}
    (hf : ∀ c : Cursor, c.Ready N n →
      Gives N c.rest.length (f c) Q) :
    Gives N n (get >>= f) Q :=
  fun c hReady => hf c hReady c (hReady.atMost (Nat.le_refl _))

theorem gives_pure
    {a : α}
    (ha : P a) :
    Gives N n (pure a) P :=
  fun _ _ => ⟨.refl, ha⟩

theorem moves_pure
    (a : α) :
    Moves N n (pure a) :=
  gives_pure trivial

theorem Gives.map
    {f : α → β}
    (hm : Gives N n m P)
    (hf : ∀ a, P a → Q (f a)) :
    Gives N n (do return f (← m)) Q :=
  hm.bind fun a ha => gives_pure (hf a ha)

theorem Reads.map
    {f : α → β}
    (hm : Reads N n kind m P)
    (hf : ∀ a, P a → Q (f a)) :
    Reads N n kind (do return f (← m)) Q := by
  intro c hReady hKind
  rcases hm c hReady hKind with ⟨hLeads, hShorter, ha⟩
  exact ⟨hLeads, hShorter, hf _ ha⟩

theorem stays_pure
    (a : α) :
    Stays (pure a) :=
  fun _ => ⟨.refl, rfl⟩

theorem stays_get :
    Stays (get : Parse Cursor) :=
  fun _ => ⟨.refl, rfl⟩

theorem stays_kind : Stays Parse.kind :=
  fun _ => ⟨.refl, rfl⟩

theorem stays_here : Stays here :=
  fun _ => ⟨.refl, rfl⟩

theorem stays_since
    (start : Span) :
    Stays (since start) :=
  fun _ => ⟨.refl, rfl⟩

theorem stays_report
    (message : String)
    (span : Span) :
    Stays (report message span) :=
  fun _ => ⟨.single (.find message span), rfl⟩

theorem stays_missing
    (what : String) :
    Stays (missing what) := by
  intro c
  refine ⟨leads_missing c what, ?_⟩
  change (c.missing what).rest = c.rest
  unfold Cursor.missing
  split <;> rfl

theorem stays_looksAt
    (kind : TokenKind) :
    Stays (looksAt kind) :=
  fun _ => ⟨.refl, rfl⟩

theorem stays_noteName
    (name : String) :
    Stays (noteName name) :=
  fun _ => ⟨.single (.note name), rfl⟩

/- What is read is given a span, and that is the end of it. -/
theorem gives_since
    {f : Span → α}
    (start : Span)
    (hf : ∀ span, P (f span)) :
    Gives N n (do return f (← since start)) P :=
  (stays_since start).then fun span => gives_pure (hf span)

theorem moves_advance :
    Moves N n advance :=
  fun c _ => ⟨leads_advance c, trivial⟩

theorem eat_apply
    (kind : TokenKind)
    (c : Cursor) :
    eat kind c =
      if c.kind = kind then (true, c.advance) else (false, c) := by
  change (if decide (c.kind = kind) = true
      then (do advance; return true : Parse Bool)
      else return false) c = _
  by_cases hKind : c.kind = kind
  · rw [decide_eq_true hKind, if_pos hKind]
    rfl
  · rw [decide_eq_false hKind, if_neg hKind]
    rfl

theorem moves_eat
    (kind : TokenKind) :
    Moves N n (eat kind) := by
  intro c _
  rw [eat_apply]
  split
  · exact ⟨leads_advance c, trivial⟩
  · exact ⟨.refl, trivial⟩

theorem moves_expect
    (kind : TokenKind) :
    Moves N n (expect kind) := by
  apply (moves_eat kind).then
  intro found
  split
  · exact moves_pure _
  · exact (stays_missing _).moves

theorem reads_expect
    {f : Unit → Parse β}
    (hKind : kind ≠ .endOfFile)
    (hf : Gives N n (f ()) Q) :
    Reads N n kind (expect kind >>= f) Q := by
  intro c hReady hHere
  have hExpect : (expect kind >>= f) c = (advance >>= f) c := by
    change ((if (eat kind c).1 = true
        then (return () : Parse Unit)
        else missing kind.describe) >>= f) (eat kind c).2 = _
    rw [eat_apply, if_pos hHere]
    rfl
  rw [hExpect]
  exact reads_advance hKind hf c hReady hHere

/- A name that is read has the property of all names. -/
theorem gives_expectName :
    Gives N n expectName N := by
  have hNote : ∀ {k name}, N name →
      Gives N k (noteName name) N :=
    fun hName c _ => ⟨(stays_noteName _ c).1, hName⟩
  unfold expectName
  apply gives_get
  intro c hReady
  split
  case h_1 text span rest hRest =>
      apply moves_advance.then
      intro _
      have hMem : (⟨.identifier, text, span⟩ : Token) ∈ c.rest :=
        hRest ▸ List.mem_cons_self ..
      exact hNote (hReady.named.text _ hMem rfl)
  case h_2 =>
      apply (stays_missing _).then
      intro _
      exact hNote hReady.named.missing

/- What is left after a token was there and was read. -/
theorem gives_eaten
    {yes no : Parse α}
    (kind : TokenKind)
    (hKind : kind ≠ .endOfFile)
    (hYes : Gives N n yes P)
    (hNo : Gives N (n + 1) no P) :
    Gives N (n + 1) (do if ← eat kind then yes else no) P := by
  intro c hReady
  change Leads c ((if (eat kind c).1 = true then yes else no)
    (eat kind c).2).2 ∧ P ((if (eat kind c).1 = true then yes
      else no) (eat kind c).2).1
  rw [eat_apply]
  by_cases hHere : c.kind = kind
  · rw [if_pos hHere]
    exact (reads_advance (f := fun _ => yes) hKind
      hYes).givesAt c hReady hHere
  · rw [if_neg hHere]
    exact hNo c hReady

/- What is read only after a test. -/
theorem gives_optional
    {test : Parse Bool}
    (hTest : Moves N n test)
    (hm : Gives N n m P) :
    Gives N n
      (do
        if ← test then
          return some (← m)
        else
          return none)
      (fun found => ∀ a, found = some a → P a) := by
  apply hTest.then
  intro found
  split
  · apply hm.map
    rintro a ha _ ⟨⟩
    exact ha
  · exact gives_pure nofun

theorem gives_ifEaten
    (kind : TokenKind)
    (hm : Gives N n m P) :
    Gives N n (ifEaten kind m)
      (fun found => ∀ a, found = some a → P a) :=
  gives_optional (moves_eat kind) hm

theorem gives_ifAt
    (kind : TokenKind)
    (hm : Gives N n m P) :
    Gives N n (ifAt kind m)
      (fun found => ∀ a, found = some a → P a) :=
  gives_optional (stays_looksAt kind).moves hm

/- A step that is taken only under a condition. -/
theorem moves_when
    (p : Prop)
    [Decidable p]
    {step : Parse Unit}
    (hStep : Moves N n step)
    (hm : Gives N n m P) :
    Gives N n (do
      if p then step
      m) P := by
  split
  · exact hStep.then fun _ => hm
  · exact hm

end Parse

end Gatework.Hdl

------------------------------------------------------------
-- Loops
------------------------------------------------------------

namespace Gatework.Hdl

namespace Parse

open Cursor

variable {α : Type}
variable {N : String → Prop}
variable {n fuel : Nat}
variable {item : Parse α}
variable {P : α → Prop}
variable {stops : List TokenKind}

theorem gives_nil :
    Gives N n (pure []) (fun xs : List α => ∀ x ∈ xs, P x) :=
  gives_pure (List.forall_mem_nil _)

/- One more element in front of a list. -/
theorem gives_cons
    {more : Parse (List α)}
    {first : α}
    (hFirst : P first)
    (hMore : Gives N n more (fun xs => ∀ x ∈ xs, P x)) :
    Gives N n (do return first :: (← more))
      (fun xs => ∀ x ∈ xs, P x) :=
  hMore.map fun _ hxs => List.forall_mem_cons.mpr ⟨hFirst, hxs⟩

/- Every item costs a comma. -/
theorem gives_afterCommas
    (hItem : Gives N n item P)
    (hFuel : n ≤ fuel) :
    Gives N n (afterCommas item fuel) (fun xs => ∀ x ∈ xs, P x) := by
  induction fuel generalizing n with
  | zero =>
      rw [Nat.le_zero.mp hFuel]
      exact gives_zero _
  | succ fuel ih =>
      cases n with
      | zero => exact gives_zero _
      | succ n =>
          have hItem' := hItem.mono (Nat.le_succ n)
          apply gives_eaten (.symbol .comma) nofun
          · apply hItem'.bind
            intro first hFirst
            exact gives_cons hFirst
              (ih hItem' (Nat.le_of_succ_le_succ hFuel))
          · exact gives_nil

/- A list between commas has a first element. -/
theorem gives_commaList
    (hItem : Gives N n item P) :
    Gives N n (commaList item)
      (fun xs => xs ≠ [] ∧ ∀ x ∈ xs, P x) := by
  apply hItem.bind
  intro first hFirst
  apply gives_get
  intro c hReady
  apply (gives_afterCommas (hItem.mono hReady.length_le)
    (Nat.le_refl _)).map
  exact fun others hOthers => ⟨List.cons_ne_nil _ _,
    List.forall_mem_cons.mpr ⟨hFirst, hOthers⟩⟩

theorem atEnd_apply
    (c : Cursor) :
    atEnd stops c =
      (decide (c.kind ∈ TokenKind.endOfFile :: stops), c) :=
  rfl

/- Every step reads a token. -/
theorem moves_skipSteps
    (hFuel : n ≤ fuel) :
    Moves N n (skipSteps stops fuel) := by
  induction fuel generalizing n with
  | zero =>
      rw [Nat.le_zero.mp hFuel]
      exact gives_zero _
  | succ fuel ih =>
      cases n with
      | zero => exact gives_zero _
      | succ n =>
          intro c hReady
          change Leads c ((if (atEnd stops c).1 = true
            then (return () : Parse Unit)
            else do advance; skipSteps stops fuel) c).2 ∧ True
          rw [atEnd_apply]
          by_cases hEnd : c.kind ∈ TokenKind.endOfFile :: stops
          · rw [if_pos (decide_eq_true hEnd)]
            exact ⟨.refl, trivial⟩
          · rw [if_neg (by simpa using hEnd)]
            have hKind : c.kind ≠ .endOfFile :=
              fun h => hEnd (h ▸ List.mem_cons_self ..)
            have hRead : Reads N n c.kind (do
                advance
                skipSteps stops fuel) (fun _ => True) :=
              reads_advance hKind
                (ih (Nat.le_of_succ_le_succ hFuel))
            exact hRead.givesAt c hReady rfl

theorem moves_skipTo
    (stops : List TokenKind) :
    Moves N n (skipTo stops) :=
  gives_get fun _ _ => moves_skipSteps (Nat.le_refl _)

/- The cursor past a token that an item did not accept. -/
def stepOver
    (before after : Cursor) :
    Cursor :=
  if after.rest.length = before.rest.length then
    after.advance
  else
    after

/- A round of items ends behind where it began. -/
theorem leads_stepOver
    {c c' : Cursor}
    (hKind : c.kind ≠ .endOfFile)
    (hLeads : Leads c c') :
    Leads c (stepOver c c') ∧
      (stepOver c c').rest.length < c.rest.length := by
  unfold stepOver
  by_cases hLength : c'.rest.length = c.rest.length
  · rw [if_pos hLength]
    have hRest : c'.rest = c.rest :=
      hLeads.suffix.eq_of_length hLength
    rcases step_advance (kind_eq_of_rest_eq hRest ▸ hKind) with
      ⟨hStep, hShorter⟩
    exact ⟨hLeads.tail hStep, hLength ▸ hShorter⟩
  · rw [if_neg hLength]
    exact ⟨hLeads, Nat.lt_of_le_of_ne hLeads.length_le hLength⟩

theorem itemsUntil_succ_apply
    (c : Cursor) :
    itemsUntil stops item (fuel + 1) c =
      if c.kind ∈ TokenKind.endOfFile :: stops then
        ([], c)
      else
        let (others, c') := itemsUntil stops item fuel
          (stepOver c (item c).2)
        ((item c).1 :: others, c') := by
  rw [itemsUntil]
  change (if (atEnd stops c).1 = true
    then (return [] : Parse (List α))
    else _) c = _
  rw [atEnd_apply]
  by_cases hEnd : c.kind ∈ TokenKind.endOfFile :: stops
  · rw [if_pos hEnd, if_pos (decide_eq_true hEnd)]
    rfl
  · rw [if_neg hEnd, if_neg (by simpa using hEnd)]
    unfold stepOver
    change (if (item c).2.rest.length = c.rest.length
      then _ else _ : Parse (List α)) (item c).2 = _
    split <;> rfl

/-
  Items go on up to one of the tokens that end them or the
  end of the file. Each round leaves fewer tokens, also where
  the item reads none.
-/
theorem gives_itemsUntil
    (hItem : Gives N n item P)
    (hFuel : n ≤ fuel)
    {c : Cursor}
    (hReady : c.Ready N n) :
    Leads c (itemsUntil stops item fuel c).2 ∧
      (∀ x ∈ (itemsUntil stops item fuel c).1, P x) ∧
      (itemsUntil stops item fuel c).2.kind ∈
        TokenKind.endOfFile :: stops := by
  induction fuel generalizing n c with
  | zero =>
      have hPos := hReady.pos
      omega
  | succ fuel ih =>
      rw [itemsUntil_succ_apply]
      by_cases hEnd : c.kind ∈ TokenKind.endOfFile :: stops
      · rw [if_pos hEnd]
        exact ⟨.refl, List.forall_mem_nil _, hEnd⟩
      · rw [if_neg hEnd]
        have hKind : c.kind ≠ .endOfFile :=
          fun h => hEnd (h ▸ List.mem_cons_self ..)
        rcases hItem c hReady with ⟨hLeads, hFirst⟩
        rcases leads_stepOver hKind hLeads with ⟨hRound, hShorter⟩
        have hBehind : (stepOver c (item c).2).rest.length ≤
            n - 1 := by
          have hLength := hReady.length_le
          omega
        rcases ih (hItem.mono (Nat.sub_le n 1)) (by omega)
          ((hReady.leads hRound).atMost hBehind) with
          ⟨hMore, hOthers, hLast⟩
        exact ⟨hRound.trans hMore,
          List.forall_mem_cons.mpr ⟨hFirst, hOthers⟩, hLast⟩

theorem gives_manyUntil
    (stops : List TokenKind)
    (hItem : Gives N n item P) :
    Gives N n (manyUntil stops item) (fun xs => ∀ x ∈ xs, P x) := by
  apply gives_get
  intro c hReady c' hReady'
  have hRun := @gives_itemsUntil _ N _ _ item P stops
    (hItem.mono hReady.length_le) (Nat.le_refl _) c' hReady'
  exact ⟨hRun.1, hRun.2.1⟩

end Parse

end Gatework.Hdl
