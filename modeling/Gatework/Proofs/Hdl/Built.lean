import Gatework.Hdl.Parser.Expr
import Gatework.Proofs.Hdl.Nodes
import Gatework.Proofs.Hdl.Steps

/-
  What parsers build where no error is found.

  A parser is described by what it makes of the tokens of a
  node, under the condition that no error has been found at
  its end. An error is never taken back, so none was found on
  the way, and what was expected was there.

  `Gives` describes parsers in front of any tokens, broken ones
  included, and so says nothing of which tokens were taken.
  Here the tokens are those of a text, and every one that is
  taken has its place in the tree.

  Key definitions include:
    * `Hdl.Parse.Keeps` and `Hdl.Parse.Builds`
    * `Hdl.Parse.Yields` and `Hdl.Parse.Extends`
    * `Hdl.Parse.ExtendsAll`

  Key theorems include:
    * `Hdl.Parse.Builds.bind`
    * `Hdl.Parse.builds_expect` and `Hdl.Parse.builds_expectName`
    * `Hdl.Parse.Yields.child`
    * `Hdl.Parse.extends_commaList` and
      `Hdl.Parse.extendsAll_manyUntil`
-/

------------------------------------------------------------
-- Parsers
------------------------------------------------------------

namespace Gatework.Hdl

namespace Cursor

variable {c c' : Cursor}

/- No error was found so far. -/
def Clear
    (c : Cursor) :
    Prop :=
  c.findings.hasErrors = false

theorem Leads.clear
    (hLeads : Leads c c')
    (hClear : c'.Clear) :
    c.Clear := by
  induction hLeads with
  | refl => exact hClear
  | tail _ hStep ih =>
      apply ih
      cases hStep with
      | read hRest hKind => exact hClear
      | note name => exact hClear
      | find message span =>
          exact absurd hClear (by simp [Clear, report,
            Findings.report, Findings.hasErrors,
            Diagnostic.error, Diagnostic.isError])

theorem clear_advance_iff
    (c : Cursor) :
    c.advance.Clear ↔ c.Clear := by
  unfold advance
  split
  · rfl
  · split <;> rfl

theorem not_clear_report
    (c : Cursor)
    (message : String)
    (span : Span) :
    ¬ (c.report message span).Clear := by
  simp [Clear, report, Findings.report, Findings.hasErrors,
    Diagnostic.error, Diagnostic.isError]

/- A cursor in a stream, behind some of its tokens. -/
structure Stands
    {text : String}
    (stream : TokenStream text)
    (before : List Token)
    (c : Cursor) :
    Prop where
  tokens : before ++ c.rest = stream.tokens
  last : c.last = before.getLast?.map Token.span

namespace Stands

variable {text : String}
variable {stream : TokenStream text}
variable {before taken us : List Token}

theorem inOrder
    (hStands : c.Stands stream (before ++ taken)) :
    InOrder (taken ++ c.rest) := by
  have hOrder : InOrder stream.tokens :=
    ⟨stream.inOrder, fun t ht => (stream.sound t ht).start_le_stop⟩
  rw [← hStands.tokens, List.append_assoc] at hOrder
  exact hOrder.sublist (List.sublist_append_right _ _)

theorem sound
    (hStands : c.Stands stream before)
    {t : Token}
    (ht : t ∈ c.rest) :
    t.Sound text := by
  apply stream.sound
  rw [← hStands.tokens]
  exact List.mem_append_right _ ht

/- No token ahead is invalid, so a missing one is an error. -/
theorem not_clear_missing
    (hStands : c.Stands stream before)
    (what : String) :
    ¬ (c.missing what).Clear := by
  have hValid : c.kind ≠ .invalid := by
    unfold Cursor.kind
    cases hRest : c.rest with
    | nil => exact nofun
    | cons t rest =>
        exact (hStands.sound (hRest ▸ List.mem_cons_self ..)).valid
  unfold missing
  rw [if_neg hValid]
  exact c.not_clear_report _ _

/- The token ahead is taken. -/
theorem advance
    {t : Token}
    {rest : List Token}
    (hStands : c.Stands stream before)
    (hRest : c.rest = t :: rest)
    (hKind : t.kind ≠ .endOfFile) :
    c.advance.Stands stream (before ++ [t]) ∧
      c.advance.rest = rest := by
  have hTokens := hStands.tokens
  rw [hRest] at hTokens
  unfold Cursor.advance
  rw [hRest]
  dsimp only
  rw [if_neg hKind]
  refine ⟨⟨?_, ?_⟩, rfl⟩
  · rwa [List.append_assoc]
  · rw [List.getLast?_concat]
    rfl

/- What was ahead was taken or is still ahead. -/
theorem rest_eq
    (hStands : c.Stands stream before)
    (hStands' : c'.Stands stream (before ++ us)) :
    c.rest = us ++ c'.rest := by
  have hTokens := hStands.tokens.trans hStands'.tokens.symm
  rw [List.append_assoc] at hTokens
  exact List.append_cancel_left hTokens

end Stands

end Cursor

/- What may be known of tokens taken and of those ahead. -/
abbrev Condition :=
  List Token → List Token → Prop

namespace Parse

open Cursor

variable {α β : Type}
variable {text : String}
variable {stream : TokenStream text}

/- Errors are never taken back. -/
def Keeps
    (m : Parse α) :
    Prop :=
  ∀ c : Cursor, (m c).2.Clear → c.Clear

/-
  Where tokens were taken under a condition, a parser takes
  more of them and gives a result under another condition, if
  no error is found.
-/
structure Builds
    (stream : TokenStream text)
    (H : Condition)
    (m : Parse α)
    (R : α → Condition) :
    Prop where
  keeps : Keeps m
  run : ∀ {before taken : List Token} {c : Cursor},
    c.Stands stream (before ++ taken) →
    H taken c.rest →
    (m c).2.Clear →
    ∃ us, (m c).2.Stands stream (before ++ (taken ++ us)) ∧
      R (m c).1 (taken ++ us) (m c).2.rest

variable {H H' : Condition}
variable {m : Parse α}
variable {f : α → Parse β}
variable {P P' : α → Condition}
variable {R : β → Condition}

theorem Keeps.bind
    (hm : Keeps m)
    (hf : ∀ a, Keeps (f a)) :
    Keeps (m >>= f) :=
  fun c hClear => hm c (hf _ _ hClear)

theorem Stays.keeps
    (hm : Stays m) :
    Keeps m :=
  fun c hClear => (hm c).1.clear hClear

theorem Builds.bind
    (hm : Builds stream H m P)
    (hf : ∀ a, Builds stream (P a) (f a) R) :
    Builds stream H (m >>= f) R where
  keeps := hm.keeps.bind fun a => (hf a).keeps
  run := by
    intro before taken c hStands hH hClear
    have hBetween := (hf (m c).1).keeps _ hClear
    rcases hm.run hStands hH hBetween with ⟨us, hMiddle, hP⟩
    rcases (hf _).run hMiddle hP hClear with ⟨vs, hEnd, hR⟩
    rw [List.append_assoc] at hEnd hR
    exact ⟨us ++ vs, hEnd, hR⟩

theorem Builds.imp
    (hm : Builds stream H m P)
    (hH : ∀ taken ahead, H' taken ahead → H taken ahead)
    (hP : ∀ a taken ahead, InOrder (taken ++ ahead) →
      P a taken ahead → P' a taken ahead) :
    Builds stream H' m P' where
  keeps := hm.keeps
  run := by
    intro before taken c hStands hH' hClear
    rcases hm.run hStands (hH _ _ hH') hClear with ⟨us, hEnd, hR⟩
    exact ⟨us, hEnd, hP _ _ _ hEnd.inOrder hR⟩

theorem Builds.before
    (hm : Builds stream H m P)
    (hH : ∀ taken ahead, H' taken ahead → H taken ahead) :
    Builds stream H' m P :=
  hm.imp hH fun _ _ _ _ hP => hP

theorem Builds.after
    (hm : Builds stream H m P)
    (hP : ∀ a taken ahead, P a taken ahead → P' a taken ahead) :
    Builds stream H m P' :=
  hm.imp (fun _ _ hH => hH) fun a taken ahead _ => hP a taken ahead

/- A parser that takes no token and finds no error. -/
theorem builds_stay
    (hSame : ∀ c, (m c).2.rest = c.rest ∧
      (m c).2.last = c.last ∧ (m c).2.findings = c.findings)
    (hP : ∀ {before taken : List Token} {c : Cursor},
      c.Stands stream (before ++ taken) →
      H taken c.rest → P (m c).1 taken c.rest) :
    Builds stream H m P where
  keeps := by
    intro c hClear
    rwa [Clear, (hSame c).2.2] at hClear
  run := by
    intro before taken c hStands hH _
    rcases hSame c with ⟨hRest, hLast, _⟩
    refine ⟨[], ⟨?_, ?_⟩, ?_⟩
    · rw [List.append_nil, hRest]
      exact hStands.tokens
    · rw [List.append_nil, hLast]
      exact hStands.last
    · rw [List.append_nil, hRest]
      exact hP hStands hH

theorem builds_pure
    {a : α}
    (hP : ∀ taken ahead, InOrder (taken ++ ahead) →
      H taken ahead → P a taken ahead) :
    Builds stream H (pure a) P :=
  builds_stay (fun _ => ⟨rfl, rfl, rfl⟩)
    fun hStands hH => hP _ _ hStands.inOrder hH

/- A look at the cursor of which nothing is needed. -/
theorem builds_look
    (hSame : ∀ c, (m c).2 = c) :
    Builds stream H m fun _ => H :=
  builds_stay (fun c => by rw [hSame c]; exact ⟨rfl, rfl, rfl⟩)
    fun _ hH => hH

theorem builds_get
    {f : Cursor → Parse β}
    (hf : ∀ c, Builds stream H (f c) R) :
    Builds stream H (get >>= f) R :=
  (builds_look fun _ => rfl).bind hf

theorem builds_exhaust :
    Builds stream H exhaust fun _ => H :=
  builds_stay (fun _ => ⟨rfl, rfl, rfl⟩) fun _ hH => hH

/- The kind of the token ahead. -/
def headKind : List Token → TokenKind
  | [] => .endOfFile
  | t :: _ => t.kind

theorem kind_eq_headKind
    (c : Cursor) :
    c.kind = headKind c.rest :=
  rfl

/- The kind of the current token decides what follows. -/
theorem builds_kind
    {f : TokenKind → Parse β}
    (hf : ∀ kind, Builds stream H (f kind) R) :
    Builds stream H (Parse.kind >>= f) R :=
  (builds_look fun _ => rfl).bind hf

/- The same where the kind is needed later on. -/
theorem builds_kindAt
    {f : TokenKind → Parse β}
    (hf : ∀ kind, Builds stream
      (fun taken ahead => H taken ahead ∧ headKind ahead = kind)
      (f kind) R) :
    Builds stream H (Parse.kind >>= f) R :=
  (builds_stay (fun _ => ⟨rfl, rfl, rfl⟩)
    fun _ hH => ⟨hH, rfl⟩).bind hf

theorem builds_looksAt
    (kind : TokenKind) :
    Builds stream H (looksAt kind) fun _ => H :=
  builds_look fun _ => rfl

theorem builds_missing
    (what : String)
    {next : Parse α}
    (hNext : Keeps next) :
    Builds stream H (do missing what; next) P where
  keeps := (stays_missing what).keeps.bind fun _ => hNext
  run := fun hStands _ hClear =>
    absurd (hNext _ hClear) (hStands.not_clear_missing what)

theorem builds_report
    (message : String)
    (span : Span)
    {next : Parse α}
    (hNext : Keeps next) :
    Builds stream H (do report message span; next) P where
  keeps := (stays_report message span).keeps.bind fun _ => hNext
  run := fun _ _ hClear =>
    absurd (hNext _ hClear) (not_clear_report _ _ _)

end Parse

end Gatework.Hdl

------------------------------------------------------------
-- Parsers inside a node
------------------------------------------------------------

namespace Gatework.Hdl

namespace Parse

open Cursor

variable {α β : Type}
variable {text : String}
variable {stream : TokenStream text}
variable {facts : Prop}
variable {begun : Bool}
variable {start : Span}
variable {parts : List Outline}
variable {kind : TokenKind}

/- The token ahead becomes a token of the node. -/
theorem run_advance
    {before taken : List Token}
    {c : Cursor}
    (hStands : c.Stands stream (before ++ taken))
    (hNode : Node text facts begun start parts taken c.rest)
    (hKind : c.kind ≠ .endOfFile) :
    ∃ us, c.advance.Stands stream (before ++ (taken ++ us)) ∧
      Node text facts true start parts (taken ++ us)
        c.advance.rest := by
  cases hRest : c.rest with
  | nil =>
      rw [kind_eq_headKind, hRest] at hKind
      exact absurd rfl hKind
  | cons t rest =>
      rw [kind_eq_headKind, hRest] at hKind
      rcases hStands.advance hRest hKind with ⟨hEnd, hAhead⟩
      rw [hRest] at hNode
      refine ⟨[t], ?_, ?_⟩
      · rwa [List.append_assoc] at hEnd
      · rw [hAhead]
        exact hNode.read

theorem advance_of_endOfFile
    {c : Cursor}
    (hKind : c.kind = .endOfFile) :
    c.advance = c := by
  unfold Cursor.kind at hKind
  unfold Cursor.advance
  cases hRest : c.rest with
  | nil => rfl
  | cons t rest =>
      rw [hRest] at hKind
      exact if_pos hKind

theorem keeps_advance :
    Keeps advance :=
  fun c => (clear_advance_iff c).mp

theorem builds_advance :
    Builds stream (Node text facts begun start parts) advance
      fun _ => Node text facts begun start parts where
  keeps := keeps_advance
  run := by
    intro before taken c hStands hNode _
    by_cases hKind : c.kind = .endOfFile
    · refine ⟨[], ?_⟩
      change c.advance.Stands _ _ ∧ Node _ _ _ _ _ _ c.advance.rest
      rw [advance_of_endOfFile hKind, List.append_nil]
      exact ⟨hStands, hNode⟩
    · rcases run_advance hStands hNode hKind with
        ⟨us, hEnd, hNode'⟩
      exact ⟨us, hEnd, hNode'.weaken⟩

theorem keeps_eat
    (kind : TokenKind) :
    Keeps (eat kind) := by
  intro c hClear
  rw [eat_apply] at hClear
  split at hClear
  · exact (clear_advance_iff c).mp hClear
  · exact hClear

theorem builds_eat
    (kind : TokenKind) :
    Builds stream (Node text facts begun start parts) (eat kind)
      fun _ => Node text facts begun start parts where
  keeps := keeps_eat kind
  run := by
    intro before taken c hStands hNode hClear
    rw [eat_apply] at hClear ⊢
    split
    case isTrue =>
        rw [if_pos ‹_›] at hClear
        exact builds_advance.run hStands hNode hClear
    case isFalse =>
        refine ⟨[], ?_⟩
        rw [List.append_nil]
        exact ⟨hStands, hNode⟩

theorem keeps_expect
    (kind : TokenKind) :
    Keeps (expect kind) := by
  apply (keeps_eat kind).bind
  intro found
  split
  · exact (stays_pure _).keeps
  · exact (stays_missing _).keeps

theorem expect_apply
    (kind : TokenKind)
    (c : Cursor) :
    expect kind c =
      if c.kind = kind then ((), c.advance)
      else missing kind.describe c := by
  change (if (eat kind c).1 = true then _ else _ : Parse Unit)
    (eat kind c).2 = _
  rw [eat_apply]
  split <;> rfl

/- A token that is expected is there. -/
theorem builds_expect
    {f : Unit → Parse α}
    {P : α → Condition}
    (hKind : kind ≠ .endOfFile)
    (hf : Builds stream (Node text facts true start parts) (f ()) P) :
    Builds stream (Node text facts begun start parts)
      (expect kind >>= f) P := by
  apply Builds.bind (P := fun _ =>
    Node text facts true start parts) _ fun _ => hf
  refine ⟨keeps_expect kind, ?_⟩
  intro before taken c hStands hNode hClear
  rw [expect_apply] at hClear ⊢
  by_cases hHere : c.kind = kind
  · rw [if_pos hHere]
    exact run_advance hStands hNode (hHere ▸ hKind)
  · rw [if_neg hHere] at hClear
    exact absurd hClear (hStands.not_clear_missing _)

/- A name that is there is read and noted, or one is missing. -/
theorem expectName_apply
    (c : Cursor) :
    (∃ t rest names, c.rest = t :: rest ∧ t.kind = .identifier ∧
      expectName c = (t.text, { c.advance with names })) ∨
    ∃ names, expectName c =
      (missingName, { c.missing "identifier" with names }) := by
  rcases c with ⟨tokens⟩
  cases tokens with
  | nil => exact .inr ⟨_, rfl⟩
  | cons t rest =>
      rcases t with ⟨kind, text, span⟩
      cases kind with
      | identifier => exact .inl ⟨_, rest, _, rfl, rfl, rfl⟩
      | _ => exact .inr ⟨_, rfl⟩

theorem keeps_expectName :
    Keeps expectName := by
  intro c hClear
  rcases expectName_apply c with
    ⟨t, rest, names, _, _, hApply⟩ | ⟨names, hApply⟩
  · rw [hApply] at hClear
    exact (clear_advance_iff c).mp hClear
  · rw [hApply] at hClear
    exact (leads_missing c _).clear hClear

theorem present_of_isName
    {name : String}
    (hName : isName name = true) :
    Present name := by
  rintro rfl
  revert hName
  decide

/- A name that is expected is there. -/
theorem builds_expectName :
    Builds stream (Node text facts begun start parts) expectName
      fun name =>
        Node text (facts ∧ Present name) true start parts where
  keeps := keeps_expectName
  run := by
    intro before taken c hStands hNode hClear
    rcases expectName_apply c with
      ⟨t, rest, names, hRest, hKind, hApply⟩ | ⟨names, hApply⟩
    · have hHere : c.kind ≠ .endOfFile := by
        rw [kind_eq_headKind, hRest, headKind, hKind]
        exact nofun
      have hSound := hStands.sound (hRest ▸ List.mem_cons_self ..)
      have hPresent := present_of_isName (hSound.isName hKind)
      rcases run_advance hStands hNode hHere with
        ⟨us, hEnd, hNode'⟩
      rw [hApply]
      exact ⟨us, ⟨hEnd.tokens, hEnd.last⟩,
        hNode'.imp fun h => ⟨h, hPresent⟩⟩
    · rw [hApply] at hClear
      exact absurd hClear (hStands.not_clear_missing _)

end Parse

end Gatework.Hdl

------------------------------------------------------------
-- Parsers of whole nodes
------------------------------------------------------------

namespace Gatework.Hdl

/- Nothing of a node was read. -/
def Fresh : Condition :=
  fun taken _ => taken = []

/- The first token of a node is ahead. -/
def Front
    (start : Span) :
    Condition :=
  fun taken ahead => taken = [] ∧ ∀ t ∈ ahead.head?, t.span = start

theorem Front.node
    {start : Span}
    {taken ahead : List Token}
    (hFront : Front start taken ahead)
    (text : String) :
    Node text True false start [] taken ahead where
  facts := trivial
  begun := nofun
  opened := by
    rcases hFront with ⟨rfl, hHead⟩
    intro hSome
    cases ahead with
    | nil => exact absurd rfl hSome
    | cons t ahead =>
        rw [← hHead t rfl]
        exact ⟨[t], .single t, List.prefix_append [t] ahead,
          Nat.le_refl 1⟩
  holds := holds_nil text taken

namespace Parse

open Cursor

variable {α β : Type}
variable {text : String}
variable {stream : TokenStream text}
variable {facts : Prop}
variable {begun : Bool}
variable {start : Span}
variable {parts : List Outline}
variable {out : α → Outline}
variable {good : α → Prop}

/- A parser of a whole node. -/
def Yields
    (stream : TokenStream text)
    (p : Parse α)
    (out : α → Outline)
    (good : α → Prop) :
    Prop :=
  Builds stream Fresh p
    fun a taken _ => Built text (out a) (good a) taken

/- A parser of some parts of a node. -/
def Extends
    (stream : TokenStream text)
    (p : Parse α)
    (outs : α → List Outline)
    (good : α → Prop) :
    Prop :=
  ∀ facts begun start parts,
    Builds stream (Node text facts begun start parts) p
      fun a => Node text (facts ∧ good a) begun start
        (parts ++ outs a)

theorem Extends.builds
    {p : Parse α}
    {outs : α → List Outline}
    (hp : Extends stream p outs good) :
    Builds stream (Node text facts begun start parts) p
      fun a => Node text (facts ∧ good a) begun start
        (parts ++ outs a) :=
  hp facts begun start parts

theorem Builds.weaken
    {H : Condition}
    {p : Parse α}
    {more : α → Prop}
    {others : α → List Outline}
    (hp : Builds stream H p
      fun a => Node text (more a) true start (others a)) :
    Builds stream H p
      fun a => Node text (more a) begun start (others a) :=
  hp.after fun _ _ _ hNode => Node.weaken hNode

/- The node that was read last ends with the tokens taken. -/
def Ends
    (last : Span) :
    Condition :=
  fun taken _ => ∃ us, Covers last us ∧ us <:+ taken

theorem Yields.last
    {p : Parse α}
    (hp : Yields stream p out good) :
    Builds stream (Node text facts begun start parts) p
      fun a taken ahead =>
        Node text (facts ∧ good a) true start (parts ++ [out a])
          taken ahead ∧ Ends (out a).span taken ahead where
  keeps := hp.keeps
  run := by
    intro before taken c hStands hNode hClear
    rw [← List.append_nil (before ++ taken)] at hStands
    rcases hp.run hStands rfl hClear with ⟨us, hEnd, hBuilt⟩
    rw [List.append_nil] at hStands
    rw [List.nil_append] at hEnd hBuilt
    rw [hStands.rest_eq hEnd] at hNode
    rw [List.append_assoc] at hEnd
    exact ⟨us, hEnd, hNode.append hBuilt hEnd.inOrder.left,
      us, hBuilt.covers, List.suffix_append taken us⟩

/- A whole node is read as a part of another one. -/
theorem Yields.child
    {p : Parse α}
    (hp : Yields stream p out good) :
    Builds stream (Node text facts begun start parts) p
      fun a =>
        Node text (facts ∧ good a) true start (parts ++ [out a]) :=
  hp.last.after fun _ _ _ h => h.1

theorem Yields.extends
    {p : Parse α}
    (hp : Yields stream p out good) :
    Extends stream p (fun a => [out a]) good :=
  fun _ _ _ _ => hp.child.after fun _ _ _ h => h.weaken

theorem extends_expectName :
    Extends stream expectName (fun _ => []) Present := by
  intro facts begun start parts
  apply builds_expectName.after
  intro name taken ahead hNode
  rw [List.append_nil]
  exact hNode.weaken

theorem builds_here :
    Builds stream Fresh here Front :=
  builds_stay (fun _ => ⟨rfl, rfl, rfl⟩) (by
    rintro before taken c hStands rfl
    refine ⟨rfl, ?_⟩
    intro t ht
    cases hRest : c.rest with
    | nil =>
        rw [hRest] at ht
        cases ht
    | cons u rest =>
        rw [hRest] at ht
        cases ht
        change t.span = c.here
        rw [Cursor.here, hRest])

/- A node starts here and reads on. -/
theorem yields_here
    {f : Span → Parse α}
    (hf : ∀ start, Builds stream
      (Node text True false start []) (f start)
      fun a taken _ => Built text (out a) (good a) taken) :
    Yields stream (here >>= f) out good :=
  builds_here.bind fun start =>
    (hf start).before fun _ _ hFront => hFront.node text

/- A node ends with the last token that was read. -/
theorem builds_since
    {make : Span → α}
    (hOut : ∀ s, out (make s) = .node .inner s parts)
    (hGood : facts → ∀ s, good (make s)) :
    Builds stream (Node text facts true start parts)
      (do return make (← since start))
      fun a taken _ => Built text (out a) (good a) taken := by
  have hSince : Builds stream (Node text facts true start parts)
      (since start) fun s taken _ => facts ∧ Covers s taken ∧
        (Outline.node .inner s parts).Faithful text := by
    apply builds_stay fun _ => ⟨rfl, rfl, rfl⟩
    intro before taken c hStands hNode
    have hSome := hNode.begun rfl
    rcases List.eq_nil_or_concat taken with rfl | ⟨front, t, rfl⟩
    · exact absurd rfl hSome
    · have hLast : c.last = some t.span := by
        rw [hStands.last, List.concat_eq_append,
          ← List.append_assoc, List.getLast?_concat]
        rfl
      have hSpan : (since start c).1 = start.merge t.span := by
        change start.merge (c.last.getD c.here) = _
        rw [hLast]
        rfl
      rw [hSpan]
      refine ⟨hNode.facts, ?_⟩
      apply hNode.close (.single t) _ hStands.inOrder
      rw [List.concat_eq_append]
      exact List.suffix_append front [t]
  apply hSince.bind
  intro s
  apply builds_pure
  rintro taken ahead _ ⟨hFacts, hCovers, hFaithful⟩
  rw [← hOut s] at hFaithful
  refine ⟨?_, hFaithful, hGood hFacts s⟩
  rw [hOut s]
  exact hCovers

/- A node ends with the last node that was read. -/
theorem builds_merged
    {a : α}
    {last : Span}
    (hOut : out a = .node .inner (start.merge last) parts)
    (hGood : facts → good a) :
    Builds stream
      (fun taken ahead =>
        Node text facts true start parts taken ahead ∧
          Ends last taken ahead)
      (pure a) fun a taken _ => Built text (out a) (good a) taken := by
  apply builds_pure
  rintro taken ahead hOrder ⟨hNode, us, hLast, hSuffix⟩
  rcases hNode.close hLast hSuffix hOrder with ⟨hCovers, hFaithful⟩
  rw [← hOut] at hFaithful
  refine ⟨?_, hFaithful, hGood hNode.facts⟩
  rw [hOut]
  exact hCovers

end Parse

end Gatework.Hdl

------------------------------------------------------------
-- Loops
------------------------------------------------------------

namespace Gatework.Hdl

namespace Parse

open Cursor

variable {α : Type}
variable {text : String}
variable {stream : TokenStream text}
variable {facts more : Prop}
variable {begun : Bool}
variable {start : Span}
variable {parts others : List Outline}
variable {item : Parse α}
variable {outs : α → List Outline}
variable {good : α → Prop}

/- A result with the parts that were read for it. -/
theorem builds_extended
    {a : α}
    (hOuts : others = parts ++ outs a)
    (hGood : more → facts ∧ good a) :
    Builds stream (Node text more begun start others) (pure a)
      fun a => Node text (facts ∧ good a) begun start
        (parts ++ outs a) := by
  apply builds_pure
  intro taken ahead _ hNode
  rw [← hOuts]
  exact hNode.imp hGood

theorem Extends.congr
    {outs' : α → List Outline}
    (hItem : Extends stream item outs good)
    (hOuts : ∀ a, outs a = outs' a) :
    Extends stream item outs' good := by
  intro facts begun start parts
  apply hItem.builds.after
  intro a taken ahead hNode
  rwa [← hOuts a]

/- Items that are read one behind the other. -/
def ExtendsAll
    (stream : TokenStream text)
    (p : Parse (List α))
    (outs : α → List Outline)
    (good : α → Prop) :
    Prop :=
  Extends stream p (fun as => as.flatMap outs)
    fun as => ∀ a ∈ as, good a

theorem extendsAll_nil :
    ExtendsAll stream (pure []) outs good :=
  fun _ _ _ parts => builds_extended (List.append_nil parts).symm
    fun h => ⟨h, nofun⟩

/- The others behind a first one. -/
theorem ExtendsAll.behind
    {next : Parse (List α)}
    (hNext : ExtendsAll stream next outs good)
    (first : α) :
    Builds stream
      (Node text (facts ∧ good first) begun start
        (parts ++ outs first))
      (do return first :: (← next))
      fun as => Node text (facts ∧ as ≠ [] ∧ ∀ a ∈ as, good a)
        begun start (parts ++ as.flatMap outs) := by
  apply (hNext _ begun start _).bind
  intro others
  apply builds_extended
  · rw [List.flatMap_cons, List.append_assoc]
  · rintro ⟨⟨hFacts, hFirst⟩, hOthers⟩
    exact ⟨hFacts, List.cons_ne_nil _ _,
      List.forall_mem_cons.mpr ⟨hFirst, hOthers⟩⟩

theorem ExtendsAll.after
    {next : Parse (List α)}
    (hNext : ExtendsAll stream next outs good)
    (first : α) :
    Builds stream
      (Node text (facts ∧ good first) begun start
        (parts ++ outs first))
      (do return first :: (← next))
      fun as => Node text (facts ∧ ∀ a ∈ as, good a)
        begun start (parts ++ as.flatMap outs) :=
  (hNext.behind first).after fun _ _ _ hNode =>
    hNode.imp fun h => ⟨h.1, h.2.2⟩

theorem extendsAll_afterCommas
    (hItem : Extends stream item outs good)
    (fuel : Nat) :
    ExtendsAll stream (afterCommas item fuel) outs good := by
  induction fuel with
  | zero =>
      intro facts begun start parts
      apply builds_exhaust.bind
      intro _
      exact extendsAll_nil facts begun start parts
  | succ fuel ih =>
      intro facts begun start parts
      apply (builds_eat _).bind
      intro found
      split
      · apply (hItem facts begun start parts).bind
        exact ih.after
      · exact extendsAll_nil facts begun start parts

/- One item and more after commas, so at least one. -/
theorem extends_commaList
    (hItem : Extends stream item outs good) :
    Extends stream (commaList item)
      (fun as => as.flatMap outs)
      (fun as => as ≠ [] ∧ ∀ a ∈ as, good a) := by
  intro facts begun start parts
  apply (hItem facts begun start parts).bind
  intro first
  apply builds_get
  intro c
  exact (extendsAll_afterCommas hItem _).behind first

theorem extendsAll_commaList
    (hItem : Extends stream item outs good) :
    ExtendsAll stream (commaList item) outs good :=
  fun facts begun start parts =>
    (extends_commaList hItem facts begun start parts).after
      fun _ _ _ hNode => hNode.imp fun h => ⟨h.1, h.2.2⟩

/- What is read or not, after a look at the token ahead. -/
theorem extends_option
    {look : Parse Bool}
    (hLook : ∀ facts begun start parts,
      Builds stream (Node text facts begun start parts) look
        fun _ => Node text facts begun start parts)
    (hItem : Extends stream item outs good) :
    Extends stream (do
        if ← look then
          return some (← item)
        else
          return none)
      (fun o => o.toList.flatMap outs)
      (fun o => ∀ a ∈ o, good a) := by
  intro facts begun start parts
  apply (hLook facts begun start parts).bind
  intro found
  split
  · apply (hItem facts begun start parts).bind
    intro a
    apply builds_extended
    · rw [Option.toList_some, List.flatMap_singleton]
    · rintro ⟨hFacts, ha⟩
      exact ⟨hFacts, fun _ hSame => Option.some.inj hSame ▸ ha⟩
  · exact builds_extended (List.append_nil parts).symm
      fun h => ⟨h, nofun⟩

theorem extends_ifEaten
    (kind : TokenKind)
    (hItem : Extends stream item outs good) :
    Extends stream (ifEaten kind item)
      (fun o => o.toList.flatMap outs)
      (fun o => ∀ a ∈ o, good a) :=
  extends_option (fun _ _ _ _ => builds_eat kind) hItem

theorem extends_ifAt
    (kind : TokenKind)
    (hItem : Extends stream item outs good) :
    Extends stream (ifAt kind item)
      (fun o => o.toList.flatMap outs)
      (fun o => ∀ a ∈ o, good a) :=
  extends_option (fun _ _ _ _ => builds_looksAt kind) hItem

theorem extendsAll_itemsUntil
    (stops : List TokenKind)
    (hItem : Extends stream item outs good)
    (fuel : Nat) :
    ExtendsAll stream (itemsUntil stops item fuel) outs good := by
  induction fuel with
  | zero =>
      intro facts begun start parts
      apply builds_exhaust.bind
      intro _
      exact extendsAll_nil facts begun start parts
  | succ fuel ih =>
      intro facts begun start parts
      apply (builds_look fun _ => rfl).bind
      intro found
      split
      · exact extendsAll_nil facts begun start parts
      · apply builds_get
        intro c
        apply (hItem facts begun start parts).bind
        intro first
        apply builds_get
        intro c'
        split
        · apply builds_advance.bind
          intro _
          exact ih.after first
        · exact ih.after first

theorem extendsAll_manyUntil
    (stops : List TokenKind)
    (hItem : Extends stream item outs good) :
    ExtendsAll stream (manyUntil stops item) outs good :=
  fun facts begun start parts => builds_get fun _ =>
    extendsAll_itemsUntil stops hItem _ facts begun start parts

end Parse

end Gatework.Hdl
