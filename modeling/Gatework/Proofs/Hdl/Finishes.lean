import Gatework.Proofs.Hdl.Parser

/-
  Files are read to their end, and nothing in them is left
  out.

  What is no item, and what stands in front of a module, is
  skipped; neither that nor any list of items is cut off
  before the end of the file.

  Key theorems include:
    * `Hdl.Parse.gives_item` and `Hdl.Parse.gives_moduleDecl`
    * `Hdl.Parse.file_finishes`
    * `Hdl.Parse.parsers_finish`
    * `Hdl.over_of_mem_modules` and `Hdl.given_of_mem_modules`
-/

------------------------------------------------------------
-- Items
------------------------------------------------------------

namespace Gatework.Hdl

namespace Parse

variable {N : String → Prop}
variable {n : Nat}

theorem moves_eatDirection : Moves N n eatDirection := by
  apply stays_kind.then
  intro found
  exact moves_when _ moves_advance (moves_pure _)

theorem moves_eatNetKind : Moves N n eatNetKind := by
  apply stays_kind.then
  intro found
  exact moves_when _ moves_advance (moves_pure _)

theorem moves_range : Moves N n range := by
  apply stays_here.then
  intro start
  apply (moves_expect _).then
  intro _
  apply gives_expression.moves.then
  intro msb
  apply (moves_expect _).then
  intro _
  apply gives_expression.moves.then
  intro lsb
  apply (moves_expect _).then
  intro _
  exact gives_since start fun _ => trivial

theorem gives_declName :
    Gives N n declName (DeclName.Over N) := by
  apply stays_here.then
  intro start
  apply gives_expectName.bind
  intro name hName
  apply (gives_ifEaten _ gives_expression).bind
  intro init hInit
  exact gives_since start fun _ => ⟨hName, hInit⟩

theorem gives_netDecl :
    Gives N n netDecl (Item.Over N) := by
  apply stays_here.then
  intro start
  apply moves_eatNetKind.then
  intro net
  apply (moves_eat _).then
  intro signed
  apply (gives_ifAt _ moves_range).moves.then
  intro bounds
  apply (gives_commaList gives_declName).bind
  intro names hNames
  apply (moves_expect _).then
  intro _
  exact gives_since start fun _ => hNames.2

theorem gives_pinDecl :
    Gives N n pinDecl (Item.Over N) := by
  apply stays_here.then
  intro start
  apply moves_eatDirection.then
  intro direction
  apply moves_eatNetKind.then
  intro net
  apply (moves_eat _).then
  intro signed
  apply (gives_ifAt _ moves_range).moves.then
  intro bounds
  apply (gives_commaList gives_expectName).bind
  intro names hNames
  apply (moves_expect _).then
  intro _
  exact gives_since start fun _ => hNames.2

theorem gives_continuous :
    Gives N n continuous (Item.Over N) := by
  apply stays_here.then
  intro start
  apply (moves_expect _).then
  intro _
  apply gives_expression.bind
  intro target hTarget
  apply (moves_expect _).then
  intro _
  apply gives_expression.bind
  intro value hValue
  apply (moves_expect _).then
  intro _
  exact gives_since start fun _ => ⟨hTarget, hValue⟩

theorem gives_process
    {make : Stmt → Span → Item}
    (hMake : ∀ body span, body.Over N → (make body span).Over N) :
    Gives N n (process make) (Item.Over N) := by
  apply stays_here.then
  intro start
  apply moves_advance.then
  intro _
  apply gives_statement.bind
  intro body hBody
  exact gives_since start fun span => hMake body span hBody

theorem gives_clocked :
    Gives N n clocked (Item.Over N) := by
  apply stays_here.then
  intro start
  apply moves_advance.then
  intro _
  apply (gives_ifEaten _ moves_sensitivity).moves.then
  intro events
  apply moves_when _ (stays_missing _).moves
  apply gives_statement.bind
  intro body hBody
  exact gives_since start fun _ => trivial

/- Whatever is reported, the skipping is the same. -/
theorem gives_noItem :
    Gives N n noItem (Item.Over N) := by
  apply stays_here.then
  intro start
  have hSkip : Gives N n (do
      skipTo [semicolon, .keyword .endmodule]
      discard (eat semicolon)
      return .broken (← since start)) (Item.Over N) := by
    apply (moves_skipTo _).then
    intro _
    apply (moves_eat _).discard.then
    intro _
    exact gives_since start fun _ => trivial
  apply (stays_looksAt _).then
  intro isName
  split
  · exact (stays_report _ start).then fun _ => hSkip
  · exact (stays_missing _).then fun _ => hSkip

theorem gives_item :
    Gives N n item (Item.Over N) := by
  apply stays_kind.then
  intro found
  split
  case h_7 => exact gives_continuous
  case h_8 => exact gives_process fun _ _ hBody => hBody
  case h_9 => exact gives_process fun _ _ hBody => hBody
  -- Nothing is asked of what latches and registers hold.
  case h_10 => exact gives_process fun _ _ _ => trivial
  case h_11 => exact gives_clocked
  case h_12 => exact gives_noItem
  case h_1 => exact gives_netDecl
  case h_2 => exact gives_netDecl
  case h_3 => exact gives_netDecl
  all_goals exact gives_pinDecl

end Parse

end Gatework.Hdl

------------------------------------------------------------
-- Heads of modules
------------------------------------------------------------

namespace Gatework.Hdl

namespace Parse

open Cursor

variable {N : String → Prop}
variable {n fuel : Nat}

/-
  Every name costs a comma. Two tokens decide whether there
  is one more, so this is no case of `gives_eaten`.
-/
theorem gives_carriedNames
    (hFuel : n ≤ fuel) :
    Gives N n (carriedNames fuel) (fun names => ∀ x ∈ names, N x) := by
  induction fuel generalizing n with
  | zero =>
      rw [Nat.le_zero.mp hFuel]
      exact gives_zero _
  | succ fuel ih =>
      cases n with
      | zero => exact gives_zero _
      | succ n =>
          intro c hReady
          have hRead : Reads N n (.symbol .comma) (do
              advance
              let first ← expectName
              return first :: (← carriedNames fuel))
              (fun names => ∀ x ∈ names, N x) := by
            refine reads_advance nofun ?_
            apply gives_expectName.bind
            intro first hFirst
            exact gives_cons hFirst
              (ih (Nat.le_of_succ_le_succ hFuel))
          have hNext : carriedNames (fuel + 1) c =
              (if c.kind = TokenKind.symbol .comma ∧
                  c.nextKind = TokenKind.identifier
                then (do
                  advance
                  let first ← expectName
                  return first :: (← carriedNames fuel))
                else return []) c :=
            rfl
          rw [hNext]
          split
          case isTrue hComma =>
              exact hRead.givesAt c hReady hComma.1
          case isFalse => exact ⟨.refl, List.forall_mem_nil _⟩

theorem gives_headPin
    (before : Direction) :
    Gives N n (headPin before) (PinDecl.Over N) := by
  apply stays_here.then
  intro start
  apply moves_eatDirection.then
  intro direction
  apply moves_eatNetKind.then
  intro net
  apply (moves_eat _).then
  intro signed
  apply (gives_ifAt _ moves_range).moves.then
  intro bounds
  apply gives_expectName.bind
  intro first hFirst
  apply gives_get
  intro c _
  apply (gives_carriedNames (Nat.le_refl _)).bind
  intro others hOthers
  exact gives_since start fun _ =>
    List.forall_mem_cons.mpr ⟨hFirst, hOthers⟩

/- Every further pin costs a comma. -/
theorem gives_moreHeadPins
    (hFuel : n ≤ fuel)
    (before : Direction) :
    Gives N n (moreHeadPins fuel before)
      (fun pins => ∀ decl ∈ pins, decl.Over N) := by
  induction fuel generalizing n before with
  | zero =>
      rw [Nat.le_zero.mp hFuel]
      exact gives_zero _
  | succ fuel ih =>
      cases n with
      | zero => exact gives_zero _
      | succ n =>
          apply gives_eaten (.symbol .comma) nofun
          · apply (gives_headPin before).bind
            intro first hFirst
            exact gives_cons hFirst
              (ih (Nat.le_of_succ_le_succ hFuel) _)
          · exact gives_nil

theorem gives_headPins :
    Gives N n headPins (fun pins => ∀ decl ∈ pins, decl.Over N) := by
  apply (gives_headPin _).bind
  intro first hFirst
  apply gives_get
  intro c _
  exact gives_cons hFirst (gives_moreHeadPins (Nat.le_refl _) _)

theorem gives_header :
    Gives N n header (Header.Over N) := by
  apply (moves_expect _).then
  intro _
  apply (moves_eat _).then
  intro isEmpty
  split
  · exact gives_pure trivial
  · apply stays_kind.then
    intro start
    split
    · apply gives_headPins.bind
      intro pins hPins
      exact (moves_expect _).then fun _ => gives_pure hPins
    · apply (gives_commaList gives_expectName).moves.then
      intro names
      exact (moves_expect _).then fun _ => gives_pure trivial

end Parse

end Gatework.Hdl

------------------------------------------------------------
-- Files
------------------------------------------------------------

namespace Gatework.Hdl

namespace Parse

open Cursor

variable {N : String → Prop}
variable {n : Nat}

theorem gives_moduleDecl :
    Gives N n moduleDecl (ModuleDecl.Over N) := by
  apply stays_here.then
  intro start
  apply (moves_expect _).then
  intro _
  apply gives_expectName.bind
  intro name hName
  apply (gives_ifAt _ gives_header).bind
  intro head hHead
  apply (moves_expect _).then
  intro _
  apply (gives_manyUntil _ gives_item).bind
  intro items hItems
  apply (moves_expect _).then
  intro _
  apply (gives_ifEaten _ gives_expectName).moves.discard.then
  intro _
  apply gives_since start
  intro span
  refine ⟨hName, ?_, hItems⟩
  cases head with
  | none => trivial
  | some found => exact hHead found rfl

/- What stands in front of a module is no module. -/
theorem gives_topItem :
    Gives N n topItem
      (fun top => ∀ decl, top = .decl decl → decl.Over N) := by
  apply (stays_looksAt _).then
  intro isModule
  split
  · apply gives_moduleDecl.bind
    intro decl hDecl
    apply gives_pure
    rintro _ ⟨⟩
    exact hDecl
  · apply stays_here.then
    intro start
    apply (stays_missing _).then
    intro _
    apply moves_advance.then
    intro _
    apply (moves_skipTo _).then
    intro _
    exact gives_since start fun _ => nofun

/- The items of a file are those in front of its end. -/
theorem file_apply
    (c : Cursor) :
    (file c).1.items = (manyUntil [] topItem c).1 ∧
      (file c).2 = (manyUntil [] topItem c).2 := by
  have hFile : file c =
      (if (manyUntil [] topItem c).1.isEmpty = true
        then (return ⟨(manyUntil [] topItem c).1, c.here⟩ :
          Parse File)
        else do
          return ⟨(manyUntil [] topItem c).1, ← since c.here⟩)
        (manyUntil [] topItem c).2 :=
    rfl
  rw [hFile]
  split <;> exact ⟨rfl, rfl⟩

/-
  A file is read to the end of the file, and in its modules
  nothing is left out.
-/
theorem file_finishes
    {c : Cursor}
    (hReady : c.Ready N n) :
    Leads c (file c).2 ∧
      (∀ decl ∈ (file c).1.modules, decl.Over N) ∧
      (file c).2.kind = .endOfFile := by
  rcases gives_itemsUntil gives_topItem (Nat.le_refl _)
    (hReady.atMost (Nat.le_refl _)) with ⟨hLeads, hItems, hKind⟩
  rcases file_apply c with ⟨hTree, hLast⟩
  rw [hLast]
  refine ⟨hLeads, ?_, List.mem_singleton.mp hKind⟩
  intro decl hDecl
  rcases List.mem_filterMap.mp hDecl with ⟨top, hTop, hSome⟩
  rw [hTree] at hTop
  cases top with
  | decl m =>
      cases hSome
      exact hItems _ hTop _ rfl
  | broken s => cases hSome

end Parse

namespace Cursor

/- The cursor stands at a token of a list. -/
def At
    (c : Cursor)
    (tokens : List Token)
    (i : Nat) :
    Prop :=
  i < tokens.length ∧ c.rest = tokens.drop i

/- Moves lead from a token of a list to the same or later. -/
theorem Leads.at
    {c c' : Cursor}
    {tokens : List Token}
    {i : Nat}
    (hLeads : Leads c c')
    (hClosed : Closed tokens)
    (hAt : c.At tokens i) :
    ∃ j, i ≤ j ∧ c'.At tokens j := by
  rcases hAt with ⟨hi, hRest⟩
  have hSuffix := hLeads.suffix
  rw [hRest] at hSuffix
  have hPos := (hLeads.closed (hRest ▸ hClosed.drop hi)).length_pos
  have hLength := hSuffix.length_le
  rw [List.length_drop] at hLength
  refine ⟨tokens.length - c'.rest.length, by omega, by omega, ?_⟩
  exact List.suffix_iff_eq_drop.mp
    (hSuffix.trans (List.drop_suffix i tokens))

/- Where nothing is asked of names, closed tokens will do. -/
theorem ready_of_closed
    {c : Cursor}
    (hClosed : Closed c.rest) :
    c.Ready (fun _ => True) c.rest.length where
  closed := hClosed
  named := ⟨trivial, fun _ _ _ => trivial⟩
  length_le := Nat.le_refl _

end Cursor

namespace Parse

open Cursor

/-
  On tokens that end with the end of the file, from any of
  them, every run of the parsers for files, expressions and
  statements is a sequence of single moves, and no loop is
  cut off at its bound. All moves stay among the tokens and
  none goes back. A file is read up to the end of the file.
-/
theorem parsers_finish
    {tokens : List Token}
    (hClosed : Closed tokens)
    {c : Cursor}
    {i : Nat}
    (hAt : c.At tokens i) :
    (∀ mid, Leads c mid → ∃ j, i ≤ j ∧ mid.At tokens j) ∧
    (Leads c (file c).2 ∧
      (file c).2.exhausted = c.exhausted ∧
      (file c).2.kind = .endOfFile) ∧
    (Leads c (expression c).2 ∧
      (expression c).2.exhausted = c.exhausted) ∧
    Leads c (statement c).2 ∧
      (statement c).2.exhausted = c.exhausted := by
  have hReady : c.Ready (fun _ => True) c.rest.length := by
    apply ready_of_closed
    rw [hAt.2]
    exact hClosed.drop hAt.1
  rcases file_finishes hReady with ⟨hFile, _, hEnd⟩
  have hExpression := (gives_expression c hReady).1
  have hStatement := (gives_statement c hReady).1
  refine ⟨?_, ⟨hFile, hFile.exhausted, hEnd⟩,
    ⟨hExpression, hExpression.exhausted⟩,
    hStatement, hStatement.exhausted⟩
  intro mid hMid
  exact hMid.at hClosed hAt

/-
  A head without a name, an open brace and an end of the file
  in front of another one.
-/
def strayTokens : List Token :=
  [.keyword .moduleHead, .symbol .leftBrace, .keyword .endcase,
    .endOfFile, .symbol .comma, .endOfFile].map
      fun kind => ⟨kind, "", Span.nowhere⟩

/- They are read from the brace to the first end of the file. -/
theorem parsers_finish_strayTokens :
    let c : Cursor := ⟨strayTokens.drop 1, none, {}, {}, false⟩
    Closed strayTokens ∧ c.At strayTokens 1 ∧
      Leads c (file c).2 ∧
      (file c).2.exhausted = false ∧
      (file c).2.kind = .endOfFile ∧
      (expression c).2.exhausted = false ∧
      (statement c).2.exhausted = false := by
  intro c
  have hClosed : Closed strayTokens := ⟨_, rfl, rfl⟩
  have hAt : c.At strayTokens 1 := ⟨by decide, rfl⟩
  rcases parsers_finish hClosed hAt with
    ⟨_, ⟨hFile, hNotCut, hEnd⟩, ⟨_, hExpression⟩, _, hStatement⟩
  exact ⟨hClosed, hAt, hFile, hNotCut, hEnd, hExpression,
    hStatement⟩

end Parse

end Gatework.Hdl

------------------------------------------------------------
-- Sources
------------------------------------------------------------

namespace Gatework.Hdl

/- The last token of a source is the end of the file. -/
theorem closed_tokensAt
    (file : Option Nat)
    (offset : Nat)
    (parts : List (Piece × List Char)) :
    Closed (tokensAt file offset parts).tokens := by
  induction parts generalizing offset with
  | nil => exact ⟨_, rfl, rfl⟩
  | cons part parts ih =>
      rcases part with ⟨piece, text⟩
      rcases ih (offset + byteLength text) with ⟨t, hLast, hEnd⟩
      refine ⟨t, ?_, hEnd⟩
      rw [tokensAt, List.getLast?_append, hLast]
      rfl

/-
  Nothing is left out in the modules of a parsed source, and
  what holds of all names among its tokens holds of theirs.
-/
theorem over_of_mem_modules
    {N : String → Prop}
    {number : Nat}
    {source : SourceFile}
    (hNamed : Named N (lex (some number) source.text).tokens)
    {decl : ModuleDecl}
    (hDecl : decl ∈ (parseFile number source).tree.modules) :
    decl.Over N := by
  let lexed := lex (some number) source.text
  let start : Cursor :=
    { rest := lexed.tokens
      findings := lexed.problems.foldl Findings.report {} }
  have hReady : start.Ready N lexed.tokens.length :=
    ⟨closed_tokensAt _ _ _, hNamed, Nat.le_refl _⟩
  exact (Parse.file_finishes hReady).2.1 decl hDecl

/- Nothing is left out in the modules of a parsed source. -/
theorem given_of_mem_modules
    {number : Nat}
    {source : SourceFile}
    {decl : ModuleDecl}
    (hDecl : decl ∈ (parseFile number source).tree.modules) :
    decl.Given :=
  over_of_mem_modules (named_lex (some number) source.text) hDecl

end Gatework.Hdl
