import Gatework.Proofs.Lowering.Expr
import Gatework.Proofs.Lowering.Selects

/-
  Bounds of vectors.

  A vector is declared if it has at most 64 bits, and then has
  as many bits as lie between its bounds, both included. In a
  module, each name has the width it is declared with. A net
  that gives a port its kind repeats the port's width, and the
  port keeps its bounds. All of this holds for bounds below
  2 ^ 63; larger ones are not told apart.

  Key definitions include:
    * `Hdl.ModuleDecl.declared`
    * `Lower.Records`
    * `Lower.ExactRange`

  Key theorems include:
    * `Lower.run_declarePin` and `Lower.run_bindItem`
    * `Lower.leads_bind_records`
    * `Lower.ranges_exact`
-/

------------------------------------------------------------
-- Declarations
------------------------------------------------------------

namespace Gatework

/- No signal has the name yet. -/
structure Scope.IsFresh
    (scope : Scope)
    (name : String) :
    Prop where
  unknown : scope.signals.find? name = none
  free : scope.places.find? name = none

/- The error for a range of too many bits. -/
def Hdl.Range.tooWide
    (r : Hdl.Range)
    (bits : Nat) :
    LowerError :=
  .unsupported
    ("vector of " ++ toString bits ++ " bits; at most "
      ++ toString maxWidth ++ " are supported") r.span

/- A scope with one more signal that has bounds. -/
def Scope.withVector
    (scope : Scope)
    (v : Var)
    (bounds : Nat × Nat)
    (span : Span) :
    Scope :=
  { scope with
    signals := scope.signals.insert v.name v
    ranges := scope.ranges.insert v.name bounds
    places := scope.places.insert v.name span }

namespace Scope

variable {scope : Scope}
variable {u v : Var}
variable {msb lsb : Nat}

theorem spans_withVector
    (hWidth : v.width = bitCount msb lsb)
    (hMax : v.width ≤ maxWidth)
    (span : Span) :
    (scope.withVector v (msb, lsb) span).Spans v msb lsb where
  signal := NameMap.find?_insert_self _ _ _
  width_eq := hWidth
  width_le := hMax
  range := NameMap.find?_insert_self _ _ _

/- Other signals stay as they are. -/
theorem Spans.withVector
    (hv : scope.Spans v msb lsb)
    (hNe : v.name ≠ u.name)
    (bounds : Nat × Nat)
    (span : Span) :
    (scope.withVector u bounds span).Spans v msb lsb where
  signal := by
    rw [Scope.withVector, NameMap.find?_insert, if_neg hNe]
    exact hv.signal
  width_eq := hv.width_eq
  width_le := hv.width_le
  range := by
    rw [Scope.withVector, NameMap.find?_insert, if_neg hNe]
    exact hv.range

theorem IsFresh.withVector
    {name : String}
    (hName : scope.IsFresh name)
    (hNe : name ≠ u.name)
    (bounds : Nat × Nat)
    (span : Span) :
    (scope.withVector u bounds span).IsFresh name where
  unknown := by
    rw [Scope.withVector, NameMap.find?_insert, if_neg hNe]
    exact hName.unknown
  free := by
    rw [Scope.withVector, NameMap.find?_insert, if_neg hNe]
    exact hName.free

end Scope

namespace Lower

variable {s : Setting}
variable {p : Progress}
variable {msb lsb : Nat}

theorem run_declare
    {v : Var}
    (hFree : p.scope.places.find? v.name = none)
    (bounds : Nat × Nat)
    (span : Span) :
    declare v (some bounds) span s p =
      (.ok (), { p with
        scope := p.scope.withVector v bounds span }) := by
  have hGet : (get : Lower Progress) s p = (.ok p, p) := rfl
  unfold declare
  rw [bind_apply, hGet]
  dsimp only
  rw [hFree]
  rfl

theorem run_checked
    {name : String}
    {width : Nat}
    (hName : name ≠ "")
    (hPos : 1 ≤ width)
    (hMax : width ≤ maxWidth) :
    checked (Var.make name width) s p =
      (.ok ⟨name, width, false⟩, p) := by
  rw [Var.make_eq_ok_iff.mpr ⟨⟨hName, hPos, hMax⟩, rfl⟩]
  rfl

section

variable {r : Hdl.Range}
variable (hr : r.Reads s.options.strictLiterals msb lsb)
variable (hMsb : msb < 2 ^ 63)
variable (hLsb : lsb < 2 ^ 63)

include hr hMsb hLsb

/- A pin of a new name is declared if its range is taken. -/
theorem run_declarePin
    {decl : Hdl.PinDecl}
    (hRange : decl.range = some r)
    {name : String}
    (hName : name ≠ "")
    (hFresh : p.scope.IsFresh name) :
    match declarePin decl name s p with
    | (.ok pin, q) =>
        bitCount msb lsb ≤ 64 ∧ pin.width = bitCount msb lsb ∧
          q.scope.Spans ⟨name, bitCount msb lsb, decl.signed⟩ msb lsb
    | (.error e, _) =>
        64 < bitCount msb lsb ∧
          e = r.tooWide (bitCount msb lsb) := by
  have hFirst := answers_range hr hMsb hLsb (I := (· = p.scope)) p rfl
  rw [declarePin, hRange, bind_apply]
  generalize range (some r) s p = run at hFirst
  rcases run with ⟨result, q⟩
  rcases hFirst with ⟨rfl, hScope⟩
  dsimp only at hScope
  by_cases hWide : 64 < bitCount msb lsb
  · rw [if_pos hWide]
    exact ⟨hWide, rfl⟩
  · have hFits := Nat.le_of_not_lt hWide
    have hPos : 1 ≤ bitCount msb lsb := Nat.le_add_left 1 _
    have hFree : q.scope.places.find? name = none := by
      rw [hScope]
      exact hFresh.free
    rw [if_neg hWide]
    dsimp only
    rw [bind_apply, run_checked hName hPos hFits]
    dsimp only
    rw [bind_apply, run_declare hFree]
    exact ⟨hFits, rfl, Scope.spans_withVector rfl hFits _⟩

omit hr hMsb hLsb in
/- A net of a new name is declared. -/
theorem run_bindNet
    (decl : Hdl.NetDecl)
    (hFits : bitCount msb lsb ≤ 64)
    (found : BodyPins)
    {entry : Hdl.DeclName}
    (hName : entry.name ≠ "")
    (hFresh : p.scope.IsFresh entry.name) :
    bindNet decl (bitCount msb lsb) (some (msb, lsb)) found entry
        s p =
      (.ok found, { p with
        scope := p.scope.withVector
          ⟨entry.name, bitCount msb lsb, decl.signed⟩ (msb, lsb)
          entry.span }) := by
  have hPos : 1 ≤ bitCount msb lsb := Nat.le_add_left 1 _
  have hUnknown : ¬ (Option.map Var.width
      (p.scope.signals.find? entry.name) =
        some (bitCount msb lsb) ∧
      entry.name ∈ found.untyped) := by
    rw [hFresh.unknown]
    nofun
  unfold bindNet
  rw [bind_apply]
  change (if _ then _ else _ : Lower BodyPins) s p = _
  rw [if_neg hUnknown, bind_apply, run_checked hName hPos hFits]
  dsimp only
  rw [bind_apply, run_declare hFresh.free]
  rfl

omit hr hMsb hLsb in
/- Nets of new names that differ are declared one by one. -/
theorem run_bindNets
    (decl : Hdl.NetDecl)
    (hFits : bitCount msb lsb ≤ 64)
    (found : BodyPins)
    {entries : List Hdl.DeclName}
    (hNodup : (entries.map Hdl.DeclName.name).Nodup)
    (hNames : ∀ entry ∈ entries,
      entry.name ≠ "" ∧ p.scope.IsFresh entry.name) :
    ∃ q, entries.foldlM
        (bindNet decl (bitCount msb lsb) (some (msb, lsb))) found
          s p = (.ok found, q) ∧
      (∀ entry ∈ entries, q.scope.Spans
        ⟨entry.name, bitCount msb lsb, decl.signed⟩ msb lsb) ∧
      ∀ v m l, p.scope.Spans v m l → q.scope.Spans v m l := by
  induction entries generalizing p with
  | nil => exact ⟨p, rfl, nofun, fun _ _ _ hv => hv⟩
  | cons entry entries ih =>
      rw [List.forall_mem_cons] at hNames
      rcases hNames with ⟨⟨hName, hFresh⟩, hRest⟩
      rcases List.nodup_cons.mp hNodup with ⟨hNew, hNodup⟩
      have hStep := run_bindNet (s := s) decl hFits found hName hFresh
      generalize hNext : p.scope.withVector
        ⟨entry.name, bitCount msb lsb, decl.signed⟩ (msb, lsb)
          entry.span = next at hStep
      have hFirst : next.Spans
          ⟨entry.name, bitCount msb lsb, decl.signed⟩ msb lsb :=
        hNext ▸ Scope.spans_withVector rfl hFits _
      have hFreshRest : ∀ other ∈ entries,
          other.name ≠ "" ∧ next.IsFresh other.name := by
        intro other hOther
        rcases hRest other hOther with ⟨hFull, hOtherFresh⟩
        refine ⟨hFull, hNext ▸ hOtherFresh.withVector ?_ _ _⟩
        intro hSame
        exact hNew (List.mem_map.mpr ⟨other, hOther, hSame⟩)
      rcases @ih { p with scope := next } hNodup hFreshRest with
        ⟨q, hRun, hOthers, hKept⟩
      refine ⟨q, ?_, ?_, ?_⟩
      · rw [List.foldlM_cons, bind_apply, hStep]
        exact hRun
      · rw [List.forall_mem_cons]
        exact ⟨hKept _ _ _ hFirst, hOthers⟩
      · intro v m l hv
        apply hKept v m l
        rw [← hNext]
        apply hv.withVector
        intro hSame
        have hKnown := hv.signal
        rw [hSame, hFresh.unknown] at hKnown
        cases hKnown

/- Nets of new names are declared if their range is taken. -/
theorem run_bindItem
    {decl : Hdl.NetDecl}
    (hRange : decl.range = some r)
    (hNodup : (decl.names.map Hdl.DeclName.name).Nodup)
    (hNames : ∀ entry ∈ decl.names,
      entry.name ≠ "" ∧ p.scope.IsFresh entry.name)
    (listed : List String)
    (found : BodyPins) :
    match bindItem listed found (.net decl) s p with
    | (.ok _, q) =>
        bitCount msb lsb ≤ 64 ∧
          ∀ entry ∈ decl.names, q.scope.Spans
            ⟨entry.name, bitCount msb lsb, decl.signed⟩ msb lsb
    | (.error e, _) =>
        64 < bitCount msb lsb ∧
          e = r.tooWide (bitCount msb lsb) := by
  have hFirst := answers_range hr hMsb hLsb (I := (· = p.scope)) p rfl
  rw [bindItem, hRange, bind_apply]
  generalize range (some r) s p = run at hFirst
  rcases run with ⟨result, q⟩
  rcases hFirst with ⟨rfl, hScope⟩
  dsimp only at hScope
  by_cases hWide : 64 < bitCount msb lsb
  · rw [if_pos hWide]
    exact ⟨hWide, rfl⟩
  · have hFits := Nat.le_of_not_lt hWide
    rw [← hScope] at hNames
    rcases run_bindNets decl hFits found hNodup hNames with
      ⟨q', hRun, hSpans, _⟩
    rw [if_neg hWide]
    dsimp only
    rw [hRun]
    exact ⟨hFits, hSpans⟩

end

end Lower

end Gatework

------------------------------------------------------------
-- Modules
------------------------------------------------------------

namespace Gatework

namespace Hdl

/- The names that are declared, each with its range. -/
def PinDecl.declared
    (decl : PinDecl) :
    List (String × Option Range) :=
  decl.names.map fun name => (name, decl.range)

def Item.declared : Item → List (String × Option Range)
  | .pins decl => decl.declared
  | .net decl => decl.names.map fun entry => (entry.name, decl.range)
  | _ => []

def ModuleDecl.declared
    (decl : ModuleDecl) :
    List (String × Option Range) :=
  (match decl.header with
    | .declared pins => pins.flatMap PinDecl.declared
    | _ => []) ++ decl.items.flatMap Item.declared

/- The bounds a range is taken with. -/
def Range.bounds
    (r : Range) :
    Nat × Nat :=
  (min r.msb.number Lower.maxBound, min r.lsb.number Lower.maxBound)

/- The number of bits between the bounds of a range. -/
def Range.bits
    (r : Range) :
    Nat :=
  bitCount r.bounds.1 r.bounds.2

end Hdl

namespace Lower

/-
  What a scope holds of the names declared so far. A name has
  the bounds it is declared with first, and the width it is
  declared with each time.
-/
structure Records
    (done : List (String × Option Hdl.Range))
    (scope : Scope) :
    Prop where
  named : ∀ n v, scope.signals.find? n = some v → v.name = n
  placed : ∀ n, scope.places.find? n = none → done.lookup n = none
  known : ∀ n, done.lookup n = none → scope.signals.find? n = none
  width_eq : ∀ n r, (n, some r) ∈ done →
    r.bits ≤ maxWidth ∧ ∃ v, scope.signals.find? n = some v ∧
      v.width = r.bits
  first : ∀ n r, done.lookup n = some (some r) →
    ∃ v, v.name = n ∧ scope.Spans v r.bounds.1 r.bounds.2

theorem records_nil :
    Records [] {} where
  named := nofun
  placed := fun _ _ => rfl
  known := fun _ _ => rfl
  width_eq := nofun
  first := nofun

/- What is declared last counts for a name without another. -/
theorem lookup_concat
    {α : Type}
    (done : List (String × α))
    (n : String)
    (a : α)
    (m : String) :
    (done ++ [(n, a)]).lookup m =
      (done.lookup m).or (if m = n then some a else none) := by
  rw [List.lookup_append, List.lookup_cons]
  by_cases hm : m = n
  · rw [if_pos hm, beq_iff_eq.mpr hm]
  · rw [if_neg hm, beq_eq_false_iff_ne.mpr hm, List.lookup_nil]

namespace Records

variable {done : List (String × Option Hdl.Range)}
variable {scope : Scope}

/- A name that is known is declared once more. -/
theorem again
    (h : Records done scope)
    {n : String}
    {v : Var}
    (hKnown : scope.signals.find? n = some v)
    {range : Option Hdl.Range}
    (hRange : ∀ r, range = some r →
      r.bits ≤ maxWidth ∧ v.width = r.bits) :
    Records (done ++ [(n, range)]) scope := by
  have hDone : done.lookup n ≠ none := by
    intro hNone
    rw [h.known n hNone] at hKnown
    cases hKnown
  have hLookup : ∀ m, (done ++ [(n, range)]).lookup m =
      done.lookup m := by
    intro m
    rw [lookup_concat]
    split
    case isTrue hm =>
        rcases Option.ne_none_iff_exists'.mp hDone with ⟨r, hr⟩
        rw [hm, hr, Option.some_or]
    case isFalse => rw [Option.or_none]
  constructor
  case named => exact h.named
  case placed =>
      intro m hm
      rw [hLookup]
      exact h.placed m hm
  case known =>
      intro m hm
      rw [hLookup] at hm
      exact h.known m hm
  case width_eq =>
      intro m r hMem
      rcases List.mem_append.mp hMem with hMem | hMem
      · exact h.width_eq m r hMem
      · cases List.mem_singleton.mp hMem
        rcases hRange r rfl with ⟨hMax, hWidth⟩
        exact ⟨hMax, v, hKnown, hWidth⟩
  case first =>
      intro m r hm
      rw [hLookup] at hm
      exact h.first m r hm

/- A signal of a new name is declared. -/
theorem declare
    (h : Records done scope)
    {v : Var}
    (hFree : scope.places.find? v.name = none)
    {range : Option Hdl.Range}
    (hRange : ∀ r, range = some r →
      r.bits ≤ maxWidth ∧ v.width = r.bits)
    (span : Span) :
    Records (done ++ [(v.name, range)])
      { scope with
        signals := scope.signals.insert v.name v
        ranges :=
          match range.map Hdl.Range.bounds with
          | some bounds => scope.ranges.insert v.name bounds
          | none => scope.ranges
        places := scope.places.insert v.name span } := by
  have hNew := h.placed v.name hFree
  have hOther : ∀ {n}, scope.signals.find? n ≠ none →
      n ≠ v.name := by
    rintro _ hKnown rfl
    exact hKnown (h.known _ hNew)
  constructor
  case named =>
      intro n u hu
      rw [NameMap.find?_insert] at hu
      split at hu
      case isTrue hn =>
          cases hu
          exact hn.symm
      case isFalse => exact h.named n u hu
  case placed =>
      intro n hn
      rw [NameMap.find?_insert] at hn
      split at hn
      case isTrue => cases hn
      case isFalse hne =>
          rw [lookup_concat, h.placed n hn, if_neg hne]
          rfl
  case known =>
      intro n hn
      rw [lookup_concat, Option.or_eq_none_iff] at hn
      have hne : n ≠ v.name := by
        rintro rfl
        rw [if_pos rfl] at hn
        cases hn.2
      rw [NameMap.find?_insert, if_neg hne]
      exact h.known n hn.1
  case width_eq =>
      intro n r hMem
      rcases List.mem_append.mp hMem with hMem | hMem
      · rcases h.width_eq n r hMem with ⟨hMax, u, hu, hWidth⟩
        refine ⟨hMax, u, ?_, hWidth⟩
        have hne : n ≠ v.name := hOther (by rw [hu]; nofun)
        rw [NameMap.find?_insert, if_neg hne]
        exact hu
      · cases List.mem_singleton.mp hMem
        rcases hRange r rfl with ⟨hMax, hWidth⟩
        exact ⟨hMax, v, NameMap.find?_insert_self _ _ _, hWidth⟩
  case first =>
      intro n r hn
      rw [lookup_concat] at hn
      cases hDone : done.lookup n with
      | some range' =>
          rw [hDone] at hn
          cases hn
          rcases h.first n r hDone with ⟨u, rfl, hu⟩
          have hne : u.name ≠ v.name :=
            hOther (by rw [hu.signal]; nofun)
          refine ⟨u, rfl, ?_⟩
          cases range with
          | none =>
              refine ⟨?_, hu.width_eq, hu.width_le, hu.range⟩
              rw [NameMap.find?_insert, if_neg hne]
              exact hu.signal
          | some r' => exact hu.withVector hne r'.bounds span
      | none =>
          rw [hDone, Option.none_or] at hn
          split at hn
          case isFalse => cases hn
          case isTrue hSame =>
              cases hn
              rcases hRange r rfl with ⟨hMax, hWidth⟩
              exact ⟨v, hSame.symm,
                Scope.spans_withVector hWidth (hWidth ▸ hMax) span⟩

end Records

variable {α β γ : Type}
variable {done : List (String × Option Hdl.Range)}

/- Steps on each element in turn that add to what is done. -/
theorem leads_mapM_append
    {J : List γ → Scope → Prop}
    {f : α → Lower β}
    {g : α → List γ}
    (hf : ∀ x done, Leads True (J done) (f x)
      (fun _ => J (done ++ g x)))
    (xs : List α)
    (done : List γ) :
    Leads True (J done) (xs.mapM f)
      (fun _ => J (done ++ xs.flatMap g)) := by
  induction xs generalizing done with
  | nil =>
      rw [List.mapM_nil]
      apply leads_pure
      intro scope hJ
      rwa [List.flatMap_nil, List.append_nil]
  | cons x xs ih =>
      rw [List.mapM_cons]
      apply (hf x done).bind
      intro _
      apply (ih (done ++ g x)).bind
      intro _
      apply leads_pure
      intro scope hJ
      rwa [List.flatMap_cons, ← List.append_assoc]

theorem leads_foldlM_append
    {J : List γ → Scope → Prop}
    {f : β → α → Lower β}
    {g : α → List γ}
    (hf : ∀ b x done, Leads True (J done) (f b x)
      (fun _ => J (done ++ g x)))
    (xs : List α)
    (b : β)
    (done : List γ) :
    Leads True (J done) (xs.foldlM f b)
      (fun _ => J (done ++ xs.flatMap g)) := by
  induction xs generalizing b done with
  | nil =>
      rw [List.foldlM_nil]
      apply leads_pure
      intro scope hJ
      rwa [List.flatMap_nil, List.append_nil]
  | cons x xs ih =>
      rw [List.foldlM_cons]
      apply (hf b x done).bind
      intro b'
      rw [List.flatMap_cons, ← List.append_assoc]
      exact ih b' (done ++ g x)

/- A range that is taken has its bounds and their width. -/
theorem ensures_range_bounds
    {I : Scope → Prop}
    (range? : Option Hdl.Range) :
    Ensures True I (range range?) (fun found =>
      found.2 = range?.map Hdl.Range.bounds ∧
        ∀ r, range? = some r →
          r.bits ≤ maxWidth ∧ found.1 = r.bits) := by
  have hBound : ∀ e : Hdl.Expr, Ensures True I (bound e)
      (· = min e.number maxBound) := by
    intro e
    apply (ensures_constant e).bind
    intro found hFound
    split
    case h_1 n =>
        apply ensures_pure
        rw [hFound n rfl]
    case h_2 =>
        apply (ensures_textOf e.span).bind
        intro _ _
        exact ensures_refuse _ e.span
  cases range? with
  | none => exact ensures_pure ⟨rfl, nofun⟩
  | some r =>
      apply (hBound r.msb).bind
      rintro _ rfl
      apply (hBound r.lsb).bind
      rintro _ rfl
      dsimp only
      split
      case isTrue => exact ensures_refuse _ r.span
      case isFalse hFits =>
          apply ensures_pure
          refine ⟨rfl, ?_⟩
          rintro _ ⟨⟩
          exact ⟨Nat.le_of_not_lt hFits, rfl⟩

theorem leads_declare_records
    {v : Var}
    {range? : Option Hdl.Range}
    (hRange : ∀ r, range? = some r →
      r.bits ≤ maxWidth ∧ v.width = r.bits)
    (span : Span) :
    Leads True (Records done)
      (declare v (range?.map Hdl.Range.bounds) span)
      (fun _ => Records (done ++ [(v.name, range?)])) := by
  apply Leads.bind ensures_get
  intro p
  dsimp only
  split
  case h_1 => exact fun _ _ _ _ => trivial
  case h_2 hFree =>
      apply leads_modify
      rintro q ⟨_, hScope⟩
      exact hScope.declare hFree hRange span

/- A signal that is made has the name and width given. -/
theorem ensures_made
    {I : Scope → Prop}
    (name : String)
    (width : Nat) :
    Ensures True I (checked (Var.make name width))
      (· = ⟨name, width, false⟩) :=
  ensures_checked (fun _ hMake => (Var.make_eq_ok_iff.mp hMake).2)
    (fun _ _ => trivial)

theorem leads_declarePin_records
    (decl : Hdl.PinDecl)
    (name : String)
    (done : List (String × Option Hdl.Range)) :
    Leads True (Records done) (declarePin decl name)
      (fun _ => Records (done ++ [(name, decl.range)])) := by
  apply (ensures_range_bounds decl.range).leads
  rintro ⟨width, bounds⟩ ⟨rfl, hRange⟩
  apply (ensures_made name width).leads
  rintro _ rfl
  apply (leads_declare_records (v := ⟨name, width, decl.signed⟩)
    hRange decl.span).bind
  intro _
  exact leads_pure fun _ hScope => hScope

theorem leads_bindPin_records
    (listed : List String)
    (decl : Hdl.PinDecl)
    (body : BodyPins)
    (name : String)
    (done : List (String × Option Hdl.Range)) :
    Leads True (Records done) (bindPin listed decl body name)
      (fun _ => Records (done ++ [(name, decl.range)])) := by
  unfold bindPin
  split
  case isTrue =>
      apply (leads_declarePin_records decl name done).bind
      intro pin
      exact leads_pure fun _ hScope => hScope
  case isFalse => exact leads_refuse _ decl.span

/- A net is declared, or is known at its width already. -/
theorem leads_bindNet_records
    (decl : Hdl.NetDecl)
    {width : Nat}
    (hRange : ∀ r, decl.range = some r →
      r.bits ≤ maxWidth ∧ width = r.bits)
    (body : BodyPins)
    (entry : Hdl.DeclName)
    (done : List (String × Option Hdl.Range)) :
    Leads True (Records done)
      (bindNet decl width (decl.range.map Hdl.Range.bounds) body
        entry)
      (fun _ => Records (done ++ [(entry.name, decl.range)])) := by
  apply leads_of_each
  intro scope hScope
  have hGet : Ensures True (· = scope) (get : Lower Progress)
      (fun p => p.scope = scope) := ensures_get
  apply hGet.leads
  rintro p rfl
  dsimp only
  split
  case isTrue hKnown =>
      apply leads_pure
      rintro _ rfl
      rcases Option.map_eq_some_iff.mp hKnown.1 with ⟨v, hv, rfl⟩
      exact hScope.again hv hRange
  case isFalse =>
      apply (ensures_made entry.name width).leads
      rintro _ rfl
      refine Leads.bind (P := fun _ =>
        Records (done ++ [(entry.name, decl.range)])) ?_ ?_
      · exact (leads_declare_records
          (v := ⟨entry.name, width, decl.signed⟩) hRange
          entry.span).imp (fun _ hSame => hSame ▸ hScope)
            (fun _ _ h => h)
      · intro _
        exact leads_pure fun _ hScope => hScope

theorem leads_bindItem_records
    (listed : List String)
    (body : BodyPins)
    (item : Hdl.Item)
    (done : List (String × Option Hdl.Range)) :
    Leads True (Records done) (bindItem listed body item)
      (fun _ => Records (done ++ item.declared)) := by
  unfold bindItem
  split
  case h_1 decl =>
      have hAll := leads_foldlM_append
        (g := fun name => [(name, decl.range)])
        (fun body name => leads_bindPin_records listed decl body name)
        decl.names body done
      rwa [← List.map_eq_flatMap] at hAll
  case h_2 decl =>
      apply (ensures_range_bounds decl.range).leads
      rintro ⟨width, bounds⟩ ⟨rfl, hRange⟩
      have hAll := leads_foldlM_append
        (g := fun entry : Hdl.DeclName => [(entry.name, decl.range)])
        (fun body entry =>
          leads_bindNet_records decl hRange body entry)
        decl.names body done
      rwa [← List.map_eq_flatMap] at hAll
  case h_3 hPins hNet =>
      have hNone : item.declared = [] := by
        cases item with
        | pins decl => exact (hPins decl rfl).elim
        | net decl => exact (hNet decl rfl).elim
        | _ => rfl
      rw [hNone, List.append_nil]
      exact leads_pure fun _ hScope => hScope

theorem ensures_listedPins
    {I : Scope → Prop}
    (span : Span)
    (names : List String)
    (pins : NameMap Pin) :
    Ensures True I (listedPins span names pins)
      (fun _ => True) := by
  induction names generalizing pins with
  | nil => exact ensures_pure trivial
  | cons name names ih =>
      rw [listedPins]
      split
      case h_1 => exact ensures_refuse _ span
      case h_2 =>
          apply (ih _).bind
          intro _ _
          exact ensures_pure trivial

/-
  What is bound has the width it is declared with, and the
  bounds it is declared with first.
-/
theorem leads_bind_records
    (decl : Hdl.ModuleDecl) :
    Leads True (· = {}) (bind decl)
      (fun _ => Records decl.declared) := by
  have hBody : ∀ listed (pins : List (List Pin)) done,
      Leads True (Records done)
        (do
          let found ← decl.items.foldlM (bindItem listed) {}
          let others ← listedPins decl.span listed found.pins
          return pins.flatten ++ others)
        (fun _ => Records
          (done ++ decl.items.flatMap Hdl.Item.declared)) := by
    intro listed pins done
    apply (leads_foldlM_append (leads_bindItem_records listed)
      decl.items {} done).bind
    intro found
    apply (ensures_listedPins decl.span listed found.pins).leads
    intro others _
    exact leads_pure fun _ hScope => hScope
  have hEmpty : Leads True (· = {}) (pure [] : Lower (List (List Pin)))
      (fun _ => Records []) := by
    apply leads_pure
    rintro _ rfl
    exact records_nil
  unfold bind
  rw [Hdl.ModuleDecl.declared]
  cases decl.header with
  | declared pins =>
      have hEach : ∀ pin done, Leads True (Records done)
          (headPins pin) (fun _ => Records (done ++ pin.declared)) := by
        intro pin done
        have hAll := leads_mapM_append
          (g := fun name => [(name, pin.range)])
          (fun name => leads_declarePin_records pin name)
          pin.names done
        rwa [← List.map_eq_flatMap] at hAll
      have hPins := leads_mapM_append hEach pins []
      refine (hPins.imp ?_ (fun _ _ h => h)).bind ?_
      · rintro _ rfl
        exact records_nil
      · intro declared
        exact hBody [] declared _
  | named names =>
      apply hEmpty.bind
      intro declared
      exact hBody names declared []
  | empty =>
      apply hEmpty.bind
      intro declared
      exact hBody [] declared []

end Lower

end Gatework

------------------------------------------------------------
-- Exactness
------------------------------------------------------------

namespace Gatework

variable {strict : Bool}
variable {msb lsb : Nat}

theorem Hdl.Expr.IsNumeral.number_eq
    {e : Hdl.Expr}
    {n : Nat}
    (he : e.IsNumeral strict n) :
    e.number = n := by
  rcases he with ⟨kind, text, span, l, hBare, hRead, rfl⟩
  rw [number, hBare]
  exact (Literal.shows_read hRead).own_meaning _

theorem Hdl.Range.Reads.bounds_eq
    {r : Hdl.Range}
    (hr : r.Reads strict msb lsb)
    (hMsb : msb < 2 ^ 63)
    (hLsb : lsb < 2 ^ 63) :
    r.bounds = (msb, lsb) := by
  rw [bounds, hr.1.number_eq, hr.2.number_eq,
    Lower.min_maxBound hMsb, Lower.min_maxBound hLsb]

namespace Lower

/-
  Declarations with a range and selects of what they declare
  are exact. Pins and nets of new names are declared if the
  range has at most 64 bits. In a module that is bound, each
  name has the width it is declared with, and the bounds it
  is declared with first. Selects within the bounds take the
  bits they name, and all others are refused.
-/
structure ExactRange
    (s : Setting)
    (r : Hdl.Range)
    (msb lsb : Nat) :
    Prop where
  pin : ∀ decl name p, decl.range = some r → name ≠ "" →
    p.scope.IsFresh name →
    match declarePin decl name s p with
    | (.ok pin, q) =>
        bitCount msb lsb ≤ 64 ∧ pin.width = bitCount msb lsb ∧
          q.scope.Spans ⟨name, bitCount msb lsb, decl.signed⟩ msb lsb
    | (.error e, _) =>
        64 < bitCount msb lsb ∧ e = r.tooWide (bitCount msb lsb)
  nets : ∀ decl listed found p, decl.range = some r →
    (decl.names.map Hdl.DeclName.name).Nodup →
    (∀ entry ∈ decl.names,
      entry.name ≠ "" ∧ p.scope.IsFresh entry.name) →
    match bindItem listed found (.net decl) s p with
    | (.ok _, q) =>
        bitCount msb lsb ≤ 64 ∧ ∀ entry ∈ decl.names, q.scope.Spans
          ⟨entry.name, bitCount msb lsb, decl.signed⟩ msb lsb
    | (.error e, _) =>
        64 < bitCount msb lsb ∧ e = r.tooWide (bitCount msb lsb)
  bound : ∀ decl pins p q, p.scope = {} →
    bind decl s p = (.ok pins, q) → ∀ name,
    ((name, some r) ∈ decl.declared →
      bitCount msb lsb ≤ 64 ∧
        ∃ v, q.scope.signals.find? name = some v ∧
          v.width = bitCount msb lsb) ∧
    (decl.declared.lookup name = some (some r) →
      ∃ v, v.name = name ∧ ∀ scope, q.scope.Agrees scope →
        scope.Spans v msb lsb)
  bit : ∀ v p base place index span i, p.scope.Spans v msb lsb →
    base.bare = .name v.name place →
    index.IsNumeral s.options.strictLiterals i →
    (i < 2 ^ 63 ∨ max msb lsb < 2 ^ 63 - 1) →
    Selected v msb lsb [i] span
      (fun e =>
        e.unmarked = .bit none (.var none v) (i - min msb lsb) ∧
          e.TakesBits v (i - min msb lsb) 1)
      (bitSelect base index span s p).1
  part : ∀ v p base place first last span a b,
    p.scope.Spans v msb lsb →
    base.bare = .name v.name place →
    first.IsNumeral s.options.strictLiterals a →
    last.IsNumeral s.options.strictLiterals b →
    (a < 2 ^ 63 ∨ max msb lsb < 2 ^ 63 - 1) →
    (b < 2 ^ 63 ∨ max msb lsb < 2 ^ 63 - 1) →
    Selected v msb lsb [a, b] span
      (fun e =>
        e.unmarked = .part none (.var none v) (a - min msb lsb)
          (b - min msb lsb) ∧
        e.TakesBits v (min a b - min msb lsb) (bitCount a b))
      (partSelect base first last span s p).1

/- Ranges of bounds below 2 ^ 63 are exact. -/
theorem ranges_exact
    {s : Setting}
    {r : Hdl.Range}
    (hr : r.Reads s.options.strictLiterals msb lsb)
    (hMsb : msb < 2 ^ 63)
    (hLsb : lsb < 2 ^ 63) :
    ExactRange s r msb lsb where
  pin := fun _ _ _ hRange hName hFresh =>
    run_declarePin hr hMsb hLsb hRange hName hFresh
  nets := fun _ listed found _ hRange hNodup hNames =>
    run_bindItem hr hMsb hLsb hRange hNodup hNames listed found
  bound := by
    intro decl pins p q hEmpty hRun name
    have hRecords := leads_bind_records decl s p hEmpty
    rw [hRun] at hRecords
    have hBounds := hr.bounds_eq hMsb hLsb
    have hBits : r.bits = bitCount msb lsb := by
      rw [Hdl.Range.bits, hBounds]
    constructor
    · intro hMem
      rcases hRecords.width_eq name r hMem with ⟨hMax, v, hv, hWidth⟩
      rw [hBits] at hMax hWidth
      exact ⟨hMax, v, hv, hWidth⟩
    · intro hFirst
      rcases hRecords.first name r hFirst with ⟨v, hName, hSpans⟩
      rw [hBounds] at hSpans
      exact ⟨v, hName, fun _ hAgrees => hSpans.agrees hAgrees⟩
  bit := by
    intro v p base place index span i hv hBase hIndex hSmall
    exact (answers_bitSelect hv hBase span hIndex hSmall p
      ⟨rfl, rfl⟩).1
  part := by
    intro v p base place first last span a b hv hBase hFirst hLast
      hSmallFirst hSmallLast
    exact (answers_partSelect hv hBase span hFirst hLast hSmallFirst
      hSmallLast p ⟨rfl, rfl⟩).1

/- A decimal number in a source. -/
def numeral
    (text : String) :
    Hdl.Expr :=
  .literal .int text default

/- An input with a range of decimal bounds. -/
def vectorInput
    (msb lsb : String) :
    Hdl.PinDecl :=
  ⟨.input, .implicit, false,
    some ⟨numeral msb, numeral lsb, default⟩, ["v"], default⟩

theorem isNumeral_numeral
    {text : String}
    {n : Nat}
    (hRead : (Hdl.Literal.read .int strict text).map
      Hdl.Literal.value = .ok n) :
    (numeral text).IsNumeral strict n := by
  cases hResult : Hdl.Literal.read .int strict text with
  | error f =>
      rw [hResult] at hRead
      cases hRead
  | ok l =>
      rw [hResult] at hRead
      cases hRead
      exact ⟨.int, text, default, l, rfl, hResult, rfl⟩

/- The bit with the number 5 of a vector from 4 to 7. -/
theorem ranges_exact_nibble :
    ∃ pin q e,
      declarePin (vectorInput "7" "4") "v" ⟨{}, []⟩ {} =
        (.ok pin, q) ∧
      pin.width = 4 ∧
      (bitSelect (.name "v" default) (numeral "5") default
        ⟨{}, []⟩ q).1 = .ok e ∧
      e.unmarked = .bit none (.var none ⟨"v", 4, false⟩) 1 ∧
      e.TakesBits ⟨"v", 4, false⟩ 1 1 := by
  have hExact := @ranges_exact 7 4 ⟨{}, []⟩
    ⟨numeral "7", numeral "4", default⟩
    ⟨isNumeral_numeral (by decide), isNumeral_numeral (by decide)⟩
    (by decide) (by decide)
  have hPin := hExact.pin (vectorInput "7" "4") "v" {} rfl
    (by decide) ⟨rfl, rfl⟩
  generalize hRun : declarePin (vectorInput "7" "4") "v"
    ⟨{}, []⟩ {} = run at hPin
  rcases run with ⟨result, q⟩
  cases result with
  | error e => exact absurd hPin.1 (by decide)
  | ok pin =>
      rcases hPin with ⟨_, hWidth, hSpans⟩
      have hBit := hExact.bit _ q (.name "v" default) default
        (numeral "5") default 5 hSpans rfl
        (isNumeral_numeral (by decide)) (.inl (by decide))
      generalize hSelect : (bitSelect (.name "v" default)
        (numeral "5") default ⟨{}, []⟩ q).1 = selected at hBit
      cases selected with
      | error e =>
          rcases hBit.1 with ⟨i, hi, hOutside⟩
          rw [List.mem_singleton.mp hi] at hOutside
          exact absurd hOutside (by decide)
      | ok e =>
          exact ⟨pin, q, e, rfl, hWidth, hSelect, hBit.2.1,
            hBit.2.2⟩

/-
  Larger numbers are not told apart: a vector of 2 ^ 63 bits
  is declared with one, and a place behind the last one is
  taken for it.
-/
theorem ranges_inexact_large :
    (64 < bitCount 18446744073709551615 9223372036854775808 ∧
      (numeral "18446744073709551615").IsNumeral false
        18446744073709551615 ∧
      (numeral "9223372036854775808").IsNumeral false
        9223372036854775808 ∧
      ∃ pin q, declarePin
        (vectorInput "18446744073709551615" "9223372036854775808")
          "v" ⟨{}, []⟩ {} = (.ok pin, q) ∧ pin.width = 1) ∧
    ∃ pin q e, declarePin
        (vectorInput "9223372036854775807" "9223372036854775807")
          "v" ⟨{}, []⟩ {} = (.ok pin, q) ∧
      q.scope.Spans ⟨"v", 1, false⟩ 9223372036854775807
        9223372036854775807 ∧
      (bitSelect (.name "v" default) (numeral "9223372036854775808")
        default ⟨{}, []⟩ q).1 = .ok e ∧
      e.unmarked = .bit none (.var none ⟨"v", 1, false⟩) 0 := by
  refine ⟨⟨by decide, isNumeral_numeral (by decide),
    isNumeral_numeral (by decide), _, _, rfl, rfl⟩,
    _, _, _, rfl, ⟨rfl, rfl, by decide, rfl⟩, rfl, rfl⟩

end Lower

end Gatework
