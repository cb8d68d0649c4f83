import Gatework.Lowering.Circuit
import Gatework.Proofs.Lowering.Expr

/-
  What the declarations of a module leave.

  A name is declared once, with a width in range. Pins have
  names of their own and are declared with their widths, those
  in the head of the module as well as those in its body that
  the head lists.

  Key definitions include:
    * `Scope.Holds`
    * `Lower.Collects`

  Key theorems include:
    * `Lower.leads_declare`
    * `Lower.leads_bind`
-/

------------------------------------------------------------
-- Pins and signals
------------------------------------------------------------

namespace Gatework

/- The pin is a signal of its width. -/
def Scope.Holds
    (scope : Scope)
    (pin : Pin) :
    Prop :=
  ∃ v, scope.signals.find? pin.name = some v ∧
    v.width = pin.width

namespace Lower

/-
  A scope in which some pins are settled and others are found
  but not yet put in order. All of them are declared, and no
  two have one name.
-/
structure Collects
    (pins : List Pin)
    (found : NameMap Pin)
    (scope : Scope) :
    Prop where
  valid : ValidSignals scope.signals
  placed : ∀ n, scope.places.find? n = none →
    scope.signals.find? n = none
  nodup : (pins.map Pin.name).Nodup
  settled : ∀ pin ∈ pins, scope.Holds pin
  others : ∀ n pin, found.find? n = some pin →
    pin.name = n ∧ n ∉ pins.map Pin.name ∧ scope.Holds pin

theorem collects_empty :
    Collects [] NameMap.empty {} where
  valid := validSignals_empty
  placed := fun _ _ => rfl
  nodup := List.Pairwise.nil
  settled := by simp
  others := nofun

namespace Collects

variable {pins : List Pin}
variable {found : NameMap Pin}
variable {scope : Scope}

/- What is declared under a new name touches no pin. -/
theorem declare
    (h : Collects pins found scope)
    {v : Var}
    (hNew : scope.places.find? v.name = none)
    (hName : v.name ≠ "")
    (hPos : 1 ≤ v.width)
    (hMax : v.width ≤ maxWidth)
    (ranges : NameMap (Nat × Nat))
    (span : Span) :
    Collects pins found
      { scope with
        signals := scope.signals.insert v.name v
        ranges
        places := scope.places.insert v.name span } := by
  have hOld : ∀ n w, scope.signals.find? n = some w →
      (scope.signals.insert v.name v).find? n = some w := by
    intro n w hw
    rw [NameMap.find?_insert, if_neg, hw]
    rintro rfl
    rw [h.placed _ hNew] at hw
    cases hw
  have hHolds : ∀ {pin}, scope.Holds pin → Scope.Holds
      { scope with
        signals := scope.signals.insert v.name v
        ranges
        places := scope.places.insert v.name span } pin := by
    rintro pin ⟨w, hw, hWidth⟩
    exact ⟨w, hOld _ w hw, hWidth⟩
  constructor
  case valid => exact h.valid.insert hName hPos hMax
  case placed =>
      intro n hn
      rw [NameMap.find?_insert] at hn ⊢
      split at hn
      case isTrue => cases hn
      case isFalse hne =>
          rw [if_neg hne]
          exact h.placed n hn
  case nodup => exact h.nodup
  case settled => exact fun pin hPin => hHolds (h.settled pin hPin)
  case others =>
      intro n pin hPin
      rcases h.others n pin hPin with ⟨hSame, hNotIn, hPin⟩
      exact ⟨hSame, hNotIn, hHolds hPin⟩

/- A name without a place is the name of no pin. -/
theorem not_mem
    (h : Collects pins found scope)
    {n : String}
    (hNew : scope.places.find? n = none) :
    n ∉ pins.map Pin.name := by
  intro hn
  rcases List.mem_map.mp hn with ⟨pin, hPin, rfl⟩
  rcases h.settled pin hPin with ⟨v, hv, _⟩
  rw [h.placed _ hNew] at hv
  cases hv

/- One more pin is found. -/
theorem find
    (h : Collects pins found scope)
    {pin : Pin}
    (hNew : pin.name ∉ pins.map Pin.name)
    (hPin : scope.Holds pin) :
    Collects pins (found.insert pin.name pin) scope := by
  refine { h with others := ?_ }
  intro n other hFound
  rw [NameMap.find?_insert] at hFound
  split at hFound
  case isTrue hn =>
      cases hFound
      exact ⟨hn.symm, hn ▸ hNew, hPin⟩
  case isFalse => exact h.others n other hFound

/- A found pin is settled behind the others. -/
theorem settle
    (h : Collects pins found scope)
    {n : String}
    {pin : Pin}
    (hFound : found.find? n = some pin) :
    Collects (pins ++ [pin]) (found.erase n) scope := by
  rcases h.others n pin hFound with ⟨hName, hNotIn, hPin⟩
  have hNames : (pins ++ [pin]).map Pin.name =
      pins.map Pin.name ++ [n] := by
    simp [hName]
  refine { h with nodup := ?_, settled := ?_, others := ?_ }
  · rw [hNames]
    exact List.nodup_append.mpr ⟨h.nodup, by simp, by
      rintro m hm _ hn rfl
      exact hNotIn (List.mem_singleton.mp hn ▸ hm)⟩
  · intro other hOther
    rcases List.mem_append.mp hOther with hOther | hOther
    · exact h.settled other hOther
    · rw [List.mem_singleton.mp hOther]
      exact hPin
  · intro m other hOther
    rw [NameMap.find?_erase] at hOther
    split at hOther
    case isTrue => cases hOther
    case isFalse hne =>
        rcases h.others m other hOther with
          ⟨hSame, hm, hHolds⟩
        refine ⟨hSame, ?_, hHolds⟩
        rw [hNames, List.mem_append, List.mem_singleton]
        exact fun hIn => hIn.elim hm hne

end Collects

end Lower

end Gatework

------------------------------------------------------------
-- Declarations
------------------------------------------------------------

namespace Gatework

namespace Lower

variable {flawed : Prop}
variable {I : Scope → Prop}
variable {pins : List Pin}
variable {found : NameMap Pin}

theorem leads_declare
    {v : Var}
    (hName : v.name ≠ "")
    (hPos : 1 ≤ v.width)
    (hMax : v.width ≤ maxWidth)
    (range : Option (Nat × Nat))
    (span : Span) :
    Leads flawed (Collects pins found) (declare v range span)
      (fun _ scope => Collects pins found scope ∧
        scope.signals.find? v.name = some v ∧
        v.name ∉ pins.map Pin.name) := by
  apply Leads.bind ensures_get
  intro p
  dsimp only
  split
  case h_1 => exact leads_fail rfl
  case h_2 hNew =>
      apply leads_modify
      rintro q ⟨_, hScope⟩
      refine ⟨?_, ?_, hScope.not_mem hNew⟩
      · exact hScope.declare hNew hName hPos hMax _ span
      · rw [NameMap.find?_insert, if_pos rfl]

theorem ensures_bound
    (e : Hdl.Expr) :
    Ensures flawed I (bound e) (fun _ => True) := by
  apply (ensures_constant e).bind
  intro found _
  split
  · exact ensures_pure trivial
  · apply (ensures_textOf e.span).bind
    intro _ _
    exact ensures_refuse _ e.span

theorem ensures_range
    (r : Option Hdl.Range) :
    Ensures flawed I (range r)
      (fun found => 1 ≤ found.1 ∧ found.1 ≤ maxWidth) := by
  cases r with
  | none => exact ensures_pure ⟨Nat.le_refl 1, one_le_maxWidth⟩
  | some r =>
      apply (ensures_bound r.msb).bind
      intro msb _
      apply (ensures_bound r.lsb).bind
      intro lsb _
      dsimp only
      split
      case isTrue => exact ensures_refuse _ r.span
      case isFalse hMax =>
          apply ensures_pure
          exact ⟨Nat.le_add_left 1 _, Nat.le_of_not_lt hMax⟩

theorem ensures_named
    {name : String}
    {width : Nat}
    (hName : name ≠ "")
    (hPos : 1 ≤ width)
    (hMax : width ≤ maxWidth) :
    Ensures flawed I (checked (Var.make name width))
      (· = ⟨name, width, false⟩) :=
  ensures_checked_ok
    (Var.make_eq_ok_iff.mpr ⟨⟨hName, hPos, hMax⟩, rfl⟩) rfl

/- A pin is declared under a name that no pin had before. -/
theorem leads_declarePin
    (decl : Hdl.PinDecl)
    {name : String}
    (hName : name ≠ "") :
    Leads flawed (Collects pins found) (declarePin decl name)
      (fun pin scope => Collects pins found scope ∧
        pin.name = name ∧ scope.Holds pin ∧
        name ∉ pins.map Pin.name) := by
  apply (ensures_range decl.range).leads
  rintro ⟨width, bounds⟩ ⟨hPos, hMax⟩
  apply (ensures_named hName hPos hMax).leads
  rintro _ rfl
  apply (leads_declare (v := ⟨name, width, decl.signed⟩) hName
    hPos hMax bounds decl.span).bind
  intro _
  apply leads_pure
  rintro scope ⟨hScope, hv, hNew⟩
  exact ⟨hScope, rfl, ⟨_, hv, rfl⟩, hNew⟩

theorem leads_bindPin
    (listed : List String)
    {decl : Hdl.PinDecl}
    {name : String}
    (hName : name ≠ "")
    (body : BodyPins) :
    Leads flawed (Collects pins body.pins)
      (bindPin listed decl body name)
      (fun body' => Collects pins body'.pins) := by
  unfold bindPin
  split
  case isTrue =>
      apply (leads_declarePin decl hName).bind
      intro pin
      apply leads_pure
      rintro scope ⟨hScope, rfl, hPin, hNew⟩
      exact hScope.find hNew hPin
  case isFalse => exact leads_refuse _ decl.span

theorem leads_bindNet
    (decl : Hdl.NetDecl)
    {width : Nat}
    (hPos : 1 ≤ width)
    (hMax : width ≤ maxWidth)
    (bounds : Option (Nat × Nat))
    {entry : Hdl.DeclName}
    (hName : entry.name ≠ "")
    (body : BodyPins) :
    Leads flawed (Collects pins body.pins)
      (bindNet decl width bounds body entry)
      (fun body' => Collects pins body'.pins) := by
  apply ensures_get.leads
  intro p _
  dsimp only
  split
  case isTrue => exact leads_pure fun _ hScope => hScope
  case isFalse =>
      apply (ensures_named hName hPos hMax).leads
      rintro _ rfl
      apply (leads_declare
        (v := ⟨entry.name, width, decl.signed⟩) hName hPos hMax
        bounds entry.span).bind
      intro _
      exact leads_pure fun _ hScope => hScope.1

theorem leads_bindItem
    (listed : List String)
    {item : Hdl.Item}
    (hItem : item.Given)
    (body : BodyPins) :
    Leads flawed (Collects pins body.pins)
      (bindItem listed body item)
      (fun body' => Collects pins body'.pins) := by
  unfold bindItem
  split
  case h_1 decl =>
      exact leads_foldlM (fun name hName body' =>
        leads_bindPin listed (hItem name hName) body') body
  case h_2 decl =>
      apply (ensures_range decl.range).leads
      rintro ⟨width, bounds⟩ ⟨hPos, hMax⟩
      exact leads_foldlM (fun entry hEntry body' =>
        leads_bindNet decl hPos hMax bounds
          (hItem entry hEntry).1 body') body
  case h_3 => exact leads_pure fun _ hScope => hScope

/- Found pins are put in the order of the head. -/
theorem leads_listedPins
    (span : Span)
    (names : List String) :
    Leads flawed (Collects pins found)
      (listedPins span names found)
      (fun others scope => ∃ rest,
        Collects (pins ++ others) rest scope) := by
  induction names generalizing pins found with
  | nil =>
      rw [listedPins]
      apply leads_pure
      intro scope hScope
      exact ⟨found, (List.append_nil pins).symm ▸ hScope⟩
  | cons name names ih =>
      rw [listedPins]
      split
      case h_1 => exact leads_refuse _ span
      case h_2 pin hFound =>
          have hRest := @ih (pins ++ [pin]) (found.erase name)
          apply (hRest.imp (fun _ hScope => hScope.settle hFound)
            (fun _ _ h => h)).bind
          intro others
          apply leads_pure
          rintro scope ⟨rest, hScope⟩
          rw [List.append_assoc] at hScope
          exact ⟨rest, hScope⟩

/- The pins of one declaration in the head. -/
theorem leads_headPins
    {decl : Hdl.PinDecl}
    (hDecl : decl.Given)
    (pins : List Pin) :
    Leads flawed (Collects pins NameMap.empty) (headPins decl)
      (fun more => Collects (pins ++ more) NameMap.empty) := by
  have hEach : ∀ name ∈ decl.names, ∀ ys,
      Leads flawed (Collects (pins ++ ys) NameMap.empty)
        (declarePin decl name)
        (fun pin =>
          Collects (pins ++ (ys ++ [pin])) NameMap.empty) := by
    intro name hName ys
    apply (leads_declarePin decl (hDecl name hName)).imp
      (fun _ hScope => hScope)
    rintro pin scope ⟨hScope, rfl, hPin, hNew⟩
    have hFound := hScope.find hNew hPin
    have hSettled := hFound.settle
      (NameMap.find?_insert_self NameMap.empty pin.name pin)
    rw [← List.append_assoc]
    exact { hSettled with others := nofun }
  have hAll := leads_mapM (J := fun ys =>
    Collects (pins ++ ys) NameMap.empty) hEach []
  rw [List.append_nil] at hAll
  exact hAll

/-
  Binding leaves valid signals and distinct pins that are
  declared with their widths.
-/
theorem leads_bind
    {decl : Hdl.ModuleDecl}
    (hDecl : decl.Given) :
    Leads flawed (· = {}) (bind decl)
      (fun pins scope => ∃ rest, Collects pins rest scope) := by
  rcases hDecl with ⟨_, hHeader, hItems⟩
  have hBody : ∀ listed (declared : List (List Pin)),
      Leads flawed (Collects declared.flatten NameMap.empty)
        (do
          let found ← decl.items.foldlM (bindItem listed) {}
          let others ← listedPins decl.span listed found.pins
          return declared.flatten ++ others)
        (fun pins scope => ∃ rest, Collects pins rest scope) := by
    intro listed declared
    apply (leads_foldlM (fun item hItem body =>
      leads_bindItem listed (hItems item hItem) body) {}).bind
    intro found
    apply (leads_listedPins decl.span listed).bind
    intro others
    exact leads_pure fun _ hScope => hScope
  have hStart : ∀ scope, scope = {} →
      Collects [] NameMap.empty scope := by
    rintro _ rfl
    exact collects_empty
  unfold bind
  cases hHead : decl.header with
  | declared pins =>
      rw [hHead] at hHeader
      have hEach : ∀ pin ∈ pins, ∀ ys : List (List Pin),
          Leads flawed (Collects ys.flatten NameMap.empty)
            (headPins pin)
            (fun more =>
              Collects (ys ++ [more]).flatten NameMap.empty) := by
        intro pin hPin ys
        apply (leads_headPins (hHeader pin hPin) ys.flatten).imp
          (fun _ hScope => hScope)
        intro more scope hScope
        rwa [List.flatten_append, List.flatten_singleton]
      have hAll := leads_mapM (J := fun ys : List (List Pin) =>
        Collects ys.flatten NameMap.empty) hEach []
      apply (hAll.imp hStart (fun _ _ h => h)).bind
      intro declared
      exact hBody [] declared
  | named names =>
      exact (hBody names []).imp hStart (fun _ _ h => h)
  | empty => exact (hBody [] []).imp hStart (fun _ _ h => h)

end Lower

end Gatework
