import Gatework.Lowering.Context
import Gatework.Proofs.Expr.Simplify
import Gatework.Proofs.Expr.Substitution
import Gatework.Proofs.NameMap

/-
  What lowering keeps on its way.

  A step of lowering is described by the scopes it starts in,
  by what it gives and the scope it leaves when it succeeds,
  and by whether it can stop at a flaw of the logic it builds
  instead of a fault of the source. While expressions are
  lowered the declarations do not change at all.

  Key definitions include:
    * `Lower.Leads` and `Lower.Ensures`
    * `ValidSignals` and `Reads`, the signals of a scope and
      the widths they are read at
    * `Scope.Agrees`

  Key theorems include:
    * `Lower.Leads.bind` and `Lower.Ensures.bind`
    * `Lower.leads_mapM` and `Lower.leads_foldlM`
    * `Lower.ensures_lookup`
-/

------------------------------------------------------------
-- Steps
------------------------------------------------------------

namespace Gatework

/- A check on built logic failed. -/
def LowerError.isFlaw : LowerError → Bool
  | .flaw _ => true
  | _ => false

namespace Lower

variable {α β : Type}
variable {flawed : Prop}
variable {I : Scope → Prop}

/-
  Where the scope has a property, a result and the scope left
  with it have another one. Only where flaws are allowed for
  is one met.
-/
def Leads
    (flawed : Prop)
    (I : Scope → Prop)
    (m : Lower α)
    (P : α → Scope → Prop) :
    Prop :=
  ∀ s p, I p.scope →
    match m s p with
    | (.ok a, p') => P a p'.scope
    | (.error e, _) => e.isFlaw = true → flawed

section

variable {P : α → Scope → Prop}
variable {Q : β → Scope → Prop}

theorem leads_pure
    {a : α}
    (ha : ∀ scope, I scope → P a scope) :
    Leads flawed I (pure a) P :=
  fun _ p hI => ha p.scope hI

theorem leads_fail
    {e : LowerError}
    (he : e.isFlaw = false) :
    Leads flawed I (fail e) P := by
  intro s p _ hFlaw
  rw [he] at hFlaw
  cases hFlaw

theorem leads_refuse
    (what : String)
    (span : Span) :
    Leads flawed I (refuse what span) P :=
  leads_fail rfl

theorem bind_apply
    (m : Lower α)
    (f : α → Lower β)
    (s : Setting)
    (p : Progress) :
    (m >>= f) s p =
      match m s p with
      | (.ok a, p') => f a s p'
      | (.error e, p') => (.error e, p') := by
  change (match m s p with
    | (r, p') => ExceptT.bindCont (fun a => f a s) r p') = _
  rcases m s p with ⟨result, p'⟩
  cases result <;> rfl

theorem Leads.bind
    {m : Lower α}
    {f : α → Lower β}
    (hm : Leads flawed I m P)
    (hf : ∀ a, Leads flawed (P a) (f a) Q) :
    Leads flawed I (m >>= f) Q := by
  intro s p hI
  have hFirst := hm s p hI
  rw [bind_apply]
  generalize m s p = run at hFirst
  rcases run with ⟨result, p'⟩
  cases result with
  | error e => exact hFirst
  | ok a => exact hf a s p' hFirst

theorem Leads.imp
    {J : Scope → Prop}
    {m : Lower α}
    {P' : α → Scope → Prop}
    (hm : Leads flawed I m P)
    (hI : ∀ scope, J scope → I scope)
    (hP : ∀ a scope, P a scope → P' a scope) :
    Leads flawed J m P' := by
  intro s p hJ
  have hRun := hm s p (hI _ hJ)
  generalize m s p = run at hRun
  rcases run with ⟨result, p'⟩
  cases result with
  | error e => exact hRun
  | ok a => exact hP a _ hRun

/- A run that can be told for each scope it may start in. -/
theorem leads_of_each
    {m : Lower α}
    (hEach : ∀ scope, I scope → Leads flawed (· = scope) m P) :
    Leads flawed I m P :=
  fun s p hI => hEach p.scope hI s p rfl

theorem leads_modify
    {f : Progress → Progress}
    {J : Scope → Prop}
    (hf : ∀ p, I p.scope → J (f p).scope) :
    Leads flawed I (modify f : Lower Unit) (fun _ => J) :=
  fun _ p hI => hf p hI

/-
  Steps on each element in turn, where what holds of the
  scope speaks of the results so far.
-/
theorem leads_mapM
    {J : List β → Scope → Prop}
    {f : α → Lower β}
    {xs : List α}
    (hf : ∀ x ∈ xs, ∀ ys,
      Leads flawed (J ys) (f x) (fun y => J (ys ++ [y])))
    (ys : List β) :
    Leads flawed (J ys) (xs.mapM f) (fun zs => J (ys ++ zs)) := by
  induction xs generalizing ys with
  | nil =>
      rw [List.mapM_nil]
      apply leads_pure
      intro scope hJ
      rwa [List.append_nil]
  | cons x xs ih =>
      rw [List.mapM_cons]
      apply (hf x (List.mem_cons_self ..) ys).bind
      intro y
      apply (ih (fun z hz => hf z (List.mem_cons_of_mem _ hz))
        (ys ++ [y])).bind
      intro zs
      apply leads_pure
      intro scope hJ
      rwa [List.append_assoc] at hJ

/- A step on each element that carries a state along. -/
theorem leads_foldlM
    {J : β → Scope → Prop}
    {f : β → α → Lower β}
    {xs : List α}
    (hf : ∀ x ∈ xs, ∀ b, Leads flawed (J b) (f b x) J)
    (b : β) :
    Leads flawed (J b) (xs.foldlM f b) J := by
  induction xs generalizing b with
  | nil =>
      rw [List.foldlM_nil]
      exact leads_pure fun _ hJ => hJ
  | cons x xs ih =>
      rw [List.foldlM_cons]
      apply (hf x (List.mem_cons_self ..) b).bind
      intro b'
      exact ih (fun y hy => hf y (List.mem_cons_of_mem _ hy)) b'

end

end Lower

end Gatework

------------------------------------------------------------
-- Steps that keep a property of the scope
------------------------------------------------------------

namespace Gatework

namespace Lower

variable {α β : Type}
variable {flawed : Prop}
variable {I : Scope → Prop}
variable {P : α → Prop}
variable {Q : β → Prop}

/-
  Where the scope has a property, a result has one too, and
  the scope keeps its own.
-/
def Ensures
    (flawed : Prop)
    (I : Scope → Prop)
    (m : Lower α)
    (P : α → Prop) :
    Prop :=
  Leads flawed I m (fun a scope => I scope ∧ P a)

theorem ensures_pure
    {a : α}
    (ha : P a) :
    Ensures flawed I (pure a) P :=
  leads_pure fun _ hI => ⟨hI, ha⟩

theorem ensures_fail
    {e : LowerError}
    (he : e.isFlaw = false) :
    Ensures flawed I (fail e) P :=
  leads_fail he

theorem ensures_refuse
    (what : String)
    (span : Span) :
    Ensures flawed I (refuse what span) P :=
  leads_refuse what span

theorem Ensures.leads
    {m : Lower α}
    {f : α → Lower β}
    {R : β → Scope → Prop}
    (hm : Ensures flawed I m P)
    (hf : ∀ a, P a → Leads flawed I (f a) R) :
    Leads flawed I (m >>= f) R := by
  apply Leads.bind hm
  intro a s p hFirst
  exact hf a hFirst.2 s p hFirst.1

theorem Ensures.bind
    {m : Lower α}
    {f : α → Lower β}
    (hm : Ensures flawed I m P)
    (hf : ∀ a, P a → Ensures flawed I (f a) Q) :
    Ensures flawed I (m >>= f) Q :=
  hm.leads hf

theorem Ensures.imp
    {m : Lower α}
    {P' : α → Prop}
    (hm : Ensures flawed I m P)
    (hP : ∀ a, P a → P' a) :
    Ensures flawed I m P' :=
  Leads.imp hm (fun _ hI => hI)
    (fun a _ hRun => ⟨hRun.1, hP a hRun.2⟩)

/- What a check gives, and when it may fail. -/
theorem ensures_checked
    {r : Except Flaw α}
    (hOk : ∀ a, r = .ok a → P a)
    (hFlaw : ∀ f, r = .error f → flawed) :
    Ensures flawed I (checked r) P := by
  cases r with
  | error f => exact fun _ _ _ _ => hFlaw f rfl
  | ok a => exact ensures_pure (hOk a rfl)

/- A check that succeeds. -/
theorem ensures_checked_ok
    {r : Except Flaw α}
    {a : α}
    (hr : r = .ok a)
    (ha : P a) :
    Ensures flawed I (checked r) P := by
  rw [hr]
  exact ensures_pure ha

theorem ensures_check
    {r : Except Flaw Unit}
    (hr : r = .ok ()) :
    Ensures flawed I (checked r) (fun _ => True) :=
  ensures_checked_ok hr trivial

theorem ensures_read :
    Ensures flawed I (read : Lower Setting) (fun _ => True) :=
  fun _ _ hI => ⟨hI, trivial⟩

/- The scope of the progress is known to have the property. -/
theorem ensures_get :
    Ensures flawed I (get : Lower Progress)
      (fun p => I p.scope) :=
  fun _ _ hI => ⟨hI, hI⟩

theorem ensures_modify
    {f : Progress → Progress}
    (hf : ∀ p, I p.scope → I (f p).scope) :
    Ensures flawed I (modify f : Lower Unit) (fun _ => True) :=
  fun _ p hI => ⟨hf p hI, trivial⟩

theorem ensures_log
    (message : String) :
    Ensures flawed I (log message) (fun _ => True) :=
  ensures_modify (fun _ hI => hI)

theorem ensures_warn
    (d : Diagnostic) :
    Ensures flawed I (warn d) (fun _ => True) :=
  (ensures_log _).bind fun _ _ => ensures_modify (fun _ hI => hI)

theorem ensures_textOf
    (span : Span) :
    Ensures flawed I (textOf span) (fun _ => True) :=
  ensures_read.bind fun _ _ => ensures_pure trivial

/- A computation on marks gives what it gives from any mark. -/
theorem ensures_stamping
    {m : Stamping α}
    (hm : ∀ marks, P (m marks).1) :
    Ensures flawed I (stamping m) P :=
  fun _ p hI => ⟨hI, hm p.marks⟩

/- Marks on an expression change nothing else. -/
theorem ensures_keep
    (e : Expr) :
    Ensures flawed I (keep e)
      (fun e' => e'.unmarked = e.unmarked) :=
  ensures_stamping (Expr.unmarked_stamp e)

/- No elements, and one more in front of others. -/
theorem ensures_nil :
    Ensures flawed I (pure [])
      (fun xs : List α => ∀ x ∈ xs, P x) :=
  ensures_pure (by simp)

theorem ensures_cons
    {first : α}
    (hFirst : P first)
    {more : Lower (List α)}
    (hMore : Ensures flawed I more (fun xs => ∀ x ∈ xs, P x)) :
    Ensures flawed I (do return first :: (← more))
      (fun xs => ∀ x ∈ xs, P x) := by
  apply hMore.bind
  intro xs hxs
  apply ensures_pure
  intro x hx
  rcases List.mem_cons.mp hx with rfl | hx
  · exact hFirst
  · exact hxs x hx

/- Steps on each element in turn. -/
theorem ensures_mapM
    {f : α → Lower β}
    {xs : List α}
    (hf : ∀ x ∈ xs, Ensures flawed I (f x) Q) :
    Ensures flawed I (xs.mapM f)
      (fun ys => ys.length = xs.length ∧ ∀ y ∈ ys, Q y) := by
  induction xs with
  | nil =>
      rw [List.mapM_nil]
      exact ensures_pure ⟨rfl, by simp⟩
  | cons x xs ih =>
      rw [List.mapM_cons]
      apply (hf x (List.mem_cons_self ..)).bind
      intro y hy
      apply (ih fun z hz => hf z (List.mem_cons_of_mem _ hz)).bind
      rintro ys ⟨hLength, hys⟩
      apply ensures_pure
      refine ⟨by simp [hLength], ?_⟩
      simpa using ⟨hy, hys⟩

/- A step on each element that carries a state along. -/
theorem ensures_foldlM
    {f : β → α → Lower β}
    {xs : List α}
    {b : β}
    (hb : Q b)
    (hf : ∀ x ∈ xs, ∀ b, Q b → Ensures flawed I (f b x) Q) :
    Ensures flawed I (xs.foldlM f b) Q := by
  have hStep : ∀ x ∈ xs, ∀ b,
      Leads flawed (fun scope => I scope ∧ Q b) (f b x)
        (fun b' scope => I scope ∧ Q b') :=
    fun x hx b s p h => hf x hx b h.2 s p h.1
  exact (leads_foldlM hStep b).imp (fun _ hI => ⟨hI, hb⟩)
    (fun _ _ h => h)

end Lower

end Gatework

------------------------------------------------------------
-- Signals
------------------------------------------------------------

namespace Gatework

/- Declared signals have their names and widths in range. -/
def ValidSignals
    (signals : NameMap Var) :
    Prop :=
  ∀ n v, signals.find? n = some v →
    v.name = n ∧ n ≠ "" ∧ 1 ≤ v.width ∧ v.width ≤ maxWidth

theorem validSignals_empty :
    ValidSignals NameMap.empty := by
  intro n v hFound
  cases hFound

theorem ValidSignals.insert
    {signals : NameMap Var}
    (hValid : ValidSignals signals)
    {v : Var}
    (hName : v.name ≠ "")
    (hPos : 1 ≤ v.width)
    (hMax : v.width ≤ maxWidth) :
    ValidSignals (signals.insert v.name v) := by
  intro n w hFound
  rw [NameMap.find?_insert] at hFound
  split at hFound
  case isTrue hn =>
      cases hFound
      exact ⟨hn.symm, hn ▸ hName, hPos, hMax⟩
  case isFalse => exact hValid n w hFound

/- The width of a name: as declared, or one bit. -/
def widthIn
    (signals : NameMap Var)
    (name : String) :
    Nat :=
  ((signals.find? name).map Var.width).getD 1

/- A named signal read at the width of its name. -/
def Reads
    (signals : NameMap Var)
    (v : Var) :
    Prop :=
  v.HasName ∧ v.width = widthIn signals v.name

theorem oneWidth_reads
    (signals : NameMap Var) :
    OneWidth (Reads signals) := by
  intro v w hv hw hName
  rw [hv.2, hw.2, hName]

/- The low bound of a vector, 0 for a single bit. -/
def Scope.low
    (scope : Scope)
    (name : String) :
    Nat :=
  match scope.ranges.find? name with
  | some (msb, lsb) => min msb lsb
  | none => 0

/- Another scope with the same declarations. -/
def Scope.Agrees
    (scope other : Scope) :
    Prop :=
  other.signals = scope.signals ∧ other.ranges = scope.ranges

namespace Lower

variable {flawed : Prop}
variable {scope : Scope}

theorem ensures_assume
    (name : String)
    (span : Span) :
    Ensures flawed scope.Agrees (assume name span)
      (fun _ => True) := by
  unfold assume
  apply ensures_get.bind
  intro p hp
  dsimp only
  split
  · exact ensures_pure trivial
  · apply Ensures.bind (P := fun _ => True)
    · exact ensures_modify fun _ _ => hp
    · intro _ _
      exact ensures_warn _

/- A name refers to a signal at the width of the name. -/
theorem ensures_lookup
    (hValid : ValidSignals scope.signals)
    (name : String)
    (span : Span) :
    Ensures flawed scope.Agrees (lookup name span)
      (fun v => v.name = name ∧
        v.width = widthIn scope.signals name ∧
        1 ≤ v.width ∧ v.width ≤ maxWidth) := by
  unfold lookup
  apply ensures_get.bind
  intro p hp
  rw [hp.1]
  cases hFound : scope.signals.find? name with
  | some v =>
      rcases hValid name v hFound with ⟨hSame, _, hPos, hMax⟩
      apply ensures_pure
      refine ⟨hSame, ?_, hPos, hMax⟩
      simp [widthIn, hFound]
  | none =>
      apply ensures_read.bind
      intro setting _
      split
      · exact ensures_fail rfl
      · apply (ensures_assume name span).bind
        intro _ _
        apply ensures_pure
        refine ⟨rfl, ?_, Nat.le_refl 1, one_le_maxWidth⟩
        simp [widthIn, Var.scalar, hFound]

theorem ensures_lowBound
    (name : String) :
    Ensures flawed scope.Agrees (lowBound name)
      (· = scope.low name) := by
  apply ensures_get.bind
  intro p hp
  apply ensures_pure
  rw [hp.2]
  rfl

end Lower

end Gatework
