import Gatework.Proofs.Lowering.Operand
import Gatework.Stmt.Basic

/-
  Lowered expressions mean what their sources mean.

  What an expression is lowered to is typed, reads each name
  at its width in the scope, and has the meaning of its tree,
  where selects count from the low bound of the signal. No
  node fails its check if every concatenation has parts.

  Key definitions include:
    * `Target.Covers`, the bits that a target writes
    * `Operand.Renders`

  Key theorems include:
    * `Lower.ensures_operand`
    * `Lower.ensures_expr`, `Lower.ensures_exprTo` and
      `Lower.ensures_cond`
    * `Lower.ensures_target`
-/

------------------------------------------------------------
-- Literals
------------------------------------------------------------

namespace Gatework

theorem Hdl.Literal.Shows.own_meaning
    {l : Literal}
    {m : Meaning}
    (hl : l.Shows m)
    (τ : String → Nat) :
    m.own τ = l.value := by
  rw [← hl.meaning_eq, meaning]
  split
  · rfl
  · exact hl.own_eq

theorem LowerError.isFlaw_ofLiteral
    (text : String)
    (span : Span)
    (f : Hdl.LiteralFlaw) :
    (ofLiteral text span f).isFlaw = false := by
  cases f <;> rfl

namespace Lower

variable {flawed : Prop}
variable {I : Scope → Prop}

theorem ensures_literal
    (kind : Hdl.LiteralKind)
    (text : String)
    (span : Span) :
    Ensures flawed I (literal kind text span)
      (fun l => l.Fits ∧ l.Shows (kind.meaning text)) := by
  unfold literal
  apply ensures_read.bind
  intro setting _
  split
  case h_1 f _ =>
      exact ensures_fail (LowerError.isFlaw_ofLiteral text span f)
  case h_2 l hRead =>
      have hl : l.Fits ∧ l.Shows (kind.meaning text) :=
        ⟨Hdl.Literal.fits_read hRead, Hdl.Literal.shows_read hRead⟩
      split
      · apply (ensures_log _).bind
        intro _ _
        exact ensures_pure hl
      · exact ensures_pure hl

theorem ensures_constant
    (e : Hdl.Expr) :
    Ensures flawed I (constant e)
      (fun found => ∀ n, found = some n → e.number = n) := by
  unfold constant
  split
  case h_1 kind text span hBare =>
      apply (ensures_literal kind text span).bind
      rintro l ⟨_, hShows⟩
      apply ensures_pure
      rintro _ ⟨⟩
      rw [Hdl.Expr.number, hBare]
      exact hShows.own_meaning _
  case h_2 => exact ensures_pure nofun

end Lower

end Gatework

------------------------------------------------------------
-- Selects
------------------------------------------------------------

namespace Gatework

namespace Target

/- The target writes a bit of a signal. -/
def Covers
    (t : Target)
    (n : String)
    (i : Nat) :
    Prop :=
  t.var.name = n ∧ t.low ≤ i ∧ i < t.low + t.width

instance
    (t : Target)
    (n : String)
    (i : Nat) :
    Decidable (t.Covers n i) :=
  inferInstanceAs (Decidable
    (t.var.name = n ∧ t.low ≤ i ∧ i < t.low + t.width))

theorem ofExpr?_unmarked
    (e : Expr) :
    ofExpr? e.unmarked = ofExpr? e := by
  cases e with
  | bit m b i => cases b <;> rfl
  | part m b h l => cases b <;> rfl
  | _ => rfl

/- Marks do not make a target of an expression. -/
theorem ofExpr?_of_unmarked
    {e e' : Expr}
    (hSame : e'.unmarked = e.unmarked) :
    ofExpr? e' = ofExpr? e := by
  rw [← ofExpr?_unmarked e', hSame, ofExpr?_unmarked]

variable {v : Var}
variable {n : String}
variable {i : Nat}

theorem covers_whole :
    (whole v).Covers n i ↔ v.name = n ∧ i < v.width := by
  have hWidth : (whole v).width = v.width := rfl
  have hLow : (whole v).low = 0 := rfl
  have hName : (whole v).var.name = v.name := rfl
  rw [Covers, hWidth, hLow, hName]
  refine and_congr_right fun _ => ?_
  omega

theorem covers_part
    {h l : Nat} :
    (part v h l).Covers n i ↔
      v.name = n ∧ min h l ≤ i ∧ i ≤ max h l := by
  have hWidth : (part v h l).width = max h l - min h l + 1 := rfl
  have hLow : (part v h l).low = min h l := rfl
  have hName : (part v h l).var.name = v.name := rfl
  rw [Covers, hWidth, hLow, hName]
  refine and_congr_right fun _ => ?_
  omega

theorem covers_bit
    {index : Nat} :
    (bit v index).Covers n i ↔ v.name = n ∧ i = index := by
  have hWidth : (bit v index).width = 1 := rfl
  have hLow : (bit v index).low = index := rfl
  have hName : (bit v index).var.name = v.name := rfl
  rw [Covers, hWidth, hLow, hName]
  refine and_congr_right fun _ => ?_
  omega

end Target

namespace Lower

variable {flawed : Prop}
variable {scope : Scope}
variable {N : String → Prop}
variable {Γ : Var → Prop}

/- The place of a bound, counted from the low bound. -/
theorem ensures_position
    {I : Scope → Prop}
    (v : Var)
    (low : Nat)
    (base bound : Hdl.Expr)
    (span : Span) :
    Ensures flawed I (position v low base bound span)
      (fun i => i < v.width ∧
        (bound.number < 2 ^ 63 →
          low ≤ bound.number ∧ i = bound.number - low)) := by
  apply (ensures_constant bound).bind
  intro found hFound
  split
  case h_1 => exact ensures_fail rfl
  case h_2 value =>
      rw [hFound value rfl]
      dsimp only
      split
      case isTrue =>
          apply (ensures_textOf span).bind
          intro _ _
          apply (ensures_textOf base.span).bind
          intro _ _
          exact ensures_fail rfl
      case isFalse hInside =>
          have hMax : maxBound = 2 ^ 63 - 1 := rfl
          apply ensures_pure
          omega

section

variable (hValid : ValidSignals scope.signals)
variable (hΓ : ∀ v, N v.name →
  v.width = widthIn scope.signals v.name → Γ v)

include hValid hΓ

/- A name that may be read is lowered to its signal. -/
theorem ensures_signal
    {n : String}
    (hn : N n)
    (span : Span) :
    Ensures flawed scope.Agrees (lookup n span)
      (fun v => v.name = n ∧
        (Expr.ofVar v).Denotes Γ (Hdl.Expr.signal scope n).width
          (Hdl.Expr.signal scope n).own) := by
  apply (ensures_lookup hValid n span).imp
  rintro v ⟨rfl, hWidth, hPos, hMax⟩
  have hTyped : (Expr.var none v).Typed Γ :=
    ⟨hPos, hMax, hΓ v hn hWidth⟩
  have hDenotes := Expr.denotes_var hTyped
  rw [hWidth] at hDenotes
  exact ⟨rfl, hDenotes⟩

theorem ensures_selectBase
    {base : Hdl.Expr}
    (hBase : base.Over N flawed)
    (span : Span) :
    Ensures flawed scope.Agrees (selectBase base span)
      (fun found => ∃ n place, base.bare = .name n place ∧
        found.1.name = n ∧ found.2 = scope.low n ∧
        (Expr.ofVar found.1).Denotes Γ
          (Hdl.Expr.signal scope n).width
          (Hdl.Expr.signal scope n).own) := by
  unfold selectBase
  split
  case h_1 n place hBare =>
      have hn : N n := by
        have hOver := hBase.bare
        rw [hBare] at hOver
        exact hOver
      apply (ensures_signal hValid hΓ hn place).bind
      rintro v ⟨hName, hv⟩
      apply (ensures_lowBound n).bind
      intro low hLow
      exact ensures_pure ⟨n, place, hBare, hName, hLow, hv⟩
  case h_2 =>
      apply (ensures_textOf base.span).bind
      intro _ _
      exact ensures_refuse _ span

/-
  A select is a target that means the bits it names, if its
  bounds are not cut off.
-/
theorem ensures_bitSelect
    {base : Hdl.Expr}
    (hBase : base.Over N flawed)
    (index : Hdl.Expr)
    (span : Span) :
    Ensures flawed scope.Agrees (bitSelect base index span)
      (fun e => e.Typed Γ ∧
        (∃ t, Target.ofExpr? e = some t ∧
          (index.number < 2 ^ 63 → ∀ n i, t.Covers n i ↔
            base.SelectsBetween scope index.number index.number
              n i)) ∧
        (index.number < 2 ^ 63 →
          (Operand.sized e).meaning =
            Hdl.Expr.selected scope base index.number
              index.number)) := by
  apply (ensures_selectBase hValid hΓ hBase span).bind
  rintro ⟨v, low⟩ ⟨n, place, hBare, hName, hLow, hv⟩
  dsimp only at hName hLow hv
  apply (ensures_position v low base index span).bind
  rintro i ⟨hi, hPlace⟩
  have hWidth : v.width = (Hdl.Expr.signal scope n).width :=
    hv.width_eq
  have hBit := hv.bit (hWidth ▸ hi)
  apply (ensures_node hBit.typed rfl).imp
  intro e hSame
  have he := hBit.of_unmarked hSame
  refine ⟨he.typed, ?_, ?_⟩
  · refine ⟨.bit v i, Target.ofExpr?_of_unmarked hSame, ?_⟩
    intro hBound m j
    rcases hPlace hBound with ⟨hAbove, rfl⟩
    rw [Target.covers_bit, Hdl.Expr.selectsBetween_iff hBare, hName]
    refine and_congr_right fun _ => ?_
    omega
  · intro hBound
    rcases hPlace hBound with ⟨_, rfl⟩
    rw [he.meaning_eq, Hdl.Expr.selected, hBare, hLow]
    simp only [Nat.max_self, Nat.min_self, Nat.sub_self,
      Nat.zero_add]

theorem ensures_partSelect
    {base : Hdl.Expr}
    (hBase : base.Over N flawed)
    (msb lsb : Hdl.Expr)
    (span : Span) :
    Ensures flawed scope.Agrees (partSelect base msb lsb span)
      (fun e => e.Typed Γ ∧
        (∃ t, Target.ofExpr? e = some t ∧
          (msb.number < 2 ^ 63 → lsb.number < 2 ^ 63 →
            ∀ n i, t.Covers n i ↔
              base.SelectsBetween scope msb.number lsb.number
                n i)) ∧
        (msb.number < 2 ^ 63 → lsb.number < 2 ^ 63 →
          (Operand.sized e).meaning =
            Hdl.Expr.selected scope base msb.number
              lsb.number)) := by
  apply (ensures_selectBase hValid hΓ hBase span).bind
  rintro ⟨v, low⟩ ⟨n, place, hBare, hName, hLow, hv⟩
  dsimp only at hName hLow hv
  apply (ensures_position v low base msb span).bind
  rintro m ⟨hm, hMsb⟩
  apply (ensures_position v low base lsb span).bind
  rintro l ⟨hl, hLsb⟩
  have hWidth : v.width = (Hdl.Expr.signal scope n).width :=
    hv.width_eq
  have hPart := hv.part (hWidth ▸ hm) (hWidth ▸ hl)
  apply (ensures_node hPart.typed rfl).imp
  intro e hSame
  have he := hPart.of_unmarked hSame
  refine ⟨he.typed, ?_, ?_⟩
  · refine ⟨.part v m l, Target.ofExpr?_of_unmarked hSame, ?_⟩
    intro hMsbBound hLsbBound k j
    rcases hMsb hMsbBound with ⟨hMsbLow, rfl⟩
    rcases hLsb hLsbBound with ⟨hLsbLow, rfl⟩
    rw [Target.covers_part, Hdl.Expr.selectsBetween_iff hBare, hName]
    refine and_congr_right fun _ => ?_
    omega
  · intro hMsbBound hLsbBound
    rcases hMsb hMsbBound with ⟨hMsbLow, hm⟩
    rcases hLsb hLsbBound with ⟨hLsbLow, hl⟩
    -- Both bounds move by the low bound, so the width stays.
    have hFirst : min m l =
        min msb.number lsb.number - scope.low n := by
      omega
    have hLength : max m l - min m l + 1 =
        max msb.number lsb.number -
          min msb.number lsb.number + 1 := by
      omega
    rw [he.meaning_eq, Hdl.Expr.selected, hBare, hLength,
      hFirst]

end

end Lower

end Gatework

------------------------------------------------------------
-- Expressions
------------------------------------------------------------

namespace Gatework

/-
  An operand that is typed and means what an expression means
  if its bounds are not cut off.
-/
structure Operand.Renders
    (Γ : Var → Prop)
    (scope : Scope)
    (e : Hdl.Expr)
    (op : Operand) :
    Prop where
  typed : op.Typed Γ
  meaning_eq : e.Bounded → op.meaning = e.meaning scope

namespace Lower

variable {flawed : Prop}
variable {scope : Scope}
variable {N : String → Prop}
variable {Γ : Var → Prop}

/- An expression of its own width as an operand. -/
theorem Ensures.sized
    {I : Scope → Prop}
    {e : Hdl.Expr}
    {m : Lower Expr}
    (hm : Ensures flawed I m (fun x => x.Typed Γ ∧
      (e.Bounded →
        (Operand.sized x).meaning = e.meaning scope))) :
    Ensures flawed I (do return Operand.sized (← m))
      (Operand.Renders Γ scope e) := by
  apply hm.bind
  rintro x ⟨hTyped, hMeaning⟩
  exact ensures_pure ⟨hTyped, hMeaning⟩

/- One bit as an operand. -/
theorem Ensures.sizedBit
    {I : Scope → Prop}
    {e : Hdl.Expr}
    {m : Lower Expr}
    {f : (String → Nat) → Bool}
    (hm : Ensures flawed I m (Expr.IsBit Γ · f))
    (hMeaning : e.Bounded → e.meaning scope = .test f) :
    Ensures flawed I (do return Operand.sized (← m))
      (Operand.Renders Γ scope e) := by
  apply Ensures.sized
  apply hm.imp
  intro x hx
  refine ⟨hx.typed, fun hBounded => ?_⟩
  rw [hx.denotes.meaning_eq, hMeaning hBounded]
  rfl

/- Parts of a concatenation, given each of them. -/
theorem ensures_operands
    {I : Scope → Prop}
    {es : List Hdl.Expr}
    (hEach : ∀ e ∈ es,
      Ensures flawed I (operand e) (Operand.Renders Γ scope e)) :
    Ensures flawed I (operands es)
      (fun parts => (∀ p ∈ parts, p.Typed Γ) ∧
        parts.length = es.length ∧
        ((∀ e ∈ es, e.Bounded) →
          (parts.map fun p => (Operand.sized p).meaning) =
            Hdl.Expr.meanings scope es)) := by
  induction es with
  | nil =>
      rw [operands]
      exact ensures_pure ⟨by simp, rfl, fun _ => rfl⟩
  | cons e es ih =>
      rw [operands]
      apply (hEach e (List.mem_cons_self ..)).bind
      intro op hOp
      cases op with
      | unsized l => exact ensures_refuse _ _
      | sized x =>
          apply (ih fun d hd =>
            hEach d (List.mem_cons_of_mem _ hd)).bind
          rintro parts ⟨hParts, hLength, hMeanings⟩
          have hx : x.Typed Γ := hOp.typed
          apply ensures_pure
          refine ⟨?_, congrArg (· + 1) hLength, ?_⟩
          · simpa using ⟨hx, hParts⟩
          · intro hBounded
            rw [List.forall_mem_cons] at hBounded
            rw [List.map_cons, hOp.meaning_eq hBounded.1,
              hMeanings hBounded.2]
            rfl

/- A literal with a size, or one that stays open. -/
theorem ensures_literalOperand
    {I : Scope → Prop}
    (kind : Hdl.LiteralKind)
    (text : String)
    (span : Span) :
    Ensures flawed I (operand (.literal kind text span))
      (Operand.Renders Γ scope (.literal kind text span)) := by
  rw [operand]
  apply (ensures_literal kind text span).bind
  rintro l ⟨hFits, hShows⟩
  have hMeaning := hShows.meaning_eq
  unfold Hdl.Literal.meaning at hMeaning
  split
  case isTrue hSized =>
      rw [if_pos hSized] at hMeaning
      have hConst : (Expr.const none l.toConst).Typed Γ := hFits
      apply Ensures.sized
      apply (ensures_kept (Expr.denotes_const hConst)).imp
      intro x hx
      exact ⟨hx.typed, fun _ => hx.meaning_eq.trans hMeaning⟩
  case isFalse hOpen =>
      rw [if_neg hOpen] at hMeaning
      apply ensures_pure
      refine ⟨⟨hFits, ?_, hShows.own_eq⟩, fun _ => hMeaning⟩
      exact eq_false_of_ne_true hOpen

/- Copies of a list of parts side by side. -/
theorem ensures_copies
    {I : Scope → Prop}
    {es : List Hdl.Expr}
    (hSome : es = [] → flawed)
    (hEach : ∀ e ∈ es,
      Ensures flawed I (operand e) (Operand.Renders Γ scope e))
    (n : Nat)
    (span : Span)
    {whole : Hdl.Expr}
    (hBounds : whole.bounds = Hdl.Expr.boundsAll es)
    (hWhole : whole.meaning scope =
      .joined (List.replicate (n + 1)
        (Hdl.Expr.meanings scope es)).flatten) :
    Ensures flawed I
      (do
        let parts ← operands es
        return .sized (← concat parts (n + 1) span))
      (Operand.Renders Γ scope whole) := by
  apply (ensures_operands hEach).bind
  rintro parts ⟨hParts, hLength, hMeanings⟩
  have hBare : parts = [] → flawed := by
    rintro rfl
    exact hSome (List.eq_nil_of_length_eq_zero hLength.symm)
  apply Ensures.sized
  apply (ensures_concat hParts hBare n span).imp
  rintro x ⟨hTyped, hMeaning⟩
  refine ⟨hTyped, fun hBounded => ?_⟩
  have hAll : ∀ e ∈ es, e.Bounded := by
    intro e he b hb
    apply hBounded
    rw [hBounds]
    exact Hdl.Expr.mem_boundsAll.mpr ⟨e, he, hb⟩
  rw [hMeaning, hMeanings hAll, hWhole]

theorem ensures_binary
    {I : Scope → Prop}
    {left right : Hdl.Expr}
    (hLeft : Ensures flawed I (operand left)
      (Operand.Renders Γ scope left))
    (hRight : Ensures flawed I (operand right)
      (Operand.Renders Γ scope right))
    (op : Hdl.BinaryOp)
    (span : Span) :
    Ensures flawed I (operand (.binary left op right span))
      (Operand.Renders Γ scope (.binary left op right span)) := by
  rw [operand]
  apply hLeft.bind
  intro a ha
  have hMeaning : ∀ {b : Operand}, b.Renders Γ scope right →
      (Hdl.Expr.binary left op right span).Bounded →
      (Hdl.Expr.binary left op right span).meaning scope =
        op.combine a.meaning b.meaning := by
    intro b hb hBounded
    rcases List.forall_mem_append.mp hBounded with ⟨hl, hr⟩
    rw [Hdl.Expr.meaning, ha.meaning_eq hl, hb.meaning_eq hr]
  have hEquality : ∀ cmp : CmpOp,
      (op.combine = fun a b =>
        .test fun τ => cmp.holds (a.equals b τ)) →
      Ensures flawed I
        (do
          let b ← operand right
          return .sized
            (← equality a b cmp left.span right.span span))
        (Operand.Renders Γ scope
          (.binary left op right span)) := by
    intro cmp hOp
    apply hRight.bind
    intro b hb
    apply (ensures_equality ha.typed hb.typed cmp _ _
      span).sizedBit
    intro hBounded
    rw [hMeaning hb hBounded, hOp]
  have hLogic : ∀ gate : GateOp,
      (op.combine = fun a b =>
        .test fun τ => gate.onBits (a.holds τ) (b.holds τ)) →
      Ensures flawed I
        (do
          let x ← truth a
          let y ← truth (← operand right)
          return .sized (← node (.gate none gate x y)))
        (Operand.Renders Γ scope
          (.binary left op right span)) := by
    intro gate hOp
    apply (ensures_truth ha.typed).bind
    intro x hx
    apply hRight.bind
    intro b hb
    apply (ensures_truth hb.typed).bind
    intro y hy
    apply (ensures_nodeBit (hx.gate gate hy) rfl).sizedBit
    intro hBounded
    rw [hMeaning hb hBounded, hOp]
  cases op with
  | eq => exact hEquality .eq rfl
  | neq => exact hEquality .neq rfl
  | logAnd => exact hLogic .and rfl
  | logOr => exact hLogic .or rfl
  | _ =>
      apply hRight.bind
      intro b hb
      apply Ensures.sized
      apply (ensures_bitwise _ ha.typed hb.typed _ _).imp
      rintro x ⟨hTyped, hBits⟩
      refine ⟨hTyped, fun hBounded => ?_⟩
      exact hBits.trans (hMeaning hb hBounded).symm

theorem ensures_ternary
    {I : Scope → Prop}
    {c t f : Hdl.Expr}
    (hCond : Ensures flawed I (operand c)
      (Operand.Renders Γ scope c))
    (hTrue : Ensures flawed I (operand t)
      (Operand.Renders Γ scope t))
    (hFalse : Ensures flawed I (operand f)
      (Operand.Renders Γ scope f))
    (span : Span) :
    Ensures flawed I (operand (.ternary c t f span))
      (Operand.Renders Γ scope (.ternary c t f span)) := by
  rw [operand]
  apply hCond.bind
  intro s hs
  apply (ensures_truth hs.typed).bind
  intro cond hc
  apply hTrue.bind
  intro a ha
  apply hFalse.bind
  intro b hb
  apply (ensures_unify ha.typed hb.typed t.span f.span).bind
  rintro ⟨x, y⟩ ⟨hx, hy⟩
  apply Ensures.sized
  apply (ensures_nodeNumber (hx.mux hc hy) rfl).imp
  intro e he
  refine ⟨he.typed, fun hBounded => ?_⟩
  rcases List.forall_mem_append.mp hBounded with ⟨hc', htf⟩
  rcases List.forall_mem_append.mp htf with ⟨ht, hf⟩
  rw [he.meaning_eq, Hdl.Expr.meaning, hs.meaning_eq hc',
    ha.meaning_eq ht, hb.meaning_eq hf]
  rfl

section

variable (hValid : ValidSignals scope.signals)
variable (hΓ : ∀ v, N v.name →
  v.width = widthIn scope.signals v.name → Γ v)

include hValid hΓ

/-
  Every operand means what its source means: by induction on
  the source, with one step lemma for each form.
-/
theorem ensures_operand
    {e : Hdl.Expr}
    (he : e.Over N flawed) :
    Ensures flawed scope.Agrees (operand e)
      (Operand.Renders Γ scope e) := by
  induction e with
  | name n span =>
      rw [operand]
      apply (ensures_signal hValid hΓ he span).bind
      rintro v ⟨_, hv⟩
      apply Ensures.sized
      apply (ensures_kept hv).imp
      exact fun x hx => ⟨hx.typed, fun _ => hx.meaning_eq⟩
  | literal kind text span =>
      exact ensures_literalOperand kind text span
  | index base i span ihBase ihIndex =>
      rw [operand]
      apply Ensures.sized
      apply (ensures_bitSelect hValid hΓ he.1 i span).imp
      rintro x ⟨hTyped, _, hMeaning⟩
      refine ⟨hTyped, fun hBounded => hMeaning ?_⟩
      exact hBounded _ (by simp [Hdl.Expr.bounds])
  | slice base m l span ihBase ihMsb ihLsb =>
      rw [operand]
      apply Ensures.sized
      apply (ensures_partSelect hValid hΓ he.1 m l span).imp
      rintro x ⟨hTyped, _, hMeaning⟩
      refine ⟨hTyped, fun hBounded => hMeaning ?_ ?_⟩
      · exact hBounded _ (by simp [Hdl.Expr.bounds])
      · exact hBounded _ (by simp [Hdl.Expr.bounds])
  | concat es span ih =>
      rw [operand]
      rcases he with ⟨hSome, hAll⟩
      apply ensures_copies hSome ?_ 0 span rfl
      · rw [Hdl.Expr.meaning]
        simp
      · intro d hd
        exact ih d hd (Hdl.Expr.overAll_iff.mp hAll d hd)
  | replicate count es span ihCount ih =>
      rw [operand]
      rcases he with ⟨_, hSome, hAll⟩
      apply (ensures_constant count).bind
      intro found hFound
      split
      case h_1 n =>
          apply ensures_copies hSome ?_ n span rfl
          · rw [Hdl.Expr.meaning, hFound (n + 1) rfl]
          · intro d hd
            exact ih d hd (Hdl.Expr.overAll_iff.mp hAll d hd)
      case h_2 =>
          apply (ensures_textOf count.span).bind
          intro _ _
          exact ensures_refuse _ _
  | unary op x span ih =>
      cases op with
      | logNot =>
          rw [operand]
          apply (ih he).bind
          intro a ha
          apply (ensures_logNot ha.typed).sizedBit
          intro hBounded
          rw [ha.meaning_eq hBounded]
          rfl
      | bitNot =>
          rw [operand]
          apply (ih he).bind
          intro a ha
          apply Ensures.sized
          apply (ensures_bitNot ha.typed).imp
          rintro x ⟨hTyped, hMeaning⟩
          refine ⟨hTyped, fun hBounded => ?_⟩
          rw [hMeaning, ha.meaning_eq hBounded]
          rfl
      | _ =>
          rw [operand]
          · exact ensures_refuse _ span
          · exact nofun
          · exact nofun
  | binary left op right span ihLeft ihRight =>
      exact ensures_binary (ihLeft he.1) (ihRight he.2) op span
  | ternary c t f span ihCond ihTrue ihFalse =>
      exact ensures_ternary (ihCond he.1) (ihTrue he.2.1)
        (ihFalse he.2.2) span
  | paren inner span ih =>
      rw [operand]
      apply (ih he).imp
      exact fun op hOp => ⟨hOp.typed, hOp.meaning_eq⟩
  | broken span =>
      rw [operand]
      exact ensures_refuse _ span

variable {e : Hdl.Expr}
variable (he : e.Over N flawed)

include he

theorem ensures_expr :
    Ensures flawed scope.Agrees (expr e)
      (fun x => x.Typed Γ ∧
        (e.Bounded → x.Denotes Γ (e.meaning scope).width
          (e.meaning scope).own)) := by
  apply (ensures_operand hValid hΓ he).bind
  intro op hOp
  apply (ensures_ownWidth hOp.typed).imp
  intro x hx
  refine ⟨hx.typed, fun hBounded => ?_⟩
  rw [← hOp.meaning_eq hBounded]
  exact hx

theorem ensures_exprTo
    (width : Nat) :
    Ensures flawed scope.Agrees (exprTo e width)
      (fun x => x.Typed Γ ∧ x.width = width ∧
        (e.Bounded → x.Denotes Γ width
          ((e.meaning scope).value · width))) := by
  apply (ensures_operand hValid hΓ he).bind
  intro op hOp
  apply (ensures_fit hOp.typed width e.span).imp
  intro x hx
  refine ⟨hx.typed, hx.width_eq, fun hBounded => ?_⟩
  rw [← hOp.meaning_eq hBounded]
  exact hx

theorem ensures_cond :
    Ensures flawed scope.Agrees (cond e)
      (fun c => c.Typed Γ ∧ c.width = 1) := by
  apply (ensures_operand hValid hΓ he).bind
  intro op hOp
  apply (ensures_truth hOp.typed).imp
  exact fun c hc => ⟨hc.typed, hc.width_eq⟩

theorem ensures_target :
    Ensures flawed scope.Agrees (target e)
      (fun x => x.Typed Γ ∧ ∃ t, Target.ofExpr? x = some t ∧
        (e.Bounded → ∀ n i,
          t.Covers n i ↔ e.Selects scope n i)) := by
  have hBare := he.bare
  have hBounds : e.Bounded ↔ e.bare.Bounded := by
    rw [Hdl.Expr.Bounded, Hdl.Expr.Bounded, Hdl.Expr.bounds_bare]
  rw [hBounds]
  unfold target Hdl.Expr.Selects
  split
  case h_1 name span hName =>
      rw [hName] at hBare ⊢
      apply (ensures_signal hValid hΓ hBare span).bind
      rintro v ⟨rfl, hv⟩
      refine ensures_pure ⟨hv.typed, .whole v, rfl, fun _ n i => ?_⟩
      have hWidth : v.width = widthIn scope.signals v.name :=
        hv.width_eq
      rw [Target.covers_whole, hWidth]
  case h_2 base index span hIndex =>
      rw [hIndex] at hBare ⊢
      apply (ensures_bitSelect hValid hΓ hBare.1 index span).imp
      rintro x ⟨hTyped, ⟨t, ht, hCovers⟩, _⟩
      refine ⟨hTyped, t, ht, fun hBounded => hCovers ?_⟩
      exact hBounded _ (by simp [Hdl.Expr.bounds])
  case h_3 base msb lsb span hSlice =>
      rw [hSlice] at hBare ⊢
      apply (ensures_partSelect hValid hΓ hBare.1 msb lsb
        span).imp
      rintro x ⟨hTyped, ⟨t, ht, hCovers⟩, _⟩
      refine ⟨hTyped, t, ht, fun hBounded => hCovers ?_ ?_⟩
      · exact hBounded _ (by simp [Hdl.Expr.bounds])
      · exact hBounded _ (by simp [Hdl.Expr.bounds])
  case h_4 =>
      apply (ensures_textOf _).bind
      intro _ _
      exact ensures_refuse _ _

end

end Lower

end Gatework

------------------------------------------------------------
-- Preservation of meaning
------------------------------------------------------------

namespace Gatework

/-
  Lowered expressions have the values of their sources, for
  all values of the signals: at the width an expression has by
  itself, and at a width it has to have. The signals are those
  of any scope that declarations leave.
-/
theorem lower_preserves_meaning
    {e : Hdl.Expr}
    (hBounded : e.Bounded)
    {s : Setting}
    {p : Progress}
    (hValid : ValidSignals p.scope.signals)
    {ρ : Valuation}
    {τ : String → Nat}
    (hBinds : ∀ n ∈ e.names, ρ n = some (τ n)) :
    (∀ x p', Lower.expr e s p = (.ok x, p') →
      x.width = (e.meaning p.scope).width ∧
      x.eval ρ = .ok ((e.meaning p.scope).own τ)) ∧
    ∀ width x p', Lower.exprTo e width s p = (.ok x, p') →
      x.width = width ∧
      x.eval ρ = .ok ((e.meaning p.scope).value τ width) := by
  have hOver : e.Over (· ∈ e.names) True :=
    Hdl.Expr.over_of_names fun _ hn => hn
  have hReads : ∀ v : Var, v.name ∈ e.names →
      v.width = widthIn p.scope.signals v.name →
      v.name ∈ e.names :=
    fun _ hv _ => hv
  have hEval : ∀ {x : Expr} {width f},
      x.Denotes (fun v => v.name ∈ e.names) width f →
      x.width = width ∧ x.eval ρ = .ok (f τ) := by
    intro x width f hx
    refine ⟨hx.width_eq, ?_⟩
    rw [Expr.eval_eq_value fun v hv =>
      hBinds v.name (hx.typed.mem hv), hx.value_eq τ]
  constructor
  · intro x p' hRun
    have hLowered := Lower.ensures_expr hValid hReads hOver s p
      ⟨rfl, rfl⟩
    rw [hRun] at hLowered
    exact hEval (hLowered.2.2 hBounded)
  · intro width x p' hRun
    have hLowered := Lower.ensures_exprTo hValid hReads hOver
      width s p ⟨rfl, rfl⟩
    rw [hRun] at hLowered
    exact hEval (hLowered.2.2.2 hBounded)

/- A vector `v[4:7]` and a vector `a[7:0]`. -/
def raisedScope : Scope :=
  { signals :=
      (NameMap.empty.insert "v" ⟨"v", 4, false⟩).insert "a"
        ⟨"a", 8, false⟩
    ranges :=
      (NameMap.empty.insert "v" (4, 7)).insert "a" (7, 0) }

/-
  The source `v[5] && !(a == 300) ? {2{v[4:5]}} ^ 'hA
  : 4'd9 ~^ '1` in its parts.
-/
def raisedChoice : Hdl.Expr :=
  let place := Span.nowhere
  let v := Hdl.Expr.name "v" place
  let a := Hdl.Expr.name "a" place
  let int := fun text => Hdl.Expr.literal .int text place
  let based := fun text => Hdl.Expr.literal .based text place
  .ternary
    (.binary (.index v (int "5") place) .logAnd
      (.unary .logNot
        (.paren (.binary a .eq (int "300") place) place) place) place)
    (.binary
      (.replicate (int "2")
        [.slice v (int "4") (int "5") place] place)
      .bitXor (based "'hA") place)
    (.binary (based "4'd9") .bitXnor
      (.literal .fill "'1" place) place)
    place

theorem lower_preserves_meaning_raised :
    ∃ x p', Lower.expr raisedChoice ⟨{}, []⟩
        { scope := raisedScope } = (.ok x, p') ∧
      x.width = 4 ∧
      x.eval (fun n => if n = "v" then some 7 else some 44) =
        .ok 5 := by
  have hValid : ValidSignals raisedScope.signals :=
    (validSignals_empty.insert (v := ⟨"v", 4, false⟩) (by decide)
      (by decide) (by decide)).insert (v := ⟨"a", 8, false⟩)
        (by decide) (by decide) (by decide)
  have hRuns : (Lower.expr raisedChoice ⟨{}, []⟩
      { scope := raisedScope }).1.toOption.isSome = true := by
    decide +kernel
  have hPreserved := lower_preserves_meaning (e := raisedChoice)
    (by decide +kernel) (s := ⟨{}, []⟩)
    (p := { scope := raisedScope }) hValid
    (ρ := fun n => if n = "v" then some 7 else some 44)
    (τ := fun n => if n = "v" then 7 else 44)
    (by decide +kernel)
  generalize hRun : Lower.expr raisedChoice ⟨{}, []⟩
    { scope := raisedScope } = run at hRuns
  rcases run with ⟨result, p'⟩
  cases result with
  | error e => cases hRuns
  | ok x => exact ⟨x, p', rfl, hPreserved.1 x p' hRun⟩

end Gatework
