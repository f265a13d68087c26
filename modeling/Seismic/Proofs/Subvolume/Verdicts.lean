import Seismic.Proofs.Limits
import Seismic.Proofs.Subvolume.Totals

/-!
# Verdicts on cells

Four tests decide on a cell: a fill value ends them, disordered depths are refused, a position
without a trace ends them, and a window beyond the survey is refused.  A cell that passes has
the number of samples of its window, if that can be counted in 64 bits.
-/

namespace Seismic

variable {α σ : Type}

def Bounds.Ordered [Scalar α] (b : Bounds α) : Prop := b.top ≤ b.reference ∧ b.reference ≤ b.bottom

instance [Scalar α] (b : Bounds α) : Decidable b.Ordered := inferInstanceAs (Decidable (_ ∧ _))

namespace Layout

theorem exists_cell {reference : Horizon α σ} {index : Nat} {r : σ}
    (hr : reference.valueAt index = .ok r) :
    reference.grid.cellOf index = .ok (index / reference.ncols, index % reference.ncols) := by
  obtain ⟨hbound, hv⟩ := Horizon.valueAt_eq_ok.mp hr
  obtain ⟨hi, -⟩ := Array.getElem?_eq_some_iff.mp hv
  rw [reference.values_size] at hi
  exact BoundedGrid.cellOf_eq_ok.mpr ⟨hbound, hi, rfl, rfl⟩

variable [Scalar α] [Sampled σ α]

/-! ## The tests -/

/-- The depths of a cell at which every horizon has one. -/
def HasDepths (reference top bottom : Horizon α σ) (index : Nat) (bounds : Bounds α) : Prop :=
  ∃ r t b, reference.valueAt index = .ok r ∧ top.valueAt index = .ok t ∧
    bottom.valueAt index = .ok b ∧ reference.isFill r = false ∧ top.isFill t = false ∧
    bottom.isFill b = false ∧ bounds = ⟨Sampled.widen r, Sampled.widen t, Sampled.widen b⟩

/-- The first or the last sample of a window is beyond the ends of the vertical axis. -/
def Beyond (survey : Survey α) (first last : α) : Prop :=
  first < survey.sample.first - Tolerance.width ∨ survey.sample.last + Tolerance.width < last

/-- The failure that a cell leads to on its own. -/
inductive Offends (survey : Survey α) (reference top bottom : Horizon α σ)
    (spacing : RawSpacing α) (index : Nat) : Failure α → Prop
  /-- Depths that are not ordered, with or without a trace there. -/
  | unordered {bounds : Bounds α} (depths : HasDepths reference top bottom index bounds)
      (order : ¬ bounds.Ordered) :
      Offends survey reference top bottom spacing index
        (.unordered (index / reference.ncols) (index % reference.ncols) bounds.top
          bounds.reference bounds.bottom)
  /-- A window beyond the vertical axis, at a position with a trace. -/
  | verticalBounds {bounds : Bounds α} {first last : α}
      (data : HasData survey reference top bottom index bounds) (order : bounds.Ordered)
      (first_eq : spacing.topSample bounds.top = .ok first)
      (last_eq : spacing.bottomSample bounds.bottom = .ok last)
      (beyond : Beyond survey first last) :
      Offends survey reference top bottom spacing index
        (.verticalBounds (index / reference.ncols) (index % reference.ncols) bounds.top
          bounds.bottom first last survey.sample.first survey.sample.last)

/-- The depths of a cell with data. -/
def dataAt? (survey : Survey α) (reference top bottom : Horizon α σ) (index : Nat) :
    Option (Bounds α) :=
  match reference.valueAt index, top.valueAt index, bottom.valueAt index,
    reference.cellToWorld index with
  | .ok r, .ok t, .ok b, .ok world =>
    if reference.isFill r || top.isFill t || bottom.isFill b ||
        !survey.holdsTrace (survey.transformer.indexOfWorld world) then none
    else some ⟨Sampled.widen r, Sampled.widen t, Sampled.widen b⟩
  | _, _, _, _ => none

variable {survey : Survey α} {reference top bottom : Horizon α σ} {spacing : RawSpacing α}
variable {index : Nat} {bounds : Bounds α}

theorem dataAt?_eq_some : dataAt? survey reference top bottom index = some bounds ↔
    HasData survey reference top bottom index bounds := by
  constructor
  · intro h
    unfold dataAt? at h
    split at h
    next r t b world hr ht hb hw =>
      split_ifs at h with hvoid
      simp only [Bool.or_eq_true, Bool.not_eq_true', not_or, Bool.not_eq_true,
        Bool.not_eq_false] at hvoid
      obtain ⟨⟨⟨hfr, hft⟩, hfb⟩, htrace⟩ := hvoid
      exact ⟨⟨r, t, b, hr, ht, hb, hfr, hft, hfb, (Option.some.inj h).symm⟩, world, hw, htrace⟩
    next => cases h
  · rintro ⟨⟨r, t, b, hr, ht, hb, hfr, hft, hfb, rfl⟩, world, hw, htrace⟩
    unfold dataAt?
    simp only [hr, ht, hb, hw, hfr, hft, hfb, htrace, Bool.not_true, Bool.or_self,
      Bool.false_eq_true, if_false]

/-! ## Sizing a window -/

/-- The window of a cell with data, whose horizons are ordered. -/
def windowOf (survey : Survey α) (spacing : RawSpacing α) (row col : Nat) (bounds : Bounds α) :
    Result α Nat := do
  let first ← spacing.topSample bounds.top
  let last ← spacing.bottomSample bounds.bottom
  if first < survey.sample.first - Tolerance.width ∨ survey.sample.last + Tolerance.width < last then
    throw (.verticalBounds row col bounds.top bounds.bottom first last survey.sample.first
      survey.sample.last)
  spacing.count bounds.top bounds.bottom

theorem windowSize_of_fill {r t b : σ} (hr : reference.valueAt index = .ok r)
    (ht : top.valueAt index = .ok t) (hb : bottom.valueAt index = .ok b)
    (hfill : (reference.isFill r || top.isFill t || bottom.isFill b) = true) :
    windowSize survey reference top bottom spacing index = .ok 0 := by
  unfold windowSize
  rw [hr, ok_bind, ht, ok_bind, hb, ok_bind, if_pos hfill]
  rfl

theorem windowSize_of_unordered (h : HasDepths reference top bottom index bounds)
    (ho : ¬ bounds.Ordered) : windowSize survey reference top bottom spacing index =
      .error (.unordered (index / reference.ncols) (index % reference.ncols) bounds.top
        bounds.reference bounds.bottom) := by
  obtain ⟨r, t, b, hr, ht, hb, hfr, hft, hfb, rfl⟩ := h
  unfold windowSize
  rw [hr, ok_bind, ht, ok_bind, hb, ok_bind, hfr, hft, hfb, if_neg (by decide),
    exists_cell hr, ok_bind]
  exact if_pos ho

theorem windowSize_of_ordered {world : Point α} (h : HasDepths reference top bottom index bounds)
    (ho : bounds.Ordered) (hw : reference.cellToWorld index = .ok world) :
    windowSize survey reference top bottom spacing index =
      if survey.holdsTrace (survey.transformer.indexOfWorld world) then
        windowOf survey spacing (index / reference.ncols) (index % reference.ncols) bounds
      else .ok 0 := by
  obtain ⟨r, t, b, hr, ht, hb, hfr, hft, hfb, rfl⟩ := h
  unfold windowSize
  rw [hr, ok_bind, ht, ok_bind, hb, ok_bind, hfr, hft, hfb, if_neg (by decide),
    exists_cell hr, ok_bind]
  refine (if_neg (not_not.mpr ho)).trans ?_
  rw [hw, ok_bind]
  cases survey.holdsTrace (survey.transformer.indexOfWorld world) <;> rfl

theorem windowSize_of_data (h : HasData survey reference top bottom index bounds)
    (ho : bounds.Ordered) : windowSize survey reference top bottom spacing index =
      windowOf survey spacing (index / reference.ncols) (index % reference.ncols) bounds := by
  obtain ⟨world, hw, htrace⟩ := h.trace
  rw [windowSize_of_ordered h.depths ho hw, if_pos htrace]

/-- A cell without data, whose depths are not disordered, has an empty window. -/
theorem windowSize_of_void {r t b : σ} (hr : reference.valueAt index = .ok r)
    (ht : top.valueAt index = .ok t) (hb : bottom.valueAt index = .ok b)
    (ho : ∀ bounds, HasDepths reference top bottom index bounds → bounds.Ordered)
    (hd : dataAt? survey reference top bottom index = none) :
    windowSize survey reference top bottom spacing index = .ok 0 := by
  obtain ⟨world, hw⟩ := Horizon.cellToWorld_of_valueAt hr
  by_cases hfill : (reference.isFill r || top.isFill t || bottom.isFill b) = true
  · exact windowSize_of_fill hr ht hb hfill
  · simp only [Bool.or_eq_true, not_or, Bool.not_eq_true] at hfill
    obtain ⟨⟨hfr, hft⟩, hfb⟩ := hfill
    have hdepths : HasDepths reference top bottom index _ :=
      ⟨r, t, b, hr, ht, hb, hfr, hft, hfb, rfl⟩
    rw [windowSize_of_ordered hdepths (ho _ hdepths) hw]
    refine if_neg fun htrace => ?_
    rw [dataAt?_eq_some.mpr ⟨hdepths, world, hw, htrace⟩] at hd
    cases hd

theorem windowSize_of_offends {e : Failure α}
    (h : Offends survey reference top bottom spacing index e) :
    windowSize survey reference top bottom spacing index = .error e := by
  cases h with
  | unordered depths order => exact windowSize_of_unordered depths order
  | verticalBounds data order first_eq last_eq beyond =>
    rw [windowSize_of_data data order, windowOf, first_eq, ok_bind, last_eq, ok_bind]
    exact if_pos beyond

end Layout

/-! ## Windows over 64-bit numbers -/

open Double

/-- The lattice of the samples of a survey. -/
def Survey.lattice (survey : Survey Float) : RawSpacing Float :=
  ⟨⟨survey.sample.step, rawMargin⟩, Tolerance.phase survey.sample.first survey.sample.step⟩

theorem Survey.through_eq (survey : Survey Float) :
    RawSpacing.through survey.sample.step survey.sample.first =
      if Options.isStepsize survey.sample.step then .ok survey.lattice
      else .error (.badStepsize survey.sample.step) := by
  unfold RawSpacing.through Spacing.ofStepsize
  split_ifs <;> rfl

namespace Layout

variable [Sampled σ Float] {survey : Survey Float} {reference top bottom : Horizon Float σ}
variable {spacing : RawSpacing Float} {index : Nat} {bounds : Bounds Float}

/-- No boundary of a window is clamped to 64 bits. -/
def Countable (spacing : RawSpacing Float) (bounds : Bounds Float) : Prop :=
  spacing.spacing.Countable bounds.top bounds.bottom spacing.phase

instance (spacing : RawSpacing Float) (bounds : Bounds Float) :
    Decidable (Countable spacing bounds) :=
  inferInstanceAs (Decidable (Spacing.Countable _ _ _ _))

/-- A cell with data has a boundary whose sample number is clamped to 64 bits. -/
def Unnumbered (survey : Survey Float) (reference top bottom : Horizon Float σ)
    (spacing : RawSpacing Float) (index : Nat) : Prop :=
  ∃ bounds, HasData survey reference top bottom index bounds ∧ bounds.Ordered ∧
    ¬ Countable spacing bounds

instance (spacing : RawSpacing Float) (index : Nat) :
    Decidable (Unnumbered survey reference top bottom spacing index) :=
  decidable_of_iff (∃ bounds ∈ dataAt? survey reference top bottom index,
      bounds.Ordered ∧ ¬ Countable spacing bounds)
    (exists_congr fun _ => and_congr_left fun _ => dataAt?_eq_some)

/-- The number of samples in the window of a cell. -/
def wanted (survey : Survey Float) (reference top bottom : Horizon Float σ)
    (spacing : RawSpacing Float) (index : Nat) : Nat :=
  match dataAt? survey reference top bottom index with
  | some bounds => spacing.spacing.span bounds.top bounds.bottom spacing.phase
  | none => 0

theorem wanted_of_data (h : HasData survey reference top bottom index bounds) :
    wanted survey reference top bottom spacing index =
      spacing.spacing.span bounds.top bounds.bottom spacing.phase := by
  unfold wanted
  rw [dataAt?_eq_some.mpr h]

theorem windowOf_of_not_countable
    (hs : RawSpacing.through survey.sample.step survey.sample.first = .ok spacing)
    (ho : bounds.Ordered) (hc : ¬ Countable spacing bounds) {row col : Nat} :
    windowOf survey spacing row col bounds = .error (.fault .overflow) := by
  obtain ⟨hacc, -, hm, -, hp⟩ := RawSpacing.through_axis hs
  obtain ⟨ht, -⟩ := le_iff.mp ho.1
  obtain ⟨-, hb, -⟩ := le_iff.mp ho.2
  have hm' : 0 < spacing.spacing.margin := by omega
  unfold windowOf RawSpacing.topSample RawSpacing.bottomSample Spacing.topSample
    Spacing.bottomSample
  by_cases htop : Float.ofInt (-2 ^ 63) < spacing.spacing.numberOf bounds.top spacing.phase
  · have hbottom : ¬ spacing.spacing.numberOf bounds.bottom spacing.phase < Float.ofInt (2 ^ 63) :=
      fun hb' => hc ⟨htop, hb'⟩
    rw [Spacing.firstNumber_of_lt hacc hp (by omega) ht htop,
      Spacing.lastNumber_of_not_gt hacc hp hm' hb hbottom]
    rfl
  · rw [Spacing.firstNumber_of_not_lt hacc hp hm' ht htop]
    rfl

theorem windowOf_of_countable
    (hs : RawSpacing.through survey.sample.step survey.sample.first = .ok spacing)
    (ho : bounds.Ordered) (hc : Countable spacing bounds) : ∃ first last,
      spacing.topSample bounds.top = .ok first ∧ spacing.bottomSample bounds.bottom = .ok last ∧
      ∀ row col, ¬ Beyond survey first last → windowOf survey spacing row col bounds =
        if spacing.spacing.span bounds.top bounds.bottom spacing.phase < signedBound then
          .ok (spacing.spacing.span bounds.top bounds.bottom spacing.phase)
        else .error (.fault .overflow) := by
  obtain ⟨hacc, -, hm, -, hp⟩ := RawSpacing.through_axis hs
  obtain ⟨ht, -⟩ := le_iff.mp ho.1
  obtain ⟨-, hb, -⟩ := le_iff.mp ho.2
  have hf : spacing.topSample bounds.top = .ok _ := Spacing.topSample_eq_ok.mpr
    ⟨_, Spacing.firstNumber_of_lt hacc hp (by omega) ht hc.top, rfl⟩
  have hl : spacing.bottomSample bounds.bottom = .ok _ := Spacing.bottomSample_eq_ok.mpr
    ⟨_, Spacing.lastNumber_of_gt hacc hp (by omega) hb hc.bottom, rfl⟩
  refine ⟨_, _, hf, hl, fun row col hin => ?_⟩
  rw [windowOf, hf, ok_bind, hl, ok_bind]
  refine (if_neg hin).trans ?_
  exact Spacing.count_of_countable hacc hp (by omega) (Double.le_trans ho.1 ho.2) hc

theorem windowSize_of_unnumbered
    (hs : RawSpacing.through survey.sample.step survey.sample.first = .ok spacing)
    (h : Unnumbered survey reference top bottom spacing index) :
    windowSize survey reference top bottom spacing index = .error (.fault .overflow) := by
  obtain ⟨bounds, hdata, ho, hc⟩ := h
  rw [windowSize_of_data hdata ho]
  exact windowOf_of_not_countable hs ho hc

/-- A cell neither fails on its own nor has a boundary that is clamped. -/
structure Passes (survey : Survey Float) (reference top bottom : Horizon Float σ)
    (spacing : RawSpacing Float) (index : Nat) : Prop where
  not_offends : ∀ e, ¬ Offends survey reference top bottom spacing index e
  numbered : ¬ Unnumbered survey reference top bottom spacing index

theorem windowSize_of_passes {r t b : σ}
    (hs : RawSpacing.through survey.sample.step survey.sample.first = .ok spacing)
    (hr : reference.valueAt index = .ok r) (ht : top.valueAt index = .ok t)
    (hb : bottom.valueAt index = .ok b) (h : Passes survey reference top bottom spacing index) :
    windowSize survey reference top bottom spacing index =
      if wanted survey reference top bottom spacing index < signedBound then
        .ok (wanted survey reference top bottom spacing index)
      else .error (.fault .overflow) := by
  have hord : ∀ bounds, HasDepths reference top bottom index bounds → bounds.Ordered :=
    fun bounds hd => by_contra fun ho => h.not_offends _ (.unordered hd ho)
  cases hd : dataAt? survey reference top bottom index with
  | none =>
    have hzero : wanted survey reference top bottom spacing index = 0 := by
      unfold wanted
      rw [hd]
    rw [hzero]
    exact windowSize_of_void hr ht hb hord hd
  | some bounds =>
    have hdata := dataAt?_eq_some.mp hd
    have ho := hord bounds hdata.depths
    have hc : Countable spacing bounds := by_contra fun hc => h.numbered ⟨bounds, hdata, ho, hc⟩
    obtain ⟨first, last, hf, hl, hwindow⟩ := windowOf_of_countable hs ho hc
    rw [windowSize_of_data hdata ho, wanted_of_data hdata]
    exact hwindow _ _ fun hbeyond => h.not_offends _ (.verticalBounds hdata ho hf hl hbeyond)

end Layout
end Seismic
