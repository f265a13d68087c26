import Seismic.Proofs.Agreement
import Seismic.Proofs.Subvolume.Attributes
import Seismic.Proofs.Volume.Alike

/-!
# Boundaries that are equal as numbers

A boundary enters the layout of a window through the order of depths and through the number of
its first or last sample.  Neither tells numbers apart that are equal, as zeros of both signs
are.  So windows between equal depths are laid out, fetched and resampled alike.
-/

namespace Seismic

open Double

namespace Spacing

variable {s : Spacing Float} {x y x' y' phase : Float}

theorem value_numberOf_congr (hs : s.Accepted) (hp : IsFinite phase) (h : (x == y) = true) :
    value (s.numberOf x phase) = value (s.numberOf y phase) := by
  obtain ⟨hx, hy, hv⟩ := beq_iff.mp h
  have hxy := numberOf_mono hs hp (le_iff.mpr ⟨hx, hy, hv.le⟩)
  have hyx := numberOf_mono hs hp (le_iff.mpr ⟨hy, hx, hv.ge⟩)
  exact le_antisymm (le_iff.mp hxy).2.2 (le_iff.mp hyx).2.2

theorem firstNumber_congr (hs : s.Accepted) (hp : IsFinite phase) (h : (x == y) = true) :
    s.firstNumber x phase = s.firstNumber y phase := by
  obtain ⟨hx, hy, -⟩ := beq_iff.mp h
  show sampleNumber (s.innerFirst x phase - s.margin) = sampleNumber (s.innerFirst y phase - s.margin)
  rw [innerFirst_eq hs hp hx, innerFirst_eq hs hp hy, value_numberOf_congr hs hp h]

theorem lastNumber_congr (hs : s.Accepted) (hp : IsFinite phase) (h : (x == y) = true) :
    s.lastNumber x phase = s.lastNumber y phase := by
  obtain ⟨hx, hy, -⟩ := beq_iff.mp h
  show sampleNumber (s.innerLast x phase + s.margin) = sampleNumber (s.innerLast y phase + s.margin)
  rw [innerLast_eq hs hp hx, innerLast_eq hs hp hy, value_numberOf_congr hs hp h]

theorem topSample_congr (hs : s.Accepted) (hp : IsFinite phase) (h : (x == y) = true) :
    s.topSample x phase = s.topSample y phase := by
  unfold topSample
  rw [firstNumber_congr hs hp h]

theorem bottomSample_congr (hs : s.Accepted) (hp : IsFinite phase) (h : (x == y) = true) :
    s.bottomSample x phase = s.bottomSample y phase := by
  unfold bottomSample
  rw [lastNumber_congr hs hp h]

theorem count_congr (hs : s.Accepted) (hp : IsFinite phase) (h : (x == y) = true)
    (h' : (x' == y') = true) : s.count x x' phase = s.count y y' phase := by
  unfold count
  rw [firstNumber_congr hs hp h, lastNumber_congr hs hp h']

end Spacing

namespace Double

variable {x y z : Float}

theorem le_congr_left (h : (x == y) = true) : x ≤ z ↔ y ≤ z := by
  obtain ⟨hx, hy, hv⟩ := beq_iff.mp h
  rw [le_iff, le_iff, hv]
  exact ⟨fun hz => ⟨hy, hz.2⟩, fun hz => ⟨hx, hz.2⟩⟩

theorem le_congr_right (h : (x == y) = true) : z ≤ x ↔ z ≤ y := by
  obtain ⟨hx, hy, hv⟩ := beq_iff.mp h
  rw [le_iff, le_iff, hv]
  exact ⟨fun hz => ⟨hz.1, hy, hz.2.2⟩, fun hz => ⟨hz.1, hx, hz.2.2⟩⟩

end Double

/-! ## Laying out -/

section Windows

variable {α σ : Type} [Scalar α] [Sampled σ α]

/-- Whether a cell has no depth on one of three horizons. -/
def Horizon.lacks (reference top bottom : Horizon α σ) (r t b : σ) : Bool :=
  reference.isFill r || top.isFill t || bottom.isFill b

/-- Two pairs of depths between which a window around a third is laid out alike. -/
structure RawSpacing.SameWindow (spacing : RawSpacing α) (r t b t' b' : α) : Prop where
  order : t ≤ r ∧ r ≤ b ↔ t' ≤ r ∧ r ≤ b'
  top : spacing.topSample t' = spacing.topSample t
  bottom : spacing.bottomSample b' = spacing.bottomSample b
  count : (spacing.count t' b' : Result α _) = spacing.count t b

theorem Layout.windowSize_agree {survey : Survey α}
    {reference top bottom top' bottom' : Horizon α σ} {spacing : RawSpacing α} {i : Nat}
    {r t b t' b' : σ} (hr : reference.valueAt i = .ok r) (ht : top.valueAt i = .ok t)
    (hb : bottom.valueAt i = .ok b) (ht' : top'.valueAt i = .ok t')
    (hb' : bottom'.valueAt i = .ok b')
    (hlacks : Horizon.lacks reference top' bottom' r t' b' =
      Horizon.lacks reference top bottom r t b)
    (h : Horizon.lacks reference top bottom r t b = false → spacing.SameWindow
      (Sampled.widen r) (Sampled.widen t) (Sampled.widen b) (Sampled.widen t')
        (Sampled.widen b')) :
    Agree Eq (windowSize survey reference top bottom spacing i)
      (windowSize survey reference top' bottom' spacing i) := by
  unfold Horizon.lacks at hlacks h
  unfold windowSize
  rw [hr, ht, hb, ht', hb']
  simp only [ok_bind]
  rw [hlacks]
  cases hfill : reference.isFill r || top.isFill t || bottom.isFill b with
  | true => exact .of_eq rfl
  | false =>
    obtain ⟨horder, htop, hbottom, hcount⟩ := h hfill
    rw [if_neg Bool.false_ne_true, if_neg Bool.false_ne_true]
    refine .bind_eq rfl fun ⟨row, col⟩ _ => .check (not_congr horder) rfl fun _ => ?_
    refine .bind_eq rfl fun world _ => ?_
    cases survey.holdsTrace (survey.transformer.indexOfWorld world) with
    | false => exact .of_eq rfl
    | true =>
      refine .bind_eq htop fun topSample _ => .bind_eq hbottom fun bottomSample _ => ?_
      exact .check Iff.rfl rfl fun _ => .of_eq hcount.symm

end Windows

/-- Two pairs of boundaries around a reference.  Where one pair lacks a depth, so does the
other, and elsewhere their depths are equal. -/
structure Horizon.SameWindows (reference top bottom top' bottom' : Horizon Float Single) :
    Prop where
  counted : reference.grid.nrows * reference.grid.ncols < countBound
  grids : top.grid = reference.grid ∧ bottom.grid = reference.grid ∧
    top'.grid = reference.grid ∧ bottom'.grid = reference.grid
  cell : ∀ (i : Nat) r t b t' b', reference.values[i]? = some r → top.values[i]? = some t →
    bottom.values[i]? = some b → top'.values[i]? = some t' → bottom'.values[i]? = some b' →
    lacks reference top bottom r t b = lacks reference top' bottom' r t' b' ∧
      (lacks reference top bottom r t b = false → IsFinite r.toDouble ∧
        (t.toDouble == t'.toDouble) = true ∧ (b.toDouble == b'.toDouble) = true)

/-- Bounds around one finite reference that are equal as numbers. -/
structure Bounds.Same (b c : Bounds Float) : Prop where
  reference : c.reference = b.reference
  finite : IsFinite b.reference
  top : (b.top == c.top) = true
  bottom : (b.bottom == c.bottom) = true

/-- Layouts with the same windows between equal depths. -/
structure Layout.SameBounds (l l' : Layout Float Single) : Prop where
  reference : l'.reference = l.reference
  offsets : l'.offsets = l.offsets
  spacing : l'.spacing = l.spacing
  accepted : l.spacing.spacing.Accepted
  phase : IsFinite l.spacing.phase
  bounds : ∀ i, l.isEmpty i = .ok false →
    ∃ b c, l.bounds i = .ok b ∧ l'.bounds i = .ok c ∧ b.Same c

theorem Horizon.exists_valueAt {g h : Horizon Float Single}
    (hg : h.grid.nrows * h.grid.ncols < countBound) (heq : h.grid = g.grid) {i : Nat}
    (hi : i < g.size) : ∃ x, h.valueAt i = .ok x := by
  have hsize : i < h.values.size := by
    rw [h.values_size, heq, ← g.values_size]
    exact hi
  exact ⟨_, valueAt_eq_ok.mpr ⟨hg, Array.getElem?_eq_getElem hsize⟩⟩

namespace Layout

variable {survey : Survey Float} {reference top bottom top' bottom' : Horizon Float Single}
variable {spacing : RawSpacing Float}

theorem windowSize_agree_of_equal (h : Horizon.SameWindows reference top bottom top' bottom')
    (hs : spacing.spacing.Accepted) (hp : IsFinite spacing.phase) {i : Nat}
    (hi : i < reference.size) : Agree Eq (windowSize survey reference top bottom spacing i)
      (windowSize survey reference top' bottom' spacing i) := by
  obtain ⟨hg₁, hg₂, hg₃, hg₄⟩ := h.grids
  have hc := h.counted
  obtain ⟨r, hr⟩ := Horizon.exists_valueAt hc rfl hi
  obtain ⟨t, ht⟩ := Horizon.exists_valueAt (hg₁ ▸ hc) hg₁ hi
  obtain ⟨b, hb⟩ := Horizon.exists_valueAt (hg₂ ▸ hc) hg₂ hi
  obtain ⟨t', ht'⟩ := Horizon.exists_valueAt (hg₃ ▸ hc) hg₃ hi
  obtain ⟨b', hb'⟩ := Horizon.exists_valueAt (hg₄ ▸ hc) hg₄ hi
  obtain ⟨hlacks, hsame⟩ := h.cell i r t b t' b' (Horizon.valueAt_eq_ok.mp hr).2
    (Horizon.valueAt_eq_ok.mp ht).2 (Horizon.valueAt_eq_ok.mp hb).2
    (Horizon.valueAt_eq_ok.mp ht').2 (Horizon.valueAt_eq_ok.mp hb').2
  refine windowSize_agree hr ht hb ht' hb' hlacks.symm fun hfill => ?_
  obtain ⟨-, hst, hsb⟩ := hsame hfill
  exact ⟨and_congr (le_congr_left hst) (le_congr_right hsb),
    (Spacing.topSample_congr hs hp hst).symm, (Spacing.bottomSample_congr hs hp hsb).symm,
    (Spacing.count_congr hs hp hst hsb).symm⟩

theorem sameBounds_of_between (h : Horizon.SameWindows reference top bottom top' bottom')
    {l l' : Layout Float Single} (hl : between survey reference top bottom = .ok l)
    (hl' : between survey reference top' bottom' = .ok l') (ho : l'.offsets = l.offsets) :
    l.SameBounds l' := by
  obtain ⟨hr, -, -, hs, -⟩ := between_eq_ok hl
  obtain ⟨hr', -, -, hs', -⟩ := between_eq_ok hl'
  obtain ⟨hacc, -, -, -, hp⟩ := RawSpacing.through_axis hs
  refine ⟨hr'.trans hr.symm, ho, Except.ok.inj (hs'.symm.trans hs), hacc, hp, fun i he => ?_⟩
  have he' : l'.isEmpty i = .ok false := (isEmpty_congr ho i).trans he
  obtain ⟨b, hb, hdata, -⟩ := fitsSurvey_of_not_isEmpty hl (lt_cells_of_isEmpty he) he
  obtain ⟨c, hc, hdata', -⟩ := fitsSurvey_of_not_isEmpty hl' (lt_cells_of_isEmpty he') he'
  obtain ⟨r, t, b, hr, ht, hb', hfr, hft, hfb, rfl⟩ := hdata.depths
  obtain ⟨r', t', b', hr', ht', hb'', -, -, -, rfl⟩ := hdata'.depths
  cases hr.symm.trans hr'
  obtain ⟨-, hsame⟩ := h.cell i r t b t' b' (Horizon.valueAt_eq_ok.mp hr).2
    (Horizon.valueAt_eq_ok.mp ht).2 (Horizon.valueAt_eq_ok.mp hb').2
    (Horizon.valueAt_eq_ok.mp ht').2 (Horizon.valueAt_eq_ok.mp hb'').2
  obtain ⟨hf, hst, hsb⟩ := hsame (by simp [Horizon.lacks, hfr, hft, hfb])
  exact ⟨_, _, hb, hc, rfl, hf, hst, hsb⟩

/-- Windows between equal depths are laid out alike. -/
theorem between_agree (h : Horizon.SameWindows reference top bottom top' bottom') :
    Agree SameBounds (between survey reference top bottom)
      (between survey reference top' bottom') := by
  obtain ⟨hg₁, hg₂, hg₃, hg₄⟩ := h.grids
  have hagree : Agree (fun l l' => l'.offsets = l.offsets) (between survey reference top bottom)
      (between survey reference top' bottom') := by
    unfold between Horizon.nrows Horizon.ncols
    simp only [hg₁, hg₂, hg₃, hg₄]
    refine .check Iff.rfl rfl fun _ => .check Iff.rfl rfl fun _ => ?_
    refine .bind_eq rfl fun spacing hs => ?_
    obtain ⟨hacc, -, -, -, hp⟩ := RawSpacing.through_axis hs
    refine Agree.bind (Agree.foldlM (R := Eq) (fun i hi xs ys hxy => ?_) rfl) fun xs ys _ _ hxy =>
      .ok hxy.symm
    rw [hxy]
    refine (windowSize_agree_of_equal h hacc hp (List.mem_range.mp hi)).bind fun n m _ _ hnm => ?_
    rw [hnm]
    exact .of_eq rfl
  exact hagree.imp fun l l' hl hl' ho => sameBounds_of_between h hl hl' ho

/-- Where the first sample of a window is found does not depend on the sign of a zero. -/
theorem SameBounds.alike {l l' : Layout Float Single} (h : l.SameBounds l')
    (survey : Survey Float) : l.Alike survey l' := by
  refine ⟨h.reference, h.offsets, fun i he => ?_⟩
  obtain ⟨b, c, hb, hc, hbc⟩ := h.bounds i he
  unfold firstSample RawSpacing.topSample
  rw [hb, hc, ok_bind, ok_bind, h.spacing, Spacing.topSample_congr h.accepted h.phase hbc.top]

end Layout

/-! ## Resampling -/

theorem resample_agree {α σ : Type} [Scalar α] [Sampled σ α] {src src' : RawSegment α σ}
    {dst dst' : ResampledSegment α} (hx : src'.positions = src.positions)
    (hv : src'.values = src.values) (hy : dst'.positions = dst.positions) :
    Agree (fun c c' => c'.values = c.values) (resample src dst) (resample src' dst') := by
  unfold resample Spline.resample
  rw [hx, hv]
  cases src.positions with
  | error e => exact .error rfl
  | ok xs =>
    dsimp only
    rcases Spline.fit {} xs (src.values.map Sampled.widen) with ⟨_ | _, u⟩
    · exact .error rfl
    · show Agree _ (u.evalAll dst) (u.evalAll dst')
      unfold Spline.evalAll
      rw [hy]
      exact .bind_eq rfl fun ys _ => .bind_eq rfl fun values _ => .ok rfl

namespace Subvolume

variable {l l' : Layout Float Single} {s s' : Subvolume Float Single}
variable {spacing : ResampledSpacing Float} {i : Nat}

theorem reset_agree {b c : Bounds Float} (h : b.Same c) (hs : spacing.spacing.Accepted) :
    Agree (fun e e' => e.spacing = spacing ∧ e'.spacing = spacing ∧ e.bounds = b ∧ e'.bounds = c ∧
      e'.values = e.values) ((ResampledSegment.unset spacing).reset b)
        ((ResampledSegment.unset spacing).reset c) := by
  have hp := ResampledSpacing.phase_finite hs h.finite
  have hcount : (spacing.count c.reference c.top c.bottom : Result Float _) =
      spacing.count b.reference b.top b.bottom := by
    unfold ResampledSpacing.count
    rw [h.reference, Spacing.count_congr hs hp h.top h.bottom]
  unfold ResampledSegment.reset
  refine .bind_eq hcount fun n _ => .check Iff.rfl rfl fun _ => .ok ?_
  exact ⟨rfl, rfl, rfl, rfl, rfl⟩

/-- A column between equal depths has the same values, whatever the signs of zeros. -/
theorem freshColumn_agree (hl : l.SameBounds l') (h : s.Alike l l' s')
    (hs : spacing.spacing.Accepted) (he : l.isEmpty i = .ok false) :
    Agree ResampledSegment.Alike (s.freshColumn spacing i) (s'.freshColumn spacing i) := by
  obtain ⟨b, c, hb, hc, hbc⟩ := hl.bounds i he
  have hp := ResampledSpacing.phase_finite hs hbc.finite
  have hsegment : s'.segment i = s.segment i := by
    unfold segment
    rw [h.left, h.right, h.data, Layout.range_congr hl.offsets]
  unfold freshColumn rawSegment
  rw [h.left, h.right, hb, hc, hl.spacing]
  simp only [ok_bind, bind_assoc, pure_bind]
  refine .bind_eq hsegment fun values _ => ?_
  refine (reset_agree hbc hs).bind fun e e' _ _ ⟨h₁, h₂, h₃, h₄, h₅⟩ => ?_
  have hraw : (⟨l.spacing, c, values⟩ : RawSegment Float Single).positions =
      (⟨l.spacing, b, values⟩ : RawSegment Float Single).positions := by
    unfold RawSegment.positions RawSegment.topSample RawSpacing.topSample
    rw [Spacing.topSample_congr hl.accepted hl.phase hbc.top]
  have hpositions : e'.positions = e.positions := by
    unfold ResampledSegment.positions ResampledSegment.topSample ResampledSpacing.topSample
    rw [h₁, h₂, h₃, h₄, h₅, hbc.reference, Spacing.topSample_congr hs hp hbc.top]
  refine (resample_agree hraw rfl hpositions).imp fun d d' hd hd' hv => ⟨hv, ?_⟩
  obtain ⟨hsp, hbd⟩ := resample_eq_ok hd
  obtain ⟨hsp', hbd'⟩ := resample_eq_ok hd'
  unfold ResampledSegment.referenceIndex ResampledSpacing.countAbove
  rw [hsp, hbd, hsp', hbd', h₁, h₂, h₃, h₄, hbc.reference,
    Spacing.firstNumber_congr hs hp hbc.top]

end Subvolume

/-! ## Requests -/

/-- A request does not depend on which of two pairs of equal boundaries it is made with. -/
theorem Volume.attributesBetween_agree (v : Volume Float Single)
    {reference top bottom top' bottom' : Horizon Float Single}
    (h : Horizon.SameWindows reference top bottom top' bottom') (options : Options Float) :
    Agree Eq (v.attributesBetween reference top bottom options)
      (v.attributesBetween reference top' bottom' options) := by
  refine v.attributesBetween_agree_of fun spacing hsp => ?_
  obtain ⟨-, hacc⟩ := ResampledSpacing.ofStepsize_eq_ok hsp
  unfold Subvolume.between
  refine (Layout.between_agree h).bind fun l l' _ _ hl => ?_
  have htotal : l'.total = l.total := by rw [Layout.total, Layout.total, hl.offsets]
  unfold Subvolume.ofLayout
  rw [htotal]
  by_cases hm : Shape.fitsMemory 4 l.total = true
  · rw [if_pos hm, if_pos hm]
    refine .ok ⟨hl.alike v.survey, ⟨rfl, rfl, rfl⟩, fun t t' ht i he => ?_⟩
    exact Subvolume.freshColumn_agree hl ht hacc he
  · rw [if_neg hm, if_neg hm]
    exact .error rfl

end Seismic
