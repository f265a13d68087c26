import Seismic.Proofs.Failing
import Seismic.Proofs.Layout
import Seismic.Volume.Attributes

/-!
# Failing for the order of horizons

That horizons are not ordered is found in one place, where the window of a cell is laid out,
and there it is found from the depths alone.  No other step of a request can fail that way,
so a request whose horizons are ordered cannot either.
-/

namespace Seismic

variable {α σ : Type}

/-- Any failure other than that of horizons that are not ordered. -/
def Failure.IsOther : Failure α → Prop
  | .unordered .. => False
  | _ => True

/-- The computation does not fail for the order of horizons. -/
abbrev Orderly {β : Type} (x : Result α β) : Prop := FailsOnly Failure.IsOther x

theorem Orderly.ne {β : Type} {x : Result α β} (h : Orderly x) (row col : Nat) (t r b : α) :
    x ≠ .error (.unordered row col t r b) := FailsOnly.ne h id

/-! ## Counts, cells and windows -/

section Cells

variable (m n index row col : Nat) (k : Int) (g : BoundedGrid α) (h : Horizon α σ) (l : Layout α σ)
variable (s : Subvolume α σ) (p : Partition α σ) (o : Output σ) (x : σ)
variable (v : Volume α σ)

@[simp] theorem orderly_addCounts : Orderly (addCounts m n : Result α Nat) := by
  simp [addCounts, Failure.IsOther]

@[simp] theorem orderly_mulCounts : Orderly (mulCounts m n : Result α Nat) := by
  simp [mulCounts, Failure.IsOther]

@[simp] theorem orderly_sampleNumber : Orderly (sampleNumber k : Result α Int) := by
  simp [sampleNumber, Failure.IsOther]

@[simp] theorem orderly_cellOf : Orderly (g.cellOf index) := by
  simp [BoundedGrid.cellOf, BoundedGrid.size, Failure.IsOther]

@[simp] theorem orderly_value : Orderly (h.value row col) := by
  simp [Horizon.value, Failure.IsOther]

@[simp] theorem orderly_valueAt : Orderly (h.valueAt index) := by
  simp [Horizon.valueAt]

@[simp] theorem orderly_set : Orderly (h.set row col x) := by
  simp [Horizon.set, Failure.IsOther]

@[simp] theorem orderly_range : Orderly (l.range index) := by
  simp [Layout.range, Failure.IsOther]

@[simp] theorem orderly_isEmpty : Orderly (l.isEmpty index) := by
  simp [Layout.isEmpty, Failure.IsOther]

@[simp] theorem orderly_segment : Orderly (s.segment index) := by
  simp [Subvolume.segment]

@[simp] theorem orderly_partitionRange : Orderly (p.range index) := by
  simp [Partition.range, Failure.IsOther]

@[simp] theorem orderly_partitionSegment : Orderly (p.segment index) := by
  simp [Partition.segment]

@[simp] theorem orderly_partitionWrite (samples : List σ) : Orderly (p.write index samples) := by
  simp [Partition.write]

@[simp] theorem orderly_outputWrite : Orderly (o.write x index : Result α (Output σ)) := by
  simp [Output.write, Failure.IsOther]

@[simp] theorem orderly_traceBox (inline crossline first count : Nat) :
    Orderly (Volume.traceBox inline crossline first count : Result α Box) := by
  simp [Volume.traceBox, Box.between, Failure.IsOther]

@[simp] theorem orderly_sampleAt (e : Extent) : Orderly (v.sampleAt e) := by
  unfold Volume.sampleAt
  split_ifs
  · split <;> simp [Failure.IsOther]
  · simp [Failure.IsOther]

@[simp] theorem orderly_read (buffer : Array σ) (b : Box) : Orderly (v.read buffer b) := by
  simp [Volume.read, Box.count, failsOnly_mapM, Failure.IsOther]

@[simp] theorem orderly_element (xs : Array α) : Orderly (Spline.element xs index) := by
  unfold Spline.element
  split <;> simp [Failure.IsOther]

end Cells

section Positions

variable [Scalar α] (x y z : α) (index row col n : Nat) (g : BoundedGrid α) (s : Spacing α)

@[simp] theorem orderly_toWorld : Orderly (g.toWorld row col) := by
  simp [BoundedGrid.toWorld, Failure.IsOther]

@[simp] theorem orderly_cellToWorld : Orderly (g.cellToWorld index) := by
  simp [BoundedGrid.cellToWorld]

@[simp] theorem orderly_ofStepsize : Orderly (Spacing.ofStepsize x n) := by
  simp [Spacing.ofStepsize, Failure.IsOther]

@[simp] theorem orderly_firstNumber : Orderly (s.firstNumber x y) := by
  simp [Spacing.firstNumber]

@[simp] theorem orderly_lastNumber : Orderly (s.lastNumber x y) := by
  simp [Spacing.lastNumber]

@[simp] theorem orderly_count : Orderly (s.count x y z) := by
  simp [Spacing.count]

@[simp] theorem orderly_topSample : Orderly (s.topSample x y) := by
  simp [Spacing.topSample]

@[simp] theorem orderly_bottomSample : Orderly (s.bottomSample x y) := by
  simp [Spacing.bottomSample]

@[simp] theorem orderly_nearestSample (a : Axis α) : Orderly (a.nearestSample x) := by
  simp [Axis.nearestSample, Failure.IsOther]

@[simp] theorem orderly_traceOf (l : Layout α σ) (survey : Survey α) :
    Orderly (l.traceOf survey index) := by
  simp [Layout.traceOf, Horizon.cellToWorld]

@[simp] theorem orderly_rawPositions (src : RawSegment α σ) : Orderly src.positions := by
  simp [RawSegment.positions, RawSegment.topSample, RawSpacing.topSample]

end Positions

/-! ## Laying out -/

variable [Scalar α] [Sampled σ α]

/-- Wherever all three horizons have a depth, the depths are ordered. -/
def Layout.InOrder (reference top bottom : Horizon α σ) : Prop :=
  ∀ (i : Nat) r t b, reference.values[i]? = some r → top.values[i]? = some t →
    bottom.values[i]? = some b → reference.isFill r = false → top.isFill t = false →
      bottom.isFill b = false → (Sampled.widen t : α) ≤ Sampled.widen r ∧
        (Sampled.widen r : α) ≤ Sampled.widen b

section Layouts

variable {survey : Survey α} {reference top bottom : Horizon α σ}

theorem orderly_windowSize (ho : Layout.InOrder reference top bottom) (spacing : RawSpacing α)
    (index : Nat) : Orderly (Layout.windowSize survey reference top bottom spacing index) := by
  unfold Layout.windowSize
  refine failsOnly_bind.mpr ⟨orderly_valueAt _ _, fun r hr => ?_⟩
  refine failsOnly_bind.mpr ⟨orderly_valueAt _ _, fun t ht => ?_⟩
  refine failsOnly_bind.mpr ⟨orderly_valueAt _ _, fun b hb => ?_⟩
  cases hfill : reference.isFill r || top.isFill t || bottom.isFill b with
  | true => simp
  | false =>
    rw [Bool.or_eq_false_iff, Bool.or_eq_false_iff] at hfill
    have horder := ho index r t b (Horizon.valueAt_eq_ok.mp hr).2 (Horizon.valueAt_eq_ok.mp ht).2
      (Horizon.valueAt_eq_ok.mp hb).2 hfill.1.1 hfill.1.2 hfill.2
    simp [horder, Horizon.cellToWorld, RawSpacing.topSample, RawSpacing.bottomSample,
      RawSpacing.count, Failure.IsOther]

theorem orderly_layout (ho : Layout.InOrder reference top bottom) :
    Orderly (Layout.between survey reference top bottom) := by
  simp [Layout.between, Layout.extend, RawSpacing.through, failsOnly_foldlM,
    orderly_windowSize ho, Failure.IsOther]

theorem orderly_subvolume (ho : Layout.InOrder reference top bottom) :
    Orderly (Subvolume.between survey reference top bottom) := by
  simp [Subvolume.between, Subvolume.ofLayout, orderly_layout ho, Failure.IsOther]

end Layouts

/-! ## Fetching -/

section Fetching

variable (v : Volume α σ) (l : Layout α σ) (p : Partition α σ) (index : Nat)

omit [Scalar α] in
@[simp] theorem orderly_bounds : Orderly (l.bounds index) := by
  simp [Layout.bounds]

@[simp] theorem orderly_firstSample (survey : Survey α) :
    Orderly (l.firstSample survey index) := by
  simp [Layout.firstSample, RawSpacing.topSample, Failure.IsOther]

@[simp] theorem orderly_fetchCell : Orderly (v.fetchCell p index) := by
  simp [Volume.fetchCell]

theorem orderly_fetchCells (is : List Nat) : Orderly (v.fetchCells p is).1 := by
  induction is generalizing p with
  | nil => exact failsOnly_ok
  | cons i is ih =>
    unfold Volume.fetchCells
    split
    · rename_i f hf
      exact failsOnly_error.mpr (orderly_fetchCell v p i f hf)
    · exact ih _

theorem orderly_fetchPartitions (ps : List (Partition α σ)) :
    Orderly (v.fetchPartitions ps).1 := by
  induction ps with
  | nil => exact failsOnly_ok
  | cons p ps ih =>
    have hcells := orderly_fetchCells v p (List.range' p.lower (p.upper - p.lower))
    unfold Volume.fetchPartitions
    split
    · rename_i hf
      rw [hf] at hcells
      exact hcells
    · exact ih

theorem orderly_fetch (s : Subvolume α σ) (size : Nat) : Orderly (v.fetch s size).1 := by
  unfold Volume.fetch Subvolume.partitions
  split_ifs
  · simp [Failure.IsOther]
  · exact orderly_fetchPartitions v _

end Fetching

/-! ## Resampling and reducing -/

section Reducing

variable (s : Subvolume α σ) (index : Nat)

@[simp] theorem orderly_eval (spline : Spline α) (x : α) : Orderly (spline.eval x) := by
  simp [Spline.eval, Failure.IsOther]

theorem orderly_fit (spline : Spline α) (xs ys : Array α) : Orderly (spline.fit xs ys).1 := by
  unfold Spline.fit
  dsimp only
  split_ifs <;> simp [Failure.IsOther]

@[simp] theorem orderly_evalAll (spline : Spline α) (dst : ResampledSegment α) :
    Orderly (spline.evalAll dst) := by
  simp [Spline.evalAll, ResampledSegment.positions, ResampledSegment.topSample,
    ResampledSpacing.topSample, Array.mapM_eq_mapM_toList, failsOnly_mapM]

theorem orderly_resample (spline : Spline α) (src : RawSegment α σ) (dst : ResampledSegment α) :
    Orderly (spline.resample src dst).1 := by
  unfold Spline.resample
  split
  · rename_i f hf
    exact failsOnly_error.mpr (orderly_rawPositions src f hf)
  · rename_i xs hxs
    have hfit := orderly_fit spline xs (src.values.map Sampled.widen)
    split
    · rename_i hf
      rw [hf] at hfit
      exact failsOnly_error.mpr (failsOnly_error.mp hfit)
    · exact orderly_evalAll _ dst

@[simp] theorem orderly_column (w : Worker α) : Orderly (s.column w index) := by
  simp [Subvolume.column, Subvolume.rawSegment, ResampledSegment.reset, ResampledSpacing.count,
    orderly_resample, Failure.IsOther]

variable [Root α] [Limits α]

@[simp] theorem orderly_attribute (k : Attribute) (c : ResampledSegment α) :
    Orderly (k.reduce c) := by
  cases k <;> simp [Attribute.reduce, ResampledSegment.referenceIndex, ResampledSpacing.countAbove,
    Failure.IsOther]

theorem orderly_reduceCell (state : Worker α × List (Output σ)) :
    Orderly (s.reduceCell state index) := by
  simp [Subvolume.reduceCell, failsOnly_mapM]

theorem orderly_reduceRange (spacing : ResampledSpacing α) (outputs : List (Output σ))
    (lower upper : Nat) : Orderly (s.reduceRange spacing outputs lower upper) := by
  simp [Subvolume.reduceRange, failsOnly_foldlM, orderly_reduceCell, Failure.IsOther]

omit [Scalar α] [Sampled σ α] [Root α] [Limits α] in
theorem orderly_outputsOf (kinds : List Attribute) (buffers : List (Array σ)) (lower upper : Nat) :
    Orderly (Subvolume.outputsOf kinds buffers lower upper : Result α (List (Output σ))) := by
  simp [Subvolume.outputsOf, failsOnly_mapM, Output.ofArray, Failure.IsOther]

theorem orderly_reduce (spacing : ResampledSpacing α) (kinds : List Attribute)
    (buffers : List (Array σ)) (size : Nat) : Orderly (s.reduce spacing kinds buffers size) := by
  cases hfind : buffers.find? fun buffer => buffer.size != s.layout.cells <;>
    simp [Subvolume.reduce, hfind, failsOnly_mapM, orderly_outputsOf, orderly_reduceRange,
      Failure.IsOther]

end Reducing

/-! ## Requests -/

section Requests

variable (v : Volume α σ) (options : Options α) {reference top bottom : Horizon α σ}

omit [Sampled σ α] in
theorem orderly_validate : Orderly options.validate := by
  cases hfind : options.attributes.find? fun a => !a.isAvailable <;>
    cases hstep : options.stepsize <;> simp [Options.validate, hfind, hstep, Failure.IsOther]

@[simp] theorem orderly_depths (primary secondary : Horizon α σ) (row col : Nat) :
    Orderly (primary.depths secondary row col) := by
  simp [Horizon.depths, Horizon.depthAt, Horizon.toWorld]

@[simp] theorem orderly_orient (found : Option Bool) (p q : σ) (row col : Nat) :
    Orderly (Horizon.orient found p q row col : Result α (Option Bool)) := by
  cases found <;> simp [Horizon.orient, Failure.IsOther]

theorem orderly_alignCell (primary secondary : Horizon α σ) (state : Horizon α σ × Option Bool)
    (index : Nat) : Orderly (primary.alignCell secondary state index) := by
  unfold Horizon.alignCell
  refine failsOnly_bind.mpr ⟨orderly_cellOf _ _, fun cell _ => ?_⟩
  refine failsOnly_bind.mpr ⟨orderly_depths _ _ _ _, fun pair _ => ?_⟩
  cases pair <;> simp

theorem orderly_align (primary secondary aligned : Horizon α σ) :
    Orderly (primary.align secondary aligned) := by
  simp [Horizon.align, failsOnly_foldlM, orderly_alignCell, Failure.IsOther]

variable [Root α] [Limits α]

/-- Attributes of a window fail for the order of the horizons only if these are not ordered. -/
theorem orderly_attributesBetween (ho : Layout.InOrder reference top bottom) :
    Orderly (v.attributesBetween reference top bottom options) := by
  simp [Volume.attributesBetween, orderly_validate, ResampledSpacing.ofStepsize,
    orderly_subvolume ho, orderly_fetch, orderly_reduce]

end Requests
end Seismic
