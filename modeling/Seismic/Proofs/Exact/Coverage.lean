import Mathlib.Data.Rat.Sqrt
import Seismic.Proofs.Exact.Layout
import Seismic.Proofs.Phase
import Seismic.Proofs.Spline
import Seismic.Proofs.Subvolume.Reduce

/-!
# Raw windows reach beyond resampled ones

A raw window has two further samples at each end, so it reaches more than a step beyond the
depths of its cell.  A resampled window stays less than one of its own steps beyond them.  If
its step is not the longer one, every resampled sample lies between two raw ones, and the cell
can be resampled whatever its samples are.  This holds for windows whose sample numbers are
those of 64 bits: a number that is clamped belongs to a sample elsewhere.
-/

namespace Seismic
namespace Exact

variable {K : Type} [Field K] [LinearOrder K] [FloorRing K]

/-- The numbers of the samples of a resampled window are signed 64-bit integers, and its
samples can be stored. -/
structure Within (spacing : ResampledSpacing (Exact K)) (bounds : Bounds (Exact K)) : Prop where
  least : Spacing.leastNumber ≤
    ⌊(numberOf spacing.spacing bounds.top (spacing.phase bounds.reference)).val⌋
  greatest : ⌈(numberOf spacing.spacing bounds.bottom (spacing.phase bounds.reference)).val⌉ ≤
    Spacing.greatestNumber
  few : 8 * (⌈(numberOf spacing.spacing bounds.bottom (spacing.phase bounds.reference)).val⌉ -
    ⌊(numberOf spacing.spacing bounds.top (spacing.phase bounds.reference)).val⌋ + 1) < signedBound

/-- A cell whose resampled samples lie between its raw ones, and that can be resampled. -/
structure Enclosed {σ : Type} [Sampled σ (Exact K)] (s : Subvolume (Exact K) σ)
    (spacing : ResampledSpacing (Exact K)) (index : Nat) (bounds : Bounds (Exact K))
    (xs ys : Array (Exact K)) : Prop where
  raw : ∃ raw, s.rawSegment index = .ok raw ∧ raw.positions = .ok xs
  resampled : ∃ empty, (ResampledSegment.unset spacing).reset bounds = .ok empty ∧
    empty.positions = .ok ys
  two_le : 2 ≤ xs.size
  increasing : ∀ k x y, xs[k]? = some x → xs[k + 1]? = some y → x < y
  between : ∀ y ∈ ys, xs.getD 0 0 < y ∧ y < xs.getD (xs.size - 1) 0
  column : ∃ c, s.freshColumn spacing index = .ok c

variable [IsStrictOrderedRing K]

/-! ## Resampled windows -/

section Resampled

variable {spacing : ResampledSpacing (Exact K)} {bounds : Bounds (Exact K)}

/-- The numbers at the ends of a resampled window. -/
structure Resampled (spacing : ResampledSpacing (Exact K)) (bounds : Bounds (Exact K))
    (first last : ℤ) : Prop where
  first_eq : spacing.spacing.firstNumber bounds.top (spacing.phase bounds.reference) = .ok first
  count : spacing.count bounds.reference bounds.top bounds.bottom = .ok (last - first + 1).toNat
  few : 8 * (last - first + 1) < signedBound
  floor_le :
    ⌊(numberOf spacing.spacing bounds.top (spacing.phase bounds.reference)).val⌋ ≤ first
  le_ceil :
    first ≤ ⌈(numberOf spacing.spacing bounds.top (spacing.phase bounds.reference)).val⌉
  lt_first : bounds.top.val - spacing.spacing.stepsize.val <
    (spacing.spacing.position first (spacing.phase bounds.reference)).val
  last_lt : (spacing.spacing.position last (spacing.phase bounds.reference)).val <
    bounds.bottom.val + spacing.spacing.stepsize.val

theorem Within.resampled (h : Within spacing bounds) (hpos : 0 < spacing.spacing.stepsize.val)
    (hm : spacing.spacing.margin = 0) (hle : bounds.top.val ≤ bounds.bottom.val) :
    ∃ first last, Resampled spacing bounds first last := by
  obtain ⟨hleast, hgreatest, hfew⟩ := h
  have hmono := numberOf_mono (spacing.phase bounds.reference) hpos hle
  have hcross := ceilNumber_le hmono
  generalize htop : numberOf spacing.spacing bounds.top (spacing.phase bounds.reference) = t at *
  generalize hbottom : numberOf spacing.spacing bounds.bottom (spacing.phase bounds.reference) = b
    at *
  have h₁ := floor_le_ceilNumber t
  have h₂ := ceilNumber_le_ceil t
  have h₃ := floor_le_floorNumber b
  have h₄ := floorNumber_le_ceil b
  have h₅ := Int.ceil_le_ceil hmono
  have h₆ := Int.floor_le_floor hmono
  have hc : clamped (ceilNumber t) = ceilNumber t := clamped_of_mem (by omega) (by omega)
  have hc' : clamped (floorNumber b) = floorNumber b := clamped_of_mem (by omega) (by omega)
  have hbound : Spacing.leastNumber ≤ -1 ∧ (signedBound : ℤ) ≤ 8 * Spacing.greatestNumber := by
    decide
  have hfirst : spacing.spacing.firstNumber bounds.top (spacing.phase bounds.reference) =
      .ok (ceilNumber t) := by
    rw [firstNumber_eq_ok, htop, hc, hm]
    omega
  have hlast : spacing.spacing.lastNumber bounds.bottom (spacing.phase bounds.reference) =
      .ok (floorNumber b) := by
    rw [lastNumber_eq_ok, hbottom, hc', hm]
    omega
  refine ⟨ceilNumber t, floorNumber b, hfirst, ?_, by omega, htop ▸ h₁, htop ▸ h₂, ?_, ?_⟩
  · exact Spacing.count_eq_ok.mpr ⟨_, _, hfirst, hlast, by omega, by omega, rfl⟩
  · have hlt : (numberOf spacing.spacing bounds.top (spacing.phase bounds.reference)).val + -1 <
        ceilNumber t := by
      rw [htop, ← sub_eq_add_neg]
      exact (Int.sub_one_lt_floor t.val).trans_le (Int.cast_le.mpr h₁)
    have := lt_position hpos hlt
    linarith
  · have hlt : (floorNumber b : K) <
        (numberOf spacing.spacing bounds.bottom (spacing.phase bounds.reference)).val + 1 := by
      rw [hbottom]
      exact (Int.cast_le.mpr h₄).trans_lt (Int.ceil_lt_add_one b.val)
    have := position_lt hpos hlt
    linarith

/-- Every sample of a resampled window is less than a step beyond its boundaries. -/
theorem Resampled.exists_positions {first last : ℤ} (h : Resampled spacing bounds first last)
    (hpos : 0 < spacing.spacing.stepsize.val) : ∃ empty ys,
    (ResampledSegment.unset spacing).reset bounds = .ok empty ∧ empty.positions = .ok ys ∧
      ∀ y ∈ ys, bounds.top.val - spacing.spacing.stepsize.val < y.val ∧
        y.val < bounds.bottom.val + spacing.spacing.stepsize.val := by
  have hfits : Shape.fitsMemory 8 (last - first + 1).toNat = true := by
    have hfew := h.few
    have hzero : 8 * 0 < signedBound := by decide
    rw [Shape.fitsMemory, decide_eq_true_iff]
    omega
  have htop : spacing.topSample bounds.reference bounds.top = .ok
      (spacing.spacing.position first (spacing.phase bounds.reference)) :=
    Spacing.topSample_eq_ok.mpr ⟨first, h.first_eq, rfl⟩
  refine ⟨⟨spacing, bounds, Array.replicate (last - first + 1).toNat 0⟩, _, ?_,
    bind_eq_ok.mpr ⟨_, htop, rfl⟩, fun y hy => ?_⟩
  · exact bind_eq_ok.mpr ⟨_, h.count, check_eq_ok.mpr ⟨by rw [hfits]; exact Bool.false_ne_true, rfl⟩⟩
  · obtain ⟨k, hk⟩ := Array.getElem?_of_mem hy
    obtain ⟨hlt, rfl⟩ := getElem?_samplePositions.mp hk
    rw [Array.size_replicate] at hlt
    have hlow := h.lt_first
    have hhigh := h.last_lt
    rw [position_val] at hlow hhigh
    have hk0 : (0 : K) ≤ k := Nat.cast_nonneg k
    have hkl : (first + k : K) ≤ last := by
      have : first + (k : ℤ) ≤ last := by omega
      exact_mod_cast this
    have h₁ := mul_nonneg hk0 hpos.le
    have h₂ := mul_le_mul_of_nonneg_right hkl hpos.le
    rw [add_mul] at h₂
    rw [add_val, mul_val, ofNat_val, position_val]
    constructor <;> linarith

/-- The samples above the reference can be counted. -/
theorem Within.exists_countAbove (h : Within spacing bounds)
    (hpos : 0 < spacing.spacing.stepsize.val) (hm : spacing.spacing.margin = 0)
    (htop : bounds.top.val ≤ bounds.reference.val)
    (hbottom : bounds.reference.val ≤ bounds.bottom.val) :
    ∃ k, spacing.countAbove bounds.reference bounds.top = .ok k := by
  obtain ⟨first, last, hr⟩ := h.resampled hpos hm (htop.trans hbottom)
  have hleast := h.least
  have hgreatest := h.greatest
  have hfew := h.few
  have hfloor := hr.floor_le
  have hceil := hr.le_ceil
  have h₁ := numberOf_mono (spacing.phase bounds.reference) hpos htop
  have h₂ := numberOf_mono (spacing.phase bounds.reference) hpos hbottom
  have h₃ := Int.ceil_le_ceil (h₁.trans h₂)
  have h₄ := (Int.floor_le_floor h₁).trans (floor_le_away _)
  have h₅ := (away_le_ceil _).trans (Int.ceil_le_ceil h₂)
  have hnumber : spacing.referenceNumber bounds.reference = away
      (numberOf spacing.spacing bounds.reference (spacing.phase bounds.reference)).val := by
    have hn : spacing.referenceNumber bounds.reference = clamped (away
        (numberOf spacing.spacing bounds.reference (spacing.phase bounds.reference)).val) :=
      toInt64_integer _
    rw [hn, clamped_of_mem (by omega) (by omega)]
  have hbound : (signedBound : ℤ) ≤ 8 * Spacing.greatestNumber + 8 ∧
      8 * Spacing.leastNumber ≤ -signedBound := by decide
  exact ⟨_, ResampledSpacing.countAbove_eq_ok.mpr
    ⟨first, hr.first_eq, by rw [hnumber]; omega, by rw [hnumber]; omega, rfl⟩⟩

end Resampled

/-! ## Raw windows -/

variable {σ : Type} [Sampled σ (Exact K)] {survey : Survey (Exact K)}
variable {s : Subvolume (Exact K) σ} {index : Nat} {spacing : ResampledSpacing (Exact K)}
variable {bounds : Bounds (Exact K)} {raw : RawSegment (Exact K) σ}

namespace Cell

/-- The first raw sample is more than a step above the top of the window, and the last one
more than a step below its bottom. -/
theorem beyond (h : Cell survey s index bounds raw) :
    first s bounds * survey.sample.step.val + s.layout.spacing.phase.val <
        bounds.top.val - survey.sample.step.val ∧
      bounds.bottom.val + survey.sample.step.val <
        (first s bounds + raw.values.size - 1 : ℤ) * survey.sample.step.val +
          s.layout.spacing.phase.val := by
  have hpos : 0 < s.layout.spacing.spacing.stepsize.val := by
    rw [h.step]
    exact h.pos
  have hlow : (first s bounds : K) <
      (numberOf s.layout.spacing.spacing bounds.top s.layout.spacing.phase).val + -1 := by
    have := ceilNumber_lt (numberOf s.layout.spacing.spacing bounds.top s.layout.spacing.phase)
    unfold first
    push_cast
    linarith
  have hhigh : (numberOf s.layout.spacing.spacing bounds.bottom s.layout.spacing.phase).val + 1 <
      ((first s bounds + raw.values.size - 1 : ℤ) : K) := by
    have hsize := h.counted.size
    rw [h.margin] at hsize
    have hlast : first s bounds + raw.values.size - 1 = floorNumber
        (numberOf s.layout.spacing.spacing bounds.bottom s.layout.spacing.phase) + 2 := by
      unfold first
      push_cast at hsize
      omega
    have := lt_floorNumber
      (numberOf s.layout.spacing.spacing bounds.bottom s.layout.spacing.phase)
    rw [hlast]
    push_cast
    linarith
  have h₁ := position_lt hpos hlow
  have h₂ := lt_position hpos hhigh
  rw [position_val, h.step] at h₁ h₂
  constructor <;> linarith

/-- A cell whose resampled window can be numbered is resampled between its raw samples. -/
theorem enclosed (h : Cell survey s index bounds raw)
    (hpos : 0 < spacing.spacing.stepsize.val) (hm : spacing.spacing.margin = 0)
    (hle : spacing.spacing.stepsize.val ≤ survey.sample.step.val) (hw : Within spacing bounds) :
    ∃ xs ys, Enclosed s spacing index bounds xs ys := by
  obtain ⟨first', last', hr⟩ := hw.resampled hpos hm (le_trans h.fits.top_le h.fits.le_bottom)
  obtain ⟨empty, ys, hempty, hys, hin⟩ := hr.exists_positions hpos
  obtain ⟨xs, hxs, hsize, hval⟩ := h.positions_eq_ok
  obtain ⟨hlow, hhigh⟩ := h.beyond
  have h4 := h.four_le
  have hget : ∀ k, k < xs.size → xs[k]? = some (xs.getD k 0) := by
    intro k hk
    rw [Array.getD_eq_getD_getElem?, Array.getElem?_eq_getElem hk]
    rfl
  have hinc : ∀ k x y, xs[k]? = some x → xs[k + 1]? = some y → x < y := by
    intro k x y hx hy
    have hstep := h.pos
    have hx' := (hval k x hx).2
    have hy' := (hval (k + 1) y hy).2
    rw [lt_iff, hx', hy']
    push_cast
    linarith
  have hbetween : ∀ y ∈ ys, xs.getD 0 0 < y ∧ y < xs.getD (xs.size - 1) 0 := by
    intro y hy
    obtain ⟨h₁, h₂⟩ := hin y hy
    have hfirst := (hval 0 _ (hget 0 (by omega))).2
    have hlast := (hval (xs.size - 1) _ (hget (xs.size - 1) (by omega))).2
    have hcast : ((xs.size - 1 : ℕ) : K) = raw.values.size - 1 := by
      rw [hsize, Nat.cast_sub (by omega), Nat.cast_one]
    rw [hcast] at hlast
    push_cast at hfirst hhigh
    rw [lt_iff, lt_iff, hfirst, hlast]
    constructor <;> linarith
  refine ⟨xs, ys, ⟨raw, h.segment, hxs⟩, ⟨empty, hempty, hys⟩, by omega, hinc, hbetween, ?_⟩
  obtain ⟨c, hc⟩ := (exists_resample hxs hys).mpr ⟨hsize, by omega,
    Spline.increasing_of_getElem? fun k x y hx hy => hinc k x y (by simpa using hx)
      (by simpa using hy),
    fun y hy => ⟨(hbetween y hy).1.le, (hbetween y hy).2.le⟩⟩
  refine ⟨c, bind_eq_ok.mpr ⟨raw, h.segment, bind_eq_ok.mpr ⟨bounds, h.bounds_eq,
    bind_eq_ok.mpr ⟨empty, hempty, hc⟩⟩⟩⟩

/-- With the step of the survey only the length of a window can keep it from being numbered. -/
theorem within (h : Cell survey s index bounds raw)
    (heq : spacing.spacing.stepsize.val = survey.sample.step.val)
    (hmem : 8 * raw.values.size < signedBound) : Within spacing bounds := by
  have hpos := h.pos
  have hleast := h.counted.least
  have hgreatest := h.counted.greatest
  have hsize := h.counted.size
  have hceil := ceilNumber_lt (numberOf s.layout.spacing.spacing bounds.top s.layout.spacing.phase)
  have hfloor := lt_floorNumber
    (numberOf s.layout.spacing.spacing bounds.bottom s.layout.spacing.phase)
  rw [h.margin] at hleast hgreatest hsize
  have hp := phase_mem survey.sample.first hpos
  rw [← h.phase, ← h.step] at hp
  have hq : 0 ≤ (spacing.phase bounds.reference).val ∧
      (spacing.phase bounds.reference).val < spacing.spacing.stepsize.val :=
    phase_mem bounds.reference (heq ▸ hpos)
  rw [← h.step] at heq hpos
  rw [heq] at hq
  obtain ⟨c, hgt, hlt, hshift⟩ := exists_shift hpos heq hp hq
  have htop : ceilNumber (numberOf s.layout.spacing.spacing bounds.top s.layout.spacing.phase) -
      2 ≤ ⌊(numberOf spacing.spacing bounds.top (spacing.phase bounds.reference)).val⌋ := by
    rw [Int.le_floor, hshift]
    push_cast
    linarith
  have hbottom : ⌈(numberOf spacing.spacing bounds.bottom (spacing.phase bounds.reference)).val⌉ ≤
      floorNumber (numberOf s.layout.spacing.spacing bounds.bottom s.layout.spacing.phase) + 2 := by
    rw [Int.ceil_le, hshift]
    push_cast
    linarith
  push_cast at hleast hgreatest hsize
  exact ⟨by omega, by omega, by omega⟩

end Cell
end Exact

variable {K : Type} [Field K] [LinearOrder K] [FloorRing K] [IsStrictOrderedRing K]
variable {σ : Type} [Sampled σ (Exact K)] [Root (Exact K)] [Limits (Exact K)]
variable {survey : Survey (Exact K)} {reference top bottom : Horizon (Exact K) σ}
variable {s : Subvolume (Exact K) σ} {spacing : ResampledSpacing (Exact K)} {d : Exact K}

open Exact

/-- In exact arithmetic, resampling by a step that is not longer than that of the survey.  The
raw samples of a cell enclose its resampled ones, and the cell is resampled whatever its
samples are, if the numbers of its resampled window are those of 64 bits.  That is so with the
step of the survey itself, if as many numbers as the subvolume has samples can be stored.  So
a range of such cells is reduced, by any attributes, into outputs that have room for it. -/
theorem Subvolume.enclosed_of_between
    (hl : Layout.between survey reference top bottom = .ok s.layout)
    (hdata : s.data.size = s.layout.total) (hs : ResampledSpacing.ofStepsize d = .ok spacing)
    (hd : d.val ≤ survey.sample.step.val) :
    (∀ i < s.layout.cells, s.layout.isEmpty i = .ok false →
      ∃ bounds, s.layout.bounds i = .ok bounds ∧
        (Within spacing bounds → ∃ xs ys, Enclosed s spacing i bounds xs ys) ∧
        (d.val = survey.sample.step.val → Shape.fitsMemory 8 s.layout.total = true →
          Within spacing bounds)) ∧
    ∀ (os : List (Output σ)) (lower upper : Nat), lower ≤ upper → upper ≤ s.layout.cells →
      (∀ o ∈ os, o.kind.isAvailable = true ∧ Holds lower upper o) →
      (∀ i bounds, lower ≤ i → i < upper → s.layout.isEmpty i = .ok false →
        s.layout.bounds i = .ok bounds → Within spacing bounds) →
      ∃ os', s.reduceRange spacing os lower upper = .ok os' := by
  obtain ⟨heq, hpos⟩ := resampledOfStepsize_eq_ok hs
  have hd' : spacing.spacing.stepsize = d := by rw [heq]
  have hpos' : 0 < spacing.spacing.stepsize.val := hd' ▸ hpos
  have hm : spacing.spacing.margin = 0 := by rw [heq]
  have hcell : ∀ i < s.layout.cells, s.layout.isEmpty i = .ok false →
      ∃ bounds raw, Cell survey s i bounds raw := fun i hi he => cell_of_between hl hdata hi he
  refine ⟨fun i hi he => ?_, fun os lower upper hlu hu hos hw => ?_⟩
  · obtain ⟨bounds, raw, h⟩ := hcell i hi he
    refine ⟨bounds, h.bounds_eq, h.enclosed hpos' hm (hd'.symm ▸ hd), fun hstep hmem => ?_⟩
    refine h.within (by rw [hd', hstep]) ?_
    have hle := size_rawSegment_le h.segment
    rw [Shape.fitsMemory, decide_eq_true_iff, ← hdata] at hmem
    omega
  · refine (exists_reduceRange hlu hu ⟨?_, fun o ho => (hos o ho).2, ?_⟩).mpr ?_
    · exact fun i _ hi => Layout.exists_isEmpty (Nat.lt_of_lt_of_le hi hu)
    · intro o ho i hl' hu' he c hc
      obtain ⟨bounds, raw, h⟩ := hcell i (Nat.lt_of_lt_of_le hu' hu) he
      obtain ⟨bounds', n, hb, hsp, hbd, -⟩ := freshColumn_eq_ok hc
      cases hb.symm.trans h.bounds_eq
      obtain ⟨k, hk⟩ := (hw i bounds hl' hu' he hb).exists_countAbove hpos' hm h.fits.top_le
        h.fits.le_bottom
      refine Attribute.exists_reduce (hos o ho).1 (n := k) ?_
      unfold ResampledSegment.referenceIndex
      rw [hsp, hbd]
      exact hk
    · intro i hl' hu' he
      obtain ⟨bounds, raw, h⟩ := hcell i (Nat.lt_of_lt_of_le hu' hu) he
      obtain ⟨xs, ys, henc⟩ := h.enclosed hpos' hm (hd'.symm ▸ hd)
        (hw i bounds hl' hu' he h.bounds_eq)
      exact henc.column

/-! ## Steps of a survey, and steps too short to be numbered -/

/-- The root of a square. -/
instance Exact.root : Root (Exact ℚ) := ⟨fun x => ⟨Rat.sqrt x.val⟩⟩

/-- No number is infinite, and zero stands for what is missing. -/
instance Exact.limits : Limits (Exact ℚ) := ⟨0, 0, 0⟩

theorem Subvolume.enclosed_of_single : ∃ (s : Subvolume (Exact ℚ) (Exact ℚ)) (spacing : _)
    (os : List (Output (Exact ℚ))),
    Subvolume.between (.ofRats 0 36 10) (.ofRat 12) (.ofRat 12) (.ofRat 14) = .ok s ∧
      ResampledSpacing.ofStepsize (⟨4⟩ : Exact ℚ) = .ok spacing ∧
      s.reduceRange spacing [⟨.value, #[⟨0⟩], 0⟩, ⟨.mean, #[⟨0⟩], 0⟩] 0 1 = .ok os := by
  obtain ⟨s, hs, hcells, hmem⟩ : ∃ s : Subvolume (Exact ℚ) (Exact ℚ),
      Subvolume.between (.ofRats 0 36 10) (.ofRat 12) (.ofRat 12) (.ofRat 14) = .ok s ∧
        s.layout.cells = 1 ∧ Shape.fitsMemory 8 s.layout.total = true := by decide +kernel
  obtain ⟨spacing, hsp, -⟩ : ∃ spacing,
      ResampledSpacing.ofStepsize (⟨4⟩ : Exact ℚ) = .ok spacing ∧ True := by decide +kernel
  obtain ⟨hl, hdata⟩ := Subvolume.between_eq_ok hs
  have hstep : (4 : ℚ) = (Survey.ofRats 0 36 10).sample.step.val := by decide +kernel
  obtain ⟨hcell, hrange⟩ := enclosed_of_between hl hdata hsp hstep.le
  have htakes : ∀ o ∈ ([⟨.value, #[⟨0⟩], 0⟩, ⟨.mean, #[⟨0⟩], 0⟩] : List (Output (Exact ℚ))),
      o.kind.isAvailable = true ∧ Holds 0 1 o := by
    intro o ho
    have hholds : ∀ i, i < 1 → 0 ≤ i ∧ i - 0 < 1 := by omega
    rcases List.mem_pair.mp ho with rfl | rfl <;> exact ⟨rfl, fun i _ => hholds i⟩
  have hwithin : ∀ i bounds, 0 ≤ i → i < 1 → s.layout.isEmpty i = .ok false →
      s.layout.bounds i = .ok bounds → Within spacing bounds := by
    intro i bounds _ hi he hb
    obtain ⟨bounds', hb', -, hw⟩ := hcell i (hcells ▸ hi) he
    cases hb.symm.trans hb'
    exact hw hstep hmem
  obtain ⟨os, hos⟩ := hrange _ 0 1 (Nat.zero_le 1) hcells.ge htakes hwithin
  exact ⟨s, spacing, os, hs, hsp, hos⟩

/-- With a step of `10 ^ -19` the number of the reference is outside 64 bits.  The window is
then placed elsewhere, where there are no raw samples. -/
theorem Subvolume.not_enclosed : ¬ ∀ (survey : Survey (Exact ℚ))
    (reference top bottom : Horizon (Exact ℚ) (Exact ℚ)) (s : Subvolume (Exact ℚ) (Exact ℚ))
    (d : Exact ℚ) (spacing : ResampledSpacing (Exact ℚ)) (index : Nat),
    Subvolume.between survey reference top bottom = .ok s →
      ResampledSpacing.ofStepsize d = .ok spacing → d.val ≤ survey.sample.step.val →
      index < s.layout.cells → s.layout.isEmpty index = .ok false →
      ∃ c, s.freshColumn spacing index = .ok c := by
  intro hall
  obtain ⟨s, hs, hcells, he, spacing, hsp, hfails⟩ : ∃ s : Subvolume (Exact ℚ) (Exact ℚ),
      Subvolume.between (.ofRats 0 36 10) (.ofRat 12) (.ofRat 12) (.ofRat 12) = .ok s ∧
        0 < s.layout.cells ∧ s.layout.isEmpty 0 = .ok false ∧
        ∃ spacing, ResampledSpacing.ofStepsize (⟨1 / 10 ^ 19⟩ : Exact ℚ) = .ok spacing ∧
          (s.freshColumn spacing 0).isOk = false := by decide +kernel
  obtain ⟨c, hc⟩ := hall _ _ _ _ s ⟨1 / 10 ^ 19⟩ spacing 0 hs hsp (by decide +kernel) hcells he
  rw [hc] at hfails
  cases hfails

end Seismic
