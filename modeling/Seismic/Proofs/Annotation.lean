import Seismic.Proofs.Axis
import Seismic.Proofs.Double.Integers
import Seismic.Proofs.Lookup
import Seismic.Proofs.Precision

/-!
# Numbered lines

Lines are usually numbered by integers that a double holds, with the same distance between any
two neighbours.  Then nothing is rounded on the way from an index to its annotation and back, so
every line is found by its annotation.  A line that is found has been given up to the tolerance,
so its annotation is less than a hundredth of a step away.  A single line has no neighbour and is
found by its own number, whatever that is.
-/

namespace Seismic

open Double

namespace Axis

variable {a : Axis Float} {line : Float} {i : Nat} {first step : ℤ}

/-- Several lines are numbered by integers, a non-zero number of them apart. -/
structure NumberedBy (a : Axis Float) (first step : ℤ) : Prop where
  several : 1 < a.nsamples
  few : a.nsamples < 2 ^ 40
  first_eq : IsInteger a.first first
  last_eq : IsInteger a.last (first + (a.nsamples - 1) * step)
  first_le : |first| ≤ 2 ^ 52
  last_le : |first + (a.nsamples - 1) * step| ≤ 2 ^ 52
  step_ne : step ≠ 0

/-- The lines are numbered by integers, or there is a single one. -/
def Numbered (a : Axis Float) : Prop :=
  a.nsamples = 1 ∧ IsFinite a.first ∨ ∃ first step, a.NumberedBy first step

/-- The distance between neighbouring lines, which is one if there are none. -/
noncomputable def pitch (a : Axis Float) : ℝ :=
  if a.nsamples = 1 then 1 else |toReal a.step|

/-! ## Several lines -/

theorem abs_mul_le_of_lt {i n : Nat} (hi : i < n) (step : ℤ) :
    |i * step| ≤ |((n : ℤ) - 1) * step| := by
  rw [abs_mul, abs_mul]
  refine mul_le_mul_of_nonneg_right ?_ (abs_nonneg step)
  rw [abs_of_nonneg (by omega), abs_of_nonneg (by omega)]
  omega

namespace NumberedBy

theorem length_le (h : a.NumberedBy first step) : |(a.nsamples - 1) * step| ≤ 2 ^ 53 := by
  have h₁ := abs_le.mp h.first_le
  have h₂ := abs_le.mp h.last_le
  rw [abs_le]
  constructor <;> linarith

theorem step_eq (h : a.NumberedBy first step) : IsInteger a.step step := by
  have hcount : ((a.nsamples - 1 : Nat) : ℤ) = a.nsamples - 1 := by
    have := h.several
    omega
  have hsteps : IsInteger (Float.ofInt (a.nsamples - 1 : Nat)) (a.nsamples - 1) := by
    rw [← hcount]
    refine isInteger_ofNat ?_
    have := h.few
    omega
  have hlength : IsInteger (a.last - a.first) (step * (a.nsamples - 1)) := by
    have he : first + (a.nsamples - 1) * step - first = step * (a.nsamples - 1) := by ring
    rw [← he]
    refine h.last_eq.sub h.first_eq ?_
    rw [he, mul_comm]
    exact h.length_le
  have hstep : |step| ≤ 2 ^ 53 := by
    have hmul := abs_mul_le_of_lt h.several step
    rw [Nat.cast_one, one_mul] at hmul
    exact hmul.trans h.length_le
  rw [Axis.step_eq h.several]
  refine hlength.div hsteps ?_ hstep
  have := h.several
  omega

/-- A sample is between the first and the last, whichever of the two is numbered lower. -/
theorem abs_annotation_le (h : a.NumberedBy first step) (hi : i < a.nsamples) :
    |first + i * step| ≤ 2 ^ 52 := by
  obtain ⟨hf₁, hf₂⟩ := abs_le.mp h.first_le
  obtain ⟨hl₁, hl₂⟩ := abs_le.mp h.last_le
  have hle : (i : ℤ) ≤ a.nsamples - 1 := by omega
  rw [abs_le]
  rcases le_total 0 step with hs | hs
  · have h₁ := mul_nonneg (Int.natCast_nonneg i) hs
    have h₂ := mul_le_mul_of_nonneg_right hle hs
    constructor <;> linarith
  · have h₁ := mul_nonpos_of_nonneg_of_nonpos (Int.natCast_nonneg i) hs
    have h₂ := mul_le_mul_of_nonpos_right hle hs
    constructor <;> linarith

/-- The annotation of a sample is the integer that it should be. -/
theorem annotationOf_eq (h : a.NumberedBy first step) (hi : i < a.nsamples) :
    IsInteger (a.annotationOf (Scalar.ofNat i)) (first + i * step) := by
  have hindex : IsInteger (Scalar.ofNat i) i := by
    refine isInteger_ofNat ?_
    have := h.few
    omega
  have hmul : |i * step| ≤ 2 ^ 53 := (abs_mul_le_of_lt hi step).trans h.length_le
  have hsum : |first + i * step| ≤ 2 ^ 53 := (h.abs_annotation_le hi).trans (by norm_num)
  exact h.first_eq.add (hindex.mul h.step_eq hmul) hsum

theorem toReal_step_ne (h : a.NumberedBy first step) : toReal a.step ≠ 0 := by
  rw [h.step_eq.eq]
  exact Int.cast_ne_zero.mpr h.step_ne

theorem indexOf_annotationOf (h : a.NumberedBy first step) (hi : i < a.nsamples) :
    IsInteger (a.indexOf (a.annotationOf (Scalar.ofNat i))) i := by
  have hmul : |i * step| ≤ 2 ^ 53 := (abs_mul_le_of_lt hi step).trans h.length_le
  have hdist : IsInteger (a.annotationOf (Scalar.ofNat i) - a.first) (i * step) := by
    have he : first + i * step - first = i * step := add_sub_cancel_left first _
    have hsub := (h.annotationOf_eq hi).sub h.first_eq (by rw [he]; exact hmul)
    rwa [he] at hsub
  rw [indexOf_eq h.toReal_step_ne]
  refine hdist.div h.step_eq h.step_ne ?_
  have := h.few
  rw [Nat.abs_cast]
  omega

end NumberedBy

/-! ## A single line -/

theorem step_of_single (h : a.nsamples = 1) : a.step = Float.ofInt 0 := if_pos h.le

theorem indexOf_of_single (h : a.nsamples = 1) (x : Float) : a.indexOf x = x - a.first := by
  unfold indexOf indexOnLine
  rw [step_of_single h]
  exact if_pos (beq_iff.mpr ⟨ofInt_zero.1.isNumber, ofInt_zero.1.isNumber, rfl⟩)

theorem annotationOf_of_single (h : a.nsamples = 1) (hf : IsFinite a.first) :
    IsFinite (a.annotationOf (Scalar.ofNat 0)) ∧
      toReal (a.annotationOf (Scalar.ofNat 0)) = toReal a.first := by
  have hzero : IsInteger (Float.ofInt 0 * Float.ofInt 0) 0 :=
    (isInteger_ofInt (n := 0) (by norm_num)).mul (isInteger_ofInt (n := 0) (by norm_num))
      (by norm_num)
  have hsum : toReal a.first + toReal (Float.ofInt 0 * Float.ofInt 0) = toReal a.first := by
    rw [hzero.eq, Int.cast_zero, add_zero]
  have hadd := add_finite hf hzero.finite (by rw [hsum]; exact abs_toReal_le _)
  rw [hsum, rounded_toReal hf] at hadd
  unfold annotationOf
  rw [step_of_single h]
  exact hadd

theorem indexOf_annotationOf_of_single (h : a.nsamples = 1) (hf : IsFinite a.first) :
    IsInteger (a.indexOf (a.annotationOf (Scalar.ofNat 0))) 0 := by
  obtain ⟨hl, hv⟩ := annotationOf_of_single h hf
  have hdiff : toReal (a.annotationOf (Scalar.ofNat 0)) - toReal a.first = 0 := by
    rw [hv, sub_self]
  obtain ⟨hs, hsv⟩ := sub_finite hl hf (by
    rw [hdiff, abs_zero]
    exact le_greatest 0 (by norm_num) (by norm_num))
  rw [indexOf_of_single h]
  exact ⟨hs, by rw [hsv, hdiff, rounded_zero, Int.cast_zero]⟩

/-! ## Finding lines -/

/-- A line whose index is exactly that of a sample is found. -/
theorem sampleAt_of_isInteger (h : IsInteger (a.indexOf line) i) (hi : i < a.nsamples)
    (hn : a.nsamples < 2 ^ 52) : a.sampleAt line = .ok i := by
  obtain ⟨hf, hv⟩ := nearest_finite h.finite
  rw [h.eq, away_intCast, Int.cast_natCast] at hv
  have hzero : toReal (a.indexOf line) - toReal (nearest (a.indexOf line)) = 0 := by
    rw [h.eq, hv, Int.cast_natCast, sub_self]
  obtain ⟨hd, hdv⟩ := sub_finite h.finite hf (by
    rw [hzero, abs_zero]
    exact le_greatest 0 (by norm_num) (by norm_num))
  obtain ⟨ha, hav⟩ := abs_finite hd
  have htol : ¬ Tolerance.width < (a.indexOf line - nearest (a.indexOf line)).abs := by
    rw [lt_iff_toReal width_finite.1 ha, hav, hdv, hzero, rounded_zero, abs_zero,
      width_finite.2, not_lt]
    exact rounded_nonneg (by norm_num)
  have hholds : a.holdsIndex (nearest (a.indexOf line)) = true := by
    rw [holdsIndex_iff hn, hv]
    have h₁ : (0 : ℝ) ≤ i := Nat.cast_nonneg i
    have h₂ : (i : ℝ) + 1 ≤ a.nsamples := by exact_mod_cast hi
    exact ⟨hf, by linarith, by linarith⟩
  have hcount : Scalar.toCount (nearest (a.indexOf line)) = i := by
    refine toCount_of_integer hf (by rw [hv, Int.cast_natCast]) ?_
    exact (hi.trans hn).trans (by decide)
  simp only [sampleAt]
  rw [if_neg, show (Scalar.nearest (a.indexOf line)) = nearest (a.indexOf line) from rfl, hcount]
  rw [not_or, not_not]
  exact ⟨htol, hholds⟩

/-- The computed index of a line that is found is near that of the sample. -/
theorem abs_indexOf_sub_le (hn : a.nsamples < countBound) (h : a.sampleAt line = .ok i) :
    |toReal (a.indexOf line) - i| ≤ 11 / 10000 := by
  obtain ⟨-, hx, haway, htol⟩ := sampleAt_eq_ok hn h
  obtain ⟨hf, hv⟩ := nearest_finite hx
  rw [haway, Int.cast_natCast] at hv
  have hnear : |toReal (a.indexOf line) - i| ≤ 1 / 2 := by
    have := abs_away_sub_le (toReal (a.indexOf line))
    rwa [haway, Int.cast_natCast, abs_sub_comm] at this
  obtain ⟨hd, hdv⟩ := sub_finite hx hf (by
    rw [hv]
    exact le_greatest 0 (by norm_num) (hnear.trans (by norm_num)))
  obtain ⟨ha, hav⟩ := abs_finite hd
  have hle : |rounded (toReal (a.indexOf line) - i)| ≤ 1001 / 1000000 := by
    have hw := not_lt.mp (mt (lt_iff_toReal width_finite.1 ha).mpr htol)
    rw [hav, hdv, hv, width_finite.2] at hw
    exact hw.trans rounded_width_mem.2
  have herr := abs_sub_error (a.indexOf line) (nearest (a.indexOf line))
  rw [hv, ulp] at herr
  have := abs_sub_abs_le_abs_sub (toReal (a.indexOf line) - i)
    (rounded (toReal (a.indexOf line) - i))
  rw [abs_sub_comm] at herr
  linarith

/-- Two roundings of a number that is known after them. -/
theorem abs_sub_le_of_twice_rounded {x y z : ℝ} (h₁ : |y - x| ≤ |x| * ulp)
    (h₂ : |z - y| ≤ |y| * ulp + tiny) (hz : |z| ≤ 2 ^ 40) : |z - x| ≤ 1 / 1000 := by
  have hxz := Spacing.abs_twice_rounded_le h₁ h₂
  have htiny := tiny_le
  have hx := abs_sub_abs_le_abs_sub x z
  rw [abs_sub_comm x z] at hx
  have := abs_nonneg x
  linarith

/-- The computed index of a line is near the exact one if it is that of a sample: the distance
from the first line is rounded, and so is the quotient. -/
theorem abs_indexOf_error_le (hs : IsFinite a.step) (h0 : toReal a.step ≠ 0)
    (hx : IsFinite (a.indexOf line)) (hbound : |toReal (a.indexOf line)| ≤ 2 ^ 40) :
    |toReal (a.indexOf line) - (toReal line - toReal a.first) / toReal a.step| ≤ 1 / 1000 := by
  rw [indexOf_eq h0] at hx hbound ⊢
  have h₁ : |toReal (line - a.first) / toReal a.step -
      (toReal line - toReal a.first) / toReal a.step| ≤
        |(toReal line - toReal a.first) / toReal a.step| * ulp := by
    have herr := abs_sub_error line a.first
    rw [← toReal_sub hx.of_div] at herr
    rw [← sub_div, abs_div, abs_div, div_mul_eq_mul_div]
    exact div_le_div_of_nonneg_right herr (abs_nonneg _)
  have h₂ := abs_rounded_sub_le (toReal (line - a.first) / toReal a.step)
  rw [← toReal_div hx hs h0] at h₂
  exact abs_sub_le_of_twice_rounded h₁ h₂ hbound

theorem NumberedBy.abs_index_sub_le (h : a.NumberedBy first step)
    (hfound : a.sampleAt line = .ok i) :
    |(toReal line - toReal a.first) / toReal a.step - i| ≤ 1 / 100 := by
  have hn : a.nsamples < countBound := h.few.trans (by decide)
  obtain ⟨hi, hx, -, -⟩ := sampleAt_eq_ok hn hfound
  have hnear := abs_indexOf_sub_le hn hfound
  have hbound : |toReal (a.indexOf line)| ≤ 2 ^ 40 := by
    have hi40 : (i : ℝ) + 1 ≤ 2 ^ 40 := by
      have := h.few
      exact_mod_cast (by omega : i + 1 ≤ 2 ^ 40)
    have := abs_sub_abs_le_abs_sub (toReal (a.indexOf line)) i
    rw [Nat.abs_cast] at this
    linarith
  have herr := abs_indexOf_error_le h.step_eq.finite h.toReal_step_ne hx hbound
  rw [abs_sub_comm] at herr
  have := abs_sub_le ((toReal line - toReal a.first) / toReal a.step) (toReal (a.indexOf line)) i
  linarith

theorem NumberedBy.abs_sub_annotationOf_le (h : a.NumberedBy first step)
    (hfound : a.sampleAt line = .ok i) :
    |toReal line - toReal (a.annotationOf (Scalar.ofNat i))| ≤ |toReal a.step| / 100 := by
  have hi := (sampleAt_eq_ok (h.few.trans (by decide)) hfound).1
  have hscale : toReal line - toReal (a.annotationOf (Scalar.ofNat i)) =
      ((toReal line - toReal a.first) / toReal a.step - i) * toReal a.step := by
    rw [(h.annotationOf_eq hi).eq, sub_mul, div_mul_cancel₀ _ h.toReal_step_ne, h.first_eq.eq,
      h.step_eq.eq]
    push_cast
    ring
  calc |toReal line - toReal (a.annotationOf (Scalar.ofNat i))|
      = |(toReal line - toReal a.first) / toReal a.step - i| * |toReal a.step| := by
        rw [hscale, abs_mul]
    _ ≤ 1 / 100 * |toReal a.step| :=
        mul_le_mul_of_nonneg_right (h.abs_index_sub_le hfound) (abs_nonneg _)
    _ = |toReal a.step| / 100 := by ring

theorem abs_sub_annotationOf_le_of_single (h : a.nsamples = 1) (hf : IsFinite a.first)
    (hfound : a.sampleAt line = .ok i) :
    |toReal line - toReal (a.annotationOf (Scalar.ofNat i))| ≤ 1 / 100 := by
  have hn : a.nsamples < countBound := h ▸ (by decide)
  obtain ⟨hi, hx, -, -⟩ := sampleAt_eq_ok hn hfound
  have hnear := abs_indexOf_sub_le hn hfound
  obtain rfl : i = 0 := by omega
  rw [indexOf_of_single h] at hx hnear
  have herr := abs_sub_error line a.first
  rw [← toReal_sub hx, ulp] at herr
  have := abs_sub_abs_le_abs_sub (toReal line - toReal a.first) (toReal (line - a.first))
  rw [abs_sub_comm _ (toReal (line - a.first))] at this
  rw [Nat.cast_zero, sub_zero] at hnear
  rw [(annotationOf_of_single h hf).2]
  linarith

/-! ## Numbered axes -/

theorem Numbered.few (h : a.Numbered) : a.nsamples < 2 ^ 40 := by
  rcases h with ⟨h1, -⟩ | ⟨_, _, h⟩
  · rw [h1]
    norm_num
  · exact h.few

/-- Every line is found by its annotation. -/
theorem Numbered.sampleAt_annotationOf (h : a.Numbered) (hi : i < a.nsamples) :
    a.sampleAt (a.annotationOf (Scalar.ofNat i)) = .ok i := by
  have hn : a.nsamples < 2 ^ 52 := h.few.trans (by norm_num)
  rcases h with ⟨h1, hf⟩ | ⟨_, _, h⟩
  · obtain rfl : i = 0 := by omega
    exact sampleAt_of_isInteger (indexOf_annotationOf_of_single h1 hf) hi hn
  · exact sampleAt_of_isInteger (h.indexOf_annotationOf hi) hi hn

/-- A line that is found is near the annotation of the sample. -/
theorem Numbered.abs_sub_annotationOf_le (h : a.Numbered) (hfound : a.sampleAt line = .ok i) :
    |toReal line - toReal (a.annotationOf (Scalar.ofNat i))| ≤ a.pitch / 100 := by
  unfold pitch
  rcases h with ⟨h1, hf⟩ | ⟨_, _, h⟩
  · rw [if_pos h1]
    exact abs_sub_annotationOf_le_of_single h1 hf hfound
  · rw [if_neg h.several.ne']
    exact h.abs_sub_annotationOf_le hfound

end Axis
end Seismic
