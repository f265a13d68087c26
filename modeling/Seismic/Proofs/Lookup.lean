import Seismic.Proofs.Lines
import Seismic.Volume.Slice

/-!
# Lookups of lines

A line is looked up on an axis by its annotation or by its index.  Either way the sample that is
found is on the axis, whatever the axis and whatever the line: the checks are comparisons of
numbers, which an undefined value never passes, and a count is rounded to a number next to it,
so no integer lies between the two.
-/

namespace Seismic

namespace Double

theorem lt_of_lt_ofInt {x : Float} {k n : ℤ} (hx : IsFinite x) (hk : toReal x = k)
    (h : value x < value (Float.ofInt n)) : k < n := by
  by_contra hle
  have hreal : (n : ℝ) ≤ toReal x := by
    rw [hk]
    exact_mod_cast not_lt.mp hle
  have hround : value (Float.ofInt n) ≤ value x :=
    calc value (Float.ofInt n) = round (n : ℝ) := (ofInt_spec n).2
      _ ≤ round (value x) := by
        rw [value_of_isFinite hx]
        exact round_mono (EReal.coe_le_coe_iff.mpr hreal)
      _ = value x := round_value x
  exact absurd h (not_lt.mpr hround)

/-- A number between two others, of which only the lower one has to be finite. -/
theorem isFinite_of_le_of_lt {x y z : Float} (hx : IsFinite x) (hxy : x ≤ y) (hyz : y < z) :
    IsFinite y := by
  have hlow := (le_iff.mp hxy).2.2
  rw [value_of_isFinite hx] at hlow
  exact isFinite_iff.mpr ⟨(lt_iff.mp hyz).1, ne_top_of_lt (lt_iff.mp hyz).2.2,
    ne_bot_of_le_ne_bot (EReal.coe_ne_bot _) hlow⟩

theorem isFinite_of_nearest {x : Float} (h : IsFinite (nearest x)) : IsFinite x := by
  by_contra hx
  rw [show nearest x = x from roundBy_of_not_isFinite hx] at h
  exact hx h

theorem toCount_of_integer {x : Float} {k : Nat} (hx : IsFinite x) (hk : toReal x = (k : ℤ))
    (h : k < countBound) : Scalar.toCount x = k := by
  show (clampedInt 0 (countBound - 1) x).toNat = k
  rw [clampedInt_of_integer hx hk]
  omega

/-- Taking a half from a count does not make it larger, although the difference is rounded. -/
theorem ofInt_sub_half_le (n : ℤ) :
    value (Float.ofInt n - Float.ofInt 1 / Float.ofInt 2) ≤ value (Float.ofInt n) := by
  obtain ⟨hf, hv⟩ := Axis.half_finite
  have hle : value (Float.ofInt n) - ((1 / 2 : ℝ) : EReal) ≤ value (Float.ofInt n) := by
    have hhalf : (0 : EReal) ≤ ((1 / 2 : ℝ) : EReal) := by
      exact_mod_cast (by norm_num : (0 : ℝ) ≤ 1 / 2)
    simpa using EReal.sub_le_sub (le_refl (value (Float.ofInt n))) hhalf
  rw [(sub_spec (ofInt_spec n).1 hf).2, value_of_isFinite hf, hv]
  exact (round_mono hle).trans_eq (round_value _)

end Double

namespace Axis

open Double

variable {a : Axis Float} {line : Float} {i : Nat}

/-- An integral number whose index is on the axis is the index of a sample. -/
theorem exists_of_holdsIndex {x : Float} {k : ℤ} (hx : IsFinite x) (hk : toReal x = k)
    (h : a.holdsIndex x = true) : ∃ i < a.nsamples, k = i := by
  rw [holdsIndex_eq, Bool.and_eq_true, decide_eq_true_iff, decide_eq_true_iff] at h
  obtain ⟨hhf, hhv⟩ := half_finite
  obtain ⟨hnf, hnv⟩ := neg_finite hhf
  have h0 : ((-1 : ℤ) : ℝ) < k := by
    have hlow := (le_iff_toReal hnf hx).mp h.1
    rw [hnv, hhv, hk] at hlow
    push_cast
    linarith
  have hlt : k < a.nsamples :=
    lt_of_lt_ofInt hx hk ((lt_iff.mp h.2).2.2.trans_le (ofInt_sub_half_le _))
  rw [Int.cast_lt] at h0
  exact ⟨k.toNat, by omega, by omega⟩

theorem isFinite_of_indexOf (h : IsFinite (a.indexOf line)) : IsFinite line := by
  unfold indexOf indexOnLine at h
  split_ifs at h with h0
  · exact h.of_sub.1
  · exact h.of_div.of_sub.1

/-- A line that is found by its annotation has a finite index, and the nearest integer is the
index of the sample found. -/
theorem sampleAt_eq_ok (hn : a.nsamples < countBound) (h : a.sampleAt line = .ok i) :
    i < a.nsamples ∧ IsFinite (a.indexOf line) ∧ away (toReal (a.indexOf line)) = i ∧
      ¬ Tolerance.width < Scalar.abs (a.indexOf line - Scalar.nearest (a.indexOf line)) := by
  simp only [sampleAt] at h
  split_ifs at h with hc
  rw [not_or, not_not] at hc
  obtain ⟨htol, hholds⟩ := hc
  have hf : IsFinite (Scalar.nearest (a.indexOf line)) := by
    have hh := hholds
    rw [holdsIndex_eq, Bool.and_eq_true, decide_eq_true_iff, decide_eq_true_iff] at hh
    exact isFinite_of_le_of_lt (neg_finite half_finite.1).1 hh.1 hh.2
  have hx : IsFinite (a.indexOf line) := isFinite_of_nearest hf
  obtain ⟨-, hv⟩ := nearest_finite hx
  obtain ⟨k, hk, hki⟩ := exists_of_holdsIndex hf hv hholds
  have hcount := toCount_of_integer hf (hki ▸ hv) (hk.trans hn)
  cases h
  rw [hcount]
  exact ⟨hk, hx, hki, htol⟩

theorem lt_of_sampleWithIndex (hn : a.nsamples < countBound)
    (h : a.sampleWithIndex line = .ok i) : i < a.nsamples := by
  unfold sampleWithIndex at h
  split_ifs at h with hc
  rw [Bool.and_eq_true, Bool.and_eq_true, decide_eq_true_iff, decide_eq_true_iff] at hc
  obtain ⟨⟨hfloor, hlow⟩, hhigh⟩ := hc
  obtain ⟨hzf, hzv⟩ := ofInt_zero
  have hx : IsFinite line := isFinite_of_le_of_lt hzf hlow hhigh
  have hv : toReal line = (⌊toReal line⌋ : ℤ) := by
    obtain ⟨hff, hfv⟩ := floor_finite hx
    have he := (beq_iff.mp hfloor).2.2
    rw [show value (Scalar.floor line) = value (floor line) from rfl, value_of_isFinite hff,
      value_of_isFinite hx, EReal.coe_eq_coe_iff, hfv] at he
    exact he.symm
  have h0 : 0 ≤ ⌊toReal line⌋ := by
    have hle := (le_iff_toReal hzf hx).mp hlow
    rw [hzv] at hle
    exact Int.floor_nonneg.mpr hle
  have hlt : ⌊toReal line⌋ < a.nsamples := lt_of_lt_ofInt hx hv (lt_iff.mp hhigh).2.2
  have hcount := toCount_of_integer (k := ⌊toReal line⌋.toNat) hx
    (by rw [Int.toNat_of_nonneg h0]; exact hv) (by omega)
  cases h
  rw [hcount]
  omega

end Axis
end Seismic
