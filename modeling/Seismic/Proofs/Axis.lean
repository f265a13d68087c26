import Seismic.Axis
import Seismic.Proofs.Window

/-!
# Axes over 64-bit numbers

An axis whose step is accepted as the distance between samples has at least two of them, and
its ends are finite.  So the lattice of its samples has a finite phase.
-/

namespace Seismic

open Double

namespace Axis

variable {a : Axis Float}

theorem step_eq (h : 1 < a.nsamples) :
    a.step = (a.last - a.first) / Float.ofInt (a.nsamples - 1 : Nat) := by
  unfold step
  rw [if_neg (Nat.not_le.mpr h)]
  rfl

theorem one_lt_nsamples (h : 0 < toReal a.step) : 1 < a.nsamples := by
  by_contra hle
  have h0 : a.step = Float.ofInt 0 := if_pos (Nat.not_lt.mp hle)
  rw [h0, ofInt_zero.2] at h
  exact lt_irrefl _ h

theorem ends_finite (hf : IsFinite a.step) (h : 0 < toReal a.step) :
    IsFinite a.last ∧ IsFinite a.first := by
  rw [step_eq (one_lt_nsamples h)] at hf
  exact hf.of_div.of_sub

/-- On an axis with a step an index is a quotient. -/
theorem indexOf_eq (h : toReal a.step ≠ 0) (x : Float) : a.indexOf x = (x - a.first) / a.step := by
  unfold indexOf indexOnLine
  rw [if_neg]
  intro h0
  obtain ⟨hn, -, hv⟩ : IsNumber a.step ∧ IsNumber (Float.ofInt 0) ∧
    value a.step = value (Float.ofInt 0) := beq_iff.mp h0
  rw [value_of_isFinite ofInt_zero.1] at hv
  have := (isFinite_of_value_eq hn hv).2
  rw [ofInt_zero.2] at this
  exact h this

end Axis

namespace RawSpacing

theorem through_axis {a : Axis Float} {s : RawSpacing Float} (hs : through a.step a.first = .ok s) :
    s.spacing.Accepted ∧ s.spacing.stepsize = a.step ∧ s.spacing.margin = 2 ∧
      s.phase = Tolerance.phase a.first a.step ∧ IsFinite s.phase := by
  obtain ⟨heq, hacc, hp⟩ := through_eq_ok hs
  have hf := hacc.finite
  have h0 := hacc.pos
  rw [heq] at hf h0
  refine ⟨hacc, by rw [heq], by rw [heq]; rfl, hp, ?_⟩
  rw [hp]
  exact (phase_finite (Axis.ends_finite hf h0).2 hf h0).1

end RawSpacing
end Seismic
