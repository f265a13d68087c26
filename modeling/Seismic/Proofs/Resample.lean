import Mathlib.Tactic.SplitIfs
import Seismic.Proofs.Result
import Seismic.Trace.Resample

/-!
# Reuse in resampling

A spline that has served other segments resamples as a new one does, since a fit that
succeeds replaces everything in it.  A segment that is given other bounds keeps nothing of
the previous ones but its spacing.
-/

namespace Seismic

variable {α σ : Type} [Scalar α]

namespace Spline

/-- Whether a fit succeeds does not depend on earlier fits, and neither does the spline it
leaves then. -/
theorem fit_cases (s t : Spline α) (x y : Array α) :
    (∃ e, (s.fit x y).1 = .error e ∧ (t.fit x y).1 = .error e) ∨
      ((s.fit x y).1 = .ok () ∧ s.fit x y = t.fit x y) := by
  unfold fit
  dsimp only
  split_ifs
  · exact Or.inl ⟨_, rfl, rfl⟩
  · exact Or.inl ⟨_, rfl, rfl⟩
  · exact Or.inl ⟨_, rfl, rfl⟩
  · exact Or.inr ⟨rfl, rfl⟩

theorem resample_eq [Sampled σ α] (s : Spline α) (src : RawSegment α σ)
    (dst : ResampledSegment α) : (s.resample src dst).1 = Seismic.resample src dst := by
  unfold Seismic.resample Spline.resample
  cases src.positions with
  | error f => rfl
  | ok x =>
    dsimp only
    rcases fit_cases s {} x (src.values.map Sampled.widen) with ⟨e, hs, ht⟩ | ⟨-, heq⟩
    · rcases hs' : s.fit x (src.values.map Sampled.widen) with ⟨r, u⟩
      rcases ht' : fit {} x (src.values.map Sampled.widen) with ⟨r', u'⟩
      rw [hs'] at hs
      rw [ht'] at ht
      cases hs
      cases ht
      rfl
    · rw [heq]

/-- Evaluation fills in values and nothing else. -/
theorem evalAll_eq_ok {s : Spline α} {dst c : ResampledSegment α} (h : s.evalAll dst = .ok c) :
    c.spacing = dst.spacing ∧ c.bounds = dst.bounds := by
  unfold evalAll at h
  obtain ⟨x, -, h⟩ := bind_eq_ok.mp h
  obtain ⟨v, -, h⟩ := bind_eq_ok.mp h
  cases pure_eq_ok.mp h
  exact ⟨rfl, rfl⟩

end Spline

theorem resample_eq_ok [Sampled σ α] {src : RawSegment α σ} {dst c : ResampledSegment α}
    (h : resample src dst = .ok c) : c.spacing = dst.spacing ∧ c.bounds = dst.bounds := by
  unfold resample Spline.resample at h
  cases hp : src.positions with
  | error f =>
    rw [hp] at h
    cases h
  | ok x =>
    rw [hp] at h
    dsimp only at h
    rcases hf : Spline.fit {} x (src.values.map Sampled.widen) with ⟨_ | _, u⟩
    · rw [hf] at h
      cases h
    · rw [hf] at h
      exact Spline.evalAll_eq_ok h

namespace ResampledSegment

theorem reset_eq_unset (s : ResampledSegment α) (bounds : Bounds α) :
    s.reset bounds = (unset s.spacing).reset bounds := rfl

theorem reset_eq_ok {s c : ResampledSegment α} {bounds : Bounds α} (h : s.reset bounds = .ok c) :
    c.spacing = s.spacing ∧ c.bounds = bounds ∧
      s.spacing.count bounds.reference bounds.top bounds.bottom = .ok c.values.size := by
  unfold reset at h
  obtain ⟨n, hn, h⟩ := bind_eq_ok.mp h
  obtain ⟨-, h⟩ := check_eq_ok.mp h
  cases pure_eq_ok.mp h
  refine ⟨rfl, rfl, ?_⟩
  rw [hn, Array.size_replicate]

end ResampledSegment
end Seismic
