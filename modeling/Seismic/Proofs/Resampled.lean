import Seismic.Proofs.Interval

/-!
# Resampled values one by one

A segment is resampled by fitting a new spline through its samples.  Every value of the result is
that of the fitted spline at the position of the value, and no other value has a part in it.
-/

namespace Seismic

variable {α σ : Type} [Scalar α] [Sampled σ α]
variable {src : RawSegment α σ} {dst c : ResampledSegment α} {x q : Array α}

namespace Spline

omit [Sampled σ α] in
/-- A spline with values everywhere fills them in. -/
theorem evalAll_eq {s : Spline α} {f : α → α} (hq : dst.positions = .ok q)
    (h : ∀ p ∈ q, s.eval p = .ok (f p)) : s.evalAll dst = .ok { dst with values := q.map f } := by
  have hall : q.toList.mapM s.eval = .ok (q.toList.map f) :=
    mapM_eq_ok.mpr (List.forall₂_map_right_iff.mpr (List.forall₂_same.mpr fun p hp =>
      h p (Array.mem_toList_iff.mp hp)))
  unfold evalAll
  rw [hq, ok_bind, Array.mapM_eq_mapM_toList, hall]
  simp only [Functor.map, Except.map, ok_bind]
  rw [← Array.toList_map]
  rfl

omit [Sampled σ α] in
theorem getElem?_evalAll {s : Spline α} (hq : dst.positions = .ok q) (h : s.evalAll dst = .ok c)
    {j : ℕ} {p : α} (hj : q[j]? = some p) : ∃ v, c.values[j]? = some v ∧ s.eval p = .ok v := by
  unfold evalAll at h
  rw [hq, ok_bind, Array.mapM_eq_mapM_toList] at h
  cases hvs : q.toList.mapM s.eval with
  | error e =>
    rw [hvs] at h
    cases h
  | ok vs =>
    rw [hvs] at h
    cases h
    obtain ⟨v, hv, heval⟩ := getElem?_mapM hvs (Array.getElem?_toList.trans hj)
    exact ⟨v, (List.getElem?_toArray ..).trans hv, heval⟩

end Spline

open Spline

/-- Only nodes that a spline accepts are resampled, and then by a spline that was fitted to
them. -/
theorem resample_eq_ok_iff (hx : src.positions = .ok x) : resample src dst = .ok c ↔
    Accepts (x, src.values.map Sampled.widen) ∧
      (fit {} x (src.values.map Sampled.widen)).2.evalAll dst = .ok c := by
  unfold resample Spline.resample
  rw [hx, ← fit_ok_iff (s := {})]
  dsimp only
  rcases fit {} x (src.values.map Sampled.widen) with ⟨_ | _, u⟩
  · exact ⟨fun h => (nomatch h), fun h => (nomatch h.1)⟩
  · exact ⟨fun h => ⟨rfl, h⟩, fun h => h.2⟩

/-! ## Segments to try it on -/

/-- A segment between the positions 2 and 5 with samples at a distance of one, the first of them
at position zero. -/
def RawSegment.unit (values : Array σ) : RawSegment α σ :=
  ⟨⟨⟨1, rawMargin⟩, 0⟩, ⟨3, 2, 5⟩, values⟩

/-- The resampled segment between the same positions, with samples at a distance of one half. -/
def ResampledSegment.halves : ResampledSegment α :=
  ⟨⟨⟨1 / 2, 0⟩⟩, ⟨3, 2, 5⟩, Array.replicate 7 0⟩

end Seismic
