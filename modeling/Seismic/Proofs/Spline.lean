import Seismic.Proofs.Resample

/-!
# When resampling succeeds

A segment can be resampled if its samples are at increasing positions, at least two of them,
and if no position of the resampled segment lies outside.  Nothing else can fail: the values
of the samples do not matter.
-/

namespace Seismic

variable {α : Type} [Scalar α]

namespace Spline

theorem increasing_of_getElem? {xs : List α}
    (h : ∀ k x y, xs[k]? = some x → xs[k + 1]? = some y → x < y) : increasing xs = true := by
  induction xs with
  | nil => rfl
  | cons x xs ih =>
    cases xs with
    | nil => rfl
    | cons y rest =>
      rw [increasing, Bool.and_eq_true, decide_eq_true_iff]
      exact ⟨h 0 x y rfl rfl, ih fun k => h (k + 1)⟩

/-- A spline with a value and a derivative for every node. -/
structure Fitted (s : Spline α) : Prop where
  two_le : 2 ≤ s.positions.size
  values : s.values.size = s.positions.size
  derivatives : s.derivatives.size = s.positions.size

theorem fit_eq_ok {s : Spline α} {x y : Array α} : (s.fit x y).1 = .ok () ↔
    x.size = y.size ∧ 2 ≤ x.size ∧ increasing x.toList = true := by
  unfold fit
  dsimp only
  split_ifs with h₁ h₂ h₃
  · exact ⟨fun h => (nomatch h), fun h => absurd h.1 h₁⟩
  · exact ⟨fun h => (nomatch h), fun h => absurd h.2.1 (Nat.not_le.mpr h₂)⟩
  · exact ⟨fun h => (nomatch h), fun h => by rw [h.2.2] at h₃; cases h₃⟩
  · rw [Bool.not_eq_true, Bool.not_eq_false'] at h₃
    exact ⟨fun _ => ⟨of_not_not h₁, Nat.not_lt.mp h₂, h₃⟩, fun _ => rfl⟩

theorem fitted_of_fit {s : Spline α} {x y : Array α} (h : (s.fit x y).1 = .ok ()) :
    (s.fit x y).2.Fitted ∧ (s.fit x y).2.positions = x := by
  obtain ⟨hsize, h2, hinc⟩ := fit_eq_ok.mp h
  unfold fit
  dsimp only
  rw [if_neg (not_not_intro hsize), if_neg (Nat.not_lt.mpr h2), hinc, Bool.not_true,
    if_neg Bool.false_ne_true]
  exact ⟨⟨h2, hsize.symm, Array.size_ofFn⟩, rfl⟩

theorem interval_add_one_lt {x : Array α} (position : α) (h : 2 ≤ x.size) :
    interval x position + 1 < x.size := by
  have : interval x position ≤ x.size - 2 := Nat.min_le_right _ _
  omega

omit [Scalar α] in
theorem element_eq_ok {xs : Array α} {i : Nat} (h : i < xs.size) : element xs i = .ok xs[i] := by
  unfold element
  rw [Array.getElem?_eq_getElem h]

/-- A fitted spline has a value at every position between its first and its last node. -/
theorem exists_eval {s : Spline α} (hs : s.Fitted) {position : α} :
    (∃ v, s.eval position = .ok v) ↔ s.positions.getD 0 0 ≤ position ∧
      position ≤ s.positions.getD (s.positions.size - 1) 0 := by
  have hk := interval_add_one_lt position hs.two_le
  unfold eval
  dsimp only
  rw [if_neg (Nat.not_lt.mpr hs.two_le)]
  constructor
  · rintro ⟨v, h⟩
    obtain ⟨hin, -⟩ := check_eq_ok.mp h
    rwa [Bool.not_eq_true, Bool.not_eq_false', Bool.and_eq_true, decide_eq_true_iff,
      decide_eq_true_iff] at hin
  · rintro ⟨h₁, h₂⟩
    rw [decide_eq_true h₁, decide_eq_true h₂, element_eq_ok (by rw [hs.values]; omega),
      element_eq_ok (by rw [hs.values]; omega), element_eq_ok (by rw [hs.derivatives]; omega),
      element_eq_ok (by rw [hs.derivatives]; omega)]
    exact ⟨_, rfl⟩

theorem exists_evalAll {s : Spline α} (hs : s.Fitted) {dst : ResampledSegment α} {ys : Array α}
    (hy : dst.positions = .ok ys) : (∃ c, s.evalAll dst = .ok c) ↔
      ∀ y ∈ ys, s.positions.getD 0 0 ≤ y ∧ y ≤ s.positions.getD (s.positions.size - 1) 0 := by
  have hall : (∃ vs, ys.toList.mapM s.eval = .ok vs) ↔ ∀ y ∈ ys.toList, ∃ v, s.eval y = .ok v :=
    exists_mapM_eq_ok
  simp only [Array.mem_toList_iff, exists_eval hs] at hall
  unfold evalAll
  rw [hy, ok_bind, Array.mapM_eq_mapM_toList, ← hall]
  cases ys.toList.mapM s.eval with
  | error e => exact ⟨fun ⟨_, h⟩ => (nomatch h), fun ⟨_, h⟩ => (nomatch h)⟩
  | ok vs => exact ⟨fun _ => ⟨vs, rfl⟩, fun _ => ⟨_, rfl⟩⟩

end Spline

/-- Whether a segment can be resampled depends on positions only. -/
theorem exists_resample {σ : Type} [Sampled σ α] {src : RawSegment α σ} {dst : ResampledSegment α}
    {xs ys : Array α} (hx : src.positions = .ok xs) (hy : dst.positions = .ok ys) :
    (∃ c, resample src dst = .ok c) ↔ xs.size = src.values.size ∧ 2 ≤ xs.size ∧
      Spline.increasing xs.toList = true ∧
      ∀ y ∈ ys, xs.getD 0 0 ≤ y ∧ y ≤ xs.getD (xs.size - 1) 0 := by
  have hfit : (Spline.fit {} xs (src.values.map Sampled.widen)).1 = .ok () ↔ _ := Spline.fit_eq_ok
  rw [Array.size_map] at hfit
  unfold resample Spline.resample
  rw [hx]
  dsimp only
  rcases hf : Spline.fit {} xs (src.values.map Sampled.widen) with ⟨_ | _, u⟩
  · rw [hf] at hfit
    refine ⟨fun ⟨_, h⟩ => (nomatch h), fun ⟨h₁, h₂, h₃, _⟩ => ?_⟩
    cases hfit.mpr ⟨h₁, h₂, h₃⟩
  · have hok : (Spline.fit {} xs (src.values.map Sampled.widen)).1 = .ok () := by rw [hf]
    obtain ⟨hu, hpos⟩ := Spline.fitted_of_fit hok
    rw [hf] at hu hpos hfit
    obtain ⟨h₁, h₂, h₃⟩ := hfit.mp rfl
    dsimp only at hu hpos ⊢
    rw [Spline.exists_evalAll hu hy, hpos]
    exact ⟨fun h => ⟨h₁, h₂, h₃, h⟩, fun h => h.2.2.2⟩

end Seismic
