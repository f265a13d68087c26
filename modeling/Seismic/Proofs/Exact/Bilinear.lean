import Mathlib.Algebra.BigOperators.Ring.List
import Mathlib.Algebra.Order.BigOperators.Group.List
import Mathlib.Tactic.LinearCombination
import Seismic.Proofs.Exact.Fence

/-!
# Bilinear means in exact arithmetic

A trace between recorded traces is a mean of the corners around its position.  Along each axis the
position, brought into the range of the indices, is the mean of the two indices around it, so the
four products of weights sum to one and have the position as their mean.  At the last line of an
axis, and on an axis with a single line, both indices are the same, but then the upper one has no
weight.  The corners that are read are therefore different traces of the volume, with positive
weights.
-/

namespace Seismic
namespace Exact

variable {K : Type} [Field K]

/-! ## Weighted means -/

/-- The sum of a quantity over traces with weights. -/
def weighted (ws : List (ℕ × ℕ × Exact K)) (f : ℕ → ℕ → K) : K :=
  (ws.map fun w => w.2.2.val * f w.1 w.2.1).sum

section Weighted

variable {ws : List (ℕ × ℕ × Exact K)} {f : ℕ → ℕ → K}

@[simp] theorem weighted_nil (f : ℕ → ℕ → K) : weighted [] f = 0 := rfl

@[simp] theorem weighted_cons (w : ℕ × ℕ × Exact K) (ws : List (ℕ × ℕ × Exact K)) (f : ℕ → ℕ → K) :
    weighted (w :: ws) f = w.2.2.val * f w.1 w.2.1 + weighted ws f := List.sum_cons

theorem weighted_congr {g : ℕ → ℕ → K} (h : ∀ w ∈ ws, f w.1 w.2.1 = g w.1 w.2.1) :
    weighted ws f = weighted ws g :=
  congrArg List.sum (List.map_congr_left fun w hw => by rw [h w hw])

theorem weighted_affine (ws : List (ℕ × ℕ × Exact K)) (a b c : K) :
    weighted ws (fun i j => a + b * i + c * j) = a * weighted ws (fun _ _ => 1) +
      b * weighted ws (fun i _ => i) + c * weighted ws (fun _ j => j) := by
  induction ws with
  | nil => simp
  | cons w ws ih =>
    simp only [weighted_cons, ih]
    ring

/-- Traces without weight can be left out. -/
theorem weighted_filter [DecidableEq K] (ws : List (ℕ × ℕ × Exact K)) (f : ℕ → ℕ → K) :
    weighted (ws.filter fun w => w.2.2.val ≠ 0) f = weighted ws f := by
  induction ws with
  | nil => rfl
  | cons w ws ih =>
    by_cases h : w.2.2.val = 0
    · rw [List.filter_cons_of_neg (by simp [h]), ih, weighted_cons, h, zero_mul, zero_add]
    · rw [List.filter_cons_of_pos (by simp [h]), weighted_cons, weighted_cons, ih]

end Weighted

variable [LinearOrder K]

/-- Different traces among `m` inlines and `n` crosslines, with positive weights that sum to one and
with the mean position `(x, y)`. -/
structure IsMean (m n : ℕ) (x y : K) (ws : List (ℕ × ℕ × Exact K)) : Prop where
  inside : ∀ w ∈ ws, w.1 < m ∧ w.2.1 < n
  distinct : (ws.map fun w => (w.1, w.2.1)).Nodup
  pos : ∀ w ∈ ws, 0 < w.2.2.val
  total : weighted ws (fun _ _ => 1) = 1
  inline : weighted ws (fun i _ => i) = x
  crossline : weighted ws (fun _ j => j) = y

namespace IsMean

variable {m n : ℕ} {x y : K} {ws : List (ℕ × ℕ × Exact K)}

/-- A quantity that is affine in the position is its own mean. -/
theorem affine (hm : IsMean m n x y ws) {f : ℕ → ℕ → K} {a b c : K}
    (hf : ∀ i j, i < m → j < n → f i j = a + b * i + c * j) :
    weighted ws f = a + b * x + c * y := by
  have hcongr : weighted ws f = weighted ws fun i j => a + b * i + c * j :=
    weighted_congr fun w hw => hf _ _ (hm.inside w hw).1 (hm.inside w hw).2
  rw [hcongr, weighted_affine, hm.total, hm.inline, hm.crossline, mul_one]

/-- A mean is not below all of its values, nor above all of them. -/
theorem between [IsStrictOrderedRing K] (hm : IsMean m n x y ws) (f : ℕ → ℕ → K) :
    (∃ w ∈ ws, f w.1 w.2.1 ≤ weighted ws f) ∧ ∃ w ∈ ws, weighted ws f ≤ f w.1 w.2.1 := by
  have hne : ws ≠ [] := by
    rintro rfl
    exact zero_ne_one hm.total
  have hmean : weighted ws (fun _ _ => weighted ws f) = weighted ws f := by
    rw [hm.affine (a := weighted ws f) (b := 0) (c := 0) (by simp)]
    simp
  constructor
  · obtain ⟨w, hw, hle⟩ := List.exists_le_of_sum_le hne _ _ hmean.ge
    exact ⟨w, hw, le_of_mul_le_mul_left hle (hm.pos w hw)⟩
  · obtain ⟨w, hw, hle⟩ := List.exists_le_of_sum_le hne _ _ hmean.le
    exact ⟨w, hw, le_of_mul_le_mul_left hle (hm.pos w hw)⟩

end IsMean

/-! ## Brackets -/

/-- A position brought into the range of `n` indices. -/
def confined (x : Exact K) (n : ℕ) : K := max 0 (min x.val ((n : K) - 1))

/-- Two of `n` indices, of which a position is the mean. -/
structure Surrounds (b : Bracket (Exact K)) (n : ℕ) (x : K) : Prop where
  lower_lt : b.lower < n
  upper_lt : b.upper < n
  nonneg : 0 ≤ b.weight.val
  lt_one : b.weight.val < 1
  mean : (1 - b.weight.val) * b.lower + b.weight.val * b.upper = x
  apart : b.weight.val ≠ 0 → b.lower ≠ b.upper

variable [FloorRing K] [IsStrictOrderedRing K]

theorem surrounds_bracket (x : Exact K) {n : ℕ} (h0 : 0 < n) (hn : n < countBound) :
    Surrounds (bracket x n) n (confined x n) := by
  obtain ⟨y, hy⟩ : ∃ y, Scalar.clamp x 0 (Scalar.ofNat (n - 1)) = y := ⟨_, rfl⟩
  have hlast : ((n - 1 : ℕ) : K) = (n : K) - 1 := by rw [Nat.cast_sub h0, Nat.cast_one]
  have hlast0 : (0 : K) ≤ (n : K) - 1 := hlast ▸ Nat.cast_nonneg _
  have hyv : y.val = confined x n := by
    rw [← hy, clamp_val (by rw [zero_val, ofNat_val, hlast]; exact hlast0), zero_val, ofNat_val,
      hlast, confined]
  have hy0 : 0 ≤ y.val := hyv ▸ le_max_left _ _
  have hyn : y.val ≤ (n : K) - 1 := hyv ▸ max_le hlast0 (min_le_right _ _)
  obtain ⟨k, hk⟩ := Int.eq_ofNat_of_zero_le (Int.floor_nonneg.mpr hy0)
  have hle : (k : K) ≤ y.val := by
    have := Int.floor_le y.val
    rwa [hk, Int.cast_natCast] at this
  have hlt : y.val < k + 1 := by
    have := Int.lt_floor_add_one y.val
    rwa [hk, Int.cast_natCast] at this
  have hkn : k < n := by
    have : (k : K) < n := by linarith
    exact_mod_cast this
  have hweight : (y - Scalar.ofNat k).val = y.val - k := by rw [sub_val, ofNat_val]
  -- At the last index the position cannot be beyond it, so nothing is left for the upper one.
  have hend : n ≤ k + 1 → y.val = k := by
    intro h
    have hcast : (n : K) ≤ k + 1 := by exact_mod_cast h
    exact le_antisymm (by linarith) hle
  rw [bracket_of_floor hy hk (hkn.trans hn)]
  refine ⟨hkn, by dsimp only; omega, ?_, ?_, ?_, ?_⟩ <;> dsimp only <;> rw [hweight]
  · exact sub_nonneg.mpr hle
  · linarith
  · rw [← hyv]
    by_cases h : n ≤ k + 1
    · rw [hend h, min_eq_right (by omega), sub_self]
      ring
    · rw [min_eq_left (by omega)]
      push_cast
      ring
  · intro hne heq
    exact hne (sub_eq_zero.mpr (hend (by omega)))

/-! ## Corners -/

section Corners

variable {b c : Bracket (Exact K)} {m n : ℕ} {x y : K}

/-- The corners of a position that are read. -/
def readCorners (b c : Bracket (Exact K)) : List (ℕ × ℕ × Exact K) :=
  (corners b c).filter fun w => w.2.2.val ≠ 0

omit [IsStrictOrderedRing K] in
theorem mem_corners {w : ℕ × ℕ × Exact K} (hw : w ∈ corners b c) :
    w = (b.lower, c.lower, (1 - b.weight) * (1 - c.weight)) ∨
      w = (b.upper, c.lower, b.weight * (1 - c.weight)) ∨
      w = (b.lower, c.upper, (1 - b.weight) * c.weight) ∨
      w = (b.upper, c.upper, b.weight * c.weight) := by
  simpa [corners] using hw

omit [IsStrictOrderedRing K] in
theorem inside_of_mem_corners (hb : Surrounds b m x) (hc : Surrounds c n y) {w : ℕ × ℕ × Exact K}
    (hw : w ∈ corners b c) : w.1 < m ∧ w.2.1 < n := by
  rcases mem_corners hw with rfl | rfl | rfl | rfl
  · exact ⟨hb.lower_lt, hc.lower_lt⟩
  · exact ⟨hb.upper_lt, hc.lower_lt⟩
  · exact ⟨hb.lower_lt, hc.upper_lt⟩
  · exact ⟨hb.upper_lt, hc.upper_lt⟩

theorem isMean_readCorners (hb : Surrounds b m x) (hc : Surrounds c n y) :
    IsMean m n x y (readCorners b c) := by
  have hb1 : 0 ≤ (1 - b.weight).val := by
    rw [sub_val, one_val]
    exact sub_nonneg.mpr hb.lt_one.le
  have hc1 : 0 ≤ (1 - c.weight).val := by
    rw [sub_val, one_val]
    exact sub_nonneg.mpr hc.lt_one.le
  refine ⟨fun w hw => inside_of_mem_corners hb hc (List.mem_filter.mp hw).1, ?_, fun w hw => ?_, ?_,
    ?_, ?_⟩
  · -- Two corners with weights differ on an axis where the upper index has a weight.
    have hi := hb.apart
    have hj := hc.apart
    rw [readCorners, List.Nodup, List.pairwise_map, List.pairwise_filter]
    simp only [corners, List.pairwise_cons, List.mem_cons, List.not_mem_nil, or_false,
      forall_eq_or_imp, forall_eq, decide_eq_true_iff, mul_val, sub_val, one_val, ne_eq,
      mul_eq_zero, not_or, Prod.mk.injEq, not_and]
    grind
  · have hne : w.2.2.val ≠ 0 := by simpa using (List.mem_filter.mp hw).2
    refine lt_of_le_of_ne ?_ hne.symm
    rcases mem_corners (List.mem_filter.mp hw).1 with rfl | rfl | rfl | rfl
    · exact mul_nonneg hb1 hc1
    · exact mul_nonneg hb.nonneg hc1
    · exact mul_nonneg hb1 hc.nonneg
    · exact mul_nonneg hb.nonneg hc.nonneg
  · rw [readCorners, weighted_filter]
    simp [corners]
    ring
  · rw [readCorners, weighted_filter, ← hb.mean]
    simp [corners]
    ring
  · rw [readCorners, weighted_filter, ← hc.mean]
    simp [corners]
    ring

end Corners

/-! ## Traces -/

section Traces

variable {v : Volume (Exact K) (Exact K)} {p : Point (Exact K)} {i j k : ℕ}

/-- The amplitude at an index of a volume, zero outside the volume. -/
def amplitude (v : Volume (Exact K) (Exact K)) (k i j : ℕ) : K :=
  match v.sampleAt ⟨i, j, k⟩ with
  | .ok s => s.val
  | .error _ => 0

omit [LinearOrder K] [FloorRing K] [IsStrictOrderedRing K] in
theorem getElem?_trace {t : Array (Exact K)} (h : v.trace i j = .ok t) (hk : k < v.shape.sample) :
    t[k]? = some ⟨amplitude v k i j⟩ := by
  unfold Volume.trace at h
  split_ifs at h with hin
  cases h
  have hend := Volume.traceStart_add_le hin.1 hin.2
  have hplace : v.traceStart i j + k < v.values.size := by omega
  have hsample : v.sampleAt ⟨i, j, k⟩ = .ok v.values[v.traceStart i j + k] := by
    unfold Volume.sampleAt
    rw [if_pos ⟨hin.1, hin.2, hk⟩, Array.getElem?_eq_getElem hplace]
  rw [Array.getElem?_extract, if_pos (by omega), Array.getElem?_eq_getElem hplace, amplitude,
    hsample]

omit [IsStrictOrderedRing K] in
/-- One more trace is added with its weight.  Without a weight it is not read, and adds nothing. -/
theorem accumulate_spec {w : ℕ × ℕ × Exact K}
    (hw : w.1 < v.survey.iline.nsamples ∧ w.2.1 < v.survey.xline.nsamples) {sum : Array (Exact K)}
    (hsize : sum.size = v.shape.sample) :
    ∃ out, v.accumulate sum w = .ok out ∧ out.size = v.shape.sample ∧
      ∀ k z, k < v.shape.sample → sum[k]? = some ⟨z⟩ →
        out[k]? = some ⟨z + w.2.2.val * amplitude v k w.1 w.2.1⟩ := by
  obtain ⟨t, ht⟩ : ∃ t, v.trace w.1 w.2.1 = .ok t := ⟨_, if_pos hw⟩
  unfold Volume.accumulate
  dsimp only
  by_cases h : w.2.2.val = 0
  · rw [if_pos (beq_iff.mpr (h.trans zero_val.symm))]
    exact ⟨sum, rfl, hsize, fun k z _ hz => by rw [h, zero_mul, add_zero]; exact hz⟩
  · rw [if_neg fun hb => h ((beq_iff.mp hb).trans zero_val), ht]
    refine ⟨_, rfl, ?_, fun k z hk hz => ?_⟩
    · rw [Array.size_zipWith, hsize, Volume.size_trace ht, min_self]
    · rw [Array.getElem?_zipWith, hz, getElem?_trace ht hk]
      rfl

omit [IsStrictOrderedRing K] in
theorem foldlM_accumulate {ws : List (ℕ × ℕ × Exact K)}
    (hin : ∀ w ∈ ws, w.1 < v.survey.iline.nsamples ∧ w.2.1 < v.survey.xline.nsamples)
    {sum : Array (Exact K)} (hsize : sum.size = v.shape.sample) :
    ∃ out, ws.foldlM v.accumulate sum = .ok out ∧ out.size = v.shape.sample ∧
      ∀ k z, k < v.shape.sample → sum[k]? = some ⟨z⟩ →
        out[k]? = some ⟨z + weighted ws (amplitude v k)⟩ := by
  induction ws generalizing sum with
  | nil => exact ⟨sum, rfl, hsize, fun k z _ hz => by rw [weighted_nil, add_zero]; exact hz⟩
  | cons w ws ih =>
    rw [List.forall_mem_cons] at hin
    obtain ⟨next, hnext, hnsize, hget⟩ := accumulate_spec hin.1 hsize
    obtain ⟨out, hout, hosize, hget'⟩ := ih hin.2 hnsize
    refine ⟨out, by rw [List.foldlM_cons, hnext, ok_bind, hout], hosize, fun k z hk hz => ?_⟩
    rw [hget' k _ hk (hget k z hk hz), weighted_cons, add_assoc]

theorem pos_of_holdsIndex {a : Axis (Exact K)} {x : Exact K} (h : a.holdsIndex x = true) :
    0 < a.nsamples := by
  unfold Axis.holdsIndex at h
  rw [Bool.and_eq_true, decide_eq_true_iff, decide_eq_true_iff, le_iff, lt_iff, neg_val, sub_val,
    ofNat_val] at h
  have : (0 : K) < a.nsamples := by linarith [h.1, h.2]
  exact_mod_cast this

/-- The traces at the corners of a position over the volume, by which it is read. -/
def around (s : Survey (Exact K)) (p : Point (Exact K)) : List (ℕ × ℕ × Exact K) :=
  readCorners (bracket p.x s.iline.nsamples) (bracket p.y s.xline.nsamples)

theorem surrounds_of_holdsTrace {s : Survey (Exact K)} (hc : s.Counted)
    (hp : s.holdsTrace p = true) :
    Surrounds (bracket p.x s.iline.nsamples) s.iline.nsamples (confined p.x s.iline.nsamples) ∧
      Surrounds (bracket p.y s.xline.nsamples) s.xline.nsamples
        (confined p.y s.xline.nsamples) := by
  rw [Survey.holdsTrace, Bool.and_eq_true] at hp
  exact ⟨surrounds_bracket p.x (pos_of_holdsIndex hp.1) hc.iline,
    surrounds_bracket p.y (pos_of_holdsIndex hp.2) hc.xline⟩

theorem traceAt_linear (hc : v.survey.Counted) (hp : v.survey.holdsTrace p = true) :
    ∃ r, v.traceAt p .linear = .ok r ∧ r.size = v.shape.sample ∧
      ∀ k, k < v.shape.sample → r[k]? = some ⟨weighted (around v.survey p) (amplitude v k)⟩ := by
  obtain ⟨hx, hy⟩ := surrounds_of_holdsTrace hc hp
  have hzeros : (Array.replicate v.shape.sample (Sampled.zero : Exact K)).size = v.shape.sample :=
    Array.size_replicate
  obtain ⟨r, hr, hsize, hget⟩ :=
    foldlM_accumulate (v := v) (fun w hw => inside_of_mem_corners hx hy hw) hzeros
  refine ⟨r, ?_, hsize, fun k hk => ?_⟩
  · unfold Volume.traceAt
    dsimp only
    rw [hp]
    exact hr
  · rw [hget k 0 hk ?_, zero_add, around, readCorners, weighted_filter]
    rw [Array.getElem?_replicate, if_pos hk]
    exact congrArg some (Exact.ext zero_val)

omit [IsStrictOrderedRing K] in
/-- One trace is read as it is, into a buffer of its size. -/
theorem readTraces_single (hc : v.survey.Counted) {r buffer : Array (Exact K)}
    {method : Interpolation} (h : v.traceAt p method = .ok r) (hsize : r.size = v.shape.sample)
    (hbuffer : buffer.size = v.shape.sample) : v.readTraces buffer [p] method = .ok r := by
  have hneeded : (mulCounts [p].length v.shape.sample : Result (Exact K) ℕ) = .ok buffer.size :=
    mulCounts_eq_ok.mpr ⟨by rw [List.length_singleton, one_mul]; exact hc.sample, by simp [hbuffer]⟩
  have hall : overwrite buffer 0 r.toList = r :=
    overwrite_all (by rw [Array.length_toList, hsize, hbuffer])
  unfold Volume.readTraces
  rw [hneeded, ok_bind]
  by_cases hn : v.shape.sample = 0
  · have hempty : buffer = r := by
      rw [Array.eq_empty_of_size_eq_zero (hbuffer.trans hn),
        Array.eq_empty_of_size_eq_zero (hsize.trans hn)]
    simp [hn, hempty]
  · simp [hn, h, hall]

/-- Over a volume a trace is read as a mean of at most four of its traces, at the position itself
or at the nearest one within the range of the indices.  So every sample lies between two of theirs,
amplitudes that are affine in the position are kept, and where a trace was recorded the mean is the
nearest trace. -/
theorem linear_of_holds (hc : v.survey.Counted) (hp : v.survey.holdsTrace p = true) :
    ∃ ws r, v.traceAt p .linear = .ok r ∧
      (∀ buffer : Array (Exact K), buffer.size = v.shape.sample →
        v.readTraces buffer [p] .linear = .ok r) ∧
      ws.length ≤ 4 ∧
      IsMean v.survey.iline.nsamples v.survey.xline.nsamples
        (confined p.x v.survey.iline.nsamples) (confined p.y v.survey.xline.nsamples) ws ∧
      r.size = v.shape.sample ∧
      (∀ k, k < v.shape.sample → ∃ z, r[k]? = some ⟨z⟩ ∧ z = weighted ws (amplitude v k) ∧
        (∃ w ∈ ws, amplitude v k w.1 w.2.1 ≤ z) ∧ (∃ w ∈ ws, z ≤ amplitude v k w.1 w.2.1) ∧
        ∀ a b c : K, (∀ i j, i < v.survey.iline.nsamples → j < v.survey.xline.nsamples →
            amplitude v k i j = a + b * i + c * j) →
          z = a + b * confined p.x v.survey.iline.nsamples +
            c * confined p.y v.survey.xline.nsamples) ∧
      ∀ i j, i < v.survey.iline.nsamples → j < v.survey.xline.nsamples → p = position (i, j) →
        v.traceAt p .nearest = .ok r := by
  obtain ⟨hx, hy⟩ := surrounds_of_holdsTrace hc hp
  obtain ⟨r, hr, hsize, hget⟩ := traceAt_linear hc hp
  have hmean := isMean_readCorners hx hy
  refine ⟨around v.survey p, r, hr, fun buffer => readTraces_single hc hr hsize,
    List.length_filter_le _ _, hmean, hsize, fun k hk => ?_, ?_⟩
  · obtain ⟨hle, hge⟩ := hmean.between (amplitude v k)
    exact ⟨_, hget k hk, rfl, hle, hge, fun a b c hf => hmean.affine hf⟩
  · rintro i j hi hj rfl
    obtain ⟨t, ht⟩ : ∃ t, v.trace i j = .ok t := ⟨_, if_pos ⟨hi, hj⟩⟩
    rw [traceAt_position hc hi hj (Or.inl rfl) ht]
    exact (traceAt_position hc hi hj (Or.inr rfl) ht).symm.trans hr

end Traces

end Exact

/-- Past the only crossline the mean of two inlines is read. -/
theorem Volume.linear_of_turned : (Survey.turned 2).Counted ∧
    (Survey.turned 2).holdsTrace ⟨⟨1 / 2⟩, ⟨1 / 4⟩⟩ = true ∧
    ∃ r, (counting (.turned 2)).traceAt ⟨⟨1 / 2⟩, ⟨1 / 4⟩⟩ .linear = .ok r ∧
      r[1]? = some ⟨2⟩ := by
  have hcounted : (Survey.turned 2).Counted := Survey.counted_turned (by decide)
  have hholds : (Survey.turned 2).holdsTrace ⟨⟨1 / 2⟩, ⟨1 / 4⟩⟩ = true := by decide +kernel
  have haffine : ∀ i < 3, ∀ j < 1,
      Exact.amplitude (counting (.turned 2)) 1 i j = (1 : ℚ) + 2 * i + 0 * j := by decide +kernel
  have hvalue : 1 + 2 * Exact.confined (⟨1 / 2⟩ : Exact ℚ) 3 +
      0 * Exact.confined (⟨1 / 4⟩ : Exact ℚ) 1 = 2 := by decide +kernel
  obtain ⟨_, r, hr, -, -, -, -, hget, -⟩ :=
    Exact.linear_of_holds (v := counting (.turned 2)) hcounted hholds
  obtain ⟨z, hz, -, -, -, hmean⟩ := hget 1 (by decide)
  have hz2 : z = 2 := (hmean 1 2 0 fun i j hi hj => haffine i hi j hj).trans hvalue
  exact ⟨hcounted, hholds, r, hr, by rw [hz, hz2]⟩

end Seismic
