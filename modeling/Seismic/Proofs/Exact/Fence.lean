import Seismic.Proofs.Exact.Layout
import Seismic.Proofs.Exact.Transformer
import Seismic.Proofs.Volume.Fence

/-!
# Fences in exact arithmetic

At an integral position both ways of reading a trace give the trace that is recorded there, and
none of the others.  The index of a trace, its annotation and its world position are converted
into one another without an error, so a fence is the same in every coordinate system.
-/

namespace Seismic
namespace Exact

variable {K : Type} [Field K] [LinearOrder K] [FloorRing K] [IsStrictOrderedRing K]

/-! ## Integral positions -/

section Integral

variable {a : Axis (Exact K)} {x : Exact K} {i j n : ℕ}

theorem half_add_half : (1 / 2 : Exact K).val + (1 / 2 : Exact K).val = 1 := by
  rw [div_val, one_val, numeral_val]
  linarith

theorem holdsIndex_ofNat (hi : i < a.nsamples) : a.holdsIndex (Scalar.ofNat i) = true := by
  have hhalf := half_add_half (K := K)
  have h0 : (0 : K) ≤ i := Nat.cast_nonneg i
  have hle : (i : K) + 1 ≤ a.nsamples := by exact_mod_cast hi
  unfold Axis.holdsIndex
  rw [Bool.and_eq_true, decide_eq_true_iff, decide_eq_true_iff, le_iff, lt_iff, neg_val, sub_val,
    ofNat_val, ofNat_val]
  constructor <;> linarith

theorem nearestSample_ofNat (hi : i < a.nsamples) (hn : a.nsamples < countBound) :
    a.nearestSample (Scalar.ofNat i) = .ok i := by
  have hfloor : ⌊(i : K) + (1 / 2 : Exact K).val⌋ = (i : ℤ) := by
    have hhalf := half_add_half (K := K)
    rw [Int.floor_eq_iff, Int.cast_natCast]
    constructor <;> linarith
  have hcount : Scalar.toCount
      (Scalar.max (Scalar.floor ((Scalar.ofNat i : Exact K) + 1 / 2)) 0) = i := by
    refine toCount_of_val ?_ (hi.trans hn)
    rw [max_val, floor_val, add_val, ofNat_val, hfloor, Int.cast_natCast, zero_val]
    exact max_eq_left (Nat.cast_nonneg i)
  unfold Axis.nearestSample
  rw [if_pos (holdsIndex_ofNat hi), hcount]

omit [IsStrictOrderedRing K] in
theorem clamp_val {low high : Exact K} (h : low.val ≤ high.val) :
    (Scalar.clamp x low high).val = max low.val (min x.val high.val) := by
  unfold Scalar.clamp
  dsimp only
  split_ifs with h₁ h₂ h₂ <;> simp only [lt_iff] at h₁ h₂
  · exact absurd h h₂.not_ge
  · rw [max_eq_left (min_le_of_left_le h₁.le)]
  · rw [min_eq_right h₂.le, max_eq_right h]
  · rw [min_eq_left (not_lt.mp h₂), max_eq_right (not_lt.mp h₁)]

omit [IsStrictOrderedRing K] in
theorem clamp_of_mem {low high : Exact K} (hl : low.val ≤ x.val) (hh : x.val ≤ high.val) :
    Scalar.clamp x low high = x :=
  Exact.ext (by rw [clamp_val (hl.trans hh), min_eq_left hh, max_eq_right hl])

/-- The neighbours of a position are found by its integer part, once it is between the ends. -/
theorem bracket_of_floor {y : Exact K} (hy : Scalar.clamp x 0 (Scalar.ofNat (n - 1)) = y)
    (hfloor : ⌊y.val⌋ = (i : ℤ)) (hi : i < countBound) :
    bracket x n = ⟨i, min (i + 1) (n - 1), y - Scalar.ofNat i⟩ := by
  have hlower : Scalar.toCount (Scalar.floor y) = i :=
    toCount_of_val (by rw [floor_val, hfloor, Int.cast_natCast]) hi
  unfold bracket
  dsimp only
  rw [hy, hlower]

/-- An integral position is its own lower neighbour, so the upper one has no weight. -/
theorem bracket_ofNat (hi : i < n) (hn : n < countBound) :
    bracket (Scalar.ofNat i : Exact K) n = ⟨i, min (i + 1) (n - 1), 0⟩ := by
  have hclamp : Scalar.clamp (Scalar.ofNat i : Exact K) 0 (Scalar.ofNat (n - 1)) =
      Scalar.ofNat i := by
    refine clamp_of_mem ?_ ?_
    · rw [ofNat_val, zero_val]
      exact Nat.cast_nonneg i
    · rw [ofNat_val, ofNat_val]
      exact_mod_cast Nat.le_sub_one_of_lt hi
  have hweight : (Scalar.ofNat i - Scalar.ofNat i : Exact K) = 0 :=
    Exact.ext (by rw [sub_val, sub_self, zero_val])
  rw [bracket_of_floor hclamp (by rw [ofNat_val, Int.floor_natCast]) (hi.trans hn), hweight]

omit [IsStrictOrderedRing K] in
/-- So only the lower corner has a weight. -/
theorem corners_of_weightless {b c : Bracket (Exact K)} (hb : b.weight = 0) (hc : c.weight = 0) :
    corners b c = [(b.lower, c.lower, 1), (b.upper, c.lower, 0), (b.lower, c.upper, 0),
      (b.upper, c.upper, 0)] := by
  have hone : ((1 : Exact K) - 0) * (1 - 0) = 1 := by ext; simp
  have hleft : (0 : Exact K) * (1 - 0) = 0 := by ext; simp
  have hright : ((1 : Exact K) - 0) * 0 = 0 := by ext; simp
  have hboth : (0 : Exact K) * 0 = 0 := by ext; simp
  unfold corners
  rw [hb, hc, hone, hleft, hright, hboth]

end Integral

/-! ## Traces -/

section Traces

variable {v : Volume (Exact K) (Exact K)} {i j : ℕ} {t : Array (Exact K)}

/-- The position of a trace. -/
def position (p : ℕ × ℕ) : Point (Exact K) := ⟨Scalar.ofNat p.1, Scalar.ofNat p.2⟩

omit [IsStrictOrderedRing K] in
theorem accumulate_zero (sum : Array (Exact K)) : v.accumulate sum (i, j, 0) = .ok sum :=
  if_pos (beq_iff.mpr rfl)

omit [IsStrictOrderedRing K] in
/-- A trace with the whole weight replaces a sum that is zero. -/
theorem accumulate_one (h : v.trace i j = .ok t) :
    v.accumulate (Array.replicate v.shape.sample Sampled.zero) (i, j, 1) = .ok t := by
  have hone : ¬ ((1 : Exact K) == 0) = true := by
    rw [beq_iff, one_val, zero_val]
    exact one_ne_zero
  have hsum (x : Exact K) : Sampled.add Sampled.zero (Sampled.mul (Sampled.narrow 1) x) = x := by
    ext
    show (0 : Exact K).val + (1 : Exact K).val * x.val = x.val
    rw [zero_val, one_val, zero_add, one_mul]
  unfold Volume.accumulate
  dsimp only
  rw [if_neg hone, h, ok_bind, ← Volume.size_trace h]
  refine congrArg Except.ok (Array.ext ?_ fun k hk hk' => ?_)
  · simp
  · simp [hsum]

theorem holdsTrace_position (hi : i < v.survey.iline.nsamples) (hj : j < v.survey.xline.nsamples) :
    v.survey.holdsTrace (position (i, j)) = true := by
  unfold Survey.holdsTrace position
  rw [holdsIndex_ofNat hi, holdsIndex_ofNat hj]
  rfl

/-- At an integral position the recorded trace is read. -/
theorem traceAt_position (hc : v.survey.Counted) (hi : i < v.survey.iline.nsamples)
    (hj : j < v.survey.xline.nsamples) {method : Interpolation}
    (hm : method = .nearest ∨ method = .linear) (h : v.trace i j = .ok t) :
    v.traceAt (position (i, j)) method = .ok t := by
  have hx : (position (i, j) : Point (Exact K)).x = Scalar.ofNat i := rfl
  have hy : (position (i, j) : Point (Exact K)).y = Scalar.ofNat j := rfl
  unfold Volume.traceAt
  rcases hm with rfl | rfl
  · dsimp only
    rw [hx, hy, nearestSample_ofNat hi hc.iline, ok_bind, nearestSample_ofNat hj hc.xline, ok_bind,
      h]
  · dsimp only
    rw [holdsTrace_position hi hj, hx, hy, bracket_ofNat hi hc.iline, bracket_ofNat hj hc.xline,
      corners_of_weightless rfl rfl]
    simp only [Bool.not_true, Bool.false_eq_true, if_false, List.foldlM_cons, List.foldlM_nil,
      accumulate_one h, accumulate_zero, ok_bind]
    rfl

end Traces

/-! ## Fences -/

variable {v : Volume (Exact K) (Exact K)} {origin inlineSpacing crosslineSpacing : Point (Exact K)}
variable {pairs : List (ℕ × ℕ)} {method : Interpolation} {fill? : Option (Exact K)}
variable {r : Array (Exact K)}

/-- The numbers of traces of a volume. -/
def Inside (v : Volume (Exact K) (Exact K)) (pairs : List (ℕ × ℕ)) : Prop :=
  ∀ p ∈ pairs, p.1 < v.survey.iline.nsamples ∧ p.2 < v.survey.xline.nsamples

instance : Decidable (Inside v pairs) :=
  inferInstanceAs (Decidable (∀ p ∈ pairs,
    p.1 < v.survey.iline.nsamples ∧ p.2 < v.survey.xline.nsamples))

/-- What is given in another coordinate system gives the fence of the indices it stands for. -/
theorem fence_eq_of_indexOf (hin : Inside v pairs) {system : CoordinateSystem}
    {f : Point (Exact K) → Point (Exact K)}
    (hf : ∀ p ∈ pairs, v.survey.transformer.indexOf (f (position p)) system = position p) :
    v.fence system ((pairs.map position).map f) method fill? =
      v.fence .index (pairs.map position) method fill? := by
  have hmap : ((pairs.map position).map f).map
      (fun point => v.survey.transformer.indexOf point system) = pairs.map position := by
    rw [List.map_map, List.map_map]
    exact List.map_congr_left hf
  rw [Volume.fence_eq_index, hmap]
  intro point hpoint
  rw [List.map_map] at hpoint
  obtain ⟨p, hp, rfl⟩ := List.mem_map.mp hpoint
  have hindex : v.survey.transformer.indexOf ((f ∘ position) p) system = position p := hf p hp
  rw [hindex]
  exact holdsTrace_position (hin p hp).1 (hin p hp).2

/-- A point at a trace has the recorded samples, if there are any. -/
theorem stretch_position (hc : v.survey.Counted) (hm : method = .nearest ∨ method = .linear)
    {p : ℕ × ℕ} (hi : p.1 < v.survey.iline.nsamples) (hj : p.2 < v.survey.xline.nsamples)
    {xs : List (Exact K)} : v.stretch .index method fill? (position p) = .ok xs ↔
      v.shape.sample ≠ 0 ∧ v.trace p.1 p.2 = .ok xs.toArray := by
  obtain ⟨t, ht⟩ : ∃ t, v.trace p.1 p.2 = .ok t := ⟨_, if_pos ⟨hi, hj⟩⟩
  have hread : v.traceAt (v.survey.transformer.indexOf (position p) .index) method = .ok t :=
    traceAt_position hc hi hj hm ht
  rw [Volume.stretch_of_inside (holdsTrace_position hi hj), hread, ht]
  simp only [Except.ok.injEq, exists_eq_left']
  exact and_congr_right fun _ => ⟨fun h => by rw [← h], fun h => by rw [h]⟩

theorem exists_fence (hc : v.survey.Counted) (hin : Inside v pairs)
    (hfits : Shape.fitsMemory 4 (pairs.length * v.shape.sample) = true)
    (hm : method = .nearest ∨ method = .linear) :
    (∃ r, v.fence .index (pairs.map position) method fill? = .ok r) ↔
      pairs = [] ∨ 0 < v.shape.sample := by
  constructor
  · rintro ⟨r, hr⟩
    cases pairs with
    | nil => exact Or.inl rfl
    | cons p rest =>
      have hp := hin p List.mem_cons_self
      obtain ⟨xs, hxs, -⟩ := (Volume.extract_fence hr).2 0 (position p) rfl
      exact Or.inr (Nat.pos_of_ne_zero ((stretch_position hc hm hp.1 hp.2).mp hxs).1)
  · intro hsamples
    have hall : ∀ point ∈ pairs.map position, ∃ xs,
        v.stretch .index method fill? point = .ok xs := by
      intro point hpoint
      obtain ⟨p, hp, rfl⟩ := List.mem_map.mp hpoint
      have hn : v.shape.sample ≠ 0 := (hsamples.resolve_left (List.ne_nil_of_mem hp)).ne'
      obtain ⟨t, ht⟩ : ∃ t, v.trace p.1 p.2 = .ok t := ⟨_, if_pos (hin p hp)⟩
      exact ⟨t.toList, (stretch_position hc hm (hin p hp).1 (hin p hp).2).mpr ⟨hn, ht⟩⟩
    obtain ⟨outs, houts⟩ := exists_mapM_eq_ok.mpr hall
    exact ⟨_, Volume.fence_eq_ok.mpr ⟨by rwa [List.length_map], outs, houts, rfl⟩⟩

theorem trace_of_fence (hc : v.survey.Counted) (hin : Inside v pairs)
    (hm : method = .nearest ∨ method = .linear)
    (hr : v.fence .index (pairs.map position) method fill? = .ok r) :
    r.size = pairs.length * v.shape.sample ∧
    ∀ k p, pairs[k]? = some p → v.trace p.1 p.2 =
      .ok (r.extract (k * v.shape.sample) (k * v.shape.sample + v.shape.sample)) := by
  obtain ⟨hsize, hextract⟩ := Volume.extract_fence hr
  rw [List.length_map] at hsize
  refine ⟨hsize, fun k p hk => ?_⟩
  have hp := hin p (List.mem_of_getElem? hk)
  obtain ⟨xs, hxs, -, he⟩ := hextract k (position p) (by rw [List.getElem?_map, hk]; rfl)
  rw [he]
  exact ((stretch_position hc hm hp.1 hp.2).mp hxs).2

/-- A fence along traces of a volume, by index, by annotation or by world position, is the
recorded traces in the order of the points.  Only a volume without samples has no such fence. -/
theorem fence_of_pairs
    (ht : Transformer.ofSpacing origin inlineSpacing crosslineSpacing v.survey.iline
      v.survey.xline = .ok v.survey.transformer)
    (hi : Lined v.survey.iline) (hx : Lined v.survey.xline) (hc : v.survey.Counted)
    (hin : Inside v pairs) (hfits : Shape.fitsMemory 4 (pairs.length * v.shape.sample) = true)
    (hm : method = .nearest ∨ method = .linear) (fill? : Option (Exact K)) :
    v.fence .annotated ((pairs.map position).map v.survey.transformer.annotationOfIndex) method
        fill? = v.fence .index (pairs.map position) method fill? ∧
    v.fence .world ((pairs.map position).map v.survey.transformer.worldOfIndex) method fill? =
      v.fence .index (pairs.map position) method fill? ∧
    ((∃ r, v.fence .index (pairs.map position) method fill? = .ok r) ↔
      pairs = [] ∨ 0 < v.shape.sample) ∧
    ∀ r, v.fence .index (pairs.map position) method fill? = .ok r →
      r.size = pairs.length * v.shape.sample ∧
      ∀ k p, pairs[k]? = some p → v.trace p.1 p.2 =
        .ok (r.extract (k * v.shape.sample) (k * v.shape.sample + v.shape.sample)) := by
  refine ⟨fence_eq_of_indexOf hin fun p hp => ?_, fence_eq_of_indexOf hin fun p hp => ?_,
    exists_fence hc hin hfits hm, fun r hr => trace_of_fence hc hin hm hr⟩
  · exact indexOfAnnotation_annotationOfIndex ht hi hx (hin p hp).1 (hin p hp).2
  · exact indexOfWorld_worldOfIndex ht (position p)

end Exact

deriving instance DecidableEq for Point, Affine, Transformer

/-! ## A turned survey -/

/-- A survey that is turned, with inlines that are numbered downwards and a single crossline. -/
def Survey.turned (nsamples : Nat) : Survey (Exact ℚ) where
  iline := .ofRats 5 1 3
  xline := .ofRats 7 7 1
  sample := .ofRats 0 4 nsamples
  crs := ""
  inputFile := ""
  importedAt := none
  transformer := ⟨⟨⟨3⟩, ⟨-4⟩, ⟨10⟩, ⟨4⟩, ⟨3⟩, ⟨20⟩⟩,
    ⟨⟨3 / 25⟩, ⟨4 / 25⟩, ⟨-22 / 5⟩, ⟨-4 / 25⟩, ⟨3 / 25⟩, ⟨-4 / 5⟩⟩, ⟨5⟩, ⟨-2⟩, ⟨7⟩, ⟨0⟩⟩

/-- A volume whose samples are their numbers. -/
def Volume.counting (survey : Survey (Exact ℚ)) : Volume (Exact ℚ) (Exact ℚ) :=
  ⟨survey, Array.ofFn fun k : Fin survey.shape.count => ⟨(k : ℕ)⟩, by simp⟩

theorem Survey.ofSpacing_turned (nsamples : Nat) :
    Transformer.ofSpacing ⟨⟨10⟩, ⟨20⟩⟩ ⟨⟨3⟩, ⟨4⟩⟩ ⟨⟨-4⟩, ⟨3⟩⟩ (Survey.turned nsamples).iline
      (Survey.turned nsamples).xline = .ok (Survey.turned nsamples).transformer := by
  show Transformer.ofSpacing ⟨⟨10⟩, ⟨20⟩⟩ ⟨⟨3⟩, ⟨4⟩⟩ ⟨⟨-4⟩, ⟨3⟩⟩ (.ofRats 5 1 3) (.ofRats 7 7 1) =
    .ok (Survey.turned 0).transformer
  decide +kernel

theorem Survey.lined_turned (nsamples : Nat) :
    Exact.Lined (Survey.turned nsamples).iline ∧ Exact.Lined (Survey.turned nsamples).xline :=
  ⟨Or.inl (by show (Axis.ofRats 5 1 3).step.val ≠ 0; decide +kernel), Or.inr rfl⟩

theorem Survey.counted_turned {nsamples : Nat} (h : nsamples < countBound) :
    (Survey.turned nsamples).Counted :=
  ⟨(by decide : 3 < countBound), (by decide : 1 < countBound), h⟩

theorem Volume.fence_of_turned : ∃ r : Array (Exact ℚ),
    (counting (.turned 2)).fence .index [⟨⟨1⟩, ⟨0⟩⟩, ⟨⟨0⟩, ⟨0⟩⟩] .linear none = .ok r ∧
    (counting (.turned 2)).fence .annotated [⟨⟨3⟩, ⟨7⟩⟩, ⟨⟨5⟩, ⟨7⟩⟩] .linear none = .ok r ∧
    (counting (.turned 2)).fence .world [⟨⟨13⟩, ⟨24⟩⟩, ⟨⟨10⟩, ⟨20⟩⟩] .linear none = .ok r ∧
    (counting (.turned 2)).trace 1 0 = .ok (r.extract 0 2) := by
  have hpoints : [(1, 0), (0, 0)].map Exact.position =
      ([⟨⟨1⟩, ⟨0⟩⟩, ⟨⟨0⟩, ⟨0⟩⟩] : List (Point (Exact ℚ))) := by decide +kernel
  have hlabels : [(⟨⟨1⟩, ⟨0⟩⟩ : Point (Exact ℚ)), ⟨⟨0⟩, ⟨0⟩⟩].map
      (counting (.turned 2)).survey.transformer.annotationOfIndex =
        [⟨⟨3⟩, ⟨7⟩⟩, ⟨⟨5⟩, ⟨7⟩⟩] := by decide +kernel
  have hworlds : [(⟨⟨1⟩, ⟨0⟩⟩ : Point (Exact ℚ)), ⟨⟨0⟩, ⟨0⟩⟩].map
      (counting (.turned 2)).survey.transformer.worldOfIndex =
        [⟨⟨13⟩, ⟨24⟩⟩, ⟨⟨10⟩, ⟨20⟩⟩] := by decide +kernel
  have hin : Exact.Inside (counting (.turned 2)) [(1, 0), (0, 0)] := by decide
  have hlinear : Interpolation.linear = .nearest ∨ Interpolation.linear = .linear := Or.inr rfl
  obtain ⟨hannotated, hworld, hexists, htraces⟩ :=
    Exact.fence_of_pairs (Survey.ofSpacing_turned 2) (Survey.lined_turned 2).1
      (Survey.lined_turned 2).2 (Survey.counted_turned (by decide)) hin (by decide) hlinear none
  obtain ⟨r, hr⟩ := hexists.mpr (Or.inr (by decide))
  have htrace := (htraces r hr).2 0 (1, 0) rfl
  rw [hpoints] at hannotated hworld hr
  rw [hlabels, hr] at hannotated
  rw [hworlds, hr] at hworld
  exact ⟨r, hr, hannotated, hworld, htrace⟩

/-- Without samples the fence along a trace is not empty, it fails. -/
theorem Volume.fence_of_hollow :
    Transformer.ofSpacing ⟨⟨10⟩, ⟨20⟩⟩ ⟨⟨3⟩, ⟨4⟩⟩ ⟨⟨-4⟩, ⟨3⟩⟩ (Survey.turned 0).iline
      (Survey.turned 0).xline = .ok (Survey.turned 0).transformer ∧
    Exact.Lined (Survey.turned 0).iline ∧ Exact.Lined (Survey.turned 0).xline ∧
    Exact.Inside (counting (.turned 0)) [(1, 0)] ∧
    (counting (.turned 0)).trace 1 0 = .ok #[] ∧
    (counting (.turned 0)).fence .index [⟨⟨1⟩, ⟨0⟩⟩] .nearest none = .error .traceCount := by
  have hin : ∀ point ∈ [(⟨⟨1⟩, ⟨0⟩⟩ : Point (Exact ℚ))],
      (Survey.turned 0).holdsTrace ((Survey.turned 0).transformer.indexOf point .index) = true := by
    decide +kernel
  refine ⟨Survey.ofSpacing_turned 0, (Survey.lined_turned 0).1, (Survey.lined_turned 0).2,
    by decide, by decide +kernel, ?_⟩
  exact fence_of_sampleless rfl (List.cons_ne_nil _ _) hin

end Seismic
