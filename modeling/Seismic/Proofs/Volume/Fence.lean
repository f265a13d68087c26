import Seismic.Proofs.Volume.Slice
import Seismic.Volume.Fence

/-!
# What fences hold

The traces of a fence are read together and then put back between the points that are not over
the volume.  Every trace has as many samples as the vertical axis, so in the end each point has
its own stretch, and the fence is what it would be if its points were asked for one by one.
-/

namespace Seismic

namespace Volume

variable {α σ : Type} {v : Volume α σ} {i j : Nat} {t : Array σ}

/-! ## Traces -/

theorem size_trace (h : v.trace i j = .ok t) : t.size = v.shape.sample := by
  unfold trace at h
  split_ifs at h with hin
  cases h
  have := traceStart_add_le hin.1 hin.2
  rw [Array.size_extract]
  omega

variable [Scalar α] [Sampled σ α] {position : Point α} {method : Interpolation}

theorem size_accumulate {sum : Array σ} {corner : Nat × Nat × α} (hs : sum.size = v.shape.sample)
    (h : v.accumulate sum corner = .ok t) : t.size = v.shape.sample := by
  unfold accumulate at h
  dsimp only at h
  split_ifs at h with h0
  · cases h
    exact hs
  · obtain ⟨u, hu, h⟩ := bind_eq_ok.mp h
    cases h
    rw [Array.size_zipWith, hs, size_trace hu, Nat.min_self]

theorem size_foldlM_accumulate {corners : List (Nat × Nat × α)} {sum : Array σ}
    (hs : sum.size = v.shape.sample) (h : corners.foldlM v.accumulate sum = .ok t) :
    t.size = v.shape.sample := by
  induction corners generalizing sum with
  | nil =>
    cases h
    exact hs
  | cons corner corners ih =>
    rw [List.foldlM_cons] at h
    obtain ⟨next, hnext, h⟩ := bind_eq_ok.mp h
    exact ih (size_accumulate hs hnext) h

theorem size_traceAt (h : v.traceAt position method = .ok t) : t.size = v.shape.sample := by
  unfold traceAt at h
  cases method with
  | nearest =>
    obtain ⟨i, -, h⟩ := bind_eq_ok.mp h
    obtain ⟨j, -, h⟩ := bind_eq_ok.mp h
    exact size_trace h
  | linear =>
    obtain ⟨-, h⟩ := check_eq_ok.mp h
    exact size_foldlM_accumulate Array.size_replicate h
  | cubic | angular | triangular => cases h

/-! ## Points -/

/-- The samples at a place of a fence: those of its trace, or fill values if it has none.  An
empty trace is never put in its place. -/
def samplesAt (v : Volume α σ) (method : Interpolation) (fill : σ) :
    Option (Point α) → Result α (List σ)
  | none => .ok (List.replicate v.shape.sample fill)
  | some position => do
    if v.shape.sample = 0 then throw .traceCount
    return (← v.traceAt position method).toList

/-- The samples that a fence has for a point. -/
def stretch (v : Volume α σ) (system : CoordinateSystem) (method : Interpolation)
    (fill? : Option σ) (point : Point α) : Result α (List σ) :=
  v.locate system fill?.isSome point >>= v.samplesAt method (fill?.getD Sampled.zero)

variable {fill : σ} {place : Option (Point α)} {places : List (Option (Point α))} {xs : List σ}

theorem length_samplesAt (h : v.samplesAt method fill place = .ok xs) :
    xs.length = v.shape.sample := by
  cases place with
  | none =>
    cases h
    exact List.length_replicate
  | some position =>
    obtain ⟨-, h⟩ := check_eq_ok.mp h
    obtain ⟨t, ht, h⟩ := bind_eq_ok.mp h
    cases h
    exact size_traceAt ht

omit [Scalar α] [Sampled σ α] in
/-- The next trace is what the traces that are left start with. -/
theorem join_some {n : Nat} (ts : List (Array σ)) (ht : t.size = n) (hn : n ≠ 0) :
    (join n fill (some position :: places) ((t :: ts).flatMap Array.toList) : Result α (List σ)) =
      do return t.toList ++ (← join n fill places (ts.flatMap Array.toList)) := by
  have hlen : t.toList.length = n := ht
  have hne : ((t :: ts).flatMap Array.toList).isEmpty = false := by
    rw [List.isEmpty_eq_false_iff, List.flatMap_cons]
    intro h
    rw [(List.append_eq_nil_iff.mp h).1] at hlen
    exact hn hlen.symm
  rw [join, hne, List.flatMap_cons, List.take_left' hlen, List.drop_left' hlen]
  rfl

omit [Scalar α] [Sampled σ α] in
theorem join_none {n : Nat} {out : List σ} :
    (join n fill (none :: places) xs : Result α (List σ)) = .ok out ↔
      ∃ rest, (join n fill places xs : Result α (List σ)) = .ok rest ∧
        List.replicate n fill ++ rest = out := by
  simp only [join, bind_eq_ok, pure_eq_ok]

theorem mapM_samplesAt_none {out : List σ} :
    (∃ outs, (none :: places).mapM (v.samplesAt method fill) = .ok outs ∧ outs.flatten = out) ↔
      ∃ rest, (∃ outs, places.mapM (v.samplesAt method fill) = .ok outs ∧ outs.flatten = rest) ∧
        List.replicate v.shape.sample fill ++ rest = out := by
  simp only [List.mapM_cons, bind_eq_ok, pure_eq_ok]
  constructor
  · rintro ⟨_, ⟨_, hx, outs, houts, rfl⟩, rfl⟩
    cases hx
    exact ⟨_, ⟨outs, houts, rfl⟩, rfl⟩
  · rintro ⟨_, ⟨outs, houts, rfl⟩, rfl⟩
    exact ⟨_, ⟨_, rfl, outs, houts, rfl⟩, rfl⟩

/-- Traces that were read together are put back in the places they were read for. -/
theorem join_eq_ok (hn : v.shape.sample ≠ 0) {out : List σ} :
    (∃ ts, (places.filterMap id).mapM (fun p => v.traceAt p method) = .ok ts ∧
      join v.shape.sample fill places (ts.flatMap Array.toList) = .ok out) ↔
    ∃ outs, places.mapM (v.samplesAt method fill) = .ok outs ∧ outs.flatten = out := by
  induction places generalizing out with
  | nil => simp [join, List.mapM_nil]
  | cons place places ih =>
    cases place with
    | none =>
      have hskip : (none :: places).filterMap id = places.filterMap id := rfl
      simp only [hskip, join_none, mapM_samplesAt_none, ← ih]
      constructor
      · rintro ⟨ts, hts, rest, hrest, hout⟩
        exact ⟨rest, ⟨ts, hts, hrest⟩, hout⟩
      · rintro ⟨rest, ⟨ts, hts, hrest⟩, hout⟩
        exact ⟨ts, hts, rest, hrest, hout⟩
    | some position =>
      have hnext : (some position :: places).filterMap id = position :: places.filterMap id := rfl
      simp only [hnext, bind_eq_ok, pure_eq_ok, List.mapM_cons]
      constructor
      · rintro ⟨_, ⟨t, ht, ts, hts, rfl⟩, hjoin⟩
        rw [join_some ts (size_traceAt ht) hn] at hjoin
        obtain ⟨rest, hrest, hout⟩ := bind_eq_ok.mp hjoin
        obtain ⟨outs, houts, rfl⟩ := ih.mp ⟨ts, hts, hrest⟩
        refine ⟨_, ⟨t.toList, ?_, outs, houts, rfl⟩, pure_eq_ok.mp hout⟩
        exact check_eq_ok.mpr ⟨hn, bind_eq_ok.mpr ⟨t, ht, rfl⟩⟩
      · rintro ⟨_, ⟨xs, hxs, outs, houts, rfl⟩, rfl⟩
        obtain ⟨-, hxs⟩ := check_eq_ok.mp hxs
        obtain ⟨t, ht, hxs⟩ := bind_eq_ok.mp hxs
        cases hxs
        obtain ⟨ts, hts, hrest⟩ := ih.mpr ⟨outs, houts, rfl⟩
        refine ⟨t :: ts, ⟨t, ht, ts, hts, rfl⟩, ?_⟩
        rw [join_some ts (size_traceAt ht) hn, hrest]
        rfl

/-- Without samples there is nothing to put back, so there must not be a trace. -/
theorem join_of_sampleless (hn : v.shape.sample = 0) {out : List σ} :
    join v.shape.sample fill places [] = .ok out ↔
    ∃ outs, places.mapM (v.samplesAt method fill) = .ok outs ∧ outs.flatten = out := by
  induction places generalizing out with
  | nil => simp [join, List.mapM_nil]
  | cons place places ih =>
    cases place with
    | none => simp only [join_none, mapM_samplesAt_none, ih]
    | some position =>
      have hno : v.samplesAt method fill (some position) = .error .traceCount := if_pos hn
      rw [List.mapM_cons, hno]
      constructor
      · intro h
        cases h
      · rintro ⟨_, h, -⟩
        cases h

/-! ## Reading traces together -/

/-- The traces that a fence reads before it puts them in their places. -/
def gather (v : Volume α σ) (positions : List (Point α)) (method : Interpolation) :
    Result α (Array σ) := do
  let blank := Array.replicate ((← v.tracesBytes positions.length) / 4) Sampled.zero
  if positions.isEmpty then pure blank else v.readTraces blank positions method

theorem fence_eq (v : Volume α σ) (system : CoordinateSystem) (points : List (Point α))
    (method : Interpolation) (fill? : Option σ) : v.fence system points method fill? = do
      let places ← points.mapM (v.locate system fill?.isSome)
      let traces ← v.gather (places.filterMap id) method
      let needed ← mulCounts points.length v.shape.sample
      if !Shape.fitsMemory 4 needed then throw (.fault .capacity)
      return (← join v.shape.sample (fill?.getD Sampled.zero) places traces.toList).toArray := by
  unfold fence gather
  simp only [bind_assoc]
  refine bind_congr fun places => bind_congr fun bytes => ?_
  split <;> rfl

variable {positions : List (Point α)} {traces : Array σ}

omit [Scalar α] [Sampled σ α] in
theorem tracesBytes_eq_ok {n : Nat} (h : n * v.shape.sample * 4 < countBound) :
    v.tracesBytes n = .ok (n * v.shape.sample * 4) :=
  bind_eq_ok.mpr ⟨_, mulCounts_eq_ok.mpr ⟨by omega, rfl⟩, mulCounts_eq_ok.mpr ⟨h, rfl⟩⟩

omit [Scalar α] [Sampled σ α] in
theorem tracesBytes_of_overfull {n : Nat} (h : ¬ n * v.shape.sample * 4 < countBound) :
    v.tracesBytes n = .error (.fault .overflow) := by
  unfold tracesBytes mulCounts
  by_cases hn : n * v.shape.sample < countBound
  · rw [if_pos hn, ok_bind, if_neg h]
  · rw [if_neg hn]
    rfl

/-- Traces without samples are not looked up, whatever the method. -/
theorem gather_of_sampleless (hn : v.shape.sample = 0) (positions : List (Point α))
    (method : Interpolation) : v.gather positions method = .ok #[] := by
  have hzero (m : Nat) : m * v.shape.sample = 0 := by rw [hn, Nat.mul_zero]
  have hbytes : v.tracesBytes positions.length = .ok 0 := by
    have h := tracesBytes_eq_ok (v := v) (n := positions.length) (by rw [hzero]; decide)
    rwa [hzero] at h
  have hneeded : (mulCounts positions.length v.shape.sample : Result α Nat) = .ok 0 :=
    mulCounts_eq_ok.mpr ⟨by rw [hzero]; decide, (hzero _).symm⟩
  unfold gather readTraces
  rw [hbytes, ok_bind, hneeded]
  cases positions with
  | nil => rfl
  | cons p positions => simp [ok_bind, hn]

theorem gather_eq_ok (hn : v.shape.sample ≠ 0)
    (hfits : positions.length * v.shape.sample * 4 < countBound) :
    v.gather positions method = .ok traces ↔
      ∃ ts, positions.mapM (fun p => v.traceAt p method) = .ok ts ∧
        (ts.flatMap Array.toList).toArray = traces := by
  have hneeded : (mulCounts positions.length v.shape.sample : Result α Nat) =
      .ok (positions.length * v.shape.sample) := mulCounts_eq_ok.mpr ⟨by omega, rfl⟩
  -- The buffer is as large as the traces, so nothing of it is left.
  have hall {ts : List (Array σ)} (hts : positions.mapM (fun p => v.traceAt p method) = .ok ts) :
      overwrite (Array.replicate (positions.length * v.shape.sample) Sampled.zero) 0
        (ts.flatMap Array.toList) = (ts.flatMap Array.toList).toArray := by
    refine overwrite_all ?_
    rw [Array.size_replicate, (mapM_eq_ok.mp hts).length_eq]
    refine length_flatMap_of_length fun t ht => ?_
    obtain ⟨p, -, hp⟩ := exists_of_mem_mapM hts ht
    exact size_traceAt hp
  unfold gather readTraces
  rw [tracesBytes_eq_ok hfits, ok_bind, Nat.mul_div_cancel _ (by decide), hneeded]
  cases positions with
  | nil => simp
  | cons p positions =>
    simp only [List.isEmpty_cons, Bool.false_eq_true, if_false, Array.size_replicate, ne_eq,
      not_true, hn, ok_bind]
    constructor
    · intro h
      obtain ⟨ts, hts, h⟩ := bind_eq_ok.mp h
      exact ⟨ts, hts, by rw [← hall hts]; exact pure_eq_ok.mp h⟩
    · rintro ⟨ts, hts, rfl⟩
      exact bind_eq_ok.mpr ⟨ts, hts, pure_eq_ok.mpr (hall hts)⟩

theorem exists_gather_join (hfits : places.length * v.shape.sample * 4 < countBound)
    {out : List σ} :
    (∃ traces, v.gather (places.filterMap id) method = .ok traces ∧
      join v.shape.sample fill places traces.toList = .ok out) ↔
    ∃ outs, places.mapM (v.samplesAt method fill) = .ok outs ∧ outs.flatten = out := by
  by_cases hn : v.shape.sample = 0
  · rw [gather_of_sampleless hn, ← join_of_sampleless hn]
    constructor
    · rintro ⟨_, htraces, hjoin⟩
      cases htraces
      exact hjoin
    · intro hjoin
      exact ⟨_, rfl, hjoin⟩
  · have hle : (places.filterMap id).length * v.shape.sample * 4 < countBound := by
      have hmul := Nat.mul_le_mul_right v.shape.sample (places.length_filterMap_le id)
      omega
    rw [← join_eq_ok hn]
    constructor
    · rintro ⟨traces, htraces, hjoin⟩
      obtain ⟨ts, hts, rfl⟩ := (gather_eq_ok hn hle).mp htraces
      exact ⟨ts, hts, hjoin⟩
    · rintro ⟨ts, hts, hjoin⟩
      exact ⟨_, (gather_eq_ok hn hle).mpr ⟨ts, hts, rfl⟩, hjoin⟩

/-! ## Fences -/

variable {system : CoordinateSystem} {points ps qs : List (Point α)} {fill? : Option σ}
variable {r : Array σ}

/-- A fence is made of the stretches of its points. -/
theorem fence_eq_ok : v.fence system points method fill? = .ok r ↔
    Shape.fitsMemory 4 (points.length * v.shape.sample) = true ∧
      ∃ outs, points.mapM (v.stretch system method fill?) = .ok outs ∧
        outs.flatten.toArray = r := by
  have hstretch (outs : List (List σ)) :
      points.mapM (v.stretch system method fill?) = .ok outs ↔
        ∃ places, points.mapM (v.locate system fill?.isSome) = .ok places ∧
          places.mapM (v.samplesAt method (fill?.getD Sampled.zero)) = .ok outs :=
    mapM_mapM_eq_ok.symm
  rw [fence_eq]
  constructor
  · intro h
    obtain ⟨places, hplaces, h⟩ := bind_eq_ok.mp h
    obtain ⟨traces, htraces, h⟩ := bind_eq_ok.mp h
    obtain ⟨needed, hneeded, h⟩ := bind_eq_ok.mp h
    obtain ⟨hfits, h⟩ := check_eq_ok.mp h
    obtain ⟨out, hjoin, h⟩ := bind_eq_ok.mp h
    rw [(mulCounts_eq_ok.mp hneeded).2, Bool.not_eq_true, Bool.not_eq_false'] at hfits
    have hlen := (mapM_eq_ok.mp hplaces).length_eq
    obtain ⟨outs, houts, rfl⟩ := (exists_gather_join (hlen ▸ Shape.lt_of_fitsMemory hfits)).mp
      ⟨traces, htraces, hjoin⟩
    exact ⟨hfits, outs, (hstretch outs).mpr ⟨places, hplaces, houts⟩, pure_eq_ok.mp h⟩
  · rintro ⟨hfits, outs, houts, rfl⟩
    obtain ⟨places, hplaces, houts⟩ := (hstretch outs).mp houts
    have hlen := (mapM_eq_ok.mp hplaces).length_eq
    have hlt := Shape.lt_of_fitsMemory hfits
    obtain ⟨traces, htraces, hjoin⟩ := (exists_gather_join (hlen ▸ hlt)).mpr ⟨outs, houts, rfl⟩
    refine bind_eq_ok.mpr ⟨places, hplaces, bind_eq_ok.mpr ⟨traces, htraces, bind_eq_ok.mpr
      ⟨_, mulCounts_eq_ok.mpr ⟨by omega, rfl⟩, check_eq_ok.mpr ⟨?_, bind_eq_ok.mpr
        ⟨_, hjoin, rfl⟩⟩⟩⟩⟩
    rw [hfits]
    decide

/-- A fence that memory does not hold is not refused, the computation of it breaks down. -/
theorem fence_of_overfull {outs : List (List σ)}
    (houts : points.mapM (v.stretch system method fill?) = .ok outs)
    (hfull : Shape.fitsMemory 4 (points.length * v.shape.sample) = false) :
    ∃ fault, v.fence system points method fill? = .error (.fault fault) := by
  obtain ⟨places, hplaces, houts⟩ := mapM_mapM_eq_ok.mpr houts
  have hn : v.shape.sample ≠ 0 := by
    intro h0
    rw [h0, Nat.mul_zero] at hfull
    cases hfull
  obtain ⟨ts, hts, -⟩ := (join_eq_ok hn).mpr ⟨outs, houts, rfl⟩
  rw [fence_eq, hplaces, ok_bind]
  by_cases hbytes : (places.filterMap id).length * v.shape.sample * 4 < countBound
  · rw [(gather_eq_ok hn hbytes).mpr ⟨ts, hts, rfl⟩, ok_bind]
    by_cases hneeded : points.length * v.shape.sample < countBound
    · rw [mulCounts_eq_ok.mpr ⟨hneeded, rfl⟩, ok_bind, hfull]
      exact ⟨.capacity, rfl⟩
    · rw [mulCounts, if_neg hneeded]
      exact ⟨.overflow, rfl⟩
  · unfold gather
    rw [tracesBytes_of_overfull hbytes]
    exact ⟨.overflow, rfl⟩

omit [Sampled σ α] in
theorem mapM_locate (hin : ∀ point ∈ points,
    v.survey.holdsTrace (v.survey.transformer.indexOf point system) = true) (canFill : Bool) :
    points.mapM (v.locate system canFill) =
      .ok (points.map fun point => some (v.survey.transformer.indexOf point system)) := by
  rw [mapM_eq_ok, List.forall₂_map_right_iff, List.forall₂_same]
  intro point hpoint
  exact if_pos (hin point hpoint)

/-- Over the volume a fence depends on the indices of its points alone. -/
theorem fence_eq_index (hin : ∀ point ∈ points,
    v.survey.holdsTrace (v.survey.transformer.indexOf point system) = true) :
    v.fence system points method fill? =
      v.fence .index (points.map fun point => v.survey.transformer.indexOf point system) method
        fill? := by
  have hin' : ∀ point ∈ points.map fun point => v.survey.transformer.indexOf point system,
      v.survey.holdsTrace (v.survey.transformer.indexOf point .index) = true := by
    intro point hpoint
    obtain ⟨q, hq, rfl⟩ := List.mem_map.mp hpoint
    exact hin q hq
  unfold fence
  rw [mapM_locate hin, mapM_locate hin', List.map_map, List.length_map]
  rfl

/-- Without samples there is nothing to put in the place of the first trace. -/
theorem fence_of_sampleless (hn : v.shape.sample = 0) (hne : points ≠ [])
    (hin : ∀ point ∈ points,
      v.survey.holdsTrace (v.survey.transformer.indexOf point system) = true) :
    v.fence system points method fill? = .error .traceCount := by
  have hneeded : (mulCounts points.length v.shape.sample : Result α Nat) = .ok 0 :=
    mulCounts_eq_ok.mpr ⟨by rw [hn, Nat.mul_zero]; decide, by rw [hn, Nat.mul_zero]⟩
  rw [fence_eq, mapM_locate hin, ok_bind, gather_of_sampleless hn, ok_bind, hneeded, ok_bind]
  cases points with
  | nil => exact absurd rfl hne
  | cons point points => rfl

theorem length_stretch {point : Point α} (h : v.stretch system method fill? point = .ok xs) :
    xs.length = v.shape.sample := by
  obtain ⟨place, -, h⟩ := bind_eq_ok.mp h
  exact length_samplesAt h

/-- A point that is not over the volume is accepted if there is something to fill it with. -/
theorem stretch_of_outside {point : Point α}
    (hout : v.survey.holdsTrace (v.survey.transformer.indexOf point system) = false) :
    v.stretch system method fill? point = .ok xs ↔
      ∃ fill, fill? = some fill ∧ List.replicate v.shape.sample fill = xs := by
  unfold stretch locate
  dsimp only
  rw [hout]
  cases fill? with
  | none => simp
  | some fill => simp [ok_bind, samplesAt]

/-- A trace is put in the place of a point over the volume, if it has samples. -/
theorem stretch_of_inside {point : Point α}
    (hin : v.survey.holdsTrace (v.survey.transformer.indexOf point system) = true) :
    v.stretch system method fill? point = .ok xs ↔ v.shape.sample ≠ 0 ∧
      ∃ t, v.traceAt (v.survey.transformer.indexOf point system) method = .ok t ∧
        t.toList = xs := by
  have hlocate : v.locate system fill?.isSome point =
      .ok (some (v.survey.transformer.indexOf point system)) := if_pos hin
  unfold stretch
  rw [hlocate, ok_bind]
  exact check_eq_ok.trans (by simp only [bind_eq_ok, pure_eq_ok, ne_eq])

/-- What a fence needs for a point. -/
theorem exists_stretch {point : Point α} : (∃ xs, v.stretch system method fill? point = .ok xs) ↔
    (v.survey.holdsTrace (v.survey.transformer.indexOf point system) = true →
      v.shape.sample ≠ 0 ∧
        ∃ t, v.traceAt (v.survey.transformer.indexOf point system) method = .ok t) ∧
    (v.survey.holdsTrace (v.survey.transformer.indexOf point system) = false →
      fill?.isSome = true) := by
  cases hin : v.survey.holdsTrace (v.survey.transformer.indexOf point system) with
  | true =>
    simp only [stretch_of_inside hin]
    simp
  | false =>
    simp only [stretch_of_outside hin]
    simp [Option.isSome_iff_exists]

theorem fence_append_eq_ok : v.fence system (ps ++ qs) method fill? = .ok r ↔
    Shape.fitsMemory 4 ((ps ++ qs).length * v.shape.sample) = true ∧
      ∃ a b, v.fence system ps method fill? = .ok a ∧ v.fence system qs method fill? = .ok b ∧
        a ++ b = r := by
  have hps : ps.length ≤ (ps ++ qs).length := by simp
  have hqs : qs.length ≤ (ps ++ qs).length := by simp
  simp only [fence_eq_ok, mapM_append_eq_ok]
  constructor
  · rintro ⟨hfits, _, ⟨as, has, bs, hbs, rfl⟩, rfl⟩
    exact ⟨hfits, _, _, ⟨Shape.fitsMemory_mono (Nat.mul_le_mul_right _ hps) hfits, as, has, rfl⟩,
      ⟨Shape.fitsMemory_mono (Nat.mul_le_mul_right _ hqs) hfits, bs, hbs, rfl⟩, by simp⟩
  · rintro ⟨hfits, _, _, ⟨-, as, has, rfl⟩, ⟨-, bs, hbs, rfl⟩, rfl⟩
    exact ⟨hfits, _, ⟨as, has, bs, hbs, rfl⟩, by simp⟩

/-- The stretch of a point is its fence. -/
theorem extract_fence (h : v.fence system points method fill? = .ok r) :
    r.size = points.length * v.shape.sample ∧
    ∀ k point, points[k]? = some point → ∃ xs, v.stretch system method fill? point = .ok xs ∧
      v.fence system [point] method fill? = .ok xs.toArray ∧
        r.extract (k * v.shape.sample) (k * v.shape.sample + v.shape.sample) = xs.toArray := by
  obtain ⟨hfits, outs, houts, rfl⟩ := fence_eq_ok.mp h
  have hlen : ∀ xs ∈ outs, (id xs).length = v.shape.sample := by
    intro xs hxs
    obtain ⟨point, -, hpoint⟩ := exists_of_mem_mapM houts hxs
    exact length_stretch hpoint
  have hcount := (mapM_eq_ok.mp houts).length_eq
  rw [← List.flatMap_id]
  refine ⟨?_, fun k point hk => ?_⟩
  · rw [List.size_toArray, length_flatMap_of_length hlen, hcount]
  · obtain ⟨hp, rfl⟩ := List.getElem?_eq_some_iff.mp hk
    have ho : k < outs.length := hcount ▸ hp
    have hxs : v.stretch system method fill? points[k] = .ok outs[k] :=
      (List.forall₂_iff_get.mp (mapM_eq_ok.mp houts)).2 k hp ho
    refine ⟨outs[k], hxs, fence_eq_ok.mpr ⟨?_, [outs[k]], ?_, by simp⟩, ?_⟩
    · have hone : 1 ≤ points.length := Nat.succ_le_of_lt (Nat.zero_lt_of_lt hp)
      exact Shape.fitsMemory_mono (Nat.mul_le_mul_right _ hone) hfits
    · rw [List.mapM_cons, hxs]
      rfl
    · rw [List.extract_toArray, List.extract_eq_take_drop, Nat.add_sub_cancel_left]
      exact congrArg List.toArray
        (take_drop_flatMap_of_length hlen (List.getElem?_eq_getElem ho))

end Volume

namespace Volume

variable {v : Volume Float Single}

/-- A fence along two paths, one after the other, is the fence of the first followed by that of
the second.  If memory holds it, it is given just where both are; if not, it is not refused, but
the computation breaks down.  Over the volume a fence needs samples and a trace that can be read,
elsewhere a value to fill with.  Every fence has one trace for each of its points, and it is the
fence of the point alone: the trace at the point, or fill values. -/
theorem fence_append (system : CoordinateSystem) (method : Interpolation)
    (fill? : Option Single) :
    (∀ ps qs, Shape.fitsMemory 4 ((ps ++ qs).length * v.shape.sample) = true →
      ((∃ r, v.fence system (ps ++ qs) method fill? = .ok r) ↔
        (∃ a, v.fence system ps method fill? = .ok a) ∧
          ∃ b, v.fence system qs method fill? = .ok b)) ∧
    (∀ ps qs a b, v.fence system ps method fill? = .ok a →
      v.fence system qs method fill? = .ok b →
      Shape.fitsMemory 4 ((ps ++ qs).length * v.shape.sample) = false →
        ∃ fault, v.fence system (ps ++ qs) method fill? = .error (.fault fault)) ∧
    (∀ ps qs r, v.fence system (ps ++ qs) method fill? = .ok r →
      ∃ a b, v.fence system ps method fill? = .ok a ∧ v.fence system qs method fill? = .ok b ∧
        Sample.encode r.toList = Sample.encode a.toList ++ Sample.encode b.toList) ∧
    (∀ points, (∃ r, v.fence system points method fill? = .ok r) ↔
      Shape.fitsMemory 4 (points.length * v.shape.sample) = true ∧ ∀ point ∈ points,
        (v.survey.holdsTrace (v.survey.transformer.indexOf point system) = true →
          v.shape.sample ≠ 0 ∧
            ∃ t, v.traceAt (v.survey.transformer.indexOf point system) method = .ok t) ∧
        (v.survey.holdsTrace (v.survey.transformer.indexOf point system) = false →
          fill?.isSome = true)) ∧
    ∀ points r, v.fence system points method fill? = .ok r →
      r.size = points.length * v.shape.sample ∧
      ∀ k point, points[k]? = some point → ∃ t, v.fence system [point] method fill? = .ok t ∧
        r.extract (k * v.shape.sample) (k * v.shape.sample + v.shape.sample) = t ∧
        (v.survey.holdsTrace (v.survey.transformer.indexOf point system) = true →
          v.traceAt (v.survey.transformer.indexOf point system) method = .ok t) ∧
        (v.survey.holdsTrace (v.survey.transformer.indexOf point system) = false →
          ∃ fill, fill? = some fill ∧ t = Array.replicate v.shape.sample fill) := by
  refine ⟨fun ps qs hfits => ⟨?_, ?_⟩, ?_, ?_, fun points => ?_, fun points r h => ?_⟩
  · rintro ⟨r, h⟩
    obtain ⟨-, a, b, ha, hb, -⟩ := fence_append_eq_ok.mp h
    exact ⟨⟨a, ha⟩, ⟨b, hb⟩⟩
  · rintro ⟨⟨a, ha⟩, ⟨b, hb⟩⟩
    exact ⟨_, fence_append_eq_ok.mpr ⟨hfits, a, b, ha, hb, rfl⟩⟩
  · intro ps qs a b ha hb hfull
    obtain ⟨-, as, has, -⟩ := fence_eq_ok.mp ha
    obtain ⟨-, bs, hbs, -⟩ := fence_eq_ok.mp hb
    exact fence_of_overfull (mapM_append_eq_ok.mpr ⟨as, has, bs, hbs, rfl⟩) hfull
  · intro ps qs r h
    obtain ⟨-, a, b, ha, hb, rfl⟩ := fence_append_eq_ok.mp h
    refine ⟨a, b, ha, hb, ?_⟩
    unfold Sample.encode
    rw [Array.toList_append, List.flatMap_append]
  · simp only [← exists_stretch, ← exists_mapM_eq_ok, fence_eq_ok]
    constructor
    · rintro ⟨r, hfits, outs, houts, -⟩
      exact ⟨hfits, outs, houts⟩
    · rintro ⟨hfits, outs, houts⟩
      exact ⟨_, hfits, outs, houts, rfl⟩
  · obtain ⟨hsize, hpoint⟩ := extract_fence h
    refine ⟨hsize, fun k point hk => ?_⟩
    obtain ⟨xs, hxs, hfence, hextract⟩ := hpoint k point hk
    refine ⟨_, hfence, hextract, fun hin => ?_, fun hout => ?_⟩
    · obtain ⟨-, t, ht, rfl⟩ := (stretch_of_inside hin).mp hxs
      exact ht
    · obtain ⟨fill, hfill, rfl⟩ := (stretch_of_outside hout).mp hxs
      exact ⟨fill, hfill, List.toArray_replicate _ _⟩

/-- A point over the last trace, and one that is not over the volume. -/
theorem fence_of_uneven : ∃ r,
    (numbered .uneven).fence .index ([⟨.ofInt 1, .ofInt 2⟩] ++ [⟨.ofInt 7, .ofInt 2⟩]) .nearest
      (some (.ofInt (-1))) = .ok r ∧ r.size = 8 ∧
    (numbered .uneven).traceAt ⟨.ofInt 1, .ofInt 2⟩ .nearest = .ok (r.extract 0 4) ∧
    r.extract 4 8 = Array.replicate 4 (.ofInt (-1)) := by
  obtain ⟨happend, -, -, hgiven, hpoints⟩ := fence_append (v := numbered .uneven) .index .nearest
    (some (.ofInt (-1)))
  have hin : Survey.uneven.holdsTrace (⟨.ofInt 1, .ofInt 2⟩ : Point Float) = true := by
    decide +kernel
  have hout : Survey.uneven.holdsTrace (⟨.ofInt 7, .ofInt 2⟩ : Point Float) = false := by
    decide +kernel
  obtain ⟨t, ht, -⟩ : ∃ t, (numbered .uneven).traceAt ⟨.ofInt 1, .ofInt 2⟩ .nearest = .ok t ∧
      True := by decide +kernel
  have hfirst : ∃ a, (numbered .uneven).fence .index [⟨.ofInt 1, .ofInt 2⟩] .nearest
      (some (.ofInt (-1))) = .ok a := by
    refine (hgiven _).mpr ⟨by decide, fun point hpoint => ?_⟩
    cases List.mem_singleton.mp hpoint
    exact ⟨fun _ => ⟨by decide, t, ht⟩, fun h => absurd (hin.symm.trans h) (by decide)⟩
  have hsecond : ∃ b, (numbered .uneven).fence .index [⟨.ofInt 7, .ofInt 2⟩] .nearest
      (some (.ofInt (-1))) = .ok b := by
    refine (hgiven _).mpr ⟨by decide, fun point hpoint => ?_⟩
    cases List.mem_singleton.mp hpoint
    exact ⟨fun h => absurd (hout.symm.trans h) (by decide), fun _ => rfl⟩
  obtain ⟨r, hr⟩ := (happend _ _ (by decide)).mpr ⟨hfirst, hsecond⟩
  obtain ⟨hsize, hpoint⟩ := hpoints _ r hr
  obtain ⟨-, -, rfl, hinside, -⟩ := hpoint 0 _ rfl
  obtain ⟨-, -, rfl, -, houtside⟩ := hpoint 1 _ rfl
  obtain ⟨fill, hfill, hblank⟩ := houtside hout
  cases hfill
  exact ⟨r, hr, hsize, hinside hin, hblank⟩

end Volume
end Seismic
