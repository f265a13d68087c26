import Seismic.Proofs.Subvolume.Partitions
import Seismic.Proofs.Volume.Box
import Seismic.Proofs.Volume.Fetch

/-!
# What a fetched subvolume holds

Fetching a cell gives it the samples of its trace and touches no other cell.  So after a
fetch every cell with data has its samples, through whichever partition they came, and as
a subvolume is nothing but the samples of its cells, it does not show how it was fetched.
-/

namespace Seismic

variable {α σ : Type} [Scalar α] [Sampled σ α]

/-- The samples of a cell are those of the volume, from its first sample on. -/
def Volume.Fetched (v : Volume α σ) (l : Layout α σ) (index : Nat) (xs : Array σ) : Prop :=
  ∃ inline crossline first, l.traceOf v.survey index = .ok (inline, crossline) ∧
    l.firstSample v.survey index = .ok first ∧
    ∀ k < xs.size, ∃ x, xs[k]? = some x ∧ v.sampleAt ⟨inline, crossline, first + k⟩ = .ok x

namespace Volume

variable {v : Volume α σ} {l : Layout α σ} {p p' : Partition α σ} {index i j : Nat}
variable {xs ys : Array σ}

theorem Fetched.unique (hx : v.Fetched l index xs) (hy : v.Fetched l index ys)
    (hsize : xs.size = ys.size) : xs = ys := by
  obtain ⟨inline, crossline, first, ht, hf, hxs⟩ := hx
  obtain ⟨inline', crossline', first', ht', hf', hys⟩ := hy
  cases ht.symm.trans ht'
  cases hf.symm.trans hf'
  apply Array.ext_getElem?
  intro k
  rcases Nat.lt_or_ge k xs.size with hk | hk
  · obtain ⟨x, hx, hvx⟩ := hxs k hk
    obtain ⟨y, hy, hvy⟩ := hys k (hsize ▸ hk)
    rw [hx, hy, Except.ok.inj (hvx.symm.trans hvy)]
  · rw [Array.getElem?_eq_none hk, Array.getElem?_eq_none (hsize ▸ hk)]

omit [Scalar α] [Sampled σ α] in
theorem getElem?_readTrace {inline crossline first n k : Nat} {b : Box} {buffer : Array σ}
    (hb : (traceBox inline crossline first n : Result α Box) = .ok b)
    (h : v.read buffer b = .ok ys) : ys.size = n ∧
      (k < n → ∃ y, ys[k]? = some y ∧ v.sampleAt ⟨inline, crossline, first + k⟩ = .ok y) := by
  obtain ⟨-, -, -, hl, hu⟩ := traceBox_eq_ok.mp hb
  have hshape : b.shape = ⟨1, 1, n⟩ := by
    unfold Box.shape
    rw [hl, hu]
    simp only [Nat.add_sub_cancel_left]
  refine ⟨?_, fun hk => ?_⟩
  · rw [(read_eq_ok h).1, hshape]
    show 1 * 1 * n = n
    omega
  · have hy := getElem?_read (i := 0) (j := 0) (k := k) h (by rw [hshape]; exact one_pos)
      (by rw [hshape]; exact one_pos) (by rw [hshape]; exact hk)
    rwa [hl, Nat.zero_mul, Nat.zero_add, Nat.zero_mul, Nat.zero_add] at hy

/-! ## Cells -/

/-- A cell that has data has its samples in a partition. -/
def Filled (v : Volume α σ) (l : Layout α σ) (p : Partition α σ) (index : Nat) : Prop :=
  l.isEmpty index = .ok false → ∃ xs, p.segment index = .ok xs ∧ v.Fetched l index xs

/-- What fetching one cell does. -/
theorem filled_fetchCell (ho : l.Ordered) (hp : p.Cut l) (h : v.fetchCell p i = .ok p') :
    v.Filled l p' i ∧ ∀ j, p.Holds j → i ≠ j → p'.segment j = p.segment j := by
  unfold fetchCell at h
  rw [hp.layout] at h
  obtain ⟨e, he, h⟩ := bind_eq_ok.mp h
  split_ifs at h with hempty
  · cases pure_eq_ok.mp h
    refine ⟨fun hdata => ?_, fun _ _ _ => rfl⟩
    cases he.symm.trans hdata
    cases hempty
  · obtain ⟨⟨inline, crossline⟩, ht, h⟩ := bind_eq_ok.mp h
    obtain ⟨first, hf, h⟩ := bind_eq_ok.mp h
    obtain ⟨xs, hx, h⟩ := bind_eq_ok.mp h
    obtain ⟨b, hb, h⟩ := bind_eq_ok.mp h
    obtain ⟨ys, hy, hw⟩ := bind_eq_ok.mp h
    have hsize : ys.size = xs.size := (getElem?_readTrace (k := 0) hb hy).1
    refine ⟨fun _ => ⟨ys, ?_, inline, crossline, first, ht, hf, fun k hk => ?_⟩,
      fun j hj hne => Partition.segment_write_of_ne ho hp hw hj hne⟩
    · exact Partition.segment_write ho hp hx hsize hw
    · exact (getElem?_readTrace hb hy).2 (hsize ▸ hk)

/-- What fetching several cells of a partition does. -/
theorem filled_fetchCells (ho : l.Ordered) (hp : p.Cut l) {is : List Nat}
    (hi : ∀ i ∈ is, p.Holds i) (h : v.fetchCells p is = (.ok (), p')) :
    p'.Cut l ∧ p'.lower = p.lower ∧ p'.upper = p.upper ∧ (∀ i ∈ is, v.Filled l p' i) ∧
      ∀ j, p.Holds j → j ∉ is → p'.segment j = p.segment j := by
  induction is generalizing p with
  | nil =>
    cases h
    exact ⟨hp, rfl, rfl, fun _ hi => absurd hi List.not_mem_nil, fun _ _ _ => rfl⟩
  | cons i is ih =>
    rw [List.forall_mem_cons] at hi
    unfold fetchCells at h
    split at h
    · cases h
    · rename_i q hq
      obtain ⟨hqcut, hql, hqu⟩ := fetchCell_cut hp hq
      obtain ⟨hfilled, hother⟩ := filled_fetchCell ho hp hq
      have hholds : ∀ j, q.Holds j ↔ p.Holds j := fun j => Partition.holds_congr hql hqu
      obtain ⟨hcut, hl, hu, hrest, hkept⟩ :=
        ih hqcut (fun j hj => (hholds j).mpr (hi.2 j hj)) h
      refine ⟨hcut, hl.trans hql, hu.trans hqu, ?_, ?_⟩
      · -- The first cell is fetched again, or what it got stays.
        rw [List.forall_mem_cons]
        refine ⟨?_, hrest⟩
        by_cases hagain : i ∈ is
        · exact hrest i hagain
        · unfold Filled
          rw [hkept i ((hholds i).mpr hi.1) hagain]
          exact hfilled
      · intro j hj hout
        rw [List.mem_cons, not_or] at hout
        rw [hkept j ((hholds j).mpr hj) hout.2, hother j hj (Ne.symm hout.1)]

/-- What fetching partitions that follow one another does. -/
theorem filled_fetchPartitions (ho : l.Ordered) {lower : Nat} {ps ps' : List (Partition α σ)}
    (ht : Tiling l lower ps) (h : v.fetchPartitions ps = (.ok (), ps')) :
    Tiling l lower ps' ∧ ∀ i, lower ≤ i → i < l.cells →
      ∃ p ∈ ps', p.Holds i ∧ v.Filled l p i := by
  induction ht generalizing ps' with
  | nil =>
    cases h
    exact ⟨.nil, fun i hl hu => by omega⟩
  | @cons p ps hcut hle tail ih =>
    unfold fetchPartitions at h
    rcases hcells : v.fetchCells p (List.range' p.lower (p.upper - p.lower)) with ⟨_ | _, q⟩
    · rw [hcells] at h
      cases h
    · rw [hcells] at h
      rcases hparts : v.fetchPartitions ps with ⟨done, qs⟩
      rw [hparts] at h
      cases h
      obtain ⟨htail, hrest⟩ := ih hparts
      have hrange : ∀ i, i ∈ List.range' p.lower (p.upper - p.lower) ↔ p.Holds i := by
        intro i
        rw [List.mem_range'_1, Nat.add_sub_cancel' hle]
        rfl
      obtain ⟨hqcut, hql, hqu, hfilled, -⟩ :=
        filled_fetchCells ho hcut (fun i hi => (hrange i).mp hi) hcells
      refine ⟨?_, fun i hl hu => ?_⟩
      · rw [← hql]
        exact .cons hqcut (by omega) (hqu ▸ htail)
      · rcases Nat.lt_or_ge i p.upper with hi | hi
        · exact ⟨q, List.mem_cons_self, (Partition.holds_congr hql hqu).mpr ⟨hl, hi⟩,
            hfilled i ((hrange i).mpr ⟨hl, hi⟩)⟩
        · obtain ⟨r, hr, hholds, hfill⟩ := hrest i hi hu
          exact ⟨r, List.mem_cons_of_mem q hr, hholds, hfill⟩

/-! ## Subvolumes -/

variable {s s' : Subvolume α σ} {size size' : Nat}

theorem fetch_eq_of_partitions {ps : List (Partition α σ)} (h : s.partitions size = .ok ps) :
    v.fetch s size = ((v.fetchPartitions ps).1, s.assemble (v.fetchPartitions ps).2) := by
  unfold fetch
  rw [h]

/-- Every cell of a subvolume that has data has its samples. -/
def Fills (v : Volume α σ) (s : Subvolume α σ) : Prop :=
  ∀ i < s.layout.cells, s.layout.isEmpty i = .ok false →
    ∃ xs, s.segment i = .ok xs ∧ v.Fetched s.layout i xs

/-- What fetching a subvolume does. -/
theorem fills_fetch (hs : s.LaidOut) (h0 : 0 < size) (h : (v.fetch s size).1 = .ok ()) :
    (v.fetch s size).2.layout = s.layout ∧ (v.fetch s size).2.LaidOut ∧
      v.Fills (v.fetch s size).2 := by
  have hparts : s.partitions size =
      .ok ((runs s.layout.cells size).map fun r => s.partition r.1 r.2) :=
    if_neg (Nat.ne_of_gt h0)
  have ht := Tiling.of_consecutive hs (runs_consecutive s.layout.cells h0)
  rw [fetch_eq_of_partitions hparts] at h ⊢
  obtain ⟨htiling, hfilled⟩ := filled_fetchPartitions hs.contiguous.ordered ht (Prod.ext h rfl)
  have hsize := htiling.joined_size
  rw [hs.contiguous.first, Nat.zero_add] at hsize
  refine ⟨rfl, ⟨hs.contiguous, hsize⟩, fun i hi he => ?_⟩
  obtain ⟨p, hp, hholds, hfill⟩ := hfilled i (Nat.zero_le i) hi
  obtain ⟨k, hk⟩ := List.mem_iff_getElem?.mp hp
  obtain ⟨xs, hxs, hfetched⟩ := hfill he
  exact ⟨xs, (htiling.segment_assemble hs.contiguous hk hholds).trans hxs, hfetched⟩

/-- The volume and the layout say what the samples of all cells are. -/
theorem Fills.unique (hs : s.LaidOut) (hs' : s'.LaidOut) (hl : s'.layout = s.layout)
    (hv : v.Fills s) (hv' : v.Fills s') : s' = s := by
  obtain ⟨l, data⟩ := s
  obtain ⟨l', data'⟩ := s'
  cases hl
  refine congrArg (Subvolume.mk l) (hs.data_eq hs' rfl fun i hi => ?_)
  have hsegment := Subvolume.segment_eq (s := ⟨l, data⟩) hi
  have hsegment' := Subvolume.segment_eq (s := ⟨l, data'⟩) hi
  have hsize := hs.size_segment hi hsegment
  have hsize' := hs'.size_segment hi hsegment'
  rw [hsegment, hsegment']
  refine congrArg Except.ok ?_
  rcases Nat.eq_zero_or_pos (l.start (i + 1) - l.start i) with hz | hpos
  · exact (Array.eq_empty_of_size_eq_zero (hsize'.trans hz)).trans
      (Array.eq_empty_of_size_eq_zero (hsize.trans hz)).symm
  · have he : l.isEmpty i = .ok false := by
      rw [Layout.isEmpty_eq (show i < l.cells from hi), beq_eq_false_iff_ne.mpr (by omega)]
    obtain ⟨xs, hxs, hfx⟩ := hv i hi he
    obtain ⟨ys, hys, hfy⟩ := hv' i hi he
    cases hsegment.symm.trans hxs
    cases hsegment'.symm.trans hys
    exact hfy.unique hfx (hsize'.trans hsize.symm)

/-- Fetching a laid-out subvolume.  Whether it succeeds and what it leaves if it does depend
neither on the size of the partitions nor on the samples there were before.  A cell with data
has then as many samples as its window is long, and they are those of the volume from the first
sample of the cell on. -/
theorem fetched_of_between {reference top bottom : Horizon α σ}
    (hl : Layout.between v.survey reference top bottom = .ok s.layout)
    (hdata : s.data.size = s.layout.total) (hc : v.survey.Counted) (h0 : 0 < size) :
    (∀ s' : Subvolume α σ, ∀ size' > 0, s'.layout = s.layout → s'.data.size = s.data.size →
      ((v.fetch s' size').1 = .ok () ↔ (v.fetch s size).1 = .ok ()) ∧
      ((v.fetch s size).1 = .ok () → (v.fetch s' size').2 = (v.fetch s size).2)) ∧
    ((v.fetch s size).1 = .ok () → ∀ i < s.layout.cells, s.layout.isEmpty i = .ok false →
      ∃ inline crossline first a n xs, s.layout.traceOf v.survey i = .ok (inline, crossline) ∧
        s.layout.firstSample v.survey i = .ok first ∧ s.layout.range i = .ok (a, a + n) ∧
        (v.fetch s size).2.segment i = .ok xs ∧ xs.size = n ∧
        ∀ k < n, ∃ x, xs[k]? = some x ∧
          v.sampleAt ⟨inline, crossline, first + k⟩ = .ok x) := by
  have hs := Subvolume.laidOut_of_between hl hdata
  have hw : ∀ i < s.layout.cells, s.layout.HasWindow i := fun i hi =>
    Layout.hasWindow_of_between hl hi
  have hiff := fetch_eq_ok hc hs.contiguous.ordered hw hs.size h0
  refine ⟨fun s' size' h0' hl' hdata' => ?_, fun h i hi he => ?_⟩
  · have hs' := Subvolume.laidOut_of_between (hl' ▸ hl) (by rw [hdata', hdata, hl'])
    have hiff' := fetch_eq_ok hc hs'.contiguous.ordered (hl' ▸ hw) hs'.size h0'
    rw [hl', ← hiff] at hiff'
    refine ⟨hiff', fun h => ?_⟩
    obtain ⟨hlay, hout, hfills⟩ := fills_fetch hs h0 h
    obtain ⟨hlay', hout', hfills'⟩ := fills_fetch hs' h0' (hiff'.mpr h)
    exact hfills.unique hout hout' (by rw [hlay', hl', hlay]) hfills'
  · obtain ⟨hlay, hout, hfills⟩ := fills_fetch hs h0 h
    have hle := hs.contiguous.ordered.start_le (Nat.le_succ i) hi
    unfold Fills at hfills
    rw [hlay] at hfills
    obtain ⟨xs, hxs, inline, crossline, first, ht, hf, hread⟩ := hfills i hi he
    have hsize := hout.size_segment (hlay ▸ hi) hxs
    rw [hlay] at hsize
    refine ⟨inline, crossline, first, s.layout.start i, xs.size, xs, ht, hf, ?_, hxs, rfl, hread⟩
    rw [hsize, Nat.add_sub_cancel' hle]
    exact Layout.range_eq hi

/-- A volume whose samples are their numbers. -/
def numbered (survey : Survey Float) : Volume Float Single :=
  ⟨survey, Array.ofFn fun k : Fin survey.shape.count => .ofInt (k : ℕ), by simp⟩

theorem fetched_of_small : ∃ s, Subvolume.between .small (.ofInts [16, 18, 20])
    (.ofInts [12, -999, 16]) (.ofInts [20, 18, 24]) = .ok s ∧
      (Survey.small : Survey Float).Counted ∧ ((numbered .small).fetch s 2).1 = .ok () ∧
      ((numbered .small).fetch s 1).2 = ((numbered .small).fetch s 2).2 ∧
      ∃ xs, ((numbered .small).fetch s 2).2.segment 2 = .ok xs := by
  obtain ⟨s, hs, hdone, he, hcells⟩ : ∃ s, Subvolume.between .small (.ofInts [16, 18, 20])
    (.ofInts [12, -999, 16]) (.ofInts [20, 18, 24]) = .ok s ∧
      ((numbered .small).fetch s 2).1 = .ok () ∧ s.layout.isEmpty 2 = .ok false ∧
        2 < s.layout.cells := by decide +kernel
  obtain ⟨hl, hdata⟩ := Subvolume.between_eq_ok hs
  have hc : (Survey.small : Survey Float).Counted := ⟨by decide, by decide, by decide⟩
  obtain ⟨hsame, hread⟩ := fetched_of_between (v := numbered .small) hl hdata hc two_pos
  obtain ⟨-, -, -, -, -, xs, -, -, -, hxs, -⟩ := hread hdone 2 hcells he
  exact ⟨s, hs, hc, hdone, (hsame s 1 one_pos rfl rfl).2 hdone, xs, hxs⟩

end Volume
end Seismic
