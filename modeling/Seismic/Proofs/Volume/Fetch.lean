import Seismic.Proofs.Lines
import Seismic.Proofs.Subvolume.Attributes
import Seismic.Proofs.Subvolume.Tiling
import Seismic.Proofs.Vertical
import Seismic.Proofs.Volume.Read

/-!
# Fetching a laid-out subvolume

A subvolume is fetched if, and only if, every cell with data has its trace in the volume and
its window on the sample axis.  The layout checks the window by positions, with a tolerance
that is a distance, so this follows if a step is longer than two tolerances.
-/

namespace Seismic

variable {α σ : Type}

/-! ## Cells -/

variable [Scalar α] [Sampled σ α]

/-- The trace of a cell is in the volume, and its window is on the sample axis. -/
def Layout.Fetchable (l : Layout α σ) (survey : Survey α) (index : Nat) : Prop :=
  ∃ inline crossline first start n, l.traceOf survey index = .ok (inline, crossline) ∧
    l.firstSample survey index = .ok first ∧ l.range index = .ok (start, start + n) ∧
    inline < survey.iline.nsamples ∧ crossline < survey.xline.nsamples ∧
    first + n ≤ survey.sample.nsamples

/-- The window of a cell that exists: it is empty, or it is known not to be. -/
def Layout.HasWindow (l : Layout α σ) (index : Nat) : Prop :=
  ∃ start n, l.range index = .ok (start, start + n) ∧
    (l.isEmpty index = .ok true ∨ l.isEmpty index = .ok false ∧ 0 < n)

theorem Layout.hasWindow_of_between {survey : Survey α} {reference top bottom : Horizon α σ}
    {l : Layout α σ} {index : Nat} (h : between survey reference top bottom = .ok l)
    (hi : index < l.cells) : l.HasWindow index := by
  have hle : l.start index ≤ l.start (index + 1) :=
    (ordered_of_between h).start_le (Nat.le_succ index) hi
  refine ⟨l.start index, l.start (index + 1) - l.start index, ?_, ?_⟩
  · rw [Nat.add_sub_cancel' hle]
    exact range_eq hi
  · rw [isEmpty_eq hi]
    rcases Nat.eq_or_lt_of_le hle with heq | hlt
    · rw [heq, beq_self_eq_true]
      exact Or.inl rfl
    · rw [beq_eq_false_iff_ne.mpr (Nat.ne_of_lt hlt)]
      exact Or.inr ⟨rfl, Nat.sub_pos_of_lt hlt⟩

namespace Volume

variable {v : Volume α σ} {l : Layout α σ} {p p' : Partition α σ} {index : Nat}

theorem fetchCell_cut (hp : p.Cut l) (h : v.fetchCell p index = .ok p') :
    p'.Cut l ∧ p'.lower = p.lower ∧ p'.upper = p.upper := by
  unfold fetchCell at h
  obtain ⟨e, -, h⟩ := bind_eq_ok.mp h
  split_ifs at h
  · cases pure_eq_ok.mp h
    exact ⟨hp, rfl, rfl⟩
  · obtain ⟨⟨i, j⟩, -, h⟩ := bind_eq_ok.mp h
    obtain ⟨first, -, h⟩ := bind_eq_ok.mp h
    obtain ⟨segment, -, h⟩ := bind_eq_ok.mp h
    obtain ⟨box, -, h⟩ := bind_eq_ok.mp h
    obtain ⟨xs, -, h⟩ := bind_eq_ok.mp h
    obtain ⟨-, hp', hl, hu, -⟩ := Partition.write_eq_ok hp h
    exact ⟨hp', hl, hu⟩

theorem exists_fetchCell (hc : v.survey.Counted) (ho : l.Ordered) (hp : p.Cut l)
    (hi : p.Holds index) (hw : l.HasWindow index) :
    (∃ p', v.fetchCell p index = .ok p') ↔
      (l.isEmpty index = .ok false → l.Fetchable v.survey index) := by
  obtain ⟨start, n, hr, hempty⟩ := hw
  have hlay := hp.layout
  obtain ⟨xs, hxs, hsize⟩ := Partition.exists_segment ho hp hi hr
  unfold fetchCell
  rw [hlay]
  rcases hempty with he | ⟨he, h0⟩
  · rw [he, ok_bind, if_pos rfl]
    exact ⟨fun _ h => (nomatch h), fun _ => ⟨p, rfl⟩⟩
  · rw [he, ok_bind, if_neg Bool.false_ne_true]
    have hread : ∀ i j f, (∃ ys, (do v.read xs (← traceBox i j f xs.size)) = .ok ys) ↔ _ :=
      fun i j f => exists_readTrace hc (hsize ▸ h0)
    rw [hsize] at hread
    constructor
    · rintro ⟨p', h⟩ -
      obtain ⟨⟨i, j⟩, ht, h⟩ := bind_eq_ok.mp h
      obtain ⟨f, hf, h⟩ := bind_eq_ok.mp h
      obtain ⟨xs', hxs', h⟩ := bind_eq_ok.mp h
      cases hxs.symm.trans hxs'
      obtain ⟨b, hb, h⟩ := bind_eq_ok.mp h
      obtain ⟨ys, hys, -⟩ := bind_eq_ok.mp h
      rw [hsize] at hb
      obtain ⟨h₁, h₂, h₃⟩ := (hread i j f).mp ⟨ys, bind_eq_ok.mpr ⟨b, hb, hys⟩⟩
      exact ⟨i, j, f, start, n, ht, hf, hr, h₁, h₂, h₃⟩
    · intro h
      obtain ⟨i, j, f, start', n', ht, hf, hr', h₁, h₂, h₃⟩ := h rfl
      have hn : n' = n := by
        have := Except.ok.inj (hr.symm.trans hr')
        rw [Prod.mk.injEq] at this
        omega
      rw [hn] at h₃
      obtain ⟨ys, hys⟩ := (hread i j f).mpr ⟨h₁, h₂, h₃⟩
      obtain ⟨b, hb, hys⟩ := bind_eq_ok.mp hys
      rw [← hsize] at hb
      exact ⟨_, bind_eq_ok.mpr ⟨(i, j), ht, bind_eq_ok.mpr ⟨f, hf, bind_eq_ok.mpr ⟨xs, hxs,
        bind_eq_ok.mpr ⟨b, hb, bind_eq_ok.mpr ⟨ys, hys, hp.write_eq hi⟩⟩⟩⟩⟩⟩

/-! ## Runs of cells -/

/-- A cell does not keep a fetch from succeeding. -/
def Ready (v : Volume α σ) (l : Layout α σ) (index : Nat) : Prop :=
  l.isEmpty index = .ok false → l.Fetchable v.survey index

theorem fetchCells_eq_ok (hc : v.survey.Counted) (ho : l.Ordered) (hw : ∀ i < l.cells, l.HasWindow i)
    {is : List Nat} (hp : p.Cut l) (hi : ∀ i ∈ is, p.Holds i) :
    (v.fetchCells p is).1 = .ok () ↔ ∀ i ∈ is, v.Ready l i := by
  induction is generalizing p with
  | nil => exact ⟨fun _ _ h => (nomatch h), fun _ => rfl⟩
  | cons i is ih =>
    rw [List.forall_mem_cons] at hi ⊢
    have hcell : (∃ p', v.fetchCell p i = .ok p') ↔ v.Ready l i :=
      exists_fetchCell hc ho hp hi.1 (hw i (Nat.lt_of_lt_of_le hi.1.2 hp.upper))
    unfold fetchCells
    cases hf : v.fetchCell p i with
    | error e =>
      refine ⟨fun h => (nomatch h), fun h => ?_⟩
      obtain ⟨p', hp'⟩ := hcell.mpr h.1
      cases hf.symm.trans hp'
    | ok p' =>
      obtain ⟨hp', hl', hu'⟩ := fetchCell_cut hp hf
      rw [ih hp' fun j hj => (Partition.holds_congr hl' hu').mpr (hi.2 j hj)]
      exact ⟨fun h => ⟨hcell.mp ⟨p', hf⟩, h⟩, fun h => h.2⟩

theorem fetchPartitions_eq_ok (hc : v.survey.Counted) (ho : l.Ordered)
    (hw : ∀ i < l.cells, l.HasWindow i) {ps : List (Partition α σ)} (hp : ∀ p ∈ ps, p.Cut l) :
    (v.fetchPartitions ps).1 = .ok () ↔
      ∀ p ∈ ps, ∀ i, p.lower ≤ i → i < p.upper → v.Ready l i := by
  induction ps with
  | nil => exact ⟨fun _ _ h => (nomatch h), fun _ => rfl⟩
  | cons p ps ih =>
    rw [List.forall_mem_cons] at hp ⊢
    have hcells : (v.fetchCells p (List.range' p.lower (p.upper - p.lower))).1 = .ok () ↔ _ :=
      fetchCells_eq_ok hc ho hw hp.1 fun i hi => by
        rw [List.mem_range'_1] at hi
        exact ⟨hi.1, by omega⟩
    have hrun : (∀ i ∈ List.range' p.lower (p.upper - p.lower), v.Ready l i) ↔
        ∀ i, p.lower ≤ i → i < p.upper → v.Ready l i := by
      constructor
      · intro h i hl hu
        exact h i (List.mem_range'_1.mpr ⟨hl, by omega⟩)
      · intro h i hi
        rw [List.mem_range'_1] at hi
        exact h i hi.1 (by omega)
    rw [← hrun, ← hcells, ← ih hp.2]
    rw [fetchPartitions]
    rcases v.fetchCells p (List.range' p.lower (p.upper - p.lower)) with ⟨_ | _, p'⟩
    · exact ⟨fun h => (nomatch h), fun h => (nomatch h.1)⟩
    · exact ⟨fun h => ⟨rfl, h⟩, fun h => h.2⟩

/-- A subvolume is fetched if no cell keeps the fetch from succeeding, whatever the size of
the partitions. -/
theorem fetch_eq_ok {s : Subvolume α σ} {size : Nat} (hc : v.survey.Counted)
    (ho : s.layout.Ordered) (hw : ∀ i < s.layout.cells, s.layout.HasWindow i)
    (hsize : s.data.size = s.layout.offsets.getD s.layout.cells 0) (h0 : 0 < size) :
    (v.fetch s size).1 = .ok () ↔ ∀ i < s.layout.cells, v.Ready s.layout i := by
  have hruns := runs_consecutive s.layout.cells h0
  have hparts : s.partitions size =
      .ok ((runs s.layout.cells size).map fun r => s.partition r.1 r.2) :=
    if_neg (Nat.ne_of_gt h0)
  have hcut : ∀ p ∈ (runs s.layout.cells size).map fun r => s.partition r.1 r.2,
      p.Cut s.layout := by
    intro p hp
    obtain ⟨r, hr, rfl⟩ := List.mem_map.mp hp
    obtain ⟨-, hle, hu⟩ := hruns.bounds hr
    exact Partition.cut_partition ho hle hu (hsize ▸ ho.start_le hu (Nat.le_refl _))
  have hfetch : (v.fetch s size).1 =
      (v.fetchPartitions ((runs s.layout.cells size).map fun r => s.partition r.1 r.2)).1 := by
    unfold fetch
    rw [hparts]
  rw [hfetch, fetchPartitions_eq_ok hc ho hw hcut, List.forall_mem_map]
  have hcover := hruns.forall_iff (p := fun i => v.Ready s.layout i)
  constructor
  · intro h i hi
    exact hcover.mp h i (Nat.zero_le i) hi
  · intro h
    exact hcover.mpr fun i _ hi => h i hi

end Volume

/-! ## Laid-out subvolumes -/

open Double

variable {survey : Survey Float} {reference top bottom : Horizon Float Single}

namespace Layout

variable {l : Layout Float Single} {index : Nat}

/-- The trace of a cell with data is in the volume, unless it is the one that leaves an axis
with a single sample. -/
theorem exists_traceOf {world : Point Float} (hil : survey.iline.nsamples < 2 ^ 52)
    (hxl : survey.xline.nsamples < 2 ^ 52) (hw : l.reference.cellToWorld index = .ok world)
    (ht : survey.holdsTrace (survey.transformer.indexOfWorld world) = true)
    (hci : survey.iline.Clear (survey.transformer.indexOfWorld world).x)
    (hcx : survey.xline.Clear (survey.transformer.indexOfWorld world).y) :
    ∃ i j, l.traceOf survey index = .ok (i, j) ∧ i < survey.iline.nsamples ∧
      j < survey.xline.nsamples := by
  unfold Survey.holdsTrace at ht
  rw [Bool.and_eq_true] at ht
  obtain ⟨i, hi, hie⟩ := Axis.nearestSample_of_holdsIndex hil ht.1 hci
  obtain ⟨j, hj, hje⟩ := Axis.nearestSample_of_holdsIndex hxl ht.2 hcx
  refine ⟨i, j, ?_, hi, hj⟩
  unfold traceOf
  rw [hw, ok_bind]
  dsimp only
  rw [hie, ok_bind, hje]
  rfl

theorem fetchable_of_between (h : between survey reference top bottom = .ok l)
    (hc : survey.Counted) (hres : survey.sample.Resolved) (hil : survey.iline.nsamples < 2 ^ 52)
    (hxl : survey.xline.nsamples < 2 ^ 52) (hi : index < l.cells)
    (hclear : ∀ world, reference.cellToWorld index = .ok world →
      survey.iline.Clear (survey.transformer.indexOfWorld world).x ∧
        survey.xline.Clear (survey.transformer.indexOfWorld world).y)
    (he : l.isEmpty index = .ok false) : l.Fetchable survey index := by
  obtain ⟨hr, -, -, hs, -⟩ := between_eq_ok h
  obtain ⟨bounds, hb, hdata, hfit⟩ := fitsSurvey_of_not_isEmpty h hi he
  obtain ⟨start, n, ha, hb', ⟨-, -, he'⟩ | ⟨bounds', hdata', -, hcount, -, -⟩⟩ :=
    cell_cases h (cells_eq h ▸ hi)
  · cases he.symm.trans he'
  · have hbounds : bounds' = bounds := hdata'.unique hdata
    rw [hbounds] at hcount
    obtain ⟨world, hw, ht⟩ := hdata.trace
    obtain ⟨hci, hcx⟩ := hclear world hw
    obtain ⟨i, j, htrace, hi', hj⟩ := exists_traceOf hil hxl (hr ▸ hw) ht hci hcx
    obtain ⟨position, hp, hneg, hle⟩ := firstSample_of_fitsSurvey hs hres hc.sample hfit hcount
    refine ⟨i, j, _, start, n, htrace, ?_, range_of_offsets ha hb', hi', hj, hle⟩
    unfold firstSample
    rw [hb, ok_bind, hp, ok_bind]
    exact if_neg hneg

end Layout

/-- Fetching a laid-out subvolume, whatever its samples are and whatever the size of the
partitions.  It succeeds if, and only if, every cell with data has its trace in the volume and
its window on the sample axis.  That is so if the steps of the sample axis are longer than two
tolerances and if no cell has the one index that leaves an axis with a single line. -/
theorem Volume.fetch_of_between {v : Volume Float Single} {s : Subvolume Float Single}
    {size : Nat} (hl : Layout.between v.survey reference top bottom = .ok s.layout)
    (hdata : s.data.size = s.layout.total) (hc : v.survey.Counted) (h0 : 0 < size) :
    ((v.fetch s size).1 = .ok () ↔ ∀ i < s.layout.cells,
      s.layout.isEmpty i = .ok false → s.layout.Fetchable v.survey i) ∧
    (v.survey.sample.Resolved → v.survey.iline.nsamples < 2 ^ 52 →
      v.survey.xline.nsamples < 2 ^ 52 →
      (∀ i < s.layout.cells, ∀ world, reference.cellToWorld i = .ok world →
        v.survey.iline.Clear (v.survey.transformer.indexOfWorld world).x ∧
          v.survey.xline.Clear (v.survey.transformer.indexOfWorld world).y) →
      (v.fetch s size).1 = .ok ()) := by
  have hiff := Volume.fetch_eq_ok hc (Layout.ordered_of_between hl)
    (fun i hi => Layout.hasWindow_of_between hl hi) (hdata.trans (Layout.total_eq hl)) h0
  refine ⟨hiff, fun hres hil hxl hclear => hiff.mpr fun i hi he => ?_⟩
  exact Layout.fetchable_of_between hl hc hres hil hxl hi (hclear i hi) he

def Volume.zeros (survey : Survey Float) : Volume Float Single :=
  ⟨survey, Array.replicate survey.shape.count (.ofInt 0), by simp⟩

theorem Survey.small_step : toReal Survey.small.sample.step = 4 := by
  have h : Survey.small.sample.step = Float.ofInt 4 := by rfl
  obtain ⟨-, hv⟩ := ofInt_finite (n := 4) (by norm_num)
  rw [h, hv]
  norm_num

theorem Survey.small_resolved : Survey.small.sample.Resolved := by
  have h₀ : toReal Survey.small.sample.first = (0 : ℤ) := (ofInt_finite (by norm_num)).2
  have h₃₆ : toReal Survey.small.sample.last = (36 : ℤ) := (ofInt_finite (by norm_num)).2
  refine ⟨?_, ?_, ?_, ?_⟩ <;> rw [Survey.small_step] <;> (try rw [h₀]) <;> (try rw [h₃₆]) <;>
    norm_num

theorem Volume.fetch_of_small : ∃ s,
    Subvolume.between .small (.ofInts [16, 18]) (.ofInts [12, -999]) (.ofInts [20, 18]) = .ok s ∧
      (Survey.small : Survey Float).Counted ∧ ((Volume.zeros .small).fetch s 1).1 = .ok () := by
  obtain ⟨s, hs, -⟩ : ∃ s, Subvolume.between .small (.ofInts [16, 18]) (.ofInts [12, -999])
    (.ofInts [20, 18]) = .ok s ∧ True := by decide +kernel
  obtain ⟨hl, hdata⟩ := Subvolume.between_eq_ok hs
  have hc : (Survey.small : Survey Float).Counted := ⟨by decide, by decide, by decide⟩
  have hthree : ∀ x, Survey.small.iline.Clear x ∧ Survey.small.xline.Clear x := fun x =>
    ⟨fun h => absurd h (by decide), fun h => absurd h (by decide)⟩
  refine ⟨s, hs, hc, (Volume.fetch_of_between (v := .zeros .small) hl hdata hc one_pos).2
    Survey.small_resolved (by decide) (by decide) fun i _ world _ => ⟨(hthree _).1, (hthree _).2⟩⟩

/-- An axis in seconds, a thousandth apart: the layout admits a window that begins one sample
above the axis. -/
def Survey.seconds : Survey Float where
  iline := .ofInts 1 1 1
  xline := .ofInts 1 1 1
  sample := ⟨Float.ofInt 0, Float.ofInt 7 / Float.ofInt 1000, 8, "", "", 0⟩
  crs := ""
  inputFile := ""
  importedAt := none
  transformer := ⟨.id, .id, Float.ofInt 1, Float.ofInt 1, Float.ofInt 1, Float.ofInt 1⟩

def Horizon.single (depth : Single) : Horizon Float Single where
  grid := ⟨⟨.id, .id⟩, 1, 1⟩
  values := #[depth]
  fill := .ofInt (-999)
  values_size := rfl

def Horizon.shallow : Horizon Float Single :=
  .single (.ofDouble (Float.ofInt 1 / Float.ofInt 1000))

theorem Volume.fetch_refused : ¬ ∀ (v : Volume Float Single)
    (reference top bottom : Horizon Float Single) (s : Subvolume Float Single) (size : Nat),
    Subvolume.between v.survey reference top bottom = .ok s → v.survey.Counted → 0 < size →
      (v.fetch s size).1 = .ok () := by
  intro hall
  obtain ⟨s, hs, hfetch⟩ : ∃ s, Subvolume.between .seconds .shallow .shallow .shallow = .ok s ∧
      ((Volume.zeros .seconds).fetch s 1).1.isOk = false := by decide +kernel
  rw [hall (.zeros .seconds) _ _ _ s 1 hs ⟨by decide, by decide, by decide⟩ one_pos] at hfetch
  cases hfetch

end Seismic
