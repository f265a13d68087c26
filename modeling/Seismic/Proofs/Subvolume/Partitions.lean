import Seismic.Proofs.Subvolume.Offsets
import Seismic.Proofs.Subvolume.Tiling

/-!
# Changing a subvolume through its partitions

Partitions are cut from the front of the samples, one after the other, and every cell belongs
to one of them.  What is done to the samples of cells through the partitions, in whatever
order, is what the same changes do to the subvolume.
-/

namespace Seismic

variable {α σ : Type}

/-! ## Runs -/

theorem mem_runs {count size : Nat} (h0 : 0 < size) {r : Nat × Nat} (hr : r ∈ runs count size) :
    r.1 < r.2 ∧ r.2 ≤ r.1 + size := by
  obtain ⟨k, hk, rfl⟩ := List.mem_map.mp hr
  have hk' : k + 1 ≤ (count + size - 1) / size := List.mem_range.mp hk
  have hle : (k + 1) * size ≤ count + size - 1 := (Nat.le_div_iff_mul_le h0).mp hk'
  rw [Nat.add_mul, Nat.one_mul] at hle
  show k * size < min (k * size + size) count ∧ min (k * size + size) count ≤ k * size + size
  omega

/-- A number is in one run only. -/
theorem Consecutive.unique {lower stop i j k : Nat} {rs : List (Nat × Nat)} {r r' : Nat × Nat}
    (h : Consecutive lower rs stop) (hj : rs[j]? = some r) (hk : rs[k]? = some r')
    (hr : r.1 ≤ i ∧ i < r.2) (hr' : r'.1 ≤ i ∧ i < r'.2) : j = k := by
  induction h generalizing j k with
  | nil => simp at hj
  | cons hle tail ih =>
    -- A later run begins where the first one ends, or behind that.
    cases j with
    | zero =>
      cases k with
      | zero => rfl
      | succ k =>
        cases hj
        have hlater := (tail.bounds (List.mem_of_getElem? hk)).1
        omega
    | succ j =>
      cases k with
      | zero =>
        cases hk
        have hlater := (tail.bounds (List.mem_of_getElem? hj)).1
        omega
      | succ k => rw [ih hj hk]

/-! ## Cutting -/

/-- Cuts the samples of runs of cells off the front of the samples that are left, run by
run. -/
def Layout.split (l : Layout α σ) : List (Nat × Nat) → Array σ → Result α (List (Partition α σ))
  | [], _ => .ok []
  | (lower, upper) :: rest, samples =>
    match l.offsets[lower]?, l.offsets[upper]? with
    | some first, some last =>
      if first ≤ last ∧ last - first ≤ samples.size then do
        let others ← l.split rest (samples.extract (last - first) samples.size)
        return ⟨l, lower, upper, samples.extract 0 (last - first)⟩ :: others
      else .error (.fault .overflow)
    | _, _ => .error (.fault .pastEnd)

namespace Subvolume

variable {s : Subvolume α σ} {lower : Nat}

/-- What is cut off for a run is what lies between the offsets of its first cell and of the
cell after its last. -/
theorem LaidOut.split_eq (hs : s.LaidOut) {rs : List (Nat × Nat)}
    (h : Consecutive lower rs s.layout.cells) (hne : ∀ r ∈ rs, r.1 < r.2) :
    s.layout.split rs (s.data.extract (s.layout.start lower) s.data.size) =
      .ok (rs.map fun r => s.partition r.1 r.2) := by
  generalize hstop : s.layout.cells = stop at h
  induction h with
  | nil => rfl
  | @cons lower upper stop rest hle tail ih =>
    have hlt : lower < upper := hne (lower, upper) List.mem_cons_self
    have hu : upper ≤ s.layout.cells := hstop ▸ tail.le
    have hcells : s.layout.cells = s.layout.offsets.size - 1 := rfl
    have hstart := hs.contiguous.ordered.start_le hle hu
    have hend := hs.start_le_size hu
    have hfits : s.layout.start upper - s.layout.start lower ≤
        (s.data.extract (s.layout.start lower) s.data.size).size := by
      rw [Array.size_extract]
      omega
    have hhead : (s.data.extract (s.layout.start lower) s.data.size).extract 0
        (s.layout.start upper - s.layout.start lower) =
          s.data.extract (s.layout.start lower) (s.layout.start upper) := by
      rw [Array.extract_extract, Nat.add_zero, Nat.add_sub_cancel' hstart, Nat.min_eq_left hend]
    have htail : (s.data.extract (s.layout.start lower) s.data.size).extract
        (s.layout.start upper - s.layout.start lower)
        (s.data.extract (s.layout.start lower) s.data.size).size =
          s.data.extract (s.layout.start upper) s.data.size := by
      rw [Array.extract_extract, Nat.add_sub_cancel' hstart, Array.size_extract]
      congr 1
      omega
    unfold Layout.split
    rw [Layout.getElem?_offsets (by omega), Layout.getElem?_offsets (by omega)]
    dsimp only
    rw [if_pos ⟨hstart, hfits⟩, hhead, htail,
      ih (fun r hr => hne r (List.mem_cons_of_mem _ hr)) hstop]
    rfl

end Subvolume

/-! ## Changes of cells -/

/-- A change of the samples of a cell, made through one of several partitions. -/
structure Change (σ : Type) where
  /-- The number of the partition. -/
  part : Nat
  cell : Nat
  /-- What the samples become, given what they are. -/
  samples : List σ → List σ

/-- The partition with the samples of a cell changed. -/
def Partition.update (p : Partition α σ) (index : Nat) (f : List σ → List σ) :
    Result α (Partition α σ) := do
  p.write index (f (← p.segment index).toList)

/-- The subvolume with the samples of a cell changed. -/
def Subvolume.update (s : Subvolume α σ) (index : Nat) (f : List σ → List σ) :
    Result α (Subvolume α σ) := do
  s.write index (f (← s.segment index).toList)

namespace Change

def within (ps : List (Partition α σ)) (c : Change σ) : Result α (List (Partition α σ)) :=
  match ps[c.part]? with
  | some p => do return ps.set c.part (← p.update c.cell c.samples)
  | none => .error (.fault .pastEnd)

def whole (s : Subvolume α σ) (c : Change σ) : Result α (Subvolume α σ) :=
  s.update c.cell c.samples

/-- Whether the cell belongs to the partition. -/
def Held (ps : List (Partition α σ)) (c : Change σ) : Prop :=
  ∃ p, ps[c.part]? = some p ∧ p.Holds c.cell

end Change

namespace Tiling

variable {l : Layout α σ} {s s' : Subvolume α σ} {p p' : Partition α σ}
variable {ps ps' : List (Partition α σ)} {k index : Nat} {zs : List σ}

/-- A cell has the same samples in its partition and in the whole. -/
theorem segment_assemble (h : Tiling s.layout 0 ps) (hs : s.layout.Contiguous)
    (hp : ps[k]? = some p) (hi : p.Holds index) :
    (s.assemble ps).segment index = p.segment index := by
  obtain ⟨hcut, -, -⟩ := h.of_mem (List.mem_of_getElem? hp)
  obtain ⟨hcell, hbase, hle, hroom⟩ := hcut.window hs.ordered hi
  have hx := h.extract_joined (a := s.layout.start index - p.base) hs.ordered hp hroom
  rw [hs.first, Nat.sub_zero, Nat.add_sub_cancel' hbase,
    Nat.add_sub_cancel' (Nat.le_trans hbase hle)] at hx
  rw [Subvolume.segment_eq (show index < (s.assemble ps).layout.cells from hcell),
    hcut.segment_eq hi]
  exact congrArg Except.ok hx

theorem write_assemble (h : Tiling s.layout 0 ps) (hs : s.layout.Contiguous)
    (hp : ps[k]? = some p) (hw : p.write index zs = .ok p') :
    Tiling s.layout 0 (ps.set k p') ∧
      (s.assemble ps).write index zs = .ok (s.assemble (ps.set k p')) := by
  obtain ⟨hcut, -, -⟩ := h.of_mem (List.mem_of_getElem? hp)
  obtain ⟨hi, hcut', hlower, hupper, -⟩ := Partition.write_eq_ok hcut hw
  obtain ⟨hcell, hbase, hle, hroom⟩ := hcut.window hs.ordered hi
  refine ⟨h.set hp hcut' hlower hupper, ?_⟩
  rw [hcut.write_eq hi] at hw
  have hset := h.joined_set hs.ordered hp (congrArg Partition.data (Except.ok.inj hw)).symm
    (by rw [List.length_take]; omega)
  rw [hs.first, Nat.sub_zero, Nat.add_sub_cancel' hbase,
    Nat.sub_sub_sub_cancel_right hbase] at hset
  rw [Subvolume.write_eq (show index < (s.assemble ps).layout.cells from hcell)]
  show _ = Except.ok { s with data := Partition.joined (ps.set k p') }
  rw [hset]
  rfl

theorem joined_partitions (hs : s.LaidOut) {lower : Nat} {rs : List (Nat × Nat)}
    (h : Consecutive lower rs s.layout.cells) :
    Partition.joined (rs.map fun r => s.partition r.1 r.2) =
      s.data.extract (s.layout.start lower) s.data.size := by
  generalize hstop : s.layout.cells = stop at h
  induction h with
  | nil n =>
    rw [← hstop, ← hs.size, Array.extract_empty_of_stop_le_start (Nat.le_refl _)]
    rfl
  | @cons lower upper stop rest hle tail ih =>
    have hu : upper ≤ s.layout.cells := hstop ▸ tail.le
    have hstart := hs.contiguous.ordered.start_le hle hu
    have hend := hs.start_le_size hu
    rw [List.map_cons, Partition.joined_cons, ih hstop]
    show s.data.extract (s.layout.start lower) (s.layout.start upper) ++ _ = _
    rw [Array.extract_append_extract, Nat.min_eq_left hstart, Nat.max_eq_right hend]

/-- Put together again, the partitions of a subvolume are the subvolume. -/
theorem assemble_partitions (hs : s.LaidOut) {rs : List (Nat × Nat)}
    (h : Consecutive 0 rs s.layout.cells) :
    s.assemble (rs.map fun r => s.partition r.1 r.2) = s := by
  have hdata := joined_partitions hs h
  rw [hs.contiguous.first, Array.extract_eq_self_of_le (Nat.le_refl _)] at hdata
  exact congrArg (fun data => ({ s with data } : Subvolume α σ)) hdata

/-! ### Sequences of changes -/

variable {c : Change σ}

theorem within_eq_ok : c.within ps = .ok ps' ↔ ∃ p p', ps[c.part]? = some p ∧
    p.update c.cell c.samples = .ok p' ∧ ps' = ps.set c.part p' := by
  unfold Change.within
  cases hp : ps[c.part]? with
  | none => simp
  | some p =>
    simp only [bind_eq_ok, pure_eq_ok, Option.some.injEq]
    constructor
    · rintro ⟨p', hp', rfl⟩
      exact ⟨p, p', rfl, hp', rfl⟩
    · rintro ⟨_, p', rfl, hp', rfl⟩
      exact ⟨p', hp', rfl⟩

theorem exists_within (h : Tiling l 0 ps) : (∃ ps', c.within ps = .ok ps') ↔ c.Held ps := by
  constructor
  · rintro ⟨ps', hc⟩
    obtain ⟨p, p', hp, hupdate, -⟩ := within_eq_ok.mp hc
    obtain ⟨hcut, -, -⟩ := h.of_mem (List.mem_of_getElem? hp)
    obtain ⟨xs, -, hw⟩ := bind_eq_ok.mp hupdate
    exact ⟨p, hp, (Partition.write_eq_ok hcut hw).1⟩
  · rintro ⟨p, hp, hi⟩
    obtain ⟨hcut, -, -⟩ := h.of_mem (List.mem_of_getElem? hp)
    exact ⟨_, within_eq_ok.mpr ⟨p, _, hp, bind_eq_ok.mpr ⟨_, hcut.segment_eq hi, hcut.write_eq hi⟩,
      rfl⟩⟩

/-- A change through a partition is the change of the whole, and moves no cell from one
partition to another. -/
theorem of_within (h : Tiling s.layout 0 ps) (hs : s.layout.Contiguous)
    (hc : c.within ps = .ok ps') : Tiling s.layout 0 ps' ∧
      c.whole (s.assemble ps) = .ok (s.assemble ps') ∧
      ∀ d : Change σ, d.Held ps' ↔ d.Held ps := by
  obtain ⟨p, p', hp, hupdate, rfl⟩ := within_eq_ok.mp hc
  obtain ⟨hcut, -, -⟩ := h.of_mem (List.mem_of_getElem? hp)
  obtain ⟨xs, hxs, hw⟩ := bind_eq_ok.mp hupdate
  obtain ⟨hi, -, hlower, hupper, -⟩ := Partition.write_eq_ok hcut hw
  obtain ⟨hset, hwrite⟩ := h.write_assemble hs hp hw
  refine ⟨hset, bind_eq_ok.mpr ⟨xs, (h.segment_assemble hs hp hi).trans hxs, hwrite⟩, fun d => ?_⟩
  have hk : c.part < ps.length := (List.getElem?_eq_some_iff.mp hp).1
  unfold Change.Held
  rw [List.getElem?_set]
  by_cases hd : c.part = d.part
  · rw [if_pos hd, if_pos hk, ← hd, hp]
    simp [Partition.holds_congr hlower hupper]
  · rw [if_neg hd]

theorem exists_foldlM_within (h : Tiling s.layout 0 ps) (hs : s.layout.Contiguous)
    (cs : List (Change σ)) :
    (∃ ps', cs.foldlM Change.within ps = .ok ps') ↔ ∀ c ∈ cs, c.Held ps := by
  induction cs generalizing ps with
  | nil => exact ⟨fun _ _ hc => absurd hc List.not_mem_nil, fun _ => ⟨ps, rfl⟩⟩
  | cons c cs ih =>
    rw [List.forall_mem_cons, ← exists_within h]
    constructor
    · rintro ⟨ps', hfold⟩
      rw [List.foldlM_cons] at hfold
      obtain ⟨ps₁, hc, hfold⟩ := bind_eq_ok.mp hfold
      obtain ⟨h₁, -, hheld⟩ := h.of_within hs hc
      refine ⟨⟨ps₁, hc⟩, fun d hd => (hheld d).mp ?_⟩
      exact (ih h₁).mp ⟨ps', hfold⟩ d hd
    · rintro ⟨⟨ps₁, hc⟩, hcs⟩
      obtain ⟨h₁, -, hheld⟩ := h.of_within hs hc
      obtain ⟨ps', hfold⟩ := (ih h₁).mpr fun d hd => (hheld d).mpr (hcs d hd)
      exact ⟨ps', by rw [List.foldlM_cons, hc, ok_bind, hfold]⟩

/-- A sequence of changes through partitions is the sequence of changes of the whole. -/
theorem foldlM_within (h : Tiling s.layout 0 ps) (hs : s.layout.Contiguous)
    {cs : List (Change σ)} (hfold : cs.foldlM Change.within ps = .ok ps') :
    Tiling s.layout 0 ps' ∧ cs.foldlM Change.whole (s.assemble ps) = .ok (s.assemble ps') := by
  induction cs generalizing ps with
  | nil =>
    cases pure_eq_ok.mp hfold
    exact ⟨h, rfl⟩
  | cons c cs ih =>
    rw [List.foldlM_cons] at hfold ⊢
    obtain ⟨ps₁, hc, hfold⟩ := bind_eq_ok.mp hfold
    obtain ⟨h₁, hwhole, -⟩ := h.of_within hs hc
    rw [hwhole, ok_bind]
    exact ih h₁ hfold

end Tiling

/-! ## Laid-out subvolumes -/

/-- A partition gives access to the windows of its cells, which are within its samples, and
to nothing else. -/
structure Partition.Addresses (l : Layout α σ) (p : Partition α σ) : Prop where
  inside : ∀ index, p.Holds index → ∃ first last, l.range index = .ok (first, last) ∧
    p.base ≤ first ∧ first ≤ last ∧ last - p.base ≤ p.data.size ∧
    p.segment index = .ok (p.data.extract (first - p.base) (last - p.base))
  outside : ∀ index, ¬ p.Holds index →
    p.segment index = .error (.outsidePartition index p.lower p.upper)

theorem Partition.Cut.addresses {l : Layout α σ} {p : Partition α σ} (hp : p.Cut l)
    (ho : l.Ordered) : p.Addresses l := by
  refine ⟨fun index hi => ?_, fun index hi => ?_⟩
  · obtain ⟨hcell, hbase, hle, hroom⟩ := hp.window ho hi
    exact ⟨_, _, Layout.range_eq hcell, hbase, hle, hroom, hp.segment_eq hi⟩
  · unfold Partition.segment
    rw [Partition.range_outside hi]
    rfl

/-- A subvolume is cut into partitions of at most `size` cells. -/
structure Subvolume.CutInto (s : Subvolume α σ) (size : Nat) (ps : List (Partition α σ)) : Prop where
  /-- The samples of the partitions are cut off one after the other. -/
  split : s.layout.split (runs s.layout.cells size) s.data = .ok ps
  /-- The cells of the partitions follow one another, from the first cell to the last. -/
  consecutive : Consecutive 0 (ps.map Partition.bounds) s.layout.cells
  length : ∀ p ∈ ps, p.lower < p.upper ∧ p.upper ≤ p.lower + size
  /-- Every cell is in exactly one partition. -/
  once : ∀ index < s.layout.cells, ∃! k : Nat, ∃ p, ps[k]? = some p ∧ p.Holds index
  /-- The samples of the partitions, one after the other, are all samples. -/
  assemble : s.assemble ps = s

theorem Subvolume.LaidOut.cutInto {s : Subvolume α σ} (hs : s.LaidOut) {size : Nat} (h0 : 0 < size) :
    s.CutInto size ((runs s.layout.cells size).map fun r => s.partition r.1 r.2) := by
  have hruns := runs_consecutive s.layout.cells h0
  have hbounds : ((runs s.layout.cells size).map fun r => s.partition r.1 r.2).map
      Partition.bounds = runs s.layout.cells size := by
    rw [List.map_map]
    exact List.map_id _
  refine ⟨?_, ?_, ?_, ?_, Tiling.assemble_partitions hs hruns⟩
  · have hsplit := hs.split_eq hruns fun r hr => (mem_runs h0 hr).1
    rwa [hs.contiguous.first, Array.extract_eq_self_of_le (Nat.le_refl _)] at hsplit
  · rw [hbounds]
    exact hruns
  · intro p hp
    obtain ⟨r, hr, rfl⟩ := List.mem_map.mp hp
    exact mem_runs h0 hr
  · intro index hi
    obtain ⟨r, hr, hin⟩ := hruns.cover (Nat.zero_le index) hi
    obtain ⟨k, hk⟩ := List.mem_iff_getElem?.mp hr
    refine ⟨k, ⟨s.partition r.1 r.2, by rw [List.getElem?_map, hk]; rfl, hin⟩, ?_⟩
    rintro j ⟨p, hp, hin'⟩
    rw [List.getElem?_map, Option.map_eq_some_iff] at hp
    obtain ⟨r', hr', rfl⟩ := hp
    exact hruns.unique hr' hk hin' hin

/-- A laid-out subvolume cut into partitions.  These follow one another without a gap, hold no
more cells than allowed, and are all of the subvolume.  The windows of different cells do not
overlap.  A sequence of changes of cells through the partitions goes through if every cell is
held by the partition it is changed through; the partitions then still give access to just the
windows of their cells, and put together they are what the same changes make of the
subvolume. -/
theorem Subvolume.partitions_of_between [Scalar α] [Sampled σ α] {survey : Survey α}
    {reference top bottom : Horizon α σ} {s : Subvolume α σ} {size : Nat}
    (hl : Layout.between survey reference top bottom = .ok s.layout)
    (hdata : s.data.size = s.layout.total) (h0 : 0 < size) :
    s.layout.cells = reference.size ∧
    (∀ i j a b c d, i ≠ j → s.layout.range i = .ok (a, b) → s.layout.range j = .ok (c, d) →
      b ≤ c ∨ d ≤ a) ∧
    ∃ ps, s.partitions size = .ok ps ∧ s.CutInto size ps ∧ ∀ cs : List (Change σ),
      ((∃ ps', cs.foldlM Change.within ps = .ok ps') ↔ ∀ c ∈ cs, c.Held ps) ∧
      ∀ ps', cs.foldlM Change.within ps = .ok ps' →
        (∀ p ∈ ps', p.Addresses s.layout) ∧ cs.foldlM Change.whole s = .ok (s.assemble ps') := by
  have hs := laidOut_of_between hl hdata
  have hcut := hs.cutInto h0
  have ht := Tiling.of_consecutive hs (runs_consecutive s.layout.cells h0)
  refine ⟨Layout.cells_eq hl, ?_, _, if_neg (Nat.ne_of_gt h0), hcut, fun cs =>
    ⟨ht.exists_foldlM_within hs.contiguous cs, fun ps' hfold => ?_⟩⟩
  · intro i j a b c d hne hi hj
    obtain ⟨hin, rfl, rfl⟩ := Layout.range_eq_ok.mp hi
    obtain ⟨hjn, rfl, rfl⟩ := Layout.range_eq_ok.mp hj
    exact hs.contiguous.ordered.disjoint hne hin hjn
  · obtain ⟨ht', hwhole⟩ := ht.foldlM_within hs.contiguous hfold
    rw [hcut.assemble] at hwhole
    exact ⟨fun p hp => (ht'.of_mem hp).1.addresses hs.contiguous.ordered, hwhole⟩

theorem Subvolume.partitions_of_small : ∃ s, Subvolume.between .small (.ofInts [16, 18, 20])
    (.ofInts [12, -999, 16]) (.ofInts [20, 18, 24]) = .ok s ∧ s.layout.offsets[1]? =
      s.layout.offsets[2]? ∧ ∃ ps, s.partitions 2 = .ok ps ∧ s.CutInto 2 ps := by
  obtain ⟨s, hs, hempty⟩ : ∃ s, Subvolume.between .small (.ofInts [16, 18, 20])
    (.ofInts [12, -999, 16]) (.ofInts [20, 18, 24]) = .ok s ∧
      s.layout.offsets[1]? = s.layout.offsets[2]? := by decide +kernel
  obtain ⟨hl, hdata⟩ := Subvolume.between_eq_ok hs
  obtain ⟨-, -, ps, hps, hcut, -⟩ := Subvolume.partitions_of_between hl hdata two_pos
  exact ⟨s, hs, hempty, ps, hps, hcut⟩

end Seismic
