import Seismic.Proofs.Subvolume.Runs
import Seismic.Proofs.Subvolume.Windows
import Seismic.Subvolume.Partition

/-!
# Subvolumes cut into partitions

The partitions of a subvolume follow one another, and put together again they are the
subvolume.  A change of one cell through its partition is the change of that cell in the
subvolume: the window of the cell begins as far behind the first sample of the partition as
the partition begins before it, and what comes before and after the partition is not touched.
-/

namespace Seismic

variable {α σ : Type}

/-! ## One partition -/

/-- A partition that has the samples of its cells. -/
structure Partition.Cut (l : Layout α σ) (p : Partition α σ) : Prop where
  layout : p.layout = l
  upper : p.upper ≤ l.cells
  size : p.base + p.data.size = l.offsets.getD p.upper 0

namespace Partition

variable {l : Layout α σ} {p p' : Partition α σ} {index i j : Nat} {zs : List σ}

/-- Whether a cell is one of the partition. -/
def Holds (p : Partition α σ) (index : Nat) : Prop := p.lower ≤ index ∧ index < p.upper

theorem holds_congr (hl : p'.lower = p.lower) (hu : p'.upper = p.upper) :
    p'.Holds index ↔ p.Holds index := by
  unfold Holds
  rw [hl, hu]

theorem Cut.base_eq (hp : p.Cut l) : p.base = l.start p.lower := by
  rw [base, hp.layout]
  rfl

/-- The window of a cell of the partition is within the samples of the partition. -/
theorem Cut.window (hp : p.Cut l) (ho : l.Ordered) (hi : p.Holds index) :
    index < l.cells ∧ p.base ≤ l.start index ∧ l.start index ≤ l.start (index + 1) ∧
      l.start (index + 1) - p.base ≤ p.data.size := by
  obtain ⟨hl, hu⟩ := hi
  have hcells := hp.upper
  have h₁ := ho.start_le hl (by omega)
  have h₂ : l.start index ≤ l.start (index + 1) := ho.start_le (by omega) (by omega)
  have h₃ : l.start (index + 1) ≤ l.start p.upper := ho.start_le hu hcells
  have hsize : p.base + p.data.size = l.start p.upper := hp.size
  rw [← hp.base_eq] at h₁
  omega

theorem Cut.range_eq (hp : p.Cut l) (hi : p.Holds index) :
    p.range index = .ok (l.start index - p.base, l.start (index + 1) - p.base) := by
  obtain ⟨hl, hu⟩ := hi
  have hcells := hp.upper
  unfold range
  rw [if_neg (by omega), hp.layout, Layout.range_eq (by omega)]
  rfl

theorem range_outside (h : ¬ p.Holds index) :
    p.range index = .error (.outsidePartition index p.lower p.upper) := by
  unfold Holds at h
  unfold range
  rw [if_pos (by omega)]
  rfl

theorem range_eq_ok {a b : Nat} (hp : p.Cut l) (h : p.range index = .ok (a, b)) :
    p.Holds index ∧ a = l.start index - p.base ∧ b = l.start (index + 1) - p.base := by
  by_cases hi : p.Holds index
  · rw [hp.range_eq hi] at h
    cases h
    exact ⟨hi, rfl, rfl⟩
  · rw [range_outside hi] at h
    cases h

theorem Cut.segment_eq (hp : p.Cut l) (hi : p.Holds index) :
    p.segment index =
      .ok (p.data.extract (l.start index - p.base) (l.start (index + 1) - p.base)) := by
  unfold segment
  rw [hp.range_eq hi]
  rfl

theorem exists_segment (ho : l.Ordered) (hp : p.Cut l) (hi : p.Holds index) {a n : Nat}
    (h : l.range index = .ok (a, a + n)) : ∃ xs, p.segment index = .ok xs ∧ xs.size = n := by
  obtain ⟨-, ha, hb⟩ := Layout.range_eq_ok.mp h
  obtain ⟨-, h₁, -, h₃⟩ := hp.window ho hi
  refine ⟨_, hp.segment_eq hi, ?_⟩
  rw [Array.size_extract]
  omega

theorem Cut.write_eq (hp : p.Cut l) (hi : p.Holds index) :
    p.write index zs = .ok { p with
      data := overwrite p.data (l.start index - p.base)
        (zs.take ((l.start (index + 1) - p.base) - (l.start index - p.base))) } := by
  unfold write
  rw [hp.range_eq hi]
  rfl

/-- A write keeps the cells of a partition, and changes samples of one cell only. -/
theorem write_eq_ok (hp : p.Cut l) (h : p.write index zs = .ok p') :
    p.Holds index ∧ p'.Cut l ∧ p'.lower = p.lower ∧ p'.upper = p.upper ∧
      p'.data.size = p.data.size := by
  unfold write at h
  obtain ⟨⟨a, b⟩, hr, h⟩ := bind_eq_ok.mp h
  cases pure_eq_ok.mp h
  obtain ⟨hi, -, -⟩ := range_eq_ok hp hr
  refine ⟨hi, ⟨hp.layout, hp.upper, ?_⟩, rfl, rfl, size_overwrite _ _ _⟩
  rw [size_overwrite]
  exact hp.size

/-- A write changes the samples of one cell only. -/
theorem segment_write_of_ne (ho : l.Ordered) (hp : p.Cut l) (h : p.write i zs = .ok p')
    (hj : p.Holds j) (hne : i ≠ j) : p'.segment j = p.segment j := by
  obtain ⟨hi, hp', hl, hu, -⟩ := write_eq_ok hp h
  rw [hp'.segment_eq ((holds_congr hl hu).mpr hj), hp.segment_eq hj]
  rw [hp.write_eq hi] at h
  cases h
  obtain ⟨hic, hib, hile, -⟩ := hp.window ho hi
  obtain ⟨hjc, hjb, -, -⟩ := hp.window ho hj
  have hdisjoint := ho.disjoint hne hic hjc
  refine congrArg Except.ok (extract_overwrite_outside ?_)
  show l.start (j + 1) - p.base ≤ l.start i - p.base ∨ l.start i - p.base + _ ≤ l.start j - p.base
  rw [List.length_take]
  omega

/-- Samples that fill the window of a cell become the samples of that cell. -/
theorem segment_write (ho : l.Ordered) (hp : p.Cut l) {xs : Array σ} (hx : p.segment i = .ok xs)
    (hlen : zs.length = xs.size) (h : p.write i zs = .ok p') : p'.segment i = .ok zs.toArray := by
  obtain ⟨hi, hp', hl, hu, -⟩ := write_eq_ok hp h
  obtain ⟨-, hbase, hle, hroom⟩ := hp.window ho hi
  rw [hp.segment_eq hi] at hx
  cases hx
  rw [Array.size_extract] at hlen
  rw [hp'.segment_eq ((holds_congr hl hu).mpr hi)]
  rw [hp.write_eq hi, List.take_of_length_le (by omega)] at h
  cases h
  refine congrArg Except.ok (extract_overwrite hroom ?_)
  show l.start i - p.base + zs.length = l.start (i + 1) - p.base
  omega

end Partition

/-! ## Partitions that follow one another -/

theorem Partition.cut_partition {s : Subvolume α σ} {lower upper : Nat} (ho : s.layout.Ordered)
    (hle : lower ≤ upper) (hu : upper ≤ s.layout.cells)
    (hend : s.layout.start upper ≤ s.data.size) : (s.partition lower upper).Cut s.layout := by
  have hstart := ho.start_le hle hu
  refine ⟨rfl, hu, ?_⟩
  show s.layout.start lower +
    (s.data.extract (s.layout.start lower) (s.layout.start upper)).size = s.layout.start upper
  rw [Array.size_extract]
  omega

/-- The samples of several partitions, one after the other. -/
def Partition.joined (ps : List (Partition α σ)) : Array σ :=
  (ps.map Partition.data).foldl (· ++ ·) #[]

/-- The first cell of a partition and the one after its last. -/
def Partition.bounds (p : Partition α σ) : Nat × Nat := (p.lower, p.upper)

/-- Partitions that follow one another from the cell `lower` to the last one. -/
inductive Tiling (l : Layout α σ) : Nat → List (Partition α σ) → Prop where
  | nil : Tiling l l.cells []
  | cons {p : Partition α σ} {ps : List (Partition α σ)} (cut : p.Cut l) (le : p.lower ≤ p.upper)
      (tail : Tiling l p.upper ps) : Tiling l p.lower (p :: ps)

theorem foldl_append_eq {β : Type} (xss : List (Array β)) (xs : Array β) :
    xss.foldl (· ++ ·) xs = xs ++ xss.foldl (· ++ ·) #[] := by
  induction xss generalizing xs with
  | nil => simp
  | cons ys xss ih => rw [List.foldl_cons, List.foldl_cons, ih, ih (#[] ++ ys), Array.empty_append,
      Array.append_assoc]

theorem Partition.joined_cons (p : Partition α σ) (ps : List (Partition α σ)) :
    joined (p :: ps) = p.data ++ joined ps := by
  unfold joined
  rw [List.map_cons, List.foldl_cons, foldl_append_eq, Array.empty_append]

namespace Tiling

variable {l : Layout α σ} {lower k a b : Nat} {p p' : Partition α σ} {ps : List (Partition α σ)}
variable {zs : List σ}

theorem of_consecutive {s : Subvolume α σ} (hs : s.LaidOut) {rs : List (Nat × Nat)}
    (h : Consecutive lower rs s.layout.cells) :
    Tiling s.layout lower (rs.map fun r => s.partition r.1 r.2) := by
  generalize hstop : s.layout.cells = stop at h
  induction h with
  | nil n =>
    rw [← hstop]
    exact .nil
  | @cons lower upper stop rest hle tail ih =>
    have hu : upper ≤ s.layout.cells := hstop ▸ tail.le
    have hcut := Partition.cut_partition hs.contiguous.ordered hle hu (hs.start_le_size hu)
    exact .cons hcut hle (ih hstop)

theorem consecutive (h : Tiling l lower ps) : Consecutive lower (ps.map Partition.bounds) l.cells := by
  induction h with
  | nil => exact .nil _
  | cons _ hle _ ih => exact .cons hle ih

theorem of_mem (h : Tiling l lower ps) (hp : p ∈ ps) :
    p.Cut l ∧ lower ≤ p.lower ∧ p.lower ≤ p.upper := by
  induction h with
  | nil => exact absurd hp List.not_mem_nil
  | cons hcut hle _ ih =>
    rcases List.mem_cons.mp hp with rfl | hp
    · exact ⟨hcut, Nat.le_refl _, hle⟩
    · obtain ⟨hcut', hlower, hle'⟩ := ih hp
      exact ⟨hcut', Nat.le_trans hle hlower, hle'⟩

theorem start_le_base (h : Tiling l lower ps) (ho : l.Ordered) (hp : p ∈ ps) :
    l.start lower ≤ p.base := by
  obtain ⟨hcut, hlower, hle⟩ := h.of_mem hp
  rw [hcut.base_eq]
  exact ho.start_le hlower (Nat.le_trans hle hcut.upper)

/-- Behind a first partition, the others lie further back by the samples of that one. -/
theorem base_sub {q : Partition α σ} (hq : q.Cut l) (tail : Tiling l q.upper ps) (ho : l.Ordered)
    (hp : p ∈ ps) : p.base - l.start q.lower = q.data.size + (p.base - l.start q.upper) := by
  have hle := tail.start_le_base ho hp
  have hsize : q.base + q.data.size = l.start q.upper := hq.size
  rw [hq.base_eq] at hsize
  omega

theorem joined_size (h : Tiling l lower ps) :
    l.start lower + (Partition.joined ps).size = l.start l.cells := by
  induction h with
  | nil => rfl
  | @cons q ps hcut _ _ ih =>
    have hsize : q.base + q.data.size = l.start q.upper := hcut.size
    rw [Partition.joined_cons, Array.size_append, ← hcut.base_eq]
    omega

/-- The samples of a partition among those of all, which begin with the cell `lower`. -/
theorem extract_joined (h : Tiling l lower ps) (ho : l.Ordered) (hp : ps[k]? = some p)
    (hb : b ≤ p.data.size) :
    (Partition.joined ps).extract (p.base - l.start lower + a) (p.base - l.start lower + b) =
      p.data.extract a b := by
  induction h generalizing k with
  | nil => simp at hp
  | @cons q ps hcut hle tail ih =>
    rw [Partition.joined_cons]
    cases k with
    | zero =>
      cases hp
      rw [hcut.base_eq, Nat.sub_self, Nat.zero_add, Nat.zero_add]
      exact extract_append_of_le_size hb
    | succ k =>
      have hp' : ps[k]? = some p := hp
      rw [base_sub hcut tail ho (List.mem_of_getElem? hp'), Nat.add_assoc, Nat.add_assoc,
        extract_append_past_size]
      exact ih hp'

/-- Overwriting samples of a partition overwrites them among those of all. -/
theorem joined_set (h : Tiling l lower ps) (ho : l.Ordered) (hp : ps[k]? = some p)
    (hp' : p'.data = overwrite p.data a zs) (hroom : a + zs.length ≤ p.data.size) :
    Partition.joined (ps.set k p') =
      overwrite (Partition.joined ps) (p.base - l.start lower + a) zs := by
  induction h generalizing k with
  | nil => simp at hp
  | @cons q ps hcut hle tail ih =>
    cases k with
    | zero =>
      cases hp
      rw [List.set_cons_zero, Partition.joined_cons, Partition.joined_cons, hp', hcut.base_eq,
        Nat.sub_self, Nat.zero_add, overwrite_append_left hroom]
    | succ k =>
      have hk : ps[k]? = some p := hp
      rw [List.set_cons_succ, Partition.joined_cons, Partition.joined_cons, ih hk,
        base_sub hcut tail ho (List.mem_of_getElem? hk), Nat.add_assoc, overwrite_append_right]

/-- A partition can be exchanged for one with the same cells. -/
theorem set (h : Tiling l lower ps) (hp : ps[k]? = some p) (hcut' : p'.Cut l)
    (hlower : p'.lower = p.lower) (hupper : p'.upper = p.upper) :
    Tiling l lower (ps.set k p') := by
  induction h generalizing k with
  | nil => simp at hp
  | @cons q ps hcut hle tail ih =>
    cases k with
    | zero =>
      cases hp
      rw [List.set_cons_zero, ← hlower]
      exact .cons hcut' (by omega) (by rwa [hupper])
    | succ k =>
      rw [List.set_cons_succ]
      exact .cons hcut hle (ih hp)

end Tiling
end Seismic
