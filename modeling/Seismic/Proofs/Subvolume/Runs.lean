import Seismic.Subvolume.Partition

/-!
# Runs of cells

The runs of a subvolume follow one another without a gap, from the first cell to the last.
So what is true of the cells of every run is true of all cells.
-/

namespace Seismic

/-- Runs that follow one another from `lower` up to `stop`. -/
inductive Consecutive : Nat → List (Nat × Nat) → Nat → Prop where
  | nil (n : Nat) : Consecutive n [] n
  | cons {lower upper stop : Nat} {rest : List (Nat × Nat)} (h : lower ≤ upper)
      (tail : Consecutive upper rest stop) : Consecutive lower ((lower, upper) :: rest) stop

namespace Consecutive

variable {lower stop : Nat} {rs : List (Nat × Nat)}

theorem le (h : Consecutive lower rs stop) : lower ≤ stop := by
  induction h with
  | nil n => exact Nat.le_refl n
  | cons h _ ih => exact Nat.le_trans h ih

theorem bounds (h : Consecutive lower rs stop) {r : Nat × Nat} (hr : r ∈ rs) :
    lower ≤ r.1 ∧ r.1 ≤ r.2 ∧ r.2 ≤ stop := by
  induction h with
  | nil n => cases hr
  | cons h tail ih =>
    rcases List.mem_cons.mp hr with rfl | hr
    · exact ⟨Nat.le_refl _, h, tail.le⟩
    · obtain ⟨h₁, h₂, h₃⟩ := ih hr
      exact ⟨Nat.le_trans h h₁, h₂, h₃⟩

theorem cover (h : Consecutive lower rs stop) {i : Nat} (hl : lower ≤ i) (hu : i < stop) :
    ∃ r ∈ rs, r.1 ≤ i ∧ i < r.2 := by
  induction h with
  | nil n => omega
  | @cons lower upper stop rest _ _ ih =>
    rcases Nat.lt_or_ge i upper with hi | hi
    · exact ⟨(lower, upper), List.mem_cons_self, hl, hi⟩
    · obtain ⟨r, hr, h⟩ := ih hi hu
      exact ⟨r, List.mem_cons_of_mem _ hr, h⟩

theorem forall_iff (h : Consecutive lower rs stop) {p : Nat → Prop} :
    (∀ r ∈ rs, ∀ i, r.1 ≤ i → i < r.2 → p i) ↔ ∀ i, lower ≤ i → i < stop → p i := by
  constructor
  · intro hp i hl hu
    obtain ⟨r, hr, h₁, h₂⟩ := h.cover hl hu
    exact hp r hr i h₁ h₂
  · intro hp r hr i h₁ h₂
    obtain ⟨hb, -, hb'⟩ := h.bounds hr
    exact hp i (Nat.le_trans hb h₁) (Nat.lt_of_lt_of_le h₂ hb')

end Consecutive

/-- The runs from number `k` on.  The last of them may be shorter than the others. -/
theorem consecutive_from {count size : Nat} (hs : 0 < size) (n k : Nat)
    (h : k + n = (count + size - 1) / size) :
    Consecutive (min (k * size) count)
      ((List.range' k n).map fun k => (k * size, min (k * size + size) count)) count := by
  have hle := Nat.div_mul_le_self (count + size - 1) size
  have hlt := Nat.lt_div_mul_add (a := count + size - 1) hs
  induction n generalizing k with
  | zero =>
    have hk : count ≤ k * size := by
      rw [← h, Nat.add_zero] at hlt
      omega
    rw [Nat.min_eq_right hk]
    exact .nil count
  | succ n ih =>
    have hk : k * size < count := by
      have hm : (k + 1) * size ≤ count + size - 1 := by
        refine Nat.le_trans (Nat.mul_le_mul_right size ?_) hle
        omega
      rw [Nat.add_mul, Nat.one_mul] at hm
      omega
    have htail := ih (k + 1) (by omega)
    rw [Nat.add_mul, Nat.one_mul] at htail
    rw [Nat.min_eq_left (Nat.le_of_lt hk), List.range'_succ, List.map_cons]
    exact .cons (by omega) htail

theorem runs_consecutive (count : Nat) {size : Nat} (h : 0 < size) :
    Consecutive 0 (runs count size) count := by
  have hc := consecutive_from h ((count + size - 1) / size) 0 (Nat.zero_add _)
  rw [Nat.zero_mul, Nat.zero_min] at hc
  rw [runs, List.range_eq_range']
  exact hc

end Seismic
