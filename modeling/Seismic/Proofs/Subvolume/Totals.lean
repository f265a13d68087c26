import Mathlib.Algebra.Order.BigOperators.Group.Finset
import Seismic.Proofs.Layout

/-!
# Totals of windows

Windows are laid out in the order of the cells, up to the first one that cannot be sized or
that takes the total beyond 64 bits.  What comes after it has no say in the outcome.
-/

namespace Seismic
namespace Layout

variable {α : Type} {sizeOf : Nat → Result α Nat} {length : Nat → Nat} {n i : Nat}
variable {offsets : Array Nat}

/-- The offsets of the windows of the first `n` cells, whose sizes are given. -/
def offsetsOf (sizeOf : Nat → Result α Nat) (n : Nat) : Result α (Array Nat) :=
  (List.range n).foldlM (fun offsets index => do extend offsets (← sizeOf index)) #[0]

/-- The number of samples in the windows of the first `n` cells. -/
def lengthBefore (length : Nat → Nat) (n : Nat) : Nat := ∑ i ∈ Finset.range n, length i

theorem lengthBefore_succ (length : Nat → Nat) (n : Nat) :
    lengthBefore length (n + 1) = lengthBefore length n + length n :=
  Finset.sum_range_succ length n

theorem lengthBefore_mono (length : Nat → Nat) {m : Nat} (h : m ≤ n) :
    lengthBefore length m ≤ lengthBefore length n :=
  Finset.sum_le_sum_of_subset (Finset.range_mono h)

theorem length_le_lengthBefore (hi : i < n) : length i ≤ lengthBefore length n := by
  have h := lengthBefore_mono length (Nat.succ_le_of_lt hi)
  rw [lengthBefore_succ] at h
  omega

/-- Windows that can be counted: the size of each is a difference of sample numbers, and the offset
behind them is a number of 64 bits. -/
structure Addressed (length : Nat → Nat) (n : Nat) : Prop where
  each : ∀ i < n, length i < signedBound
  total : lengthBefore length n < countBound

theorem Addressed.mono {m : Nat} (h : Addressed length n) (hm : m ≤ n) : Addressed length m :=
  ⟨fun i hi => h.each i (by omega), lt_of_le_of_lt (lengthBefore_mono length hm) h.total⟩

theorem Addressed.of_lt (h : lengthBefore length n < signedBound) : Addressed length n :=
  ⟨fun _ hi => lt_of_le_of_lt (length_le_lengthBefore hi) h, h.trans (by decide)⟩

theorem offsetsOf_succ (sizeOf : Nat → Result α Nat) (n : Nat) : offsetsOf sizeOf (n + 1) =
    (do extend (← offsetsOf sizeOf n) (← sizeOf n)) := by
  unfold offsetsOf
  rw [List.range_succ, List.foldlM_append]
  refine congrArg _ (funext fun offsets => ?_)
  rw [List.foldlM_cons]
  simp only [List.foldlM_nil, bind_pure]

/-- The running total is the last offset. -/
theorem offsetsOf_eq_ok (hk : ∀ i < n, sizeOf i = .ok (length i))
    (ht : lengthBefore length n < countBound) : ∃ offsets, offsetsOf sizeOf n = .ok offsets ∧
      offsets.back?.getD 0 = lengthBefore length n := by
  induction n with
  | zero => exact ⟨#[0], rfl, rfl⟩
  | succ n ih =>
    have hle := lengthBefore_mono length (Nat.le_add_right n 1)
    obtain ⟨offsets, ho, hback⟩ := ih (fun i hi => hk i (by omega)) (by omega)
    refine ⟨offsets.push (lengthBefore length (n + 1)), ?_, ?_⟩
    · rw [offsetsOf_succ, ho, ok_bind, hk n (Nat.lt_succ_self n), ok_bind]
      unfold extend
      rw [hback, addCounts_eq_ok.mpr ⟨?_, rfl⟩, ok_bind, ← lengthBefore_succ]
      · rfl
      · rwa [← lengthBefore_succ]
    · rw [Array.back?_push]
      rfl

theorem of_offsetsOf_eq_ok (h : offsetsOf sizeOf n = .ok offsets)
    (hk : ∀ i < n, ∀ k, sizeOf i = .ok k → k = length i) :
    (∀ i < n, sizeOf i = .ok (length i)) ∧ lengthBefore length n < countBound ∧
      offsets.back?.getD 0 = lengthBefore length n := by
  induction n generalizing offsets with
  | zero =>
    cases pure_eq_ok.mp h
    exact ⟨fun i hi => absurd hi (Nat.not_lt_zero i), Nat.two_pow_pos 64, rfl⟩
  | succ n ih =>
    rw [offsetsOf_succ] at h
    obtain ⟨before, hb, h⟩ := bind_eq_ok.mp h
    obtain ⟨k, hn, h⟩ := bind_eq_ok.mp h
    obtain ⟨hsizes, -, hback⟩ := ih hb fun i hi => hk i (by omega)
    obtain rfl := hk n (Nat.lt_succ_self n) k hn
    unfold extend at h
    obtain ⟨sum, hs, h⟩ := bind_eq_ok.mp h
    obtain ⟨hlt, rfl⟩ := addCounts_eq_ok.mp hs
    cases pure_eq_ok.mp h
    rw [hback, ← lengthBefore_succ] at hlt ⊢
    refine ⟨fun i hi => ?_, hlt, by rw [Array.back?_push]; rfl⟩
    rcases Nat.lt_succ_iff_lt_or_eq.mp hi with hi | rfl
    · exact hsizes i hi
    · exact hn

/-- A cell that cannot be sized ends the layout, if all cells before it are laid out. -/
theorem offsetsOf_eq_error {e : Failure α} (hi : i < n) (ho : offsetsOf sizeOf i = .ok offsets)
    (he : sizeOf i = .error e) : offsetsOf sizeOf n = .error e := by
  induction n with
  | zero => exact absurd hi (Nat.not_lt_zero i)
  | succ n ih =>
    rw [offsetsOf_succ]
    rcases Nat.lt_succ_iff_lt_or_eq.mp hi with hlt | rfl
    · rw [ih hlt]
      rfl
    · rw [ho, ok_bind, he]
      rfl

/-- A layout fails at a cell that cannot be sized, or at one that takes the total beyond 64
bits. -/
theorem of_offsetsOf_eq_error {e : Failure α} (h : offsetsOf sizeOf n = .error e) :
    ∃ i < n, ∃ offsets, offsetsOf sizeOf i = .ok offsets ∧ (sizeOf i = .error e ∨
      ∃ k, sizeOf i = .ok k ∧ countBound ≤ offsets.back?.getD 0 + k ∧ e = .fault .overflow) := by
  induction n with
  | zero => cases h
  | succ n ih =>
    rw [offsetsOf_succ] at h
    cases hb : offsetsOf sizeOf n with
    | error e' =>
      rw [hb] at h
      cases h
      obtain ⟨i, hi, hcell⟩ := ih hb
      exact ⟨i, by omega, hcell⟩
    | ok offsets =>
      refine ⟨n, Nat.lt_succ_self n, offsets, hb, ?_⟩
      rw [hb, ok_bind] at h
      cases hk : sizeOf n with
      | error e' =>
        rw [hk] at h
        cases h
        exact Or.inl rfl
      | ok k =>
        rw [hk, ok_bind] at h
        refine Or.inr ⟨k, rfl, ?_⟩
        unfold extend addCounts at h
        split_ifs at h with hlt
        · cases h
        · cases h
          exact ⟨Nat.not_lt.mp hlt, rfl⟩

end Layout
end Seismic
