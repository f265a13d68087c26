import Seismic.Proofs.Subvolume.Overwrite
import Seismic.Proofs.Volume.Read

/-!
# The samples of a box

The samples of a box are read in the order of its indices: the last axis runs fastest.  So a
sample is found from its place within the box and the lengths of the box, as it is found from
its index in the whole volume.
-/

namespace Seismic

/-! ## Pieces of equal length -/

section Pieces

variable {β γ : Type} {xs : List β} {f : β → List γ} {n : Nat}

theorem length_flatMap_of_length (h : ∀ x ∈ xs, (f x).length = n) :
    (xs.flatMap f).length = xs.length * n := by
  induction xs with
  | nil => simp
  | cons x xs ih =>
    rw [List.forall_mem_cons] at h
    rw [List.flatMap_cons, List.length_append, h.1, ih h.2, List.length_cons, Nat.add_mul,
      Nat.one_mul, Nat.add_comm]

theorem drop_flatMap_of_length (h : ∀ x ∈ xs, (f x).length = n) (a : Nat) :
    (xs.flatMap f).drop (a * n) = (xs.drop a).flatMap f := by
  induction xs generalizing a with
  | nil => simp
  | cons x xs ih =>
    rw [List.forall_mem_cons] at h
    cases a with
    | zero => rw [Nat.zero_mul, List.drop_zero, List.drop_zero]
    | succ a =>
      have hlen : (a + 1) * n = (f x).length + a * n := by
        rw [h.1, Nat.add_mul, Nat.one_mul, Nat.add_comm]
      rw [List.flatMap_cons, hlen, List.drop_length_add_append, ih h.2, List.drop_succ_cons]

/-- Each piece is found in its place among pieces of equal length. -/
theorem take_drop_flatMap_of_length (h : ∀ x ∈ xs, (f x).length = n) {a : Nat} {x : β}
    (hx : xs[a]? = some x) : ((xs.flatMap f).drop (a * n)).take n = f x := by
  obtain ⟨ha, hx⟩ := List.getElem?_eq_some_iff.mp hx
  rw [drop_flatMap_of_length h, List.drop_eq_getElem_cons ha, hx, List.flatMap_cons]
  exact List.take_left' (h x (hx ▸ List.getElem_mem ha))

/-- The place of an element among pieces of equal length. -/
theorem getElem?_flatMap_of_length (h : ∀ x ∈ xs, (f x).length = n) {a b : Nat} {x : β}
    (hx : xs[a]? = some x) (hb : b < n) : (xs.flatMap f)[a * n + b]? = (f x)[b]? := by
  obtain ⟨ha, hx⟩ := List.getElem?_eq_some_iff.mp hx
  have hlen : (f x).length = n := h x (hx ▸ List.getElem_mem ha)
  rw [← List.getElem?_drop, drop_flatMap_of_length h, List.drop_eq_getElem_cons ha, hx,
    List.flatMap_cons, List.getElem?_append_left (by omega)]

end Pieces

/-! ## Indices -/

theorem getElem?_range'_of_lt {start n a : Nat} (h : a < n) :
    (List.range' start n)[a]? = some (start + a) := by
  rw [List.getElem?_range' h, Nat.one_mul]

namespace Box

variable {b : Box} {i j k : Nat}

theorem length_row (b : Box) (i j : Nat) :
    ((List.range' b.lower.sample b.shape.sample).map fun k => (⟨i, j, k⟩ : Extent)).length =
      b.shape.sample := by
  rw [List.length_map, List.length_range']

theorem length_plane (b : Box) (i : Nat) :
    ((List.range' b.lower.crossline b.shape.crossline).flatMap fun j =>
      (List.range' b.lower.sample b.shape.sample).map fun k => (⟨i, j, k⟩ : Extent)).length =
        b.shape.crossline * b.shape.sample := by
  rw [length_flatMap_of_length fun j _ => b.length_row i j, List.length_range']

theorem length_indices (b : Box) : b.indices.length = b.shape.count := by
  unfold indices
  rw [length_flatMap_of_length fun i _ => b.length_plane i, List.length_range', ← Nat.mul_assoc]
  rfl

theorem getElem?_indices (hi : i < b.shape.inline) (hj : j < b.shape.crossline)
    (hk : k < b.shape.sample) :
    b.indices[(i * b.shape.crossline + j) * b.shape.sample + k]? =
      some ⟨b.lower.inline + i, b.lower.crossline + j, b.lower.sample + k⟩ := by
  have hin : j * b.shape.sample + k < b.shape.crossline * b.shape.sample := by
    have hrow := Nat.mul_le_mul_right b.shape.sample (Nat.succ_le_of_lt hj)
    rw [Nat.succ_mul] at hrow
    omega
  unfold indices
  rw [Nat.add_mul, Nat.mul_assoc, Nat.add_assoc,
    getElem?_flatMap_of_length (fun i _ => b.length_plane i) (getElem?_range'_of_lt hi) hin,
    getElem?_flatMap_of_length (fun j _ => b.length_row _ j) (getElem?_range'_of_lt hj) hk,
    List.getElem?_map, getElem?_range'_of_lt hk]
  rfl

/-! ## Numbers of samples -/

theorem count_le_of_fits {shape : Extent} (h : b.fits shape = true) :
    b.shape.count ≤ shape.count := by
  obtain ⟨h₁, h₂, h₃⟩ := fits_iff.mp h
  unfold Extent.count Box.shape
  exact Nat.mul_le_mul (Nat.mul_le_mul (Nat.le_trans (Nat.sub_le _ _) h₁)
    (Nat.le_trans (Nat.sub_le _ _) h₂)) (Nat.le_trans (Nat.sub_le _ _) h₃)

end Box

namespace Shape

theorem fitsMemory_mono {width m n : Nat} (hle : m ≤ n) (h : fitsMemory width n = true) :
    fitsMemory width m = true := by
  unfold fitsMemory at h ⊢
  rw [decide_eq_true_iff] at h ⊢
  exact Nat.lt_of_le_of_lt (Nat.mul_le_mul_left _ hle) h

/-- The number of bytes of an array that can be addressed is a 64-bit count. -/
theorem lt_of_fitsMemory {n : Nat} (h : fitsMemory 4 n = true) : n * 4 < countBound := by
  have hlt : 4 * n < signedBound := of_decide_eq_true h
  unfold signedBound at hlt
  unfold countBound
  omega

end Shape

/-! ## Reading -/

namespace Volume

variable {α σ : Type} {v : Volume α σ} {b : Box} {buffer ys : Array σ} {i j k : Nat}

/-- What is read is the samples of the box, whatever the buffer held. -/
theorem read_eq_ok (h : v.read buffer b = .ok ys) : ys.size = b.shape.count ∧
    List.Forall₂ (fun e y => v.sampleAt e = .ok y) b.indices ys.toList := by
  unfold read at h
  obtain ⟨-, h⟩ := check_eq_ok.mp h
  obtain ⟨n, hn, h⟩ := bind_eq_ok.mp h
  obtain ⟨hsize, h⟩ := check_eq_ok.mp h
  obtain ⟨zs, hzs, h⟩ := bind_eq_ok.mp h
  have hall := mapM_eq_ok.mp hzs
  have hcount : n = b.shape.count := (Box.count_eq_ok.mp hn).2
  have hlen : zs.length = buffer.size := by
    rw [← hall.length_eq, Box.length_indices, ← hcount, not_not.mp hsize]
  cases (pure_eq_ok.mp h).symm.trans (overwrite_all hlen)
  exact ⟨by rw [List.size_toArray, hlen, ← hcount, not_not.mp hsize], hall⟩

theorem getElem?_read (h : v.read buffer b = .ok ys) (hi : i < b.shape.inline)
    (hj : j < b.shape.crossline) (hk : k < b.shape.sample) :
    ∃ y, ys[(i * b.shape.crossline + j) * b.shape.sample + k]? = some y ∧
      v.sampleAt ⟨b.lower.inline + i, b.lower.crossline + j, b.lower.sample + k⟩ = .ok y := by
  have hindex := Box.getElem?_indices hi hj hk
  obtain ⟨hp, he⟩ := List.getElem?_eq_some_iff.mp hindex
  obtain ⟨hlen, hall⟩ := List.forall₂_iff_get.mp (read_eq_ok h).2
  have hy := hall _ hp (hlen ▸ hp)
  rw [List.get_eq_getElem, List.get_eq_getElem, he] at hy
  refine ⟨_, ?_, hy⟩
  rw [Array.getElem_toList]
  exact Array.getElem?_eq_getElem _

/-- A box within a volume that is held in memory can be read. -/
theorem exists_read_of_fits (hmem : Shape.fitsMemory 4 v.values.size = true)
    (hfits : b.fits v.shape = true) (z : σ) : boxBytes b = (.ok (b.shape.count * 4) : Result α Nat) ∧
      ∃ ys, v.read (Array.replicate (b.shape.count * 4 / 4) z) b = .ok ys := by
  have hcount : b.shape.count * 4 < countBound := by
    have hle : b.shape.count ≤ v.values.size := v.values_size ▸ Box.count_le_of_fits hfits
    have hlt := Shape.lt_of_fitsMemory hmem
    omega
  have hn : (b.count : Result α Nat) = .ok b.shape.count :=
    Box.count_eq_ok.mpr ⟨by omega, rfl⟩
  refine ⟨bind_eq_ok.mpr ⟨_, hn, mulCounts_eq_ok.mpr ⟨hcount, rfl⟩⟩, exists_read.mpr ⟨hfits, ?_⟩⟩
  rw [Array.size_replicate, Nat.mul_div_cancel _ (by decide), hn]

end Volume
end Seismic
