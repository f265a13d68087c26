import Seismic.Subvolume.Basic

/-!
# Overwriting part of an array

What an array holds after some of its elements have been replaced, inside the replaced stretch
and outside it.  Where an array is made of two pieces, a stretch within one of them leaves the
other as it is.
-/

namespace Seismic

variable {β : Type} {xs ys : Array β} {zs : List β} {start i : Nat}

theorem getElem?_overwrite_outside (h : i < start ∨ start + zs.length ≤ i) :
    (overwrite xs start zs)[i]? = xs[i]? := by
  induction zs generalizing xs start with
  | nil => rfl
  | cons z zs ih =>
    simp only [List.length_cons] at h
    rw [overwrite, ih (by omega), Array.getElem?_setIfInBounds_ne (by omega)]

theorem getElem?_overwrite (hroom : start + zs.length ≤ xs.size) (hi : i < zs.length) :
    (overwrite xs start zs)[start + i]? = zs[i]? := by
  induction zs generalizing xs start i with
  | nil => simp at hi
  | cons z zs ih =>
    simp only [List.length_cons] at hroom hi
    cases i with
    | zero =>
      show (overwrite (xs.setIfInBounds start z) (start + 1) zs)[start]? = some z
      rw [getElem?_overwrite_outside (Or.inl (by omega)), Array.getElem?_setIfInBounds_self,
        if_pos (by omega)]
    | succ i =>
      rw [overwrite, ← Nat.add_assoc, Nat.add_right_comm, List.getElem?_cons_succ]
      exact ih (by rw [Array.size_setIfInBounds]; omega) (by omega)

/-- As many elements as the array has replace the whole of it. -/
theorem overwrite_all (h : zs.length = xs.size) : overwrite xs 0 zs = zs.toArray := by
  apply Array.ext_getElem?
  intro i
  rw [show zs.toArray[i]? = zs[i]? from List.getElem?_toArray]
  by_cases hi : i < zs.length
  · have hin : (overwrite xs 0 zs)[0 + i]? = zs[i]? := getElem?_overwrite (by omega) hi
    rwa [Nat.zero_add] at hin
  · have hsize := size_overwrite zs xs 0
    rw [Array.getElem?_eq_none (by omega), List.getElem?_eq_none (by omega)]

theorem extract_overwrite_outside {a b : Nat} (h : b ≤ start ∨ start + zs.length ≤ a) :
    (overwrite xs start zs).extract a b = xs.extract a b := by
  apply Array.ext_getElem?
  intro i
  rw [Array.getElem?_extract, Array.getElem?_extract, size_overwrite]
  by_cases hi : i < min b xs.size - a
  · rw [if_pos hi, if_pos hi, getElem?_overwrite_outside (by omega)]
  · rw [if_neg hi, if_neg hi]

theorem extract_overwrite {b : Nat} (hroom : b ≤ xs.size) (hlen : start + zs.length = b) :
    (overwrite xs start zs).extract start b = zs.toArray := by
  apply Array.ext_getElem?
  intro i
  rw [Array.getElem?_extract, size_overwrite,
    show zs.toArray[i]? = zs[i]? from List.getElem?_toArray]
  by_cases hi : i < zs.length
  · rw [if_pos (by omega), getElem?_overwrite (by omega) hi]
  · rw [if_neg (by omega), List.getElem?_eq_none (by omega)]

/-! ## Two pieces -/

theorem overwrite_append_left (h : start + zs.length ≤ xs.size) :
    overwrite (xs ++ ys) start zs = overwrite xs start zs ++ ys := by
  induction zs generalizing xs start with
  | nil => rfl
  | cons z zs ih =>
    simp only [List.length_cons] at h
    rw [overwrite, overwrite, Array.setIfInBounds_append_left (by omega),
      ih (by rw [Array.size_setIfInBounds]; omega)]

theorem overwrite_append_right :
    overwrite (xs ++ ys) (xs.size + start) zs = xs ++ overwrite ys start zs := by
  induction zs generalizing ys start with
  | nil => rfl
  | cons z zs ih =>
    rw [overwrite, overwrite, Array.setIfInBounds_append_right (by omega), Nat.add_sub_cancel_left,
      Nat.add_assoc, ih]

theorem extract_append_of_le_size {a b : Nat} (h : b ≤ xs.size) :
    (xs ++ ys).extract a b = xs.extract a b := by
  have hnone : ys.extract (a - xs.size) (b - xs.size) = #[] :=
    Array.extract_empty_of_stop_le_start (by omega)
  rw [Array.extract_append, hnone, Array.append_empty]

theorem extract_append_past_size {a b : Nat} :
    (xs ++ ys).extract (xs.size + a) (xs.size + b) = ys.extract a b := by
  have hnone : xs.extract (xs.size + a) (xs.size + b) = #[] := by
    apply Array.eq_empty_of_size_eq_zero
    rw [Array.size_extract]
    omega
  rw [Array.extract_append, hnone, Array.empty_append, Nat.add_sub_cancel_left,
    Nat.add_sub_cancel_left]

end Seismic
