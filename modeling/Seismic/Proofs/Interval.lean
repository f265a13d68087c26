import Seismic.Proofs.Refit

/-!
# The interval of a position

A position is looked up by halving a range of nodes.  Where the nodes at or below the position
are an initial range of all nodes, the search ends at the last of them, or at the last but one
of all nodes if that comes before.  A fitted spline has the value of the cubic on the interval
that is found.
-/

namespace Seismic
namespace Spline

/-- Halving ends at the last index where `holds` is true, or at the first index of the range if
it is true nowhere. -/
theorem bisect_spec (holds : Nat → Bool) (size base : Nat) (hsize : 0 < size)
    (hmono : ∀ i j, i ≤ j → j < base + size → holds j = true → holds i = true) :
    base ≤ bisect holds size base ∧ bisect holds size base < base + size ∧
      (bisect holds size base = base ∨ holds (bisect holds size base) = true) ∧
      ∀ i, bisect holds size base < i → i < base + size → holds i = false := by
  induction size, base using bisect.induct holds with
  | case1 size base h half ih =>
    rw [bisect, if_pos h]
    dsimp only
    have hhalf : size / 2 = half := rfl
    rw [hhalf]
    clear_value half
    by_cases hmid : holds (base + half) = true
    · rw [dif_pos hmid] at ih
      rw [if_pos hmid]
      obtain ⟨hlow, hhigh, hends, hafter⟩ :=
        ih (by omega) fun i j hij hj => hmono i j hij (by omega)
      refine ⟨by omega, by omega, Or.inr ?_, fun i hi hlt => hafter i hi (by omega)⟩
      rcases hends with hends | hends
      · rwa [hends]
      · exact hends
    · rw [dif_neg hmid] at ih
      rw [if_neg hmid]
      obtain ⟨hlow, hhigh, hends, hafter⟩ :=
        ih (by omega) fun i j hij hj => hmono i j hij (by omega)
      refine ⟨hlow, by omega, hends, fun i hi hlt => ?_⟩
      rcases Nat.lt_or_ge i (base + (size - half)) with h' | h'
      · exact hafter i hi h'
      · exact eq_false_of_ne_true fun hholds => hmid (hmono _ i (by omega) hlt hholds)
  | case2 size base h =>
    rw [bisect, if_neg h]
    exact ⟨Nat.le_refl _, by omega, Or.inl rfl, fun i hi hlt => by omega⟩

theorem countWhile_le (holds : Nat → Bool) (size : Nat)
    (hmono : ∀ i j, i ≤ j → j < size → holds j = true → holds i = true) :
    countWhile holds size ≤ size ∧
      ∀ i < size, (i < countWhile holds size ↔ holds i = true) := by
  unfold countWhile
  by_cases h0 : size = 0
  · subst h0
    exact ⟨Nat.le_refl _, fun i hi => absurd hi i.not_lt_zero⟩
  rw [if_neg h0]
  dsimp only
  obtain ⟨-, hlt, hends, hafter⟩ := bisect_spec holds size 0 (Nat.pos_of_ne_zero h0)
    fun i j hij hj => hmono i j hij (by omega)
  rw [Nat.zero_add] at hlt hafter
  have hbelow : holds (bisect holds size 0) = true → ∀ i ≤ bisect holds size 0, holds i = true :=
    fun h i hi => hmono i _ hi hlt h
  split_ifs with hlast
  · refine ⟨hlt, fun i hi => ⟨fun h => hbelow hlast i (Nat.le_of_lt_succ h), fun h => ?_⟩⟩
    by_contra hgt
    rw [hafter i (by omega) hi] at h
    cases h
  · have hzero := hends.resolve_right hlast
    refine ⟨Nat.le_of_lt hlt, fun i hi => ⟨fun h => by omega, fun h => ?_⟩⟩
    by_contra hge
    rcases Nat.eq_zero_or_pos i with rfl | hpos
    · rw [hzero] at hlast
      exact hlast h
    · rw [hafter i (by omega) hi] at h
      cases h

variable {α : Type} [Scalar α] {x : Array α} {position : α}

/-- The node before a position and the node after it, unless there is none. -/
theorem interval_spec (h2 : 2 ≤ x.size)
    (hmono : ∀ i j, i ≤ j → j < x.size → x.getD j 0 ≤ position → x.getD i 0 ≤ position)
    (hfirst : x.getD 0 0 ≤ position) :
    x.getD (interval x position) 0 ≤ position ∧ (interval x position + 2 = x.size ∨
      ¬ x.getD (interval x position + 1) 0 ≤ position) := by
  obtain ⟨hle, hiff⟩ := countWhile_le (fun i => decide (x.getD i 0 ≤ position)) x.size
    fun i j hij hj h => decide_eq_true (hmono i j hij hj (of_decide_eq_true h))
  simp only [decide_eq_true_iff] at hiff
  unfold interval
  dsimp only
  generalize countWhile (fun i => decide (x.getD i 0 ≤ position)) x.size = count at hle hiff ⊢
  have hpos : 0 < count := (hiff 0 (by omega)).mpr hfirst
  rcases Nat.le_total (count - 1) (x.size - 2) with h | h
  · rw [Nat.min_eq_left h]
    refine ⟨(hiff _ (by omega)).mp (by omega), ?_⟩
    rcases Nat.lt_or_ge (count - 1 + 1) x.size with hlt | hge
    · exact Or.inr fun hat => absurd ((hiff _ hlt).mpr hat) (by omega)
    · exact Or.inl (by omega)
  · rw [Nat.min_eq_right h]
    exact ⟨(hiff _ (by omega)).mp (by omega), Or.inl (by omega)⟩

/-! ## The value of a fitted spline -/

theorem element_eq_getD {xs : Array α} {i : Nat} (h : i < xs.size) :
    element xs i = .ok (xs.getD i 0) := by
  rw [element_eq_ok h, Array.getD_eq_getD_getElem?, Array.getElem?_eq_getElem h, Option.getD_some]

theorem getD_derivativesOf {x y : Array α} {i : Nat} (h : i < x.size) :
    (derivativesOf (x, y)).getD i 0 = derivative x y i := by
  have hsize : i < (derivativesOf (x, y)).size := by
    unfold derivativesOf
    rwa [Array.size_ofFn]
  rw [Array.getD_eq_getD_getElem?, Array.getElem?_eq_getElem hsize, Option.getD_some]
  exact Array.getElem_ofFn hsize

/-- The value at a position of the cubic on the interval `k`. -/
def piece (x y : Array α) (k : Nat) (position : α) : α :=
  cubic (x.getD (k + 1) 0 - x.getD k 0)
    ((position - x.getD k 0) / (x.getD (k + 1) 0 - x.getD k 0)) (y.getD k 0) (y.getD (k + 1) 0)
    (derivative x y k) (derivative x y (k + 1))

theorem eval_fit (s : Spline α) {x y : Array α} (h : Accepts (x, y))
    (h₁ : x.getD 0 0 ≤ position) (h₂ : position ≤ x.getD (x.size - 1) 0) :
    (s.fit x y).2.eval position = .ok (piece x y (interval x position) position) := by
  have hsize := h.size_eq
  have hk := interval_add_one_lt position h.two_le
  have hsize' : (derivativesOf (x, y)).size = x.size := Array.size_ofFn
  rw [fit_snd, if_pos h]
  unfold eval
  dsimp only
  rw [if_neg (Nat.not_lt.mpr h.two_le), decide_eq_true h₁, decide_eq_true h₂, Bool.and_self,
    Bool.not_true, if_neg Bool.false_ne_true, element_eq_getD (by omega),
    element_eq_getD (by omega), element_eq_getD (by omega), element_eq_getD (by omega),
    getD_derivativesOf (by omega), getD_derivativesOf (by omega)]
  rfl

end Spline
end Seismic
