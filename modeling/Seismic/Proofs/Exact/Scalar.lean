import Mathlib.Algebra.Order.Round
import Mathlib.Tactic.Linarith
import Mathlib.Tactic.Ring
import Seismic.Scalar

/-!
# Exact arithmetic

In exact arithmetic a position is an element of an ordered field in which numbers have
integer parts, such as that of the rational or of the real numbers.  Nothing is rounded, and
every value is finite and defined.  Conversions to integers are clamped as they are for
64-bit numbers.
-/

namespace Seismic

/-- An element of a field as a scalar.  It is a type of its own, so that the operations of
scalars do not mix with those of the field. -/
structure Exact (K : Type) where
  val : K
  deriving DecidableEq, Repr

attribute [ext] Exact

namespace Exact

variable {K : Type} [Field K] [LinearOrder K] [FloorRing K]

/-- The nearest integer, halves away from zero. -/
def away (x : K) : ℤ := if x < 0 then -round (-x) else round x

/-- The integer part, on the side of zero. -/
def truncated (x : K) : ℤ := if x < 0 then ⌈x⌉ else ⌊x⌋

instance scalar : Scalar (Exact K) where
  add x y := ⟨x.val + y.val⟩
  sub x y := ⟨x.val - y.val⟩
  mul x y := ⟨x.val * y.val⟩
  div x y := ⟨x.val / y.val⟩
  neg x := ⟨-x.val⟩
  le x y := x.val ≤ y.val
  lt x y := x.val < y.val
  beq x y := decide (x.val = y.val)
  decLE x y := inferInstanceAs (Decidable (x.val ≤ y.val))
  decLT x y := inferInstanceAs (Decidable (x.val < y.val))
  ofInt n := ⟨n⟩
  abs x := ⟨|x.val|⟩
  floor x := ⟨⌊x.val⌋⟩
  ceil x := ⟨⌈x.val⌉⟩
  nearest x := ⟨away x.val⟩
  clampedInt low high x := max low (min high (truncated x.val))
  remainder x y := ⟨x.val - y.val * truncated (x.val / y.val)⟩
  isFinite _ := true
  totalLe x y := decide (x.val ≤ y.val)

/-- Numbers stored as they are. -/
instance sampled : Sampled (Exact K) (Exact K) := ⟨id, id⟩

variable {x y : Exact K}

@[simp] theorem add_val : (x + y).val = x.val + y.val := rfl

@[simp] theorem sub_val : (x - y).val = x.val - y.val := rfl

@[simp] theorem mul_val : (x * y).val = x.val * y.val := rfl

@[simp] theorem div_val : (x / y).val = x.val / y.val := rfl

@[simp] theorem neg_val : (-x).val = -x.val := rfl

@[simp] theorem ofNat_val (n : ℕ) : (Scalar.ofNat n : Exact K).val = n := Int.cast_natCast n

@[simp] theorem zero_val : (0 : Exact K).val = 0 := Int.cast_zero

@[simp] theorem one_val : (1 : Exact K).val = 1 := Int.cast_one

@[simp] theorem numeral_val (n : ℕ) [n.AtLeastTwo] :
    (OfNat.ofNat n : Exact K).val = OfNat.ofNat n :=
  Int.cast_natCast n

@[simp] theorem abs_val : (Scalar.abs x).val = |x.val| := rfl

@[simp] theorem floor_val : (Scalar.floor x).val = ⌊x.val⌋ := rfl

@[simp] theorem nearest_val : (Scalar.nearest x).val = away x.val := rfl

theorem le_iff : x ≤ y ↔ x.val ≤ y.val := Iff.rfl

theorem lt_iff : x < y ↔ x.val < y.val := Iff.rfl

theorem beq_iff : (x == y) = true ↔ x.val = y.val := decide_eq_true_iff

theorem isUndefined_eq_false (x : Exact K) : Scalar.isUndefined x = false := by
  unfold Scalar.isUndefined
  rw [beq_iff.mpr rfl]
  rfl

@[simp] theorem max_val : (Scalar.max x y).val = max x.val y.val := by
  unfold Scalar.max
  rw [isUndefined_eq_false, isUndefined_eq_false, if_neg Bool.false_ne_true,
    if_neg Bool.false_ne_true]
  split_ifs with h
  · exact (max_eq_right (le_of_lt h)).symm
  · exact (max_eq_left (not_lt.mp h)).symm

variable [IsStrictOrderedRing K]

/-! ## Nearest integers and integer parts -/

/-- No integer is nearer than the nearest one. -/
theorem abs_sub_away (x : K) : |x - away x| = |x - round x| := by
  unfold away
  split_ifs
  · have h₁ := round_le x (-round (-x))
    have h₂ := round_le (-x) (-round x)
    have h₃ := abs_neg (x - ((-round (-x) : ℤ) : K))
    have h₄ := abs_neg (x - (round x : K))
    push_cast at h₁ h₂ h₃ ⊢
    rw [show -(x - -(round (-x) : K)) = -x - round (-x) by ring] at h₃
    rw [show -(x - (round x : K)) = -x - -round x by ring] at h₄
    linarith
  · rfl

theorem floor_le_away (x : K) : ⌊x⌋ ≤ away x := by
  have h := (abs_le.mp ((abs_sub_away x).le.trans (abs_sub_round x))).2
  have hlt : (⌊x⌋ : K) < away x + 1 := by linarith [Int.floor_le x]
  have : ⌊x⌋ < away x + 1 := by exact_mod_cast hlt
  omega

theorem away_le_ceil (x : K) : away x ≤ ⌈x⌉ := by
  have h := (abs_le.mp ((abs_sub_away x).le.trans (abs_sub_round x))).1
  have hlt : (away x : K) < ⌈x⌉ + 1 := by linarith [Int.le_ceil x]
  have : away x < ⌈x⌉ + 1 := by exact_mod_cast hlt
  omega

theorem away_intCast (n : ℤ) : away (n : K) = n := by
  unfold away
  rw [← Int.cast_neg, round_intCast, round_intCast, neg_neg, ite_self]

theorem truncated_intCast (n : ℤ) : truncated (n : K) = n := by
  unfold truncated
  rw [Int.ceil_intCast, Int.floor_intCast, ite_self]

theorem clampedInt_of_integer {n : ℤ} (h : x.val = n) (low high : ℤ) :
    Scalar.clampedInt low high x = max low (min high n) := by
  show max low (min high (truncated x.val)) = _
  rw [h, truncated_intCast]

theorem toCount_of_val {n : ℕ} (h : x.val = n) (hn : n < countBound) : Scalar.toCount x = n := by
  rw [← Int.cast_natCast] at h
  unfold Scalar.toCount
  rw [clampedInt_of_integer h]
  omega

theorem nearest_ofNat (n : ℕ) : Scalar.nearest (Scalar.ofNat n : Exact K) = Scalar.ofNat n := by
  ext
  rw [nearest_val, ofNat_val, ← Int.cast_natCast, away_intCast]

/-! ## Remainders -/

/-- The remainder by a positive number, below the number itself. -/
theorem remainderUp_val (hy : 0 < y.val) : ∃ k : ℤ,
    (Scalar.remainderUp x y).val = x.val - k * y.val ∧ 0 ≤ (Scalar.remainderUp x y).val ∧
      (Scalar.remainderUp x y).val < y.val := by
  have hr : (Scalar.remainder x y).val = x.val - y.val * truncated (x.val / y.val) := rfl
  have hmul : x.val / y.val * y.val = x.val := div_mul_cancel₀ _ hy.ne'
  unfold Scalar.remainderUp
  dsimp only
  by_cases hq : x.val / y.val < 0
  · have hc := mul_le_mul_of_nonneg_right (Int.le_ceil (x.val / y.val)) hy.le
    have hc' := mul_lt_mul_of_pos_right (Int.ceil_lt_add_one (x.val / y.val)) hy
    rw [truncated, if_pos hq] at hr
    split_ifs with h
    · have hv : (Scalar.remainder x y + Scalar.abs y).val =
          x.val - (⌈x.val / y.val⌉ - 1 : ℤ) * y.val := by
        rw [add_val, abs_val, abs_of_pos hy, hr]
        push_cast
        ring
      refine ⟨_, hv, ?_⟩
      rw [lt_iff, zero_val, hr] at h
      rw [hv]
      push_cast
      constructor <;> linarith
    · rw [lt_iff, zero_val, not_lt] at h
      refine ⟨⌈x.val / y.val⌉, by rw [hr]; ring, h, ?_⟩
      rw [hr]
      linarith
  · have hf := mul_le_mul_of_nonneg_right (Int.floor_le (x.val / y.val)) hy.le
    have hf' := mul_lt_mul_of_pos_right (Int.lt_floor_add_one (x.val / y.val)) hy
    rw [truncated, if_neg hq] at hr
    rw [if_neg]
    · refine ⟨⌊x.val / y.val⌋, by rw [hr]; ring, ?_⟩
      rw [hr]
      constructor <;> linarith
    · rw [lt_iff, zero_val, hr, not_lt]
      linarith

end Exact
end Seismic
