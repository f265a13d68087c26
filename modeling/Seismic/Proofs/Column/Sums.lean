import Seismic.Proofs.Binary.Root
import Seismic.Proofs.Column.Rounded

/-!
# Sums over a column

A sum of finite numbers may overflow half way.  From then on it stays at the infinity it has
reached, since the summands are finite, or, where they are squares that have overflowed
themselves, all on the same side of zero.  So no sum is undefined.  The count that a sum is divided
by is finite and not zero.  A deviation from the mean is defined even where the mean is infinite,
and its square is not negative, so no root is taken of a negative number.
-/

namespace Seismic
namespace Double

open Float.Model
open Float.Model.UnpackedFloat (Sign)

variable {s : Sign} {v w : EReal} {x y : Float}

/-! ## One side of zero -/

/-- Whether a place lies on a side of zero, on which zero lies itself. -/
def side : Sign → EReal → Prop
  | .positive, v => 0 ≤ v
  | .negative, v => v ≤ 0

theorem side_zero (s : Sign) : side s 0 := by
  cases s <;> exact le_rfl

theorem side_add (hv : side s v) (hw : side s w) : side s (v + w) := by
  cases s with
  | positive => exact add_nonneg hv hw
  | negative => exact add_nonpos hv hw

theorem side_div (hv : side s v) (hw : 0 ≤ w) : side s (v / w) := by
  cases s with
  | positive => exact EReal.div_nonneg hv hw
  | negative => exact EReal.div_nonpos_of_nonpos_of_nonneg hv hw

/-- Rounding takes no place across zero, in whichever format. -/
theorem side_nearest (spec : Format) (hv : side s v) : side s (Binary.nearest spec v) := by
  have hzero : Binary.nearest spec 0 = 0 := Binary.nearest_value (u := .zero .positive) trivial
  cases s with
  | positive => exact hzero.symm.trans_le (Binary.nearest_mono spec hv)
  | negative => exact (Binary.nearest_mono spec hv).trans_eq hzero

/-- The number is defined and on a side of zero. -/
structure OnSide (s : Sign) (x : Float) : Prop where
  isNumber : IsNumber x
  side : Double.side s (value x)

theorem value_zero : IsNumber (0 : Float) ∧ value (0 : Float) = 0 := by
  refine ⟨isInteger_zero.finite.isNumber, ?_⟩
  rw [value_of_isFinite isInteger_zero.finite, isInteger_zero.eq, Int.cast_zero, EReal.coe_zero]

theorem onSide_zero (s : Sign) : OnSide s 0 :=
  ⟨value_zero.1, value_zero.2.symm ▸ side_zero s⟩

theorem nonneg_iff : 0 ≤ x ↔ OnSide .positive x := by
  rw [le_iff, value_zero.2]
  exact ⟨fun h => ⟨h.2.1, h.2.2⟩, fun h => ⟨value_zero.1, h.isNumber, h.side⟩⟩

theorem nonpos_iff : x ≤ 0 ↔ OnSide .negative x := by
  rw [le_iff, value_zero.2]
  exact ⟨fun h => ⟨h.1, h.2.2⟩, fun h => ⟨h.isNumber, value_zero.1, h.side⟩⟩

theorem onSide_infinity {u : UnpackedFloat} (hu : u = .infinity s) :
    OnSide s (.ofModel (.pack u)) := by
  have hx : (Float.ofModel (.pack u)).toModel.unpack = .infinity s := by
    rw [hu]
    exact Binary.unpack_pack_infinity s
  refine ⟨?_, ?_⟩
  · rw [IsNumber, hx]
    exact UnpackedFloat.noConfusion
  · rw [value, hx]
    cases s with
    | positive => exact le_top
    | negative => exact bot_le

theorem unpack_of_not_isFinite (hx : IsNumber x) (hf : ¬ IsFinite x) :
    ∃ t, x.toModel.unpack = .infinity t := by
  rcases Binary.isFinite_or_infinity hx with h | h | h
  · exact absurd h hf
  · exact ⟨_, h⟩
  · exact ⟨_, h⟩

namespace OnSide

/-- There is one infinity on a side. -/
theorem unpack_eq (hx : OnSide s x) (hf : ¬ IsFinite x) : x.toModel.unpack = .infinity s := by
  obtain ⟨t, hu⟩ := unpack_of_not_isFinite hx.isNumber hf
  have hside := hx.side
  rw [value, hu] at hside
  cases s <;> cases t
  · exact hu
  · exact absurd hside (not_le.mpr EReal.zero_lt_top)
  · exact absurd hside (not_le.mpr EReal.bot_lt_zero)
  · exact hu

/-- Numbers on one side can be added, infinities among them. -/
theorem add (hx : OnSide s x) (hy : OnSide s y) : OnSide s (x + y) := by
  by_cases hyf : IsFinite y
  · obtain ⟨hn, hv⟩ := add_spec hx.isNumber hyf
    exact ⟨hn, hv ▸ side_nearest _ (side_add hx.side hy.side)⟩
  · by_cases hxf : IsFinite x
    · obtain ⟨hn, hv⟩ := finite_add_spec hxf hy.isNumber
      exact ⟨hn, hv ▸ side_nearest _ (side_add hx.side hy.side)⟩
    · apply onSide_infinity
      rw [hx.unpack_eq hxf, hy.unpack_eq hyf]
      cases s <;> rfl

theorem div (hx : OnSide s x) (hy : IsFinite y) (hp : 0 < toReal y) : OnSide s (x / y) := by
  obtain ⟨hn, hv⟩ := div_spec hx.isNumber hy hp.ne'
  refine ⟨hn, hv ▸ side_nearest _ (side_div hx.side ?_)⟩
  rw [value_of_isFinite hy]
  exact_mod_cast hp.le

theorem sqrt (hx : OnSide .positive x) : OnSide .positive x.sqrt := by
  by_cases hf : IsFinite x
  · have h0 := hx.side
    rw [value_of_isFinite hf] at h0
    obtain ⟨hn, hv⟩ := sqrt_spec hf (EReal.coe_nonneg.mp h0)
    refine ⟨hn, hv ▸ side_nearest _ ?_⟩
    show (0 : EReal) ≤ (√(toReal x) : ℝ)
    exact_mod_cast Real.sqrt_nonneg (toReal x)
  · apply onSide_infinity
    rw [hx.unpack_eq hf]
    rfl

/-- Narrowing keeps the side. -/
theorem narrow (hx : OnSide s x) : OnSide s (Single.ofDouble x).toDouble := by
  have h := Single.isAt_ofDouble hx.isNumber
  exact ⟨h.isNumber, h.value ▸ side_nearest _ hx.side⟩

end OnSide

theorem onSide_abs (hx : IsFinite x) : OnSide .positive x.abs := by
  obtain ⟨hf, hv⟩ := abs_finite hx
  refine ⟨hf.isNumber, ?_⟩
  rw [value_of_isFinite hf, hv]
  show (0 : EReal) ≤ (|toReal x| : ℝ)
  exact_mod_cast abs_nonneg (toReal x)

/-- A square is not negative, also one of an infinity. -/
theorem onSide_square (hx : IsNumber x) : OnSide .positive (Column.square x) := by
  by_cases hf : IsFinite x
  · obtain ⟨hn, hv⟩ := mul_spec hf hf
    refine ⟨hn, hv ▸ side_nearest _ ?_⟩
    show (0 : EReal) ≤ (toReal x * toReal x : ℝ)
    exact_mod_cast mul_self_nonneg (toReal x)
  · obtain ⟨t, hu⟩ := unpack_of_not_isFinite hx hf
    apply onSide_infinity
    rw [hu]
    cases t <;> rfl

/-- A count is rounded, but neither to zero nor to an infinity. -/
theorem count_finite {n : Nat} (h0 : n ≠ 0) (h : n < countBound) :
    IsFinite (Scalar.ofNat n : Float) ∧ 0 < toReal (Scalar.ofNat n : Float) := by
  have hle : |((n : ℤ) : ℝ)| ≤ greatest := by
    rw [Int.cast_natCast, Nat.abs_cast]
    have hb : n ≤ 2 ^ 64 := h.le
    exact le_greatest 64 (by norm_num) (by exact_mod_cast hb)
  obtain ⟨hf, hv⟩ := ofInt_rounded hle
  refine ⟨hf, ?_⟩
  have hone : ((1 : ℤ) : ℝ) ≤ ((n : ℤ) : ℝ) := by exact_mod_cast Nat.pos_of_ne_zero h0
  have hmono := rounded_mono hone
  rw [rounded_intCast (by norm_num), Int.cast_one, ← hv] at hmono
  exact zero_lt_one.trans_le hmono

end Double

/-! ## Sums and means -/

namespace Column

open Float.Model.UnpackedFloat (Sign)
open Double (IsNumber IsFinite OnSide value toReal)

variable {xs : List Float} {s : Sign}

theorem sum_isNumber (hxs : ∀ x ∈ xs, IsFinite x) : IsNumber (sum xs) :=
  List.foldlRecOn xs (· + ·) (Double.onSide_zero .positive).isNumber
    fun _ hm x hx => (Double.add_spec hm (hxs x hx)).1

theorem sum_onSide (hxs : ∀ x ∈ xs, OnSide s x) : OnSide s (sum xs) :=
  List.foldlRecOn xs (· + ·) (Double.onSide_zero s) fun _ hm x hx => hm.add (hxs x hx)

theorem mean_nil : mean ([] : List Float) = 0 := rfl

theorem mean_of_ne_nil (hne : xs ≠ []) : mean xs = sum xs / Scalar.ofNat xs.length := by
  have hempty : ¬ xs.isEmpty = true := by
    rw [List.isEmpty_iff]
    exact hne
  rw [mean, if_neg hempty]

section

variable (hlen : xs.length < countBound)

include hlen

theorem mean_isNumber (hxs : ∀ x ∈ xs, IsFinite x) : IsNumber (mean xs) := by
  by_cases hne : xs = []
  · rw [hne, mean_nil]
    exact (Double.onSide_zero .positive).isNumber
  · obtain ⟨hf, hp⟩ := Double.count_finite (mt List.length_eq_zero_iff.mp hne) hlen
    rw [mean_of_ne_nil hne]
    exact (Double.div_spec (sum_isNumber hxs) hf hp.ne').1

theorem mean_onSide (hxs : ∀ x ∈ xs, OnSide s x) : OnSide s (mean xs) := by
  by_cases hne : xs = []
  · rw [hne, mean_nil]
    exact Double.onSide_zero s
  · obtain ⟨hf, hp⟩ := Double.count_finite (mt List.length_eq_zero_iff.mp hne) hlen
    rw [mean_of_ne_nil hne]
    exact (sum_onSide hxs).div hf hp

theorem mean_map_onSide {f : Float → Float} (hf : ∀ x ∈ xs, OnSide s (f x)) :
    OnSide s (mean (xs.map f)) :=
  mean_onSide (by rwa [List.length_map]) (List.forall_mem_map.mpr hf)

theorem power_onSide (hxs : ∀ x ∈ xs, IsFinite x) : OnSide .positive (power xs) :=
  mean_map_onSide hlen fun x hx => Double.onSide_square (hxs x hx).isNumber

/-- A value is finite, so its distance from the mean is defined even if the mean is not finite. -/
theorem variance_onSide (hxs : ∀ x ∈ xs, IsFinite x) : OnSide .positive (variance xs) :=
  mean_map_onSide hlen fun x hx =>
    Double.onSide_square (Double.finite_sub_spec (hxs x hx) (mean_isNumber hlen hxs)).1

end

/-! ## Values of one sign -/

theorem positive_onSide : ∀ x ∈ positive xs, OnSide .positive x := by
  intro x hx
  obtain ⟨-, hlt⟩ := List.mem_filter.mp hx
  obtain ⟨-, hn, hv⟩ := Double.lt_iff.mp (of_decide_eq_true hlt)
  exact ⟨hn, (Double.value_zero.2.symm.trans_lt hv).le⟩

theorem negative_onSide : ∀ x ∈ negative xs, OnSide .negative x := by
  intro x hx
  obtain ⟨-, hlt⟩ := List.mem_filter.mp hx
  obtain ⟨hn, -, hv⟩ := Double.lt_iff.mp (of_decide_eq_true hlt)
  exact ⟨hn, (hv.trans_eq Double.value_zero.2).le⟩

theorem length_positive_le (xs : List Float) : (positive xs).length ≤ xs.length :=
  List.length_filter_le _ _

theorem length_negative_le (xs : List Float) : (negative xs).length ≤ xs.length :=
  List.length_filter_le _ _

theorem positive_eq_nil (h : ∀ x ∈ xs, ¬ 0 < x) : positive xs = [] :=
  List.filter_eq_nil_iff.mpr fun x hx hlt => h x hx (of_decide_eq_true hlt)

theorem negative_eq_nil (h : ∀ x ∈ xs, ¬ x < 0) : negative xs = [] :=
  List.filter_eq_nil_iff.mpr fun x hx hlt => h x hx (of_decide_eq_true hlt)

end Column

/-! ## Attributes -/

namespace Attribute

open Double (IsNumber IsFinite OnSide)

/-- An attribute of a segment as a number and as a sample. -/
structure Gives (a : Attribute) (c : ResampledSegment Float) (x : Float) (w : Single) : Prop where
  reduce : a.reduce c = .ok x
  sample : a.sample c = .ok w

variable {a : Attribute} {c : ResampledSegment Float} {x : Float}

theorem gives_of_reduce (h : a.reduce c = .ok x) : a.Gives c x (Sampled.narrow x) := by
  refine ⟨h, ?_⟩
  unfold sample
  rw [h]
  rfl

section

variable (hsize : c.values.toList.length < countBound)
  (hf : ∀ x ∈ c.values.toList, IsFinite x)

include hsize hf

theorem reduce_nonneg (ha : a ∈ [meanAbs, meanPos, rms, var, sd, sumPos]) :
    ∃ x, a.reduce c = .ok x ∧ OnSide .positive x := by
  have hpositive := (Column.length_positive_le c.values.toList).trans_lt hsize
  simp only [List.mem_cons, List.not_mem_nil, or_false] at ha
  rcases ha with rfl | rfl | rfl | rfl | rfl | rfl
  · exact ⟨_, rfl, Column.mean_map_onSide hsize fun x hx => Double.onSide_abs (hf x hx)⟩
  · exact ⟨_, rfl, Column.mean_onSide hpositive Column.positive_onSide⟩
  · exact ⟨_, rfl, (Column.power_onSide hsize hf).sqrt⟩
  · exact ⟨_, rfl, Column.variance_onSide hsize hf⟩
  · exact ⟨_, rfl, (Column.variance_onSide hsize hf).sqrt⟩
  · exact ⟨_, rfl, Column.sum_onSide Column.positive_onSide⟩

omit hf in
theorem reduce_nonpos (ha : a ∈ [meanNeg, sumNeg]) :
    ∃ x, a.reduce c = .ok x ∧ OnSide .negative x := by
  have hnegative := (Column.length_negative_le c.values.toList).trans_lt hsize
  simp only [List.mem_cons, List.not_mem_nil, or_false] at ha
  rcases ha with rfl | rfl
  · exact ⟨_, rfl, Column.mean_onSide hnegative Column.negative_onSide⟩
  · exact ⟨_, rfl, Column.sum_onSide Column.negative_onSide⟩

theorem reduce_isNumber
    (ha : a ∈ [mean, meanAbs, meanPos, meanNeg, rms, var, sd, sumPos, sumNeg]) :
    ∃ x, a.reduce c = .ok x ∧ IsNumber x := by
  by_cases hmean : a = mean
  · rw [hmean]
    exact ⟨_, rfl, Column.mean_isNumber hsize hf⟩
  · by_cases hneg : a ∈ [meanNeg, sumNeg]
    · obtain ⟨x, hx, hs⟩ := reduce_nonpos hsize hneg
      exact ⟨x, hx, hs.isNumber⟩
    · have hpos : a ∈ [meanAbs, meanPos, rms, var, sd, sumPos] := by
        simp only [List.mem_cons, List.not_mem_nil, or_false] at ha hneg ⊢
        tauto
      obtain ⟨x, hx, hs⟩ := reduce_nonneg hsize hf hpos
      exact ⟨x, hx, hs.isNumber⟩

end

theorem meanPos_eq_zero (h : ∀ x ∈ c.values.toList, ¬ 0 < x) : meanPos.reduce c = .ok 0 :=
  congrArg (fun xs => Except.ok (Column.mean xs)) (Column.positive_eq_nil h)

theorem meanNeg_eq_zero (h : ∀ x ∈ c.values.toList, ¬ x < 0) : meanNeg.reduce c = .ok 0 :=
  congrArg (fun xs => Except.ok (Column.mean xs)) (Column.negative_eq_nil h)

end Attribute

/-- Sums and means over a column of finite values are defined, and so are their samples.  Those of
magnitudes, of squares and of positive values are not negative, those of negative values are not
positive.  A mean over the values of one sign is zero if there are none.  The length of a column
is a count, as any length is. -/
theorem sample_sums {c : ResampledSegment Float} (hsize : c.values.size < countBound)
    (hf : ∀ x ∈ c.values.toList, x.isFinite = true) :
    (∀ a ∈ [Attribute.mean, .meanAbs, .meanPos, .meanNeg, .rms, .var, .sd, .sumPos, .sumNeg],
      ∃ x w, a.Gives c x w ∧ x.isNaN = false ∧ w.toDouble.isNaN = false) ∧
    (∀ a ∈ [Attribute.meanAbs, .meanPos, .rms, .var, .sd, .sumPos],
      ∃ x w, a.Gives c x w ∧ 0 ≤ x ∧ 0 ≤ w.toDouble) ∧
    (∀ a ∈ [Attribute.meanNeg, .sumNeg], ∃ x w, a.Gives c x w ∧ x ≤ 0 ∧ w.toDouble ≤ 0) ∧
    ((∀ x ∈ c.values.toList, ¬ 0 < x) → Attribute.meanPos.Gives c 0 Sampled.zero) ∧
    ((∀ x ∈ c.values.toList, ¬ x < 0) → Attribute.meanNeg.Gives c 0 Sampled.zero) := by
  refine ⟨?_, ?_, ?_, ?_, ?_⟩
  · intro a ha
    obtain ⟨x, hx, hn⟩ := Attribute.reduce_isNumber hsize hf ha
    refine ⟨x, _, Attribute.gives_of_reduce hx, Double.isNumber_iff.mp hn, ?_⟩
    exact Double.isNumber_iff.mp (Single.isAt_ofDouble hn).isNumber
  · intro a ha
    obtain ⟨x, hx, hs⟩ := Attribute.reduce_nonneg hsize hf ha
    exact ⟨x, _, Attribute.gives_of_reduce hx, Double.nonneg_iff.mpr hs,
      Double.nonneg_iff.mpr hs.narrow⟩
  · intro a ha
    obtain ⟨x, hx, hs⟩ := Attribute.reduce_nonpos hsize ha
    exact ⟨x, _, Attribute.gives_of_reduce hx, Double.nonpos_iff.mpr hs,
      Double.nonpos_iff.mpr hs.narrow⟩
  · intro h
    exact Attribute.gives_of_reduce (Attribute.meanPos_eq_zero h)
  · intro h
    exact Attribute.gives_of_reduce (Attribute.meanNeg_eq_zero h)

/-- Three times the greatest finite number: the mean is infinite, and so is every deviation from
it. -/
theorem sample_sums_of_overflow : ∃ x w,
    Attribute.sd.Gives (.four (.ofBits 0x7FEFFFFFFFFFFFFF) (.ofBits 0x7FEFFFFFFFFFFFFF)
      (.ofBits 0x7FEFFFFFFFFFFFFF) 0) x w ∧ x.isNaN = false ∧ w.toDouble.isNaN = false := by
  have hf : ∀ x ∈ [Float.ofBits 0x7FEFFFFFFFFFFFFF, .ofBits 0x7FEFFFFFFFFFFFFF,
      .ofBits 0x7FEFFFFFFFFFFFFF, 0], x.isFinite = true := by decide +kernel
  obtain ⟨hdefined, -⟩ := sample_sums (c := .four (.ofBits 0x7FEFFFFFFFFFFFFF)
    (.ofBits 0x7FEFFFFFFFFFFFFF) (.ofBits 0x7FEFFFFFFFFFFFFF) 0) (by decide) hf
  exact hdefined .sd (by decide)

end Seismic
