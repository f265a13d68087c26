import Seismic.Proofs.Column.Median
import Seismic.Proofs.Result
import Seismic.Proofs.Single

/-!
# Extremes as samples

A column of values of at most half the range has a median between its extremes, although the
median of an even number of values is a sum that is rounded and halved.  Rounding to samples keeps
the order, an overflow to infinity included, so samples of attributes are in the order that the
attributes themselves are in.
-/

namespace Seismic
namespace Double

open Float.Model

variable {x y z : Float}

/-! ## Half of a sum -/

theorem rounded_two_mul (x : Float) : rounded (2 * toReal x) = 2 * toReal x := by
  obtain ⟨n, e, hn, he, -, hx⟩ := toReal_digits x
  have htwice : 2 * toReal x = n * (2 : ℝ) ^ (e + 1) := by
    rw [hx, zpow_add_one₀ (by norm_num)]
    ring
  rw [htwice]
  exact rounded_digits hn (by omega)

/-- A magnitude at which two numbers can be added. -/
theorem abs_add_le_greatest (hx : |toReal x| ≤ 2 ^ 1022) (hy : |toReal y| ≤ 2 ^ 1022) :
    |toReal x + toReal y| ≤ greatest := by
  refine le_greatest 1023 le_rfl ?_
  calc |toReal x + toReal y| ≤ |toReal x| + |toReal y| := abs_add_le _ _
    _ ≤ 2 ^ 1022 + 2 ^ 1022 := add_le_add hx hy
    _ = 2 ^ 1023 := by rw [← two_mul, ← pow_succ']

theorem half_add_finite (hxf : IsFinite x) (hyf : IsFinite y) (hx : |toReal x| ≤ 2 ^ 1022)
    (hy : |toReal y| ≤ 2 ^ 1022) :
    IsFinite ((x + y) / 2) ∧ toReal ((x + y) / 2) = rounded (rounded (toReal x + toReal y) / 2) := by
  have h2 : toReal (2 : Float) = 2 := by
    rw [isInteger_two.eq]
    norm_num
  have hle := abs_add_le_greatest hx hy
  obtain ⟨hf, hv⟩ := add_finite hxf hyf hle
  have hhalf : |toReal (x + y) / toReal (2 : Float)| ≤ greatest := by
    rw [h2, abs_div, abs_of_pos (by norm_num : (0 : ℝ) < 2)]
    have hs := abs_toReal_le (x + y)
    have h0 := abs_nonneg (toReal (x + y))
    linarith
  obtain ⟨hdf, hdv⟩ := div_finite hf isInteger_two.finite (by rw [h2]; norm_num) hhalf
  rw [h2, hv] at hdv
  exact ⟨hdf, hdv⟩

/-- Rounding does not take half of a sum beyond a bound of both summands. -/
theorem half_add_le (hzf : IsFinite z) (hx : toReal x ≤ toReal z) (hy : toReal y ≤ toReal z) :
    rounded (rounded (toReal x + toReal y) / 2) ≤ toReal z := by
  have hsum : rounded (toReal x + toReal y) ≤ 2 * toReal z := by
    rw [← rounded_two_mul]
    exact rounded_mono (by linarith)
  calc rounded (rounded (toReal x + toReal y) / 2) ≤ rounded (toReal z) :=
        rounded_mono (by linarith)
    _ = toReal z := rounded_toReal hzf

theorem le_half_add (hzf : IsFinite z) (hx : toReal z ≤ toReal x) (hy : toReal z ≤ toReal y) :
    toReal z ≤ rounded (rounded (toReal x + toReal y) / 2) := by
  have hsum : 2 * toReal z ≤ rounded (toReal x + toReal y) := by
    rw [← rounded_two_mul]
    exact rounded_mono (by linarith)
  calc toReal z = rounded (toReal z) := (rounded_toReal hzf).symm
    _ ≤ rounded (rounded (toReal x + toReal y) / 2) := rounded_mono (by linarith)

end Double

namespace Column

open Double (IsNumber IsFinite value toReal)

variable {xs : List Float}

/-- Values that can be added in pairs. -/
structure IsModerate (x : Float) : Prop where
  finite : x.isFinite = true
  abs_le : |toReal x| ≤ 2 ^ 1022

theorem isModerate_ofInt {n : ℤ} (h : |n| ≤ 2 ^ 53) : IsModerate (Float.ofInt n) := by
  obtain ⟨hf, hv⟩ := Double.isInteger_ofInt h
  refine ⟨hf, ?_⟩
  rw [hv]
  have hn : |(n : ℝ)| ≤ 2 ^ 53 := by exact_mod_cast h
  exact hn.trans (pow_le_pow_right₀ (by norm_num) (by norm_num))

theorem le_of_value {x y : Float} (hx : IsFinite x) (hy : IsFinite y) (h : value x ≤ value y) :
    x ≤ y :=
  Double.le_iff.mpr ⟨hx.isNumber, hy.isNumber, h⟩

/-- The median lies between any bounds of the column. -/
theorem median_mem (hne : xs ≠ []) (hxs : ∀ x ∈ xs, IsModerate x) {lo hi : Float}
    (hlo : lo ∈ xs) (hhi : hi ∈ xs) (hbounds : ∀ x ∈ xs, lo ≤ x ∧ x ≤ hi) :
    lo ≤ median xs ∧ median xs ≤ hi := by
  have hmedian := isMedian_median (fun x hx => (IsFinite.isNumber (hxs x hx).finite)) hne
  rcases Nat.mod_two_eq_zero_or_one xs.length with heven | hodd
  · obtain ⟨l, hl, u, hu, -, hm, -⟩ := hmedian.even heven
    obtain ⟨hf, hv⟩ := Double.half_add_finite (hxs l hl).finite (hxs u hu).finite
      (hxs l hl).abs_le (hxs u hu).abs_le
    have hlof := (hxs lo hlo).finite
    have hhif := (hxs hi hhi).finite
    have hlow : ∀ x ∈ xs, toReal lo ≤ toReal x := fun x hx =>
      (Double.le_iff_toReal hlof (hxs x hx).finite).mp (hbounds x hx).1
    have hhigh : ∀ x ∈ xs, toReal x ≤ toReal hi := fun x hx =>
      (Double.le_iff_toReal (hxs x hx).finite hhif).mp (hbounds x hx).2
    rw [hm, Double.le_iff_toReal hlof hf, Double.le_iff_toReal hf hhif, hv]
    exact ⟨Double.le_half_add hlof (hlow l hl) (hlow u hu),
      Double.half_add_le hhif (hhigh l hl) (hhigh u hu)⟩
  · exact hbounds _ (hmedian.odd hodd).1

/-- The greatest absolute value is that of one of the extremes, and it stays so for samples. -/
theorem greatestAbs_ofDouble (hne : xs ≠ []) (hxs : ∀ x ∈ xs, IsFinite x) :
    ((Single.ofDouble (greatestAbs xs)).toDouble ==
      Scalar.max (Single.ofDouble (least xs)).toDouble.abs
        (Single.ofDouble (greatest xs)).toDouble.abs) = true := by
  have hnum : ∀ x ∈ xs, IsNumber x := fun x hx => (hxs x hx).isNumber
  have hlo := hxs _ (least_isExtreme hne hnum).mem
  have hhi := hxs _ (greatest_isExtreme hne hnum).mem
  obtain ⟨hf, hv⟩ := greatestAbs_finite hne hxs
  obtain ⟨hlon, hlov⟩ := Single.value_abs_ofDouble hlo.isNumber
  obtain ⟨hhin, hhiv⟩ := Single.value_abs_ofDouble hhi.isNumber
  obtain ⟨halo, halov⟩ := Double.abs_finite hlo
  obtain ⟨hahi, hahiv⟩ := Double.abs_finite hhi
  have hs := Single.isAt_ofDouble hf.isNumber
  have hmax : value (greatestAbs xs) = max (value (least xs).abs) (value (greatest xs).abs) := by
    rw [Double.value_of_isFinite hf, Double.value_of_isFinite halo, Double.value_of_isFinite hahi,
      hv, halov, hahiv]
    exact EReal.coe_strictMono.monotone.map_max
  have hnumber : IsNumber (Scalar.max (Single.ofDouble (least xs)).toDouble.abs
      (Single.ofDouble (greatest xs)).toDouble.abs) := by
    rcases Double.max_choice hlon hhin with he | he <;> rw [he]
    · exact hlon
    · exact hhin
  rw [Double.beq_iff, hs.value, Double.value_max hlon hhin, hlov, hhiv, hmax, Single.round_max]
  exact ⟨hs.isNumber, hnumber, rfl⟩

end Column

open Column (IsModerate)

/-- Samples of the extremes of a column are its least and its greatest value, rounded.  The samples
of the value at the reference and of the median are between them, and the sample of the greatest
absolute value is the absolute value of one of them. -/
theorem sample_extremes {s : ResampledSegment Float} {k : Nat}
    (hs : ∀ x ∈ s.values.toList, IsModerate x) (hr : s.referenceIndex = .ok k)
    (hk : k < s.values.size) :
    ∃ lo ∈ s.values.toList, ∃ hi ∈ s.values.toList, (∀ x ∈ s.values.toList, lo ≤ x ∧ x ≤ hi) ∧
      ∃ least greatest absolute atReference median : Single,
        Attribute.min.sample s = .ok least ∧ least = Sampled.narrow lo ∧
        Attribute.max.sample s = .ok greatest ∧ greatest = Sampled.narrow hi ∧
        Attribute.maxAbs.sample s = .ok absolute ∧
        Attribute.value.sample s = .ok atReference ∧
        Attribute.median.sample s = .ok median ∧
        least.toDouble ≤ atReference.toDouble ∧ atReference.toDouble ≤ greatest.toDouble ∧
        least.toDouble ≤ median.toDouble ∧ median.toDouble ≤ greatest.toDouble ∧
        (absolute.toDouble == Scalar.max least.toDouble.abs greatest.toDouble.abs) = true := by
  have hklist : k < s.values.toList.length := hk
  have hne : s.values.toList ≠ [] := List.ne_nil_of_length_pos (Nat.zero_lt_of_lt hklist)
  have hfin : ∀ x ∈ s.values.toList, Double.IsFinite x := fun x hx => (hs x hx).finite
  have hnum : ∀ x ∈ s.values.toList, Double.IsNumber x := fun x hx => (hfin x hx).isNumber
  have hlo := Column.least_isExtreme hne hnum
  have hhi := Column.greatest_isExtreme hne hnum
  have hbounds : ∀ x ∈ s.values.toList,
      Column.least s.values.toList ≤ x ∧ x ≤ Column.greatest s.values.toList := fun x hx =>
    ⟨Column.le_of_value (hfin _ hlo.mem) (hfin x hx) (hlo.below x hx),
      Column.le_of_value (hfin x hx) (hfin _ hhi.mem) (hhi.below x hx)⟩
  have hmedian := Column.median_mem hne hs hlo.mem hhi.mem hbounds
  have hreference := hbounds s.values.toList[k] (List.getElem_mem hklist)
  have hvalue : Attribute.value.sample s = .ok (Single.ofDouble s.values.toList[k]) := by
    have hget : s.values.toList.getD k Limits.undefined = s.values.toList[k] := by
      rw [List.getD_eq_getElem?_getD, List.getElem?_eq_getElem hklist, Option.getD_some]
    unfold Attribute.sample Attribute.reduce
    dsimp only
    rw [hr, ok_bind, hget]
    rfl
  exact ⟨_, hlo.mem, _, hhi.mem, hbounds, _, _, _, _, _, rfl, rfl, rfl, rfl, rfl, hvalue, rfl,
    Single.ofDouble_mono hreference.1, Single.ofDouble_mono hreference.2,
    Single.ofDouble_mono hmedian.1, Single.ofDouble_mono hmedian.2,
    Column.greatestAbs_ofDouble hne hfin⟩

/-- An even number of values of both signs. -/
theorem sample_extremes_of_four : ∃ least median : Single,
    Attribute.min.sample (.four (.ofInt 4) (.ofInt 1) (.ofInt (-5)) (.ofInt 2)) = .ok least ∧
      Attribute.median.sample (.four (.ofInt 4) (.ofInt 1) (.ofInt (-5)) (.ofInt 2)) = .ok median ∧
      least.toDouble ≤ median.toDouble := by
  have hs : ∀ x ∈ [Float.ofInt 4, .ofInt 1, .ofInt (-5), .ofInt 2], IsModerate x := by
    simp only [List.forall_mem_cons, List.not_mem_nil, false_imp_iff, implies_true, and_true]
    exact ⟨Column.isModerate_ofInt (by norm_num), Column.isModerate_ofInt (by norm_num),
      Column.isModerate_ofInt (by norm_num), Column.isModerate_ofInt (by norm_num)⟩
  obtain ⟨k, hr, hk⟩ : ∃ k, (ResampledSegment.four (.ofInt 4) (.ofInt 1) (.ofInt (-5))
      (.ofInt 2)).referenceIndex = .ok k ∧ k < 4 := by decide +kernel
  obtain ⟨-, -, -, -, -, least, -, -, -, median, hleast, -, -, -, -, -, hmedian, -, -, hle, -⟩ :=
    sample_extremes hs hr hk
  exact ⟨least, median, hleast, hmedian, hle⟩

end Seismic
