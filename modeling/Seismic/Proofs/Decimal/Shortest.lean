import Seismic.Json.Value
import Seismic.Proofs.Decimal.Scientific

/-!
# Decimals that read back

The search for the shortest decimal ends with one that reads back, because the expansion it
falls back on does.  So the numeral of a finite number reads as the number, with its sign.
-/

namespace Seismic

namespace Decimal

theorem reads_of_ofLength? {reads : Decimal → Bool} {d d' : Decimal} {length n : Nat}
    (h : ofLength? reads d length n = some d') : reads d' = true := by
  unfold ofLength? at h
  dsimp only at h
  split at h
  next hlow hhigh =>
    rw [Bool.and_eq_true] at hhigh
    split_ifs at h <;> cases h
    · exact hlow
    · exact hhigh.2
  next hlow _ =>
    cases h
    exact hlow
  next _ hhigh =>
    rw [Bool.and_eq_true] at hhigh
    cases h
    exact hhigh.2
  next => cases h

theorem reads_shortest {reads : Decimal → Bool} {d : Decimal} (h : reads d = true) :
    reads (shortest reads d) = true := by
  unfold shortest
  dsimp only
  cases hfound : (List.range (Digits.ofNat d.digits).length).findSome? fun n =>
      ofLength? reads d (Digits.ofNat d.digits).length (n + 1) with
  | none => exact h
  | some d' =>
    obtain ⟨n, -, hn⟩ := List.exists_of_findSome?_eq_some hfound
    exact reads_of_ofLength? hn

/-- The number that a decimal stands for. -/
noncomputable def toReal (d : Decimal) : ℝ := d.digits * (10 : ℝ) ^ d.exponent

theorem toReal_ofBinary (m : Nat) (e : ℤ) : (ofBinary m e).toReal = m * (2 : ℝ) ^ e := by
  unfold ofBinary toReal
  split_ifs with h
  · obtain ⟨k, rfl⟩ := Int.eq_ofNat_of_zero_le h
    rw [Int.toNat_natCast, Nat.shiftLeft_eq, zpow_zero, mul_one, zpow_natCast]
    push_cast
    rfl
  · obtain ⟨k, hk⟩ := Int.eq_ofNat_of_zero_le (show 0 ≤ -e by omega)
    have he : e = -(k : ℤ) := by omega
    have hten : (10 : ℝ) ^ k = 5 ^ k * 2 ^ k := by
      rw [← mul_pow]
      norm_num
    rw [he, neg_neg, Int.toNat_natCast, zpow_neg, zpow_neg, zpow_natCast, zpow_natCast, hten,
      Nat.pow_eq]
    push_cast
    field_simp

end Decimal

namespace Double

open Float.Model

/-- A decimal without a positive exponent that stands for a number reads as the number. -/
theorem ofDecimal_of_toReal {x : Float} (hx : IsFinite x) (h0 : toReal x ≠ 0) {d : Decimal}
    (hle : d.exponent ≤ 0) (hge : -2048 ≤ d.exponent) (h : d.toReal = toReal x) :
    ofDecimal d = x := by
  obtain ⟨m, e⟩ := d
  dsimp only [Decimal.toReal] at hle hge h
  obtain ⟨k, rfl⟩ : ∃ k : Nat, e = -(k : ℤ) := ⟨(-e).toNat, by omega⟩
  unfold ofDecimal
  dsimp only
  rw [Int.natAbs_neg, Int.natAbs_natCast]
  rcases Nat.eq_zero_or_pos k with rfl | hk
  · obtain ⟨hn, hv⟩ := ofScientific_up_spec m (k := 0) (by omega)
    rw [Int.natCast_zero, neg_zero, zpow_zero, mul_one] at h
    rw [pow_zero, mul_one, h, round_toReal hx] at hv
    exact eq_of_value hx h0 hn hv
  · obtain ⟨hn, hv⟩ := ofScientific_down_spec m hk (by omega)
    rw [zpow_neg, zpow_natCast, ← div_eq_mul_inv] at h
    rw [h, round_toReal hx] at hv
    rw [decide_eq_true (show -(k : ℤ) < 0 by omega)]
    exact eq_of_value hx h0 hn hv

theorem toReal_of_unpack {x : Float} {m : Nat} {e : ℤ} {hm : 0 < m}
    (hu : x.toModel.unpack = .finite .positive m e hm) :
    IsFinite x ∧ toReal x = m * (2 : ℝ) ^ e ∧ toReal x ≠ 0 := by
  have hv : toReal x = m * (2 : ℝ) ^ e := by
    rw [toReal, hu, Binary.real_finite, Binary.signum, one_mul]
  refine ⟨?_, hv, ?_⟩
  · show x.toModel.unpack.isFinite = true
    rw [hu]
    rfl
  · rw [hv]
    exact (Binary.magnitude_pos e hm).ne'

theorem ofParts_of_unpack {x : Float} {m : Nat} {e : ℤ} {hm : 0 < m}
    (hu : x.toModel.unpack = .finite .positive m e hm) : ofParts .positive m e = x := by
  obtain ⟨hx, hv, h0⟩ := toReal_of_unpack hu
  have hr := Binary.round_yields one_lt_exponentBits .positive hm.ne' e
  rw [Binary.signum, one_mul, ← hv] at hr
  unfold ofParts
  rw [if_neg hm.ne']
  exact eq_of_value hx h0 hr.isNumber (hr.value_eq.trans (round_toReal hx))

/-- The shortest decimal of a number reads as the number. -/
theorem ofDecimal_shortest {x : Float} {m : Nat} {e : ℤ} {hm : 0 < m}
    (hu : x.toModel.unpack = .finite .positive m e hm) : ofDecimal (shortest m e) = x := by
  obtain ⟨hx, hv, h0⟩ := toReal_of_unpack hu
  have hform := inFormat x
  rw [hu] at hform
  have hleast : -1074 ≤ e := hform.1.least
  -- The whole expansion is exact, so it reads back, and the search starts from it.
  have hreads : ((ofDecimal (Decimal.ofBinary m e)).toBits == (ofParts .positive m e).toBits) =
      true := by
    rw [ofParts_of_unpack hu, beq_iff_eq]
    refine congrArg Float.toBits (ofDecimal_of_toReal hx h0 ?_ ?_ ?_)
    · unfold Decimal.ofBinary
      split_ifs <;> dsimp only <;> omega
    · unfold Decimal.ofBinary
      split_ifs <;> dsimp only <;> omega
    · rw [Decimal.toReal_ofBinary, hv]
  have h := @Decimal.reads_shortest
    (fun d => (ofDecimal d).toBits == (ofParts .positive m e).toBits) _ hreads
  rw [← ofParts_of_unpack hu]
  exact eq_of_toBits (beq_iff_eq.mp h)

/-- Zeros may be written after the digits instead of an exponent. -/
theorem ofDecimal_expand {x : Float} (hx : IsFinite x) (h0 : toReal x ≠ 0) {m k : Nat}
    (h : ofDecimal ⟨m, k⟩ = x) : ofDecimal ⟨m * Digits.placeValue k, 0⟩ = x := by
  have hsci : Float.ofScientific m false k = x := h
  have hk : k ≤ 2048 := by
    by_contra hk
    rw [← hsci] at hx h0
    exact ofScientific_far (Nat.not_le.mp hk) ⟨hx, h0⟩
  obtain ⟨-, hv⟩ := ofScientific_up_spec m hk
  obtain ⟨hn, hv'⟩ := ofScientific_up_spec (m * Digits.placeValue k) (k := 0) (by omega)
  have he : ((m * Digits.placeValue k : ℕ) : ℝ) * 10 ^ 0 = m * 10 ^ k := by
    unfold Digits.placeValue
    rw [Nat.pow_eq]
    push_cast
    ring
  rw [he, ← hv, hsci, value_of_isFinite hx] at hv'
  exact eq_of_value hx h0 hn hv'

theorem neg_neg_finite {x : Float} {m : Nat} {e : ℤ} {hm : 0 < m}
    (hu : x.toModel.unpack = .finite .negative m e hm) :
    (-x).toModel.unpack = .finite .positive m e hm ∧ -(-x) = x := by
  have hneg : ∀ y : Float, (-y).toModel.unpack = y.toModel.unpack.neg := fun y =>
    Binary.unpack_pack (Binary.inFormat_neg (inFormat y))
  have hpos : (-x).toModel.unpack = .finite .positive m e hm := (hneg x).trans (congrArg _ hu)
  have hback : (-(-x)).toModel.unpack = x.toModel.unpack := by
    rw [hneg, hpos, hu]
    rfl
  refine ⟨hpos, eq_of_unpack ?_ hback⟩
  show (-(-x)).toModel.unpack.isFinite = true
  rw [hback, hu]
  rfl

theorem eq_zero_of_unpack {x : Float} {s : UnpackedFloat.Sign} (hu : x.toModel.unpack = .zero s) :
    x = zero s := by
  have hz : (zero s).toModel.unpack = .zero s := Binary.unpack_pack_zero s
  refine eq_of_unpack ?_ (hu.trans hz.symm)
  show x.toModel.unpack.isFinite = true
  rw [hu]
  rfl

end Double

namespace Numeral

open Double

/-- A numeral is whole where it has no exponent. -/
def WellFormed (n : Numeral) : Prop :=
  n.whole = true ∧ n.exponent = 0 ∨ n.whole = false ∧ n.exponent < 0

theorem WellFormed.exponent_le {n : Numeral} (h : n.WellFormed) : n.exponent ≤ 0 := by
  rcases h with h | h
  · exact h.2.le
  · exact h.2.le

theorem wellFormed_ofNat (n : Nat) : (ofNat n).WellFormed := Or.inl ⟨rfl, rfl⟩

theorem wellFormed_ofDecimal (negative : Bool) (d : Decimal) :
    (ofDecimal negative d).WellFormed := by
  unfold ofDecimal
  split_ifs with h
  · exact Or.inl ⟨rfl, rfl⟩
  · exact Or.inr ⟨rfl, not_le.mp h⟩

theorem digits_ofDecimal {x : Float} (hx : IsFinite x) (h0 : toReal x ≠ 0) {d : Decimal}
    (h : Double.ofDecimal d = x) (negative : Bool) :
    Double.ofDecimal ⟨(ofDecimal negative d).digits, (ofDecimal negative d).exponent⟩ = x := by
  obtain ⟨m, e⟩ := d
  unfold ofDecimal
  split_ifs with he
  · obtain ⟨k, rfl⟩ := Int.eq_ofNat_of_zero_le he
    exact ofDecimal_expand hx h0 h
  · exact h

theorem negative_ofDecimal (negative : Bool) (d : Decimal) :
    (ofDecimal negative d).negative = negative := by
  unfold ofDecimal
  split_ifs <;> rfl

/-- The numeral of a finite number reads as the number. -/
theorem exists_ofDouble? {x : Float} (hx : IsFinite x) :
    ∃ n, ofDouble? x = some n ∧ n.WellFormed ∧ n.toDouble = x := by
  unfold ofDouble?
  rcases hx.unpack_eq with ⟨s, hu, -⟩ | ⟨s, m, e, hm, hu, -, -⟩ <;> rw [hu] <;> cases s <;>
    refine ⟨_, rfl, wellFormed_ofDecimal _ _, ?_⟩
  · rw [eq_zero_of_unpack hu]
    decide +kernel
  · rw [eq_zero_of_unpack hu]
    decide +kernel
  · obtain ⟨hpos, hback⟩ := neg_neg_finite hu
    obtain ⟨hf, -, h0⟩ := toReal_of_unpack hpos
    unfold toDouble
    rw [digits_ofDecimal hf h0 (ofDecimal_shortest hpos), negative_ofDecimal]
    exact hback
  · obtain ⟨hf, -, h0⟩ := toReal_of_unpack hu
    unfold toDouble
    rw [digits_ofDecimal hf h0 (ofDecimal_shortest hu), negative_ofDecimal]
    rfl

end Numeral
end Seismic
