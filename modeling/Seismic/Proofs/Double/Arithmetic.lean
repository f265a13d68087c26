import Seismic.Binary.Double
import Seismic.Proofs.Binary.Arithmetic

/-!
# Arithmetic of 64-bit numbers

A 64-bit number that is defined has a place in the extended line.  Comparison is comparison
of places.  The result of an operation has the place of the exact result, rounded, so
operations keep the order wherever exact arithmetic does.  A result of moderate size is
finite, and it is off by a unit of the last digit at most.
-/

namespace Seismic
namespace Double

open Float.Model

/-- The place of a number in the extended line. -/
noncomputable def value (x : Float) : EReal := Binary.value x.toModel.unpack

/-- The real number that a finite number stands for. -/
noncomputable def toReal (x : Float) : ℝ := Binary.real x.toModel.unpack

def IsNumber (x : Float) : Prop := x.toModel.unpack ≠ .notANumber

def IsFinite (x : Float) : Prop := x.isFinite = true

/-- The place nearest to an exact result. -/
noncomputable def round (x : EReal) : EReal := Binary.nearest Format.binary64 x

/-- The nearest number of 64 bits, without regard to the largest exponent. -/
noncomputable def rounded (x : ℝ) : ℝ := Binary.rounded Format.binary64 x

theorem one_lt_exponentBits : 1 < Format.binary64.exponentBits := by decide

theorem inFormat (x : Float) : Binary.InFormat Format.binary64 x.toModel.unpack :=
  Binary.unpack_inFormat one_lt_exponentBits _

/-! ## Finite numbers -/

theorem value_of_isFinite {x : Float} (h : IsFinite x) : value x = toReal x :=
  Binary.value_of_isFinite h

theorem IsFinite.isNumber {x : Float} (h : IsFinite x) : IsNumber x := by
  intro hn
  have hf : x.toModel.unpack.isFinite = true := h
  rw [hn] at hf
  cases hf

theorem IsFinite.unpack_eq {x : Float} (h : IsFinite x) :
    (∃ s, x.toModel.unpack = .zero s ∧ toReal x = 0) ∨
      ∃ s m e hm, x.toModel.unpack = .finite s m e hm ∧
        Binary.IsCanonical Format.binary64 m e ∧ toReal x = Binary.real (.finite s m e hm) := by
  have hf : x.toModel.unpack.isFinite = true := h
  have hform := inFormat x
  have hreal : toReal x = Binary.real x.toModel.unpack := rfl
  cases hu : x.toModel.unpack with
  | notANumber =>
    rw [hu] at hf
    cases hf
  | infinity s =>
    rw [hu] at hf
    cases hf
  | zero s =>
    rw [hu, Binary.real_zero] at hreal
    exact Or.inl ⟨s, rfl, hreal⟩
  | finite s m e hm =>
    rw [hu] at hreal hform
    exact Or.inr ⟨s, m, e, hm, rfl, hform.1, hreal⟩

theorem isFinite_iff {x : Float} : IsFinite x ↔ IsNumber x ∧ value x ≠ ⊤ ∧ value x ≠ ⊥ := by
  constructor
  · intro h
    rw [value_of_isFinite h]
    exact ⟨h.isNumber, EReal.coe_ne_top _, EReal.coe_ne_bot _⟩
  · rintro ⟨hn, ht, hb⟩
    rcases Binary.isFinite_or_infinity hn with h | h | h
    · exact h
    · exact absurd (by rw [value, h]; rfl) ht
    · exact absurd (by rw [value, h]; rfl) hb

theorem isFinite_of_value_eq {x : Float} {r : ℝ} (hn : IsNumber x) (h : value x = r) :
    IsFinite x ∧ toReal x = r := by
  have hf : IsFinite x := by
    rw [isFinite_iff, h]
    exact ⟨hn, EReal.coe_ne_top _, EReal.coe_ne_bot _⟩
  rw [value_of_isFinite hf] at h
  exact ⟨hf, EReal.coe_eq_coe_iff.mp h⟩

/-! ## Comparison -/

theorem le_iff {x y : Float} : x ≤ y ↔ IsNumber x ∧ IsNumber y ∧ value x ≤ value y := by
  show Float.le x y = true ↔ _
  unfold Float.le
  rw [decide_eq_true_iff]
  exact Binary.le_iff (inFormat x) (inFormat y)

theorem lt_iff {x y : Float} : x < y ↔ IsNumber x ∧ IsNumber y ∧ value x < value y := by
  show Float.lt x y = true ↔ _
  unfold Float.lt
  rw [decide_eq_true_iff]
  exact Binary.lt_iff (inFormat x) (inFormat y)

theorem beq_iff {x y : Float} :
    (x == y) = true ↔ IsNumber x ∧ IsNumber y ∧ value x = value y :=
  Binary.beq_iff (inFormat x) (inFormat y)

theorem le_iff_toReal {x y : Float} (hx : IsFinite x) (hy : IsFinite y) :
    x ≤ y ↔ toReal x ≤ toReal y := by
  rw [le_iff, value_of_isFinite hx, value_of_isFinite hy, EReal.coe_le_coe_iff]
  exact ⟨fun h => h.2.2, fun h => ⟨hx.isNumber, hy.isNumber, h⟩⟩

theorem lt_iff_toReal {x y : Float} (hx : IsFinite x) (hy : IsFinite y) :
    x < y ↔ toReal x < toReal y := by
  rw [lt_iff, value_of_isFinite hx, value_of_isFinite hy, EReal.coe_lt_coe_iff]
  exact ⟨fun h => h.2.2, fun h => ⟨hx.isNumber, hy.isNumber, h⟩⟩

theorem isFinite_of_between {x y z : Float} (hx : IsFinite x) (hz : IsFinite z) (hxy : x ≤ y)
    (hyz : y ≤ z) : IsFinite y := by
  obtain ⟨-, hy, h₁⟩ := le_iff.mp hxy
  obtain ⟨-, -, h₂⟩ := le_iff.mp hyz
  rw [value_of_isFinite hx] at h₁
  rw [value_of_isFinite hz] at h₂
  refine isFinite_iff.mpr ⟨hy, ?_, ?_⟩
  · exact ne_top_of_le_ne_top (EReal.coe_ne_top _) h₂
  · exact ne_bot_of_le_ne_bot (EReal.coe_ne_bot _) h₁

protected theorem le_refl {x : Float} (h : IsNumber x) : x ≤ x := le_iff.mpr ⟨h, h, le_rfl⟩

protected theorem le_trans {x y z : Float} (h₁ : x ≤ y) (h₂ : y ≤ z) : x ≤ z := by
  rw [le_iff] at *
  exact ⟨h₁.1, h₂.2.1, h₁.2.2.trans h₂.2.2⟩

/-! ## Operations -/

theorem round_mono {x y : EReal} (h : x ≤ y) : round x ≤ round y :=
  Binary.nearest_mono Format.binary64 h

theorem round_value (x : Float) : round (value x) = value x := Binary.nearest_value (inFormat x)

theorem round_top : round ⊤ = ⊤ := Binary.nearest_top Format.binary64

theorem round_bot : round ⊥ = ⊥ := Binary.nearest_bot Format.binary64

theorem add_spec {x y : Float} (hx : IsNumber x) (hy : IsFinite y) :
    IsNumber (x + y) ∧ value (x + y) = round (value x + value y) := by
  have h := Binary.add_value_yields one_lt_exponentBits (inFormat x) (inFormat y) hx hy
  exact ⟨h.isNumber, h.value_eq⟩

theorem finite_add_spec {x y : Float} (hx : IsFinite x) (hy : IsNumber y) :
    IsNumber (x + y) ∧ value (x + y) = round (value x + value y) := by
  have h := Binary.finite_add_value_yields one_lt_exponentBits (inFormat x) (inFormat y) hx hy
  exact ⟨h.isNumber, h.value_eq⟩

theorem sub_spec {x y : Float} (hx : IsNumber x) (hy : IsFinite y) :
    IsNumber (x - y) ∧ value (x - y) = round (value x - value y) := by
  have h := Binary.sub_value_yields one_lt_exponentBits (inFormat x) (inFormat y) hx hy
  exact ⟨h.isNumber, h.value_eq⟩

theorem finite_sub_spec {x y : Float} (hx : IsFinite x) (hy : IsNumber y) :
    IsNumber (x - y) ∧ value (x - y) = round (value x - value y) := by
  have h := Binary.finite_sub_value_yields one_lt_exponentBits (inFormat x) (inFormat y) hx hy
  exact ⟨h.isNumber, h.value_eq⟩

theorem mul_spec {x y : Float} (hx : IsFinite x) (hy : IsFinite y) :
    IsNumber (x * y) ∧ value (x * y) = round (toReal x * toReal y : ℝ) := by
  have h := Binary.mul_yields one_lt_exponentBits (inFormat x) (inFormat y) hx hy
  exact ⟨h.isNumber, h.value_eq⟩

theorem div_spec {x y : Float} (hx : IsNumber x) (hy : IsFinite y) (h0 : toReal y ≠ 0) :
    IsNumber (x / y) ∧ value (x / y) = round (value x / value y) := by
  have h := Binary.div_value_yields one_lt_exponentBits hx hy h0
  exact ⟨h.isNumber, h.value_eq⟩

theorem neg_spec {x : Float} (hx : IsNumber x) : IsNumber (-x) ∧ value (-x) = -value x := by
  have hu : (-x).toModel.unpack = x.toModel.unpack.neg :=
    Binary.unpack_pack (Binary.inFormat_neg (inFormat x))
  refine ⟨?_, ?_⟩
  · rw [IsNumber, hu]
    exact Binary.neg_ne_notANumber hx
  · rw [value, hu, Binary.value_neg]
    rfl

theorem IsFinite.of_sub {x y : Float} (h : IsFinite (x - y)) : IsFinite x ∧ IsFinite y := by
  by_contra hc
  have hs : ¬ (x.toModel.unpack.sub Format.binary64 y.toModel.unpack).isFinite = true :=
    Binary.isFinite_sub_special (not_and_or.mp hc)
  have hu : (x - y).toModel.unpack = x.toModel.unpack.sub Format.binary64 y.toModel.unpack :=
    Binary.unpack_pack_special hs
  exact hs (hu ▸ h)

theorem IsFinite.of_div {x y : Float} (h : IsFinite (x / y)) : IsFinite x := by
  by_contra hc
  have hs : ¬ (x.toModel.unpack.div Format.binary64 y.toModel.unpack).isFinite = true :=
    Binary.isFinite_div_special y.toModel.unpack hc
  have hu : (x / y).toModel.unpack = x.toModel.unpack.div Format.binary64 y.toModel.unpack :=
    Binary.unpack_pack_special hs
  exact hs (hu ▸ h)

/-! ## The order under operations -/

protected theorem sub_le_sub_right {x y z : Float} (h : x ≤ y) (hz : IsFinite z) : x - z ≤ y - z := by
  obtain ⟨hx, hy, hv⟩ := le_iff.mp h
  obtain ⟨hx', hxv⟩ := sub_spec hx hz
  obtain ⟨hy', hyv⟩ := sub_spec hy hz
  rw [le_iff, hxv, hyv]
  exact ⟨hx', hy', round_mono (EReal.sub_le_sub hv le_rfl)⟩

protected theorem div_le_div_right {x y z : Float} (h : x ≤ y) (hz : IsFinite z) (hp : 0 < toReal z) :
    x / z ≤ y / z := by
  obtain ⟨hx, hy, hv⟩ := le_iff.mp h
  obtain ⟨hx', hxv⟩ := div_spec hx hz hp.ne'
  obtain ⟨hy', hyv⟩ := div_spec hy hz hp.ne'
  rw [le_iff, hxv, hyv]
  refine ⟨hx', hy', round_mono (EReal.div_le_div_right_of_nonneg ?_ hv)⟩
  rw [value_of_isFinite hz]
  exact_mod_cast hp.le

end Double
end Seismic
