import Seismic.Proofs.Window

/-!
# Precision

Within `2 ^ 40` steps of zero the computed number of a position is off by a small part of a
step, and so is the computed position of a number.
-/

namespace Seismic

open Double

namespace Spacing

variable {s : Spacing Float} {x phase : Float}

/-- A position within `2 ^ 40` steps of zero, and far below the greatest number. -/
structure Moderate (s : Spacing Float) (x : Float) : Prop where
  finite : IsFinite x
  steps : |toReal x| ≤ 2 ^ 40 * toReal s.stepsize
  small : |toReal x| + toReal s.stepsize ≤ 2 ^ 200

/-- A phase of the lattice, between zero and the step. -/
structure InPhase (s : Spacing Float) (phase : Float) : Prop where
  finite : IsFinite phase
  nonneg : 0 ≤ toReal phase
  le : toReal phase ≤ toReal s.stepsize

noncomputable def exactNumber (s : Spacing Float) (x phase : Float) : ℝ :=
  (toReal x - toReal phase) / toReal s.stepsize

noncomputable def exactPosition (s : Spacing Float) (n : ℤ) (phase : Float) : ℝ :=
  n * toReal s.stepsize + toReal phase

/-- Two roundings of a size are off by at most one part in `2 ^ 51` of it. -/
theorem abs_twice_rounded_le {x y z : ℝ} (h₁ : |y - x| ≤ |x| * ulp)
    (h₂ : |z - y| ≤ |y| * ulp + tiny) : |z - x| ≤ |x| / 2 ^ 51 + tiny := by
  rw [ulp] at h₁ h₂
  have hx := abs_nonneg x
  have hy : |y| ≤ |x| * (1 + 1 / 2 ^ 53) := by
    have := abs_sub_abs_le_abs_sub y x
    linarith
  have htri : |z - x| ≤ |z - y| + |y - x| := abs_sub_le z y x
  linarith

theorem numberOf_near (hs : s.Accepted) (hx : IsFinite x) (hp : IsFinite phase)
    (hgreat : |toReal x - toReal phase| ≤ greatest) {b : ℝ} (hb : b ≤ 2 ^ 42)
    (hexact : |s.exactNumber x phase| ≤ b) :
    IsFinite (s.numberOf x phase) ∧ |toReal (s.numberOf x phase) - s.exactNumber x phase| ≤
      |s.exactNumber x phase| / 2 ^ 51 + tiny := by
  have hpos := hs.pos
  obtain ⟨hdf, hdv⟩ := sub_finite hx hp hgreat
  have hderr := abs_sub_error x phase
  rw [← hdv] at hderr
  have hq : |toReal (x - phase) / toReal s.stepsize - s.exactNumber x phase| ≤
      |s.exactNumber x phase| * ulp := by
    rw [exactNumber, ← sub_div, abs_div, abs_div, abs_of_pos hpos, div_mul_eq_mul_div]
    exact div_le_div_of_nonneg_right hderr hpos.le
  have hqg : |toReal (x - phase) / toReal s.stepsize| ≤ greatest := by
    have hu : |s.exactNumber x phase| * ulp ≤ 1 := by
      unfold ulp
      linarith
    have := abs_sub_abs_le_abs_sub (toReal (x - phase) / toReal s.stepsize)
      (s.exactNumber x phase)
    exact le_greatest 43 (by norm_num) (by linarith)
  obtain ⟨hqf, hqv⟩ := div_finite hdf hs.finite hpos.ne' hqg
  refine ⟨hqf, ?_⟩
  unfold numberOf
  rw [hqv]
  exact abs_twice_rounded_le hq (abs_rounded_sub_le _)

theorem numberOf_moderate (hs : s.Accepted) (hp : s.InPhase phase) (hx : s.Moderate x) :
    IsFinite (s.numberOf x phase) ∧ |s.exactNumber x phase| ≤ 2 ^ 40 + 1 ∧
      |toReal (s.numberOf x phase) - s.exactNumber x phase| ≤
        |s.exactNumber x phase| / 2 ^ 51 + tiny := by
  have hpos := hs.pos
  obtain ⟨hf, hsteps, hsmall⟩ := hx
  obtain ⟨hpf, hp0, hp1⟩ := hp
  have hxp : |toReal x - toReal phase| ≤ |toReal x| + toReal s.stepsize := by
    have := abs_sub (toReal x) (toReal phase)
    rw [abs_of_nonneg hp0] at this
    linarith
  have hgreat : |toReal x - toReal phase| ≤ greatest :=
    le_greatest 200 (by norm_num) (hxp.trans hsmall)
  have hexact : |s.exactNumber x phase| ≤ 2 ^ 40 + 1 := by
    rw [exactNumber, abs_div, abs_of_pos hpos, div_le_iff₀ hpos]
    linarith
  obtain ⟨hqf, hq⟩ := numberOf_near hs hf hpf hgreat (by norm_num) hexact
  exact ⟨hqf, hexact, hq⟩

theorem ofInt_finite_of_number {n : ℤ} (h₁ : leastNumber ≤ n) (h₂ : n ≤ greatestNumber) :
    IsFinite (Float.ofInt n) ∧ toReal (Float.ofInt n) = rounded n := by
  have hle : |n| ≤ 2 ^ 63 := by
    unfold leastNumber greatestNumber signedBound at *
    rw [abs_le]
    constructor <;> omega
  exact ofInt_rounded (le_greatest 63 (by norm_num) (by exact_mod_cast hle))

theorem position_mono (hs : s.Accepted) (hp : IsFinite phase) {m n : ℤ} (h₁ : leastNumber ≤ m)
    (hmn : m ≤ n) (h₂ : n ≤ greatestNumber) : s.position m phase ≤ s.position n phase := by
  obtain ⟨hmf, hmv⟩ := ofInt_finite_of_number h₁ (hmn.trans h₂)
  obtain ⟨hnf, hnv⟩ := ofInt_finite_of_number (h₁.trans hmn) h₂
  obtain ⟨hm, hmm⟩ := mul_spec hmf hs.finite
  obtain ⟨hn, hnn⟩ := mul_spec hnf hs.finite
  obtain ⟨hm', hmm'⟩ := add_spec hm hp
  obtain ⟨hn', hnn'⟩ := add_spec hn hp
  refine le_iff.mpr ⟨hm', hn', ?_⟩
  have hmn' : (m : ℝ) ≤ n := by exact_mod_cast hmn
  have hprod : toReal (Float.ofInt m) * toReal s.stepsize ≤
      toReal (Float.ofInt n) * toReal s.stepsize := by
    rw [hmv, hnv]
    exact mul_le_mul_of_nonneg_right (rounded_mono hmn') hs.pos.le
  show value (Float.ofInt m * s.stepsize + phase) ≤ value (Float.ofInt n * s.stepsize + phase)
  rw [hmm', hnn', hmm, hnn]
  exact round_mono (add_le_add_left (round_mono (by exact_mod_cast hprod)) _)

theorem position_moderate (hs : s.Accepted) (hp : s.InPhase phase) {n : ℤ} (hn : |n| ≤ 2 ^ 42)
    (hsmall : |(n : ℝ)| * toReal s.stepsize + toReal s.stepsize ≤ greatest / 2) :
    IsFinite (s.position n phase) ∧
      |toReal (s.position n phase) - s.exactPosition n phase| ≤
        (|(n : ℝ)| + 1) * toReal s.stepsize / 2 ^ 51 := by
  have hpos := hs.pos
  obtain ⟨hpf, hp0, hp1⟩ := hp
  have hn0 := mul_nonneg (abs_nonneg (n : ℝ)) hpos.le
  obtain ⟨hif, hiv⟩ := ofInt_finite (lt_of_le_of_lt hn (by norm_num))
  have hsize : |toReal (Float.ofInt n) * toReal s.stepsize| = |(n : ℝ)| * toReal s.stepsize := by
    rw [hiv, abs_mul, abs_of_pos hpos]
  obtain ⟨hmf, hmv⟩ := mul_finite hif hs.finite (by rw [hsize]; linarith)
  -- A multiple of the step has no digit below the least number.
  obtain ⟨k, hk⟩ := toReal_grid s.stepsize
  have hgrid : toReal (Float.ofInt n) * toReal s.stepsize = (n * k : ℤ) * (2 : ℝ) ^ (-1074 : ℤ) := by
    rw [hiv, hk]
    push_cast
    ring
  have hmerr := abs_rounded_sub_le_of_grid hgrid
  rw [← hmv, hsize, hiv] at hmerr
  have hm := abs_sub_abs_le_abs_sub (toReal (Float.ofInt n * s.stepsize))
    (n * toReal s.stepsize)
  rw [abs_mul, abs_of_pos hpos] at hm
  have hsum : |toReal (Float.ofInt n * s.stepsize) + toReal phase| ≤
      |(n : ℝ)| * toReal s.stepsize * (1 + 1 / 2 ^ 53) + toReal s.stepsize := by
    have := abs_add_le (toReal (Float.ofInt n * s.stepsize)) (toReal phase)
    rw [abs_of_nonneg hp0] at this
    rw [ulp] at hmerr
    linarith
  obtain ⟨hf, hv⟩ := add_finite hmf hpf (by linarith)
  have herr := abs_add_error (Float.ofInt n * s.stepsize) phase
  rw [← hv] at herr
  refine ⟨hf, ?_⟩
  have htri := abs_sub_le (toReal (Float.ofInt n * s.stepsize + phase))
    (toReal (Float.ofInt n * s.stepsize) + toReal phase) (n * toReal s.stepsize + toReal phase)
  rw [add_sub_add_right_eq_sub] at htri
  rw [ulp] at herr hmerr
  show |toReal (Float.ofInt n * s.stepsize + phase) - (n * toReal s.stepsize + toReal phase)| ≤ _
  linarith

theorem small_le_greatest : 4 * (2 : ℝ) ^ 200 ≤ greatest / 2 := by
  have h : (2 : ℝ) ^ 203 ≤ greatest := le_greatest 203 (by norm_num) le_rfl
  linarith

theorem position_of_near (hs : s.Accepted) (hp : s.InPhase phase) (hx : s.Moderate x) {n : ℤ}
    {d : ℝ} (hd : d ≤ 1) (hn : |(n : ℝ) - s.exactNumber x phase| ≤ d) :
    IsFinite (s.position n phase) ∧
      |toReal (s.position n phase) - toReal x| ≤ (d + 1 / 2 ^ 10) * toReal s.stepsize := by
  have hpos := hs.pos
  obtain ⟨-, hexact, -⟩ := numberOf_moderate hs hp hx
  have hx' : toReal x = s.exactNumber x phase * toReal s.stepsize + toReal phase := by
    rw [exactNumber, div_mul_cancel₀ _ hpos.ne', sub_add_cancel]
  have habs := abs_sub_abs_le_abs_sub (n : ℝ) (s.exactNumber x phase)
  have hn42 : |n| ≤ 2 ^ 42 := by
    have h : |(n : ℝ)| ≤ 2 ^ 42 := by linarith
    exact_mod_cast h
  have hsize : |(n : ℝ)| * toReal s.stepsize + toReal s.stepsize ≤ greatest / 2 := by
    have h₁ : |s.exactNumber x phase| * toReal s.stepsize = |toReal x - toReal phase| := by
      rw [exactNumber, abs_div, abs_of_pos hpos, div_mul_cancel₀ _ hpos.ne']
    have h₂ := abs_sub (toReal x) (toReal phase)
    rw [abs_of_nonneg hp.nonneg] at h₂
    have h₃ : |(n : ℝ)| * toReal s.stepsize ≤
        (|s.exactNumber x phase| + 1) * toReal s.stepsize :=
      mul_le_mul_of_nonneg_right (by linarith) hpos.le
    have h₄ := small_le_greatest
    have h₅ := hx.small
    have h₆ := abs_nonneg (toReal x)
    have h₇ := hp.le
    linarith
  obtain ⟨hf, herr⟩ := position_moderate hs hp hn42 hsize
  refine ⟨hf, ?_⟩
  have htri := abs_sub_le (toReal (s.position n phase)) (s.exactPosition n phase) (toReal x)
  have hexp : |s.exactPosition n phase - toReal x| ≤ d * toReal s.stepsize := by
    rw [hx', exactPosition, add_sub_add_right_eq_sub, ← sub_mul, abs_mul, abs_of_pos hpos]
    exact mul_le_mul_of_nonneg_right hn hpos.le
  have hround : (|(n : ℝ)| + 1) * toReal s.stepsize / 2 ^ 51 ≤ 1 / 2 ^ 10 * toReal s.stepsize := by
    rw [mul_div_right_comm]
    exact mul_le_mul_of_nonneg_right (by linarith) hpos.le
  linarith

/-! ## Numbers of moderate positions -/

/-- The position of a moderate number is off by less than a thousandth of a step. -/
theorem position_of_number (hs : s.Accepted) (hp : s.InPhase phase)
    (hstep : toReal s.stepsize ≤ 2 ^ 100) {n : ℤ} (h₁ : -(2 ^ 41) ≤ n) (h₂ : n ≤ 2 ^ 41) :
    IsFinite (s.position n phase) ∧
      |toReal (s.position n phase) - s.exactPosition n phase| ≤ toReal s.stepsize / 1000 := by
  have hpos := hs.pos
  have hn : |n| ≤ 2 ^ 41 := abs_le.mpr ⟨h₁, h₂⟩
  have hn' : |(n : ℝ)| ≤ 2 ^ 41 := by exact_mod_cast hn
  have hprod : |(n : ℝ)| * toReal s.stepsize ≤ 2 ^ 41 * toReal s.stepsize :=
    mul_le_mul_of_nonneg_right hn' hpos.le
  have hsmall := small_le_greatest
  obtain ⟨hf, herr⟩ := position_moderate hs hp (hn.trans (by norm_num)) (by linarith)
  exact ⟨hf, herr.trans (by linarith)⟩

/-- A position that is not below a moderate one has a moderate number, -/
theorem number_ge (hs : s.Accepted) (hp : s.InPhase phase) (hstep : toReal s.stepsize ≤ 2 ^ 100)
    {n : ℤ} (h₁ : leastNumber ≤ n) (hx : IsFinite x)
    (hlow : -(2 ^ 41 - 2) * toReal s.stepsize ≤ toReal x) (h : ¬ s.position n phase < x) :
    -(2 ^ 41) ≤ n := by
  by_contra hlt
  have hmono := position_mono hs hp.finite h₁ (le_of_lt (not_le.mp hlt)) (by decide)
  obtain ⟨hf, herr⟩ := position_of_number hs hp hstep le_rfl (by norm_num)
  apply h
  obtain ⟨hpn, hqn, hv⟩ := le_iff.mp hmono
  refine lt_iff.mpr ⟨hpn, hx.isNumber, lt_of_le_of_lt hv ?_⟩
  rw [value_of_isFinite hf, value_of_isFinite hx, EReal.coe_lt_coe_iff]
  have hpos := hs.pos
  have hle := hp.le
  have hcast : ((-(2 ^ 41) : ℤ) : ℝ) = -(2 ^ 41) := by norm_num
  rw [exactPosition, hcast] at herr
  have := (abs_le.mp herr).2
  generalize toReal (s.position (-(2 ^ 41)) phase) = p at *
  linarith

/-- and so has one that is not above. -/
theorem number_le (hs : s.Accepted) (hp : s.InPhase phase) (hstep : toReal s.stepsize ≤ 2 ^ 100)
    {n : ℤ} (h₂ : n ≤ greatestNumber) (hx : IsFinite x)
    (hhigh : toReal x ≤ (2 ^ 41 - 2) * toReal s.stepsize) (h : ¬ x < s.position n phase) :
    n ≤ 2 ^ 41 := by
  by_contra hlt
  have hmono := position_mono hs hp.finite (by decide) (le_of_lt (not_le.mp hlt)) h₂
  obtain ⟨hf, herr⟩ := position_of_number hs hp hstep (by norm_num) le_rfl
  apply h
  obtain ⟨hpn, hqn, hv⟩ := le_iff.mp hmono
  refine lt_iff.mpr ⟨hx.isNumber, hqn, lt_of_lt_of_le ?_ hv⟩
  rw [value_of_isFinite hf, value_of_isFinite hx, EReal.coe_lt_coe_iff]
  have hpos := hs.pos
  have hnonneg := hp.nonneg
  have hcast : ((2 ^ 41 : ℤ) : ℝ) = 2 ^ 41 := by norm_num
  rw [exactPosition, hcast] at herr
  have := (abs_le.mp herr).1
  generalize toReal (s.position (2 ^ 41) phase) = p at *
  linarith

/-! ## Numbers that are not clamped -/

theorem abs_numberOf_le (hs : s.Accepted) (hp : s.InPhase phase) (hx : s.Moderate x) :
    |toReal (s.numberOf x phase)| ≤ 2 ^ 40 + 2 := by
  obtain ⟨-, hle, herr⟩ := numberOf_moderate hs hp hx
  have h := abs_sub_abs_le_abs_sub (toReal (s.numberOf x phase)) (s.exactNumber x phase)
  have ht := tiny_le
  linarith

/-- A rule that moves a number by one at most does not take a moderate one to the limits of
the integers. -/
theorem clampedBy_moderate {g : ℝ → ℤ} {a : ℝ} (hg : |(g a : ℝ) - a| ≤ 1)
    (ha : |a| ≤ 2 ^ 40 + 2) :
    |g a| ≤ 2 ^ 40 + 3 ∧ clampedBy g leastNumber greatestNumber a = g a := by
  have hga : |g a| ≤ 2 ^ 40 + 3 := by
    have h := abs_sub_abs_le_abs_sub (g a : ℝ) a
    have h' : |(g a : ℝ)| ≤ 2 ^ 40 + 3 := by linarith
    exact_mod_cast h'
  obtain ⟨h₁, h₂⟩ := abs_le.mp hga
  have hlow : leastNumber ≤ -(2 ^ 40 + 3) := by decide
  have hhigh : 2 ^ 40 + 3 ≤ greatestNumber := by decide
  rw [clampedBy_coe]
  exact ⟨hga, by omega⟩

theorem abs_sub_le_one {a : ℝ} {n : ℤ} (h₁ : ⌊a⌋ ≤ n) (h₂ : n ≤ ⌈a⌉) : |(n : ℝ) - a| ≤ 1 := by
  have h₃ : (⌊a⌋ : ℝ) ≤ n := by exact_mod_cast h₁
  have h₄ : (n : ℝ) ≤ ⌈a⌉ := by exact_mod_cast h₂
  have h₅ := Int.lt_floor_add_one a
  have h₆ := Int.ceil_lt_add_one a
  exact abs_le.mpr ⟨by linarith, by linarith⟩

theorem innerFirst_moderate (hs : s.Accepted) (hp : s.InPhase phase) (hx : s.Moderate x) :
    |s.innerFirst x phase| ≤ 2 ^ 40 + 3 ∧
      s.innerFirst x phase = ceilTol (toReal (s.numberOf x phase)) := by
  have hq := (numberOf_moderate hs hp hx).1
  rw [innerFirst_eq hs hp.finite hx.finite.isNumber, value_of_isFinite hq]
  obtain ⟨h, he⟩ := clampedBy_moderate
    (abs_sub_le_one (floor_le_ceilTol _) (ceilTol_le_ceil _)) (abs_numberOf_le hs hp hx)
  rw [he]
  exact ⟨h, rfl⟩

theorem innerLast_moderate (hs : s.Accepted) (hp : s.InPhase phase) (hx : s.Moderate x) :
    |s.innerLast x phase| ≤ 2 ^ 40 + 3 ∧
      s.innerLast x phase = floorTol (toReal (s.numberOf x phase)) := by
  have hq := (numberOf_moderate hs hp hx).1
  rw [innerLast_eq hs hp.finite hx.finite.isNumber, value_of_isFinite hq]
  obtain ⟨h, he⟩ := clampedBy_moderate
    (abs_sub_le_one (floor_le_floorTol _) (floorTol_le_ceil _)) (abs_numberOf_le hs hp hx)
  rw [he]
  exact ⟨h, rfl⟩

theorem exists_count (hs : s.Accepted) (hp : s.InPhase phase) (hm : s.margin ≤ 2)
    {top bottom : Float} (ht : s.Moderate top) (hb : s.Moderate bottom) :
    ∃ n, s.count top bottom phase = .ok n := by
  obtain ⟨hx, -⟩ := innerFirst_moderate hs hp ht
  obtain ⟨hy, -⟩ := innerLast_moderate hs hp hb
  rw [abs_le] at hx hy
  have hlow : leastNumber ≤ -(2 ^ 42) := by decide
  have hhigh : 2 ^ 42 ≤ greatestNumber := by decide
  refine ⟨_, count_eq_ok.mpr ⟨_, _, firstNumber_eq_ok.mpr ⟨?_, ?_, rfl⟩,
    lastNumber_eq_ok.mpr ⟨?_, ?_, rfl⟩, ?_, ?_, rfl⟩⟩ <;> omega

end Spacing
end Seismic
