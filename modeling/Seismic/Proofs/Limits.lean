import Seismic.Proofs.Anchor
import Seismic.Proofs.Lines
import Seismic.Proofs.Vertical

/-!
# Sample numbers beyond 64 bits

Sample numbers are clamped to 64 bits before the margin is added.  Up to `2 ^ 63` the numbers
of the format are so far apart that a number within the limits leaves room for the margin, and
one beyond them has the limit itself, which leaves none.
-/

namespace Seismic

open Double

/-- Below `2 ^ 63` the next number of the format is `1024` away. -/
theorem Double.abs_le_of_lt_limit {x : Float} (h : |toReal x| < 2 ^ 63) :
    |toReal x| ≤ 2 ^ 63 - 1024 := by
  rcases lt_or_ge |toReal x| (2 ^ 62) with hlt | hge
  · linarith
  · obtain ⟨n, hn⟩ := toReal_grid_of_le (x := x) (k := 62) (by exact_mod_cast hge)
    have hx : |toReal x| = (|n| : ℤ) * (2 : ℝ) ^ ((62 : ℤ) - 52) := by
      rw [hn, abs_mul, abs_of_pos (zpow_pos (by norm_num : (0 : ℝ) < 2) _), Int.cast_abs]
    have hl : (2 : ℝ) ^ 63 = ((2 ^ 53 : ℤ) : ℝ) * (2 : ℝ) ^ ((62 : ℤ) - 52) := by norm_num
    have hstep := le_sub_of_lt_of_grid (zpow_pos (by norm_num) _) hx hl h
    norm_num at hstep ⊢
    linarith

namespace Spacing

/-- The number of no boundary is so far away that it is clamped. -/
structure Countable (s : Spacing Float) (top bottom phase : Float) : Prop where
  top : Float.ofInt (-2 ^ 63) < s.numberOf top phase
  bottom : s.numberOf bottom phase < Float.ofInt (2 ^ 63)

instance (s : Spacing Float) (top bottom phase : Float) :
    Decidable (s.Countable top bottom phase) :=
  decidable_of_iff (Float.ofInt (-2 ^ 63) < s.numberOf top phase ∧
    s.numberOf bottom phase < Float.ofInt (2 ^ 63)) ⟨fun h => ⟨h.1, h.2⟩, fun h => ⟨h.1, h.2⟩⟩

theorem limit_finite : IsFinite (Float.ofInt (2 ^ 63)) ∧ toReal (Float.ofInt (2 ^ 63)) = 2 ^ 63 := by
  obtain ⟨hf, hv⟩ := ofInt_rounded (n := 2 ^ 63) (le_greatest 63 (by norm_num) (by norm_num))
  have h := rounded_two_zpow (e := 63) (by norm_num)
  norm_num at h hv ⊢
  exact ⟨hf, hv.trans h⟩

theorem negLimit_finite :
    IsFinite (Float.ofInt (-2 ^ 63)) ∧ toReal (Float.ofInt (-2 ^ 63)) = -2 ^ 63 := by
  obtain ⟨hf, hv⟩ := ofInt_rounded (n := -2 ^ 63) (le_greatest 63 (by norm_num) (by norm_num))
  have h := rounded_two_zpow (e := 63) (by norm_num)
  have hneg := rounded_neg ((2 : ℝ) ^ 63)
  norm_num at h hv hneg ⊢
  exact ⟨hf, hv.trans (hneg.trans (congrArg Neg.neg h))⟩

theorem cast_leastNumber : ((leastNumber : ℤ) : ℝ) = -2 ^ 63 := by
  norm_num [leastNumber, signedBound]

theorem cast_greatestNumber : ((greatestNumber : ℤ) : ℝ) = 2 ^ 63 - 1 := by
  norm_num [greatestNumber, signedBound]

variable {g : ℝ → ℤ} {q : Float}

/-- A rule that takes a number to one of its integer neighbours takes the numbers above the
least one far enough above it. -/
theorem clampedBy_of_lt (hg : ∀ a, ⌊a⌋ ≤ g a) (h : Float.ofInt (-2 ^ 63) < q) :
    leastNumber + 1024 ≤ clampedBy g leastNumber greatestNumber (value q) := by
  obtain ⟨hlf, hlv⟩ := negLimit_finite
  obtain ⟨-, hq, hlt⟩ := lt_iff.mp h
  have hroom : leastNumber + 1024 ≤ greatestNumber := by decide
  by_cases hf : IsFinite q
  · rw [lt_iff_toReal hlf hf, hlv] at h
    have hge : -(2 ^ 63) + 1024 ≤ toReal q := by
      rcases le_or_gt 0 (toReal q) with h0 | h0
      · linarith
      · have := abs_le_of_lt_limit (x := q) (by rw [abs_of_neg h0]; linarith)
        rw [abs_of_neg h0] at this
        linarith
    have hfloor : leastNumber + 1024 ≤ ⌊toReal q⌋ := by
      rw [Int.le_floor, Int.cast_add, cast_leastNumber]
      exact_mod_cast hge
    have := hg (toReal q)
    rw [value_of_isFinite hf, clampedBy_coe]
    omega
  · have htop : value q = ⊤ := by
      by_contra hne
      exact hf (isFinite_iff.mpr ⟨hq, hne, (bot_le.trans_lt hlt).ne'⟩)
    rw [htop, clampedBy_top]
    exact hroom

theorem clampedBy_of_not_lt (hg : ∀ a, g a ≤ ⌈a⌉) (hq : IsNumber q)
    (h : ¬ Float.ofInt (-2 ^ 63) < q) :
    clampedBy g leastNumber greatestNumber (value q) = leastNumber := by
  obtain ⟨hlf, hlv⟩ := negLimit_finite
  have hle : value q ≤ ((-2 ^ 63 : ℝ) : EReal) := by
    by_contra hlt
    rw [not_le, ← hlv, ← value_of_isFinite hlf] at hlt
    exact h (lt_iff.mpr ⟨hlf.isNumber, hq, hlt⟩)
  by_cases hf : IsFinite q
  · rw [value_of_isFinite hf, EReal.coe_le_coe_iff] at hle
    have hceil : ⌈toReal q⌉ ≤ leastNumber := by
      rwa [Int.ceil_le, cast_leastNumber]
    have := hg (toReal q)
    have := leastNumber_le
    rw [value_of_isFinite hf, clampedBy_coe]
    omega
  · have hbot : value q = ⊥ := by
      by_contra hne
      exact hf (isFinite_iff.mpr ⟨hq, (hle.trans_lt (EReal.coe_lt_top _)).ne, hne⟩)
    rw [hbot, clampedBy_bot]

/-- So it does with the numbers below the greatest one. -/
theorem clampedBy_of_gt (hg : ∀ a, g a ≤ ⌈a⌉) (h : q < Float.ofInt (2 ^ 63)) :
    clampedBy g leastNumber greatestNumber (value q) ≤ greatestNumber - 1023 := by
  obtain ⟨hlf, hlv⟩ := limit_finite
  obtain ⟨hq, -, hlt⟩ := lt_iff.mp h
  have hroom : leastNumber ≤ greatestNumber - 1023 := by decide
  by_cases hf : IsFinite q
  · rw [lt_iff_toReal hf hlf, hlv] at h
    have hle : toReal q ≤ 2 ^ 63 - 1024 := by
      rcases le_or_gt (toReal q) 0 with h0 | h0
      · linarith
      · have := abs_le_of_lt_limit (x := q) (by rw [abs_of_pos h0]; linarith)
        rwa [abs_of_pos h0] at this
    have hceil : ⌈toReal q⌉ ≤ greatestNumber - 1023 := by
      rw [Int.ceil_le, Int.cast_sub, cast_greatestNumber]
      push_cast
      linarith
    have := hg (toReal q)
    rw [value_of_isFinite hf, clampedBy_coe]
    omega
  · have hbot : value q = ⊥ := by
      by_contra hne
      exact hf (isFinite_iff.mpr ⟨hq, (hlt.trans_le le_top).ne, hne⟩)
    rw [hbot, clampedBy_bot]
    exact hroom

theorem clampedBy_of_not_gt (hg : ∀ a, ⌊a⌋ ≤ g a) (hq : IsNumber q)
    (h : ¬ q < Float.ofInt (2 ^ 63)) :
    clampedBy g leastNumber greatestNumber (value q) = greatestNumber := by
  obtain ⟨hlf, hlv⟩ := limit_finite
  have hge : ((2 ^ 63 : ℝ) : EReal) ≤ value q := by
    by_contra hlt
    rw [not_le, ← hlv, ← value_of_isFinite hlf] at hlt
    exact h (lt_iff.mpr ⟨hq, hlf.isNumber, hlt⟩)
  by_cases hf : IsFinite q
  · rw [value_of_isFinite hf, EReal.coe_le_coe_iff] at hge
    have hfloor : greatestNumber + 1 ≤ ⌊toReal q⌋ := by
      rw [Int.le_floor, Int.cast_add, cast_greatestNumber, Int.cast_one]
      linarith
    have := hg (toReal q)
    have := leastNumber_le
    rw [value_of_isFinite hf, clampedBy_coe]
    omega
  · have htop : value q = ⊤ := by
      by_contra hne
      exact hf (isFinite_iff.mpr ⟨hq, hne, ((EReal.bot_lt_coe _).trans_le hge).ne'⟩)
    rw [htop, clampedBy_top]

/-! ## The margins of a window -/

variable {s : Spacing Float} {x top bottom phase : Float} {n : ℤ}

theorem firstNumber_of_lt (hs : s.Accepted) (hp : IsFinite phase) (hm : s.margin ≤ 1024)
    (hx : IsNumber x) (h : Float.ofInt (-2 ^ 63) < s.numberOf x phase) :
    s.firstNumber x phase = .ok (s.innerFirst x phase - s.margin) := by
  have hlow := clampedBy_of_lt floor_le_ceilTol h
  have hhigh := (clampedBy_mem ceilTol leastNumber_le (value (s.numberOf x phase))).2
  rw [← innerFirst_eq hs hp hx] at hlow hhigh
  exact firstNumber_eq_ok.mpr ⟨by omega, by omega, rfl⟩

theorem firstNumber_of_not_lt (hs : s.Accepted) (hp : IsFinite phase) (hm : 0 < s.margin)
    (hx : IsNumber x) (h : ¬ Float.ofInt (-2 ^ 63) < s.numberOf x phase) :
    s.firstNumber x phase = .error (.fault .overflow) := by
  have hlow := clampedBy_of_not_lt ceilTol_le_ceil (numberOf_isNumber hs hp hx) h
  rw [← innerFirst_eq hs hp hx] at hlow
  refine if_neg fun hroom => ?_
  have hfirst : leastNumber ≤ s.innerFirst x phase - s.margin := hroom.1
  omega

theorem lastNumber_of_gt (hs : s.Accepted) (hp : IsFinite phase) (hm : s.margin ≤ 1023)
    (hx : IsNumber x) (h : s.numberOf x phase < Float.ofInt (2 ^ 63)) :
    s.lastNumber x phase = .ok (s.innerLast x phase + s.margin) := by
  have hhigh := clampedBy_of_gt floorTol_le_ceil h
  have hlow := (clampedBy_mem floorTol leastNumber_le (value (s.numberOf x phase))).1
  rw [← innerLast_eq hs hp hx] at hlow hhigh
  exact lastNumber_eq_ok.mpr ⟨by omega, by omega, rfl⟩

theorem lastNumber_of_not_gt (hs : s.Accepted) (hp : IsFinite phase) (hm : 0 < s.margin)
    (hx : IsNumber x) (h : ¬ s.numberOf x phase < Float.ofInt (2 ^ 63)) :
    s.lastNumber x phase = .error (.fault .overflow) := by
  have hhigh := clampedBy_of_not_gt floor_le_floorTol (numberOf_isNumber hs hp hx) h
  rw [← innerLast_eq hs hp hx] at hhigh
  refine if_neg fun hroom => ?_
  have hlast : s.innerLast x phase + s.margin < signedBound := hroom.2
  have : greatestNumber + 1 = signedBound := by decide
  omega

/-- The number of samples in a window, were it not for the limits of 64 bits. -/
def span (s : Spacing Float) (top bottom phase : Float) : Nat :=
  (s.innerLast bottom phase - s.innerFirst top phase + (2 * s.margin + 1)).toNat

theorem count_of_countable (hs : s.Accepted) (hp : IsFinite phase) (hm : s.margin ≤ 1023)
    (h : top ≤ bottom) (hc : s.Countable top bottom phase) : s.count top bottom phase =
      if s.span top bottom phase < signedBound then .ok (s.span top bottom phase)
      else .error (.fault .overflow) := by
  obtain ⟨ht, hb, -⟩ := le_iff.mp h
  have hinner := innerFirst_le hs hp h
  have hf := firstNumber_of_lt hs hp (by omega) ht hc.top
  have hl := lastNumber_of_gt hs hp hm hb hc.bottom
  unfold span
  split_ifs with hlt
  · refine count_eq_ok.mpr ⟨_, _, hf, hl, ?_, ?_, ?_⟩
    · unfold leastNumber
      omega
    · unfold greatestNumber
      omega
    · congr 1
      omega
  · unfold Spacing.count
    rw [hf, ok_bind, hl, ok_bind]
    have hbound : (1 : ℤ) ≤ signedBound := by decide
    -- Either the distance is too long, or the number of samples, which is one more.
    by_cases hd : s.innerLast bottom phase + s.margin - (s.innerFirst top phase - s.margin) <
        signedBound
    · rw [sampleNumber_eq_ok.mpr ⟨by omega, hd, rfl⟩, ok_bind]
      unfold sampleNumber
      rw [if_neg fun hroom => hlt (by omega)]
      rfl
    · unfold sampleNumber
      rw [if_neg fun hroom => hd hroom.2]
      rfl

/-! ## Boundaries beyond the ends of an axis -/

/-- The first sample of a window lies above its top, by nearly one step or more. -/
theorem position_above (hs : s.Accepted) (hp : s.InPhase phase)
    (hstep : toReal s.stepsize ≤ 2 ^ 100) (hx : s.Moderate x) :
    IsFinite (s.position (s.innerFirst x phase - 2) phase) ∧
      toReal (s.position (s.innerFirst x phase - 2) phase) ≤
        toReal x - 99 / 100 * toReal s.stepsize := by
  have hpos := hs.pos
  obtain ⟨-, hexact, herr⟩ := numberOf_moderate hs hp hx
  obtain ⟨hle, he⟩ := innerFirst_moderate hs hp hx
  rw [abs_le] at hle
  obtain ⟨hf, hperr⟩ := position_of_number hs hp hstep (n := s.innerFirst x phase - 2)
    (by omega) (by omega)
  refine ⟨hf, ?_⟩
  have hceil : (ceilTol (toReal (s.numberOf x phase)) : ℝ) < toReal (s.numberOf x phase) + 1 :=
    lt_of_le_of_lt (by exact_mod_cast ceilTol_le_ceil _) (Int.ceil_lt_add_one _)
  rw [← he] at hceil
  have ht := tiny_le
  have hnear := (abs_le.mp herr).2
  have hmul : (s.innerFirst x phase - 2 : ℝ) * toReal s.stepsize ≤
      (s.exactNumber x phase - 995 / 1000) * toReal s.stepsize :=
    mul_le_mul_of_nonneg_right (by linarith) hpos.le
  have hx' : s.exactNumber x phase * toReal s.stepsize = toReal x - toReal phase :=
    div_mul_cancel₀ _ hpos.ne'
  have := (abs_le.mp hperr).2
  rw [exactPosition] at this
  push_cast at this
  linarith

/-- The last one lies below its bottom. -/
theorem position_below (hs : s.Accepted) (hp : s.InPhase phase)
    (hstep : toReal s.stepsize ≤ 2 ^ 100) (hx : s.Moderate x) :
    IsFinite (s.position (s.innerLast x phase + 2) phase) ∧
      toReal x + 99 / 100 * toReal s.stepsize ≤
        toReal (s.position (s.innerLast x phase + 2) phase) := by
  have hpos := hs.pos
  obtain ⟨-, hexact, herr⟩ := numberOf_moderate hs hp hx
  obtain ⟨hle, he⟩ := innerLast_moderate hs hp hx
  rw [abs_le] at hle
  obtain ⟨hf, hperr⟩ := position_of_number hs hp hstep (n := s.innerLast x phase + 2)
    (by omega) (by omega)
  refine ⟨hf, ?_⟩
  have hfloor : toReal (s.numberOf x phase) - 1 < floorTol (toReal (s.numberOf x phase)) :=
    lt_of_lt_of_le (Int.sub_one_lt_floor _) (by exact_mod_cast floor_le_floorTol _)
  rw [← he] at hfloor
  have ht := tiny_le
  have hnear := (abs_le.mp herr).1
  have hmul : (s.exactNumber x phase + 995 / 1000) * toReal s.stepsize ≤
      (s.innerLast x phase + 2 : ℝ) * toReal s.stepsize :=
    mul_le_mul_of_nonneg_right (by linarith) hpos.le
  have hx' : s.exactNumber x phase * toReal s.stepsize = toReal x - toReal phase :=
    div_mul_cancel₀ _ hpos.ne'
  have := (abs_le.mp hperr).1
  rw [exactPosition] at this
  push_cast at this
  linarith

end Spacing

namespace RawSpacing

variable {a : Axis Float} {s : RawSpacing Float} {top bottom p : Float}

theorem moderate_of_resolved (hs : through a.step a.first = .ok s) (hres : a.Resolved) :
    s.spacing.Moderate a.first ∧ s.spacing.Moderate a.last := by
  obtain ⟨hacc, hstep, -, -, -⟩ := through_axis hs
  obtain ⟨hl, hf⟩ := Axis.ends_finite (hstep ▸ hacc.finite) (hstep ▸ hacc.pos)
  obtain ⟨-, hshort, hfirst, hlast⟩ := hres
  rw [← hstep] at hshort hfirst hlast
  exact ⟨⟨hf, hfirst, by linarith⟩, ⟨hl, hlast, by linarith⟩⟩

/-- A window whose top is not below the first sample of an axis begins above the axis, -/
theorem topSample_lt (hs : through a.step a.first = .ok s) (hres : a.Resolved)
    (ht : top ≤ a.first) (hp : s.topSample top = .ok p) : p < a.first - Tolerance.width := by
  obtain ⟨hacc, hstep, hm, -, hpf⟩ := through_axis hs
  obtain ⟨n, hn, rfl⟩ := Spacing.topSample_eq_ok.mp hp
  obtain ⟨hlow, -, rfl⟩ := Spacing.firstNumber_eq_ok.mp hn
  obtain ⟨hmod, -⟩ := moderate_of_resolved hs hres
  obtain ⟨hef, hev⟩ := hres.edge_first hmod.finite
  have hshort : toReal s.spacing.stepsize ≤ 2 ^ 100 := hstep ▸ hres.short
  obtain ⟨hqf, hqv⟩ := Spacing.position_above hacc (inPhase_of_through hs) hshort hmod
  have hpos := hacc.pos
  have hhigh := (clampedBy_mem ceilTol Spacing.leastNumber_le
    (value (s.spacing.numberOf a.first s.phase))).2
  rw [← Spacing.innerFirst_eq hacc hpf hmod.finite.isNumber] at hhigh
  have hle := Spacing.innerFirst_mono hacc hpf ht
  rw [hm] at hlow
  have hmono := Spacing.position_mono hacc hpf hlow
    (show s.spacing.innerFirst top s.phase - 2 ≤ s.spacing.innerFirst a.first s.phase - 2 by omega)
    (by omega)
  rw [hm]
  obtain ⟨hpn, hqn, hv⟩ := le_iff.mp hmono
  refine lt_iff.mpr ⟨hpn, hef.isNumber, lt_of_le_of_lt hv ?_⟩
  rw [value_of_isFinite hqf, value_of_isFinite hef, EReal.coe_lt_coe_iff]
  rw [← hstep] at hev
  linarith

/-- and one whose bottom is not above the last sample ends below it. -/
theorem lt_bottomSample (hs : through a.step a.first = .ok s) (hres : a.Resolved)
    (hb : a.last ≤ bottom) (hp : s.bottomSample bottom = .ok p) :
    a.last + Tolerance.width < p := by
  obtain ⟨hacc, hstep, hm, -, hpf⟩ := through_axis hs
  obtain ⟨n, hn, rfl⟩ := Spacing.bottomSample_eq_ok.mp hp
  obtain ⟨-, hhigh, rfl⟩ := Spacing.lastNumber_eq_ok.mp hn
  obtain ⟨-, hmod⟩ := moderate_of_resolved hs hres
  obtain ⟨hef, hev⟩ := hres.edge_last hmod.finite
  have hshort : toReal s.spacing.stepsize ≤ 2 ^ 100 := hstep ▸ hres.short
  obtain ⟨hqf, hqv⟩ := Spacing.position_below hacc (inPhase_of_through hs) hshort hmod
  have hpos := hacc.pos
  have hlow := (clampedBy_mem floorTol Spacing.leastNumber_le
    (value (s.spacing.numberOf a.last s.phase))).1
  rw [← Spacing.innerLast_eq hacc hpf hmod.finite.isNumber] at hlow
  have hle := Spacing.innerLast_mono hacc hpf hb
  rw [hm] at hhigh
  have hmono := Spacing.position_mono hacc hpf (by omega)
    (show s.spacing.innerLast a.last s.phase + 2 ≤ s.spacing.innerLast bottom s.phase + 2 by omega)
    hhigh
  rw [hm]
  obtain ⟨hqn, hpn, hv⟩ := le_iff.mp hmono
  refine lt_iff.mpr ⟨hef.isNumber, hpn, lt_of_lt_of_le ?_ hv⟩
  rw [value_of_isFinite hqf, value_of_isFinite hef, EReal.coe_lt_coe_iff]
  rw [← hstep] at hev
  linarith

end RawSpacing
end Seismic
