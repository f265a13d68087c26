import Seismic.Proofs.Volume.Fetch
import Seismic.Volume.Trace

/-!
# Reading the nearest trace

The nearest sample of an axis is at most half a step away, but for one index: the last number
below one half is rounded up to one.  Only on an axis with a single line is that beyond the
axis, and then the trace is looked up outside the volume.
-/

namespace Seismic

open Double

/-- The number below one half ends up halfway between one and the number before it, and one is
even. -/
theorem rounded_shift_belowHalf : rounded (belowHalf + 1 / 2) = 1 := by
  obtain ⟨x, hx⟩ : ∃ x, x = belowHalf + 1 / 2 := ⟨_, rfl⟩
  have hval : x = 1 - 1 / 2 ^ 54 := by
    rw [hx, belowHalf]
    ring
  have hpos : 0 < x := by
    rw [hval]
    norm_num
  have hlog : Int.log 2 |x| = -1 := by
    have hge : -1 ≤ Int.log 2 |x| := by
      rw [← Int.zpow_le_iff_le_log (by norm_num) (abs_pos.mpr hpos.ne'), abs_of_pos hpos, hval]
      norm_num
    have hlt : Int.log 2 |x| < 0 := by
      rw [← Int.lt_zpow_iff_log_lt (by norm_num) (abs_pos.mpr hpos.ne'), abs_of_pos hpos, hval]
      norm_num
    omega
  have hgrain : Binary.grain Float.Model.Format.binary64 x = -53 := by
    rw [Binary.grain_eq, hlog, minExponent_eq]
    rfl
  have hscaled : x / (2 : ℝ) ^ (-53 : ℤ) = ((2 ^ 53 - 1 : ℤ) : ℝ) + 1 / 2 := by
    rw [hval]
    norm_num
  have hfloor : ⌊((2 ^ 53 - 1 : ℤ) : ℝ) + 1 / 2⌋ = 2 ^ 53 - 1 := by
    rw [Int.floor_intCast_add]
    norm_num
  have hfract : Int.fract (((2 ^ 53 - 1 : ℤ) : ℝ) + 1 / 2) = 1 / 2 := by
    rw [Int.fract_intCast_add, Int.fract_eq_self]
    norm_num
  have heven : Binary.roundEven (((2 ^ 53 - 1 : ℤ) : ℝ) + 1 / 2) = 2 ^ 53 := by
    rw [Binary.roundEven, hfract, hfloor, if_neg (lt_irrefl _), if_neg (lt_irrefl _)]
    norm_num
  rw [← hx, rounded, Binary.rounded, hgrain, hscaled, heven]
  norm_num

namespace Axis

variable {a : Axis Float} {x : Float}

/-- Rounding keeps the floor of an index that is shifted by half a step. -/
theorem floor_shift (hn : a.nsamples < 2 ^ 52) (hx : a.holdsIndex x = true)
    (hne : toReal x ≠ belowHalf) : ⌊rounded (toReal x + 1 / 2)⌋ = ⌊toReal x + 1 / 2⌋ := by
  obtain ⟨-, h₁, h₂⟩ := (holdsIndex_iff hn).mp hx
  obtain ⟨k, hk⟩ := Int.eq_ofNat_of_zero_le (show 0 ≤ ⌊toReal x + 1 / 2⌋ by
    rw [Int.floor_nonneg]
    linarith)
  have hle : (k : ℝ) ≤ toReal x + 1 / 2 := by
    have := Int.floor_le (toReal x + 1 / 2)
    rwa [hk, Int.cast_natCast] at this
  have hlt : toReal x + 1 / 2 < k + 1 := by
    have := Int.lt_floor_add_one (toReal x + 1 / 2)
    rwa [hk, Int.cast_natCast] at this
  have hk52 : k < a.nsamples := by
    have : (k : ℝ) < a.nsamples := by linarith
    exact_mod_cast this
  have hge : (k : ℝ) ≤ rounded (toReal x + 1 / 2) := by
    have hmono := rounded_mono hle
    rwa [← Int.cast_natCast, rounded_intCast (by
      rw [Nat.abs_cast]
      exact_mod_cast (by omega : k < 2 ^ 53))] at hmono
  have hup : rounded (toReal x + 1 / 2) < k + 1 := by
    rcases Nat.eq_zero_or_pos k with h0 | h0
    · rw [h0, Nat.cast_zero, zero_add] at hlt ⊢
      exact rounded_shift_lt_one (by linarith) hne
    · have := rounded_shift_lt (x := x) (n := k + 1) (by omega) (by omega) (by
        push_cast
        linarith)
      rwa [Nat.cast_add, Nat.cast_one] at this
  rw [hk, Int.floor_eq_iff]
  exact ⟨by rwa [Int.cast_natCast], by rwa [Int.cast_natCast]⟩

theorem nearestSample_of_floor (hn : a.nsamples < 2 ^ 52) (hx : a.holdsIndex x = true)
    (hne : toReal x ≠ belowHalf) : a.nearestSample x = .ok ⌊toReal x + 1 / 2⌋.toNat := by
  rw [(nearestSample_eq_ok hn hx).2, floor_shift hn hx hne]

theorem nearestSample_belowHalf (hn : a.nsamples < 2 ^ 52) (hx : a.holdsIndex x = true)
    (he : toReal x = belowHalf) : a.nearestSample x = .ok 1 := by
  rw [(nearestSample_eq_ok hn hx).2, he, rounded_shift_belowHalf, Int.floor_one]
  rfl

theorem nearestSample_exists_iff (hn : a.nsamples < 2 ^ 52) :
    (∃ i, a.nearestSample x = .ok i) ↔ a.holdsIndex x = true := by
  constructor
  · rintro ⟨i, hi⟩
    by_contra hx
    rw [nearestSample, if_neg hx] at hi
    cases hi
  · exact fun hx => ⟨_, (nearestSample_eq_ok hn hx).2⟩

/-- The nearest sample is at most half a step away, unless the index is the one that is
rounded up. -/
theorem nearestSample_distance_iff (hn : a.nsamples < 2 ^ 52) {i : Nat}
    (hi : a.nearestSample x = .ok i) :
    |(i : ℝ) - toReal x| ≤ 1 / 2 ↔ toReal x ≠ belowHalf := by
  have hx := (nearestSample_exists_iff hn).mp ⟨i, hi⟩
  constructor
  · rintro hle he
    rw [nearestSample_belowHalf hn hx he, Except.ok.injEq] at hi
    rw [he, ← hi, Nat.cast_one, belowHalf, abs_le] at hle
    norm_num at hle
  · intro hne
    obtain ⟨-, h₁, -⟩ := (holdsIndex_iff hn).mp hx
    rw [nearestSample_of_floor hn hx hne, Except.ok.injEq] at hi
    have h0 : 0 ≤ ⌊toReal x + 1 / 2⌋ := by
      rw [Int.floor_nonneg]
      linarith
    have hcast : (i : ℝ) = ⌊toReal x + 1 / 2⌋ := by
      rw [← hi, ← Int.cast_natCast, Int.toNat_of_nonneg h0]
    rw [hcast, abs_le]
    constructor
    · linarith [Int.lt_floor_add_one (toReal x + 1 / 2)]
    · linarith [Int.floor_le (toReal x + 1 / 2)]

theorem nearestSample_lt_iff (hn : a.nsamples < 2 ^ 52) {i : Nat}
    (hi : a.nearestSample x = .ok i) : i < a.nsamples ↔ a.Clear x := by
  have hx := (nearestSample_exists_iff hn).mp ⟨i, hi⟩
  constructor
  · intro hlt hone he
    rw [nearestSample_belowHalf hn hx he, Except.ok.injEq] at hi
    omega
  · intro hc
    obtain ⟨k, hk, hik⟩ := nearestSample_of_holdsIndex hn hx hc
    rw [hik, Except.ok.injEq] at hi
    exact hi ▸ hk

end Axis

/-! ## Volumes -/

namespace Volume

variable {σ : Type} {v : Volume Float σ} {p : Point Float}

theorem trace_eq_fault {i j : Nat} (h : ¬(i < v.survey.iline.nsamples ∧
    j < v.survey.xline.nsamples)) : v.trace i j = .error (.fault .pastEnd) := if_neg h

variable [Sampled σ Float]

/-- The trace nearest to a position over the volume is read from the volume, or it is outside
on an axis with a single line. -/
theorem traceAt_nearest (hi : v.survey.iline.nsamples < 2 ^ 52)
    (hj : v.survey.xline.nsamples < 2 ^ 52) (hp : v.survey.holdsTrace p = true) :
    (v.survey.iline.Clear p.x ∧ v.survey.xline.Clear p.y →
      ∃ i j xs, i < v.survey.iline.nsamples ∧ j < v.survey.xline.nsamples ∧
        v.trace i j = .ok xs ∧ v.traceAt p .nearest = .ok xs) ∧
    (¬(v.survey.iline.Clear p.x ∧ v.survey.xline.Clear p.y) →
      v.traceAt p .nearest = .error (.fault .pastEnd)) := by
  rw [Survey.holdsTrace, Bool.and_eq_true] at hp
  obtain ⟨i, hi'⟩ := (Axis.nearestSample_exists_iff hi).mpr hp.1
  obtain ⟨j, hj'⟩ := (Axis.nearestSample_exists_iff hj).mpr hp.2
  have htrace : v.traceAt p .nearest = v.trace i j := by
    unfold traceAt
    dsimp only
    rw [hi', ok_bind, hj', ok_bind]
  rw [← Axis.nearestSample_lt_iff hi hi', ← Axis.nearestSample_lt_iff hj hj']
  constructor
  · intro h
    have hok : v.trace i j = .ok _ := if_pos h
    exact ⟨i, j, _, h.1, h.2, hok, htrace.trans hok⟩
  · exact fun h => htrace.trans (trace_eq_fault h)

/-- The nearest sample is found for the indices on the axis and for no others.  It is on the
axis and at most half a step away, but for the last number below one half: that one is rounded
up to one, which is too far away on any axis and beyond an axis with a single sample.  So the
nearest trace of a position over a volume is read from the volume, unless one of the two
indices is that number on an axis with a single line. -/
theorem nearest_of_holds {a : Axis Float} {x : Float} (hn : a.nsamples < 2 ^ 52)
    (hi : v.survey.iline.nsamples < 2 ^ 52) (hj : v.survey.xline.nsamples < 2 ^ 52)
    (hp : v.survey.holdsTrace p = true) :
    ((∃ i, a.nearestSample x = .ok i) ↔ a.holdsIndex x = true) ∧
    (∀ i, a.nearestSample x = .ok i → (i < a.nsamples ↔ a.Clear x) ∧
      (|(i : ℝ) - toReal x| ≤ 1 / 2 ↔ toReal x ≠ belowHalf)) ∧
    (v.survey.iline.Clear p.x ∧ v.survey.xline.Clear p.y →
      ∃ i j xs, i < v.survey.iline.nsamples ∧ j < v.survey.xline.nsamples ∧
        v.trace i j = .ok xs ∧ v.traceAt p .nearest = .ok xs) ∧
    (¬(v.survey.iline.Clear p.x ∧ v.survey.xline.Clear p.y) →
      v.traceAt p .nearest = .error (.fault .pastEnd)) :=
  ⟨Axis.nearestSample_exists_iff hn, fun _ h => ⟨Axis.nearestSample_lt_iff hn h,
    Axis.nearestSample_distance_iff hn h⟩, traceAt_nearest hi hj hp⟩

theorem nearest_of_small :
    Survey.small.holdsTrace ⟨Float.ofInt 1, Float.ofInt 2⟩ = true ∧
    (∃ i, Survey.small.iline.nearestSample (Float.ofInt 2) = .ok i) ∧
    ∃ xs, (Volume.zeros .small).traceAt ⟨Float.ofInt 1, Float.ofInt 2⟩ .nearest = .ok xs := by
  have hp : Survey.small.holdsTrace ⟨Float.ofInt 1, Float.ofInt 2⟩ = true := by decide +kernel
  obtain ⟨hi, -, hv, -⟩ := nearest_of_holds (v := .zeros .small) (a := Survey.small.iline)
    (x := Float.ofInt 2) (by decide) (by decide) (by decide) hp
  obtain ⟨i, j, xs, -, -, -, hxs⟩ := hv ⟨fun h => absurd h (by decide), fun h => absurd h (by decide)⟩
  exact ⟨hp, hi.mpr (by decide +kernel), xs, hxs⟩

/-- The number before one half, on an axis with one line. -/
theorem nearest_beyond : ¬ ∀ (a : Axis Float) (x : Float), a.nsamples < 2 ^ 52 →
    ((∃ i, a.nearestSample x = .ok i) ↔ a.holdsIndex x = true) ∧
    ∀ i, a.nearestSample x = .ok i → i < a.nsamples ∧ |(i : ℝ) - toReal x| ≤ 1 / 2 := by
  intro hall
  have hone : (Axis.ofInts 1 1 1).nearestSample (Float.ofInt (2 ^ 53 - 1) / Float.ofInt (2 ^ 54)) =
      .ok 1 := by decide +kernel
  obtain ⟨hlt, -⟩ := (hall _ _ (by decide)).2 _ hone
  exact absurd hlt (by decide)

end Volume
end Seismic
