import Seismic.Proofs.Binary.Rounding
import Seismic.Proofs.Exact.Window
import Seismic.Trace.Segment

/-!
# The samples a window lists

While numbers are so small that the tolerance stays below one, the tolerant ceiling of a number
is the ceiling of the number less its tolerance, and the tolerant floor is the floor of the sum
of both.  So the number of samples of a window, the first one, the last one and the positions
that are listed all describe one range of sample numbers.
-/

namespace Seismic
namespace Exact

/-- The distance at which a number counts as an integer. -/
def tolerance {K : Type} [Field K] [LinearOrder K] (x : K) : K :=
  1 / (1000 : ℕ) + max 1 |x| * (8 : ℕ) * 2 ^ (-52 : ℤ)

/-- The least number that is not below a fractional one by more than the tolerance. -/
def firstNear {K : Type} [Field K] [LinearOrder K] [FloorRing K] (x : K) : ℤ := ⌈x - tolerance x⌉

/-- The greatest number that is not above a fractional one by more than the tolerance. -/
def lastNear {K : Type} [Field K] [LinearOrder K] [FloorRing K] (x : K) : ℤ := ⌊x + tolerance x⌋

variable {K : Type} [Field K] [LinearOrder K] [FloorRing K]
variable {s : Spacing (Exact K)} {top bottom phase x : Exact K} {first last : ℤ}

theorem allowance_eq_tolerance (x : Exact K) : allowance x = tolerance x.val := by
  rw [allowance_eq, noise_val, tolerance, max_comm, mul_right_comm]
  norm_num

/-- A window lists the samples from one number to another: it counts as many of them as there
are, its ends are the positions of the first number and the last one, and the positions a step
apart from the first end on are those of all numbers, in their order. -/
structure Lists (count : Result (Exact K) ℕ) (topSample bottomSample : Result (Exact K) (Exact K))
    (s : Spacing (Exact K)) (phase : Exact K) (first last : ℤ) : Prop where
  count_eq : count = .ok (Finset.Icc first last).card
  top_eq : topSample = .ok (s.position first phase)
  bottom_eq : bottomSample = .ok (s.position last phase)
  positions_eq : (samplePositions (s.position first phase) s.stepsize
    (Finset.Icc first last).card).toList =
      (Int.range first (last + 1)).map fun n => s.position n phase
  back_eq : first ≤ last → (samplePositions (s.position first phase) s.stepsize
    (Finset.Icc first last).card).back? = some (s.position last phase)

variable [IsStrictOrderedRing K]

/-! ## Tolerant rounding of small numbers -/

omit [FloorRing K] in
theorem tolerance_pos (x : K) : 0 < tolerance x := by
  unfold tolerance
  positivity

theorem tolerance_lt {x : K} (h : |x| < 2 ^ 48) : tolerance x < 1 := by
  have hmax : max 1 |x| ≤ 2 ^ 48 := max_le (by norm_num) h.le
  have hmul := mul_le_mul_of_nonneg_right hmax (show (0 : K) ≤ 8 * 2 ^ (-52 : ℤ) by positivity)
  have hhalf : (2 ^ 48 * (8 * 2 ^ (-52 : ℤ)) : K) = 1 / 2 := by norm_num
  rw [hhalf] at hmul
  calc tolerance x = 1 / 1000 + max 1 |x| * (8 * 2 ^ (-52 : ℤ)) := by
        rw [tolerance, mul_assoc, Nat.cast_ofNat, Nat.cast_ofNat]
    _ ≤ 1 / 1000 + 1 / 2 := by linarith
    _ < 1 := by norm_num

theorem ceilNumber_eq (h : |x.val| < 2 ^ 48) : ceilNumber x = firstNear x.val := by
  have hpos := tolerance_pos x.val
  have hlt := tolerance_lt h
  have hfloor := Int.floor_le x.val
  symm
  unfold ceilNumber firstNear
  rw [allowance_eq_tolerance, abs_of_nonneg (sub_nonneg.mpr hfloor)]
  split_ifs with hnear
  · rw [Int.ceil_eq_iff]
    constructor <;> linarith
  · rw [not_le] at hnear
    -- the number is above an integer by more than the tolerance
    have hceil : ⌈x.val⌉ = ⌊x.val⌋ + 1 := by
      rw [Int.ceil_eq_iff]
      push_cast
      constructor <;> linarith [Int.lt_floor_add_one x.val]
    rw [hceil, Int.ceil_eq_iff]
    push_cast
    constructor <;> linarith [Int.lt_floor_add_one x.val]

theorem floorNumber_eq (h : |x.val| < 2 ^ 48) : floorNumber x = lastNear x.val := by
  have hpos := tolerance_pos x.val
  have hlt := tolerance_lt h
  have hceil := Int.le_ceil x.val
  symm
  unfold floorNumber lastNear
  rw [allowance_eq_tolerance, abs_sub_comm, abs_of_nonneg (sub_nonneg.mpr hceil)]
  split_ifs with hnear
  · rw [Int.floor_eq_iff]
    constructor <;> linarith
  · rw [not_le] at hnear
    have hfloor : ⌊x.val⌋ = ⌈x.val⌉ - 1 := by
      rw [Int.floor_eq_iff]
      push_cast
      constructor <;> linarith [Int.ceil_lt_add_one x.val]
    rw [hfloor, Int.floor_eq_iff]
    push_cast
    constructor <;> linarith [Int.ceil_lt_add_one x.val]

theorem floor_ceil_mem (h : |x.val| < 2 ^ 48) : -2 ^ 48 ≤ ⌊x.val⌋ ∧ ⌈x.val⌉ ≤ 2 ^ 48 := by
  obtain ⟨hlow, hhigh⟩ := abs_lt.mp h
  refine ⟨Int.le_floor.mpr ?_, Int.ceil_le.mpr ?_⟩
  · rw [Int.cast_neg, Int.cast_pow, Int.cast_ofNat]
    exact hlow.le
  · rw [Int.cast_pow, Int.cast_ofNat]
    exact hhigh.le

theorem ceilNumber_mem (h : |x.val| < 2 ^ 48) : -2 ^ 48 ≤ ceilNumber x ∧ ceilNumber x ≤ 2 ^ 48 :=
  ⟨(floor_ceil_mem h).1.trans (floor_le_ceilNumber x),
    (ceilNumber_le_ceil x).trans (floor_ceil_mem h).2⟩

theorem floorNumber_mem (h : |x.val| < 2 ^ 48) : -2 ^ 48 ≤ floorNumber x ∧ floorNumber x ≤ 2 ^ 48 :=
  ⟨(floor_ceil_mem h).1.trans (floor_le_floorNumber x),
    (floorNumber_le_ceil x).trans (floor_ceil_mem h).2⟩

/-! ## From the first number to the last one -/

omit [IsStrictOrderedRing K] in
theorem position_add (s : Spacing (Exact K)) (phase : Exact K) (first : ℤ) (k : ℕ) :
    s.position first phase + Scalar.ofNat k * s.stepsize = s.position (first + k) phase := by
  have hval : (s.position first phase + Scalar.ofNat k * s.stepsize).val =
      (s.position (first + k) phase).val := by
    rw [add_val, mul_val, ofNat_val, position_val, position_val, Int.cast_add, Int.cast_natCast]
    ring
  exact congrArg Exact.mk hval

omit [IsStrictOrderedRing K] in
theorem toList_samplePositions (s : Spacing (Exact K)) (phase : Exact K) (first last : ℤ) :
    (samplePositions (s.position first phase) s.stepsize (Finset.Icc first last).card).toList =
      (Int.range first (last + 1)).map fun n => s.position n phase := by
  unfold samplePositions Int.range
  rw [Array.toList_ofFn, List.map_map, Int.card_Icc]
  refine List.ext_getElem (by simp) fun k h₁ h₂ => ?_
  rw [List.getElem_ofFn, List.getElem_map, List.getElem_range]
  exact position_add s phase first k

omit [IsStrictOrderedRing K] in
/-- A window lists what is between its first and its last number if both of them, and their
distance, fit 64 bits. -/
theorem lists_of_numbers (hf : s.firstNumber top phase = .ok first)
    (hl : s.lastNumber bottom phase = .ok last) (hlow : Spacing.leastNumber ≤ last - first)
    (hhigh : last - first + 1 ≤ Spacing.greatestNumber) :
    Lists (s.count top bottom phase) (s.topSample top phase) (s.bottomSample bottom phase) s phase
      first last where
  count_eq := Spacing.count_eq_ok.mpr ⟨first, last, hf, hl, hlow, hhigh, by
    rw [Int.card_Icc, sub_add_eq_add_sub]⟩
  top_eq := Spacing.topSample_eq_ok.mpr ⟨first, hf, rfl⟩
  bottom_eq := Spacing.bottomSample_eq_ok.mpr ⟨last, hl, rfl⟩
  positions_eq := toList_samplePositions s phase first last
  back_eq := fun hle => by
    rw [← Array.getLast?_toList, toList_samplePositions, List.getLast?_map, Int.range,
      List.getLast?_map, List.getLast?_range, if_neg (by omega)]
    refine congrArg (fun n => some (s.position n phase)) ?_
    dsimp only
    omega

/-! ## Windows -/

/-- A window with any margin lists the numbers between its boundaries and those of the margin,
as long as they can be counted with 64 bits. -/
theorem lists_of_small (htop : |(numberOf s top phase).val| < 2 ^ 48)
    (hbottom : |(numberOf s bottom phase).val| < 2 ^ 48)
    (hf : first = firstNear (numberOf s top phase).val - s.margin)
    (hl : last = lastNear (numberOf s bottom phase).val + s.margin) :
    (last - first < 2 ^ 63 - 1 → Lists (s.count top bottom phase) (s.topSample top phase)
      (s.bottomSample bottom phase) s phase first last) ∧
    (2 ^ 63 - 1 ≤ last - first → s.count top bottom phase = .error (.fault .overflow)) := by
  have hleast : Spacing.leastNumber = -2 ^ 63 := by decide
  have hgreatest : Spacing.greatestNumber = 2 ^ 63 - 1 := by decide
  have hceil := ceilNumber_eq htop
  have hfloor := floorNumber_eq hbottom
  obtain ⟨hceil₁, hceil₂⟩ := ceilNumber_mem htop
  obtain ⟨hfloor₁, hfloor₂⟩ := floorNumber_mem hbottom
  have hclamped := clamped_of_mem (n := ceilNumber (numberOf s top phase)) (by omega) (by omega)
  have hclamped' := clamped_of_mem (n := floorNumber (numberOf s bottom phase)) (by omega)
    (by omega)
  have hfirst : first = clamped (ceilNumber (numberOf s top phase)) - s.margin := by
    rw [hclamped, hceil, hf]
  have hlast : last = clamped (floorNumber (numberOf s bottom phase)) + s.margin := by
    rw [hclamped', hfloor, hl]
  constructor
  · intro hfits
    exact lists_of_numbers (firstNumber_eq_ok.mpr ⟨by omega, by omega, hfirst⟩)
      (lastNumber_eq_ok.mpr ⟨by omega, by omega, hlast⟩) (by omega) (by omega)
  · intro hlong
    rcases Spacing.count_cases s top bottom phase with ⟨n, hn⟩ | hfault
    · obtain ⟨first', last', hf', hl', -, hcount, -⟩ := Spacing.count_eq_ok.mp hn
      obtain ⟨-, -, hf'⟩ := firstNumber_eq_ok.mp hf'
      obtain ⟨-, -, hl'⟩ := lastNumber_eq_ok.mp hl'
      omega
    · exact hfault

/-- A window with a margin that is small itself can be counted. -/
theorem lists_of_margin_le (hmargin : s.margin ≤ 2 ^ 61)
    (htop : |(numberOf s top phase).val| < 2 ^ 48)
    (hbottom : |(numberOf s bottom phase).val| < 2 ^ 48) :
    Lists (s.count top bottom phase) (s.topSample top phase) (s.bottomSample bottom phase) s phase
      (firstNear (numberOf s top phase).val - s.margin)
      (lastNear (numberOf s bottom phase).val + s.margin) := by
  have hceil := ceilNumber_eq htop
  have hfloor := floorNumber_eq hbottom
  obtain ⟨hceil₁, -⟩ := ceilNumber_mem htop
  obtain ⟨-, hfloor₂⟩ := floorNumber_mem hbottom
  refine (lists_of_small htop hbottom rfl rfl).1 ?_
  omega

/-- The windows of a spacing with any margin, those over a volume and those of resampled traces
list the numbers from the first one near their top to the last one near their bottom, and those
of their margin.  A margin so large that these cannot be counted with 64 bits is a fault. -/
theorem windows_list :
    (∀ (h : Exact K) (margin : ℕ), 0 < h.val → ∃ s, Spacing.ofStepsize h margin = .ok s ∧
      s.stepsize = h ∧ s.margin = margin ∧ ∀ (phase top bottom : Exact K) (first last : ℤ),
        |(numberOf s top phase).val| < 2 ^ 48 → |(numberOf s bottom phase).val| < 2 ^ 48 →
        first = firstNear (numberOf s top phase).val - margin →
        last = lastNear (numberOf s bottom phase).val + margin →
        (last - first < 2 ^ 63 - 1 → Lists (s.count top bottom phase) (s.topSample top phase)
          (s.bottomSample bottom phase) s phase first last) ∧
        (2 ^ 63 - 1 ≤ last - first → s.count top bottom phase = .error (.fault .overflow))) ∧
    (∀ h x : Exact K, 0 < h.val → ∃ s, RawSpacing.through h x = .ok s ∧
      s.spacing.stepsize = h ∧ s.phase = Tolerance.phase x h ∧ ∀ top bottom : Exact K,
        |(numberOf s.spacing top s.phase).val| < 2 ^ 48 →
        |(numberOf s.spacing bottom s.phase).val| < 2 ^ 48 →
        Lists (s.count top bottom) (s.topSample top) (s.bottomSample bottom) s.spacing s.phase
          (firstNear (numberOf s.spacing top s.phase).val - 2)
          (lastNear (numberOf s.spacing bottom s.phase).val + 2)) ∧
    ∀ h : Exact K, 0 < h.val → ∃ s, ResampledSpacing.ofStepsize h = .ok s ∧
      s.spacing.stepsize = h ∧ ∀ reference top bottom : Exact K,
        |(numberOf s.spacing top (s.phase reference)).val| < 2 ^ 48 →
        |(numberOf s.spacing bottom (s.phase reference)).val| < 2 ^ 48 →
        s.phase reference = Tolerance.phase reference h ∧
        Lists (s.count reference top bottom) (s.topSample reference top)
          (s.bottomSample reference bottom) s.spacing (s.phase reference)
          (firstNear (numberOf s.spacing top (s.phase reference)).val)
          (lastNear (numberOf s.spacing bottom (s.phase reference)).val) := by
  refine ⟨fun h margin hpos => ?_, fun h x hpos => ?_, fun h hpos => ?_⟩
  · exact ⟨⟨h, margin⟩, ofStepsize_eq_ok.mpr ⟨rfl, hpos⟩, rfl, rfl,
      fun phase top bottom first last => lists_of_small⟩
  · refine ⟨⟨⟨h, rawMargin⟩, Tolerance.phase x h⟩,
      bind_eq_ok.mpr ⟨_, ofStepsize_eq_ok.mpr ⟨rfl, hpos⟩, rfl⟩, rfl, rfl, fun top bottom => ?_⟩
    exact lists_of_margin_le (show rawMargin ≤ 2 ^ 61 by decide)
  · refine ⟨⟨⟨h, 0⟩⟩, bind_eq_ok.mpr ⟨_, ofStepsize_eq_ok.mpr ⟨rfl, hpos⟩, rfl⟩, rfl,
      fun reference top bottom htop hbottom => ⟨rfl, ?_⟩⟩
    have hlists := lists_of_margin_le (Nat.zero_le _) htop hbottom
    rwa [Nat.cast_zero, sub_zero, add_zero] at hlists

/-- A window that begins half a thousandth of a step after sample 2 and ends as much before
sample 4 lists these, the one between them and those of its margin. -/
theorem windows_list_of_inside :
    (∃ s, Spacing.ofStepsize (⟨4⟩ : Exact ℚ) 5 = .ok s ∧
      Lists (s.count ⟨8002 / 1000⟩ ⟨15998 / 1000⟩ ⟨0⟩) (s.topSample ⟨8002 / 1000⟩ ⟨0⟩)
        (s.bottomSample ⟨15998 / 1000⟩ ⟨0⟩) s ⟨0⟩ (-3) 9) ∧
    (∃ s, RawSpacing.through (⟨4⟩ : Exact ℚ) ⟨0⟩ = .ok s ∧
      Lists (s.count ⟨8002 / 1000⟩ ⟨15998 / 1000⟩) (s.topSample ⟨8002 / 1000⟩)
        (s.bottomSample ⟨15998 / 1000⟩) s.spacing s.phase 0 6) ∧
    ∃ s, ResampledSpacing.ofStepsize (⟨4⟩ : Exact ℚ) = .ok s ∧
      Lists (s.count ⟨0⟩ ⟨8002 / 1000⟩ ⟨15998 / 1000⟩) (s.topSample ⟨0⟩ ⟨8002 / 1000⟩)
        (s.bottomSample ⟨0⟩ ⟨15998 / 1000⟩) s.spacing (s.phase ⟨0⟩) 2 4 := by
  have hzero : Tolerance.phase (⟨0⟩ : Exact ℚ) ⟨4⟩ = ⟨0⟩ := by decide +kernel
  -- what the boundaries are on a lattice of this step, whatever its margin
  have htop : ∀ (s : Spacing (Exact ℚ)) (phase : Exact ℚ), s.stepsize = ⟨4⟩ → phase = ⟨0⟩ →
      |(numberOf s ⟨8002 / 1000⟩ phase).val| < 2 ^ 48 ∧
        firstNear (numberOf s ⟨8002 / 1000⟩ phase).val = 2 := fun s phase hs hphase => by
    rw [numberOf_val, hs, hphase]
    decide +kernel
  have hbottom : ∀ (s : Spacing (Exact ℚ)) (phase : Exact ℚ), s.stepsize = ⟨4⟩ → phase = ⟨0⟩ →
      |(numberOf s ⟨15998 / 1000⟩ phase).val| < 2 ^ 48 ∧
        lastNear (numberOf s ⟨15998 / 1000⟩ phase).val = 4 := fun s phase hs hphase => by
    rw [numberOf_val, hs, hphase]
    decide +kernel
  obtain ⟨hany, hraw, hresampled⟩ := windows_list (K := ℚ)
  refine ⟨?_, ?_, ?_⟩
  · obtain ⟨s, hok, hs, -, hlists⟩ := hany ⟨4⟩ 5 (by decide +kernel)
    obtain ⟨ht, hfirst⟩ := htop s ⟨0⟩ hs rfl
    obtain ⟨hb, hlast⟩ := hbottom s ⟨0⟩ hs rfl
    exact ⟨s, hok, (hlists ⟨0⟩ _ _ (-3) 9 ht hb (by rw [hfirst]; rfl) (by rw [hlast]; rfl)).1
      (by decide)⟩
  · obtain ⟨s, hok, hs, hphase, hlists⟩ := hraw ⟨4⟩ ⟨0⟩ (by decide +kernel)
    obtain ⟨ht, hfirst⟩ := htop s.spacing s.phase hs (hphase.trans hzero)
    obtain ⟨hb, hlast⟩ := hbottom s.spacing s.phase hs (hphase.trans hzero)
    have hlisted := hlists _ _ ht hb
    rw [hfirst, hlast] at hlisted
    exact ⟨s, hok, hlisted⟩
  · obtain ⟨s, hok, hs, hlists⟩ := hresampled ⟨4⟩ (by decide +kernel)
    have hphase : s.phase ⟨0⟩ = ⟨0⟩ := by rw [ResampledSpacing.phase, hs, hzero]
    obtain ⟨ht, hfirst⟩ := htop s.spacing (s.phase ⟨0⟩) hs hphase
    obtain ⟨hb, hlast⟩ := hbottom s.spacing (s.phase ⟨0⟩) hs hphase
    obtain ⟨-, hlisted⟩ := hlists ⟨0⟩ _ _ ht hb
    rw [hfirst, hlast] at hlisted
    exact ⟨s, hok, hlisted⟩

end Exact
end Seismic
