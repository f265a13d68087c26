import Seismic.Proofs.Double.Integral
import Seismic.Proofs.Double.Moderate
import Seismic.Proofs.Double.Remainder
import Seismic.Proofs.Volume.Fetched
import Seismic.Volume.Slice

/-!
# What slices hold

A slice is read as a box that is one sample thick.  Leaving out the axis of which there is one
sample, the place of a sample among the other two axes is its place in the slice.
-/

namespace Seismic

open Double

/-! ## Words -/

theorem Single.length_bytes (x : Single) : x.bytes.length = 4 := rfl

namespace Sample

variable {xs : List Single} {x : Single} {p : Nat}

theorem length_encode (xs : List Single) : (encode xs).length = 4 * xs.length := by
  rw [encode, length_flatMap_of_length fun x _ => x.length_bytes, Nat.mul_comm]

/-- Every sample takes the four bytes at its place. -/
theorem word_encode (h : xs[p]? = some x) : ((encode xs).drop (4 * p)).take 4 = x.bytes := by
  rw [encode, Nat.mul_comm]
  exact take_drop_flatMap_of_length (fun x _ => x.length_bytes) h

end Sample

/-- The word of four bytes at a place of a slice. -/
def Slice.word {α : Type} (s : Slice α Single) (p : Nat) : List UInt8 :=
  (s.bytes.drop (4 * p)).take 4

/-! ## Lines -/

/-- An index below `2 ^ 53` is less, also as a number, than every count above it. -/
theorem ofNat_lt {i n : Nat} (h : i < n) (hi : i < 2 ^ 53) :
    (Scalar.ofNat i : Float) < Scalar.ofNat n := by
  obtain ⟨hif, hiv⟩ := ofInt_finite (n := i) (by rw [Nat.abs_cast]; exact_mod_cast hi)
  obtain ⟨hn, hnv⟩ := ofInt_spec n
  have hle : (i : ℝ) + 1 ≤ 2 ^ 53 := by exact_mod_cast hi
  have hnext : rounded ((i : ℝ) + 1) = i + 1 := by
    rcases Nat.lt_or_ge (i + 1) (2 ^ 53) with hlt | hge
    · have hexact := rounded_intCast (n := (i + 1 : Nat)) (by rw [Nat.abs_cast]; exact_mod_cast hlt)
      rwa [Int.cast_natCast, Nat.cast_add, Nat.cast_one] at hexact
    · have hpow : (i : ℝ) + 1 = (2 : ℝ) ^ (53 : ℤ) := le_antisymm hle (by exact_mod_cast hge)
      rw [hpow, rounded_two_zpow (by norm_num)]
  have hround : round (((i : ℝ) + 1 : ℝ) : EReal) = (((i : ℝ) + 1 : ℝ) : EReal) := by
    rw [round_coe, hnext]
    rw [abs_of_nonneg (by positivity)]
    exact le_greatest 53 (by norm_num) hle
  refine lt_iff.mpr ⟨hif.isNumber, hn, ?_⟩
  calc value (Scalar.ofNat i) = ((i : ℝ) : EReal) := by
        rw [show value (Scalar.ofNat i : Float) = value (Float.ofInt i) from rfl,
          value_of_isFinite hif, hiv, Int.cast_natCast]
    _ < (((i : ℝ) + 1 : ℝ) : EReal) := EReal.coe_lt_coe_iff.mpr (lt_add_one _)
    _ = round (((i : ℝ) + 1 : ℝ) : EReal) := hround.symm
    _ ≤ round ((n : ℝ) : EReal) := by
        refine round_mono (EReal.coe_le_coe_iff.mpr ?_)
        exact_mod_cast h
    _ = value (Scalar.ofNat n) := by
        rw [show value (Scalar.ofNat n : Float) = value (Float.ofInt n) from rfl, hnv,
          Int.cast_natCast]

/-- So it is the line of the sample it is the index of, however long the axis is. -/
theorem Axis.sampleWithIndex_ofNat {a : Axis Float} {i : Nat} (hi : i < a.nsamples)
    (hexact : i < 2 ^ 53) : a.sampleWithIndex (Scalar.ofNat i) = .ok i := by
  obtain ⟨hf₀, hv₀⟩ := ofInt_zero
  obtain ⟨hf, hv⟩ := ofInt_finite (n := i) (by rw [Nat.abs_cast]; exact_mod_cast hexact)
  obtain ⟨hff, hfv⟩ := floor_finite hf
  have hfloor : (Scalar.floor (Scalar.ofNat i : Float) == Scalar.ofNat i) = true := by
    refine beq_iff.mpr ⟨hff.isNumber, hf.isNumber, ?_⟩
    show value (floor (Float.ofInt i)) = value (Float.ofInt i)
    rw [value_of_isFinite hff, value_of_isFinite hf, hfv, hv, Int.floor_intCast]
  have hzero : Float.ofInt 0 ≤ Scalar.ofNat i := by
    refine (le_iff_toReal hf₀ hf).mpr ?_
    rw [hv₀, hv, Int.cast_natCast]
    exact Nat.cast_nonneg i
  have hcount : Scalar.toCount (Scalar.ofNat i : Float) = i := by
    show (Double.clampedInt 0 (countBound - 1) (Float.ofInt i)).toNat = i
    rw [clampedInt_of_integer hf hv]
    unfold countBound
    omega
  unfold sampleWithIndex
  rw [if_pos, hcount]
  rw [Bool.and_eq_true, Bool.and_eq_true, decide_eq_true_iff, decide_eq_true_iff]
  exact ⟨⟨hfloor, hzero⟩, ofNat_lt hi hexact⟩

/-! ## Planes -/

namespace Extent

/-- The index that has the number `line` on one axis and the numbers `x` and `y` on the other
two. -/
def across (dimension line x y : Nat) : Extent :=
  match dimension with
  | 0 => ⟨line, x, y⟩
  | 1 => ⟨x, line, y⟩
  | _ => ⟨x, y, line⟩

/-- The numbers of samples on the axes other than the given one. -/
def plane (e : Extent) (dimension : Nat) : Nat × Nat :=
  match dimension with
  | 0 => (e.crossline, e.sample)
  | 1 => (e.inline, e.sample)
  | _ => (e.inline, e.crossline)

end Extent

/-- The places in a box that has one sample on one of the axes, which may be the first, the
second or the third. -/
theorem Box.place_across {b : Box} {shape : Extent} {dimension line : Nat}
    (hl : b.lower = Extent.withAxis ⟨0, 0, 0⟩ dimension line)
    (hu : b.upper = shape.withAxis dimension (line + 1)) :
    b.shape.count = (shape.plane dimension).1 * (shape.plane dimension).2 ∧
    ∀ x < (shape.plane dimension).1, ∀ y < (shape.plane dimension).2, ∃ i j k,
      i < b.shape.inline ∧ j < b.shape.crossline ∧ k < b.shape.sample ∧
        (i * b.shape.crossline + j) * b.shape.sample + k = x * (shape.plane dimension).2 + y ∧
        (⟨b.lower.inline + i, b.lower.crossline + j, b.lower.sample + k⟩ : Extent) =
          .across dimension line x y := by
  unfold Box.shape Extent.count
  rw [hl, hu]
  unfold Extent.withAxis Extent.plane Extent.across
  match dimension with
  | 0 =>
    dsimp only
    refine ⟨by simp, fun x hx y hy => ⟨0, x, y, ?_⟩⟩
    simpa using ⟨hx, hy⟩
  | 1 =>
    dsimp only
    refine ⟨by simp, fun x hx y hy => ⟨x, 0, y, ?_⟩⟩
    simpa using ⟨hx, hy⟩
  | n + 2 =>
    dsimp only
    refine ⟨by simp, fun x hx y hy => ⟨x, y, 0, ?_⟩⟩
    simpa using ⟨hx, hy⟩

/-- The plane through an index is a box within the volume. -/
theorem Extent.exists_box {shape : Extent} {dimension line x y : Nat}
    (h₁ : (across dimension line x y).inline < shape.inline)
    (h₂ : (across dimension line x y).crossline < shape.crossline)
    (h₃ : (across dimension line x y).sample < shape.sample) :
    x < (shape.plane dimension).1 ∧ y < (shape.plane dimension).2 ∧
    ∃ b : Box, b.lower = withAxis ⟨0, 0, 0⟩ dimension line ∧
      b.upper = shape.withAxis dimension (line + 1) ∧ b.fits shape = true := by
  match dimension with
  | 0 =>
    exact ⟨h₂, h₃, ⟨⟨line, 0, 0⟩, ⟨line + 1, shape.crossline, shape.sample⟩, Nat.lt_succ_self line,
      Nat.zero_lt_of_lt h₂, Nat.zero_lt_of_lt h₃⟩, rfl, rfl,
      Box.fits_iff.mpr ⟨h₁, Nat.le_refl _, Nat.le_refl _⟩⟩
  | 1 =>
    exact ⟨h₁, h₃, ⟨⟨0, line, 0⟩, ⟨shape.inline, line + 1, shape.sample⟩, Nat.zero_lt_of_lt h₁,
      Nat.lt_succ_self line, Nat.zero_lt_of_lt h₃⟩, rfl, rfl,
      Box.fits_iff.mpr ⟨Nat.le_refl _, h₂, Nat.le_refl _⟩⟩
  | _ + 2 =>
    exact ⟨h₁, h₂, ⟨⟨0, 0, line⟩, ⟨shape.inline, shape.crossline, line + 1⟩,
      Nat.zero_lt_of_lt h₁, Nat.zero_lt_of_lt h₂, Nat.lt_succ_self line⟩, rfl, rfl,
      Box.fits_iff.mpr ⟨Nat.le_refl _, Nat.le_refl _, h₃⟩⟩

namespace Volume

variable {α σ : Type} {v : Volume α σ}

theorem lt_of_sampleAt {e : Extent} {z : σ} (h : v.sampleAt e = .ok z) :
    e.inline < v.shape.inline ∧ e.crossline < v.shape.crossline ∧ e.sample < v.shape.sample := by
  unfold sampleAt at h
  split_ifs at h with hin
  exact hin

variable [Scalar α] [Sampled σ α] {s : Slice α σ} {line : α} {d : Direction} {index x y : Nat}

omit [Scalar α] [Sampled σ α] in
theorem acrossAxes_nsamples (v : Volume α σ) (dimension : Nat) :
    ((v.acrossAxes dimension).1.nsamples, (v.acrossAxes dimension).2.nsamples) =
      v.shape.plane dimension := by
  match dimension with
  | 0 => rfl
  | 1 => rfl
  | _ + 2 => rfl

theorem slice_eq_ok (h : v.slice line d = .ok s) : ∃ index b buffer,
    v.lineIndex line d = .ok index ∧ b.lower = Extent.withAxis ⟨0, 0, 0⟩ d.dimension index ∧
      b.upper = v.shape.withAxis d.dimension (index + 1) ∧ v.read buffer b = .ok s.values ∧
      s.shape = v.shape.plane d.dimension := by
  unfold slice at h
  obtain ⟨index, hi, h⟩ := bind_eq_ok.mp h
  obtain ⟨next, hn, h⟩ := bind_eq_ok.mp h
  obtain ⟨b, hb, h⟩ := bind_eq_ok.mp h
  obtain ⟨bytes, -, h⟩ := bind_eq_ok.mp h
  obtain ⟨values, hv, h⟩ := bind_eq_ok.mp h
  obtain ⟨hl, hu⟩ := Box.between_eq_ok.mp hb
  rw [(addCounts_eq_ok.mp hn).2] at hu
  cases pure_eq_ok.mp h
  exact ⟨index, b, _, hi, hl, hu, hv, v.acrossAxes_nsamples d.dimension⟩

/-- A slice has as many samples as its shape says, each at the place of its index. -/
theorem getElem?_slice (h : v.slice line d = .ok s) :
    s.values.size = s.shape.1 * s.shape.2 ∧ ∃ index, v.lineIndex line d = .ok index ∧
      ∀ x < s.shape.1, ∀ y < s.shape.2, ∃ z, s.values[x * s.shape.2 + y]? = some z ∧
        v.sampleAt (.across d.dimension index x y) = .ok z := by
  obtain ⟨index, b, buffer, hline, hl, hu, hread, hshape⟩ := slice_eq_ok h
  obtain ⟨hcount, hplace⟩ := Box.place_across hl hu
  rw [hshape]
  refine ⟨(read_eq_ok hread).1.trans hcount, index, hline, fun x hx y hy => ?_⟩
  obtain ⟨i, j, k, hi, hj, hk, hflat, hindex⟩ := hplace x hx y hy
  rw [← hflat, ← hindex]
  exact getElem?_read hread hi hj hk

/-- A plane that goes through a sample of the volume can be read. -/
theorem exists_slice {z : σ} (hmem : Shape.fitsMemory 4 v.values.size = true)
    (hline : v.lineIndex line d = .ok index) (hnext : index + 1 < countBound)
    (hz : v.sampleAt (.across d.dimension index x y) = .ok z) : ∃ s, v.slice line d = .ok s ∧
      s.shape = v.shape.plane d.dimension ∧ s.values[x * s.shape.2 + y]? = some z := by
  obtain ⟨h₁, h₂, h₃⟩ := lt_of_sampleAt hz
  obtain ⟨hx, hy, b, hl, hu, hfits⟩ := Extent.exists_box h₁ h₂ h₃
  obtain ⟨hbytes, ys, hys⟩ := exists_read_of_fits hmem hfits Sampled.zero
  obtain ⟨s, hs⟩ : ∃ s, v.slice line d = .ok s :=
    ⟨_, bind_eq_ok.mpr ⟨index, hline, bind_eq_ok.mpr ⟨_, addCounts_eq_ok.mpr ⟨hnext, rfl⟩,
      bind_eq_ok.mpr ⟨b, Box.between_eq_ok.mpr ⟨hl, hu⟩, bind_eq_ok.mpr ⟨_, hbytes,
        bind_eq_ok.mpr ⟨ys, hys, rfl⟩⟩⟩⟩⟩⟩
  obtain ⟨-, -, -, -, -, -, -, hshape⟩ := slice_eq_ok hs
  obtain ⟨-, index', hline', hplace⟩ := getElem?_slice hs
  cases hline.symm.trans hline'
  obtain ⟨z', hz', hsample⟩ := hplace x (hshape ▸ hx) y (hshape ▸ hy)
  cases hz.symm.trans hsample
  exact ⟨s, hs, hshape, hz'⟩

end Volume

/-! ## Slices by index -/

namespace Volume

variable {v : Volume Float Single} {s : Slice Float Single} {line : Float} {d : Direction}
variable {i j k : Nat}

theorem length_bytes_slice (h : v.slice line d = .ok s) :
    s.bytes.length = 4 * (s.shape.1 * s.shape.2) := by
  rw [Slice.bytes, Sample.length_encode, Array.length_toList, (getElem?_slice h).1]

theorem word_slice {p : Nat} {z : Single} (h : s.values[p]? = some z) : s.word p = z.bytes :=
  Sample.word_encode (by rwa [Array.getElem?_toList])

/-- The three slices through a sample of a volume.  Each has the shape of the volume without
its own axis, and the word at the place of the sample among the other two is the sample.
A line is given as a double, which every index below `2 ^ 53` is exactly.  From there on the
number of samples may round to an index on the axis, which is then taken to lie beyond it. -/
theorem slice_of_index (hmem : Shape.fitsMemory 4 v.values.size = true)
    (hi : i < v.shape.inline) (hj : j < v.shape.crossline) (hk : k < v.shape.sample)
    (hexact : i < 2 ^ 53 ∧ j < 2 ^ 53 ∧ k < 2 ^ 53) :
    (∃ z a b c, v.sampleAt ⟨i, j, k⟩ = .ok z ∧
      v.slice (Scalar.ofNat i) .i = .ok a ∧ a.shape = (v.shape.crossline, v.shape.sample) ∧
        a.word (j * v.shape.sample + k) = z.bytes ∧
      v.slice (Scalar.ofNat j) .j = .ok b ∧ b.shape = (v.shape.inline, v.shape.sample) ∧
        b.word (i * v.shape.sample + k) = z.bytes ∧
      v.slice (Scalar.ofNat k) .k = .ok c ∧ c.shape = (v.shape.inline, v.shape.crossline) ∧
        c.word (i * v.shape.crossline + j) = z.bytes) ∧
    ∀ line d s, v.slice line d = .ok s → s.bytes.length = 4 * (s.shape.1 * s.shape.2) := by
  refine ⟨?_, fun line d s h => length_bytes_slice h⟩
  obtain ⟨hi', hj', hk'⟩ := hexact
  obtain ⟨z, hz⟩ := exists_sampleAt (v := v) (e := ⟨i, j, k⟩) hi hj hk
  have hbound : 2 ^ 53 < countBound := by decide
  have hline : v.lineIndex (Scalar.ofNat i) .i = .ok i := Axis.sampleWithIndex_ofNat hi hi'
  have hline' : v.lineIndex (Scalar.ofNat j) .j = .ok j := Axis.sampleWithIndex_ofNat hj hj'
  have hline'' : v.lineIndex (Scalar.ofNat k) .k = .ok k := Axis.sampleWithIndex_ofNat hk hk'
  obtain ⟨a, ha, hashape, hap⟩ := exists_slice (x := j) (y := k) hmem hline (by omega) hz
  obtain ⟨b, hb, hbshape, hbp⟩ := exists_slice (x := i) (y := k) hmem hline' (by omega) hz
  obtain ⟨c, hc, hcshape, hcp⟩ := exists_slice (x := i) (y := j) hmem hline'' (by omega) hz
  rw [hashape] at hap
  rw [hbshape] at hbp
  rw [hcshape] at hcp
  exact ⟨z, a, b, c, hz, ha, hashape, word_slice hap, hb, hbshape, word_slice hbp, hc, hcshape,
    word_slice hcp⟩

end Volume

/-- Six traces of four samples. -/
def Survey.uneven : Survey Float :=
  { Survey.small with
    iline := .ofInts 1 2 2
    xline := .ofInts 1 3 3
    sample := .ofInts 0 12 4 }

theorem Volume.slice_of_uneven : ∃ a,
    (numbered .uneven).slice (Scalar.ofNat 1) .i = .ok a ∧ a.shape = (3, 4) ∧
      a.word 11 = (Single.ofInt 23).bytes := by
  have hmem : Shape.fitsMemory 4 (numbered .uneven).values.size = true := by
    rw [(numbered .uneven).values_size]
    decide
  obtain ⟨⟨z, a, -, -, hz, ha, hshape, hword, -⟩, -⟩ := slice_of_index (v := numbered .uneven)
    (i := 1) (j := 2) (k := 3) hmem (by decide) (by decide) (by decide) (by decide)
  have hsample : (numbered .uneven).sampleAt ⟨1, 2, 3⟩ = .ok (Single.ofInt 23) := by
    decide +kernel
  cases hsample.symm.trans hz
  exact ⟨a, ha, hshape, hword⟩

end Seismic
