import Mathlib.Data.Nat.Digits.Lemmas
import Seismic.Proofs.Result
import Seismic.Sample.Bytes

/-!
# Samples and bytes

The bytes of a sample are the digits of its word to the base 256, least significant first.  As
a number has only one sequence of four digits, a sample and its bytes determine each other, and
so do sequences of samples and of bytes, as long as the last word is whole.
-/

namespace Seismic

/-! ## One word -/

namespace Single

/-- The number with the given bytes as digits, least significant first. -/
def wordOf (bytes : List UInt8) : Nat := Nat.ofDigits 256 (bytes.map UInt8.toNat)

theorem wordOf_four (a b c d : UInt8) :
    wordOf [a, b, c, d] = a.toNat + 256 * (b.toNat + 256 * (c.toNat + 256 * d.toNat)) := by
  simp [wordOf, Nat.ofDigits_cons]

theorem wordOf_bytes (s : Single) : wordOf s.bytes = s.bits.toNat := by
  have hlt := s.bits.toNat_lt
  rw [bytes, wordOf_four]
  simp only [UInt32.toNat_toUInt8, UInt32.toNat_shiftRight, Nat.shiftRight_eq_div_pow,
    UInt32.reduceToNat, Nat.reduceMod, Nat.reducePow]
  omega

/-- Digits put in front of lower ones do not overlap with them. -/
theorem or_shiftLeft {x k : Nat} (h : x < 2 ^ k) (y : Nat) : x ||| y <<< k = x + 2 ^ k * y := by
  rw [Nat.or_comm, ← Nat.shiftLeft_add_eq_or_of_lt h, Nat.shiftLeft_eq, Nat.mul_comm, Nat.add_comm]

theorem bits_ofBytes (a b c d : UInt8) : (ofBytes a b c d).bits.toNat = wordOf [a, b, c, d] := by
  have ha := a.toNat_lt
  have hb := b.toNat_lt
  have hc := c.toNat_lt
  have hd := d.toNat_lt
  have hshift : ∀ (x : UInt8) (k : Nat), k ≤ 24 → x.toNat <<< k % 2 ^ 32 = x.toNat <<< k := by
    intro x k hk
    refine Nat.mod_eq_of_lt ?_
    calc x.toNat <<< k = x.toNat * 2 ^ k := Nat.shiftLeft_eq ..
      _ < 2 ^ 8 * 2 ^ 24 := Nat.mul_lt_mul_of_lt_of_le x.toNat_lt
        (Nat.pow_le_pow_right (by decide) hk) (by decide)
  have hshifts : (ofBytes a b c d).bits.toNat =
      ((a.toNat ||| b.toNat <<< 8) ||| c.toNat <<< 16) ||| d.toNat <<< 24 := by
    simp only [ofBytes, UInt32.toNat_or, UInt32.toNat_shiftLeft, UInt8.toNat_toUInt32,
      UInt32.reduceToNat, Nat.reduceMod]
    rw [hshift b 8 (by decide), hshift c 16 (by decide), hshift d 24 (by decide)]
  have hlow : a.toNat ||| b.toNat <<< 8 = a.toNat + 2 ^ 8 * b.toNat := or_shiftLeft ha _
  rw [hshifts, hlow, or_shiftLeft (by omega : _ < 2 ^ 16), or_shiftLeft (by omega : _ < 2 ^ 24),
    wordOf_four]
  omega

/-- Words of four bytes each are told apart by their numbers. -/
theorem wordOf_injective {xs ys : List UInt8} (hlength : xs.length = ys.length)
    (h : wordOf xs = wordOf ys) : xs = ys := by
  have hdigits : ∀ zs : List UInt8, ∀ n ∈ zs.map UInt8.toNat, n < 256 := by
    intro zs n hn
    obtain ⟨z, -, rfl⟩ := List.mem_map.mp hn
    exact z.toNat_lt
  have hmap := Nat.ofDigits_inj_of_len_eq (by decide) (by simpa using hlength) (hdigits xs)
    (hdigits ys) h
  exact List.map_injective_iff.mpr (fun _ _ => UInt8.toNat_inj.mp) hmap

theorem eq_of_bits {s t : Single} (h : s.bits.toNat = t.bits.toNat) : s = t := by
  cases s
  cases t
  exact congrArg Single.mk (UInt32.toNat_inj.mp h)

theorem bytes_ofBytes (a b c d : UInt8) : (ofBytes a b c d).bytes = [a, b, c, d] :=
  wordOf_injective rfl ((wordOf_bytes _).trans (bits_ofBytes a b c d))

theorem ofBytes_of_bytes {s : Single} {a b c d : UInt8} (h : s.bytes = [a, b, c, d]) :
    ofBytes a b c d = s :=
  eq_of_bits (by rw [bits_ofBytes, ← h, wordOf_bytes])

end Single

/-! ## Sequences of words -/

namespace Sample

variable {α : Type} {bytes : List UInt8} {samples : List Single}

theorem encode_cons (s : Single) (samples : List Single) :
    encode (s :: samples) = s.bytes ++ encode samples := rfl

theorem encode_append (xs ys : List Single) : encode (xs ++ ys) = encode xs ++ encode ys :=
  List.flatMap_append

/-- A word and what follows it are decoded one after the other. -/
theorem decode_bytes_append (s : Single) (rest : List UInt8) :
    (decode (s.bytes ++ rest) : Result α _) = (s :: ·) <$> decode rest := by
  show (Single.ofBytes _ _ _ _ :: ·) <$> decode rest = _
  rw [Single.ofBytes_of_bytes (s := s) rfl]

theorem decode_encode (samples : List Single) :
    (decode (encode samples) : Result α _) = .ok samples := by
  induction samples with
  | nil => rfl
  | cons s samples ih =>
    rw [encode_cons, decode_bytes_append, ih]
    rfl

/-- Bytes are read four at a time.  If one to three are left over at the end, nothing that was
read before counts. -/
theorem decode_cases (bytes : List UInt8) :
    (bytes.length % 4 = 0 ∧ ∃ samples, encode samples = bytes) ∨
      (bytes.length % 4 ≠ 0 ∧ (decode bytes : Result α _) = .error .brokenSample) := by
  induction bytes using decode.induct with
  | case1 => exact Or.inl ⟨rfl, [], rfl⟩
  | case2 a b c d rest ih =>
    have hlength : (a :: b :: c :: d :: rest).length % 4 = rest.length % 4 :=
      Nat.add_mod_right rest.length 4
    rw [hlength]
    rcases ih with ⟨hwhole, samples, rfl⟩ | ⟨hbroken, hrest⟩
    · refine Or.inl ⟨hwhole, Single.ofBytes a b c d :: samples, ?_⟩
      rw [encode_cons, Single.bytes_ofBytes]
      rfl
    · refine Or.inr ⟨hbroken, ?_⟩
      rw [decode, hrest]
      rfl
  | case3 bytes hnil hfour =>
    refine Or.inr ⟨?_, ?_⟩
    · match bytes with
      | [] => exact absurd rfl hnil
      | [_] | [_, _] | [_, _, _] => simp
      | a :: b :: c :: d :: rest => exact absurd rfl (hfour a b c d rest)
    · rw [decode]
      · exact hnil
      · exact hfour

theorem decode_eq_ok_iff :
    (decode bytes : Result α _) = .ok samples ↔ encode samples = bytes := by
  constructor
  · intro h
    rcases decode_cases (α := α) bytes with ⟨-, xs, rfl⟩ | ⟨-, herror⟩
    · rw [decode_encode] at h
      cases h
      rfl
    · rw [herror] at h
      cases h
  · rintro rfl
    exact decode_encode samples

theorem exists_decode_iff :
    (∃ samples, (decode bytes : Result α _) = .ok samples) ↔ bytes.length % 4 = 0 := by
  rcases decode_cases (α := α) bytes with ⟨hwhole, xs, rfl⟩ | ⟨hbroken, herror⟩
  · exact ⟨fun _ => hwhole, fun _ => ⟨xs, decode_encode xs⟩⟩
  · rw [herror]
    exact ⟨fun h => (nomatch h), fun h => absurd h hbroken⟩

theorem decode_eq_error_iff {e : Failure α} :
    (decode bytes : Result α _) = .error e ↔ bytes.length % 4 ≠ 0 ∧ e = .brokenSample := by
  rcases decode_cases (α := α) bytes with ⟨hwhole, xs, rfl⟩ | ⟨hbroken, herror⟩
  · rw [decode_encode]
    exact ⟨fun h => (nomatch h), fun h => absurd hwhole h.1⟩
  · rw [herror, Except.error.injEq, eq_comm]
    exact (and_iff_right hbroken).symm

/-- Encoding and decoding undo each other.  Samples come back with every bit of their words, and
bytes come back if there are whole words of them; other bytes are refused, and no bytes are
refused for another reason.  Sequences of samples are encoded one after the other, and a sample
has the four digits of its word to the base 256 as bytes, least significant first. -/
theorem bytes_inverse :
    (∀ samples, (decode (encode samples) : Result α _) = .ok samples) ∧
    (∀ bytes, (∃ samples, (decode bytes : Result α _) = .ok samples ∧ encode samples = bytes) ↔
      bytes.length % 4 = 0) ∧
    (∀ bytes e, (decode bytes : Result α _) = .error e ↔
      bytes.length % 4 ≠ 0 ∧ e = .brokenSample) ∧
    (∀ xs ys, encode (xs ++ ys) = encode xs ++ encode ys) ∧
    ∀ s, (encode [s]).length = 4 ∧ Single.wordOf (encode [s]) = s.bits.toNat := by
  refine ⟨decode_encode, fun bytes => ?_, fun bytes e => decode_eq_error_iff, encode_append,
    fun s => ⟨rfl, Single.wordOf_bytes s⟩⟩
  rw [← exists_decode_iff (α := α)]
  exact exists_congr fun samples => and_iff_left_of_imp decode_eq_ok_iff.mp

/-- Two undefined samples that differ in their last bit. -/
example : encode [⟨0x7F800001⟩, ⟨0x7F800003⟩] =
    [0x01, 0x00, 0x80, 0x7F, 0x03, 0x00, 0x80, 0x7F] := by decide

end Sample
end Seismic
