import Mathlib.Order.Basic
import Seismic.Decimal.Shortest

/-!
# Digits in text

A number is the number of its digits, zeros in front or not, and only zero is written with a
zero in front.  So a decimal is written as digits with or without a point, and its places after
the point are as many as its exponent says.
-/

namespace Seismic

namespace Digits

theorem toNat_ofNat (n : Nat) : toNat (ofNat n) = n := Nat.ofDigitChars_ten_toDigits

theorem isDigit_ofNat {n : Nat} {c : Char} (h : c ∈ ofNat n) : c.isDigit = true :=
  Nat.isDigit_of_mem_toDigits (by decide) (by decide) h

theorem ofNat_ne_nil (n : Nat) : ofNat n ≠ [] := Nat.toDigits_ne_nil

theorem eq_zero_of_digitChar {n : Nat} (hn : n < 10) (h : n.digitChar = '0') : n = 0 := by
  revert n
  decide

theorem eq_zero_of_cons {n : Nat} {rest : List Char} (h : ofNat n = '0' :: rest) : n = 0 := by
  induction n using Nat.strongRecOn generalizing rest with
  | ind n ih =>
    by_cases hn : n < 10
    · rw [ofNat, Nat.toDigits_of_lt_base hn, List.cons.injEq] at h
      exact eq_zero_of_digitChar hn h.1
    · -- The digits in front are those of `n / 10`, which is not zero.
      rw [ofNat, Nat.toDigits_of_base_le (by decide) (Nat.not_lt.mp hn)] at h
      cases hfront : ofNat (n / 10) with
      | nil => exact absurd hfront (ofNat_ne_nil _)
      | cons c front =>
        change ofNat (n / 10) ++ _ = _ at h
        rw [hfront, List.cons_append, List.cons.injEq] at h
        rw [h.1] at hfront
        have hzero : n / 10 = 0 := ih _ (by omega) hfront
        omega

/-! ## Digits before and after a point -/

/-- Digits as they stand before a point: zero alone, or no zero in front. -/
structure IsWhole (digits : List Char) : Prop where
  ne_nil : digits ≠ []
  isDigit : ∀ c ∈ digits, c.isDigit = true
  alone : ∀ rest, digits = '0' :: rest → rest = []

theorem IsWhole.exists_cons {digits : List Char} (h : IsWhole digits) :
    ∃ c rest, digits = c :: rest ∧ c.isDigit = true := by
  obtain ⟨c, rest, rfl⟩ := List.exists_cons_of_ne_nil h.ne_nil
  exact ⟨c, rest, rfl, h.isDigit c List.mem_cons_self⟩

theorem isWhole_ofNat (n : Nat) : IsWhole (ofNat n) where
  ne_nil := ofNat_ne_nil n
  isDigit _ := isDigit_ofNat
  alone rest h := by
    rw [eq_zero_of_cons h] at h
    exact (List.cons.inj h).2.symm

theorem IsWhole.take {digits : List Char} (h : IsWhole digits) {n : Nat} (hn : 0 < n) :
    IsWhole (digits.take n) := by
  obtain ⟨n, rfl⟩ := Nat.exists_eq_succ_of_ne_zero (Nat.ne_of_gt hn)
  refine ⟨?_, fun c hc => h.isDigit c (List.mem_of_mem_take hc), fun rest hrest => ?_⟩
  · rw [Ne, List.take_eq_nil_iff]
    exact not_or.mpr ⟨Nat.succ_ne_zero n, h.ne_nil⟩
  · cases digits with
    | nil => exact absurd rfl h.ne_nil
    | cons c digits =>
      rw [List.take_succ_cons, List.cons.injEq] at hrest
      rw [← hrest.2, h.alone digits (by rw [hrest.1]), List.take_nil]

theorem padded_eq (width n : Nat) :
    padded width n = List.replicate (width - (ofNat n).length) '0' ++ ofNat n := rfl

theorem length_padded (width n : Nat) :
    (padded width n).length = width - (ofNat n).length + (ofNat n).length := by
  rw [padded_eq, List.length_append, List.length_replicate]

theorem toNat_padded (width n : Nat) : toNat (padded width n) = n := by
  show Nat.ofDigitChars 10 (List.replicate _ '0' ++ ofNat n) 0 = n
  rw [Nat.ofDigitChars_append, Nat.ofDigitChars_replicate_zero, Nat.mul_zero]
  exact toNat_ofNat n

theorem isDigit_padded {width n : Nat} {c : Char} (h : c ∈ padded width n) :
    c.isDigit = true := by
  rcases List.mem_append.mp h with h | h
  · rw [List.eq_of_mem_replicate h]
    rfl
  · exact isDigit_ofNat h

/-- What stands before the last `places` of at least `places + 1` digits. -/
theorem isWhole_take_padded (places n : Nat) :
    IsWhole ((padded (places + 1) n).take ((padded (places + 1) n).length - places)) := by
  by_cases h : (ofNat n).length ≤ places + 1
  · have hlen : (padded (places + 1) n).length - places = 1 := by
      unfold padded
      rw [List.length_append, List.length_replicate]
      omega
    rw [hlen]
    cases hp : padded (places + 1) n with
    | nil =>
      rw [hp] at hlen
      exact absurd hlen (by simp)
    | cons c rest =>
      refine ⟨by simp, fun d hd => ?_, fun rest' hrest => ?_⟩
      · exact isDigit_padded (hp ▸ List.mem_of_mem_take hd)
      · rw [List.take_succ_cons, List.take_zero, List.cons.injEq] at hrest
        exact hrest.2.symm
  · have hp : padded (places + 1) n = ofNat n := by
      rw [padded_eq, Nat.sub_eq_zero_of_le (by omega), List.replicate_zero, List.nil_append]
    rw [hp]
    exact (isWhole_ofNat n).take (by omega)

end Digits

namespace Decimal

open Digits

theorem positional_whole (n : Nat) : (positional ⟨n, 0⟩).toList = ofNat n := by
  unfold positional
  exact (String.toList_ofList).trans (List.append_nil _)

theorem positional_places {d : Decimal} (h : d.exponent < 0) :
    ∃ whole places, d.positional.toList = whole ++ '.' :: places ∧ IsWhole whole ∧
      (∀ c ∈ places, c.isDigit = true) ∧ (places.length : Int) = -d.exponent ∧
      toNat (whole ++ places) = d.digits := by
  have htext : d.positional.toList =
      (padded ((-d.exponent).toNat + 1) d.digits).take
          ((padded ((-d.exponent).toNat + 1) d.digits).length - (-d.exponent).toNat) ++
        '.' :: (padded ((-d.exponent).toNat + 1) d.digits).drop
          ((padded ((-d.exponent).toNat + 1) d.digits).length - (-d.exponent).toNat) :=
    (congrArg String.toList (if_neg (Int.not_le.mpr h))).trans String.toList_ofList
  refine ⟨_, _, htext, isWhole_take_padded _ d.digits, fun c hc => ?_, ?_, ?_⟩
  · exact isDigit_padded (List.mem_of_mem_drop hc)
  · rw [List.length_drop, length_padded]
    omega
  · rw [List.take_append_drop, toNat_padded]

/-- Text without sign starts with a digit. -/
theorem exists_positional {d : Decimal} (h : d.exponent ≤ 0) :
    ∃ c text, d.positional.toList = c :: text ∧ c.isDigit = true := by
  obtain ⟨n, e⟩ := d
  rcases Int.le_iff_lt_or_eq.mp h with hlt | rfl
  · obtain ⟨whole, places, htext, hwhole, -⟩ := positional_places (d := ⟨n, e⟩) hlt
    obtain ⟨c, rest, rfl, hc⟩ := hwhole.exists_cons
    exact ⟨c, _, htext, hc⟩
  · rw [positional_whole]
    exact (isWhole_ofNat n).exists_cons

end Decimal
end Seismic
