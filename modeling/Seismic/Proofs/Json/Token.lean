import Seismic.Json.Token
import Seismic.Proofs.Decimal.Digits
import Seismic.Proofs.Decimal.Shortest

/-!
# Tokens that read back

The text of a token reads as the token with what follows it left over.  A number reads on as
long as there are digits, a point or an exponent, so what follows it has to start otherwise.
-/

namespace Seismic

namespace Json
namespace Token

/-! ## Numbers -/

/-- Where a number ends: no digit, point or exponent comes next. -/
def Ends (rest : List Char) : Prop :=
  ∀ c ∈ rest.head?, c.isDigit = false ∧ c ≠ '.' ∧ c ≠ 'e' ∧ c ≠ 'E'

theorem digits?_append {digits rest : List Char} (hne : digits ≠ [])
    (hdigits : ∀ c ∈ digits, c.isDigit = true) (hrest : ∀ c ∈ rest.head?, c.isDigit = false) :
    digits? (digits ++ rest) = some (digits, rest) := by
  have htake : rest.takeWhile Char.isDigit = [] ∧ rest.dropWhile Char.isDigit = rest := by
    cases rest with
    | nil => exact ⟨rfl, rfl⟩
    | cons c rest =>
      have hc : ¬ c.isDigit = true := Bool.not_eq_true _ ▸ hrest c rfl
      exact ⟨List.takeWhile_cons_of_neg hc, List.dropWhile_cons_of_neg hc⟩
  unfold digits?
  rw [List.takeWhile_append_of_pos hdigits, List.dropWhile_append_of_pos hdigits, htake.1,
    htake.2, List.append_nil]
  cases digits with
  | nil => exact absurd rfl hne
  | cons c digits => rfl

theorem wholeDigits?_append {digits rest : List Char} (h : Digits.IsWhole digits)
    (hrest : ∀ c ∈ rest.head?, c.isDigit = false) :
    wholeDigits? (digits ++ rest) = some (digits, rest) := by
  unfold wholeDigits?
  rw [digits?_append h.ne_nil h.isDigit hrest]
  split
  next heq =>
    rw [Option.some.injEq, Prod.mk.injEq] at heq
    cases h.alone _ heq.1
  next => rfl

theorem magnitude?_whole (negative : Bool) (n : Nat) {rest : List Char} (hrest : Ends rest) :
    magnitude? negative (Digits.ofNat n ++ rest) = some (⟨negative, n, 0, true⟩, rest) := by
  unfold magnitude?
  rw [wholeDigits?_append (Digits.isWhole_ofNat n) fun c hc => (hrest c hc).1]
  cases rest with
  | nil => simp [Digits.toNat_ofNat]
  | cons c rest =>
    obtain ⟨-, hpoint, hsmall, hcapital⟩ := hrest c rfl
    simp [Digits.toNat_ofNat, hpoint, hsmall, hcapital]

theorem magnitude?_places (negative : Bool) {whole places rest : List Char}
    (hwhole : Digits.IsWhole whole) (hne : places ≠ [])
    (hplaces : ∀ c ∈ places, c.isDigit = true) (hrest : Ends rest) :
    magnitude? negative (whole ++ '.' :: places ++ rest) =
      some (⟨negative, Digits.toNat (whole ++ places), -(places.length : Int), false⟩, rest) := by
  unfold magnitude?
  rw [List.append_assoc, wholeDigits?_append hwhole (by
    rintro c ⟨rfl⟩
    rfl)]
  simp only [List.cons_append, bind, Option.bind]
  rw [digits?_append hne hplaces fun c hc => (hrest c hc).1]
  cases rest with
  | nil => simp [hne]
  | cons c rest =>
    obtain ⟨-, hpoint, hsmall, hcapital⟩ := hrest c rfl
    simp [hne, hsmall, hcapital]

/-! ## Texts -/

/-- A character of a text as it is read back: by its code if it is a control character without an
escape of its own. -/
def pieceOf (c : Char) : Piece :=
  if escape? c = none ∧ c.toNat < 0x20 then .unit c.toNat else .char c

theorem hexUnit?_controlEscape {n : Nat} (h : n < 0x20) :
    hexUnit? '0' '0' (Nat.digitChar (n / 16)) (Nat.digitChar (n % 16)) = some n := by
  revert n
  decide

theorem escaped?_of_escape? {c letter : Char} (h : escape? c = some letter) :
    escaped? letter = some c ∧ letter ≠ 'u' := by
  unfold escape? at h
  split at h <;> cases h <;> decide

theorem pieces?_letter {c letter : Char} (hletter : escaped? letter = some c)
    (hunit : letter ≠ 'u') (rest : List Char) : pieces? ('\\' :: letter :: rest) =
      (pieces? rest).map fun (pieces, rest) => (.char c :: pieces, rest) := by
  rw [pieces?]
  · rw [hletter]
    cases pieces? rest <;> rfl
  · rintro _ _ _ _ _ rfl
    exact absurd rfl hunit

theorem pieces?_writeChar (c : Char) (rest : List Char) :
    pieces? (writeChar c ++ rest) =
      (pieces? rest).map fun (pieces, rest) => (pieceOf c :: pieces, rest) := by
  unfold writeChar pieceOf
  cases hescape : escape? c with
  | some letter =>
    obtain ⟨hletter, hunit⟩ := escaped?_of_escape? hescape
    dsimp only
    rw [if_neg fun h => Option.some_ne_none letter h.1]
    exact pieces?_letter hletter hunit rest
  | none =>
    dsimp only
    by_cases hcontrol : c.toNat < 0x20
    · rw [if_pos hcontrol, if_pos ⟨rfl, hcontrol⟩]
      simp only [controlEscape, List.cons_append, List.nil_append, pieces?,
        hexUnit?_controlEscape hcontrol]
      cases pieces? rest <;> rfl
    · -- The character is neither a quote nor a stroke, so only the last pattern applies.
      have hquote : c ≠ '"' := by
        rintro rfl
        cases hescape
      have hstroke : c ≠ '\\' := by
        rintro rfl
        cases hescape
      rw [if_neg hcontrol, if_neg fun h => hcontrol h.2, List.singleton_append, pieces?.eq_def]
      split <;> simp_all

theorem pieces?_flatMap (cs rest : List Char) :
    pieces? (cs.flatMap writeChar ++ '"' :: rest) = some (cs.map pieceOf, rest) := by
  induction cs with
  | nil => rfl
  | cons c cs ih =>
    rw [List.flatMap_cons, List.append_assoc, pieces?_writeChar, ih]
    rfl

theorem assemble?_unit {n : Nat} (h : n < 0xD800) (rest : List Piece) :
    assemble? (.unit n :: rest) = (Char.ofNat n :: ·) <$> assemble? rest := by
  have hone : ¬ (0xD800 ≤ n ∧ n < 0xE000) := by omega
  rcases rest with _ | ⟨c | m, rest⟩
  · exact if_neg hone
  · exact if_neg hone
  · rw [assemble?, if_neg (by omega), if_neg (by omega)]

theorem assemble?_pieceOf (cs : List Char) : assemble? (cs.map pieceOf) = some cs := by
  induction cs with
  | nil => rfl
  | cons c cs ih =>
    rw [List.map_cons]
    by_cases h : escape? c = none ∧ c.toNat < 0x20
    · rw [pieceOf, if_pos h, assemble?_unit (by omega), ih, Char.ofNat_toNat]
      rfl
    · rw [pieceOf, if_neg h, assemble?, ih]
      rfl

/-! ## Tokens -/

def IsNumber : Token → Prop
  | number _ => True
  | _ => False

/-- Tokens with a text of their own: the numbers and texts that are well-formed. -/
def Writable : Token → Prop
  | number n => n.WellFormed
  | text s => s.isSome
  | _ => True

theorem magnitude?_positional {n : Numeral} (hn : n.WellFormed) {rest : List Char}
    (hrest : Ends rest) :
    magnitude? n.negative ((Decimal.positional ⟨n.digits, n.exponent⟩).toList ++ rest) =
      some (n, rest) := by
  obtain ⟨negative, digits, exponent, whole⟩ := n
  rcases hn with ⟨rfl, rfl⟩ | ⟨rfl, hlt⟩
  · rw [Decimal.positional_whole]
    exact magnitude?_whole negative digits hrest
  · obtain ⟨front, places, htext, hfront, hplaces, hlen, hvalue⟩ := Decimal.positional_places
      (d := ⟨digits, exponent⟩) hlt
    have hne : places ≠ [] := by
      rintro rfl
      rw [List.length_nil] at hlen
      dsimp only at hlen hlt
      omega
    rw [htext, magnitude?_places negative hfront hne hplaces hrest, hvalue, hlen, Int.neg_neg]

theorem numeral?_digit {c : Char} (hc : c.isDigit = true) (input : List Char) :
    numeral? (c :: input) = magnitude? false (c :: input) := by
  unfold numeral?
  split
  next heq =>
    cases heq
    exact absurd hc (by decide)
  next => rfl

theorem next?_of_head {c : Char} (hc : c = '-' ∨ c.isDigit = true) (input : List Char) :
    next? (c :: input) = (numeral? (c :: input)).map fun (n, rest) => (number n, rest) := by
  unfold next?
  split
  case h_11 => rfl
  all_goals
    rename_i heq
    cases heq
    exact absurd hc (by decide)

/-- The first character of a number is its sign or a digit. -/
theorem exists_writeNumeral {n : Numeral} (hn : n.WellFormed) :
    ∃ c text, writeNumeral n = c :: text ∧ (c = '-' ∨ c.isDigit = true) := by
  obtain ⟨c, text, htext, hc⟩ :=
    Decimal.exists_positional (d := ⟨n.digits, n.exponent⟩) hn.exponent_le
  unfold writeNumeral
  rw [htext]
  cases n.negative
  · exact ⟨c, text, rfl, Or.inr hc⟩
  · exact ⟨'-', c :: text, rfl, Or.inl rfl⟩

theorem numeral?_write {n : Numeral} (hn : n.WellFormed) {rest : List Char} (hrest : Ends rest) :
    numeral? (writeNumeral n ++ rest) = some (n, rest) := by
  have h := magnitude?_positional hn hrest
  unfold writeNumeral
  cases hsign : n.negative <;> rw [hsign] at h
  · obtain ⟨c, text, htext, hc⟩ :=
      Decimal.exists_positional (d := ⟨n.digits, n.exponent⟩) hn.exponent_le
    rw [htext] at h ⊢
    exact (numeral?_digit hc _).trans h
  · exact h

theorem next?_number {n : Numeral} (hn : n.WellFormed) {rest : List Char} (hrest : Ends rest) :
    next? (writeNumeral n ++ rest) = some (number n, rest) := by
  have h := numeral?_write hn hrest
  obtain ⟨c, text, htext, hc⟩ := exists_writeNumeral hn
  rw [htext, List.cons_append] at h ⊢
  rw [next?_of_head hc, h]
  rfl

theorem next?_write {t : Token} (ht : t.Writable) {rest : List Char}
    (hrest : t.IsNumber → Ends rest) : next? (t.write ++ rest) = some (t, rest) := by
  cases t with
  | number n => exact next?_number ht (hrest trivial)
  | text s =>
    obtain ⟨s, rfl⟩ := Option.isSome_iff_exists.mp ht
    show (pieces? (s.toList.flatMap writeChar ++ ['"'] ++ rest)).map _ = _
    rw [List.append_assoc, List.singleton_append, pieces?_flatMap, Option.map_some]
    dsimp only
    rw [assemble?_pieceOf, Option.map_some, String.ofList_toList]
  | _ => rfl

end Token
end Json
end Seismic
