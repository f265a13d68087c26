import Seismic.Proofs.Result
import Seismic.Window

/-!
# Counting the samples of a window

What a successful count says about the numbers at the ends of a window, whatever numbers
positions are computed in.
-/

namespace Seismic
namespace Spacing

/-- The least of the signed integers that sample numbers are converted to. -/
def leastNumber : Int := -signedBound

def greatestNumber : Int := signedBound - 1

theorem leastNumber_le : leastNumber ≤ greatestNumber := by decide

variable {α : Type} [Scalar α] {s : Spacing α} {x top bottom p phase : α}

theorem count_eq_ok {n : Nat} : s.count top bottom phase = .ok n ↔
    ∃ first last, s.firstNumber top phase = .ok first ∧ s.lastNumber bottom phase = .ok last ∧
      leastNumber ≤ last - first ∧ last - first + 1 ≤ greatestNumber ∧
      n = (last - first + 1).toNat := by
  unfold Spacing.count leastNumber greatestNumber
  simp only [bind_eq_ok, pure_eq_ok, sampleNumber_eq_ok]
  constructor
  · rintro ⟨f, hf, l, hl, d, ⟨h₁, h₂, rfl⟩, e, ⟨h₃, h₄, rfl⟩, rfl⟩
    exact ⟨f, l, hf, hl, h₁, by omega, rfl⟩
  · rintro ⟨f, l, hf, hl, h₁, h₂, rfl⟩
    exact ⟨f, hf, l, hl, _, ⟨h₁, by omega, rfl⟩, _, ⟨by omega, by omega, rfl⟩, rfl⟩

/-- A count fails only with a number that does not fit 64 bits. -/
theorem count_cases (s : Spacing α) (top bottom phase : α) :
    (∃ n, s.count top bottom phase = .ok n) ∨
      s.count top bottom phase = .error (.fault .overflow) := by
  have hnumber : ∀ {β : Type} (n : Int) (f : Int → Result α β),
      ((∃ b, f n = .ok b) ∨ f n = .error (.fault .overflow)) →
        (∃ b, (sampleNumber n >>= f) = .ok b) ∨
          (sampleNumber n >>= f) = .error (.fault .overflow) := fun n f hf => by
    unfold sampleNumber
    split_ifs
    · exact hf
    · exact Or.inr rfl
  exact hnumber _ _ (hnumber _ _ (hnumber _ _ (hnumber _ _ (Or.inl ⟨_, rfl⟩))))

theorem topSample_eq_ok : s.topSample x phase = .ok p ↔
    ∃ n, s.firstNumber x phase = .ok n ∧ p = s.position n phase := by
  unfold topSample
  simp only [bind_eq_ok, pure_eq_ok]
  exact exists_congr fun _ => and_congr_right fun _ => eq_comm

theorem bottomSample_eq_ok : s.bottomSample x phase = .ok p ↔
    ∃ n, s.lastNumber x phase = .ok n ∧ p = s.position n phase := by
  unfold bottomSample
  simp only [bind_eq_ok, pure_eq_ok]
  exact exists_congr fun _ => and_congr_right fun _ => eq_comm

end Spacing

theorem ResampledSpacing.countAbove_eq_ok {α : Type} [Scalar α] {s : ResampledSpacing α}
    {reference top : α} {k : Nat} : s.countAbove reference top = .ok k ↔
    ∃ first, s.spacing.firstNumber top (s.phase reference) = .ok first ∧
      Spacing.leastNumber ≤ s.referenceNumber reference - first ∧
      s.referenceNumber reference - first ≤ Spacing.greatestNumber ∧
      k = (s.referenceNumber reference - first).toNat := by
  unfold countAbove Spacing.leastNumber Spacing.greatestNumber
  simp only [bind_eq_ok, pure_eq_ok, sampleNumber_eq_ok]
  constructor
  · rintro ⟨f, hf, d, ⟨h₁, h₂, rfl⟩, rfl⟩
    exact ⟨f, hf, h₁, by omega, rfl⟩
  · rintro ⟨f, hf, h₁, h₂, rfl⟩
    exact ⟨f, hf, _, ⟨h₁, by omega, rfl⟩, rfl⟩

end Seismic
