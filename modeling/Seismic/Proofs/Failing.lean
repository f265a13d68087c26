import Seismic.Proofs.Result

/-!
# Ways to fail

Which failures a computation can have is found from the failures of its steps.
-/

namespace Seismic

variable {α β γ : Type}

/-- Every failure of the computation is one that `P` holds for. -/
def FailsOnly (P : Failure α → Prop) (x : Result α β) : Prop := ∀ e, x = .error e → P e

section FailsOnly

variable {P : Failure α → Prop} {e : Failure α} {b : β} {x y : Result α β}
variable {f : β → Result α γ}

theorem FailsOnly.ne (h : FailsOnly P x) (he : ¬ P e) : x ≠ .error e := fun hx => he (h e hx)

@[simp] theorem failsOnly_ok : FailsOnly P (Except.ok b : Result α β) := fun _ h => nomatch h

@[simp] theorem failsOnly_pure : FailsOnly P (pure b : Result α β) := fun _ h => nomatch h

@[simp] theorem failsOnly_error : FailsOnly P (Except.error e : Result α β) ↔ P e :=
  ⟨fun h => h e rfl, fun he _ h => by cases h; exact he⟩

@[simp] theorem failsOnly_throw : FailsOnly P (throw e : Result α β) ↔ P e := failsOnly_error

@[simp] theorem failsOnly_bind :
    FailsOnly P (x >>= f) ↔ FailsOnly P x ∧ ∀ b, x = .ok b → FailsOnly P (f b) := by
  cases x with
  | error e =>
    show FailsOnly P (Except.error e : Result α γ) ↔ _
    rw [failsOnly_error, failsOnly_error]
    refine ⟨fun h => ⟨h, fun b hb => ?_⟩, fun h => h.1⟩
    cases hb
  | ok b =>
    refine ⟨fun h => ⟨failsOnly_ok, fun b' hb => ?_⟩, fun h => h.2 b rfl⟩
    cases hb
    exact h

@[simp] theorem failsOnly_map {g : β → γ} : FailsOnly P (g <$> x) ↔ FailsOnly P x := by
  cases x with
  | error e =>
    show FailsOnly P (Except.error e : Result α γ) ↔ _
    rw [failsOnly_error, failsOnly_error]
  | ok b => exact ⟨fun _ => failsOnly_ok, fun _ => failsOnly_ok⟩

@[simp] theorem failsOnly_ite {c : Prop} [Decidable c] :
    FailsOnly P (if c then x else y) ↔ (c → FailsOnly P x) ∧ (¬ c → FailsOnly P y) := by
  by_cases hc : c <;> simp [hc]

@[simp] theorem failsOnly_dite {c : Prop} [Decidable c] {x : c → Result α β}
    {y : ¬ c → Result α β} :
    FailsOnly P (if h : c then x h else y h) ↔
      (∀ h, FailsOnly P (x h)) ∧ ∀ h, FailsOnly P (y h) := by
  by_cases hc : c <;> simp [hc]

theorem failsOnly_foldlM {ι : Type} {xs : List ι} {g : β → ι → Result α β}
    (h : ∀ i ∈ xs, ∀ b, FailsOnly P (g b i)) (b : β) : FailsOnly P (xs.foldlM g b) := by
  induction xs generalizing b with
  | nil => exact failsOnly_pure
  | cons i xs ih =>
    rw [List.foldlM_cons, failsOnly_bind]
    exact ⟨h i List.mem_cons_self b, fun c _ =>
      ih (fun j hj => h j (List.mem_cons_of_mem i hj)) c⟩

theorem failsOnly_mapM {ι : Type} {xs : List ι} {g : ι → Result α β}
    (h : ∀ i ∈ xs, FailsOnly P (g i)) : FailsOnly P (xs.mapM g) := by
  induction xs with
  | nil => exact failsOnly_pure
  | cons i xs ih =>
    rw [List.mapM_cons, failsOnly_bind]
    refine ⟨h i List.mem_cons_self, fun c _ => ?_⟩
    rw [failsOnly_bind]
    exact ⟨ih fun j hj => h j (List.mem_cons_of_mem i hj), fun _ _ => failsOnly_pure⟩

end FailsOnly
end Seismic
