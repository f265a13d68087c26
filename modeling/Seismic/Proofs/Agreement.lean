import Seismic.Proofs.Result

/-!
# Computations that agree

Two computations agree if both succeed with related results, or if both fail and the same
party has to act on the two failures.  Agreement is kept by the steps of a computation, so it
is shown step by step.
-/

namespace Seismic

variable {α β γ β' γ' : Type}

/-- Both computations succeed with related results, or both fail with failures of one
category. -/
inductive Agree (R : β → γ → Prop) : Result α β → Result α γ → Prop
  | ok {b : β} {c : γ} (h : R b c) : Agree R (.ok b) (.ok c)
  | error {e f : Failure α} (h : e.category? = f.category?) : Agree R (.error e) (.error f)

namespace Agree

variable {R : β → γ → Prop} {S : β' → γ' → Prop}

theorem of_eq {x y : Result α β} (h : x = y) : Agree Eq x y := by
  subst h
  cases x with
  | ok b => exact ok rfl
  | error e => exact error rfl

theorem bind {x : Result α β} {y : Result α γ} {f : β → Result α β'} {g : γ → Result α γ'}
    (h : Agree R x y)
    (hfg : ∀ b c, x = .ok b → y = .ok c → R b c → Agree S (f b) (g c)) :
    Agree S (x >>= f) (y >>= g) := by
  cases h with
  | ok h => exact hfg _ _ rfl rfl h
  | error h => exact error h

/-- A step that is the same in both computations. -/
theorem bind_eq {x y : Result α β} {f : β → Result α β'} {g : β → Result α γ'} (h : y = x)
    (hfg : ∀ b, x = .ok b → Agree S (f b) (g b)) : Agree S (x >>= f) (y >>= g) := by
  subst h
  exact (of_eq rfl).bind fun b c hb _ hbc => hbc ▸ hfg b hb

/-- A check that both computations make, with failures of one category. -/
theorem check {p q : Prop} [Decidable p] [Decidable q] {e f : Failure α}
    {k : β → Result α β'} {k' : γ → Result α γ'} {x : Result α β'} {y : Result α γ'}
    (hpq : p ↔ q) (he : e.category? = f.category?) (h : ¬ p → Agree S x y) :
    Agree S (if p then (throw e : Result α β) >>= k else x)
      (if q then (throw f : Result α γ) >>= k' else y) := by
  by_cases hp : p
  · rw [if_pos hp, if_pos (hpq.mp hp)]
    exact error he
  · rw [if_neg hp, if_neg (mt hpq.mpr hp)]
    exact h hp

theorem imp {x : Result α β} {y : Result α γ} {T : β → γ → Prop} (h : Agree R x y)
    (hrt : ∀ b c, x = .ok b → y = .ok c → R b c → T b c) : Agree T x y := by
  cases h with
  | ok h => exact ok (hrt _ _ rfl rfl h)
  | error h => exact error h

theorem of_map {ρ σ : Type} {T : ρ → σ → Prop} {x : Result α β} {y : Result α γ} {f : β → ρ}
    {g : γ → σ} (h : Agree T (f <$> x) (g <$> y)) : Agree (fun b c => T (f b) (g c)) x y := by
  cases x with
  | ok b =>
    cases y with
    | ok c => cases h with | ok h => exact ok h
    | error e => cases h
  | error e =>
    cases y with
    | ok c => cases h
    | error e' => cases h with | error h => exact error h

/-- A loop whose steps keep related states related. -/
theorem foldlM {ι : Type} {xs : List ι} {f : β → ι → Result α β} {g : γ → ι → Result α γ}
    (hstep : ∀ i ∈ xs, ∀ b c, R b c → Agree R (f b i) (g c i)) {b : β} {c : γ} (h : R b c) :
    Agree R (xs.foldlM f b) (xs.foldlM g c) := by
  induction xs generalizing b c with
  | nil => exact ok h
  | cons i xs ih =>
    rw [List.foldlM_cons, List.foldlM_cons]
    exact (hstep i List.mem_cons_self b c h).bind fun b' c' _ _ h' =>
      ih (fun j hj => hstep j (List.mem_cons_of_mem i hj)) h'

/-- The same function on every element, as far as agreement can tell. -/
theorem mapM {ι : Type} {xs : List ι} {f g : ι → Result α β}
    (hfg : ∀ i ∈ xs, Agree Eq (f i) (g i)) : Agree Eq (xs.mapM f) (xs.mapM g) := by
  induction xs with
  | nil => exact of_eq rfl
  | cons i xs ih =>
    rw [List.mapM_cons, List.mapM_cons]
    refine (hfg i List.mem_cons_self).bind fun b c _ _ hb => ?_
    refine (ih fun j hj => hfg j (List.mem_cons_of_mem i hj)).bind fun bs cs _ _ hbs => ?_
    rw [hb, hbs]
    exact of_eq rfl

end Agree
end Seismic
