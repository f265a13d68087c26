import Mathlib.Data.List.Forall2
import Mathlib.Tactic.SplitIfs
import Seismic.Failure

/-!
# Results

What it takes for a computation that can fail to succeed, step by step, and for two of them to have
the same outcome.
-/

namespace Seismic

variable {α β γ : Type}

@[simp] theorem bind_eq_ok {x : Result α β} {f : β → Result α γ} {c : γ} :
    (x >>= f) = .ok c ↔ ∃ b, x = .ok b ∧ f b = .ok c := by
  cases x with
  | error e => exact ⟨fun h => (nomatch h), fun ⟨_, h, _⟩ => (nomatch h)⟩
  | ok b => exact ⟨fun h => ⟨b, rfl, h⟩, fun ⟨_, hb, h⟩ => by cases hb; exact h⟩

@[simp] theorem pure_eq_ok {b c : β} : (pure b : Result α β) = .ok c ↔ b = c :=
  ⟨fun h => Except.ok.inj h, fun h => congrArg Except.ok h⟩

/-- A check that ends the computation has not applied. -/
theorem check_eq_ok {c : Prop} [Decidable c] {e : Failure α} {f : β → Result α γ}
    {x : Result α γ} {y : γ} :
    (if c then (throw e : Result α β) >>= f else x) = .ok y ↔ ¬ c ∧ x = .ok y := by
  split_ifs with h
  · exact ⟨fun he => (nomatch he), fun he => absurd h he.1⟩
  · exact ⟨fun he => ⟨h, he⟩, fun he => he.2⟩

theorem ok_bind (b : β) (f : β → Result α γ) : (Except.ok b >>= f) = f b := rfl

theorem addCounts_eq_ok {m n k : Nat} :
    (addCounts m n : Result α Nat) = .ok k ↔ m + n < countBound ∧ k = m + n := by
  unfold addCounts
  split_ifs with h
  · exact ⟨fun he => ⟨h, (Except.ok.inj he).symm⟩, fun he => congrArg Except.ok he.2.symm⟩
  · exact ⟨fun he => (nomatch he), fun he => absurd he.1 h⟩

theorem mulCounts_eq_ok {m n k : Nat} :
    (mulCounts m n : Result α Nat) = .ok k ↔ m * n < countBound ∧ k = m * n := by
  unfold mulCounts
  split_ifs with h
  · exact ⟨fun he => ⟨h, (Except.ok.inj he).symm⟩, fun he => congrArg Except.ok he.2.symm⟩
  · exact ⟨fun he => (nomatch he), fun he => absurd he.1 h⟩

theorem sampleNumber_eq_ok {n k : Int} : (sampleNumber n : Result α Int) = .ok k ↔
    -(signedBound : Int) ≤ n ∧ n < signedBound ∧ k = n := by
  unfold sampleNumber
  split_ifs with h
  · exact ⟨fun he => ⟨h.1, h.2, (Except.ok.inj he).symm⟩, fun he => congrArg Except.ok he.2.2.symm⟩
  · exact ⟨fun he => (nomatch he), fun he => absurd ⟨he.1, he.2.1⟩ h⟩

/-- Whether a computation succeeds with a certain result is found by running it. -/
instance decidableExistsOk (x : Result α β) (p : β → Prop) [DecidablePred p] :
    Decidable (∃ b, x = .ok b ∧ p b) :=
  match x with
  | .ok b => decidable_of_iff (p b)
    ⟨fun h => ⟨b, rfl, h⟩, fun ⟨_, he, h⟩ => Except.ok.inj he ▸ h⟩
  | .error _ => isFalse fun ⟨_, he, _⟩ => nomatch he

instance decidableEqOk [DecidableEq β] (x : Result α β) (b : β) : Decidable (x = .ok b) :=
  decidable_of_iff (∃ c, x = .ok c ∧ c = b) ⟨fun ⟨_, hx, hc⟩ => hc ▸ hx, fun hx => ⟨b, hx, rfl⟩⟩

theorem mapM_eq_ok {f : β → Result α γ} {xs : List β} {ys : List γ} :
    xs.mapM f = .ok ys ↔ List.Forall₂ (fun x y => f x = .ok y) xs ys := by
  induction xs generalizing ys with
  | nil =>
    rw [List.mapM_nil, pure_eq_ok, List.forall₂_nil_left_iff]
    exact eq_comm
  | cons x xs ih =>
    rw [List.mapM_cons, bind_eq_ok, List.forall₂_cons_left_iff]
    constructor
    · rintro ⟨y, hy, h⟩
      obtain ⟨zs, hz, h⟩ := bind_eq_ok.mp h
      exact ⟨y, zs, hy, ih.mp hz, (pure_eq_ok.mp h).symm⟩
    · rintro ⟨y, zs, hy, hz, rfl⟩
      exact ⟨y, hy, bind_eq_ok.mpr ⟨zs, ih.mpr hz, rfl⟩⟩

theorem exists_of_mem_mapM {f : β → Result α γ} {xs : List β} {ys : List γ} {y : γ}
    (h : xs.mapM f = .ok ys) (hy : y ∈ ys) : ∃ x ∈ xs, f x = .ok y := by
  induction mapM_eq_ok.mp h with
  | nil => cases hy
  | cons hx hrest ih =>
    rcases List.mem_cons.mp hy with rfl | hy
    · exact ⟨_, List.mem_cons_self, hx⟩
    · obtain ⟨x, hmem, hx⟩ := ih (mapM_eq_ok.mpr hrest) hy
      exact ⟨x, List.mem_cons_of_mem _ hmem, hx⟩

theorem getElem?_mapM {f : β → Result α γ} {xs : List β} {ys : List γ} {i : Nat} {x : β}
    (h : xs.mapM f = .ok ys) (hx : xs[i]? = some x) : ∃ y, ys[i]? = some y ∧ f x = .ok y := by
  induction mapM_eq_ok.mp h generalizing i with
  | nil => cases hx
  | cons hy hrest ih =>
    cases i with
    | zero =>
      cases hx
      exact ⟨_, rfl, hy⟩
    | succ i => exact ih (mapM_eq_ok.mpr hrest) hx

theorem exists_mapM_eq_ok {f : β → Result α γ} {xs : List β} :
    (∃ ys, xs.mapM f = .ok ys) ↔ ∀ x ∈ xs, ∃ y, f x = .ok y := by
  induction xs with
  | nil => exact ⟨fun _ _ h => (nomatch h), fun _ => ⟨[], rfl⟩⟩
  | cons x xs ih =>
    rw [List.forall_mem_cons, ← ih]
    constructor
    · rintro ⟨ys, h⟩
      rw [List.mapM_cons] at h
      obtain ⟨y, hy, h⟩ := bind_eq_ok.mp h
      obtain ⟨zs, hz, -⟩ := bind_eq_ok.mp h
      exact ⟨⟨y, hy⟩, zs, hz⟩
    · rintro ⟨⟨y, hy⟩, zs, hz⟩
      exact ⟨y :: zs, by rw [List.mapM_cons, hy, ok_bind, hz, ok_bind]; rfl⟩

theorem mapM_append_eq_ok {f : β → Result α γ} {xs ys : List β} {zs : List γ} :
    (xs ++ ys).mapM f = .ok zs ↔
      ∃ as, xs.mapM f = .ok as ∧ ∃ bs, ys.mapM f = .ok bs ∧ as ++ bs = zs := by
  simp only [List.mapM_append, bind_eq_ok, pure_eq_ok]

/-- Two sequences of computations, the second one over the results of the first. -/
theorem mapM_mapM_eq_ok {δ : Type} {f : β → Result α γ} {g : γ → Result α δ} {xs : List β}
    {zs : List δ} :
    (∃ ys, xs.mapM f = .ok ys ∧ ys.mapM g = .ok zs) ↔ xs.mapM (fun x => f x >>= g) = .ok zs := by
  induction xs generalizing zs with
  | nil =>
    constructor
    · rintro ⟨ys, hy, hz⟩
      cases pure_eq_ok.mp hy
      exact hz
    · intro hz
      exact ⟨[], rfl, hz⟩
  | cons x xs ih =>
    simp only [List.mapM_cons, bind_eq_ok, pure_eq_ok]
    constructor
    · rintro ⟨_, ⟨y, hy, ys, hys, rfl⟩, hz⟩
      rw [List.mapM_cons] at hz
      obtain ⟨z, hz, h⟩ := bind_eq_ok.mp hz
      obtain ⟨zs', hzs, h⟩ := bind_eq_ok.mp h
      exact ⟨z, ⟨y, hy, hz⟩, zs', ih.mp ⟨ys, hys, hzs⟩, pure_eq_ok.mp h⟩
    · rintro ⟨z, ⟨y, hy, hz⟩, zs', hzs, rfl⟩
      obtain ⟨ys, hys, hzs⟩ := ih.mpr hzs
      refine ⟨y :: ys, ⟨y, hy, ys, hys, rfl⟩, ?_⟩
      rw [List.mapM_cons, hz, ok_bind, hzs]
      rfl

/-! ## Computations seen from outside -/

/-- Two computations with the same outcome, seen from outside, may go on alike. -/
theorem map_bind_congr {δ β' γ' δ' : Type} {x : Result α β} {y : Result α γ} {f : β → δ}
    {g : γ → δ} (h : f <$> x = g <$> y) {k : β → Result α β'} {l : γ → Result α γ'} {f' : β' → δ'}
    {g' : γ' → δ'} (hk : ∀ b c, f b = g c → f' <$> k b = g' <$> l c) :
    f' <$> (x >>= k) = g' <$> (y >>= l) := by
  cases x with
  | error e =>
    cases y with
    | error e' =>
      cases h
      rfl
    | ok c => cases h
  | ok b =>
    cases y with
    | error e' => cases h
    | ok c => exact hk b c (Except.ok.inj h)

theorem map_mapM_fst (f : β → Result α β) (os : List (β × γ)) :
    List.map Prod.fst <$> (os.mapM fun o => (do return (← f o.1, o.2) : Result α (β × γ))) =
      (os.map Prod.fst).mapM f := by
  induction os with
  | nil => rfl
  | cons o os ih =>
    rw [List.map_cons, List.mapM_cons, List.mapM_cons, ← ih]
    cases f o.1 with
    | error e => rfl
    | ok o' =>
      cases (os.mapM fun o => (do return (← f o.1, o.2) : Result α (β × γ))) <;> rfl

/-- Two folds agree if their steps do, on states that the second one reaches. -/
theorem map_foldlM {ι : Type} {f : β → ι → Result α β} {g : γ → ι → Result α γ}
    (p : β → γ) (inv : γ → Prop) {l : List ι}
    (hstep : ∀ i ∈ l, ∀ b, inv (p b) → p <$> f b i = g (p b) i)
    (hinv : ∀ i ∈ l, ∀ c c', inv c → g c i = .ok c' → inv c') {b : β} (hb : inv (p b)) :
    p <$> l.foldlM f b = l.foldlM g (p b) := by
  induction l generalizing b with
  | nil => rfl
  | cons i l ih =>
    have hi := hstep i List.mem_cons_self b hb
    rw [List.foldlM_cons, List.foldlM_cons, ← hi]
    cases hf : f b i with
    | error e => rfl
    | ok b' =>
      rw [hf] at hi
      exact ih (fun j hj => hstep j (List.mem_cons_of_mem i hj))
        (fun j hj => hinv j (List.mem_cons_of_mem i hj))
        (hinv i List.mem_cons_self _ _ hb hi.symm)

end Seismic
