import Mathlib.Data.List.Induction
import Seismic.Proofs.Spline

/-!
# Fitting a spline again and again

A fit takes its nodes before it looks at them, and computes derivatives only if it accepts them.
So whatever a spline has been through, its nodes are those of the last fit, and its derivatives
are those of the last fit that was accepted.  Where these are one and the same, the spline is
what a new one would be.  Where they are not, an evaluation mixes the two, and it ends in a fault
if one of them is too short for the interval of the position.
-/

namespace Seismic
namespace Spline

variable {α : Type} [Scalar α]

/-- Positions and values that a fit accepts as nodes. -/
def Accepts (nodes : Array α × Array α) : Prop :=
  nodes.1.size = nodes.2.size ∧ 2 ≤ nodes.1.size ∧ increasing nodes.1.toList = true

instance : DecidablePred (Accepts (α := α)) := fun nodes =>
  inferInstanceAs (Decidable (nodes.1.size = nodes.2.size ∧ 2 ≤ nodes.1.size ∧
    increasing nodes.1.toList = true))

namespace Accepts

variable {x y : Array α}

theorem size_eq (h : Accepts (x, y)) : x.size = y.size := h.1

theorem two_le (h : Accepts (x, y)) : 2 ≤ x.size := h.2.1

theorem in_order (h : Accepts (x, y)) : increasing x.toList = true := h.2.2

end Accepts

def derivativesOf (nodes : Array α × Array α) : Array α :=
  Array.ofFn fun i : Fin nodes.1.size => derivative nodes.1 nodes.2 i

/-- The spline after fits through one set of nodes after the other.  Evaluations in between do
not change it. -/
def refit (s : Spline α) (history : List (Array α × Array α)) : Spline α :=
  history.foldl (fun s nodes => (s.fit nodes.1 nodes.2).2) s

/-- The nodes of the last fit. -/
def lastNodes (history : List (Array α × Array α)) : Array α × Array α :=
  history.getLast?.getD (#[], #[])

/-- The derivatives of the last fit that was accepted. -/
def lastDerivatives (history : List (Array α × Array α)) : Array α :=
  ((history.filter (Accepts ·)).getLast?.map derivativesOf).getD #[]

variable {s : Spline α} {history : List (Array α × Array α)} {x y : Array α} {position : α}

/-! ## What a fit leaves behind -/

theorem fit_ok_iff : (s.fit x y).1 = .ok () ↔ Accepts (x, y) := fit_eq_ok

theorem fit_snd (s : Spline α) (x y : Array α) : (s.fit x y).2 =
    ⟨x, y, if Accepts (x, y) then derivativesOf (x, y) else s.derivatives⟩ := by
  unfold fit
  dsimp only
  by_cases h : Accepts (x, y)
  · rw [if_neg (not_not_intro h.size_eq), if_neg (Nat.not_lt.mpr h.two_le), h.in_order,
      Bool.not_true, if_neg Bool.false_ne_true, if_pos h]
    rfl
  · rw [if_neg h]
    split_ifs with h₁ h₂ h₃
    · rfl
    · rfl
    · rfl
    · rw [Bool.not_eq_true, Bool.not_eq_false'] at h₃
      exact absurd ⟨of_not_not h₁, Nat.not_lt.mp h₂, h₃⟩ h

theorem refit_concat (s : Spline α) (history : List (Array α × Array α)) (x y : Array α) :
    s.refit (history ++ [(x, y)]) = ((s.refit history).fit x y).2 := by
  unfold refit
  rw [List.foldl_append]
  rfl

theorem refit_new (history : List (Array α × Array α)) : refit {} history =
    ⟨(lastNodes history).1, (lastNodes history).2, lastDerivatives history⟩ := by
  induction history using List.reverseRecOn with
  | nil => rfl
  | append_singleton history nodes ih =>
    obtain ⟨x, y⟩ := nodes
    rw [refit_concat, fit_snd, ih]
    unfold lastNodes lastDerivatives
    rw [List.getLast?_concat, List.filter_append]
    by_cases h : Accepts (x, y)
    · rw [if_pos h, List.filter_singleton, decide_eq_true h]
      simp
    · rw [if_neg h, List.filter_singleton, decide_eq_false h]
      simp

/-! ## Evaluation after a fit -/

omit [Scalar α] in
/-- Reading two neighbours gives both of them, or it ends in a fault. -/
theorem neighbours_cases {β : Type} (xs : Array α) (i : Nat) :
    (i + 1 < xs.size ∧ ∃ a b, ∀ f : α → α → Result α β,
      (do f (← element xs i) (← element xs (i + 1))) = f a b) ∨
    xs.size ≤ i + 1 ∧ ∀ f : α → α → Result α β,
      (do f (← element xs i) (← element xs (i + 1))) = .error (.fault .pastEnd) := by
  have hmissing : ∀ {k}, xs.size ≤ k → element xs k = .error (.fault .pastEnd) := fun h => by
    unfold element
    rw [Array.getElem?_eq_none h]
  rcases Nat.lt_or_ge (i + 1) xs.size with h | h
  · refine Or.inl ⟨h, xs[i], xs[i + 1], fun f => ?_⟩
    rw [element_eq_ok (Nat.lt_of_succ_lt h), element_eq_ok h]
    rfl
  · refine Or.inr ⟨h, fun f => ?_⟩
    rcases Nat.lt_or_ge i xs.size with h' | h'
    · rw [element_eq_ok h', hmissing h]
      rfl
    · rw [hmissing h']
      rfl

/-- An evaluation ends in a fault where the values or the derivatives are too few for the
interval of the position. -/
theorem eval_eq_fault_iff : s.eval position = .error (.fault .pastEnd) ↔
    2 ≤ s.positions.size ∧ s.positions.getD 0 0 ≤ position ∧
      position ≤ s.positions.getD (s.positions.size - 1) 0 ∧
      (s.values.size ≤ interval s.positions position + 1 ∨
        s.derivatives.size ≤ interval s.positions position + 1) := by
  unfold eval
  dsimp only
  by_cases h2 : s.positions.size < 2
  · rw [if_pos h2]
    exact ⟨fun h => (nomatch h), fun h => absurd h.1 (Nat.not_le.mpr h2)⟩
  rw [if_neg h2]
  by_cases hin : s.positions.getD 0 0 ≤ position ∧
      position ≤ s.positions.getD (s.positions.size - 1) 0
  swap
  · have hout : (!(decide (s.positions.getD 0 0 ≤ position) &&
        decide (position ≤ s.positions.getD (s.positions.size - 1) 0))) = true := by
      rw [Bool.not_eq_eq_eq_not, Bool.not_true, ← Bool.decide_and]
      exact decide_eq_false hin
    rw [if_pos hout]
    exact ⟨fun h => (nomatch h), fun h => absurd ⟨h.2.1, h.2.2.1⟩ hin⟩
  rw [decide_eq_true hin.1, decide_eq_true hin.2, Bool.and_self, Bool.not_true,
    if_neg Bool.false_ne_true]
  rcases neighbours_cases s.values (interval s.positions position) with
    ⟨hv, y, y', hvalues⟩ | ⟨hv, hvalues⟩
  swap
  · exact ⟨fun _ => ⟨Nat.not_lt.mp h2, hin.1, hin.2, Or.inl hv⟩, fun _ => hvalues _⟩
  rw [hvalues]
  rcases neighbours_cases s.derivatives (interval s.positions position) with
    ⟨hd, d, d', hderivatives⟩ | ⟨hd, hderivatives⟩
  · rw [hderivatives]
    exact ⟨fun h => (nomatch h), fun h => by omega⟩
  · exact ⟨fun _ => ⟨Nat.not_lt.mp h2, hin.1, hin.2, Or.inr hd⟩, fun _ => hderivatives _⟩

/-- After any history of fits a spline has the nodes of the last one and the derivatives of the
last one that was accepted.  A fit that is accepted leaves what a new spline would be, which is
evaluated without fault.  One that is refused leaves the spline as it was if and only if its
nodes are those of the fit before.  An evaluation ends in a fault if and only if the values or
the derivatives end before the interval of a position between the first and the last node. -/
theorem refit_leaves (history : List (Array α × Array α)) (x y : Array α) :
    refit {} history =
      ⟨(lastNodes history).1, (lastNodes history).2, lastDerivatives history⟩ ∧
    (((refit {} history).fit x y).1 = .ok () →
      ((refit {} history).fit x y).2 = (fit {} x y).2 ∧
        ∀ position, ((refit {} history).fit x y).2.eval position ≠ .error (.fault .pastEnd)) ∧
    (∀ e, ((refit {} history).fit x y).1 = .error e →
      (((refit {} history).fit x y).2 = refit {} history ↔ lastNodes history = (x, y))) ∧
    ∀ position, (refit {} history).eval position = .error (.fault .pastEnd) ↔
      2 ≤ (lastNodes history).1.size ∧ (lastNodes history).1.getD 0 0 ≤ position ∧
        position ≤ (lastNodes history).1.getD ((lastNodes history).1.size - 1) 0 ∧
        ((lastNodes history).2.size ≤ interval (lastNodes history).1 position + 1 ∨
          (lastDerivatives history).size ≤ interval (lastNodes history).1 position + 1) := by
  refine ⟨refit_new history, fun hok => ?_, fun e he => ?_, fun position => ?_⟩
  · rcases fit_cases (refit {} history) {} x y with ⟨e, he, -⟩ | ⟨-, heq⟩
    · rw [he] at hok
      cases hok
    · obtain ⟨hfitted, -⟩ := fitted_of_fit hok
      refine ⟨congrArg Prod.snd heq, fun position hfault => ?_⟩
      obtain ⟨h2, -, -, hshort⟩ := eval_eq_fault_iff.mp hfault
      have hk := interval_add_one_lt position h2
      rw [hfitted.values, hfitted.derivatives] at hshort
      omega
  · have hrefused : ¬ Accepts (x, y) := fun h => by
      rw [fit_ok_iff.mpr h] at he
      cases he
    rw [fit_snd, if_neg hrefused, refit_new, Spline.mk.injEq, Prod.ext_iff]
    exact ⟨fun h => ⟨h.1.symm, h.2.1.symm⟩, fun h => ⟨h.1.symm, h.2.symm, rfl⟩⟩
  · rw [refit_new, eval_eq_fault_iff]

/-- A spline is fitted, refuses nodes that are not increasing, and is fitted again. -/
theorem refit_leaves_of_three : ∃ e : Failure Float,
    ((refit {} [(#[0, 1], #[2, 4])]).fit #[0, 0, 1] #[1, 2, 3]).1 = .error e ∧
    (((refit {} [(#[0, 1], #[2, 4])]).fit #[0, 0, 1] #[1, 2, 3]).2 =
      refit {} [((#[0, 1], #[2, 4]) : Array Float × Array Float)] ↔
        lastNodes [((#[0, 1], #[2, 4]) : Array Float × Array Float)] =
          (#[0, 0, 1], #[1, 2, 3])) ∧
    ((refit {} [((#[0, 1], #[2, 4]) : Array Float × Array Float),
      (#[0, 0, 1], #[1, 2, 3])]).fit #[0, 1, 2] #[1, 2, 3]).2 =
      (fit {} #[0, 1, 2] #[1, 2, 3]).2 := by
  have hrefused : ((refit {} [(#[0, 1], #[2, 4])]).fit #[0, 0, 1] #[1, 2, 3]).1 =
      .error (.unsortedNodes : Failure Float) := by rfl
  have hok : ((refit {} [((#[0, 1], #[2, 4]) : Array Float × Array Float),
      (#[0, 0, 1], #[1, 2, 3])]).fit #[0, 1, 2] #[1, 2, 3]).1 = .ok () := by rfl
  obtain ⟨-, -, hkept, -⟩ := refit_leaves [((#[0, 1], #[2, 4]) : Array Float × Array Float)]
    #[0, 0, 1] #[1, 2, 3]
  obtain ⟨-, hnew, -⟩ := refit_leaves [((#[0, 1], #[2, 4]) : Array Float × Array Float),
      (#[0, 0, 1], #[1, 2, 3])] #[0, 1, 2] #[1, 2, 3]
  exact ⟨_, hrefused, hkept _ hrefused, (hnew hok).1⟩

/-- A new spline has no nodes.  After it has refused three nodes of which the first two are at
one position, it is evaluated between them, and finds no derivatives. -/
theorem not_kept_by_refused_fit : ¬ ∀ (history : List (Array Float × Array Float))
    (x y : Array Float) (e : Failure Float), ((refit {} history).fit x y).1 = .error e →
      ((refit {} history).fit x y).2.positions.size = (refit {} history).positions.size ∧
      ∀ position,
        ((refit {} history).fit x y).2.eval position = (refit {} history).eval position := by
  intro hall
  obtain ⟨-, hsame⟩ := hall [] #[0, 0, 1] #[1, 2, 3] .unsortedNodes rfl
  have hfault : ((refit {} ([] : List (Array Float × Array Float))).fit #[0, 0, 1]
      #[1, 2, 3]).2.eval (1 / 2) = .error (.fault .pastEnd) :=
    eval_eq_fault_iff.mpr (by decide +kernel)
  cases (hsame (1 / 2)).symm.trans hfault

end Spline
end Seismic
