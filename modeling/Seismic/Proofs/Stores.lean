import Seismic.Proofs.Result

/-!
# Stores in turn

Calls are made one after the other, some of which store a value in a place of an array while the
others are refused.  If every call stores what it is to store and nothing else, every place of
the array ends up with the value of the last call that names it, whatever the others were.
-/

namespace Seismic

variable {α σ S C : Type}

/-! ## Calls -/

/-- What a step that can fail leaves behind: its outcome, and the state before it if it failed. -/
def settle (s : S) : Result α S → Result α Unit × S
  | .ok s' => (.ok (), s')
  | .error e => (.error e, s)

/-- The answers to calls that are made one after the other, each on the state that the calls
before it have left, and the state in the end. -/
def inTurn (call : S → C → Result α Unit × S) (s : S) : List C → List (Result α Unit) × S
  | [] => ([], s)
  | c :: cs =>
    let (answer, s') := call s c
    let (answers, last) := inTurn call s' cs
    (answer :: answers, last)

/-- The value of the last call with some property, and `x` if there is none. -/
def lastValue (value : C → σ) (named : C → Prop) [DecidablePred named] (cs : List C) (x : σ) : σ :=
  ((cs.filter (named ·)).getLast?.map value).getD x

section LastValue

variable {value : C → σ} {named named' : C → Prop} [DecidablePred named] [DecidablePred named']

theorem lastValue_cons (c : C) (cs : List C) (x : σ) :
    lastValue value named (c :: cs) x =
      lastValue value named cs (if named c then value c else x) := by
  unfold lastValue
  by_cases h : named c
  · have hfilter : (c :: cs).filter (named ·) = c :: cs.filter (named ·) :=
      List.filter_cons_of_pos (decide_eq_true h)
    rw [hfilter, List.getLast?_cons, if_pos h]
    cases (cs.filter (named ·)).getLast? <;> rfl
  · have hfilter : (c :: cs).filter (named ·) = cs.filter (named ·) :=
      List.filter_cons_of_neg (by simpa using h)
    rw [hfilter, if_neg h]

theorem lastValue_congr (h : ∀ c, named c ↔ named' c) (cs : List C) (x : σ) :
    lastValue value named cs x = lastValue value named' cs x := by
  unfold lastValue
  rw [List.filter_congr fun c _ => decide_eq_decide.mpr (h c)]

end LastValue

/-! ## Places of an array -/

section Places

variable {place : C → Option Nat} {value : C → σ} {xs : Array σ} {p : Nat} {x : σ}

/-- An array after a call for one of its places, or for none. -/
def stored (place : C → Option Nat) (value : C → σ) (xs : Array σ) (c : C) : Array σ :=
  match place c with
  | some p => xs.setIfInBounds p (value c)
  | none => xs

theorem stored_of_some {c : C} (h : place c = some p) :
    stored place value xs c = xs.setIfInBounds p (value c) := by
  rw [stored, h]

theorem stored_of_none {c : C} (h : place c = none) : stored place value xs c = xs := by
  rw [stored, h]

theorem getElem?_stored (h : xs[p]? = some x) (c : C) :
    (stored place value xs c)[p]? = some (if place c = some p then value c else x) := by
  cases hplace : place c with
  | none => rw [stored_of_none hplace, if_neg nofun, h]
  | some q =>
    rw [stored_of_some hplace, Array.getElem?_setIfInBounds]
    by_cases hq : q = p
    · obtain ⟨hlt, -⟩ := Array.getElem?_eq_some_iff.mp h
      rw [if_pos hq, if_pos (hq ▸ hlt), if_pos (congrArg some hq)]
    · rw [if_neg hq, if_neg fun he => hq (Option.some.inj he), h]

theorem getElem?_foldl_stored (place : C → Option Nat) (value : C → σ) (cs : List C)
    (h : xs[p]? = some x) :
    (cs.foldl (stored place value) xs)[p]? = some (lastValue value (place · = some p) cs x) := by
  induction cs generalizing xs x with
  | nil => exact h
  | cons c cs ih =>
    rw [List.foldl_cons, lastValue_cons]
    exact ih (getElem?_stored h c)

/-- What holds of one call holds of many.  The answers must not depend on what has been stored. -/
theorem inTurn_stored {call : S → C → Result α Unit × S} {kept : S → Prop} {values : S → Array σ}
    {answer : C → Result α Unit}
    (hcall : ∀ s c, kept s → (call s c).1 = answer c ∧ kept (call s c).2 ∧
      values (call s c).2 = stored place value (values s) c)
    {s : S} (hs : kept s) (cs : List C) :
    (inTurn call s cs).1 = cs.map answer ∧ kept (inTurn call s cs).2 ∧
      values (inTurn call s cs).2 = cs.foldl (stored place value) (values s) := by
  induction cs generalizing s with
  | nil => exact ⟨rfl, hs, rfl⟩
  | cons c cs ih =>
    obtain ⟨hanswer, hkept, hvalues⟩ := hcall s c hs
    obtain ⟨hanswers, hlast, hall⟩ := ih hkept
    refine ⟨?_, hlast, ?_⟩
    · show (call s c).1 :: (inTurn call (call s c).2 cs).1 = _
      rw [hanswer, hanswers, List.map_cons]
    · show values (inTurn call (call s c).2 cs).2 = _
      rw [hall, hvalues, List.foldl_cons]

end Places

end Seismic
