import Seismic.Json.Text
import Seismic.Proofs.Json.Token

/-!
# Values that read back

Tokens of which no two numbers are neighbours read back from their text, and the tokens of a
value are such tokens.  The value they make is the value they were made of, so reading undoes
writing for every value whose numbers and texts have a written form.
-/

namespace Seismic
namespace Json

namespace Token

/-! ## Tokens side by side -/

/-- Tokens with a text each, of which no two numbers are neighbours. -/
def Separated : List Token → Prop
  | [] => True
  | t :: ts => t.Writable ∧ (t.IsNumber → ∀ u ∈ ts.head?, ¬ u.IsNumber) ∧ Separated ts

theorem exists_write {t : Token} (ht : t.Writable) :
    ∃ c text, t.write = c :: text ∧ isSpace c = false := by
  cases t with
  | number n =>
    obtain ⟨c, text, htext, hc⟩ := exists_writeNumeral ht
    refine ⟨c, text, htext, ?_⟩
    rcases hc with rfl | hc
    · rfl
    · by_contra hspace
      simp only [isSpace, Bool.not_eq_false, Bool.or_eq_true, beq_iff_eq] at hspace
      rcases hspace with ((rfl | rfl) | rfl) | rfl <;> exact absurd hc (by decide)
  | text s =>
    obtain ⟨s, rfl⟩ := Option.isSome_iff_exists.mp ht
    exact ⟨_, _, rfl, rfl⟩
  | _ => exact ⟨_, _, rfl, rfl⟩

theorem ends_write {t : Token} (ht : t.Writable) (hnumber : ¬ t.IsNumber) (rest : List Char) :
    Ends (t.write ++ rest) := by
  cases t with
  | number n => exact absurd trivial hnumber
  | text s =>
    obtain ⟨s, rfl⟩ := Option.isSome_iff_exists.mp ht
    rintro c ⟨⟩
    decide
  | _ =>
    rintro c ⟨⟩
    decide

theorem Separated.ends {ts : List Token} (h : Separated ts)
    (hhead : ∀ u ∈ ts.head?, ¬ u.IsNumber) : Ends (ts.flatMap write) := by
  cases ts with
  | nil => rintro c ⟨⟩
  | cons t ts => exact ends_write h.1 (hhead t rfl) _

theorem Separated.length_le {ts : List Token} (h : Separated ts) :
    ts.length ≤ (ts.flatMap write).length := by
  induction ts with
  | nil => exact Nat.le_refl 0
  | cons t ts ih =>
    obtain ⟨c, text, htext, -⟩ := exists_write h.1
    have hle := ih h.2.2
    rw [List.flatMap_cons, List.length_append, htext, List.length_cons, List.length_cons]
    omega

theorem readFrom_flatMap {ts : List Token} (h : Separated ts) {steps : Nat}
    (hsteps : ts.length ≤ steps) : readFrom steps (ts.flatMap write) = some ts := by
  induction ts generalizing steps with
  | nil => cases steps <;> rfl
  | cons t ts ih =>
    obtain ⟨steps, rfl⟩ := Nat.exists_eq_add_one.mpr (Nat.lt_of_lt_of_le (Nat.succ_pos _) hsteps)
    obtain ⟨c, text, htext, hc⟩ := exists_write h.1
    have hnext : next? (t.write ++ ts.flatMap write) = some (t, ts.flatMap write) :=
      next?_write h.1 fun hnumber => h.2.2.ends (h.2.1 hnumber)
    rw [htext, List.cons_append] at hnext
    rw [List.flatMap_cons, htext, List.cons_append, readFrom,
      List.dropWhile_cons_of_neg (by rw [hc]; exact Bool.false_ne_true)]
    dsimp only
    rw [hnext]
    dsimp only
    rw [ih h.2.2 (Nat.le_of_succ_le_succ hsteps)]
    rfl

theorem read?_flatMap {ts : List Token} (h : Separated ts) : read? (ts.flatMap write) = some ts :=
  readFrom_flatMap h h.length_le

end Token

open Token (openBracket closeBracket openBrace closeBrace comma colon Separated)

/-! ## The tokens of a value -/

/-- Values whose numbers and texts have a written form. -/
inductive Writable : Json → Prop
  | null : Writable null
  | bool (b : Bool) : Writable (bool b)
  | number {n : Numeral} (h : n.WellFormed) : Writable (number n)
  | text (s : String) : Writable (text (some s))
  | array {items : List Json} (h : ∀ v ∈ items, Writable v) : Writable (array items)
  | object {members : List (Option String × Json)}
      (hnames : ∀ m ∈ members, m.1.isSome) (h : ∀ m ∈ members, Writable m.2) :
      Writable (object members)

theorem itemTokens_cons_cons (v w : Json) (items : List Json) :
    itemTokens (v :: w :: items) = v.tokens ++ comma :: itemTokens (w :: items) := by
  rw [itemTokens]
  simp

theorem memberTokens_cons_cons (name : Option String) (v : Json) (m : Option String × Json)
    (members : List (Option String × Json)) :
    memberTokens ((name, v) :: m :: members) =
      .text name :: colon :: v.tokens ++ comma :: memberTokens (m :: members) := by
  rw [memberTokens]
  simp

/-- Tokens that may follow the tokens of a value. -/
def Follows (ts : List Token) : Prop := Separated ts ∧ ∀ u ∈ ts.head?, ¬ u.IsNumber

theorem Follows.cons {t : Token} (ht : t.Writable) (hnumber : ¬ t.IsNumber) {ts : List Token}
    (h : Separated ts) : Follows (t :: ts) :=
  ⟨⟨ht, fun hn => absurd hn hnumber, h⟩, by
    rintro u ⟨rfl⟩
    exact hnumber⟩

theorem separated_items {items : List Json}
    (h : ∀ v ∈ items, ∀ ts, Follows ts → Separated (v.tokens ++ ts)) {ts : List Token}
    (hts : Follows ts) : Separated (itemTokens items ++ ts) := by
  induction items with
  | nil => exact hts.1
  | cons v items ih =>
    have hv := h v List.mem_cons_self
    cases items with
    | nil => exact hv ts hts
    | cons w items =>
      have hrest := ih fun u hu => h u (List.mem_cons_of_mem v hu)
      rw [itemTokens_cons_cons, List.append_assoc]
      exact hv _ (.cons (t := comma) trivial id hrest)

theorem separated_members {members : List (Option String × Json)}
    (hnames : ∀ m ∈ members, m.1.isSome)
    (h : ∀ m ∈ members, ∀ ts, Follows ts → Separated (m.2.tokens ++ ts)) {ts : List Token}
    (hts : Follows ts) : Separated (memberTokens members ++ ts) := by
  induction members with
  | nil => exact hts.1
  | cons m members ih =>
    obtain ⟨name, v⟩ := m
    have hname : name.isSome := hnames _ List.mem_cons_self
    have hv := h _ List.mem_cons_self
    have hfront : ∀ ts, Follows ts → Separated (.text name :: colon :: v.tokens ++ ts) :=
      fun ts hts => (Follows.cons (t := .text name) hname id
        (Follows.cons (t := colon) trivial id (hv ts hts)).1).1
    cases members with
    | nil => exact hfront ts hts
    | cons m' members =>
      have hrest := ih (fun m hm => hnames m (List.mem_cons_of_mem _ hm))
        fun m hm => h m (List.mem_cons_of_mem _ hm)
      rw [memberTokens_cons_cons, List.append_assoc]
      exact hfront _ (.cons (t := comma) trivial id hrest)

theorem Writable.separated {v : Json} (h : v.Writable) :
    ∀ ts, Follows ts → Separated (v.tokens ++ ts) := by
  induction h with
  | null => exact fun ts hts => (Follows.cons (t := .null) trivial id hts.1).1
  | bool b =>
    intro ts hts
    cases b
    · exact (Follows.cons (t := .no) trivial id hts.1).1
    · exact (Follows.cons (t := .yes) trivial id hts.1).1
  | number hn => exact fun ts hts => ⟨hn, fun _ => hts.2, hts.1⟩
  | text s => exact fun ts hts => (Follows.cons (t := .text (some s)) rfl id hts.1).1
  | @array items _ ih =>
    intro ts hts
    rw [tokens, List.append_assoc]
    exact (Follows.cons (t := openBracket) trivial id
      (separated_items ih (.cons (t := closeBracket) trivial id hts.1))).1
  | @object members hnames _ ih =>
    intro ts hts
    rw [tokens, List.append_assoc]
    exact (Follows.cons (t := openBrace) trivial id
      (separated_members hnames ih (.cons (t := closeBrace) trivial id hts.1))).1

/-! ## The value of its tokens -/

theorem exists_tokens (v : Json) : ∃ t ts, v.tokens = t :: ts ∧ t ≠ closeBracket := by
  cases v with
  | bool b => cases b <;> exact ⟨_, _, rfl, by simp⟩
  | _ => exact ⟨_, _, rfl, by simp⟩

/-- The tokens of a value at the head of others make the value.  A step is enough for a
bracket and a step for a value or separator in it. -/
def Reads (v : Json) : Prop :=
  ∀ depth rest, 2 * v.tokens.length ≤ depth → value? depth (v.tokens ++ rest) = some (v, rest)

theorem items?_tokens {items : List Json} (hne : items ≠ []) (h : ∀ v ∈ items, Reads v)
    {depth : Nat} (rest : List Token) (hdepth : 2 * (itemTokens items).length + 1 ≤ depth) :
    items? depth (itemTokens items ++ closeBracket :: rest) = some (items, rest) := by
  induction items generalizing depth with
  | nil => exact absurd rfl hne
  | cons v items ih =>
    -- The same depth is left for the first value and for the others.
    obtain ⟨depth, rfl⟩ := Nat.exists_eq_add_one.mpr (Nat.lt_of_lt_of_le (Nat.succ_pos _) hdepth)
    have hv := h v List.mem_cons_self depth
    cases items with
    | nil =>
      rw [itemTokens] at hdepth ⊢
      rw [items?, hv _ (by omega)]
    | cons w items =>
      have hrest : 2 * (itemTokens (w :: items)).length + 1 ≤ depth →
          items? depth (itemTokens (w :: items) ++ closeBracket :: rest) =
            some (w :: items, rest) :=
        ih (List.cons_ne_nil _ _) fun u hu => h u (List.mem_cons_of_mem v hu)
      rw [itemTokens_cons_cons, List.length_append, List.length_cons] at hdepth
      rw [itemTokens_cons_cons, List.append_assoc, List.cons_append, items?, hv _ (by omega)]
      dsimp only
      rw [hrest (by omega)]
      rfl

theorem members?_tokens {members : List (Option String × Json)} (hne : members ≠ [])
    (h : ∀ m ∈ members, Reads m.2) {depth : Nat} (rest : List Token)
    (hdepth : 2 * (memberTokens members).length + 1 ≤ depth) :
    members? depth (memberTokens members ++ closeBrace :: rest) = some (members, rest) := by
  induction members generalizing depth with
  | nil => exact absurd rfl hne
  | cons m members ih =>
    obtain ⟨name, v⟩ := m
    obtain ⟨depth, rfl⟩ := Nat.exists_eq_add_one.mpr (Nat.lt_of_lt_of_le (Nat.succ_pos _) hdepth)
    have hv : ∀ rest, 2 * v.tokens.length ≤ depth →
        value? depth (v.tokens ++ rest) = some (v, rest) := h _ List.mem_cons_self depth
    cases members with
    | nil =>
      rw [memberTokens, List.length_cons, List.length_cons] at hdepth
      rw [memberTokens, List.cons_append, List.cons_append, members?, hv _ (by omega)]
    | cons m' members =>
      have hrest : 2 * (memberTokens (m' :: members)).length + 1 ≤ depth →
          members? depth (memberTokens (m' :: members) ++ closeBrace :: rest) =
            some (m' :: members, rest) :=
        ih (List.cons_ne_nil _ _) fun m hm => h m (List.mem_cons_of_mem _ hm)
      rw [memberTokens_cons_cons, List.length_append, List.length_cons, List.length_cons,
        List.length_cons] at hdepth
      rw [memberTokens_cons_cons, List.append_assoc, List.cons_append, List.cons_append,
        List.cons_append, members?, hv _ (by omega)]
      dsimp only
      rw [hrest (by omega)]
      rfl

theorem value?_array {depth : Nat} {t : Token} (ht : t ≠ closeBracket) (ts : List Token) :
    value? (depth + 1) (openBracket :: t :: ts) =
      (items? depth (t :: ts)).map fun (items, rest) => (array items, rest) := by
  rw [value?]
  rintro rest ⟨⟩
  exact ht rfl

theorem value?_object {depth : Nat} {t : Token} (ht : t ≠ closeBrace) (ts : List Token) :
    value? (depth + 1) (openBrace :: t :: ts) =
      (members? depth (t :: ts)).map fun (members, rest) => (object members, rest) := by
  rw [value?]
  rintro rest ⟨⟩
  exact ht rfl

theorem reads_array {items : List Json} (h : ∀ v ∈ items, Reads v) : Reads (array items) := by
  intro depth rest hdepth
  rw [tokens, List.length_append, List.length_cons, List.length_singleton] at hdepth
  obtain ⟨depth, rfl⟩ : ∃ k, depth = k + 1 := ⟨depth - 1, by omega⟩
  rw [tokens, List.append_assoc, List.cons_append, List.singleton_append]
  cases items with
  | nil => rfl
  | cons v items =>
    have hitems : items? depth (itemTokens (v :: items) ++ closeBracket :: rest) =
        some (v :: items, rest) := items?_tokens (List.cons_ne_nil v items) h rest (by omega)
    obtain ⟨t, ts, hts, ht⟩ : ∃ t ts, itemTokens (v :: items) = t :: ts ∧ t ≠ closeBracket := by
      obtain ⟨t, ts, hts, ht⟩ := exists_tokens v
      cases items with
      | nil => exact ⟨t, ts, hts, ht⟩
      | cons w items =>
        rw [itemTokens_cons_cons, hts]
        exact ⟨t, _, rfl, ht⟩
    rw [hts, List.cons_append] at hitems ⊢
    rw [value?_array ht, hitems]
    rfl

theorem reads_object {members : List (Option String × Json)} (h : ∀ m ∈ members, Reads m.2) :
    Reads (object members) := by
  intro depth rest hdepth
  rw [tokens, List.length_append, List.length_cons, List.length_singleton] at hdepth
  obtain ⟨depth, rfl⟩ : ∃ k, depth = k + 1 := ⟨depth - 1, by omega⟩
  rw [tokens, List.append_assoc, List.cons_append, List.singleton_append]
  cases members with
  | nil => rfl
  | cons m members =>
    have hmembers : members? depth (memberTokens (m :: members) ++ closeBrace :: rest) =
        some (m :: members, rest) :=
      members?_tokens (List.cons_ne_nil m members) h rest (by omega)
    obtain ⟨ts, hts⟩ : ∃ ts, memberTokens (m :: members) = .text m.1 :: ts := by
      cases members with
      | nil => exact ⟨_, rfl⟩
      | cons m' members => exact ⟨_, memberTokens_cons_cons _ _ _ _⟩
    rw [hts, List.cons_append] at hmembers ⊢
    rw [value?_object (by simp), hmembers]
    rfl

theorem Writable.reads {v : Json} (h : v.Writable) : Reads v := by
  induction h with
  | array _ ih => exact reads_array ih
  | object _ _ ih => exact reads_object ih
  | bool b =>
    intro depth rest hdepth
    obtain ⟨depth, rfl⟩ := Nat.exists_eq_add_one.mpr (Nat.lt_of_lt_of_le (Nat.succ_pos _) hdepth)
    cases b <;> rfl
  | _ =>
    intro depth rest hdepth
    obtain ⟨depth, rfl⟩ := Nat.exists_eq_add_one.mpr (Nat.lt_of_lt_of_le (Nat.succ_pos _) hdepth)
    rfl

/-- Reading undoes writing. -/
theorem parse?_render {v : Json} (h : v.Writable) : parse? v.render = some v := by
  have hseparated := h.separated [] ⟨trivial, by rintro u ⟨⟩⟩
  have hreads := h.reads (2 * v.tokens.length + 1) [] (by omega)
  rw [List.append_nil] at hseparated hreads
  unfold parse? render
  rw [String.toList_ofList, Token.read?_flatMap hseparated]
  show ofTokens? v.tokens = _
  unfold ofTokens?
  rw [hreads]

end Json
end Seismic
