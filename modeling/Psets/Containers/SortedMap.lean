/-
Maps as lists sorted by key.

The entries carry the proof that their keys increase, so a map has one
representation and is determined by what `find?` returns.
-/
import Mathlib.Data.List.Basic
import Mathlib.Order.Lattice

namespace Psets

/-- A finite map whose entries are kept in key order. -/
structure SortedMap (K V : Type) [LinearOrder K] where
  entries : List (K × V)
  sorted : entries.Pairwise fun a b => a.1 < b.1

namespace SortedMap

variable {K V : Type} [LinearOrder K]

/-! ## Sorted lists of entries -/

def findEntry (k : K) : List (K × V) → Option V
  | [] => none
  | (k', v) :: rest => if k' = k then some v else findEntry k rest

/-- Put `v` at `k`, in place of what is there. -/
def insertEntry (k : K) (v : V) : List (K × V) → List (K × V)
  | [] => [(k, v)]
  | (k', v') :: rest =>
    if k < k' then (k, v) :: (k', v') :: rest
    else if k = k' then (k, v) :: rest
    else (k', v') :: insertEntry k v rest

def eraseEntry (k : K) : List (K × V) → List (K × V)
  | [] => []
  | (k', v) :: rest => if k' = k then rest else (k', v) :: eraseEntry k rest

theorem fst_of_mem_insertEntry {k : K} {v : V} {l : List (K × V)} {a : K × V}
    (h : a ∈ insertEntry k v l) : a.1 = k ∨ a ∈ l := by
  induction l with
  | nil =>
    rw [insertEntry, List.mem_singleton] at h
    exact Or.inl (by rw [h])
  | cons b rest ih =>
    obtain ⟨k', v'⟩ := b
    rw [insertEntry] at h
    by_cases hlt : k < k'
    · rw [if_pos hlt] at h
      rcases List.mem_cons.1 h with rfl | h
      · exact Or.inl rfl
      · exact Or.inr h
    · rw [if_neg hlt] at h
      by_cases he : k = k'
      · rw [if_pos he] at h
        rcases List.mem_cons.1 h with rfl | h
        · exact Or.inl rfl
        · exact Or.inr (List.mem_cons_of_mem _ h)
      · rw [if_neg he] at h
        rcases List.mem_cons.1 h with rfl | h
        · exact Or.inr List.mem_cons_self
        · exact (ih h).imp id (List.mem_cons_of_mem _)

theorem sorted_insertEntry {k : K} (v : V) {l : List (K × V)}
    (h : l.Pairwise fun a b => a.1 < b.1) :
    (insertEntry k v l).Pairwise fun a b => a.1 < b.1 := by
  induction l with
  | nil => exact List.pairwise_singleton _ _
  | cons b rest ih =>
    obtain ⟨k', v'⟩ := b
    obtain ⟨hb, hrest⟩ := List.pairwise_cons.1 h
    rw [insertEntry]
    by_cases hlt : k < k'
    · rw [if_pos hlt]
      refine List.pairwise_cons.2 ⟨fun a ha => ?_, h⟩
      rcases List.mem_cons.1 ha with rfl | ha
      · exact hlt
      · exact lt_trans hlt (hb a ha)
    · rw [if_neg hlt]
      by_cases he : k = k'
      · rw [if_pos he]
        subst he
        exact List.pairwise_cons.2 ⟨fun a ha => hb a ha, hrest⟩
      · rw [if_neg he]
        refine List.pairwise_cons.2 ⟨fun a ha => ?_, ih hrest⟩
        rcases fst_of_mem_insertEntry ha with hk | ha
        · rw [hk]
          exact lt_of_le_of_ne (not_lt.1 hlt) (Ne.symm he)
        · exact hb a ha

theorem mem_of_mem_eraseEntry {k : K} {l : List (K × V)} {a : K × V}
    (h : a ∈ eraseEntry k l) : a ∈ l := by
  induction l with
  | nil => exact h
  | cons b rest ih =>
    obtain ⟨k', v'⟩ := b
    rw [eraseEntry] at h
    by_cases he : k' = k
    · rw [if_pos he] at h
      exact List.mem_cons_of_mem _ h
    · rw [if_neg he] at h
      rcases List.mem_cons.1 h with rfl | h
      · exact List.mem_cons_self
      · exact List.mem_cons_of_mem _ (ih h)

theorem sorted_eraseEntry (k : K) {l : List (K × V)} (h : l.Pairwise fun a b => a.1 < b.1) :
    (eraseEntry k l).Pairwise fun a b => a.1 < b.1 := by
  induction l with
  | nil => exact h
  | cons b rest ih =>
    obtain ⟨k', v'⟩ := b
    obtain ⟨hb, hrest⟩ := List.pairwise_cons.1 h
    rw [eraseEntry]
    by_cases he : k' = k
    · rw [if_pos he]
      exact hrest
    · rw [if_neg he]
      exact List.pairwise_cons.2 ⟨fun a ha => hb a (mem_of_mem_eraseEntry ha), ih hrest⟩

theorem findEntry_insertEntry (k : K) (v : V) (l : List (K × V)) (k' : K) :
    findEntry k' (insertEntry k v l) = if k' = k then some v else findEntry k' l := by
  induction l with
  | nil =>
    simp only [insertEntry, findEntry]
    by_cases he : k' = k
    · rw [if_pos he, if_pos he.symm]
    · rw [if_neg he, if_neg (Ne.symm he)]
  | cons b rest ih =>
    obtain ⟨k₁, v₁⟩ := b
    rw [insertEntry]
    by_cases hlt : k < k₁
    · rw [if_pos hlt, findEntry]
      by_cases he : k' = k
      · rw [if_pos he, if_pos he.symm]
      · rw [if_neg he, if_neg (Ne.symm he)]
    · rw [if_neg hlt]
      by_cases he : k = k₁
      · subst he
        rw [if_pos rfl, findEntry]
        by_cases he' : k' = k
        · rw [if_pos he', if_pos he'.symm]
        · rw [if_neg he', if_neg (Ne.symm he'), findEntry, if_neg (Ne.symm he')]
      · rw [if_neg he, findEntry, findEntry, ih]
        by_cases h₁ : k₁ = k'
        · rw [if_pos h₁, if_pos h₁, if_neg fun h => he (h.symm.trans h₁.symm)]
        · rw [if_neg h₁, if_neg h₁]

theorem mem_iff_findEntry {l : List (K × V)} (h : l.Pairwise fun a b => a.1 < b.1) {k : K}
    {v : V} : (k, v) ∈ l ↔ findEntry k l = some v := by
  induction l with
  | nil => simp [findEntry]
  | cons b rest ih =>
    obtain ⟨k', v'⟩ := b
    obtain ⟨hb, hrest⟩ := List.pairwise_cons.1 h
    rw [List.mem_cons, findEntry, ih hrest]
    by_cases he : k' = k
    · subst he
      rw [if_pos rfl]
      constructor
      · rintro (h | h)
        · rw [(Prod.mk.inj h).2]
        · exact absurd (hb _ ((ih hrest).2 h)) (lt_irrefl _)
      · intro h
        rw [Option.some.inj h]
        exact Or.inl rfl
    · rw [if_neg he]
      constructor
      · rintro (h | h)
        · exact absurd (Prod.mk.inj h).1.symm he
        · exact h
      · exact Or.inr

theorem findEntry_eraseEntry {l : List (K × V)} (h : l.Pairwise fun a b => a.1 < b.1)
    (k k' : K) :
    findEntry k' (eraseEntry k l) = if k' = k then none else findEntry k' l := by
  induction l with
  | nil => rw [eraseEntry, findEntry, ite_self]
  | cons b rest ih =>
    obtain ⟨k₁, v₁⟩ := b
    obtain ⟨hb, hrest⟩ := List.pairwise_cons.1 h
    rw [eraseEntry]
    by_cases he : k₁ = k
    · subst he
      rw [if_pos rfl, findEntry]
      by_cases hk : k' = k₁
      · subst hk
        rw [if_pos rfl]
        rcases hf : findEntry k' rest with _ | v
        · rfl
        · exact absurd (hb _ ((mem_iff_findEntry hrest).2 hf)) (lt_irrefl _)
      · rw [if_neg hk, if_neg (Ne.symm hk)]
    · rw [if_neg he, findEntry, findEntry, ih hrest]
      by_cases h₁ : k₁ = k'
      · rw [if_pos h₁, if_pos h₁, if_neg fun h => he (h₁.trans h)]
      · rw [if_neg h₁, if_neg h₁]

theorem eraseEntry_of_findEntry {k : K} {l : List (K × V)} (h : findEntry k l = none) :
    eraseEntry k l = l := by
  induction l with
  | nil => rfl
  | cons b rest ih =>
    obtain ⟨k', v'⟩ := b
    rw [findEntry] at h
    by_cases he : k' = k
    · rw [if_pos he] at h
      cases h
    · rw [if_neg he] at h
      rw [eraseEntry, if_neg he, ih h]

/-! ## Walking two lists -/

section

variable (differs : K → Option V → Option V → Bool)

/-- Walk past the entries below `k`, then see about `k` and go on with `rest`. -/
def mergeEntry (k : K) (v : V) (rest : List (K × V) → Option K) : List (K × V) → Option K
  | [] => if differs k (some v) none then some k else rest []
  | (k', v') :: r =>
    if k < k' then if differs k (some v) none then some k else rest ((k', v') :: r)
    else if k' < k then
      if differs k' none (some v') then some k' else mergeEntry k v rest r
    else if differs k (some v) (some v') then some k else rest r

/-- Walk two sorted lists together, up to the first key at which `differs` holds of
what they have there. -/
def mergeFind : List (K × V) → List (K × V) → Option K
  | [], r => (r.find? fun e => differs e.1 none (some e.2)).map Prod.fst
  | (k, v) :: l, r => mergeEntry differs k v (mergeFind l) r

/-- `differs` holds at no key of the lists. -/
def Agree (l r : List (K × V)) : Prop :=
  ∀ k, findEntry k l ≠ none ∨ findEntry k r ≠ none →
    differs k (findEntry k l) (findEntry k r) = false

variable {differs}

theorem findEntry_of_lt {k : K} {l : List (K × V)} (h : ∀ e ∈ l, k < e.1) :
    findEntry k l = none := by
  induction l with
  | nil => rfl
  | cons e l ih =>
    rw [findEntry, if_neg (ne_of_gt (h e List.mem_cons_self))]
    exact ih fun e' he' => h e' (List.mem_cons_of_mem e he')

/-- Two heads with one key. -/
theorem agree_cons_both {k : K} {v v' : V} {l r : List (K × V)} (hl : ∀ e ∈ l, k < e.1)
    (hr : ∀ e ∈ r, k < e.1) : Agree differs ((k, v) :: l) ((k, v') :: r) ↔
      differs k (some v) (some v') = false ∧ Agree differs l r := by
  have hhead : ∀ (w : V) (m : List (K × V)), findEntry k ((k, w) :: m) = some w :=
    fun w m => if_pos rfl
  have htail : ∀ {k' : K} (w : V) (m : List (K × V)), k' ≠ k →
      findEntry k' ((k, w) :: m) = findEntry k' m := fun w m hk => if_neg (Ne.symm hk)
  constructor
  · intro h
    refine ⟨?_, fun k' hk' => ?_⟩
    · have hk := h k (Or.inl (by rw [hhead]; exact Option.some_ne_none v))
      rwa [hhead, hhead] at hk
    · have hne : k' ≠ k := by
        rintro rfl
        rw [findEntry_of_lt hl, findEntry_of_lt hr] at hk'
        rcases hk' with hk' | hk' <;> exact hk' rfl
      have hold := h k'
      rw [htail v l hne, htail v' r hne] at hold
      exact hold hk'
  · rintro ⟨hk, h⟩ k' hk'
    by_cases hne : k' = k
    · rw [hne, hhead, hhead]
      exact hk
    · rw [htail v l hne, htail v' r hne] at hk' ⊢
      exact h k' hk'

/-- The left list has the lower head. -/
theorem agree_cons_left {k : K} {v : V} {l r : List (K × V)} (hl : ∀ e ∈ l, k < e.1)
    (hr : ∀ e ∈ r, k < e.1) : Agree differs ((k, v) :: l) r ↔
      differs k (some v) none = false ∧ Agree differs l r := by
  have htail : ∀ {k' : K}, k' ≠ k → findEntry k' ((k, v) :: l) = findEntry k' l :=
    fun hk => if_neg (Ne.symm hk)
  have hhead : findEntry k ((k, v) :: l) = some v := if_pos rfl
  constructor
  · intro h
    refine ⟨?_, fun k' hk' => ?_⟩
    · have hk := h k (Or.inl (by rw [hhead]; exact Option.some_ne_none v))
      rwa [hhead, findEntry_of_lt hr] at hk
    · have hne : k' ≠ k := by
        rintro rfl
        rw [findEntry_of_lt hl, findEntry_of_lt hr] at hk'
        rcases hk' with hk' | hk' <;> exact hk' rfl
      have hold := h k'
      rw [htail hne] at hold
      exact hold hk'
  · rintro ⟨hk, h⟩ k' hk'
    by_cases hne : k' = k
    · rw [hne, hhead, findEntry_of_lt hr]
      exact hk
    · rw [htail hne] at hk' ⊢
      exact h k' hk'

theorem agree_swap {l r : List (K × V)} :
    Agree differs l r ↔ Agree (fun k a b => differs k b a) r l :=
  ⟨fun h k hk => h k hk.symm, fun h k hk => h k hk.symm⟩

/-- The right list has the lower head. -/
theorem agree_cons_right {k : K} {v : V} {l r : List (K × V)} (hl : ∀ e ∈ l, k < e.1)
    (hr : ∀ e ∈ r, k < e.1) : Agree differs l ((k, v) :: r) ↔
      differs k none (some v) = false ∧ Agree differs l r := by
  rw [agree_swap, agree_cons_left hr hl, ← agree_swap]

theorem agree_nil : Agree differs [] ([] : List (K × V)) := by
  rintro k (hk | hk) <;> exact absurd rfl hk

theorem mergeFind_nil {r : List (K × V)} (hr : r.Pairwise fun a b => a.1 < b.1) :
    mergeFind differs [] r = none ↔ Agree differs [] r := by
  induction r with
  | nil => exact iff_of_true rfl agree_nil
  | cons e r ih =>
    obtain ⟨k, v⟩ := e
    obtain ⟨hbelow, hrest⟩ := List.pairwise_cons.1 hr
    rw [agree_cons_right (by simp) hbelow, ← ih hrest]
    simp only [mergeFind, Option.map_eq_none_iff, List.find?_cons]
    cases differs k none (some v) <;> simp

theorem mergeEntry_eq_none {k : K} {v : V} {l r : List (K × V)}
    (ih : ∀ r : List (K × V), (r.Pairwise fun a b => a.1 < b.1) →
      (mergeFind differs l r = none ↔ Agree differs l r))
    (hl : ∀ e ∈ l, k < e.1) (hr : r.Pairwise fun a b => a.1 < b.1) :
    mergeEntry differs k v (mergeFind differs l) r = none ↔ Agree differs ((k, v) :: l) r := by
  induction r with
  | nil =>
    rw [agree_cons_left hl (by simp), ← ih [] List.Pairwise.nil, mergeEntry]
    cases differs k (some v) none <;> simp
  | cons e r ihr =>
    obtain ⟨k', v'⟩ := e
    obtain ⟨hbelow, hrest⟩ := List.pairwise_cons.1 hr
    rw [mergeEntry]
    by_cases hlt : k < k'
    · have habove : ∀ e ∈ (k', v') :: r, k < e.1 := by
        intro e he
        rcases List.mem_cons.1 he with rfl | he
        · exact hlt
        · exact lt_trans hlt (hbelow e he)
      rw [if_pos hlt, agree_cons_left hl habove, ← ih _ hr]
      cases differs k (some v) none <;> simp
    · rw [if_neg hlt]
      by_cases hgt : k' < k
      · have habove : ∀ e ∈ (k, v) :: l, k' < e.1 := by
          intro e he
          rcases List.mem_cons.1 he with rfl | he
          · exact hgt
          · exact lt_trans hgt (hl e he)
        rw [if_pos hgt, agree_cons_right habove hbelow, ← ihr hrest]
        cases differs k' none (some v') <;> simp
      · obtain rfl : k' = k := le_antisymm (not_lt.1 hlt) (not_lt.1 hgt)
        rw [if_neg hgt, agree_cons_both hl hbelow, ← ih r hrest]
        cases differs k' (some v) (some v') <;> simp

/-- The walk ends without a key when there is none at which `differs` holds. -/
theorem mergeFind_eq_none {l r : List (K × V)} (hl : l.Pairwise fun a b => a.1 < b.1)
    (hr : r.Pairwise fun a b => a.1 < b.1) :
    mergeFind differs l r = none ↔ Agree differs l r := by
  induction l generalizing r with
  | nil => exact mergeFind_nil hr
  | cons e l ih =>
    obtain ⟨hbelow, hrest⟩ := List.pairwise_cons.1 hl
    exact mergeEntry_eq_none (fun r hr => ih hrest hr) hbelow hr

/-! ### The key that the walk returns -/

/-- `differs`, asked about the keys with the property `p` only. -/
def onlyAt (differs : K → Option V → Option V → Bool) (p : K → Bool) :
    K → Option V → Option V → Bool :=
  fun k a b => p k && differs k a b

/-- The walk returns `k`: it is the first key at which `differs` holds. -/
def First (differs : K → Option V → Option V → Bool) (k : K) (l r : List (K × V)) : Prop :=
  ¬ Agree (onlyAt differs fun k' => decide (k' = k)) l r ∧
    Agree (onlyAt differs fun k' => decide (k' < k)) l r

/-- No key below `k` is stored. -/
theorem agree_below {k : K} {l r : List (K × V)} (hl : ∀ e ∈ l, k < e.1)
    (hr : ∀ e ∈ r, k < e.1) : Agree (onlyAt differs fun k' => decide (k' < k)) l r := by
  intro k' hk'
  rw [onlyAt, Bool.and_eq_false_iff, decide_eq_false_iff_not]
  refine Or.inl fun hlt => ?_
  rw [findEntry_of_lt fun e he => lt_trans hlt (hl e he),
    findEntry_of_lt fun e he => lt_trans hlt (hr e he)] at hk'
  rcases hk' with hk' | hk' <;> exact hk' rfl

/-- An entry in front that is in order. -/
theorem First.of_false {k k' : K} {a b : Option V} {l r l' r' : List (K × V)}
    (hcons : ∀ D : K → Option V → Option V → Bool,
      Agree D l' r' ↔ D k' a b = false ∧ Agree D l r)
    (hfalse : differs k' a b = false) (h : First differs k l r) : First differs k l' r' := by
  refine ⟨fun hagree => h.1 ((hcons _).1 hagree).2, (hcons _).2 ⟨?_, h.2⟩⟩
  rw [onlyAt, hfalse, Bool.and_false]

/-- An entry in front that is the one. -/
theorem First.of_true {k : K} {a b : Option V} {l r l' r' : List (K × V)}
    (hcons : ∀ D : K → Option V → Option V → Bool,
      Agree D l' r' ↔ D k a b = false ∧ Agree D l r)
    (htrue : differs k a b = true) (hl : ∀ e ∈ l, k < e.1) (hr : ∀ e ∈ r, k < e.1) :
    First differs k l' r' := by
  constructor
  · intro hagree
    have hhead := ((hcons _).1 hagree).1
    rw [onlyAt, htrue, decide_eq_true rfl] at hhead
    cases hhead
  · refine (hcons _).2 ⟨?_, agree_below hl hr⟩
    rw [onlyAt, decide_eq_false (lt_irrefl k), Bool.false_and]

theorem mergeFind_nil_some {r : List (K × V)} {k : K} (hr : r.Pairwise fun a b => a.1 < b.1)
    (h : mergeFind differs [] r = some k) : First differs k [] r := by
  induction r with
  | nil => cases h
  | cons e r ih =>
    obtain ⟨k', v'⟩ := e
    obtain ⟨hbelow, hrest⟩ := List.pairwise_cons.1 hr
    have hcons : ∀ D, Agree D [] ((k', v') :: r) ↔ D k' none (some v') = false ∧ Agree D [] r :=
      fun _ => agree_cons_right (by simp) hbelow
    simp only [mergeFind, List.find?_cons] at h
    cases hd : differs k' none (some v') with
    | true =>
      rw [hd] at h
      obtain rfl : k' = k := Option.some.inj h
      exact First.of_true hcons hd (by simp) hbelow
    | false =>
      rw [hd] at h
      exact First.of_false hcons hd (ih hrest h)

theorem mergeEntry_some {k k₁ : K} {v : V} {l r : List (K × V)}
    (ih : ∀ r : List (K × V), (r.Pairwise fun a b => a.1 < b.1) →
      mergeFind differs l r = some k₁ → First differs k₁ l r)
    (hl : ∀ e ∈ l, k < e.1) (hr : r.Pairwise fun a b => a.1 < b.1)
    (h : mergeEntry differs k v (mergeFind differs l) r = some k₁) :
    First differs k₁ ((k, v) :: l) r := by
  induction r with
  | nil =>
    have hcons : ∀ D, Agree D ((k, v) :: l) [] ↔ D k (some v) none = false ∧ Agree D l [] :=
      fun _ => agree_cons_left hl (by simp)
    rw [mergeEntry] at h
    cases hd : differs k (some v) none with
    | true =>
      rw [hd, if_pos rfl] at h
      obtain rfl := Option.some.inj h
      exact First.of_true hcons hd hl (by simp)
    | false =>
      rw [hd, if_neg Bool.false_ne_true] at h
      exact First.of_false hcons hd (ih [] hr h)
  | cons e r ihr =>
    obtain ⟨k', v'⟩ := e
    obtain ⟨hbelow, hrest⟩ := List.pairwise_cons.1 hr
    rw [mergeEntry] at h
    by_cases hlt : k < k'
    · have habove : ∀ e ∈ (k', v') :: r, k < e.1 := by
        intro e he
        rcases List.mem_cons.1 he with rfl | he
        · exact hlt
        · exact lt_trans hlt (hbelow e he)
      have hcons : ∀ D, Agree D ((k, v) :: l) ((k', v') :: r) ↔
          D k (some v) none = false ∧ Agree D l ((k', v') :: r) :=
        fun _ => agree_cons_left hl habove
      rw [if_pos hlt] at h
      cases hd : differs k (some v) none with
      | true =>
        rw [hd, if_pos rfl] at h
        obtain rfl := Option.some.inj h
        exact First.of_true hcons hd hl habove
      | false =>
        rw [hd, if_neg Bool.false_ne_true] at h
        exact First.of_false hcons hd (ih _ hr h)
    · rw [if_neg hlt] at h
      by_cases hgt : k' < k
      · have habove : ∀ e ∈ (k, v) :: l, k' < e.1 := by
          intro e he
          rcases List.mem_cons.1 he with rfl | he
          · exact hgt
          · exact lt_trans hgt (hl e he)
        have hcons : ∀ D, Agree D ((k, v) :: l) ((k', v') :: r) ↔
            D k' none (some v') = false ∧ Agree D ((k, v) :: l) r :=
          fun _ => agree_cons_right habove hbelow
        rw [if_pos hgt] at h
        cases hd : differs k' none (some v') with
        | true =>
          rw [hd, if_pos rfl] at h
          obtain rfl := Option.some.inj h
          exact First.of_true hcons hd habove hbelow
        | false =>
          rw [hd, if_neg Bool.false_ne_true] at h
          exact First.of_false hcons hd (ihr hrest h)
      · obtain rfl : k' = k := le_antisymm (not_lt.1 hlt) (not_lt.1 hgt)
        have hcons : ∀ D, Agree D ((k', v) :: l) ((k', v') :: r) ↔
            D k' (some v) (some v') = false ∧ Agree D l r :=
          fun _ => agree_cons_both hl hbelow
        rw [if_neg hgt] at h
        cases hd : differs k' (some v) (some v') with
        | true =>
          rw [hd, if_pos rfl] at h
          obtain rfl := Option.some.inj h
          exact First.of_true hcons hd hl hbelow
        | false =>
          rw [hd, if_neg Bool.false_ne_true] at h
          exact First.of_false hcons hd (ih r hrest h)

theorem mergeFind_some {l r : List (K × V)} {k : K} (hl : l.Pairwise fun a b => a.1 < b.1)
    (hr : r.Pairwise fun a b => a.1 < b.1) (h : mergeFind differs l r = some k) :
    First differs k l r := by
  induction l generalizing r with
  | nil => exact mergeFind_nil_some hr h
  | cons e l ih =>
    obtain ⟨hbelow, hrest⟩ := List.pairwise_cons.1 hl
    exact mergeEntry_some (fun r hr h => ih hrest hr h) hbelow hr h

/-- The key is stored on one side at least, and `differs` holds there. -/
theorem First.holds {k : K} {l r : List (K × V)} (h : First differs k l r) :
    (findEntry k l ≠ none ∨ findEntry k r ≠ none) ∧
      differs k (findEntry k l) (findEntry k r) = true := by
  have hnot := h.1
  simp only [Agree, not_forall] at hnot
  obtain ⟨k', hk', hd⟩ := hnot
  simp only [onlyAt, Bool.not_eq_false, Bool.and_eq_true, decide_eq_true_eq] at hd
  obtain ⟨rfl, hd⟩ := hd
  exact ⟨hk', hd⟩

theorem First.unique {k k' : K} {l r : List (K × V)} (h : First differs k l r)
    (h' : First differs k' l r) : k = k' := by
  have hle : ∀ {k k' : K}, First differs k l r → First differs k' l r → ¬ k' < k := by
    intro k k' h h' hlt
    obtain ⟨hk', hd⟩ := h'.holds
    have hlow := h.2 k' hk'
    rw [onlyAt, hd, decide_eq_true hlt] at hlow
    cases hlow
  exact le_antisymm (not_lt.1 (hle h h')) (not_lt.1 (hle h' h))

theorem First.swap {k : K} {l r : List (K × V)} (h : First differs k l r) :
    First (fun k a b => differs k b a) k r l :=
  ⟨fun hagree => h.1 (agree_swap.2 hagree), agree_swap.1 h.2⟩

/-- The walk takes its key from what is stored, whichever list comes first. -/
theorem mergeFind_swap {l r : List (K × V)} (hl : l.Pairwise fun a b => a.1 < b.1)
    (hr : r.Pairwise fun a b => a.1 < b.1) :
    mergeFind (fun k a b => differs k b a) r l = mergeFind differs l r := by
  cases h : mergeFind differs l r with
  | none => exact (mergeFind_eq_none hr hl).2 (agree_swap.1 ((mergeFind_eq_none hl hr).1 h))
  | some k =>
    cases h' : mergeFind (fun k a b => differs k b a) r l with
    | none =>
      have hagree := agree_swap.2 ((mergeFind_eq_none hr hl).1 h')
      have hnone := (mergeFind_eq_none hl hr).2 hagree
      rw [h] at hnone
      cases hnone
    | some k' => rw [(mergeFind_some hr hl h').unique (mergeFind_some hl hr h).swap]

/-- Two walks that agree about the stored keys. -/
theorem mergeFind_congr {differs' : K → Option V → Option V → Bool} {l r : List (K × V)}
    (hl : l.Pairwise fun a b => a.1 < b.1) (hr : r.Pairwise fun a b => a.1 < b.1)
    (hsame : ∀ k, findEntry k l ≠ none ∨ findEntry k r ≠ none →
      differs k (findEntry k l) (findEntry k r) = differs' k (findEntry k l) (findEntry k r)) :
    mergeFind differs l r = mergeFind differs' l r := by
  have hagree : ∀ p : K → Bool,
      Agree (onlyAt differs p) l r ↔ Agree (onlyAt differs' p) l r := by
    intro p
    refine forall_congr' fun k => forall_congr' fun hk => ?_
    rw [onlyAt, onlyAt, hsame k hk]
  have hall : ∀ D : K → Option V → Option V → Bool, Agree D l r ↔
      Agree (onlyAt D fun _ => true) l r := fun D => Iff.rfl
  cases h : mergeFind differs l r with
  | none =>
    have hnone := (mergeFind_eq_none hl hr).1 h
    rw [hall, hagree, ← hall] at hnone
    exact ((mergeFind_eq_none hl hr).2 hnone).symm
  | some k =>
    obtain ⟨hat, hbelow⟩ := mergeFind_some hl hr h
    rw [hagree] at hat hbelow
    cases h' : mergeFind differs' l r with
    | none =>
      have hnone := (mergeFind_eq_none hl hr).1 h'
      refine absurd (fun k' hk' => ?_) hat
      rw [onlyAt, hnone k' hk', Bool.and_false]
    | some k' => rw [(mergeFind_some hl hr h').unique ⟨hat, hbelow⟩]

end

/-! ## Maps -/

def empty : SortedMap K V := ⟨[], List.Pairwise.nil⟩

instance : Inhabited (SortedMap K V) := ⟨empty⟩

instance [DecidableEq V] : DecidableEq (SortedMap K V) := fun a b =>
  decidable_of_iff (a.entries = b.entries)
    ⟨fun h => by cases a; cases b; simpa using h, fun h => h ▸ rfl⟩

def find? (m : SortedMap K V) (k : K) : Option V := findEntry k m.entries

def insert (m : SortedMap K V) (k : K) (v : V) : SortedMap K V :=
  ⟨insertEntry k v m.entries, sorted_insertEntry v m.sorted⟩

def erase (m : SortedMap K V) (k : K) : SortedMap K V :=
  ⟨eraseEntry k m.entries, sorted_eraseEntry k m.sorted⟩

@[simp] theorem find?_empty (k : K) : (empty : SortedMap K V).find? k = none := rfl

theorem find?_insert (m : SortedMap K V) (k : K) (v : V) (k' : K) :
    (m.insert k v).find? k' = if k' = k then some v else m.find? k' :=
  findEntry_insertEntry k v m.entries k'

theorem find?_erase (m : SortedMap K V) (k k' : K) :
    (m.erase k).find? k' = if k' = k then none else m.find? k' :=
  findEntry_eraseEntry m.sorted k k'

theorem erase_of_find? {m : SortedMap K V} {k : K} (h : m.find? k = none) : m.erase k = m := by
  obtain ⟨entries, sorted⟩ := m
  simp only [erase, eraseEntry_of_findEntry h]

theorem mem_entries {m : SortedMap K V} {k : K} {v : V} :
    (k, v) ∈ m.entries ↔ m.find? k = some v := mem_iff_findEntry m.sorted

end SortedMap
end Psets
