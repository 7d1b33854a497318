/-
Arrays in storage.

A region holds a list when its first cells hold the objects of the list, and the others
none.  The algorithms that a container runs on its elements are loops over cells; each has
a rule that says which list a region holds afterwards, and that other regions stay as they
are.  `moved` is what a move leaves behind.
-/
import Psets.Containers.Lifetimes

namespace Psets
namespace Containers
namespace Storage

variable {ρ α : Type} {s s' : Storage ρ α} {r r' src dst : ρ} {i j n first last : Nat} {a : α}
  {l l' : List α}

/-- The region holds the list. -/
def Holds (s : Storage ρ α) (r : ρ) (l : List α) : Prop := ∀ i, s.read r i = l[i]?

/-- Only the regions `rs` change, and no region changes its size. -/
structure Elsewhere (s s' : Storage ρ α) (rs : List ρ) : Prop where
  size : s'.size = s.size
  read : ∀ r', r' ∉ rs → ∀ i, s'.read r' i = s.read r' i

/-- Nothing changes in a region. -/
structure Same (s s' : Storage ρ α) (r : ρ) : Prop where
  size : s'.size r = s.size r
  read : ∀ i, s'.read r i = s.read r i

theorem Same.holds (h : Same s s' r) (hl : s.Holds r l) : s'.Holds r l :=
  fun i => (h.read i).trans (hl i)

theorem Same.trans {s₁ s₂ s₃ : Storage ρ α} (h : Same s₁ s₂ r) (h' : Same s₂ s₃ r) :
    Same s₁ s₃ r := ⟨h'.size.trans h.size, fun i => (h'.read i).trans (h.read i)⟩

theorem Elsewhere.same {rs : List ρ} (h : Elsewhere s s' rs) (hr : r ∉ rs) : Same s s' r :=
  ⟨by rw [h.size], h.read r hr⟩

theorem Elsewhere.holds {rs : List ρ} (h : Elsewhere s s' rs) (hr : r' ∉ rs)
    (hl : s.Holds r' l) : s'.Holds r' l := fun i => (h.read r' hr i).trans (hl i)

theorem Elsewhere.refl (s : Storage ρ α) (rs : List ρ) : Elsewhere s s rs :=
  ⟨rfl, fun _ _ _ => rfl⟩

theorem Elsewhere.trans {s₁ s₂ s₃ : Storage ρ α} {rs : List ρ} (h : Elsewhere s₁ s₂ rs)
    (h' : Elsewhere s₂ s₃ rs) : Elsewhere s₁ s₃ rs :=
  ⟨h'.size.trans h.size, fun r' hr i => (h'.read r' hr i).trans (h.read r' hr i)⟩

theorem Elsewhere.mono {rs rs' : List ρ} (h : Elsewhere s s' rs) (hsub : rs ⊆ rs') :
    Elsewhere s s' rs' := ⟨h.size, fun r' hr => h.read r' fun hmem => hr (hsub hmem)⟩

theorem Holds.length_le (h : s.Holds r l) : l.length ≤ s.size r := by
  by_contra hlt
  have hnone := read_of_size_le (s := s) (r := r) (Nat.le_refl (s.size r))
  rw [h, List.getElem?_eq_none_iff] at hnone
  omega

/-- The values of `n` cells. -/
def readN (s : Storage ρ α) (r : ρ) : Nat → Nat → Option (List α)
  | _, 0 => some []
  | i, n + 1 => (s.read r i).bind fun a => (readN s r (i + 1) n).map (a :: ·)

theorem Holds.readN (h : s.Holds r l) (hi : i + n ≤ l.length) :
    s.readN r i n = some ((l.drop i).take n) := by
  induction n generalizing i with
  | zero => rw [Storage.readN, List.take_zero]
  | succ n ih =>
    have hlt : i < l.length := by omega
    rw [Storage.readN, h i, List.getElem?_eq_getElem hlt, Option.bind_some, ih (by omega),
      List.drop_eq_getElem_cons hlt, List.take_succ_cons]
    rfl

theorem Holds.readN_all (h : s.Holds r l) : s.readN r 0 l.length = some l := by
  rw [h.readN (by omega), List.drop_zero, List.take_length]

variable [DecidableEq ρ]

/-! ## One cell -/

theorem Holds.construct (h : s.Holds r l) (hsize : l.length < s.size r) (a : α) :
    ∃ s', s.construct r l.length a = some s' ∧ Elsewhere s s' [r] ∧ s'.Holds r (l ++ [a]) := by
  have hnone : s.read r l.length = none := by rw [h, List.getElem?_eq_none (Nat.le_refl _)]
  obtain ⟨s', hs', hsize', hread⟩ := construct_eq hsize hnone a
  refine ⟨s', hs', ⟨hsize', fun r' hr i => ?_⟩, fun i => ?_⟩
  · rw [hread, if_neg (fun hc => hr (List.mem_singleton.2 hc.1))]
  · rw [hread]
    by_cases hi : i = l.length
    · rw [if_pos ⟨rfl, hi⟩, hi, List.getElem?_concat_length]
    · rw [if_neg (fun hc => hi hc.2), h]
      rcases Nat.lt_or_ge i l.length with hlt | hge
      · rw [List.getElem?_append_left hlt]
      · rw [List.getElem?_eq_none hge, List.getElem?_eq_none]
        rw [List.length_append, List.length_singleton]
        omega

theorem Holds.assign (h : s.Holds r l) (hi : i < l.length) (a : α) :
    ∃ s', s.assign r i a = some s' ∧ Elsewhere s s' [r] ∧ s'.Holds r (l.set i a) := by
  have hread : s.read r i = some l[i] := by rw [h, List.getElem?_eq_getElem hi]
  obtain ⟨s', hs', hsize', hread'⟩ := assign_eq hread a
  refine ⟨s', hs', ⟨hsize', fun r' hr j => ?_⟩, fun j => ?_⟩
  · rw [hread', if_neg (fun hc => hr (List.mem_singleton.2 hc.1))]
  · rw [hread']
    by_cases hj : j = i
    · rw [if_pos ⟨rfl, hj⟩, hj, List.getElem?_set_self hi]
    · rw [if_neg (fun hc => hj hc.2), h, List.getElem?_set_ne (Ne.symm hj)]

/-- A region of another size, and the rest as it was. -/
theorem same_of_resize (hsize : s'.size = Function.update s.size r n) (hread : s'.read = s.read)
    (hne : r' ≠ r) : Same s s' r' :=
  ⟨by rw [hsize, Function.update_of_ne hne], fun i => by rw [hread]⟩

theorem allocate_holds (h : s.size r = 0) (n : Nat) :
    ∃ s', s.allocate r n = some s' ∧ s'.size r = n ∧ s'.Holds r [] ∧
      ∀ r', r' ≠ r → Same s s' r' := by
  obtain ⟨s', hs', hsize, hread⟩ := allocate_eq h n
  refine ⟨s', hs', ?_, fun i => ?_, fun r' hr => same_of_resize hsize hread hr⟩
  · rw [hsize, Function.update_self]
  · rw [hread, read_of_size_le (by omega), List.getElem?_nil]

theorem deallocate_holds (h : s.size r = n) (hempty : s.Holds r []) :
    ∃ s', s.deallocate r n = some s' ∧ s'.size r = 0 ∧ s'.Holds r [] ∧
      ∀ r', r' ≠ r → Same s s' r' := by
  obtain ⟨s', hs', hsize, hread⟩ := deallocate_eq h fun i => by rw [hempty, List.getElem?_nil]
  refine ⟨s', hs', ?_, fun i => ?_, fun r' hr => same_of_resize hsize hread hr⟩
  · rw [hsize, Function.update_self]
  · rw [hread, hempty]

/-! ## `std::destroy_n` -/

def destroyN (r : ρ) : Nat → Nat → Storage ρ α → Option (Storage ρ α)
  | _, 0, s => some s
  | i, n + 1, s => (s.destroy r i).bind (destroyN r (i + 1) n)

theorem destroyN_eq (h : ∀ j, i ≤ j → j < i + n → (s.read r j).isSome = true) :
    ∃ s', destroyN r i n s = some s' ∧ s'.size = s.size ∧
      ∀ r' j, s'.read r' j = if r' = r ∧ i ≤ j ∧ j < i + n then none else s.read r' j := by
  induction n generalizing s i with
  | zero =>
    refine ⟨s, rfl, rfl, fun r' j => ?_⟩
    rw [if_neg (by omega)]
  | succ n ih =>
    obtain ⟨a, ha⟩ := Option.isSome_iff_exists.1 (h i (Nat.le_refl i) (by omega))
    obtain ⟨s₁, hs₁, hsize₁, hread₁⟩ := destroy_eq ha
    have hlive : ∀ j, i + 1 ≤ j → j < i + 1 + n → (s₁.read r j).isSome = true := by
      intro j hle hlt
      rw [hread₁, if_neg (by omega)]
      exact h j (by omega) (by omega)
    obtain ⟨s', hs', hsize', hread'⟩ := ih hlive
    refine ⟨s', ?_, hsize'.trans hsize₁, fun r' j => ?_⟩
    · rw [destroyN, hs₁, Option.bind_some, hs']
    · rw [hread', hread₁]
      by_cases hr : r' = r
      · by_cases hj : j = i
        · rw [if_neg (by omega), if_pos ⟨hr, hj⟩, if_pos ⟨hr, by omega, by omega⟩]
        · rw [if_neg (fun hc => hj hc.2 : ¬ (r' = r ∧ j = i))]
          by_cases hin : i + 1 ≤ j ∧ j < i + 1 + n
          · rw [if_pos ⟨hr, hin⟩, if_pos ⟨hr, by omega, by omega⟩]
          · rw [if_neg (fun hc => hin hc.2), if_neg (fun hc => hin ⟨by omega, by omega⟩)]
      · rw [if_neg (fun hc => hr hc.1), if_neg (fun hc => hr hc.1), if_neg (fun hc => hr hc.1)]

/-- Destroying the last elements of an array. -/
theorem Holds.destroyN (h : s.Holds r l) (hn : i + n = l.length) :
    ∃ s', Storage.destroyN r i n s = some s' ∧ Elsewhere s s' [r] ∧ s'.Holds r (l.take i) := by
  have hlive : ∀ j, i ≤ j → j < i + n → (s.read r j).isSome = true := by
    intro j _ hj
    rw [h, List.getElem?_eq_getElem (by omega)]
    rfl
  obtain ⟨s', hs', hsize, hread⟩ := destroyN_eq hlive
  refine ⟨s', hs', ⟨hsize, fun r' hr j => ?_⟩, fun j => ?_⟩
  · rw [hread, if_neg (fun hc => hr (List.mem_singleton.2 hc.1))]
  · rw [hread, List.getElem?_take]
    by_cases hj : j < i
    · rw [if_neg (by omega), if_pos hj, h]
    · rw [if_neg hj]
      by_cases hlt : j < l.length
      · rw [if_pos ⟨rfl, by omega, by omega⟩]
      · rw [if_neg (by omega), h, List.getElem?_eq_none (by omega)]

/-- `std::destroy_at` of the last element. -/
theorem Holds.destroy_last {l : List α} (h : s.Holds r (l ++ [a])) :
    ∃ s', s.destroy r l.length = some s' ∧ Elsewhere s s' [r] ∧ s'.Holds r l := by
  have hlen : l.length + 1 = (l ++ [a]).length := by rw [List.length_append, List.length_singleton]
  obtain ⟨s', hs', helse, hholds⟩ := h.destroyN hlen
  rw [List.take_left] at hholds
  refine ⟨s', ?_, helse, hholds⟩
  rw [Storage.destroyN] at hs'
  obtain ⟨s₁, hs₁, hs₁'⟩ := Option.bind_eq_some_iff.1 hs'
  rw [hs₁, ← hs₁']
  rfl

/-! ## Moves -/

/-- Change one element of an array. -/
theorem Holds.assign_append {x : α} {pre post : List α} (h : s.Holds r (pre ++ x :: post))
    (a : α) : ∃ s', s.assign r pre.length a = some s' ∧ Elsewhere s s' [r] ∧
      s'.Holds r (pre ++ a :: post) := by
  have hlt : pre.length < (pre ++ x :: post).length := by
    rw [List.length_append, List.length_cons]
    omega
  have hset : (pre ++ x :: post).set pre.length a = pre ++ a :: post := by
    rw [List.set_append_right _ _ (Nat.le_refl _), Nat.sub_self, List.set_cons_zero]
  have hassign := h.assign hlt a
  rw [hset] at hassign
  exact hassign

/-- The value of an object as a source that may be moved from. -/
def moveFrom (moved : α → α) (r : ρ) (i : Nat) (s : Storage ρ α) : Option (α × Storage ρ α) :=
  (s.read r i).bind fun a => (s.assign r i (moved a)).map fun s' => (a, s')

theorem Holds.moveFrom {x : α} {pre post : List α} (h : s.Holds r (pre ++ x :: post))
    (moved : α → α) : ∃ s', Storage.moveFrom moved r pre.length s = some (x, s') ∧
      Elsewhere s s' [r] ∧ s'.Holds r (pre ++ moved x :: post) := by
  have hread : s.read r pre.length = some x := by
    rw [h, List.getElem?_append_right (Nat.le_refl _), Nat.sub_self, List.getElem?_cons_zero]
  obtain ⟨s', hs', helse, hholds⟩ := h.assign_append (moved x)
  refine ⟨s', ?_, helse, hholds⟩
  rw [Storage.moveFrom, hread, Option.bind_some, hs']
  rfl

/-- `std::uninitialized_move_n` -/
def uninitializedMoveN (moved : α → α) (src dst : ρ) :
    Nat → Nat → Nat → Storage ρ α → Option (Storage ρ α)
  | _, _, 0, s => some s
  | i, j, n + 1, s =>
    (moveFrom moved src i s).bind fun next =>
      (next.2.construct dst j next.1).bind (uninitializedMoveN moved src dst (i + 1) (j + 1) n)

/-- `std::move(first, first + n, d)` within one region. -/
def moveRange (moved : α → α) (r : ρ) : Nat → Nat → Nat → Storage ρ α → Option (Storage ρ α)
  | _, _, 0, s => some s
  | first, d, n + 1, s =>
    (moveFrom moved r first s).bind fun next =>
      (next.2.assign r d next.1).bind (moveRange moved r (first + 1) (d + 1) n)

/-- The loop has moved `pre`; `rest` is left. -/
theorem uninitializedMoveN_eq (moved : α → α) (pre : List α) {rest : List α} (hne : src ≠ dst)
    (hsrc : s.Holds src (pre.map moved ++ rest)) (hdst : s.Holds dst pre)
    (hsize : (pre ++ rest).length ≤ s.size dst) :
    ∃ s', uninitializedMoveN moved src dst pre.length pre.length rest.length s = some s' ∧
      Elsewhere s s' [src, dst] ∧ s'.Holds src ((pre ++ rest).map moved) ∧
      s'.Holds dst (pre ++ rest) := by
  induction rest generalizing s pre with
  | nil =>
    rw [List.append_nil] at hsrc ⊢
    exact ⟨s, rfl, Elsewhere.refl s _, hsrc, hdst⟩
  | cons x rest ih =>
    obtain ⟨s₁, hs₁, helse₁, hsrc₁⟩ := hsrc.moveFrom moved
    rw [List.length_map] at hs₁
    have hdst₁ : s₁.Holds dst pre :=
      helse₁.holds (fun hmem => hne (List.mem_singleton.1 hmem).symm) hdst
    rw [List.length_append, List.length_cons] at hsize
    have hlt : pre.length < s₁.size dst := by
      rw [helse₁.size]
      omega
    obtain ⟨s₂, hs₂, helse₂, hdst₂⟩ := hdst₁.construct hlt x
    have hsrc₂ : s₂.Holds src ((pre ++ [x]).map moved ++ rest) := by
      rw [List.map_append, List.append_assoc]
      exact helse₂.holds (fun hmem => hne (List.mem_singleton.1 hmem)) hsrc₁
    have hsize₂ : (pre ++ [x] ++ rest).length ≤ s₂.size dst := by
      rw [helse₂.size, helse₁.size, List.length_append, List.length_append,
        List.length_singleton]
      omega
    obtain ⟨s', hs', helse', hsrc', hdst'⟩ := ih (pre ++ [x]) hsrc₂ hdst₂ hsize₂
    rw [List.append_assoc, List.singleton_append] at hsrc' hdst'
    rw [List.length_append, List.length_singleton] at hs'
    refine ⟨s', ?_, ?_, hsrc', hdst'⟩
    · rw [List.length_cons, uninitializedMoveN, hs₁, Option.bind_some, hs₂, Option.bind_some, hs']
    · have hsub₁ : [src] ⊆ [src, dst] := by simp
      have hsub₂ : [dst] ⊆ [src, dst] := by simp
      exact ((helse₁.mono hsub₁).trans (helse₂.mono hsub₂)).trans helse'

/-- Moving an array to a region that is empty. -/
theorem Holds.uninitializedMoveN (moved : α → α) (hne : src ≠ dst) (hsrc : s.Holds src l)
    (hdst : s.Holds dst []) (hsize : l.length ≤ s.size dst) :
    ∃ s', Storage.uninitializedMoveN moved src dst 0 0 l.length s = some s' ∧
      Elsewhere s s' [src, dst] ∧ s'.Holds src (l.map moved) ∧ s'.Holds dst l :=
  uninitializedMoveN_eq moved [] hne hsrc hdst hsize

/-- Moving an array to a new region. -/
theorem Holds.relocate (moved : α → α) (h : s.Holds src l) (hne : src ≠ dst)
    (hdst : s.size dst = 0) (hn : l.length ≤ n) :
    ∃ s₁ s₂ s₃, s.allocate dst n = some s₁ ∧
      Storage.uninitializedMoveN moved src dst 0 0 l.length s₁ = some s₂ ∧
      Storage.destroyN src 0 l.length s₂ = some s₃ ∧ s₃.size src = s.size src ∧
      s₃.Holds src [] ∧ s₃.size dst = n ∧ s₃.Holds dst l ∧
      ∀ r, r ≠ src → r ≠ dst → Same s s₃ r := by
  obtain ⟨s₁, hs₁, hsize₁, hdst₁, hsame₁⟩ := allocate_holds hdst n
  have hsrc₁ := (hsame₁ src hne).holds h
  obtain ⟨s₂, hs₂, helse₂, hsrc₂, hdst₂⟩ :=
    hsrc₁.uninitializedMoveN moved hne hdst₁ (by rw [hsize₁]; exact hn)
  have hlen : 0 + l.length = (l.map moved).length := by rw [List.length_map, Nat.zero_add]
  obtain ⟨s₃, hs₃, helse₃, hsrc₃⟩ := hsrc₂.destroyN hlen
  have hdst₃ : s₃.Holds dst l :=
    helse₃.holds (fun hmem => hne (List.mem_singleton.1 hmem).symm) hdst₂
  refine ⟨s₁, s₂, s₃, hs₁, hs₂, hs₃, ?_, hsrc₃, ?_, hdst₃, fun r hr hr' => ?_⟩
  · rw [helse₃.size, helse₂.size, (hsame₁ src hne).size]
  · rw [helse₃.size, helse₂.size, hsize₁]
  · have hpair : r ∉ [src, dst] := by
      rw [List.mem_cons, List.mem_singleton, not_or]
      exact ⟨hr, hr'⟩
    have hone : r ∉ [src] := fun hmem => hr (List.mem_singleton.1 hmem)
    exact ((hsame₁ r hr').trans (helse₂.same hpair)).trans (helse₃.same hone)

/-- Moving the elements behind a gap into it: what is left at the end is as long as the
gap. -/
theorem Holds.moveRange (moved : α → α) {pre gap rest : List α} (hgap : gap ≠ [])
    (h : s.Holds r (pre ++ gap ++ rest)) :
    ∃ s' tail, Storage.moveRange moved r (pre.length + gap.length) pre.length rest.length s =
        some s' ∧ tail.length = gap.length ∧ Elsewhere s s' [r] ∧
      s'.Holds r (pre ++ rest ++ tail) := by
  induction rest generalizing s pre gap with
  | nil =>
    rw [List.append_nil] at h
    refine ⟨s, gap, rfl, rfl, Elsewhere.refl s _, ?_⟩
    rw [List.append_nil]
    exact h
  | cons x rest ih =>
    obtain ⟨y, gap, rfl⟩ := List.exists_cons_of_ne_nil hgap
    obtain ⟨s₁, hs₁, helse₁, h₁⟩ := h.moveFrom moved
    rw [List.length_append] at hs₁
    rw [List.append_assoc, List.cons_append] at h₁
    obtain ⟨s₂, hs₂, helse₂, h₂⟩ := h₁.assign_append x
    have h₃ : s₂.Holds r (pre ++ [x] ++ (gap ++ [moved x]) ++ rest) := by
      simpa only [List.append_assoc, List.cons_append, List.nil_append] using h₂
    obtain ⟨s', tail, hs', htail, helse', h'⟩ := ih (by simp) h₃
    refine ⟨s', tail, ?_, ?_, (helse₁.trans helse₂).trans helse', ?_⟩
    · have hfirst : (pre ++ [x]).length + (gap ++ [moved x]).length =
          pre.length + (y :: gap).length + 1 := by
        simp only [List.length_append, List.length_cons, List.length_nil]
        omega
      rw [hfirst, List.length_append, List.length_singleton] at hs'
      show Storage.moveRange moved r (pre.length + (y :: gap).length) pre.length
        (rest.length + 1) s = some s'
      rw [Storage.moveRange, hs₁, Option.bind_some, hs₂, Option.bind_some, hs']
    · rw [htail, List.length_append, List.length_singleton, List.length_cons]
    · simpa only [List.append_assoc, List.singleton_append] using h'

end Storage
end Containers
end Psets
