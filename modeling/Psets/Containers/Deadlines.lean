/-
A queue of deadlines.

An entry leaves the queue at its deadline, entries of one deadline in the order in which they
came.  `insert` keeps that order, so a class of entries whose deadlines never fall is served in
the order of its arrivals, whatever else the queue holds.
-/
import Mathlib.Data.List.Basic

namespace Psets
namespace Containers

variable {α β : Type}

namespace Deadlines

/-- Place an entry after those of its own deadline. -/
def place (t : Nat) (a : α) : List (Nat × α) → List (Nat × α)
  | [] => [(t, a)]
  | x :: xs => if x.1 ≤ t then x :: place t a xs else (t, a) :: x :: xs

theorem place_perm (t : Nat) (a : α) (xs : List (Nat × α)) :
    (place t a xs).Perm ((t, a) :: xs) := by
  induction xs with
  | nil => exact List.Perm.refl _
  | cons y ys ih =>
    unfold place
    split
    · exact (ih.cons y).trans (List.Perm.swap (t, a) y ys)
    · exact List.Perm.refl _

theorem mem_place {t : Nat} {a : α} {x : Nat × α} {xs : List (Nat × α)} :
    x ∈ place t a xs ↔ x = (t, a) ∨ x ∈ xs := by
  rw [(place_perm t a xs).mem_iff, List.mem_cons]

theorem place_sorted {t : Nat} {a : α} {xs : List (Nat × α)}
    (h : xs.Pairwise fun x y => x.1 ≤ y.1) : (place t a xs).Pairwise fun x y => x.1 ≤ y.1 := by
  induction xs with
  | nil => exact List.pairwise_singleton _ _
  | cons y ys ih =>
    obtain ⟨hy, hys⟩ := List.pairwise_cons.1 h
    unfold place
    split
    · rename_i hle
      refine List.pairwise_cons.2 ⟨fun x hx => ?_, ih hys⟩
      rcases mem_place.1 hx with rfl | hx
      · exact hle
      · exact hy x hx
    · rename_i hlt
      refine List.pairwise_cons.2 ⟨fun x hx => ?_, h⟩
      rcases List.mem_cons.1 hx with rfl | hx
      · exact Nat.le_of_not_le hlt
      · exact Nat.le_trans (Nat.le_of_not_le hlt) (hy x hx)

/-- The entries of a class, in the order in which they will leave. -/
def select (f : α → Option β) (xs : List (Nat × α)) : List β := xs.filterMap fun x => f x.2

theorem select_cons (f : α → Option β) (x : Nat × α) (xs : List (Nat × α)) :
    select f (x :: xs) = (f x.2).toList ++ select f xs := by
  unfold select
  cases h : f x.2 <;> simp [h]

/-- An entry of another class is not seen. -/
theorem select_place_none {f : α → Option β} {t : Nat} {a : α} (h : f a = none)
    (xs : List (Nat × α)) : select f (place t a xs) = select f xs := by
  induction xs with
  | nil =>
    rw [place, select_cons, h]
    rfl
  | cons y ys ih =>
    unfold place
    split
    · rw [select_cons, select_cons, ih]
    · rw [select_cons, h]
      rfl

/-- An entry whose deadline is not before those of its class leaves last. -/
theorem select_place_some {f : α → Option β} {t : Nat} {a : α} {b : β} (h : f a = some b)
    {xs : List (Nat × α)} (hs : xs.Pairwise fun x y => x.1 ≤ y.1)
    (hlast : ∀ x ∈ xs, f x.2 ≠ none → x.1 ≤ t) : select f (place t a xs) = select f xs ++ [b] := by
  induction xs with
  | nil =>
    rw [place, select_cons, h]
    rfl
  | cons y ys ih =>
    obtain ⟨hy, hys⟩ := List.pairwise_cons.1 hs
    unfold place
    split
    · rw [select_cons, select_cons, ih hys fun x hx => hlast x (List.mem_cons_of_mem y hx),
        List.append_assoc]
    · rename_i hlt
      -- what comes after an entry with a later deadline is of another class
      have hnone : select f (y :: ys) = [] := by
        refine List.filterMap_eq_nil_iff.2 fun x hx => ?_
        by_contra hne
        have hle := hlast x hx hne
        rcases List.mem_cons.1 hx with rfl | hx'
        · exact hlt hle
        · exact hlt (Nat.le_trans (hy x hx') hle)
      rw [select_cons, hnone, h]
      rfl

/-- An entry of another class may go. -/
theorem select_eraseIdx_none {f : α → Option β} {xs : List (Nat × α)} {pos : Nat} {x : Nat × α}
    (hx : xs[pos]? = some x) (h : f x.2 = none) : select f (xs.eraseIdx pos) = select f xs := by
  induction xs generalizing pos with
  | nil => cases hx
  | cons y ys ih =>
    cases pos with
    | zero =>
      obtain rfl : y = x := Option.some.inj hx
      rw [List.eraseIdx_cons_zero, select_cons, h]
      rfl
    | succ pos =>
      rw [List.eraseIdx_cons_succ, select_cons, select_cons, ih hx]

end Deadlines

/-- The entries in the order in which they leave. -/
structure Deadlines (α : Type) where
  entries : List (Nat × α)
  sorted : entries.Pairwise fun x y => x.1 ≤ y.1

namespace Deadlines

def empty : Deadlines α := ⟨[], List.Pairwise.nil⟩

def insert (q : Deadlines α) (t : Nat) (a : α) : Deadlines α :=
  ⟨place t a q.entries, place_sorted q.sorted⟩

def pop (q : Deadlines α) : Deadlines α :=
  ⟨q.entries.tail, q.sorted.sublist (List.tail_sublist q.entries)⟩

def remove (q : Deadlines α) (pos : Nat) : Deadlines α :=
  ⟨q.entries.eraseIdx pos, q.sorted.sublist (List.eraseIdx_sublist q.entries pos)⟩

theorem mem_insert {q : Deadlines α} {t : Nat} {a : α} {x : Nat × α} :
    x ∈ (q.insert t a).entries ↔ x = (t, a) ∨ x ∈ q.entries := mem_place

/-- What leaves next is due before everything else. -/
theorem head_le {q : Deadlines α} {x y : Nat × α} {rest : List (Nat × α)}
    (hx : q.entries = x :: rest) (hy : y ∈ q.entries) : x.1 ≤ y.1 := by
  have hs := q.sorted
  rw [hx] at hs hy
  rcases List.mem_cons.1 hy with rfl | hy
  · exact Nat.le_refl _
  · exact (List.pairwise_cons.1 hs).1 y hy

end Deadlines

end Containers
end Psets
