/-
Removal from an unordered vector.

The first occurrence of the element is overwritten by the back of the vector and the
back is dropped.  The order of the rest is not kept, its contents are.
-/
import Mathlib.Data.List.Perm.Basic

namespace Psets
namespace Containers

variable {α : Type}

/-- Move the back of the list to the front. -/
def backToFront (l : List α) : List α :=
  match l.getLast? with
  | none => []
  | some x => x :: l.dropLast

theorem backToFront_perm (l : List α) : (backToFront l).Perm l := by
  unfold backToFront
  split
  · rename_i h
    rw [List.getLast?_eq_none_iff.1 h]
  · rename_i x h
    have hl : l.dropLast ++ [x] = l := List.dropLast_append_getLast? x h
    have hperm : (x :: l.dropLast).Perm (l.dropLast ++ [x]) :=
      List.perm_append_singleton x l.dropLast |>.symm
    rwa [hl] at hperm

variable [DecidableEq α]

/-- Remove the first occurrence of `x` by moving the back into its place. -/
def swapErase (x : α) : List α → List α
  | [] => []
  | y :: l => if y = x then backToFront l else y :: swapErase x l

theorem swapErase_perm (x : α) (l : List α) : (swapErase x l).Perm (l.erase x) := by
  induction l with
  | nil => exact List.Perm.refl _
  | cons y l ih =>
    unfold swapErase
    by_cases h : y = x
    · rw [if_pos h, h, List.erase_cons_head]
      exact backToFront_perm l
    · rw [if_neg h, List.erase_cons_tail (by simpa using h)]
      exact ih.cons y

theorem count_swapErase (x y : α) (l : List α) :
    (swapErase x l).count y = (l.erase x).count y :=
  (swapErase_perm x l).count_eq y

theorem count_swapErase_of_ne {x y : α} (h : y ≠ x) (l : List α) :
    (swapErase x l).count y = l.count y := by
  rw [count_swapErase, List.count_erase_of_ne h]

theorem count_swapErase_self (x : α) (l : List α) :
    (swapErase x l).count x = l.count x - 1 := by
  rw [count_swapErase, List.count_erase_self]

/-- What was removed and what is left. -/
theorem cons_swapErase_perm {x : α} {l : List α} (h : x ∈ l) :
    (x :: swapErase x l).Perm l :=
  ((swapErase_perm x l).cons x).trans (List.perm_cons_erase h).symm

end Containers
end Psets
