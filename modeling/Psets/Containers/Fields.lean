/-
Lists that a separator divides.

What is before the first separator and what is after it, and the parts of a list between
its separators.
-/
import Mathlib.Data.List.TakeWhile

namespace Psets
namespace Containers

variable {α : Type} [BEq α] {a x : α}

/-- What is before the first `a`. -/
def before (a : α) (l : List α) : List α := l.takeWhile (· != a)

/-- What is after the first `a`. -/
def after (a : α) (l : List α) : List α := (l.dropWhile (· != a)).drop 1

@[simp] theorem before_nil (a : α) : before a [] = [] := rfl

@[simp] theorem after_nil (a : α) : after a [] = [] := rfl

theorem length_before_le (a : α) (l : List α) : (before a l).length ≤ l.length :=
  (List.takeWhile_sublist _).length_le

variable [LawfulBEq α]

@[simp] theorem before_self (a : α) (l : List α) : before a (a :: l) = [] := by
  simp [before]

@[simp] theorem after_self (a : α) (l : List α) : after a (a :: l) = l := by
  simp [after]

theorem before_cons (h : x ≠ a) (l : List α) : before a (x :: l) = x :: before a l := by
  simp [before, h]

theorem after_cons (h : x ≠ a) (l : List α) : after a (x :: l) = after a l := by
  simp [after, h]

/-! ## A list with a separator, and one without -/

theorem before_append {l : List α} (h : a ∉ l) (rest : List α) :
    before a (l ++ a :: rest) = l := by
  induction l with
  | nil => exact before_self a rest
  | cons x l ih =>
    rw [List.mem_cons, not_or] at h
    rw [List.cons_append, before_cons (Ne.symm h.1), ih h.2]

theorem after_append {l : List α} (h : a ∉ l) (rest : List α) :
    after a (l ++ a :: rest) = rest := by
  induction l with
  | nil => exact after_self a rest
  | cons x l ih =>
    rw [List.mem_cons, not_or] at h
    rw [List.cons_append, after_cons (Ne.symm h.1), ih h.2]

theorem before_of_not_mem {l : List α} (h : a ∉ l) : before a l = l := by
  induction l with
  | nil => rfl
  | cons x l ih =>
    rw [List.mem_cons, not_or] at h
    rw [before_cons (Ne.symm h.1), ih h.2]

theorem after_of_not_mem {l : List α} (h : a ∉ l) : after a l = [] := by
  induction l with
  | nil => rfl
  | cons x l ih =>
    rw [List.mem_cons, not_or] at h
    rw [after_cons (Ne.symm h.1), ih h.2]

/-- The separator is between what is before it and what is after it. -/
theorem length_before_add_after {l : List α} (h : a ∈ l) :
    (before a l).length + 1 + (after a l).length = l.length := by
  obtain ⟨pre, post, rfl, hpre⟩ := List.eq_append_cons_of_mem h
  rw [before_append hpre, after_append hpre, List.length_append, List.length_cons]
  omega

/-! ## Positions -/

theorem take_length_before (a : α) (l : List α) : l.take (before a l).length = before a l := by
  by_cases h : a ∈ l
  · obtain ⟨pre, post, rfl, hpre⟩ := List.eq_append_cons_of_mem h
    rw [before_append hpre, List.take_left]
  · rw [before_of_not_mem h, List.take_length]

theorem drop_length_before (a : α) (l : List α) :
    l.drop ((before a l).length + 1) = after a l := by
  by_cases h : a ∈ l
  · obtain ⟨pre, post, rfl, hpre⟩ := List.eq_append_cons_of_mem h
    rw [before_append hpre, after_append hpre, List.drop_length_add_append]
    rfl
  · rw [before_of_not_mem h, after_of_not_mem h, List.drop_eq_nil_of_le (Nat.le_succ _)]

/-- What is before a separator is followed by it, or by nothing. -/
theorem getElem?_length_before (a : α) (l : List α) :
    l[(before a l).length]? = some a ∨ (before a l).length = l.length := by
  by_cases h : a ∈ l
  · left
    obtain ⟨pre, post, rfl, hpre⟩ := List.eq_append_cons_of_mem h
    rw [before_append hpre, List.getElem?_append_right (Nat.le_refl _), Nat.sub_self]
    rfl
  · right
    rw [before_of_not_mem h]

/-! ## The parts -/

/-- The parts that are not empty: the first one, and those after a separator. -/
theorem filter_splitOn (a : α) (l : List α) :
    (l.splitOn a).filter (fun part => !part.isEmpty) =
      [before a l].filter (fun part => !part.isEmpty) ++
        ((after a l).splitOn a).filter fun part => !part.isEmpty := by
  by_cases h : a ∈ l
  · obtain ⟨pre, post, rfl, hpre⟩ := List.eq_append_cons_of_mem h
    rw [before_append hpre, after_append hpre, List.splitOn_append_cons_self_of_not_mem hpre,
      ← List.filter_append, List.singleton_append]
  · rw [List.splitOn_eq_singleton h, before_of_not_mem h, after_of_not_mem h, List.splitOn_nil]
    exact (List.append_nil _).symm

/-! ## A cursor -/

/-- Move a cursor up to the first element that `stop` accepts, or to the end; `none` where
it reads outside the list, or where the fuel does not last. -/
def skipUntil {α : Type} (stop : α → Bool) (l : List α) : Nat → Nat → Option Nat
  | 0, s => if s = l.length then some s else none
  | fuel + 1, s =>
    if s = l.length then some s
    else (l[s]?).bind fun x => if stop x then some s else skipUntil stop l fuel (s + 1)

/-- A cursor within the list stops inside it, after what `stop` refuses. -/
theorem skipUntil_eq {α : Type} {stop : α → Bool} {l : List α} {fuel s : Nat} (hs : s ≤ l.length)
    (hfuel : l.length - s ≤ fuel) :
    skipUntil stop l fuel s = some (s + ((l.drop s).takeWhile fun x => !stop x).length) := by
  induction fuel generalizing s with
  | zero =>
    have hend : s = l.length := by omega
    rw [skipUntil, if_pos hend, hend, List.drop_length, List.takeWhile_nil]
    rfl
  | succ fuel ih =>
    rw [skipUntil]
    by_cases hend : s = l.length
    · rw [if_pos hend, hend, List.drop_length, List.takeWhile_nil]
      rfl
    · have hlt : s < l.length := by omega
      rw [if_neg hend, List.getElem?_eq_getElem hlt, Option.bind_some,
        List.drop_eq_getElem_cons hlt, List.takeWhile_cons]
      cases hstop : stop l[s] with
      | true =>
        rw [if_pos rfl]
        rfl
      | false =>
        have hrest := ih (s := s + 1) (by omega) (by omega)
        rw [if_neg Bool.false_ne_true, hrest, Bool.not_false, if_pos rfl, List.length_cons]
        congr 1
        omega

end Containers
end Psets
