/-
Lists that are read round the end.

A queue whose first element goes to the end again is a wheel.  What stands on it stays
there, wherever it is read from.
-/
import Mathlib.Data.List.Rotate

namespace Psets

variable {α : Type} {c : α} {d l xs ys : List α}

theorem mem_of_prefix_cons (h : d <+: c :: xs) (hd : d ≠ []) : c ∈ d := by
  obtain _ | ⟨e, d⟩ := d
  · exact absurd rfl hd
  · rw [(List.cons_prefix_cons.1 h).1]
    exact List.mem_cons_self

theorem infix_of_infix_cons (h : d <:+: c :: xs) (hc : c ∉ d) (hd : d ≠ []) : d <:+: xs := by
  rcases List.infix_cons_iff.1 h with h | h
  · exact absurd (mem_of_prefix_cons h hd) hc
  · exact h

/-- What has no `c` in it lies on one side of each `c`. -/
theorem infix_of_infix_append_cons (h : d <:+: xs ++ c :: ys) (hc : c ∉ d) (hd : d ≠ []) :
    d <:+: xs ∨ d <:+: ys := by
  rcases List.infix_append_iff_ne_nil.1 h with h | h | ⟨d₁, d₂, -, hne, rfl, -, h⟩
  · exact .inl h
  · exact .inr (infix_of_infix_cons h hc hd)
  · exact absurd (List.mem_append_right d₁ (mem_of_prefix_cons h hne)) hc

/-- `d` stands on the wheel `l`. -/
def OnWheel (d l : List α) : Prop := ∃ m, m.IsRotated l ∧ d <:+: m

theorem OnWheel.of_isInfix (h : d <:+: l) : OnWheel d l := ⟨l, .refl l, h⟩

/-- The wheel turns by one. -/
theorem OnWheel.turn (h : OnWheel d (c :: xs)) : OnWheel d (xs ++ [c]) := by
  obtain ⟨m, hm, hd⟩ := h
  exact ⟨m, hm.trans (List.isRotated_concat c xs).symm, hd⟩

theorem OnWheel.ne_nil (h : OnWheel d l) (hd : d ≠ []) : l ≠ [] := by
  rintro rfl
  obtain ⟨m, hm, hdm⟩ := h
  rw [List.isRotated_nil_iff.1 hm] at hdm
  exact hd (List.infix_nil.1 hdm)

/-- Where `c` is in front, nothing without a `c` goes round the end. -/
theorem OnWheel.infix_of_cons (h : OnWheel d (c :: xs)) (hc : c ∉ d) (hd : d ≠ []) :
    d <:+: xs := by
  obtain ⟨m, hm, hdm⟩ := h
  obtain ⟨n, rfl⟩ := hm.symm
  obtain ⟨a, b, hab, hrot⟩ : ∃ a b, c :: xs = a ++ b ∧ (c :: xs).rotate n = b ++ a := by
    refine ⟨(c :: xs).take (n % (c :: xs).length), (c :: xs).drop (n % (c :: xs).length),
      (List.take_append_drop ..).symm, ?_⟩
    rw [← List.rotate_mod]
    exact List.rotate_eq_drop_append_take (Nat.le_of_lt (Nat.mod_lt _ (Nat.succ_pos _)))
  rw [hrot] at hdm
  obtain _ | ⟨e, a⟩ := a
  · rw [List.append_nil] at hdm
    rw [List.nil_append] at hab
    rw [← hab] at hdm
    exact infix_of_infix_cons hdm hc hd
  · obtain ⟨rfl, rfl⟩ := List.cons.inj hab
    rcases infix_of_infix_append_cons hdm hc hd with h | h
    · exact h.trans (List.suffix_append a b).isInfix
    · exact h.trans (List.prefix_append a b).isInfix

end Psets
