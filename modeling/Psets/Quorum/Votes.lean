/-
Votes that are cast once.

What was cast is a list of voters and their votes.  Where nobody casts the same vote twice,
the votes counted are no more than the voters, and two majorities share a voter.
-/
import Mathlib.Data.Finset.Card
import Mathlib.Data.Fintype.Card
import Mathlib.Data.List.Nodup

namespace Psets
namespace Quorum

variable {α V : Type} [DecidableEq α] [DecidableEq V]

/-- Those who have cast the vote `v`. -/
def voters [Fintype α] (cast : List (α × V)) (v : V) : Finset α :=
  Finset.univ.filter fun i => (i, v) ∈ cast

theorem mem_voters [Fintype α] {cast : List (α × V)} {v : V} {i : α} :
    i ∈ voters cast v ↔ (i, v) ∈ cast := by
  simp [voters]

theorem count_map_fst_filter (cast : List (α × V)) (v : V) (i : α) :
    ((cast.filter fun x => x.2 = v).map Prod.fst).count i = cast.countP fun x => x = (i, v) := by
  induction cast with
  | nil => rfl
  | cons x rest ih =>
    obtain ⟨j, w⟩ := x
    by_cases hw : w = v
    · subst hw
      rw [List.filter_cons_of_pos (by simp), List.map_cons, List.count_cons, List.countP_cons, ih]
      simp
    · rw [List.filter_cons_of_neg (by simpa using hw), List.countP_cons, ih]
      simp [hw]

/-- A vote was cast by as many as cast it, if each has cast it once. -/
theorem countP_le_card_voters [Fintype α] {cast : List (α × V)} {v : V}
    (h : ∀ i, (cast.countP fun x => x = (i, v)) ≤ 1) :
    (cast.countP fun x => x.2 = v) ≤ (voters cast v).card := by
  have hnodup : ((cast.filter fun x => x.2 = v).map Prod.fst).Nodup := by
    rw [List.nodup_iff_count_le_one]
    intro i
    rw [count_map_fst_filter]
    exact h i
  have hsub : ((cast.filter fun x => x.2 = v).map Prod.fst).toFinset ⊆ voters cast v := by
    intro i hi
    rw [List.mem_toFinset, List.mem_map] at hi
    rcases hi with ⟨⟨j, w⟩, hx, rfl⟩
    rw [List.mem_filter] at hx
    have hw : w = v := by simpa using hx.2
    rw [mem_voters, ← hw]
    exact hx.1
  have hcard := Finset.card_le_card hsub
  rw [List.toFinset_card_of_nodup hnodup, List.length_map] at hcard
  rw [List.countP_eq_length_filter]
  exact hcard

omit [DecidableEq V] in
/-- Two majorities have somebody in common. -/
theorem exists_mem_of_majorities {n : Nat} {p q : Finset (Fin n)} (hp : n / 2 < p.card)
    (hq : n / 2 < q.card) : ∃ i ∈ p, i ∈ q := by
  by_contra h
  have hdisjoint : Disjoint p q :=
    Finset.disjoint_left.2 fun i hi hi' => h ⟨i, hi, hi'⟩
  have hcard := Finset.card_le_univ (p ∪ q)
  rw [Finset.card_union_of_disjoint hdisjoint, Fintype.card_fin] at hcard
  omega

end Quorum
end Psets
