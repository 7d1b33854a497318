/-
How often the nodes of a graph are pointed to.

The nodes are numbers, and `next` lists the targets of the edges out of each node, a target
once for each edge.
-/
import Mathlib.Logic.Function.Basic

namespace Psets
namespace Containers

/-- The edges to `x` out of the nodes below the first argument. -/
def indegree (next : Nat → List Nat) (x : Nat) : Nat → Nat
  | 0 => 0
  | size + 1 => indegree next x size + (next size).count x

variable {next next' : Nat → List Nat} {x q size : Nat}

theorem indegree_congr (h : ∀ q < size, (next q).count x = (next' q).count x) :
    indegree next x size = indegree next' x size := by
  induction size with
  | zero => rfl
  | succ size ih =>
    rw [indegree, indegree, ih fun q hq => h q (Nat.lt_succ_of_lt hq),
      h size (Nat.lt_succ_self size)]

theorem count_le_indegree (hq : q < size) : (next q).count x ≤ indegree next x size := by
  induction size with
  | zero => exact absurd hq (Nat.not_lt_zero q)
  | succ size ih =>
    rw [indegree]
    rcases Nat.lt_or_ge q size with hlt | hge
    · exact Nat.le_trans (ih hlt) (Nat.le_add_right _ _)
    · have he : q = size := by omega
      subst he
      exact Nat.le_add_left _ _

theorem exists_mem_of_indegree_pos (h : 0 < indegree next x size) : ∃ q < size, x ∈ next q := by
  induction size with
  | zero => exact absurd h (Nat.lt_irrefl 0)
  | succ size ih =>
    rw [indegree] at h
    rcases Nat.eq_zero_or_pos (indegree next x size) with hz | hp
    · have hcount : 0 < (next size).count x := by omega
      exact ⟨size, Nat.lt_succ_self size, List.count_pos_iff.1 hcount⟩
    · obtain ⟨q, hq, hmem⟩ := ih hp
      exact ⟨q, Nat.lt_succ_of_lt hq, hmem⟩

theorem not_mem_of_indegree_zero (h : indegree next x size = 0) (hq : q < size) :
    x ∉ next q := by
  have hle : (next q).count x ≤ indegree next x size := count_le_indegree hq
  exact List.count_eq_zero.1 (by omega)

/-- What a change of the edges out of one node does to the number of edges to `x`. -/
theorem indegree_update (hq : q < size) (l : List Nat) :
    indegree (Function.update next q l) x size + (next q).count x =
      indegree next x size + l.count x := by
  induction size with
  | zero => exact absurd hq (Nat.not_lt_zero q)
  | succ size ih =>
    rw [indegree, indegree]
    rcases Nat.lt_or_ge q size with hlt | hge
    · have hne : size ≠ q := by omega
      rw [Function.update_of_ne hne]
      have := ih hlt
      omega
    · have he : q = size := by omega
      subst he
      have hsame : indegree (Function.update next q l) x q = indegree next x q :=
        indegree_congr fun q' hq' => by rw [Function.update_of_ne (Nat.ne_of_lt hq')]
      rw [Function.update_self, hsame]
      omega

end Containers
end Psets
