/-
Propagation through thresholds.

A root fires of itself, and a gate fires when enough of its members have, a member
listed twice counting twice.  A run that removes the members that have fired from a
gate's list, one occurrence at a time, fires what the definition says and nothing else.
-/
import Mathlib.Data.List.Perm.Subperm
import Mathlib.Data.List.Count

namespace Psets
namespace Quorum

variable {α : Type} {root gate : α → Prop} {members : α → List α} {need : α → Nat}

/-- What fires. -/
inductive Fired (root gate : α → Prop) (members : α → List α) (need : α → Nat) : α → Prop where
  | root {x : α} : root x → Fired root gate members need x
  | gate {q : α} (ms : List α) : gate q → List.Subperm ms (members q) →
      (∀ m ∈ ms, Fired root gate members need m) → need q ≤ ms.length →
      Fired root gate members need q

/-- The members that were removed from a gate's list are enough. -/
theorem Fired.of_removed {q : α} {removed left : List α} (hq : gate q)
    (hperm : (removed ++ left).Perm (members q))
    (hfired : ∀ m ∈ removed, Fired root gate members need m) (hneed : need q ≤ removed.length) :
    Fired root gate members need q := by
  apply Fired.gate removed hq _ hfired hneed
  exact (List.sublist_append_left removed left).subperm.trans hperm.subperm

/-- A set that has the roots, and every gate but those whose members outside the set
have left too few removed, has all that fires. -/
theorem Fired.least {P : α → Prop} (hroot : ∀ x, root x → P x)
    (hgate : ∀ q, gate q → ¬ P q → ∃ removed left : List α, (removed ++ left).Perm (members q) ∧
      (∀ m ∈ left, ¬ P m) ∧ removed.length < need q)
    {x : α} (h : Fired root gate members need x) : P x := by
  classical
  induction h with
  | root hx => exact hroot _ hx
  | @gate q ms hq hsub _ hneed ih =>
    by_contra hP
    rcases hgate q hq hP with ⟨removed, left, hperm, hleft, hshort⟩
    have hms : ms.filter (fun m => decide (P m)) = ms :=
      List.filter_eq_self.2 fun m hm => decide_eq_true (ih m hm)
    have hnone : left.filter (fun m => decide (P m)) = [] :=
      List.filter_eq_nil_iff.2 fun m hm => by simpa using hleft m hm
    have hle := ((hsub.trans hperm.symm.subperm).filter (fun m => decide (P m))).length_le
    rw [hms, List.filter_append, hnone, List.append_nil] at hle
    have hremoved := List.length_filter_le (fun m => decide (P m)) removed
    omega

end Quorum
end Psets
