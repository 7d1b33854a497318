/-
Lists in lexicographic order and their prefixes.

The lists that start with one prefix are contiguous in the order, so a sorted list
of keys falls into blocks, one for each prefix.
-/
import Mathlib.Data.List.Lex
import Mathlib.Data.List.Perm.Basic
import Mathlib.Order.Lattice

namespace Psets
namespace PrefixOrder

variable {α : Type} [LinearOrder α]

theorem prefix_of_between {p a b c : List α} (ha : p <+: a) (hc : p <+: c) (hab : a ≤ b)
    (hbc : b ≤ c) : p <+: b := by
  induction p generalizing a b c with
  | nil => exact List.nil_prefix
  | cons x p ih =>
    obtain ⟨a', rfl⟩ := ha
    obtain ⟨c', rfl⟩ := hc
    rw [List.cons_append] at hab hbc
    cases b with
    | nil => exact absurd (List.nil_lt_cons _ _) (not_lt.2 hab)
    | cons y b =>
      have hxy : ¬ y < x := fun h => not_lt.2 hab (List.cons_lt_cons_iff.2 (Or.inl h))
      have hyx : ¬ x < y := fun h => not_lt.2 hbc (List.cons_lt_cons_iff.2 (Or.inl h))
      have he : y = x := le_antisymm (not_lt.1 hyx) (not_lt.1 hxy)
      subst he
      rw [List.prefix_cons_inj]
      refine ih (List.prefix_append p a') (List.prefix_append p c') ?_ ?_
      · exact not_lt.1 fun h => not_lt.2 hab (List.cons_lt_cons_iff.2 (Or.inr ⟨rfl, h⟩))
      · exact not_lt.1 fun h => not_lt.2 hbc (List.cons_lt_cons_iff.2 (Or.inr ⟨rfl, h⟩))

/-- The block of the prefix that the first key has comes first. -/
theorem filter_append_filter {V : Type} {p : List α} {l : List (List α × V)}
    (hsorted : l.Pairwise fun a b => a.1 < b.1) (hhead : ∀ e ∈ l.head?, p <+: e.1) :
    l = l.filter (fun e => p.isPrefixOf e.1) ++ l.filter fun e => !p.isPrefixOf e.1 := by
  induction l with
  | nil => rfl
  | cons e l ih =>
    have he : p <+: e.1 := hhead e rfl
    obtain ⟨hlt, hl⟩ := List.pairwise_cons.1 hsorted
    have heb : p.isPrefixOf e.1 = true := List.isPrefixOf_iff_prefix.2 he
    rw [List.filter_cons, if_pos heb, List.filter_cons, if_neg (by rw [heb]; simp),
      List.cons_append]
    congr 1
    by_cases hp : ∀ e' ∈ l.head?, p <+: e'.1
    · exact ih hl hp
    · -- the next key leaves the block, so no later key is in it
      have hnone : ∀ e' ∈ l, ¬ p <+: e'.1 := by
        intro e' he' hpre
        cases l with
        | nil => exact absurd he' List.not_mem_nil
        | cons f l =>
          refine hp fun f' hf' => ?_
          obtain rfl : f = f' := Option.some.inj hf'
          refine prefix_of_between he hpre (le_of_lt (hlt f List.mem_cons_self)) ?_
          rcases List.mem_cons.1 he' with rfl | he'
          · exact le_rfl
          · exact le_of_lt ((List.pairwise_cons.1 hl).1 e' he')
      have hfalse : ∀ e' ∈ l, p.isPrefixOf e'.1 = false := fun e' he' =>
        Bool.eq_false_iff.2 fun h => hnone e' he' (List.isPrefixOf_iff_prefix.1 h)
      rw [List.filter_eq_nil_iff.2 fun e' he' => by rw [hfalse e' he']; simp,
        List.filter_eq_self.2 fun e' he' => by rw [hfalse e' he']; rfl, List.nil_append]

/-- A sorted list of entries is determined by its members. -/
theorem eq_of_mem_iff {K V : Type} [LinearOrder K] {l l' : List (K × V)}
    (h : l.Pairwise fun a b => a.1 < b.1) (h' : l'.Pairwise fun a b => a.1 < b.1)
    (hmem : ∀ e, e ∈ l ↔ e ∈ l') : l = l' := by
  have nodup {m : List (K × V)} (hm : m.Pairwise fun a b => a.1 < b.1) : m.Nodup :=
    hm.imp fun hab he => absurd (congrArg Prod.fst he) (ne_of_lt hab)
  refine List.Perm.eq_of_pairwise ?_ h h' ((List.perm_ext_iff_of_nodup (nodup h) (nodup h')).2 hmem)
  intro a b _ _ hab hba
  exact absurd hab (lt_asymm hba)

end PrefixOrder
end Psets
