/-
Heaps over a tree of positions.

Every position but the root has a parent before it, and a key.  A position that holds
nothing has the greatest key there is, so a heap says nothing about it.  One key may be out
of place: it rises to the root as long as it is too small, or sinks as long as it is too
large, and then the keys are a heap again.
-/
import Mathlib.Logic.Equiv.Basic
import Mathlib.Order.WithBot

namespace Psets
namespace Containers

variable {κ : Type} [LinearOrder κ] {parent : Nat → Nat} {v v' : Nat → κ} {pos c n : Nat}

/-- No key is less than that of its parent. -/
def IsHeap (parent : Nat → Nat) (v : Nat → κ) : Prop := ∀ i, i ≠ 0 → v (parent i) ≤ v i

/-- A heap, but for a key at `pos` that may be too small. -/
structure Rising (parent : Nat → Nat) (v : Nat → κ) (pos : Nat) : Prop where
  others : ∀ i, i ≠ 0 → i ≠ pos → v (parent i) ≤ v i
  around : pos ≠ 0 → ∀ i, i ≠ 0 → parent i = pos → v (parent pos) ≤ v i

/-- A heap, but for a key at `pos` that may be too large. -/
structure Sinking (parent : Nat → Nat) (v : Nat → κ) (pos : Nat) : Prop where
  others : ∀ i, i ≠ 0 → parent i ≠ pos → v (parent i) ≤ v i
  around : pos ≠ 0 → ∀ i, i ≠ 0 → parent i = pos → v (parent pos) ≤ v i

/-- The keys with those at two positions exchanged. -/
def swapped (v : Nat → κ) (i j : Nat) : Nat → κ := fun k => v (Equiv.swap i j k)

omit [LinearOrder κ] in
@[simp] theorem swapped_left (i j : Nat) : swapped v i j i = v j := by simp [swapped]

omit [LinearOrder κ] in
@[simp] theorem swapped_right (i j : Nat) : swapped v i j j = v i := by simp [swapped]

omit [LinearOrder κ] in
theorem swapped_of_ne {i j k : Nat} (hi : k ≠ i) (hj : k ≠ j) : swapped v i j k = v k := by
  rw [swapped, Equiv.swap_apply_of_ne_of_ne hi hj]

/-- The root has the least key. -/
theorem IsHeap.root_le (hp : ∀ i, i ≠ 0 → parent i < i) (h : IsHeap parent v) (i : Nat) :
    v 0 ≤ v i := by
  induction i using Nat.strong_induction_on with
  | _ i ih =>
    obtain rfl | hi := eq_or_ne i 0
    · exact le_refl _
    · exact (ih _ (hp i hi)).trans (h i hi)

/-- The loop that looks for the least of some keys. -/
theorem foldl_least {less : Nat → Nat → Bool} {l : List Nat} (s : Nat)
    (hless : ∀ i ∈ s :: l, ∀ j ∈ s :: l, less i j = true ↔ v i < v j) :
    let r := l.foldl (fun s t => if less t s then t else s) s
    r ∈ s :: l ∧ (∀ t ∈ s :: l, v r ≤ v t) ∧ (r ≠ s → v r < v s) := by
  induction l generalizing s with
  | nil => simp
  | cons t l ih =>
    rw [List.foldl_cons]
    by_cases hts : less t s = true
    · rw [if_pos hts]
      have hlt := (hless t (by simp) s (by simp)).1 hts
      obtain ⟨hmem, hle, -⟩ := ih t fun i hi j hj =>
        hless i (List.mem_cons_of_mem _ hi) j (List.mem_cons_of_mem _ hj)
      have hlt' := (hle t List.mem_cons_self).trans_lt hlt
      refine ⟨List.mem_cons_of_mem _ hmem, fun u hu => ?_, fun _ => hlt'⟩
      rcases List.mem_cons.1 hu with rfl | hu
      · exact hlt'.le
      · exact hle u hu
    · rw [if_neg hts]
      have hge : v s ≤ v t := not_lt.1 fun hlt => hts ((hless t (by simp) s (by simp)).2 hlt)
      obtain ⟨hmem, hle, hlt⟩ := ih s fun i hi j hj => by
        refine hless i ?_ j ?_
        · rcases List.mem_cons.1 hi with rfl | hi <;> simp_all
        · rcases List.mem_cons.1 hj with rfl | hj <;> simp_all
      refine ⟨?_, fun u hu => ?_, hlt⟩
      · rcases List.mem_cons.1 hmem with hr | hr
        · rw [hr]
          exact List.mem_cons_self
        · exact List.mem_cons_of_mem _ (List.mem_cons_of_mem _ hr)
      · rcases List.mem_cons.1 hu with rfl | hu
        · exact hle u List.mem_cons_self
        · rcases List.mem_cons.1 hu with rfl | hu
          · exact (hle s List.mem_cons_self).trans hge
          · exact hle u (List.mem_cons_of_mem _ hu)

/-! ## A key that rises -/

theorem Rising.swap (hp : ∀ i, i ≠ 0 → parent i < i) (h : Rising parent v pos) (hpos : pos ≠ 0)
    (hlt : v pos < v (parent pos)) : Rising parent (swapped v pos (parent pos)) (parent pos) := by
  have hpp := hp pos hpos
  constructor
  · intro i hi hip
    by_cases hpi : i = pos
    · subst hpi
      simp [hlt.le]
    · rw [swapped_of_ne hpi hip]
      by_cases h1 : parent i = pos
      · rw [h1, swapped_left]
        exact h.around hpos i hi h1
      · have hle := h.others i hi hpi
        by_cases h2 : parent i = parent pos
        · rw [h2, swapped_right]
          exact hlt.le.trans (h2 ▸ hle)
        · rw [swapped_of_ne h1 h2]
          exact hle
  · intro hpne i hi hpi
    have hppp := hp (parent pos) hpne
    have htop : v (parent (parent pos)) ≤ v (parent pos) := h.others (parent pos) hpne (by omega)
    rw [swapped_of_ne (by omega) (by omega)]
    by_cases hpi' : i = pos
    · rw [hpi', swapped_left]
      exact htop
    · have hi' := hp i hi
      rw [swapped_of_ne hpi' (by omega)]
      exact htop.trans (hpi ▸ h.others i hi hpi')

theorem Rising.isHeap (h : Rising parent v pos) (hle : pos ≠ 0 → v (parent pos) ≤ v pos) :
    IsHeap parent v := by
  intro i hi
  by_cases hpi : i = pos
  · subst hpi
    exact hle hi
  · exact h.others i hi hpi

/-! ## A key that sinks -/

theorem Sinking.swap (hp : ∀ i, i ≠ 0 → parent i < i) (h : Sinking parent v pos) (hc : c ≠ 0)
    (hpc : parent c = pos) (hlt : v c < v pos)
    (hleast : ∀ i, i ≠ 0 → parent i = pos → v c ≤ v i) :
    Sinking parent (swapped v pos c) c := by
  have hcpos := hp c hc
  constructor
  · intro i hi hpi
    by_cases hic : i = c
    · subst hic
      simp [hpc, hlt.le]
    · by_cases hip : i = pos
      · subst hip
        have hpp := hp i hi
        rw [swapped_left, swapped_of_ne (by omega) (by omega)]
        exact h.around hi c hc hpc
      · rw [swapped_of_ne hip hic]
        by_cases h1 : parent i = pos
        · rw [h1, swapped_left]
          exact hleast i hi h1
        · rw [swapped_of_ne h1 hpi]
          exact h.others i hi h1
  · intro _ i hi hpi
    have hi' := hp i hi
    rw [hpc, swapped_left, swapped_of_ne (by omega) (by omega)]
    exact hpi ▸ h.others i hi (by omega)

theorem Sinking.isHeap (h : Sinking parent v pos)
    (hleast : ∀ i, i ≠ 0 → parent i = pos → v pos ≤ v i) : IsHeap parent v := by
  intro i hi
  by_cases hpi : parent i = pos
  · rw [hpi]
    exact hleast i hi hpi
  · exact h.others i hi hpi

/-! ## A key that comes, and one that goes -/

variable [OrderTop κ]

/-- A new key at the end. -/
theorem IsHeap.append (hp : ∀ i, i ≠ 0 → parent i < i) (h : IsHeap parent v)
    (hend : ∀ i, n < i → v' i = ⊤) (hbefore : ∀ i, i < n → v' i = v i) :
    Rising parent v' n := by
  constructor
  · intro i hi hin
    rcases lt_or_gt_of_ne hin with hlt | hgt
    · rw [hbefore i hlt, hbefore _ ((hp i hi).trans hlt)]
      exact h i hi
    · rw [hend i hgt]
      exact le_top
  · intro _ i hi hpi
    rw [hend i (hpi ▸ hp i hi)]
    exact le_top

/-- The last keys go. -/
theorem IsHeap.truncate (hp : ∀ i, i ≠ 0 → parent i < i) (h : IsHeap parent v)
    (hend : ∀ i, n ≤ i → v' i = ⊤) (hbefore : ∀ i, i < n → v' i = v i) : IsHeap parent v' := by
  intro i hi
  by_cases hin : i < n
  · rw [hbefore i hin, hbefore _ ((hp i hi).trans hin)]
    exact h i hi
  · rw [hend i (not_lt.1 hin)]
    exact le_top

section

variable (hp : ∀ i, i ≠ 0 → parent i < i) (h : IsHeap parent v) (hend : ∀ i, n ≤ i → v' i = ⊤)
  (hothers : ∀ i, i < n → i ≠ pos → v' i = v i)

include hp h hend hothers

theorem IsHeap.others_replaced (i : Nat) (hi : i ≠ 0) (hip : i ≠ pos) (hpi : parent i ≠ pos) :
    v' (parent i) ≤ v' i := by
  by_cases hin : i < n
  · have hlt := hp i hi
    rw [hothers i hin hip, hothers _ (by omega) hpi]
    exact h i hi
  · rw [hend i (by omega)]
    exact le_top

variable (hpos : pos < n)

include hpos

theorem IsHeap.around_replaced (hne : pos ≠ 0) (i : Nat) (hi : i ≠ 0) (hpi : parent i = pos) :
    v' (parent pos) ≤ v' i := by
  have hpp := hp pos hne
  have hip := hp i hi
  rw [hothers _ (by omega) (by omega)]
  by_cases hin : i < n
  · rw [hothers i hin (by omega)]
    exact (h pos hne).trans (hpi ▸ h i hi)
  · rw [hend i (by omega)]
    exact le_top

/-- Another key in the place of the one at `pos`, less than that of its parent. -/
theorem IsHeap.rising (hne : pos ≠ 0) (hlt : v' pos < v' (parent pos)) :
    Rising parent v' pos := by
  refine ⟨fun i hi hip => ?_, fun hne => h.around_replaced hp hend hothers hpos hne⟩
  by_cases hpi : parent i = pos
  · rw [hpi]
    exact hlt.le.trans (h.around_replaced hp hend hothers hpos hne i hi hpi)
  · exact h.others_replaced hp hend hothers i hi hip hpi

/-- Another key in the place of the one at `pos`, not less than that of its parent. -/
theorem IsHeap.sinking (hle : pos ≠ 0 → v' (parent pos) ≤ v' pos) : Sinking parent v' pos := by
  refine ⟨fun i hi hpi => ?_, fun hne => h.around_replaced hp hend hothers hpos hne⟩
  by_cases hip : i = pos
  · subst hip
    exact hle hi
  · exact h.others_replaced hp hend hothers i hi hip hpi

end

/-! ## The keys of an array -/

variable {α ι : Type}

/-- The keys of the elements, and nothing after them. -/
def keysOf (key : α → ι) (es : Array α) : Nat → WithTop ι := fun i =>
  match es[i]? with
  | some x => ↑(key x)
  | none => ⊤

theorem keysOf_eq {key : α → ι} {es : Array α} {i : Nat} (h : i < es.size) :
    keysOf key es i = ↑(key es[i]) := by
  rw [keysOf, Array.getElem?_eq_getElem h]

theorem keysOf_top {key : α → ι} {es : Array α} {i : Nat} (h : es.size ≤ i) :
    keysOf key es i = ⊤ := by
  rw [keysOf, Array.getElem?_eq_none h]

theorem keysOf_swap {key : α → ι} {es : Array α} {i j : Nat} (hi : i < es.size)
    (hj : j < es.size) : keysOf key (es.swapIfInBounds i j) = swapped (keysOf key es) i j := by
  funext k
  rw [keysOf, swapped, keysOf, Array.swapIfInBounds_def, dif_pos hi, dif_pos hj,
    Array.getElem?_swap]
  by_cases hki : k = i
  · subst hki
    rw [Equiv.swap_apply_left, if_pos rfl]
    by_cases hjk : j = k
    · simp [hjk, hi]
    · simp [hjk, hj]
  · by_cases hkj : k = j
    · subst hkj
      simp [hi]
    · rw [Equiv.swap_apply_of_ne_of_ne hki hkj, if_neg (Ne.symm hkj), if_neg (Ne.symm hki)]

theorem keysOf_pop {key : α → ι} {es : Array α} {i : Nat} (hi : i < es.size - 1) :
    keysOf key es.pop i = keysOf key es i := by
  rw [keysOf, keysOf, Array.getElem?_pop, if_pos hi]

theorem keysOf_push {key : α → ι} {es : Array α} {i : Nat} (x : α) (hi : i < es.size) :
    keysOf key (es.push x) i = keysOf key es i := by
  rw [keysOf, keysOf, Array.getElem?_push_lt hi, Array.getElem?_eq_getElem hi]

/-- The last element, and the others. -/
theorem cons_pop_perm (es : Array α) (h : es.size - 1 < es.size) :
    (es[es.size - 1] :: es.pop.toList).Perm es.toList := by
  have hne : es.toList ≠ [] := by
    intro hnil
    rw [← Array.length_toList, hnil] at h
    exact absurd h (by simp)
  have hlast : es[es.size - 1] = es.toList.getLast hne := by
    rw [List.getLast_eq_getElem, ← Array.getElem_toList]
    rfl
  rw [hlast, Array.toList_pop]
  refine (List.perm_append_singleton _ _).symm.trans ?_
  rw [List.dropLast_concat_getLast]

theorem swapIfInBounds_perm (es : Array α) (i j : Nat) : (es.swapIfInBounds i j).Perm es := by
  rw [Array.swapIfInBounds_def]
  split
  · split
    · exact Array.swap_perm _ _
    · exact .refl es
  · exact .refl es

/-- The element at `pos` leaves, and the last one takes its place. -/
theorem cons_swap_pop_perm {es : Array α} {pos : Nat} (h : pos < es.size) :
    (es[pos] :: (es.swapIfInBounds (es.size - 1) pos).pop.toList).Perm es.toList := by
  have hend : es.size - 1 < es.size := by omega
  have hsize : (es.swapIfInBounds (es.size - 1) pos).size = es.size := Array.size_swapIfInBounds
  have hin : es.size - 1 < (es.swapIfInBounds (es.size - 1) pos).size := by omega
  have hlast : (es.swapIfInBounds (es.size - 1) pos)[es.size - 1] = es[pos] := by
    simp only [Array.swapIfInBounds_def, dif_pos hend, dif_pos h, Array.getElem_swap_left]
  have hpop := cons_pop_perm (es.swapIfInBounds (es.size - 1) pos) (by omega)
  simp only [hsize, hlast] at hpop
  exact hpop.trans (swapIfInBounds_perm es _ pos).toList

end Containers
end Psets
