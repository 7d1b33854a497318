/-
The order in which timers leave the heap.

As long as the insertions of all pending timers are within half the range of the counter,
the comparison of the code is the order by time and insertion.  As long as no removal is
from a heap so large that the position of a child overflows, the elements stay a heap.
-/
import Mathlib.Algebra.Order.Archimedean.Basic
import Mathlib.Data.Int.ConditionallyCompleteOrder
import Mathlib.Data.Prod.Lex
import Psets.Containers.Heap
import Psets.Cotamer.TimerHeap

namespace Psets
namespace Cotamer

open Containers

/-- Two counts that are less than half the range apart are compared as they are. -/
theorem CircularInt.cmp_eq_lt_iff {m n : Nat} (hmn : m < n + 2 ^ 31) (hnm : n < m + 2 ^ 31) :
    (CircularInt.mk (BitVec.ofNat 32 m)).cmp ⟨BitVec.ofNat 32 n⟩ = .lt ↔ m < n := by
  have hdiff : (BitVec.ofNat 32 m - BitVec.ofNat 32 n).toInt = (m : Int) - n := by
    rw [BitVec.toInt_sub, BitVec.toInt_ofNat', BitVec.toInt_ofNat', Int.bmod_sub_bmod,
      Int.sub_bmod_bmod, Int.bmod_eq_of_le]
    · omega
    · omega
  rw [cmp]
  by_cases heq : BitVec.ofNat 32 m = BitVec.ofNat 32 n
  · rw [if_pos heq]
    rw [heq, BitVec.sub_self] at hdiff
    have hzero : (0 : Int) = (m : Int) - n := hdiff
    simp only [reduceCtorEq, false_iff]
    omega
  · simp only [heq, if_false, hdiff]
    split
    · simp only [true_iff]
      omega
    · simp only [reduceCtorEq, false_iff]
      omega

namespace TimerHeap

variable {T : Type} {arity : Nat} {es es' : Array (Element T)} {pos : Nat} {x y : Element T}

/-! ## Positions -/

theorem parent_lt (ha : 2 ≤ arity) (i : Nat) (hi : i ≠ 0) : heapParent arity i < i := by
  have hle : unsigned (i + 2 ^ 32 - (arity == 2).toNat) ≤ i := by
    have hb := Bool.toNat_le (arity == 2)
    rw [unsigned]
    omega
  exact (Nat.div_le_div_right hle).trans_lt (Nat.div_lt_self (Nat.pos_of_ne_zero hi) ha)

/-- A heap whose positions have children without an overflow. -/
def Fits (arity size : Nat) : Prop := size * arity ≤ 2 ^ 32

/-- The positions from the first child to the last are those of the children. -/
theorem child_iff {size t : Nat} (ha : 2 ≤ arity) (hf : Fits arity size) (hpos : pos < size) :
    heapFirstChild arity pos ≤ t ∧ t < heapLastChild arity size pos ↔
      t ≠ 0 ∧ t < size ∧ heapParent arity t = pos := by
  have hsize : size * 2 ≤ size * arity := Nat.mul_le_mul_left size ha
  have hspan : pos * arity + arity ≤ size * arity := by
    rw [← Nat.succ_mul]
    exact Nat.mul_le_mul_right arity hpos
  have hb := Bool.toNat_le (arity == 2)
  have hpos0 : pos = 0 → pos * arity = 0 := fun h => by rw [h, Nat.zero_mul]
  have hle : pos ≤ pos * arity := Nat.le_mul_of_pos_right pos (by omega)
  rw [Fits] at hf
  have hfirst : heapFirstChild arity pos = pos * arity + (arity == 2 || pos == 0).toNat := by
    have hb' := Bool.toNat_le (arity == 2 || pos == 0)
    rw [heapFirstChild, unsigned, Nat.mod_eq_of_lt (by omega)]
  have hparent : ∀ t, t ≠ 0 → t < size →
      (heapParent arity t = pos ↔ pos * arity + (arity == 2).toNat ≤ t ∧
        t < pos * arity + arity + (arity == 2).toNat) := by
    intro t ht0 ht
    have hu : unsigned (t + 2 ^ 32 - (arity == 2).toNat) = t - (arity == 2).toNat := by
      rw [unsigned]
      omega
    rw [heapParent, hu, Nat.div_eq_iff (by omega)]
    omega
  have hlo : (arity == 2 || pos == 0).toNat = 1 ∧ (pos = 0 ∨ (arity == 2).toNat = 1) ∨
      (arity == 2 || pos == 0).toNat = 0 ∧ pos ≠ 0 ∧ (arity == 2).toNat = 0 := by
    cases h2 : arity == 2 <;> cases h0 : pos == 0 <;> simp_all
  have hlast : heapLastChild arity size pos = min (pos * arity + arity + (arity == 2).toNat) size ∨
      size = pos + 1 ∧ heapLastChild arity size pos ≤ 1 := by
    by_cases hwrap : pos * arity + arity + (arity == 2).toNat < 2 ^ 32
    · left
      rw [heapLastChild, unsigned, Nat.mod_eq_of_lt hwrap]
      grind
    · right
      have hlt : size ≤ pos + 1 := by
        by_contra hgt
        have hmore : (pos + 2) * arity ≤ size * arity := Nat.mul_le_mul_right arity (by omega)
        rw [Nat.add_mul] at hmore
        omega
      have hp : unsigned (pos * arity + arity + (arity == 2).toNat) ≤ 1 := by
        rw [unsigned]
        omega
      refine ⟨by omega, ?_⟩
      rw [heapLastChild]
      grind
  rw [hfirst]
  constructor
  · rintro ⟨hge, hlt⟩
    rcases hlast with hlast | ⟨hend, hlast⟩
    · rw [hlast] at hlt
      have ht0 : t ≠ 0 := by omega
      refine ⟨ht0, by omega, ?_⟩
      rw [hparent t ht0 (by omega)]
      omega
    · omega
  · rintro ⟨ht0, ht, hpt⟩
    have hpt' := (hparent t ht0 ht).1 hpt
    rcases hlast with hlast | ⟨hend, hlast⟩
    · rw [hlast]
      omega
    · have hlt := parent_lt ha t ht0
      omega

/-! ## The order -/

/-- The order in which elements leave: by time, and by insertion within one time. -/
def Element.Before (x y : Element T) : Prop :=
  x.when < y.when ∨ x.when = y.when ∧ x.serial < y.serial

def Element.key (x : Element T) : Int ×ₗ Nat := toLex (x.when, x.serial)

theorem Element.key_lt_iff : x.key < y.key ↔ x.Before y := Prod.Lex.toLex_lt_toLex

/-- The counter has the last bits of every number of insertion. -/
def Counted (es : Array (Element T)) : Prop := ∀ x ∈ es, x.order = ⟨BitVec.ofNat 32 x.serial⟩

/-- The insertions of the elements are within half the range of the counter. -/
def Window (es : Array (Element T)) : Prop := ∀ x ∈ es, ∀ y ∈ es, x.serial < y.serial + 2 ^ 31

/-- The code compares the elements as their keys are. -/
def Comparable (es : Array (Element T)) : Prop :=
  ∀ x ∈ es, ∀ y ∈ es, x.less y = true ↔ x.key < y.key

theorem Counted.comparable (hc : Counted es) (hw : Window es) : Comparable es := by
  intro x hx y hy
  have hcmp : x.order.cmp y.order = .lt ↔ x.serial < y.serial := by
    rw [hc x hx, hc y hy]
    exact CircularInt.cmp_eq_lt_iff (hw x hx y hy) (hw y hy x hx)
  rw [Element.key_lt_iff, Element.less, Element.Before, ← hcmp]
  simp

theorem Comparable.mono (h : Comparable es) (hsub : ∀ x ∈ es', x ∈ es) : Comparable es' :=
  fun x hx y hy => h x (hsub x hx) y (hsub y hy)

theorem Comparable.lessAt_iff (h : Comparable es) {i j : Nat} (hi : i < es.size)
    (hj : j < es.size) :
    lessAt es i j = true ↔ keysOf Element.key es i < keysOf Element.key es j := by
  rw [lessAt, Array.getElem?_eq_getElem hi, Array.getElem?_eq_getElem hj, keysOf_eq hi,
    keysOf_eq hj, WithTop.coe_lt_coe]
  exact h _ (Array.getElem_mem hi) _ (Array.getElem_mem hj)

/-! ## Towards the root -/

/-- The loop ends. -/
theorem siftUp_returns (ha : 2 ≤ arity) {fuel : Nat} (hf : pos < fuel)
    (es : Array (Element T)) : ∃ es', siftUp arity fuel es pos = some es' := by
  induction fuel generalizing es pos with
  | zero => exact absurd hf (Nat.not_lt_zero _)
  | succ fuel ih =>
    rw [siftUp]
    split
    · rename_i hpos
      have hlt := parent_lt ha pos hpos.1
      exact ih (by omega) _
    · exact ⟨es, rfl⟩

theorem siftUp_perm {fuel : Nat} (h : siftUp arity fuel es pos = some es') : es'.Perm es := by
  induction fuel generalizing es pos with
  | zero => cases h
  | succ fuel ih =>
    rw [siftUp] at h
    split at h
    · exact (ih h).trans (swapIfInBounds_perm es _ _)
    · rw [Option.some.inj h]

theorem siftUp_isHeap (ha : 2 ≤ arity) {fuel : Nat} (hpos : pos < es.size) (hc : Comparable es)
    (hr : Rising (heapParent arity) (keysOf Element.key es) pos)
    (h : siftUp arity fuel es pos = some es') :
    IsHeap (heapParent arity) (keysOf Element.key es') := by
  induction fuel generalizing es pos with
  | zero => cases h
  | succ fuel ih =>
    rw [siftUp] at h
    split at h
    · rename_i hne
      have hp := (parent_lt ha pos hne.1).trans hpos
      have hswap := swapIfInBounds_perm es pos (heapParent arity pos)
      refine ih (by rwa [Array.size_swapIfInBounds]) (hc.mono fun x hx => hswap.mem_iff.1 hx) ?_ h
      rw [keysOf_swap hpos hp]
      exact hr.swap (parent_lt ha) hne.1 ((hc.lessAt_iff hpos hp).1 hne.2)
    · rename_i hstop
      obtain rfl := Option.some.inj h
      refine hr.isHeap fun hne => not_lt.1 fun hlt => hstop ⟨hne, ?_⟩
      exact (hc.lessAt_iff hpos ((parent_lt ha pos hne).trans hpos)).2 hlt

/-! ## Away from the root -/

theorem siftDown_perm {fuel : Nat} (h : siftDown arity fuel es pos = some es') : es'.Perm es := by
  induction fuel generalizing es pos with
  | zero => cases h
  | succ fuel ih =>
    rw [siftDown] at h
    split at h
    · rw [Option.some.inj h]
    · exact (ih h).trans (swapIfInBounds_perm es _ _)

/-- What the loop over the children comes to. -/
theorem smallest_spec (ha : 2 ≤ arity) (hf : Fits arity es.size) (hpos : pos < es.size)
    (hc : Comparable es) :
    let s := smallest arity es pos
    (s ≠ pos → s ≠ 0 ∧ s < es.size ∧ heapParent arity s = pos ∧
      keysOf Element.key es s < keysOf Element.key es pos) ∧
    ∀ i, i ≠ 0 → heapParent arity i = pos → keysOf Element.key es s ≤ keysOf Element.key es i := by
  let children := List.range' (heapFirstChild arity pos)
    (heapLastChild arity es.size pos - heapFirstChild arity pos)
  have hmem : ∀ t, t ∈ children ↔ t ≠ 0 ∧ t < es.size ∧ heapParent arity t = pos := by
    intro t
    rw [← child_iff ha hf hpos, List.mem_range'_1]
    omega
  have hbound : ∀ t ∈ pos :: children, t < es.size := by
    intro t ht
    rcases List.mem_cons.1 ht with rfl | ht
    · exact hpos
    · exact ((hmem t).1 ht).2.1
  have hless : ∀ i ∈ pos :: children, ∀ j ∈ pos :: children, lessAt es i j = true ↔
      keysOf Element.key es i < keysOf Element.key es j :=
    fun i hi j hj => hc.lessAt_iff (hbound i hi) (hbound j hj)
  obtain ⟨hs, hle, hlt⟩ := foldl_least pos hless
  refine ⟨fun hne => ?_, fun i hi hpi => ?_⟩
  · obtain ⟨h0, hsize, hp⟩ := (hmem _).1 ((List.mem_cons.1 hs).resolve_left hne)
    exact ⟨h0, hsize, hp, hlt hne⟩
  · by_cases hin : i < es.size
    · exact hle i (List.mem_cons_of_mem _ ((hmem i).2 ⟨hi, hin, hpi⟩))
    · rw [keysOf_top (not_lt.1 hin)]
      exact le_top

theorem siftDown_spec (ha : 2 ≤ arity) {fuel : Nat} (hpos : pos < es.size)
    (hfuel : es.size ≤ fuel + pos) (hf : Fits arity es.size) (hc : Comparable es)
    (hs : Sinking (heapParent arity) (keysOf Element.key es) pos) :
    ∃ es', siftDown arity fuel es pos = some es' ∧ es'.Perm es ∧
      IsHeap (heapParent arity) (keysOf Element.key es') := by
  induction fuel generalizing es pos with
  | zero => omega
  | succ fuel ih =>
    obtain ⟨hchild, hleast⟩ := smallest_spec ha hf hpos hc
    rw [siftDown]
    split
    · rename_i heq
      rw [heq] at hleast
      exact ⟨es, rfl, .refl es, hs.isHeap hleast⟩
    · rename_i hne
      obtain ⟨h0, hsize, hp, hlt⟩ := hchild hne
      have hgt := parent_lt ha _ h0
      have hswap := swapIfInBounds_perm es pos (smallest arity es pos)
      have hsink := hs.swap (parent_lt ha) h0 hp hlt hleast
      rw [← keysOf_swap hpos hsize] at hsink
      obtain ⟨es', hes, hperm, hheap⟩ := ih (by rwa [Array.size_swapIfInBounds])
        (by rw [Array.size_swapIfInBounds]; omega) (by rwa [Array.size_swapIfInBounds])
        (hc.mono fun x hx => hswap.mem_iff.1 hx) hsink
      exact ⟨es', hes, hperm.trans hswap, hheap⟩

/-! ## Removing an element -/

/-- The element at `pos` leaves, and no other. -/
theorem hardCull_spec (ha : 2 ≤ arity) (h : TimerHeap T) (hpos : pos < h.es.size)
    (hf : Fits arity (h.es.size - 1)) (hc : Comparable h.es)
    (hheap : IsHeap (heapParent arity) (keysOf Element.key h.es)) :
    ∃ es', hardCull arity h pos = some { h with es := es' } ∧
      (h.es[pos] :: es'.toList).Perm h.es.toList ∧
      IsHeap (heapParent arity) (keysOf Element.key es') := by
  have hend : h.es.size - 1 < h.es.size := by omega
  rw [hardCull]
  by_cases hlast : pos = h.es.size - 1
  · subst hlast
    refine ⟨h.es.pop, by simp, cons_pop_perm h.es hend, ?_⟩
    refine hheap.truncate (n := h.es.size - 1) (parent_lt ha) (fun i hi => keysOf_top ?_)
      fun i hi => keysOf_pop hi
    rwa [Array.size_pop]
  · have hlt : pos < h.es.size - 1 := by omega
    have hperm := cons_swap_pop_perm hpos
    generalize hes₁ : (h.es.swapIfInBounds (h.es.size - 1) pos).pop = es₁ at hperm
    have hsize : es₁.size = h.es.size - 1 := by
      rw [← hes₁, Array.size_pop, Array.size_swapIfInBounds]
    have hpos₁ : pos < es₁.size := by omega
    have hc₁ : Comparable es₁ := hc.mono fun x hx => by
      have hmem : x ∈ h.es[pos] :: es₁.toList := List.mem_cons_of_mem _ (Array.mem_toList_iff.2 hx)
      exact Array.mem_toList_iff.1 (hperm.mem_iff.1 hmem)
    have hothers : ∀ i, i < h.es.size - 1 → i ≠ pos →
        keysOf Element.key es₁ i = keysOf Element.key h.es i := by
      intro i hi hne
      rw [← hes₁, keysOf_pop (by rwa [Array.size_swapIfInBounds]), keysOf_swap hend hpos,
        swapped_of_ne (by omega) hne]
    have htop : ∀ i, h.es.size - 1 ≤ i → keysOf Element.key es₁ i = ⊤ :=
      fun i hi => keysOf_top (by omega)
    rw [if_neg hlast]
    dsimp only
    by_cases hup : pos = 0 ∨ lessAt es₁ pos (heapParent arity pos) = false
    · have hsink : Sinking (heapParent arity) (keysOf Element.key es₁) pos := by
        refine hheap.sinking (parent_lt ha) htop hothers hlt fun hne => not_lt.1 fun hless => ?_
        have hp := (parent_lt ha pos hne).trans hpos₁
        rw [← hc₁.lessAt_iff hpos₁ hp, hup.resolve_left hne] at hless
        cases hless
      obtain ⟨es', hes', hperm', hheap'⟩ := siftDown_spec ha hpos₁
        (show es₁.size ≤ h.es.size + pos by omega) (by rwa [hsize]) hc₁ hsink
      refine ⟨es', ?_, (hperm'.toList.cons _).trans hperm, hheap'⟩
      rw [if_pos hup, hes']
      rfl
    · have hne : pos ≠ 0 := fun h0 => hup (.inl h0)
      have hless : lessAt es₁ pos (heapParent arity pos) = true := by
        rw [← Bool.not_eq_false]
        exact fun h => hup (.inr h)
      have hp := (parent_lt ha pos hne).trans hpos₁
      have hrise : Rising (heapParent arity) (keysOf Element.key es₁) pos :=
        hheap.rising (parent_lt ha) htop hothers hlt hne ((hc₁.lessAt_iff hpos₁ hp).1 hless)
      obtain ⟨es', hes'⟩ := siftUp_returns ha hpos es₁
      refine ⟨es', ?_, ((siftUp_perm hes').toList.cons _).trans hperm,
        siftUp_isHeap ha hpos₁ hc₁ hrise hes'⟩
      rw [if_neg hup, hes']
      rfl

end TimerHeap
end Cotamer
end Psets
