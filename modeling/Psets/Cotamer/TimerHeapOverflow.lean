/-
A heap that is too large.

The first child of position `2 ^ 30` would be at `2 ^ 32`, which is zero.  Timers that come in
the order of their times leave the array sorted.  With `2 ^ 30 + 2` of them, the element
that `pop` moves to the root sinks down to position `2 ^ 30`, and from there is exchanged with
the top.
-/
import Psets.Cotamer.TimerHeapStable

namespace Psets
namespace Cotamer
namespace TimerHeap

open Containers Transition

/-! ## Timers in the order of their times -/

/-- The timer of time `i`, which is the next after `i` insertions. -/
def entry (i : Nat) : Element Unit := ⟨i, ⟨BitVec.ofNat 32 (i + 1)⟩, (), i + 1⟩

theorem entry_less (i j : Nat) : (entry i).less (entry j) = true ↔ i < j := by
  rw [Element.less]
  by_cases hij : i = j
  · subst hij
    simp [entry, CircularInt.cmp]
  · have hne : (entry i).when ≠ (entry j).when := fun h => hij (Int.ofNat.inj h)
    simp [entry, hij]

/-- At position `i` is the timer of time `σ i`. -/
structure Shows (es : Array (Element Unit)) (n : Nat) (σ : Nat → Nat) : Prop where
  size : es.size = n
  entries : ∀ i, i < n → es[i]? = some (entry (σ i))

variable {es : Array (Element Unit)} {n i j m pos : Nat} {σ : Nat → Nat}

theorem Shows.lessAt_iff (h : Shows es n σ) (hi : i < n) (hj : j < n) :
    lessAt es i j = true ↔ σ i < σ j := by
  rw [lessAt, h.entries i hi, h.entries j hj]
  exact entry_less _ _

theorem Shows.swap (h : Shows es n σ) (hi : i < n) (hj : j < n) :
    Shows (es.swapIfInBounds i j) n (swapped σ i j) := by
  obtain ⟨rfl, hentries⟩ := h
  refine ⟨Array.size_swapIfInBounds, fun k hk => ?_⟩
  rw [swapped, Array.swapIfInBounds_def, dif_pos hi, dif_pos hj, Array.getElem?_swap]
  by_cases hkj : j = k
  · subst hkj
    rw [if_pos rfl, Equiv.swap_apply_right, ← hentries i hi, Array.getElem?_eq_getElem hi]
  · rw [if_neg hkj]
    by_cases hki : i = k
    · subst hki
      rw [if_pos rfl, Equiv.swap_apply_left, ← hentries j hj, Array.getElem?_eq_getElem hj]
    · rw [if_neg hki, Equiv.swap_apply_of_ne_of_ne (Ne.symm hki) (Ne.symm hkj), hentries k hk]

/-- The element that the loop over the children finds. -/
theorem Shows.smallest_eq (h : Shows es n σ) (hpos : pos < n)
    (hbound : heapLastChild 4 n pos ≤ n)
    (hm : m = pos ∨ heapFirstChild 4 pos ≤ m ∧ m < heapLastChild 4 n pos)
    (hle : m ≠ pos → σ m < σ pos)
    (hlt : ∀ t, heapFirstChild 4 pos ≤ t → t < heapLastChild 4 n pos → t ≠ m → σ m < σ t) :
    smallest 4 es pos = m := by
  let children := List.range' (heapFirstChild 4 pos) (heapLastChild 4 n pos - heapFirstChild 4 pos)
  have hmem : ∀ t, t ∈ children ↔ heapFirstChild 4 pos ≤ t ∧ t < heapLastChild 4 n pos := by
    intro t
    rw [List.mem_range'_1]
    omega
  have hin : ∀ t ∈ pos :: children, t < n := by
    intro t ht
    rcases List.mem_cons.1 ht with rfl | ht
    · exact hpos
    · exact (((hmem t).1 ht).2).trans_le hbound
  have hmin : m ∈ pos :: children := hm.elim (fun h => h ▸ List.mem_cons_self)
    fun h => List.mem_cons_of_mem _ ((hmem m).2 h)
  have hless : ∀ i ∈ pos :: children, ∀ j ∈ pos :: children, lessAt es i j = true ↔ σ i < σ j :=
    fun i hi j hj => h.lessAt_iff (hin i hi) (hin j hj)
  obtain ⟨hr, hleast, -⟩ := foldl_least pos hless
  rw [smallest, h.size]
  by_contra hne
  rcases List.mem_cons.1 hr with hr | hr
  · have hlt' := hle fun hmp => hne (hr.trans hmp.symm)
    exact absurd (hr ▸ hleast m hmin) (not_le.2 hlt')
  · obtain ⟨hfirst, hlast⟩ := (hmem _).1 hr
    exact absurd (hleast m hmin) (not_le.2 (hlt _ hfirst hlast hne))

theorem siftDown_round (fuel : Nat) (hs : smallest 4 es pos = m) (hne : m ≠ pos) :
    siftDown 4 (fuel + 1) es pos = siftDown 4 fuel (es.swapIfInBounds pos m) m := by
  rw [siftDown, hs, if_neg hne]

/-! ## Down to the last position -/

/-- Positions whose children have no overflow. -/
theorem children_of_small {pos : Nat} (n : Nat) (h0 : 0 < pos) (hsmall : pos < 2 ^ 30 - 1) :
    heapFirstChild 4 pos = 4 * pos ∧ heapLastChild 4 n pos = min (4 * pos + 4) n := by
  have hb : (4 == 2 || pos == 0).toNat = 0 := by
    have hpos : (pos == 0) = false := by simpa using h0.ne'
    rw [hpos]
    rfl
  have hb' : (4 == 2).toNat = 0 := rfl
  constructor
  · rw [heapFirstChild, unsigned, hb]
    omega
  · rw [heapLastChild, unsigned, hb']
    grind

/-- An element that is greater than all others goes from `c` to `c * 4 ^ k` when the elements
on its way have the least timers. -/
theorem Shows.sink {c : Nat} (hc : 0 < c) (hn : n ≤ 2 ^ 30 + 1) (k : Nat) (hs : Shows es n σ)
    (hk : c * 4 ^ k < n) (hmax : n ≤ σ c)
    (hkids : ∀ l < k, ∀ d < 4, c * 4 ^ (l + 1) + d < n →
      σ (c * 4 ^ (l + 1) + d) = c * 4 ^ (l + 1) + d) :
    ∃ es' σ', (∀ fuel, siftDown 4 (fuel + k) es c = siftDown 4 fuel es' (c * 4 ^ k)) ∧
      Shows es' n σ' ∧ σ' (c * 4 ^ k) = σ c ∧ (∀ l < k, σ' (c * 4 ^ l) = c * 4 ^ (l + 1)) ∧
      ∀ i, (∀ l ≤ k, i ≠ c * 4 ^ l) → σ' i = σ i := by
  induction k with
  | zero =>
    refine ⟨es, σ, fun fuel => ?_, hs, ?_, fun l hl => absurd hl (Nat.not_lt_zero l),
      fun i _ => rfl⟩
    · rw [pow_zero, Nat.mul_one, Nat.add_zero]
    · rw [pow_zero, Nat.mul_one]
  | succ k ih =>
    have hpow : c * 4 ^ (k + 1) = 4 * (c * 4 ^ k) := by
      rw [pow_succ, ← Nat.mul_assoc, Nat.mul_comm]
    have hp : 0 < c * 4 ^ k := Nat.mul_pos hc (Nat.pow_pos (by decide))
    obtain ⟨es', σ', hsift, hs', hσ, hpath, hothers⟩ := ih (by omega) fun l hl => hkids l (by omega)
    -- the children are not on the way so far
    have hkid : ∀ d < 4, 4 * (c * 4 ^ k) + d < n →
        σ' (4 * (c * 4 ^ k) + d) = 4 * (c * 4 ^ k) + d := by
      intro d hd hlt
      rw [hothers, ← hpow, hkids k (Nat.lt_succ_self k) d hd (by omega)]
      intro l hl
      have hle : c * 4 ^ l ≤ c * 4 ^ k :=
        Nat.mul_le_mul_left c (Nat.pow_le_pow_right (by decide) hl)
      omega
    have hkid0 : σ' (4 * (c * 4 ^ k)) = 4 * (c * 4 ^ k) := hkid 0 (by decide) (by omega)
    obtain ⟨hfirst, hlast⟩ := children_of_small n hp (by omega)
    have hsmall : smallest 4 es' (c * 4 ^ k) = 4 * (c * 4 ^ k) := by
      refine hs'.smallest_eq (by omega) (by omega) (.inr (by omega)) (fun _ => ?_) ?_
      · rw [hσ]
        omega
      · intro t ht1 ht2 hne
        obtain ⟨d, rfl⟩ := Nat.exists_eq_add_of_le (hfirst ▸ ht1)
        have hd := hkid d (by omega) (by omega)
        omega
    refine ⟨es'.swapIfInBounds (c * 4 ^ k) (4 * (c * 4 ^ k)),
      swapped σ' (c * 4 ^ k) (4 * (c * 4 ^ k)), fun fuel => ?_, hs'.swap (by omega) (by omega), ?_,
      fun l hl => ?_, fun i hi => ?_⟩
    · rw [hpow, ← Nat.add_assoc, Nat.add_right_comm, hsift, siftDown_round _ hsmall (by omega)]
    · rw [hpow, swapped_right, hσ]
    · obtain rfl | hlk := eq_or_ne l k
      · rw [swapped_left, hpow]
        exact hkid0
      · have hlt : c * 4 ^ l < c * 4 ^ k :=
          Nat.mul_lt_mul_of_pos_left (Nat.pow_lt_pow_right (by decide) (by omega)) hc
        rw [swapped_of_ne (by omega) (by omega), hpath l (by omega)]
    · have h1 := hi k (Nat.le_succ k)
      have h2 := hi (k + 1) (Nat.le_refl _)
      rw [swapped_of_ne h1 (by omega), hothers i fun l hl => hi l (by omega)]

/-! ## Through the last position and back -/

theorem four_le_pow (l : Nat) : 4 ≤ 4 ^ (l + 1) := by
  rw [pow_succ]
  exact Nat.le_mul_of_pos_left 4 (Nat.pow_pos (by decide))

/-- No power of four is between two others. -/
theorem pow_four_ne {l m d : Nat} (hd : d < 4) : 2 * 4 ^ (l + 1) + d ≠ 4 ^ m := by
  have hpow : 4 ^ (l + 2) = 4 * 4 ^ (l + 1) := by
    rw [pow_succ, Nat.mul_comm]
  have hpos := four_le_pow l
  intro heq
  have h1 : 4 ^ (l + 1) < 4 ^ m := by omega
  have h2 : 4 ^ m < 4 ^ (l + 2) := by omega
  have h1' := (Nat.pow_lt_pow_iff_right (by decide)).1 h1
  have h2' := (Nat.pow_lt_pow_iff_right (by decide)).1 h2
  omega

theorem ne_pow_four {i : Nat} (hi : i < 4) (h1 : i ≠ 1) (l : Nat) : i ≠ 1 * 4 ^ l := by
  cases l with
  | zero => simpa using h1
  | succ l =>
    have hpow : 1 * 4 ^ (l + 1) = 4 * 4 ^ l := by
      rw [Nat.one_mul, pow_succ, Nat.mul_comm]
    have hpos : 0 < 4 ^ l := Nat.pow_pos (by decide)
    omega

/-- A great element at the root of sorted ones goes down to the last position, and takes the
first timer from the root. -/
theorem Shows.sink_last (hs : Shows es n σ) (hn : n = 2 ^ 30 + 1) (hroot : n ≤ σ 0)
    (hsorted : ∀ i, 0 < i → i < n → σ i = i) :
    ∃ es' σ', (∀ fuel, siftDown 4 (fuel + 17) es 0 = siftDown 4 fuel es' 0) ∧ Shows es' n σ' ∧
      n ≤ σ' 0 ∧ σ' 1 = 4 ∧ σ' 2 = 2 ∧ σ' 3 = 3 ∧ σ' (2 ^ 30) = 1 ∧
      ∀ l < 14, ∀ d < 4, 2 * 4 ^ (l + 1) + d < n →
        σ' (2 * 4 ^ (l + 1) + d) = 2 * 4 ^ (l + 1) + d := by
  have h4 : 1 * 4 ^ 15 = 2 ^ 30 := by decide
  have hfirst : heapFirstChild 4 0 = 1 := by decide
  have hlast : heapLastChild 4 n 0 = 4 := by
    rw [hn]
    decide
  have hchild : smallest 4 es 0 = 1 := by
    refine hs.smallest_eq (by omega) (by omega) (.inr (by omega)) (fun _ => ?_) ?_
    · have h1 := hsorted 1 (by omega) (by omega)
      omega
    · intro t ht1 ht2 hne
      have h1 := hsorted 1 (by omega) (by omega)
      have ht := hsorted t (by omega) (by omega)
      omega
  have hs₂ := hs.swap (i := 0) (j := 1) (by omega) (by omega)
  have hσ₂ : ∀ i, 1 < i → i < n → swapped σ 0 1 i = i := by
    intro i hi hin
    rw [swapped_of_ne (by omega) (by omega), hsorted i (by omega) hin]
  obtain ⟨es₃, σ₃, hsift₃, hs₃, hend, hpath, hothers⟩ := hs₂.sink (c := 1) (by decide) (by omega)
    15 (by omega) (by rwa [swapped_right]) (fun l hl d hd hlt => hσ₂ _ (by
      have hpow := four_le_pow l
      omega) hlt)
  rw [h4, swapped_right] at hend
  have h0 : σ₃ 0 = 1 := by
    rw [hothers 0 fun l _ => ne_pow_four (by decide) (by decide) l, swapped_left,
      hsorted 1 (by omega) (by omega)]
  have h1 : σ₃ 1 = 4 := hpath 0 (by decide)
  have h2 : σ₃ 2 = 2 := by
    rw [hothers 2 fun l _ => ne_pow_four (by decide) (by decide) l, hσ₂ 2 (by omega) (by omega)]
  have h3 : σ₃ 3 = 3 := by
    rw [hothers 3 fun l _ => ne_pow_four (by decide) (by decide) l, hσ₂ 3 (by omega) (by omega)]
  have hwrap : heapFirstChild 4 (2 ^ 30) = 0 := by decide
  have hwrap' : heapLastChild 4 n (2 ^ 30) = 4 := by
    rw [hn]
    decide
  have hback : smallest 4 es₃ (2 ^ 30) = 0 := by
    refine hs₃.smallest_eq (by omega) (by omega) (.inr (by omega)) (fun _ => ?_) ?_
    · omega
    · intro t ht1 ht2 hne
      have ht : t = 1 ∨ t = 2 ∨ t = 3 := by omega
      rcases ht with rfl | rfl | rfl <;> omega
  refine ⟨es₃.swapIfInBounds (2 ^ 30) 0, swapped σ₃ (2 ^ 30) 0, fun fuel => ?_,
    hs₃.swap (by omega) (by omega), ?_, ?_, ?_, ?_, ?_, fun l hl d hd hlt => ?_⟩
  · have hround := siftDown_round (fuel + 16) hchild (by decide)
    have hround' := siftDown_round fuel hback (by decide)
    have hsink := hsift₃ (fuel + 1)
    rw [h4] at hsink
    exact hround.trans (hsink.trans hround')
  · rw [swapped_right, hend]
    exact hroot
  · rw [swapped_of_ne (by decide) (by decide), h1]
  · rw [swapped_of_ne (by decide) (by decide), h2]
  · rw [swapped_of_ne (by decide) (by decide), h3]
  · rw [swapped_left, h0]
  · have hpow := four_le_pow l
    have hne : ∀ m, 2 * 4 ^ (l + 1) + d ≠ 1 * 4 ^ m := fun m => by
      rw [Nat.one_mul]
      exact pow_four_ne hd
    rw [swapped_of_ne (h4 ▸ hne 15) (by omega), hothers _ fun m _ => hne m, hσ₂ _ (by omega) hlt]

/-- The great element goes down again, on another way. -/
theorem Shows.siftDown (hs : Shows es n σ) (hn : n = 2 ^ 30 + 1) (hroot : n ≤ σ 0)
    (hsorted : ∀ i, 0 < i → i < n → σ i = i) :
    ∃ es' σ', (∀ fuel, siftDown 4 (fuel + 33) es 0 = some es') ∧ Shows es' n σ' ∧
      σ' 0 = 2 ∧ σ' (2 ^ 30) = 1 := by
  obtain ⟨es₄, σ₄, hsift₄, hs₄, h0, h1, h2, h3, hend, hkids⟩ := hs.sink_last hn hroot hsorted
  have h4 : 2 * 4 ^ 14 = 2 ^ 29 := by decide
  have hfirst : heapFirstChild 4 0 = 1 := by decide
  have hlast : heapLastChild 4 n 0 = 4 := by
    rw [hn]
    decide
  have hchild : smallest 4 es₄ 0 = 2 := by
    refine hs₄.smallest_eq (by omega) (by omega) (.inr (by omega)) (fun _ => by omega) ?_
    intro t ht1 ht2 hne
    have ht : t = 1 ∨ t = 3 := by omega
    rcases ht with rfl | rfl <;> omega
  have hs₅ := hs₄.swap (i := 0) (j := 2) (by omega) (by omega)
  obtain ⟨es₆, σ₆, hsift₆, hs₆, -, -, hothers⟩ := hs₅.sink (c := 2) (by decide) (by omega)
    14 (by omega) (by rwa [swapped_right]) (fun l hl d hd hlt => by
      have hpow := four_le_pow l
      rw [swapped_of_ne (by omega) (by omega), hkids l hl d hd hlt])
  have hpos : 0 < 2 ^ 29 := by decide
  obtain ⟨hfirst', hlast'⟩ := children_of_small n hpos (by decide)
  have hstop : smallest 4 es₆ (2 ^ 29) = 2 ^ 29 :=
    hs₆.smallest_eq (by omega) (by omega) (.inl rfl) (fun h => absurd rfl h) fun t ht1 ht2 _ => by
      omega
  refine ⟨es₆, σ₆, fun fuel => ?_, hs₆, ?_, ?_⟩
  · have hround := siftDown_round (fuel + 15) hchild (by decide)
    have hsink := hsift₆ (fuel + 1)
    rw [h4] at hsink
    have hlast : TimerHeap.siftDown 4 (fuel + 1) es₆ (2 ^ 29) = some es₆ := by
      rw [TimerHeap.siftDown, if_pos hstop]
    exact (hsift₄ (fuel + 16)).trans (hround.trans (hsink.trans hlast))
  · have hne : ∀ l, 0 ≠ 2 * 4 ^ l := fun l =>
      (Nat.mul_pos (by decide) (Nat.pow_pos (by decide))).ne
    rw [hothers 0 fun l _ => hne l, swapped_left, h2]
  · have hne : ∀ l ≤ 14, 2 ^ 30 ≠ 2 * 4 ^ l := by decide
    rw [hothers _ hne, swapped_of_ne (by decide) (by decide), hend]

/-! ## The run -/

/-- The heap after `n` timers that came in the order of their times. -/
def sortedHeap (n : Nat) (rand : BitVec 32) : TimerHeap Unit where
  es := ((List.range n).map entry).toArray
  order := BitVec.ofNat 32 n
  cullRand := rand
  inserted := n

theorem sortedHeap_shows (n : Nat) (rand : BitVec 32) :
    Shows (sortedHeap n rand).es n fun i => i := by
  refine ⟨by simp [sortedHeap], fun i hi => ?_⟩
  simp [sortedHeap, hi]

theorem cullRandom_nonempty {T : Type} (arity fuel : Nat) (h : TimerHeap T) :
    ∃ rand, cullRandom arity (fun _ => false) fuel h = some { h with cullRand := rand } := by
  have hempty : ∀ (h : TimerHeap T) pos, h.emptyAt (fun _ => false) pos = false := by
    intro h pos
    rw [emptyAt]
    split <;> rfl
  cases fuel with
  | zero => exact ⟨h.cullRand, rfl⟩
  | succ fuel =>
    rw [cullRandom]
    split
    · refine ⟨nextRand h.cullRand, ?_⟩
      simp only [hempty, Bool.false_eq_true, if_false]
    · exact ⟨h.cullRand, rfl⟩

theorem siftUp_sorted (n : Nat) (rand : BitVec 32) :
    siftUp 4 (n + 1) (sortedHeap (n + 1) rand).es n = some (sortedHeap (n + 1) rand).es := by
  have hstop : ¬ (n ≠ 0 ∧ lessAt (sortedHeap (n + 1) rand).es n (heapParent 4 n) = true) := by
    rintro ⟨hne, hless⟩
    have hlt := parent_lt (by decide : 2 ≤ 4) n hne
    have hp := hlt.trans (Nat.lt_succ_self n)
    rw [(sortedHeap_shows (n + 1) rand).lessAt_iff (Nat.lt_succ_self n) hp] at hless
    exact lt_asymm hlt hless
  rw [siftUp, if_neg hstop]

theorem emplace_sorted (n : Nat) (rand : BitVec 32) :
    ∃ rand', step 4 (sortedHeap n rand) (.emplace n () fun _ => false) =
      some (sortedHeap (n + 1) rand') := by
  obtain ⟨rand', hcull⟩ := cullRandom_nonempty 4 (sortedHeap n rand).es.size (sortedHeap n rand)
  have horder : BitVec.ofNat 32 n + 1 = BitVec.ofNat 32 (n + 1) := by
    rw [BitVec.ofNat_add]
    rfl
  have hpush : (sortedHeap n rand).es.push (entry n) = (sortedHeap (n + 1) rand').es := by
    simp [sortedHeap, List.range_succ]
  have hentry : (⟨n, ⟨(sortedHeap n rand).order + 1⟩, (), (sortedHeap n rand).inserted + 1⟩ :
      Element Unit) = entry n := by
    rw [sortedHeap, horder]
    rfl
  have hsize := (sortedHeap_shows n rand).size
  have hsize' := (sortedHeap_shows (n + 1) rand').size
  have hup := siftUp_sorted n rand'
  refine ⟨rand', ?_⟩
  rw [step, emplace, hcull]
  simp only [Option.bind_eq_bind, Option.bind_some, hentry, hpush, hsize, hsize', hup]
  rw [show (sortedHeap n rand).order = BitVec.ofNat 32 n from rfl, horder]
  rfl

/-- All insertions are within the window. -/
def Windowed {T : Type} (arity : Nat) (h : TimerHeap T) (a : Label T) : Prop :=
  ∀ h', step arity h a = some h' → Window h'.es

theorem mem_sortedHeap {x : Element Unit} {rand : BitVec 32} (hx : x ∈ (sortedHeap n rand).es) :
    0 < x.serial ∧ x.serial ≤ n := by
  simp only [sortedHeap, List.mem_toArray, List.mem_map, List.mem_range] at hx
  obtain ⟨i, hi, rfl⟩ := hx
  exact ⟨Nat.succ_pos i, hi⟩

theorem sortedHeap_reachable (hn : n ≤ 2 ^ 31) :
    ∃ rand, (system 4).ReachableBy (Windowed 4) (sortedHeap n rand) := by
  induction n with
  | zero => exact ⟨8173, .init rfl⟩
  | succ n ih =>
    obtain ⟨rand, hr⟩ := ih (Nat.le_of_succ_le hn)
    obtain ⟨rand', hs⟩ := emplace_sorted n rand
    refine ⟨rand', .step (.emplace n () fun _ => false) hr (fun h' hs' => ?_) hs⟩
    obtain rfl := Option.some.inj (hs.symm.trans hs')
    intro x hx y hy
    have hx' := (mem_sortedHeap hx).2
    have hy' := (mem_sortedHeap hy).1
    omega

theorem Shows.pop (hs : Shows es (n + 1) σ) : Shows es.pop n σ := by
  obtain ⟨hsize, hentries⟩ := hs
  refine ⟨by rw [Array.size_pop, hsize, Nat.add_sub_cancel], fun i hi => ?_⟩
  rw [Array.getElem?_pop, if_pos (by omega)]
  exact hentries i (by omega)

/-- The timer of time one sinks below the root. -/
theorem pop_sorted (hn : n = 2 ^ 30 + 1) (rand : BitVec 32) :
    ∃ h' σ, step 4 (sortedHeap (n + 1) rand) .pop = some h' ∧ Shows h'.es n σ ∧
      σ 0 = 2 ∧ σ (2 ^ 30) = 1 ∧ ∀ x ∈ h'.es, x ∈ (sortedHeap (n + 1) rand).es := by
  have hshows := sortedHeap_shows (n + 1) rand
  have hswap := hshows.swap (i := n) (j := 0) (Nat.lt_succ_self n) (Nat.succ_pos n)
  obtain ⟨es', σ', hsift, hs', h0, hend⟩ := hswap.pop.siftDown hn
    (by rw [swapped_right])
    (fun i h0 hi => by rw [swapped_of_ne (by omega) (by omega)])
  obtain ⟨fuel, hfuel⟩ : ∃ fuel, n + 1 = fuel + 33 := ⟨n + 1 - 33, by omega⟩
  have hdown := hsift fuel
  rw [← hfuel] at hdown
  refine ⟨{ sortedHeap (n + 1) rand with es := es' }, σ', ?_, hs', h0, hend, fun x hx => ?_⟩
  · rw [step, TimerHeap.pop, hshows.size, if_pos (Nat.succ_ne_zero n), hardCull, hshows.size,
      Nat.add_sub_cancel, if_neg (by omega)]
    dsimp only
    rw [if_pos (.inl rfl), hdown]
    rfl
  · have hx₁ := (siftDown_perm hdown).mem_iff.1 hx
    rw [← Array.mem_toList_iff, Array.toList_pop] at hx₁
    have hx₂ := Array.mem_toList_iff.1 (List.mem_of_mem_dropLast hx₁)
    exact (swapIfInBounds_perm _ _ _).mem_iff.1 hx₂

/-- With `2 ^ 30 + 2` timers, the top is not the earliest one after a `pop`. -/
theorem top_not_earliest :
    ¬ ∀ h : TimerHeap Unit, (system 4).ReachableBy (Windowed 4) h → TopEarliest h := by
  intro hall
  obtain ⟨n, hn⟩ : ∃ n, n = 2 ^ 30 + 1 := ⟨_, rfl⟩
  obtain ⟨rand, hr⟩ := sortedHeap_reachable (n := n + 1) (by omega)
  obtain ⟨h', σ, hs, hshows, h0, hend, hsub⟩ := pop_sorted hn rand
  have hwin : Windowed 4 (sortedHeap (n + 1) rand) .pop := by
    intro h₂ hs₂
    obtain rfl := Option.some.inj (hs.symm.trans hs₂)
    intro x hx y hy
    have hx' := (mem_sortedHeap (hsub x hx)).2
    have hy' := (mem_sortedHeap (hsub y hy)).1
    omega
  have htop := hshows.entries 0 (by omega)
  have hlast := hshows.entries (2 ^ 30) (by omega)
  rw [h0] at htop
  rw [hend] at hlast
  rcases hall h' (.step .pop hr hwin hs) _ htop _ (Array.mem_of_getElem? hlast) with heq | hbefore
  · exact absurd (congrArg Element.serial heq) (by decide)
  · rcases hbefore with hw | ⟨hw, -⟩
    · exact absurd hw (by decide)
    · exact absurd hw (by decide)

end TimerHeap
end Cotamer
end Psets
