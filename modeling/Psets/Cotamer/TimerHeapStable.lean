/-
`timer_heap` is a stable priority queue.

What an operation removes is the top or has an empty value; what it adds is one element, and
nothing else changes but the positions.  So the top is the earliest of the elements that
are waiting, and the first inserted of those with its time.
-/
import Psets.Cotamer.TimerHeapOrder

namespace Psets
namespace Cotamer
namespace TimerHeap

open Containers Transition

variable {T : Type} {arity : Nat} {h h' : TimerHeap T} {es es' : Array (Element T)}
  {empty : T → Bool}

/-! ## What the operations do -/

/-- Elements with empty values were removed, and no others. -/
def Culled (empty : T → Bool) (es es' : Array (Element T)) : Prop :=
  ∃ culled : List (Element T), (∀ x ∈ culled, empty x.value = true) ∧
    (culled ++ es'.toList).Perm es.toList

theorem Culled.refl (es : Array (Element T)) : Culled empty es es :=
  ⟨[], fun _ hx => absurd hx List.not_mem_nil, .refl _⟩

theorem Culled.cons {es₁ : Array (Element T)} {x : Element T} (hx : empty x.value = true)
    (hperm : (x :: es₁.toList).Perm es.toList) (hc : Culled empty es₁ es') :
    Culled empty es es' := by
  obtain ⟨culled, hall, hp⟩ := hc
  refine ⟨x :: culled, fun y hy => ?_, (hp.cons x).trans hperm⟩
  rcases List.mem_cons.1 hy with rfl | hy
  · exact hx
  · exact hall y hy

theorem Culled.mem {x : Element T} (h : Culled empty es es') (hx : x ∈ es') : x ∈ es := by
  obtain ⟨culled, -, hp⟩ := h
  have hmem : x ∈ culled ++ es'.toList := List.mem_append_right _ (Array.mem_toList_iff.2 hx)
  exact Array.mem_toList_iff.1 (hp.mem_iff.1 hmem)

/-- What becomes of the elements. -/
def Effect (h : TimerHeap T) : Label T → TimerHeap T → Prop
  | .emplace when value empty, h' => ∃ es, Culled empty h.es es ∧
      h'.es.toList.Perm (⟨when, ⟨h.order + 1⟩, value, h.inserted + 1⟩ :: es.toList)
  | .pop, h' => ∃ x, h.es[0]? = some x ∧ (x :: h'.es.toList).Perm h.es.toList
  | .cull empty, h' => Culled empty h.es h'.es ∧ h'.emptyAt empty 0 = false
  | .clear, h' => h'.es = #[]

/-- The step removes an element from the heap and moves another into its place. -/
def Removes (h : TimerHeap T) : Label T → Prop
  | .emplace _ _ empty =>
    32 ≤ h.es.size ∧ h.emptyAt empty (h.cullRand.toNat % h.es.size) = true
  | .pop => True
  | .cull empty => h.emptyAt empty 0 = true
  | .clear => False

/-! ## The invariant -/

structure Ok (arity : Nat) (h : TimerHeap T) : Prop where
  heap : IsHeap (heapParent arity) (keysOf Element.key h.es)
  counted : Counted h.es
  window : Window h.es
  order : h.order = BitVec.ofNat 32 h.inserted
  bound : ∀ x ∈ h.es, x.serial ≤ h.inserted
  nodup : (h.es.toList.map Element.serial).Nodup

theorem Ok.init (h : TimerHeap T) (hes : h.es = #[]) (ho : h.order = BitVec.ofNat 32 h.inserted) :
    Ok arity h := by
  have hmem : ∀ x, x ∉ h.es := by simp [hes]
  refine ⟨fun i _ => ?_, fun x hx => absurd hx (hmem x), fun x hx => absurd hx (hmem x), ho,
    fun x hx => absurd hx (hmem x), by simp [hes]⟩
  rw [hes]
  exact le_top.trans_eq (keysOf_top (Nat.zero_le i)).symm

/-- What is left of a heap. -/
theorem Ok.removed (hok : Ok arity h) (gone : List (Element T))
    (hperm : (gone ++ h'.es.toList).Perm h.es.toList)
    (hheap : IsHeap (heapParent arity) (keysOf Element.key h'.es))
    (horder : h'.order = h.order) (hins : h'.inserted = h.inserted) : Ok arity h' := by
  have hmem : ∀ x ∈ h'.es, x ∈ h.es := fun x hx =>
    Array.mem_toList_iff.1 (hperm.mem_iff.1 (List.mem_append_right _ (Array.mem_toList_iff.2 hx)))
  refine ⟨hheap, fun x hx => hok.counted x (hmem x hx),
    fun x hx y hy => hok.window x (hmem x hx) y (hmem y hy), ?_, fun x hx => ?_, ?_⟩
  · rw [horder, hins]
    exact hok.order
  · rw [hins]
    exact hok.bound x (hmem x hx)
  · have hnodup := (hperm.map Element.serial).nodup_iff.2 hok.nodup
    rw [List.map_append] at hnodup
    exact hnodup.of_append_right

theorem Ok.hardCull (ha : 2 ≤ arity) (hok : Ok arity h) {pos : Nat} (hpos : pos < h.es.size)
    (hf : Fits arity (h.es.size - 1)) :
    ∃ h', hardCull arity h pos = some h' ∧ Ok arity h' ∧
      (h.es[pos] :: h'.es.toList).Perm h.es.toList ∧ h'.order = h.order ∧
      h'.inserted = h.inserted ∧ h'.es.size = h.es.size - 1 := by
  obtain ⟨es', heq, hperm, hheap⟩ :=
    hardCull_spec ha h hpos hf (hok.counted.comparable hok.window) hok.heap
  have hsize : es'.size = h.es.size - 1 := by
    have hlen := hperm.length_eq
    simp only [List.length_cons, Array.length_toList] at hlen
    omega
  exact ⟨{ h with es := es' }, heq, hok.removed [h.es[pos]] hperm hheap rfl rfl, hperm,
    rfl, rfl, hsize⟩

theorem emptyAt_iff {pos : Nat} : h.emptyAt empty pos = true ↔
    ∃ hpos : pos < h.es.size, empty (h.es[pos]).value = true := by
  rw [emptyAt]
  by_cases hpos : pos < h.es.size
  · simp [hpos]
  · simp [hpos]

theorem emptyAt_cullRand (rand : BitVec 32) (pos : Nat) :
    ({ h with cullRand := rand } : TimerHeap T).emptyAt empty pos = h.emptyAt empty pos := rfl

theorem Fits.mono {m n : Nat} (hf : Fits arity n) (hmn : m ≤ n) : Fits arity m :=
  (Nat.mul_le_mul_right arity hmn).trans hf

/-! ## The operations -/

theorem Ok.cullRandom (ha : 2 ≤ arity) (hok : Ok arity h) (fuel : Nat)
    (hf : 32 ≤ h.es.size → h.emptyAt empty (h.cullRand.toNat % h.es.size) = true →
      Fits arity (h.es.size - 1)) :
    ∃ h', cullRandom arity empty fuel h = some h' ∧ Ok arity h' ∧ Culled empty h.es h'.es ∧
      h'.order = h.order ∧ h'.inserted = h.inserted := by
  induction fuel generalizing h with
  | zero => exact ⟨h, rfl, hok, .refl _, rfl, rfl⟩
  | succ fuel ih =>
    rw [TimerHeap.cullRandom]
    by_cases hsize : 32 ≤ h.es.size
    · have hok₁ : Ok arity { h with cullRand := nextRand h.cullRand } :=
        hok.removed [] (.refl _) hok.heap rfl rfl
      by_cases hempty : h.emptyAt empty (h.cullRand.toNat % h.es.size) = true
      · obtain ⟨hpos, hvalue⟩ := emptyAt_iff.1 hempty
        obtain ⟨h₂, heq, hok₂, hperm, ho₂, hi₂, hsize₂⟩ :=
          hok₁.hardCull ha hpos (hf hsize hempty)
        have hf₂ := (hf hsize hempty).mono (show h₂.es.size - 1 ≤ h.es.size - 1 by
          rw [hsize₂]
          exact Nat.sub_le _ _)
        obtain ⟨h', heq', hok', hculled, ho', hi'⟩ := ih hok₂ fun _ _ => hf₂
        refine ⟨h', ?_, hok', hculled.cons hvalue hperm, ho'.trans ho₂, hi'.trans hi₂⟩
        rw [if_pos hsize]
        dsimp only
        rw [emptyAt_cullRand, if_pos hempty, heq]
        exact heq'
      · refine ⟨_, ?_, hok₁, .refl _, rfl, rfl⟩
        rw [if_pos hsize]
        dsimp only
        rw [emptyAt_cullRand, if_neg hempty]
    · exact ⟨h, if_neg hsize, hok, .refl _, rfl, rfl⟩

theorem Ok.cull (ha : 2 ≤ arity) (hok : Ok arity h) {fuel : Nat} (hfuel : h.es.size ≤ fuel)
    (hf : h.emptyAt empty 0 = true → Fits arity (h.es.size - 1)) :
    ∃ h', cull arity empty fuel h = some h' ∧ Ok arity h' ∧ Culled empty h.es h'.es ∧
      h'.emptyAt empty 0 = false ∧ h'.inserted = h.inserted := by
  induction fuel generalizing h with
  | zero =>
    refine ⟨h, rfl, hok, .refl _, ?_, rfl⟩
    rw [← Bool.not_eq_true, emptyAt_iff]
    rintro ⟨hpos, -⟩
    omega
  | succ fuel ih =>
    rw [TimerHeap.cull]
    by_cases hempty : h.emptyAt empty 0 = true
    · obtain ⟨hpos, hvalue⟩ := emptyAt_iff.1 hempty
      obtain ⟨h₂, heq, hok₂, hperm, ho₂, hi₂, hsize₂⟩ := hok.hardCull ha hpos (hf hempty)
      have hf₂ := (hf hempty).mono (show h₂.es.size - 1 ≤ h.es.size - 1 by
        rw [hsize₂]
        exact Nat.sub_le _ _)
      obtain ⟨h', heq', hok', hculled, htop, hi'⟩ := ih hok₂ (by omega) fun _ => hf₂
      refine ⟨h', ?_, hok', hculled.cons hvalue hperm, htop, hi'.trans hi₂⟩
      rw [if_pos hempty, heq]
      exact heq'
    · exact ⟨h, if_neg hempty, hok, .refl _, by simpa using hempty, rfl⟩

/-- A new element is placed in a heap. -/
theorem Ok.push (ha : 2 ≤ arity) (hok : Ok arity h) (when : Int) (value : T)
    (hes : siftUp arity (h.es.size + 1) (h.es.push ⟨when, ⟨h.order + 1⟩, value, h.inserted + 1⟩)
      h.es.size = some es') (hw : Window es') :
    Ok arity { h with es := es', order := h.order + 1, inserted := h.inserted + 1 } ∧
      es'.toList.Perm (⟨when, ⟨h.order + 1⟩, value, h.inserted + 1⟩ :: h.es.toList) := by
  generalize hx : (⟨when, ⟨h.order + 1⟩, value, h.inserted + 1⟩ : Element T) = x at hes ⊢
  have horder : h.order + 1 = BitVec.ofNat 32 (h.inserted + 1) := by
    rw [hok.order, BitVec.ofNat_add]
    rfl
  have hsize : h.es.size < (h.es.push x).size := by simp
  have hperm := siftUp_perm hes
  have hlist : es'.toList.Perm (x :: h.es.toList) := by
    refine hperm.toList.trans ?_
    rw [Array.toList_push]
    exact List.perm_append_singleton x _
  have hmem : ∀ y ∈ es', y = x ∨ y ∈ h.es := by
    intro y hy
    rcases List.mem_cons.1 (hlist.mem_iff.1 (Array.mem_toList_iff.2 hy)) with rfl | hy
    · exact .inl rfl
    · exact .inr (Array.mem_toList_iff.1 hy)
  have hcounted : Counted es' := by
    intro y hy
    rcases hmem y hy with rfl | hy
    · rw [← hx, horder]
    · exact hok.counted y hy
  have hcomparable : Comparable (h.es.push x) :=
    (hcounted.comparable hw).mono fun y hy => hperm.mem_iff.2 hy
  have hrise : Rising (heapParent arity) (keysOf Element.key (h.es.push x)) h.es.size := by
    refine hok.heap.append (parent_lt ha) (fun i hi => keysOf_top ?_) fun i hi => keysOf_push x hi
    rw [Array.size_push]
    exact hi
  refine ⟨⟨siftUp_isHeap ha hsize hcomparable hrise hes, hcounted, hw, horder, ?_, ?_⟩, hlist⟩
  · intro y hy
    rcases hmem y hy with rfl | hy
    · rw [← hx]
    · exact (hok.bound y hy).trans (Nat.le_succ _)
  · rw [(hlist.map Element.serial).nodup_iff, List.map_cons, List.nodup_cons]
    refine ⟨fun hin => ?_, hok.nodup⟩
    obtain ⟨y, hy, hs⟩ := List.mem_map.1 hin
    have hle := hok.bound y (Array.mem_toList_iff.1 hy)
    rw [hs, ← hx] at hle
    exact Nat.not_succ_le_self _ hle

/-- The step leaves all insertions within the window, and a removal is from a heap whose
positions have no overflow. -/
structure Guarded (arity : Nat) (h : TimerHeap T) (a : Label T) : Prop where
  window : ∀ h', step arity h a = some h' → Window h'.es
  fits : Removes h a → Fits arity (h.es.size - 1)

/-- What one step does. -/
structure Stepped (arity : Nat) (h : TimerHeap T) (a : Label T) (h' : TimerHeap T) : Prop where
  ok : Ok arity h'
  effect : Effect h a h'
  inserted : h.inserted ≤ h'.inserted

theorem Ok.emplace (ha : 2 ≤ arity) (hok : Ok arity h) {when : Int} {value : T}
    (hg : Guarded arity h (.emplace when value empty)) :
    ∃ h', step arity h (.emplace when value empty) = some h' ∧
      Stepped arity h (.emplace when value empty) h' := by
  obtain ⟨h₁, heq, hok₁, hculled, ho, hi⟩ :=
    hok.cullRandom ha h.es.size fun hsize hempty => hg.fits ⟨hsize, hempty⟩
  have hsize : (h₁.es.push ⟨when, ⟨h₁.order + 1⟩, value, h₁.inserted + 1⟩).size =
      h₁.es.size + 1 := Array.size_push _
  obtain ⟨es', hes⟩ := siftUp_returns ha (Nat.lt_succ_self h₁.es.size)
    (h₁.es.push ⟨when, ⟨h₁.order + 1⟩, value, h₁.inserted + 1⟩)
  have hstep : step arity h (.emplace when value empty) =
      some { h₁ with es := es', order := h₁.order + 1, inserted := h₁.inserted + 1 } := by
    simp only [step, TimerHeap.emplace, heq, Option.bind_eq_bind, Option.bind_some, hsize, hes]
  obtain ⟨hok', hperm⟩ := hok₁.push ha when value hes (hg.window _ hstep)
  refine ⟨_, hstep, hok', ⟨h₁.es, hculled, ?_⟩, ?_⟩
  · rw [← ho, ← hi]
    exact hperm
  · exact hi ▸ Nat.le_succ _

theorem Ok.pop (ha : 2 ≤ arity) (hok : Ok arity h) (hne : h.es.size ≠ 0)
    (hg : Guarded arity h .pop) :
    ∃ h', step arity h .pop = some h' ∧ Stepped arity h .pop h' := by
  have hpos : 0 < h.es.size := Nat.pos_of_ne_zero hne
  obtain ⟨h', heq, hok', hperm, _, hi, _⟩ := hok.hardCull ha hpos (hg.fits trivial)
  refine ⟨h', ?_, hok', ⟨h.es[0], Array.getElem?_eq_getElem hpos, hperm⟩, hi.ge⟩
  rw [step, TimerHeap.pop, if_pos hne, heq]

/-- Every operation returns; `pop` is not called on an empty heap. -/
theorem Ok.step (ha : 2 ≤ arity) (hok : Ok arity h) {a : Label T} (hg : Guarded arity h a)
    (hne : a = .pop → h.es.size ≠ 0) :
    ∃ h', step arity h a = some h' ∧ Stepped arity h a h' := by
  cases a with
  | emplace when value empty => exact hok.emplace ha hg
  | pop => exact hok.pop ha (hne rfl) hg
  | cull empty =>
    obtain ⟨h', heq, hok', hculled, htop, hi⟩ := hok.cull ha (Nat.le_refl _) hg.fits
    exact ⟨h', heq, hok', ⟨hculled, htop⟩, hi.ge⟩
  | clear => exact ⟨h.clear, rfl, .init h.clear rfl hok.order, rfl, Nat.le_refl _⟩

theorem Ok.stepped (ha : 2 ≤ arity) (hok : Ok arity h) {a : Label T} (hg : Guarded arity h a)
    (hs : TimerHeap.step arity h a = some h') : Stepped arity h a h' := by
  have hne : a = .pop → h.es.size ≠ 0 := by
    rintro rfl
    rw [TimerHeap.step, TimerHeap.pop, Option.ite_none_right_eq_some] at hs
    exact hs.1
  obtain ⟨h₂, heq, hst⟩ := hok.step ha hg hne
  obtain rfl := Option.some.inj (hs.symm.trans heq)
  exact hst

/-! ## The top -/

/-- No element is less than its parent, as the code compares them. -/
def HeapOrdered (arity : Nat) (h : TimerHeap T) : Prop :=
  ∀ i, i ≠ 0 → i < h.es.size → lessAt h.es i (heapParent arity i) = false

/-- The top comes before all other elements. -/
def TopEarliest (h : TimerHeap T) : Prop :=
  ∀ x, h.es[0]? = some x → ∀ y ∈ h.es, y = x ∨ x.Before y

theorem Ok.heapOrdered (ha : 2 ≤ arity) (hok : Ok arity h) : HeapOrdered arity h := by
  intro i hi hsize
  rw [← Bool.not_eq_true, (hok.counted.comparable hok.window).lessAt_iff hsize
    ((parent_lt ha i hi).trans hsize), not_lt]
  exact hok.heap i hi

theorem Ok.serial_inj (hok : Ok arity h) {x y : Element T} (hx : x ∈ h.es) (hy : y ∈ h.es)
    (hs : x.serial = y.serial) : x = y :=
  List.inj_on_of_nodup_map hok.nodup (Array.mem_toList_iff.2 hx) (Array.mem_toList_iff.2 hy) hs

theorem Ok.topEarliest (ha : 2 ≤ arity) (hok : Ok arity h) : TopEarliest h := by
  intro x hx y hy
  obtain ⟨hpos, rfl⟩ := Array.getElem?_eq_some_iff.1 hx
  obtain ⟨i, hi, rfl⟩ := Array.mem_iff_getElem.1 hy
  have hle := hok.heap.root_le (parent_lt ha) i
  rw [keysOf_eq hpos, keysOf_eq hi, WithTop.coe_le_coe] at hle
  rcases hle.lt_or_eq with hlt | heq
  · exact .inr (Element.key_lt_iff.1 hlt)
  · have hs : h.es[i].serial = h.es[0].serial := congrArg (fun k => (ofLex k).2) heq.symm
    exact .inl (hok.serial_inj hy (Array.getElem_mem hpos) hs)

/-! ## Runs -/

theorem reachable_ok (ha : 2 ≤ arity)
    (hr : (system arity).ReachableBy (Guarded arity) h) : Ok arity h := by
  refine Machine.ReachableBy.invariant (fun h hi => ?_) (fun h a h' hok hg hs => ?_) hr
  · obtain rfl : h = {} := hi
    exact .init {} rfl rfl
  · exact (hok.stepped ha hg hs).ok

/-- The element that a step takes by `pop`. -/
def taken (h : TimerHeap T) : Label T → List (Element T)
  | .pop => h.es[0]?.toList
  | .emplace _ _ _ | .cull _ | .clear => []

/-- The elements that `pop` takes in a run. -/
def popped (arity : Nat) : TimerHeap T → List (Label T) → List (Element T)
  | _, [] => []
  | h, a :: as =>
    match step arity h a with
    | none => []
    | some h' => taken h a ++ popped arity h' as

/-- An element that has left does not come back. -/
theorem Stepped.gone {a : Label T} (hst : Stepped arity h a h') {x : Element T} (hx : x ∉ h.es)
    (hs : x.serial ≤ h.inserted) : x ∉ h'.es ∧ x.serial ≤ h'.inserted := by
  refine ⟨fun hx' => ?_, hs.trans hst.inserted⟩
  have heff := hst.effect
  cases a with
  | emplace when value empty =>
    obtain ⟨es, hculled, hperm⟩ := heff
    rcases List.mem_cons.1 (hperm.mem_iff.1 (Array.mem_toList_iff.2 hx')) with rfl | hmem
    · exact Nat.not_succ_le_self _ hs
    · exact hx (hculled.mem (Array.mem_toList_iff.1 hmem))
  | pop =>
    obtain ⟨y, _, hperm⟩ := heff
    have hmem := hperm.mem_iff.1 (List.mem_cons_of_mem y (Array.mem_toList_iff.2 hx'))
    exact hx (Array.mem_toList_iff.1 hmem)
  | cull empty => exact hx (heff.1.mem hx')
  | clear =>
    have hnil : h'.es = #[] := heff
    rw [hnil] at hx'
    exact absurd hx' (by simp)

theorem gone_of_exec (ha : 2 ≤ arity) (hok : Ok arity h) {as : List (Label T)}
    (hw : (system arity).Within (Guarded arity) h as) (hr : (system arity).exec h as = some h')
    {x : Element T} (hx : x ∉ h.es) (hs : x.serial ≤ h.inserted) : x ∉ h'.es := by
  have hinv : ∀ (h : TimerHeap T) (a : Label T) (h' : TimerHeap T),
      Ok arity h ∧ x ∉ h.es ∧ x.serial ≤ h.inserted → Guarded arity h a →
      (system arity).step h a = some h' → Ok arity h' ∧ x ∉ h'.es ∧ x.serial ≤ h'.inserted := by
    rintro h a h' ⟨hok, hx, hle⟩ hg hs
    have hst := hok.stepped ha hg hs
    exact ⟨hst.ok, hst.gone hx hle⟩
  exact (hw.preserves hinv ⟨hok, hx, hs⟩ hr).2.1

/-- As long as an element waits, nothing leaves by `pop` that it comes before. -/
theorem popped_not_before (ha : 2 ≤ arity) (hok : Ok arity h) {as : List (Label T)}
    (hw : (system arity).Within (Guarded arity) h as) (hr : (system arity).exec h as = some h')
    {x : Element T} (hx : x ∈ h.es) (hx' : x ∈ h'.es) :
    ∀ y ∈ popped arity h as, ¬ x.Before y := by
  induction as generalizing h with
  | nil => exact fun y hy => absurd hy List.not_mem_nil
  | cons a as ih =>
    obtain ⟨h₁, hs, hr⟩ := Machine.exec_cons_inv hr
    have hs' : TimerHeap.step arity h a = some h₁ := hs
    have hst := hok.stepped ha hw.1 hs
    have hx₁ : x ∈ h₁.es := by
      by_contra hx₁
      have hle := (hok.bound x hx).trans hst.inserted
      exact gone_of_exec ha hst.ok (hw.2 h₁ hs) hr hx₁ hle hx'
    intro y hy
    rw [popped, hs'] at hy
    rcases List.mem_append.1 hy with hy | hy
    · cases a with
      | pop =>
        have htop : h.es[0]? = some y := Option.mem_toList.1 hy
        intro hbefore
        rcases hok.topEarliest ha y htop x hx with rfl | hbefore'
        · exact lt_irrefl _ (Element.key_lt_iff.2 hbefore)
        · exact lt_asymm (Element.key_lt_iff.2 hbefore) (Element.key_lt_iff.2 hbefore')
      | emplace | cull | clear => exact absurd hy List.not_mem_nil
    · exact ih hst.ok (hw.2 h₁ hs) hr hx₁ y hy

/-- The heap is a heap, its top is the earliest element and of those the first inserted; an
operation removes and adds what it should; and the elements come out in this order. -/
theorem stable_priority_queue (ha : 2 ≤ arity)
    (hr : (system arity).ReachableBy (Guarded arity) h) :
    HeapOrdered arity h ∧ TopEarliest h ∧
    (∀ a, Guarded arity h a → (a = .pop → h.es.size ≠ 0) →
      ∃ h', step arity h a = some h' ∧ Effect h a h') ∧
    ∀ as h', (system arity).Within (Guarded arity) h as → (system arity).exec h as = some h' →
      ∀ x ∈ h.es, x ∈ h'.es → ∀ y ∈ popped arity h as, ¬ x.Before y := by
  have hok := reachable_ok ha hr
  refine ⟨hok.heapOrdered ha, hok.topEarliest ha, fun a hg hne => ?_, fun as h' hw hex x hx hx' =>
    popped_not_before ha hok hw hex hx hx'⟩
  obtain ⟨h', hs, hst⟩ := hok.step ha hg hne
  exact ⟨h', hs, hst.effect⟩

instance (h : TimerHeap T) (a : Label T) : Decidable (Removes h a) :=
  match a with
  | .emplace _ _ _ => inferInstanceAs (Decidable (_ ∧ _))
  | .pop => .isTrue trivial
  | .cull _ => inferInstanceAs (Decidable (_ = _))
  | .clear => .isFalse id

instance (es : Array (Element T)) : Decidable (Window es) :=
  inferInstanceAs (Decidable (∀ x ∈ es, ∀ y ∈ es, x.serial < y.serial + 2 ^ 31))

instance (h : TimerHeap T) (a : Label T) : Decidable (Guarded arity h a) :=
  decidable_of_iff ((∀ h' ∈ step arity h a, Window h'.es) ∧
      (Removes h a → h.es.size.pred * arity ≤ 2 ^ 32))
    ⟨fun hg => ⟨hg.1, hg.2⟩, fun hg => ⟨hg.window, hg.fits⟩⟩

/-- Three timers, two of them at the same time, and the first to leave. -/
def threeTimers : List (Label Nat) :=
  [.emplace 5 50 fun _ => false, .emplace 3 31 fun _ => false, .emplace 3 32 fun _ => false, .pop]

/-- The two timers that are left. -/
def twoLeft : TimerHeap Nat := ((system 4).exec {} threeTimers).get (by decide +kernel)

theorem stable_priority_queue_twoLeft :
    HeapOrdered 4 twoLeft ∧ TopEarliest twoLeft ∧
    (∀ a, Guarded 4 twoLeft a → (a = .pop → twoLeft.es.size ≠ 0) →
      ∃ h', step 4 twoLeft a = some h' ∧ Effect twoLeft a h') ∧
    ∀ as h', (system 4).Within (Guarded 4) twoLeft as → (system 4).exec twoLeft as = some h' →
      ∀ x ∈ twoLeft.es, x ∈ h'.es → ∀ y ∈ popped 4 twoLeft as, ¬ x.Before y :=
  stable_priority_queue (by decide)
    (.of_exec (.init rfl) (by decide +kernel) (Option.some_get (by decide +kernel)).symm)

end TimerHeap
end Cotamer
end Psets
