/-
A mutex that is only locked exclusively, as a queue of tickets.

The holder is at the head of the queue and the live waiters follow in the order of their
calls.  A call to `lock` joins at the end, the holder leaves from the head, and whoever
is cancelled leaves from where it stands.
-/
import Psets.Cotamer.MutexInvariant

namespace Psets
namespace Cotamer
namespace Mutex

open Transition

namespace State

/-- The tickets that are granted, and then those that wait. -/
def queue (s : State) : List Nat :=
  s.holders.map Holder.id ++ (s.mutex.waiters.filter fun w => w.live).map Waiter.id

/-- The ticket has been granted the lock and not given it back. -/
def Granted (s : State) (id : Nat) : Prop := id ∈ s.holders.map Holder.id

instance (s : State) (id : Nat) : Decidable (s.Granted id) :=
  inferInstanceAs (Decidable (id ∈ s.holders.map Holder.id))

theorem granted_iff {s : State} {id : Nat} : s.Granted id ↔ ∃ h, s.holder? id = some h := by
  unfold Granted holder?
  rw [← Option.isSome_iff_exists, List.find?_isSome, List.mem_map]
  simp only [beq_iff_eq]

theorem Granted.mem_queue {s : State} {id : Nat} (h : s.Granted id) : id ∈ s.queue :=
  List.mem_append_left _ h

theorem holder?_id {s : State} {id : Nat} {h : Holder} (hh : s.holder? id = some h) :
    h.id = id := by
  simpa using List.find?_some hh

end State

/-- Only exclusive locks are asked for, and none was lost on the mutex. -/
structure Exclusive (s : State) : Prop where
  inv : Inv s
  holders : ∀ h ∈ s.holders, h.shared = false
  waiters : ∀ w ∈ s.mutex.waiters, w.shared = false
  sorted : s.queue.Pairwise (· < ·)
  fresh : ∀ id ∈ s.queue, id < s.nextId

theorem Exclusive.start : Exclusive {} where
  inv := Inv.start
  holders := by simp
  waiters := by simp
  sorted := List.Pairwise.nil
  fresh := by simp [State.queue]

namespace Exclusive

variable {s t : State}

theorem exclHeld (h : Exclusive s) : s.exclHeld = s.holders.length := by
  unfold State.exclHeld
  rw [List.countP_eq_length]
  intro x hx
  rw [h.holders x hx]
  rfl

theorem sharedHeld (h : Exclusive s) : s.sharedHeld = 0 := by
  unfold State.sharedHeld
  rw [List.countP_eq_zero]
  intro x hx
  rw [h.holders x hx]
  exact Bool.false_ne_true

/-- There is one holder at most. -/
theorem holders_of_mem (h : Exclusive s) {x : Holder} (hx : x ∈ s.holders) : s.holders = [x] := by
  have hle := h.inv.excl
  rw [h.exclHeld] at hle
  rcases hs : s.holders with _ | ⟨y, _ | ⟨z, rest⟩⟩
  · rw [hs] at hx
    cases hx
  · rw [hs, List.mem_singleton] at hx
    rw [hx]
  · rw [hs] at hle
    simp only [List.length_cons] at hle
    omega

theorem granted_unique (h : Exclusive s) {id id' : Nat} (hid : s.Granted id)
    (hid' : s.Granted id') : id = id' := by
  obtain ⟨x, hx, rfl⟩ := List.mem_map.1 hid
  obtain ⟨y, hy, rfl⟩ := List.mem_map.1 hid'
  rw [h.holders_of_mem hx, List.mem_singleton] at hy
  rw [hy]

/-- The granted ticket is at the head. -/
theorem queue_of_granted (h : Exclusive s) {id : Nat} (hid : s.Granted id) :
    ∃ rest, s.queue = id :: rest := by
  obtain ⟨x, hx, rfl⟩ := List.mem_map.1 hid
  refine ⟨(s.mutex.waiters.filter fun w => w.live).map Waiter.id, ?_⟩
  rw [State.queue, h.holders_of_mem hx]
  rfl

/-- Whoever is at the head is granted. -/
theorem granted_of_queue (h : Exclusive s) {id : Nat} {rest : List Nat}
    (hq : s.queue = id :: rest) : s.Granted id := by
  rcases hs : s.holders with _ | ⟨x, xs⟩
  · -- a live waiter waits for a lock
    have hblocked := h.inv.blocked
    rw [h.exclHeld, h.sharedHeld, hs] at hblocked
    rw [State.queue, hs, List.map_nil, List.nil_append] at hq
    have hmem : id ∈ (s.mutex.waiters.filter fun w => w.live).map Waiter.id := by
      rw [hq]
      exact List.mem_cons_self
    obtain ⟨w, hw, _⟩ := List.mem_map.1 hmem
    have hw' := List.mem_filter.1 hw
    exact absurd rfl (hblocked ⟨w, hw'.1, hw'.2⟩)
  · rw [State.queue, hs] at hq
    rw [State.Granted, hs]
    simp only [List.map_cons, List.cons_append, List.cons.injEq] at hq
    rw [← hq.1]
    exact List.mem_cons_self

/-- With nobody in the queue, the mutex is unlocked. -/
theorem latch_eq_zero_iff (h : Exclusive s) : s.mutex.latch = 0 ↔ s.queue = [] := by
  rw [h.inv.latch, h.sharedHeld, h.exclHeld]
  constructor
  · intro hl
    rcases hq : s.queue with _ | ⟨id, rest⟩
    · rfl
    · obtain ⟨x, hx, _⟩ := List.mem_map.1 (h.granted_of_queue hq)
      rw [h.holders_of_mem hx, List.length_singleton] at hl
      exact absurd hl (by decide)
  · intro hq
    rw [State.queue, List.append_eq_nil_iff, List.map_eq_nil_iff] at hq
    rw [hq.1]
    decide

theorem sorted_append (h : Exclusive s) (hq : t.queue = s.queue ++ [s.nextId])
    (hn : t.nextId = s.nextId + 1) :
    t.queue.Pairwise (· < ·) ∧ (∀ id ∈ t.queue, id < t.nextId) := by
  rw [hq, hn]
  refine ⟨List.pairwise_append.2 ⟨h.sorted, List.pairwise_singleton _ _, ?_⟩, ?_⟩
  · intro a ha b hb
    rw [List.mem_singleton.1 hb]
    exact h.fresh a ha
  · intro id hid
    rcases List.mem_append.1 hid with hid | hid
    · exact Nat.lt_succ_of_lt (h.fresh id hid)
    · rw [List.mem_singleton.1 hid]
      exact Nat.lt_succ_self _

end Exclusive

theorem notifyLocked_append (ws : List Waiter) (l : LatchType) :
    (notifyLocked ws l).2.2.map Waiter.id ++
      ((notifyLocked ws l).1.filter fun w => w.live).map Waiter.id =
      (ws.filter fun w => w.live).map Waiter.id ∧
    (∀ w ∈ (notifyLocked ws l).1, w ∈ ws) ∧ (∀ w ∈ (notifyLocked ws l).2.2, w ∈ ws) := by
  obtain ⟨pre, hws, hg⟩ := notifyLocked_queue ws l
  generalize notifyLocked ws l = r at hws hg
  rw [hg, ← List.map_append, ← List.filter_append, ← hws]
  refine ⟨rfl, fun w hw => ?_, fun w hw => ?_⟩
  · rw [hws]
    exact List.mem_append_right _ hw
  · rw [hws]
    exact List.mem_append_left _ (List.mem_filter.1 hw).1

theorem unlatch_waiters (ws : List Waiter) (l : LatchType) : (unlatch ws l).waiters = ws := by
  cases ws <;> rfl

theorem State.grant_queue (s : State) (ws : List Waiter) :
    (s.grant ws).queue = s.holders.map Holder.id ++ (ws.map Waiter.id ++
      (s.mutex.waiters.filter fun w => w.live).map Waiter.id) := by
  simp only [State.queue, State.grant, List.map_append, List.map_map, List.append_assoc]
  rfl

/-- Cancelling takes the waiter out of those that are served. -/
theorem live_cancel (ws : List Waiter) (id : Nat) :
    ((ws.map fun w => if w.id = id then { w with live := false } else w).filter
      fun w => w.live).map Waiter.id =
    ((ws.filter fun w => w.live).map Waiter.id).filter (fun a => a ≠ id) := by
  induction ws with
  | nil => rfl
  | cons v ws ih =>
    by_cases hv : v.id = id
    · cases hvlive : v.live <;> simp [hv, hvlive, ih]
    · cases hvlive : v.live <;> simp [hv, hvlive, ih]

/-! ## The operations -/

namespace Exclusive

variable {s t : State}

/-- A call to `lock` joins at the end. -/
theorem lock (h : Exclusive s) {notify : Bool} (ht : step s (.lock false notify) = some t) :
    Exclusive t ∧ t.queue = s.queue ++ [s.nextId] ∧ t.nextId = s.nextId + 1 := by
  have hinv := (h.inv.lock false notify ht).inv
  obtain ⟨happend, hleft, hgranted⟩ := notifyLocked_append s.mutex.waiters s.mutex.latch
  have hend : t.queue = s.queue ++ [s.nextId] ∧ t.nextId = s.nextId + 1 ∧
      (∀ x ∈ t.holders, x.shared = false) ∧ ∀ w ∈ t.mutex.waiters, w.shared = false := by
    simp only [step, lockImpl, Option.some.injEq] at ht
    subst ht
    split
    · rename_i hc
      obtain ⟨hnil, _⟩ := Bool.and_eq_true_iff.1 hc
      rw [List.isEmpty_iff.1 hnil, List.filter_nil, List.map_nil, List.append_nil] at happend
      refine ⟨?_, rfl, fun x hx => ?_, fun w hw => ?_⟩
      · rw [State.grant_queue, unlatch_waiters, List.map_append, happend, State.queue]
        simp only [List.map_cons, List.map_nil, List.filter_nil, List.append_nil,
          List.append_assoc]
      · rcases List.mem_append.1 hx with hx | hx
        · exact h.holders x hx
        · obtain ⟨w, hw, rfl⟩ := List.mem_map.1 hx
          rcases List.mem_append.1 hw with hw | hw
          · exact h.waiters w (hgranted w hw)
          · rw [List.mem_singleton.1 hw]
      · rw [State.grant_mutex, unlatch_waiters] at hw
        cases hw
    · refine ⟨?_, rfl, fun x hx => ?_, fun w hw => ?_⟩
      · rw [State.grant_queue, unlatch_waiters, List.filter_append, List.map_append,
          ← List.append_assoc (List.map Waiter.id _), happend, State.queue, List.append_assoc]
        rfl
      · rcases List.mem_append.1 hx with hx | hx
        · exact h.holders x hx
        · obtain ⟨w, hw, rfl⟩ := List.mem_map.1 hx
          exact h.waiters w (hgranted w hw)
      · rw [State.grant_mutex, unlatch_waiters] at hw
        rcases List.mem_append.1 hw with hw | hw
        · exact h.waiters w (hleft w hw)
        · rw [List.mem_singleton.1 hw]
  obtain ⟨hq, hn, hholders, hwaiters⟩ := hend
  obtain ⟨hsorted, hfresh⟩ := h.sorted_append hq hn
  exact ⟨⟨hinv, hholders, hwaiters, hsorted, hfresh⟩, hq, hn⟩

/-- The holder leaves from the head. -/
theorem unlock (h : Exclusive s) {id : Nat} (ht : step s (.unlock id) = some t) :
    Exclusive t ∧ s.queue = id :: t.queue ∧ t.nextId = s.nextId := by
  obtain ⟨x, hx, rfl⟩ := Option.map_eq_some_iff.1 ht
  have hmem := State.mem_of_holder? hx
  have hinv := (h.inv.release hmem).inv
  have hone := h.holders_of_mem hmem
  have herase : s.holders.erase x = [] := by
    rw [hone, List.erase_cons_head]
  have hid := State.holder?_id hx
  have hend : s.queue = id :: (s.release x).queue ∧
      (∀ y ∈ (s.release x).holders, y.shared = false) ∧
      ∀ w ∈ (s.release x).mutex.waiters, w.shared = false := by
    have hqueue : s.queue = id :: (s.mutex.waiters.filter fun w => w.live).map Waiter.id := by
      rw [State.queue, hone, List.map_cons, List.map_nil, hid]
      rfl
    rw [hqueue, State.release, Mutex.unlock]
    rcases hm : s.mutex.fastPath x.shared with _ | m
    · obtain ⟨happend, hleft, hgranted⟩ := notifyLocked_append s.mutex.waiters
        (s.mutex.latch - lockAmount x.shared)
      simp only [Mutex.unlockImpl]
      refine ⟨?_, fun y hy => ?_, fun w hw => ?_⟩
      · rw [State.grant_queue, unlatch_waiters, happend, herase]
        rfl
      · rw [State.grant, herase] at hy
        obtain ⟨w, hw, rfl⟩ := List.mem_map.1 hy
        exact h.waiters w (hgranted w hw)
      · rw [State.grant_mutex, unlatch_waiters] at hw
        exact h.waiters w (hleft w hw)
    · have hws : m.waiters = s.mutex.waiters := by
        unfold Mutex.fastPath Mutex.unlockSharedFast Mutex.unlockFast at hm
        split at hm <;> split at hm <;> cases hm <;> rfl
      refine ⟨?_, fun y hy => ?_, fun w hw => ?_⟩
      · rw [State.grant_queue, herase]
        simp only [hws, List.map_nil, List.nil_append]
      · rw [State.grant, herase] at hy
        cases hy
      · rw [State.grant_mutex, hws] at hw
        exact h.waiters w hw
  obtain ⟨hq, hholders, hwaiters⟩ := hend
  have hsorted := h.sorted
  have hfresh := h.fresh
  rw [hq] at hsorted hfresh
  exact ⟨⟨hinv, hholders, hwaiters, (List.pairwise_cons.1 hsorted).2,
    fun a ha => hfresh a (List.mem_cons_of_mem id ha)⟩, hq, rfl⟩

/-- The holder has resumed. -/
theorem claim (h : Exclusive s) {id : Nat} (ht : step s (.claim id) = some t) :
    Exclusive t ∧ s.Granted id ∧ t.queue = s.queue ∧ t.nextId = s.nextId ∧
      t.holders.map Holder.id = s.holders.map Holder.id := by
  have hinv := (h.inv.claim id ht).inv
  obtain ⟨x, hx, rfl⟩ := Option.map_eq_some_iff.1 ht
  have hids : (s.holders.map fun y => if y = x then { x with claimed := true } else y).map
      Holder.id = s.holders.map Holder.id := by
    rw [List.map_map]
    apply List.map_congr_left
    intro y _
    simp only [Function.comp_apply]
    split
    · next hy => rw [hy]
    · rfl
  have hq : State.queue { s with
      holders := s.holders.map fun y => if y = x then { x with claimed := true } else y } =
      s.queue := by
    rw [State.queue, hids]
    rfl
  refine ⟨⟨hinv, fun y hy => ?_, h.waiters, by rw [hq]; exact h.sorted, by rw [hq]; exact h.fresh⟩,
    State.granted_iff.2 ⟨x, hx⟩, hq, rfl, hids⟩
  obtain ⟨z, hz, rfl⟩ := List.mem_map.1 hy
  split
  · exact h.holders x (State.mem_of_holder? hx)
  · exact h.holders z hz

theorem granted_of_claim (h : Exclusive s) {id : Nat} (ht : step s (.claim id) = some t) :
    t.Granted id := by
  obtain ⟨-, hg, -, -, hids⟩ := h.claim ht
  rw [State.Granted, hids]
  exact hg

/-- A waiter leaves from where it stands. -/
theorem cancel (h : Exclusive s) {id : Nat} (ht : step s (.cancel id) = some t) :
    Exclusive t ∧ t.queue = s.queue.filter (fun a => a ≠ id) ∧ t.nextId = s.nextId ∧
      t.holders = s.holders := by
  have hinv := (h.inv.cancel id ht).inv
  simp only [step] at ht
  split at ht
  · rename_i hany
    obtain rfl := Option.some.inj ht
    obtain ⟨w, hw, hwid⟩ := List.any_eq_true.1 hany
    obtain ⟨hwid, hwlive⟩ := Bool.and_eq_true_iff.1 hwid
    have hwid : w.id = id := by simpa using hwid
    -- the holder is not the waiter
    have hholders : ∀ x ∈ s.holders, x.id ≠ id := by
      intro x hx hxid
      have hsorted := h.sorted
      rw [State.queue, h.holders_of_mem hx] at hsorted
      have hlt := (List.pairwise_cons.1 hsorted).1 w.id
        (List.mem_map_of_mem (List.mem_filter.2 ⟨hw, hwlive⟩))
      rw [hwid, hxid] at hlt
      exact Nat.lt_irrefl id hlt
    have hq : State.queue { s with mutex := { s.mutex with
        waiters := s.mutex.waiters.map fun w =>
          if w.id = id then { w with live := false } else w } } =
        s.queue.filter (fun a => a ≠ id) := by
      have hkeep : (s.holders.map Holder.id).filter (fun a => a ≠ id) =
          s.holders.map Holder.id := by
        rw [List.filter_eq_self]
        intro a ha
        obtain ⟨x, hx, rfl⟩ := List.mem_map.1 ha
        exact decide_eq_true (hholders x hx)
      rw [State.queue, State.queue, List.filter_append, hkeep, live_cancel]
    refine ⟨⟨hinv, h.holders, fun v hv => ?_, ?_, fun a ha => ?_⟩, hq, rfl, rfl⟩
    · obtain ⟨u, hu, rfl⟩ := List.mem_map.1 hv
      split
      · exact h.waiters u hu
      · exact h.waiters u hu
    · rw [hq]
      exact h.sorted.filter _
    · rw [hq] at ha
      exact h.fresh a (List.mem_filter.1 ha).1
  · cases ht

end Exclusive

/-! ## Tickets that are dropped -/

/-- The ticket is destroyed.  A waiter is cancelled; if the lock was granted already, the
mutex is not told. -/
def State.abandon (s : State) (id : Nat) : State := (step s (.cancel id)).getD s

theorem Exclusive.abandon {s : State} (h : Exclusive s) (id : Nat) :
    Exclusive (s.abandon id) ∧ (s.abandon id).nextId = s.nextId ∧
      (s.abandon id).holders = s.holders ∧
      (s.Granted id → s.abandon id = s) ∧
      (¬ s.Granted id → (s.abandon id).queue = s.queue.filter (fun a => a ≠ id)) := by
  unfold State.abandon
  rcases ht : step s (.cancel id) with _ | t
  · refine ⟨h, rfl, rfl, fun _ => rfl, fun hg => (List.filter_eq_self.2 fun a ha => ?_).symm⟩
    -- what is not granted and cannot be cancelled is not in the queue
    rcases List.mem_append.1 ha with ha | ha
    · exact decide_eq_true fun he => hg (he ▸ ha)
    · refine decide_eq_true fun he => ?_
      obtain ⟨w, hw, hid⟩ := List.mem_map.1 ha
      have hw' := List.mem_filter.1 hw
      have hany : (s.mutex.waiters.any fun w => w.id == id && w.live) = true :=
        List.any_eq_true.2 ⟨w, hw'.1, by simp [hid, he, hw'.2]⟩
      simp only [step, hany, if_true] at ht
      cases ht
  · obtain ⟨hex, hq, hn, hholders⟩ := h.cancel ht
    refine ⟨hex, hn, hholders, fun hg => ?_, fun _ => hq⟩
    -- the holder would have left the queue
    have hg' : t.Granted id := by
      rw [State.Granted, hholders]
      exact hg
    have hmem := hg'.mem_queue
    rw [hq] at hmem
    exact absurd rfl (of_decide_eq_true (List.mem_filter.1 hmem).2)

/-! ## The owners of the tickets -/

/-- Each ticket has one owner at most; `f` gives the ticket of an owner. -/
structure Owned (s : State) (f : Nat → Option Nat) : Prop where
  exclusive : Exclusive s
  fresh : ∀ i id, f i = some id → id < s.nextId
  unique : ∀ i j id, f i = some id → f j = some id → i = j

/-- What an owner may do with its ticket: `old` before, `new` afterwards, and whether a
lock is lost with it. -/
inductive Move (s : State) : Bool → State → Option Nat → Option Nat → Prop where
  | keep (id : Option Nat) : Move s false s id id
  | lock {t : State} {notify : Bool} : step s (.lock false notify) = some t →
      Move s false t none (some s.nextId)
  | claim {t : State} {id : Nat} : step s (.claim id) = some t →
      Move s false t (some id) (some id)
  | unlock {t : State} {id : Nat} : step s (.unlock id) = some t → Move s false t (some id) none
  | abandon (id : Nat) : Move s (decide (s.Granted id)) (s.abandon id) (some id) none

/-- Somebody else's ticket was granted and dropped. -/
def Lost (s : State) (f : Nat → Option Nat) : Prop := ∃ id, s.Granted id ∧ ∀ i, f i ≠ some id

/-- Every ticket in the queue has its owner. -/
def Covered (s : State) (f : Nat → Option Nat) : Prop := ∀ id ∈ s.queue, ∃ i, f i = some id

section

variable {s t : State} {f : Nat → Option Nat} {i : Nat} {new : Option Nat} {loses : Bool}

/-- The owner `i` keeps its ticket, gets one that nobody had, or has none any more. -/
theorem Owned.update (h : Owned s f) (ht : Exclusive t) (hn : s.nextId ≤ t.nextId)
    (hnew : ∀ id, new = some id → id < t.nextId ∧ (f i = some id ∨ s.nextId ≤ id)) :
    Owned t (Function.update f i new) := by
  -- a new ticket is nobody else's
  have hother : ∀ m, m ≠ i → ∀ id, new = some id → f m ≠ some id := by
    intro m hmi id hid hm
    rcases (hnew id hid).2 with hold | hold
    · exact hmi (h.unique m i id hm hold)
    · exact Nat.not_lt.2 hold (h.fresh m id hm)
  refine ⟨ht, fun j id hj => ?_, fun j k id hj hk => ?_⟩
  · by_cases hji : j = i
    · rw [hji, Function.update_self] at hj
      exact (hnew id hj).1
    · rw [Function.update_of_ne hji] at hj
      exact Nat.lt_of_lt_of_le (h.fresh j id hj) hn
  · by_cases hji : j = i <;> by_cases hki : k = i
    · rw [hji, hki]
    · rw [hji, Function.update_self] at hj
      rw [Function.update_of_ne hki] at hk
      exact absurd hk (hother k hki id hj)
    · rw [hki, Function.update_self] at hk
      rw [Function.update_of_ne hji] at hj
      exact absurd hj (hother j hji id hk)
    · rw [Function.update_of_ne hji] at hj
      rw [Function.update_of_ne hki] at hk
      exact h.unique j k id hj hk

theorem Owned.move (h : Owned s f) (hm : Move s loses t (f i) new) :
    Owned t (Function.update f i new) := by
  generalize hf : f i = old at hm
  cases hm with
  | keep =>
    refine h.update h.exclusive (Nat.le_refl _) fun id hid => ?_
    exact ⟨h.fresh i id (hf.trans hid), .inl (hf.trans hid)⟩
  | lock hs =>
    obtain ⟨hex, -, hn⟩ := h.exclusive.lock hs
    refine h.update hex (by rw [hn]; exact Nat.le_succ _) fun id hid => ?_
    obtain rfl := Option.some.inj hid
    exact ⟨by rw [hn]; exact Nat.lt_succ_self _, .inr (Nat.le_refl _)⟩
  | claim hs =>
    obtain ⟨hex, -, -, hn, -⟩ := h.exclusive.claim hs
    refine h.update hex (Nat.le_of_eq hn.symm) fun id hid => ⟨?_, .inl (hf.trans hid)⟩
    rw [hn]
    exact h.fresh i id (hf.trans hid)
  | unlock hs =>
    obtain ⟨hex, -, hn⟩ := h.exclusive.unlock hs
    exact h.update hex (Nat.le_of_eq hn.symm) nofun
  | abandon id =>
    obtain ⟨hex, hn, -⟩ := h.exclusive.abandon id
    exact h.update hex (Nat.le_of_eq hn.symm) nofun

/-- A grant is taken back by its owner only. -/
theorem Owned.granted_move (h : Owned s f) (hm : Move s loses t (f i) new) {id : Nat}
    (hid : s.Granted id) (hne : f i ≠ some id) : t.Granted id := by
  generalize f i = old at hm hne
  cases hm with
  | keep => exact hid
  | lock hs =>
    obtain ⟨hex, hq, -⟩ := h.exclusive.lock hs
    obtain ⟨rest, hrest⟩ := h.exclusive.queue_of_granted hid
    rw [hrest] at hq
    exact hex.granted_of_queue hq
  | claim hs =>
    obtain ⟨-, -, -, -, hids⟩ := h.exclusive.claim hs
    rw [State.Granted, hids]
    exact hid
  | @unlock t id' hs =>
    obtain ⟨x, hx, -⟩ := Option.map_eq_some_iff.1 hs
    have hid' : s.Granted id' := State.granted_iff.2 ⟨x, hx⟩
    exact absurd (congrArg some (h.exclusive.granted_unique hid' hid)) hne
  | abandon id' =>
    obtain ⟨-, -, hholders, -⟩ := h.exclusive.abandon id'
    rw [State.Granted, hholders]
    exact hid

/-- A lost lock stays lost. -/
theorem Owned.lost_move (h : Owned s f) (hm : Move s loses t (f i) new) (hl : Lost s f) :
    Lost t (Function.update f i new) := by
  obtain ⟨id, hid, hnone⟩ := hl
  refine ⟨id, h.granted_move hm hid (hnone i), fun j hj => ?_⟩
  by_cases hji : j = i
  · rw [hji, Function.update_self] at hj
    have hlt := h.exclusive.fresh id hid.mem_queue
    have hold := hnone i
    generalize f i = old at hm hold
    cases hm with
    | keep => exact hold hj
    | lock hs => exact Nat.ne_of_lt hlt (Option.some.inj hj).symm
    | claim hs => exact hold hj
    | unlock hs => cases hj
    | abandon id' => cases hj
  · rw [Function.update_of_ne hji] at hj
    exact hnone j hj

/-- No owner leaves its ticket in the queue, unless a lock is lost. -/
theorem Owned.covered_move (h : Owned s f) (hm : Move s false t (f i) new)
    (hc : Covered s f) : Covered t (Function.update f i new) := by
  have hother : ∀ id ∈ s.queue, f i ≠ some id →
      ∃ j, Function.update f i new j = some id := by
    intro id hid hne
    obtain ⟨j, hj⟩ := hc id hid
    have hji : j ≠ i := fun he => hne (he ▸ hj)
    exact ⟨j, by rw [Function.update_of_ne hji]; exact hj⟩
  generalize hf : f i = old at hm hother
  generalize hl : false = loses at hm
  cases hm with
  | keep =>
    rw [← hf, Function.update_eq_self]
    exact hc
  | lock hs =>
    obtain ⟨-, hq, -⟩ := h.exclusive.lock hs
    intro id hid
    rw [hq] at hid
    rcases List.mem_append.1 hid with hid | hid
    · exact hother id hid nofun
    · rw [List.mem_singleton.1 hid]
      exact ⟨i, Function.update_self ..⟩
  | claim hs =>
    obtain ⟨-, -, hq, -, -⟩ := h.exclusive.claim hs
    rw [← hf, Function.update_eq_self]
    intro id hid
    rw [hq] at hid
    exact hc id hid
  | unlock hs =>
    obtain ⟨-, hq, -⟩ := h.exclusive.unlock hs
    have hsorted := h.exclusive.sorted
    rw [hq] at hsorted
    intro id hid
    have hlt := (List.pairwise_cons.1 hsorted).1 id hid
    refine hother id (by rw [hq]; exact List.mem_cons_of_mem _ hid) fun he => ?_
    rw [Option.some.inj he] at hlt
    exact Nat.lt_irrefl _ hlt
  | abandon id' =>
    obtain ⟨-, -, -, -, hq⟩ := h.exclusive.abandon id'
    intro id hid
    rw [hq (of_decide_eq_false hl.symm)] at hid
    obtain ⟨hmem, hne⟩ := List.mem_filter.1 hid
    exact hother id hmem fun he => (of_decide_eq_true hne) (Option.some.inj he).symm

/-- A granted ticket that is dropped is lost. -/
theorem Owned.lost_of_move (h : Owned s f) (hm : Move s true t (f i) new) :
    Lost t (Function.update f i new) := by
  generalize hf : f i = old at hm
  generalize hl : true = loses at hm
  cases hm with
  | abandon id =>
    obtain ⟨-, -, hholders, -⟩ := h.exclusive.abandon id
    refine ⟨id, ?_, fun j hj => ?_⟩
    · rw [State.Granted, hholders]
      exact of_decide_eq_true hl.symm
    · by_cases hji : j = i
      · rw [hji, Function.update_self] at hj
        cases hj
      · rw [Function.update_of_ne hji] at hj
        exact hji (h.unique j i id hj hf)
  | _ => cases hl

end

end Mutex
end Cotamer
end Psets
