/-
The calls that a program makes on events keep the invariant.
-/
import Psets.Cotamer.EventMemoryTrigger

namespace Psets
namespace Cotamer
namespace EventMemory

open Containers
open Event (EventId CoroId DriverId Listener Scan scanListeners)

variable {m m' : Memory} {x y q : EventId} {b b' : Body} {g : Calls} {f : Flags}
variable (home : CoroId → DriverId) (current : DriverId)

/-! ## Locking one event -/

/-- `x` is locked, to be triggered or changed. -/
theorem Inv.ready (h : Inv g m) (hlocked : g.locked = []) (hb : m.heap x = some b)
    (ht : b.flags.triggered = false) :
    Ready { g with locked := [x] } (m.set x { b with flags := { b.flags with lock := true } }) x
      b.flags { b with flags := { b.flags with lock := true } } := by
  have hfree : x ∉ g.locked := by
    rw [hlocked]
    exact List.not_mem_nil
  have htidy := h.tidy hb hfree
  refine ⟨?_, Memory.heap_set_self, rfl, ht, rfl, h.unlocked hb hfree, htidy.empty,
    htidy.emptyMembers, htidy.wants⟩
  refine h.edit hb { b with flags := { b.flags with lock := true } } g.held [x] rfl rfl rfl rfl
    (fun _ _ => rfl) rfl (fun y hy => ?_) ⟨fun _ => List.mem_cons_self, fun _ => rfl⟩
    fun hx => absurd List.mem_cons_self hx
  rw [hlocked, List.mem_singleton]
  exact ⟨fun e => absurd e hy, fun e => by cases e⟩

/-- The event is unlocked, and was not triggered. -/
theorem Ready.unlock (h : Ready g m x f b) (hheld : 0 < g.held x) (hf : f.triggered = false) :
    Inv { g with locked := [] } (m.set x { b with flags := f }) := by
  have hr : 0 < b.refcount := by
    have hx := h.inv.refs x
    rw [Memory.refcount_of h.heap] at hx
    omega
  refine h.inv.edit h.heap { b with flags := f } g.held [] rfl rfl (hf.trans h.triggered.symm)
    h.quorum (fun _ _ => rfl) rfl (fun y hy => ?_) ?_ fun _ => ⟨h.empty, h.emptyMembers, ?_, ?_,
    h.wants⟩
  · rw [h.locked, List.mem_singleton]
    exact ⟨(fun e => by cases e), fun e => absurd e hy⟩
  · show f.lock = true ↔ _
    rw [h.lock]
    exact ⟨(fun e => by cases e), fun e => by cases e⟩
  · rintro (ht | hz)
    · have ht : f.triggered = true := ht
      rw [hf] at ht
      cases ht
    · exact absurd hz (Nat.ne_of_gt hr)
  · intro hz
    exact absurd hz (Nat.ne_of_gt hr)

/-- The depth suffices for a cascade. -/
theorem Ready.triggers (drv : Option DriverId) (h : Ready g m x f b)
    (hkept : g.kind x = true ∨ 0 < g.held x) :
    ∃ m', triggerUnlock home current drv (depth m) m x f = some m' ∧
      Inv { g with locked := [] } m' ∧ Calm drv m m' := by
  refine triggerUnlock_spec (depth m) g m x f b h hkept (fun _ => ?_) fun _ => Nat.le_refl _
  show m.size ≤ m.size + 1 + x
  omega

theorem trigger_spec (h : Inv g m)
    (hlocked : g.locked = []) (hheld : 0 < g.held x) :
    ∃ r m', trigger home current m x = some (r, m') ∧ Inv g m' ∧ Calm none m m' := by
  obtain ⟨b, hb, _⟩ := h.live_of_held hheld
  cases ht : b.flags.triggered with
  | true =>
    refine ⟨false, m, ?_, h, .refl none m⟩
    rw [trigger, untriggeredLock_triggered hb ht]
    simp [ht]
  | false =>
    have hfree : x ∉ g.locked := by
      rw [hlocked]
      exact List.not_mem_nil
    have hready := h.ready hlocked hb ht
    obtain ⟨m', hm', h', hcalm⟩ := hready.triggers home current none (.inr hheld)
    refine ⟨!b.flags.empty || decide (1 < b.refcount), m', ?_, ?_,
      (Calm.set none m x _).trans hcalm⟩
    · have hlock := untriggeredLock_eq hb ht (h.unlocked hb hfree)
      generalize hb₁ : ({ b with flags := { b.flags with lock := true } } : Body) = b₁ at hlock hm'
      have hr : b₁.refcount = b.refcount := by rw [← hb₁]
      rw [trigger, hlock]
      simp only [Option.bind_eq_bind, Option.bind_some, ht, Bool.false_eq_true, if_false,
        Memory.heap_set_self, hr, hm']
    · rw [show g = { g with locked := [] } by rw [← hlocked]]
      exact h'

/-! ## Coroutines among the listeners -/

/-- A change of the coroutines among the listeners of `x`, and of those that are suspended. -/
theorem Inv.relisten (h : Inv g m) (hb : m.heap x = some b) (b' : Body) (coh : Option CoroId)
    (suspended : List (CoroId × EventId)) (held : EventId → Nat)
    (hmembers : b'.members = b.members) (hrefs : b'.refcount = b.refcount)
    (htriggered : b'.flags.triggered = b.flags.triggered)
    (hquorum : b'.flags.quorum = b.flags.quorum)
    (hlock : b'.flags.lock = true ↔ x ∈ g.locked) (htidy : x ∉ g.locked → Tidy m b')
    (hquorums : ∀ q, b'.listeners.count (.quorum q) = b.listeners.count (.quorum q))
    (hheld : ∀ y, held y + (suspended.map Prod.snd).count y =
      g.held y + (m.suspended.map Prod.snd).count y)
    (hself : ∀ c, b'.listeners.count (.coroutine c) +
      (if coh = some c then suspended.count (c, x) else 0) = suspended.count (c, x))
    (hother : ∀ c y, y ≠ x → (m.listeners y).count (.coroutine c) +
      (if coh = some c then suspended.count (c, y) else 0) = suspended.count (c, y))
    (hclaimed : ∀ {c}, coh = some c → ∃ y, (c, y) ∈ suspended)
    (halone : (suspended.map Prod.fst).Nodup) :
    Inv { g with held } { m.set x b' with coh, suspended } := by
  have hmem : (m.set x b').members = m.members := Memory.members_set_of hb hmembers
  have href : (m.set x b').refcount = m.refcount := Memory.refcount_set_of hb hrefs
  have htri : (m.set x b').triggered = m.triggered := Memory.triggered_set_of hb htriggered
  have hlisx : (m.set x b').listeners x = b'.listeners := Memory.listeners_of Memory.heap_set_self
  have hlis : ∀ y, y ≠ x → (m.set x b').listeners y = m.listeners y := fun y hy => by
    rw [Memory.listeners_set, Function.update_of_ne hy]
  have hquorumCount : ∀ y q, ((m.set x b').listeners y).count (.quorum q) =
      (m.listeners y).count (.quorum q) := fun y q => by
    by_cases hy : y = x
    · subst hy
      rw [hlisx, hquorums q, Memory.listeners_of hb]
    · rw [hlis y hy]
  have hcases : ∀ {y c}, (m.set x b').heap y = some c →
      (y = x ∧ c = b') ∨ (y ≠ x ∧ m.heap y = some c) := Memory.heap_set_cases
  have hmono : ∀ {c : Body}, Tidy m c → Tidy { m.set x b' with coh, suspended } c := fun ht =>
    ht.mono fun y _ hy => by
      show (m.set x b').triggered y = true
      rw [htri]
      exact hy
  exact {
    bound := fun {y c} hy => by
      rcases hcases hy with ⟨rfl, rfl⟩ | ⟨_, hy⟩
      · exact h.bound hb
      · exact h.bound hy
    kind := fun {y c} hy => by
      rcases hcases hy with ⟨rfl, rfl⟩ | ⟨_, hy⟩
      · rw [hquorum]
        exact h.kind hb
      · exact h.kind hy
    refs := fun y => by
      have hy := h.refs y
      have hy' := hheld y
      unfold Memory.queued at hy
      show (m.set x b').refcount y = held y + ((m.asap.map Prod.snd).count y +
        (m.migrate.map Prod.snd).count y + (suspended.map Prod.snd).count y) +
        indegree (m.set x b').members y m.size
      rw [hmem, href]
      omega
    below := fun {q y} hy => by
      have hy : y ∈ m.members q := by rwa [← hmem]
      exact h.below hy
    linked := fun y q => by
      show ((m.set x b').listeners y).count (.quorum q) + g.due y q =
        ((m.set x b').members q).count y
      rw [hmem, hquorumCount]
      exact h.linked y q
    undue := fun {y} q hy => by
      have ht : (m.set x b').triggered y = false := hy
      rw [htri] at ht
      exact h.undue q ht
    informed := fun {y} q hy => by
      have ht : (m.set x b').triggered y = true := hy
      rw [htri] at ht
      show ((m.set x b').listeners y).count (.quorum q) = 0
      rw [hquorumCount]
      exact h.informed q ht
    locked := fun {y c} hy => by
      rcases hcases hy with ⟨rfl, rfl⟩ | ⟨_, hy⟩
      · exact hlock
      · exact h.locked hy
    tidy := fun {y c} hy hfree => by
      rcases hcases hy with ⟨rfl, rfl⟩ | ⟨_, hy⟩
      · exact hmono (htidy hfree)
      · exact hmono (h.tidy hy hfree)
    waiting := fun c y => by
      show ((m.set x b').listeners y).count (.coroutine c) + _ = _
      by_cases hy : y = x
      · subst hy
        rw [hlisx]
        exact hself c
      · rw [hlis y hy]
        exact hother c y hy
    claimed := hclaimed
    alone := halone }

/-- Every coroutine that is suspended is listed, unless it has been claimed. -/
theorem Inv.listed (h : Inv g m) {c : CoroId} (hc : (c, x) ∈ m.suspended) (hcoh : m.coh ≠ some c) :
    ∃ b, m.heap x = some b ∧ b.listeners.count (.coroutine c) = 1 := by
  have hwaiting := h.waiting c x
  rw [if_neg hcoh, Nat.add_zero, count_of_alone h.alone hc x, if_pos rfl] at hwaiting
  cases hb : m.heap x with
  | none =>
    rw [Memory.listeners_none hb] at hwaiting
    cases hwaiting
  | some b => exact ⟨b, rfl, by rw [← Memory.listeners_of hb]; exact hwaiting⟩

/-- A body off whose listeners a coroutine was taken is as tidy as before. -/
theorem Tidy.delist (h : Tidy m b) (l : Listener) : Tidy m (b.delist l b.flags) where
  empty := by
    show (b.flags.empty || (swapErase l b.listeners).isEmpty) = _
    rw [h.empty]
    exact isEmpty_swapErase _ _
  emptyMembers := h.emptyMembers
  fired := h.fired
  used := h.used
  wants := h.wants

/-- The coroutine that `driver_trigger` is to return is taken off the list. -/
theorem Inv.claim (h : Inv g m) (hlocked : g.locked = []) (hcoh : m.coh = none)
    (hb : m.heap x = some b) {c : CoroId} (hc : .coroutine c ∈ b.listeners) :
    Inv g { m.set x (b.delist (.coroutine c) b.flags) with coh := some c } := by
  have hlock : b.flags.lock = true ↔ x ∈ g.locked := h.locked hb
  have hfree : x ∉ g.locked := by
    rw [hlocked]
    exact List.not_mem_nil
  have hlist : ∀ c y, (m.listeners y).count (.coroutine c) = m.suspended.count (c, y) :=
    fun c y => by
      have hwaiting := h.waiting c y
      rw [hcoh, if_neg (by simp), Nat.add_zero] at hwaiting
      exact hwaiting
  have hin : (c, x) ∈ m.suspended := by
    rw [← List.count_pos_iff, ← hlist, Memory.listeners_of hb]
    exact List.count_pos_iff.2 hc
  refine h.relisten hb (b.delist (.coroutine c) b.flags) (some c) m.suspended g.held rfl rfl rfl rfl
    hlock (fun _ => (h.tidy hb hfree).delist _) (fun q => count_swapErase_of_ne (by simp) _)
    (fun _ => rfl) (fun k => ?_) (fun k y hy => ?_) (fun {k} hk => ?_) h.alone
  · have hk := hlist k x
    rw [Memory.listeners_of hb] at hk
    show (swapErase (.coroutine c) b.listeners).count (.coroutine k) + _ = _
    by_cases he : k = c
    · subst he
      rw [if_pos rfl, count_swapErase_self, hk, count_of_alone h.alone hin x, if_pos rfl]
    · rw [if_neg fun e => he (Option.some.inj e).symm, Nat.add_zero,
        count_swapErase_of_ne (by simp [he]), hk]
  · rw [hlist k y]
    by_cases he : k = c
    · subst he
      rw [if_pos rfl, count_of_alone h.alone hin y, if_neg hy]
    · rw [if_neg fun e => he (Option.some.inj e).symm, Nat.add_zero]
  · rw [← Option.some.inj hk]
    exact ⟨x, hin⟩

/-- The search of `driver_trigger` among listeners that are all suspended coroutines. -/
theorem firstOwn_spec (d : DriverId) (ls : List Listener) (hframes : ls.all (Frame m) = true)
    (hquorums : ∀ q, ls.count (.quorum q) = 0) :
    ∃ r, firstOwn home d m ls = some r ∧ ∀ c, r = some c → .coroutine c ∈ ls := by
  induction ls with
  | nil => exact ⟨none, rfl, fun c e => by cases e⟩
  | cons l ls ih =>
    rw [List.all_cons, Bool.and_eq_true] at hframes
    cases l with
    | quorum q =>
      have hq := hquorums q
      rw [List.count_cons_self] at hq
      cases hq
    | coroutine c =>
      rw [firstOwn, if_pos hframes.1]
      by_cases hc : home c = d
      · rw [if_pos hc]
        exact ⟨some c, rfl, fun k e => by rw [Option.some.inj e]; exact List.mem_cons_self⟩
      · rw [if_neg hc]
        obtain ⟨r, hr, hmem⟩ := ih hframes.2 fun q => by
          have hq := hquorums q
          rwa [List.count_cons_of_ne (by simp)] at hq
        exact ⟨r, hr, fun k e => List.mem_cons_of_mem _ (hmem k e)⟩

theorem driverTrigger_spec (d : DriverId) (h : Inv g m) (hlocked : g.locked = [])
    (hcoh : m.coh = none) (hheld : 0 < g.held x) :
    ∃ m', driverTrigger home current d m x = some m' ∧ Inv g m' := by
  obtain ⟨b, hb, _⟩ := h.live_of_held hheld
  have hfree : x ∉ g.locked := by
    rw [hlocked]
    exact List.not_mem_nil
  have hlock := h.unlocked hb hfree
  have hclear : ({ m with coh := none } : Memory) = m := by rw [← hcoh]
  have hg : ({ g with locked := [] } : Calls) = g := by rw [← hlocked]
  cases he : b.flags.empty && b.flags.triggered with
  | true =>
    refine ⟨m, ?_, h⟩
    simp only [driverTrigger, hclear, hb, Option.bind_eq_bind, Option.bind_some, he, if_true]
  | false =>
  have hstart : driverTrigger home current d m x =
      if ¬ b.flags.triggered then triggerUnlock home current (some d) (depth m)
        (m.set x { b with flags := { b.flags with lock := true } }) x b.flags
      else (firstOwn home d (m.set x { b with flags := { b.flags with lock := true } })
          b.listeners).bind fun r => r.elim
        (some (m.set x { b with
          flags := { b.flags with empty := b.flags.empty || b.listeners.isEmpty } }))
        fun c => some { m.set x (b.delist (.coroutine c) b.flags) with coh := some c } := by
    simp only [driverTrigger, hclear, hb, Option.bind_eq_bind, Option.bind_some, he, lock_eq hb hlock,
      Bool.false_eq_true, if_false, removeListenerUnlock_eq Memory.heap_set_self, Memory.set_set,
      Body.delist_flags, unlock_eq Memory.heap_set_self]
    congr 2
    funext r
    cases r with
    | some c => rfl
    | none => rfl
  rw [hstart]
  cases ht : b.flags.triggered with
  | false =>
    rw [if_pos (by simp)]
    obtain ⟨m', hm', h', _⟩ := (h.ready hlocked hb ht).triggers home current (some d) (.inr hheld)
    rw [hg] at h'
    exact ⟨m', hm', h'⟩
  | true =>
    rw [if_neg (by simp)]
    obtain ⟨r, hr, hmem⟩ := firstOwn_spec (m := m.set x _) home d b.listeners
      (h.frames hb) fun q => by
        have hq := h.informed q ((Memory.triggered_of hb).trans ht)
        rwa [Memory.listeners_of hb] at hq
    rw [hr, Option.bind_some]
    cases r with
    | some c => exact ⟨_, rfl, h.claim hlocked hcoh hb (hmem c rfl)⟩
    | none =>
      have htidy := h.tidy hb hfree
      have hlock' : b.flags.lock = true ↔ x ∈ g.locked := h.locked hb
      refine ⟨_, rfl, h.edit hb { b with
        flags := { b.flags with empty := b.flags.empty || b.listeners.isEmpty } } g.held g.locked
        rfl rfl rfl rfl (fun _ _ => rfl) rfl (fun _ _ => Iff.rfl) hlock' fun _ =>
        ⟨?_, htidy.emptyMembers, htidy.fired, htidy.used, htidy.wants⟩⟩
      show (b.flags.empty || b.listeners.isEmpty) = b.listeners.isEmpty
      rw [htidy.empty, Bool.or_self]

end EventMemory
end Cotamer
end Psets
