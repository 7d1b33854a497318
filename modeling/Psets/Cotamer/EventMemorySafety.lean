/-
The memory of events is safe, and none of it leaks.

Whatever a program does with its handles, whatever coroutines await or are destroyed, and
however the calls of several drivers alternate, each as a whole: no body is used after it was
deleted, none is deleted twice, no thread waits for its own lock, and between two operations
exactly the bodies are there that some handle refers to.
-/
import Mathlib.Data.List.Count
import Mathlib.Logic.Relation
import Psets.Cotamer.EventMemoryQuorums

namespace Psets
namespace Cotamer
namespace EventMemory

open Containers Transition
open Event (EventId CoroId DriverId Listener Scan scanListeners)

variable {m m' : Memory} {x y q : EventId} {b b' : Body} {g : Calls} {c : CoroId}
variable (home : CoroId → DriverId) (current : DriverId)

/-! ## Coroutines -/

theorem count_snd_erase {ws : List (CoroId × EventId)} (hin : (c, x) ∈ ws) (y : EventId) :
    ((ws.erase (c, x)).map Prod.snd).count y + (if y = x then 1 else 0) =
      (ws.map Prod.snd).count y := by
  have hperm := (List.perm_cons_erase hin).map Prod.snd
  rw [hperm.count_eq, List.map_cons, List.count_cons]
  by_cases hy : y = x
  · simp [hy]
  · simp [hy, Ne.symm hy]

theorem Inv.suspend (h : Inv (g.hold x) m) (hlocked : g.locked = []) (hcoh : m.coh = none)
    (hb : m.heap x = some b) (hc : c ∉ m.suspended.map Prod.fst) :
    Inv g { m.set x { b with
        listeners := b.listeners ++ [.coroutine c]
        flags := { b.flags with empty := false } } with suspended := (c, x) :: m.suspended } := by
  have hlock : b.flags.lock = true ↔ x ∈ g.locked := h.locked hb
  have hfree : x ∉ g.locked := by
    rw [hlocked]
    exact List.not_mem_nil
  have htidy := h.tidy hb hfree
  have hlist : ∀ k y, (m.listeners y).count (.coroutine k) = m.suspended.count (k, y) :=
    fun k y => by
      have hwaiting := h.waiting k y
      rw [hcoh, if_neg (by simp), Nat.add_zero] at hwaiting
      exact hwaiting
  have hnew := h.relisten hb { b with
        listeners := b.listeners ++ [.coroutine c]
        flags := { b.flags with empty := false } } none ((c, x) :: m.suspended) g.held rfl rfl rfl
    rfl hlock (fun _ => ⟨?_, htidy.emptyMembers, htidy.fired, htidy.used, htidy.wants⟩) (fun q => ?_)
    (fun y => ?_) (fun k => ?_) (fun k y hy => ?_) (fun e => by cases e) ?_
  · rw [← hcoh] at hnew
    exact hnew
  · show false = (b.listeners ++ [Listener.coroutine c]).isEmpty
    cases b.listeners <;> rfl
  · show (b.listeners ++ [Listener.coroutine c]).count (.quorum q) = _
    rw [List.count_append, List.count_singleton, if_neg (by simp), Nat.add_zero]
  · show g.held y + _ = g.held y + (if y = x then 1 else 0) + _
    rw [List.map_cons, List.count_cons]
    by_cases hy : y = x
    · simp [hy]
      omega
    · simp [hy, Ne.symm hy]
  · have hk := hlist k x
    rw [Memory.listeners_of hb] at hk
    show (b.listeners ++ [Listener.coroutine c]).count (.coroutine k) + _ = _
    rw [if_neg (by simp), Nat.add_zero, List.count_append, List.count_singleton, List.count_cons,
      hk]
    by_cases hkc : k = c
    · simp [hkc]
    · simp [Ne.symm hkc]
  · rw [if_neg (by simp), Nat.add_zero, hlist k y, List.count_cons,
      if_neg (by simp [Ne.symm hy]), Nat.add_zero]
  · rw [List.map_cons, List.nodup_cons]
    exact ⟨hc, h.alone⟩

theorem await_spec {ievent : EventId} (h : Inv (g.hold x) m) (hlocked : g.locked = [])
    (hcoh : m.coh = none) (hplain : g.kind ievent = false) (hheld : 0 < g.held ievent)
    (hc : c ∉ m.suspended.map Prod.fst) :
    ∃ m', await home current m c x ievent = some m' ∧ Inv g m' ∧ m'.coh = none := by
  have habove : g.Above x := fun y hy => by
    rw [hlocked] at hy
    cases hy
  have hrelease : ∀ {m : Memory}, Inv (g.hold x) m → m.coh = none →
      ∃ m', release m x = some m' ∧ Inv g m' ∧ m'.coh = none := fun h hcoh => by
    obtain ⟨m', hm', h', hstill⟩ := release_spec h habove
    exact ⟨m', hm', h', ((hstill.calm none).coh rfl).trans hcoh⟩
  obtain ⟨b, hb, _⟩ := h.live_of_held Calls.held_hold_pos
  cases ht : b.flags.triggered with
  | true =>
    obtain ⟨m', hm', h', hcoh'⟩ := hrelease h hcoh
    refine ⟨m', ?_, h', hcoh'⟩
    simp [await, hb, ht, hm']
  | false =>
    -- the interest of the coroutine, which may trigger the event
    have hfix : ∃ m₁, (if b.flags.wantInterest then
          fixWantInterest home current ievent (depth m) m x else some m) = some m₁ ∧
        Inv (g.hold x) m₁ ∧ Calm none m m₁ := by
      cases hw : b.flags.wantInterest with
      | false => exact ⟨m, rfl, h, .refl none m⟩
      | true =>
        have hfree : x ∉ (g.hold x).locked := habove.not_mem
        have hkind := (h.kind hb).symm.trans ((h.tidy hb hfree).wants hw)
        exact fixWantInterest_spec home current (depth m) (g.hold x) m x h hlocked hplain
          (Nat.lt_of_lt_of_le hheld (Nat.le_add_right _ _)) hkind Calls.held_hold_pos
          (Nat.lt_succ_of_lt (h.bound hb))
    obtain ⟨m₁, hm₁, h₁, hcalm₁⟩ := hfix
    have hcoh₁ : m₁.coh = none := (hcalm₁.coh rfl).trans hcoh
    obtain ⟨b₁, hb₁, _⟩ := h₁.live_of_held Calls.held_hold_pos
    have hstart : await home current m c x ievent = (m₁.untriggeredLock x).bind fun fm =>
        if fm.1.triggered then release fm.2 x
        else (fm.2.addListenerUnlock x (.coroutine c) fm.1).bind fun m =>
          some { m with suspended := (c, x) :: m.suspended } := by
      rw [await, hb]
      simp only [Option.bind_eq_bind, Option.bind_some, ht, Bool.false_eq_true, if_false]
      cases hw : b.flags.wantInterest with
      | false =>
        rw [hw] at hm₁
        have he : m = m₁ := Option.some.inj hm₁
        rw [← he]
        rfl
      | true =>
        rw [hw, if_pos rfl] at hm₁
        rw [if_pos rfl, hm₁, Option.bind_some]
    rw [hstart]
    cases ht₁ : b₁.flags.triggered with
    | true =>
      rw [untriggeredLock_triggered hb₁ ht₁, Option.bind_some, if_pos ht₁]
      exact hrelease h₁ hcoh₁
    | false =>
      have hfree : x ∉ (g.hold x).locked := habove.not_mem
      rw [untriggeredLock_eq hb₁ ht₁ (h₁.unlocked hb₁ hfree), Option.bind_some,
        if_neg (by rw [ht₁]; exact Bool.false_ne_true),
        addListenerUnlock_eq Memory.heap_set_self _ ht₁, Option.bind_some, Memory.set_set]
      refine ⟨_, rfl, ?_, hcoh₁⟩
      have hsuspended : m₁.suspended = m.suspended := hcalm₁.suspended
      rw [← hsuspended] at hc
      exact h₁.suspend hlocked hcoh₁ hb₁ hc

theorem destroy_spec (h : Inv g m) (hlocked : g.locked = []) (hcoh : m.coh = none)
    (hc : (c, x) ∈ m.suspended) :
    ∃ m', destroy m c x = some m' ∧ Inv g m' ∧ m'.coh = none := by
  obtain ⟨b, hb, _⟩ := h.listed hc (by rw [hcoh]; simp)
  have hlock : b.flags.lock = true ↔ x ∈ g.locked := h.locked hb
  have hfree : x ∉ g.locked := by
    rw [hlocked]
    exact List.not_mem_nil
  have hlist : ∀ k y, (m.listeners y).count (.coroutine k) = m.suspended.count (k, y) :=
    fun k y => by
      have hwaiting := h.waiting k y
      rw [hcoh, if_neg (by simp), Nat.add_zero] at hwaiting
      exact hwaiting
  have hnew : Inv (g.hold x) { m.set x (b.delist (.coroutine c) b.flags) with
      coh := none, suspended := m.suspended.erase (c, x) } := by
    refine h.relisten hb (b.delist (.coroutine c) b.flags) none (m.suspended.erase (c, x))
      (g.hold x).held rfl rfl rfl rfl hlock (fun _ => (h.tidy hb hfree).delist _)
      (fun q => count_swapErase_of_ne (by simp) _) (fun y => ?_) (fun k => ?_) (fun k y hy => ?_)
      (fun e => by cases e) ?_
    · have hcount := count_snd_erase hc y
      show g.held y + (if y = x then 1 else 0) + _ = _
      omega
    · have hk := hlist k x
      rw [Memory.listeners_of hb] at hk
      show (swapErase (.coroutine c) b.listeners).count (.coroutine k) + _ = _
      rw [if_neg (by simp), Nat.add_zero, count_swapErase]
      by_cases hkc : k = c
      · rw [hkc, List.count_erase_self, List.count_erase_self, ← hkc, hk]
      · rw [List.count_erase_of_ne (by simp [hkc]), List.count_erase_of_ne (by simp [hkc]), hk]
    · rw [if_neg (by simp), Nat.add_zero, hlist k y, List.count_erase_of_ne (by simp [hy])]
    · exact h.alone.sublist ((List.erase_sublist).map Prod.fst)
  rw [← hcoh] at hnew
  obtain ⟨m', hm', h', hstill⟩ := release_spec hnew fun y hy => by
    rw [hlocked] at hy
    cases hy
  refine ⟨m', ?_, h', ((hstill.calm none).coh rfl).trans hcoh⟩
  rw [destroy, lock_eq hb (h.unlocked hb hfree)]
  simp only [Option.bind_eq_bind, Option.bind_some, removeListenerUnlock_eq Memory.heap_set_self,
    Memory.set_set, Body.delist_flags]
  exact hm'

theorem resume_spec (h : Inv g m) (hlocked : g.locked = []) (hcoh : m.coh = some c) :
    ∃ m', resume m c = some m' ∧ Inv g m' ∧ m'.coh = none := by
  obtain ⟨y, hy⟩ := h.claimed hcoh
  cases hw : m.suspended.find? fun w => w.1 = c with
  | none => exact absurd (List.find?_eq_none.1 hw _ hy) (by simp)
  | some w =>
    obtain ⟨k, x⟩ := w
    have hk : k = c := by simpa using List.find?_some hw
    subst hk
    have hin : (k, x) ∈ m.suspended := List.mem_of_find?_eq_some hw
    have hcount : 0 < (m.suspended.map Prod.snd).count x :=
      List.count_pos_iff.2 (List.mem_map.2 ⟨_, hin, rfl⟩)
    obtain ⟨b, hb, _⟩ := Memory.heap_of_refcount_pos (m := m) (x := x) (by
      have hrefs := h.refs x
      unfold Memory.queued at hrefs
      omega)
    have hlock : b.flags.lock = true ↔ x ∈ g.locked := h.locked hb
    have hlist : ∀ j y, (m.listeners y).count (.coroutine j) =
        (m.suspended.erase (k, x)).count (j, y) := fun j y => by
      have hwaiting := h.waiting j y
      rw [hcoh] at hwaiting
      by_cases hj : j = k
      · subst hj
        rw [if_pos rfl] at hwaiting
        have halone := count_of_alone h.alone hin y
        by_cases hyx : y = x
        · subst hyx
          rw [if_pos rfl] at halone
          rw [List.count_erase_self]
          omega
        · rw [if_neg hyx] at halone
          rw [List.count_erase_of_ne (by simp [hyx])]
          omega
      · rw [if_neg fun e => hj (Option.some.inj e).symm] at hwaiting
        rw [List.count_erase_of_ne (by simp [hj])]
        exact hwaiting
    have hnew : Inv (g.hold x) { m.set x b with
        coh := none, suspended := m.suspended.erase (k, x) } := by
      refine h.relisten hb b none (m.suspended.erase (k, x)) (g.hold x).held rfl rfl rfl rfl hlock
        (fun hfree => h.tidy hb hfree) (fun _ => rfl) (fun y => ?_) (fun j => ?_) (fun j y _ => ?_)
        (fun e => by cases e) ?_
      · have := count_snd_erase hin y
        show g.held y + (if y = x then 1 else 0) + _ = _
        omega
      · rw [if_neg (by simp), Nat.add_zero, ← hlist j x, Memory.listeners_of hb]
      · rw [if_neg (by simp), Nat.add_zero, hlist j y]
      · exact h.alone.sublist ((List.erase_sublist).map Prod.fst)
    rw [Memory.set_eq_self hb] at hnew
    obtain ⟨m', hm', h', hstill⟩ := release_spec hnew fun y hy => by
      rw [hlocked] at hy
      cases hy
    refine ⟨m', ?_, h', (hstill.calm none).coh rfl⟩
    rw [resume, hw]
    exact hm'

/-! ## Operations -/

/-- The handles of the program and of the drivers' calls. -/
def State.held (st : State) (x : EventId) : Nat :=
  st.handles.count x + (st.firing.map Prod.snd).count x

def State.calls (st : State) (kind : EventId → Bool) : Calls where
  kind := kind
  held := st.held
  due _ _ := 0
  locked := []

/-- Between two operations no call is under way. -/
structure Sound (st : State) : Prop where
  inv : ∃ kind, Inv (st.calls kind) st.mem
  idle : st.mem.coh = none

variable {st : State} {d : DriverId}

theorem above_nil (hlocked : g.locked = []) : g.Above x := fun y hy => by
  rw [hlocked] at hy
  cases hy

theorem held_of_contains (h : st.handles.contains x = true) : 0 < st.held x := by
  have hin : x ∈ st.handles := List.contains_iff_mem.1 h
  have hcount : 0 < st.handles.count x := List.count_pos_iff.2 hin
  unfold State.held
  omega

theorem count_erase_add {xs : List EventId} (hin : x ∈ xs) (y : EventId) :
    (xs.erase x).count y + (if y = x then 1 else 0) = xs.count y := by
  rw [(List.perm_cons_erase hin).count_eq, List.count_cons]
  by_cases hy : y = x
  · simp [hy]
  · simp [hy, Ne.symm hy]

/-- A handle that the program gives away. -/
theorem Sound.give {kind : EventId → Bool} (h : Inv (st.calls kind) st.mem)
    (hin : x ∈ st.handles) :
    Inv (({ st with handles := st.handles.erase x } : State).calls kind |>.hold x) st.mem := by
  refine h.held_congr fun y => ?_
  have hcount := count_erase_add hin y
  show (st.handles.erase x).count y + (st.firing.map Prod.snd).count y + _ =
    st.handles.count y + (st.firing.map Prod.snd).count y
  omega

theorem Sound.event (h : Sound st) :
    ∃ st', perform home d st .event = some st' ∧ Sound st' := by
  obtain ⟨kind, hinv⟩ := h.inv
  refine ⟨_, rfl, ⟨Function.update kind st.mem.size false, ?_⟩, h.idle⟩
  have hnew := hinv.alloc {} [] rfl rfl rfl rfl (fun _ _ => Iff.rfl)
    ⟨(fun e => by cases e), (fun e => by cases e)⟩ fun _ =>
      ⟨rfl, (fun e => by cases e), (fun _ y hy => by cases hy), (fun e => by cases e),
        (fun e => by cases e)⟩
  refine hnew.held_congr fun y => ?_
  show (st.mem.size :: st.handles).count y + _ = st.handles.count y + _ + if _ then 1 else 0
  rw [List.count_cons]
  by_cases hy : y = st.mem.size
  · simp [hy]
    omega
  · simp [hy, Ne.symm hy]

theorem Sound.quorum (h : Sound st) {quorum : Nat} {es : List Member}
    (hen : Enabled d st (.quorum quorum es) = true) :
    ∃ st', perform home d st (.quorum quorum es) = some st' ∧ Sound st' := by
  obtain ⟨kind, hinv⟩ := h.inv
  have hcounts : ∀ y, (es.filterMap Member.event?).count y ≤ st.handles.count y := fun y => by
    by_cases hy : y ∈ es.filterMap Member.event?
    · exact of_decide_eq_true (List.all_eq_true.1 hen y hy)
    · rw [List.count_eq_zero.2 hy]
      exact Nat.zero_le _
  generalize hst :
    ({ st with handles := st.handles.diff (es.filterMap Member.event?) } : State) = st₁
  have hmoved : Inv ((st₁.calls kind).holdAll (es.filterMap Member.event?)) st.mem := by
    rw [← hst]
    refine hinv.held_congr fun y => ?_
    show (st.handles.diff (es.filterMap Member.event?)).count y +
      (st.firing.map Prod.snd).count y + _ = st.handles.count y + (st.firing.map Prod.snd).count y
    have := hcounts y
    rw [List.count_diff]
    omega
  obtain ⟨m', hm', hnew, hcoh⟩ := makeQuorum_spec home d es quorum hmoved rfl
  refine ⟨{ st with mem := m', handles := st.mem.size :: st₁.handles }, ?_,
    ⟨Function.update kind st.mem.size true, ?_⟩, hcoh.trans h.idle⟩
  · rw [← hst]
    simp only [perform, hm', Option.bind_eq_bind, Option.bind_some]
  refine hnew.held_congr fun y => ?_
  rw [← hst]
  show (st.mem.size :: st.handles.diff (es.filterMap Member.event?)).count y + _ =
    (st.handles.diff (es.filterMap Member.event?)).count y + _ + if _ then 1 else 0
  rw [List.count_cons]
  by_cases hy : y = st.mem.size
  · simp [hy]
    omega
  · simp [hy, Ne.symm hy]

theorem Sound.copy (h : Sound st) (hen : Enabled d st (.copy x) = true) :
    ∃ st', perform home d st (.copy x) = some st' ∧ Sound st' := by
  obtain ⟨kind, hinv⟩ := h.inv
  obtain ⟨b, hb, hr⟩ := hinv.live_of_held (held_of_contains hen)
  refine ⟨{ st with
      mem := st.mem.set x { b with refcount := b.refcount + 1 }, handles := x :: st.handles },
    by simp only [perform, ref_eq hb, Option.bind_eq_bind, Option.bind_some], ⟨kind, ?_⟩, h.idle⟩
  refine (hinv.count hb hr 1).held_congr fun y => ?_
  show (x :: st.handles).count y + _ = st.handles.count y + _ + if _ then 1 else 0
  rw [List.count_cons]
  by_cases hy : y = x
  · simp [hy]
    omega
  · simp [hy, Ne.symm hy]

theorem Sound.drop (h : Sound st) (hen : Enabled d st (.drop x) = true) :
    ∃ st', perform home d st (.drop x) = some st' ∧ Sound st' := by
  obtain ⟨kind, hinv⟩ := h.inv
  have hgive := Sound.give hinv (List.contains_iff_mem.1 hen)
  obtain ⟨m', hm', h', hstill⟩ := release_spec hgive (above_nil rfl)
  refine ⟨{ st with mem := m', handles := st.handles.erase x },
    by simp only [perform, hm', Option.bind_eq_bind, Option.bind_some], ⟨kind, h'⟩, ?_⟩
  exact ((hstill.calm none).coh rfl).trans h.idle

theorem Sound.trigger (h : Sound st) (hen : Enabled d st (.trigger x) = true) :
    ∃ st', perform home d st (.trigger x) = some st' ∧ Sound st' := by
  obtain ⟨kind, hinv⟩ := h.inv
  obtain ⟨r, m', hm', h', hcalm⟩ := trigger_spec home d hinv rfl (held_of_contains hen)
  refine ⟨{ st with mem := m' },
    by simp only [perform, hm', Option.bind_eq_bind, Option.bind_some], ⟨kind, h'⟩, ?_⟩
  exact (hcalm.coh rfl).trans h.idle

theorem Sound.await (h : Sound st) {ievent : EventId}
    (hen : Enabled d st (.await c x ievent) = true) :
    ∃ st', perform home d st (.await c x ievent) = some st' ∧ Sound st' := by
  obtain ⟨kind, hinv⟩ := h.inv
  simp only [Enabled, Bool.and_eq_true, List.contains_iff_mem, List.all_eq_true,
    decide_eq_true_eq] at hen
  obtain ⟨⟨⟨hx, hievent⟩, hplain⟩, hfresh⟩ := hen
  have hgive := Sound.give hinv hx
  have hheld : 0 < ({ st with handles := st.handles.erase x } : State).held ievent :=
    held_of_contains (List.contains_iff_mem.2 hievent)
  have hkind : kind ievent = false := by
    obtain ⟨b, hb, _⟩ := hgive.live_of_held (Nat.lt_of_lt_of_le hheld (Nat.le_add_right _ _))
    rw [hb] at hplain
    exact (hgive.kind hb).symm.trans (by simpa using hplain)
  obtain ⟨m', hm', h', hcoh⟩ := await_spec home d hgive rfl h.idle hkind hheld fun hc => by
    obtain ⟨w, hw, he⟩ := List.mem_map.1 hc
    exact hfresh w hw he
  exact ⟨{ st with mem := m', handles := st.handles.erase x },
    by simp only [perform, hm', Option.bind_eq_bind, Option.bind_some], ⟨kind, h'⟩, hcoh⟩

theorem Sound.destroy (h : Sound st) (hen : Enabled d st (.destroy c x) = true) :
    ∃ st', perform home d st (.destroy c x) = some st' ∧ Sound st' := by
  obtain ⟨kind, hinv⟩ := h.inv
  obtain ⟨m', hm', h', hcoh⟩ := destroy_spec hinv rfl h.idle (List.contains_iff_mem.1 hen)
  exact ⟨{ st with mem := m' },
    by simp only [perform, hm', Option.bind_eq_bind, Option.bind_some], ⟨kind, h'⟩, hcoh⟩

/-- A handle moves between the program, the lists of the drivers and the calls of these. -/
theorem Sound.move (h : Sound st) {st' : State} (asap migrate : List (DriverId × EventId))
    (hmem : st'.mem = { st.mem with asap, migrate })
    (hheld : ∀ y, st'.held y + (asap.map Prod.snd).count y + (migrate.map Prod.snd).count y =
      st.held y + (st.mem.asap.map Prod.snd).count y + (st.mem.migrate.map Prod.snd).count y) :
    Sound st' := by
  obtain ⟨kind, hinv⟩ := h.inv
  refine ⟨⟨kind, ?_⟩, by rw [hmem]; exact h.idle⟩
  rw [hmem]
  exact hinv.requeue st'.held asap migrate hheld

theorem Sound.call (h : Sound st) (hen : Enabled d st (.call x) = true) :
    ∃ st', perform home d st (.call x) = some st' ∧ Sound st' := by
  obtain ⟨kind, hinv⟩ := h.inv
  have hin : (d, x) ∈ st.firing := List.contains_iff_mem.1 hen
  have hheld : 0 < st.held x := by
    have hcount : 0 < (st.firing.map Prod.snd).count x :=
      List.count_pos_iff.2 (List.mem_map.2 ⟨_, hin, rfl⟩)
    unfold State.held
    omega
  obtain ⟨m₁, hm₁, h₁⟩ := driverTrigger_spec home d d hinv rfl h.idle hheld
  cases hcoh : m₁.coh with
  | some c =>
    obtain ⟨m', hm', h', hidle⟩ := resume_spec h₁ rfl hcoh
    refine ⟨{ st with mem := m' }, ?_, ⟨kind, h'⟩, hidle⟩
    simp only [perform, hm₁, hcoh, hm', Option.bind_eq_bind, Option.bind_some]
  | none =>
    have hgive : Inv (({ st with firing := st.firing.erase (d, x) } : State).calls kind |>.hold x)
        m₁ := by
      refine h₁.held_congr fun y => ?_
      have hcount := count_snd_erase hin y
      show st.handles.count y + ((st.firing.erase (d, x)).map Prod.snd).count y + _ =
        st.handles.count y + (st.firing.map Prod.snd).count y
      omega
    obtain ⟨m', hm', h', hstill⟩ := release_spec hgive (above_nil rfl)
    refine ⟨{ st with mem := m', firing := st.firing.erase (d, x) },
      by simp only [perform, hm₁, hcoh, hm', Option.bind_eq_bind, Option.bind_some], ⟨kind, h'⟩, ?_⟩
    exact ((hstill.calm none).coh rfl).trans hcoh

/-- A handle that a driver takes to fire it. -/
theorem count_snd_cons (d : DriverId) (x : EventId) (ws : List (DriverId × EventId))
    (y : EventId) : (((d, x) :: ws).map Prod.snd).count y =
      (ws.map Prod.snd).count y + if y = x then 1 else 0 := by
  rw [List.map_cons, List.count_cons]
  by_cases hy : y = x
  · simp [hy]
  · simp [hy, Ne.symm hy]

/-- Every operation succeeds that uses the handles as their types allow. -/
theorem perform_spec (h : Sound st) (a : Op) (hen : Enabled d st a = true) :
    ∃ st', perform home d st a = some st' ∧ Sound st' := by
  cases a with
  | event => exact h.event home
  | quorum quorum es => exact h.quorum home hen
  | copy x => exact h.copy home hen
  | drop x => exact h.drop home hen
  | trigger x => exact h.trigger home hen
  | await c x ievent => exact h.await home hen
  | destroy c x => exact h.destroy home hen
  | call x => exact h.call home hen
  | asap x =>
    refine ⟨_, rfl, h.move (st.mem.asap ++ [(d, x)]) st.mem.migrate rfl fun y => ?_⟩
    have hcount := count_erase_add (List.contains_iff_mem.1 hen) y
    have hcons := count_snd_cons d x [] y
    show (st.handles.erase x).count y + (st.firing.map Prod.snd).count y + _ + _ =
      st.handles.count y + (st.firing.map Prod.snd).count y + _ + _
    rw [List.map_append, List.count_append]
    simp only [List.map_nil, List.count_nil] at hcons
    omega
  | expire x =>
    refine ⟨_, rfl, h.move st.mem.asap st.mem.migrate rfl fun y => ?_⟩
    have hcount := count_erase_add (List.contains_iff_mem.1 hen) y
    have hcons := count_snd_cons d x st.firing y
    show (st.handles.erase x).count y + (((d, x) :: st.firing).map Prod.snd).count y + _ + _ =
      st.handles.count y + (st.firing.map Prod.snd).count y + _ + _
    omega
  | take x =>
    refine ⟨_, rfl, h.move (st.mem.asap.erase (d, x)) st.mem.migrate rfl fun y => ?_⟩
    have hcount := count_snd_erase (List.contains_iff_mem.1 hen) y
    have hcons := count_snd_cons d x st.firing y
    show st.handles.count y + (((d, x) :: st.firing).map Prod.snd).count y + _ + _ =
      st.handles.count y + (st.firing.map Prod.snd).count y + _ + _
    omega
  | receive x =>
    refine ⟨_, rfl, h.move st.mem.asap (st.mem.migrate.erase (d, x)) rfl fun y => ?_⟩
    have hcount := count_snd_erase (List.contains_iff_mem.1 hen) y
    have hcons := count_snd_cons d x st.firing y
    show st.handles.count y + (((d, x) :: st.firing).map Prod.snd).count y + _ + _ =
      st.handles.count y + (st.firing.map Prod.snd).count y + _ + _
    omega

/-! ## Programs -/

theorem Sound.start : Sound {} := by
  refine ⟨⟨fun _ => false, ?_⟩, rfl⟩
  exact {
    bound := fun hb => by cases hb
    kind := fun hb => by cases hb
    refs := fun _ => rfl
    below := fun hx => by cases hx
    linked := fun _ _ => rfl
    undue := fun _ _ => rfl
    informed := fun _ _ => rfl
    locked := fun hb => by cases hb
    tidy := fun hb _ => by cases hb
    waiting := fun _ _ => rfl
    claimed := fun hc => by cases hc
    alone := List.nodup_nil }

theorem sound_of_reachable (h : (program home).Reachable st) : Sound st := by
  refine h.invariant (fun st hst => ?_) fun st a st' hs hstep => ?_
  · have he : st = {} := hst
    rw [he]
    exact Sound.start
  · have hstep : (if Enabled a.1 st a.2 then perform home a.1 st a.2 else none) = some st' := hstep
    by_cases hen : Enabled a.1 st a.2 = true
    · rw [if_pos hen] at hstep
      obtain ⟨t, ht, hsound⟩ := perform_spec home hs a.2 hen
      rw [ht] at hstep
      exact Option.some.inj hstep ▸ hsound
    · rw [if_neg hen] at hstep
      cases hstep

/-- In every state of a program, whichever drivers' operations led there, each operation
succeeds that uses handles the program holds: it touches no body that is gone, deletes none
twice, waits for no lock of its own thread and runs into no assertion. -/
theorem event_operation_safe (h : (program home).Reachable st) (a : Op)
    (hen : Enabled d st a = true) : (perform home d st a).isSome = true := by
  obtain ⟨st', hst', _⟩ := perform_spec home (sound_of_reachable home h) a hen
  rw [hst']
  rfl

/-- A coroutine awaits `any` of two events, and another driver triggers the first. -/
def anyRun : List (DriverId × Op) :=
  [(0, .event), (0, .event), (0, .copy 0), (0, .quorum 1 [.event 0, .event 1]), (0, .event),
    (0, .copy 2), (0, .await 7 2 3), (1, .trigger 0), (0, .receive 2)]

theorem anyRun_isSome : ((program fun _ => 0).exec {} anyRun).isSome = true := by decide +kernel

/-- The state `anyRun` ends in. -/
def anyState : State := ((program fun _ => 0).exec {} anyRun).get anyRun_isSome

/-- The driver of the coroutine resumes it. -/
theorem event_operation_safe_anyState :
    (perform (fun _ => 0) 0 anyState (.call 2)).isSome = true :=
  event_operation_safe (fun _ => 0) (.of_get rfl anyRun_isSome) (.call 2) (by decide +kernel)

/-- A handle that is not in a body. -/
def State.Root (st : State) (x : EventId) : Prop :=
  x ∈ st.handles ∨ x ∈ st.firing.map Prod.snd ∨ x ∈ st.mem.asap.map Prod.snd ∨
    x ∈ st.mem.migrate.map Prod.snd ∨ x ∈ st.mem.suspended.map Prod.snd

theorem State.root_iff : st.Root x ↔ 0 < st.held x + st.mem.queued x := by
  unfold State.Root State.held Memory.queued
  simp only [← List.count_pos_iff]
  omega

/-- No triggered event has a quorum as a listener, or a quorum a triggered event as a member. -/
theorem Sound.member_untriggered (h : Sound st) (hx : x ∈ st.mem.members q) :
    st.mem.triggered x = false := by
  obtain ⟨kind, hinv⟩ := h.inv
  cases ht : st.mem.triggered x with
  | false => rfl
  | true =>
    have hlinked : (st.mem.listeners x).count (.quorum q) + 0 = (st.mem.members q).count x :=
      hinv.linked x q
    have hcount : 0 < (st.mem.members q).count x := List.count_pos_iff.2 hx
    have hinformed := hinv.informed q ht
    omega

theorem Sound.tidy (h : Sound st) (hb : st.mem.heap x = some b) : Tidy st.mem b := by
  obtain ⟨kind, hinv⟩ := h.inv
  exact hinv.tidy hb List.not_mem_nil

theorem Sound.settled (h : Sound st) (hb : st.mem.heap q = some b)
    (hend : b.flags.triggered = true ∨ b.refcount = 0) : b.members = [] := by
  refine List.eq_nil_iff_forall_not_mem.2 fun y hy => ?_
  have ht := (h.tidy hb).fired hend y hy
  rw [h.member_untriggered (q := q) (by rwa [Memory.members_of hb])] at ht
  cases ht

theorem Sound.used (h : Sound st) (hb : st.mem.heap x = some b) : 0 < b.refcount := by
  rcases Nat.eq_zero_or_pos b.refcount with hz | hpos
  · exact absurd (h.settled hb (.inr hz)) ((h.tidy hb).used hz)
  · exact hpos

theorem Sound.rooted (h : Sound st) (hb : st.mem.heap x = some b) :
    ∃ r, st.Root r ∧ Relation.ReflTransGen (fun q y => y ∈ st.mem.members q) r x := by
  obtain ⟨kind, hinv⟩ := h.inv
  -- quorums are younger than their members that are quorums, so the climb ends
  generalize hn : (if kind x then st.mem.size - x else st.mem.size + 1) = n
  induction n using Nat.strongRecOn generalizing x b with
  | _ n ih =>
    by_cases hroot : st.Root x
    · exact ⟨x, hroot, .refl⟩
    · have hrefs : st.mem.refcount x =
          st.held x + st.mem.queued x + indegree st.mem.members x st.mem.size := hinv.refs x
      have hused := h.used hb
      rw [State.root_iff] at hroot
      rw [Memory.refcount_of hb] at hrefs
      have hpos : 0 < indegree st.mem.members x st.mem.size := by omega
      obtain ⟨q, hq, hmem⟩ := exists_mem_of_indegree_pos hpos
      obtain ⟨hkind, hbelow⟩ := hinv.below hmem
      cases hc : st.mem.heap q with
      | none =>
        rw [Memory.members_none hc] at hmem
        cases hmem
      | some c =>
        have hlt : st.mem.size - q < n := by
          rw [← hn]
          cases hx : kind x with
          | true =>
            have hxq : Nat.succ x ≤ q := hbelow hx
            rw [if_pos rfl]
            omega
          | false =>
            rw [if_neg Bool.false_ne_true]
            omega
        have hkind : kind q = true := hkind
        obtain ⟨r, hr, hpath⟩ := ih _ hlt hc (by rw [if_pos hkind])
        exact ⟨r, hr, hpath.tail hmem⟩

theorem Sound.live_of_root (h : Sound st) {r : EventId} (hr : st.Root r)
    (hpath : Relation.ReflTransGen (fun q y => y ∈ st.mem.members q) r x) :
    ∃ b, st.mem.heap x = some b := by
  obtain ⟨kind, hinv⟩ := h.inv
  induction hpath with
  | refl =>
    have hrefs : st.mem.refcount r =
      st.held r + st.mem.queued r + indegree st.mem.members r st.mem.size := hinv.refs r
    obtain ⟨b, hb, _⟩ := Memory.heap_of_refcount_pos (m := st.mem) (x := r) (by
      have := State.root_iff.1 hr
      omega)
    exact ⟨b, hb⟩
  | tail _ hmem _ =>
    obtain ⟨b, hb, _⟩ := hinv.live_of_member hmem
    exact ⟨b, hb⟩

/-- No leaks and no dangling handles: after every operation, the bodies that are there are
those to which handles lead, held outside of bodies or by quorums that are there for the same
reason. -/
theorem event_memory_exact (h : (program home).Reachable st) (x : EventId) :
    (st.mem.heap x).isSome = true ↔
      ∃ r, st.Root r ∧ Relation.ReflTransGen (fun q y => y ∈ st.mem.members q) r x := by
  have hsound := sound_of_reachable home h
  constructor
  · intro hx
    obtain ⟨b, hb⟩ := Option.isSome_iff_exists.1 hx
    exact hsound.rooted hb
  · rintro ⟨r, hr, hpath⟩
    obtain ⟨b, hb⟩ := hsound.live_of_root hr hpath
    rw [hb]
    rfl

/-- The quorum has let go of its second member, which is gone. -/
theorem event_memory_exact_anyState : (anyState.mem.heap 1).isSome = false ∧
    ¬ ∃ r, anyState.Root r ∧ Relation.ReflTransGen (fun q y => y ∈ anyState.mem.members q) r 1 := by
  have hgone : (anyState.mem.heap 1).isSome = false := by decide +kernel
  have hreachable : (program fun _ => 0).Reachable anyState := .of_get rfl anyRun_isSome
  have hexact := event_memory_exact (fun _ => 0) hreachable 1
  rw [hgone] at hexact
  exact ⟨hgone, fun h => Bool.false_ne_true (hexact.2 h)⟩

/-- What the lists and flags of a body say between two operations. -/
structure Settled (st : State) (x : EventId) (b : Body) : Prop where
  unlocked : b.flags.lock = false
  refcount : b.refcount = st.held x + st.mem.queued x + indegree st.mem.members x st.mem.size
  empty : b.flags.empty = b.listeners.isEmpty
  emptyMembers : b.flags.quorum = true → b.flags.emptyMembers = b.members.isEmpty
  /-- A quorum is listed as often as it has the event as a member, -/
  quorums : ∀ q, b.listeners.count (.quorum q) = (st.mem.members q).count x
  /-- and a coroutine if its awaiter refers to the event. -/
  coroutines : ∀ c, b.listeners.count (.coroutine c) = st.mem.suspended.count (c, x)
  triggered : b.flags.triggered = true → b.members = [] ∧ ∀ q, x ∉ st.mem.members q

theorem event_lists_agree (h : (program home).Reachable st) (hb : st.mem.heap x = some b) :
    Settled st x b := by
  have hsound := sound_of_reachable home h
  have htidy := hsound.tidy hb
  obtain ⟨kind, hinv⟩ := hsound.inv
  exact {
    unlocked := hinv.unlocked hb List.not_mem_nil
    refcount := (Memory.refcount_of hb).symm.trans (hinv.refs x)
    empty := htidy.empty
    emptyMembers := htidy.emptyMembers
    quorums := fun q => by
      have hlinked := hinv.linked x q
      rw [Memory.listeners_of hb] at hlinked
      exact hlinked
    coroutines := fun c => by
      have hwaiting := hinv.waiting c x
      rw [hsound.idle, if_neg (by simp), Memory.listeners_of hb] at hwaiting
      exact hwaiting
    triggered := fun ht => by
      refine ⟨hsound.settled hb (.inl ht), fun q hq => ?_⟩
      have hfalse := hsound.member_untriggered hq
      rw [Memory.triggered_of hb, ht] at hfalse
      cases hfalse }

theorem event_lists_agree_anyState : ∃ b, anyState.mem.heap 2 = some b ∧
    b.flags.triggered = true ∧ b.listeners = [.coroutine 7] ∧ Settled anyState 2 b :=
  ⟨(anyState.mem.heap 2).get (by decide +kernel), (Option.some_get _).symm, by decide +kernel,
    by decide +kernel,
    event_lists_agree (fun _ => 0) (.of_get rfl anyRun_isSome) (Option.some_get _).symm⟩

end EventMemory
end Cotamer
end Psets
