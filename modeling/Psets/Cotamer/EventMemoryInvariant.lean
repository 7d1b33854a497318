/-
What holds of the memory of events between two of its steps.

`Calls` says what the calls under way hold: handles, locks, and the notifications that a
triggering member still owes to quorums.  The invariant counts with these: every reference
count is the number of handles there are, and every quorum is listed by a member as often as
the member is among its members, or is owed a notification instead.
-/
import Mathlib.Data.List.Nodup
import Psets.Containers.Indegree
import Psets.Cotamer.Cascade
import Psets.Cotamer.EventMemory

namespace Psets
namespace Cotamer
namespace EventMemory

open Containers
open Event (EventId CoroId DriverId Listener Scan scanListeners)

variable {m m' : Memory} {x y q : EventId} {b b' : Body}

namespace Memory

/-! ## Fields of bodies -/

def members (m : Memory) (q : EventId) : List EventId :=
  match m.heap q with
  | some b => b.members
  | none => []

def listeners (m : Memory) (x : EventId) : List Listener :=
  match m.heap x with
  | some b => b.listeners
  | none => []

def refcount (m : Memory) (x : EventId) : Nat :=
  match m.heap x with
  | some b => b.refcount
  | none => 0

def triggered (m : Memory) (x : EventId) : Bool :=
  match m.heap x with
  | some b => b.flags.triggered
  | none => false

theorem members_of (h : m.heap x = some b) : m.members x = b.members := by
  unfold members
  rw [h]

theorem listeners_of (h : m.heap x = some b) : m.listeners x = b.listeners := by
  unfold listeners
  rw [h]

theorem refcount_of (h : m.heap x = some b) : m.refcount x = b.refcount := by
  unfold refcount
  rw [h]

theorem triggered_of (h : m.heap x = some b) : m.triggered x = b.flags.triggered := by
  unfold triggered
  rw [h]

theorem refcount_none (h : m.heap x = none) : m.refcount x = 0 := by
  unfold refcount
  rw [h]

theorem members_none (h : m.heap x = none) : m.members x = [] := by
  unfold members
  rw [h]

theorem listeners_none (h : m.heap x = none) : m.listeners x = [] := by
  unfold listeners
  rw [h]

theorem triggered_none (h : m.heap x = none) : m.triggered x = false := by
  unfold triggered
  rw [h]

theorem heap_of_refcount_pos (h : 0 < m.refcount x) :
    ∃ b, m.heap x = some b ∧ 0 < b.refcount := by
  cases hb : m.heap x with
  | none =>
    rw [refcount_none hb] at h
    exact absurd h (Nat.lt_irrefl 0)
  | some b => exact ⟨b, rfl, by rwa [refcount_of hb] at h⟩

/-! ## Writing and freeing -/

@[simp] theorem heap_set_self : (m.set x b).heap x = some b := Function.update_self ..

theorem heap_set_of_ne (h : y ≠ x) : (m.set x b).heap y = m.heap y := Function.update_of_ne h ..

@[simp] theorem heap_free_self : (m.free x).heap x = none := Function.update_self ..

theorem heap_free_of_ne (h : y ≠ x) : (m.free x).heap y = m.heap y := Function.update_of_ne h ..

theorem set_eq_self (h : m.heap x = some b) : m.set x b = m := by
  unfold set
  rw [← h, Function.update_eq_self]

@[simp] theorem free_set : (m.set x b).free x = m.free x := by
  unfold set free
  simp

@[simp] theorem set_set : (m.set x b).set x b' = m.set x b' := by
  unfold set
  simp

theorem members_set : (m.set x b).members = Function.update m.members x b.members := by
  funext y
  by_cases h : y = x
  · subst h
    rw [Function.update_self, members_of heap_set_self]
  · rw [Function.update_of_ne h]
    unfold members
    rw [heap_set_of_ne h]

theorem listeners_set : (m.set x b).listeners = Function.update m.listeners x b.listeners := by
  funext y
  by_cases h : y = x
  · subst h
    rw [Function.update_self, listeners_of heap_set_self]
  · rw [Function.update_of_ne h]
    unfold listeners
    rw [heap_set_of_ne h]

theorem refcount_set : (m.set x b).refcount = Function.update m.refcount x b.refcount := by
  funext y
  by_cases h : y = x
  · subst h
    rw [Function.update_self, refcount_of heap_set_self]
  · rw [Function.update_of_ne h]
    unfold refcount
    rw [heap_set_of_ne h]

theorem triggered_set :
    (m.set x b).triggered = Function.update m.triggered x b.flags.triggered := by
  funext y
  by_cases h : y = x
  · subst h
    rw [Function.update_self, triggered_of heap_set_self]
  · rw [Function.update_of_ne h]
    unfold triggered
    rw [heap_set_of_ne h]

/-- A body that is there after a write was written, or was there before. -/
theorem heap_set_cases {c : Body} (h : (m.set x b).heap y = some c) :
    (y = x ∧ c = b) ∨ (y ≠ x ∧ m.heap y = some c) := by
  by_cases hyx : y = x
  · subst hyx
    rw [heap_set_self] at h
    exact .inl ⟨rfl, (Option.some.inj h).symm⟩
  · rw [heap_set_of_ne hyx] at h
    exact .inr ⟨hyx, h⟩

theorem heap_set_set_cases {c d : Body} (h : ((m.set x b).set q c).heap y = some d) :
    (y = q ∧ d = c) ∨ (y = x ∧ d = b) ∨ (y ≠ q ∧ y ≠ x ∧ m.heap y = some d) := by
  rcases heap_set_cases h with hq | ⟨hyq, h⟩
  · exact .inl hq
  · rcases heap_set_cases h with hx | ⟨hyx, h⟩
    · exact .inr (.inl hx)
    · exact .inr (.inr ⟨hyq, hyx, h⟩)

theorem members_set_of (hb : m.heap x = some b) (h : b'.members = b.members) :
    (m.set x b').members = m.members := by
  rw [members_set, h, ← members_of hb, Function.update_eq_self]

theorem listeners_set_of (hb : m.heap x = some b) (h : b'.listeners = b.listeners) :
    (m.set x b').listeners = m.listeners := by
  rw [listeners_set, h, ← listeners_of hb, Function.update_eq_self]

theorem refcount_set_of (hb : m.heap x = some b) (h : b'.refcount = b.refcount) :
    (m.set x b').refcount = m.refcount := by
  rw [refcount_set, h, ← refcount_of hb, Function.update_eq_self]

theorem triggered_set_of (hb : m.heap x = some b)
    (h : b'.flags.triggered = b.flags.triggered) : (m.set x b').triggered = m.triggered := by
  rw [triggered_set, h, ← triggered_of hb, Function.update_eq_self]

/-- The handles in the lists of drivers and in awaiters. -/
def queued (m : Memory) (x : EventId) : Nat :=
  (m.asap.map Prod.snd).count x + (m.migrate.map Prod.snd).count x +
    (m.suspended.map Prod.snd).count x

end Memory

/-! ## The invariant -/

/-- What the calls under way hold, and which events are quorums. -/
structure Calls where
  kind : EventId → Bool
  /-- handles outside of memory -/
  held : EventId → Nat
  /-- how often an event that is triggering has yet to inform a quorum -/
  due : EventId → EventId → Nat
  locked : List EventId

/-- What holds of a body whose lock is free. -/
structure Tidy (m : Memory) (b : Body) : Prop where
  empty : b.flags.empty = b.listeners.isEmpty
  emptyMembers : b.flags.quorum = true → b.flags.emptyMembers = b.members.isEmpty
  fired : b.flags.triggered = true ∨ b.refcount = 0 → ∀ y ∈ b.members, m.triggered y = true
  used : b.refcount = 0 → b.members ≠ []
  wants : b.flags.wantInterest = true → b.flags.quorum = true

structure Inv (g : Calls) (m : Memory) : Prop where
  bound : ∀ {x b}, m.heap x = some b → x < m.size
  kind : ∀ {x b}, m.heap x = some b → b.flags.quorum = g.kind x
  refs : ∀ x, m.refcount x = g.held x + m.queued x + indegree m.members x m.size
  /-- members are older than their quorum, or plain events -/
  below : ∀ {q x}, x ∈ m.members q → g.kind q = true ∧ (g.kind x = true → x < q)
  linked : ∀ x q, (m.listeners x).count (.quorum q) + g.due x q = (m.members q).count x
  undue : ∀ {x} q, m.triggered x = false → g.due x q = 0
  informed : ∀ {x} q, m.triggered x = true → (m.listeners x).count (.quorum q) = 0
  locked : ∀ {x b}, m.heap x = some b → (b.flags.lock = true ↔ x ∈ g.locked)
  tidy : ∀ {x b}, m.heap x = some b → x ∉ g.locked → Tidy m b
  /-- a coroutine is a listener of the event it awaits until it is claimed -/
  waiting : ∀ c x, (m.listeners x).count (.coroutine c) +
    (if m.coh = some c then m.suspended.count (c, x) else 0) = m.suspended.count (c, x)
  claimed : ∀ {c}, m.coh = some c → ∃ x, (c, x) ∈ m.suspended
  alone : (m.suspended.map Prod.fst).Nodup

variable {g : Calls}

/-- One more handle to `x`. -/
def Calls.hold (g : Calls) (x : EventId) : Calls :=
  { g with held := fun y => g.held y + if y = x then 1 else 0 }

/-- The locks that are held are those of quorums, and of none that `x` might lead to. -/
def Calls.Above (g : Calls) (x : EventId) : Prop :=
  ∀ y ∈ g.locked, g.kind y = true ∧ (g.kind x = true → x < y)

theorem Tidy.mono (h : Tidy m b) (hm : ∀ y ∈ b.members, m.triggered y = true →
    m'.triggered y = true) : Tidy m' b where
  empty := h.empty
  emptyMembers := h.emptyMembers
  fired hb y hy := hm y hy (h.fired hb y hy)
  used := h.used
  wants := h.wants

/-- A coroutine awaits one event. -/
theorem count_of_alone {ws : List (CoroId × EventId)} (h : (ws.map Prod.fst).Nodup) {c : CoroId}
    (hx : (c, x) ∈ ws) (y : EventId) : ws.count (c, y) = if y = x then 1 else 0 := by
  have hnodup : ws.Nodup := List.Nodup.of_map Prod.fst h
  by_cases hy : y = x
  · rw [if_pos hy, hy]
    exact List.count_eq_one_of_mem hnodup hx
  · rw [if_neg hy]
    refine List.count_eq_zero.2 fun hc => hy ?_
    have he : (c, y) = (c, x) := List.inj_on_of_nodup_map h hc hx rfl
    exact (Prod.mk.inj he).2

namespace Inv

variable {x : EventId}

theorem held_congr (h : Inv g m) {held : EventId → Nat} (hheld : ∀ x, held x = g.held x) :
    Inv { g with held } m := by
  have he : held = g.held := funext hheld
  subst he
  exact h

theorem members_nil_of_plain (h : Inv g m) (hb : m.heap x = some b)
    (hx : g.kind x = false) : b.members = [] := by
  rw [← Memory.members_of hb]
  refine List.eq_nil_iff_forall_not_mem.2 fun y hy => ?_
  rw [(h.below hy).1] at hx
  cases hx

theorem live_of_held (h : Inv g m) (hx : 0 < g.held x) :
    ∃ b, m.heap x = some b ∧ 0 < b.refcount := by
  have hrefs := h.refs x
  exact Memory.heap_of_refcount_pos (by omega)

theorem lt_of_members (h : Inv g m) (hx : x ∈ m.members q) : q < m.size := by
  cases hb : m.heap q with
  | none =>
    rw [Memory.members_none hb] at hx
    cases hx
  | some b => exact h.bound hb

theorem live_of_member (h : Inv g m) (hx : x ∈ m.members q) :
    ∃ b, m.heap x = some b ∧ 0 < b.refcount := by
  have hrefs := h.refs x
  have hle : (m.members q).count x ≤ indegree m.members x m.size :=
    count_le_indegree (h.lt_of_members hx)
  have hcount : 0 < (m.members q).count x := List.count_pos_iff.2 hx
  exact Memory.heap_of_refcount_pos (by omega)

/-- A body whose lists, kind and trigger stay as they are. -/
theorem edit (h : Inv g m) (hb : m.heap x = some b) (b' : Body) (held : EventId → Nat)
    (locked : List EventId) (hmembers : b'.members = b.members)
    (hlisteners : b'.listeners = b.listeners)
    (htriggered : b'.flags.triggered = b.flags.triggered)
    (hquorum : b'.flags.quorum = b.flags.quorum) (hheld : ∀ y, y ≠ x → held y = g.held y)
    (hrefs : b'.refcount + g.held x = b.refcount + held x)
    (hlocked : ∀ y, y ≠ x → (y ∈ locked ↔ y ∈ g.locked))
    (hlock : b'.flags.lock = true ↔ x ∈ locked) (htidy : x ∉ locked → Tidy m b') :
    Inv { g with held, locked } (m.set x b') := by
  have hmem := Memory.members_set_of hb hmembers
  have hlis := Memory.listeners_set_of hb hlisteners
  have htri := Memory.triggered_set_of hb htriggered
  have hcases : ∀ {y c}, (m.set x b').heap y = some c →
      (y = x ∧ c = b') ∨ (y ≠ x ∧ m.heap y = some c) := Memory.heap_set_cases
  have hmono : ∀ {c : Body}, Tidy m c → Tidy (m.set x b') c := fun ht =>
    ht.mono fun y _ hy => by rw [htri]; exact hy
  exact {
    bound := fun {y c} hy => by
      rcases hcases hy with ⟨rfl, rfl⟩ | ⟨_, hy⟩
      · exact h.bound hb
      · exact h.bound hy
    kind := fun {y c} hy => by
      rcases hcases hy with ⟨rfl, rfl⟩ | ⟨_, hy⟩
      · rw [hquorum]
        exact h.kind hb
      · exact h.kind hy
    refs := fun y => by
      show (m.set x b').refcount y = held y + m.queued y + indegree (m.set x b').members y m.size
      rw [hmem, Memory.refcount_set]
      have hy := h.refs y
      by_cases hyx : y = x
      · subst hyx
        rw [Memory.refcount_of hb] at hy
        rw [Function.update_self]
        omega
      · rw [Function.update_of_ne hyx, hheld y hyx]
        exact hy
    below := fun hx => h.below (by rwa [hmem] at hx)
    linked := fun y q => by rw [hmem, hlis]; exact h.linked y q
    undue := fun q hy => h.undue q (by rwa [htri] at hy)
    informed := fun q hy => by rw [hlis]; exact h.informed q (by rwa [htri] at hy)
    locked := fun {y c} hy => by
      rcases hcases hy with ⟨rfl, rfl⟩ | ⟨hyx, hy⟩
      · exact hlock
      · exact (h.locked hy).trans (hlocked y hyx).symm
    tidy := fun {y c} hy hfree => by
      rcases hcases hy with ⟨rfl, rfl⟩ | ⟨hyx, hy⟩
      · exact hmono (htidy hfree)
      · exact hmono (h.tidy hy fun hl => hfree ((hlocked y hyx).2 hl))
    waiting := fun c y => by rw [hlis]; exact h.waiting c y
    claimed := h.claimed
    alone := h.alone }

end Inv

/-- A change of one edge: of how often `q` has `x` as a member, and `x` lists `q`.  The body
`b` of `x` becomes `b'`, and `c` of `q` becomes `c'`; both calls and bodies account for it. -/
structure Relink (g : Calls) (m : Memory) (x q : EventId) (b c b' c' : Body)
    (held : EventId → Nat) (due : EventId → EventId → Nat) : Prop where
  ne : x ≠ q
  heap : m.heap x = some b
  quorum : m.heap q = some c
  locked : q ∈ g.locked
  members : b'.members = b.members
  refs : b'.refcount = b.refcount
  triggered : b'.flags.triggered = b.flags.triggered
  kind : b'.flags.quorum = b.flags.quorum
  lock : b'.flags.lock = true ↔ x ∈ g.locked
  tidy : x ∉ g.locked → Tidy m b'
  quorumListeners : c'.listeners = c.listeners
  quorumRefs : c'.refcount = c.refcount
  quorumFlags : c'.flags = c.flags
  listed : ∀ l, l ≠ .quorum q → b'.listeners.count l = b.listeners.count l
  counted : ∀ y, y ≠ x → c'.members.count y = c.members.count y
  heldOther : ∀ y, y ≠ x → held y = g.held y
  heldSelf : held x + c'.members.count x = g.held x + c.members.count x
  dueOther : ∀ y p, (y ≠ x ∨ p ≠ q) → due y p = g.due y p
  linked : b'.listeners.count (.quorum q) + due x q = c'.members.count x
  undue : b.flags.triggered = false → due x q = 0
  informed : b.flags.triggered = true → b'.listeners.count (.quorum q) = 0
  below : ∀ y ∈ c'.members, g.kind q = true ∧ (g.kind y = true → y < q)

namespace Relink

variable {c c' : Body} {held : EventId → Nat} {due : EventId → EventId → Nat}

theorem heap_quorum (r : Relink g m x q b c b' c' held due) : (m.set x b').heap q = some c := by
  rw [Memory.heap_set_of_ne fun e => r.ne e.symm]
  exact r.quorum

theorem members_eq (r : Relink g m x q b c b' c' held due) :
    ((m.set x b').set q c').members = Function.update m.members q c'.members := by
  rw [Memory.members_set, Memory.members_set_of r.heap r.members]

theorem listeners_eq (r : Relink g m x q b c b' c' held due) :
    ((m.set x b').set q c').listeners = Function.update m.listeners x b'.listeners := by
  rw [Memory.listeners_set_of r.heap_quorum r.quorumListeners, Memory.listeners_set]

theorem refcount_eq (r : Relink g m x q b c b' c' held due) :
    ((m.set x b').set q c').refcount = m.refcount := by
  rw [Memory.refcount_set_of r.heap_quorum r.quorumRefs, Memory.refcount_set_of r.heap r.refs]

theorem triggered_eq (r : Relink g m x q b c b' c' held due) :
    ((m.set x b').set q c').triggered = m.triggered := by
  rw [Memory.triggered_set_of r.heap_quorum (by rw [r.quorumFlags]),
    Memory.triggered_set_of r.heap r.triggered]

/-- The handles move between the calls and the members of `q`. -/
theorem refs_eq (r : Relink g m x q b c b' c' held due) (h : Inv g m) (y : EventId) :
    ((m.set x b').set q c').refcount y =
      held y + m.queued y + indegree ((m.set x b').set q c').members y m.size := by
  rw [r.refcount_eq, r.members_eq]
  have hrefs := h.refs y
  have hupdate : indegree (Function.update m.members q c'.members) y m.size +
      (m.members q).count y = indegree m.members y m.size + c'.members.count y :=
    indegree_update (h.bound r.quorum) c'.members
  rw [Memory.members_of r.quorum] at hupdate
  by_cases hyx : y = x
  · subst hyx
    have := r.heldSelf
    omega
  · have := r.counted y hyx
    have := r.heldOther y hyx
    omega

/-- The two sides of every edge, of which only that from `q` to `x` has changed. -/
theorem linked_eq (r : Relink g m x q b c b' c' held due) (h : Inv g m) (y p : EventId) :
    (((m.set x b').set q c').listeners y).count (.quorum p) + due y p =
      (((m.set x b').set q c').members p).count y := by
  have hyp := h.linked y p
  rw [r.members_eq, r.listeners_eq]
  by_cases hy : y = x
  · subst hy
    rw [Function.update_self]
    by_cases hp : p = q
    · subst hp
      rw [Function.update_self]
      exact r.linked
    · rw [Function.update_of_ne hp, r.dueOther y p (.inr hp),
        r.listed _ fun e => hp (Listener.quorum.inj e), ← Memory.listeners_of r.heap]
      exact hyp
  · rw [Function.update_of_ne hy, r.dueOther y p (.inl hy)]
    by_cases hp : p = q
    · subst hp
      rw [Function.update_self, r.counted y hy, ← Memory.members_of r.quorum]
      exact hyp
    · rw [Function.update_of_ne hp]
      exact hyp

theorem due_eq_zero (r : Relink g m x q b c b' c' held due) (h : Inv g m) {y : EventId}
    (p : EventId) (hy : m.triggered y = false) : due y p = 0 := by
  by_cases hyx : y = x
  · subst hyx
    by_cases hp : p = q
    · subst hp
      exact r.undue (by rwa [Memory.triggered_of r.heap] at hy)
    · rw [r.dueOther y p (.inr hp)]
      exact h.undue p hy
  · rw [r.dueOther y p (.inl hyx)]
    exact h.undue p hy

theorem count_quorum_eq_zero (r : Relink g m x q b c b' c' held due) (h : Inv g m) {y : EventId}
    (p : EventId) (hy : m.triggered y = true) :
    (((m.set x b').set q c').listeners y).count (.quorum p) = 0 := by
  rw [r.listeners_eq]
  by_cases hyx : y = x
  · subst hyx
    rw [Function.update_self]
    by_cases hp : p = q
    · subst hp
      exact r.informed (by rwa [Memory.triggered_of r.heap] at hy)
    · rw [r.listed _ fun e => hp (Listener.quorum.inj e), ← Memory.listeners_of r.heap]
      exact h.informed p hy
  · rw [Function.update_of_ne hyx]
    exact h.informed p hy

theorem count_coroutine (r : Relink g m x q b c b' c' held due) (k : CoroId) (y : EventId) :
    (((m.set x b').set q c').listeners y).count (.coroutine k) =
      (m.listeners y).count (.coroutine k) := by
  rw [r.listeners_eq]
  by_cases hyx : y = x
  · subst hyx
    rw [Function.update_self, r.listed _ (fun e => by cases e), ← Memory.listeners_of r.heap]
  · rw [Function.update_of_ne hyx]

theorem tidy_mono (r : Relink g m x q b c b' c' held due) {d : Body} (ht : Tidy m d) :
    Tidy ((m.set x b').set q c') d :=
  ht.mono fun y _ hy => by rw [r.triggered_eq]; exact hy

end Relink

namespace Inv

variable {x : EventId}

theorem relink (h : Inv g m) {c : Body} (b' c' : Body) (held : EventId → Nat)
    (due : EventId → EventId → Nat) (r : Relink g m x q b c b' c' held due) :
    Inv { g with held, due } ((m.set x b').set q c') where
  bound {y d} hy := by
    rcases Memory.heap_set_set_cases hy with ⟨rfl, _⟩ | ⟨rfl, _⟩ | ⟨_, _, hy⟩
    · exact h.bound r.quorum
    · exact h.bound r.heap
    · exact h.bound hy
  kind {y d} hy := by
    rcases Memory.heap_set_set_cases hy with ⟨rfl, rfl⟩ | ⟨rfl, rfl⟩ | ⟨_, _, hy⟩
    · rw [r.quorumFlags]
      exact h.kind r.quorum
    · rw [r.kind]
      exact h.kind r.heap
    · exact h.kind hy
  refs := r.refs_eq h
  below {p y} hy := by
    rw [r.members_eq] at hy
    by_cases hp : p = q
    · subst hp
      rw [Function.update_self] at hy
      exact r.below y hy
    · rw [Function.update_of_ne hp] at hy
      exact h.below hy
  linked := r.linked_eq h
  undue {y} p hy := r.due_eq_zero h p (by rwa [r.triggered_eq] at hy)
  informed {y} p hy := r.count_quorum_eq_zero h p (by rwa [r.triggered_eq] at hy)
  locked {y d} hy := by
    rcases Memory.heap_set_set_cases hy with ⟨rfl, rfl⟩ | ⟨rfl, rfl⟩ | ⟨_, _, hy⟩
    · rw [r.quorumFlags]
      exact h.locked r.quorum
    · exact r.lock
    · exact h.locked hy
  tidy {y d} hy hfree := by
    rcases Memory.heap_set_set_cases hy with ⟨rfl, rfl⟩ | ⟨rfl, rfl⟩ | ⟨_, _, hy⟩
    · exact absurd r.locked hfree
    · exact r.tidy_mono (r.tidy hfree)
    · exact r.tidy_mono (h.tidy hy hfree)
  waiting k y := by
    rw [r.count_coroutine]
    exact h.waiting k y
  claimed := h.claimed
  alone := h.alone

/-- The body of `x` is deleted, with the last of the handles to it. -/
theorem delete (h : Inv g m) (hb : m.heap x = some b) (hmembers : b.members = [])
    (held : EventId → Nat) (locked : List EventId) (hheld : ∀ y, y ≠ x → held y = g.held y)
    (hrefs : g.held x = b.refcount + held x)
    (hlocked : ∀ y, y ≠ x → (y ∈ locked ↔ y ∈ g.locked)) :
    Inv { g with held, locked } (m.free x) := by
  have hzero : 0 = held x + m.queued x + indegree m.members x m.size := by
    have := h.refs x
    rw [Memory.refcount_of hb] at this
    omega
  have hmem : (m.free x).members = m.members := by
    funext y
    by_cases hy : y = x
    · subst hy
      rw [Memory.members_none Memory.heap_free_self, Memory.members_of hb, hmembers]
    · unfold Memory.members
      rw [Memory.heap_free_of_ne hy]
  have hnot : ∀ q, x ∉ m.members q := fun q hq => by
    have hdegree : indegree m.members x m.size = 0 := by omega
    exact not_mem_of_indegree_zero hdegree (h.lt_of_members hq) hq
  have hlinked : ∀ q, (m.listeners x).count (.quorum q) = 0 ∧ g.due x q = 0 := fun q => by
    have hx := h.linked x q
    rw [List.count_eq_zero.2 (hnot q)] at hx
    omega
  have hsuspended : ∀ c, m.suspended.count (c, x) = 0 := fun c => by
    refine List.count_eq_zero.2 fun hc => ?_
    have hcount : 0 < (m.suspended.map Prod.snd).count x :=
      List.count_pos_iff.2 (List.mem_map.2 ⟨_, hc, rfl⟩)
    unfold Memory.queued at hzero
    omega
  have htri : ∀ y, y ≠ x → (m.free x).triggered y = m.triggered y := fun y hy => by
    unfold Memory.triggered
    rw [Memory.heap_free_of_ne hy]
  have hlis : ∀ y, y ≠ x → (m.free x).listeners y = m.listeners y := fun y hy => by
    unfold Memory.listeners
    rw [Memory.heap_free_of_ne hy]
  have hother : ∀ {y c}, (m.free x).heap y = some c → y ≠ x ∧ m.heap y = some c := by
    intro y c hy
    by_cases hyx : y = x
    · subst hyx
      rw [Memory.heap_free_self] at hy
      cases hy
    · rw [Memory.heap_free_of_ne hyx] at hy
      exact ⟨hyx, hy⟩
  exact {
    bound := fun hy => h.bound (hother hy).2
    kind := fun hy => h.kind (hother hy).2
    refs := fun y => by
      show (m.free x).refcount y = held y + m.queued y + indegree (m.free x).members y m.size
      rw [hmem]
      by_cases hy : y = x
      · subst hy
        rw [Memory.refcount_none Memory.heap_free_self]
        exact hzero
      · rw [hheld y hy, ← h.refs y]
        unfold Memory.refcount
        rw [Memory.heap_free_of_ne hy]
    below := fun hx => h.below (by rwa [hmem] at hx)
    linked := fun y q => by
      rw [hmem]
      by_cases hy : y = x
      · subst hy
        rw [Memory.listeners_none Memory.heap_free_self]
        have := hlinked q
        have := h.linked y q
        show 0 + g.due y q = _
        omega
      · rw [hlis y hy]
        exact h.linked y q
    undue := fun {y} q ht => by
      by_cases hy : y = x
      · subst hy
        exact (hlinked q).2
      · exact h.undue q (by rwa [htri y hy] at ht)
    informed := fun {y} q ht => by
      by_cases hy : y = x
      · subst hy
        rw [Memory.listeners_none Memory.heap_free_self]
        rfl
      · rw [hlis y hy]
        exact h.informed q (by rwa [htri y hy] at ht)
    locked := fun hy => (h.locked (hother hy).2).trans (hlocked _ (hother hy).1).symm
    tidy := fun {y c} hy hfree => by
      obtain ⟨hyx, hy⟩ := hother hy
      refine (h.tidy hy fun hl => hfree ((hlocked y hyx).2 hl)).mono fun z hz ht => ?_
      rwa [htri z fun e => hnot y (by rw [← e, Memory.members_of hy]; exact hz)]
    waiting := fun c y => by
      by_cases hy : y = x
      · subst hy
        rw [Memory.listeners_none Memory.heap_free_self]
        show 0 + (if m.coh = some c then m.suspended.count (c, y) else 0) = _
        rw [show (m.free y).suspended = m.suspended from rfl, hsuspended c]
        split <;> rfl
      · rw [hlis y hy]
        exact h.waiting c y
    claimed := h.claimed
    alone := h.alone }

/-- A new body, to which there is one handle. -/
theorem alloc (h : Inv g m) (b : Body) (locked : List EventId) (hrefs : b.refcount = 1)
    (hlisteners : b.listeners = []) (hmembers : b.members = [])
    (htriggered : b.flags.triggered = false)
    (hlocked : ∀ y, y ≠ m.size → (y ∈ locked ↔ y ∈ g.locked))
    (hlock : b.flags.lock = true ↔ m.size ∈ locked) (htidy : m.size ∉ locked → Tidy m b) :
    Inv { (g.hold m.size) with
        kind := Function.update g.kind m.size b.flags.quorum, locked }
      { m.set m.size b with size := m.size + 1 } := by
  have hnone : m.heap m.size = none := by
    cases hx : m.heap m.size with
    | none => rfl
    | some c => exact absurd (h.bound hx) (Nat.lt_irrefl _)
  have hmem : (m.set m.size b).members = m.members := by
    rw [Memory.members_set, hmembers, ← Memory.members_none hnone, Function.update_eq_self]
  have hlis : (m.set m.size b).listeners = m.listeners := by
    rw [Memory.listeners_set, hlisteners, ← Memory.listeners_none hnone, Function.update_eq_self]
  have htri : (m.set m.size b).triggered = m.triggered := by
    rw [Memory.triggered_set, htriggered, ← Memory.triggered_none hnone, Function.update_eq_self]
  have hcases : ∀ {y c}, (m.set m.size b).heap y = some c →
      (y = m.size ∧ c = b) ∨ (y ≠ m.size ∧ m.heap y = some c) := Memory.heap_set_cases
  have hmono : ∀ {c : Body}, Tidy m c →
      Tidy { m.set m.size b with size := m.size + 1 } c := fun ht =>
    ht.mono fun y _ hy => by
      show (m.set m.size b).triggered y = true
      rw [htri]
      exact hy
  exact {
    bound := fun {y c} hy => by
      show y < m.size + 1
      rcases hcases hy with ⟨rfl, _⟩ | ⟨_, hy⟩
      · exact Nat.lt_succ_self _
      · exact Nat.lt_succ_of_lt (h.bound hy)
    kind := fun {y c} hy => by
      show c.flags.quorum = Function.update g.kind m.size b.flags.quorum y
      rcases hcases hy with ⟨rfl, rfl⟩ | ⟨hne, hy⟩
      · rw [Function.update_self]
      · rw [Function.update_of_ne hne]
        exact h.kind hy
    refs := fun y => by
      show (m.set m.size b).refcount y = (g.held y + if y = m.size then 1 else 0) + m.queued y +
        indegree (m.set m.size b).members y (m.size + 1)
      have hy := h.refs y
      rw [hmem, indegree, Memory.members_none hnone, Memory.refcount_set, List.count_nil]
      by_cases hyx : y = m.size
      · subst hyx
        rw [Memory.refcount_none hnone] at hy
        rw [Function.update_self, if_pos rfl, hrefs]
        omega
      · rw [Function.update_of_ne hyx, if_neg hyx]
        omega
    below := fun {q y} hy => by
      show Function.update g.kind m.size b.flags.quorum q = true ∧
        (Function.update g.kind m.size b.flags.quorum y = true → y < q)
      have hy : y ∈ m.members q := by rwa [← hmem]
      have hq : q ≠ m.size := Nat.ne_of_lt (h.lt_of_members hy)
      obtain ⟨c, hc, _⟩ := h.live_of_member hy
      have hyx : y ≠ m.size := Nat.ne_of_lt (h.bound hc)
      rw [Function.update_of_ne hq, Function.update_of_ne hyx]
      exact h.below hy
    linked := fun y q => by
      show ((m.set m.size b).listeners y).count (.quorum q) + g.due y q =
        ((m.set m.size b).members q).count y
      rw [hmem, hlis]
      exact h.linked y q
    undue := fun {y} q hy => by
      have ht : (m.set m.size b).triggered y = false := hy
      rw [htri] at ht
      exact h.undue q ht
    informed := fun {y} q hy => by
      have ht : (m.set m.size b).triggered y = true := hy
      rw [htri] at ht
      show ((m.set m.size b).listeners y).count (.quorum q) = 0
      rw [hlis]
      exact h.informed q ht
    locked := fun {y c} hy => by
      rcases hcases hy with ⟨rfl, rfl⟩ | ⟨hne, hy⟩
      · exact hlock
      · exact (h.locked hy).trans (hlocked y hne).symm
    tidy := fun {y c} hy hfree => by
      rcases hcases hy with ⟨rfl, rfl⟩ | ⟨hne, hy⟩
      · exact hmono (htidy hfree)
      · exact hmono (h.tidy hy fun hl => hfree ((hlocked y hne).2 hl))
    waiting := fun c y => by
      show ((m.set m.size b).listeners y).count (.coroutine c) + _ = _
      rw [hlis]
      exact h.waiting c y
    claimed := h.claimed
    alone := h.alone }

end Inv

/-- `x` is locked and about to be triggered; `f` are its flags, to be stored when it is
unlocked. -/
structure Ready (g : Calls) (m : Memory) (x : EventId) (f : Flags) (b : Body) : Prop where
  inv : Inv g m
  heap : m.heap x = some b
  locked : g.locked = [x]
  triggered : b.flags.triggered = false
  quorum : f.quorum = b.flags.quorum
  lock : f.lock = false
  empty : f.empty = b.listeners.isEmpty
  emptyMembers : f.quorum = true → f.emptyMembers = b.members.isEmpty
  wants : f.wantInterest = true → f.quorum = true

/-- How often a coroutine awaits an event, if it is listed by `x`. -/
theorem Inv.suspended_of_listed (h : Inv g m) (hb : m.heap x = some b) {c : CoroId}
    (hc : .coroutine c ∈ b.listeners) (y : EventId) :
    m.suspended.count (c, y) = if y = x then 1 else 0 := by
  have hpos : 0 < (m.listeners x).count (.coroutine c) := by
    rw [Memory.listeners_of hb]
    exact List.count_pos_iff.2 hc
  have hx := h.waiting c x
  have hin : (c, x) ∈ m.suspended := List.count_pos_iff.1 (by omega)
  exact count_of_alone h.alone hin y

/-- The body that `trigger_unlock` leaves, when the walk over the listeners has kept some. -/
def Body.marked (b : Body) (f : Flags) (kept : List Listener) : Body :=
  { b with
    listeners := kept
    flags := { f with triggered := true, empty := f.empty || kept.isEmpty } }

section Marking

variable {home : CoroId → DriverId} {drv : Option DriverId} {r : Scan} {f : Flags}

theorem Ready.tidy_marked (h : Ready g m x f b) (hrefs : 0 < b.refcount)
    (hmembers : ∀ y ∈ b.members, m.triggered y = true)
    (hr : r = scanListeners home drv m.coh b.listeners) : Tidy m (b.marked f r.kept) where
  empty := by
    show (f.empty || r.kept.isEmpty) = r.kept.isEmpty
    have hempty := h.empty
    cases hl : b.listeners with
    | nil =>
      have hnil : r.kept = [] := by rw [hr, hl]; rfl
      rw [hnil]
      simp
    | cons l ls =>
      rw [hl] at hempty
      rw [hempty]
      rfl
  emptyMembers := h.emptyMembers
  fired _ := hmembers
  used hz := absurd hz (Nat.ne_of_gt hrefs)
  wants := h.wants

/-- The walk has taken a coroutine off the list of `x`, and it is the one that is claimed, or it
has taken none off. -/
theorem Ready.claims (h : Ready g m x f b) (hr : r = scanListeners home drv m.coh b.listeners) :
    (r.coh = m.coh ∧ ∀ c, r.kept.count (.coroutine c) = (m.listeners x).count (.coroutine c)) ∨
      m.coh = none ∧ ∃ c₀, r.coh = some c₀ ∧ .coroutine c₀ ∈ b.listeners ∧
        ∀ c, r.kept.count (.coroutine c) + (if c = c₀ then 1 else 0) =
          (m.listeners x).count (.coroutine c) := by
  have hscan : Event.Scanned home drv b.listeners { coh := m.coh } r := by
    rw [hr]
    exact Event.scan_scanned home drv _ _
  have hzero : ∀ c, List.count (.coroutine c) ({ coh := m.coh } : Scan).kept = 0 := fun _ => rfl
  rw [Memory.listeners_of h.heap]
  rcases hscan.account with ⟨hcoh, hcount, _⟩ | ⟨hnone, c₀, hcoh, _, hcount⟩
  · refine .inl ⟨hcoh, fun c => ?_⟩
    rw [hcount c, hzero, Nat.zero_add]
  · refine .inr ⟨hnone, c₀, hcoh, List.count_pos_iff.1 ?_, fun c => ?_⟩
    · have hc := hcount c₀
      rw [if_pos rfl, hzero, Nat.zero_add] at hc
      omega
    · rw [hcount c, hzero, Nat.zero_add]

/-- A coroutine is still listed by what it awaits, or it is the one that is claimed. -/
theorem Ready.waiting_marked (h : Ready g m x f b)
    (hr : r = scanListeners home drv m.coh b.listeners) (c : CoroId) (y : EventId) :
    ((m.set x (b.marked f r.kept)).listeners y).count (.coroutine c) +
      (if r.coh = some c then m.suspended.count (c, y) else 0) = m.suspended.count (c, y) := by
  have hwaiting := h.inv.waiting c y
  have hlisteners : (m.set x (b.marked f r.kept)).listeners y =
      if y = x then r.kept else m.listeners y := by
    rw [Memory.listeners_set, Function.update_apply]
    rfl
  rw [hlisteners]
  rcases h.claims hr with ⟨hcoh, hcount⟩ | ⟨hnone, c₀, hcoh, hlisted, hcount⟩
  · rw [hcoh]
    by_cases hyx : y = x
    · subst hyx
      rw [if_pos rfl, hcount c]
      exact hwaiting
    · rw [if_neg hyx]
      exact hwaiting
  · rw [hnone, if_neg (by simp)] at hwaiting
    rw [hcoh]
    have hc := hcount c
    by_cases hcc : c = c₀
    · subst hcc
      have hy := h.inv.suspended_of_listed h.heap hlisted y
      rw [if_pos rfl] at hc
      rw [if_pos rfl]
      by_cases hyx : y = x
      · subst hyx
        rw [if_pos rfl] at hy ⊢
        omega
      · rw [if_neg hyx] at hy ⊢
        omega
    · rw [if_neg hcc] at hc
      rw [if_neg fun e => hcc (Option.some.inj e).symm]
      by_cases hyx : y = x
      · subst hyx
        rw [if_pos rfl]
        omega
      · rw [if_neg hyx]
        exact hwaiting

/-- The coroutine that is claimed is suspended. -/
theorem Ready.claimed_marked (h : Ready g m x f b)
    (hr : r = scanListeners home drv m.coh b.listeners) {c : CoroId} (hc : r.coh = some c) :
    ∃ y, (c, y) ∈ m.suspended := by
  rcases h.claims hr with ⟨hcoh, _⟩ | ⟨_, c₀, hcoh, hlisted, _⟩
  · exact h.inv.claimed (hcoh.symm.trans hc)
  · obtain rfl : c₀ = c := Option.some.inj (hcoh.symm.trans hc)
    have hx := h.inv.suspended_of_listed h.heap hlisted x
    rw [if_pos rfl] at hx
    have hpos : 0 < m.suspended.count (c₀, x) := by omega
    exact ⟨x, List.count_pos_iff.1 hpos⟩

/-- `trigger_unlock` has marked `x` and walked its listeners: `r` is what it found. -/
theorem Ready.mark (hready : Ready g m x f b) (hrefs : 0 < b.refcount)
    (hmembers : ∀ y ∈ b.members, m.triggered y = true)
    (hr : r = scanListeners home drv m.coh b.listeners) :
    Inv { g with locked := [], due := fun y q => if y = x then r.quorums.count q else g.due y q }
      { (m.set x (b.marked f r.kept)) with coh := r.coh } := by
  have h := hready.inv
  have hb := hready.heap
  have hscan : Event.Scanned home drv b.listeners { coh := m.coh } r := by
    rw [hr]
    exact Event.scan_scanned home drv _ _
  have hquorums : ∀ q, r.quorums.count q = b.listeners.count (.quorum q) := fun q =>
    (hscan.quorums q).trans (Nat.zero_add _)
  have hkept : ∀ q, r.kept.count (.quorum q) = 0 := hscan.keptQuorum
  have hmem : (m.set x (b.marked f r.kept)).members = m.members := Memory.members_set_of hb rfl
  have href : (m.set x (b.marked f r.kept)).refcount = m.refcount := Memory.refcount_set_of hb rfl
  have hlis : ∀ y, y ≠ x → (m.set x (b.marked f r.kept)).listeners y = m.listeners y :=
    fun y hy => by rw [Memory.listeners_set, Function.update_of_ne hy]
  have hlisx : (m.set x (b.marked f r.kept)).listeners x = r.kept :=
    Memory.listeners_of Memory.heap_set_self
  have htri : ∀ y, y ≠ x → (m.set x (b.marked f r.kept)).triggered y = m.triggered y :=
    fun y hy => by rw [Memory.triggered_set, Function.update_of_ne hy]
  have htrix : (m.set x (b.marked f r.kept)).triggered x = true :=
    Memory.triggered_of Memory.heap_set_self
  have hmono : ∀ {c : Body}, Tidy m c →
      Tidy { m.set x (b.marked f r.kept) with coh := r.coh } c := fun ht =>
    ht.mono fun y _ hy => by
      show (m.set x (b.marked f r.kept)).triggered y = true
      by_cases hyx : y = x
      · rw [hyx, htrix]
      · rwa [htri y hyx]
  have hunlocked : ∀ y, y ≠ x → y ∉ g.locked := fun y hy => by
    rw [hready.locked, List.mem_singleton]
    exact hy
  exact {
    bound := fun {y c} hy => by
      rcases Memory.heap_set_cases hy with ⟨rfl, _⟩ | ⟨_, hy⟩
      · exact h.bound hb
      · exact h.bound hy
    kind := fun {y c} hy => by
      rcases Memory.heap_set_cases hy with ⟨rfl, rfl⟩ | ⟨_, hy⟩
      · exact hready.quorum.trans (h.kind hb)
      · exact h.kind hy
    refs := fun y => by
      show (m.set x (b.marked f r.kept)).refcount y =
        g.held y + m.queued y + indegree (m.set x (b.marked f r.kept)).members y m.size
      rw [hmem, href]
      exact h.refs y
    below := fun {q y} hy => by
      have hy : y ∈ m.members q := by rwa [← hmem]
      exact h.below hy
    linked := fun y q => by
      show ((m.set x (b.marked f r.kept)).listeners y).count (.quorum q) +
        (if y = x then r.quorums.count q else g.due y q) =
          ((m.set x (b.marked f r.kept)).members q).count y
      rw [hmem, ← h.linked y q]
      by_cases hyx : y = x
      · subst hyx
        have hdue := h.undue q ((Memory.triggered_of hb).trans hready.triggered)
        rw [hlisx, hkept q, if_pos rfl, hquorums q, hdue, Memory.listeners_of hb]
        omega
      · rw [hlis y hyx, if_neg hyx]
    undue := fun {y} q hy => by
      have ht : (m.set x (b.marked f r.kept)).triggered y = false := hy
      show (if y = x then r.quorums.count q else g.due y q) = 0
      by_cases hyx : y = x
      · rw [hyx, htrix] at ht
        cases ht
      · rw [if_neg hyx]
        exact h.undue q (by rwa [htri y hyx] at ht)
    informed := fun {y} q hy => by
      have ht : (m.set x (b.marked f r.kept)).triggered y = true := hy
      show ((m.set x (b.marked f r.kept)).listeners y).count (.quorum q) = 0
      by_cases hyx : y = x
      · rw [hyx, hlisx]
        exact hkept q
      · rw [hlis y hyx]
        exact h.informed q (by rwa [htri y hyx] at ht)
    locked := fun {y c} hy => by
      rcases Memory.heap_set_cases hy with ⟨rfl, rfl⟩ | ⟨hyx, hy⟩
      · show f.lock = true ↔ y ∈ []
        rw [hready.lock]
        simp
      · rw [h.locked hy]
        exact ⟨fun hl => absurd hl (hunlocked y hyx), fun hl => by cases hl⟩
    tidy := fun {y c} hy _ => by
      rcases Memory.heap_set_cases hy with ⟨rfl, rfl⟩ | ⟨hyx, hy⟩
      · exact hmono (hready.tidy_marked hrefs hmembers hr)
      · exact hmono (h.tidy hy (hunlocked y hyx))
    waiting := hready.waiting_marked hr
    claimed := hready.claimed_marked hr
    alone := h.alone }

end Marking

end EventMemory
end Cotamer
end Psets
