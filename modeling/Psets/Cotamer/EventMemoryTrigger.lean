/-
Triggering an event.

The event is marked before its quorums are informed, and while they are, it has copied their
addresses: each of them is kept by its member, until the member has informed it.  A quorum
that triggers in turn holds a reference to itself for as long.
-/
import Psets.Cotamer.EventMemoryRelease

namespace Psets
namespace Cotamer
namespace EventMemory

open Containers
open Event (EventId CoroId DriverId Listener Scan scanListeners)

variable {m m' : Memory} {x y q : EventId} {b b' : Body} {g : Calls}
variable {home : CoroId → DriverId} {current : DriverId} {drv : Option DriverId}

theorem lockQuorum_eq (hb : m.heap x = some b) (hl : b.flags.lock = false)
    (hq : b.flags.quorum = true) : m.lockQuorum x =
      some (b.flags, m.set x { b with flags := { b.flags with lock := true } }) := by
  simp [Memory.lockQuorum, lock_eq hb hl, hq]

/-! ## Handles in the lists of drivers -/

/-- `n` more handles to `x`. -/
def Calls.holdMany (g : Calls) (x : EventId) (n : Nat) : Calls :=
  { g with held := fun y => g.held y + if y = x then n else 0 }

/-- `x` has informed `q`. -/
def Calls.notified (g : Calls) (x q : EventId) : Calls :=
  { g with due := fun y p => if y = x ∧ p = q then g.due x q - 1 else g.due y p }

namespace Inv

theorem due_congr (h : Inv g m) {due : EventId → EventId → Nat}
    (hdue : ∀ x q, due x q = g.due x q) : Inv { g with due } m := by
  have he : due = g.due := funext fun x => funext fun q => hdue x q
  subst he
  exact h

/-- Handles move to the lists of drivers, or from them. -/
theorem requeue (h : Inv g m) (held : EventId → Nat) (asap migrate : List (DriverId × EventId))
    (hheld : ∀ y, held y + (asap.map Prod.snd).count y + (migrate.map Prod.snd).count y =
      g.held y + (m.asap.map Prod.snd).count y + (m.migrate.map Prod.snd).count y) :
    Inv { g with held } { m with asap, migrate } where
  bound := h.bound
  kind := h.kind
  refs y := by
    have hy := h.refs y
    have := hheld y
    unfold Memory.queued at hy
    show m.refcount y = held y + ((asap.map Prod.snd).count y + (migrate.map Prod.snd).count y +
      (m.suspended.map Prod.snd).count y) + indegree m.members y m.size
    omega
  below := h.below
  linked := h.linked
  undue := h.undue
  informed := h.informed
  locked := h.locked
  tidy hy hfree := (h.tidy hy hfree).mono fun _ _ ht => ht
  waiting := h.waiting
  claimed := h.claimed
  alone := h.alone

/-- References are counted before the handles exist. -/
theorem count (h : Inv g m) (hb : m.heap x = some b) (hr : 0 < b.refcount) (n : Nat) :
    Inv (g.holdMany x n) (m.set x { b with refcount := b.refcount + n }) := by
  have hlock : b.flags.lock = true ↔ x ∈ g.locked := h.locked hb
  refine h.edit hb { b with refcount := b.refcount + n } _ g.locked rfl rfl rfl rfl
    (fun y hy => ?_) ?_ (fun _ _ => Iff.rfl) hlock fun hfree => ?_
  · show g.held y + (if y = x then n else 0) = g.held y
    rw [if_neg hy, Nat.add_zero]
  · show b.refcount + n + g.held x = b.refcount + (g.held x + if x = x then n else 0)
    rw [if_pos rfl]
    omega
  · have htidy := h.tidy hb hfree
    refine ⟨htidy.empty, htidy.emptyMembers, fun ht => htidy.fired (.inl (ht.resolve_right ?_)),
      fun hz => ?_, htidy.wants⟩
    · show b.refcount + n ≠ 0
      omega
    · have hz : b.refcount + n = 0 := hz
      omega

theorem post (h : Inv (g.hold x) m) (d : DriverId) :
    Inv g (EventMemory.post current drv x m d) := by
  unfold EventMemory.post
  split
  · refine h.requeue g.held (m.asap ++ [(d, x)]) m.migrate fun y => ?_
    show _ = (g.held y + if y = x then 1 else 0) + _ + _
    rw [List.map_append, List.count_append, List.map_singleton, List.count_singleton]
    by_cases hy : y = x
    · simp [hy]
      omega
    · simp [hy, Ne.symm hy]
  · refine h.requeue g.held m.asap (m.migrate ++ [(d, x)]) fun y => ?_
    show _ = (g.held y + if y = x then 1 else 0) + _ + _
    rw [List.map_append, List.count_append, List.map_singleton, List.count_singleton]
    by_cases hy : y = x
    · simp [hy]
      omega
    · simp [hy, Ne.symm hy]

/-- As many handles are posted as were counted. -/
theorem posts (current : DriverId) (drv : Option DriverId) (ds : List DriverId)
    (h : Inv (g.holdMany x ds.length) m) :
    Inv g (ds.foldl (EventMemory.post current drv x) m) ∧
      Calm drv m (ds.foldl (EventMemory.post current drv x) m) := by
  induction ds generalizing m with
  | nil =>
    refine ⟨h.held_congr fun y => ?_, .refl drv m⟩
    show g.held y = g.held y + if y = x then 0 else 0
    split <;> rfl
  | cons d ds ih =>
    have hone : Inv ((g.holdMany x ds.length).hold x) m := by
      refine h.held_congr fun y => ?_
      show g.held y + (if y = x then ds.length else 0) + (if y = x then 1 else 0) =
        g.held y + if y = x then ds.length + 1 else 0
      split <;> omega
    obtain ⟨hinv, hcalm⟩ := ih (hone.post d)
    refine ⟨hinv, Calm.trans ?_ hcalm⟩
    unfold EventMemory.post
    split <;> exact ⟨rfl, rfl, fun _ => rfl⟩

/-- The listeners that are coroutines are suspended. -/
theorem frames (h : Inv g m) (hb : m.heap x = some b) : b.listeners.all (Frame m) = true := by
  rw [List.all_eq_true]
  intro l hl
  cases l with
  | quorum q => rfl
  | coroutine c =>
    have hwaiting := h.waiting c x
    rw [Memory.listeners_of hb] at hwaiting
    have hcount : 0 < b.listeners.count (.coroutine c) := List.count_pos_iff.2 hl
    have hin : (c, x) ∈ m.suspended := List.count_pos_iff.1 (by omega)
    show (m.suspended.any fun w => w.1 = c) = true
    exact List.any_eq_true.2 ⟨_, hin, by simp⟩

/-- `trigger_member` up to the point where it drops its handle to `x`. -/
theorem inform (h : Inv g m) {c : Body} (hb : m.heap x = some b) (hc : m.heap q = some c)
    (hne : x ≠ q) (hq : q ∈ g.locked) (hdue : 0 < g.due x q) :
    Inv ((g.notified x q).hold x)
      (m.set q { c with count := c.count + 1, members := swapErase x c.members }) := by
  have hlinked := h.linked x q
  rw [Memory.listeners_of hb, Memory.members_of hc] at hlinked
  have herased : (swapErase x c.members).count x = c.members.count x - 1 :=
    count_swapErase_self ..
  have hlock : b.flags.lock = true ↔ x ∈ g.locked := h.locked hb
  have hrelink := h.relink b { c with count := c.count + 1, members := swapErase x c.members }
    ((g.notified x q).hold x).held (g.notified x q).due ⟨hne, hb, hc, hq,
      rfl, rfl, rfl, rfl, hlock, fun hfree => h.tidy hb hfree, rfl, rfl, rfl, fun _ _ => rfl,
      fun y hy => count_swapErase_of_ne hy _, fun y hy => ?_, ?_, fun y p hyp => ?_, ?_,
      fun ht => ?_, fun ht => ?_, fun y hy => ?_⟩
  · rwa [Memory.set_eq_self hb] at hrelink
  · show g.held y + (if y = x then 1 else 0) = g.held y
    rw [if_neg hy, Nat.add_zero]
  · show (g.held x + if x = x then 1 else 0) + (swapErase x c.members).count x = _
    rw [if_pos rfl, herased]
    omega
  · refine if_neg fun he => ?_
    rcases hyp with hy | hp
    · exact hy he.1
    · exact hp he.2
  · show _ + (if x = x ∧ q = q then g.due x q - 1 else g.due x q) = (swapErase x c.members).count x
    rw [if_pos ⟨rfl, rfl⟩, herased]
    omega
  · have := h.undue q ((Memory.triggered_of hb).trans ht)
    omega
  · have := h.informed q ((Memory.triggered_of hb).trans ht)
    rwa [Memory.listeners_of hb] at this
  · have hmem : y ∈ c.members := List.mem_of_mem_erase ((swapErase_perm x c.members).mem_iff.1 hy)
    exact h.below (by rwa [Memory.members_of hc])

end Inv

/-! ## A member and a quorum

`x` locks the quorum `q`, removes itself from the members and drops the handle that they had
to it.  Only then is it decided what becomes of the quorum. -/

/-- The quorum while it is locked, with a member less. -/
def Body.informed (c : Body) (x : EventId) : Body :=
  { c with
    flags := { c.flags with lock := true }
    count := c.count + 1
    members := swapErase x c.members }

/-- The flags that are stored when it is unlocked. -/
def Body.informedFlags (c : Body) (x : EventId) : Flags :=
  if (c.informed x).members.isEmpty then { c.flags with emptyMembers := true } else c.flags

def Calls.informing (g : Calls) (x q : EventId) : Calls :=
  ({ g with locked := [q] } : Calls).notified x q

namespace Body

variable {c : Body}

theorem informedFlags_quorum : (c.informedFlags x).quorum = c.flags.quorum := by
  unfold informedFlags
  split <;> rfl

theorem informedFlags_lock : (c.informedFlags x).lock = c.flags.lock := by
  unfold informedFlags
  split <;> rfl

theorem informedFlags_empty : (c.informedFlags x).empty = c.flags.empty := by
  unfold informedFlags
  split <;> rfl

theorem informedFlags_triggered : (c.informedFlags x).triggered = c.flags.triggered := by
  unfold informedFlags
  split <;> rfl

theorem mem_of_mem_informed (hy : y ∈ (c.informed x).members) : y ∈ c.members :=
  List.mem_of_mem_erase ((swapErase_perm x c.members).mem_iff.1 hy)

theorem informedFlags_emptyMembers (hempty : c.flags.emptyMembers = c.members.isEmpty)
    (hmem : x ∈ c.members) :
    (c.informedFlags x).emptyMembers = (c.informed x).members.isEmpty := by
  unfold informedFlags
  by_cases he : (c.informed x).members.isEmpty = true
  · rw [if_pos he, he]
  · rw [if_neg he, Bool.eq_false_iff.2 he, hempty]
    cases hm : c.members with
    | nil =>
      rw [hm] at hmem
      cases hmem
    | cons z zs => rfl

end Body

/-- `x` is a member of `q`, which has not heard of it, and nothing is locked. -/
structure Unheard (g : Calls) (m : Memory) (x q : EventId) (c : Body) : Prop where
  inv : Inv g m
  locked : g.locked = []
  heap : m.heap q = some c
  due : 0 < g.due x q
  held : 0 < g.held x

/-- `q` has heard of `x` and is still locked; before, the memory was `m`. -/
structure Informed (g : Calls) (m m' : Memory) (x q : EventId) (c : Body) : Prop where
  inv : Inv (g.informing x q) m'
  heap : m'.heap q = some (c.informed x)
  still : Still [] m m'

namespace Unheard

variable {c : Body}

theorem mem (h : Unheard g m x q c) : x ∈ c.members := by
  have hlinked := h.inv.linked x q
  have hdue := h.due
  rw [Memory.members_of h.heap] at hlinked
  exact List.count_pos_iff.1 (by omega)

theorem below (h : Unheard g m x q c) : g.kind q = true ∧ (g.kind x = true → x < q) :=
  h.inv.below (by
    rw [Memory.members_of h.heap]
    exact h.mem)

theorem ne (h : Unheard g m x q c) : x ≠ q := by
  intro e
  obtain ⟨hkind, hlt⟩ := h.below
  subst e
  exact Nat.lt_irrefl x (hlt hkind)

theorem free (h : Unheard g m x q c) : q ∉ g.locked := by
  rw [h.locked]
  exact List.not_mem_nil

theorem unlocked (h : Unheard g m x q c) : c.flags.lock = false := h.inv.unlocked h.heap h.free

theorem tidy (h : Unheard g m x q c) : Tidy m c := h.inv.tidy h.heap h.free

theorem quorum (h : Unheard g m x q c) : c.flags.quorum = true :=
  (h.inv.kind h.heap).trans h.below.1

theorem emptyMembers (h : Unheard g m x q c) :
    (c.informedFlags x).emptyMembers = (c.informed x).members.isEmpty :=
  Body.informedFlags_emptyMembers (h.tidy.emptyMembers h.quorum) h.mem

/-- The quorum is locked. -/
theorem lock (h : Unheard g m x q c) :
    Inv { g with locked := [q] } (m.set q { c with flags := { c.flags with lock := true } }) := by
  refine h.inv.edit h.heap { c with flags := { c.flags with lock := true } } g.held [q] rfl rfl rfl
    rfl (fun _ _ => rfl) rfl (fun y hy => ?_) ⟨fun _ => List.mem_cons_self, fun _ => rfl⟩
    fun hq => absurd List.mem_cons_self hq
  rw [h.locked, List.mem_singleton]
  exact ⟨fun e => absurd e hy, fun e => by cases e⟩

/-- The handle that the members had is dropped last. -/
theorem inform (h : Unheard g m x q c) :
    ∃ m', release (m.set q (c.informed x)) x = some m' ∧ Informed g m m' x q c := by
  obtain ⟨b, hb, _⟩ := h.inv.live_of_held h.held
  have hb' : (m.set q { c with flags := { c.flags with lock := true } }).heap x = some b := by
    rw [Memory.heap_set_of_ne h.ne]
    exact hb
  have hinform := h.lock.inform hb' Memory.heap_set_self h.ne List.mem_cons_self h.due
  rw [Memory.set_set] at hinform
  have hset : Inv ((g.informing x q).hold x) (m.set q (c.informed x)) := hinform
  obtain ⟨m', hm', h', hstill⟩ := release_spec hset fun y hy => by
    rw [List.mem_singleton.1 hy]
    exact h.below
  refine ⟨m', hm', h', ?_, ?_⟩
  · rw [hstill.heap q List.mem_cons_self]
    exact Memory.heap_set_self
  · have hset : Still [] m (m.set q (c.informed x)) := Still.set h.heap List.not_mem_nil rfl
    exact hset.trans (hstill.mono fun y hy => by cases hy)

/-- What `trigger_member` goes on with. -/
theorem triggerMember_eq (h : Unheard g m x q c)
    (hrelease : release (m.set q (c.informed x)) x = some m')
    (hinformed : Informed g m m' x q c) (unlock : Memory → EventId → Flags → Option Memory) :
    triggerMember unlock x m q =
      if (c.informedFlags x).triggered = false ∧ c.quorum ≤ c.count + 1 then
        unlock m' q (c.informedFlags x)
      else if (c.informedFlags x).emptyMembers = true ∧ c.refcount = 0 then delete release m' q
      else m'.unlock q (c.informedFlags x) := by
  have hset : ∀ c₁ c₂ : Body, (m.set q c₁).set q c₂ = m.set q c₂ := fun c₁ c₂ =>
    Memory.set_set ..
  have hlocked : m.lockQuorum q =
      some (c.flags, m.set q { c with flags := { c.flags with lock := true } }) :=
    lockQuorum_eq h.heap h.unlocked h.quorum
  have hdrop : release (m.set q
      { c with
        flags := { c.flags with lock := true }
        count := c.count + 1
        members := swapErase x c.members }) x = some m' := hrelease
  rw [triggerMember, hlocked]
  simp only [Option.bind_eq_bind, Option.bind_some, Memory.heap_set_self, if_pos h.mem, hset,
    hdrop, hinformed.heap, Bool.not_eq_true]
  rfl

end Unheard

namespace Informed

variable {c : Body}

theorem triggered (h : Informed g m m' x q c) (hc : Tidy m c)
    (hor : c.flags.triggered = true ∨ c.refcount = 0) :
    ∀ y ∈ (c.informed x).members, m'.triggered y = true := by
  intro y hy
  obtain ⟨d, hd, _⟩ := h.inv.live_of_member (x := y) (q := q) (by rwa [Memory.members_of h.heap])
  exact h.still.triggered (hc.fired hor y (Body.mem_of_mem_informed hy)) hd

/-- The quorum has heard of enough members. -/
theorem ready (h : Informed g m m' x q c) (hstart : Unheard g m x q c)
    (hfire : (c.informedFlags x).triggered = false) :
    Ready (g.informing x q) m' q (c.informedFlags x) (c.informed x) where
  inv := h.inv
  heap := h.heap
  locked := rfl
  triggered := by
    rw [Body.informedFlags_triggered] at hfire
    exact hfire
  quorum := Body.informedFlags_quorum
  lock := Body.informedFlags_lock.trans hstart.unlocked
  empty := Body.informedFlags_empty.trans hstart.tidy.empty
  emptyMembers _ := hstart.emptyMembers
  wants _ := Body.informedFlags_quorum.trans hstart.quorum

theorem notified (hlocked : g.locked = [])
    (h : Inv { (g.informing x q) with locked := [] } m') : Inv (g.notified x q) m' := by
  rw [show g = { g with locked := [] } by rw [← hlocked]]
  exact h

/-- The quorum was kept alive by `x` alone. -/
theorem delete (h : Informed g m m' x q c) (hlocked : g.locked = [])
    (hnil : (c.informed x).members = []) (hrefs : c.refcount = 0) :
    Inv (g.notified x q) (m'.free q) := by
  refine notified hlocked (h.inv.delete h.heap hnil g.held [] (fun _ _ => rfl) ?_
    (mem_locked_of_ne []))
  show g.held q = c.refcount + g.held q
  rw [hrefs, Nat.zero_add]

/-- The quorum goes on waiting, or has triggered before. -/
theorem unlock (h : Informed g m m' x q c) (hstart : Unheard g m x q c)
    (hkept : c.refcount = 0 → (c.informed x).members ≠ []) :
    Inv (g.notified x q) (m'.set q { (c.informed x) with flags := c.informedFlags x }) := by
  have hlock : (c.informedFlags x).lock = false := Body.informedFlags_lock.trans hstart.unlocked
  refine notified hstart.locked (h.inv.edit h.heap
    { (c.informed x) with flags := c.informedFlags x } g.held [] rfl rfl
    Body.informedFlags_triggered Body.informedFlags_quorum (fun _ _ => rfl) rfl
    (mem_locked_of_ne []) ?_ fun _ => ⟨?_, fun _ => hstart.emptyMembers, fun hor => ?_, hkept,
      fun _ => Body.informedFlags_quorum.trans hstart.quorum⟩)
  · show (c.informedFlags x).lock = true ↔ _
    rw [hlock]
    exact ⟨(fun e => by cases e), fun e => by cases e⟩
  · show (c.informedFlags x).empty = c.listeners.isEmpty
    rw [Body.informedFlags_empty]
    exact hstart.tidy.empty
  · have hor : (c.informedFlags x).triggered = true ∨ c.refcount = 0 := hor
    rw [Body.informedFlags_triggered] at hor
    exact h.triggered hstart.tidy hor

end Informed

/-! ## The cascade -/

/-- What `trigger_unlock` does to an event. -/
def Triggers (home : CoroId → DriverId) (current : DriverId) (drv : Option DriverId) (n : Nat) :
    Prop :=
  ∀ (g : Calls) (m : Memory) (x : EventId) (f : Flags) (b : Body), Ready g m x f b →
    (g.kind x = true ∨ 0 < g.held x) →
    (g.kind x = true → m.size ≤ n + x) → (g.kind x = false → m.size + 1 ≤ n) →
    ∃ m', triggerUnlock home current drv n m x f = some m' ∧ Inv { g with locked := [] } m' ∧
      Calm drv m m'

theorem triggerMember_spec {n : Nat} (hn : Triggers home current drv n) (h : Inv g m)
    (hlocked : g.locked = []) (hdue : 0 < g.due x q) (hheld : 0 < g.held x)
    (hsize : m.size ≤ n + q) :
    ∃ m', triggerMember (triggerUnlock home current drv n) x m q = some m' ∧
      Inv (g.notified x q) m' ∧ Calm drv m m' := by
  have hmem : x ∈ m.members q := by
    have := h.linked x q
    exact List.count_pos_iff.1 (by omega)
  cases hc : m.heap q with
  | none =>
    rw [Memory.members_none hc] at hmem
    cases hmem
  | some c =>
    have hstart : Unheard g m x q c := ⟨h, hlocked, hc, hdue, hheld⟩
    obtain ⟨m₁, hm₁, h₁⟩ := hstart.inform
    have hcalm₁ : Calm drv m m₁ := h₁.still.calm drv
    rw [hstart.triggerMember_eq hm₁ h₁]
    by_cases hfire : (c.informedFlags x).triggered = false ∧ c.quorum ≤ c.count + 1
    · rw [if_pos hfire]
      have hkind : g.kind q = true := hstart.below.1
      obtain ⟨m', hm', h', hcalm'⟩ := hn _ m₁ q _ _ (h₁.ready hstart hfire.1) (.inl hkind)
        (fun _ => by
          rw [hcalm₁.size]
          exact hsize)
        fun hk => by
          have hk : g.kind q = false := hk
          rw [hkind] at hk
          cases hk
      exact ⟨m', hm', Informed.notified hlocked h', hcalm₁.trans hcalm'⟩
    · rw [if_neg hfire]
      by_cases hlast : (c.informedFlags x).emptyMembers = true ∧ c.refcount = 0
      · have hnil : (c.informed x).members = [] :=
          List.isEmpty_iff.1 (hstart.emptyMembers.symm.trans hlast.1)
        rw [if_pos hlast]
        exact ⟨m₁.free q, delete_eq h₁.heap hnil, h₁.delete hlocked hnil hlast.2,
          hcalm₁.trans (.free drv m₁ q)⟩
      · rw [if_neg hlast]
        refine ⟨_, unlock_eq h₁.heap _, h₁.unlock hstart fun hrefs hnil => hlast ⟨?_, hrefs⟩,
          hcalm₁.trans (.set drv m₁ q _)⟩
        rw [hstart.emptyMembers, hnil]
        rfl

/-- `x` informs the quorums that it has copied, each as often as it is a member. -/
theorem informAll_spec {n : Nat} (hn : Triggers home current drv n) :
    ∀ (qs : List EventId) (g : Calls) (m : Memory), Inv g m → g.locked = [] → 0 < g.held x →
      (∀ q, g.due x q = qs.count q) → (∀ q ∈ qs, m.size ≤ n + q) →
      ∃ m', qs.foldlM (triggerMember (triggerUnlock home current drv n) x) m = some m' ∧
        Inv { g with due := fun y q => if y = x then 0 else g.due y q } m' ∧ Calm drv m m' := by
  intro qs
  induction qs with
  | nil =>
    intro g m h _ _ hdue _
    refine ⟨m, rfl, h.due_congr fun y q => ?_, .refl drv m⟩
    by_cases hy : y = x
    · rw [if_pos hy, hy, hdue q]
      rfl
    · rw [if_neg hy]
  | cons q qs ih =>
    intro g m h hlocked hheld hdue hsize
    have hq : 0 < g.due x q := by
      rw [hdue q, List.count_cons_self]
      exact Nat.succ_pos _
    obtain ⟨m₁, hm₁, h₁, hcalm₁⟩ :=
      triggerMember_spec hn h hlocked hq hheld (hsize q List.mem_cons_self)
    have hdue' : ∀ p, (g.notified x q).due x p = qs.count p := by
      intro p
      show (if x = x ∧ p = q then g.due x q - 1 else g.due x p) = qs.count p
      by_cases hp : p = q
      · rw [if_pos ⟨rfl, hp⟩, hdue q, List.count_cons_self, hp]
        rfl
      · rw [if_neg fun he => hp he.2, hdue p, List.count_cons_of_ne fun e => hp e.symm]
    have hsize' : ∀ p ∈ qs, m₁.size ≤ n + p := by
      intro p hp
      rw [hcalm₁.size]
      exact hsize p (List.mem_cons_of_mem _ hp)
    obtain ⟨m', hm', h', hcalm'⟩ := ih (g.notified x q) m₁ h₁ hlocked hheld hdue' hsize'
    refine ⟨m', ?_, ?_, hcalm₁.trans hcalm'⟩
    · rw [List.foldlM_cons, hm₁]
      exact hm'
    · refine h'.due_congr fun y p => ?_
      show (if y = x then 0 else g.due y p) =
        if y = x then 0 else if y = x ∧ p = q then g.due x q - 1 else g.due y p
      by_cases hy : y = x
      · rw [if_pos hy, if_pos hy]
      · rw [if_neg hy, if_neg hy, if_neg fun he => hy he.1]

/-- What keeps `x` while it triggers. -/
def Calls.keep (g : Calls) (x : EventId) : Calls := if g.kind x then g.hold x else g

theorem Calls.keep_kind : (g.keep x).kind = g.kind := by
  unfold keep
  split <;> rfl

theorem Calls.keep_due : (g.keep x).due = g.due := by
  unfold keep
  split <;> rfl

/-- A quorum takes a reference to itself and leaves the members that have not triggered. -/
theorem keepQuorum_quorum {f : Flags} (h : Ready g m x f b) (hkind : g.kind x = true) :
    ∃ f' m' b', keepQuorum m x f = some (f', m') ∧ Ready (g.hold x) m' x f' b' ∧
      f'.quorum = f.quorum ∧ (∀ y ∈ b'.members, m'.triggered y = true) ∧
      ∀ drv, Calm drv m m' := by
  have hb := h.heap
  have hfk : f.quorum = true := h.quorum.trans ((h.inv.kind hb).trans hkind)
  have hlock : b.flags.lock = true ↔ x ∈ g.locked := h.inv.locked hb
  have h₁ : Inv (g.hold x) (m.set x { b with refcount := b.refcount + 1 }) := by
    refine h.inv.edit hb { b with refcount := b.refcount + 1 } (g.hold x).held g.locked rfl rfl rfl
      rfl (fun y hy => ?_) ?_ (fun _ _ => Iff.rfl) hlock fun hfree => ?_
    · show g.held y + (if y = x then 1 else 0) = g.held y
      rw [if_neg hy, Nat.add_zero]
    · show b.refcount + 1 + g.held x = b.refcount + (g.held x + if x = x then 1 else 0)
      rw [if_pos rfl]
      omega
    · rw [h.locked] at hfree
      exact absurd List.mem_cons_self hfree
  obtain ⟨m', members, hm', h', hstill, hb', hfired, hshort⟩ :=
    cullMembers_spec (g := g.hold x) (release_drops x) h.locked (fun y hy => by cases hy) hkind h₁
      Memory.heap_set_self f
  refine ⟨if members.isEmpty then { f with emptyMembers := true } else f, m', _, ?_,
    ⟨h', hb', h.locked, h.triggered, ?_, ?_, ?_, fun _ => ?_, ?_⟩, ?_, hfired,
    fun drv => (Calm.set drv m x _).trans (hstill.calm drv)⟩
  · rw [keepQuorum, if_pos hfk, ref_eq hb]
    exact hm'
  · split <;> exact h.quorum
  · split <;> exact h.lock
  · split <;> exact h.empty
  · show _ = members.isEmpty
    cases members with
    | nil => rfl
    | cons z zs =>
      show f.emptyMembers = false
      rw [h.emptyMembers hfk]
      cases hm : b.members with
      | nil =>
        rw [hm] at hshort
        cases hshort
      | cons y ys => rfl
  · split <;> exact h.wants
  · split <;> rfl

theorem keepQuorum_spec {f : Flags} (h : Ready g m x f b)
    (hkept : g.kind x = true ∨ 0 < g.held x) :
    ∃ f' m' b', keepQuorum m x f = some (f', m') ∧ Ready (g.keep x) m' x f' b' ∧
      f'.quorum = f.quorum ∧ (∀ y ∈ b'.members, m'.triggered y = true) ∧
      (∀ drv, Calm drv m m') ∧ 0 < (g.keep x).held x := by
  cases hkind : g.kind x with
  | true =>
    obtain ⟨f', m', b', hm', hready, hquorum, hfired, hcalm⟩ := keepQuorum_quorum h hkind
    have hkeep : g.keep x = g.hold x := if_pos hkind
    rw [hkeep]
    exact ⟨f', m', b', hm', hready, hquorum, hfired, hcalm, Calls.held_hold_pos⟩
  | false =>
    have hfk : f.quorum = false := h.quorum.trans ((h.inv.kind h.heap).trans hkind)
    have hkeep : g.keep x = g := if_neg (by rw [hkind]; exact Bool.false_ne_true)
    rw [hkeep]
    refine ⟨f, m, b, ?_, h, rfl, fun y hy => ?_, fun drv => .refl drv m,
      hkept.resolve_left fun e => ?_⟩
    · rw [keepQuorum, hfk]
      rfl
    · rw [h.inv.members_nil_of_plain h.heap hkind] at hy
      cases hy
    · rw [hkind] at e
      cases e

/-- `x` is marked, and owes a notification to each quorum that was listening. -/
theorem markTriggered_spec (home : CoroId → DriverId) (drv : Option DriverId) {f : Flags}
    (h : Ready g m x f b) (hheld : 0 < g.held x)
    (hfired : ∀ y ∈ b.members, m.triggered y = true) :
    ∃ r m', markTriggered home drv m x f = some (r, m') ∧
      Inv { g with locked := [], due := fun y q => if y = x then r.quorums.count q else g.due y q }
        m' ∧
      (∀ q ∈ r.quorums, x ∈ m.members q) ∧ Calm drv m m' := by
  have hb := h.heap
  have hrefs : 0 < b.refcount := by
    have hx := h.inv.refs x
    rw [Memory.refcount_of hb] at hx
    omega
  generalize hr : scanListeners home drv m.coh b.listeners = r
  have hscan : Event.Scanned home drv b.listeners { coh := m.coh } r := by
    rw [← hr]
    exact Event.scan_scanned home drv _ _
  refine ⟨r, _, ?_, h.mark hrefs hfired hr.symm, fun q hq => ?_, rfl, rfl, fun hdrv => ?_⟩
  · rw [markTriggered, hb]
    simp only [Option.bind_eq_bind, Option.bind_some]
    rw [if_pos (h.inv.frames hb), hr]
    rfl
  · have hcount : 0 < r.quorums.count q := List.count_pos_iff.2 hq
    have hq : r.quorums.count q = b.listeners.count (.quorum q) := by
      rw [hscan.quorums q]
      exact Nat.zero_add _
    have hlinked := h.inv.linked x q
    rw [Memory.listeners_of hb] at hlinked
    exact List.count_pos_iff.1 (by omega)
  · rcases hscan.account with ⟨hc, _, _⟩ | ⟨_, c, _, hc, _⟩
    · exact hc
    · rw [hdrv] at hc
      cases hc

/-- `x` is posted to drivers. -/
theorem post_spec (current : DriverId) (drv : Option DriverId) (h : Inv g m)
    (hheld : 0 < g.held x) (ds : List DriverId) :
    ∃ m', m.ref x ds.length = some m' ∧ Inv g (ds.foldl (post current drv x) m') ∧
      Calm drv m (ds.foldl (post current drv x) m') := by
  obtain ⟨b, hb, hr⟩ := h.live_of_held hheld
  obtain ⟨hinv, hcalm⟩ := (h.count hb hr ds.length).posts current drv ds
  exact ⟨_, ref_eq hb ds.length, hinv, (Calm.set drv m x _).trans hcalm⟩

theorem triggerUnlock_spec (n : Nat) : Triggers home current drv n := by
  induction n with
  | zero =>
    intro g m x f b h _ hsize hplain
    cases hk : g.kind x with
    | true =>
      have hlt : Nat.succ x ≤ m.size := h.inv.bound h.heap
      have hle := hsize hk
      omega
    | false =>
      have hle := hplain hk
      omega
  | succ n ih =>
    intro g m x f b h hkept hsize hplain
    obtain ⟨f₁, m₁, b₁, hm₁, h₁, hquorum₁, hfired₁, hcalm₁, hheld₁⟩ := keepQuorum_spec h hkept
    obtain ⟨r, m₂, hm₂, h₂, hlisted, hcalm₂⟩ :=
      markTriggered_spec home drv h₁ hheld₁ hfired₁
    -- a quorum is younger than its members that are quorums
    have hlater : ∀ q ∈ r.quorums, m₂.size ≤ n + q := by
      intro q hq
      rw [hcalm₂.size, (hcalm₁ drv).size]
      cases hk : g.kind x with
      | true =>
        have hle := hsize hk
        have hlt : Nat.succ x ≤ q :=
          (h₁.inv.below (hlisted q hq)).2 (by rw [Calls.keep_kind]; exact hk)
        omega
      | false =>
        have hle := hplain hk
        omega
    obtain ⟨m₃, hm₃, h₃, hcalm₃⟩ := informAll_spec ih r.quorums _ m₂ h₂ rfl hheld₁
      (fun q => if_pos rfl) hlater
    have h₃' : Inv { (g.keep x) with locked := [] } m₃ := by
      refine h₃.due_congr fun y q => ?_
      show (g.keep x).due y q =
        if y = x then 0 else if y = x then r.quorums.count q else (g.keep x).due y q
      by_cases hy : y = x
      · rw [if_pos hy, hy, Calls.keep_due]
        exact h.inv.undue q ((Memory.triggered_of h.heap).trans h.triggered)
      · rw [if_neg hy, if_neg hy]
    obtain ⟨m₄, hm₄, h₅, hcalm₅⟩ := post_spec current drv h₃' hheld₁ r.drivers
    have hcalm : Calm drv m (r.drivers.foldl (post current drv x) m₄) :=
      (hcalm₁ drv).trans (hcalm₂.trans (hcalm₃.trans hcalm₅))
    have hrun : triggerUnlock home current drv (n + 1) m x f =
        if f₁.quorum then release (r.drivers.foldl (post current drv x) m₄) x
        else some (r.drivers.foldl (post current drv x) m₄) := by
      rw [triggerUnlock]
      simp only [Option.bind_eq_bind, hm₁, hm₂, hm₃, hm₄, Option.bind_some]
    have hfk : f.quorum = g.kind x := h.quorum.trans (h.inv.kind h.heap)
    rw [hrun, hquorum₁, hfk]
    cases hk : g.kind x with
    | false =>
      rw [show g.keep x = g from if_neg (by rw [hk]; exact Bool.false_ne_true)] at h₅
      exact ⟨_, rfl, h₅, hcalm⟩
    | true =>
      have h₅' : Inv ({ g with locked := [] }.hold x) (r.drivers.foldl (post current drv x) m₄) := by
        rw [show g.keep x = g.hold x from if_pos hk] at h₅
        exact h₅
      obtain ⟨m', hm', h', hstill⟩ := release_spec h₅' fun y hy => by cases hy
      exact ⟨m', hm', h', hcalm.trans (hstill.calm drv)⟩

end EventMemory
end Cotamer
end Psets
