/-
Dropping a handle.

A quorum that loses its last handle leaves its members, which may lose their last handle in
turn.  Members are older than their quorum or are plain events, so the calls nest to a depth
that the addresses bound, and none of them needs a lock that another one of them holds.
-/
import Psets.Cotamer.EventMemoryInvariant

namespace Psets
namespace Cotamer
namespace EventMemory

open Containers
open Event (EventId CoroId DriverId Listener Scan scanListeners)

variable {m m' m'' : Memory} {x y q : EventId} {b b' : Body} {g : Calls} {locked : List EventId}

/-! ## Single accesses -/

theorem lock_eq (hb : m.heap x = some b) (hl : b.flags.lock = false) :
    m.lock x = some (b.flags, m.set x { b with flags := { b.flags with lock := true } }) := by
  simp [Memory.lock, hb, hl]

theorem untriggeredLock_triggered (hb : m.heap x = some b) (ht : b.flags.triggered = true) :
    m.untriggeredLock x = some (b.flags, m) := by
  simp [Memory.untriggeredLock, hb, ht]

theorem untriggeredLock_eq (hb : m.heap x = some b) (ht : b.flags.triggered = false)
    (hl : b.flags.lock = false) : m.untriggeredLock x =
      some (b.flags, m.set x { b with flags := { b.flags with lock := true } }) := by
  simp [Memory.untriggeredLock, hb, ht, lock_eq hb hl]

theorem unlock_eq (hb : m.heap x = some b) (f : Flags) :
    m.unlock x f = some (m.set x { b with flags := f }) := by
  simp [Memory.unlock, hb]

theorem deref_eq (hb : m.heap x = some b) (hr : 0 < b.refcount) :
    m.deref x = some (b.refcount, m.set x { b with refcount := b.refcount - 1 }) := by
  simp [Memory.deref, hb, Nat.ne_of_gt hr]

theorem ref_eq (hb : m.heap x = some b) (n : Nat) :
    m.ref x n = some (m.set x { b with refcount := b.refcount + n }) := by
  simp [Memory.ref, hb]

theorem setMembers_eq (hb : m.heap x = some b) (members : List EventId) :
    m.setMembers x members = some (m.set x { b with members }) := by
  simp [Memory.setMembers, hb]

/-- The body that `remove_listener_unlock` leaves. -/
def Body.delist (b : Body) (l : Listener) (f : Flags) : Body :=
  { b with
    listeners := swapErase l b.listeners
    flags := { f with empty := f.empty || (swapErase l b.listeners).isEmpty } }

@[simp] theorem Body.delist_flags (b : Body) (l : Listener) (f f' : Flags) :
    Body.delist { b with flags := f' } l f = b.delist l f := rfl

theorem removeListenerUnlock_eq (hb : m.heap x = some b) (l : Listener) (f : Flags) :
    m.removeListenerUnlock x l f = some (m.set x (b.delist l f)) := by
  unfold Body.delist
  simp [Memory.removeListenerUnlock, hb]

theorem addListenerUnlock_eq (hb : m.heap x = some b) (l : Listener) {f : Flags}
    (hf : f.triggered = false) : m.addListenerUnlock x l f = some (m.set x { b with
      listeners := b.listeners ++ [l]
      flags := { f with empty := false } }) := by
  simp [Memory.addListenerUnlock, hb, hf]

theorem isEmpty_swapErase {α : Type} [DecidableEq α] (a : α) (l : List α) :
    (l.isEmpty || (swapErase a l).isEmpty) = (swapErase a l).isEmpty := by
  cases l with
  | nil => rfl
  | cons c l => rfl

/-! ## What stays as it is -/

/-- Nothing is allocated, and no coroutine is suspended, or claimed without a driver. -/
structure Calm (drv : Option DriverId) (m m' : Memory) : Prop where
  size : m'.size = m.size
  suspended : m'.suspended = m.suspended
  coh : drv = none → m'.coh = m.coh

namespace Calm

variable {drv : Option DriverId}

theorem refl (drv : Option DriverId) (m : Memory) : Calm drv m m := ⟨rfl, rfl, fun _ => rfl⟩

theorem trans (h : Calm drv m m') (h' : Calm drv m' m'') : Calm drv m m'' :=
  ⟨h'.size.trans h.size, h'.suspended.trans h.suspended, fun hd => (h'.coh hd).trans (h.coh hd)⟩

theorem set (drv : Option DriverId) (m : Memory) (x : EventId) (b : Body) :
    Calm drv m (m.set x b) := ⟨rfl, rfl, fun _ => rfl⟩

theorem free (drv : Option DriverId) (m : Memory) (x : EventId) : Calm drv m (m.free x) :=
  ⟨rfl, rfl, fun _ => rfl⟩

end Calm

/-- Nothing is claimed or triggered besides, or changed at the addresses given. -/
structure Still (locked : List EventId) (m m' : Memory) : Prop where
  calm : ∀ drv, Calm drv m m'
  heap : ∀ y ∈ locked, m'.heap y = m.heap y
  same : ∀ {y b'}, m'.heap y = some b' →
    ∃ b, m.heap y = some b ∧ b'.flags.triggered = b.flags.triggered

namespace Still

theorem refl (locked : List EventId) (m : Memory) : Still locked m m :=
  ⟨fun _ => .refl _ m, fun _ _ => rfl, fun hb => ⟨_, hb, rfl⟩⟩

theorem trans (h : Still locked m m') (h' : Still locked m' m'') : Still locked m m'' where
  calm drv := (h.calm drv).trans (h'.calm drv)
  heap y hy := (h'.heap y hy).trans (h.heap y hy)
  same hb := by
    obtain ⟨b', hb', ht'⟩ := h'.same hb
    obtain ⟨b, hb, ht⟩ := h.same hb'
    exact ⟨b, hb, ht'.trans ht⟩

theorem mono {locked' : List EventId} (h : Still locked m m')
    (hsub : ∀ y ∈ locked', y ∈ locked) : Still locked' m m' :=
  ⟨h.calm, fun y hy => h.heap y (hsub y hy), h.same⟩

theorem set (hb : m.heap x = some b) (hx : x ∉ locked)
    (ht : b'.flags.triggered = b.flags.triggered) : Still locked m (m.set x b') where
  calm drv := .set drv m x b'
  heap y hy := Memory.heap_set_of_ne fun e => hx (e ▸ hy)
  same {y c} hy := by
    by_cases hyx : y = x
    · subst hyx
      rw [Memory.heap_set_self] at hy
      exact ⟨b, hb, by rw [← Option.some.inj hy, ht]⟩
    · rw [Memory.heap_set_of_ne hyx] at hy
      exact ⟨c, hy, rfl⟩

theorem free (hx : x ∉ locked) : Still locked m (m.free x) where
  calm drv := .free drv m x
  heap y hy := Memory.heap_free_of_ne fun e => hx (e ▸ hy)
  same {y c} hy := by
    by_cases hyx : y = x
    · subst hyx
      rw [Memory.heap_free_self] at hy
      cases hy
    · rw [Memory.heap_free_of_ne hyx] at hy
      exact ⟨c, hy, rfl⟩

theorem triggered (h : Still locked m m') (hy : m.triggered y = true)
    (hb : m'.heap y = some b') : m'.triggered y = true := by
  obtain ⟨b, hb₀, ht⟩ := h.same hb
  rw [Memory.triggered_of hb, ht, ← Memory.triggered_of hb₀]
  exact hy

end Still

/-- What dropping a handle does, where a quorum dropped has an address below the bound. -/
def Drops (d : Memory → EventId → Option Memory) (bound : Nat) : Prop :=
  ∀ g m x, Inv (g.hold x) m → g.Above x → (g.kind x = true → x < bound) →
    ∃ m', d m x = some m' ∧ Inv g m' ∧ Still g.locked m m'

/-! ## Culling the members of a quorum -/

variable {d : Memory → EventId → Option Memory}

/-- A quorum leaves a member: neither refers to the other, and there is a handle to drop. -/
theorem Inv.unlink (h : Inv g m) {c : Body} {kept rest : List EventId} (hne : x ≠ q)
    (hx : x ∉ g.locked) (hq : q ∈ g.locked) (hb : m.heap x = some b) (hc : m.heap q = some c)
    (ht : b.flags.triggered = false) (hmembers : c.members = kept ++ x :: rest) :
    Inv (g.hold x) ((m.set x (b.delist (.quorum q) b.flags)).set q
      { c with members := kept ++ backToFront rest }) := by
  have htidy := h.tidy hb hx
  have hdue : g.due x q = 0 := h.undue q ((Memory.triggered_of hb).trans ht)
  have hlinked := h.linked x q
  rw [Memory.listeners_of hb, Memory.members_of hc, hmembers, hdue] at hlinked
  have hcount : ∀ y, (kept ++ backToFront rest).count y = (kept ++ rest).count y := fun y => by
    rw [List.count_append, List.count_append, (backToFront_perm rest).count_eq]
  have hlisted : (swapErase (.quorum q) b.listeners).count (.quorum q) =
      b.listeners.count (.quorum q) - 1 := count_swapErase_self ..
  have hlock : b.flags.lock = true ↔ x ∈ g.locked := h.locked hb
  refine h.relink (b.delist (.quorum q) b.flags) { c with members := kept ++ backToFront rest }
    (g.hold x).held g.due ⟨hne, hb, hc, hq, rfl, rfl, rfl, rfl, hlock, fun _ => ?_, rfl, rfl, rfl,
      fun l hl => count_swapErase_of_ne hl _, fun y hy => ?_, fun y hy => ?_, ?_,
      fun _ _ _ => rfl, ?_, fun _ => hdue, fun e => ?_, fun y hy => ?_⟩
  · refine ⟨?_, htidy.emptyMembers, htidy.fired, htidy.used, htidy.wants⟩
    show (b.flags.empty || (swapErase (.quorum q) b.listeners).isEmpty) = _
    rw [htidy.empty]
    exact isEmpty_swapErase _ _
  · rw [hcount, hmembers, List.count_append, List.count_append,
      List.count_cons_of_ne fun e => hy e.symm]
  · show g.held y + (if y = x then 1 else 0) = g.held y
    rw [if_neg hy, Nat.add_zero]
  · show g.held x + (if x = x then 1 else 0) + _ = _
    rw [if_pos rfl, hcount, hmembers, List.count_append, List.count_append, List.count_cons_self]
    omega
  · show (swapErase (.quorum q) b.listeners).count (.quorum q) + g.due x q = _
    rw [hlisted, hdue, hcount, List.count_append]
    rw [List.count_append, List.count_cons_self] at hlinked
    omega
  · rw [ht] at e
    cases e
  · have hy : y ∈ m.members q := by
      rw [Memory.members_of hc, hmembers]
      rcases List.mem_append.1 hy with hy | hy
      · exact List.mem_append_left _ hy
      · exact List.mem_append_right _ (List.mem_cons_of_mem _ ((backToFront_perm rest).mem_iff.1 hy))
    exact h.below hy

theorem cullLoop_spec (hd : Drops d q) (hlocked : g.locked = q :: locked)
    (habove : ∀ y ∈ locked, g.kind y = true ∧ q < y) (hkind : g.kind q = true) :
    ∀ (n : Nat) (m : Memory) (kept todo : List EventId) (b : Body), Inv g m →
      m.heap q = some b → b.members = kept ++ todo → todo.length ≤ n →
      (∀ y ∈ kept, m.triggered y = true) →
      ∃ m', cullLoop d q n m kept todo = some m' ∧ Inv g m' ∧ Still locked m m' ∧
        ∃ members, m'.heap q = some { b with members } ∧
          (∀ y ∈ members, m'.triggered y = true) ∧ members.length ≤ b.members.length := by
  have hsub : ∀ y ∈ locked, y ∈ g.locked := fun y hy => by
    rw [hlocked]
    exact List.mem_cons_of_mem _ hy
  have hqlocked : q ∈ g.locked := by
    rw [hlocked]
    exact List.mem_cons_self
  intro n
  induction n with
  | zero =>
    intro m kept todo b h hb hmembers hlen hkept
    have hnil : todo = [] := List.eq_nil_of_length_eq_zero (Nat.le_zero.1 hlen)
    subst hnil
    refine ⟨m, rfl, h, .refl _ _, b.members, hb, fun y hy => hkept y ?_, Nat.le_refl _⟩
    rwa [hmembers, List.append_nil] at hy
  | succ n ih =>
    intro m kept todo b h hb hmembers hlen hkept
    cases todo with
    | nil =>
      refine ⟨m, rfl, h, .refl _ _, b.members, hb, fun y hy => hkept y ?_, Nat.le_refl _⟩
      rwa [hmembers, List.append_nil] at hy
    | cons x rest =>
      have hmem : x ∈ m.members q := by
        rw [Memory.members_of hb, hmembers]
        exact List.mem_append_right _ List.mem_cons_self
      have hbelow := (h.below hmem).2
      obtain ⟨c, hc, _⟩ := h.live_of_member hmem
      have hne : x ≠ q := fun e => by
        subst e
        exact Nat.lt_irrefl x (hbelow hkind)
      have hfree : x ∉ g.locked := fun hx => by
        rw [hlocked] at hx
        rcases List.mem_cons.1 hx with hx | hx
        · exact hne hx
        · obtain ⟨hk, hlt⟩ := habove x hx
          exact Nat.lt_irrefl x (Nat.lt_trans (hbelow hk) hlt)
      have hlock : c.flags.lock = false := Bool.eq_false_iff.2 fun e => hfree ((h.locked hc).1 e)
      cases ht : c.flags.triggered with
      | true =>
        have hlen' : rest.length ≤ n := Nat.le_of_succ_le_succ hlen
        have hmembers' : b.members = (kept ++ [x]) ++ rest := by rw [hmembers]; simp
        obtain ⟨m', hm', hrest⟩ := ih m (kept ++ [x]) rest b h hb hmembers' hlen' fun y hy => by
          rcases List.mem_append.1 hy with hy | hy
          · exact hkept y hy
          · rw [List.mem_singleton.1 hy, Memory.triggered_of hc]
            exact ht
        refine ⟨m', ?_, hrest⟩
        rw [← hm']
        simp [cullLoop, untriggeredLock_triggered hc ht, ht]
      | false =>
        have hunlink := h.unlink hne hfree hqlocked hc hb ht hmembers
        generalize hm₁ : (m.set x (c.delist (.quorum q) c.flags)).set q
          { b with members := kept ++ backToFront rest } = m₁ at hunlink
        have hq : (m.set x (c.delist (.quorum q) c.flags)).heap q = some b := by
          rw [Memory.heap_set_of_ne fun e => hne e.symm]
          exact hb
        have hstill : Still locked m m₁ := by
          rw [← hm₁]
          have hset : Still locked m (m.set x (c.delist (.quorum q) c.flags)) :=
            .set hc (fun hx => hfree (hsub x hx)) rfl
          exact hset.trans (.set hq (fun hq => Nat.lt_irrefl q (habove q hq).2) rfl)
        have hq₁ : m₁.heap q = some { b with members := kept ++ backToFront rest } := by
          rw [← hm₁]
          exact Memory.heap_set_self
        obtain ⟨m₂, hm₂, h₂, hstill₂⟩ := hd g m₁ x hunlink (fun y hy => by
          rw [hlocked] at hy
          rcases List.mem_cons.1 hy with rfl | hy
          · exact ⟨hkind, hbelow⟩
          · exact ⟨(habove y hy).1, fun hx => Nat.lt_trans (hbelow hx) (habove y hy).2⟩) hbelow
        have hq₂ : m₂.heap q = some { b with members := kept ++ backToFront rest } :=
          (hstill₂.heap q hqlocked).trans hq₁
        have hstill' : Still locked m m₂ := hstill.trans (hstill₂.mono hsub)
        have hlen' : (backToFront rest).length ≤ n := by
          rw [(backToFront_perm rest).length_eq]
          exact Nat.le_of_succ_le_succ hlen
        obtain ⟨m', hm', h', hstill'', members, hq', hfired, hshort⟩ :=
          ih m₂ kept (backToFront rest) _ h₂ hq₂ rfl hlen' fun y hy => by
            have hin : y ∈ m₂.members q := by
              rw [Memory.members_of hq₂]
              exact List.mem_append_left _ hy
            obtain ⟨c', hc', _⟩ := h₂.live_of_member hin
            exact hstill'.triggered (hkept y hy) hc'
        refine ⟨m', ?_, h', hstill'.trans hstill'', members, hq', hfired, ?_⟩
        · rw [← hm', cullLoop, untriggeredLock_eq hc ht hlock]
          simp [ht, removeListenerUnlock_eq Memory.heap_set_self, setMembers_eq hq, hm₁, hm₂]
        · refine Nat.le_trans hshort ?_
          rw [hmembers]
          simp [(backToFront_perm rest).length_eq]

theorem cullMembers_spec (hd : Drops d q) (hlocked : g.locked = q :: locked)
    (habove : ∀ y ∈ locked, g.kind y = true ∧ q < y) (hkind : g.kind q = true)
    (h : Inv g m) (hb : m.heap q = some b) (f : Flags) :
    ∃ m' members, cullMembers d m q f =
        some (if members.isEmpty then { f with emptyMembers := true } else f, m') ∧
      Inv g m' ∧ Still locked m m' ∧ m'.heap q = some { b with members } ∧
      (∀ y ∈ members, m'.triggered y = true) ∧ members.length ≤ b.members.length := by
  obtain ⟨m', hm', h', hstill, members, hq, hfired, hshort⟩ :=
    cullLoop_spec hd hlocked habove hkind b.members.length m [] b.members b h hb rfl
      (Nat.le_refl _) fun y hy => by cases hy
  refine ⟨m', members, ?_, h', hstill, hq, hfired, hshort⟩
  simp [cullMembers, hb, hm', hq]

/-! ## The handle -/

theorem delete_eq (hb : m.heap x = some b) (hmembers : b.members = []) :
    delete d m x = some (m.free x) := by
  simp [delete, hb, hmembers]

theorem Drops.mono {bound bound' : Nat} (h : Drops d bound) (hle : bound' ≤ bound) :
    Drops d bound' :=
  fun g m x hinv habove hx => h g m x hinv habove fun hk => Nat.lt_of_lt_of_le (hx hk) hle

theorem Calls.held_hold_pos : 0 < (g.hold x).held x := by
  show 0 < g.held x + if x = x then 1 else 0
  rw [if_pos rfl]
  exact Nat.succ_pos _

theorem Calls.Above.not_mem (h : g.Above x) : x ∉ g.locked := fun hx => by
  obtain ⟨hk, hlt⟩ := h x hx
  exact Nat.lt_irrefl x (hlt hk)

theorem Inv.unlocked (h : Inv g m) (hb : m.heap x = some b) (hx : x ∉ g.locked) :
    b.flags.lock = false := Bool.eq_false_iff.2 fun e => hx ((h.locked hb).1 e)

/-- A handle is gone that was counted, and it was not the last one or the body stays. -/
theorem Inv.uncount (h : Inv (g.hold x) m) (hb : m.heap x = some b) (hr : 0 < b.refcount)
    (htidy : Tidy m { b with refcount := b.refcount - 1 }) :
    Inv g (m.set x { b with refcount := b.refcount - 1 }) := by
  have hlock : b.flags.lock = true ↔ x ∈ g.locked := h.locked hb
  refine h.edit hb { b with refcount := b.refcount - 1 } g.held g.locked rfl rfl rfl rfl
    (fun y hy => ?_) ?_ (fun _ _ => Iff.rfl) hlock fun _ => htidy
  · show g.held y = g.held y + if y = x then 1 else 0
    rw [if_neg hy, Nat.add_zero]
  · show b.refcount - 1 + (g.held x + if x = x then 1 else 0) = b.refcount + g.held x
    rw [if_pos rfl]
    omega

/-! ## `hard_deref` -/

/-- The quorum after the decrement, which is made under its lock. -/
def Body.dereffed (b : Body) : Body :=
  { b with refcount := b.refcount - 1, flags := { b.flags with lock := true } }

theorem hardDeref_eq (hb : m.heap q = some b) (hlock : b.flags.lock = false)
    (hr : 0 < b.refcount) :
    hardDeref d m q =
      if b.refcount ≠ 1 then (m.set q b.dereffed).unlock q b.flags
      else if b.flags.triggered then
        if b.flags.emptyMembers then delete d (m.set q b.dereffed) q
        else (m.set q b.dereffed).unlock q b.flags
      else (cullMembers d (m.set q b.dereffed) q b.flags).bind fun fm =>
        if fm.1.emptyMembers then delete d fm.2 q else fm.2.unlock q fm.1 := by
  have hr' : 0 < ({ b with flags := { b.flags with lock := true } } : Body).refcount := hr
  have hderef : (m.set q { b with flags := { b.flags with lock := true } }).deref q =
      some (b.refcount, m.set q b.dereffed) := by
    rw [deref_eq Memory.heap_set_self hr', Memory.set_set]
    rfl
  rw [hardDeref, lock_eq hb hlock]
  simp only [Option.bind_eq_bind, Option.bind_some, hderef]

theorem unlock_dereffed : (m.set q b.dereffed).unlock q b.flags =
    some (m.set q { b with refcount := b.refcount - 1 }) := by
  rw [unlock_eq Memory.heap_set_self, Memory.set_set]
  rfl

theorem Inv.deref (h : Inv (g.hold q) m) (hb : m.heap q = some b) (hr : 0 < b.refcount) :
    Inv { g with locked := q :: g.locked } (m.set q b.dereffed) := by
  refine h.edit hb b.dereffed g.held (q :: g.locked) rfl rfl rfl rfl (fun y hy => ?_) ?_
    (fun y hy => ?_) ⟨fun _ => List.mem_cons_self, fun _ => rfl⟩
    fun hq => absurd List.mem_cons_self hq
  · show g.held y = g.held y + if y = q then 1 else 0
    rw [if_neg hy, Nat.add_zero]
  · show b.refcount - 1 + (g.held q + if q = q then 1 else 0) = b.refcount + g.held q
    rw [if_pos rfl]
    omega
  · rw [List.mem_cons]
    exact ⟨fun hy' => hy'.resolve_left hy, .inr⟩

/-- Another address is locked as before. -/
theorem mem_locked_of_ne (locked : List EventId) (y : EventId) (hy : y ≠ q) :
    y ∈ locked ↔ y ∈ q :: locked := by
  rw [List.mem_cons]
  exact ⟨.inr, fun hy' => hy'.resolve_left hy⟩

/-- Nobody refers to the quorum any more, and it has no members. -/
theorem Inv.deleteLast (h : Inv { g with locked := q :: g.locked } m) (hb : m.heap q = some b)
    (hmembers : b.members = []) (hrefs : b.refcount = 0) : Inv g (m.free q) := by
  refine h.delete hb hmembers g.held g.locked (fun _ _ => rfl) ?_ (mem_locked_of_ne g.locked)
  show g.held q = b.refcount + g.held q
  rw [hrefs, Nat.zero_add]

/-- The handle was not the last one. -/
theorem hardDeref_counted (h : Inv (g.hold q) m) (hb : m.heap q = some b) (hr : 1 < b.refcount)
    (hfree : q ∉ g.locked) :
    ∃ m', hardDeref d m q = some m' ∧ Inv g m' ∧ Still g.locked m m' := by
  have htidy : Tidy m b := h.tidy hb hfree
  have hpos : 0 < b.refcount := Nat.lt_trans Nat.zero_lt_one hr
  rw [hardDeref_eq hb (h.unlocked hb hfree) hpos, if_pos (Nat.ne_of_gt hr), unlock_dereffed]
  refine ⟨_, rfl, h.uncount hb hpos ?_, .set hb hfree rfl⟩
  refine ⟨htidy.empty, htidy.emptyMembers, fun ht => htidy.fired (.inl (ht.resolve_right ?_)),
    fun hz => ?_, htidy.wants⟩
  · show b.refcount - 1 ≠ 0
    omega
  · have hz : b.refcount - 1 = 0 := hz
    omega

/-- The last handle to a quorum that has triggered: its members have, too. -/
theorem hardDeref_triggered (h : Inv (g.hold q) m) (hb : m.heap q = some b)
    (hone : b.refcount = 1) (hfree : q ∉ g.locked) (hkind : g.kind q = true)
    (ht : b.flags.triggered = true) :
    ∃ m', hardDeref d m q = some m' ∧ Inv g m' ∧ Still g.locked m m' := by
  have htidy : Tidy m b := h.tidy hb hfree
  have hempty : b.flags.emptyMembers = b.members.isEmpty :=
    htidy.emptyMembers ((h.kind hb).trans hkind)
  have hr : 0 < b.refcount := by omega
  have hone' : ¬ b.refcount ≠ 1 := fun hne => hne hone
  rw [hardDeref_eq hb (h.unlocked hb hfree) hr, if_neg hone', if_pos ht]
  cases he : b.flags.emptyMembers with
  | true =>
    have hnil : b.dereffed.members = [] := List.isEmpty_iff.1 (hempty.symm.trans he)
    have hset : Still g.locked m (m.set q b.dereffed) := .set hb hfree rfl
    have hzero : b.refcount - 1 = 0 := by omega
    rw [if_pos rfl, delete_eq Memory.heap_set_self hnil]
    exact ⟨_, rfl, (h.deref hb hr).deleteLast Memory.heap_set_self hnil hzero,
      hset.trans (.free hfree)⟩
  | false =>
    rw [if_neg Bool.false_ne_true, unlock_dereffed]
    refine ⟨_, rfl, h.uncount hb hr ⟨htidy.empty, htidy.emptyMembers, fun _ => htidy.fired (.inl ht),
      fun _ hnil => ?_, htidy.wants⟩, .set hb hfree rfl⟩
    have hnil : b.members = [] := hnil
    rw [hempty, hnil] at he
    cases he

/-- The last handle to a quorum that goes on waiting: the members that have not triggered are
let go, and the others keep it. -/
theorem hardDeref_waiting (hd : Drops d q) (h : Inv (g.hold q) m) (habove : g.Above q)
    (hb : m.heap q = some b) (hone : b.refcount = 1) (hkind : g.kind q = true)
    (ht : b.flags.triggered = false) :
    ∃ m', hardDeref d m q = some m' ∧ Inv g m' ∧ Still g.locked m m' := by
  have hfree : q ∉ g.locked := habove.not_mem
  have htidy : Tidy m b := h.tidy hb hfree
  have hr : 0 < b.refcount := by omega
  have hzero : b.refcount - 1 = 0 := by omega
  have hone' : ¬ b.refcount ≠ 1 := fun hne => hne hone
  obtain ⟨m₁, members, hm₁, h₁, hstill₁, hb₁, hfired, hshort⟩ :=
    cullMembers_spec (g := { g with locked := q :: g.locked }) hd rfl
      (fun y hy => ⟨(habove y hy).1, (habove y hy).2 hkind⟩) hkind (h.deref hb hr)
      Memory.heap_set_self b.flags
  have hset : Still g.locked m (m.set q b.dereffed) := .set hb hfree rfl
  have hstill : Still g.locked m m₁ := hset.trans hstill₁
  rw [hardDeref_eq hb (h.unlocked hb hfree) hr, if_neg hone', ht, if_neg Bool.false_ne_true, hm₁,
    Option.bind_some]
  cases members with
  | nil =>
    refine ⟨m₁.free q, ?_, h₁.deleteLast hb₁ rfl hzero, hstill.trans (.free hfree)⟩
    simp [delete_eq hb₁]
  | cons y ys =>
    have hlong : b.members ≠ [] := fun hnil => by
      have hshort : ys.length + 1 ≤ b.members.length := hshort
      rw [hnil] at hshort
      cases hshort
    have he : b.flags.emptyMembers = false := by
      rw [htidy.emptyMembers ((h.kind hb).trans hkind)]
      exact Bool.eq_false_iff.2 fun e => hlong (List.isEmpty_iff.1 e)
    have hlock : b.flags.lock = true ↔ q ∈ g.locked := h.locked hb
    refine ⟨m₁.set q { b.dereffed with members := y :: ys, flags := b.flags }, ?_, ?_,
      hstill.trans (.set hb₁ hfree rfl)⟩
    · simp [he, unlock_eq hb₁]
    · exact h₁.edit hb₁ { b.dereffed with members := y :: ys, flags := b.flags } g.held g.locked
        rfl rfl rfl rfl (fun _ _ => rfl) rfl (mem_locked_of_ne g.locked) hlock
        fun _ => ⟨htidy.empty, fun _ => he, fun _ => hfired, (fun _ e => by cases e), htidy.wants⟩

theorem hardDeref_spec (hd : Drops d q) (h : Inv (g.hold q) m) (habove : g.Above q)
    (hkind : g.kind q = true) :
    ∃ m', hardDeref d m q = some m' ∧ Inv g m' ∧ Still g.locked m m' := by
  obtain ⟨b, hb, hr⟩ := h.live_of_held Calls.held_hold_pos
  have hfree : q ∉ g.locked := habove.not_mem
  by_cases hone : b.refcount = 1
  · cases ht : b.flags.triggered with
    | true => exact hardDeref_triggered h hb hone hfree hkind ht
    | false => exact hardDeref_waiting hd h habove hb hone hkind ht
  · have hmore : 1 < b.refcount := by omega
    exact hardDeref_counted h hb hmore hfree

/-! ## The last handle -/

/-- The last handle to a body without members frees it, another handle does not. -/
theorem drop_memberless (h : Inv (g.hold x) m) (habove : g.Above x) (hb : m.heap x = some b)
    (hr : 0 < b.refcount) (hf : (b.flags.quorum && !b.flags.emptyMembers) = false) (n : Nat) :
    ∃ m', drop (n + 1) m x = some m' ∧ Inv g m' ∧ Still g.locked m m' := by
  have hfree : x ∉ g.locked := habove.not_mem
  have htidy : Tidy m b := h.tidy hb hfree
  have hnil : b.members = [] := by
    cases hq : b.flags.quorum with
    | true =>
      rw [hq, Bool.true_and] at hf
      have he := htidy.emptyMembers hq
      have hempty : b.flags.emptyMembers = true := by simpa using hf
      exact List.isEmpty_iff.1 (he.symm.trans hempty)
    | false => exact h.members_nil_of_plain hb ((h.kind hb).symm.trans hq)
  have hstart : drop (n + 1) m x =
      if b.refcount ≠ 1 then some (m.set x { b with refcount := b.refcount - 1 })
      else delete (drop n) (m.set x { b with refcount := b.refcount - 1 }) x := by
    rw [drop, hb]
    simp only [Option.bind_eq_bind, Option.bind_some, hf, deref_eq hb hr]
    rfl
  rw [hstart]
  by_cases hone : b.refcount = 1
  · rw [if_neg fun hne => hne hone]
    refine ⟨m.free x, ?_, ?_, .free hfree⟩
    · have hnil' : ({ b with refcount := b.refcount - 1 } : Body).members = [] := hnil
      rw [delete_eq Memory.heap_set_self hnil', Memory.free_set]
    · refine h.delete hb hnil g.held g.locked (fun y hy => ?_) ?_ fun _ _ => Iff.rfl
      · show g.held y = g.held y + if y = x then 1 else 0
        rw [if_neg hy, Nat.add_zero]
      · show g.held x + (if x = x then 1 else 0) = b.refcount + g.held x
        rw [if_pos rfl]
        omega
  · rw [if_pos hone]
    refine ⟨_, rfl, h.uncount hb hr ⟨htidy.empty, htidy.emptyMembers, fun _ y hy => ?_,
      fun hz => ?_, htidy.wants⟩, .set hb hfree rfl⟩
    · have hy : y ∈ b.members := hy
      rw [hnil] at hy
      cases hy
    · have hz : b.refcount - 1 = 0 := hz
      omega

theorem drop_spec : ∀ n, Drops (drop (n + 1)) n := by
  intro n
  induction n with
  | zero =>
    intro g m x h habove hx
    obtain ⟨b, hb, hr⟩ := h.live_of_held Calls.held_hold_pos
    have hplain : b.flags.quorum = false := Bool.eq_false_iff.2 fun e =>
      Nat.not_lt_zero x (hx ((h.kind hb).symm.trans e))
    exact drop_memberless h habove hb hr (by rw [hplain]; rfl) 0
  | succ n ih =>
    intro g m x h habove hx
    obtain ⟨b, hb, hr⟩ := h.live_of_held Calls.held_hold_pos
    cases hf : b.flags.quorum && !b.flags.emptyMembers with
    | false => exact drop_memberless h habove hb hr hf (n + 1)
    | true =>
      have hkind : g.kind x = true := (h.kind hb).symm.trans (Bool.and_eq_true_iff.1 hf).1
      obtain ⟨m', hm', hrest⟩ :=
        hardDeref_spec (ih.mono (Nat.le_of_lt_succ (hx hkind))) h habove hkind
      refine ⟨m', ?_, hrest⟩
      rw [drop, hb, ← hm']
      simp only [Option.bind_eq_bind, Option.bind_some, hf, if_true]

theorem release_spec (h : Inv (g.hold x) m) (habove : g.Above x) :
    ∃ m', release m x = some m' ∧ Inv g m' ∧ Still g.locked m m' :=
  drop_spec m.size g m x h habove fun _ => by
    obtain ⟨b, hb, _⟩ := h.live_of_held Calls.held_hold_pos
    exact h.bound hb

theorem release_drops (bound : Nat) : Drops release bound :=
  fun _ _ _ h habove _ => release_spec h habove

end EventMemory
end Cotamer
end Psets
