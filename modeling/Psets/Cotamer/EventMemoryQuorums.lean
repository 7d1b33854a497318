/-
Quorums are made of older events, and given the interest event of a coroutine.
-/
import Psets.Cotamer.EventMemoryCalls

namespace Psets
namespace Cotamer
namespace EventMemory

open Containers
open Event (EventId CoroId DriverId Listener Scan scanListeners)

variable {m m' : Memory} {x y q : EventId} {b b' : Body} {g : Calls} {f : Flags}
variable (home : CoroId → DriverId) (current : DriverId)

/-- One more handle to each event of a list. -/
def Calls.holdAll (g : Calls) (xs : List EventId) : Calls :=
  { g with held := fun y => g.held y + xs.count y }

theorem Inv.holdAll_cons (x : EventId) (xs : List EventId) :
    Inv (g.holdAll (x :: xs)) m ↔ Inv ((g.holdAll xs).hold x) m := by
  have hheld : ∀ y, g.held y + (x :: xs).count y =
      g.held y + xs.count y + if y = x then 1 else 0 := fun y => by
    by_cases hy : y = x
    · rw [hy, List.count_cons_self, if_pos rfl, Nat.add_assoc]
    · rw [List.count_cons_of_ne fun e => hy e.symm, if_neg hy, Nat.add_zero]
  exact ⟨fun h => h.held_congr fun y => (hheld y).symm, fun h => h.held_congr hheld⟩

theorem Ready.with_inv {g' : Calls} (h : Ready g m x f b) (hinv : Inv g' m)
    (hlocked : g'.locked = [x]) : Ready g' m x f b :=
  ⟨hinv, h.heap, hlocked, h.triggered, h.quorum, h.lock, h.empty, h.emptyMembers, h.wants⟩

/-! ## Members -/

/-- The quorum counts a member that has triggered. -/
theorem Ready.tally (h : Ready g m q f b) (n : Nat) :
    Ready g (m.set q { b with count := n }) q f { b with count := n } := by
  have hlock : b.flags.lock = true ↔ q ∈ g.locked := h.inv.locked h.heap
  refine ⟨?_, Memory.heap_set_self, h.locked, h.triggered, h.quorum, h.lock, h.empty,
    h.emptyMembers, h.wants⟩
  refine h.inv.edit h.heap { b with count := n } g.held g.locked rfl rfl rfl rfl (fun _ _ => rfl) rfl
    (fun _ _ => Iff.rfl) hlock fun hfree => absurd ?_ hfree
  rw [h.locked]
  exact List.mem_cons_self

/-- The quorum is locked, and nothing else that has to be. -/
theorem Ready.above (h : Ready g m q f b) (hkind : g.kind q = true)
    (hlt : g.kind x = true → x < q) : g.Above x := fun y hy => by
  rw [h.locked, List.mem_singleton] at hy
  subst hy
  exact ⟨hkind, hlt⟩

theorem Ready.link (h : Ready (g.hold x) m q f b) {c : Body} (hkind : g.kind q = true)
    (hne : x ≠ q) (hlt : g.kind x = true → x < q) (hc : m.heap x = some c)
    (ht : c.flags.triggered = false) :
    Ready g ((m.set x { c with
          listeners := c.listeners ++ [.quorum q]
          flags := { c.flags with empty := false } }).set q { b with members := b.members ++ [x] }) q
      { f with wantInterest := f.wantInterest || c.flags.wantInterest, emptyMembers := false }
      { b with members := b.members ++ [x] } := by
  have hfree : x ∉ g.locked := by
    rw [show g.locked = [q] from h.locked, List.mem_singleton]
    exact hne
  have htidy := h.inv.tidy hc hfree
  have hlock : c.flags.lock = true ↔ x ∈ g.locked := h.inv.locked hc
  have hdue : g.due x q = 0 := h.inv.undue q ((Memory.triggered_of hc).trans ht)
  have hlinked := h.inv.linked x q
  rw [Memory.listeners_of hc, Memory.members_of h.heap,
    show (g.hold x).due x q = 0 from hdue] at hlinked
  have hqlocked : q ∈ g.locked := by
    rw [show g.locked = [q] from h.locked]
    exact List.mem_cons_self
  refine ⟨?_, Memory.heap_set_self, h.locked, h.triggered, h.quorum, h.lock, h.empty, fun _ => ?_,
    fun _ => h.quorum.trans ((h.inv.kind h.heap).trans hkind)⟩
  · refine h.inv.relink { c with
        listeners := c.listeners ++ [.quorum q]
        flags := { c.flags with empty := false } } { b with members := b.members ++ [x] } g.held g.due
      ⟨hne, hc, h.heap, hqlocked, rfl, rfl, rfl, rfl, hlock, fun _ => ⟨?_, htidy.emptyMembers,
        htidy.fired, htidy.used, htidy.wants⟩, rfl, rfl, rfl, fun l hl => ?_, fun y hy => ?_,
        fun y hy => ?_, ?_, fun _ _ _ => rfl, ?_, fun _ => hdue, fun e => ?_, fun y hy => ?_⟩
    · show false = (c.listeners ++ [Listener.quorum q]).isEmpty
      cases c.listeners <;> rfl
    · show (c.listeners ++ [Listener.quorum q]).count l = _
      rw [List.count_append, List.count_singleton, if_neg (by simpa using Ne.symm hl), Nat.add_zero]
    · show (b.members ++ [x]).count y = _
      rw [List.count_append, List.count_singleton, if_neg (by simpa using Ne.symm hy), Nat.add_zero]
    · show g.held y = g.held y + if y = x then 1 else 0
      rw [if_neg hy, Nat.add_zero]
    · show g.held x + (b.members ++ [x]).count x = g.held x + (if x = x then 1 else 0) + _
      rw [if_pos rfl, List.count_append, List.count_singleton, if_pos (by simp)]
      omega
    · show (c.listeners ++ [Listener.quorum q]).count (.quorum q) + g.due x q =
        (b.members ++ [x]).count x
      rw [hdue, List.count_append, List.count_append, List.count_singleton, List.count_singleton,
        if_pos (by simp), if_pos (by simp)]
      omega
    · rw [ht] at e
      cases e
    · rcases List.mem_append.1 hy with hy | hy
      · exact h.inv.below (by rwa [Memory.members_of h.heap])
      · rw [List.mem_singleton.1 hy]
        exact ⟨hkind, hlt⟩
  · show false = (b.members ++ [x]).isEmpty
    cases b.members <;> rfl

/-- `add_member` of an event whose handle is moved to the quorum. -/
theorem addEvent_spec (h : Ready (g.hold x) m q f b) (hkind : g.kind q = true) (hne : x ≠ q)
    (hlt : g.kind x = true → x < q) :
    ∃ f' m' b', addMember q (f, m) (.event x) = some (f', m') ∧ Ready g m' q f' b' ∧
      f'.triggered = f.triggered ∧ Calm none m m' := by
  obtain ⟨c, hc, _⟩ := h.inv.live_of_held Calls.held_hold_pos
  have hqx : q ≠ x := fun e => hne e.symm
  cases ht : c.flags.triggered with
  | true =>
    have htally := h.tally (b.count + 1)
    obtain ⟨m', hm', h', hstill⟩ := release_spec htally.inv (h.above (g := g.hold x) hkind hlt)
    have hb' : m'.heap q = some { b with count := b.count + 1 } := by
      rw [hstill.heap q (by rw [show g.locked = [q] from h.locked]; exact List.mem_cons_self)]
      exact Memory.heap_set_self
    refine ⟨f, m', _, ?_, ⟨h', hb', h.locked, h.triggered, h.quorum, h.lock, h.empty,
      h.emptyMembers, h.wants⟩, rfl, (Calm.set none m q _).trans (hstill.calm none)⟩
    simp [addMember, untriggeredLock_triggered hc ht, ht, h.heap, hm']
  | false =>
    have hfree : x ∉ (g.hold x).locked := by
      rw [h.locked, List.mem_singleton]
      exact hne
    have hlock := untriggeredLock_eq hc ht (h.inv.unlocked hc hfree)
    refine ⟨_, _, _, ?_, h.link hkind hne hlt hc ht, rfl,
      (Calm.set none m x _).trans (.set none _ q _)⟩
    have hq : ∀ c', (m.set x c').heap q = some b := fun c' => by
      rw [Memory.heap_set_of_ne hqx]
      exact h.heap
    rw [addMember, hlock]
    simp only [Option.bind_eq_bind, Option.bind_some, ht, Bool.false_eq_true, if_false,
      addListenerUnlock_eq Memory.heap_set_self (.quorum q) ht, Memory.set_set, hq]

theorem addMember_spec {e : Member} (h : Ready (g.holdAll e.event?.toList) m q f b)
    (hkind : g.kind q = true)
    (hmember : ∀ x, e.event? = some x → x ≠ q ∧ (g.kind x = true → x < q)) :
    ∃ f' m' b', addMember q (f, m) e = some (f', m') ∧ Ready g m' q f' b' ∧
      f'.triggered = f.triggered ∧ Calm none m m' := by
  have hnone : e.event? = none → Ready g m q f b := fun he => by
    refine h.with_inv (h.inv.held_congr fun y => ?_) h.locked
    show g.held y = g.held y + e.event?.toList.count y
    rw [he]
    rfl
  cases e with
  | null =>
    refine ⟨f, _, _, ?_, (hnone rfl).tally (b.count + 1), rfl, .set none m q _⟩
    simp [addMember, h.heap]
  | event x =>
    obtain ⟨hne, hlt⟩ := hmember x rfl
    refine addEvent_spec (h.with_inv (h.inv.held_congr fun y => ?_) h.locked) hkind hne hlt
    show g.held y + (if y = x then 1 else 0) = g.held y + [x].count y
    rw [List.count_singleton]
    by_cases hy : y = x
    · simp [hy]
    · simp [hy, Ne.symm hy]
  | interest =>
    refine ⟨_, m, b, rfl, ?_, rfl, .refl none m⟩
    have h := hnone rfl
    exact ⟨h.inv, h.heap, h.locked, h.triggered, h.quorum, h.lock, h.empty, h.emptyMembers,
      fun _ => h.quorum.trans ((h.inv.kind h.heap).trans hkind)⟩

theorem addMembers_spec (es : List Member)
    (h : Ready (g.holdAll (es.filterMap Member.event?)) m q f b)
    (hkind : g.kind q = true)
    (hmembers : ∀ x ∈ es.filterMap Member.event?, x ≠ q ∧ (g.kind x = true → x < q)) :
    ∃ f' m' b', es.foldlM (addMember q) (f, m) = some (f', m') ∧ Ready g m' q f' b' ∧
      f'.triggered = f.triggered ∧ Calm none m m' := by
  induction es generalizing m f b with
  | nil =>
    exact ⟨f, m, b, rfl, h.with_inv (h.inv.held_congr fun y => rfl) h.locked, rfl, .refl none m⟩
  | cons e es ih =>
    have hsplit : ∀ y, ((e :: es).filterMap Member.event?).count y =
        (es.filterMap Member.event?).count y + e.event?.toList.count y := fun y => by
      rw [List.filterMap_cons]
      cases he : e.event? with
      | none => rfl
      | some x =>
        rw [List.count_cons]
        show _ = _ + [x].count y
        rw [List.count_singleton]
    have hfirst :
        Ready ((g.holdAll (es.filterMap Member.event?)).holdAll e.event?.toList) m q f b := by
      refine h.with_inv (h.inv.held_congr fun y => ?_) h.locked
      show g.held y + _ + _ = g.held y + _
      rw [hsplit y]
      omega
    obtain ⟨f₁, m₁, b₁, hm₁, h₁, hf₁, hcalm₁⟩ := addMember_spec hfirst hkind fun x hx =>
      hmembers x (by rw [List.filterMap_cons, hx]; exact List.mem_cons_self)
    obtain ⟨f', m', b', hm', h', hf', hcalm'⟩ := ih h₁ fun x hx => hmembers x (by
      rw [List.filterMap_cons]
      split
      · exact hx
      · exact List.mem_cons_of_mem _ hx)
    refine ⟨f', m', b', ?_, h', hf'.trans hf₁, hcalm₁.trans hcalm'⟩
    rw [List.foldlM_cons, hm₁]
    exact hm'

/-! ## `make` -/

theorem makeQuorum_spec (es : List Member) (quorum : Nat)
    (h : Inv (g.holdAll (es.filterMap Member.event?)) m) (hlocked : g.locked = []) :
    ∃ m', makeQuorum home current m quorum es = some m' ∧
      Inv { (g.hold m.size) with kind := Function.update g.kind m.size true } m' ∧
      m'.coh = m.coh := by
  generalize hg' : ({ (g.hold m.size) with
    kind := Function.update g.kind m.size true, locked := [m.size] } : Calls) = g'
  have hbody : (newQuorum m quorum).heap m.size =
      some { flags := { initialFlags with lock := true }, quorum } := Memory.heap_set_self
  -- the new quorum is locked
  have hready : Ready (g'.holdAll (es.filterMap Member.event?)) (newQuorum m quorum) m.size
      initialFlags { flags := { initialFlags with lock := true }, quorum } := by
    refine ⟨?_, hbody, by rw [← hg']; rfl, rfl, rfl, rfl, rfl, fun _ => rfl, fun _ => rfl⟩
    have halloc := h.alloc { flags := { initialFlags with lock := true }, quorum } [m.size] rfl rfl
      rfl rfl (fun y hy => ?_)
      ⟨fun _ => List.mem_cons_self, fun _ => rfl⟩ fun hfree => absurd List.mem_cons_self hfree
    · rw [← hg']
      refine halloc.held_congr fun y => ?_
      show g.held y + (if y = m.size then 1 else 0) + _ = g.held y + _ + if y = m.size then 1 else 0
      omega
    · rw [show (g.holdAll (es.filterMap Member.event?)).locked = [] from hlocked, List.mem_singleton]
      exact ⟨(fun e => absurd e hy), fun e => by cases e⟩
  have hkind : g'.kind m.size = true := by
    rw [← hg']
    exact Function.update_self ..
  obtain ⟨f', m', b', hm', h', hf', hcalm⟩ := addMembers_spec es hready hkind fun x hx => by
    have hheld : 0 < (g.holdAll (es.filterMap Member.event?)).held x := by
      have hcount : 0 < (es.filterMap Member.event?).count x := List.count_pos_iff.2 hx
      exact Nat.lt_of_lt_of_le hcount (Nat.le_add_left _ _)
    obtain ⟨b, hb, _⟩ := h.live_of_held hheld
    exact ⟨Nat.ne_of_lt (h.bound hb), fun _ => h.bound hb⟩
  have hend : ({ g' with locked := [] } : Calls) =
      { (g.hold m.size) with kind := Function.update g.kind m.size true } := by
    rw [← hg', ← hlocked]
    rfl
  have hstart : makeQuorum home current m quorum es = sealQuorum home current m' m.size f' := by
    rw [makeQuorum, hm']
    rfl
  rw [hstart, sealQuorum, h'.heap]
  simp only [Option.bind_eq_bind, Option.bind_some]
  by_cases hfull : b'.quorum ≤ b'.count
  · rw [if_pos hfull]
    obtain ⟨m'', hm'', h'', hcalm'⟩ := h'.triggers home current none (.inl hkind)
    rw [hend] at h''
    exact ⟨m'', hm'', h'', (hcalm'.coh rfl).trans (hcalm.coh rfl)⟩
  · rw [if_neg hfull, unlock_eq h'.heap]
    have hheld : 0 < g'.held m.size := by
      rw [← hg']
      exact Calls.held_hold_pos
    have hunlock := h'.unlock hheld hf'
    rw [hend] at hunlock
    exact ⟨_, rfl, hunlock, hcalm.coh rfl⟩

/-! ## Interest -/

theorem addInterest_spec {ievent : EventId} (hplain : g.kind ievent = false)
    (hheld : 0 < g.held ievent) (hkind : g.kind q = true) :
    ∀ (n : Nat) (f : Flags) (m : Memory) (b : Body), Ready g m q f b →
      ∃ f' m' b', addInterest q ievent n f m = some (f', m') ∧ Ready g m' q f' b' ∧
        f'.triggered = f.triggered ∧ Calm none m m' := by
  have hne : ievent ≠ q := fun e => by
    rw [e, hkind] at hplain
    cases hplain
  intro n
  induction n with
  | zero => exact fun f m b h => ⟨f, m, b, rfl, h, rfl, .refl none m⟩
  | succ n ih =>
    intro f m b h
    obtain ⟨c, hc, hr⟩ := h.inv.live_of_held hheld
    have hq : (m.set ievent { c with refcount := c.refcount + 1 }).heap q = some b := by
      rw [Memory.heap_set_of_ne fun e => hne e.symm]
      exact h.heap
    have hready : Ready (g.hold ievent) (m.set ievent { c with refcount := c.refcount + 1 }) q
        { f with interest := n } b :=
      ⟨h.inv.count hc hr 1, hq, h.locked, h.triggered, h.quorum, h.lock, h.empty, h.emptyMembers,
        h.wants⟩
    obtain ⟨f₁, m₁, b₁, hm₁, h₁, hf₁, hcalm₁⟩ := addEvent_spec hready hkind hne fun hk => by
      rw [hplain] at hk
      cases hk
    obtain ⟨f', m', b', hm', h', hf', hcalm'⟩ := ih f₁ m₁ b₁ h₁
    refine ⟨f', m', b', ?_, h', hf'.trans hf₁,
      ((Calm.set none m ievent _).trans hcalm₁).trans hcalm'⟩
    rw [addInterest, ref_eq hc]
    simp only [Option.bind_eq_bind, Option.bind_some, hm₁]
    exact hm'

/-- The members who want interest are quorums. -/
theorem wantingMembers_spec (h : Inv g m) (hlocked : g.locked = [q]) (xs : List EventId)
    (hxs : ∀ x ∈ xs, x ∈ m.members q) :
    ∃ ws, wantingMembers m xs = some ws ∧
      ∀ x ∈ ws, x ∈ m.members q ∧ g.kind x = true ∧ x < q := by
  induction xs with
  | nil => exact ⟨[], rfl, fun x hx => by cases hx⟩
  | cons x xs ih =>
    obtain ⟨ws, hws, hquorums⟩ := ih fun y hy => hxs y (List.mem_cons_of_mem _ hy)
    have hmem := hxs x List.mem_cons_self
    obtain ⟨b, hb, _⟩ := h.live_of_member hmem
    rw [wantingMembers, hb, hws]
    simp only [Option.bind_eq_bind, Option.bind_some]
    cases hw : b.flags.wantInterest with
    | false => exact ⟨ws, rfl, hquorums⟩
    | true =>
      refine ⟨x :: ws, rfl, fun y hy => ?_⟩
      rcases List.mem_cons.1 hy with rfl | hy
      · obtain ⟨hkind, hlt⟩ := h.below hmem
        have hfree : y ∉ g.locked := fun hy => by
          rw [hlocked, List.mem_singleton] at hy
          subst hy
          exact Nat.lt_irrefl y (hlt hkind)
        have hy := (h.kind hb).symm.trans ((h.tidy hb hfree).wants hw)
        exact ⟨hmem, hy, hlt hy⟩
      · exact hquorums y hy

/-- The handles of the members are copied. -/
theorem refAll_spec (ws : List EventId) (h : Ready g m q f b)
    (hws : ∀ x ∈ ws, x ∈ b.members ∧ x < q) :
    ∃ m', ws.foldlM (fun m x => m.ref x 1) m = some m' ∧ Ready (g.holdAll ws) m' q f b ∧
      Calm none m m' := by
  induction ws generalizing m g with
  | nil => exact ⟨m, rfl, h.with_inv (h.inv.held_congr fun _ => rfl) h.locked, .refl none m⟩
  | cons x ws ih =>
    obtain ⟨hmem, hlt⟩ := hws x List.mem_cons_self
    obtain ⟨c, hc, hr⟩ := h.inv.live_of_member (x := x) (q := q) (by
      rw [Memory.members_of h.heap]
      exact hmem)
    have hq : (m.set x { c with refcount := c.refcount + 1 }).heap q = some b := by
      rw [Memory.heap_set_of_ne (Nat.ne_of_gt hlt)]
      exact h.heap
    have hready : Ready (g.hold x) (m.set x { c with refcount := c.refcount + 1 }) q f b :=
      ⟨h.inv.count hc hr 1, hq, h.locked, h.triggered, h.quorum, h.lock, h.empty, h.emptyMembers,
        h.wants⟩
    obtain ⟨m', hm', h', hcalm'⟩ := ih hready fun y hy => hws y (List.mem_cons_of_mem _ hy)
    refine ⟨m', ?_, ?_, (Calm.set none m x _).trans hcalm'⟩
    · rw [List.foldlM_cons, ref_eq hc]
      exact hm'
    · refine h'.with_inv ((Inv.holdAll_cons x ws).2 (h'.inv.held_congr fun y => ?_)) h.locked
      show g.held y + ws.count y + (if y = x then 1 else 0) =
        g.held y + (if y = x then 1 else 0) + ws.count y
      omega

theorem releaseAll_spec (ws : List EventId) (h : Inv (g.holdAll ws) m) (hlocked : g.locked = []) :
    ∃ m', ws.foldlM release m = some m' ∧ Inv g m' ∧ Calm none m m' := by
  induction ws generalizing m with
  | nil => exact ⟨m, rfl, h.held_congr fun _ => rfl, .refl none m⟩
  | cons x ws ih =>
    obtain ⟨m₁, hm₁, h₁, hstill⟩ := release_spec ((Inv.holdAll_cons x ws).1 h) fun y hy => by
      rw [show (g.holdAll ws).locked = [] from hlocked] at hy
      cases hy
    obtain ⟨m', hm', h', hcalm'⟩ := ih h₁
    refine ⟨m', ?_, h', (hstill.calm none).trans hcalm'⟩
    rw [List.foldlM_cons, hm₁]
    exact hm'

theorem fixWantInterest_spec {ievent : EventId} :
    ∀ (n : Nat) (g : Calls) (m : Memory) (q : EventId), Inv g m → g.locked = [] →
      g.kind ievent = false → 0 < g.held ievent → g.kind q = true → 0 < g.held q → q < n →
      ∃ m', fixWantInterest home current ievent n m q = some m' ∧ Inv g m' ∧ Calm none m m' := by
  intro n
  induction n with
  | zero => exact fun _ _ _ _ _ _ _ _ _ hq => absurd hq (Nat.not_lt_zero _)
  | succ n ih =>
    intro g m q h hlocked hplain hheldi hkind hheld hn
    obtain ⟨b, hb, _⟩ := h.live_of_held hheld
    have hfree : q ∉ g.locked := by
      rw [hlocked]
      exact List.not_mem_nil
    have hg : ({ g with locked := [] } : Calls) = g := by rw [← hlocked]
    have hquorum : b.flags.quorum = true := (h.kind hb).trans hkind
    have htidy := h.tidy hb hfree
    have hlock := lockQuorum_eq hb (h.unlocked hb hfree) hquorum
    generalize hf : ({ b.flags with wantInterest := false } : Flags) = f
    have hinterest : f.interest = b.flags.interest := by rw [← hf]
    cases ht : b.flags.triggered with
    | true =>
      have hlock' : b.flags.lock = true ↔ q ∈ g.locked := h.locked hb
      refine ⟨m.set q { b with flags := f }, ?_, ?_, .set none m q _⟩
      · rw [fixWantInterest, hlock]
        simp [ht, unlock_eq Memory.heap_set_self, ← hf]
      · rw [← hf]
        exact h.edit hb { b with flags := { b.flags with wantInterest := false } } g.held g.locked rfl
          rfl rfl rfl (fun _ _ => rfl) rfl (fun _ _ => Iff.rfl) hlock' fun _ => ⟨htidy.empty,
          htidy.emptyMembers, htidy.fired, htidy.used, fun e => by cases e⟩
    | false =>
      have hready₀ := h.ready hlocked hb ht
      generalize hb₀ : ({ b with flags := { b.flags with lock := true } } : Body) = b₀
        at hlock hready₀
      have hready : Ready { g with locked := [q] } (m.set q b₀) q f b₀ := by
        rw [← hf]
        exact ⟨hready₀.inv, hready₀.heap, rfl, hready₀.triggered, hready₀.quorum, hready₀.lock,
          hready₀.empty, hready₀.emptyMembers, fun e => by cases e⟩
      have hft : f.triggered = false := by
        rw [← hf]
        exact ht
      obtain ⟨f₁, m₁, b₁, hm₁, h₁, hf₁, hcalm₁⟩ :=
        addInterest_spec (q := q) (g := { g with locked := [q] }) hplain hheldi hkind f.interest f _ _
          hready
      have hcalm₁' : Calm none m m₁ := (Calm.set none m q b₀).trans hcalm₁
      have hstart : fixWantInterest home current ievent (n + 1) m q =
          if b₁.quorum ≤ b₁.count then triggerUnlock home current none (depth m₁) m₁ q f₁
          else (wantingMembers m₁ b₁.members).bind fun ws =>
            (ws.foldlM (fun (m : Memory) x => m.ref x 1) m₁).bind fun m =>
              (m.unlock q f₁).bind fun m =>
                (ws.foldlM (fixWantInterest home current ievent n) m).bind fun m =>
                  ws.foldlM release m := by
        rw [fixWantInterest, hlock]
        simp only [Option.bind_eq_bind, Option.bind_some, hf]
        rw [← hinterest, hm₁, Option.bind_some, h₁.heap, Option.bind_some]
        simp [ht]
      rw [hstart]
      by_cases hfull : b₁.quorum ≤ b₁.count
      · rw [if_pos hfull]
        obtain ⟨m', hm', h', hcalm'⟩ := h₁.triggers home current none (.inl hkind)
        rw [show ({ ({ g with locked := [q] } : Calls) with locked := [] } : Calls) = g from hg] at h'
        exact ⟨m', hm', h', hcalm₁'.trans hcalm'⟩
      · rw [if_neg hfull]
        obtain ⟨ws, hws, hwanting⟩ := wantingMembers_spec h₁.inv h₁.locked b₁.members fun x hx => by
          rw [Memory.members_of h₁.heap]
          exact hx
        rw [Memory.members_of h₁.heap] at hwanting
        obtain ⟨m₂, hm₂, h₂, hcalm₂⟩ := refAll_spec ws h₁ fun x hx =>
          ⟨(hwanting x hx).1, (hwanting x hx).2.2⟩
        have h₃ := h₂.unlock (Nat.lt_of_lt_of_le hheld (Nat.le_add_right _ _)) (hf₁.trans hft)
        have hfix : ∀ (xs : List EventId) (m : Memory), (∀ x ∈ xs, x ∈ ws) →
            Inv ({ g with locked := [] }.holdAll ws) m →
            ∃ m', xs.foldlM (fixWantInterest home current ievent n) m = some m' ∧
              Inv ({ g with locked := [] }.holdAll ws) m' ∧ Calm none m m' := by
          intro xs
          induction xs with
          | nil => exact fun m _ h => ⟨m, rfl, h, .refl none m⟩
          | cons x xs ihx =>
            intro m hsub h
            have hx := hsub x List.mem_cons_self
            obtain ⟨_, hkx, hlx⟩ := hwanting x hx
            have hcount : 0 < ws.count x := List.count_pos_iff.2 hx
            obtain ⟨m₁, hm₁, h₁, hcalm₁⟩ := ih _ m x h rfl hplain
              (Nat.lt_of_lt_of_le hheldi (Nat.le_add_right _ _)) hkx
              (Nat.lt_of_lt_of_le hcount (Nat.le_add_left _ _))
              (Nat.lt_of_lt_of_le hlx (Nat.le_of_lt_succ hn))
            obtain ⟨m', hm', h', hcalm'⟩ := ihx m₁ (fun y hy => hsub y (List.mem_cons_of_mem _ hy)) h₁
            refine ⟨m', ?_, h', hcalm₁.trans hcalm'⟩
            rw [List.foldlM_cons, hm₁]
            exact hm'
        obtain ⟨m₄, hm₄, h₄, hcalm₄⟩ := hfix ws _ (fun _ hx => hx) h₃
        obtain ⟨m', hm', h', hcalm'⟩ := releaseAll_spec ws h₄ rfl
        rw [hg] at h'
        refine ⟨m', ?_, h', ?_⟩
        · rw [hws, Option.bind_some, hm₂, Option.bind_some, unlock_eq h₂.heap, Option.bind_some, hm₄,
            Option.bind_some, hm']
        · exact hcalm₁'.trans (hcalm₂.trans ((Calm.set none m₂ q _).trans (hcalm₄.trans hcalm')))

end EventMemory
end Cotamer
end Psets
