/-
A file descriptor that gets another body.

`watch` closes the file for the old body and registers the new one.  `fd_close` returns
nothing while the old body is open, and the result is taken for granted.
-/
import Psets.Cotamer.FdBody
import Psets.Cotamer.FdEventRefinement

namespace Psets
namespace Cotamer
namespace FdEvents

open Transition Containers

/-! ## What is on the lists of a set -/

namespace FdEventSet

/-- The slots from a link on. -/
def chain (s : FdEventSet) : Nat → Nat → List Nat
  | 0, _ => []
  | _ + 1, 0 => []
  | rounds + 1, wix + 1 => (wix + 1) :: s.chain rounds (s.wlink (wix + 1))

def slotsOf (s : FdEventSet) (ufd : Nat) : List Nat := s.chain s.ws.length (s.fdr ufd).whead

def freeSlots (s : FdEventSet) : List Nat := s.chain s.ws.length s.freeWlink

/-- The watches of a file, in their order. -/
def watchesOf (s : FdEventSet) (ufd : Nat) : List Watch := (s.slotsOf ufd).filterMap s.watch?

/-! ## The bodies -/

/-- The bodies whose `fileno()` is negative, of those that are registered. -/
def closedBodies (s : FdEventSet) (bodies : Nat → FdBody) : List Nat :=
  (s.fdrs.filterMap Fdrec.body).filter fun b => (bodies b).fd = none

/-- What `drv` does to the bodies. -/
def act (drv : Nat) (bodies : Nat → FdBody) : Effect → Nat → FdBody
  | .addListener b => Function.update bodies b ((bodies b).addListener drv)
  | .removeListener b => Function.update bodies b ((bodies b).removeListener drv).1
  | .trigger _ => bodies
  | .setUserFlags _ _ => bodies

/-- `watch`, with the bodies that it reads and changes. -/
def watchBodies (s : FdEventSet) (bodies : Nat → FdBody) (fd : Int32) (mask : Fdevent)
    (body ev drv : Nat) : Option (FdEventSet × (Nat → FdBody) × List Effect) :=
  (s.watch fd mask body ev (s.closedBodies bodies)).map fun (t, effects) =>
    (t, effects.foldl (act drv) bodies, effects)

end FdEventSet

/-- The file has left `old` for `body`. -/
structure Rebound (s : FdEventSet) (bodies : Nat → FdBody) (ufd : Nat) (mask : Fdevent)
    (old body ev drv : Nat) (t : FdEventSet) (bodies' : Nat → FdBody)
    (effects : List Effect) : Prop where
  triggered : effects =
    WatchMap.triggers (s.watchesOf ufd) ++ [.removeListener old, .addListener body]
  freed : ∀ wix ∈ s.slotsOf ufd, wix ∈ t.freeSlots ∨ t.slotsOf ufd = [wix]
  only : t.watchesOf ufd = [⟨ev, mask⟩]
  bound : (t.fdr ufd).body = some body
  epoch : (t.fdr ufd).epoch = nextEpoch (s.fdr ufd).epoch
  removed : (bodies' old).drivers.Perm ((bodies old).drivers.erase drv)
  added : (bodies' body).drivers = (bodies body).drivers ++ [drv]

/-! ## The lists are those that are held -/

variable {s t : FdEventSet} {heads : Nat → Nat} {f : Place → List Nat} {g : Place → List Watch}
  {ufd : Nat}

theorem chain_eq {mem : Cell → Nat} {v rounds : Nat} {ls : List Nat}
    (h : slotCells.Linked mem v ls) (hmem : ∀ l, mem (.wlink l) = s.wlink l)
    (hrounds : ls.length ≤ rounds) : s.chain rounds v = ls := by
  induction ls generalizing v rounds with
  | nil =>
    obtain rfl : v = 0 := h
    cases rounds <;> rfl
  | cons l ls ih =>
    obtain ⟨rfl, hne, hls⟩ := h
    obtain ⟨i, rfl⟩ := Nat.exists_eq_succ_of_ne_zero hne
    obtain _ | rounds := rounds
    · exact absurd hrounds (Nat.not_succ_le_zero _)
    · have hlink : mem (slotCells.node (i + 1)) = s.wlink (i + 1) := hmem _
      rw [hlink] at hls
      rw [FdEventSet.chain, ih hls (Nat.le_of_succ_le_succ hrounds)]

theorem Held.slotsOf (h : Held s heads f g []) (ufd : Nat) : s.slotsOf ufd = f (.watch ufd) :=
  chain_eq (h.layout.linked (.watch ufd)) (fun _ => rfl) (h.length_le _)

theorem Held.freeSlots (h : Held s heads f g []) : s.freeSlots = f .free :=
  chain_eq (h.layout.linked .free) (fun _ => rfl) (h.length_le _)

theorem Held.watchesOf (h : Held s heads f g []) (ufd : Nat) :
    s.watchesOf ufd = g (.watch ufd) := by
  have hshown := h.shown (.watch ufd) (Place.watch_ne ufd)
  have hmap : (f (.watch ufd)).filterMap s.watch? =
      ((f (.watch ufd)).map s.watch?).filterMap id := by
    rw [List.filterMap_map]
    rfl
  rw [FdEventSet.watchesOf, h.slotsOf, hmap, hshown, List.filterMap_map]
  exact List.filterMap_some

/-- The record of a file changes, and its list does not. -/
theorem Held.modFdr (h : Held s heads f g []) (hufd : ufd < s.fdrs.length)
    {k : Fdrec → Fdrec} (hk : ∀ r, (k r).whead = r.whead) :
    Held (s.modFdr ufd k) heads f g [] := by
  refine h.congr (FdEventSet.mem_congr rfl (fun u => ?_) rfl) rfl (FdEventSet.watch?_congr rfl)
  rw [FdEventSet.fdr_modFdr hufd]
  split
  · exact hk _
  · rfl

theorem Held.queueUpdate (h : Held s heads f g []) (hufd : ufd < s.fdrs.length) :
    ∃ t, s.queueUpdate ufd = some t ∧ Held t heads f g [] ∧ t.fdrs.length = s.fdrs.length ∧
      t.ws.length = s.ws.length ∧ ∀ u, ∃ l, t.fdr u = { s.fdr u with updateLink := l } := by
  obtain ⟨r, hr⟩ := FdEventSet.fdr?_eq_some_iff.2 hufd
  unfold FdEventSet.queueUpdate
  by_cases hclean : r.updateLink = linkClean
  · refine ⟨{ s.modFdr ufd (fun r => { r with updateLink := s.updateLink }) with
      updateLink := ufd + 1 }, by simp [hr, hclean], ?_, FdEventSet.modFdr_length, rfl,
      Tracks.fdr_setLink hufd⟩
    have hlink := h.modFdr hufd (k := fun r => { r with updateLink := s.updateLink }) fun _ => rfl
    exact hlink.congr (FdEventSet.mem_congr rfl (fun _ => rfl) rfl) rfl
      (FdEventSet.watch?_congr rfl)
  · exact ⟨s, by simp [hr, hclean], h, rfl, rfl, fun u => ⟨(s.fdr u).updateLink, rfl⟩⟩

/-! ## Closing and watching -/

theorem closeLoop_length {rounds : Nat} {effects : List Effect}
    (h : FdEventSet.closeLoop ufd rounds s = some (t, effects)) : t.ws.length = s.ws.length := by
  induction rounds generalizing s effects with
  | zero => cases h
  | succ rounds ih =>
    rw [FdEventSet.closeLoop, Option.bind_eq_bind, Option.bind_eq_some_iff] at h
    obtain ⟨r, _, h⟩ := h
    by_cases hclean : r.whead = linkClean
    · rw [if_pos hclean] at h
      rw [(Prod.mk.inj (Option.some.inj h)).1]
    · rw [if_neg hclean, Option.bind_eq_bind, Option.bind_eq_some_iff] at h
      obtain ⟨wr, _, h⟩ := h
      rw [Option.bind_eq_bind, Option.bind_eq_some_iff] at h
      obtain ⟨ev, _, h⟩ := h
      simp only [Option.bind_eq_bind, Option.bind_eq_some_iff, Option.some.injEq,
        Prod.mk.injEq, Prod.exists] at h
      obtain ⟨t', effects', hloop, rfl, _⟩ := h
      rw [ih hloop]
      exact FdEventSet.modWr_length

/-- The file is closed for a body that is closed. -/
theorem Held.fdClose (h : Held s heads f g []) {fd : Int32} {old : Nat} {closed : List Nat}
    (hold : (s.fdr (unsigned fd)).body = some old) (hclosed : old ∈ closed) :
    ∃ t f', s.fdClose fd closed = some (t, WatchMap.triggers (g (.watch (unsigned fd))),
        some (old, (s.fdr (unsigned fd)).epoch)) ∧
      Held t heads f' (Function.update g (.watch (unsigned fd)) []) [] ∧
      (∀ p, p ≠ .free → p ≠ .watch (unsigned fd) → f' p = f p) ∧
      unsigned fd < t.fdrs.length ∧ t.ws.length = s.ws.length ∧
      (t.fdr (unsigned fd)).epoch = nextEpoch (s.fdr (unsigned fd)).epoch ∧
      (t.fdr (unsigned fd)).wtail = linkClean := by
  have hr := FdEventSet.fdr?_of_body hold
  have hufd := FdEventSet.fdr?_eq_some_iff.1 ⟨_, hr⟩
  obtain ⟨t₁, f₁, hloop, h₁, hf₁, htouch⟩ :=
    h.closeLoop hufd (Nat.lt_succ_of_le (h.length_le (.watch (unsigned fd))))
  have hlen₁ := closeLoop_length hloop
  obtain ⟨whead, wtail, hself⟩ := htouch.self
  have hufd₁ : unsigned fd < t₁.fdrs.length := by
    rw [htouch.length]
    exact hufd
  have h₂ := h₁.modFdr hufd₁ (k := fun r => { r with wtail := linkClean }) fun _ => rfl
  have hfdr₂ := FdEventSet.fdr_modFdr (g := fun r => { r with wtail := linkClean }) hufd₁
    (unsigned fd)
  generalize hs₂ : (t₁.modFdr (unsigned fd) fun r => { r with wtail := linkClean }) = t₂
    at h₂ hfdr₂
  have hufd₂ : unsigned fd < t₂.fdrs.length := by
    rw [← hs₂, FdEventSet.modFdr_length]
    exact hufd₁
  have h₃ := h₂.modFdr hufd₂ (k := fun r => { r with epoch := nextEpoch r.epoch }) fun _ => rfl
  have hfdr₃ := FdEventSet.fdr_modFdr (g := fun r => { r with epoch := nextEpoch r.epoch }) hufd₂
    (unsigned fd)
  generalize hs₃ : (t₂.modFdr (unsigned fd) fun r => { r with epoch := nextEpoch r.epoch }) = t₃
    at h₃ hfdr₃
  have hufd₃ : unsigned fd < t₃.fdrs.length := by
    rw [← hs₃, FdEventSet.modFdr_length]
    exact hufd₂
  obtain ⟨t₄, hqueue, h₄, hlen₄, hws₄, hfdr₄⟩ := h₃.queueUpdate hufd₃
  obtain ⟨link, hlink⟩ := hfdr₄ (unsigned fd)
  have hufd₄ : unsigned fd < t₄.fdrs.length := by
    rw [hlen₄]
    exact hufd₃
  have h₅ := h₄.modFdr hufd₄ (k := fun r => { r with body := none }) fun _ => rfl
  have hfdr₅ := FdEventSet.fdr_modFdr (g := fun r => { r with body := none }) hufd₄
    (unsigned fd)
  rw [if_pos rfl, hlink, hfdr₃, if_pos rfl, hfdr₂, if_pos rfl, hself] at hfdr₅
  refine ⟨_, f₁, ?_, h₅, hf₁, ?_, ?_, ?_, ?_⟩
  · unfold FdEventSet.fdClose
    simp only [hr, hold, if_pos hclosed, hloop, hs₂, hs₃, hqueue, Option.bind_eq_bind,
      Option.bind_some]
  · rw [FdEventSet.modFdr_length]
    exact hufd₄
  · show t₄.ws.length = s.ws.length
    rw [hws₄, ← hs₃, ← hs₂]
    exact hlen₁
  · rw [hfdr₅]
  · rw [hfdr₅]

/-- The old body is closed: the file is closed for it and registered for the new one. -/
theorem Held.register (h : Held s heads f g []) {fd : Int32} {old body : Nat}
    {closed : List Nat} (hold : (s.fdr (unsigned fd)).body = some old) (hne : old ≠ body)
    (hclosed : old ∈ closed) :
    ∃ t f', s.register fd body closed = some (t, WatchMap.triggers (g (.watch (unsigned fd))) ++
        [.removeListener old, .addListener body]) ∧
      Held t heads f' (Function.update g (.watch (unsigned fd)) []) [] ∧
      (∀ p, p ≠ .free → p ≠ .watch (unsigned fd) → f' p = f p) ∧
      unsigned fd < t.fdrs.length ∧ t.ws.length = s.ws.length ∧
      (t.fdr (unsigned fd)).body = some body ∧
      (t.fdr (unsigned fd)).epoch = nextEpoch (s.fdr (unsigned fd)).epoch ∧
      (t.fdr (unsigned fd)).wtail = linkClean := by
  have hr := FdEventSet.fdr?_of_body hold
  have hother : ¬ some old = some body := fun he => hne (Option.some.inj he)
  obtain ⟨t₁, f₁, hclose, h₁, hf₁, hufd₁, hws₁, hepoch₁, hwtail₁⟩ := h.fdClose hold hclosed
  have hfdr := FdEventSet.fdr_modFdr (g := fun r => { r with body := some body }) hufd₁
    (unsigned fd)
  rw [if_pos rfl] at hfdr
  refine ⟨t₁.modFdr (unsigned fd) fun r => { r with body := some body }, f₁, ?_,
    h₁.modFdr hufd₁ fun _ => rfl, hf₁, ?_, hws₁, ?_, ?_, ?_⟩
  · unfold FdEventSet.register
    simp only [hr, hold, if_neg hother, hclose, Option.bind_eq_bind, Option.bind_some]
  · rwa [FdEventSet.modFdr_length]
  · rw [hfdr]
  · rw [hfdr]
    exact hepoch₁
  · rw [hfdr]
    exact hwtail₁

theorem newSlot_length {mask : Fdevent} {l : Nat} (h : s.newSlot mask = some (t, l)) :
    s.ws.length ≤ t.ws.length := by
  rw [FdEventSet.newSlot] at h
  by_cases hfree : s.freeWlink ≠ 0
  · rw [if_pos hfree, Option.bind_eq_bind, Option.bind_eq_some_iff] at h
    obtain ⟨wr, _, h⟩ := h
    rw [← (Prod.mk.inj (Option.some.inj h)).1]
    exact Nat.le_of_eq FdEventSet.modWr_length.symm
  · rw [if_neg hfree] at h
    rw [← (Prod.mk.inj (Option.some.inj h)).1, List.length_append]
    exact Nat.le_add_right _ _

theorem appendSlot_length {l : Nat} (h : s.appendSlot ufd l = some t) :
    t.ws.length = s.ws.length := by
  rw [FdEventSet.appendSlot, Option.bind_eq_bind, Option.bind_eq_some_iff] at h
  obtain ⟨r, _, h⟩ := h
  by_cases hhead : r.whead ≠ 0
  · rw [if_pos hhead, Option.bind_eq_bind, Option.bind_eq_some_iff] at h
    obtain ⟨wr, _, h⟩ := h
    rw [← Option.some.inj h]
    exact FdEventSet.modWr_length
  · rw [if_neg hhead] at h
    rw [← Option.some.inj h]
    rfl

/-- What `watch` does to the lists when the old body is closed. -/
theorem Held.rebind (h : Held s heads f g []) {fd : Int32} {mask : Fdevent} {old body : Nat}
    {closed : List Nat} (hskip : ¬ (fd < 0 ∨ mask = Fdevent.none))
    (hold : (s.fdr (unsigned fd)).body = some old) (hne : old ≠ body) (hclosed : old ∈ closed)
    (ev : Nat) :
    ∃ t f' l, s.watch fd mask body ev closed = some (t,
        WatchMap.triggers (g (.watch (unsigned fd))) ++
          [.removeListener old, .addListener body]) ∧
      Held t heads f' (Function.update g (.watch (unsigned fd)) [⟨ev, mask⟩]) [] ∧
      (∀ p, p ≠ .free → p ≠ .watch (unsigned fd) → f' p = f p) ∧
      f' (.watch (unsigned fd)) = [l] ∧ s.ws.length ≤ t.ws.length ∧
      (t.fdr (unsigned fd)).body = some body ∧
      (t.fdr (unsigned fd)).epoch = nextEpoch (s.fdr (unsigned fd)).epoch := by
  have hr := FdEventSet.fdr?_of_body hold
  have hufd := FdEventSet.fdr?_eq_some_iff.1 ⟨_, hr⟩
  obtain ⟨t₁, f₁, hregister, h₁, hf₁, hufd₁, hws₁, hbody₁, hepoch₁, hwtail₁⟩ :=
    h.register hold hne hclosed
  obtain ⟨t₂, hqueue, h₂, hlen₂, hws₂, hfdr₂⟩ := h₁.queueUpdate hufd₁
  obtain ⟨link, hlink⟩ := hfdr₂ (unsigned fd)
  obtain ⟨t₃, l, f₃, ev₀, hnew, h₃, hf₃, hwr, hfdrs₃, -⟩ := h₂.newSlot mask
  have hufd₃ : unsigned fd < t₃.fdrs.length := by
    rw [hfdrs₃, hlen₂]
    exact hufd₁
  have hfdr₃ := congrFun (FdEventSet.fdr_congr hfdrs₃) (unsigned fd)
  -- the list of the file is empty now
  have hnil : f₃ (.watch (unsigned fd)) = [] := by
    refine (h₃.eq_nil (Place.watch_ne _)).2 ?_
    exact Function.update_self ..
  have htail : (t₃.fdr (unsigned fd)).wtail = lastLink (f₃ (.watch (unsigned fd))) := by
    rw [hnil, hfdr₃, hlink]
    exact hwtail₁
  obtain ⟨t₄, happend, h₄, htouch, -⟩ := h₃.append hwr hufd₃ htail ev
  obtain ⟨whead, wtail, hself⟩ := htouch.self
  rw [hfdr₃, hlink] at hself
  have hlist : Function.update f₃ (.watch (unsigned fd)) (f₃ (.watch (unsigned fd)) ++ [l])
      (.watch (unsigned fd)) = [l] := by
    rw [Function.update_self, hnil]
    rfl
  have hcontent : Function.update
      (Function.update g (.watch (unsigned fd)) []) (.watch (unsigned fd))
      (Function.update g (.watch (unsigned fd)) [] (.watch (unsigned fd)) ++ [⟨ev, mask⟩]) =
      Function.update g (.watch (unsigned fd)) [⟨ev, mask⟩] := by
    rw [Function.update_self, Function.update_idem]
    rfl
  rw [hcontent] at h₄
  refine ⟨_, _, l, ?_, h₄, fun p hfree hp => ?_, hlist, ?_, ?_, ?_⟩
  · have hsmall : ¬ unsigned fd ≥ s.fdrs.length := Nat.not_le.2 hufd
    unfold FdEventSet.watch
    simp only [if_neg hskip, if_neg hsmall, hregister, hqueue, hnew, happend,
      Option.bind_eq_bind, Option.bind_some]
  · rw [Function.update_of_ne hp, hf₃ p hfree]
    exact hf₁ p hfree hp
  · rw [FdEventSet.modWr_length, appendSlot_length happend, ← hws₁, ← hws₂]
    exact newSlot_length hnew
  · rw [hself]
    exact hbody₁
  · rw [hself]
    exact hepoch₁

/-! ## Reachable sets -/

/-- A set that calls have made is in the state of a map. -/
theorem reachable_inStep {s : Session} (h : machine.Reachable s) : ∃ a, InStep s a := by
  refine Machine.Reachable.invariant (M := machine) (P := fun s => ∃ a, InStep s a)
    (fun s hs => ?_) (fun s l t hs hstep => ?_) h
  · have hinit : s = {} := hs
    rw [hinit]
    exact ⟨{}, InStep.start⟩
  · obtain ⟨a, ha⟩ := hs
    have hrel := ha.step l
    have hstep' : s.step l = some t := hstep
    rw [hstep'] at hrel
    generalize a.step l = y at hrel
    cases hrel with
    | some hnext => exact ⟨_, hnext⟩

theorem foldl_triggers (drv : Nat) (bodies : Nat → FdBody) (ws : List Watch) :
    (WatchMap.triggers ws).foldl (FdEventSet.act drv) bodies = bodies := by
  induction ws with
  | nil => rfl
  | cons w ws ih => exact ih

theorem mem_closedBodies {bodies : Nat → FdBody} {old : Nat}
    (hold : (s.fdr ufd).body = some old) :
    old ∈ s.closedBodies bodies ↔ (bodies old).fd = none := by
  rw [FdEventSet.closedBodies, List.mem_filter, decide_eq_true_eq]
  refine and_iff_right (List.mem_filterMap.2 ⟨s.fdr ufd, ?_, hold⟩)
  have hr := FdEventSet.fdr?_of_body hold
  exact List.mem_of_getElem? hr

/-- The old body is open: `watch` dereferences what `fd_close` has not returned. -/
theorem watch_undefined {fd : Int32} {mask : Fdevent} {old body : Nat} {closed : List Nat}
    (hskip : ¬ (fd < 0 ∨ mask = Fdevent.none))
    (hold : (s.fdr (unsigned fd)).body = some old) (hne : old ≠ body) (hopen : old ∉ closed)
    (ev : Nat) : s.watch fd mask body ev closed = none := by
  have hr := FdEventSet.fdr?_of_body hold
  have hsmall : ¬ unsigned fd ≥ s.fdrs.length :=
    Nat.not_le.2 (FdEventSet.fdr?_eq_some_iff.1 ⟨_, hr⟩)
  have hother : ¬ some old = some body := fun he => hne (Option.some.inj he)
  unfold FdEventSet.watch FdEventSet.register FdEventSet.fdClose
  simp only [if_neg hskip, if_neg hsmall, hr, hold, if_neg hother, if_neg hopen,
    Option.bind_eq_bind, Option.bind_some, Option.bind_none]

/-- A file gets another body as it should exactly when the old one is closed. -/
theorem rebinding_iff {s : Session} (h : machine.Reachable s) (bodies : Nat → FdBody)
    {fd : Int32} {mask : Fdevent} {old body : Nat} (ev drv : Nat) (hfd : ¬ fd < 0)
    (hmask : mask ≠ Fdevent.none) (hold : (s.set.fdr (unsigned fd)).body = some old)
    (hne : old ≠ body) :
    (∃ t bodies' effects,
      s.set.watchBodies bodies fd mask body ev drv = some (t, bodies', effects) ∧
        Rebound s.set bodies (unsigned fd) mask old body ev drv t bodies' effects) ↔
      (bodies old).fd = none := by
  have hskip : ¬ (fd < 0 ∨ mask = Fdevent.none) := not_or.2 ⟨hfd, hmask⟩
  have hclosed : old ∈ s.set.closedBodies bodies ↔ (bodies old).fd = none := mem_closedBodies hold
  constructor
  · rintro ⟨t, bodies', effects, hwatch, -⟩
    by_contra hopen
    rw [FdEventSet.watchBodies, watch_undefined hskip hold hne (mt hclosed.1 hopen) ev] at hwatch
    cases hwatch
  · intro hnone
    obtain ⟨a, ha⟩ := reachable_inStep h
    obtain ⟨f, hf, -⟩ := ha.tracks.slots
    obtain ⟨t, f', l, hwatch, ht, hframe, hlist, hlen, hbody, hepoch⟩ :=
      hf.rebind hskip hold hne (hclosed.2 hnone) ev
    refine ⟨t, _, _, by rw [FdEventSet.watchBodies, hwatch]; rfl, ?_⟩
    have hact : (WatchMap.triggers (content a.map a.lists (.watch (unsigned fd))) ++
        [Effect.removeListener old, Effect.addListener body]).foldl (FdEventSet.act drv) bodies =
        Function.update (Function.update bodies old ((bodies old).removeListener drv).1) body
          ((bodies body).addListener drv) := by
      rw [List.foldl_append, foldl_triggers]
      simp only [List.foldl_cons, List.foldl_nil, FdEventSet.act]
      rw [Function.update_of_ne (Ne.symm hne)]
    refine ⟨?_, fun wix hwix => ?_, ?_, hbody, hepoch, ?_, ?_⟩
    · rw [hf.watchesOf]
    · -- the slot is on one list, and on no other than before
      rw [hf.slotsOf] at hwix
      have hslot := (hf.slots wix).2 (.inr ⟨_, hwix⟩)
      rw [ht.freeSlots, ht.slotsOf]
      rcases (ht.slots wix).1 ⟨hslot.1, Nat.le_trans hslot.2 hlen⟩ with hloose | ⟨p, hp⟩
      · cases hloose
      · by_cases hfree : p = .free
        · rw [hfree] at hp
          exact Or.inl hp
        · by_cases hwatched : p = .watch (unsigned fd)
          · rw [hwatched, hlist, List.mem_singleton] at hp
            rw [hlist, hp]
            exact Or.inr rfl
          · rw [hframe p hfree hwatched] at hp
            exact absurd (hf.layout.disjoint _ _ _ hp hwix) hwatched
    · rw [ht.watchesOf, Function.update_self]
    · rw [hact, Function.update_of_ne hne, Function.update_self]
      have hdrivers : ((bodies old).removeListener drv).1.drivers =
          swapErase drv (bodies old).drivers := by
        rw [FdBody.removeListener]
        split <;> rfl
      rw [hdrivers]
      exact swapErase_perm drv _
    · rw [hact, Function.update_self]
      rfl

/-- Two bodies for file 3, of which driver 0 listens to the first. -/
def twoBodies (fd : Option Nat) : Nat → FdBody
  | 7 => { fd, baseFd := some 3, drivers := [0] }
  | _ => { fd := some 3, baseFd := some 3 }

theorem openEnd_reachable : machine.Reachable openEnd :=
  .of_get rfl (by decide)

/-- The body that is registered has been closed, and the file has been opened again. -/
theorem rebinding_iff_openEnd :
    (openEnd.set.fdr (unsigned 3)).body = some 7 ∧ (twoBodies none 7).fd = none ∧
    ∃ t bodies' effects,
      openEnd.set.watchBodies (twoBodies none) 3 Fdevent.read 8 200 0 =
          some (t, bodies', effects) ∧
        Rebound openEnd.set (twoBodies none) (unsigned 3) Fdevent.read 7 8 200 0 t bodies'
          effects :=
  ⟨by decide, rfl, (rebinding_iff openEnd_reachable (twoBodies none) 200 0 (by decide)
    (by decide) (by decide) (by decide)).2 rfl⟩

/-- With both bodies open, the second `watch` has no result. -/
theorem openEnd_not_rebound :
    (twoBodies (some 3) 7).fd = some 3 ∧ (twoBodies (some 3) 8).fd = some 3 ∧
    ¬ ∀ (s : Session) (bodies : Nat → FdBody) (fd : Int32) (mask : Fdevent)
        (old body ev drv : Nat), machine.Reachable s → ¬ fd < 0 → mask ≠ Fdevent.none →
      (s.set.fdr (unsigned fd)).body = some old → old ≠ body →
      ∃ t bodies' effects,
        s.set.watchBodies bodies fd mask body ev drv = some (t, bodies', effects) ∧
          Rebound s.set bodies (unsigned fd) mask old body ev drv t bodies' effects := by
  refine ⟨rfl, rfl, fun h => ?_⟩
  obtain ⟨t, bodies', effects, hwatch, -⟩ := h openEnd (twoBodies (some 3)) 3 Fdevent.read 7 8
    200 0 openEnd_reachable (by decide) (by decide) (by decide) (by decide)
  have hold : (openEnd.set.fdr (unsigned 3)).body = some 7 := by decide
  have hopen : 7 ∉ openEnd.set.closedBodies (twoBodies (some 3)) := by decide
  have hskip : ¬ ((3 : Int32) < 0 ∨ Fdevent.read = Fdevent.none) := by decide
  have hnone := watch_undefined hskip hold (show 7 ≠ 8 by decide) hopen 200
  rw [FdEventSet.watchBodies, hnone] at hwatch
  cases hwatch

end FdEvents
end Cotamer
end Psets
