/-
The slots of an `fd_event_set`.

Each slot is on the free list, on the list of one file or on one of the lists that callers
hold; between two statements of `watch` a slot is on none of them.  Every loop of the set
moves slots between the lists.
-/
import Psets.Cotamer.FdEventCells

namespace Psets
namespace Cotamer
namespace FdEvents

/-! ## Where the slots are -/

/-- The slots of the list `f p` hold the watches `g p`, and a slot is in one list only or
is loose. -/
structure Held (s : FdEventSet) (heads : Nat → Nat) (f : Place → List Nat)
    (g : Place → List Watch) (loose : List Nat) : Prop where
  layout : Cells.Layout slotCells (s.mem heads) f
  slots : ∀ l, (0 < l ∧ l ≤ s.ws.length) ↔ l ∈ loose ∨ ∃ p, l ∈ f p
  unused : ∀ l ∈ loose, ∀ p, l ∉ f p
  shown : ∀ p, p ≠ .free → (f p).map s.watch? = (g p).map some

variable {s t : FdEventSet} {heads : Nat → Nat} {f : Place → List Nat} {g : Place → List Watch}
  {loose : List Nat}

theorem Held.congr (h : Held s heads f g loose) (hmem : t.mem heads = s.mem heads)
    (hlen : t.ws.length = s.ws.length) (hwatch : t.watch? = s.watch?) :
    Held t heads f g loose := by
  refine ⟨?_, ?_, h.unused, ?_⟩
  · rw [hmem]
    exact h.layout
  · rw [hlen]
    exact h.slots
  · rw [hwatch]
    exact h.shown

theorem Held.wr? (h : Held s heads f g loose) {p : Place} {l : Nat} (hl : l ∈ f p) :
    ∃ wr, s.wr? l = some wr :=
  FdEventSet.wr?_eq_some_iff.2 ((h.slots l).2 (.inr ⟨p, hl⟩))

theorem Held.ne_zero (h : Held s heads f g loose) {p : Place} {l : Nat} (hl : l ∈ f p) :
    l ≠ 0 :=
  Nat.ne_of_gt ((h.slots l).2 (.inr ⟨p, hl⟩)).1

/-- A loop over a list ends within as many rounds as there are slots. -/
theorem Held.length_le (h : Held s heads f g loose) (p : Place) :
    (f p).length ≤ s.ws.length := by
  have hsub : f p ⊆ List.range' 1 s.ws.length := by
    intro l hl
    obtain ⟨hpos, hle⟩ := (h.slots l).2 (.inr ⟨p, hl⟩)
    rw [List.mem_range'_1]
    omega
  have hle := (h.layout.nodup p).length_le_of_subset hsub
  rwa [List.length_range'] at hle

/-- The first slot of a list and its watch. -/
theorem Held.first (h : Held s heads f g loose) {p : Place} (hp : p ≠ .free) {l : Nat}
    {ls : List Nat} (hf : f p = l :: ls) :
    ∃ wr w rest, s.wr? l = some wr ∧ wr.ev = some w.ev ∧ wr.mask = w.mask ∧ g p = w :: rest ∧
      ls.map s.watch? = rest.map some := by
  obtain ⟨wr, hwr⟩ := h.wr? (p := p) (l := l) (by rw [hf]; exact List.mem_cons_self)
  have hshown := h.shown p hp
  rw [hf] at hshown
  rcases hg : g p with _ | ⟨w, rest⟩
  · rw [hg] at hshown
    cases hshown
  · rw [hg, List.map_cons, List.map_cons] at hshown
    obtain ⟨hw, hrest⟩ := List.cons.inj hshown
    rw [FdEventSet.watch?, hwr, Option.bind_some] at hw
    obtain ⟨ev, hev, rfl⟩ := Option.map_eq_some_iff.1 hw
    exact ⟨wr, _, rest, hwr, hev, rfl, rfl, hrest⟩

theorem FdEventSet.mem_freeSlot {wr : Watchrec} {l : Nat} (hwr : s.wr? l = some wr) :
    (s.freeSlot l).mem heads =
      Function.update (Function.update (s.mem heads) (.wlink l) s.freeWlink) .free l := by
  rw [FdEventSet.freeSlot, FdEventSet.mem_setFree, FdEventSet.mem_modWr hwr]

theorem FdEventSet.watch?_freeSlot {l l' : Nat} (h : l' ≠ l) :
    (s.freeSlot l).watch? l' = s.watch? l' := by
  have hws : (s.freeSlot l).watch? = (s.modWr l _).watch? := FdEventSet.watch?_congr rfl
  rw [hws, FdEventSet.watch?_modWr_of_ne h]

/-- A list changes together with its watches. -/
theorem shown_update {w? : Nat → Option Watch} {p q : Place} {ls : List Nat} {ws : List Watch}
    (hp : ls.map w? = ws.map some) (hq : q ≠ p → (f q).map w? = (g q).map some) :
    (Function.update f p ls q).map w? = (Function.update g p ws q).map some := by
  by_cases hqp : q = p
  · rw [hqp, Function.update_self, Function.update_self]
    exact hp
  · rw [Function.update_of_ne hqp, Function.update_of_ne hqp]
    exact hq hqp

/-- The first slot of a list, which its root has let go, becomes the first free one. -/
theorem Held.release (h : Held s heads f g []) {p : Place} (hp : p ≠ .free) {l : Nat}
    {ls : List Nat} (hf : f p = l :: ls) {w : Watch} {rest : List Watch} (hg : g p = w :: rest)
    {heads' : Nat → Nat}
    (hmem : t.mem heads' = Function.update (s.mem heads) p.root (s.wlink l))
    (hws : t.ws = s.ws) :
    Held (t.freeSlot l) heads' (Function.update (Function.update f p ls) .free (l :: f .free))
      (Function.update g p rest) [] := by
  have hlp : l ∈ f p := by
    rw [hf]
    exact List.mem_cons_self
  obtain ⟨wr, hwr⟩ := h.wr? hlp
  have hwr' : t.wr? l = some wr := by
    rw [FdEventSet.wr?_congr hws]
    exact hwr
  have hfree : t.freeWlink = s.freeWlink := by
    have hcell : t.mem heads' .free = s.mem heads .free := by
      rw [hmem]
      exact Function.update_of_ne (fun he => hp (slotCells.root_injective he).symm) ..
    exact hcell
  have hstay : Function.update f p ls .free = f .free := Function.update_of_ne hp.symm ..
  have hpop := h.layout.pop hf
  have hgone := h.layout.popped hf
  have hpush := hpop.push (i := .free) hgone (h.ne_zero hlp)
  have hcells : (t.freeSlot l).mem heads' =
      Function.update (Function.update (t.mem heads') (.wlink l) (t.mem heads' .free)) .free l :=
    FdEventSet.mem_freeSlot hwr'
  have hplaces : ∀ q, q ≠ .free →
      Function.update (Function.update f p ls) .free (l :: f .free) q = Function.update f p ls q :=
    fun q hq => Function.update_of_ne hq ..
  refine ⟨?_, fun a => ?_, nofun, fun q hq => ?_⟩
  · rw [hcells, hmem, ← hstay]
    exact hpush
  · rw [FdEventSet.freeSlot, FdEventSet.modWr_length, hws, h.slots a]
    have hpushed : (∃ q, a ∈ Function.update (Function.update f p ls) .free (l :: f .free) q) ↔
        a = l ∨ ∃ q, a ∈ Function.update f p ls q :=
      Cells.Layout.exists_mem_update (by rw [hstay, List.mem_cons])
    rw [hpushed, Cells.Layout.exists_mem_of_pop hf]
  · rw [hplaces q hq]
    have hwatch : ∀ a ∈ Function.update f p ls q, (t.freeSlot l).watch? a = s.watch? a := by
      intro a ha
      have hne : a ≠ l := fun he => hgone q (he ▸ ha)
      rw [FdEventSet.watch?_freeSlot hne, FdEventSet.watch?_congr hws]
    rw [List.map_congr_left hwatch]
    obtain ⟨_, w', rest', _, _, _, hg', hrest⟩ := h.first hp hf
    rw [hg] at hg'
    obtain ⟨_, rfl⟩ := List.cons.inj hg'
    exact shown_update hrest fun _ => h.shown q hq

theorem Held.eq_nil (h : Held s heads f g loose) {p : Place} (hp : p ≠ .free) :
    f p = [] ↔ g p = [] := by
  have hshown := h.shown p hp
  constructor
  · intro hf
    rw [hf] at hshown
    exact List.map_eq_nil_iff.1 hshown.symm
  · intro hg
    rw [hg] at hshown
    exact List.map_eq_nil_iff.1 hshown

theorem FdEventSet.wlink_of_wr? {l : Nat} {wr : Watchrec} (h : s.wr? l = some wr) :
    s.wlink l = wr.wlink := by
  rw [FdEventSet.wlink, h]
  rfl

/-- Of the records, only the list of `ufd` changes. -/
structure Touches (ufd : Nat) (s t : FdEventSet) : Prop where
  updateLink : t.updateLink = s.updateLink
  length : t.fdrs.length = s.fdrs.length
  other : ∀ u, u ≠ ufd → t.fdr u = s.fdr u
  self : ∃ whead wtail, t.fdr ufd = { s.fdr ufd with whead, wtail }

namespace Touches

variable {ufd : Nat} {u : FdEventSet}

theorem refl : Touches ufd s s := ⟨rfl, rfl, fun _ _ => rfl, _, _, rfl⟩

theorem trans (h : Touches ufd s t) (h' : Touches ufd t u) : Touches ufd s u := by
  obtain ⟨whead, wtail, ht⟩ := h.self
  obtain ⟨whead', wtail', hu⟩ := h'.self
  refine ⟨h'.updateLink.trans h.updateLink, h'.length.trans h.length,
    fun a ha => (h'.other a ha).trans (h.other a ha), whead', wtail', ?_⟩
  rw [hu, ht]

theorem of_fdrs (hfdrs : t.fdrs = s.fdrs) (hlink : t.updateLink = s.updateLink) :
    Touches ufd s t := by
  refine ⟨hlink, congrArg _ hfdrs, fun a _ => ?_, (s.fdr ufd).whead, (s.fdr ufd).wtail, ?_⟩
  · rw [FdEventSet.fdr_congr hfdrs]
  · rw [FdEventSet.fdr_congr hfdrs]

theorem modWr {wix : Nat} {g : Watchrec → Watchrec} : Touches ufd s (s.modWr wix g) :=
  of_fdrs FdEventSet.modWr_fdrs FdEventSet.modWr_updateLink

theorem freeSlot {l : Nat} : Touches ufd s (s.freeSlot l) :=
  modWr.trans (of_fdrs rfl rfl)

theorem modFdr (hufd : ufd < s.fdrs.length) {g : Fdrec → Fdrec}
    (hg : ∃ whead wtail, g (s.fdr ufd) = { s.fdr ufd with whead, wtail }) :
    Touches ufd s (s.modFdr ufd g) := by
  refine ⟨rfl, FdEventSet.modFdr_length, fun a ha => ?_, ?_⟩
  · rw [FdEventSet.fdr_modFdr hufd, if_neg ha]
  · rw [FdEventSet.fdr_modFdr hufd, if_pos rfl]
    exact hg

end Touches

/-! ## Closing -/

/-- The watches of the file are triggered in order, and their slots become free. -/
theorem Held.closeLoop (h : Held s heads f g []) {ufd rounds : Nat}
    (hufd : ufd < s.fdrs.length) (hrounds : (f (.watch ufd)).length < rounds) :
    ∃ t f', FdEventSet.closeLoop ufd rounds s =
        some (t, WatchMap.triggers (g (.watch ufd))) ∧
      Held t heads f' (Function.update g (.watch ufd) []) [] ∧
      (∀ p, p ≠ .free → p ≠ .watch ufd → f' p = f p) ∧ Touches ufd s t := by
  induction rounds generalizing s f g with
  | zero => exact absurd hrounds (Nat.not_lt_zero _)
  | succ rounds ih =>
    obtain ⟨r, hr⟩ := FdEventSet.fdr?_eq_some_iff.2 hufd
    have hwhead : s.mem heads (slotCells.root (.watch ufd)) = r.whead :=
      congrArg Fdrec.whead (FdEventSet.fdr_of_fdr? hr)
    unfold FdEventSet.closeLoop
    rcases hf : f (.watch ufd) with _ | ⟨l, ls⟩
    · have hzero : r.whead = linkClean := hwhead.symm.trans (h.layout.eq_nil_iff.1 hf)
      have hg := (h.eq_nil (Place.watch_ne ufd)).1 hf
      refine ⟨s, f, ?_, ?_, fun _ _ _ => rfl, Touches.refl⟩
      · simp [hr, hzero, hg, WatchMap.triggers]
      · rw [← hg, Function.update_eq_self]
        exact h
    · have hl : r.whead = l := hwhead.symm.trans (h.layout.head hf)
      have hlne : l ≠ linkClean := by
        refine h.ne_zero (p := .watch ufd) ?_
        rw [hf]
        exact List.mem_cons_self
      obtain ⟨wr, w, rest, hwr, hev, -, hg, -⟩ := h.first (Place.watch_ne ufd) hf
      have hmem : (s.modFdr ufd fun r => { r with whead := wr.wlink }).mem heads =
          Function.update (s.mem heads) (Place.watch ufd).root (s.wlink l) := by
        rw [FdEventSet.mem_modFdr hufd, FdEventSet.wlink_of_wr? hwr]
        rfl
      have hstep := h.release (Place.watch_ne ufd) hf hg hmem rfl
      have htouch : Touches ufd s
          ((s.modFdr ufd fun r => { r with whead := wr.wlink }).freeSlot l) :=
        (Touches.modFdr hufd ⟨wr.wlink, (s.fdr ufd).wtail, rfl⟩).trans Touches.freeSlot
      have hlen : ((Function.update (Function.update f (.watch ufd) ls) .free (l :: f .free))
          (Place.watch ufd)).length < rounds := by
        rw [Function.update_of_ne (Place.watch_ne ufd), Function.update_self]
        rw [hf] at hrounds
        exact Nat.lt_of_succ_lt_succ hrounds
      obtain ⟨t, f', hloop, ht, hf', htouch'⟩ :=
        ih hstep (by rw [htouch.length]; exact hufd) hlen
      refine ⟨t, f', ?_, ?_, fun p hp hpw => ?_, htouch.trans htouch'⟩
      · rw [Function.update_self] at hloop
        simp [hr, hl, hlne, hwr, hev, hloop, hg, WatchMap.triggers]
      · rwa [Function.update_idem] at ht
      · rw [hf' p hp hpw, Function.update_of_ne hp, Function.update_of_ne hpw]

/-! ## Watching -/

theorem FdEventSet.wr?_push {x : Watchrec} (hws : t.ws = s.ws ++ [x]) (a : Nat) :
    t.wr? a = if a = s.ws.length + 1 then some x else s.wr? a := by
  cases a with
  | zero => rfl
  | succ i =>
    rw [FdEventSet.wr?, FdEventSet.wr?, hws]
    by_cases hi : i = s.ws.length
    · rw [hi, if_pos rfl, List.getElem?_concat_length]
    · rw [if_neg fun he => hi (Nat.succ.inj he)]
      rcases Nat.lt_or_gt_of_ne hi with hlt | hgt
      · rw [List.getElem?_append_left hlt]
      · rw [List.getElem?_eq_none (by rw [List.length_append]; exact hgt),
          List.getElem?_eq_none (Nat.le_of_lt hgt)]

/-- The vector grows by a slot. -/
theorem Held.push (h : Held s heads f g []) {x : Watchrec} (hx : x.wlink = linkClean)
    (hws : t.ws = s.ws ++ [x]) (hfree : t.freeWlink = s.freeWlink) (hfdrs : t.fdrs = s.fdrs) :
    Held t heads f g [s.ws.length + 1] := by
  have hout : ∀ p, s.ws.length + 1 ∉ f p := by
    intro p hp
    exact Nat.not_succ_le_self _ ((h.slots _).2 (.inr ⟨p, hp⟩)).2
  have hmem : t.mem heads = s.mem heads := by
    funext c
    cases c with
    | free => exact hfree
    | whead u => exact congrArg Fdrec.whead (congrFun (FdEventSet.fdr_congr hfdrs) u)
    | list i => rfl
    | wlink a =>
      show t.wlink a = s.wlink a
      rw [FdEventSet.wlink, FdEventSet.wr?_push hws, FdEventSet.wlink]
      by_cases ha : a = s.ws.length + 1
      · have hnone : s.wr? a = none := by
          rw [ha]
          exact List.getElem?_eq_none (Nat.le_refl _)
        rw [if_pos ha, hnone]
        exact hx
      · rw [if_neg ha]
  refine ⟨?_, fun a => ?_, fun a ha p => ?_, fun p hp => ?_⟩
  · rw [hmem]
    exact h.layout
  · have hslots := h.slots a
    simp only [List.not_mem_nil, false_or] at hslots
    rw [← hslots, hws, List.length_append, List.length_singleton, List.mem_singleton]
    omega
  · rw [List.mem_singleton.1 ha]
    exact hout p
  · have hwatch : ∀ a ∈ f p, t.watch? a = s.watch? a := by
      intro a ha
      have hne : a ≠ s.ws.length + 1 := fun he => hout p (he ▸ ha)
      rw [FdEventSet.watch?, FdEventSet.wr?_push hws, if_neg hne, FdEventSet.watch?]
    rw [List.map_congr_left hwatch]
    exact h.shown p hp

/-- The first free slot is taken off its list. -/
theorem Held.reuse (h : Held s heads f g []) {l : Nat} {ls : List Nat} (hf : f .free = l :: ls)
    {wr : Watchrec} (hwr : s.wr? l = some wr) {k : Watchrec → Watchrec}
    (hclean : (k wr).wlink = linkClean) (ht : t = { s.modWr l k with freeWlink := wr.wlink }) :
    Held t heads (Function.update f .free ls) g [l] := by
  subst ht
  have hgone := h.layout.popped hf
  have hwatch : ∀ p, ∀ a ∈ Function.update f .free ls p,
      { s.modWr l k with freeWlink := wr.wlink }.watch? a = s.watch? a := by
    intro p a ha
    have hne : a ≠ l := fun he => hgone p (he ▸ ha)
    have hws : { s.modWr l k with freeWlink := wr.wlink }.watch? = (s.modWr l k).watch? :=
      FdEventSet.watch?_congr rfl
    rw [hws, FdEventSet.watch?_modWr_of_ne hne]
  refine ⟨?_, fun a => ?_, fun a ha p => ?_, fun p hp => ?_⟩
  · have hpop := (h.layout.pop hf).update_node (v := linkClean) hgone
    have hwlink : s.mem heads (slotCells.node l) = wr.wlink := FdEventSet.wlink_of_wr? hwr
    rw [hwlink, Function.update_comm (slotCells.root_ne_node .free l)] at hpop
    rw [FdEventSet.mem_setFree, FdEventSet.mem_modWr hwr, hclean]
    exact hpop
  · show 0 < a ∧ a ≤ (s.modWr l k).ws.length ↔ _
    rw [FdEventSet.modWr_length, h.slots a, List.mem_singleton]
    simp only [List.not_mem_nil, false_or]
    exact Cells.Layout.exists_mem_of_pop hf
  · rw [List.mem_singleton.1 ha]
    exact hgone p
  · rw [List.map_congr_left (hwatch p), Function.update_of_ne hp]
    exact h.shown p hp

theorem Held.newSlot (h : Held s heads f g []) (mask : Fdevent) :
    ∃ t l f' ev, s.newSlot mask = some (t, l) ∧ Held t heads f' g [l] ∧
      (∀ p, p ≠ .free → f' p = f p) ∧ t.wr? l = some ⟨ev, mask, linkClean⟩ ∧
      t.fdrs = s.fdrs ∧ t.updateLink = s.updateLink := by
  have hfree : s.mem heads (slotCells.root .free) = s.freeWlink := rfl
  unfold FdEventSet.newSlot
  rcases hf : f .free with _ | ⟨l, ls⟩
  · have hzero : s.freeWlink = 0 := h.layout.eq_nil_iff.1 hf
    refine ⟨{ s with ws := s.ws ++ [⟨none, mask, linkClean⟩] }, s.ws.length + 1, f, none, ?_,
      h.push rfl rfl rfl rfl, fun _ _ => rfl, ?_, rfl, rfl⟩
    · rw [if_neg (not_not.2 hzero)]
    · exact (FdEventSet.wr?_push rfl _).trans (if_pos rfl)
  · have hl : s.freeWlink = l := hfree.symm.trans (h.layout.head hf)
    have hmem : l ∈ f .free := by
      rw [hf]
      exact List.mem_cons_self
    obtain ⟨wr, hwr⟩ := h.wr? hmem
    have hreuse := h.reuse hf hwr (k := fun r => { r with mask, wlink := linkClean }) rfl rfl
    refine ⟨_, l, _, wr.ev, ?_, hreuse, fun p hp => Function.update_of_ne hp .., ?_,
      FdEventSet.modWr_fdrs, FdEventSet.modWr_updateLink⟩
    · simp [hl, h.ne_zero hmem, hwr]
    · have hws : ∀ {g' : Watchrec → Watchrec},
          { s.modWr l g' with freeWlink := wr.wlink }.wr? = (s.modWr l g').wr? :=
        FdEventSet.wr?_congr rfl
      rw [hws, FdEventSet.wr?_modWr, if_pos rfl, hwr]
      rfl

/-- The last slot of a list, 0 if there is none. -/
def lastLink (ls : List Nat) : Nat := ls.getLast?.getD linkClean

theorem lastLink_concat (ls : List Nat) (l : Nat) : lastLink (ls ++ [l]) = l := by
  rw [lastLink, List.getLast?_concat, Option.getD_some]

/-- What `fdi.whead` or `ws_[fdi.wtail - 1].wlink` makes of the cells. -/
theorem Held.appendSlot (h : Held s heads f g loose) {ufd l : Nat} (hl : l ∈ loose)
    (hufd : ufd < s.fdrs.length) (htail : (s.fdr ufd).wtail = lastLink (f (.watch ufd))) :
    ∃ t, s.appendSlot ufd l = some t ∧
      t.mem heads = Function.update (s.mem heads)
        (slotCells.last (slotCells.root (.watch ufd)) (f (.watch ufd))) l ∧
      t.watch? = s.watch? ∧ t.ws.length = s.ws.length ∧ t.wr? l = s.wr? l ∧ Touches ufd s t ∧
      (t.fdr ufd).wtail = l := by
  obtain ⟨r, hr⟩ := FdEventSet.fdr?_eq_some_iff.2 hufd
  have hfdr := FdEventSet.fdr_of_fdr? hr
  have hroot : s.mem heads (slotCells.root (.watch ufd)) = r.whead := congrArg Fdrec.whead hfdr
  unfold FdEventSet.appendSlot
  rcases List.eq_nil_or_concat (f (.watch ufd)) with hf | ⟨ls, b, hf⟩
  · have hzero : r.whead = 0 := hroot.symm.trans (h.layout.eq_nil_iff.1 hf)
    refine ⟨s.modFdr ufd fun r => { r with whead := l, wtail := l }, ?_, ?_,
      FdEventSet.watch?_congr rfl, rfl, congrFun (FdEventSet.wr?_congr rfl) l,
      Touches.modFdr hufd ⟨l, l, rfl⟩, ?_⟩
    · simp [hr, hzero]
    · rw [FdEventSet.mem_modFdr hufd, hf]
      rfl
    · rw [FdEventSet.fdr_modFdr hufd, if_pos rfl]
  · rw [List.concat_eq_append] at hf
    have hb : b ∈ f (.watch ufd) := by
      rw [hf]
      exact List.mem_append_right _ List.mem_cons_self
    have hne : r.whead ≠ 0 := by
      rw [← hroot]
      refine fun he => List.ne_nil_of_mem hb (h.layout.eq_nil_iff.2 he)
    obtain ⟨wr, hwr⟩ := h.wr? hb
    have hwtail : r.wtail = b := by
      rw [← hfdr, htail, hf, lastLink_concat]
    have hlb : l ≠ b := fun he => h.unused l hl _ (he ▸ hb)
    have hufd' : ufd < (s.modWr b fun r => { r with wlink := l }).fdrs.length := by
      rw [FdEventSet.modWr_fdrs]
      exact hufd
    refine ⟨(s.modWr b fun r => { r with wlink := l }).modFdr ufd fun r => { r with wtail := l },
      ?_, ?_, ?_, FdEventSet.modWr_length, ?_,
      Touches.modWr.trans (Touches.modFdr hufd' ⟨_, l, rfl⟩), ?_⟩
    · simp [hr, hne, hwtail, hwr]
    · have hsame : ((s.modWr b fun r => { r with wlink := l }).modFdr ufd
          fun r => { r with wtail := l }).mem heads =
          (s.modWr b fun r => { r with wlink := l }).mem heads := by
        refine FdEventSet.mem_congr rfl (fun u => ?_) rfl
        rw [FdEventSet.fdr_modFdr hufd']
        split <;> rfl
      rw [hsame, FdEventSet.mem_modWr hwr, hf, Cells.last_append_singleton]
      rfl
    · exact (FdEventSet.watch?_congr rfl).trans FdEventSet.watch?_modWr_wlink
    · have hws := FdEventSet.wr?_congr
        (t := (s.modWr b fun r => { r with wlink := l }).modFdr ufd fun r => { r with wtail := l })
        (s := s.modWr b fun r => { r with wlink := l }) rfl
      rw [hws, FdEventSet.wr?_modWr, if_neg hlb]
    · rw [FdEventSet.fdr_modFdr hufd', if_pos rfl]

/-- The new watch is the last one of its file. -/
theorem Held.append {ufd l : Nat} (h : Held s heads f g [l]) {ev₀ : Option Nat} {mask : Fdevent}
    (hwr : s.wr? l = some ⟨ev₀, mask, linkClean⟩) (hufd : ufd < s.fdrs.length)
    (htail : (s.fdr ufd).wtail = lastLink (f (.watch ufd))) (ev : Nat) :
    ∃ t, s.appendSlot ufd l = some t ∧
      Held (t.modWr l fun r => { r with ev := some ev }) heads
        (Function.update f (.watch ufd) (f (.watch ufd) ++ [l]))
        (Function.update g (.watch ufd) (g (.watch ufd) ++ [⟨ev, mask⟩])) [] ∧
      Touches ufd s (t.modWr l fun r => { r with ev := some ev }) ∧
      ((t.modWr l fun r => { r with ev := some ev }).fdr ufd).wtail = l := by
  have hl : l ∈ [l] := List.mem_cons_self
  obtain ⟨t, happend, hmem, hwatch, hlen, hwrt, htouch, hwtail⟩ := h.appendSlot hl hufd htail
  have hunused := h.unused l hl
  refine ⟨t, happend, ⟨?_, fun a => ?_, nofun, fun p hp => ?_⟩, htouch.trans Touches.modWr, ?_⟩
  · have hzero : l ≠ 0 := Nat.ne_of_gt ((h.slots l).2 (.inl hl)).1
    have hlayout := h.layout.append (i := .watch ufd) hunused hzero
    have hclean : s.mem heads (slotCells.node l) = slotCells.stop := FdEventSet.wlink_of_wr? hwr
    rw [← hclean, Function.update_eq_self] at hlayout
    rw [FdEventSet.mem_modWr (hwrt.trans hwr), hmem]
    have hlink : t.mem heads (.wlink l) = linkClean := FdEventSet.wlink_of_wr? (hwrt.trans hwr)
    rw [hmem] at hlink
    rw [← hlink, Function.update_eq_self]
    exact hlayout
  · rw [FdEventSet.modWr_length, hlen, h.slots a]
    simp only [List.mem_singleton, List.not_mem_nil, false_or]
    refine (Cells.Layout.exists_mem_update ?_).symm
    rw [List.mem_append, List.mem_singleton, or_comm]
  · have hold : ∀ q, ∀ a ∈ f q,
        (t.modWr l fun r => { r with ev := some ev }).watch? a = s.watch? a := by
      intro q a ha
      have hne : a ≠ l := fun he => hunused q (he ▸ ha)
      rw [FdEventSet.watch?_modWr_of_ne hne, hwatch]
    have hnew : (t.modWr l fun r => { r with ev := some ev }).watch? l = some ⟨ev, mask⟩ := by
      rw [FdEventSet.watch?, FdEventSet.wr?_modWr, if_pos rfl, hwrt, hwr]
      rfl
    refine shown_update ?_ fun _ => ?_
    · rw [List.map_append, List.map_append, List.map_congr_left (hold _),
        h.shown _ (Place.watch_ne ufd), List.map_singleton, hnew]
      rfl
    · rw [List.map_congr_left (hold p)]
      exact h.shown p hp
  · rw [FdEventSet.fdr_congr FdEventSet.modWr_fdrs]
    exact hwtail

/-! ## Taking watches -/

namespace FdEventSet

/-- The cell behind a pointer; the variable `whead` becomes the list `n`. -/
def LinkPtr.cell (n : Nat) : LinkPtr → Cell
  | .whead => .list n
  | .fdWhead ufd => .whead ufd
  | .wlink wix => .wlink wix

/-- What a pointer points to exists. -/
def LinkPtr.Valid (s : FdEventSet) (ufd : Nat) : LinkPtr → Prop
  | .whead => True
  | .fdWhead u => u = ufd
  | .wlink wix => ∃ wr, s.wr? wix = some wr

theorem LinkPtr.Valid.congr {t : FdEventSet} {ufd : Nat} {p : LinkPtr} (h : p.Valid s ufd)
    (hlen : t.ws.length = s.ws.length) : p.Valid t ufd := by
  cases p with
  | whead => trivial
  | fdWhead u => exact h
  | wlink wix =>
    obtain ⟨hpos, hle⟩ := wr?_eq_some_iff.1 h
    exact wr?_eq_some_iff.2 ⟨hpos, by rw [hlen]; exact hle⟩

theorem store_spec {ufd : Nat} (heads : Nat → Nat) (n whead v : Nat) {p : LinkPtr}
    (hufd : ufd < s.fdrs.length) (hp : p.Valid s ufd) :
    (s.store whead p v).1.mem (Function.update heads n (s.store whead p v).2) =
        Function.update (s.mem (Function.update heads n whead)) (p.cell n) v ∧
      (s.store whead p v).1.watch? = s.watch? ∧
      (s.store whead p v).1.ws.length = s.ws.length ∧
      Touches ufd s (s.store whead p v).1 ∧
      ((s.store whead p v).1.fdr ufd).wtail = (s.fdr ufd).wtail := by
  cases p with
  | whead =>
    refine ⟨?_, rfl, rfl, Touches.refl, rfl⟩
    show s.mem (Function.update heads n v) = _
    rw [mem_setHead, mem_setHead]
    exact (Function.update_idem ..).symm
  | fdWhead u =>
    obtain rfl : u = ufd := hp
    refine ⟨mem_modFdr hufd, watch?_congr rfl, rfl, Touches.modFdr hufd ⟨v, _, rfl⟩, ?_⟩
    show ((s.modFdr u fun r => { r with whead := v }).fdr u).wtail = _
    rw [fdr_modFdr hufd, if_pos rfl]
  | wlink wix =>
    obtain ⟨wr, hwr⟩ := hp
    refine ⟨mem_modWr hwr, watch?_modWr_wlink, modWr_length, Touches.modWr, ?_⟩
    show ((s.modWr wix fun r => { r with wlink := v }).fdr ufd).wtail = _
    rw [fdr_congr modWr_fdrs]

end FdEventSet

open FdEventSet (LinkPtr)

/-- In the loop of `take_watch_list`: `taken` goes to the list `n`, `kept` stays with the
file, and `wix` leads to the rest. -/
structure Taking (s₀ : FdEventSet) (mem₀ : Cell → Nat) (heads : Nat → Nat) (n ufd : Nat)
    (s : FdEventSet) (whead : Nat) (wpprev fdpprev : LinkPtr) (wix : Nat)
    (taken kept rest : List Nat) : Prop where
  split : Cells.Split slotCells mem₀ (s.mem (Function.update heads n whead)) (.list n)
    (.watch ufd) taken kept rest wix
  wpprev : wpprev.cell n = slotCells.last (slotCells.root (.list n)) taken
  fdpprev : fdpprev.cell n = slotCells.last (slotCells.root (.watch ufd)) kept
  valid : ∀ l, l ∈ taken ∨ l ∈ kept ∨ l ∈ rest → 0 < l ∧ l ≤ s₀.ws.length
  wtail : (s.fdr ufd).wtail = lastLink kept
  watch? : s.watch? = s₀.watch?
  length : s.ws.length = s₀.ws.length
  exists_fdr : ufd < s₀.fdrs.length
  touches : Touches ufd s₀ s

namespace Taking

variable {s₀ : FdEventSet} {mem₀ : Cell → Nat} {n ufd whead wix : Nat} {wpprev fdpprev : LinkPtr}
  {taken kept rest : List Nat}

theorem exists_fdr' (h : Taking s₀ mem₀ heads n ufd s whead wpprev fdpprev wix taken kept rest) :
    ufd < s.fdrs.length := by
  rw [h.touches.length]
  exact h.exists_fdr

/-- The pointer to the end of a list that starts in `root` is valid. -/
theorem valid_ptr {p : LinkPtr} {q : Place} {ls : List Nat}
    (hp : p.cell n = slotCells.last (slotCells.root q) ls) (hq : ∀ u, q = .watch u → u = ufd)
    (hls : ∀ l ∈ ls, ∃ wr, s.wr? l = some wr) : p.Valid s ufd := by
  rcases Cells.last_eq slotCells (slotCells.root q) ls with he | ⟨l, hl, he⟩
  · rw [he] at hp
    cases p with
    | whead => trivial
    | fdWhead u =>
      have hroot : slotCells.root (.watch u) = slotCells.root q := hp
      exact hq u (slotCells.root_injective hroot).symm
    | wlink wix => exact absurd hp.symm (slotCells.root_ne_node q wix)
  · rw [he] at hp
    cases p with
    | whead => trivial
    | fdWhead u => exact absurd hp (slotCells.root_ne_node (.watch u) l)
    | wlink wix =>
      obtain rfl : wix = l := slotCells.node_injective hp
      exact hls wix hl

theorem wpprev_valid
    (h : Taking s₀ mem₀ heads n ufd s whead wpprev fdpprev wix taken kept rest) :
    wpprev.Valid s ufd := by
  refine valid_ptr h.wpprev nofun fun l hl => FdEventSet.wr?_eq_some_iff.2 ?_
  rw [h.length]
  exact h.valid l (.inl hl)

theorem fdpprev_valid
    (h : Taking s₀ mem₀ heads n ufd s whead wpprev fdpprev wix taken kept rest) :
    fdpprev.Valid s ufd := by
  refine valid_ptr h.fdpprev (fun u hu => (Place.watch.inj hu).symm) fun l hl =>
    FdEventSet.wr?_eq_some_iff.2 ?_
  rw [h.length]
  exact h.valid l (.inr (.inl hl))

/-- The next slot is taken. -/
theorem take {l : Nat}
    (h : Taking s₀ mem₀ heads n ufd s whead wpprev fdpprev l taken kept (l :: rest)) :
    Taking s₀ mem₀ heads n ufd (s.store whead wpprev l).1 (s.store whead wpprev l).2 (.wlink l)
      fdpprev (s.wlink l) (taken ++ [l]) kept rest := by
  obtain ⟨hmem, hwatch, hlen, htouch, hwtail⟩ :=
    FdEventSet.store_spec heads n whead l h.exists_fdr' h.wpprev_valid
  refine ⟨?_, (Cells.last_append_singleton (C := slotCells)).symm, h.fdpprev,
    fun a ha => h.valid a ?_,
    hwtail.trans h.wtail, hwatch.trans h.watch?, hlen.trans h.length, h.exists_fdr,
    h.touches.trans htouch⟩
  · rw [hmem, h.wpprev]
    exact h.split.take
  · rcases ha with ha | ha | ha
    · rcases List.mem_append.1 ha with ha | ha
      · exact .inl ha
      · rw [List.mem_singleton.1 ha]
        exact .inr (.inr List.mem_cons_self)
    · exact .inr (.inl ha)
    · exact .inr (.inr (List.mem_cons_of_mem l ha))

/-- `fdi.wtail = wix` -/
theorem setTail (h : Taking s₀ mem₀ heads n ufd s whead wpprev fdpprev wix taken kept rest)
    {l : Nat} :
    (s.modFdr ufd fun r => { r with wtail := l }).mem (Function.update heads n whead) =
        s.mem (Function.update heads n whead) ∧
      fdpprev.Valid (s.modFdr ufd fun r => { r with wtail := l }) ufd := by
  refine ⟨FdEventSet.mem_congr rfl (fun u => ?_) rfl, ?_⟩
  · rw [FdEventSet.fdr_modFdr h.exists_fdr']
    split <;> rfl
  · exact h.fdpprev_valid.congr rfl

/-- The next slot is kept. -/
theorem keep {l : Nat}
    (h : Taking s₀ mem₀ heads n ufd s whead wpprev fdpprev l taken kept (l :: rest)) :
    Taking s₀ mem₀ heads n ufd
      ((s.modFdr ufd fun r => { r with wtail := l }).store whead fdpprev l).1
      ((s.modFdr ufd fun r => { r with wtail := l }).store whead fdpprev l).2 wpprev (.wlink l)
      (s.wlink l) taken (kept ++ [l]) rest := by
  obtain ⟨hsame, hvalid⟩ := h.setTail (l := l)
  have htail : Touches ufd s (s.modFdr ufd fun r => { r with wtail := l }) :=
    Touches.modFdr h.exists_fdr' ⟨_, l, rfl⟩
  obtain ⟨hmem, hwatch, hlen, htouch, hwtail⟩ :=
    FdEventSet.store_spec heads n whead l (htail.length.symm ▸ h.exists_fdr') hvalid
  refine ⟨?_, h.wpprev, (Cells.last_append_singleton (C := slotCells)).symm,
    fun a ha => h.valid a ?_, ?_,
    hwatch.trans h.watch?, hlen.trans h.length, h.exists_fdr,
    (h.touches.trans htail).trans htouch⟩
  · rw [hmem, hsame, h.fdpprev]
    exact h.split.keep
  · rcases ha with ha | ha | ha
    · exact .inl ha
    · rcases List.mem_append.1 ha with ha | ha
      · exact .inr (.inl ha)
      · rw [List.mem_singleton.1 ha]
        exact .inr (.inr List.mem_cons_self)
    · exact .inr (.inr (List.mem_cons_of_mem l ha))
  · rw [hwtail, FdEventSet.fdr_modFdr h.exists_fdr', if_pos rfl, lastLink_concat]

/-- A slot that `take_watch_list` takes. -/
def taken? (s : FdEventSet) (imask : Fdevent) (empty : List Nat) (l : Nat) : Bool :=
  (s.watch? l).any (WatchMap.hit imask empty)

/-- The slots are taken and kept in their order. -/
theorem loop {rounds : Nat} {ws : List Watch}
    (h : Taking s₀ mem₀ heads n ufd s whead wpprev fdpprev wix taken kept rest)
    (imask : Fdevent) (empty : List Nat) (hrounds : rest.length ≤ rounds)
    (hws : rest.map s₀.watch? = ws.map some)
    {taken' kept' : List Nat} (htaken : taken' = taken ++ rest.filter (taken? s₀ imask empty))
    (hkept : kept' = kept ++ rest.filter fun l => !taken? s₀ imask empty l) :
    ∃ t whead' mem', FdEventSet.takeLoop ufd imask empty rounds s whead wpprev fdpprev wix =
        some (t, whead') ∧
      Cells.Split slotCells mem₀ mem' (.list n) (.watch ufd) taken' kept' [] 0 ∧
      t.mem (Function.update heads n whead') = Function.update
        (Function.update mem' (slotCells.last (slotCells.root (.watch ufd)) kept') slotCells.stop)
        (slotCells.last (slotCells.root (.list n)) taken') slotCells.stop ∧
      (t.fdr ufd).wtail = lastLink kept' ∧ t.watch? = s₀.watch? ∧
      t.ws.length = s₀.ws.length ∧ Touches ufd s₀ t := by
  induction rest generalizing s whead wpprev fdpprev wix taken kept rounds ws with
  | nil =>
    obtain rfl : wix = 0 := h.split.linked
    rw [List.filter_nil, List.append_nil] at htaken hkept
    subst htaken hkept
    obtain ⟨hmem, hwatch, hlen, htouch, hwtail⟩ :=
      FdEventSet.store_spec heads n whead 0 h.exists_fdr' h.fdpprev_valid
    have hfdr : ufd < (s.store whead fdpprev 0).1.fdrs.length := by
      rw [htouch.length]
      exact h.exists_fdr'
    obtain ⟨hmem', hwatch', hlen', htouch', hwtail'⟩ :=
      FdEventSet.store_spec heads n (s.store whead fdpprev 0).2 0 hfdr
        (h.wpprev_valid.congr hlen)
    refine ⟨((s.store whead fdpprev 0).1.store (s.store whead fdpprev 0).2 wpprev 0).1,
      ((s.store whead fdpprev 0).1.store (s.store whead fdpprev 0).2 wpprev 0).2,
      s.mem (Function.update heads n whead), ?_, h.split, ?_, (hwtail'.trans hwtail).trans h.wtail,
      (hwatch'.trans hwatch).trans h.watch?, (hlen'.trans hlen).trans h.length,
      (h.touches.trans htouch).trans htouch'⟩
    · cases rounds <;> rfl
    · rw [hmem', hmem, h.wpprev, h.fdpprev]
      rfl
  | cons l rest ih =>
    obtain ⟨rfl, hne, _⟩ := h.split.linked
    obtain ⟨i, rfl⟩ := Nat.exists_eq_succ_of_ne_zero hne
    obtain _ | rounds := rounds
    · exact absurd hrounds (Nat.not_succ_le_zero _)
    · rcases ws with _ | ⟨w, ws⟩
      · cases hws
      · rw [List.map_cons, List.map_cons] at hws
        obtain ⟨hw, hrest⟩ := List.cons.inj hws
        have hsel : taken? s₀ imask empty (i + 1) = WatchMap.hit imask empty w := by
          rw [taken?, hw]
          rfl
        have hhere := hw
        rw [← h.watch?, FdEventSet.watch?] at hhere
        obtain ⟨wr, hwr, hmap⟩ := Option.bind_eq_some_iff.1 hhere
        obtain ⟨ev, hev, rfl⟩ := Option.map_eq_some_iff.1 hmap
        have hlink : s.wlink (i + 1) = wr.wlink := FdEventSet.wlink_of_wr? hwr
        have hhit : wr.taken? imask empty = some (taken? s₀ imask empty (i + 1)) := by
          rw [hsel, WatchMap.hit, Watchrec.taken?, hev]
          by_cases hmask : imask &&& wr.mask ≠ Fdevent.none
          · rw [if_pos hmask, decide_eq_true hmask]
            rfl
          · rw [if_neg hmask, decide_eq_false hmask]
            rfl
        cases hcase : taken? s₀ imask empty (i + 1) with
        | true =>
          have hnext := h.take
          rw [hlink] at hnext
          obtain ⟨t, whead', mem', hloop, hres⟩ := ih hnext (Nat.le_of_succ_le_succ hrounds) hrest
            (by rw [htaken, List.filter_cons_of_pos hcase, List.append_assoc]; rfl)
            (by rw [hkept, List.filter_cons_of_neg (by rw [hcase]; exact Bool.false_ne_true)])
          refine ⟨t, whead', mem', ?_, hres⟩
          rw [hcase] at hhit
          simp only [FdEventSet.takeLoop, hwr, Option.bind_eq_bind, Option.bind_some, hhit, if_true]
          exact hloop
        | false =>
          have hnext := h.keep
          rw [hlink] at hnext
          obtain ⟨t, whead', mem', hloop, hres⟩ := ih hnext (Nat.le_of_succ_le_succ hrounds) hrest
            (by rw [htaken, List.filter_cons_of_neg (by rw [hcase]; exact Bool.false_ne_true)])
            (by rw [hkept, List.filter_cons_of_pos (by rw [hcase]; rfl), List.append_assoc]; rfl)
          refine ⟨t, whead', mem', ?_, hres⟩
          rw [hcase] at hhit
          simp only [FdEventSet.takeLoop, hwr, Option.bind_eq_bind, Option.bind_some, hhit,
            Bool.false_eq_true, if_false]
          exact hloop

end Taking

end FdEvents
end Cotamer
end Psets
