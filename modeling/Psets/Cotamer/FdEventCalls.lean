/-
The calls of an `fd_event_set` and those of a map.

When the set is in the state of the map, each call on the set does what the call on the
map does, and the set is in the state of the map again.
-/
import Mathlib.Data.List.GetD
import Psets.Cotamer.FdEventSlots

namespace Psets
namespace Cotamer
namespace FdEvents

/-! ## The update list -/

def updateCells : Cells Unit Nat (Option Nat) where
  root _ := none
  node := some
  stop := linkSentinel
  root_injective _ _ _ := rfl
  node_injective _ _ h := Option.some.inj h
  root_ne_node _ _ := nofun

/-- The cells of the update list. -/
def FdEventSet.updateMem (s : FdEventSet) : Option Nat → Nat
  | none => s.updateLink
  | some 0 => 0
  | some (ufd + 1) => (s.fdr ufd).updateLink

/-- The update list has the files `us`, and these are the ones with a nonzero link. -/
structure Queued (s : FdEventSet) (us : List Nat) : Prop where
  layout : Cells.Layout updateCells s.updateMem fun _ => us.map (· + 1)
  queued : ∀ ufd, (s.fdr ufd).updateLink ≠ linkClean ↔ ufd ∈ us

variable {s t : FdEventSet} {us : List Nat} {ufd : Nat}

theorem Queued.congr (h : Queued s us) (hlink : t.updateLink = s.updateLink)
    (hfdr : ∀ u, (t.fdr u).updateLink = (s.fdr u).updateLink) : Queued t us := by
  have hmem : t.updateMem = s.updateMem := by
    funext c
    match c with
    | none => exact hlink
    | some 0 => rfl
    | some (u + 1) => exact hfdr u
  refine ⟨?_, fun u => ?_⟩
  · rw [hmem]
    exact h.layout
  · rw [hfdr]
    exact h.queued u

theorem FdEventSet.updateMem_set {g : Fdrec → Fdrec} {v : Nat} (hufd : ufd < s.fdrs.length) :
    { s.modFdr ufd g with updateLink := v }.updateMem = Function.update
      (Function.update s.updateMem (some (ufd + 1)) (g (s.fdr ufd)).updateLink) none v := by
  funext c
  match c with
  | none => rfl
  | some 0 => rfl
  | some (u + 1) =>
    show ((s.modFdr ufd g).fdr u).updateLink = Function.update s.updateMem (some (ufd + 1)) _ _
    rw [FdEventSet.fdr_modFdr hufd]
    by_cases hu : u = ufd
    · rw [hu, Function.update_self, if_pos rfl]
    · have hne : some (u + 1) ≠ some (ufd + 1) := by simpa using hu
      rw [if_neg hu, Function.update_of_ne hne]
      rfl

/-- A file comes to the front of the update list. -/
theorem Queued.push (h : Queued s us) (hufd : ufd < s.fdrs.length) (hmem : ufd ∉ us)
    (hbound : s.fdrs.length ≤ 2 ^ 31) :
    Queued { s.modFdr ufd (fun r => { r with updateLink := s.updateLink }) with
      updateLink := ufd + 1 } (ufd :: us) := by
  have hstop : ufd + 1 ≠ updateCells.stop := by
    show ufd + 1 ≠ 2 ^ 32 - 1
    omega
  have hout : ∀ j : Unit, ufd + 1 ∉ (fun _ => us.map (· + 1)) j := by
    intro _ hin
    obtain ⟨u, hu, he⟩ := List.mem_map.1 hin
    exact hmem (Nat.succ.inj he ▸ hu)
  refine ⟨?_, fun u => ?_⟩
  · have hpush := h.layout.push (i := ()) hout hstop
    have hf : Function.update (fun _ : Unit => us.map (· + 1)) () ((ufd + 1) :: us.map (· + 1)) =
        fun _ => (ufd :: us).map (· + 1) := by
      funext j
      exact Function.update_self ..
    rw [hf] at hpush
    rw [FdEventSet.updateMem_set hufd]
    exact hpush
  · show ((s.modFdr ufd _).fdr u).updateLink ≠ linkClean ↔ _
    rw [FdEventSet.fdr_modFdr hufd, List.mem_cons]
    by_cases hu : u = ufd
    · rw [if_pos hu]
      refine iff_of_true ?_ (.inl hu)
      -- the head of the list is a file or the sentinel
      show s.updateLink ≠ linkClean
      rcases us with _ | ⟨v, vs⟩
      · have hend : s.updateLink = linkSentinel := (h.layout.eq_nil_iff (i := ())).1 rfl
        rw [hend]
        decide
      · have hhead : s.updateLink = v + 1 := h.layout.head (i := ()) rfl
        rw [hhead]
        exact Nat.succ_ne_zero v
    · rw [if_neg hu, h.queued u]
      exact (or_iff_right hu).symm

/-- The first file leaves the update list. -/
theorem Queued.pop (h : Queued s (ufd :: us)) (hufd : ufd < s.fdrs.length) :
    Queued { s.modFdr ufd (fun r => { r with updateLink := linkClean }) with
      updateLink := (s.fdr ufd).updateLink } us := by
  have hgone := h.layout.popped (i := ()) rfl
  have hf : Function.update (fun _ : Unit => (ufd :: us).map (· + 1)) () (us.map (· + 1)) =
      fun _ => us.map (· + 1) := by
    funext j
    exact Function.update_self ..
  refine ⟨?_, fun u => ?_⟩
  · have hpop := (h.layout.pop (i := ()) rfl).update_node (v := linkClean) hgone
    rw [hf, Function.update_comm (updateCells.root_ne_node () (ufd + 1))] at hpop
    rw [FdEventSet.updateMem_set hufd]
    exact hpop
  · show ((s.modFdr ufd _).fdr u).updateLink ≠ linkClean ↔ _
    rw [FdEventSet.fdr_modFdr hufd]
    have hnodup : (ufd :: us).Nodup := (h.layout.nodup ()).of_map _
    by_cases hu : u = ufd
    · rw [if_pos hu, hu]
      exact iff_of_false (fun hne => hne rfl) (List.nodup_cons.1 hnodup).1
    · rw [if_neg hu, h.queued u, List.mem_cons]
      exact or_iff_right hu

/-! ## Capacity -/

namespace FdEventSet

theorem lt_doubled {rounds n : Nat} (hn : 0 < n) (h : ufd < n + rounds) :
    ufd < doubled ufd rounds n := by
  induction rounds generalizing n with
  | zero => exact h
  | succ rounds ih =>
    unfold doubled
    split
    · exact ih (by omega) (by omega)
    · omega

theorem doubled_le {rounds n : Nat} : doubled ufd rounds n ≤ max n (2 * ufd) := by
  induction rounds generalizing n with
  | zero => exact Nat.le_max_left ..
  | succ rounds ih =>
    unfold doubled
    split
    · refine Nat.le_trans ih ?_
      omega
    · exact Nat.le_max_left ..

/-- The new capacity suffices, and it is an `unsigned`. -/
theorem newCapacity_spec {capacity : Nat} (hle : capacity ≤ ufd) (hufd : ufd < 2 ^ 31) :
    ufd < newCapacity capacity ufd ∧ newCapacity capacity ufd ≤ 2 ^ 31 := by
  unfold newCapacity
  split
  · unfold blockCapacity
    omega
  · rename_i hsmall
    have hpos : 0 < max firstCapacity (capacity * 2) :=
      Nat.lt_of_lt_of_le (by decide) (Nat.le_max_left ..)
    have hle : doubled ufd ufd (max firstCapacity (capacity * 2)) ≤
        max (max firstCapacity (capacity * 2)) (2 * ufd) := doubled_le
    refine ⟨lt_doubled hpos (Nat.lt_add_of_pos_left hpos), ?_⟩
    unfold firstCapacity blockCapacity at *
    omega

theorem fdr_hardEnsure : (s.hardEnsure ufd).fdr = s.fdr := by
  funext u
  unfold fdr fdr? hardEnsure
  by_cases hu : u < s.fdrs.length
  · rw [List.getElem?_append_left hu]
  · have hle := Nat.le_of_not_lt hu
    rw [List.getElem?_append_right hle, List.getElem?_eq_none hle, List.getElem?_replicate]
    split <;> rfl

end FdEventSet

theorem unsigned_lt {fd : Int32} (h : ¬ fd < 0) : unsigned fd < 2 ^ 31 := by
  have hnonneg : ¬ fd.toBitVec.toInt < 0 := fun hlt => h (Int32.lt_iff_toInt_lt.2 hlt)
  rw [BitVec.toInt_neg_iff] at hnonneg
  show fd.toBitVec.toNat < 2 ^ 31
  omega

/-! ## The set and the map -/

/-- The watches of each list. -/
def content (m : WatchMap) (lists : List (List Watch)) : Place → List Watch
  | .free => []
  | .watch ufd => m.watches ufd
  | .list i => lists.getD i []

def headOf (heads : List Nat) (i : Nat) : Nat := heads.getD i 0

/-- The set `s` and the callers with the lists `heads` are in the state of the map `m` and of
its callers with `lists`. -/
structure Tracks (s : FdEventSet) (heads : List Nat) (m : WatchMap)
    (lists : List (List Watch)) : Prop where
  slots : ∃ f, Held s (headOf heads) f (content m lists) [] ∧
    ∀ ufd, (s.fdr ufd).wtail = lastLink (f (.watch ufd))
  count : heads.length = lists.length
  updates : Queued s m.updates
  body : ∀ ufd, (s.fdr ufd).body = m.body ufd
  epoch : ∀ ufd, (s.fdr ufd).epoch = m.epoch ufd
  capacity : s.fdrs.length ≤ 2 ^ 31

namespace Tracks

variable {heads : List Nat} {m : WatchMap} {lists : List (List Watch)}

/-- A record changes, and the lists do not. -/
theorem modFdr (h : Tracks s heads m lists) (hufd : ufd < s.fdrs.length) {g : Fdrec → Fdrec}
    (hkeep : ∀ r, (g r).whead = r.whead ∧ (g r).wtail = r.wtail ∧ (g r).updateLink = r.updateLink)
    {m' : WatchMap} (hwatches : m'.watches = m.watches) (hupdates : m'.updates = m.updates)
    (hbody : m'.body = Function.update m.body ufd (g (s.fdr ufd)).body)
    (hepoch : m'.epoch = Function.update m.epoch ufd (g (s.fdr ufd)).epoch) :
    Tracks (s.modFdr ufd g) heads m' lists := by
  have hfdr := FdEventSet.fdr_modFdr (g := g) hufd
  have hsame : ∀ u, ((s.modFdr ufd g).fdr u).whead = (s.fdr u).whead ∧
      ((s.modFdr ufd g).fdr u).wtail = (s.fdr u).wtail ∧
      ((s.modFdr ufd g).fdr u).updateLink = (s.fdr u).updateLink := by
    intro u
    rw [hfdr]
    split
    · exact hkeep _
    · exact ⟨rfl, rfl, rfl⟩
  obtain ⟨f, hf, htail⟩ := h.slots
  have hcontent : content m' lists = content m lists := by
    funext p
    cases p with
    | watch u => exact congrFun hwatches u
    | free => rfl
    | list i => rfl
  refine ⟨⟨f, ?_, fun u => (hsame u).2.1.trans (htail u)⟩, h.count, ?_, fun u => ?_, fun u => ?_,
    ?_⟩
  · rw [hcontent]
    exact hf.congr (FdEventSet.mem_congr rfl (fun u => (hsame u).1) rfl) rfl
      (FdEventSet.watch?_congr rfl)
  · rw [hupdates]
    exact h.updates.congr rfl fun u => (hsame u).2.2
  · rw [hfdr, hbody]
    by_cases hu : u = ufd
    · rw [if_pos hu, hu, Function.update_self]
    · rw [if_neg hu, Function.update_of_ne hu]
      exact h.body u
  · rw [hfdr, hepoch]
    by_cases hu : u = ufd
    · rw [if_pos hu, hu, Function.update_self]
    · rw [if_neg hu, Function.update_of_ne hu]
      exact h.epoch u
  · rw [FdEventSet.modFdr_length]
    exact h.capacity

theorem setBody (h : Tracks s heads m lists) (hufd : ufd < s.fdrs.length) (b : Option Nat) :
    Tracks (s.modFdr ufd fun r => { r with body := b }) heads (m.setBody ufd b) lists := by
  apply h.modFdr hufd
  · exact fun _ => ⟨rfl, rfl, rfl⟩
  · rfl
  · rfl
  · rfl
  · show m.epoch = Function.update m.epoch ufd (s.fdr ufd).epoch
    rw [h.epoch, Function.update_eq_self]

theorem setEpoch (h : Tracks s heads m lists) (hufd : ufd < s.fdrs.length) {e : Nat → Nat} :
    Tracks (s.modFdr ufd fun r => { r with epoch := e r.epoch }) heads
      (m.setEpoch ufd (e (m.epoch ufd))) lists := by
  apply h.modFdr hufd
  · exact fun _ => ⟨rfl, rfl, rfl⟩
  · rfl
  · rfl
  · show m.body = Function.update m.body ufd (s.fdr ufd).body
    rw [h.body, Function.update_eq_self]
  · show Function.update m.epoch ufd _ = Function.update m.epoch ufd (e (s.fdr ufd).epoch)
    rw [h.epoch]

/-- The update list changes, and nothing else. -/
theorem setUpdates (h : Tracks s heads m lists) (hus : Queued t us)
    (hlen : t.fdrs.length = s.fdrs.length) (hws : t.ws = s.ws)
    (hfree : t.freeWlink = s.freeWlink)
    (hfdr : ∀ u, ∃ l, t.fdr u = { s.fdr u with updateLink := l }) :
    Tracks t heads { m with updates := us } lists := by
  obtain ⟨f, hf, htail⟩ := h.slots
  refine ⟨⟨f, hf.congr (FdEventSet.mem_congr hfree (fun u => ?_) hws) (congrArg _ hws)
    (FdEventSet.watch?_congr hws), fun u => ?_⟩, h.count, hus, fun u => ?_, fun u => ?_, ?_⟩
  · obtain ⟨l, hl⟩ := hfdr u
    rw [hl]
  · obtain ⟨l, hl⟩ := hfdr u
    rw [hl]
    exact htail u
  · obtain ⟨l, hl⟩ := hfdr u
    rw [hl]
    exact h.body u
  · obtain ⟨l, hl⟩ := hfdr u
    rw [hl]
    exact h.epoch u
  · rw [hlen]
    exact h.capacity

theorem fdr_setLink {v w : Nat} (hufd : ufd < s.fdrs.length) (u : Nat) :
    ∃ l, { s.modFdr ufd (fun r => { r with updateLink := v }) with updateLink := w }.fdr u =
      { s.fdr u with updateLink := l } := by
  have hfdr : { s.modFdr ufd (fun r => { r with updateLink := v }) with updateLink := w }.fdr u =
      (s.modFdr ufd fun r => { r with updateLink := v }).fdr u := rfl
  rw [hfdr, FdEventSet.fdr_modFdr hufd]
  split
  · exact ⟨v, rfl⟩
  · exact ⟨(s.fdr u).updateLink, rfl⟩

theorem queueUpdate (h : Tracks s heads m lists) (hufd : ufd < s.fdrs.length) :
    ∃ t, s.queueUpdate ufd = some t ∧ Tracks t heads (m.touch ufd) lists ∧
      t.fdrs.length = s.fdrs.length := by
  obtain ⟨r, hr⟩ := FdEventSet.fdr?_eq_some_iff.2 hufd
  have hlink := h.updates.queued ufd
  rw [FdEventSet.fdr_of_fdr? hr] at hlink
  unfold FdEventSet.queueUpdate
  by_cases hclean : r.updateLink = linkClean
  · have hmem : ufd ∉ m.updates := fun hin => hlink.2 hin hclean
    refine ⟨{ s.modFdr ufd (fun r => { r with updateLink := s.updateLink }) with
      updateLink := ufd + 1 }, by simp [hr, hclean], ?_, FdEventSet.modFdr_length⟩
    rw [WatchMap.touch, if_neg hmem]
    exact h.setUpdates (h.updates.push hufd hmem h.capacity) FdEventSet.modFdr_length rfl rfl
      (fdr_setLink hufd)
  · have hmem : ufd ∈ m.updates := hlink.1 hclean
    refine ⟨s, by simp [hr, hclean], ?_, rfl⟩
    rw [WatchMap.touch, if_pos hmem]
    exact h

/-- The lists change, and nothing else. -/
theorem relist (h : Tracks s heads m lists) (htouch : Touches ufd s t) {heads' : List Nat}
    {m' : WatchMap} {lists' : List (List Watch)} {f : Place → List Nat}
    (hf : Held t (headOf heads') f (content m' lists') [])
    (htail : ∀ u, (t.fdr u).wtail = lastLink (f (.watch u)))
    (hcount : heads'.length = lists'.length)
    (hm : m' = { m with watches := m'.watches }) : Tracks t heads' m' lists' := by
  have hfdr : ∀ u, (t.fdr u).body = (s.fdr u).body ∧ (t.fdr u).epoch = (s.fdr u).epoch ∧
      (t.fdr u).updateLink = (s.fdr u).updateLink := by
    intro u
    by_cases hu : u = ufd
    · obtain ⟨whead, wtail, hself⟩ := htouch.self
      rw [hu, hself]
      exact ⟨rfl, rfl, rfl⟩
    · rw [htouch.other u hu]
      exact ⟨rfl, rfl, rfl⟩
  refine ⟨⟨f, hf, htail⟩, hcount, ?_, fun u => ?_, fun u => ?_, ?_⟩
  · rw [hm]
    exact h.updates.congr htouch.updateLink fun u => (hfdr u).2.2
  · rw [hm]
    exact (hfdr u).1.trans (h.body u)
  · rw [hm]
    exact (hfdr u).2.1.trans (h.epoch u)
  · rw [htouch.length]
    exact h.capacity

theorem content_setWatches {ws : List Watch} :
    content (m.setWatches ufd ws) lists = Function.update (content m lists) (.watch ufd) ws := by
  funext p
  cases p with
  | watch u =>
    show Function.update m.watches ufd ws u = _
    by_cases hu : u = ufd
    · rw [hu, Function.update_self, Function.update_self]
    · rw [Function.update_of_ne hu, Function.update_of_ne fun he => hu (Place.watch.inj he)]
      rfl
  | free => rfl
  | list i => rfl

/-- The watches of the file are triggered and freed. -/
theorem closeLoop (h : Tracks s heads m lists) (hufd : ufd < s.fdrs.length) :
    ∃ t, FdEventSet.closeLoop ufd (s.ws.length + 1) s =
        some (t, WatchMap.triggers (m.watches ufd)) ∧
      Tracks (t.modFdr ufd fun r => { r with wtail := linkClean }) heads (m.setWatches ufd [])
        lists ∧ t.fdrs.length = s.fdrs.length := by
  obtain ⟨f, hf, htail⟩ := h.slots
  have hrounds := Nat.lt_succ_of_le (hf.length_le (.watch ufd))
  obtain ⟨t, f', hloop, ht, hf', htouch⟩ := hf.closeLoop hufd hrounds
  have hufd' : ufd < t.fdrs.length := by
    rw [htouch.length]
    exact hufd
  have hfdr := FdEventSet.fdr_modFdr (g := fun r => { r with wtail := linkClean }) hufd'
  refine ⟨t, hloop, ?_, htouch.length⟩
  apply h.relist (htouch.trans (Touches.modFdr hufd' ⟨_, linkClean, rfl⟩)) (f := f')
  · rw [content_setWatches]
    refine ht.congr (FdEventSet.mem_congr rfl (fun u => ?_) rfl) rfl (FdEventSet.watch?_congr rfl)
    rw [hfdr]
    split <;> rfl
  · intro u
    rw [hfdr]
    by_cases hu : u = ufd
    · have hnil : f' (.watch ufd) = [] :=
        (ht.eq_nil (Place.watch_ne ufd)).2 (Function.update_self ..)
      rw [if_pos hu, hu, hnil]
      rfl
    · rw [if_neg hu, htouch.other u hu, hf' _ (Place.watch_ne u) fun he => hu (Place.watch.inj he)]
      exact htail u
  · exact h.count
  · rfl

theorem fdClose (h : Tracks s heads m lists) (fd : Int32) (closed : List Nat) :
    ∃ t, s.fdClose fd closed = some (t, (m.fdClose fd closed).2) ∧
      Tracks t heads (m.fdClose fd closed).1 lists ∧ t.fdrs.length = s.fdrs.length := by
  have hbody := h.body (unsigned fd)
  have hepoch := h.epoch (unsigned fd)
  unfold FdEventSet.fdClose WatchMap.fdClose
  rcases hr : s.fdr? (unsigned fd) with _ | r
  · have hnone : m.body (unsigned fd) = none := by
      rw [← hbody, FdEventSet.fdr, hr]
      rfl
    simp only [hr, hnone]
    exact ⟨s, rfl, h, rfl⟩
  · rw [FdEventSet.fdr_of_fdr? hr] at hbody hepoch
    have hufd := FdEventSet.fdr?_eq_some_iff.1 ⟨r, hr⟩
    rcases hb : r.body with _ | b
    · rw [hb] at hbody
      simp only [hr, hb, ← hbody]
      exact ⟨s, rfl, h, rfl⟩
    · rw [hb] at hbody
      simp only [hr, hb, ← hbody]
      by_cases hclosed : b ∈ closed
      · obtain ⟨t₁, hloop, h₁, hlen₁⟩ := h.closeLoop hufd
        have hufd₁ : unsigned fd <
            (t₁.modFdr (unsigned fd) fun r => { r with wtail := linkClean }).fdrs.length := by
          rw [FdEventSet.modFdr_length, hlen₁]
          exact hufd
        have h₂ := h₁.setEpoch hufd₁ (e := nextEpoch)
        obtain ⟨t₃, hqueue, h₃, hlen₃⟩ :=
          h₂.queueUpdate (by rw [FdEventSet.modFdr_length]; exact hufd₁)
        rw [FdEventSet.modFdr_length, FdEventSet.modFdr_length, hlen₁] at hlen₃
        have h₄ := h₃.setBody (by rw [hlen₃]; exact hufd) none
        refine ⟨t₃.modFdr (unsigned fd) fun r => { r with body := none }, ?_, ?_, ?_⟩
        · simp only [if_pos hclosed, hloop, hqueue, Option.bind_eq_bind, Option.bind_some, hepoch]
        · rw [if_pos hclosed]
          exact h₄
        · rw [FdEventSet.modFdr_length, hlen₃]
      · rw [if_neg hclosed, if_neg hclosed]
        exact ⟨s, rfl, h, rfl⟩

/-- A file that is not known is given a record. -/
theorem hardEnsure (h : Tracks s heads m lists) (hle : s.fdrs.length ≤ ufd)
    (hufd : ufd < 2 ^ 31) :
    Tracks (s.hardEnsure ufd) heads m lists ∧ ufd < (s.hardEnsure ufd).fdrs.length := by
  obtain ⟨hlt, hbound⟩ := FdEventSet.newCapacity_spec hle hufd
  have hlen : (s.hardEnsure ufd).fdrs.length = FdEventSet.newCapacity s.fdrs.length ufd := by
    rw [FdEventSet.hardEnsure, List.length_append, List.length_replicate]
    omega
  have hfdr : (s.hardEnsure ufd).fdr = s.fdr := FdEventSet.fdr_hardEnsure
  obtain ⟨f, hf, htail⟩ := h.slots
  refine ⟨⟨⟨f, ?_, ?_⟩, h.count, ?_, ?_, ?_, ?_⟩, ?_⟩
  · exact hf.congr (FdEventSet.mem_congr rfl (fun u => by rw [hfdr]) rfl) rfl
      (FdEventSet.watch?_congr rfl)
  · rw [hfdr]
    exact htail
  · exact h.updates.congr rfl fun u => by rw [hfdr]
  · rw [hfdr]
    exact h.body
  · rw [hfdr]
    exact h.epoch
  · rw [hlen]
    exact hbound
  · rw [hlen]
    exact hlt

theorem register (h : Tracks s heads m lists) (fd : Int32) (body : Nat) (closed : List Nat)
    (hufd : unsigned fd < s.fdrs.length) :
    Option.Rel (fun x y => x.2 = y.2 ∧ Tracks x.1 heads y.1 lists ∧
        x.1.fdrs.length = s.fdrs.length)
      (s.register fd body closed) (m.register (unsigned fd) body closed) := by
  obtain ⟨r, hr⟩ := FdEventSet.fdr?_eq_some_iff.2 hufd
  have hbody := h.body (unsigned fd)
  rw [FdEventSet.fdr_of_fdr? hr] at hbody
  obtain ⟨t, hclose, ht, hlen⟩ := h.fdClose fd closed
  unfold FdEventSet.register WatchMap.register
  unfold WatchMap.fdClose at hclose ht
  rcases hb : r.body with _ | old
  · rw [hb] at hbody
    simp only [hr, hb, ← hbody, reduceCtorEq, if_false, Option.bind_eq_bind, Option.bind_some]
    exact .some ⟨rfl, h.setBody hufd (some body), FdEventSet.modFdr_length⟩
  · rw [hb] at hbody
    simp only [← hbody] at hclose ht
    simp only [hr, hb, ← hbody, Option.some.injEq, Option.bind_eq_bind, Option.bind_some]
    by_cases hsame : old = body
    · simp only [if_pos hsame]
      exact .some ⟨rfl, h, rfl⟩
    · simp only [if_neg hsame, hclose, Option.bind_some]
      by_cases hclosed : old ∈ closed
      · simp only [if_pos hclosed, Option.bind_some] at ht ⊢
        refine .some ⟨rfl, ht.setBody (by rw [hlen]; exact hufd) (some body), ?_⟩
        rw [FdEventSet.modFdr_length, hlen]
      · simp only [if_neg hclosed]
        exact .none

/-- A slot with the new watch is the last one of its file. -/
theorem addWatch (h : Tracks s heads m lists) (hufd : ufd < s.fdrs.length) (mask : Fdevent)
    (ev : Nat) :
    ∃ t l u, s.newSlot mask = some (t, l) ∧ t.appendSlot ufd l = some u ∧
      Tracks (u.modWr l fun r => { r with ev := some ev }) heads
        (m.setWatches ufd (m.watches ufd ++ [⟨ev, mask⟩])) lists := by
  obtain ⟨f, hf, htail⟩ := h.slots
  obtain ⟨t, l, f', ev₀, hnew, ht, hf', hwr, hfdrs, hlink⟩ := hf.newSlot mask
  have hufd' : ufd < t.fdrs.length := by
    rw [hfdrs]
    exact hufd
  have htail' : ∀ u, (t.fdr u).wtail = lastLink (f' (.watch u)) := by
    intro u
    rw [FdEventSet.fdr_congr hfdrs, hf' _ (Place.watch_ne u)]
    exact htail u
  obtain ⟨u, happend, hu, htouch, hwtail⟩ := ht.append hwr hufd' (htail' ufd) ev
  have htouch' : Touches ufd s (u.modWr l fun r => { r with ev := some ev }) :=
    (Touches.of_fdrs hfdrs hlink).trans htouch
  refine ⟨t, l, u, hnew, happend, h.relist htouch' (content_setWatches ▸ hu) (fun v => ?_) h.count
    rfl⟩
  by_cases hv : v = ufd
  · rw [hv, hwtail, Function.update_self, lastLink_concat]
  · have hne : Place.watch v ≠ .watch ufd := fun he => hv (Place.watch.inj he)
    rw [htouch.other v hv, Function.update_of_ne hne]
    exact htail' v

theorem watch (h : Tracks s heads m lists) (fd : Int32) (mask : Fdevent) (body ev : Nat)
    (closed : List Nat) :
    Option.Rel (fun x y => x.2 = y.2 ∧ Tracks x.1 heads y.1 lists)
      (s.watch fd mask body ev closed) (m.watch fd mask body ev closed) := by
  unfold FdEventSet.watch WatchMap.watch
  by_cases hnone : fd < 0 ∨ mask = Fdevent.none
  · rw [if_pos hnone, if_pos hnone]
    exact .some ⟨rfl, h⟩
  · rw [if_neg hnone, if_neg hnone]
    have hufd := unsigned_lt (not_or.1 hnone).1
    obtain ⟨s', hs', h', hlen⟩ : ∃ s', s' = (if unsigned fd ≥ s.fdrs.length then
        s.hardEnsure (unsigned fd) else s) ∧ Tracks s' heads m lists ∧
        unsigned fd < s'.fdrs.length := by
      by_cases hle : unsigned fd ≥ s.fdrs.length
      · obtain ⟨h', hlen⟩ := h.hardEnsure hle hufd
        exact ⟨_, (if_pos hle).symm, h', hlen⟩
      · exact ⟨s, (if_neg hle).symm, h, Nat.lt_of_not_le hle⟩
    have hreg := h'.register fd body closed hlen
    simp only [← hs']
    generalize s'.register fd body closed = x at hreg
    generalize m.register (unsigned fd) body closed = y at hreg
    cases hreg with
    | none => exact .none
    | @some x y hxy =>
      obtain ⟨t, effects⟩ := x
      obtain ⟨m', effects'⟩ := y
      obtain ⟨heffects, ht, htlen⟩ := hxy
      obtain rfl : effects = effects' := heffects
      rw [← htlen] at hlen
      obtain ⟨u, hqueue, hu, hulen⟩ := ht.queueUpdate hlen
      rw [← hulen] at hlen
      obtain ⟨v, l, w, hnew, happend, hw⟩ := hu.addWatch hlen mask ev
      simp only [hqueue, hnew, happend, Option.bind_eq_bind, Option.bind_some, Option.map_some]
      exact .some ⟨rfl, hw⟩

theorem getD_concat {α : Type} (xs : List α) (x d : α) :
    (fun i => (xs ++ [x]).getD i d) =
      Function.update (fun i => xs.getD i d) xs.length x := by
  funext i
  by_cases hi : i = xs.length
  · rw [hi, Function.update_self, List.getD_eq_getElem?_getD, List.getElem?_concat_length,
      Option.getD_some]
  · rw [Function.update_of_ne hi]
    rcases Nat.lt_or_gt_of_ne hi with hlt | hgt
    · rw [List.getD_append _ _ _ _ hlt]
    · rw [List.getD_eq_default _ _ (by rw [List.length_append]; exact hgt),
        List.getD_eq_default _ _ (Nat.le_of_lt hgt)]

theorem headOf_append (heads : List Nat) (v : Nat) :
    headOf (heads ++ [v]) = Function.update (headOf heads) heads.length v :=
  getD_concat heads v 0

theorem content_append (taken : List Watch) :
    content m (lists ++ [taken]) =
      Function.update (content m lists) (.list lists.length) taken := by
  funext p
  cases p with
  | free => rfl
  | watch u => rfl
  | list i =>
    refine (congrFun (getD_concat lists taken []) i).trans ?_
    by_cases hi : i = lists.length
    · rw [hi, Function.update_self, Function.update_self]
    · rw [Function.update_of_ne hi, Function.update_of_ne fun he => hi (Place.list.inj he)]
      rfl

/-- A caller that gets no watches. -/
theorem addList (h : Tracks s heads m lists) : Tracks s (heads ++ [0]) m (lists ++ [[]]) := by
  obtain ⟨f, hf, htail⟩ := h.slots
  have hheads : headOf (heads ++ [0]) = headOf heads := by
    have hzero : headOf heads heads.length = 0 := List.getD_eq_default _ _ (Nat.le_refl _)
    rw [headOf_append, ← hzero, Function.update_eq_self]
  have hcontent : content m (lists ++ [[]]) = content m lists := by
    have hnil : content m lists (.list lists.length) = [] :=
      List.getD_eq_default _ _ (Nat.le_refl _)
    rw [content_append, ← hnil, Function.update_eq_self]
  refine ⟨⟨f, ?_, htail⟩, ?_, h.updates, h.body, h.epoch, h.capacity⟩
  · rw [hheads, hcontent]
    exact hf
  · rw [List.length_append, List.length_append, h.count]
    rfl

theorem watches_eq_nil_iff (h : Tracks s heads m lists) (ufd : Nat) :
    m.watches ufd = [] ↔ (s.fdr ufd).whead = 0 := by
  obtain ⟨f, hf, _⟩ := h.slots
  exact (hf.eq_nil (Place.watch_ne ufd)).symm.trans hf.layout.eq_nil_iff

/-- The first link of a caller's list. -/
theorem head? (h : Tracks s heads m lists) {i : Nat} {ws : List Watch} (hi : lists[i]? = some ws) :
    heads[i]? = some (headOf heads i) ∧ (headOf heads i = 0 ↔ ws = []) := by
  obtain ⟨f, hf, _⟩ := h.slots
  have hlt : i < heads.length := by
    rw [h.count]
    exact (List.getElem?_eq_some_iff.1 hi).1
  have hcontent : content m lists (.list i) = ws := by
    show lists.getD i [] = ws
    rw [List.getD_eq_getElem?_getD, hi, Option.getD_some]
  refine ⟨?_, ?_⟩
  · rw [headOf, List.getD_eq_getElem?_getD, List.getElem?_eq_getElem hlt, Option.getD_some]
  · rw [← hcontent]
    exact (hf.layout.eq_nil_iff (i := .list i)).symm.trans (hf.eq_nil (Place.list_ne i))

end Tracks

/-- Choosing slots chooses their watches. -/
theorem shown_filter {w? : Nat → Option Watch} (P : Watch → Bool) (sel : Nat → Bool)
    (hsel : ∀ l w, w? l = some w → sel l = P w) {ls : List Nat} {ws : List Watch}
    (h : ls.map w? = ws.map some) : (ls.filter sel).map w? = (ws.filter P).map some := by
  induction ls generalizing ws with
  | nil =>
    rw [List.map_eq_nil_iff.1 h.symm]
    rfl
  | cons l ls ih =>
    rcases ws with _ | ⟨w, ws⟩
    · cases h
    · rw [List.map_cons, List.map_cons] at h
      obtain ⟨hw, hrest⟩ := List.cons.inj h
      rw [List.filter_cons, List.filter_cons, hsel l w hw]
      split
      · rw [List.map_cons, List.map_cons, hw, ih hrest]
      · exact ih hrest

theorem WatchMap.takeWatchList_nil {m : WatchMap} {fd : Int32} (h : m.watches (unsigned fd) = [])
    (imask : Fdevent) (epoch : Nat) (empty : List Nat) :
    m.takeWatchList fd imask epoch empty = (m, []) := by
  have hsame : m.setWatches (unsigned fd) [] = m := by
    rw [WatchMap.setWatches, ← h, Function.update_eq_self]
  unfold WatchMap.takeWatchList
  simp only [h, List.filter_nil, hsame, if_true]
  split <;> rfl

namespace Tracks

variable {heads : List Nat} {m : WatchMap} {lists : List (List Watch)}

/-- Before the loop of `take_watch_list`. -/
theorem taking {f : Place → List Nat} {g : Place → List Watch}
    (hf : Held s (headOf heads) f g []) (hufd : ufd < s.fdrs.length) :
    Taking s (s.mem (headOf heads)) (headOf heads) heads.length ufd
      (s.modFdr ufd fun r => { r with wtail := 0 }) 0 .whead (.fdWhead ufd) (s.fdr ufd).whead [] []
      (f (.watch ufd)) := by
  have hzero : headOf heads heads.length = 0 := List.getD_eq_default _ _ (Nat.le_refl _)
  have hfdr := FdEventSet.fdr_modFdr (g := fun r => { r with wtail := 0 }) hufd
  have hmem : (s.modFdr ufd fun r => { r with wtail := 0 }).mem
      (Function.update (headOf heads) heads.length 0) = s.mem (headOf heads) := by
    have hheads : Function.update (headOf heads) heads.length 0 = headOf heads := by
      rw [← hzero, Function.update_eq_self]
    rw [hheads]
    refine FdEventSet.mem_congr rfl (fun u => ?_) rfl
    rw [hfdr]
    split <;> rfl
  refine ⟨⟨nofun, trivial, trivial, ?_, hf.layout.nodup _, fun c _ _ _ => ?_⟩, rfl, rfl,
    fun l hl => ?_, ?_, FdEventSet.watch?_congr rfl, rfl, hufd, Touches.modFdr hufd ⟨_, 0, rfl⟩⟩
  · rw [hmem]
    exact hf.layout.linked (.watch ufd)
  · rw [hmem]
  · rcases hl with hl | hl | hl
    · cases hl
    · cases hl
    · exact (hf.slots l).2 (.inr ⟨_, hl⟩)
  · rw [hfdr, if_pos rfl]
    rfl

/-- The list of the file is split in two. -/
theorem takeLoop (h : Tracks s heads m lists) (hufd : ufd < s.fdrs.length) (imask : Fdevent)
    (empty : List Nat) {rounds : Nat} (hrounds : s.ws.length ≤ rounds) :
    ∃ t whead, FdEventSet.takeLoop ufd imask empty rounds
        (s.modFdr ufd fun r => { r with wtail := 0 }) 0 .whead (.fdWhead ufd) (s.fdr ufd).whead =
        some (t, whead) ∧
      Tracks t (heads ++ [whead])
        (m.setWatches ufd ((m.watches ufd).filter fun w => !WatchMap.hit imask empty w))
        (lists ++ [(m.watches ufd).filter (WatchMap.hit imask empty)]) ∧
      (whead = 0 ↔ (m.watches ufd).filter (WatchMap.hit imask empty) = []) ∧
      t.fdrs.length = s.fdrs.length := by
  obtain ⟨f, hf, htail⟩ := h.slots
  have hshown : (f (.watch ufd)).map s.watch? = (m.watches ufd).map some :=
    hf.shown _ (Place.watch_ne ufd)
  obtain ⟨t, whead, mem', hloop, hsplit, hmem, hwtail, hwatch, hlen, htouch⟩ :=
    (taking hf hufd).loop imask empty
      (Nat.le_trans (hf.length_le _) hrounds) hshown rfl rfl
  have hnil : f (.list heads.length) = [] := by
    refine hf.layout.eq_nil_iff.2 ?_
    exact List.getD_eq_default _ _ (Nat.le_refl _)
  have hsub : ∀ l, l ∈ (f (.watch ufd)).filter (Taking.taken? s imask empty) ∨
      l ∈ (f (.watch ufd)).filter (fun l => !Taking.taken? s imask empty l) ↔
        l ∈ f (.watch ufd) := by
    intro l
    rw [List.mem_filter, List.mem_filter]
    cases Taking.taken? s imask empty l <;> simp
  have hlayout := hsplit.layout hf.layout hmem hnil fun l hl => (hsub l).1 hl
  rw [← headOf_append, List.nil_append, List.nil_append] at hlayout
  have htaken := shown_filter (WatchMap.hit imask empty) (Taking.taken? s imask empty)
    (fun l w hw => by rw [Taking.taken?, hw]; rfl) hshown
  have hkept := shown_filter (fun w => !WatchMap.hit imask empty w)
    (fun l => !Taking.taken? s imask empty l)
    (fun l w hw => by rw [Taking.taken?, hw]; rfl) hshown
  have hne : ∀ u, Place.watch u ≠ .list heads.length := fun u => by simp
  have hafter : Tracks t (heads ++ [whead])
      (m.setWatches ufd ((m.watches ufd).filter fun w => !WatchMap.hit imask empty w))
      (lists ++ [(m.watches ufd).filter (WatchMap.hit imask empty)]) := by
    refine h.relist htouch ⟨hlayout, fun l => ?_, by simp, fun p hp => ?_⟩ (fun u => ?_) ?_ rfl
    · rw [hlen, hf.slots l]
      exact or_congr_right (Cells.Split.exists_mem (hne ufd).symm hnil hsub).symm
    · rw [hwatch, content_append, content_setWatches, ← h.count]
      exact shown_update htaken fun _ => shown_update hkept fun _ => hf.shown p hp
    · rw [Function.update_of_ne (hne u)]
      by_cases hu : u = ufd
      · rw [hu, Function.update_self]
        exact hwtail
      · rw [htouch.other u hu, Function.update_of_ne fun he => hu (Place.watch.inj he)]
        exact htail u
    · rw [List.length_append, List.length_append, h.count]
      rfl
  obtain ⟨_, hzero⟩ := hafter.head? List.getElem?_concat_length
  rw [← h.count, headOf_append, Function.update_self] at hzero
  exact ⟨t, whead, hloop, hafter, hzero, htouch.length⟩

theorem takeWatchList (h : Tracks s heads m lists) (fd : Int32) (imask : Fdevent)
    (epoch : Nat) (empty : List Nat) :
    ∃ t whead, s.takeWatchList fd imask epoch empty = some (t, whead) ∧
      Tracks t (heads ++ [whead]) (m.takeWatchList fd imask epoch empty).1
        (lists ++ [(m.takeWatchList fd imask epoch empty).2]) := by
  have hhead := h.watches_eq_nil_iff (unsigned fd)
  have hepoch := h.epoch (unsigned fd)
  have hnone : (s.fdr (unsigned fd)).whead = 0 →
      Tracks s (heads ++ [0]) (m.takeWatchList fd imask epoch empty).1
        (lists ++ [(m.takeWatchList fd imask epoch empty).2]) := by
    intro hzero
    rw [WatchMap.takeWatchList_nil (hhead.2 hzero)]
    exact h.addList
  unfold FdEventSet.takeWatchList
  rcases hr : s.fdr? (unsigned fd) with _ | r
  · refine ⟨s, 0, by simp only [hr], hnone ?_⟩
    rw [FdEventSet.fdr, hr]
    rfl
  · have hufd := FdEventSet.fdr?_eq_some_iff.1 ⟨r, hr⟩
    have hfdr := FdEventSet.fdr_of_fdr? hr
    rw [hfdr] at hhead hepoch hnone
    by_cases hzero : r.whead = 0
    · exact ⟨s, 0, by simp only [hr, hzero, true_or, if_true], hnone hzero⟩
    · by_cases hstale : m.Stale (unsigned fd) epoch
      · have hearly : epoch ≠ 0 ∧ epoch ≠ r.epoch := by
          rw [hepoch]
          exact hstale
        refine ⟨s, 0, by simp only [hr, if_pos (Or.inr hearly)], ?_⟩
        unfold WatchMap.takeWatchList
        simp only [if_pos hstale]
        exact h.addList
      · have hgo : ¬ (r.whead = 0 ∨ (epoch ≠ 0 ∧ epoch ≠ r.epoch)) := by
          rw [hepoch]
          exact not_or.2 ⟨hzero, hstale⟩
        have hrounds : s.ws.length ≤
            (s.modFdr (unsigned fd) fun r => { r with wtail := 0 }).ws.length := Nat.le_refl _
        obtain ⟨t, whead, hloop, ht, hwhead, hlen⟩ := h.takeLoop hufd imask empty hrounds
        rw [hfdr] at hloop
        unfold WatchMap.takeWatchList
        simp only [hr, if_neg hgo, if_neg hstale, hloop, Option.bind_eq_bind, Option.bind_some]
        by_cases hw : whead = 0
        · refine ⟨t, whead, by rw [if_neg (not_not.2 hw)], ?_⟩
          rw [if_pos (hwhead.1 hw)]
          exact ht
        · rw [← hlen] at hufd
          obtain ⟨u, hqueue, hu, _⟩ := ht.queueUpdate hufd
          refine ⟨u, whead, by rw [if_pos hw, hqueue]; rfl, ?_⟩
          rw [if_neg fun he => hw (hwhead.2 he)]
          exact hu

theorem headOf_set {i : Nat} (hi : i < heads.length) (v : Nat) :
    headOf (heads.set i v) = Function.update (headOf heads) i v := by
  funext j
  unfold headOf
  rw [List.getD_eq_getElem?_getD, List.getElem?_set]
  by_cases hj : j = i
  · rw [hj, if_pos rfl, if_pos hi, Function.update_self]
    rfl
  · rw [if_neg (Ne.symm hj), Function.update_of_ne hj, List.getD_eq_getElem?_getD]

theorem content_set {i : Nat} (hi : i < lists.length) (ws : List Watch) :
    content m (lists.set i ws) = Function.update (content m lists) (.list i) ws := by
  funext p
  cases p with
  | free => rfl
  | watch u => rfl
  | list j =>
    show (lists.set i ws).getD j [] = _
    rw [List.getD_eq_getElem?_getD, List.getElem?_set]
    by_cases hj : j = i
    · rw [hj, if_pos rfl, if_pos hi, Function.update_self]
      rfl
    · rw [if_neg (Ne.symm hj), Function.update_of_ne fun he => hj (Place.list.inj he)]
      exact (List.getD_eq_getElem?_getD ..).symm

/-- The first watch of a caller's list is returned, and its slot is free. -/
theorem popWatchListEvent (h : Tracks s heads m lists) {i : Nat} {w : Watch} {rest : List Watch}
    (hi : lists[i]? = some (w :: rest)) (mask : Fdevent) :
    ∃ t next, s.popWatchListEvent (headOf heads i) mask =
        some (t, next, if mask ≠ Fdevent.none then [.setUserFlags w.ev mask] else [], some w.ev) ∧
      Tracks t (heads.set i next) m (lists.set i rest) := by
  obtain ⟨f, hf, htail⟩ := h.slots
  have hlt := (List.getElem?_eq_some_iff.1 hi).1
  have hlt' : i < heads.length := by
    rw [h.count]
    exact hlt
  have hcontent : content m lists (.list i) = w :: rest := by
    show lists.getD i [] = w :: rest
    rw [List.getD_eq_getElem?_getD, hi, Option.getD_some]
  rcases hl : f (.list i) with _ | ⟨l, ls⟩
  · have hnil := (hf.eq_nil (Place.list_ne i)).1 hl
    rw [hcontent] at hnil
    cases hnil
  · have hhead : headOf heads i = l := hf.layout.head hl
    obtain ⟨wr, w', rest', hwr, hev, -, hg, -⟩ := hf.first (Place.list_ne i) hl
    rw [hcontent] at hg
    obtain ⟨rfl, rfl⟩ := List.cons.inj hg
    have hmem : s.mem (headOf (heads.set i wr.wlink)) = Function.update (s.mem (headOf heads))
        (Place.list i).root (s.wlink l) := by
      rw [headOf_set hlt', FdEventSet.mem_setHead, FdEventSet.wlink_of_wr? hwr]
      rfl
    have hrelease := hf.release (Place.list_ne i) hl hcontent hmem rfl
    rw [← content_set hlt] at hrelease
    refine ⟨s.freeSlot l, wr.wlink, ?_, ?_⟩
    · simp only [FdEventSet.popWatchListEvent, hhead, hwr, hev, Option.bind_eq_bind,
        Option.bind_some]
    · refine h.relist (Touches.freeSlot : Touches 0 s _) hrelease (fun u => ?_) ?_ rfl
      · have hwatch : Place.watch u ≠ .list i := nofun
        have hfdr : (s.freeSlot l).fdr = s.fdr := FdEventSet.fdr_congr FdEventSet.modWr_fdrs
        rw [Function.update_of_ne (Place.watch_ne u), Function.update_of_ne hwatch, hfdr]
        exact htail u
      · rw [List.length_set, List.length_set, h.count]

/-- `watch_list_mask` is what somebody waits for. -/
theorem maskLoop {empty : List Nat} {v rounds : Nat} {mem : Cell → Nat} {ls : List Nat}
    {ws : List Watch} (hls : slotCells.Linked mem v ls)
    (hmem : ∀ l, mem (.wlink l) = s.wlink l) (hws : ls.map s.watch? = ws.map some)
    (hrounds : ls.length ≤ rounds) (mask : Fdevent) :
    s.maskLoop empty rounds v mask = some (ws.foldl
      (fun mask w => if w.ev ∈ empty then mask else mask ||| w.mask) mask) := by
  induction ls generalizing v rounds ws mask with
  | nil =>
    obtain rfl : v = 0 := hls
    rw [List.map_eq_nil_iff.1 hws.symm]
    cases rounds <;> rfl
  | cons l ls ih =>
    obtain ⟨rfl, hne, hls⟩ := hls
    obtain ⟨i, rfl⟩ := Nat.exists_eq_succ_of_ne_zero hne
    obtain _ | rounds := rounds
    · exact absurd hrounds (Nat.not_succ_le_zero _)
    · rcases ws with _ | ⟨w, ws⟩
      · cases hws
      · rw [List.map_cons, List.map_cons] at hws
        obtain ⟨hw, hrest⟩ := List.cons.inj hws
        obtain ⟨wr, hwr, hmap⟩ := Option.bind_eq_some_iff.1 hw
        obtain ⟨ev, hev, rfl⟩ := Option.map_eq_some_iff.1 hmap
        have hlink : mem (slotCells.node (i + 1)) = wr.wlink :=
          (hmem _).trans (FdEventSet.wlink_of_wr? hwr)
        rw [hlink] at hls
        have hnext := ih hls hrest (Nat.le_of_succ_le_succ hrounds)
          (if ev ∈ empty then mask else mask ||| wr.mask)
        rw [List.foldl_cons]
        simp only [FdEventSet.maskLoop, hwr, hev, Option.bind_eq_bind, Option.bind_some,
          Option.elim_some, decide_eq_true_eq]
        exact hnext

theorem watchListMask (h : Tracks s heads m lists) (ufd : Nat) (empty : List Nat) :
    s.watchListMask empty (s.fdr ufd).whead = some (WatchMap.interest empty (m.watches ufd)) := by
  obtain ⟨f, hf, _⟩ := h.slots
  exact maskLoop (hf.layout.linked (.watch ufd)) (fun _ => rfl) (hf.shown _ (Place.watch_ne ufd))
    (hf.length_le _) _

theorem popUpdate (h : Tracks s heads m lists) (empty : List Nat) :
    ∃ t, s.popUpdate empty = some (t, (m.popUpdate empty).2) ∧
      Tracks t heads (m.popUpdate empty).1 lists := by
  unfold FdEventSet.popUpdate WatchMap.popUpdate
  have hupdates := h.updates
  rcases hus : m.updates with _ | ⟨ufd, rest⟩
  · rw [hus] at hupdates
    have hend : s.updateLink = linkSentinel := (hupdates.layout.eq_nil_iff (i := ())).1 rfl
    exact ⟨s, if_pos hend, h⟩
  · rw [hus] at hupdates
    obtain ⟨hlink, hstop, _⟩ := hupdates.layout.linked ()
    have hlink : s.updateLink = ufd + 1 := hlink
    have hstop : ufd + 1 ≠ linkSentinel := hstop
    have hqueued := (hupdates.queued ufd).2 List.mem_cons_self
    have hr : s.fdr? ufd = some (s.fdr ufd) :=
      FdEventSet.fdr?_of_ne fun he => hqueued (by rw [he])
    have hufd := FdEventSet.fdr?_eq_some_iff.1 ⟨_, hr⟩
    have h₁ := h.setUpdates (hupdates.pop hufd) FdEventSet.modFdr_length rfl rfl
      (fdr_setLink hufd)
    have hmask := h₁.watchListMask ufd empty
    obtain ⟨l, hfdr⟩ := fdr_setLink (v := linkClean) (w := (s.fdr ufd).updateLink) hufd ufd
    rw [hfdr] at hmask
    have hufd₁ : ufd < ({ s.modFdr ufd (fun r => { r with updateLink := linkClean }) with
        updateLink := (s.fdr ufd).updateLink } : FdEventSet).fdrs.length :=
      Nat.lt_of_lt_of_eq hufd FdEventSet.modFdr_length.symm
    have hepoch := h.epoch ufd
    simp only [hlink, if_neg hstop, if_neg (Nat.succ_ne_zero ufd), Nat.add_sub_cancel, hr,
      Option.bind_eq_bind, Option.bind_some, hmask, hepoch]
    by_cases hnone : WatchMap.interest empty (m.watches ufd) = Fdevent.none
    · simp only [if_pos hnone]
      exact ⟨_, rfl, h₁.setEpoch hufd₁ (e := nextEpoch)⟩
    · simp only [if_neg hnone]
      by_cases huser : m.epoch ufd < userEpoch
      · simp only [if_pos huser]
        exact ⟨_, rfl, h₁.setEpoch hufd₁ (e := fun _ => userEpoch)⟩
      · simp only [if_neg huser]
        exact ⟨_, rfl, h₁⟩

end Tracks

end FdEvents
end Cotamer
end Psets
