/-
The kernel is told what the watches of a driver wait for.

A file that is not on the update list is registered for everything its watches wait for,
and a registration carries the epoch the file has.  `watch` can break the second part: it
closes the file under another body, which starts a new epoch, and does not take back the
registration as `notify_close` does.  If the new watches want just what the file is
registered for, the mirror hides the difference from the next `apply_fd_update`.
-/
import Psets.Cotamer.FdControl

namespace Psets
namespace Cotamer
namespace FdEvents

open Transition FdControl

/-! ## The map -/

namespace WatchMap

variable {m : WatchMap} {ufd u : Nat}

theorem mem_touch : u ∈ (m.touch ufd).updates ↔ u = ufd ∨ u ∈ m.updates := by
  unfold touch
  split
  · rename_i h
    exact ⟨.inr, fun hu => hu.elim (fun he => he ▸ h) id⟩
  · exact List.mem_cons

theorem mem_close : u ∈ (m.close ufd).updates ↔ u = ufd ∨ u ∈ m.updates := mem_touch

theorem watches_setWatches {ws : List Watch} :
    (m.setWatches ufd ws).watches = Function.update m.watches ufd ws := rfl

theorem watches_close : (m.close ufd).watches = Function.update m.watches ufd [] := rfl

theorem epoch_close :
    (m.close ufd).epoch = Function.update m.epoch ufd (nextEpoch (m.epoch ufd)) := rfl

/-- A watch changes only its file, which is on the update list then.  The file has a new
epoch only if it had another body. -/
theorem watch_cases {fd : Int32} {mask : Fdevent} {body ev : Nat} {closed : List Nat}
    {m' : WatchMap} {effects : List Effect}
    (h : m.watch fd mask body ev closed = some (m', effects)) :
    m' = m ∨ (∀ u, u ∈ m'.updates ↔ u = unsigned fd ∨ u ∈ m.updates) ∧
      (∀ u, u ≠ unsigned fd → m'.watches u = m.watches u ∧ m'.epoch u = m.epoch u) ∧
      (m'.epoch (unsigned fd) = m.epoch (unsigned fd) ∨
        ∃ old, m.body (unsigned fd) = some old ∧ old ≠ body ∧
          ¬ (fd < 0 ∨ mask = Fdevent.none)) := by
  unfold watch at h
  split at h
  · exact .inl (Prod.mk.inj (Option.some.inj h)).1.symm
  · rename_i hskip
    obtain ⟨⟨n, effects'⟩, hreg, heq⟩ := Option.map_eq_some_iff.1 h
    obtain ⟨rfl, -⟩ := Prod.mk.inj heq
    -- what `register` has done so far
    have hn : (∀ u, u ∈ n.updates → u = unsigned fd ∨ u ∈ m.updates) ∧
        (∀ u, u ∈ m.updates → u ∈ n.updates) ∧
        (∀ u, u ≠ unsigned fd → n.watches u = m.watches u ∧ n.epoch u = m.epoch u) ∧
        (n.epoch (unsigned fd) = m.epoch (unsigned fd) ∨
          ∃ old, m.body (unsigned fd) = some old ∧ old ≠ body) := by
      unfold register at hreg
      split at hreg
      · obtain ⟨rfl, -⟩ := Prod.mk.inj (Option.some.inj hreg)
        exact ⟨fun _ => .inr, fun _ => id, fun _ _ => ⟨rfl, rfl⟩, .inl rfl⟩
      · rename_i old hold
        split at hreg
        · obtain ⟨rfl, -⟩ := Prod.mk.inj (Option.some.inj hreg)
          exact ⟨fun _ => .inr, fun _ => id, fun _ _ => ⟨rfl, rfl⟩, .inl rfl⟩
        · rename_i hne
          split at hreg
          · obtain ⟨rfl, -⟩ := Prod.mk.inj (Option.some.inj hreg)
            exact ⟨fun u => mem_close.1, fun u hu => mem_close.2 (.inr hu),
              fun u hu => ⟨Function.update_of_ne hu _ _, Function.update_of_ne hu _ _⟩,
              .inr ⟨old, hold, hne⟩⟩
          · cases hreg
    obtain ⟨hsub, hsup, hframe, hepoch⟩ := hn
    refine .inr ⟨fun u => ?_, fun u hu => ?_, ?_⟩
    · refine mem_touch.trans ⟨fun h => h.elim .inl (hsub u), fun h => h.imp_right (hsup u)⟩
    · exact ⟨(Function.update_of_ne hu _ _).trans (hframe u hu).1, (hframe u hu).2⟩
    · exact hepoch.imp_right fun ⟨old, hold, hne⟩ => ⟨old, hold, hne, hskip⟩

/-- Taking watches takes no file off the update list and starts no epoch. -/
theorem takeWatchList_frame (m : WatchMap) (fd : Int32) (imask : Fdevent) (epoch : Nat)
    (empty : List Nat) : let m' := (m.takeWatchList fd imask epoch empty).1
    (∀ u ∈ m.updates, u ∈ m'.updates) ∧ (∀ u, m'.watches u ⊆ m.watches u) ∧
      m'.epoch = m.epoch := by
  simp only [takeWatchList]
  split
  · exact ⟨fun _ => id, fun _ => List.Subset.refl _, rfl⟩
  · have hkept : ∀ u, (m.setWatches (unsigned fd) ((m.watches (unsigned fd)).filter
        fun w => !hit imask empty w)).watches u ⊆ m.watches u := by
      intro u
      by_cases hu : u = unsigned fd
      · rw [hu, watches_setWatches, Function.update_self]
        exact List.filter_subset_self _
      · rw [watches_setWatches, Function.update_of_ne hu]
        exact List.Subset.refl _
    split
    · exact ⟨fun _ => id, hkept, rfl⟩
    · exact ⟨fun u hu => mem_touch.2 (.inr hu), hkept, rfl⟩

theorem and_foldl_interest {empty : List Nat} (ws : List Watch) (x acc : Fdevent)
    (hx : x &&& acc = x ∨ ∃ w ∈ ws, w.ev ∉ empty ∧ w.mask = x) :
    x &&& ws.foldl (fun mask w => if w.ev ∈ empty then mask else mask ||| w.mask) acc = x := by
  have hor : ∀ x y z : Fdevent, x &&& y = x ∨ x &&& z = x → x &&& (y ||| z) = x := by decide
  induction ws generalizing acc with
  | nil => exact hx.elim id fun ⟨w, hw, _⟩ => absurd hw List.not_mem_nil
  | cons w ws ih =>
    rw [List.foldl_cons]
    refine ih _ ?_
    rcases hx with hx | ⟨v, hv, hlive, rfl⟩
    · left
      split
      · exact hx
      · exact hor _ _ _ (.inl hx)
    · rcases List.mem_cons.1 hv with rfl | hv
      · left
        rw [if_neg hlive]
        exact hor _ _ _ (.inr (BitVec.and_self))
      · exact .inr ⟨v, hv, hlive, rfl⟩

/-- What a live watch waits for is of interest. -/
theorem and_interest {empty : List Nat} {ws : List Watch} {w : Watch} (hw : w ∈ ws)
    (hlive : w.ev ∉ empty) : w.mask &&& interest empty ws = w.mask :=
  and_foldl_interest ws _ _ (.inr ⟨w, hw, hlive, rfl⟩)

theorem fdClose_cases (m : WatchMap) (fd : Int32) (closed : List Nat) :
    ((m.fdClose fd closed).2.2 = none ∧ (m.fdClose fd closed).1 = m) ∨
      ∃ body epoch, (m.fdClose fd closed).2.2 = some (body, epoch) ∧
        (m.fdClose fd closed).1 = m.close (unsigned fd) := by
  simp only [fdClose]
  split
  · exact .inl ⟨rfl, rfl⟩
  · split
    · exact .inr ⟨_, _, rfl, rfl⟩
    · exact .inl ⟨rfl, rfl⟩

theorem popUpdate_none {empty : List Nat} (h : (m.popUpdate empty).2 = none) :
    (m.popUpdate empty).1 = m := by
  unfold popUpdate at h ⊢
  rcases hus : m.updates with _ | ⟨ufd, rest⟩
  · rfl
  · rw [hus] at h
    simp only [] at h
    split at h
    · cases h
    · split at h <;> cases h

/-- The first file of the update list is updated to what its live watches wait for.  It keeps
its epoch, if it has had one, as long as there are any. -/
theorem popUpdate_cases {empty : List Nat} {fdu : FdUpdate}
    (h : (m.popUpdate empty).2 = some fdu) :
    m.updates = fdu.fd :: (m.popUpdate empty).1.updates ∧
      (m.popUpdate empty).1.watches = m.watches ∧
      fdu.mask = interest empty (m.watches fdu.fd) ∧
      (∀ u, u ≠ fdu.fd → (m.popUpdate empty).1.epoch u = m.epoch u) ∧
      (fdu.mask ≠ Fdevent.none → (m.popUpdate empty).1.epoch fdu.fd = fdu.epoch ∧
        userEpoch ≤ fdu.epoch ∧ (userEpoch ≤ m.epoch fdu.fd → fdu.epoch = m.epoch fdu.fd)) := by
  unfold popUpdate at h ⊢
  rcases hus : m.updates with _ | ⟨ufd, rest⟩
  · rw [hus] at h
    cases h
  · rw [hus] at h
    simp only [] at h ⊢
    split at h
    · rename_i hnone
      rw [if_pos hnone]
      cases h
      exact ⟨rfl, rfl, rfl, fun u hu => Function.update_of_ne hu _ _, fun hne => absurd hnone hne⟩
    · rename_i hsome
      rw [if_neg hsome]
      split at h
      · rename_i huser
        rw [if_pos huser]
        cases h
        exact ⟨rfl, rfl, rfl, fun u hu => Function.update_of_ne hu _ _,
          fun _ => ⟨Function.update_self _ _ _, Nat.le_refl _,
            fun hle => absurd huser (Nat.not_lt.2 hle)⟩⟩
      · rename_i huser
        rw [if_neg huser]
        cases h
        exact ⟨rfl, rfl, rfl, fun _ _ => rfl, fun _ => ⟨rfl, Nat.not_lt.1 huser, fun _ => rfl⟩⟩

end WatchMap

/-! ## The invariant -/

/-- The files of the map are registered for the masks in `mask`, the last time with the
updates in `last`. -/
structure Covered (m : WatchMap) (empty : List Nat) (mask : Nat → BitVec 4)
    (last : Nat → Option FdUpdate) : Prop where
  covers : ∀ ufd, ufd ∉ m.updates → ∀ w ∈ m.watches ufd, w.ev ∉ empty →
    bits w.mask &&& mask ufd = bits w.mask
  current : ∀ ufd, mask ufd ≠ 0 →
    userEpoch ≤ m.epoch ufd ∧ ∃ fdu, last ufd = some fdu ∧ fdu.epoch = m.epoch ufd

namespace Covered

variable {m m' : WatchMap} {empty : List Nat} {mask : Nat → BitVec 4}
  {last last' : Nat → Option FdUpdate}

/-- A call that puts a file on the update list where it adds watches. -/
theorem frame (h : Covered m empty mask last)
    (hwatches : ∀ u, u ∉ m'.updates → u ∉ m.updates ∧ m'.watches u ⊆ m.watches u)
    (hepoch : ∀ u, mask u ≠ 0 → m'.epoch u = m.epoch u) : Covered m' empty mask last where
  covers ufd hufd w hw hlive := by
    obtain ⟨hbefore, hsub⟩ := hwatches ufd hufd
    exact h.covers ufd hbefore w (hsub hw) hlive
  current ufd hmask := by
    rw [hepoch ufd hmask]
    exact h.current ufd hmask

theorem vacate (h : Covered m empty mask last) (ev : Nat) : Covered m (ev :: empty) mask last where
  covers ufd hufd w hw hlive := h.covers ufd hufd w hw fun he => hlive (List.mem_cons_of_mem _ he)
  current := h.current

/-- A file is closed and its registration taken back. -/
theorem close (h : Covered m empty mask last) (ufd : Nat)
    (hlast : ∀ u, u ≠ ufd → last' u = last u) :
    Covered (m.close ufd) empty (Function.update mask ufd 0) last' where
  covers u hu w hw hlive := by
    obtain ⟨hne, hbefore⟩ := not_or.1 (mt WatchMap.mem_close.2 hu)
    rw [WatchMap.watches_close, Function.update_of_ne hne] at hw
    rw [Function.update_of_ne hne]
    exact h.covers u hbefore w hw hlive
  current u hmask := by
    by_cases hne : u = ufd
    · rw [hne, Function.update_self] at hmask
      exact absurd rfl hmask
    · rw [Function.update_of_ne hne] at hmask
      rw [WatchMap.epoch_close, Function.update_of_ne hne, hlast u hne]
      exact h.current u hmask

theorem popUpdate (h : Covered m empty mask last) {fdu : FdUpdate}
    (hpop : (m.popUpdate empty).2 = some fdu)
    (hlast : last' = if mask fdu.fd = bits fdu.mask then last
      else Function.update last fdu.fd (some fdu)) :
    Covered (m.popUpdate empty).1 empty (Function.update mask fdu.fd (bits fdu.mask)) last' := by
  obtain ⟨hus, hwatches, hmask, hepoch, hlive⟩ := WatchMap.popUpdate_cases hpop
  constructor
  · intro u hu w hw hev
    rw [hwatches] at hw
    by_cases hne : u = fdu.fd
    · subst hne
      rw [Function.update_self, hmask, bits, bits, ← BitVec.setWidth_and,
        WatchMap.and_interest hw hev]
    · rw [Function.update_of_ne hne]
      refine h.covers u (fun hmem => ?_) w hw hev
      rw [hus] at hmem
      exact (List.mem_cons.1 hmem).elim hne hu
  · intro u hbits
    by_cases hne : u = fdu.fd
    · subst hne
      rw [Function.update_self] at hbits
      obtain ⟨hnow, huser, hkeep⟩ := hlive (mt bits_eq_zero_iff.2 hbits)
      rw [hnow, hlast]
      refine ⟨huser, ?_⟩
      split
      · rename_i hsame
        -- nothing is told, so the epoch must not have moved
        rw [← hsame] at hbits
        obtain ⟨hle, told, htold, he⟩ := h.current _ hbits
        exact ⟨told, htold, he.trans (hkeep hle).symm⟩
      · exact ⟨fdu, Function.update_self _ _ _, rfl⟩
    · rw [Function.update_of_ne hne] at hbits
      have hother : last' u = last u := by
        rw [hlast]
        split
        · rfl
        · exact Function.update_of_ne hne _ _
      rw [hepoch u hne, hother]
      exact h.current u hbits

end Covered

/-- The set is in step with the map, and the map is covered. -/
structure Mirrors (s : FdControl) (a : MapSession) : Prop where
  inStep : InStep s.session a
  covered : Covered a.map s.empty s.nibble s.registration
  counted : s.Counted

theorem nibble_start (ufd : Nat) : ({} : FdControl).nibble ufd = 0 := by
  simp [nibble, Containers.lane]

theorem Mirrors.start : Mirrors {} {} where
  inStep := .start
  covered := ⟨fun _ _ _ hw => absurd hw List.not_mem_nil,
    fun ufd hmask => absurd (nibble_start ufd) hmask⟩
  counted := ⟨∅, fun ufd => iff_of_false (Finset.notMem_empty _) fun h => h (nibble_start ufd), rfl⟩

/-- A file that is registered is not closed in favour of another body. -/
def keepsRegistration (s : FdControl) : FdControl.Label → Prop
  | .watch fd mask body _ => fd < 0 ∨ mask = Fdevent.none ∨
      (s.fds.fdr (unsigned fd)).body = none ∨ (s.fds.fdr (unsigned fd)).body = some body ∨
      s.nibble (unsigned fd) = 0
  | _ => True

instance (s : FdControl) (l : FdControl.Label) : Decidable (keepsRegistration s l) := by
  cases l <;> unfold keepsRegistration <;> infer_instance

theorem InStep.step_some {s t : Session} {a : MapSession} (h : InStep s a) {l : Label}
    (hl : s.step l = some t) : ∃ b, a.step l = some b ∧ InStep t b := by
  have hrel := h.step l
  rw [hl] at hrel
  generalize a.step l = y at hrel
  cases hrel with
  | some hb => exact ⟨_, rfl, hb⟩

namespace Mirrors

variable {s t : FdControl} {a : MapSession}

theorem watch (h : Mirrors s a) {fd : Int32} {mask : Fdevent} {body ev : Nat}
    (hok : keepsRegistration s (.watch fd mask body ev))
    (hstep : s.step (.watch fd mask body ev) = some t) : ∃ b, Mirrors t b := by
  obtain ⟨session, hsession, heq⟩ := Option.bind_eq_some_iff.1 hstep
  cases heq
  obtain ⟨b, hb, hin⟩ := h.inStep.step_some hsession
  obtain ⟨⟨m', effects⟩, hwatch, heq⟩ := Option.bind_eq_some_iff.1 hb
  cases heq
  refine ⟨_, hin, ?_, h.counted⟩
  rcases WatchMap.watch_cases hwatch with rfl | ⟨hus, hframe, hepoch⟩
  · exact h.covered
  · refine h.covered.frame (fun u hu => ?_) fun u hmask => ?_
    · obtain ⟨hne, hbefore⟩ := not_or.1 (mt (hus u).2 hu)
      exact ⟨hbefore, fun w hw => (hframe u hne).1 ▸ hw⟩
    · by_cases hne : u = unsigned fd
      · subst hne
        rcases hepoch with hepoch | ⟨old, hold, hother, hskip⟩
        · exact hepoch
        · -- the file had a registration and another body
          obtain ⟨hfd, hnone⟩ := not_or.1 hskip
          rw [keepsRegistration, fds, h.inStep.tracks.body, hold] at hok
          rcases hok with hok | hok | hok | hok | hok
          · exact absurd hok hfd
          · exact absurd hok hnone
          · cases hok
          · exact absurd (Option.some.inj hok) hother
          · exact absurd hok hmask
      · exact (hframe u hne).2

theorem takeWatchList (h : Mirrors s a) {fd : Int32} {imask : Fdevent} {epoch : Nat}
    (hstep : s.step (.takeWatchList fd imask epoch) = some t) : ∃ b, Mirrors t b := by
  obtain ⟨session, hsession, heq⟩ := Option.bind_eq_some_iff.1 hstep
  cases heq
  obtain ⟨b, hb, hin⟩ := h.inStep.step_some hsession
  cases hb
  obtain ⟨hus, hsub, hepoch⟩ := a.map.takeWatchList_frame fd imask epoch s.empty
  refine ⟨_, hin, h.covered.frame (fun u hu => ⟨mt (hus u) hu, hsub u⟩) fun u _ => ?_, h.counted⟩
  exact congrFun hepoch u

theorem popWatchListEvent (h : Mirrors s a) {i : Nat} {mask : Fdevent}
    (hstep : s.step (.popWatchListEvent i mask) = some t) : ∃ b, Mirrors t b := by
  obtain ⟨session, hsession, heq⟩ := Option.bind_eq_some_iff.1 hstep
  cases heq
  obtain ⟨b, hb, hin⟩ := h.inStep.step_some hsession
  rcases hi : a.lists[i]? with _ | _ | ⟨w, rest⟩
  · simp only [MapSession.step, hi] at hb
    cases hb
  · simp only [MapSession.step, hi] at hb
    cases hb
  · simp only [MapSession.step, hi] at hb
    cases hb
    exact ⟨_, hin, h.covered, h.counted⟩

/-- The set has returned an update, which is applied. -/
theorem applyFdUpdate {session : Session} (hin : InStep session a) (hcount : s.Counted)
    (fdu : FdUpdate)
    (hcover : ∀ last, last = (if s.nibble fdu.fd = bits fdu.mask then s.registration
        else Function.update s.registration fdu.fd (some fdu)) →
      Covered a.map s.empty (Function.update s.nibble fdu.fd (bits fdu.mask)) last) :
    Mirrors ({ s with session }.applyFdUpdate fdu) a := by
  have hcount : ({ s with session } : FdControl).Counted := hcount
  refine ⟨?_, ?_, hcount.applyFdUpdate fdu⟩
  · rw [session_applyFdUpdate]
    exact hin
  · rw [empty_applyFdUpdate, nibble_applyFdUpdate]
    exact hcover _ (registration_applyFdUpdate { s with session } fdu)

theorem notifyClose (h : Mirrors s a) {baseFd : Int32}
    (hstep : s.step (.notifyClose baseFd) = some t) : ∃ b, Mirrors t b := by
  obtain ⟨set, hclose, ht, _⟩ := h.inStep.tracks.fdClose baseFd s.closed
  have hin := h.inStep.returned ht (a.map.fdClose baseFd s.closed).2.1
    (.body (a.map.fdClose baseFd s.closed).2.2)
  simp only [FdControl.step, FdControl.notifyClose, hclose, Option.bind_eq_bind,
    Option.bind_some] at hstep
  rcases a.map.fdClose_cases baseFd s.closed with ⟨hfx, hmap⟩ | ⟨body, epoch, hfx, hmap⟩
  · rw [hfx] at hstep hin
    rw [hmap] at hin
    cases hstep
    exact ⟨_, hin, h.covered, h.counted⟩
  · rw [hfx] at hstep hin
    rw [hmap] at hin
    cases hstep
    refine ⟨_, applyFdUpdate hin h.counted _ ?_⟩
    rintro last rfl
    refine h.covered.close (unsigned baseFd) fun u hu => ?_
    split
    · rfl
    · exact Function.update_of_ne hu _ _

theorem update (h : Mirrors s a) :
    ∃ t b, s.update = some t ∧ Mirrors t b ∧ b.map = (a.map.popUpdate s.empty).1 := by
  obtain ⟨set, hpop, ht⟩ := h.inStep.tracks.popUpdate s.empty
  have hin := h.inStep.returned ht [] (.update (a.map.popUpdate s.empty).2)
  simp only [FdControl.update, hpop, Option.bind_eq_bind, Option.bind_some]
  rcases hfdu : (a.map.popUpdate s.empty).2 with _ | fdu
  · rw [hfdu] at hin
    rw [WatchMap.popUpdate_none hfdu] at hin ⊢
    exact ⟨_, _, rfl, ⟨hin, h.covered, h.counted⟩, rfl⟩
  · rw [hfdu] at hin
    refine ⟨_, _, rfl, applyFdUpdate hin h.counted fdu fun last hlast => ?_, rfl⟩
    exact h.covered.popUpdate hfdu hlast

end Mirrors

theorem Mirrors.step {s t : FdControl} {a : MapSession} (h : Mirrors s a) (l : FdControl.Label)
    (hok : keepsRegistration s l) (hstep : s.step l = some t) : ∃ b, Mirrors t b := by
  cases l with
  | watch fd mask body ev => exact h.watch hok hstep
  | takeWatchList fd imask epoch => exact h.takeWatchList hstep
  | popWatchListEvent i mask => exact h.popWatchListEvent hstep
  | notifyClose baseFd => exact h.notifyClose hstep
  | update =>
    obtain ⟨_, b, hround, hb, _⟩ := h.update
    cases hstep.symm.trans hround
    exact ⟨b, hb⟩
  | closeBody body =>
    cases hstep
    exact ⟨a, h.inStep, h.covered, h.counted⟩
  | vacate ev =>
    cases hstep
    exact ⟨a, h.inStep, h.covered.vacate ev, h.counted⟩

theorem mirrors {s : FdControl} (h : fdControlMachine.ReachableBy keepsRegistration s) :
    ∃ a, Mirrors s a := by
  refine h.invariant (P := fun s => ∃ a, Mirrors s a) ?_ ?_
  · rintro s rfl
    exact ⟨{}, .start⟩
  · rintro s l t ⟨a, ha⟩ hok hstep
    exact ha.step l hok hstep

/-! ## The registrations -/

theorem FdEventSet.OnList.mem {s : FdEventSet} {heads : Nat → Nat} {v wix : Nat}
    (h : s.OnList v wix) {ls : List Nat} (hls : slotCells.Linked (s.mem heads) v ls) :
    wix ∈ ls := by
  induction h generalizing ls with
  | here hne =>
    cases ls with
    | nil => exact absurd hls hne
    | cons l ls => exact hls.1 ▸ List.mem_cons_self
  | @next link wix wr hwr _ ih =>
    cases ls with
    | nil =>
      obtain rfl : link = 0 := hls
      cases hwr
    | cons l ls =>
      obtain ⟨rfl, _, hls⟩ := hls
      have hlink : s.mem heads (slotCells.node link) = wr.wlink := FdEventSet.wlink_of_wr? hwr
      rw [hlink] at hls
      exact List.mem_cons_of_mem _ (ih hls)

theorem FdEventSet.hasUpdate_eq_false_iff {s : FdEventSet} :
    s.hasUpdate = false ↔ s.updateLink = linkSentinel := by
  rw [hasUpdate, decide_eq_false_iff_not, not_not]

/-- The kernel has been told what the watches wait for, in the present epochs. -/
structure Told (s : FdControl) : Prop where
  covers : ∀ ufd wix wr ev, s.fds.OnList (s.fds.fdr ufd).whead wix → s.fds.wr? wix = some wr →
    wr.ev = some ev → ev ∉ s.empty → bits wr.mask &&& s.nibble ufd = bits wr.mask
  current : ∀ ufd, s.nibble ufd ≠ 0 →
    ∃ fdu, s.registration ufd = some fdu ∧ fdu.epoch = (s.fds.fdr ufd).epoch
  counted : s.Counted

theorem Mirrors.told {s : FdControl} {a : MapSession} (h : Mirrors s a)
    (hend : s.fds.hasUpdate = false) : Told s := by
  have hupdates : a.map.updates = [] := by
    have hlink : s.fds.updateLink = linkSentinel := FdEventSet.hasUpdate_eq_false_iff.1 hend
    exact List.map_eq_nil_iff.1 ((h.inStep.tracks.updates.layout.eq_nil_iff (i := ())).2 hlink)
  refine ⟨fun ufd wix wr ev hon hwr hev hlive => ?_, fun ufd hmask => ?_, h.counted⟩
  · obtain ⟨f, hf, _⟩ := h.inStep.tracks.slots
    have hmem : wix ∈ f (.watch ufd) := hon.mem (hf.layout.linked (.watch ufd))
    have hwatch : s.fds.watch? wix = some ⟨ev, wr.mask⟩ := by
      rw [FdEventSet.watch?, hwr, Option.bind_some, hev]
      rfl
    have hshown : some (Watch.mk ev wr.mask) ∈ (a.map.watches ufd).map some := by
      have heq : (f (.watch ufd)).map s.fds.watch? = (a.map.watches ufd).map some :=
        hf.shown _ (Place.watch_ne ufd)
      rw [← heq, ← hwatch]
      exact List.mem_map_of_mem hmem
    obtain ⟨w, hw, heq⟩ := List.mem_map.1 hshown
    obtain rfl := Option.some.inj heq
    exact h.covered.covers ufd (by rw [hupdates]; exact List.not_mem_nil) _ hw hlive
  · obtain ⟨-, fdu, hfdu, hepoch⟩ := h.covered.current ufd hmask
    exact ⟨fdu, hfdu, hepoch.trans (h.inStep.tracks.epoch ufd).symm⟩

theorem Mirrors.drain {s : FdControl} {a : MapSession} (h : Mirrors s a) :
    ∃ n t, fdControlMachine.exec s (List.replicate n .update) = some t ∧
      t.fds.hasUpdate = false := by
  obtain ⟨us, hus⟩ : ∃ us, a.map.updates = us := ⟨_, rfl⟩
  induction us generalizing s a with
  | nil =>
    refine ⟨0, s, rfl, FdEventSet.hasUpdate_eq_false_iff.2 ?_⟩
    exact (h.inStep.tracks.updates.layout.eq_nil_iff (i := ())).1 (List.map_eq_nil_iff.2 hus)
  | cons ufd us ih =>
    obtain ⟨t, b, hround, hb, hmap⟩ := h.update
    have hrest : b.map.updates = us := by
      rw [hmap]
      rcases hfdu : (a.map.popUpdate s.empty).2 with _ | fdu
      · rw [WatchMap.popUpdate, hus] at hfdu
        simp only [] at hfdu
        split at hfdu
        · cases hfdu
        · split at hfdu <;> cases hfdu
      · obtain ⟨hcons, -⟩ := WatchMap.popUpdate_cases hfdu
        rw [hus] at hcons
        exact (List.cons.inj hcons).2.symm
    obtain ⟨n, t', hrun, hend⟩ := ih hb hrest
    exact ⟨n + 1, t', Machine.exec_cons hround hrun, hend⟩

/-- The loop over the updates ends. -/
theorem drain_ends {s : FdControl} (h : fdControlMachine.ReachableBy keepsRegistration s) :
    ∃ n t, fdControlMachine.exec s (List.replicate n .update) = some t ∧
      t.fds.hasUpdate = false := by
  obtain ⟨a, ha⟩ := mirrors h
  exact ha.drain

/-- When the loop over the updates has ended, the kernel has been told what all watches wait
for, provided no registered file was closed in favour of another body. -/
theorem watches_told {s t : FdControl} (h : fdControlMachine.ReachableBy keepsRegistration s)
    (hround : fdControlMachine.step s .update = some t) (hend : s.fds.hasUpdate = false) :
    Told t := by
  obtain ⟨a, ha⟩ := mirrors h
  obtain ⟨b, hb⟩ := ha.step .update trivial hround
  refine hb.told ?_
  have hpop : s.session.set.popUpdate s.empty = some (s.session.set, none) :=
    if_pos (FdEventSet.hasUpdate_eq_false_iff.1 hend)
  have hround : s.update = some t := hround
  simp only [FdControl.update, hpop, Option.bind_eq_bind, Option.bind_some] at hround
  cases hround
  exact hend

/-- The file is registered, and its body closed.  Before the driver learns of it, the file is
watched for the same with a new body. -/
def rebodiedRun : List FdControl.Label :=
  [.watch 5 Fdevent.read 1 100, .update, .update, .closeBody 1, .watch 5 Fdevent.read 2 101,
    .update]

def rebodied : FdControl := (fdControlMachine.exec {} rebodiedRun).get (by decide +kernel)

def rebodiedEnd : FdControl :=
  (fdControlMachine.step rebodied .update).get (by decide +kernel)

/-- The registration is of the epoch before. -/
theorem rebodied_stale :
    ¬ ∀ ls s t, fdControlMachine.exec {} ls = some s → fdControlMachine.step s .update = some t →
      s.fds.hasUpdate = false → Told t := by
  intro h
  have htold := h rebodiedRun rebodied rebodiedEnd (Option.some_get _).symm
    (Option.some_get _).symm (by decide +kernel)
  obtain ⟨fdu, hfdu, hepoch⟩ := htold.current 5 (by decide +kernel)
  have hlast : rebodiedEnd.registration 5 = some ⟨5, Fdevent.read, 2⟩ := by decide +kernel
  rw [hlast] at hfdu
  obtain rfl := Option.some.inj hfdu
  exact absurd hepoch (by decide +kernel)

/-- The body is closed and the driver told, then the file is watched with a new one. -/
def reopenedRun : List FdControl.Label :=
  [.watch 5 Fdevent.read 1 100, .update, .update, .closeBody 1, .notifyClose 5,
    .watch 5 Fdevent.read 2 101, .update]

def reopenedEnd : FdControl := (fdControlMachine.exec {} reopenedRun).get (by decide +kernel)

theorem reopened_told : ∃ t, fdControlMachine.step reopenedEnd .update = some t ∧ Told t := by
  have hreach : fdControlMachine.ReachableBy keepsRegistration reopenedEnd :=
    Machine.ReachableBy.of_exec (.init rfl)
      (by decide +kernel : fdControlMachine.Within keepsRegistration {} reopenedRun)
      (Option.some_get _).symm
  have hround : fdControlMachine.step reopenedEnd .update = some
      ((fdControlMachine.step reopenedEnd .update).get (by decide +kernel)) :=
    (Option.some_get _).symm
  exact ⟨_, hround, watches_told hreach hround (by decide +kernel)⟩

end FdEvents
end Cotamer
end Psets
