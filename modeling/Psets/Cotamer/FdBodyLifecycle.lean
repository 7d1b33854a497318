/-
The life of an `fd_body`: the file is closed once, the body is deleted once.

Whoever finds that the last registration or the last reference goes has to close the file
or to delete the body.  The ledger counts what was done together with what some thread has
left to do, and it comes out the same in every order.
-/
import Mathlib.Algebra.Order.Group.Nat
import Psets.Cotamer.FdBody

namespace Psets
namespace Cotamer
namespace FdBody

open Transition Containers FdEvents

def Act.isCloseOs : Act → Bool
  | .closeOs _ => true
  | _ => false

def Act.isDelete : Act → Bool
  | .delete => true
  | _ => false

/-! ## The body -/

/-- The file of `b` is closed `closes` times and `b` is deleted `deletes` times, when all
threads have done what is left. -/
structure Ledger (b : FdBody) (closes deletes : Nat) : Prop where
  opened : b.fd ≠ none → b.baseFd ≠ none ∧ b.ref ≠ 0
  registered : b.fd = none → (b.baseFd = none ↔ b.drivers = [])
  closed : closes = if b.baseFd = none then 1 else 0
  deleted : deletes = if b.ref = 0 ∧ b.drivers = [] then 1 else 0

variable {b : FdBody} {closes deletes : Nat}

theorem Ledger.ref_eq (h : Ledger b closes deletes) {ref : Nat} (hold : b.ref ≠ 0)
    (hnew : ref ≠ 0) : Ledger { b with ref } closes deletes where
  opened hfd := ⟨(h.opened hfd).1, hnew⟩
  registered := h.registered
  closed := h.closed
  deleted := by
    rw [h.deleted, if_neg fun hb => hold hb.1, if_neg fun hb => hnew hb.1]

theorem Ledger.addListener (h : Ledger b closes deletes) (hfd : b.fd ≠ none) (d : Nat) :
    Ledger (b.addListener d) closes deletes where
  opened := h.opened
  registered hnone := absurd hnone hfd
  closed := h.closed
  deleted := by
    have href := (h.opened hfd).2
    rw [h.deleted, if_neg fun hb => href hb.1, if_neg fun hb => href hb.1]

theorem Ledger.removeListener (h : Ledger b closes deletes) {d : Nat} (hd : d ∈ b.drivers) :
    Ledger (b.removeListener d).1 (closes + (b.removeListener d).2.countP Act.isCloseOs)
      (deletes + (b.removeListener d).2.countP Act.isDelete) := by
  have hne : b.drivers ≠ [] := List.ne_nil_of_mem hd
  have hdel : deletes = 0 := by rw [h.deleted, if_neg fun hb => hne hb.2]
  obtain ⟨fd, baseFd, ref, drivers⟩ := b
  unfold FdBody.removeListener
  by_cases hlast : swapErase d drivers = []
  · -- the last registration goes
    rw [if_neg (not_not.2 hlast), hlast, hdel]
    cases fd with
    | some fd =>
      obtain ⟨hbase, href⟩ := h.opened nofun
      have hclosed : closes = 0 := by rw [h.closed, if_neg hbase]
      have href : ref ≠ 0 := href
      rw [hclosed]
      have hbase : baseFd ≠ none := hbase
      exact ⟨fun _ => ⟨by simpa using hbase, href⟩, nofun, by simp [href, hbase], by simp [href]⟩
    | none =>
      have hbase : baseFd ≠ none := fun hb => hne ((h.registered rfl).1 hb)
      obtain ⟨f, rfl⟩ := Option.ne_none_iff_exists'.1 hbase
      have hclosed : closes = 0 := by rw [h.closed, if_neg hbase]
      rw [hclosed]
      by_cases href : ref = 0 <;>
        exact ⟨fun hfd => absurd rfl hfd, fun _ => by simp,
          by simp [href, List.countP_cons, Act.isCloseOs],
          by simp [href, List.countP_cons, Act.isDelete]⟩
  · rw [if_pos hlast]
    refine ⟨h.opened, fun hfd => ?_, h.closed, ?_⟩
    · exact (h.registered hfd).trans (iff_of_false hne hlast)
    · rw [hdel]
      exact (if_neg fun hb => hlast hb.2).symm

theorem Ledger.close (h : Ledger b closes deletes) {becauseDeref : Bool} (href : b.ref ≠ 0)
    (hlast : becauseDeref = true → b.ref = 1) :
    Ledger (b.close becauseDeref).1 (closes + (b.close becauseDeref).2.countP Act.isCloseOs)
      (deletes + (b.close becauseDeref).2.countP Act.isDelete) := by
  have hdel : deletes = 0 := by rw [h.deleted, if_neg fun hb => href hb.1]
  have hnotify : ∀ (p : Act → Bool) (f : Nat) (ds : List Nat),
      (∀ d, p (.notifyClose f d) = false) → (ds.map (Act.notifyClose f)).countP p = 0 := by
    intro p f ds hp
    rw [List.countP_map, List.countP_eq_zero]
    intro d _
    simp [hp]
  obtain ⟨fd, baseFd, ref, drivers⟩ := b
  have href : ref ≠ 0 := href
  have hclosed := h.closed
  rw [hdel]
  unfold FdBody.close
  cases fd with
  | none =>
    have hreg : baseFd = none ↔ drivers = [] := h.registered rfl
    cases becauseDeref with
    | false =>
      refine ⟨fun hfd => absurd rfl hfd, fun _ => ?_, ?_, ?_⟩
      · simpa using hreg
      · simpa using hclosed
      · simp [href]
    | true =>
      have href : ref = 1 := hlast rfl
      refine ⟨fun hfd => absurd rfl hfd, fun _ => ?_, ?_, ?_⟩
      · simpa using hreg
      · by_cases hd : drivers = [] <;> simpa [hd, Act.isCloseOs] using hclosed
      · by_cases hd : drivers = [] <;> simp [hd, href, Act.isDelete]
  | some fd =>
    obtain ⟨f, rfl⟩ := Option.ne_none_iff_exists'.1 (h.opened nofun).1
    have hclosed : closes = 0 := by rw [hclosed, if_neg nofun]
    rw [hclosed]
    by_cases hd : drivers = []
    · subst hd
      cases becauseDeref with
      | false =>
        exact ⟨fun hfd => absurd rfl hfd, fun _ => by simp, by simp [Act.isCloseOs],
          by simp [href, Act.isDelete]⟩
      | true =>
        have href : ref = 1 := hlast rfl
        exact ⟨fun hfd => absurd rfl hfd, fun _ => by simp,
          by simp [List.countP_cons, Act.isCloseOs],
          by simp [href, List.countP_cons, Act.isDelete]⟩
    · have hc := hnotify Act.isCloseOs f drivers fun _ => rfl
      have hdl := hnotify Act.isDelete f drivers fun _ => rfl
      refine ⟨fun hfd => absurd rfl hfd, fun _ => ?_, ?_, ?_⟩
      · simp [hd]
      · simp [hd, hc]
      · simp [hd, hdl]

@[simp] theorem fd_removeListener (d : Nat) : (b.removeListener d).1.fd = b.fd := by
  simp only [removeListener]
  split <;> rfl

@[simp] theorem ref_removeListener (d : Nat) : (b.removeListener d).1.ref = b.ref := by
  simp only [removeListener]
  split <;> rfl

@[simp] theorem drivers_removeListener (d : Nat) :
    (b.removeListener d).1.drivers = swapErase d b.drivers := by
  simp only [removeListener]
  split <;> rfl

theorem mem_swapErase {l : List Nat} (h : l.Nodup) {d e : Nat} :
    e ∈ swapErase d l ↔ e ≠ d ∧ e ∈ l :=
  (swapErase_perm d l).mem_iff.trans h.mem_erase_iff

/-- An open body that is closed notifies all its drivers. -/
theorem notifyClose_mem_close (becauseDeref : Bool) {d : Nat} (hfd : b.fd ≠ none)
    (hbase : b.baseFd ≠ none) (hd : d ∈ b.drivers) :
    ∃ fd, Act.notifyClose fd d ∈ (b.close becauseDeref).2 := by
  obtain ⟨f, hf⟩ := Option.ne_none_iff_exists'.1 hbase
  refine ⟨f, ?_⟩
  simp [close, hfd, hf, List.ne_nil_of_mem hd, hd]

/-! ## The invariant -/

/-- The threads have yet to do `acts`, to trigger `evs` and to end the calls of `deref` that
have read `loaded`; one of them is in `watch` if `watching`. -/
structure Inv (s : Life) (acts : List Act) (evs loaded : List Nat) (watching : Bool) : Prop where
  ledger : Ledger s.body (s.osCloses + acts.countP Act.isCloseOs)
    (s.deletes + acts.countP Act.isDelete)
  refs : s.body.ref = s.held + loaded.length
  last : 1 ∈ loaded → s.body.ref = 1
  watching : watching = true → s.held ≠ 0
  nodup : s.body.drivers.Nodup
  listed : ∀ d, d ∈ s.body.drivers ↔ s.watches d ≠ none
  accounted : ∀ ev ∈ s.returned, ev ∈ s.triggered ∨ ev ∈ s.freed ∨ ev ∈ evs ∨
    ∃ d ws, s.watches d = some ws ∧ ev ∈ ws.map Watch.ev
  freed : ∀ ev ∈ s.freed, ev ∈ s.released

theorem countP_pending (n : Nat) (p : Act → Bool) (more acts : List Act) :
    n + (more ++ acts).countP p = n + acts.countP p + more.countP p := by
  rw [List.countP_append]
  omega

/-- A driver that has a closed body registered is going to be told. -/
def Notified (s : Life) (acts : List Act) : Prop :=
  s.body.fd = none → ∀ d, s.watches d ≠ none →
    s.migrateFdClose d ≠ 0 ∨ ∃ fd, .notifyClose fd d ∈ acts

namespace Inv

variable {s : Life} {acts as : List Act} {evs loaded : List Nat} {watching : Bool}

theorem perm (h : Inv s acts evs loaded watching) {acts' : List Act} {evs' loaded' : List Nat}
    {watching' : Bool} (hacts : acts.Perm acts') (hevs : evs.Perm evs')
    (hloaded : loaded.Perm loaded') (hwatching : watching' = true → watching = true) :
    Inv s acts' evs' loaded' watching' where
  ledger := by
    rw [← hacts.countP_eq, ← hacts.countP_eq]
    exact h.ledger
  refs := by
    rw [← hloaded.length_eq]
    exact h.refs
  last hmem := h.last (hloaded.mem_iff.2 hmem)
  watching hw := h.watching (hwatching hw)
  nodup := h.nodup
  listed := h.listed
  accounted ev hev := by
    rw [← hevs.mem_iff]
    exact h.accounted ev hev
  freed := h.freed

theorem ref (h : Inv s acts evs loaded watching) (hheld : s.held ≠ 0) :
    Inv { s with body := { s.body with ref := s.body.ref + 1 }, held := s.held + 1 }
      acts evs loaded watching where
  ledger := h.ledger.ref_eq (by rw [h.refs]; omega) (Nat.succ_ne_zero _)
  refs := by
    show s.body.ref + 1 = s.held + 1 + loaded.length
    rw [h.refs]
    omega
  last hmem := by
    have hone := h.last hmem
    have hpos := List.length_pos_of_mem hmem
    have hrefs := h.refs
    omega
  watching _ := Nat.succ_ne_zero _
  nodup := h.nodup
  listed := h.listed
  accounted := h.accounted
  freed := h.freed

theorem beginDeref (h : Inv s acts evs loaded watching) (hheld : s.held ≠ 0)
    (hwatching : watching = true → s.held ≠ 1) :
    Inv { s with held := s.held - 1 } acts evs (s.body.ref :: loaded) watching where
  ledger := h.ledger
  refs := by
    show s.body.ref = s.held - 1 + (loaded.length + 1)
    rw [h.refs]
    omega
  last hmem := (List.mem_cons.1 hmem).elim Eq.symm h.last
  watching hw := by
    have hne := hwatching hw
    show s.held - 1 ≠ 0
    omega
  nodup := h.nodup
  listed := h.listed
  accounted := h.accounted
  freed := h.freed

theorem beginWatch (h : Inv s acts evs loaded watching) (hheld : s.held ≠ 0) :
    Inv s acts evs loaded true :=
  ⟨h.ledger, h.refs, h.last, fun _ => hheld, h.nodup, h.listed, h.accounted, h.freed⟩

/-- A `deref` that is not the last one. -/
theorem endDeref {n : Nat} (h : Inv s acts evs (n :: loaded) watching) (href : s.body.ref ≠ 1) :
    Inv { s with body := { s.body with ref := s.body.ref - 1 } } acts evs loaded watching where
  ledger := by
    have hrefs := h.refs
    rw [List.length_cons] at hrefs
    exact h.ledger.ref_eq (by omega) (by omega)
  refs := by
    show s.body.ref - 1 = s.held + loaded.length
    rw [h.refs, List.length_cons]
    omega
  last hmem := absurd (h.last (List.mem_cons_of_mem _ hmem)) href
  watching := h.watching
  nodup := h.nodup
  listed := h.listed
  accounted := h.accounted
  freed := h.freed

theorem close (h : Inv s acts evs loaded watching) (hheld : s.held ≠ 0) :
    Inv { s with body := (s.body.close false).1 } ((s.body.close false).2 ++ acts) evs loaded
      watching where
  ledger := by
    rw [countP_pending, countP_pending]
    exact h.ledger.close (by rw [h.refs]; omega) nofun
  refs := h.refs
  last := h.last
  watching := h.watching
  nodup := h.nodup
  listed := h.listed
  accounted := h.accounted
  freed := h.freed

/-- The last `deref`. -/
theorem lastDeref (h : Inv s acts evs (1 :: loaded) watching) :
    Inv { s with body := (s.body.close true).1 } ((s.body.close true).2 ++ acts) evs loaded
      watching where
  ledger := by
    have hone := h.last List.mem_cons_self
    rw [countP_pending, countP_pending]
    exact h.ledger.close (by rw [hone]; exact Nat.one_ne_zero) fun _ => hone
  refs := by
    have hone := h.last List.mem_cons_self
    have hrefs := h.refs
    rw [List.length_cons] at hrefs
    show s.body.ref - 1 = s.held + loaded.length
    omega
  last hmem := by
    have hone := h.last List.mem_cons_self
    have hrefs := h.refs
    have hpos := List.length_pos_of_mem hmem
    rw [List.length_cons] at hrefs
    omega
  watching := h.watching
  nodup := h.nodup
  listed := h.listed
  accounted := h.accounted
  freed := h.freed

/-- A driver that has the body registered lets it go. -/
theorem unregister (h : Inv s acts evs loaded watching) {d : Nat} {ws : List Watch}
    (hd : s.watches d = some ws) {triggered freed : List Nat} {migrate : Nat → Nat}
    {destroyed : List Nat} (htriggered : ∀ ev ∈ s.triggered, ev ∈ triggered)
    (hfreed : ∀ ev ∈ s.freed, ev ∈ freed)
    (hws : ∀ ev ∈ ws.map Watch.ev, ev ∈ triggered ∨ ev ∈ freed)
    (hreleased : ∀ ev ∈ freed, ev ∈ s.released) :
    Inv { s with
      body := (s.body.removeListener d).1
      watches := Function.update s.watches d none
      migrateFdClose := migrate
      destroyed
      triggered
      freed } ((s.body.removeListener d).2 ++ acts) evs loaded watching where
  ledger := by
    rw [countP_pending, countP_pending]
    exact h.ledger.removeListener ((h.listed d).2 (by rw [hd]; exact nofun))
  refs := by
    rw [ref_removeListener]
    exact h.refs
  last hmem := by
    rw [ref_removeListener]
    exact h.last hmem
  watching := h.watching
  nodup := by
    rw [drivers_removeListener]
    exact (swapErase_perm d _).nodup_iff.2 (h.nodup.erase d)
  listed e := by
    rw [drivers_removeListener, mem_swapErase h.nodup, h.listed]
    show _ ↔ Function.update s.watches d none e ≠ none
    by_cases he : e = d
    · rw [he, Function.update_self]
      exact iff_of_false (fun hne => hne.1 rfl) fun hne => hne rfl
    · rw [Function.update_of_ne he]
      exact and_iff_right he
  accounted ev hev := by
    rcases h.accounted ev hev with hin | hin | hin | ⟨e, vs, he, hin⟩
    · exact .inl (htriggered ev hin)
    · exact .inr (.inl (hfreed ev hin))
    · exact .inr (.inr (.inl hin))
    · by_cases hed : e = d
      · rw [hed, hd] at he
        obtain rfl := Option.some.inj he
        exact (hws ev hin).imp_right .inl
      · exact .inr (.inr (.inr ⟨e, vs, (Function.update_of_ne hed _ _).trans he, hin⟩))
  freed := hreleased

theorem fdClose (h : Inv s acts evs loaded watching) (d : Nat) :
    Inv (s.fdClose d).1 ((s.fdClose d).2 ++ acts) evs loaded watching := by
  unfold Life.fdClose
  rcases hd : s.watches d with _ | ws
  · exact h
  · by_cases hfd : s.body.fd = none
    · simp only [if_pos hfd]
      exact h.unregister hd (fun ev hev => List.mem_append_right _ hev) (fun _ => id)
        (fun ev hev => .inl (List.mem_append_left _ hev)) h.freed
    · simp only [if_neg hfd]
      exact h

theorem install (h : Inv s acts evs loaded watching) (hfd : s.body.fd ≠ none) (d : Nat)
    (mask : Fdevent) (ev : Nat) : Inv (s.install d mask ev) acts evs loaded watching := by
  have hdrivers : ∀ e, e ∈ (if s.watches d = none then s.body.addListener d else s.body).drivers ↔
      e = d ∨ e ∈ s.body.drivers := by
    intro e
    by_cases hd : s.watches d = none
    · rw [if_pos hd]
      show e ∈ s.body.drivers ++ [d] ↔ _
      rw [List.mem_append, List.mem_singleton, or_comm]
    · rw [if_neg hd, or_iff_right_of_imp]
      rintro rfl
      exact (h.listed e).2 hd
  refine ⟨?_, ?_, ?_, h.watching, ?_, fun e => ?_, fun e he => ?_, h.freed⟩
  · show Ledger (if s.watches d = none then s.body.addListener d else s.body) _ _
    split
    · exact h.ledger.addListener hfd d
    · exact h.ledger
  · show (if s.watches d = none then s.body.addListener d else s.body).ref = _
    split <;> exact h.refs
  · show 1 ∈ loaded → (if s.watches d = none then s.body.addListener d else s.body).ref = 1
    split <;> exact h.last
  · show (if s.watches d = none then s.body.addListener d else s.body).drivers.Nodup
    split
    · rename_i hd
      have hnew : d ∉ s.body.drivers := fun hmem => (h.listed d).1 hmem hd
      exact (List.perm_append_singleton d _).nodup_iff.2 (List.nodup_cons.2 ⟨hnew, h.nodup⟩)
    · exact h.nodup
  · refine (hdrivers e).trans ?_
    show _ ↔ Function.update s.watches d _ e ≠ none
    by_cases he : e = d
    · rw [he, Function.update_self]
      exact iff_of_true (.inl rfl) nofun
    · rw [Function.update_of_ne he, or_iff_right he]
      exact h.listed e
  · show _ ∨ _ ∨ _ ∨ ∃ e' ws, Function.update s.watches d _ e' = some ws ∧ _
    rcases List.mem_cons.1 he with rfl | he
    · refine .inr (.inr (.inr ⟨d, _, Function.update_self _ _ _, ?_⟩))
      rw [List.map_append]
      exact List.mem_append_right _ List.mem_cons_self
    · rcases h.accounted e he with hin | hin | hin | ⟨e', ws, he', hin⟩
      · exact .inl hin
      · exact .inr (.inl hin)
      · exact .inr (.inr (.inl hin))
      · refine .inr (.inr (.inr ?_))
        by_cases hed : e' = d
        · refine ⟨d, _, Function.update_self _ _ _, ?_⟩
          rw [← hed, he', List.map_append]
          exact List.mem_append_left _ hin
        · exact ⟨e', ws, (Function.update_of_ne hed _ _).trans he', hin⟩

theorem takeWatchList (h : Inv s acts evs loaded watching) {d : Nat} {ws : List Watch}
    (hd : s.watches d = some ws) (hit : Watch → Bool) :
    Inv { s with watches := Function.update s.watches d (some (ws.filter fun w => !hit w)) } acts
      ((ws.filter hit).map Watch.ev ++ evs) loaded watching where
  ledger := h.ledger
  refs := h.refs
  last := h.last
  watching := h.watching
  nodup := h.nodup
  listed e := by
    rw [h.listed]
    show _ ↔ Function.update s.watches d _ e ≠ none
    by_cases he : e = d
    · rw [he, Function.update_self, hd]
      exact iff_of_true nofun nofun
    · rw [Function.update_of_ne he]
  accounted ev hev := by
    rcases h.accounted ev hev with hin | hin | hin | ⟨e, vs, he, hin⟩
    · exact .inl hin
    · exact .inr (.inl hin)
    · exact .inr (.inr (.inl (List.mem_append_right _ hin)))
    · by_cases hed : e = d
      · rw [hed, hd] at he
        obtain rfl := Option.some.inj he
        obtain ⟨w, hw, rfl⟩ := List.mem_map.1 hin
        by_cases hhit : hit w
        · refine .inr (.inr (.inl (List.mem_append_left _ (List.mem_map_of_mem ?_))))
          exact List.mem_filter.2 ⟨hw, hhit⟩
        · refine .inr (.inr (.inr ⟨d, _, Function.update_self _ _ _, List.mem_map_of_mem ?_⟩))
          exact List.mem_filter.2 ⟨hw, by simpa using hhit⟩
      · exact .inr (.inr (.inr ⟨e, vs, (Function.update_of_ne hed _ _).trans he, hin⟩))
  freed := h.freed

theorem trigger {ev : Nat} (h : Inv s acts (ev :: evs) loaded watching) :
    Inv { s with triggered := ev :: s.triggered } acts evs loaded watching where
  ledger := h.ledger
  refs := h.refs
  last := h.last
  watching := h.watching
  nodup := h.nodup
  listed := h.listed
  accounted e he := by
    rcases h.accounted e he with hin | hin | hin | hin
    · exact .inl (List.mem_cons_of_mem _ hin)
    · exact .inr (.inl hin)
    · rcases List.mem_cons.1 hin with rfl | hin
      · exact .inl List.mem_cons_self
      · exact .inr (.inr (.inl hin))
    · exact .inr (.inr (.inr hin))
  freed := h.freed

theorem osClose {fd : Nat} (h : Inv s (.closeOs fd :: acts) evs loaded watching) :
    Inv { s with osCloses := s.osCloses + 1 } acts evs loaded watching where
  ledger := by
    have hledger := h.ledger
    rw [List.countP_cons, List.countP_cons] at hledger
    simp only [Act.isCloseOs, Act.isDelete, if_true, Bool.false_eq_true, if_false] at hledger
    rwa [Nat.add_zero, ← Nat.add_assoc, Nat.add_right_comm] at hledger
  refs := h.refs
  last := h.last
  watching := h.watching
  nodup := h.nodup
  listed := h.listed
  accounted := h.accounted
  freed := h.freed

/-- Nothing refers to a body that is going to be deleted, and its file is closed. -/
theorem deletable (h : Inv s acts evs loaded watching)
    (hpos : s.deletes + acts.countP Act.isDelete ≠ 0) :
    s.body.ref = 0 ∧ s.body.drivers = [] ∧ s.body.fd = none ∧ s.body.baseFd = none := by
  have hdeleted := h.ledger.deleted
  by_cases hgone : s.body.ref = 0 ∧ s.body.drivers = []
  · have hfd : s.body.fd = none := by
      by_contra hfd
      exact (h.ledger.opened hfd).2 hgone.1
    exact ⟨hgone.1, hgone.2, hfd, (h.ledger.registered hfd).2 hgone.2⟩
  · rw [if_neg hgone] at hdeleted
    exact absurd hdeleted hpos

theorem delete (h : Inv s (.delete :: acts) evs loaded watching) :
    Inv { s with
      deletes := s.deletes + 1
      osCloses := if s.body.baseFd ≠ none then s.osCloses + 1 else s.osCloses }
      acts evs loaded watching := by
  have hone : (Act.delete :: acts).countP Act.isDelete = acts.countP Act.isDelete + 1 :=
    List.countP_cons_of_pos rfl
  obtain ⟨-, -, -, hbase⟩ := h.deletable (by rw [hone]; omega)
  rw [if_neg (not_not.2 hbase)]
  refine ⟨?_, h.refs, h.last, h.watching, h.nodup, h.listed, h.accounted, h.freed⟩
  have hledger := h.ledger
  rw [hone, List.countP_cons_of_neg (by simp [Act.isCloseOs])] at hledger
  rwa [← Nat.add_assoc, Nat.add_right_comm] at hledger

/-- What is told to drivers changes neither the ledger nor the events. -/
theorem notify {fd d : Nat} (h : Inv s (.notifyClose fd d :: acts) evs loaded watching) :
    Inv s acts evs loaded watching where
  ledger := by
    have hledger := h.ledger
    rwa [List.countP_cons_of_neg (by simp [Act.isCloseOs]),
      List.countP_cons_of_neg (by simp [Act.isDelete])] at hledger
  refs := h.refs
  last := h.last
  watching := h.watching
  nodup := h.nodup
  listed := h.listed
  accounted := h.accounted
  freed := h.freed

end Inv

section

variable {s : Life} {acts : List Act} {evs loaded : List Nat} {watching : Bool}

theorem Inv.tasks (h : Inv s acts evs loaded watching) (tasks : List Task) :
    Inv { s with tasks } acts evs loaded watching :=
  ⟨h.ledger, h.refs, h.last, h.watching, h.nodup, h.listed, h.accounted, h.freed⟩

theorem Inv.migrate (h : Inv s acts evs loaded watching) (migrateFdClose : Nat → Nat) :
    Inv { s with migrateFdClose } acts evs loaded watching :=
  ⟨h.ledger, h.refs, h.last, h.watching, h.nodup, h.listed, h.accounted, h.freed⟩

theorem Notified.tail {a : Act} (hn : Notified s (a :: acts))
    (ha : ∀ fd d, a ≠ .notifyClose fd d) : Notified s acts := fun hfd d hd =>
  (hn hfd d hd).imp_right fun ⟨fd, hmem⟩ =>
    ⟨fd, (List.mem_cons.1 hmem).resolve_left fun heq => ha fd d heq.symm⟩

/-- Whoever closes the body tells the drivers that have it. -/
theorem Notified.close (hn : Notified s acts) (h : Inv s acts evs loaded watching)
    (becauseDeref : Bool) : Notified { s with body := (s.body.close becauseDeref).1 }
      ((s.body.close becauseDeref).2 ++ acts) := by
  intro _ d hd
  by_cases hfd : s.body.fd = none
  · obtain hm | ⟨fd, hmem⟩ := hn hfd d hd
    · exact .inl hm
    · exact .inr ⟨fd, List.mem_append_right _ hmem⟩
  · obtain ⟨fd, hmem⟩ := notifyClose_mem_close becauseDeref hfd
      (h.ledger.opened hfd).1 ((h.listed d).2 hd)
    exact .inr ⟨fd, List.mem_append_left _ hmem⟩

/-- The driver that closes the file need not be told again. -/
theorem Notified.fdClose {d : Nat} (hn : s.body.fd = none → ∀ e, e ≠ d → s.watches e ≠ none →
      s.migrateFdClose e ≠ 0 ∨ ∃ fd, .notifyClose fd e ∈ acts) :
    Notified (s.fdClose d).1 ((s.fdClose d).2 ++ acts) := by
  unfold Life.fdClose
  rcases hd : s.watches d with _ | ws
  · exact fun hfd e he => hn hfd e (fun hed => he (hed ▸ hd)) he
  · by_cases hfd : s.body.fd = none
    · simp only [if_pos hfd]
      intro _ e he
      have he : Function.update s.watches d none e ≠ none := he
      by_cases hed : e = d
      · rw [hed, Function.update_self] at he
        exact absurd rfl he
      · rw [Function.update_of_ne hed] at he
        exact (hn hfd e hed he).imp_right fun ⟨fd, hmem⟩ => ⟨fd, List.mem_append_right _ hmem⟩
    · simp only [if_neg hfd]
      exact fun hnone => absurd hnone hfd

end

/-- The invariant of the runs. -/
structure Sound (s : Life) : Prop where
  inv : Inv s (s.tasks.flatMap Task.acts) (s.tasks.flatMap Task.evs) (s.tasks.flatMap Task.loaded)
    (s.tasks.any Task.isWatch)
  notified : Notified s (s.tasks.flatMap Task.acts)

theorem Sound.start (raw : Nat) : Sound (Life.start raw) where
  inv :=
    { ledger := ⟨fun _ => ⟨nofun, Nat.one_ne_zero⟩, nofun, rfl, rfl⟩
      refs := rfl
      last := nofun
      watching := nofun
      nodup := List.nodup_nil
      listed := fun _ => iff_of_false List.not_mem_nil fun h => h rfl
      accounted := nofun
      freed := nofun }
  notified := nofun

/-- A `deref` that is the last one knows it, and the body is open when it is watched. -/
def InTime (s : Life) : Life.Label → Prop
  | .watch _ mask _ => s.body.fd ≠ none ∧ mask ≠ Fdevent.none
  | .advance (.watch ..) => s.body.fd ≠ none
  | .advance (.deref _ loaded) => loaded = 1 ∨ s.body.ref ≠ 1
  | _ => True

instance (s : Life) (l : Life.Label) : Decidable (InTime s l) := by
  unfold InTime
  split <;> infer_instance

@[simp] theorem tasks_fdClose (s : Life) (d : Nat) : (s.fdClose d).1.tasks = s.tasks := by
  unfold Life.fdClose
  split
  · rfl
  · split <;> rfl

namespace Sound

variable {s t : Life}

/-- The tasks of a state, in any order. -/
theorem of_perm {acts : List Act} {evs loaded : List Nat} {watching : Bool}
    (h : Inv s acts evs loaded watching) (hn : Notified s acts) {tasks : List Task}
    (hacts : acts.Perm (tasks.flatMap Task.acts)) (hevs : evs.Perm (tasks.flatMap Task.evs))
    (hloaded : loaded.Perm (tasks.flatMap Task.loaded))
    (hwatching : tasks.any Task.isWatch = true → watching = true) :
    Sound { s with tasks } where
  inv := (h.tasks tasks).perm hacts hevs hloaded hwatching
  notified hfd d hd := (hn hfd d hd).imp_right fun ⟨fd, hmem⟩ => ⟨fd, hacts.mem_iff.1 hmem⟩

/-- A driver closes the file, whether it was told to or not. -/
theorem of_fdClose {d me : Nat} (h : Inv s (s.tasks.flatMap Task.acts) (s.tasks.flatMap Task.evs)
      (s.tasks.flatMap Task.loaded) (s.tasks.any Task.isWatch))
    (hn : s.body.fd = none → ∀ e, e ≠ d → s.watches e ≠ none →
      s.migrateFdClose e ≠ 0 ∨ ∃ fd, .notifyClose fd e ∈ s.tasks.flatMap Task.acts) :
    Sound { (s.fdClose d).1 with tasks := .rest me (s.fdClose d).2 :: (s.fdClose d).1.tasks } := by
  rw [tasks_fdClose]
  exact of_perm (h.fdClose d) (Notified.fdClose hn) (.refl _) (.refl _) (.refl _) id

theorem ref (h : Sound s) (hstep : s.step .ref = some t) : Sound t := by
  simp only [Life.step] at hstep
  split at hstep
  · cases hstep
  · rename_i hheld
    cases hstep
    exact ⟨h.inv.ref hheld, h.notified⟩

theorem deref (h : Sound s) {me : Nat} (hstep : s.step (.deref me) = some t) : Sound t := by
  simp only [Life.step] at hstep
  split at hstep
  · cases hstep
  · rename_i hheld
    cases hstep
    obtain ⟨hheld, hwatch⟩ := not_or.1 hheld
    exact ⟨(h.inv.beginDeref hheld fun hw hone => hwatch ⟨hone, hw⟩).tasks _, h.notified⟩

theorem close (h : Sound s) {me : Nat} (hstep : s.step (.close me) = some t) : Sound t := by
  simp only [Life.step] at hstep
  split at hstep
  · cases hstep
  · rename_i hheld
    cases hstep
    exact ⟨(h.inv.close hheld).tasks _, h.notified.close h.inv false⟩

theorem watch (h : Sound s) {me ev : Nat} {mask : Fdevent} (hok : InTime s (.watch me mask ev))
    (hstep : s.step (.watch me mask ev) = some t) : Sound t := by
  simp only [Life.step] at hstep
  split at hstep
  · cases hstep
  · rename_i hheld
    rw [if_neg (not_or.2 hok)] at hstep
    cases hstep
    exact of_perm (h.inv.beginWatch (not_or.1 hheld).1) h.notified (.refl _) (.refl _) (.refl _)
      fun _ => rfl

theorem finishMigrate (h : Sound s) {d : Nat} (hstep : s.step (.finishMigrate d) = some t) :
    Sound t := by
  simp only [Life.step] at hstep
  split at hstep
  · cases hstep
  · cases hstep
    refine of_fdClose (h.inv.migrate _) fun hfd e hed he => ?_
    show Function.update s.migrateFdClose d _ e ≠ 0 ∨ _
    rw [Function.update_of_ne hed]
    exact h.notified hfd e he

theorem fdClose (h : Sound s) {d : Nat} (hstep : s.step (.fdClose d) = some t) : Sound t := by
  simp only [Life.step] at hstep
  split at hstep
  · cases hstep
  · cases hstep
    exact of_fdClose h.inv fun hfd e _ he => h.notified hfd e he

theorem takeWatchList (h : Sound s) {d : Nat} {imask : Fdevent}
    (hstep : s.step (.takeWatchList d imask) = some t) : Sound t := by
  simp only [Life.step] at hstep
  split at hstep
  · cases hstep
    exact h
  · rename_i ws hd
    cases hstep
    refine ⟨(h.inv.takeWatchList hd _).tasks _, fun hfd e he => h.notified hfd e ?_⟩
    have he : Function.update s.watches d _ e ≠ none := he
    by_cases hed : e = d
    · rw [hed, hd]
      exact nofun
    · rwa [Function.update_of_ne hed] at he

theorem release (h : Sound s) {ev : Nat} (hstep : s.step (.release ev) = some t) : Sound t := by
  cases hstep
  obtain ⟨hledger, hrefs, hlast, hwatching, hnodup, hlisted, haccounted, hfreed⟩ := h.inv
  exact ⟨⟨hledger, hrefs, hlast, hwatching, hnodup, hlisted, haccounted,
    fun e he => List.mem_cons_of_mem _ (hfreed e he)⟩, h.notified⟩

theorem destroy (h : Sound s) {d : Nat} (hstep : s.step (.destroy d) = some t) : Sound t := by
  simp only [Life.step] at hstep
  split at hstep
  · cases hstep
  · rename_i hguard
    obtain ⟨-, hguard⟩ := not_or.1 hguard
    obtain ⟨-, hempty⟩ := not_or.1 hguard
    have hnotified : s.body.fd = none → ∀ e, Function.update s.watches d none e ≠ none →
        Function.update s.migrateFdClose d 0 e ≠ 0 ∨
          ∃ fd, .notifyClose fd e ∈ s.tasks.flatMap Task.acts := by
      intro hfd e he
      by_cases hed : e = d
      · rw [hed, Function.update_self] at he
        exact absurd rfl he
      · rw [Function.update_of_ne hed] at he ⊢
        exact h.notified hfd e he
    rcases hd : s.watches d with _ | ws
    · rw [hd, if_pos rfl] at hstep
      cases hstep
      have hsame : Function.update s.watches d none = s.watches :=
        Function.update_eq_self_iff.2 hd.symm
      rw [hsame] at hnotified ⊢
      exact ⟨⟨h.inv.ledger, h.inv.refs, h.inv.last, h.inv.watching, h.inv.nodup, h.inv.listed,
        h.inv.accounted, h.inv.freed⟩, hnotified⟩
    · rw [hd, if_neg nofun] at hstep
      cases hstep
      rw [hd] at hempty
      have hws : ∀ ev ∈ ws.map Watch.ev, ev ∈ s.triggered ∨ ev ∈ s.released := by
        intro ev hev
        obtain ⟨w, hw, rfl⟩ := List.mem_map.1 hev
        by_contra hne
        exact hempty ⟨w, hw, fun hin => hne (List.mem_append.1 hin)⟩
      refine ⟨(h.inv.unregister hd (fun _ => id) (fun ev hev => List.mem_append_right _ hev)
        (fun ev hev => ?_) fun ev hev => ?_).tasks _, fun hfd e he => ?_⟩
      · by_cases htriggered : ev ∈ s.triggered
        · exact .inl htriggered
        · obtain ⟨w, hw, rfl⟩ := List.mem_map.1 hev
          refine .inr (List.mem_append_left _ (List.mem_map_of_mem (List.mem_filter.2 ⟨hw, ?_⟩)))
          exact decide_eq_true htriggered
      · rcases List.mem_append.1 hev with hev | hev
        · obtain ⟨w, hw, rfl⟩ := List.mem_map.1 hev
          obtain ⟨hw, htriggered⟩ := List.mem_filter.1 hw
          exact (hws w.ev (List.mem_map_of_mem hw)).resolve_left (of_decide_eq_true htriggered)
        · exact h.inv.freed ev hev
      · have hfd : (s.body.removeListener d).1.fd = none := hfd
        rw [fd_removeListener] at hfd
        exact (hnotified hfd e he).imp_right fun ⟨fd, hmem⟩ => ⟨fd, List.mem_append_right _ hmem⟩

/-- A thread goes on with the call `k`. -/
theorem of_advance {k : Task}
    (h : Inv s (k.acts ++ s.tasks.flatMap Task.acts) (k.evs ++ s.tasks.flatMap Task.evs)
      (k.loaded ++ s.tasks.flatMap Task.loaded) (k.isWatch || s.tasks.any Task.isWatch))
    (hn : Notified s (k.acts ++ s.tasks.flatMap Task.acts)) (hok : InTime s (.advance k))
    (hstep : s.advance k = some t) : Sound t := by
  cases k with
  | deref me loaded =>
    simp only [Life.advance] at hstep
    split at hstep
    · rename_i hone
      subst hone
      cases hstep
      exact ⟨h.lastDeref.tasks _, hn.close h true⟩
    · rename_i hone
      cases hstep
      exact ⟨h.endDeref (hok.resolve_left hone), hn⟩
  | watch me mask ev =>
    cases hstep
    have hfd : (s.install me mask ev).body.fd = s.body.fd := by
      show (if s.watches me = none then s.body.addListener me else s.body).fd = _
      split <;> rfl
    refine ⟨(h.install hok me mask ev).perm (.refl _) (.refl _) (.refl _) fun hw => ?_,
      fun hnone => ?_⟩
    · exact Bool.or_eq_true_iff.2 (.inr hw)
    · exact absurd (hfd.symm.trans hnone) hok
  | rest me acts =>
    cases acts with
    | nil =>
      cases hstep
      exact ⟨h, hn⟩
    | cons a acts =>
      cases a with
      | closeOs fd =>
        cases hstep
        exact ⟨h.osClose.tasks _, hn.tail fun _ _ => nofun⟩
      | notifyClose fd d =>
        have hothers : s.body.fd = none → ∀ e, e ≠ d → s.watches e ≠ none →
            s.migrateFdClose e ≠ 0 ∨
              ∃ fd, .notifyClose fd e ∈ acts ++ s.tasks.flatMap Task.acts := by
          refine fun hfd e hed he => (hn hfd e he).imp_right fun ⟨fd', hmem⟩ => ⟨fd', ?_⟩
          refine (List.mem_cons.1 hmem).resolve_left fun heq => hed ?_
          exact (Act.notifyClose.inj heq).2
        simp only [Life.advance] at hstep
        split at hstep
        · cases hstep
        · split at hstep
          · cases hstep
            rw [tasks_fdClose]
            refine of_perm (h.notify.fdClose d) (Notified.fdClose hothers) ?_ (.refl _) (.refl _) id
            exact .of_eq (List.append_assoc _ _ _).symm
          · cases hstep
            have hnow := h.notify.migrate (Function.update s.migrateFdClose d
              (s.migrateFdClose d + 1))
            refine ⟨hnow.tasks (.rest me acts :: s.tasks), fun hfd e he => ?_⟩
            show Function.update s.migrateFdClose d _ e ≠ 0 ∨ _
            by_cases hed : e = d
            · rw [hed, Function.update_self]
              exact .inl (Nat.succ_ne_zero _)
            · rw [Function.update_of_ne hed]
              exact hothers hfd e hed he
      | delete =>
        cases hstep
        exact ⟨h.delete.tasks _, hn.tail fun _ _ => nofun⟩
  | taken me evs =>
    cases evs with
    | nil =>
      cases hstep
      exact ⟨h, hn⟩
    | cons ev evs =>
      cases hstep
      exact ⟨h.trigger.tasks _, hn⟩

theorem advance (h : Sound s) {k : Task} (hok : InTime s (.advance k))
    (hstep : s.step (.advance k) = some t) : Sound t := by
  simp only [Life.step] at hstep
  split at hstep
  · rename_i hk
    have hperm := List.perm_cons_erase hk
    refine of_advance (s := { s with tasks := s.tasks.erase k }) ?_ ?_ ?_ hstep
    · refine (h.inv.tasks _).perm (hperm.flatMap_right _) (hperm.flatMap_right _)
        (hperm.flatMap_right _) fun hw => ?_
      obtain ⟨k', hk', hwatch⟩ := List.any_eq_true.1 ((List.any_cons).trans hw)
      exact List.any_eq_true.2 ⟨k', hperm.mem_iff.2 hk', hwatch⟩
    · exact fun hfd d hd => (h.notified hfd d hd).imp_right fun ⟨fd, hmem⟩ =>
        ⟨fd, (hperm.flatMap_right _).mem_iff.1 hmem⟩
    · exact hok
  · cases hstep

end Sound

theorem Sound.step {s t : Life} (h : Sound s) (l : Life.Label) (hok : InTime s l)
    (hstep : s.step l = some t) : Sound t := by
  cases l with
  | ref => exact h.ref hstep
  | deref me => exact h.deref hstep
  | close me => exact h.close hstep
  | watch me mask ev => exact h.watch hok hstep
  | advance k => exact h.advance hok hstep
  | finishMigrate d => exact h.finishMigrate hstep
  | fdClose d => exact h.fdClose hstep
  | takeWatchList d imask => exact h.takeWatchList hstep
  | release ev => exact h.release hstep
  | destroy d => exact h.destroy hstep

theorem sound {s : Life} (h : machine.ReachableBy InTime s) : Sound s := by
  refine h.invariant ?_ fun s l t hs hok hstep => hs.step l hok hstep
  rintro s ⟨raw, rfl⟩
  exact .start raw

/-! ## The lifecycle -/

theorem osCloses_fdClose (s : Life) (d : Nat) : (s.fdClose d).1.osCloses = s.osCloses := by
  unfold Life.fdClose
  split
  · rfl
  · split <;> rfl

theorem deletes_fdClose (s : Life) (d : Nat) : (s.fdClose d).1.deletes = s.deletes := by
  unfold Life.fdClose
  split
  · rfl
  · split <;> rfl

/-- Only a thread that has it left to do closes the file or deletes the body. -/
theorem step_counts {s t : Life} {l : Life.Label} (hstep : s.step l = some t) :
    (t.osCloses = s.osCloses ∧ t.deletes = s.deletes) ∨
      (t.deletes = s.deletes ∧ ∃ fd, .closeOs fd ∈ s.tasks.flatMap Task.acts) ∨
      .delete ∈ s.tasks.flatMap Task.acts := by
  cases l with
  | advance k =>
    simp only [Life.step] at hstep
    split at hstep
    · rename_i hk
      cases k with
      | deref me loaded =>
        simp only [Life.advance] at hstep
        split at hstep <;> cases hstep <;> exact .inl ⟨rfl, rfl⟩
      | watch me mask ev =>
        cases hstep
        exact .inl ⟨rfl, rfl⟩
      | taken me evs =>
        cases evs <;> cases hstep <;> exact .inl ⟨rfl, rfl⟩
      | rest me acts =>
        cases acts with
        | nil =>
          cases hstep
          exact .inl ⟨rfl, rfl⟩
        | cons a acts =>
          have hmem : a ∈ s.tasks.flatMap Task.acts :=
            List.mem_flatMap.2 ⟨_, hk, List.mem_cons_self⟩
          cases a with
          | closeOs fd =>
            cases hstep
            exact .inr (.inl ⟨rfl, fd, hmem⟩)
          | delete => exact .inr (.inr hmem)
          | notifyClose fd d =>
            simp only [Life.advance] at hstep
            split at hstep
            · cases hstep
            · split at hstep <;> cases hstep
              · exact .inl ⟨osCloses_fdClose _ d, deletes_fdClose _ d⟩
              · exact .inl ⟨rfl, rfl⟩
    · cases hstep
  | finishMigrate d =>
    simp only [Life.step] at hstep
    split at hstep <;> cases hstep
    exact .inl ⟨osCloses_fdClose _ d, deletes_fdClose _ d⟩
  | fdClose d =>
    simp only [Life.step] at hstep
    split at hstep <;> cases hstep
    exact .inl ⟨osCloses_fdClose _ d, deletes_fdClose _ d⟩
  | release ev =>
    cases hstep
    exact .inl ⟨rfl, rfl⟩
  | watch me mask ev =>
    simp only [Life.step] at hstep
    split at hstep
    · cases hstep
    · split at hstep <;> cases hstep <;> exact .inl ⟨rfl, rfl⟩
  | _ =>
    simp only [Life.step] at hstep
    split at hstep <;> cases hstep <;> exact .inl ⟨rfl, rfl⟩

/-- All handles are dropped, every call has returned and every driver knows. -/
def Quiet (s : Life) : Prop := s.held = 0 ∧ s.tasks = [] ∧ ∀ d, s.migrateFdClose d = 0

/-- What is promised of a state: how often the file is closed and the body deleted so far,
when the next step may do so, and how it ends. -/
structure Lived (s : Life) : Prop where
  closedOnce : s.osCloses ≤ 1
  closedLast : ∀ l t, machine.step s l = some t → t.osCloses ≠ s.osCloses →
    ∀ d, s.watches d = none
  deletedOnce : s.deletes ≤ 1
  deletedLast : ∀ l t, machine.step s l = some t → t.deletes ≠ s.deletes →
    s.body.ref = 0 ∧ s.held = 0 ∧ ∀ d, s.watches d = none
  settled : Quiet s → s.osCloses = 1 ∧ s.deletes = 1 ∧
    ∀ ev ∈ s.returned, ev ∈ s.triggered ∨ ev ∈ s.freed
  freed : ∀ ev ∈ s.freed, ev ∈ s.released

namespace Sound

variable {s : Life}

theorem unwatched (h : Sound s) (hdrivers : s.body.drivers = []) (d : Nat) :
    s.watches d = none := by
  by_contra hd
  have hmem := (h.inv.listed d).2 hd
  rw [hdrivers] at hmem
  cases hmem

/-- Nothing has the body when its file is to be closed. -/
theorem drivers_of_closeOs (h : Sound s) {fd : Nat}
    (hmem : .closeOs fd ∈ s.tasks.flatMap Task.acts) : s.body.drivers = [] := by
  have hpos : 0 < (s.tasks.flatMap Task.acts).countP Act.isCloseOs :=
    List.countP_pos_iff.2 ⟨_, hmem, rfl⟩
  have hclosed := h.inv.ledger.closed
  by_cases hbase : s.body.baseFd = none
  · have hfd : s.body.fd = none := by
      by_contra hfd
      exact (h.inv.ledger.opened hfd).1 hbase
    exact (h.inv.ledger.registered hfd).1 hbase
  · rw [if_neg hbase] at hclosed
    omega

theorem deletable (h : Sound s) (hmem : .delete ∈ s.tasks.flatMap Task.acts) :
    s.body.ref = 0 ∧ s.body.drivers = [] := by
  have hpos : 0 < (s.tasks.flatMap Task.acts).countP Act.isDelete :=
    List.countP_pos_iff.2 ⟨_, hmem, rfl⟩
  obtain ⟨href, hdrivers, -, -⟩ := h.inv.deletable (by omega)
  exact ⟨href, hdrivers⟩

theorem settled (h : Sound s) (hquiet : Quiet s) : s.osCloses = 1 ∧ s.deletes = 1 ∧
    ∀ ev ∈ s.returned, ev ∈ s.triggered ∨ ev ∈ s.freed := by
  obtain ⟨hheld, htasks, hmigrate⟩ := hquiet
  have hinv := h.inv
  have hnotified := h.notified
  rw [htasks] at hinv hnotified
  have href : s.body.ref = 0 := by rw [hinv.refs, hheld]; rfl
  have hfd : s.body.fd = none := by
    by_contra hfd
    exact (hinv.ledger.opened hfd).2 href
  have hwatches : ∀ d, s.watches d = none := by
    intro d
    by_contra hd
    obtain hm | ⟨fd, hmem⟩ := hnotified hfd d hd
    · exact hm (hmigrate d)
    · cases hmem
  have hdrivers : s.body.drivers = [] :=
    List.eq_nil_iff_forall_not_mem.2 fun d hd => (hinv.listed d).1 hd (hwatches d)
  refine ⟨?_, ?_, fun ev hev => ?_⟩
  · exact hinv.ledger.closed.trans (if_pos ((hinv.ledger.registered hfd).2 hdrivers))
  · exact hinv.ledger.deleted.trans (if_pos ⟨href, hdrivers⟩)
  · rcases hinv.accounted ev hev with hin | hin | hin | ⟨d, ws, hd, -⟩
    · exact .inl hin
    · exact .inr hin
    · cases hin
    · rw [hwatches d] at hd
      cases hd

theorem lived (h : Sound s) : Lived s where
  closedOnce := by
    have hclosed := h.inv.ledger.closed
    split at hclosed <;> omega
  closedLast l t hstep hne := by
    rcases step_counts hstep with ⟨hsame, -⟩ | ⟨-, fd, hmem⟩ | hmem
    · exact absurd hsame hne
    · exact h.unwatched (h.drivers_of_closeOs hmem)
    · exact h.unwatched (h.deletable hmem).2
  deletedOnce := by
    have hdeleted := h.inv.ledger.deleted
    split at hdeleted <;> omega
  deletedLast l t hstep hne := by
    rcases step_counts hstep with ⟨-, hsame⟩ | ⟨hsame, -⟩ | hmem
    · exact absurd hsame hne
    · exact absurd hsame hne
    · obtain ⟨href, hdrivers⟩ := h.deletable hmem
      have hrefs := h.inv.refs
      exact ⟨href, by omega, h.unwatched hdrivers⟩
  settled := h.settled
  freed := h.inv.freed

end Sound

/-- Two drivers watch the file.  The first one closes it and drops the last handle, the
second one is told later. -/
def closedRun : List Life.Label :=
  [.watch 1 Fdevent.read 11, .advance (.watch 1 Fdevent.read 11),
    .watch 2 Fdevent.write 12, .advance (.watch 2 Fdevent.write 12), .close 1,
    .advance (.rest 1 [.notifyClose 5 1, .notifyClose 5 2]),
    .advance (.rest 1 [.notifyClose 5 2]), .advance (.rest 1 []),
    .deref 1, .advance (.deref 1 1), .advance (.rest 1 []),
    .finishMigrate 2, .advance (.rest 2 [.closeOs 5, .delete]), .advance (.rest 2 [.delete]),
    .advance (.rest 2 [])]

def closedEnd : Life := (machine.exec (Life.start 5) closedRun).get (by decide)

/-- A watch of a closed file is forgotten at once. -/
example : (machine.exec (Life.start 5)
    [.close 0, .advance (.rest 0 [.closeOs 5]), .advance (.rest 0 []), .watch 0 Fdevent.read 7,
      .deref 0, .advance (.deref 0 1), .advance (.rest 0 [.delete])]).map
    (fun s => (s.osCloses, s.deletes, s.returned, s.triggered)) = some (1, 1, [7], []) := by
  decide

/-- The file is closed after `watch` has found it open: its driver is not told. -/
example : (machine.exec (Life.start 5)
    [.watch 0 Fdevent.read 7, .close 1, .advance (.watch 0 Fdevent.read 7),
      .advance (.rest 1 [.closeOs 5]), .deref 0, .advance (.deref 0 1)]).map
    (fun s => (s.osCloses, s.deletes, s.body.drivers, s.triggered)) = some (1, 0, [0], []) := by
  decide

/-- Two handles are dropped at the same time: each `deref` reads the counter before the
other one writes it. -/
def racingRun : List Life.Label :=
  [.ref, .deref 0, .deref 1, .advance (.deref 0 2), .advance (.deref 1 2)]

def racingEnd : Life := (machine.exec (Life.start 5) racingRun).get (by decide)

end FdBody
end Cotamer
end Psets
