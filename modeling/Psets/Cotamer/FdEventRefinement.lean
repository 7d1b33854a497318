/-
`fd_event_set` is a map from file descriptors to lists of watches.

In lockstep, a run of the set is a run of the map, and after every call the lists of the
set are well linked.
-/
import Psets.Cotamer.FdEventCalls

namespace Psets
namespace Cotamer
namespace FdEvents

open Transition

/-! ## Runs -/

/-- `f` are the lists of the set `s`, and their first links are in the set and in `heads`. -/
structure WellLinked (s : FdEventSet) (heads : List Nat) (f : Place → List Nat) : Prop where
  linked : ∀ p, slotCells.Linked (s.mem (headOf heads)) (s.mem (headOf heads) p.root) (f p)
  acyclic : ∀ p, (f p).Nodup
  one : ∀ wix, 0 < wix → wix ≤ s.ws.length → ∃! p, wix ∈ f p
  slots : ∀ p, ∀ wix ∈ f p, 0 < wix ∧ wix ≤ s.ws.length
  tail : ∀ ufd, (s.fdr ufd).wtail = lastLink (f (.watch ufd))

/-- The set is well linked, its lists are those of the map, and the calls have returned the
same. -/
structure Refines (s : Session) (a : MapSession) : Prop where
  lists : ∃ f, WellLinked s.set s.lists f ∧
    ∀ p, p ≠ .free → (f p).map s.set.watch? = (content a.map a.lists p).map some
  callers : s.lists.length = a.lists.length
  updates : Queued s.set a.map.updates
  body : ∀ ufd, (s.set.fdr ufd).body = a.map.body ufd
  epoch : ∀ ufd, (s.set.fdr ufd).epoch = a.map.epoch ufd
  log : s.log = a.log

/-- The invariant of the runs in lockstep. -/
structure InStep (s : Session) (a : MapSession) : Prop where
  tracks : Tracks s.set s.lists a.map a.lists
  log : s.log = a.log

theorem InStep.start : InStep {} {} where
  tracks := by
    refine ⟨⟨fun _ => [], ⟨⟨fun p => ?_, nofun⟩, fun l => ?_, nofun, fun p _ => ?_⟩, fun _ => rfl⟩,
      rfl, ⟨⟨fun _ => rfl, fun _ _ _ => nofun⟩, fun ufd => ?_⟩, fun _ => rfl, fun _ => rfl,
      Nat.zero_le _⟩
    · cases p <;> rfl
    · refine iff_of_false (fun hl => ?_) (fun hl => ?_)
      · exact Nat.not_lt.2 hl.2 hl.1
      · rcases hl with hl | ⟨_, hl⟩ <;> cases hl
    · cases p <;> rfl
    · exact iff_of_false (fun hne => hne rfl) nofun
  log := rfl

theorem InStep.returned {s : Session} {a : MapSession} (h : InStep s a) {set : FdEventSet}
    {map : WatchMap} {heads : List Nat} {lists : List (List Watch)}
    (ht : Tracks set heads map lists) (effects : List Effect) (result : Result) :
    InStep ({ s with lists := heads }.returned set effects result)
      ({ a with lists }.returned map effects result) where
  tracks := ht
  log := by
    show s.log ++ _ = a.log ++ _
    rw [h.log]

/-- A call on the set does what the call on the map does. -/
theorem InStep.step {s : Session} {a : MapSession} (h : InStep s a) (l : Label) :
    Option.Rel InStep (s.step l) (a.step l) := by
  cases l with
  | watch fd mask body ev closed =>
    have hrel := h.tracks.watch fd mask body ev closed
    unfold Session.step MapSession.step
    simp only []
    generalize s.set.watch fd mask body ev closed = x at hrel
    generalize a.map.watch fd mask body ev closed = y at hrel
    cases hrel with
    | none => exact .none
    | @some x y hxy =>
      obtain ⟨set, effects⟩ := x
      obtain ⟨map, effects'⟩ := y
      obtain ⟨rfl, ht⟩ := hxy
      exact .some (h.returned ht _ _)
  | takeWatchList fd imask epoch empty =>
    obtain ⟨t, whead, htake, ht⟩ := h.tracks.takeWatchList fd imask epoch empty
    unfold Session.step MapSession.step
    simp only [htake, Option.bind_eq_bind, Option.bind_some]
    exact .some (h.returned ht _ _)
  | popWatchListEvent i mask =>
    unfold Session.step MapSession.step
    rcases hi : a.lists[i]? with _ | _ | ⟨w, rest⟩
    · have hnone : s.lists[i]? = none := by
        rw [List.getElem?_eq_none_iff] at hi ⊢
        rw [h.tracks.count]
        exact hi
      simp only [hi, hnone, Option.bind_eq_bind, Option.bind_none]
      exact .none
    · obtain ⟨hhead, hzero⟩ := h.tracks.head? hi
      rw [hzero.2 rfl] at hhead
      simp only [hi, hhead, Option.bind_eq_bind, Option.bind_some]
      exact .none
    · obtain ⟨hhead, -⟩ := h.tracks.head? hi
      obtain ⟨t, next, hpop, ht⟩ := h.tracks.popWatchListEvent hi mask
      simp only [hi, hhead, hpop, Option.bind_eq_bind, Option.bind_some]
      exact .some (h.returned ht _ _)
  | fdClose fd closed =>
    obtain ⟨t, hclose, ht, _⟩ := h.tracks.fdClose fd closed
    unfold Session.step MapSession.step
    simp only [hclose, Option.bind_eq_bind, Option.bind_some]
    exact .some (h.returned ht _ _)
  | popUpdate empty =>
    obtain ⟨t, hpop, ht⟩ := h.tracks.popUpdate empty
    unfold Session.step MapSession.step
    simp only [hpop, Option.bind_eq_bind, Option.bind_some]
    exact .some (h.returned ht _ _)

theorem InStep.refines {s : Session} {a : MapSession} (h : InStep s a) : Refines s a := by
  obtain ⟨f, hf, htail⟩ := h.tracks.slots
  refine ⟨⟨f, ⟨hf.layout.linked, hf.layout.nodup, fun l hpos hle => ?_, fun p l hl => ?_, htail⟩,
    hf.shown⟩, h.tracks.count, h.tracks.updates, h.tracks.body, h.tracks.epoch, h.log⟩
  · rcases (hf.slots l).1 ⟨hpos, hle⟩ with hl | ⟨p, hp⟩
    · cases hl
    · exact ⟨p, hp, fun q hq => hf.layout.disjoint q p l hq hp⟩
  · exact (hf.slots l).2 (.inr ⟨p, hl⟩)

/-- A call on the map that has no result: an event is popped from a list that has none, or the
file is watched with a second body while the first one is open. -/
def Undefined (a : MapSession) : Label → Prop
  | .watch fd mask body _ closed => ¬ fd < 0 ∧ mask ≠ Fdevent.none ∧
    ∃ old, a.map.body (unsigned fd) = some old ∧ old ≠ body ∧ old ∉ closed
  | .popWatchListEvent i _ => a.lists.getD i [] = []
  | _ => False

theorem mapStep_eq_none_iff (a : MapSession) (l : Label) :
    mapMachine.step a l = none ↔ Undefined a l := by
  show a.step l = none ↔ Undefined a l
  cases l with
  | watch fd mask body ev closed =>
    have hwatch : a.step (.watch fd mask body ev closed) = none ↔
        a.map.watch fd mask body ev closed = none := by
      simp only [MapSession.step]
      generalize a.map.watch fd mask body ev closed = x
      cases x with
      | none => exact iff_of_true rfl rfl
      | some x => exact iff_of_false nofun nofun
    rw [hwatch, WatchMap.watch]
    by_cases hskip : fd < 0 ∨ mask = Fdevent.none
    · rw [if_pos hskip]
      exact iff_of_false nofun fun h => hskip.elim h.1 h.2.1
    · obtain ⟨hfd, hmask⟩ := not_or.1 hskip
      rw [if_neg hskip]
      simp only [Option.map_eq_none_iff, Undefined, hfd, ne_eq, hmask, not_false_eq_true,
        true_and, WatchMap.register]
      cases hold : a.map.body (unsigned fd) with
      | none => simp
      | some old =>
        simp only [Option.some.injEq, exists_eq_left']
        split <;> simp_all
  | takeWatchList fd imask epoch empty => exact iff_of_false nofun id
  | popWatchListEvent i mask =>
    simp only [MapSession.step, Undefined, List.getD_eq_getElem?_getD]
    rcases a.lists[i]? with _ | _ | ⟨w, rest⟩
    · exact iff_of_true rfl rfl
    · exact iff_of_true rfl rfl
    · exact iff_of_false nofun nofun
  | fdClose fd closed => exact iff_of_false nofun id
  | popUpdate empty => exact iff_of_false nofun id

/-- Run in lockstep, the set and the map make the same calls and return the same, and the
set is well linked after every call.  Every call has a result but those that are undefined
on the map. -/
theorem watches_refined (ls : List Label) :
    Option.Rel Refines (machine.exec {} ls) (mapMachine.exec {} ls) ∧
    ∀ a l, mapMachine.step a l = none ↔ Undefined a l := by
  refine ⟨?_, mapStep_eq_none_iff⟩
  have hrel := exec_rel (M := machine) (N := mapMachine) (R := InStep)
    (fun _ _ l h => h.step l) InStep.start ls
  generalize machine.exec {} ls = x at hrel
  generalize mapMachine.exec {} ls = y at hrel
  cases hrel with
  | none => exact .none
  | some h => exact .some h.refines

/-- A file is watched, and its body is open. -/
def openRun : List Label := [.watch 3 Fdevent.read 7 100 []]

def openEnd : Session := (machine.exec {} openRun).get (by decide)

/-- A body that is open is not closed, and a notification with an old epoch takes nothing. -/
theorem openRun_guarded :
    machine.exec {} openRun = some openEnd ∧
    (¬ ∀ ls s fd closed t, machine.exec {} ls = some s →
      machine.step s (.fdClose fd closed) = some t →
      (t.set.fdr (unsigned fd)).whead = linkClean) ∧
    ¬ ∀ ls s fd imask epoch empty t wr, machine.exec {} ls = some s →
      machine.step s (.takeWatchList fd imask epoch empty) = some t →
      t.set.wr? (t.set.fdr (unsigned fd)).whead = some wr →
      wr.taken? imask empty = some false := by
  have hr : machine.exec {} openRun = some openEnd := (Option.some_get _).symm
  refine ⟨hr, fun h => ?_, fun h => ?_⟩
  · have hclose := h openRun openEnd 3 [] _ hr (Option.some_get (by decide)).symm
    exact absurd hclose (by decide)
  · have htake := h openRun openEnd 3 Fdevent.read 9 [] _ ⟨some 100, Fdevent.read, linkClean⟩ hr
      (Option.some_get (by decide)).symm (by decide)
    exact absurd htake (by decide)

end FdEvents
end Cotamer
end Psets
