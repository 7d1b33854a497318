/-
What the pieces of the driver leave alone.

A coroutine body can do anything to the driver's lists, but it queues an event only
together with the count of the queued events, takes a guard only together with
`guard_count_`, gives one up together with it unless a guard is assigned to itself, and
moves the clock only forward.
-/
import Psets.Cotamer.Driver

namespace Psets
namespace Cotamer
namespace Driver

open Transition

namespace State

theorem queueUpdate_eq (s : State) (fd : Nat) :
    ∃ updates, s.queueUpdate fd = { s with updates } := by
  unfold queueUpdate
  split
  · exact ⟨s.updates, rfl⟩
  · exact ⟨fd :: s.updates, rfl⟩

theorem applyFdUpdate_eq (s : State) (fd : Nat) (mask : FdEvent) :
    ∃ registered, s.applyFdUpdate fd mask = { s with registered } := by
  unfold applyFdUpdate
  split
  · exact ⟨s.registered.erase fd, rfl⟩
  · split
    · exact ⟨s.registered, rfl⟩
    · exact ⟨fd :: s.registered, rfl⟩

theorem takeWatchList_eq (s : State) (fd : Nat) (mask : FdEvent) :
    ∃ watches updates, (s.takeWatchList fd mask).2 = { s with watches, updates } := by
  unfold takeWatchList
  simp only []
  split
  · exact ⟨_, s.updates, rfl⟩
  · rcases queueUpdate_eq
      { s with watches := s.watches.filter (fun w => !s.takes fd mask w) } fd with ⟨u, hu⟩
    exact ⟨_, u, hu⟩

theorem stepTime_eq (s : State) :
    ∃ snow, s.stepTime = { s with snow } ∧ s.snow ≤ snow := by
  unfold stepTime
  split
  · exact ⟨s.snow, rfl, Int.le_refl _⟩
  · exact ⟨s.snow + 1, rfl, by omega⟩

end State

/-- The part of the state that a coroutine body changes only along with its own
account of it. -/
structure Acted (body : List Act) (s t : State) : Prop where
  pc : t.pc = s.pc
  looptype : t.looptype = s.looptype
  queued : t.queued = s.queued
  asap : t.asap.length + s.posted = s.asap.length + t.posted
  clearing : s.clearing = true → t.clearing = true
  unclear : .clear ∉ body → t.clearing = s.clearing
  counted : .clear ∉ body → s.clearing = false →
    t.guardCount - t.guards + body.count (.assignGuard true) = s.guardCount - s.guards
  released : s.clearing = true → t.guards + body.countP Act.releases = s.guards
  clock : .setClock true ∉ body → s.realTime = false → t.realTime = false ∧ s.snow ≤ t.snow

theorem Acted.refl (s : State) : Acted [] s s :=
  ⟨rfl, rfl, rfl, rfl, id, fun _ => rfl, fun _ _ => Int.add_zero _, fun _ => rfl,
    fun _ h => ⟨h, Int.le_refl _⟩⟩

theorem Acted.trans {body body' : List Act} {s t u : State} (h : Acted body s t)
    (h' : Acted body' t u) : Acted (body ++ body') s u where
  pc := h'.pc.trans h.pc
  looptype := h'.looptype.trans h.looptype
  queued := h'.queued.trans h.queued
  asap := by
    have h₁ := h.asap
    have h₂ := h'.asap
    omega
  clearing hs := h'.clearing (h.clearing hs)
  unclear hc := by
    rw [List.mem_append, not_or] at hc
    rw [h'.unclear hc.2, h.unclear hc.1]
  counted hc hs := by
    rw [List.mem_append, not_or] at hc
    have h₁ := h.counted hc.1 hs
    have h₂ := h'.counted hc.2 ((h.unclear hc.1).trans hs)
    rw [List.count_append, Int.natCast_add]
    omega
  released hs := by
    have h₁ := h.released hs
    have h₂ := h'.released (h.clearing hs)
    rw [List.countP_append]
    omega
  clock hc hs := by
    rw [List.mem_append, not_or] at hc
    rcases h.clock hc.1 hs with ⟨hr, hle⟩
    rcases h'.clock hc.2 hr with ⟨hr', hle'⟩
    exact ⟨hr', Int.le_trans hle hle'⟩

/-- A piece that touches neither the guards nor the flags. -/
theorem Acted.of_accounts {body : List Act} {s t : State} (hpc : t.pc = s.pc)
    (hlt : t.looptype = s.looptype) (hq : t.queued = s.queued)
    (hc : t.clearing = s.clearing) (hgc : t.guardCount = s.guardCount)
    (hg : t.guards = s.guards) (hr : t.realTime = s.realTime)
    (hasap : t.asap.length + s.posted = s.asap.length + t.posted) (hsnow : s.snow ≤ t.snow)
    (hself : .assignGuard true ∉ body) (hrel : body.countP Act.releases = 0) :
    Acted body s t where
  pc := hpc
  looptype := hlt
  queued := hq
  asap := hasap
  clearing hs := hc.trans hs
  unclear _ := hc
  counted _ _ := by
    rw [List.count_eq_zero_of_not_mem hself, hgc, hg]
    exact Int.add_zero _
  released _ := by rw [hrel, hg, Nat.add_zero]
  clock _ hs := ⟨hr.trans hs, hsnow⟩

theorem notifyClose_acted {body : List Act} (hself : .assignGuard true ∉ body)
    (hrel : body.countP Act.releases = 0) (s : State) (fd : Nat)
    (also waited : List EventId) : Acted body s (s.notifyClose fd also waited) := by
  unfold State.notifyClose
  split
  · simp only []
    generalize hu : State.queueUpdate _ fd = u
    rcases State.queueUpdate_eq _ fd with ⟨updates, hq⟩
    rw [hu] at hq
    rcases State.applyFdUpdate_eq u fd 0 with ⟨registered, hr⟩
    rw [hr, hq]
    refine .of_accounts rfl rfl rfl rfl rfl rfl rfl ?_ (Int.le_refl _) hself hrel
    simp only [State.trigger, List.length_append]
    omega
  · exact .of_accounts rfl rfl rfl rfl rfl rfl rfl rfl (Int.le_refl _) hself hrel

/-- A piece that touches nothing but the guards. -/
theorem Acted.of_guards {body : List Act} {s : State} (guardCount : Int) (guards : Nat)
    (hcounted : s.clearing = false →
      guardCount - guards + body.count (.assignGuard true) = s.guardCount - s.guards)
    (hreleased : s.clearing = true → guards + body.countP Act.releases = s.guards) :
    Acted body s { s with guardCount, guards } where
  pc := rfl
  looptype := rfl
  queued := rfl
  asap := rfl
  clearing := id
  unclear _ := rfl
  counted _ := hcounted
  released := hreleased
  clock _ hs := ⟨hs, Int.le_refl _⟩

theorem guard_acted {s t : State} (h : act s .guard = some t) : Acted [.guard] s t := by
  simp only [act] at h
  split at h
  · obtain rfl := Option.some.inj h
    exact .of_accounts rfl rfl rfl rfl rfl rfl rfl rfl (Int.le_refl _) (by simp) rfl
  · rename_i hc
    obtain rfl := Option.some.inj h
    refine .of_guards (s.guardCount + 1) (s.guards + 1) (fun _ => ?_) fun hs => absurd hs hc
    rw [List.count_eq_zero_of_not_mem (by simp)]
    omega

theorem unguard_acted {s t : State} (h : act s .unguard = some t) : Acted [.unguard] s t := by
  simp only [act] at h
  split at h
  · cases h
  · rename_i hpos
    have hone : s.guards - 1 + 1 = s.guards := Nat.sub_add_cancel (Nat.pos_of_ne_zero hpos)
    split at h
    · rename_i hc
      obtain rfl := Option.some.inj h
      refine .of_guards s.guardCount (s.guards - 1) (fun hs => ?_) fun _ => hone
      rw [hc] at hs
      cases hs
    · rename_i hc
      obtain rfl := Option.some.inj h
      refine .of_guards (s.guardCount - 1) (s.guards - 1) (fun _ => ?_) fun hs => absurd hs hc
      rw [List.count_eq_zero_of_not_mem (by simp)]
      omega

/-- The count goes down by one; the guards too, unless the guard keeps its pointer. -/
theorem assignGuard_acted {s t : State} {self : Bool} (h : act s (.assignGuard self) = some t) :
    Acted [.assignGuard self] s t := by
  simp only [act] at h
  split at h
  · cases h
  · rename_i hpos
    split at h
    · rename_i hc
      obtain rfl := Option.some.inj h
      refine .of_guards s.guardCount _ (fun hs => ?_) fun _ => ?_
      · rw [hc] at hs
        cases hs
      · cases self with
        | true => rfl
        | false => exact Nat.sub_add_cancel (Nat.pos_of_ne_zero hpos)
    · rename_i hc
      obtain rfl := Option.some.inj h
      refine .of_guards (s.guardCount - 1) _ (fun _ => ?_) fun hs => absurd hs hc
      cases self with
      | true =>
        rw [List.count_singleton_self]
        show s.guardCount - 1 - (s.guards : Int) + 1 = _
        omega
      | false =>
        rw [List.count_eq_zero_of_not_mem (by simp)]
        show s.guardCount - 1 - ((s.guards - 1 : Nat) : Int) + 0 = _
        omega

theorem act_acted {s t : State} {a : Act} (h : act s a = some t) : Acted [a] s t := by
  cases a with
  | asap e =>
    simp only [act, Option.some.injEq] at h
    subst h
    refine .of_accounts rfl rfl rfl rfl rfl rfl rfl ?_ (Int.le_refl _) (by simp) rfl
    simp only [List.length_append, List.length_singleton]
    omega
  | trigger es waited =>
    simp only [act, Option.some.injEq] at h
    subst h
    refine .of_accounts rfl rfl rfl rfl rfl rfl rfl ?_ (Int.le_refl _) (by simp) rfl
    simp only [State.trigger, List.length_append]
    omega
  | timer x e culled =>
    simp only [act, Option.map_eq_some_iff] at h
    rcases h with ⟨q, _, rfl⟩
    exact .of_accounts rfl rfl rfl rfl rfl rfl rfl rfl (Int.le_refl _) (by simp) rfl
  | drop e =>
    simp only [act, Option.some.injEq] at h
    subst h
    exact .of_accounts rfl rfl rfl rfl rfl rfl rfl rfl (Int.le_refl _) (by simp) rfl
  | keepalive e =>
    have hsame : ∃ keepalives, t = { s with keepalives } := by
      simp only [act] at h
      split at h
      · exact ⟨s.keepalives, (Option.some.inj h).symm⟩
      · exact ⟨_, (Option.some.inj h).symm⟩
    rcases hsame with ⟨keepalives, rfl⟩
    exact .of_accounts rfl rfl rfl rfl rfl rfl rfl rfl (Int.le_refl _) (by simp) rfl
  | guard => exact guard_acted h
  | unguard => exact unguard_acted h
  | assignGuard self => exact assignGuard_acted h
  | watch fd mask e =>
    simp only [act, Option.some.injEq] at h
    subst h
    rcases State.queueUpdate_eq _ fd with ⟨updates, hu⟩
    rw [hu]
    exact .of_accounts rfl rfl rfl rfl rfl rfl rfl rfl (Int.le_refl _) (by simp) rfl
  | close fd also waited =>
    simp only [act, Option.some.injEq] at h
    subst h
    exact notifyClose_acted (by simp) rfl s fd also waited
  | clear =>
    simp only [act, Option.some.injEq] at h
    subst h
    exact ⟨rfl, rfl, rfl, rfl, fun _ => rfl, fun hc => absurd List.mem_cons_self hc,
      fun hc => absurd List.mem_cons_self hc, fun _ => rfl, fun _ hs => ⟨hs, Int.le_refl _⟩⟩
  | stepTime =>
    simp only [act, Option.some.injEq] at h
    subst h
    rcases s.stepTime_eq with ⟨snow, hs, hle⟩
    rw [hs]
    exact .of_accounts rfl rfl rfl rfl rfl rfl rfl rfl hle (by simp) rfl
  | setClock real =>
    simp only [act, Option.some.injEq] at h
    subst h
    refine ⟨rfl, rfl, rfl, rfl, id, fun _ => rfl, fun _ _ => ?_, fun _ => rfl, fun hc _ => ?_⟩
    · rw [List.count_eq_zero_of_not_mem (by simp)]
      exact Int.add_zero _
    refine ⟨?_, Int.le_refl _⟩
    cases real with
    | false => rfl
    | true => exact absurd List.mem_cons_self hc

theorem acts_acted {body : List Act} {s t : State} (h : acts s body = some t) :
    Acted body s t := by
  induction body generalizing s with
  | nil =>
    obtain rfl := Option.some.inj h
    exact .refl s
  | cons a body ih =>
    rcases Option.bind_eq_some_iff.1 h with ⟨u, hu, ht⟩
    exact Acted.trans (act_acted hu) (ih ht)

theorem closeAll_acted (s : State) (fds : List Nat)
    (closed : List (List EventId × List EventId)) : Acted [] s (closeAll s fds closed) := by
  induction fds generalizing s closed with
  | nil => exact .refl s
  | cons fd fds ih => exact (notifyClose_acted List.not_mem_nil rfl s fd _ _).trans (ih _ _)

/-! ## The pieces of the loop -/

theorem afterCoh_eq (s : State) (back : Back) :
    ∃ snow, afterCoh s back = { s with snow } ∧ s.snow ≤ snow := by
  unfold afterCoh
  split
  · exact ⟨s.snow, rfl, Int.le_refl _⟩
  · exact ⟨s.snow, rfl, Int.le_refl _⟩
  · exact s.stepTime_eq

theorem updateFds_eq (s : State) (fds : List Nat) :
    ∃ registered, updateFds s fds = { s with registered, updates := [] } := by
  induction fds generalizing s with
  | nil => exact ⟨s.registered, rfl⟩
  | cons fd fds ih =>
    rcases s.applyFdUpdate_eq fd (s.watchListMask fd) with ⟨registered, hr⟩
    rcases ih (s.applyFdUpdate fd (s.watchListMask fd)) with ⟨registered', hr'⟩
    refine ⟨registered', ?_⟩
    rw [updateFds, hr', hr]

theorem step_returned {s : State} {busy : Bool} (h : s.pc = .returned busy) (a : Label) :
    step s a = none := by
  cases a <;> simp [step, h]

/-- The phases in which the loop takes nothing from `asap_` and decides nothing about
its end. -/
def Pc.Outer : Pc → Prop
  | .clearFds _ _ | .clearTimers | .fdUpdates | .exit | .watch | .fds _ | .time _ | .timers => True
  | .drive _ (.aliquot _) => False
  | .drive _ _ => True
  | _ => False

theorem sweep_eq (s : State) :
    ∃ keepalives guardCount pc, pc.Outer ∧
      sweep s = { s with keepalives, guardCount, pc } := by
  unfold sweep
  simp only []
  split
  · exact ⟨[], 0, .clearFds 0 [], trivial, rfl⟩
  · exact ⟨_, s.guardCount, .fdUpdates, trivial, rfl⟩

/-- The call ends, or it goes on. -/
theorem exitTest_eq (s : State) (clock : Int) :
    ∃ timed, (idle { s with timed } = true ∧
        exitTest s clock = { s with timed, clearing := false, pc := .returned false }) ∨
      ∃ pc, pc.Outer ∧ exitTest s clock = { s with timed, pc } := by
  unfold exitTest
  refine ⟨s.timed.cull s.dead, ?_⟩
  simp only []
  split
  · rename_i hidle
    exact .inl ⟨hidle, rfl⟩
  · split
    · exact .inr ⟨.time false, trivial, rfl⟩
    · exact .inr ⟨.watch, trivial, rfl⟩

theorem updateTime_eq (s : State) (clock : Int) (had : Bool) :
    ∃ snow, updateTime s clock had = { s with snow, pc := .timers } := by
  unfold updateTime
  simp only []
  split
  · exact ⟨clock, rfl⟩
  · split
    · split
      · exact ⟨_, rfl⟩
      · exact ⟨s.snow, rfl⟩
    · exact ⟨s.snow, rfl⟩

/-- A step that changes no more than files, timers and events. -/
def Quiet (s t : State) : Prop :=
  ∃ timed watches updates registered triggered pc,
    t = { s with timed, watches, updates, registered, triggered, pc }

/-- What a step can do. -/
inductive Moved (s : State) : Label → State → Prop where
  | imported (closed : List (List EventId × List EventId)) {t : State} : s.pc = .top →
      Acted [] { s with
        asap := s.asap ++ s.migrate, migrate := [], migrateFdClose := []
        posted := (s.asap ++ s.migrate).length, pc := .aliquot asapQuota } t →
      Moved s (.finishMigrate closed) t
  | fired {n : Nat} {eh : EventId} {asap : List EventId} (also : List EventId) :
      s.pc = .aliquot (n + 1) → s.asap = eh :: asap →
      Moved s (.fire also) (fire { s with asap } eh also (.aliquot n))
  | resumed {eh : EventId} {back : Back} {body : List Act} {u : State} {snow : Int} :
      s.pc = .drive eh back → Acted body s u → u.snow ≤ snow →
      Moved s (.resume body) { u with snow }
  | drained {eh : EventId} {back : Back} : s.pc = .drive eh back →
      Moved s .drained { s with pc := back.pc }
  | ended {n : Nat} : s.pc = .aliquot n → n = 0 ∨ s.asap = [] →
      Moved s .next { s with pc := .keepalives, queued := s.posted, posted := 0 }
  | swept : s.pc = .keepalives → Moved s .next (sweep s)
  | tested (clock : Int) : s.pc = .exit → Moved s (.tick clock) (exitTest s clock)
  | timed (clock : Int) {had : Bool} : s.pc = .time had →
      Moved s (.tick clock) (updateTime s clock had)
  | looped : s.pc = .timers →
      Moved s .next { s with pc := if s.looptype = .poll then .returned true else .top }
  | quiet {a : Label} {t : State} : s.pc.Outer → t.pc.Outer → Quiet s t → a.body = [] →
      Moved s a t
  | remote {a : Label} (triggered migrate : List EventId) (migrateFdClose : List Nat) :
      (∀ busy, s.pc ≠ .returned busy) → a.body = [] →
      Moved s a { s with triggered, migrate, migrateFdClose }

theorem fire_moved {s t : State} {also : List EventId} (h : step s (.fire also) = some t) :
    Moved s (.fire also) t := by
  simp only [step] at h
  split at h
  · rename_i n hpc
    split at h
    · rename_i eh asap hasap
      obtain rfl := Option.some.inj h
      exact .fired also hpc hasap
    · cases h
  · rename_i fd eh taken hpc
    obtain rfl := Option.some.inj h
    exact .quiet (by rw [hpc]; trivial) trivial ⟨_, _, _, _, _, _, rfl⟩ rfl
  · rename_i hpc
    split at h
    · obtain rfl := Option.some.inj h
      exact .quiet (by rw [hpc]; trivial) trivial ⟨_, _, _, _, _, _, rfl⟩ rfl
    · cases h
  · rename_i eh taken hpc
    obtain rfl := Option.some.inj h
    exact .quiet (by rw [hpc]; trivial) trivial ⟨_, _, _, _, _, _, rfl⟩ rfl
  · rename_i hpc
    rcases Option.map_eq_some_iff.1 h with ⟨x, _, rfl⟩
    exact .quiet (by rw [hpc]; trivial) trivial ⟨_, _, _, _, _, _, rfl⟩ rfl
  · cases h

theorem next_moved {s t : State} (h : step s .next = some t) : Moved s .next t := by
  simp only [step] at h
  split at h
  · rename_i n hpc
    split at h
    · rename_i hend
      obtain rfl := Option.some.inj h
      exact .ended hpc hend
    · cases h
  · rename_i hpc
    obtain rfl := Option.some.inj h
    exact .swept hpc
  · rename_i fd hpc
    have houter : s.pc.Outer := by rw [hpc]; trivial
    split at h
    · rename_i f _
      obtain rfl := Option.some.inj h
      rcases s.takeWatchList_eq f 7 with ⟨watches, updates, ht⟩
      rw [ht]
      exact .quiet houter trivial ⟨_, _, _, _, _, _, rfl⟩ rfl
    · obtain rfl := Option.some.inj h
      exact .quiet houter trivial ⟨_, _, _, _, _, _, rfl⟩ rfl
  · rename_i hpc
    split at h
    · obtain rfl := Option.some.inj h
      exact .quiet (by rw [hpc]; trivial) trivial ⟨_, _, _, _, _, _, rfl⟩ rfl
    · cases h
  · rename_i hpc
    obtain rfl := Option.some.inj h
    rcases updateFds_eq s s.updates with ⟨registered, hr⟩
    rw [hr]
    exact .quiet (by rw [hpc]; trivial) trivial ⟨_, _, _, _, _, _, rfl⟩ rfl
  · rename_i hpc
    obtain rfl := Option.some.inj h
    exact .quiet (by rw [hpc]; trivial) trivial ⟨_, _, _, _, _, _, rfl⟩ rfl
  · rename_i hpc
    split at h
    · obtain rfl := Option.some.inj h
      exact .looped hpc
    · cases h
  · cases h

theorem step_moved {s t : State} {a : Label} (h : step s a = some t) : Moved s a t := by
  cases a with
  | finishMigrate closed =>
    simp only [step] at h
    split at h
    · rename_i hpc
      obtain rfl := Option.some.inj h
      exact .imported closed hpc (closeAll_acted _ _ _)
    · cases h
  | fire also => exact fire_moved h
  | resume body =>
    simp only [step] at h
    split at h
    · rename_i eh back hpc
      rcases Option.map_eq_some_iff.1 h with ⟨u, hu, rfl⟩
      rcases afterCoh_eq u back with ⟨snow, hs, hle⟩
      rw [hs]
      exact .resumed hpc (acts_acted hu) hle
    · cases h
  | drained =>
    simp only [step] at h
    split at h
    · rename_i eh back hpc
      obtain rfl := Option.some.inj h
      exact .drained hpc
    · cases h
  | next => exact next_moved h
  | wait had =>
    simp only [step] at h
    split at h
    · rename_i hpc
      obtain rfl := Option.some.inj h
      refine .quiet (by rw [hpc]; trivial) ?_ ⟨_, _, _, _, _, _, rfl⟩ rfl
      cases had <;> trivial
    · cases h
  | ready fd mask =>
    simp only [step] at h
    split at h
    · rename_i hpc
      obtain rfl := Option.some.inj h
      rcases s.takeWatchList_eq fd mask with ⟨watches, updates, ht⟩
      rw [ht]
      exact .quiet (by rw [hpc]; trivial) trivial ⟨_, _, _, _, _, _, rfl⟩ rfl
    · cases h
  | tick clock =>
    simp only [step] at h
    split at h
    · rename_i hpc
      obtain rfl := Option.some.inj h
      exact .tested clock hpc
    · rename_i had hpc
      obtain rfl := Option.some.inj h
      exact .timed clock hpc
    · cases h
  | remote es waited =>
    simp only [step] at h
    split at h
    · cases h
    · rename_i hpc
      obtain rfl := Option.some.inj h
      exact .remote _ _ _ hpc rfl
  | remoteClose fd =>
    simp only [step] at h
    split at h
    · cases h
    · rename_i hpc
      obtain rfl := Option.some.inj h
      exact .remote _ _ _ hpc rfl

end Driver
end Cotamer
end Psets
