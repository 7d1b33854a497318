/-
What a returning loop leaves behind.

The exit test looks at the timers, the kernel registrations, the work of other threads,
the guards and the keepalives, and not at `asap_`: it is the aliquot that has to empty
`asap_`, and the aliquot stops at its quota.  And it reads `guard_count_`, which
`process_clearing` sets to zero over the heads of the guards that outlive it.
-/
import Mathlib.Algebra.GroupWithZero.Nat
import Psets.Cotamer.DriverFrame

namespace Psets
namespace Cotamer
namespace Driver

open Transition

/-- Nothing is left to do: the state in which `loop` is to return. -/
structure Quiescent (s : State) : Prop where
  asap : s.asap = []
  timers : ∀ x ∈ s.timed.entries, s.dead x.event = true
  fds : s.registered = []
  migrate : s.migrate = [] ∧ s.migrateFdClose = []
  guards : s.guards = 0
  keepalives : ∀ e ∈ s.keepalives, e ∈ s.triggered

/-- `asap_` against the count of what was queued: the aliquot takes one event for each
unit of its quota. -/
def Accounted (s : State) : Prop :=
  match s.pc with
  | .top => True
  | .aliquot n | .drive _ (.aliquot n) => s.posted + n = s.asap.length + asapQuota
  | _ => s.asap.length = (s.queued - asapQuota) + s.posted

theorem accounted_outer {s : State} (h : s.pc.Outer) :
    Accounted s ↔ s.asap.length = (s.queued - asapQuota) + s.posted := by
  unfold Accounted
  split
  · rename_i hpc
    rw [hpc] at h
    exact h.elim
  · rename_i hpc
    rw [hpc] at h
    exact h.elim
  · rename_i hpc
    rw [hpc] at h
    exact h.elim
  · rfl

/-- The account is about these four fields. -/
theorem Accounted.congr {s t : State} (hs : Accounted s) (hpc : t.pc = s.pc)
    (hq : t.queued = s.queued)
    (hasap : t.asap.length + s.posted = s.asap.length + t.posted) : Accounted t := by
  unfold Accounted at hs ⊢
  rw [hpc]
  split at hs
  · trivial
  · omega
  · omega
  · rw [hq]
    omega

theorem Accounted.step {s t : State} {a : Label} (hs : Accounted s)
    (h : step s a = some t) : Accounted t := by
  cases step_moved h with
  | imported closed hpc hacted =>
    have hpc' := hacted.pc
    have hasap := hacted.asap
    simp only [] at hpc' hasap
    simp only [Accounted, hpc']
    omega
  | fired also hpc hasap =>
    simp only [Accounted, hpc, hasap, List.length_cons] at hs
    simp only [Accounted, fire]
    omega
  | resumed hpc hacted hle => exact hs.congr hacted.pc hacted.queued hacted.asap
  | @drained eh back hpc =>
    cases back <;> simpa only [Accounted, Back.pc, hpc] using hs
  | @ended n hpc hend =>
    simp only [Accounted, hpc] at hs ⊢
    rcases hend with rfl | hnil
    · omega
    · rw [hnil, List.length_nil] at hs ⊢
      omega
  | swept hpc =>
    rcases sweep_eq s with ⟨keepalives, guardCount, pc, houter, heq⟩
    rw [heq, accounted_outer houter]
    simpa only [Accounted, hpc] using hs
  | tested clock hpc =>
    simp only [Accounted, hpc] at hs
    rcases exitTest_eq s clock with ⟨timed, ⟨_, heq⟩ | ⟨pc, houter, heq⟩⟩
    · rw [heq]
      exact hs
    · rw [heq, accounted_outer houter]
      exact hs
  | timed clock hpc =>
    simp only [Accounted, hpc] at hs
    rcases updateTime_eq s clock _ with ⟨snow, heq⟩
    rw [heq]
    exact hs
  | looped hpc =>
    simp only [Accounted, hpc] at hs
    by_cases hlt : s.looptype = .poll
    · rw [if_pos hlt]
      exact hs
    · rw [if_neg hlt]
      trivial
  | quiet houter houter' hquiet hbody =>
    rcases hquiet with ⟨timed, watches, updates, registered, triggered, pc, rfl⟩
    rw [accounted_outer houter] at hs
    rwa [accounted_outer houter']
  | remote triggered migrate migrateFdClose hret hbody => exact hs

/-- A call that has returned did so at the exit test, or because it was a poll. -/
def Tested (s : State) : Prop :=
  match s.pc with
  | .returned false => idle s = true
  | .returned true => s.looptype = .poll
  | _ => True

theorem tested_outer {s : State} (h : s.pc.Outer) : Tested s := by
  unfold Tested
  split
  · rename_i hpc
    rw [hpc] at h
    exact h.elim
  · rename_i hpc
    rw [hpc] at h
    exact h.elim
  · trivial

theorem step_looptype {s t : State} {a : Label} (h : step s a = some t) :
    t.looptype = s.looptype := by
  cases step_moved h with
  | imported closed hpc hacted => exact hacted.looptype
  | resumed hpc hacted hle => exact hacted.looptype
  | swept hpc =>
    rcases sweep_eq s with ⟨keepalives, guardCount, pc, houter, heq⟩
    rw [heq]
  | tested clock hpc =>
    rcases exitTest_eq s clock with ⟨timed, ⟨hidle, heq⟩ | ⟨pc, houter, heq⟩⟩ <;> rw [heq]
  | timed clock hpc =>
    rcases updateTime_eq s clock _ with ⟨snow, heq⟩
    rw [heq]
  | quiet houter houter' hquiet hbody =>
    rcases hquiet with ⟨timed, watches, updates, registered, triggered, pc, rfl⟩
    rfl
  | _ => rfl

theorem Tested.step {s t : State} {a : Label} (h : step s a = some t) : Tested t := by
  cases step_moved h with
  | imported closed hpc hacted => simp only [Tested, hacted.pc]
  | fired also hpc hasap => trivial
  | resumed hpc hacted hle => simp only [Tested, hacted.pc, hpc]
  | @drained eh back hpc => cases back <;> trivial
  | ended hpc hend => trivial
  | swept hpc =>
    rcases sweep_eq s with ⟨keepalives, guardCount, pc, houter, heq⟩
    rw [heq]
    exact tested_outer houter
  | tested clock hpc =>
    rcases exitTest_eq s clock with ⟨timed, ⟨hidle, heq⟩ | ⟨pc, houter, heq⟩⟩
    · rw [heq]
      exact hidle
    · rw [heq]
      exact tested_outer houter
  | timed clock hpc =>
    rcases updateTime_eq s clock _ with ⟨snow, heq⟩
    rw [heq]
    trivial
  | looped hpc =>
    by_cases hlt : s.looptype = .poll
    · rw [if_pos hlt]
      exact hlt
    · rw [if_neg hlt]
      trivial
  | quiet houter houter' hquiet hbody => exact tested_outer houter'
  | remote triggered migrate migrateFdClose hret hbody =>
    unfold Tested
    split
    · rename_i hpc
      exact absurd hpc (hret false)
    · rename_i hpc
      exact absurd hpc (hret true)
    · trivial

/-! ## The guards -/

/-- How many guards of the driver a step destroys or assigns others to. -/
def Label.released (a : Label) : Nat := a.body.countP Act.releases

/-- How many guards of the driver a run destroys or assigns others to. -/
def released (as : List Label) : Nat := (as.map Label.released).sum

/-- How many times a step assigns a guard of the driver to itself. -/
def Label.selfAssigned (a : Label) : Nat := a.body.count (.assignGuard true)

/-- How many times a run assigns a guard of the driver to itself. -/
def selfAssigned (as : List Label) : Nat := (as.map Label.selfAssigned).sum

/-- The step does not call `clear`. -/
def Label.Unclear (a : Label) : Prop := .clear ∉ a.body

instance (a : Label) : Decidable a.Unclear :=
  inferInstanceAs (Decidable (.clear ∉ a.body))

theorem selfAssigned_of_body {a : Label} (h : a.body = []) (d : Int) :
    d + a.selfAssigned = d := by
  rw [Label.selfAssigned, h, List.count_nil]
  exact Int.add_zero d

/-- While nothing clears, `guard_count_` falls behind the guards by one for each guard
that is assigned to itself. -/
theorem step_counted {s t : State} {a : Label} (ha : a.Unclear) (hs : s.clearing = false)
    (h : step s a = some t) :
    t.clearing = false ∧
      t.guardCount - t.guards + a.selfAssigned = s.guardCount - s.guards := by
  cases step_moved h with
  | imported closed hpc hacted =>
    exact ⟨(hacted.unclear List.not_mem_nil).trans hs, hacted.counted List.not_mem_nil hs⟩
  | fired also hpc hasap => exact ⟨hs, selfAssigned_of_body rfl _⟩
  | resumed hpc hacted hle => exact ⟨(hacted.unclear ha).trans hs, hacted.counted ha hs⟩
  | drained hpc => exact ⟨hs, selfAssigned_of_body rfl _⟩
  | ended hpc hend => exact ⟨hs, selfAssigned_of_body rfl _⟩
  | swept hpc =>
    rw [selfAssigned_of_body rfl]
    simp only [sweep, hs, Bool.false_eq_true, if_false, and_self]
  | tested clock hpc =>
    rw [selfAssigned_of_body rfl]
    rcases exitTest_eq s clock with ⟨timed, ⟨_, heq⟩ | ⟨pc, _, heq⟩⟩ <;> rw [heq]
    · exact ⟨rfl, rfl⟩
    · exact ⟨hs, rfl⟩
  | timed clock hpc =>
    rcases updateTime_eq s clock _ with ⟨snow, heq⟩
    rw [heq]
    exact ⟨hs, selfAssigned_of_body rfl _⟩
  | looped hpc => exact ⟨hs, selfAssigned_of_body rfl _⟩
  | quiet houter houter' hquiet hbody =>
    rcases hquiet with ⟨timed, watches, updates, registered, triggered, pc, rfl⟩
    exact ⟨hs, selfAssigned_of_body hbody _⟩
  | remote triggered migrate migrateFdClose hret hbody =>
    exact ⟨hs, selfAssigned_of_body hbody _⟩

/-- While the driver clears, no guard is made that points to it. -/
theorem step_released {s t : State} {a : Label} (hs : s.clearing = true)
    (h : step s a = some t) :
    (t.clearing = true ∨ ∃ busy, t.pc = .returned busy) ∧
      t.guards + a.released = s.guards := by
  cases step_moved h with
  | imported closed hpc hacted =>
    exact ⟨.inl (hacted.clearing hs), hacted.released hs⟩
  | fired also hpc hasap => exact ⟨.inl hs, rfl⟩
  | resumed hpc hacted hle => exact ⟨.inl (hacted.clearing hs), hacted.released hs⟩
  | drained hpc => exact ⟨.inl hs, rfl⟩
  | ended hpc hend => exact ⟨.inl hs, rfl⟩
  | swept hpc =>
    simp only [sweep, hs, if_true]
    exact ⟨.inl trivial, rfl⟩
  | tested clock hpc =>
    rcases exitTest_eq s clock with ⟨timed, ⟨_, heq⟩ | ⟨pc, _, heq⟩⟩ <;> rw [heq]
    · exact ⟨.inr ⟨false, rfl⟩, rfl⟩
    · exact ⟨.inl hs, rfl⟩
  | timed clock hpc =>
    rcases updateTime_eq s clock _ with ⟨snow, heq⟩
    rw [heq]
    exact ⟨.inl hs, rfl⟩
  | looped hpc => exact ⟨.inl hs, rfl⟩
  | quiet houter houter' hquiet hbody =>
    rcases hquiet with ⟨timed, watches, updates, registered, triggered, pc, rfl⟩
    exact ⟨.inl hs, by rw [Label.released, hbody]; rfl⟩
  | remote triggered migrate migrateFdClose hret hbody =>
    exact ⟨.inl hs, by rw [Label.released, hbody]; rfl⟩

theorem exec_counted {s t : State} {as : List Label} (has : ∀ a ∈ as, a.Unclear)
    (hs : s.clearing = false) (hr : loop.exec s as = some t) :
    t.guardCount - t.guards + selfAssigned as = s.guardCount - s.guards := by
  induction as generalizing s with
  | nil =>
    obtain rfl := Option.some.inj hr
    exact Int.add_zero _
  | cons a as ih =>
    rcases Machine.exec_cons_inv hr with ⟨u, hu, hrun⟩
    rcases step_counted (has a List.mem_cons_self) hs hu with ⟨hu', hstep⟩
    have htail := ih (fun b hb => has b (List.mem_cons_of_mem a hb)) hu' hrun
    simp only [selfAssigned, List.map_cons, List.sum_cons] at htail ⊢
    omega

theorem exec_released {s t : State} {as : List Label} (hs : s.clearing = true)
    (hr : loop.exec s as = some t) : t.guards + released as = s.guards := by
  induction as generalizing s with
  | nil =>
    obtain rfl := Option.some.inj hr
    rfl
  | cons a as ih =>
    rcases Machine.exec_cons_inv hr with ⟨u, hu, hrun⟩
    rcases step_released hs hu with ⟨hclear, hguards⟩
    have htail : t.guards + released as = u.guards := by
      rcases hclear with hclear | ⟨busy, hret⟩
      · exact ih hclear hrun
      -- nothing follows the end of the call
      · cases as with
        | nil =>
          obtain rfl := Option.some.inj hrun
          rfl
        | cons b bs =>
          rcases Machine.exec_cons_inv hrun with ⟨v, hv, _⟩
          have hnone := step_returned hret b
          rw [show Driver.step u b = some v from hv] at hnone
          cases hnone
    simp only [released, List.map_cons, List.sum_cons] at htail ⊢
    omega

/-! ## The theorem -/

/-- The guards that `guard_count_` knows are all there are to wait for: it has one for
each guard of the start and for each time a guard is assigned to itself or, in a call
that clears, every guard goes during the call. -/
def GuardsCovered (s : State) (as : List Label) : Prop :=
  if s.clearing = true then released as = s.guards
  else s.guardCount = s.guards + selfAssigned as

theorem guards_eq_zero_iff {s t : State} {as : List Label} (has : ∀ a ∈ as, a.Unclear)
    (hr : loop.exec s as = some t) (hcount : t.guardCount = 0) :
    t.guards = 0 ↔ GuardsCovered s as := by
  unfold GuardsCovered
  split
  · rename_i hs
    have hrel := exec_released hs hr
    omega
  · rename_i hs
    have hdiff := exec_counted has (Bool.eq_false_iff.2 hs) hr
    omega

theorem idle_iff (s : State) : idle s = true ↔
    s.timed.entries = [] ∧ s.registered = [] ∧ (s.migrate = [] ∧ s.migrateFdClose = []) ∧
      s.guardCount = 0 ∧ s.keepalives = [] := by
  simp [idle, State.nfdctl, State.locked, and_assoc]

/-- A complete loop that returns, and that nothing cleared on the way, leaves nothing
to do exactly when its last aliquot was given no more events than its quota, nothing
was queued after the aliquot, and the guards were covered by `guard_count_`. -/
theorem loop_quiescent_iff {s t : State} {as : List Label} (hstart : loop.init s)
    (hlt : s.looptype = .complete) (has : ∀ a ∈ as, a.Unclear)
    (hr : loop.exec s as = some t) (hret : ∃ busy, t.pc = .returned busy) :
    Quiescent t ↔ t.queued ≤ asapQuota ∧ t.posted = 0 ∧ GuardsCovered s as := by
  have hpc : s.pc = .top := hstart
  have hend : Accounted t ∧ Tested t ∧ t.looptype = .complete := by
    refine Machine.exec_preserves
      (P := fun u => Accounted u ∧ Tested u ∧ u.looptype = .complete) ?_ ?_ hr
    · intro u a v hu hstep
      exact ⟨hu.1.step hstep, Tested.step hstep, (step_looptype hstep).trans hu.2.2⟩
    · exact ⟨by simp only [Accounted, hpc], by simp only [Tested, hpc], hlt⟩
  rcases hend with ⟨hacc, htested, hlt'⟩
  obtain ⟨busy, hpc'⟩ := hret
  simp only [Accounted, hpc'] at hacc
  have hidle : idle t = true := by
    cases busy with
    | false => simpa only [Tested, hpc'] using htested
    | true =>
      have hpoll : t.looptype = .poll := by simpa only [Tested, hpc'] using htested
      rw [hlt'] at hpoll
      cases hpoll
  obtain ⟨htimers, hfds, hmigrate, hcount, hkeep⟩ := (idle_iff t).1 hidle
  have hguards := guards_eq_zero_iff has hr hcount
  constructor
  · intro hq
    have hlen : t.asap.length = 0 := by rw [hq.asap, List.length_nil]
    exact ⟨by omega, by omega, hguards.1 hq.guards⟩
  · rintro ⟨hqueued, hposted, hcovered⟩
    have hlen : t.asap.length = 0 := by omega
    exact
      { asap := List.length_eq_zero_iff.1 hlen
        timers := by simp [htimers]
        fds := hfds
        migrate := hmigrate
        guards := hguards.2 hcovered
        keepalives := by simp [hkeep] }

/-- A guarded coroutine sleeps, gives up its guard, and queues an event when it wakes. -/
def sleeper : State := { asap := [0], guardCount := 1, guards := 1 }

def sleeperRun : List Label :=
  [.finishMigrate [], .fire [], .resume [.timer 5 1 []], .drained, .next, .next, .next, .tick 0,
    .tick 0, .fire [], .resume [.asap 2, .unguard], .drained, .next,
    .finishMigrate [], .fire [], .drained, .next, .next, .next, .tick 0]

def sleeperEnd : State := (loop.exec sleeper sleeperRun).get (by decide +kernel)

theorem sleeper_quiescent : Quiescent sleeperEnd := by
  have hpc : sleeperEnd.pc = .returned false := by decide +kernel
  have hqueued : sleeperEnd.queued ≤ asapQuota := by decide +kernel
  have hposted : sleeperEnd.posted = 0 := by decide +kernel
  have hguards : GuardsCovered sleeper sleeperRun := by
    show sleeper.guardCount = sleeper.guards + selfAssigned sleeperRun
    decide
  have hstart : loop.init sleeper := rfl
  exact (loop_quiescent_iff hstart rfl (by decide) (Option.some_get _).symm ⟨false, hpc⟩).2
    ⟨hqueued, hposted, hguards⟩

/-! ## A call with one event too many -/

/-- The steps that drive `n` events nobody waits for. -/
def drain : Nat → List Label
  | 0 => []
  | n + 1 => .fire [] :: .drained :: drain n

theorem exec_drain (es rest : List EventId) (m : Nat) (s : State)
    (hpc : s.pc = .aliquot (es.length + m)) (hasap : s.asap = es ++ rest) :
    ∃ triggered, loop.exec s (drain es.length) =
      some { s with asap := rest, triggered, pc := .aliquot m } := by
  induction es generalizing s with
  | nil =>
    refine ⟨s.triggered, ?_⟩
    simp only [List.length_nil, Nat.zero_add] at hpc
    rw [List.nil_append] at hasap
    rw [List.length_nil, drain, Machine.exec_nil, ← hpc, ← hasap]
  | cons e es ih =>
    have hfire : step s (.fire []) = some (fire { s with asap := es ++ rest } e []
        (.aliquot (es.length + m))) := by
      have hpc' : s.pc = .aliquot (es.length + m + 1) := by
        rw [hpc, List.length_cons]
        congr 1
        omega
      simp only [step, hpc', hasap, List.cons_append]
    rcases ih { fire { s with asap := es ++ rest } e [] (.aliquot (es.length + m)) with
      pc := .aliquot (es.length + m) } rfl rfl with ⟨triggered, hrest⟩
    exact ⟨triggered, Machine.exec_cons hfire (Machine.exec_cons rfl hrest)⟩

theorem drain_unclear {n : Nat} {a : Label} (h : a ∈ drain n) : a.Unclear := by
  induction n with
  | zero => cases h
  | succ n ih =>
    simp only [drain, List.mem_cons] at h
    rcases h with rfl | rfl | h
    · decide
    · decide
    · exact ih h

/-- Nothing to import. -/
theorem finishMigrate_alone {s : State} (hm : s.migrate = []) (hc : s.migrateFdClose = [])
    (closed : List (List EventId × List EventId)) :
    finishMigrate s closed = { s with posted := s.asap.length, pc := .aliquot asapQuota } := by
  simp only [finishMigrate, hm, hc, List.append_nil, closeAll]

/-- One more event than the quota in `asap_`, and nothing else. -/
def overQuota : State := { asap := List.range asapQuota ++ [asapQuota] }

def overQuotaRun : List Label :=
  .finishMigrate [] :: (drain asapQuota ++ [.next, .next, .next, .tick 0])

/-- The call returns with an event in `asap_`. -/
theorem overQuota_returns : ∃ t, loop.init overQuota ∧ overQuota.looptype = .complete ∧
    (∀ a ∈ overQuotaRun, a.Unclear) ∧ loop.exec overQuota overQuotaRun = some t ∧
    t.pc = .returned false ∧ t.asap = [asapQuota] ∧ ¬ Quiescent t := by
  have hbegin := finishMigrate_alone (s := overQuota) rfl rfl []
  have hasap : (finishMigrate overQuota []).asap = List.range asapQuota ++ [asapQuota] := by
    rw [hbegin, overQuota]
  have hpc : (finishMigrate overQuota []).pc = .aliquot ((List.range asapQuota).length + 0) := by
    simp only [hbegin, List.length_range, Nat.add_zero]
  rcases exec_drain _ _ 0 _ hpc hasap with ⟨triggered, hdrain⟩
  rw [List.length_range] at hdrain
  refine ⟨_, rfl, rfl, fun a ha => ?_,
    Machine.exec_cons rfl ((Machine.exec_append hdrain).trans rfl), rfl, rfl, fun h => ?_⟩
  · simp only [overQuotaRun, List.mem_cons, List.mem_append, List.not_mem_nil, or_false] at ha
    rcases ha with rfl | ha | rfl | rfl | rfl | rfl
    · decide
    · exact drain_unclear ha
    · decide
    · decide
    · decide
    · decide
  · exact absurd h.asap (List.cons_ne_nil _ _)

end Driver
end Cotamer
end Psets
