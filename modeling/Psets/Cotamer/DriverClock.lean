/-
The driver's virtual clock.

Each resumed coroutine takes the clock one tick further, and when nothing else is left
to run the clock jumps to the earliest timer.  The jump does not look where the clock
is: a timer that the ticks have overtaken takes it back.
-/
import Psets.Cotamer.DriverFrame

namespace Psets
namespace Cotamer
namespace Driver

open Transition

/-- The step does not switch to real time. -/
def Label.Virtual (a : Label) : Prop := .setClock true ∉ a.body

instance (a : Label) : Decidable a.Virtual :=
  inferInstanceAs (Decidable (.setClock true ∉ a.body))

/-- The clock does not go back, whatever the hardware clock reads. -/
def Advances (s : State) (a : Label) : Prop :=
  ∀ t, step s a = some t → ∀ clock clock', s.steadyNow clock ≤ t.steadyNow clock'

/-- No timer is overdue when the clock is about to jump. -/
def NotOverdue (s : State) : Label → Prop
  | .tick _ => s.pc = .time false → s.asap = [] → ∀ x ∈ s.timed.entries, s.snow ≤ x.when
  | _ => True

instance (s : State) : (a : Label) → Decidable (NotOverdue s a)
  | .tick _ => inferInstanceAs
      (Decidable (s.pc = .time false → s.asap = [] → ∀ x ∈ s.timed.entries, s.snow ≤ x.when))
  | .finishMigrate _ | .fire _ | .resume _ | .drained | .next | .wait _ | .ready _ _
  | .remote _ _ | .remoteClose _ => .isTrue trivial

/-- The earliest timer speaks for all. -/
theorem notOverdue_iff_top (q : TimerQueue) (now : Int) :
    (∀ x ∈ q.entries, now ≤ x.when) ↔ ∀ x, q.entries.head? = some x → now ≤ x.when := by
  constructor
  · intro h x hx
    exact h x (List.mem_of_mem_head? hx)
  · intro h y hy
    cases hq : q.entries.head? with
    | none =>
      rw [List.head?_eq_none_iff] at hq
      rw [hq] at hy
      cases hy
    | some x => exact Int.le_trans (h x hq) (TimerQueue.top_le hq hy)

theorem updateTime_virtual {s : State} (hs : s.realTime = false) (clock : Int) (had : Bool) :
    s.snow ≤ (updateTime s clock had).snow ↔
      (had = false → s.asap = [] → ∀ x ∈ s.timed.entries, s.snow ≤ x.when) := by
  rw [notOverdue_iff_top]
  unfold updateTime
  simp only [hs, Bool.false_eq_true, if_false]
  cases hq : s.timed.entries.head? with
  | none => simp
  | some x =>
    by_cases hjump : s.asap.isEmpty ∧ had = false
    · simp only [if_pos hjump]
      have hnil : s.asap = [] := List.isEmpty_iff.1 hjump.1
      simp [hjump.2, hnil]
    · simp only [if_neg hjump]
      have hno : ¬ (had = false ∧ s.asap = []) := fun h =>
        hjump ⟨List.isEmpty_iff.2 h.2, h.1⟩
      refine iff_of_true (Int.le_refl _) fun hhad hnil => absurd ⟨hhad, hnil⟩ hno

/-- In virtual time every other step leaves the clock alone or takes it on. -/
theorem step_virtual {s t : State} {a : Label} (ha : a.Virtual) (hs : s.realTime = false)
    (h : step s a = some t) :
    t.realTime = false ∧ (NotOverdue s a → s.snow ≤ t.snow) := by
  cases step_moved h with
  | imported closed hpc hacted =>
    rcases hacted.clock List.not_mem_nil hs with ⟨hr, hle⟩
    exact ⟨hr, fun _ => hle⟩
  | resumed hpc hacted hsnow =>
    rcases hacted.clock ha hs with ⟨hr, hle⟩
    exact ⟨hr, fun _ => Int.le_trans hle hsnow⟩
  | swept hpc =>
    rcases sweep_eq s with ⟨keepalives, guardCount, pc, houter, heq⟩
    rw [heq]
    exact ⟨hs, fun _ => Int.le_refl _⟩
  | tested clock hpc =>
    rcases exitTest_eq s clock with ⟨timed, ⟨hidle, heq⟩ | ⟨pc, houter, heq⟩⟩ <;> rw [heq] <;>
      exact ⟨hs, fun _ => Int.le_refl _⟩
  | @timed clock had hpc =>
    refine ⟨?_, fun hdue => (updateTime_virtual hs clock had).2 fun hhad => ?_⟩
    · rcases updateTime_eq s clock had with ⟨snow, heq⟩
      rw [heq]
      exact hs
    · exact hdue (by rw [hpc, hhad])
  | quiet houter houter' hquiet hbody =>
    rcases hquiet with ⟨timed, watches, updates, registered, triggered, pc, rfl⟩
    exact ⟨hs, fun _ => Int.le_refl _⟩
  | _ => exact ⟨hs, fun _ => Int.le_refl _⟩

theorem advances_iff {s : State} {a : Label} (hs : s.realTime = false) (ha : a.Virtual) :
    Advances s a ↔ NotOverdue s a := by
  constructor
  · intro h
    cases a with
    | tick clock =>
      intro hpc
      have hstep : step s (.tick clock) = some (updateTime s clock false) := by
        simp only [step, hpc]
      have hle : s.snow ≤ (updateTime s clock false).snow := by
        rcases updateTime_eq s clock false with ⟨snow, heq⟩
        have hnow := h _ hstep 0 0
        rw [heq] at hnow ⊢
        simpa only [State.steadyNow, hs, Bool.false_eq_true, if_false] using hnow
      exact (updateTime_virtual hs clock false).1 hle rfl
    | _ => trivial
  · intro hdue t ht clock clock'
    rcases step_virtual ha hs ht with ⟨hr, hle⟩
    simpa only [State.steadyNow, hs, hr, Bool.false_eq_true, if_false] using hle hdue

/-- In virtual time the clock never goes back during a run of the loop exactly when no
timer is overdue at any of its jumps. -/
theorem virtual_time_monotone_iff {s : State} {as : List Label} (hs : s.realTime = false)
    (has : ∀ a ∈ as, a.Virtual) :
    loop.Within Advances s as ↔ loop.Within NotOverdue s as := by
  have hw : loop.Within (fun _ a => a.Virtual) s as :=
    Machine.within_of_forall s fun a ha _ => has a ha
  refine Machine.within_congr (I := fun u => u.realTime = false) ?_ ?_ hs hw
  · intro u a t hu ha ht
    exact (step_virtual ha hu ht).1
  · intro u a hu ha
    exact advances_iff hu ha

/-- Two coroutines run, and the loop sleeps until a timer five ticks ahead. -/
def early : State := { asap := [0, 1], timed := ⟨[⟨5, 2⟩], by decide⟩ }

def resumeEach : Nat → List Label
  | 0 => []
  | n + 1 => .fire [] :: .resume [] :: .drained :: resumeEach n

def earlyRun : List Label :=
  .finishMigrate [] :: resumeEach 2 ++ [.next, .next, .next, .tick 0, .tick 0]

theorem early_monotone : loop.Within Advances early earlyRun :=
  (virtual_time_monotone_iff rfl (by decide)).2 (by decide +kernel)

/-- Three coroutines run, and a timer is one tick ahead: the clock goes from 3 back
to 1. -/
def overtaken : State := { asap := [0, 1, 2], timed := ⟨[⟨1, 3⟩], by decide⟩ }

def overtakenRun : List Label :=
  .finishMigrate [] :: resumeEach 3 ++ [.next, .next, .next, .tick 0]

theorem overtaken_back : loop.init overtaken ∧ overtaken.realTime = false ∧
    (∀ a ∈ overtakenRun, a.Virtual) ∧ ∃ s t, loop.exec overtaken overtakenRun = some s ∧
      step s (.tick 0) = some t ∧ t.steadyNow 0 < s.steadyNow 0 :=
  ⟨rfl, rfl, by decide, _, _, rfl, rfl, by decide⟩

end Driver
end Cotamer
end Psets
