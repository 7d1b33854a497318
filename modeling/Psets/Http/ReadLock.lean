/-
Who has the read mutex of an `http_parser`.

Every ticket in the queue of `m_[0]` belongs to a call, as long as no ticket is dropped
after it was granted.  From then on the lock is nobody's and is never given back: `send`
on a client, with nothing else going on, is such a drop.
-/
import Psets.Http.Tickets

namespace Psets
namespace Http
namespace Tickets

open Cotamer Transition
open Mutex (Covered Lost)

variable {mode : Mode}

/-- No `receive` is in progress and no read ticket is outstanding, be it with the caller
that `send_request` returned it to or with a sender that has yet to return. -/
def Idle (p : Parser) : Prop := ∀ i, p.readTickets i = none

theorem Wf.idle {p : Parser} (h : Wf p) (hall : ∀ i < p.calls, p.readTickets i = none) :
    Idle p := by
  intro i
  by_cases hi : i < p.calls
  · exact hall i hi
  · rw [Parser.readTickets, h.fresh i (Nat.le_of_not_lt hi)]
    rfl

theorem answer_loses (p : Parser) : p.loses .answer = false := rfl

theorem step_covered {p q : Parser} {l : Label} (h : Wf p) (hc : Covered p.read p.readTickets)
    (hl : p.loses l = false) (hs : step mode p l = some q) : Covered q.read q.readTickets := by
  rcases step_moved h hs with ⟨i, ph, hm⟩ | ⟨_, rfl⟩
  · have hread := hm.read
    rw [hl] at hread
    rw [hm.readTickets]
    exact h.read.covered_move hread hc
  · exact hc

theorem step_lost {p q : Parser} {l : Label} (h : Wf p) (hlost : Lost p.read p.readTickets)
    (hs : step mode p l = some q) : Lost q.read q.readTickets := by
  rcases step_moved h hs with ⟨i, ph, hm⟩ | ⟨_, rfl⟩
  · rw [hm.readTickets]
    exact h.read.lost_move hm.read hlost
  · exact hlost

theorem step_loses {p q : Parser} {l : Label} (h : Wf p) (hl : p.loses l = true)
    (hs : step mode p l = some q) : Lost q.read q.readTickets := by
  rcases step_moved h hs with ⟨i, ph, hm⟩ | ⟨rfl, _⟩
  · have hread := hm.read
    rw [hl] at hread
    rw [hm.readTickets]
    exact h.read.lost_of_move hread
  · rw [answer_loses] at hl
    cases hl

/-! ## Runs -/

theorem exec_wf {p q : Parser} {ls : List Label} (h : Wf p)
    (hr : (parser mode).exec p ls = some q) : Wf q :=
  Machine.exec_preserves (P := Wf) (fun _ _ _ hp hs => step_wf hp hs) h hr

/-- Without a loss, every ticket in the queue belongs to a call. -/
theorem exec_covered {p q : Parser} {ls : List Label} (h : Wf p)
    (hc : Covered p.read p.readTickets)
    (hw : (parser mode).Within (fun p l => p.loses l = false) p ls)
    (hr : (parser mode).exec p ls = some q) : Covered q.read q.readTickets := by
  have hpres := hw.preserves (P := fun p => Wf p ∧ Covered p.read p.readTickets)
    (fun p l q hp hl hs => ⟨step_wf hp.1 hs, step_covered hp.1 hp.2 hl hs⟩) ⟨h, hc⟩ hr
  exact hpres.2

theorem exec_lost {p q : Parser} {ls : List Label} (h : Wf p)
    (hl : Lost p.read p.readTickets) (hr : (parser mode).exec p ls = some q) :
    Lost q.read q.readTickets := by
  have hpres := Machine.exec_preserves (P := fun p => Wf p ∧ Lost p.read p.readTickets)
    (fun p l q hp hs => ⟨step_wf hp.1 hs, step_lost hp.1 hp.2 hs⟩) ⟨h, hl⟩ hr
  exact hpres.2

/-- A lock that is lost on the way is still lost at the end. -/
theorem exec_loses {p q : Parser} {ls : List Label} (h : Wf p)
    (hw : ¬ (parser mode).Within (fun p l => p.loses l = false) p ls)
    (hr : (parser mode).exec p ls = some q) : Lost q.read q.readTickets := by
  induction ls generalizing p with
  | nil => exact absurd trivial hw
  | cons l ls ih =>
    obtain ⟨r, hs, hr⟩ := Machine.exec_cons_inv hr
    have hwf : Wf r := step_wf h hs
    cases hl : p.loses l with
    | true => exact exec_lost hwf (step_loses h hl hs) hr
    | false =>
      refine ih hwf (fun hrest => hw ⟨hl, fun u hu => ?_⟩) hr
      have hru : r = u := Option.some.inj (hs.symm.trans hu)
      exact hru ▸ hrest

/-- A call of `receive` finds `m_[0]` unlocked and starts to read. -/
theorem receive_starts {p : Parser} (h : Wf p) (hfree : p.read.mutex.latch = 0) :
    ∃ q r, step mode p .receiveNext = some q ∧ step mode q (.start p.calls) = some r := by
  have hempty := h.read.exclusive.latch_eq_zero_iff.1 hfree
  obtain ⟨read, hread⟩ : ∃ read, Mutex.step p.read (.lock false false) = some read := ⟨_, rfl⟩
  obtain ⟨hex, hq, -⟩ := h.read.exclusive.lock hread
  rw [hempty, List.nil_append] at hq
  obtain ⟨x, hx⟩ := Mutex.State.granted_iff.1 (hex.granted_of_queue hq)
  have hlock : p.lockRead =
      some ({ p with read, calls := p.calls + 1 }.setPhase p.calls (.readWait p.read.nextId)) := by
    rw [Parser.lockRead, hread, Option.map_some]
  obtain ⟨read', hclaim⟩ : ∃ read', Mutex.step read (.claim p.read.nextId) = some read' := by
    rw [Mutex.step, hx]
    exact ⟨_, rfl⟩
  have hstart : ∃ r, step mode ({ p with read, calls := p.calls + 1 }.setPhase p.calls
      (.readWait p.read.nextId)) (.start p.calls) = some r := by
    show ∃ r, Parser.start _ p.calls = some r
    unfold Parser.start Parser.setPhase
    simp only [Function.update_self, hclaim, Option.map_some]
    exact ⟨_, rfl⟩
  obtain ⟨r, hr⟩ := hstart
  exact ⟨_, r, hlock, hr⟩

/-- In a state where nobody reads and no ticket is outstanding, `m_[0]` is unlocked
exactly if no step of the run has dropped a ticket that was granted, and then the next
`receive` starts to read. -/
theorem read_lock_free_iff {ls : List Label} {p : Parser}
    (hr : (parser mode).exec {} ls = some p) (hidle : Idle p) :
    (p.read.mutex.latch = 0 ↔ (parser mode).Within (fun p l => p.loses l = false) {} ls) ∧
    ((parser mode).Within (fun p l => p.loses l = false) {} ls →
      ∃ q r, step mode p .receiveNext = some q ∧ step mode q (.start p.calls) = some r) := by
  have hwf := exec_wf Wf.start hr
  have hfree : (parser mode).Within (fun p l => p.loses l = false) {} ls →
      p.read.mutex.latch = 0 := by
    intro hw
    have hstart : Covered ({} : Parser).read ({} : Parser).readTickets := nofun
    have hc := exec_covered Wf.start hstart hw hr
    rw [hwf.read.exclusive.latch_eq_zero_iff]
    apply List.eq_nil_iff_forall_not_mem.2
    intro t ht
    obtain ⟨i, hi⟩ := hc t ht
    rw [hidle i] at hi
    cases hi
  refine ⟨⟨fun hlatch => ?_, hfree⟩, fun hw => receive_starts hwf (hfree hw)⟩
  by_contra hw
  obtain ⟨t, ht, _⟩ := exec_loses Wf.start hw hr
  have hmem := ht.mem_queue
  rw [hwf.read.exclusive.latch_eq_zero_iff.1 hlatch] at hmem
  cases hmem

/-- Two requests, the first answer, and the second caller gives up while its ticket waits. -/
def politeRun : List Label :=
  [.sendRequest, .sendRequest, .acquire 0, .written 0, .acquire 1, .written 1, .receive 0,
    .start 0, .cancel 1 false, .answer, .finish 0]

def politeEnd : Parser := ((parser .client).exec {} politeRun).get (by decide)

theorem politeRun_free :
    (politeEnd.read.mutex.latch = 0 ↔
      (parser .client).Within (fun p l => p.loses l = false) {} politeRun) ∧
    ((parser .client).Within (fun p l => p.loses l = false) {} politeRun →
      ∃ q r, step .client politeEnd .receiveNext = some q ∧
        step .client q (.start politeEnd.calls) = some r) := by
  have hr : (parser .client).exec {} politeRun = some politeEnd := (Option.some_get _).symm
  exact read_lock_free_iff hr ((exec_wf Wf.start hr).idle (by decide))

/-- `send` on a client that does nothing else. -/
def sendRun : List Label := [.send, .acquire 0, .written 0]

def sendEnd : Parser := ((parser .client).exec {} sendRun).get (by decide)

/-- When `send` has returned, `m_[0]` is locked for good. -/
theorem sendRun_locked : (parser .client).exec {} sendRun = some sendEnd ∧ Idle sendEnd ∧
    sendEnd.read.mutex.latch ≠ 0 ∧
    ¬ ∀ mode ls p, (parser mode).exec {} ls = some p → Idle p → p.read.mutex.latch = 0 := by
  have hr : (parser .client).exec {} sendRun = some sendEnd := (Option.some_get _).symm
  have hidle : Idle sendEnd := (exec_wf Wf.start hr).idle (by decide)
  have hlocked : sendEnd.read.mutex.latch ≠ 0 := by decide
  exact ⟨hr, hidle, hlocked, fun h => hlocked (h .client sendRun sendEnd hr hidle)⟩

end Tickets
end Http
end Psets
