/-
The calls on an `http_parser` and the two mutexes they share.

A sender holds `m_[1]` while it writes.  `send_request` takes a ticket for `m_[0]` in
between, so that the tickets are in the order of the requests on the wire, and returns
it; `receive` waits for the ticket and holds `m_[0]` while it reads one message.  `send`
on a client is `send_request` whose ticket nobody takes.

A call is destroyed with what it has: a guard unlocks its mutex, a ticket that waits is
cancelled, and a ticket that was granted is dropped without a word to the mutex.  A
request is written whole or not at all: with a part of one on the wire, the server would
not answer in order.  Messages are numbered by the calls that sent them.
-/
import Mathlib.Logic.Function.Basic
import Psets.Cotamer.MutexQueue

namespace Psets
namespace Http
namespace Tickets

open Cotamer Transition

/-- `parser_type` -/
inductive Mode where
  | client
  | server
deriving DecidableEq, Repr

/-- What is written: a request whose ticket is returned, a request whose ticket is
dropped, or a response. -/
inductive Kind where
  | request
  | discard
  | response
deriving DecidableEq, Repr

/-- Where a call stands.  `w` is its ticket for `m_[1]` and `t` the one for `m_[0]`. -/
inductive Phase where
  /-- `co_await m_[1].lock()` -/
  | writeWait (k : Kind) (w : Nat)
  /-- `co_await sendv_all(f_, iov, iovcnt)` -/
  | writing (k : Kind) (w : Nat) (t : Option Nat)
  /-- `send_request` has returned -/
  | ticket (t : Nat)
  /-- `co_await ticket` -/
  | readWait (t : Nat)
  /-- the loop of `receive` -/
  | reading (t : Nat)
  | ended
deriving DecidableEq, Repr

/-- The read ticket of a call, until it is given up. -/
def Phase.readTicket? : Phase → Option Nat
  | .writing _ _ t => t
  | .ticket t | .readWait t | .reading t => some t
  | _ => none

def Phase.writeTicket? : Phase → Option Nat
  | .writeWait _ w | .writing _ w _ => some w
  | _ => none

structure Parser where
  /-- `m_[0]` -/
  read : Mutex.State := {}
  /-- `m_[1]` -/
  write : Mutex.State := {}
  /-- the number of calls so far -/
  calls : Nat := 0
  phase : Nat → Phase := fun _ => .ended
  /-- the requests on the wire, in order -/
  sent : List Nat := []
  /-- how many of them the server has answered -/
  answered : Nat := 0
  /-- how many of the answers have been read -/
  taken : Nat := 0
  /-- `hp_.error` -/
  failed : Bool := false
  /-- who has received the answer to which request -/
  results : List (Nat × Nat) := []

namespace Parser

def setPhase (p : Parser) (i : Nat) (ph : Phase) : Parser :=
  { p with phase := Function.update p.phase i ph }

/-- A call that waits for `m_[1]`. -/
def lockWrite (p : Parser) (k : Kind) : Option Parser :=
  (Mutex.step p.write (.lock false false)).map fun write =>
    { p with write, calls := p.calls + 1 }.setPhase p.calls (.writeWait k p.write.nextId)

/-- `receive()`. -/
def lockRead (p : Parser) : Option Parser :=
  (Mutex.step p.read (.lock false false)).map fun read =>
    { p with read, calls := p.calls + 1 }.setPhase p.calls (.readWait p.read.nextId)

/-- The guard has `m_[1]`; a request takes its ticket. -/
def acquire (p : Parser) (i : Nat) : Option Parser :=
  match p.phase i with
  | .writeWait k w =>
    (Mutex.step p.write (.claim w)).bind fun write =>
      if k = .response then some ({ p with write }.setPhase i (.writing k w none))
      else
        (Mutex.step p.read (.lock false false)).map fun read =>
          { p with write, read }.setPhase i (.writing k w (some p.read.nextId))
  | _ => none

/-- The requests on the wire after one of kind `k` is written. -/
def sentAfter (p : Parser) (k : Kind) (i : Nat) : List Nat :=
  if k = .response then p.sent else p.sent ++ [i]

/-- `sendv_all` is done, and the sender returns. -/
def written (p : Parser) (i : Nat) : Option Parser :=
  match p.phase i with
  | .writing k w t =>
    (Mutex.step p.write (.unlock w)).map fun write =>
      let p := { p with write, sent := p.sentAfter k i }
      match k, t with
      | .request, some t => p.setPhase i (.ticket t)
      | _, some t => { p with read := p.read.abandon t }.setPhase i .ended
      | _, none => p.setPhase i .ended
  | _ => none

/-- `receive(ticket)`. -/
def receive (p : Parser) (i : Nat) : Option Parser :=
  match p.phase i with
  | .ticket t => some (p.setPhase i (.readWait t))
  | _ => none

/-- The guard has `m_[0]`. -/
def start (p : Parser) (i : Nat) : Option Parser :=
  match p.phase i with
  | .readWait t =>
    (Mutex.step p.read (.claim t)).map fun read => { p with read }.setPhase i (.reading t)
  | _ => none

/-- The reader returns, and its guard unlocks. -/
def stopReading (p : Parser) (i t : Nat) : Option Parser :=
  (Mutex.step p.read (.unlock t)).map fun read => { p with read }.setPhase i .ended

/-- A message is complete.  On a client it is the next answer. -/
def finish (mode : Mode) (p : Parser) (i : Nat) : Option Parser :=
  match p.phase i with
  | .reading t =>
    if p.failed then none
    else
      match mode with
      | .server => p.stopReading i t
      | .client =>
        if p.taken < p.answered then
          (p.sent[p.taken]?).bind fun r =>
            { p with taken := p.taken + 1, results := p.results ++ [(i, r)] }.stopReading i t
        else none
  | _ => none

/-- The connection is closed, or what was read is no message. -/
def fail (p : Parser) (i : Nat) : Option Parser :=
  match p.phase i with
  | .reading t => { p with failed := true }.stopReading i t
  | _ => none

/-- The call, or the caller that has its ticket, is destroyed; a sender may have written
already. -/
def cancel (p : Parser) (i : Nat) (wrote : Bool) : Option Parser :=
  match p.phase i with
  | .writeWait _ w => some ({ p with write := p.write.abandon w }.setPhase i .ended)
  | .writing k w t =>
    (Mutex.step p.write (.unlock w)).map fun write =>
      let p := { p with write, sent := if wrote then p.sentAfter k i else p.sent }
      match t with
      | some t => { p with read := p.read.abandon t }.setPhase i .ended
      | none => p.setPhase i .ended
  | .ticket t | .readWait t => some ({ p with read := p.read.abandon t }.setPhase i .ended)
  | .reading t => p.stopReading i t
  | .ended => none

end Parser

inductive Label where
  | sendRequest
  | send
  | sendResponse
  | receiveNext
  | acquire (i : Nat)
  | written (i : Nat)
  | receive (i : Nat)
  | start (i : Nat)
  /-- the server answers the next request -/
  | answer
  | finish (i : Nat)
  | fail (i : Nat)
  | cancel (i : Nat) (wrote : Bool)
deriving DecidableEq, Repr

def step (mode : Mode) (p : Parser) : Label → Option Parser
  | .sendRequest => p.lockWrite .request
  | .send => p.lockWrite (match mode with | .client => .discard | .server => .response)
  | .sendResponse => p.lockWrite .response
  | .receiveNext => p.lockRead
  | .acquire i => p.acquire i
  | .written i => p.written i
  | .receive i => p.receive i
  | .start i => p.start i
  | .answer =>
    if p.answered < p.sent.length then some { p with answered := p.answered + 1 } else none
  | .finish i => p.finish mode i
  | .fail i => p.fail i
  | .cancel i wrote => p.cancel i wrote

def parser (mode : Mode) : Machine Parser Label where
  init p := p = {}
  step := step mode

/-! ## What a step does to the tickets -/

namespace Parser

def readTickets (p : Parser) (i : Nat) : Option Nat := (p.phase i).readTicket?

def writeTickets (p : Parser) (i : Nat) : Option Nat := (p.phase i).writeTicket?

/-- The read ticket that a step drops unclaimed. -/
def dropped? (p : Parser) : Label → Option Nat
  | .written i =>
    match p.phase i with
    | .writing .request _ _ => none
    | .writing _ _ t => t
    | _ => none
  | .cancel i _ =>
    match p.phase i with
    | .reading _ => none
    | ph => ph.readTicket?
  | _ => none

/-- The step drops a ticket that has been granted `m_[0]`. -/
def loses (p : Parser) (l : Label) : Bool := (p.dropped? l).any fun t => decide (p.read.Granted t)

theorem loses_of_dropped {p : Parser} {l : Label} {d : Option Nat} (h : p.dropped? l = d) :
    p.loses l = d.any fun t => decide (p.read.Granted t) := by
  rw [loses, h]

end Parser

open Mutex (Owned Move)

structure Wf (p : Parser) : Prop where
  read : Owned p.read p.readTickets
  write : Owned p.write p.writeTickets
  fresh : ∀ i, p.calls ≤ i → p.phase i = .ended
  reading : ∀ i t, p.phase i = .reading t → p.read.Granted t
  writing : ∀ i k w t, p.phase i = .writing k w t → p.write.Granted w

theorem Wf.start : Wf {} where
  read := ⟨Mutex.Exclusive.start, nofun, nofun⟩
  write := ⟨Mutex.Exclusive.start, nofun, nofun⟩
  fresh _ _ := rfl
  reading := nofun
  writing := nofun

theorem Wf.lt_calls {p : Parser} (h : Wf p) {i : Nat} (hi : p.phase i ≠ .ended) : i < p.calls :=
  Nat.lt_of_not_le fun hle => hi (h.fresh i hle)

/-- Call `i` goes to the phase `ph`, with what that does to its tickets. -/
structure Moved (p q : Parser) (i : Nat) (ph : Phase) (loses : Bool) : Prop where
  phase : q.phase = Function.update p.phase i ph
  read : Move p.read loses q.read (p.readTickets i) ph.readTicket?
  write : ∃ b, Move p.write b q.write (p.writeTickets i) ph.writeTicket?
  reading : ∀ t, ph = .reading t → q.read.Granted t
  writing : ∀ k w t, ph = .writing k w t → q.write.Granted w
  called : i < q.calls
  calls : p.calls ≤ q.calls

theorem Moved.readTickets {p q : Parser} {i : Nat} {ph : Phase} {b : Bool}
    (hm : Moved p q i ph b) : q.readTickets = Function.update p.readTickets i ph.readTicket? := by
  show Phase.readTicket? ∘ q.phase = _
  rw [hm.phase, Function.comp_update]
  rfl

theorem Moved.writeTickets {p q : Parser} {i : Nat} {ph : Phase} {b : Bool}
    (hm : Moved p q i ph b) :
    q.writeTickets = Function.update p.writeTickets i ph.writeTicket? := by
  show Phase.writeTicket? ∘ q.phase = _
  rw [hm.phase, Function.comp_update]
  rfl

theorem Moved.wf {p q : Parser} {i : Nat} {ph : Phase} {b : Bool} (hm : Moved p q i ph b)
    (h : Wf p) : Wf q := by
  obtain ⟨b', hwrite⟩ := hm.write
  refine ⟨?_, ?_, fun j hj => ?_, fun j t hj => ?_, fun j k w t hj => ?_⟩
  · rw [hm.readTickets]
    exact h.read.move hm.read
  · rw [hm.writeTickets]
    exact h.write.move hwrite
  · have hji : j ≠ i := fun he => Nat.not_lt.2 hj (he ▸ hm.called)
    rw [hm.phase, Function.update_of_ne hji]
    exact h.fresh j (Nat.le_trans hm.calls hj)
  · by_cases hji : j = i
    · rw [hm.phase, hji, Function.update_self] at hj
      exact hm.reading t hj
    · rw [hm.phase, Function.update_of_ne hji] at hj
      refine h.read.granted_move hm.read (h.reading j t hj) fun hi => ?_
      exact hji (h.read.unique j i t (by rw [Parser.readTickets, hj]; rfl) hi)
  · by_cases hji : j = i
    · rw [hm.phase, hji, Function.update_self] at hj
      exact hm.writing k w t hj
    · rw [hm.phase, Function.update_of_ne hji] at hj
      refine h.write.granted_move hwrite (h.writing j k w t hj) fun hi => ?_
      exact hji (h.write.unique j i w (by rw [Parser.writeTickets, hj]; rfl) hi)

section

variable {p q : Parser} {i : Nat} (h : Wf p)

include h

theorem lockWrite_moved {k : Kind} (hs : p.lockWrite k = some q) :
    Moved p q p.calls (.writeWait k p.write.nextId) false := by
  obtain ⟨write, hw, rfl⟩ := Option.map_eq_some_iff.1 hs
  have hover := h.fresh p.calls (Nat.le_refl _)
  refine ⟨rfl, ?_, ⟨false, ?_⟩, nofun, nofun, Nat.lt_succ_self _, Nat.le_succ _⟩
  · rw [Parser.readTickets, hover]
    exact .keep none
  · rw [Parser.writeTickets, hover]
    exact .lock hw

theorem lockRead_moved (hs : p.lockRead = some q) :
    Moved p q p.calls (.readWait p.read.nextId) false := by
  obtain ⟨read, hr, rfl⟩ := Option.map_eq_some_iff.1 hs
  have hover := h.fresh p.calls (Nat.le_refl _)
  refine ⟨rfl, ?_, ⟨false, ?_⟩, nofun, nofun, Nat.lt_succ_self _, Nat.le_succ _⟩
  · rw [Parser.readTickets, hover]
    exact .lock hr
  · rw [Parser.writeTickets, hover]
    exact .keep none

theorem acquire_moved (hs : p.acquire i = some q) :
    ∃ k w t, p.phase i = .writeWait k w ∧ Moved p q i (.writing k w t) false ∧
      (k ≠ .response → t = some p.read.nextId ∧
        Mutex.step p.read (.lock false false) = some q.read) := by
  unfold Parser.acquire at hs
  split at hs
  · rename_i k w hph
    have hcall := h.lt_calls (i := i) (by rw [hph]; exact nofun)
    have hread : p.readTickets i = none := by
      rw [Parser.readTickets, hph]
      rfl
    have hwrite : p.writeTickets i = some w := by
      rw [Parser.writeTickets, hph]
      rfl
    obtain ⟨write, hw, hs⟩ := Option.bind_eq_some_iff.1 hs
    have hgranted := h.write.exclusive.granted_of_claim hw
    split at hs
    · rename_i hk
      obtain rfl := Option.some.inj hs
      refine ⟨k, w, none, hph, ⟨rfl, ?_, ⟨false, ?_⟩, nofun, fun k' w' t' he => ?_, hcall,
        Nat.le_refl _⟩, fun hne => absurd hk hne⟩
      · rw [hread]
        exact .keep none
      · rw [hwrite]
        exact .claim hw
      · obtain ⟨-, rfl, -⟩ := Phase.writing.inj he
        exact hgranted
    · obtain ⟨read, hr, rfl⟩ := Option.map_eq_some_iff.1 hs
      refine ⟨k, w, some p.read.nextId, hph, ⟨rfl, ?_, ⟨false, ?_⟩, nofun, fun k' w' t' he => ?_,
        hcall, Nat.le_refl _⟩, fun _ => ⟨rfl, hr⟩⟩
      · rw [hread]
        exact .lock hr
      · rw [hwrite]
        exact .claim hw
      · obtain ⟨-, rfl, -⟩ := Phase.writing.inj he
        exact hgranted
  · cases hs

theorem written_moved (hs : p.written i = some q) :
    ∃ ph, Moved p q i ph (p.loses (.written i)) := by
  unfold Parser.written at hs
  split at hs
  · rename_i k w t hph
    have hcall := h.lt_calls (i := i) (by rw [hph]; exact nofun)
    have hread : p.readTickets i = t := by
      rw [Parser.readTickets, hph]
      rfl
    have hwrite : p.writeTickets i = some w := by
      rw [Parser.writeTickets, hph]
      rfl
    obtain ⟨write, hw, hq⟩ := Option.map_eq_some_iff.1 hs
    have hunlock : Move p.write false write (p.writeTickets i) none := by
      rw [hwrite]
      exact .unlock hw
    cases t with
    | none =>
      have hnone : Move p.read false p.read (p.readTickets i) none := by
        rw [hread]
        exact .keep none
      have hkeep : p.loses (.written i) = false := by
        refine Parser.loses_of_dropped (d := none) ?_
        rw [Parser.dropped?, hph]
        cases k <;> rfl
      rw [hkeep]
      cases k <;> subst hq <;>
        exact ⟨.ended, rfl, hnone, ⟨false, hunlock⟩, nofun, nofun, hcall, Nat.le_refl _⟩
    | some t =>
      have hdrop : Move p.read (decide (p.read.Granted t)) (p.read.abandon t) (p.readTickets i)
          none := by
        rw [hread]
        exact .abandon t
      cases k with
      | request =>
        subst hq
        rw [Parser.loses_of_dropped (d := none) (by rw [Parser.dropped?, hph])]
        refine ⟨.ticket t, rfl, ?_, ⟨false, hunlock⟩, nofun, nofun, hcall, Nat.le_refl _⟩
        rw [hread]
        exact .keep (some t)
      | discard =>
        subst hq
        rw [Parser.loses_of_dropped (d := some t) (by rw [Parser.dropped?, hph])]
        exact ⟨.ended, rfl, hdrop, ⟨false, hunlock⟩, nofun, nofun, hcall, Nat.le_refl _⟩
      | response =>
        subst hq
        rw [Parser.loses_of_dropped (d := some t) (by rw [Parser.dropped?, hph])]
        exact ⟨.ended, rfl, hdrop, ⟨false, hunlock⟩, nofun, nofun, hcall, Nat.le_refl _⟩
  · cases hs

theorem receive_moved (hs : p.receive i = some q) :
    ∃ t, p.phase i = .ticket t ∧ q = p.setPhase i (.readWait t) ∧
      Moved p q i (.readWait t) false := by
  unfold Parser.receive at hs
  split at hs
  · rename_i t hph
    have hcall := h.lt_calls (i := i) (by rw [hph]; exact nofun)
    obtain rfl := Option.some.inj hs
    refine ⟨t, hph, rfl, rfl, ?_, ⟨false, ?_⟩, nofun, nofun, hcall, Nat.le_refl _⟩
    · rw [Parser.readTickets, hph]
      exact .keep (some t)
    · rw [Parser.writeTickets, hph]
      exact .keep none
  · cases hs

theorem start_moved (hs : p.start i = some q) :
    ∃ t read, p.phase i = .readWait t ∧ Mutex.step p.read (.claim t) = some read ∧
      q = { p with read }.setPhase i (.reading t) ∧ Moved p q i (.reading t) false := by
  unfold Parser.start at hs
  split at hs
  · rename_i t hph
    have hcall := h.lt_calls (i := i) (by rw [hph]; exact nofun)
    obtain ⟨read, hr, rfl⟩ := Option.map_eq_some_iff.1 hs
    refine ⟨t, read, hph, hr, rfl, rfl, ?_, ⟨false, ?_⟩, fun t' he => ?_, nofun, hcall,
      Nat.le_refl _⟩
    · rw [Parser.readTickets, hph]
      exact .claim hr
    · rw [Parser.writeTickets, hph]
      exact .keep none
    · rw [← Phase.reading.inj he]
      exact h.read.exclusive.granted_of_claim hr
  · cases hs

/-- A reader stops, with or without an answer. -/
theorem stopReading_moved {p₀ : Parser} {t : Nat} (hs : p₀.stopReading i t = some q)
    (hph : p.phase i = .reading t) (hphase : p₀.phase = p.phase) (hread : p₀.read = p.read)
    (hwrite : p₀.write = p.write) (hcalls : p₀.calls = p.calls) : Moved p q i .ended false := by
  have hcall := h.lt_calls (i := i) (by rw [hph]; exact nofun)
  obtain ⟨read, hr, rfl⟩ := Option.map_eq_some_iff.1 hs
  rw [hread] at hr
  refine ⟨?_, ?_, ⟨false, ?_⟩, nofun, nofun, Nat.lt_of_lt_of_eq hcall hcalls.symm,
    Nat.le_of_eq hcalls.symm⟩
  · show Function.update p₀.phase i .ended = _
    rw [hphase]
  · rw [Parser.readTickets, hph]
    exact .unlock hr
  · rw [Parser.writeTickets, hph]
    show Move p.write false p₀.write none none
    rw [hwrite]
    exact .keep none

theorem finish_moved {mode : Mode} (hs : p.finish mode i = some q) :
    ∃ t, p.phase i = .reading t ∧ p.failed = false ∧ Moved p q i .ended false := by
  unfold Parser.finish at hs
  split at hs
  · rename_i t hph
    split at hs
    · cases hs
    · rename_i hfailed
      refine ⟨t, hph, by simpa using hfailed, ?_⟩
      cases mode with
      | server => exact stopReading_moved h hs hph rfl rfl rfl rfl
      | client =>
        simp only [] at hs
        split at hs
        · obtain ⟨r, _, hs⟩ := Option.bind_eq_some_iff.1 hs
          exact stopReading_moved h hs hph rfl rfl rfl rfl
        · cases hs
  · cases hs

theorem fail_moved (hs : p.fail i = some q) :
    q.failed = true ∧ q.results = p.results ∧ Moved p q i .ended false := by
  unfold Parser.fail at hs
  split at hs
  · rename_i t hph
    have hm := stopReading_moved h hs hph rfl rfl rfl rfl
    obtain ⟨read, _, rfl⟩ := Option.map_eq_some_iff.1 hs
    exact ⟨rfl, rfl, hm⟩
  · cases hs

/-- A call that has a read ticket only is destroyed. -/
theorem abandon_moved {t : Nat} (hi : p.phase i ≠ .ended)
    (hread : (p.phase i).readTicket? = some t) (hwrite : (p.phase i).writeTicket? = none) :
    Moved p ({ p with read := p.read.abandon t }.setPhase i .ended) i .ended
      (decide (p.read.Granted t)) := by
  refine ⟨rfl, ?_, ⟨false, ?_⟩, nofun, nofun, h.lt_calls hi, Nat.le_refl _⟩
  · rw [Parser.readTickets, hread]
    exact .abandon t
  · rw [Parser.writeTickets, hwrite]
    exact .keep none

theorem cancel_moved {wrote : Bool} (hs : p.cancel i wrote = some q) :
    Moved p q i .ended (p.loses (.cancel i wrote)) := by
  unfold Parser.cancel at hs
  split at hs
  · rename_i k w hph
    have hcall := h.lt_calls (i := i) (by rw [hph]; exact nofun)
    obtain rfl := Option.some.inj hs
    rw [Parser.loses_of_dropped (d := none) (by rw [Parser.dropped?, hph]; rfl)]
    refine ⟨rfl, ?_, ⟨decide (p.write.Granted w), ?_⟩, nofun, nofun, hcall, Nat.le_refl _⟩
    · rw [Parser.readTickets, hph]
      exact .keep none
    · rw [Parser.writeTickets, hph]
      exact .abandon w
  · rename_i k w t hph
    have hcall := h.lt_calls (i := i) (by rw [hph]; exact nofun)
    obtain ⟨write, hw, hq⟩ := Option.map_eq_some_iff.1 hs
    have hunlock : Move p.write false write (p.writeTickets i) none := by
      rw [Parser.writeTickets, hph]
      exact .unlock hw
    rw [Parser.loses_of_dropped (d := t) (by rw [Parser.dropped?, hph]; rfl)]
    have hread : p.readTickets i = t := by
      rw [Parser.readTickets, hph]
      rfl
    cases t with
    | none =>
      subst hq
      refine ⟨rfl, ?_, ⟨false, hunlock⟩, nofun, nofun, hcall, Nat.le_refl _⟩
      rw [hread]
      exact .keep none
    | some t =>
      subst hq
      refine ⟨rfl, ?_, ⟨false, hunlock⟩, nofun, nofun, hcall, Nat.le_refl _⟩
      rw [hread]
      exact .abandon t
  · rename_i t hph
    obtain rfl := Option.some.inj hs
    rw [Parser.loses_of_dropped (d := some t) (by rw [Parser.dropped?, hph]; rfl)]
    exact abandon_moved h (by rw [hph]; exact nofun) (by rw [hph]; rfl) (by rw [hph]; rfl)
  · rename_i t hph
    obtain rfl := Option.some.inj hs
    rw [Parser.loses_of_dropped (d := some t) (by rw [Parser.dropped?, hph]; rfl)]
    exact abandon_moved h (by rw [hph]; exact nofun) (by rw [hph]; rfl) (by rw [hph]; rfl)
  · rename_i t hph
    rw [Parser.loses_of_dropped (d := none) (by rw [Parser.dropped?, hph])]
    exact stopReading_moved h hs hph rfl rfl rfl rfl
  · cases hs

omit h in
theorem step_answer {mode : Mode} (hs : step mode p .answer = some q) :
    p.answered < p.sent.length ∧ q = { p with answered := p.answered + 1 } := by
  unfold step at hs
  simp only [] at hs
  split at hs
  · rename_i hlt
    exact ⟨hlt, (Option.some.inj hs).symm⟩
  · cases hs

/-- Every step moves one call, or is the server's. -/
theorem step_moved {mode : Mode} {l : Label} (hs : step mode p l = some q) :
    (∃ i ph, Moved p q i ph (p.loses l)) ∨
      (l = .answer ∧ q = { p with answered := p.answered + 1 }) := by
  cases l with
  | sendRequest => exact .inl ⟨_, _, lockWrite_moved h hs⟩
  | send => exact .inl ⟨_, _, lockWrite_moved h hs⟩
  | sendResponse => exact .inl ⟨_, _, lockWrite_moved h hs⟩
  | receiveNext => exact .inl ⟨_, _, lockRead_moved h hs⟩
  | acquire i =>
    obtain ⟨k, w, t, _, hm, _⟩ := acquire_moved h hs
    exact .inl ⟨i, _, hm⟩
  | written i =>
    obtain ⟨ph, hm⟩ := written_moved h hs
    exact .inl ⟨i, ph, hm⟩
  | receive i =>
    obtain ⟨t, _, _, hm⟩ := receive_moved h hs
    exact .inl ⟨i, _, hm⟩
  | start i =>
    obtain ⟨t, read, _, _, _, hm⟩ := start_moved h hs
    exact .inl ⟨i, _, hm⟩
  | answer => exact .inr ⟨rfl, (step_answer hs).2⟩
  | finish i =>
    obtain ⟨t, _, _, hm⟩ := finish_moved h hs
    exact .inl ⟨i, _, hm⟩
  | fail i => exact .inl ⟨i, _, (fail_moved h hs).2.2⟩
  | cancel i wrote => exact .inl ⟨i, _, cancel_moved h hs⟩

theorem step_wf {mode : Mode} {l : Label} (hs : step mode p l = some q) : Wf q := by
  rcases step_moved h hs with ⟨i, ph, hm⟩ | ⟨_, rfl⟩
  · exact hm.wf h
  · exact ⟨h.read, h.write, h.fresh, h.reading, h.writing⟩

end

end Tickets
end Http
end Psets
