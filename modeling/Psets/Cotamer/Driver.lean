/-
The event loop of the cotamer driver.

One call of `driver::loop` runs as a sequence of atomic pieces: the program counter
says where the call stands, and a label carries what the code outside the driver
chooses there, which coroutine bodies run, what they do before they suspend, which
files the kernel reports and what another thread hands over.  Which coroutines wait
on an event is left to the labels here.  A coroutine does not call `loop` or `poll`
again from inside the loop.
-/
import Mathlib.Data.List.Basic
import Psets.Transition.Machine

namespace Psets
namespace Cotamer
namespace Driver

open Transition

/-! ## Timers -/

/-- The events, by address. -/
abbrev EventId := Nat

/-- An element of the timer heap. -/
structure Timer where
  when : Int
  event : EventId
deriving DecidableEq, Repr

/-- `timer_heap`: the elements in the order in which they leave the heap.  Elements
of one time leave in the order of their insertion. -/
structure TimerQueue where
  entries : List Timer
  sorted : entries.Pairwise (fun a b => a.when ≤ b.when)

/-- Place a timer after those of its own time. -/
def insertTimer (x : Timer) : List Timer → List Timer
  | [] => [x]
  | y :: ys => if y.when ≤ x.when then y :: insertTimer x ys else x :: y :: ys

theorem mem_insertTimer {x y : Timer} {l : List Timer} :
    y ∈ insertTimer x l ↔ y = x ∨ y ∈ l := by
  induction l with
  | nil => simp [insertTimer]
  | cons z zs ih =>
    unfold insertTimer
    split
    · simp only [List.mem_cons, ih]
      exact or_left_comm
    · simp

theorem insertTimer_sorted {x : Timer} {l : List Timer}
    (h : l.Pairwise (fun a b => a.when ≤ b.when)) :
    (insertTimer x l).Pairwise (fun a b => a.when ≤ b.when) := by
  induction l with
  | nil => exact List.pairwise_singleton _ _
  | cons z zs ih =>
    rcases List.pairwise_cons.1 h with ⟨hz, hzs⟩
    unfold insertTimer
    split
    · rename_i hle
      apply List.pairwise_cons.2
      refine ⟨fun y hy => ?_, ih hzs⟩
      rcases mem_insertTimer.1 hy with rfl | hy
      · exact hle
      · exact hz y hy
    · rename_i hlt
      apply List.pairwise_cons.2
      refine ⟨fun y hy => ?_, h⟩
      rcases List.mem_cons.1 hy with rfl | hy
      · omega
      · have := hz y hy
        omega

namespace TimerQueue

def empty : TimerQueue := ⟨[], List.Pairwise.nil⟩

/-- The placement at the end of `emplace`. -/
def insert (q : TimerQueue) (x : Timer) : TimerQueue :=
  ⟨insertTimer x q.entries, insertTimer_sorted q.sorted⟩

/-- `hard_cull` of one element. -/
def remove (q : TimerQueue) (pos : Nat) : TimerQueue :=
  ⟨q.entries.eraseIdx pos, q.sorted.sublist (List.eraseIdx_sublist q.entries pos)⟩

def pop (q : TimerQueue) : TimerQueue :=
  ⟨q.entries.tail, q.sorted.sublist (List.tail_sublist q.entries)⟩

/-- `cull`: remove the top while it is empty. -/
def cull (q : TimerQueue) (dead : EventId → Bool) : TimerQueue :=
  ⟨q.entries.dropWhile (fun x => dead x.event),
    q.sorted.sublist (List.dropWhile_sublist _)⟩

/-- The loop of `emplace` that looks at random elements of a large heap and removes
the empty ones. -/
def cullAt (dead : EventId → Bool) : TimerQueue → List Nat → Option TimerQueue
  | q, [] => some q
  | q, pos :: rest =>
      match q.entries[pos]? with
      | none => none
      | some x =>
          if 32 ≤ q.entries.length ∧ dead x.event then cullAt dead (q.remove pos) rest
          else none

/-- The top is the earliest timer. -/
theorem top_le {q : TimerQueue} {x y : Timer} (hx : q.entries.head? = some x)
    (hy : y ∈ q.entries) : x.when ≤ y.when := by
  have hsorted := q.sorted
  cases hq : q.entries with
  | nil => simp [hq] at hx
  | cons z zs =>
    rw [hq] at hx hy hsorted
    obtain rfl : z = x := by simpa using hx
    rcases List.mem_cons.1 hy with rfl | hy
    · exact Int.le_refl _
    · exact (List.pairwise_cons.1 hsorted).1 y hy

end TimerQueue

/-! ## The driver's state -/

/-- `fdevent`: the bits read, write and close. -/
abbrev FdEvent := BitVec 3

/-- An entry of an fd's watch list. -/
structure Watch where
  fd : Nat
  mask : FdEvent
  event : EventId
deriving DecidableEq, Repr

/-- Where the loop goes on when `driver_trigger` has no coroutine left: to the rest
of the aliquot, of a batch of file events, of the timers, or of `process_clearing`. -/
inductive Back where
  | aliquot (n : Nat)
  | fds (taken : List EventId)
  | timers
  | clearFds (fd : Nat) (taken : List EventId)
  | clearTimers
deriving DecidableEq, Repr

/-- The next piece of `driver::loop`. -/
inductive Pc where
  | top
  | aliquot (n : Nat)
  | keepalives
  | clearFds (fd : Nat) (taken : List EventId)
  | clearTimers
  | fdUpdates
  | exit
  | watch
  | fds (taken : List EventId)
  | time (hadFdEvent : Bool)
  | timers
  | drive (eh : EventId) (back : Back)
  | returned (busy : Bool)
deriving DecidableEq, Repr

def Back.pc : Back → Pc
  | .aliquot n => .aliquot n
  | .fds taken => .fds taken
  | .timers => .timers
  | .clearFds fd taken => .clearFds fd taken
  | .clearTimers => .clearTimers

/-- `looptype`. -/
inductive LoopType where
  | complete
  | poll
deriving DecidableEq, Repr

/-- The driver, the events it can see, and the running call of `loop`. -/
structure State where
  looptype : LoopType := .complete
  realTime : Bool := false
  snow : Int := 0
  clearing : Bool := false
  /-- `guard_count_`. -/
  guardCount : Int := 0
  /-- The `driver_guard` objects that point to this driver. -/
  guards : Nat := 0
  asap : List EventId := []
  timed : TimerQueue := TimerQueue.empty
  /-- The back of `keepalives_` comes first. -/
  keepalives : List EventId := []
  migrate : List EventId := []
  migrateFdClose : List Nat := []
  watches : List Watch := []
  /-- The files with an `fd_body`. -/
  bodies : List Nat := []
  /-- The update list, its head first. -/
  updates : List Nat := []
  /-- The files whose mask in `fdctl_` is not `none`. -/
  registered : List Nat := []
  triggered : List EventId := []
  /-- The events without listeners that only the driver still holds. -/
  unreferenced : List EventId := []
  pc : Pc := .top
  /-- How many events the last aliquot found or was given.  No code reads this. -/
  queued : Nat := 0
  /-- How many events were queued since the aliquot began, or since it ended.  No
  code reads this. -/
  posted : Nat := 0

/-- `asap_quota`. -/
def asapQuota : Nat := 0x1000

namespace State

/-- `event_body::empty`: the event can be garbage collected. -/
def dead (s : State) (e : EventId) : Bool :=
  s.triggered.contains e || s.unreferenced.contains e

/-- `nfdctl_`. -/
def nfdctl (s : State) : Nat := s.registered.length

/-- `lock_ != 0`: another thread has left something. -/
def locked (s : State) : Bool := !s.migrate.isEmpty || !s.migrateFdClose.isEmpty

/-- `steady_now`, at a reading `clock` of the hardware clock. -/
def steadyNow (s : State) (clock : Int) : Int := if s.realTime then clock else s.snow

def stepTime (s : State) : State :=
  if s.realTime then s else { s with snow := s.snow + 1 }

/-- Events trigger; those of `waited` have a suspended coroutine of this driver and go
to `asap_`. -/
def trigger (s : State) (es waited : List EventId) : State :=
  { s with
    triggered := es ++ s.triggered
    asap := s.asap ++ waited
    posted := s.posted + waited.length }

/-- Put a file on the update list. -/
def queueUpdate (s : State) (fd : Nat) : State :=
  if fd ∈ s.updates then s else { s with updates := fd :: s.updates }

/-- `watch_list_mask`. -/
def watchListMask (s : State) (fd : Nat) : FdEvent :=
  s.watches.foldl
    (fun mask w => if w.fd = fd ∧ s.dead w.event = false then mask ||| w.mask else mask) 0

/-- `apply_fd_update`, up to the value of a mask that is not `none`. -/
def applyFdUpdate (s : State) (fd : Nat) (mask : FdEvent) : State :=
  if mask = 0 then { s with registered := s.registered.erase fd }
  else if fd ∈ s.registered then s
  else { s with registered := fd :: s.registered }

/-- The watches `take_watch_list` detaches. -/
def takes (s : State) (fd : Nat) (mask : FdEvent) (w : Watch) : Bool :=
  w.fd == fd && (w.mask &&& mask != 0 || s.dead w.event)

/-- `take_watch_list`. -/
def takeWatchList (s : State) (fd : Nat) (mask : FdEvent) : List EventId × State :=
  let taken := s.watches.filter (s.takes fd mask)
  let s' := { s with watches := s.watches.filter (fun w => !s.takes fd mask w) }
  (taken.map (·.event), if taken.isEmpty then s' else s'.queueUpdate fd)

/-- `next_known`: the first file from `fd` on with a watch. -/
def nextKnown (s : State) (fd : Nat) : Option Nat :=
  ((s.watches.map (·.fd)).filter (fun f => fd ≤ f)).min?

/-- `notify_close`: `fd_close` triggers every watch of the file and drops its body,
and the kernel forgets it.  The events of `also` trigger through these. -/
def notifyClose (s : State) (fd : Nat) (also waited : List EventId) : State :=
  if fd ∈ s.bodies then
    let es := (s.watches.filter (fun w => w.fd == fd)).map (·.event)
    let s := s.trigger (es ++ also) waited
    let s := { s with
      watches := s.watches.filter (fun w => w.fd != fd)
      bodies := s.bodies.erase fd }
    (s.queueUpdate fd).applyFdUpdate fd 0
  else s

end State

/-! ## What a coroutine does between two suspensions -/

/-- The operations on the driver that a coroutine body can make. -/
inductive Act where
  /-- `asap(e)` -/
  | asap (e : EventId)
  /-- `event::trigger`, with the events triggered through it -/
  | trigger (es waited : List EventId)
  /-- `at(t, e)`; `culled` are the elements that `emplace` removes -/
  | timer (t : Int) (e : EventId) (culled : List Nat)
  /-- the last handle outside the driver goes -/
  | drop (e : EventId)
  | keepalive (e : EventId)
  /-- the constructor of `driver_guard` -/
  | guard
  /-- the destructor of a guard of this driver -/
  | unguard
  /-- `driver_guard::operator=` on a guard of this driver; `self` if the other operand
  is the guard itself -/
  | assignGuard (self : Bool)
  /-- `file_event` -/
  | watch (fd : Nat) (mask : FdEvent) (e : EventId)
  /-- `fd::close` -/
  | close (fd : Nat) (also waited : List EventId)
  | clear
  | stepTime
  | setClock (real : Bool)
deriving DecidableEq, Repr

/-- The operation is about a guard.  Move construction and the assignment to a guard of
no driver hand a pointer on, and leave the driver as it is. -/
def Act.onGuards : Act → Bool
  | .guard | .unguard | .assignGuard _ => true
  | _ => false

/-- One guard of the driver fewer. -/
def Act.releases : Act → Bool
  | .unguard | .assignGuard false => true
  | _ => false

def act (s : State) : Act → Option State
  | .asap e => some { s with asap := s.asap ++ [e], posted := s.posted + 1 }
  | .trigger es waited => some (s.trigger es waited)
  | .timer t e culled =>
      (s.timed.cullAt s.dead culled).map fun q => { s with timed := q.insert ⟨t, e⟩ }
  | .drop e => some { s with unreferenced := e :: s.unreferenced }
  | .keepalive e =>
      if e ∈ s.triggered then some s
      else some { s with keepalives := e :: s.keepalives }
  | .guard =>
      -- a guard made during clearing points to no driver
      if s.clearing then some s
      else some { s with guardCount := s.guardCount + 1, guards := s.guards + 1 }
  | .unguard =>
      if s.guards = 0 then none
      else if s.clearing then some { s with guards := s.guards - 1 }
      else some { s with guardCount := s.guardCount - 1, guards := s.guards - 1 }
  | .assignGuard self =>
      -- the guard gives up its count before it takes the other's pointer, its own too
      let left := if self then s.guards else s.guards - 1
      if s.guards = 0 then none
      else if s.clearing then some { s with guards := left }
      else some { s with guardCount := s.guardCount - 1, guards := left }
  | .watch fd mask e =>
      some (State.queueUpdate
        { s with
          watches := s.watches ++ [⟨fd, mask, e⟩]
          bodies := if fd ∈ s.bodies then s.bodies else fd :: s.bodies } fd)
  | .close fd also waited => some (s.notifyClose fd also waited)
  | .clear => some { s with clearing := true }
  | .stepTime => some s.stepTime
  | .setClock real => some { s with realTime := real }

def acts : State → List Act → Option State
  | s, [] => some s
  | s, a :: as => (act s a).bind fun s' => acts s' as

/-! ## The loop -/

/-- What happens next, with what the code outside the driver chooses. -/
inductive Label where
  /-- `finish_migrate`; each closed file comes with the events that trigger through
  it and those a coroutine waits for -/
  | finishMigrate (closed : List (List EventId × List EventId))
  /-- the first `driver_trigger` of the next event; `also` trigger through it -/
  | fire (also : List EventId)
  /-- `coh()`: the coroutine runs until it suspends -/
  | resume (body : List Act)
  /-- `driver_trigger` returned null -/
  | drained
  /-- the phase is over -/
  | next
  /-- the kernel's answer: whether its batch has an entry -/
  | wait (had : Bool)
  /-- the next entry of the batch -/
  | ready (fd : Nat) (mask : FdEvent)
  /-- a step that reads the hardware clock -/
  | tick (clock : Int)
  /-- another thread triggers events; coroutines of this driver wait for `waited` -/
  | remote (es waited : List EventId)
  /-- another thread closes a file this driver watches -/
  | remoteClose (fd : Nat)
deriving DecidableEq, Repr

/-- What a coroutine does in the step. -/
def Label.body : Label → List Act
  | .resume body => body
  | _ => []

/-- The `notify_close` calls at the end of `finish_migrate`. -/
def closeAll : State → List Nat → List (List EventId × List EventId) → State
  | s, [], _ => s
  | s, fd :: fds, closed =>
      let (also, waited) := closed.headD ([], [])
      closeAll (s.notifyClose fd also waited) fds closed.tail

/-- Import what other threads have left, and begin the aliquot. -/
def finishMigrate (s : State) (closed : List (List EventId × List EventId)) : State :=
  let asap := s.asap ++ s.migrate
  closeAll
    { s with
      asap, migrate := [], migrateFdClose := [], posted := asap.length
      pc := .aliquot asapQuota } s.migrateFdClose closed

/-- Begin to drive `eh`: it triggers unless it has already. -/
def fire (s : State) (eh : EventId) (also : List EventId) (back : Back) : State :=
  { s with triggered := eh :: also ++ s.triggered, pc := .drive eh back }

/-- After a coroutine: `step_time`, except in `process_clearing`. -/
def afterCoh (s : State) : Back → State
  | .clearFds _ _ | .clearTimers => s
  | _ => s.stepTime

/-- Remove dead keepalives; when clearing, begin `process_clearing`. -/
def sweep (s : State) : State :=
  let s := { s with keepalives := s.keepalives.dropWhile (fun e => s.triggered.contains e) }
  if s.clearing then { s with keepalives := [], guardCount := 0, pc := .clearFds 0 [] }
  else { s with pc := .fdUpdates }

/-- `pop_update` and `apply_fd_update`, for every file on the update list. -/
def updateFds : State → List Nat → State
  | s, [] => { s with updates := [] }
  | s, fd :: fds => updateFds (s.applyFdUpdate fd (s.watchListMask fd)) fds

/-- The exit test. -/
def idle (s : State) : Bool :=
  s.timed.entries.isEmpty && s.nfdctl == 0 && !s.locked && s.guardCount == 0 &&
    s.keepalives.isEmpty

/-- The time to block for, in ticks of the clock. -/
def timeout (s : State) (clock : Int) : Int :=
  if !s.asap.isEmpty || !s.realTime || s.locked || s.looptype = .poll || s.clearing then 0
  else match s.timed.entries.head? with
    | some x => x.when - s.steadyNow clock
    | none => 3600000000000

/-- The exit test, and what follows it up to `watch_fds`. -/
def exitTest (s : State) (clock : Int) : State :=
  let s := { s with timed := s.timed.cull s.dead }
  if idle s then { s with clearing := false, pc := .returned false }
  else if s.nfdctl = 0 ∧ timeout s clock ≤ 0 then { s with pc := .time false }
  else { s with pc := .watch }

/-- Update the time. -/
def updateTime (s : State) (clock : Int) (hadFdEvent : Bool) : State :=
  let s := { s with pc := .timers }
  if s.realTime then { s with snow := clock }
  else match s.timed.entries.head? with
    | some x => if s.asap.isEmpty ∧ hadFdEvent = false then { s with snow := x.when } else s
    | none => s

/-- The timer that is due. -/
def due (s : State) : Option Timer :=
  s.timed.entries.head?.filter (fun x => x.when ≤ s.snow)

/-- One piece of `driver::loop`. -/
def step (s : State) : Label → Option State
  | .finishMigrate closed => if s.pc = .top then some (finishMigrate s closed) else none
  | .fire also =>
      match s.pc with
      | .aliquot (n + 1) =>
          match s.asap with
          | eh :: asap => some (fire { s with asap } eh also (.aliquot n))
          | [] => none
      | .clearFds fd (eh :: taken) => some (fire s eh also (.clearFds fd taken))
      | .clearTimers =>
          match s.timed.entries with
          | x :: _ => some (fire { s with timed := s.timed.pop } x.event also .clearTimers)
          | [] => none
      | .fds (eh :: taken) => some (fire s eh also (.fds taken))
      | .timers =>
          (due s).map fun x => fire { s with timed := s.timed.pop } x.event also .timers
      | _ => none
  | .resume body =>
      match s.pc with
      | .drive _ back => (acts s body).map fun s' => afterCoh s' back
      | _ => none
  | .drained =>
      match s.pc with
      | .drive _ back => some { s with pc := back.pc }
      | _ => none
  | .next =>
      match s.pc with
      | .aliquot n =>
          if n = 0 ∨ s.asap = [] then
            some { s with pc := .keepalives, queued := s.posted, posted := 0 }
          else none
      | .keepalives => some (sweep s)
      | .clearFds fd [] =>
          match s.nextKnown fd with
          | some f =>
              let (taken, s') := s.takeWatchList f 7
              some { s' with pc := .clearFds (f + 1) taken }
          | none => some { s with pc := .clearTimers }
      | .clearTimers =>
          if s.timed.entries = [] then some { s with pc := .fdUpdates } else none
      | .fdUpdates => some { updateFds s s.updates with pc := .exit }
      | .fds [] => some { s with pc := .time true }
      | .timers =>
          if due s = none then
            some { s with pc := if s.looptype = .poll then .returned true else .top }
          else none
      | _ => none
  | .wait had =>
      if s.pc = .watch then some { s with pc := if had then .fds [] else .time false } else none
  | .ready fd mask =>
      if s.pc = .fds [] then
        let (taken, s') := s.takeWatchList fd mask
        some { s' with pc := .fds taken }
      else none
  | .tick clock =>
      match s.pc with
      | .exit => some (exitTest s clock)
      | .time had => some (updateTime s clock had)
      | _ => none
  | .remote es waited =>
      match s.pc with
      | .returned _ => none
      | _ => some { s with triggered := es ++ s.triggered, migrate := s.migrate ++ waited }
  | .remoteClose fd =>
      match s.pc with
      | .returned _ => none
      | _ => some { s with migrateFdClose := s.migrateFdClose ++ [fd] }

/-- A call of `loop`, from any state of the driver. -/
def loop : Machine State Label where
  init s := s.pc = .top
  step := step

end Driver
end Cotamer
end Psets
