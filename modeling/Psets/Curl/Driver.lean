/-
The driver between libcurl and the event loop.

libcurl tells which sockets it watches for what, and when it wants to be called again.  A coroutine
for each such socket awaits a file event, and one more awaits a timer; what they await comes true
in a call of libcurl, and its callbacks come during such calls.  So a callback may be about the
socket whose coroutine is making the call, and must not destroy it then.

libcurl and the kernel are the environment, and `Enabled` is what they promise.
-/
import Mathlib.Logic.Function.Basic
import Psets.Cotamer.FdEventSet
import Psets.Transition.Machine

namespace Psets
namespace Curl

open Transition Cotamer

/-- `CURL_POLL_*` -/
inductive Poll where
  | pollNone
  | pollIn
  | pollOut
  | pollInOut
  | pollRemove
deriving DecidableEq, Repr

/-- The mask of `watch_task`, whose bits for removal are none of the others. -/
def Poll.mask : Poll → Fdevent
  | .pollIn => Fdevent.read
  | .pollOut => Fdevent.write
  | .pollInOut => Fdevent.read ||| Fdevent.write
  | .pollNone | .pollRemove => Fdevent.none

/-- `watch_state`: `awaited`, `triggered` and `userFlags` are those of the event `ev`, which the
coroutine of the watch awaits. -/
structure WatchState where
  mask : Poll
  awaited : Fdevent := Fdevent.none
  triggered : Bool := false
  userFlags : Fdevent := Fdevent.none
deriving DecidableEq, Repr

/-- `expiry_`: a negative deadline is that of an event which nothing triggers. -/
structure Expiry where
  deadline : Int := -1
  triggered : Bool := false
  userFlags : Bool := false
deriving DecidableEq, Repr

/-- `curl_full_response`, in the frame of `curl_fetch` -/
structure FullResponse where
  result : Nat := 0
  done : Bool := false
deriving DecidableEq, Repr

/-- Who is inside a call of libcurl. -/
inductive Caller where
  | watchTask (s : Nat)
  | timerTask
  | program
deriving DecidableEq, Repr

/-- `curl_driver`, and the frames of `curl_fetch` by their easy handles. -/
structure CurlDriver where
  expiry : Expiry := {}
  nextTimeout : Int := -1
  fds : Nat → Bool := fun _ => false
  watches : Nat → Option WatchState := fun _ => none
  currentSocket : Option Nat := none
  fetches : Nat → Option FullResponse := fun _ => none
  inside : Option Caller := none

/-- What libcurl has told: the sockets it has open and what it watches them for, the timeout that
is not over yet, the results that nobody has read, and those of all transfers. -/
structure Libcurl where
  sockets : Nat → Bool := fun _ => false
  wanted : Nat → Option Poll := fun _ => none
  timeout : Int := -1
  msgs : List (Nat × Nat) := []
  completed : Nat → Option Nat := fun _ => none

namespace CurlDriver

variable (d : CurlDriver)

def setWatch (s : Nat) (w : Option WatchState) : CurlDriver :=
  { d with watches := Function.update d.watches s w }

/-- `watches_.erase`, which destroys the coroutine of the watch.  There is no result if it is
running. -/
def eraseWatch (s : Nat) : Option CurlDriver :=
  if (d.watches s).isSome ∧ d.inside = some (.watchTask s) then none else some (d.setWatch s none)

/-- `opensocket_cb`, with the socket that the kernel gives -/
def opensocketCb (s : Nat) : CurlDriver := { d with fds := Function.update d.fds s true }

def closesocketCb (s : Nat) : CurlDriver := { d with fds := Function.update d.fds s false }

/-- `watch_task` at the head of its loop, up to the next suspension or to its end -/
def watchLoop (s : Nat) (w : WatchState) : CurlDriver :=
  if w.mask = .pollRemove then
    -- the task is detached first, so that the erasure does not destroy it
    d.setWatch s none
  else d.setWatch s (some { mask := w.mask, awaited := w.mask.mask })

def socketCb (s : Nat) (what : Poll) : Option CurlDriver :=
  if what = .pollRemove ∧ d.currentSocket ≠ some s then d.eraseWatch s
  else
    match d.watches s with
    | some w => some (d.setWatch s (some { w with mask := what, triggered := true }))
    | none =>
        if what ≠ .pollRemove ∧ d.fds s = true then some (d.watchLoop s { mask := what })
        else some d

def timerCb (timeoutMs : Int) : CurlDriver :=
  { d with
    expiry := if d.expiry.triggered then d.expiry
      else { d.expiry with triggered := true, userFlags := true }
    nextTimeout := timeoutMs }

/-- `timer_task` at the head of its loop -/
def timerLoop : CurlDriver :=
  if d.expiry.triggered then { d with expiry := { deadline := d.nextTimeout }, nextTimeout := -1 }
  else d

/-- `process_multi`, which writes to the frame that a message points to -/
def processMulti : CurlDriver → List (Nat × Nat) → Option CurlDriver
  | d, [] => some d
  | d, (easy, result) :: msgs =>
      match d.fetches easy with
      | none => none
      | some _ =>
          processMulti
            { d with fetches := Function.update d.fetches easy (some ⟨result, true⟩) } msgs

end CurlDriver

/-! ## Runs -/

structure State where
  drv : CurlDriver := {}
  curl : Libcurl := {}
  /-- the descriptors of the driver that are open -/
  opened : Nat → Bool := fun _ => false

inductive Label where
  /-- the kernel reports events of a descriptor, which trigger the event of its watch -/
  | ready (s : Nat) (fired : Fdevent)
  /-- the timer triggers `expiry_` -/
  | elapse
  | resumeWatch (s : Nat)
  | resumeTimer
  /-- `curl_fetch` adds its easy handle -/
  | fetch (easy : Nat)
  /-- the frame of `curl_fetch` goes away, and removes its easy handle first -/
  | finish (easy : Nat)
  | opensocket (s : Nat)
  | closesocket (s : Nat)
  | socket (s : Nat) (what : Poll)
  | timer (timeoutMs : Int)
  /-- libcurl is done with a transfer -/
  | complete (easy result : Nat)
  /-- the call of libcurl returns -/
  | ret
  /-- the kernel closes a descriptor to which nothing refers any more -/
  | closed (s : Nat)
deriving DecidableEq, Repr

/-- Coroutines run when no call of libcurl is under way, and callbacks come only when one is.  The
kernel does not give out a number that is in use.  libcurl removes a socket from its watches before
it closes it, and tells of no socket that is the driver's but not its own.  It is done with a
transfer once, and not in a call that adds or removes a handle. -/
def Enabled (st : State) : Label → Bool
  | .ready s fired =>
      st.drv.inside = none ∧ (st.drv.watches s).any fun w => fired &&& w.awaited != Fdevent.none
  | .elapse => st.drv.inside = none ∧ st.drv.expiry.triggered = false ∧ 0 ≤ st.drv.expiry.deadline
  | .resumeWatch s => st.drv.inside = none ∧ (st.drv.watches s).any WatchState.triggered
  | .resumeTimer => st.drv.inside = none ∧ st.drv.expiry.triggered
  | .fetch easy => st.drv.inside = none ∧ (st.drv.fetches easy).isNone
  | .finish easy => st.drv.inside = none ∧ (st.drv.fetches easy).isSome
  | .opensocket s => st.drv.inside.isSome ∧ st.opened s = false
  | .closesocket s => st.drv.inside.isSome ∧ st.curl.sockets s ∧ (st.curl.wanted s).isNone
  | .socket s _ => st.drv.inside.isSome ∧ (st.curl.sockets s ∨ st.opened s = false)
  | .timer _ => st.drv.inside.isSome
  | .complete easy _ =>
      st.drv.inside.isSome ∧ st.drv.inside ≠ some .program ∧ (st.drv.fetches easy).isSome ∧
        (st.curl.completed easy).isNone
  | .ret => st.drv.inside.isSome
  | .closed s => st.drv.fds s = false ∧ (st.drv.watches s).isNone

/-- There is no result where a coroutine would be destroyed while it runs, or a frame or a watch
used that is gone. -/
def perform (st : State) : Label → Option State
  | .ready s fired => do
      let w ← st.drv.watches s
      some { st with
        drv := st.drv.setWatch s (some { w with triggered := true, userFlags := fired }) }
  | .elapse =>
      some { st with
        drv := { st.drv with expiry := { st.drv.expiry with triggered := true } }
        curl := { st.curl with timeout := -1 } }
  | .resumeWatch s => do
      let w ← st.drv.watches s
      if w.userFlags = Fdevent.none then some { st with drv := st.drv.watchLoop s w }
      else
        some { st with
          drv := { st.drv with inside := some (.watchTask s), currentSocket := some s } }
  | .resumeTimer =>
      if st.drv.expiry.userFlags then some { st with drv := st.drv.timerLoop }
      else some { st with drv := { st.drv with inside := some .timerTask } }
  | .fetch easy =>
      some { st with
        drv := { st.drv with
          fetches := Function.update st.drv.fetches easy (some {})
          inside := some .program }
        curl := { st.curl with completed := Function.update st.curl.completed easy none } }
  | .finish easy =>
      some { st with
        drv := { st.drv with
          fetches := Function.update st.drv.fetches easy none
          inside := some .program }
        curl := { st.curl with msgs := st.curl.msgs.filter fun msg => msg.1 != easy } }
  | .opensocket s =>
      some { drv := st.drv.opensocketCb s
             curl := { st.curl with sockets := Function.update st.curl.sockets s true }
             opened := Function.update st.opened s true }
  | .closesocket s =>
      some { st with
        drv := st.drv.closesocketCb s
        curl := { st.curl with sockets := Function.update st.curl.sockets s false } }
  | .socket s what => do
      let drv ← st.drv.socketCb s what
      if st.curl.sockets s then
        let want := if what = .pollRemove then none else some what
        some { st with
          drv
          curl := { st.curl with wanted := Function.update st.curl.wanted s want } }
      else some { st with drv }
  | .timer timeoutMs =>
      some { st with
        drv := st.drv.timerCb timeoutMs
        curl := { st.curl with timeout := timeoutMs } }
  | .complete easy result =>
      some { st with
        curl := { st.curl with
          msgs := st.curl.msgs ++ [(easy, result)]
          completed := Function.update st.curl.completed easy (some result) } }
  | .ret =>
      match st.drv.inside with
      | none => none
      | some .program => some { st with drv := { st.drv with inside := none } }
      | some .timerTask => do
          let drv ← st.drv.processMulti st.curl.msgs
          some { st with
            drv := { drv.timerLoop with inside := none }
            curl := { st.curl with msgs := [] } }
      | some (.watchTask s) => do
          let drv ← ({ st.drv with currentSocket := none } : CurlDriver).processMulti st.curl.msgs
          let w ← drv.watches s
          some { st with
            drv := { drv.watchLoop s w with inside := none }
            curl := { st.curl with msgs := [] } }
  | .closed s => some { st with opened := Function.update st.opened s false }

/-- The events of a thread that fetches. -/
def program : Machine State Label where
  init st := st = {}
  step st a := if Enabled st a then perform st a else none

end Curl
end Psets
