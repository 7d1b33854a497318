/-
Receiving from a port: two coroutines and the port's queue.

The inner coroutine (`receive_with_id`, `receive_from`) waits for a message, stops at
a resolution point, and takes the head of the queue.  The outer one (`receive`,
`receive_with_channel`) awaits the inner one and hands its value on; it does so
through `forward()` or without it.
-/
import Psets.Cotamer.TaskPromise

namespace Psets
namespace Netsim

open Cotamer

/-- Where the inner coroutine is. -/
inductive Pc where
  /-- waiting for `receivable_` -/
  | listening
  /-- that event was triggered -/
  | woken
  /-- waiting for the receive delay -/
  | delaying
  /-- at `co_await resolve{}` -/
  | resolving
  | done
  deriving DecidableEq, Repr

/-- The inner and the outer coroutine of one receive.  The inner one's `awaiter_` is the
outer one; the outer one's is whoever receives. -/
structure Receive (M R : Type) where
  port : Nat
  pc : Pc := .listening
  inner : Promise := {}
  innerResult : Option M := none
  done : Bool := false
  outer : Promise := {}
  result : Option R := none
  deriving Repr

def Receive.setAwaiter {M R : Type} (recv : Receive M R) (awaiter : Awaiter) : Receive M R :=
  { recv with outer := { recv.outer with awaiter := awaiter } }

/-- What a kind of receive is made of. -/
structure Reception (M R : Type) where
  /-- The outer coroutine awaits the inner one through `forward()`. -/
  forwards : Bool
  value : M → R

/-- A receive that runs: the queue of its port, the event it triggers and the value that
a coroutine got which awaits the outer one directly. -/
structure Turn (M R : Type) where
  messageq : List M
  recv : Receive M R
  event : Option Nat := none
  value : Option R := none

namespace Turn

variable {M R : Type} (κ : Reception M R) (t : Turn M R)

def setInner (p : Promise) : Turn M R := { t with recv := { t.recv with inner := p } }

def setOuter (p : Promise) : Turn M R := { t with recv := { t.recv with outer := p } }

def setPc (pc : Pc) : Turn M R := { t with recv := { t.recv with pc := pc } }

/-- `active_awaiter()` of the inner coroutine: the outer one, or where that one forwards
the one that awaits it. -/
def activeAwaiter : Bool :=
  t.recv.inner.awaiter = .task ∧ (t.recv.outer.forward = true → t.recv.outer.awaiter = .task)

/-- `resolution_point()` of the outer coroutine. -/
def outerPoint : Turn M R :=
  let t := t.setOuter { t.recv.outer with resolving := true }
  match t.recv.outer.awaiter with
  | .event id => { t with event := some id }
  | .none | .task => t

/-- `resolution_point()` of the inner coroutine. -/
def innerPoint : Turn M R :=
  let t := t.setInner { t.recv.inner with resolving := true }
  if t.recv.inner.awaiter = .task ∧ t.recv.outer.forward = true then t.outerPoint else t

/-- `clear_awaiter()` of the inner coroutine. -/
def clearAwaiter : Turn M R :=
  if t.recv.inner.awaiter = .task ∧ t.recv.outer.forward = true then
    t.setOuter { t.recv.outer with forward := false, resolving := false }
  else t

/-- The outer coroutine from the end of its `co_await`.  A coroutine that awaits it is
resumed with its value unless `resolve()` drives it. -/
def outerResume : Turn M R :=
  let t := t.clearAwaiter
  let t := { t with recv := { t.recv with
    result := t.recv.innerResult.map κ.value, innerResult := none, done := true } }
  let t := t.outerPoint
  if t.recv.outer.awaiter = .task ∧ t.recv.outer.inResolve = false then
    { t with value := t.recv.result, recv := { t.recv with result := none } }
  else t

/-- `co_return` of the inner coroutine. -/
def innerReturn (m : M) : Turn M R :=
  let t := { t with recv := { t.recv with pc := .done, innerResult := some m } }
  let t := t.innerPoint
  if t.recv.inner.awaiter = .task ∧ t.recv.inner.inResolve = false then t.outerResume κ else t

/-- The inner coroutine from the end of `co_await resolve{}`. -/
def dequeue : Turn M R :=
  match t.messageq with
  | [] => t.setPc .listening
  | m :: messageq => { t with messageq := messageq }.innerReturn κ m

/-- The inner coroutine from `while (messageq_.empty())`. -/
def receiveLoop : Turn M R :=
  if t.messageq = [] then t.setPc .listening
  -- someone actively wants the value, so keep running
  else if t.activeAwaiter then t.dequeue κ
  else (t.setPc .resolving).innerPoint

/-- The inner coroutine is resumed. -/
def innerResume : Turn M R :=
  match t.recv.pc with
  | .listening | .woken => t.setPc .delaying
  | .delaying => t.receiveLoop κ
  | .resolving => t.dequeue κ
  | .done => t

def innerCoroutine : Coroutine (Turn M R) where
  promise t := t.recv.inner
  setPromise := setInner
  done t := t.recv.pc = .done
  resolveAwaitee t := some (true, t)
  resume t := some (t.innerResume κ)

/-- `resolve()` goes round its loop twice. -/
def resolveRounds : Nat := 2

def outerCoroutine : Coroutine (Turn M R) where
  promise t := t.recv.outer
  setPromise := setOuter
  done t := t.recv.done
  resolveAwaitee := (innerCoroutine κ).resolve resolveRounds
  resume t := some (t.outerResume κ)

/-- `resolve()` of the outer coroutine. -/
def resolve : Option (Bool × Turn M R) := (outerCoroutine κ).resolve resolveRounds t

/-- `prepare_awaiter()` of the inner coroutine, which the outer one awaits. -/
def prepareAwaiter : Turn M R :=
  let t := t.setInner { t.recv.inner with awaiter := .task }
  let t :=
    if t.recv.inner.forwarded then
      (t.setInner { t.recv.inner with forwarded := false }).setOuter
        { t.recv.outer with forward := true }
    else t
  if t.recv.inner.resolving then
    if t.activeAwaiter then (t.setInner { t.recv.inner with resolving := false }).innerResume κ
    else t.outerPoint
  else t

/-- The outer coroutine awaits the inner one, which has run as far as it can. -/
def awaitInner : Option (Turn M R) :=
  let t :=
    if κ.forwards ∧ t.recv.pc ≠ .done then t.setInner { t.recv.inner with forwarded := true }
    else t
  ((innerCoroutine κ).resolve resolveRounds t).map fun (resolved, t) =>
    if resolved then t.outerResume κ else t.prepareAwaiter κ

/-- The call of the outer coroutine on a port with the given queue. -/
def call (port : Nat) (messageq : List M) : Option (Turn M R) :=
  (({ messageq := messageq, recv := { port := port } } : Turn M R).receiveLoop κ).awaitInner κ

end Turn

/-! ## Receives that wait -/

namespace Receive

variable {M R : Type}

/-- The inner coroutine waits for a message. -/
def waiting (forwards : Bool) (port : Nat) (pc : Pc) (awaiter : Awaiter) : Receive M R where
  port := port
  pc := pc
  inner := { awaiter := .task }
  outer := { awaiter := awaiter, forward := forwards }

/-- The inner coroutine is at its resolution point, and the outer one forwards that. -/
def parked (port : Nat) (awaiter : Awaiter) : Receive M R where
  port := port
  pc := .resolving
  inner := { resolving := true, awaiter := .task }
  outer := { resolving := true, awaiter := awaiter, forward := true }

/-- Both coroutines have completed. -/
def finished (port : Nat) (inner awaiter : Awaiter) (result : Option R) : Receive M R where
  port := port
  pc := .done
  inner := { resolving := true, awaiter := inner }
  done := true
  outer := { resolving := true, awaiter := awaiter }
  result := result

end Receive

namespace Turn

variable {M R : Type} {κ : Reception M R} {port : Nat} {pc : Pc} {awaiter : Awaiter} {m : M}
  {messageq : List M} {event : Option Nat} {value : Option R}

/-- The event that a resolution point triggers for `awaiter`. -/
def notified (event : Option Nat) : Awaiter → Option Nat
  | .event id => some id
  | .none | .task => event

theorem call_nil : call κ port [] =
    some { messageq := [], recv := .waiting κ.forwards port .listening .none } := by
  cases hf : κ.forwards <;>
    simp [call, receiveLoop, awaitInner, hf, resolveRounds, Coroutine.resolve, innerCoroutine,
      setInner, setPc, setOuter, prepareAwaiter, Receive.waiting]

theorem call_forward (hf : κ.forwards = true) : call κ port (m :: messageq) =
    some { messageq := m :: messageq, recv := .parked port .none } := by
  simp [call, receiveLoop, awaitInner, hf, resolveRounds, Coroutine.resolve, innerCoroutine,
    setInner, setPc, setOuter, prepareAwaiter, activeAwaiter, innerPoint, outerPoint,
    Receive.parked]

/-- Without `forward()` a receive takes a message at once. -/
theorem call_direct (hf : κ.forwards = false) : call κ port (m :: messageq) =
    some { messageq := messageq
           recv := .finished port .none .none (some (κ.value m)) } := by
  simp [call, receiveLoop, awaitInner, hf, resolveRounds, Coroutine.resolve, innerCoroutine,
    setInner, setPc, setOuter, activeAwaiter, innerPoint, outerPoint, innerResume, dequeue,
    innerReturn, outerResume, clearAwaiter, Coroutine.setResolving, Coroutine.setInResolve,
    Receive.finished]

theorem innerResume_nil (forwards : Bool) :
    ({ messageq := [], recv := .waiting forwards port .delaying awaiter, event, value } :
      Turn M R).innerResume κ =
        { messageq := [], recv := .waiting forwards port .listening awaiter, event, value } := rfl

/-- The delay is over, and nobody wants the value yet. -/
theorem innerResume_park (ha : awaiter ≠ .task) :
    ({ messageq := m :: messageq, recv := .waiting true port .delaying awaiter, event, value } :
      Turn M R).innerResume κ =
        { messageq := m :: messageq, recv := .parked port awaiter
          event := notified event awaiter, value } := by
  cases awaiter <;>
    simp_all [innerResume, receiveLoop, activeAwaiter, Receive.waiting, Receive.parked, innerPoint,
      outerPoint, setPc, setInner, setOuter, notified]

/-- The delay is over, and a coroutine awaits the outer one. -/
theorem innerResume_take :
    ({ messageq := m :: messageq, recv := .waiting true port .delaying .task, event, value } :
      Turn M R).innerResume κ =
        { messageq, recv := .finished port .task .task none, event
          value := some (κ.value m) } := by
  simp [innerResume, receiveLoop, activeAwaiter, Receive.waiting, Receive.finished, innerPoint,
    outerPoint, setInner, setOuter, dequeue, innerReturn, outerResume, clearAwaiter]

/-- Without `forward()` the inner coroutine is always actively awaited. -/
theorem innerResume_direct (ha : awaiter ≠ .task) :
    ({ messageq := m :: messageq, recv := .waiting false port .delaying awaiter, event, value } :
      Turn M R).innerResume κ =
        { messageq, recv := .finished port .task awaiter (some (κ.value m))
          event := notified event awaiter, value } := by
  cases awaiter <;>
    simp_all [innerResume, receiveLoop, activeAwaiter, Receive.waiting, Receive.finished,
      innerPoint, outerPoint, setInner, setOuter, dequeue, innerReturn, outerResume,
      clearAwaiter, notified]

/-- A parked receive that is resolved takes the head of the queue. -/
theorem resolve_parked :
    ({ messageq := m :: messageq, recv := .parked port .none, event, value } :
      Turn M R).resolve κ = some (true,
        { messageq, recv := .finished port .task .none (some (κ.value m)), event, value }) := by
  simp [resolve, resolveRounds, Coroutine.resolve, outerCoroutine, innerCoroutine, Receive.parked,
    Receive.finished, Coroutine.setResolving, Coroutine.setInResolve, setInner, setOuter, setPc,
    innerResume, dequeue, innerReturn, innerPoint, outerPoint, outerResume, clearAwaiter]

/-- The message that a parked receive was told of is gone. -/
theorem resolve_parked_nil :
    ({ messageq := [], recv := .parked port awaiter, event, value } : Turn M R).resolve κ =
      some (false,
        { messageq := [], recv := .waiting true port .listening awaiter, event, value }) := by
  simp [resolve, resolveRounds, Coroutine.resolve, outerCoroutine, innerCoroutine, Receive.parked,
    Receive.waiting, Coroutine.setResolving, Coroutine.setInResolve, setInner, setOuter, setPc,
    innerResume, dequeue]

end Turn

end Netsim
end Psets
