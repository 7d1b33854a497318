/-
Events, quorums and the coroutines that wait for them.

An event body keeps a list of listeners, coroutines and quorums.  Triggering it informs
the quorums, which may trigger in turn, and leaves the coroutines to their drivers.  A
driver that fires an event calls `driver_trigger`, which hands it one coroutine at a
time, until nothing is left to hand over.

The model has the listener and member lists in the order the code gives them, and leaves
the memory out: no body is freed, so reference counts and `delete` have no place in it.
`interest{}` members are not modelled.  Everything here runs on the thread of one driver.
-/
import Mathlib.Logic.Function.Basic
import Psets.Containers.SwapErase
import Psets.Transition.Machine

namespace Psets
namespace Cotamer
namespace Event

open Containers Transition

/-- The events, by address. -/
abbrev EventId := Nat

/-- The coroutines, by address. -/
abbrev CoroId := Nat

abbrev DriverId := Nat

/-- An element of `listeners_`. -/
inductive Listener where
  | coroutine (c : CoroId)
  | quorum (q : EventId)
deriving DecidableEq, Repr

/-- `event_body`, with the fields of `quorum_event_body`. -/
structure EventBody where
  triggered : Bool := false
  listeners : List Listener := []
  isQuorum : Bool := false
  members : List EventId := []
  /-- `triggered_` -/
  count : Nat := 0
  /-- `quorum_` -/
  quorum : Nat := 0

/-- The event bodies and the queues they are posted to.  `coh` is the variable that
`driver_trigger` passes down for the coroutine to resume. -/
structure Runtime where
  /-- The addresses below `size` are allocated. -/
  size : Nat := 0
  body : EventId → EventBody := fun _ => {}
  asap : List EventId := []
  /-- What was put on the `migrate_` lists of other drivers. -/
  migrate : List (DriverId × EventId) := []
  coh : Option CoroId := none

namespace Runtime

def setBody (s : Runtime) (x : EventId) (b : EventBody) : Runtime :=
  { s with body := Function.update s.body x b }

/-- `remove_listener_unlock`. -/
def removeListener (s : Runtime) (x : EventId) (l : Listener) : Runtime :=
  s.setBody x { s.body x with listeners := swapErase l (s.body x).listeners }

def Triggered (s : Runtime) (x : EventId) : Prop := (s.body x).triggered = true

instance (s : Runtime) (x : EventId) : Decidable (s.Triggered x) :=
  inferInstanceAs (Decidable ((s.body x).triggered = true))

/-- The loop of `cull_members`: `kept` are the members before the iterator. -/
def cullLoop (q : EventId) : Nat → Runtime → List EventId → List EventId → Runtime × List EventId
  | n + 1, s, kept, m :: rest =>
      if s.Triggered m then
        -- `m` has yet to remove itself
        cullLoop q n s (kept ++ [m]) rest
      else cullLoop q n (s.removeListener m (.quorum q)) kept (backToFront rest)
  | _, s, kept, todo => (s, kept ++ todo)

/-- `cull_members`. -/
def cullMembers (s : Runtime) (q : EventId) : Runtime :=
  let (s, members) := cullLoop q (s.body q).members.length s [] (s.body q).members
  s.setBody q { s.body q with members }

end Runtime

/-! ## Triggering -/

section

variable (home : CoroId → DriverId) (current : DriverId)

/-- The local variables of `trigger_unlock` while it walks the listeners. -/
structure Scan where
  quorums : List EventId := []
  drivers : List DriverId := []
  kept : List Listener := []
  coh : Option CoroId := none

/-- One listener: remove quorums, maybe claim one `drv` coroutine, and collect the other
drivers with interested coroutines. -/
def scanListener (drv : Option DriverId) (r : Scan) : Listener → Scan
  | .quorum q => { r with quorums := r.quorums ++ [q] }
  | .coroutine c =>
      if drv = some (home c) then
        if r.coh = none then { r with coh := some c }
        else { r with kept := r.kept ++ [.coroutine c] }
      else
        { r with
          drivers := if home c ∈ r.drivers then r.drivers else r.drivers ++ [home c]
          kept := r.kept ++ [.coroutine c] }

def scanListeners (drv : Option DriverId) (coh : Option CoroId) (ls : List Listener) : Scan :=
  ls.foldl (scanListener home drv) { coh }

/-- Post the event to the drivers of its coroutines.  Without a calling driver, the
driver of this thread is the one that posts to itself. -/
def post (drv : Option DriverId) (x : EventId) (s : Runtime) (d : DriverId) : Runtime :=
  if d = drv.getD current then { s with asap := s.asap ++ [x] }
  else { s with migrate := s.migrate ++ [(d, x)] }

/-- The first half of `trigger_member`: count the member and remove it. -/
def countMember (s : Runtime) (q x : EventId) : Runtime :=
  let b := s.body q
  if x ∈ b.members then
    s.setBody q { b with count := b.count + 1, members := swapErase x b.members }
  else s

/-- `trigger_member`, where `unlock` is the `trigger_unlock` of the quorum. -/
def triggerMember (unlock : Runtime → EventId → Option Runtime) (x : EventId) (s : Runtime)
    (q : EventId) : Option Runtime :=
  let s := countMember s q x
  if ¬ s.Triggered q ∧ (s.body q).quorum ≤ (s.body q).count then unlock s q else some s

/-- `trigger_unlock` before it informs the quorums. -/
def markTriggered (drv : Option DriverId) (s : Runtime) (x : EventId) : Scan × Runtime :=
  let s := if (s.body x).isQuorum then s.cullMembers x else s
  let r := scanListeners home drv s.coh (s.body x).listeners
  (r, { s.setBody x { s.body x with triggered := true, listeners := r.kept } with coh := r.coh })

/-- `trigger_unlock`, to a depth of nested calls. -/
def triggerUnlock (drv : Option DriverId) : Nat → Runtime → EventId → Option Runtime
  | 0, _, _ => none
  | depth + 1, s, x =>
      let (r, s) := markTriggered home drv s x
      -- inform quorums
      let informed := r.quorums.foldlM (triggerMember (triggerUnlock drv depth) x) s
      informed.map fun s => r.drivers.foldl (post current drv x) s

/-- Each nested call triggers another event. -/
def depth (s : Runtime) : Nat := s.size + 1

/-- `event::trigger`. -/
def trigger (s : Runtime) (x : EventId) : Option Runtime :=
  if s.Triggered x then some s else triggerUnlock home current none (depth s) s x

/-- A listener that is a coroutine of the driver. -/
def ownCoroutine : Listener → Option CoroId
  | .coroutine c => if home c = current then some c else none
  | .quorum _ => none

/-- `driver_trigger`; the coroutine to resume is left in `coh`. -/
def driverTrigger (s : Runtime) (x : EventId) : Option Runtime :=
  let s := { s with coh := none }
  if s.Triggered x then
    match (s.body x).listeners.findSome? (ownCoroutine home current) with
    | some c => some { s.removeListener x (.coroutine c) with coh := some c }
    | none => some s
  else triggerUnlock home current (some current) (depth s) s x

/-! ## What code does to the events -/

/-- `add_member`; `none` is a null handle, which counts as triggered. -/
def addMember (q : EventId) (s : Runtime) : Option EventId → Runtime
  | none => s.setBody q { s.body q with count := (s.body q).count + 1 }
  | some m =>
      if s.Triggered m then s.setBody q { s.body q with count := (s.body q).count + 1 }
      else
        let s := s.setBody m
          { s.body m with listeners := (s.body m).listeners ++ [.quorum q] }
        s.setBody q { s.body q with members := (s.body q).members ++ [m] }

/-- `quorum_event_body::make`: `any` asks for one of the events, `all` for each. -/
def makeQuorum (s : Runtime) (quorum : Nat) (es : List (Option EventId)) : Option Runtime :=
  let q := s.size
  let s := { s with size := s.size + 1 }
  let s := s.setBody q { isQuorum := true, quorum }
  let s := es.foldl (addMember q) s
  -- `seal`
  if (s.body q).quorum ≤ (s.body q).count then triggerUnlock home current none (depth s) s q
  else some s

/-- The coroutine is a listener of some event. -/
def Suspended (s : Runtime) (c : CoroId) : Prop :=
  ∃ x < s.size, .coroutine c ∈ (s.body x).listeners

instance (s : Runtime) (c : CoroId) : Decidable (Suspended s c) :=
  inferInstanceAs (Decidable (∃ x < s.size, .coroutine c ∈ (s.body x).listeners))

/-- The operations on events, by a coroutine body or by code outside the loop. -/
inductive Act where
  /-- a new plain event -/
  | event
  /-- `any` and `all` -/
  | quorum (quorum : Nat) (es : List (Option EventId))
  /-- `co_await` on an event, by a coroutine that runs -/
  | await (c : CoroId) (x : EventId)
  | trigger (x : EventId)
  /-- a suspended coroutine is destroyed -/
  | destroy (c : CoroId) (x : EventId)
  /-- `driver::asap` -/
  | asap (x : EventId)
deriving DecidableEq, Repr

def act (s : Runtime) : Act → Option Runtime
  | .event => some { s.setBody s.size {} with size := s.size + 1 }
  | .quorum quorum es =>
      if ∀ m ∈ es.reduceOption, m < s.size then makeQuorum home current s quorum es else none
  | .await c x =>
      if Suspended s c ∨ s.size ≤ x then none
      -- `await_ready`
      else if s.Triggered x then some s
      else some (s.setBody x
        { s.body x with listeners := (s.body x).listeners ++ [.coroutine c] })
  | .trigger x => if x < s.size then trigger home current s x else none
  | .destroy c x =>
      if .coroutine c ∈ (s.body x).listeners then some (s.removeListener x (.coroutine c))
      else none
  | .asap x => if x < s.size then some { s with asap := s.asap ++ [x] } else none

def acts : Runtime → List Act → Option Runtime
  | s, [] => some s
  | s, a :: as => (act home current s a).bind fun t => acts t as

/-- Everything that happens to the events of a driver. -/
inductive Label where
  | act (a : Act)
  /-- a call of `driver_trigger` -/
  | call (x : EventId)
deriving DecidableEq, Repr

def step (s : Runtime) : Label → Option Runtime
  | .act a => act home current s a
  | .call x => if x < s.size then driverTrigger home current s x else none

/-- The events of a driver, from its creation on. -/
def runtime : Machine Runtime Label where
  init s := s = {}
  step := step home current

/-! ## The loop that fires an event -/

/-- The coroutine destroyed by an operation. -/
def Act.destroyed : Act → Option CoroId
  | .destroy c _ => some c
  | _ => none

/-- `while (auto coh = eh->driver_trigger(this)) coh()`, between two iterations. -/
structure Firing where
  rt : Runtime
  resumed : List CoroId := []
  destroyed : List CoroId := []
  ended : Bool := false

/-- One iteration; `body` is what the coroutine does. -/
def iterate (eh : EventId) (w : Firing) (body : List Act) : Option Firing :=
  if w.ended then none
  else (driverTrigger home current w.rt eh).bind fun rt =>
    match rt.coh with
    | none => some { w with rt, ended := true }
    | some c =>
        (acts home current rt body).map fun rt =>
          { w with
            rt
            resumed := c :: w.resumed
            destroyed := body.filterMap Act.destroyed ++ w.destroyed }

/-- The loop that fires `eh` in the runtime `s`. -/
def firing (s : Runtime) (eh : EventId) : Machine Firing (List Act) where
  init w := w = { rt := s }
  step := iterate home current eh

end

end Event
end Cotamer
end Psets
