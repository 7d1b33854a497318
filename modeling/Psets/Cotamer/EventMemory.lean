/-
The memory of events: handles, reference counts and `delete`.

An event body lives as long as handles to it do.  A quorum holds handles to its members, a
member lists its quorums without holding them, and a quorum that loses its last handle takes
itself off those lists before it is deleted, which drops handles in turn.  A member that is
being triggered has copied its list of quorums and cannot be taken off: then the quorum
stays, unreferenced, until that member has informed it.

The model computes with the fields that the code reads: the reference counts, the flags with
the lock bit, the lists.  A step that reads, locks or frees a body that is not there, waits
for a lock that its own thread holds, takes a plain event for a quorum, releases a reference
that was not counted or looks at the promise of a coroutine that is not suspended has no
result.  The operations of several drivers alternate, each as a whole: what happens between
the steps of two threads that overlap is not in the model.  Counts are natural numbers, and
user flags are left out.
-/
import Psets.Cotamer.Event

namespace Psets
namespace Cotamer
namespace EventMemory

open Containers Transition
open Event (EventId CoroId DriverId Listener Scan scanListeners)

/-- The bits of `flags_`, and its count of `interest{}` members still to be added. -/
structure Flags where
  quorum : Bool := false
  lock : Bool := false
  empty : Bool := true
  emptyMembers : Bool := false
  triggered : Bool := false
  wantInterest : Bool := false
  interest : Nat := 0
deriving DecidableEq, Repr

/-- `event_body`, with the fields of `quorum_event_body`. -/
structure Body where
  refcount : Nat := 1
  flags : Flags := {}
  listeners : List Listener := []
  members : List EventId := []
  /-- `triggered_` -/
  count : Nat := 0
  /-- `quorum_` -/
  quorum : Nat := 0
deriving DecidableEq, Repr

structure Memory where
  /-- The next address. -/
  size : Nat := 0
  /-- `none` where nothing was allocated yet, or what was is deleted. -/
  heap : EventId → Option Body := fun _ => none
  /-- The handles in the `asap_` and `migrate_` lists of the drivers. -/
  asap : List (DriverId × EventId) := []
  migrate : List (DriverId × EventId) := []
  /-- The coroutines in `co_await`, each with the event of its `task_event_awaiter`. -/
  suspended : List (CoroId × EventId) := []
  /-- The coroutine that `driver_trigger` is about to return. -/
  coh : Option CoroId := none

namespace Memory

def set (m : Memory) (x : EventId) (b : Body) : Memory :=
  { m with heap := Function.update m.heap x (some b) }

def free (m : Memory) (x : EventId) : Memory :=
  { m with heap := Function.update m.heap x none }

/-- `refcount_.fetch_add` -/
def ref (m : Memory) (x : EventId) (n : Nat) : Option Memory := do
  let b ← m.heap x
  some (m.set x { b with refcount := b.refcount + n })

/-- `refcount_.fetch_sub(1)`, with the count before. -/
def deref (m : Memory) (x : EventId) : Option (Nat × Memory) := do
  let b ← m.heap x
  if b.refcount = 0 then none
  else some (b.refcount, m.set x { b with refcount := b.refcount - 1 })

/-- `lock`; a body that is locked already would be waited for in vain. -/
def lock (m : Memory) (x : EventId) : Option (Flags × Memory) := do
  let b ← m.heap x
  if b.flags.lock then none
  else some (b.flags, m.set x { b with flags := { b.flags with lock := true } })

/-- `lock` on what has to be a `quorum_event_body`. -/
def lockQuorum (m : Memory) (q : EventId) : Option (Flags × Memory) := do
  let (f, m) ← m.lock q
  if f.quorum then some (f, m) else none

/-- `untriggered_lock` -/
def untriggeredLock (m : Memory) (x : EventId) : Option (Flags × Memory) := do
  let b ← m.heap x
  if b.flags.triggered then some (b.flags, m) else m.lock x

/-- `unlock` -/
def unlock (m : Memory) (x : EventId) (f : Flags) : Option Memory := do
  let b ← m.heap x
  some (m.set x { b with flags := f })

/-- `add_listener_unlock`, with its assertion. -/
def addListenerUnlock (m : Memory) (x : EventId) (l : Listener) (f : Flags) : Option Memory := do
  let b ← m.heap x
  if f.triggered then none
  else some (m.set x
    { b with listeners := b.listeners ++ [l], flags := { f with empty := false } })

/-- `remove_listener_unlock` -/
def removeListenerUnlock (m : Memory) (x : EventId) (l : Listener) (f : Flags) :
    Option Memory := do
  let b ← m.heap x
  let listeners := swapErase l b.listeners
  some (m.set x
    { b with listeners, flags := { f with empty := f.empty || listeners.isEmpty } })

def setMembers (m : Memory) (q : EventId) (members : List EventId) : Option Memory := do
  let b ← m.heap q
  some (m.set q { b with members })

end Memory

/-! ## Dropping a handle -/

section

variable (drop : Memory → EventId → Option Memory)

/-- The loop of `cull_members`: `kept` are the members before the iterator. -/
def cullLoop (q : EventId) : Nat → Memory → List EventId → List EventId → Option Memory
  | n + 1, m, kept, x :: rest => do
      let (f, m) ← m.untriggeredLock x
      -- `x` is still triggering and has yet to remove itself
      if f.triggered then cullLoop q n m (kept ++ [x]) rest
      else
        let m ← m.removeListenerUnlock x (.quorum q) f
        let rest := backToFront rest
        let m ← m.setMembers q (kept ++ rest)
        let m ← drop m x
        cullLoop q n m kept rest
  | _, m, _, _ => some m

/-- `cull_members` -/
def cullMembers (m : Memory) (q : EventId) (f : Flags) : Option (Flags × Memory) := do
  let b ← m.heap q
  let m ← cullLoop drop q b.members.length m [] b.members
  let b ← m.heap q
  some (if b.members.isEmpty then { f with emptyMembers := true } else f, m)

/-- `delete`, with the destructor of `members_`. -/
def delete (m : Memory) (x : EventId) : Option Memory := do
  let b ← m.heap x
  let m ← b.members.foldlM drop m
  let _ ← m.heap x
  some (m.free x)

/-- `hard_deref` -/
def hardDeref (m : Memory) (q : EventId) : Option Memory := do
  let (f, m) ← m.lock q
  let (count, m) ← m.deref q
  if count ≠ 1 then m.unlock q f
  else
    let (f, m) ← if f.triggered then some (f, m) else cullMembers drop m q f
    if f.emptyMembers then delete drop m q
    -- one of the triggers under way will delete it
    else m.unlock q f

end

/-- `~event_handle`, to a depth of nested calls. -/
def drop : Nat → Memory → EventId → Option Memory
  | 0, _, _ => none
  | n + 1, m, x => do
      let b ← m.heap x
      if b.flags.quorum && !b.flags.emptyMembers then hardDeref (drop n) m x
      else
        let (count, m) ← m.deref x
        if count ≠ 1 then some m else delete (drop n) m x

/-- Nested calls of `~event_handle` concern different events. -/
def depth (m : Memory) : Nat := m.size + 1

/-- `~event_handle` -/
def release (m : Memory) (x : EventId) : Option Memory := drop (depth m) m x

/-! ## Triggering -/

section

variable (home : CoroId → DriverId) (current : DriverId)

/-- The promise of the coroutine can be read. -/
def Frame (m : Memory) : Listener → Bool
  | .coroutine c => m.suspended.any fun w => w.1 = c
  | .quorum _ => true

/-- The walk of `trigger_unlock` over the listeners, to the point where it unlocks. -/
def markTriggered (drv : Option DriverId) (m : Memory) (x : EventId) (f : Flags) :
    Option (Scan × Memory) := do
  let b ← m.heap x
  if b.listeners.all (Frame m) then
    let r := scanListeners home drv m.coh b.listeners
    let f := { f with triggered := true, empty := f.empty || r.kept.isEmpty }
    some (r, { m.set x { b with listeners := r.kept, flags := f } with coh := r.coh })
  else none

/-- `trigger_member`, where `unlock` is the `trigger_unlock` of the quorum. -/
def triggerMember (unlock : Memory → EventId → Flags → Option Memory) (x : EventId) (m : Memory)
    (q : EventId) : Option Memory := do
  let (f, m) ← m.lockQuorum q
  let b ← m.heap q
  let (f, m) ←
    if x ∈ b.members then do
      let members := swapErase x b.members
      let m ← release (m.set q { b with count := b.count + 1, members }) x
      some (if members.isEmpty then { f with emptyMembers := true } else f, m)
    else some (f, m)
  let b ← m.heap q
  if ¬ f.triggered ∧ b.quorum ≤ b.count then unlock m q f
  else if f.emptyMembers ∧ b.refcount = 0 then delete release m q
  else m.unlock q f

/-- The list that the event is posted to: `asap_` of the calling driver, or without one of
the driver of this thread, and `migrate_` of the others. -/
def post (drv : Option DriverId) (x : EventId) (m : Memory) (d : DriverId) : Memory :=
  if d = drv.getD current then { m with asap := m.asap ++ [(d, x)] }
  else { m with migrate := m.migrate ++ [(d, x)] }

/-- The start of `trigger_unlock`: a temporary reference, so that a quorum survives until the
end, and the members that have not triggered are let go. -/
def keepQuorum (m : Memory) (x : EventId) (f : Flags) : Option (Flags × Memory) :=
  if f.quorum then do
    let m ← m.ref x 1
    cullMembers release m x f
  else some (f, m)

/-- `trigger_unlock`, to a depth of nested calls. -/
def triggerUnlock (drv : Option DriverId) : Nat → Memory → EventId → Flags → Option Memory
  | 0, _, _, _ => none
  | n + 1, m, x, f => do
      let (f, m) ← keepQuorum m x f
      let (r, m) ← markTriggered home drv m x f
      -- inform quorums
      let m ← r.quorums.foldlM (triggerMember (triggerUnlock drv n) x) m
      let m ← m.ref x r.drivers.length
      let m := r.drivers.foldl (post current drv x) m
      -- release temporary reference
      if f.quorum then release m x else some m

/-- `event_body::trigger`, with the `result` of `trigger_unlock`: whether there was anybody
to see it. -/
def trigger (m : Memory) (x : EventId) : Option (Bool × Memory) := do
  let (f, m) ← m.untriggeredLock x
  if f.triggered then some (false, m)
  else
    let b ← m.heap x
    let result := !f.empty || decide (1 < b.refcount)
    let m ← triggerUnlock home current none (depth m) m x f
    some (result, m)

/-- The first coroutine of the driver among the listeners, all of which have to be
coroutines. -/
def firstOwn (d : DriverId) (m : Memory) : List Listener → Option (Option CoroId)
  | [] => some none
  | .quorum _ :: _ => none
  | .coroutine c :: rest =>
      if Frame m (.coroutine c) then
        if home c = d then some (some c) else firstOwn d m rest
      else none

/-- `driver_trigger`; the coroutine to resume is left in `coh`. -/
def driverTrigger (d : DriverId) (m : Memory) (x : EventId) : Option Memory := do
  let m := { m with coh := none }
  let b ← m.heap x
  -- definitely nothing left to do, don't bother locking
  if b.flags.empty && b.flags.triggered then some m
  else
    let (f, m) ← m.lock x
    if ¬ f.triggered then triggerUnlock home current (some d) (depth m) m x f
    else
      match ← firstOwn home d m b.listeners with
      | some c =>
          let m ← m.removeListenerUnlock x (.coroutine c) f
          some { m with coh := some c }
      | none => m.unlock x { f with empty := f.empty || b.listeners.isEmpty }

/-! ## Quorums -/

/-- What `any`, `all` and `attempt` make a member of. -/
inductive Member where
  /-- a null handle, which counts as triggered -/
  | null
  | event (x : EventId)
  | interest
deriving DecidableEq, Repr

/-- `add_member` -/
def addMember (q : EventId) (fm : Flags × Memory) (e : Member) : Option (Flags × Memory) := do
  let (qf, m) := fm
  match e with
  | .null =>
      let b ← m.heap q
      some (qf, m.set q { b with count := b.count + 1 })
  | .event x =>
      let (f, m) ← m.untriggeredLock x
      if f.triggered then
        let b ← m.heap q
        let m ← release (m.set q { b with count := b.count + 1 }) x
        some (qf, m)
      else
        let m ← m.addListenerUnlock x (.quorum q) f
        let b ← m.heap q
        let m := m.set q { b with members := b.members ++ [x] }
        some ({ qf with wantInterest := qf.wantInterest || f.wantInterest, emptyMembers := false },
          m)
  | .interest => some ({ qf with wantInterest := true, interest := qf.interest + 1 }, m)

/-- `ef_initial` -/
def initialFlags : Flags := { quorum := true, emptyMembers := true }

/-- `new quorum_event_body(quorum)`, which is locked. -/
def newQuorum (m : Memory) (quorum : Nat) : Memory :=
  { m.set m.size { flags := { initialFlags with lock := true }, quorum } with size := m.size + 1 }

/-- `seal` -/
def sealQuorum (m : Memory) (q : EventId) (qf : Flags) : Option Memory := do
  let b ← m.heap q
  if b.quorum ≤ b.count then triggerUnlock home current none (depth m) m q qf
  else m.unlock q qf

/-- `quorum_event_body::make` -/
def makeQuorum (m : Memory) (quorum : Nat) (es : List Member) : Option Memory := do
  let (qf, m') ← es.foldlM (addMember m.size) (initialFlags, newQuorum m quorum)
  sealQuorum home current m' m.size qf

/-- `while (qf >= ef_interest) qf = add_member(qf - ef_interest, ievent)`, where each call
copies the handle. -/
def addInterest (q ievent : EventId) : Nat → Flags → Memory → Option (Flags × Memory)
  | 0, qf, m => some (qf, m)
  | n + 1, qf, m => do
      let m ← m.ref ievent 1
      let (qf, m) ← addMember q ({ qf with interest := n }, m) (.event ievent)
      addInterest q ievent n qf m

/-- The members who want interest. -/
def wantingMembers (m : Memory) : List EventId → Option (List EventId)
  | [] => some []
  | x :: rest => do
      let b ← m.heap x
      let wanting ← wantingMembers m rest
      some (if b.flags.wantInterest then x :: wanting else wanting)

/-- `fix_want_interest`, to a depth of nested calls. -/
def fixWantInterest (ievent : EventId) : Nat → Memory → EventId → Option Memory
  | 0, _, _ => none
  | n + 1, m, q => do
      let (qf, m) ← m.lockQuorum q
      let qf := { qf with wantInterest := false }
      if qf.triggered then m.unlock q qf
      else
        let (qf, m) ← addInterest q ievent qf.interest qf m
        let b ← m.heap q
        if b.quorum ≤ b.count then triggerUnlock home current none (depth m) m q qf
        else
          -- copies, since the calls might drop the members
          let wanting ← wantingMembers m b.members
          let m ← wanting.foldlM (fun m x => m.ref x 1) m
          let m ← m.unlock q qf
          let m ← wanting.foldlM (fixWantInterest ievent n) m
          wanting.foldlM release m

/-! ## Coroutines -/

/-- `co_await` on an event whose handle was moved to the awaiter; `ievent` is the interest
event of the coroutine. -/
def await (m : Memory) (c : CoroId) (x ievent : EventId) : Option Memory := do
  let b ← m.heap x
  if b.flags.triggered then release m x
  else
    let m ← if b.flags.wantInterest then fixWantInterest home current ievent (depth m) m x
      else some m
    let (f, m) ← m.untriggeredLock x
    if f.triggered then release m x
    else
      let m ← m.addListenerUnlock x (.coroutine c) f
      some { m with suspended := (c, x) :: m.suspended }

/-- `~task_event_awaiter` of a coroutine that is suspended -/
def destroy (m : Memory) (c : CoroId) (x : EventId) : Option Memory := do
  let (f, m) ← m.lock x
  let m ← m.removeListenerUnlock x (.coroutine c) f
  release { m with suspended := m.suspended.erase (c, x) } x

/-- The coroutine is resumed, and its awaiter is gone. -/
def resume (m : Memory) (c : CoroId) : Option Memory := do
  let w ← m.suspended.find? fun w => w.1 = c
  release { m with coh := none, suspended := m.suspended.erase w } w.2

end

/-! ## The program -/

/-- The memory, the handles that the program holds (in variables, promises, timers,
keepalives), and those that drivers have taken to fire. -/
structure State where
  mem : Memory := {}
  handles : List EventId := []
  firing : List (DriverId × EventId) := []

/-- What code does that runs on the thread of a driver. -/
inductive Op where
  /-- a new plain event -/
  | event
  /-- `any`, `all` and `attempt`, to which the handles are moved -/
  | quorum (quorum : Nat) (es : List Member)
  | copy (x : EventId)
  | drop (x : EventId)
  | trigger (x : EventId)
  /-- `driver::asap`, to which the handle is moved -/
  | asap (x : EventId)
  /-- `co_await` on an event -/
  | await (c : CoroId) (x ievent : EventId)
  /-- a suspended coroutine is destroyed -/
  | destroy (c : CoroId) (x : EventId)
  /-- the driver takes a handle from its timers, -/
  | expire (x : EventId)
  /-- from `asap_`, -/
  | take (x : EventId)
  /-- or from what other drivers have posted to it -/
  | receive (x : EventId)
  /-- `driver_trigger` on a handle taken, which is dropped when nothing is left to resume -/
  | call (x : EventId)
deriving DecidableEq, Repr

def Member.event? : Member → Option EventId
  | .event x => some x
  | _ => none

/-- The program uses handles that it holds, and a coroutine that awaits an event is not
suspended; its interest event is a plain one. -/
def Enabled (d : DriverId) (st : State) : Op → Bool
  | .event => true
  | .quorum _ es =>
      let xs := es.filterMap Member.event?
      xs.all fun x => xs.count x ≤ st.handles.count x
  | .copy x | .drop x | .trigger x | .asap x | .expire x => st.handles.contains x
  | .await c x ievent =>
      st.handles.contains x && (st.handles.erase x).contains ievent &&
        (st.mem.heap ievent).all (fun b => !b.flags.quorum) &&
        st.mem.suspended.all fun w => w.1 ≠ c
  | .destroy c x => st.mem.suspended.contains (c, x)
  | .take x => st.mem.asap.contains (d, x)
  | .receive x => st.mem.migrate.contains (d, x)
  | .call x => st.firing.contains (d, x)

/-- One operation on the thread of driver `d`. -/
def perform (home : CoroId → DriverId) (d : DriverId) (st : State) : Op → Option State
  | .event =>
      some { st with
        mem := { st.mem.set st.mem.size {} with size := st.mem.size + 1 }
        handles := st.mem.size :: st.handles }
  | .quorum quorum es => do
      let mem ← makeQuorum home d st.mem quorum es
      some { st with
        mem, handles := st.mem.size :: st.handles.diff (es.filterMap Member.event?) }
  | .copy x => do
      let mem ← st.mem.ref x 1
      some { st with mem, handles := x :: st.handles }
  | .drop x => do
      let mem ← release st.mem x
      some { st with mem, handles := st.handles.erase x }
  | .trigger x => do
      let (_, mem) ← trigger home d st.mem x
      some { st with mem }
  | .asap x =>
      some { st with
        mem := { st.mem with asap := st.mem.asap ++ [(d, x)] }
        handles := st.handles.erase x }
  | .await c x ievent => do
      let mem ← await home d st.mem c x ievent
      some { st with mem, handles := st.handles.erase x }
  | .destroy c x => do
      let mem ← destroy st.mem c x
      some { st with mem }
  | .expire x =>
      some { st with handles := st.handles.erase x, firing := (d, x) :: st.firing }
  | .take x =>
      some { st with
        mem := { st.mem with asap := st.mem.asap.erase (d, x) }
        firing := (d, x) :: st.firing }
  | .receive x =>
      some { st with
        mem := { st.mem with migrate := st.mem.migrate.erase (d, x) }
        firing := (d, x) :: st.firing }
  | .call x => do
      let mem ← driverTrigger home d d st.mem x
      match mem.coh with
      | some c =>
          let mem ← resume mem c
          some { st with mem }
      | none =>
          let mem ← release mem x
          some { st with mem, firing := st.firing.erase (d, x) }

/-- The events of a program, from its start on.  An operation runs to its end, with all that
it triggers and releases, before another thread does anything. -/
def program (home : CoroId → DriverId) : Machine State (DriverId × Op) where
  init st := st = {}
  step st a := if Enabled a.1 st a.2 then perform home a.1 st a.2 else none

end EventMemory
end Cotamer
end Psets
