/-
`attempt`, `first` and `race` over receives and timers.

Ports, receives and combinators have numbers for names.  The driver resumes whatever
is ready in any order, timers end when they like, and the coroutines that use all this
await a receive or a combinator, resolve it from a combinator of their own, or destroy
it.  A receive that a combinator was given belongs to it until that one has returned.
-/
import Psets.Netsim.Receive
import Psets.Pancy.Pancydb
import Psets.Transition.Machine

namespace Psets
namespace Netsim

open Cotamer

/-- An argument of a combinator: a task, which the combinator owns or only refers to, or
an event such as a timer. -/
inductive Arm where
  | task (r : Nat) (owned : Bool)
  | event (triggered : Bool)
  deriving DecidableEq, Repr

inductive Kind where
  | attempt
  | first
  | race
  deriving DecidableEq, Repr

inductive Outcome (T : Type) where
  /-- the value of the task with this index -/
  | received (index : Nat) (m : T)
  /-- the event with this index -/
  | triggered (index : Nat)
  /-- `nullopt` -/
  | cancelled
  deriving DecidableEq, Repr

/-- Where the coroutine of a combinator is. -/
inductive CombinatorPc where
  | resolving
  | waiting
  | done
  deriving DecidableEq, Repr

structure Combinator (T : Type) where
  kind : Kind
  arms : List Arm
  pc : CombinatorPc := .resolving
  promise : Promise := {}
  /-- the event that it waits for was triggered -/
  triggered : Bool := false
  outcome : Option (Outcome T) := none
  deriving DecidableEq, Repr

/-- `port<T>::receive()` over `receive_with_id()`. -/
def reception (T : Type) : Reception (T × Str) T where
  forwards := true
  value := Prod.fst

structure State (T : Type) where
  messageq : Nat → List (T × Str)
  receives : Nat → Option (Receive (T × Str) T)
  /-- the combinator that a receive was given to -/
  holder : Nat → Option Nat
  combinators : Nat → Option (Combinator T)
  delivered : Nat → List T
  /-- what receives returned, each with its port -/
  returned : List (Nat × T)

def taskIds (arms : List Arm) : List Nat :=
  arms.filterMap fun
    | .task r _ => some r
    | .event _ => none

/-- The documented arguments: `attempt` takes a task and events, and a race of one is that
one. -/
def Kind.Accepts : Kind → List Arm → Prop
  | .attempt, arms => arms ≠ [] ∧ taskIds arms.tail = []
  | .first, arms => arms ≠ []
  | .race, arms => 2 ≤ arms.length

instance (kind : Kind) (arms : List Arm) : Decidable (kind.Accepts arms) := by
  cases kind <;> unfold Kind.Accepts <;> infer_instance

namespace State

variable {T : Type} (s : State T)

def turn (recv : Receive (T × Str) T) : Turn (T × Str) T :=
  { messageq := s.messageq recv.port, recv := recv }

def triggerEvent (f : Nat) : State T :=
  { s with
    combinators := Function.update s.combinators f
      ((s.combinators f).map fun c => { c with triggered := true }) }

/-- The receive `r` has run. -/
def store (r : Nat) (t : Turn (T × Str) T) : State T :=
  let s := { s with
    messageq := Function.update s.messageq t.recv.port t.messageq
    receives := Function.update s.receives r (some t.recv)
    returned := s.returned ++ t.value.toList.map fun m => (t.recv.port, m) }
  match t.event with
  | some f => s.triggerEvent f
  | none => s

/-- `task<T>::resolve()` -/
def resolveTask (r : Nat) : Option (Bool × State T) := do
  let recv ← s.receives r
  if recv.outer.resolving then
    let (resolved, t) ← (s.turn recv).resolve (reception T)
    some (resolved, s.store r t)
  else some (recv.done, s)

/-- `find_resolved()`: the index of the first argument that resolves. -/
def findResolved : List Arm → State T → Option (Nat × State T)
  | [], s => some (0, s)
  | .task r _ :: arms, s => do
    let (resolved, s) ← s.resolveTask r
    if resolved then some (0, s) else (findResolved arms s).map fun x => (x.1 + 1, x.2)
  | .event triggered :: arms, s =>
    if triggered then some (0, s) else (findResolved arms s).map fun x => (x.1 + 1, x.2)

def setAwaiters (arms : List Arm) (awaiter : Awaiter) : State T :=
  { s with
    receives := fun r =>
      if r ∈ taskIds arms then (s.receives r).map (·.setAwaiter awaiter) else s.receives r }

/-- The arguments of a combinator are destroyed, those it owns with their tasks. -/
def release (arms : List Arm) : State T :=
  { s with
    receives := fun r => if .task r true ∈ arms then none else s.receives r
    holder := fun r => if r ∈ taskIds arms then none else s.holder r }

/-- `select_variant(index)`, `select_value(index)`: moves the value out of the task. -/
def select (arms : List Arm) (index : Nat) : Option (Outcome T × State T) := do
  match ← arms[index]? with
  | .event _ => some (.triggered index, s)
  | .task r _ =>
    let recv ← s.receives r
    let m ← recv.result
    some (.received index m,
      { s with
        receives := Function.update s.receives r (some { recv with result := none })
        returned := s.returned ++ [(recv.port, m)] })

end State

namespace Combinator

variable {T : Type} (f : Nat)

/-- What a combinator makes of `find_resolved()`. -/
def outcomeOf (c : Combinator T) (s : State T) (ridx : Nat) : Option (Outcome T × State T) :=
  if c.kind = .attempt ∧ ridx ≠ 0 then some (.cancelled, s) else s.select c.arms ridx

/-- `co_await make_event()` -/
def wait (c : Combinator T) (s : State T) : State T × Combinator T :=
  (s.setAwaiters c.arms (.event f),
    { c with pc := .waiting, triggered := c.arms.any (· = .event true) })

/-- `co_return` -/
def finish (c : Combinator T) (s : State T) (outcome : Outcome T) : State T × Combinator T :=
  (s.release c.arms,
    { c with pc := .done, outcome := some outcome, promise := { c.promise with resolving := true } })

/-- The loop of a combinator from the end of `co_await resolve{}`. -/
def loop (x : State T × Combinator T) : Option (State T × Combinator T) := do
  let (ridx, s) ← State.findResolved x.2.arms x.1
  if ridx = x.2.arms.length then some (wait f x.2 s)
  else
    let (outcome, s) ← x.2.outcomeOf s ridx
    some (finish x.2 s outcome)

/-- A combinator is resumed, at its resolution point or by its event. -/
def resume (x : State T × Combinator T) : Option (State T × Combinator T) :=
  match x.2.pc with
  | .resolving => loop f x
  | .waiting =>
    -- `after_event()`
    let s := x.1.setAwaiters x.2.arms .none
    if x.2.promise.awaiter = .task then loop f (s, x.2)
    else some (s, { x.2 with pc := .resolving, promise := { x.2.promise with resolving := true } })
  | .done => some x

def coroutine : Coroutine (State T × Combinator T) where
  promise x := x.2.promise
  setPromise x p := (x.1, { x.2 with promise := p })
  done x := x.2.pc = .done
  resolveAwaitee x := some (true, x)
  resume := resume f

end Combinator

inductive Label (T : Type) where
  /-- a message arrives -/
  | deliver (p : Nat) (m : T) (id : Str)
  | receive (r p : Nat)
  /-- the driver resumes `receive_with_id` of `r`, whose event or delay is over -/
  | resume (r : Nat)
  | awaitReceive (r : Nat)
  | combine (f : Nat) (kind : Kind) (arms : List Arm)
  | awaitCombinator (f : Nat)
  | resolveCombinator (f : Nat)
  /-- the event that is argument `k` of `f` triggers -/
  | trigger (f k : Nat)
  | resumeCombinator (f : Nat)
  | destroyReceive (r : Nat)
  | destroyCombinator (f : Nat)

namespace State

variable {T : Type} (s : State T)

def setCombinator (f : Nat) (x : State T × Combinator T) : State T :=
  { x.1 with combinators := Function.update x.1.combinators f (some x.2) }

/-- The event that a receive waits for is triggered. -/
def wake (p : Nat) (recv : Receive (T × Str) T) : Receive (T × Str) T :=
  if recv.port = p ∧ recv.pc = .listening then { recv with pc := .woken } else recv

def deliver (p : Nat) (m : T) (id : Str) : State T :=
  { s with
    messageq := Function.update s.messageq p (s.messageq p ++ [(m, id)])
    receives := fun r => (s.receives r).map (wake p)
    delivered := Function.update s.delivered p (s.delivered p ++ [m]) }

/-- A coroutine awaits `receive()` directly. -/
def awaitTurn (t : Turn (T × Str) T) : Option (Turn (T × Str) T) :=
  (t.resolve (reception T)).map fun (resolved, t) =>
    if resolved then { t with value := t.recv.result, recv := { t.recv with result := none } }
    else t.setOuter { t.recv.outer with awaiter := .task }

/-- A receive that can be given to a combinator. -/
def Free (r : Nat) : Prop :=
  s.holder r = none ∧ ∃ recv ∈ s.receives r, recv.done = false ∧ recv.outer.awaiter = .none

instance (r : Nat) : Decidable (s.Free r) := inferInstanceAs (Decidable (_ ∧ _))

def combine (f : Nat) (kind : Kind) (arms : List Arm) : State T :=
  { s with
    holder := fun r => if r ∈ taskIds arms then some f else s.holder r
    combinators := Function.update s.combinators f
      (some { kind := kind, arms := arms, promise := { resolving := true } }) }

def trigger (f k : Nat) (c : Combinator T) : State T :=
  setCombinator f (s,
    { c with arms := c.arms.set k (.event true), triggered := c.triggered || c.pc = .waiting })

def destroyCombinator (f : Nat) (c : Combinator T) : State T :=
  let s := { s with combinators := Function.update s.combinators f none }
  match c.pc with
  | .resolving => s.release c.arms
  | .waiting => (s.setAwaiters c.arms .none).release c.arms
  | .done => s

end State

open State Combinator in
def step {T : Type} (s : State T) : Label T → Option (State T)
  | .deliver p m id => some (s.deliver p m id)
  | .receive r p =>
    if s.receives r = none ∧ s.holder r = none then
      (Turn.call (reception T) p (s.messageq p)).map (s.store r)
    else none
  | .resume r =>
    (s.receives r).bind fun recv =>
      if recv.pc = .woken ∨ recv.pc = .delaying then
        some (s.store r ((s.turn recv).innerResume (reception T)))
      else none
  | .awaitReceive r =>
    if s.Free r then
      (s.receives r).bind fun recv => (awaitTurn (s.turn recv)).map (s.store r)
    else none
  | .combine f kind arms =>
    if s.combinators f = none ∧ kind.Accepts arms ∧ ∀ r ∈ taskIds arms, s.Free r then
      some (s.combine f kind arms)
    else none
  | .awaitCombinator f =>
    (s.combinators f).bind fun c =>
      if c.pc ≠ .done ∧ c.promise.awaiter = .none then
        ((coroutine f).resolve Turn.resolveRounds (s, c)).map fun (resolved, x) =>
          if resolved then setCombinator f x
          else setCombinator f (x.1, { x.2 with promise := { x.2.promise with awaiter := .task } })
      else none
  | .resolveCombinator f =>
    (s.combinators f).bind fun c =>
      if c.pc ≠ .done ∧ c.promise.awaiter = .none then
        ((coroutine f).resolve Turn.resolveRounds (s, c)).map fun (_, x) => setCombinator f x
      else none
  | .trigger f k =>
    (s.combinators f).bind fun c =>
      if c.arms[k]? = some (.event false) then some (s.trigger f k c) else none
  | .resumeCombinator f =>
    (s.combinators f).bind fun c =>
      if c.pc = .waiting ∧ c.triggered = true then
        ((coroutine f).resume (s, c)).map (setCombinator f)
      else none
  | .destroyReceive r =>
    if s.holder r = none then some { s with receives := Function.update s.receives r none }
    else none
  | .destroyCombinator f =>
    (s.combinators f).map (s.destroyCombinator f)

def start (T : Type) : State T where
  messageq _ := []
  receives _ := none
  holder _ := none
  combinators _ := none
  delivered _ := []
  returned := []

def system (T : Type) : Transition.Machine (State T) (Label T) where
  init s := s = start T
  step := step

end Netsim
end Psets
