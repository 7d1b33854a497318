/-
Channels, ports and the driver's timers.

`channel::send` waits twice at a timer: the detached `send_after` puts the message into the
port after `link_delay_`, and `send` itself returns after `send_delay_`.  The driver runs
these coroutines from its timer heap, and its clock is moved by other work too: it goes on
while coroutines run, and in virtual time it jumps to the earliest deadline, which may be
behind it.  A sender is a coroutine that awaits each `send` before the next.
-/
import Mathlib.Algebra.GroupWithZero.Nat
import Mathlib.Logic.Function.Basic
import Psets.Containers.Deadlines
import Psets.Transition.Machine

namespace Psets
namespace Netsim
namespace Delivery

open Containers (Deadlines)

/-- `link_delay_` and `send_delay_`, in nanoseconds. -/
def linkDelay : Nat := 5000000

def sendDelay : Nat := 1000000

/-- What a sender is doing. -/
inductive Sender where
  | idle
  /-- it awaits `send` -/
  | sending
  /-- its coroutine was destroyed -/
  | gone
  deriving DecidableEq, Repr

/-- `destination_` and `destination_version_` of a channel. -/
structure Channel (P : Type) where
  destination : Option P := none
  version : Nat := 0
  deriving DecidableEq, Repr

/-- One call of `send`.  What the channel's `destination_` was at the call, and how often the
channel had been connected or disconnected, is kept for the history; no code reads it. -/
structure Packet (S C P M : Type) where
  source : S
  channel : C
  message : M
  destination : Option P
  moves : Nat
  deriving DecidableEq, Repr

/-- The coroutine that waits for a timer. -/
inductive Wake (S C P M : Type) where
  /-- `send_after`, with its local `destination_version` -/
  | sendAfter (packet : Packet S C P M) (version : Nat)
  /-- `send` -/
  | sendDone (source : S)
  | other
  deriving DecidableEq, Repr

/-- A message put into a port, and how often its channel had been connected or disconnected
then. -/
structure Arrival (S C P M : Type) where
  port : P
  moves : Nat
  packet : Packet S C P M
  deriving DecidableEq, Repr

structure Network (S C P M : Type) where
  /-- `snow_` -/
  snow : Nat := 0
  timed : Deadlines (Wake S C P M) := Deadlines.empty
  channel : C → Channel P
  sender : S → Sender := fun _ => .idle
  messageq : P → List (Packet S C P M) := fun _ => []
  /-- The messages each port has returned, the calls of `send`, the messages put into ports,
  how often each channel was connected or disconnected, and the deadline of the last timer.
  No code reads these. -/
  received : P → List (Packet S C P M) := fun _ => []
  sent : List (Packet S C P M) := []
  arrived : List (Arrival S C P M) := []
  moves : C → Nat := fun _ => 0
  fired : Nat := 0

inductive Label (S C P M : Type) where
  /-- `send`; the coin decides whether the message is lost -/
  | send (source : S) (channel : C) (message : M) (lost : Bool)
  /-- the earliest timer is due -/
  | fire
  /-- `snow_ = timed_.top_time()` -/
  | jump
  /-- `step_time`, once or more -/
  | tick (n : Nat)
  /-- another coroutine waits for a timer -/
  | after (d : Nat)
  /-- the heap drops a timer nobody waits for -/
  | cull (pos : Nat)
  | connect (channel : C) (port : P)
  | disconnect (channel : C)
  /-- a `receive` returns -/
  | receive (port : P)
  /-- the sender's coroutine is destroyed -/
  | destroy (source : S)
  deriving DecidableEq, Repr

section Step

variable {S C P M : Type} [DecidableEq S] [DecidableEq C] [DecidableEq P]

namespace Network

/-- `channel::send`, up to its suspension.  A channel without a destination, or a lost coin,
drops the message. -/
def send (st : Network S C P M) (source : S) (c : C) (message : M) (lost : Bool) :
    Network S C P M :=
  let ch := st.channel c
  let packet := ⟨source, c, message, ch.destination, st.moves c⟩
  let timed :=
    if ch.destination.isSome ∧ lost = false then
      st.timed.insert (st.snow + linkDelay) (.sendAfter packet ch.version)
    else st.timed
  { st with
    timed := timed.insert (st.snow + sendDelay) (.sendDone source)
    sender := Function.update st.sender source .sending
    sent := st.sent ++ [packet] }

/-- The rest of `send_after`: drop if disconnected, otherwise put the message into the queue. -/
def sendAfter (st : Network S C P M) (packet : Packet S C P M) (version : Nat) :
    Network S C P M :=
  match (st.channel packet.channel).destination with
  | none => st
  | some p =>
    if version = (st.channel packet.channel).version then
      { st with
        messageq := Function.update st.messageq p (st.messageq p ++ [packet])
        arrived := st.arrived ++ [⟨p, st.moves packet.channel, packet⟩] }
    else st

/-- The coroutine of a timer runs. -/
def wake (st : Network S C P M) : Wake S C P M → Network S C P M
  | .sendAfter packet version => st.sendAfter packet version
  | .sendDone source =>
    if st.sender source = .sending then
      { st with sender := Function.update st.sender source .idle }
    else st
  | .other => st

/-- `connect`, and `disconnect` with no port; `destination_version_` has 32 bits. -/
def connect (st : Network S C P M) (c : C) (port : Option P) : Network S C P M :=
  { st with
    channel := Function.update st.channel c ⟨port, ((st.channel c).version + 1) % 2 ^ 32⟩
    moves := Function.update st.moves c (st.moves c + 1) }

/-- Nobody waits for the timer. -/
def dead (st : Network S C P M) : Wake S C P M → Bool
  | .other => true
  | .sendDone source => st.sender source = .gone
  | .sendAfter _ _ => false

def step (st : Network S C P M) : Label S C P M → Option (Network S C P M)
  | .send source c message lost =>
    if st.sender source = .idle then some (st.send source c message lost) else none
  | .fire =>
    match st.timed.entries with
    | [] => none
    | (t, w) :: _ =>
      if t ≤ st.snow then some ({ st with timed := st.timed.pop, fired := t }.wake w) else none
  | .jump => st.timed.entries.head?.map fun x => { st with snow := x.1 }
  | .tick n => some { st with snow := st.snow + n }
  | .after d => some { st with timed := st.timed.insert (st.snow + d) .other }
  | .cull pos =>
    match st.timed.entries[pos]? with
    | some x => if st.dead x.2 then some { st with timed := st.timed.remove pos } else none
    | none => none
  | .connect c port => some (st.connect c (some port))
  | .disconnect c => some (st.connect c none)
  | .receive p =>
    match st.messageq p with
    | [] => none
    | m :: q =>
      some { st with
        messageq := Function.update st.messageq p q
        received := Function.update st.received p (st.received p ++ [m]) }
  | .destroy source => some { st with sender := Function.update st.sender source .gone }

end Network

/-- Ports and channels as they were constructed, before anything is sent. -/
def start (destination : C → Option P) : Network S C P M where
  channel c := { destination := destination c }

/-- The runs of a network whose channels start with these destinations. -/
def network (destination : C → Option P) :
    Transition.Machine (Network S C P M) (Label S C P M) where
  init st := st = start destination
  step := Network.step

end Step

end Delivery
end Netsim
end Psets
