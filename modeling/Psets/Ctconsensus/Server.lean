/-
The servers of Chandra-Toueg consensus and their network.

`server::consensus` is one coroutine per server.  It gives up control at each
`co_await`, so a run interleaves the pieces of code between them.  `Pc` says
which piece comes next and holds the coroutine's local variables; `consensus`
runs one piece and returns the messages it sends.  The loop of `receive` is cut
once more, at the end of each iteration, which adds interleavings and removes
none.

A message in flight may arrive at any moment and in any order, or never.  Rounds
are natural numbers: every round lasts 10ms at least and Nancy ends the run after
15 minutes, so the 64-bit `round_` of the source does not wrap.
-/
import Mathlib.Algebra.GroupWithZero.Nat
import Mathlib.Data.Fintype.Basic
import Mathlib.Logic.Function.Basic
import Psets.Transition.Machine

namespace Psets
namespace Ctconsensus

/-! ## Messages -/

inductive MessageType where
  | prepare
  | propose
  | ack
  | decide
  deriving DecidableEq, Repr

/-- Not every type of message uses every field. -/
structure Message where
  type : MessageType
  round : Nat
  color : String
  colorRound : Nat
  ack : Bool
  deriving DecidableEq, Repr

def prepareMessage (round : Nat) (color : String) (colorRound : Nat) : Message :=
  ⟨.prepare, round, color, colorRound, false⟩

def proposeMessage (round : Nat) (color : String) : Message :=
  ⟨.propose, round, color, 0, false⟩

def ackMessage (round : Nat) (ack : Bool) : Message :=
  ⟨.ack, round, "", 0, ack⟩

def decideMessage (color : String) : Message :=
  ⟨.decide, 0, color, 0, false⟩

/-- The owner of an input port: a server, or the observer `nancy_id`. -/
inductive Address (N : Nat) where
  | server (id : Fin N)
  | nancy
  deriving DecidableEq, Repr

/-! ## One server -/

/-- The next piece of `consensus`, with the local variables it uses.
`stashSize` is the local variable of the `receive` in progress. -/
inductive Pc where
  | top
  | sentPrepare
  | receivePrepare (received stashSize : Nat)
  | sendPropose (propose : Message) (j : Nat)
  | receivePropose (stashSize : Nat)
  | sentAck
  | receiveAck (success total stashSize : Nat)
  | exit
  | sendDecide (decide : Message) (j : Nat)
  | done
  deriving DecidableEq, Repr

/-- A server and its input port. -/
structure Server where
  color : String
  round : Nat := 1
  colorRound : Nat := 0
  stash : List Message := []
  decided : Bool := false
  messageq : List Message := []
  pc : Pc := .top
  deriving DecidableEq, Repr

namespace Server

/-- The messages the server has been given and has not used yet. -/
def mail (s : Server) : List Message := s.messageq ++ s.stash

/-- The reply `receive` makes up once the server has decided. -/
def fakeMessage (s : Server) (mt : MessageType) : Message :=
  ⟨mt, s.round, s.color, s.colorRound, true⟩

/-- The next message to look at: from the stash while `stashSize` lasts, then
from the port.  `none` while the port is empty. -/
def next (s : Server) (stashSize : Nat) : Option (Message × Nat × Server) :=
  if 0 < stashSize then
    match s.stash with
    | m :: stash => some (m, stashSize - 1, { s with stash := stash })
    | [] => none
  else
    match s.messageq with
    | m :: messageq => some (m, 0, { s with messageq := messageq })
    | [] => none

/-- One iteration of `receive`: the message it returns, or the `stashSize` of
the next iteration. -/
def receive (s : Server) (mt : MessageType) (stashSize : Nat) :
    Option (Server × (Message ⊕ Nat)) :=
  if s.decided then
    some (s, .inl (s.fakeMessage mt))
  else
    match s.next stashSize with
    | none => none
    | some (m, stashSize, s) =>
      if m.type = .decide then
        let s := { s with color := m.color, decided := true }
        some (s, .inl (s.fakeMessage mt))
      else if m.type ≠ mt ∨ m.round ≠ s.round then
        if s.round ≤ m.round then
          some ({ s with stash := s.stash ++ [m] }, .inr stashSize)
        else
          some (s, .inr stashSize)
      else
        some (s, .inl m)

end Server

section Consensus

variable {N : Nat} [NeZero N]

/-- The leader of a round, `round_ % N_`. -/
def leader (round : Nat) : Fin N := Fin.ofNat N round

/-- The rest of phase 4, once `attempt` has returned. -/
def phase4 (s : Server) (maybePropose : Option Message) :
    Server × List (Address N × Message) :=
  if s.decided then
    ({ s with pc := .exit }, [])
  else
    match maybePropose with
    | some m =>
      ({ s with color := m.color, colorRound := s.round, pc := .sentAck },
        [(.server (leader s.round), ackMessage s.round true)])
    | none =>
      ({ s with pc := .sentAck }, [(.server (leader s.round), ackMessage s.round false)])

/-- The next piece of server `id`'s coroutine and the messages it sends.
`none` while the coroutine waits for a message, and when it has returned. -/
def consensus (id : Fin N) (s : Server) : Option (Server × List (Address N × Message)) :=
  match s.pc with
  | .top =>
    if s.decided then
      some ({ s with pc := .exit }, [])
    else
      -- phase 1
      some ({ s with pc := .sentPrepare },
        [(.server (leader s.round), prepareMessage s.round s.color s.colorRound)])
  | .sentPrepare =>
    if id = leader s.round then
      some ({ s with pc := .receivePrepare 0 s.stash.length }, [])
    else
      some ({ s with pc := .receivePropose s.stash.length }, [])
  | .receivePrepare received stashSize =>
    -- phase 2
    if received ≤ N / 2 then
      match s.receive .prepare stashSize with
      | none => none
      | some (s, .inr stashSize) =>
        some ({ s with pc := .receivePrepare received stashSize }, [])
      | some (s, .inl m) =>
        let s := { s with pc := .receivePrepare (received + 1) s.stash.length }
        if s.colorRound < m.colorRound then
          some ({ s with color := m.color, colorRound := m.colorRound }, [])
        else
          some (s, [])
    else if s.decided then
      some ({ s with pc := .exit }, [])
    else
      some ({ s with pc := .sendPropose (proposeMessage s.round s.color) 0 }, [])
  | .sendPropose propose j =>
    -- phase 3
    if h : j < N then
      some ({ s with pc := .sendPropose propose (j + 1) }, [(.server ⟨j, h⟩, propose)])
    else
      some ({ s with pc := .receivePropose s.stash.length }, [])
  | .receivePropose stashSize =>
    -- phase 4
    match s.receive .propose stashSize with
    | none => none
    | some (s, .inr stashSize) => some ({ s with pc := .receivePropose stashSize }, [])
    | some (s, .inl m) => some (phase4 s (some m))
  | .sentAck =>
    if id = leader s.round then
      some ({ s with pc := .receiveAck 0 0 s.stash.length }, [])
    else
      -- phase 6
      some ({ s with round := s.round + 1, pc := .top }, [])
  | .receiveAck success total stashSize =>
    -- phase 5
    if total ≤ N / 2 then
      match s.receive .ack stashSize with
      | none => none
      | some (s, .inr stashSize) =>
        some ({ s with pc := .receiveAck success total stashSize }, [])
      | some (s, .inl m) =>
        let success := if m.ack then success + 1 else success
        some ({ s with pc := .receiveAck success (total + 1) s.stash.length }, [])
    else if s.decided then
      some ({ s with pc := .exit }, [])
    else if N / 2 < success then
      some ({ s with decided := true, pc := .exit }, [])
    else
      some ({ s with round := s.round + 1, pc := .top }, [])
  | .exit =>
    some ({ s with pc := .sendDecide (decideMessage s.color) 0 },
      [(.nancy, decideMessage s.color)])
  | .sendDecide decide j =>
    if h : j < N then
      if j ≠ id.val then
        some ({ s with pc := .sendDecide decide (j + 1) }, [(.server ⟨j, h⟩, decide)])
      else
        some ({ s with pc := .sendDecide decide (j + 1) }, [])
    else
      some ({ s with pc := .done }, [])
  | .done => none

/-- The failure detector fires while the server waits for the network in
phase 4. -/
def failureDetector (s : Server) : Option (Server × List (Address N × Message)) :=
  match s.pc with
  | .receivePropose 0 => some (phase4 s none)
  | _ => none

end Consensus

/-! ## The system -/

structure State (N : Nat) where
  server : Fin N → Server
  /-- the messages sent and not delivered, each with its destination -/
  inFlight : List (Address N × Message)
  /-- the messages delivered to Nancy -/
  nancyq : List Message

inductive Label (N : Nat) where
  | run (id : Fin N)
  | timeout (id : Fin N)
  | deliver (k : Nat)
  | lose (k : Nat)
  deriving DecidableEq, Repr

namespace State

variable {N : Nat}

/-- Server `id` becomes `s` and sends `sent`. -/
def put (st : State N) (id : Fin N) (s : Server) (sent : List (Address N × Message)) :
    State N :=
  { st with server := Function.update st.server id s, inFlight := st.inFlight ++ sent }

/-- Put a message into the input port it is addressed to. -/
def enqueue (st : State N) (m : Message) : Address N → State N
  | .server id =>
    let s := st.server id
    { st with server := Function.update st.server id { s with messageq := s.messageq ++ [m] } }
  | .nancy => { st with nancyq := st.nancyq ++ [m] }

end State

variable {N : Nat} [NeZero N]

def step (st : State N) : Label N → Option (State N)
  | .run id => (consensus id (st.server id)).map fun (s, sent) => st.put id s sent
  | .timeout id => (failureDetector (st.server id)).map fun (s, sent) => st.put id s sent
  | .deliver k =>
    st.inFlight[k]?.map fun (a, m) =>
      { st with inFlight := st.inFlight.eraseIdx k }.enqueue m a
  | .lose k => st.inFlight[k]?.map fun _ => { st with inFlight := st.inFlight.eraseIdx k }

/-- Every server starts with its own color and an empty network. -/
def start (color : Fin N → String) : State N :=
  { server := fun id => { color := color id }, inFlight := [], nancyq := [] }

/-- The runs of `N` servers that start with the colors `color`. -/
def system (color : Fin N → String) : Transition.Machine (State N) (Label N) where
  init st := st = start color
  step := step

end Ctconsensus
end Psets
