/-
Chandra-Toueg consensus with stubborn servers.

The messages, the network and the phases are those of Chandra-Toueg consensus.  A server
here keeps no stash, a message it does not want is gone, and a stubborn server looks at
the color of what it is given in four places.  As there, `consensus` runs the piece of
the coroutine between two suspensions, messages may be lost and overtake each other, and
rounds are natural numbers.
-/
import Psets.Ctconsensus.Server

namespace Psets
namespace Ctstubborn

open Ctconsensus (MessageType Message Address leader prepareMessage proposeMessage ackMessage
  decideMessage)

/-- The next piece of `consensus`, with the local variables it uses. -/
inductive Pc where
  | top
  | sentPrepare
  | receivePrepare (received : Nat)
  | sendPropose (propose : Message) (j : Nat)
  | receivePropose
  | sentAck
  | receiveAck (success total : Nat)
  | exit
  | sendDecide (decide : Message) (j : Nat)
  | done
  deriving DecidableEq, Repr

/-- A server and its input port. -/
structure Server where
  color : String
  round : Nat := 1
  colorRound : Nat := 0
  decided : Bool := false
  stubborn : Bool := false
  messageq : List Message := []
  pc : Pc := .top
  deriving DecidableEq, Repr

namespace Server

/-- A stubborn server does not take the color of `m`. -/
def refuses (s : Server) (m : Message) : Prop := s.stubborn = true ∧ m.color ≠ s.color

instance (s : Server) (m : Message) : Decidable (s.refuses m) :=
  inferInstanceAs (Decidable (_ ∧ _))

/-- The reply `receive` makes up once the server has decided. -/
def fakeMessage (s : Server) (mt : MessageType) : Message :=
  ⟨mt, s.round, s.color, s.colorRound, true⟩

/-- One iteration of `receive`: the message it returns, or none if it goes on. -/
def receive (s : Server) (mt : MessageType) : Option (Server × Option Message) :=
  if s.decided then
    some (s, some (s.fakeMessage mt))
  else
    match s.messageq with
    | [] => none
    | m :: messageq =>
      let s := { s with messageq := messageq }
      if m.type = .decide then
        if s.refuses m then
          some (s, none)
        else
          let s := { s with color := m.color, decided := true }
          some (s, some (s.fakeMessage mt))
      else if m.type ≠ mt ∨ m.round ≠ s.round then
        some (s, none)
      else
        some (s, some m)

end Server

section Consensus

variable {N : Nat} [NeZero N]

/-- The rest of phase 4, once `attempt` has returned. -/
def phase4 (s : Server) (maybePropose : Option Message) :
    Server × List (Address N × Message) :=
  let maybePropose := maybePropose.filter fun m => ¬ s.refuses m
  if s.decided then
    ({ s with pc := .exit }, [])
  else
    match maybePropose with
    | some m =>
      ({ s with color := m.color, colorRound := s.round, pc := .sentAck },
        [(.server (leader s.round), ackMessage s.round true)])
    | none =>
      ({ s with pc := .sentAck }, [(.server (leader s.round), ackMessage s.round false)])

/-- A PREPARE, unless its color is refused. -/
def collect (s : Server) (m : Message) : Server :=
  if s.refuses m then s
  else if s.colorRound < m.colorRound then
    { s with color := m.color, colorRound := m.colorRound }
  else s

/-- The next piece of server `id`'s coroutine and the messages it sends.
`none` while the coroutine waits for a message, and when it has returned. -/
def consensus (id : Fin N) (s : Server) : Option (Server × List (Address N × Message)) :=
  match s.pc with
  | .top =>
    if s.decided then
      some ({ s with pc := .exit }, [])
    else
      -- phase 1
      some ({ s with pc := .sentPrepare },
        [(.server (leader s.round), prepareMessage s.round s.color s.colorRound)])
  | .sentPrepare =>
    if id = leader s.round then
      some ({ s with pc := .receivePrepare 0 }, [])
    else
      some ({ s with pc := .receivePropose }, [])
  | .receivePrepare received =>
    -- phase 2
    if received ≤ N / 2 then
      match s.receive .prepare with
      | none => none
      | some (s, none) => some (s, [])
      | some (s, some m) => some (collect { s with pc := .receivePrepare (received + 1) } m, [])
    else if s.decided then
      some ({ s with pc := .exit }, [])
    else
      some ({ s with pc := .sendPropose (proposeMessage s.round s.color) 0 }, [])
  | .sendPropose propose j =>
    -- phase 3
    if h : j < N then
      some ({ s with pc := .sendPropose propose (j + 1) }, [(.server ⟨j, h⟩, propose)])
    else
      some ({ s with pc := .receivePropose }, [])
  | .receivePropose =>
    -- phase 4
    match s.receive .propose with
    | none => none
    | some (s, none) => some (s, [])
    | some (s, some m) => some (phase4 s (some m))
  | .sentAck =>
    if id = leader s.round then
      some ({ s with pc := .receiveAck 0 0 }, [])
    else
      -- phase 6
      some ({ s with round := s.round + 1, pc := .top }, [])
  | .receiveAck success total =>
    -- phase 5
    if total ≤ N / 2 then
      match s.receive .ack with
      | none => none
      | some (s, none) => some (s, [])
      | some (s, some m) =>
        let success := if m.ack then success + 1 else success
        some ({ s with pc := .receiveAck success (total + 1) }, [])
    else if s.decided then
      some ({ s with pc := .exit }, [])
    else if N / 2 < success then
      some ({ s with decided := true, pc := .exit }, [])
    else
      some ({ s with round := s.round + 1, pc := .top }, [])
  | .exit =>
    some ({ s with pc := .sendDecide (decideMessage s.color) 0 }, [])
  | .sendDecide decide j =>
    if h : j < N then
      if j ≠ id.val then
        some ({ s with pc := .sendDecide decide (j + 1) }, [(.server ⟨j, h⟩, decide)])
      else
        some ({ s with pc := .sendDecide decide (j + 1) }, [])
    else
      some ({ s with pc := .done }, [(.nancy, decide)])
  | .done => none

/-- The failure detector fires while the server waits in phase 4. -/
def failureDetector (s : Server) : Option (Server × List (Address N × Message)) :=
  match s.pc with
  | .receivePropose => some (phase4 s none)
  | _ => none

end Consensus

/-! ## The system -/

structure State (N : Nat) where
  server : Fin N → Server
  /-- the messages sent and not delivered, each with its destination -/
  inFlight : List (Address N × Message) := []
  /-- the messages delivered to Nancy -/
  nancyq : List Message := []
  /-- every message sent so far, with its sender; no code reads this -/
  sent : List (Fin N × Message) := []

inductive Label (N : Nat) where
  | run (id : Fin N)
  | timeout (id : Fin N)
  | deliver (k : Nat)
  | lose (k : Nat)
  deriving DecidableEq, Repr

namespace State

variable {N : Nat}

/-- Server `id` becomes `s` and sends `out`. -/
def put (st : State N) (id : Fin N) (s : Server) (out : List (Address N × Message)) :
    State N :=
  { st with
    server := Function.update st.server id s
    inFlight := st.inFlight ++ out
    sent := st.sent ++ out.map fun x => (id, x.2) }

/-- Put a message into the input port it is addressed to. -/
def enqueue (st : State N) (m : Message) : Address N → State N
  | .server id =>
    let s := st.server id
    { st with server := Function.update st.server id { s with messageq := s.messageq ++ [m] } }
  | .nancy => { st with nancyq := st.nancyq ++ [m] }

end State

variable {N : Nat} [NeZero N]

def step (st : State N) : Label N → Option (State N)
  | .run id => (consensus id (st.server id)).map fun (s, out) => st.put id s out
  | .timeout id => (failureDetector (st.server id)).map fun (s, out) => st.put id s out
  | .deliver k =>
    st.inFlight[k]?.map fun (a, m) =>
      { st with inFlight := st.inFlight.eraseIdx k }.enqueue m a
  | .lose k => st.inFlight[k]?.map fun _ => { st with inFlight := st.inFlight.eraseIdx k }

/-- Every server starts with its own color, and is stubborn or not. -/
def start (color : Fin N → String) (stubborn : Fin N → Bool) : State N where
  server id := { color := color id, stubborn := stubborn id }

/-- The runs of `N` servers with the colors `color`, of which some are `stubborn`. -/
def system (color : Fin N → String) (stubborn : Fin N → Bool) :
    Transition.Machine (State N) (Label N) where
  init st := st = start color stubborn
  step := step

end Ctstubborn
end Psets
