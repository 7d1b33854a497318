/-
The registry of the client-server network, and the way of a request and its response.

A server port keeps a pair of channels for each client: one for requests from the client's
address, and one for responses that leads to the client's response port.  Whoever receives a
request gets the second, which `receive_with_channel` looks up without a check.  The nodes of
the maps stay where they are, so a pointer to a channel is an address of a server and one of a
client.  Traces are left out, a coin and the time a message takes are labels.
-/
import Mathlib.Logic.Function.Basic
import Psets.Transition.Machine

namespace Psets
namespace Netsim
namespace AltNetwork

open Transition

variable {A Req Resp M : Type}

/-- `channel<T>*` -/
inductive ChannelPtr (A : Type) where
  /-- the first of the pair that a server port keeps for a client -/
  | request (server client : A)
  /-- the second one -/
  | response (server client : A)
deriving DecidableEq, Repr

/-- `channel<T>`: `destination` is the address at which its receiver is registered. -/
structure Channel (A : Type) where
  sourceAddress : A
  destination : A
  destinationAddress : A
deriving DecidableEq, Repr

/-- A message in the queue of a receiver. -/
structure Delivery (A M : Type) where
  message : M
  source : A
  /-- The channel it came over.  No code reads this. -/
  via : ChannelPtr A
deriving DecidableEq, Repr

/-- `port<Req, Resp>` -/
structure Port (A Req : Type) where
  address : A
  messageq : List (Delivery A Req) := []
  channels : A → Option (Channel A × Channel A) := fun _ => none

/-- `channels_.try_emplace` of both channels between a client and the port at `dst` -/
def Port.emplacePair [DecidableEq A] (port : Port A Req) (src dst : A) : Port A Req :=
  { port with
    channels := Function.update port.channels src
      (some (⟨src, dst, port.address⟩, ⟨dst, src, src⟩)) }

/-- A request that was received, with the reply channel. -/
structure Taken (A Req : Type) where
  port : A
  request : Delivery A Req
  reply : ChannelPtr A
deriving DecidableEq, Repr

/-- A response that was received. -/
structure Answer (A Resp : Type) where
  port : A
  response : Delivery A Resp
deriving DecidableEq, Repr

/-- `network<Req, Resp>`, the coroutines of `send_after`, and the channels that the program was
given. -/
structure Network (A Req Resp : Type) where
  ports : A → Option (Port A Req) := fun _ => none
  responsePorts : A → Option (List (Delivery A Resp)) := fun _ => none
  requests : List (ChannelPtr A × Req) := []
  responses : List (ChannelPtr A × Resp) := []
  held : List (ChannelPtr A) := []
  /-- What was received, and what `find_response_channel` has found.  No code reads these. -/
  taken : List (Taken A Req) := []
  answers : List (Answer A Resp) := []
  found : List (ChannelPtr A) := []

namespace Network

variable [DecidableEq A] (s : Network A Req Resp)

/-- The channel that a pointer points to. -/
def channel : ChannelPtr A → Option (Channel A)
  | .request server client => do
      let port ← s.ports server
      let pair ← port.channels client
      some pair.1
  | .response server client => do
      let port ← s.ports server
      let pair ← port.channels client
      some pair.2

def setPort (a : A) (port : Port A Req) : Network A Req Resp :=
  { s with ports := Function.update s.ports a (some port) }

def setResponsePort (a : A) (messageq : List (Delivery A Resp)) : Network A Req Resp :=
  { s with responsePorts := Function.update s.responsePorts a (some messageq) }

/-- `port` -/
def port (a : A) : Network A Req Resp :=
  match s.ports a with
  | some _ => s
  | none => s.setPort a { address := a }

/-- `response_port` -/
def responsePort (a : A) : Network A Req Resp :=
  match s.responsePorts a with
  | some _ => s
  | none => s.setResponsePort a []

/-- `find_channel` -/
def findChannel (src dst : A) : Option (ChannelPtr A) × Network A Req Resp :=
  match s.ports dst with
  | none => (none, s)
  | some dest =>
      match dest.channels src with
      | some _ => (some (.request dst src), s)
      | none =>
          -- the response port is needed to create the reply channel
          match s.responsePorts src with
          | none => (none, s)
          | some _ =>
              (some (.request dst src), s.setPort dst (dest.emplacePair src dst))

/-- `find_response_channel` -/
def findResponseChannel (src dst : A) : Option (ChannelPtr A) := do
  let server ← s.ports src
  let _ ← server.channels dst
  some (.response src dst)

end Network

/-! ## The program -/

/-- What a program does with the network, and what the network does. -/
inductive Op (A Req Resp : Type) where
  | port (a : A)
  | responsePort (a : A)
  | findChannel (src dst : A)
  | findResponseChannel (src dst : A)
  /-- `send` on a channel for requests, which may lose the message -/
  | request (p : ChannelPtr A) (m : Req) (lost : Bool)
  | respond (p : ChannelPtr A) (m : Resp) (lost : Bool)
  /-- `deliver`: a message arrives -/
  | arriveRequest (i : Nat)
  | arriveResponse (i : Nat)
  /-- `receive_with_channel` takes a message from the queue -/
  | receiveWithChannel (a : A)
  /-- `receive` at a response port -/
  | receive (a : A)
deriving DecidableEq, Repr

variable [DecidableEq A]

/-- The program uses channels that it was given, of the type of the message, and ports that it
has registered. -/
def Enabled (s : Network A Req Resp) : Op A Req Resp → Bool
  | .port _ | .responsePort _ | .findChannel _ _ | .findResponseChannel _ _ => true
  | .request (.request server client) _ _ => s.held.contains (.request server client)
  | .request (.response _ _) _ _ => false
  | .respond (.response server client) _ _ => s.held.contains (.response server client)
  | .respond (.request _ _) _ _ => false
  | .arriveRequest i => decide (i < s.requests.length)
  | .arriveResponse i => decide (i < s.responses.length)
  | .receiveWithChannel a => (s.ports a).any fun p => !p.messageq.isEmpty
  | .receive a => (s.responsePorts a).any fun q => !q.isEmpty

/-- There is no result where a pointer or an iterator is used that points to nothing. -/
def perform (s : Network A Req Resp) : Op A Req Resp → Option (Network A Req Resp)
  | .port a => some (s.port a)
  | .responsePort a => some (s.responsePort a)
  | .findChannel src dst =>
      let (p, s) := s.findChannel src dst
      some { s with held := p.toList ++ s.held }
  | .findResponseChannel src dst =>
      let p := s.findResponseChannel src dst
      some { s with held := p.toList ++ s.held, found := p.toList ++ s.found }
  | .request p m lost => do
      let _ ← s.channel p
      some (if lost then s else { s with requests := s.requests ++ [(p, m)] })
  | .respond p m lost => do
      let _ ← s.channel p
      some (if lost then s else { s with responses := s.responses ++ [(p, m)] })
  | .arriveRequest i => do
      let (p, m) ← s.requests[i]?
      let c ← s.channel p
      let port ← s.ports c.destination
      some { s.setPort c.destination
          { port with messageq := port.messageq ++ [⟨m, c.sourceAddress, p⟩] } with
        requests := s.requests.eraseIdx i }
  | .arriveResponse i => do
      let (p, m) ← s.responses[i]?
      let c ← s.channel p
      let messageq ← s.responsePorts c.destination
      some { s.setResponsePort c.destination (messageq ++ [⟨m, c.sourceAddress, p⟩]) with
        responses := s.responses.eraseIdx i }
  | .receiveWithChannel a => do
      let port ← s.ports a
      let x ← port.messageq.head?
      let _ ← port.channels x.source
      some { s.setPort a { port with messageq := port.messageq.tail } with
        held := .response a x.source :: s.held
        taken := ⟨a, x, .response a x.source⟩ :: s.taken }
  | .receive a => do
      let messageq ← s.responsePorts a
      let x ← messageq.head?
      some { s.setResponsePort a messageq.tail with answers := ⟨a, x⟩ :: s.answers }

/-- The events of a program, from an empty network on. -/
def program (A Req Resp : Type) [DecidableEq A] :
    Machine (Network A Req Resp) (Op A Req Resp) where
  init s := s = {}
  step s a := if Enabled s a then perform s a else none

end AltNetwork
end Netsim
end Psets
