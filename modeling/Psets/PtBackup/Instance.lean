/-
The primary and the backup of a Pancy service (`pt-backup.cc`, `bogus == false`).

Each coroutine is cut at its `co_await`s, and a channel with the port at its end
is one queue from which any message may be lost at any time.  Messages leave a
queue in the order they entered it.  Client requests come from outside: the label
of a step that receives one carries it, so every request may arrive at any time and
again.  A timeout may fire whenever its coroutine waits, whatever its queues
hold.

`order` and `sent` are history: the requests that `backupdb_` has processed, and
the responses that were sent, each with its request.
-/
import Mathlib.Algebra.GroupWithZero.Nat
import Psets.Pancy.Pancydb
import Psets.Transition.Machine

namespace Psets
namespace PtBackup

open Pancy

/-- Where `primary()` is suspended. -/
inductive PrimaryPc where
  /-- at `c2p_port_.receive()` -/
  | receive
  /-- about to send the request to the backup -/
  | forward (req : Request)
  /-- waiting for the acknowledgement or for one second -/
  | await (req : Request)
  | returned
  deriving DecidableEq

/-- Where `backup()` is suspended. -/
inductive BackupPc where
  | backup
  /-- past the takeover, at `c2b_port_.receive()` -/
  | primary
  /-- the assertion on the serial number failed -/
  | aborted
  | returned
  deriving DecidableEq

structure State where
  serial : Nat := 0
  primaryLoops : Nat := 0
  primaryPc : PrimaryPc := .receive
  primarydb : Pancydb := {}
  primarydbError : Bool := false
  expectedSerial : Nat := 0
  backupLoops : Nat := 0
  backupPc : BackupPc := .backup
  backupdb : Pancydb := {}
  p2b : List (Nat × Request) := []
  b2p : List Nat := []
  order : List Request := []
  sent : List (Request × Response) := []
  deriving DecidableEq

inductive Label where
  /-- the primary receives a client request -/
  | primaryReceive (req : Request)
  | primaryForward
  /-- the primary receives a message from the backup -/
  | primaryAck
  /-- one second passes at the primary -/
  | primaryRetry
  /-- the primary fails -/
  | primaryFail
  /-- the backup receives a message from the primary -/
  | backupReceive
  /-- the backup receives a client request -/
  | backupRequest (req : Request)
  /-- five seconds pass at the backup -/
  | takeover
  | loseP2b (k : Nat)
  | loseB2p (k : Nat)
  deriving DecidableEq

def checkPeriod : Nat := 2 ^ 20

section Step

-- `clients_.check`: does it find a problem with the database?
variable (check : Pancydb → Bool)

/-- Apply the request to `primarydb_`, respond, and check the database now and
then. -/
def respond (s : State) (req : Request) : State :=
  let r := s.primarydb.processReq req
  let loops := s.primaryLoops + 1
  let s := { s with primarydb := r.1, primaryLoops := loops, sent := s.sent ++ [(req, r.2)] }
  if loops % checkPeriod = 0 && check s.primarydb then
    { s with primarydbError := true, primaryPc := .returned }
  else
    { s with primaryPc := .receive }

/-- The backup handles the message `(serial, req)` of the primary. -/
def applyForwarded (s : State) (serial : Nat) (req : Request) : State :=
  if serial = s.expectedSerial + 1 then
    { s with expectedSerial := s.expectedSerial + 1, backupdb := (s.backupdb.processReq req).1,
             order := s.order ++ [req], b2p := s.b2p ++ [s.expectedSerial + 1] }
  else if serial = s.expectedSerial then
    { s with b2p := s.b2p ++ [s.expectedSerial] }
  else
    { s with backupPc := .aborted }

/-- The backup redirects a client to replica 0. -/
def redirect (s : State) (req : Request) : State :=
  { s with sent := s.sent ++ [(req, .redirection ⟨req.serial, .redirect, 0⟩)] }

/-- The backup, once it has taken over, handles a client request. -/
def serve (s : State) (req : Request) : State :=
  let r := s.backupdb.processReq req
  let loops := s.backupLoops + 1
  let s := { s with backupdb := r.1, backupLoops := loops, order := s.order ++ [req],
                    sent := s.sent ++ [(req, r.2)] }
  if loops % checkPeriod = 0 && check s.backupdb then { s with backupPc := .returned } else s

def step (s : State) : Label → Option State
  | .primaryReceive req =>
    if s.primaryPc = .receive then
      some { s with serial := s.serial + 1, primaryPc := .forward req }
    else none
  | .primaryForward =>
    match s.primaryPc with
    | .forward req => some { s with p2b := s.p2b ++ [(s.serial, req)], primaryPc := .await req }
    | _ => none
  | .primaryAck =>
    match s.primaryPc, s.b2p with
    | .await req, ack :: b2p =>
      if ack = s.serial then some (respond check { s with b2p := b2p } req)
      else some { s with b2p := b2p, primaryPc := .forward req }
    | _, _ => none
  | .primaryRetry =>
    match s.primaryPc with
    | .await req => some { s with primaryPc := .forward req }
    | _ => none
  | .primaryFail => some { s with primaryPc := .returned }
  | .backupReceive =>
    match s.backupPc, s.p2b with
    | .backup, (serial, req) :: p2b => some (applyForwarded { s with p2b := p2b } serial req)
    | _, _ => none
  | .backupRequest req =>
    match s.backupPc with
    | .backup => some (redirect s req)
    | .primary => some (serve check s req)
    | _ => none
  | .takeover => if s.backupPc = .backup then some { s with backupPc := .primary } else none
  | .loseP2b k => some { s with p2b := s.p2b.eraseIdx k }
  | .loseB2p k => some { s with b2p := s.b2p.eraseIdx k }

/-- The runs of a primary and a backup. -/
def system : Transition.Machine State Label where
  init s := s = {}
  step := step check

end Step

end PtBackup
end Psets
