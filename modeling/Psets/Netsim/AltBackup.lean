/-
The backup of `pset3-altnet` before it takes over.

`backup()` races a receive from the primary, a receive from the clients and a timer,
handles what the race returns, and begins again.  `receive_with_channel` awaits
`receive_from` without `forward()`.  The combinator, which `backup()` awaits as soon
as it is made, is folded into its loop.
-/
import Mathlib.Data.List.Basic
import Psets.Netsim.Receive
import Psets.Pancy.Pancydb
import Psets.Transition.Machine

namespace Psets
namespace Netsim
namespace AltBackup

open Cotamer Pancy

/-- `port<Req, Resp>::receive_with_channel()` over `receive_from()`.  The reply channel
stands under the address of its peer. -/
def reception (Req : Type) : Reception (Req × Str) (Req × Str) where
  forwards := false
  value := id

/-- `pb_request_type` -/
abbrev PbRequest := Nat × Request

/-- The arguments of `first`, and the event that it waits for. -/
structure Race where
  p2b : Receive (PbRequest × Str) (PbRequest × Str)
  c2b : Receive (Request × Str) (Request × Str)
  timeout : Bool := false
  triggered : Bool := false

/-- `make_event()`: none of the arguments was resolved. -/
def Race.makeEvent (r : Race) : Race where
  p2b := r.p2b.setAwaiter (.event 0)
  c2b := r.c2b.setAwaiter (.event 0)

/-- Where `backup()` is. -/
inductive BackupPc where
  | looping
  | racing (race : Race)
  /-- at `co_await reply_chan->send(...)` -/
  | sending
  /-- past the loop -/
  | failedOver
  /-- an assertion failed -/
  | aborted

structure State where
  p2bq : List (PbRequest × Str) := []
  c2bq : List (Request × Str) := []
  pc : BackupPc := .looping
  expectedSerial : Nat := 0
  backupdb : Pancydb := {}
  /-- the acknowledgements, each with its channel -/
  acks : List (Str × Nat) := []
  redirections : List (Str × Nat) := []
  /-- the messages that arrived -/
  p2bDelivered : List (PbRequest × Str) := []
  c2bDelivered : List (Request × Str) := []
  /-- the serial of the last one from the primary -/
  p2bSerial : Nat := 0

inductive Label where
  | deliverP2b (serial : Nat) (req : Request) (source : Str)
  | deliverC2b (req : Request) (source : Str)
  /-- `backup()` calls and awaits `first(...)` -/
  | begin
  | resumeP2b
  | resumeC2b
  /-- the five seconds are over -/
  | timeout
  /-- `first` is resumed by its event -/
  | resume
  | sent

/-- `task<T>::resolve()` -/
def resolveReceive {Req : Type} (messageq : List (Req × Str))
    (recv : Receive (Req × Str) (Req × Str)) :
    Option (Bool × Turn (Req × Str) (Req × Str)) :=
  if recv.outer.resolving then Turn.resolve (reception Req) { messageq := messageq, recv := recv }
  else some (recv.done, { messageq := messageq, recv := recv })

def wake {Req : Type} (recv : Receive (Req × Str) (Req × Str)) :
    Receive (Req × Str) (Req × Str) :=
  if recv.pc = .listening then { recv with pc := .woken } else recv

/-- A resumed receive, or nothing where it waits for no event of the driver. -/
def resumeReceive {Req : Type} (messageq : List (Req × Str))
    (recv : Receive (Req × Str) (Req × Str)) : Option (Turn (Req × Str) (Req × Str)) :=
  if recv.pc = .woken ∨ recv.pc = .delaying then
    some (Turn.innerResume (reception Req) { messageq := messageq, recv := recv })
  else none

namespace State

variable (s : State)

/-- A request of the primary is applied, unless it was before, and acknowledged. -/
def handle (m : PbRequest × Str) : State :=
  if m.1.1 = s.expectedSerial + 1 then
    { s with expectedSerial := s.expectedSerial + 1, backupdb := (s.backupdb.processReq m.1.2).1,
             acks := s.acks ++ [(m.2, s.expectedSerial + 1)], pc := .sending }
  else if m.1.1 = s.expectedSerial then
    { s with acks := s.acks ++ [(m.2, s.expectedSerial)], pc := .sending }
  else { s with pc := .aborted }

/-- Redirect a client to the leader. -/
def redirect (m : Request × Str) : State :=
  { s with redirections := s.redirections ++ [(m.2, m.1.serial)], pc := .sending }

/-- The loop of `first` from the end of `co_await resolve{}`, and what `backup()` does with
its result.  The arguments are destroyed where it returns. -/
def race (r : Race) : Option State := do
  let (resolved, t) ← resolveReceive s.p2bq r.p2b
  let s := { s with p2bq := t.messageq }
  let r := { r with p2b := t.recv }
  if resolved then
    let m ← r.p2b.result
    some (s.handle m)
  else
    let (resolved, t) ← resolveReceive s.c2bq r.c2b
    let s := { s with c2bq := t.messageq }
    let r := { r with c2b := t.recv }
    if resolved then
      let m ← r.c2b.result
      some (s.redirect m)
    else if r.timeout then some { s with pc := .failedOver }
    else some { s with pc := .racing r.makeEvent }

end State

def BackupPc.onRace (f : Race → Race) : BackupPc → BackupPc
  | .racing r => .racing (f r)
  | pc => pc

/-- The channel from the primary is first in, first out, and the primary sends a serial again
and again until it is acknowledged. -/
def NextSerial (last serial : Nat) : Prop := serial = last ∨ serial = last + 1

instance (last serial : Nat) : Decidable (NextSerial last serial) :=
  inferInstanceAs (Decidable (_ ∨ _))

def step (s : State) : Label → Option State
  | .deliverP2b serial req source =>
    if NextSerial s.p2bSerial serial then
      some { s with
        pc := s.pc.onRace fun r => { r with p2b := wake r.p2b }
        p2bq := s.p2bq ++ [((serial, req), source)]
        p2bDelivered := s.p2bDelivered ++ [((serial, req), source)]
        p2bSerial := serial }
    else none
  | .deliverC2b req source =>
    some { s with
      pc := s.pc.onRace fun r => { r with c2b := wake r.c2b }
      c2bq := s.c2bq ++ [(req, source)]
      c2bDelivered := s.c2bDelivered ++ [(req, source)] }
  | .begin =>
    match s.pc with
    | .looping => do
      let t ← Turn.call (reception PbRequest) 0 s.p2bq
      let t' ← Turn.call (reception Request) 1 s.c2bq
      { s with p2bq := t.messageq, c2bq := t'.messageq }.race { p2b := t.recv, c2b := t'.recv }
    | _ => none
  | .resumeP2b =>
    match s.pc with
    | .racing r => (resumeReceive s.p2bq r.p2b).map fun t =>
      { s with p2bq := t.messageq
               pc := .racing { r with
                 p2b := t.recv, triggered := r.triggered || t.event.isSome } }
    | _ => none
  | .resumeC2b =>
    match s.pc with
    | .racing r => (resumeReceive s.c2bq r.c2b).map fun t =>
      { s with c2bq := t.messageq
               pc := .racing { r with
                 c2b := t.recv, triggered := r.triggered || t.event.isSome } }
    | _ => none
  | .timeout =>
    match s.pc with
    | .racing r => some { s with pc := .racing { r with timeout := true, triggered := true } }
    | _ => none
  | .resume =>
    match s.pc with
    | .racing r =>
      if r.triggered then
        -- `after_event()`
        s.race { r with p2b := r.p2b.setAwaiter .none, c2b := r.c2b.setAwaiter .none }
      else none
    | _ => none
  | .sent =>
    match s.pc with
    | .sending => some { s with pc := .looping }
    | _ => none

def system : Transition.Machine State Label where
  init s := s = {}
  step := step

end AltBackup
end Netsim
end Psets
