/-
The server of the RPC game.

Every `Try` runs on a thread of its own, and `process_try` puts the threads in order: a
thread waits on the condition variable until the serial that is wanted is its own.  The
hash is a parameter.  A run is an order in which the threads take and leave the mutex,
sleep and wake up, also without a reason.
-/
import Mathlib.Algebra.GroupWithZero.Nat
import Mathlib.Logic.Function.Basic
import Psets.Containers.Numerals
import Psets.Transition.Machine

namespace Psets
namespace RpcGame

open Transition

/-- XXH3: the streaming state, and the hash of one string. -/
structure XXH3 (H : Type) where
  reset : H
  update : H → Str → H
  digest : H → BitVec 64
  hash : Str → BitVec 64

namespace XXH3

variable {H : Type} (x : XXH3 H)

/-- `XXH3_64bits_update_uint64`: the bytes in little-endian order. -/
def updateUint64 (ctx : H) (value : BitVec 64) : H :=
  x.update ctx ((List.range 8).map fun i => Char.ofNat ((value >>> (8 * i)).toNat % 256))

/-- `XXH3_64bits_hexdigest` -/
def hexdigest (ctx : H) : Str := (Nat.toDigits 16 (x.digest ctx).toNat).leftpad 16 '0'

end XXH3

/-- `from_str_chars<uint64_t>`; `none` where it throws. -/
def fromStrChars (s : Str) : Option (BitVec 64) :=
  if s ≠ [] ∧ s.all Char.isDigit = true ∧ Nat.ofDigitChars 10 s 0 < 2 ^ 64 then
    some (BitVec.ofNat 64 (Nat.ofDigitChars 10 s 0))
  else none

structure TryRequest where
  serial : Str
  name : Str
  count : Str
deriving DecidableEq, Repr

/-- The parameters of `process_try`. -/
structure Call where
  serial : BitVec 64
  name : Str
  value : BitVec 64
deriving DecidableEq, Repr

/-- `Try`: parse the request. -/
def TryRequest.parse (r : TryRequest) : Option Call :=
  (fromStrChars r.serial).bind fun serial =>
    (fromStrChars r.count).map fun value => ⟨serial, r.name, value⟩

/-! ## The server -/

/-- `rpc_server`.  It is a global, so `_count` starts at zero. -/
structure Server (H : Type) where
  clientCtx : H
  serverCtx : H
  count : BitVec 64 := 0
  wantSerial : BitVec 64 := 1
  done : Bool := false

section Server

variable {H : Type} (x : XXH3 H)

def Server.init : Server H := { clientCtx := x.reset, serverCtx := x.reset }

/-- `process_try` from the end of the wait to the unlock. -/
def processTry (s : Server H) (c : Call) : BitVec 64 × Server H :=
  let response := x.hash c.name + c.value + s.count
  (response,
    { s with
      wantSerial := s.wantSerial + 1
      clientCtx := x.updateUint64 (x.update s.clientCtx c.name) c.value
      count := s.count + 1
      serverCtx := x.updateUint64 s.serverCtx response })

inductive Endpoint where
  | client
  | server
deriving DecidableEq, Repr

def checksum (s : Server H) (ep : Endpoint) : Str × Server H :=
  (x.hexdigest (match ep with
    | .client => s.clientCtx
    | .server => s.serverCtx), { s with done := true })

/-! ## The threads -/

/-- Where the thread of a `Try` is. -/
inductive Handler where
  | called
  | waiting
  | woken
  /-- `process_try` has unlocked the mutex and goes to `notify_all` -/
  | unlocked (response : BitVec 64)
  /-- `Status::OK`, with the value of the `TryResponse` -/
  | returned (value : Str)
  | threw
deriving DecidableEq, Repr

variable {n : Nat}

structure State (H : Type) (n : Nat) where
  server : Server H
  handlers : Fin n → Handler
  /-- The threads in the order of their critical sections.  No code reads this. -/
  processed : List (Fin n) := []

inductive Label (n : Nat) where
  /-- the thread parses its request and takes the mutex -/
  | enter (i : Fin n)
  /-- the thread takes the mutex again after it was woken -/
  | retry (i : Fin n)
  /-- `notify_all` -/
  | notify (i : Fin n)
  /-- the thread wakes without a notification -/
  | spurious (i : Fin n)
deriving DecidableEq, Repr

def Label.isSpurious : Label n → Bool
  | .spurious _ => true
  | _ => false

namespace State

def setHandler (s : State H n) (i : Fin n) (h : Handler) : State H n :=
  { s with handlers := Function.update s.handlers i h }

/-- With the mutex: look at the wanted serial, and process the request or sleep.  An
assertion that fails ends the program. -/
def look (s : State H n) (i : Fin n) (c : Call) : Option (State H n) :=
  if c.serial = s.server.wantSerial then
    if s.server.done then none
    else
      let (response, server) := processTry x s.server c
      some { s.setHandler i (.unlocked response) with server, processed := s.processed ++ [i] }
  else some (s.setHandler i .waiting)

/-- Everyone who sleeps wakes up. -/
def notifyAll (s : State H n) : State H n :=
  { s with handlers := fun i => if s.handlers i = .waiting then .woken else s.handlers i }

end State

def step (reqs : Fin n → TryRequest) (s : State H n) : Label n → Option (State H n)
  | .enter i =>
      if s.handlers i = .called then
        match (reqs i).parse with
        | none => some (s.setHandler i .threw)
        | some c => s.look x i c
      else none
  | .retry i =>
      if s.handlers i = .woken then (reqs i).parse.bind fun c => s.look x i c else none
  | .notify i =>
      match s.handlers i with
      | .unlocked response => some (s.setHandler i (.returned (decimal response.toNat))).notifyAll
      | _ => none
  | .spurious i => if s.handlers i = .waiting then some (s.setHandler i .woken) else none

def start : State H n where
  server := Server.init x
  handlers _ := .called

/-- The runs of the requests `reqs`, one thread each. -/
def machine (reqs : Fin n → TryRequest) : Machine (State H n) (Label n) where
  init s := s = start x
  step := step x reqs

/-! ## The sequence of calls -/

/-- A call of `process_try` on an idle server: it returns if its serial is wanted. -/
def call (s : Server H) (c : Call) : Option (BitVec 64 × Server H) :=
  if c.serial = s.wantSerial ∧ s.done = false then some (processTry x s c) else none

/-- One call after the other. -/
def sequential : Server H → List Call → Option (List (BitVec 64) × Server H)
  | s, [] => some ([], s)
  | s, c :: cs =>
      (call x s c).bind fun (r, s') => (sequential s' cs).map fun (rs, s'') => (r :: rs, s'')

theorem sequential_cons {s s' : Server H} {c : Call} {cs : List Call} {rs : List (BitVec 64)} :
    sequential x s (c :: cs) = some (rs, s') ↔ ∃ r u rs', call x s c = some (r, u) ∧
      sequential x u cs = some (rs', s') ∧ rs = r :: rs' := by
  rw [sequential]
  cases call x s c with
  | none => simp
  | some ru =>
    rcases ru with ⟨r, u⟩
    simp only [Option.bind_some]
    cases hrest : sequential x u cs with
    | none => simp [hrest]
    | some rsu =>
      simp only [Option.map_some, Option.some.injEq, Prod.mk.injEq]
      constructor
      · rintro ⟨rfl, rfl⟩
        exact ⟨r, u, rsu.1, ⟨rfl, rfl⟩, hrest, rfl⟩
      · rintro ⟨r', u', rs', ⟨rfl, rfl⟩, hrest', rfl⟩
        obtain rfl := Option.some.inj (hrest.symm.trans hrest')
        exact ⟨rfl, rfl⟩

theorem sequential_append {s s' s'' : Server H} {cs cs' : List Call} {rs rs' : List (BitVec 64)}
    (h : sequential x s cs = some (rs, s')) (h' : sequential x s' cs' = some (rs', s'')) :
    sequential x s (cs ++ cs') = some (rs ++ rs', s'') := by
  induction cs generalizing s rs with
  | nil =>
    cases h
    exact h'
  | cons c cs ih =>
    rcases (sequential_cons x).1 h with ⟨r, u, rs₁, hcall, hseq, rfl⟩
    exact (sequential_cons x).2 ⟨r, u, rs₁ ++ rs', hcall, ih hseq, rfl⟩

/-- There is a response to each call. -/
theorem length_sequential {s s' : Server H} {cs : List Call} {rs : List (BitVec 64)}
    (h : sequential x s cs = some (rs, s')) : rs.length = cs.length := by
  induction cs generalizing s rs with
  | nil =>
    cases h
    rfl
  | cons c cs ih =>
    rcases (sequential_cons x).1 h with ⟨r, u, rs₁, hcall, hseq, rfl⟩
    rw [List.length_cons, List.length_cons, ih hseq]

/-- The wanted serial counts the calls. -/
theorem wantSerial_sequential {s s' : Server H} {cs : List Call} {rs : List (BitVec 64)}
    (h : sequential x s cs = some (rs, s')) :
    s'.wantSerial = s.wantSerial + BitVec.ofNat 64 cs.length ∧ s'.done = s.done := by
  induction cs generalizing s rs with
  | nil =>
    cases h
    exact ⟨(BitVec.add_zero _).symm, rfl⟩
  | cons c cs ih =>
    rcases (sequential_cons x).1 h with ⟨r, u, rs₁, hcall, hseq, rfl⟩
    have hu : u.wantSerial = s.wantSerial + 1 ∧ u.done = s.done := by
      unfold call at hcall
      split at hcall
      · obtain ⟨rfl, rfl⟩ := Prod.mk.inj (Option.some.inj hcall)
        exact ⟨rfl, rfl⟩
      · cases hcall
    rcases ih hseq with ⟨hwant, hdone⟩
    refine ⟨?_, hdone.trans hu.2⟩
    rw [hwant, hu.1, List.length_cons, Nat.add_comm, BitVec.ofNat_add, BitVec.add_assoc]
    rfl

end Server

end RpcGame
end Psets
