/-
The clients of `lockseq_model`, one `pancydb` server and the network between them.

`client()` is cut at its `co_await`s.  A request enters its client's queue, whose
head the server may process at any time; responses are received in any order; every
message may be lost, and a timeout may fire whenever a client waits.  The model
counters, and the replica a client believes to lead (there is one), are left out.

`tries` is an `unsigned` in the source.  Serial numbers and versions have 64 bits
there and are numbers here.
-/
import Psets.LockSeq.Table
import Psets.Transition.Machine

namespace Psets
namespace LockSeq

open Pancy

def ngroups : Nat := 100

def maxSequenceLength : Nat := 100

def serialStep : Nat := 4096

/-- `client_mask() + 1`: the client of a message is its serial modulo this. -/
def maxClients : Nat := 4096

inductive Phase where
  | lock
  | write
  | clear
  | unlock
  deriving DecidableEq, Repr

/-- Where `client()` is suspended. -/
inductive Pc where
  /-- the delay at the top of the loop -/
  | delay
  /-- about to send the request of the phase -/
  | send (phase : Phase)
  /-- waiting for the response or for the timeout -/
  | wait (phase : Phase)
  /-- the delay that follows a response -/
  | pause (phase : Phase)
  | thrown (phase : Phase) (errcode : Errc)
  deriving DecidableEq, Repr

structure Client where
  serial : Nat
  pc : Pc := .delay
  tries : Nat := 0
  gid : Nat := 0
  value : Str := []
  nvalues : Nat := 0
  lockVersion : VersionType := 0
  n : Nat := 0
  deriving DecidableEq, Repr

namespace Client

variable (c : Client)

/-- The request that the loop of a phase sends. -/
def request : Phase → Request
  | .lock => lockRequest c.serial c.gid c.value
  | .write => writeRequest c.serial c.gid c.n c.value
  | .clear => clearRequest c.serial c.gid c.n
  | .unlock => unlockRequest c.serial c.gid c.lockVersion

/-- Begin the retry loop of a request. -/
def begin (phase : Phase) : Client :=
  { c with serial := c.serial + serialStep, tries := 0, pc := .send phase }

/-- `++tries` and around the loop again. -/
def retry (phase : Phase) : Client :=
  { c with tries := (c.tries + 1) % unsignedModulus, pc := .send phase }

def clearLoop : Client := if c.n < maxSequenceLength then c.begin .clear else c.begin .unlock

def writeLoop : Client := if c.n ≠ c.nvalues then c.begin .write else c.clearLoop

def enterWrite (lockVersion : VersionType) : Client :=
  { c with lockVersion := lockVersion, n := 0 }.writeLoop

def next (phase : Phase) : Client := { c with n := c.n + 1, pc := .pause phase }

def throw (phase : Phase) (errcode : Errc) : Client := { c with pc := .thrown phase errcode }

/-- Pick a group, a value and a sequence length, and begin to lock. -/
def choose (cid gid nvalues : Nat) (hex : Str) : Client :=
  { c with gid := gid, value := clientKeyPrefix cid ++ hex, nvalues := nvalues,
           lockVersion := 0, n := 0 }.begin .lock

def lockResponse (cid : Nat) (resp : ModResponse) : Client :=
  if resp.errcode = .ok then c.enterWrite resp.version
  else if resp.errcode ≠ .noMatch then c.throw .lock resp.errcode
  -- an earlier CAS succeeded, but the reply was lost
  else if resp.actual = c.value ∧ 0 < c.tries then c.enterWrite resp.version
  -- must not be waiting for ourselves
  else if (clientKeyPrefix cid).isPrefixOf resp.actual = false then c.throw .lock .noMatch
  else { c with pc := .pause .lock }

def writeResponse (resp : ModResponse) : Client :=
  if resp.errcode ≠ .ok then c.throw .write resp.errcode else c.next .write

def clearResponse (resp : ModResponse) : Client :=
  if resp.errcode = .ok then c.next .clear
  else if resp.errcode ≠ .notFound then c.throw .clear resp.errcode
  else if c.tries = 0 then c.begin .unlock
  else c.next .clear

def unlockResponse (resp : ModResponse) : Client :=
  if resp.errcode ≠ .ok ∧ c.tries = 0 then c.throw .unlock resp.errcode else { c with pc := .delay }

/-- A response with the serial of the request.  One of another type counts as a
timeout. -/
def receive (cid : Nat) (phase : Phase) (resp : Response) : Client :=
  match phase, resp with
  | .lock, .cas resp => c.lockResponse cid resp
  | .write, .put resp => c.writeResponse resp
  | .clear, .remove resp => c.clearResponse resp
  | .unlock, .remove resp => c.unlockResponse resp
  | phase, _ => c.retry phase

/-- The end of a delay inside a phase. -/
def resume : Phase → Client
  | .lock => c.retry .lock
  | .write => c.writeLoop
  | .clear => c.clearLoop
  | .unlock => c

end Client

structure State (nclients : Nat) where
  clients : Fin nclients → Client
  requests : Fin nclients → List Request
  responses : List Response
  db : Pancydb
  loops : Nat
  returned : Bool

inductive Label (nclients : Nat) where
  /-- the delay ends; the client picks a group, a sequence length and hex digits -/
  | choose (cid : Fin nclients) (gid nvalues : Nat) (hex : Str)
  | send (cid : Fin nclients)
  | timeout (cid : Fin nclients)
  /-- the client receives response number `k` -/
  | receive (cid : Fin nclients) (k : Nat)
  | resume (cid : Fin nclients)
  /-- the server processes the head of the client's queue -/
  | serve (cid : Fin nclients)
  | loseRequest (cid : Fin nclients) (k : Nat)
  | loseResponse (k : Nat)

def checkPeriod : Nat := 2 ^ 20

def isHexDigit (ch : Char) : Bool := ch.isDigit || (decide ('a' ≤ ch) && decide (ch ≤ 'f'))

/-- What `uniform` and `uniform_hex(7)` return. -/
def Choice (gid nvalues : Nat) (hex : Str) : Prop :=
  gid < ngroups ∧ 1 ≤ nvalues ∧ nvalues ≤ maxSequenceLength ∧ hex.length = 7 ∧
    hex.all isHexDigit = true

instance (gid nvalues : Nat) (hex : Str) : Decidable (Choice gid nvalues hex) :=
  inferInstanceAs (Decidable (_ ∧ _))

namespace State

variable {nclients : Nat} (s : State nclients)

def setClient (cid : Fin nclients) (c : Client) : State nclients :=
  { s with clients := Function.update s.clients cid c }

@[simp] theorem setClient_self (cid : Fin nclients) (c : Client) :
    (s.setClient cid c).clients cid = c := Function.update_self ..

@[simp] theorem setClient_setClient (cid : Fin nclients) (c c' : Client) :
    (s.setClient cid c).setClient cid c' = s.setClient cid c' := by
  simp only [setClient, Function.update_idem]

/-- The server processes `req` and responds, and checks the database now and then. -/
def serve (cid : Fin nclients) (req : Request) (rest : List Request) : State nclients :=
  let r := s.db.processReq req
  let loops := s.loops + 1
  { s with requests := Function.update s.requests cid rest, responses := s.responses ++ [r.2],
           db := r.1, loops := loops,
           returned := decide (loops % checkPeriod = 0) && (check r.1).isSome }

end State

def step {nclients : Nat} (s : State nclients) : Label nclients → Option (State nclients)
  | .choose cid gid nvalues hex =>
    if (s.clients cid).pc = .delay ∧ Choice gid nvalues hex then
      some (s.setClient cid ((s.clients cid).choose cid gid nvalues hex))
    else none
  | .send cid =>
    match (s.clients cid).pc with
    | .send phase =>
      some { s.setClient cid { s.clients cid with pc := .wait phase } with
        requests := Function.update s.requests cid
          (s.requests cid ++ [(s.clients cid).request phase]) }
    | _ => none
  | .timeout cid =>
    match (s.clients cid).pc with
    | .wait phase => some (s.setClient cid ((s.clients cid).retry phase))
    | _ => none
  | .receive cid k =>
    match (s.clients cid).pc, s.responses[k]? with
    | .wait phase, some resp =>
      if resp.serial % maxClients ≠ cid then none
      else
        let s := { s with responses := s.responses.eraseIdx k }
        if resp.serial ≠ (s.clients cid).serial then some s
        else some (s.setClient cid ((s.clients cid).receive cid phase resp))
    | _, _ => none
  | .resume cid =>
    match (s.clients cid).pc with
    | .pause phase => some (s.setClient cid ((s.clients cid).resume phase))
    | _ => none
  | .serve cid =>
    match s.requests cid with
    | req :: rest => if s.returned then none else some (s.serve cid req rest)
    | [] => none
  | .loseRequest cid k =>
    some { s with requests := Function.update s.requests cid ((s.requests cid).eraseIdx k) }
  | .loseResponse k => some { s with responses := s.responses.eraseIdx k }

/-- What a step can do, and when. -/
inductive Stepped {nclients : Nat} (s : State nclients) : Label nclients → State nclients → Prop
  | choose {cid gid nvalues hex} (hpc : (s.clients cid).pc = .delay)
      (hchoice : Choice gid nvalues hex) :
      Stepped s (.choose cid gid nvalues hex)
        (s.setClient cid ((s.clients cid).choose cid gid nvalues hex))
  | send {cid phase} (hpc : (s.clients cid).pc = .send phase) :
      Stepped s (.send cid) { s.setClient cid { s.clients cid with pc := .wait phase } with
        requests := Function.update s.requests cid
          (s.requests cid ++ [(s.clients cid).request phase]) }
  | timeout {cid phase} (hpc : (s.clients cid).pc = .wait phase) :
      Stepped s (.timeout cid) (s.setClient cid ((s.clients cid).retry phase))
  | ignore {cid : Fin nclients} {k resp} (hk : s.responses[k]? = some resp)
      (hserial : resp.serial ≠ (s.clients cid).serial) :
      Stepped s (.receive cid k) { s with responses := s.responses.eraseIdx k }
  | receive {cid phase k resp} (hpc : (s.clients cid).pc = .wait phase)
      (hk : s.responses[k]? = some resp) (hserial : resp.serial = (s.clients cid).serial) :
      Stepped s (.receive cid k) ({ s with responses := s.responses.eraseIdx k }.setClient cid
        ((s.clients cid).receive cid phase resp))
  | resume {cid phase} (hpc : (s.clients cid).pc = .pause phase) :
      Stepped s (.resume cid) (s.setClient cid ((s.clients cid).resume phase))
  | serve {cid req rest} (hq : s.requests cid = req :: rest) (hreturned : s.returned = false) :
      Stepped s (.serve cid) (s.serve cid req rest)
  | loseRequest (cid : Fin nclients) (k : Nat) :
      Stepped s (.loseRequest cid k)
        { s with requests := Function.update s.requests cid ((s.requests cid).eraseIdx k) }
  | loseResponse (k : Nat) :
      Stepped s (.loseResponse k) { s with responses := s.responses.eraseIdx k }

theorem step_stepped {nclients : Nat} {s s' : State nclients} {a : Label nclients}
    (h : step s a = some s') : Stepped s a s' := by
  cases a with
  | choose cid gid nvalues hex =>
    simp only [step, Option.ite_none_right_eq_some, Option.some.injEq] at h
    obtain ⟨⟨hpc, hchoice⟩, rfl⟩ := h
    exact .choose hpc hchoice
  | send cid =>
    simp only [step] at h
    split at h
    · rename_i phase hpc
      obtain rfl := Option.some.inj h
      exact .send hpc
    · cases h
  | timeout cid =>
    simp only [step] at h
    split at h
    · rename_i phase hpc
      obtain rfl := Option.some.inj h
      exact .timeout hpc
    · cases h
  | receive cid k =>
    simp only [step] at h
    split at h
    · rename_i phase resp hpc hk
      split at h
      · cases h
      · split at h
        · rename_i hserial
          obtain rfl := Option.some.inj h
          exact .ignore hk hserial
        · rename_i hserial
          obtain rfl := Option.some.inj h
          exact .receive hpc hk (not_not.1 hserial)
    · cases h
  | resume cid =>
    simp only [step] at h
    split at h
    · rename_i phase hpc
      obtain rfl := Option.some.inj h
      exact .resume hpc
    · cases h
  | serve cid =>
    simp only [step] at h
    split at h
    · rename_i req rest hq
      split at h
      · cases h
      · rename_i hreturned
        obtain rfl := Option.some.inj h
        exact .serve hq (Bool.eq_false_iff.2 hreturned)
    · cases h
  | loseRequest cid k =>
    obtain rfl := Option.some.inj h
    exact .loseRequest cid k
  | loseResponse k =>
    obtain rfl := Option.some.inj h
    exact .loseResponse k

/-- `start()`. -/
def start (nclients : Nat) : State nclients where
  clients cid := { serial := cid }
  requests _ := []
  responses := []
  db := {}
  loops := 0
  returned := false

/-- The runs of the clients against one server.  `set_nclients` refuses more than
`max_clients()` of them. -/
def system (nclients : Nat) : Transition.Machine (State nclients) (Label nclients) where
  init s := nclients ≤ maxClients ∧ s = start nclients
  step := step

end LockSeq
end Psets
