/-
What ties the clients to the database.

A client's queue is a block of requests that can do no more harm followed by copies
of its current one.  While a client owns a lock its phase and its index give the
shape of the group: its own values, a gap, and what the previous owner left.  A
current request that was processed has moved the shape one step ahead of the
client, and every response to it says so.
-/
import Psets.LockSeq.Client

namespace Psets
namespace LockSeq

open Pancy

/-! ## The shape of a group -/

/-- The values of the owner below `m`, nothing up to `j`, and then the rest of the
previous sequence. -/
def Shape (vals : Nat → Option Str) (value : Str) (m j : Nat) : Prop :=
  ∃ (o : Str) (k : Nat), o ≠ [] ∧ k ≤ maxSequenceLength ∧
    ∀ v, vals v =
      if v < m then some value else if v < j then none else if v < k then some o else none

section Shape

variable {vals : Nat → Option Str} {value : Str} {m j n v : Nat}

theorem Shape.own (h : Shape vals value m j) (hv : v < m) : vals v = some value := by
  obtain ⟨o, k, _, _, h⟩ := h
  rw [h, if_pos hv]

theorem Shape.gap (h : Shape vals value m j) (hm : m ≤ v) (hj : v < j) : vals v = none := by
  obtain ⟨o, k, _, _, h⟩ := h
  rw [h, if_neg (Nat.not_lt.2 hm), if_pos hj]

/-- With no value of the owner there, its name is irrelevant. -/
theorem Shape.rename (h : Shape vals value 0 0) (value' : Str) : Shape vals value' 0 0 := by
  obtain ⟨o, k, ho, hk, h⟩ := h
  exact ⟨o, k, ho, hk, h⟩

theorem Shape.write (h : Shape vals value n n) :
    Shape (Function.update vals n (some value)) value (n + 1) (n + 1) := by
  obtain ⟨o, k, ho, hk, h⟩ := h
  refine ⟨o, k, ho, hk, fun v => ?_⟩
  by_cases hv : v = n
  · subst hv
    rw [Function.update_self, if_pos (Nat.lt_succ_self v)]
  · rw [Function.update_of_ne hv, h]
    by_cases hlt : v < n
    · rw [if_pos hlt, if_pos (by omega)]
    · have hlt' : ¬ v < n + 1 := by omega
      rw [if_neg hlt, if_neg hlt, if_neg hlt', if_neg hlt']

theorem Shape.clear (h : Shape vals value m n) (hm : m ≤ n) :
    Shape (Function.update vals n none) value m (n + 1) := by
  obtain ⟨o, k, ho, hk, h⟩ := h
  refine ⟨o, k, ho, hk, fun v => ?_⟩
  by_cases hv : v = n
  · subst hv
    rw [Function.update_self, if_neg (Nat.not_lt.2 hm), if_pos (Nat.lt_succ_self v)]
  · rw [Function.update_of_ne hv, h]
    by_cases hlt : v < n
    · rw [if_pos hlt, if_pos (by omega : v < n + 1)]
    · rw [if_neg hlt, if_neg (by omega : ¬ v < n + 1)]

/-- Where nothing follows the gap, it may be taken to be longer. -/
theorem Shape.of_absent (h : Shape vals value m n) (hm : m ≤ n) (hn : vals n = none)
    (hj : n ≤ j) : Shape vals value m j := by
  obtain ⟨o, k, ho, hk, h⟩ := h
  have hkn : k ≤ n := by
    by_contra hlt
    rw [h, if_neg (Nat.not_lt.2 hm), if_neg (Nat.lt_irrefl n), if_pos (by omega)] at hn
    exact absurd hn (by simp)
  refine ⟨o, k, ho, hk, fun v => ?_⟩
  rw [h]
  by_cases h1 : v < n
  · rw [if_pos h1, if_pos (by omega : v < j)]
  · rw [if_neg h1, if_neg (by omega : ¬ v < k), ite_self]

/-- A group that was cleared to the end holds one sequence. -/
theorem Shape.cleared (h : Shape vals value m maxSequenceLength) (hm : m ≤ maxSequenceLength)
    (hv : value ≠ []) : Shape vals [] 0 0 := by
  obtain ⟨o, k, _, hk, h⟩ := h
  refine ⟨value, m, hv, hm, fun v => ?_⟩
  rw [h, if_neg (Nat.not_lt_zero v), if_neg (Nat.not_lt_zero v)]
  by_cases h1 : v < m
  · rw [if_pos h1, if_pos h1]
  · rw [if_neg h1, if_neg h1]
    by_cases h2 : v < maxSequenceLength
    · rw [if_pos h2]
    · rw [if_neg h2, if_neg (by omega)]

end Shape

/-! ## Clients -/

namespace Client

def phase (c : Client) : Option Phase :=
  match c.pc with
  | .delay => none
  | .send phase | .wait phase | .pause phase | .thrown phase _ => some phase

/-- The phase whose request is current.  After a response of the write or the clear
phase there is none; a client that gave up still has its last one. -/
def active (c : Client) : Option Phase :=
  match c.pc with
  | .send phase | .wait phase | .thrown phase _ => some phase
  | .pause .lock => some .lock
  | .delay | .pause _ => none

/-- How often the current request was sent, while `tries` does not wrap around. -/
def sent (c : Client) : Nat :=
  match c.pc with
  | .send _ => c.tries
  | _ => c.tries + 1

end Client

/-- The version is in no lock of the group, and never will be. -/
def Stale (t : Table) (g : Nat) (version : VersionType) : Prop :=
  0 ≤ version ∧ version < t.next ∧ ∀ vv, t.lock g = some vv → vv.version ≠ version

def Owns (t : Table) (c : Client) (version : VersionType) : Prop :=
  t.lock c.gid = some ⟨c.value, version⟩

/-- A request of `c` that changes nothing when it is processed. -/
inductive Harmless (t : Table) (c : Client) : Request → Prop where
  | lock {serial : Nat} {version : VersionType} : Owns t c version → c.value ≠ [] →
      Harmless t c (lockRequest serial c.gid c.value)
  | write {serial v : Nat} {version : VersionType} : Owns t c version → v < c.nvalues →
      t.vals c.gid v = some c.value → Harmless t c (writeRequest serial c.gid v c.value)
  | clear {serial v : Nat} {version : VersionType} : Owns t c version → c.nvalues ≤ v →
      t.vals c.gid v = none → Harmless t c (clearRequest serial c.gid v)
  | unlock {serial g : Nat} {version : VersionType} : Stale t g version →
      Harmless t c (unlockRequest serial g version)

/-- What holds while a request is current of which `count` copies are queued. -/
def InPhase (t : Table) (c : Client) (count : Nat) : Phase → Prop
  | .lock => True
  | .write => Owns t c c.lockVersion ∧ c.n < c.nvalues ∧
      (Shape (t.vals c.gid) c.value c.n c.n ∨
        Shape (t.vals c.gid) c.value (c.n + 1) (c.n + 1))
  | .clear => Owns t c c.lockVersion ∧ c.nvalues ≤ c.n ∧ c.n < maxSequenceLength ∧
      (Shape (t.vals c.gid) c.value c.nvalues c.n ∧ count ≤ c.sent ∨
        Shape (t.vals c.gid) c.value c.nvalues (c.n + 1) ∧ count < c.sent)
  | .unlock => Owns t c c.lockVersion ∧
        Shape (t.vals c.gid) c.value c.nvalues maxSequenceLength ∧ count ≤ c.sent ∨
      Stale t c.gid c.lockVersion ∧ count < c.sent

/-- What holds in the delay after a response. -/
def Between (t : Table) (c : Client) : Phase → Prop
  | .lock => True
  | .write => Owns t c c.lockVersion ∧ c.n ≤ c.nvalues ∧ Shape (t.vals c.gid) c.value c.n c.n
  | .clear => Owns t c c.lockVersion ∧ c.nvalues ≤ c.n ∧ c.n ≤ maxSequenceLength ∧
      Shape (t.vals c.gid) c.value c.nvalues c.n
  | .unlock => False

def Progress (t : Table) (c : Client) (count : Nat) : Prop :=
  match c.pc with
  | .delay => True
  | .send phase | .wait phase | .thrown phase _ => InPhase t c count phase
  | .pause phase => Between t c phase

/-- What a response to the current request tells. -/
def ReplyOk (t : Table) (c : Client) (resp : Response) : Phase → Prop
  | .lock => ∃ m, resp = .cas m ∧ (m.errcode = .ok ∨ m.errcode = .noMatch) ∧
      (m.errcode = .ok ∨ m.actual = c.value → Owns t c m.version)
  | .write => ∃ m, resp = .put m ∧ m.errcode = .ok ∧
      Shape (t.vals c.gid) c.value (c.n + 1) (c.n + 1)
  | .clear => ∃ m, resp = .remove m ∧ Shape (t.vals c.gid) c.value c.nvalues (c.n + 1) ∧
      (m.errcode = .ok ∨ m.errcode = .notFound ∧
        (0 < c.tries ∨ Shape (t.vals c.gid) c.value c.nvalues maxSequenceLength))
  | .unlock => ∃ m, resp = .remove m ∧ Stale t c.gid c.lockVersion ∧
      (m.errcode = .ok ∨ 0 < c.tries)

/-- What a client has chosen for the sequence it is writing. -/
structure Chosen (i : Nat) (c : Client) : Prop where
  gid : c.gid < ngroups
  named : clientKeyPrefix i <+: c.value
  long : 4 ≤ c.value.length
  nvalues : 1 ≤ c.nvalues ∧ c.nvalues ≤ maxSequenceLength

/-- Client `i` with the harmless requests `olds` and the copies `news` of its current
request in its queue. -/
structure ClientOk (t : Table) (i : Nat) (c : Client) (olds news : List Request)
    (responses : List Response) : Prop where
  serial : c.serial % maxClients = i
  named : c.value = [] ∨ clientKeyPrefix i <+: c.value
  chosen : c.pc ≠ .delay → Chosen i c
  harmless : ∀ req ∈ olds, Harmless t c req ∧ req.serial % maxClients = i ∧
    req.serial ≤ c.serial ∧ (c.active ≠ none → req.serial < c.serial)
  current : ∀ req ∈ news, ∃ phase, c.active = some phase ∧ req = c.request phase
  progress : Progress t c news.length
  replies : ∀ resp ∈ responses, resp.serial % maxClients = i → resp.serial ≤ c.serial ∧
    (resp.serial = c.serial → ∀ phase, c.active = some phase → ReplyOk t c resp phase)

/-! ## Groups -/

/-- The lock of `g` holds the value of `c`. -/
structure Owner (t : Table) (c : Client) (g : Nat) (vv : Vv) : Prop where
  gid : c.gid = g
  value : c.value = vv.value
  phase : c.phase = some .lock ∧ Shape (t.vals g) [] 0 0 ∨
    (∃ phase, c.phase = some phase ∧ phase ≠ .lock) ∧ vv.version = c.lockVersion

def GroupOk {nclients : Nat} (t : Table) (clients : Fin nclients → Client) (g : Nat) : Prop :=
  match t.lock g with
  | none => Shape (t.vals g) [] 0 0
  | some vv => ∃ i, Owner t (clients i) g vv

/-- A key that a client writes. -/
def ClientKey (key : Str) : Prop :=
  ∃ g < ngroups, key = makeLockKey g ∨ ∃ v, key = makeValueKey g v

structure TableOk (db : Pancydb) : Prop where
  keys : ∀ key vv, db.db.find? key = some vv → ClientKey key
  next : 0 < (table db).next
  versions : ∀ g vv, (table db).lock g = some vv → 0 < vv.version ∧ vv.version < (table db).next

structure Inv {nclients : Nat} (olds news : Fin nclients → List Request) (s : State nclients) :
    Prop where
  requests : ∀ i, s.requests i = olds i ++ news i
  clients : ∀ i : Fin nclients, ClientOk (table s.db) i (s.clients i) (olds i) (news i) s.responses
  groups : ∀ g, GroupOk (table s.db) s.clients g
  tableOk : TableOk s.db

end LockSeq
end Psets
