/-
`cotamer::mutex` and the tickets its callers hold.

The state of a mutex is one 32-bit word and a queue of waiters.  Each call runs
as one atomic step, so `mf_latch` is clear between steps and acquiring it never
spins.  A waiter is an event in the queue together with the `notify` pointer of
the call that made it; it is live while a listener or a `mutex_event` still
refers to the event, and a cancelled waiter stays in the queue until it reaches
the front.

Around the mutex stand the tickets.  A call to `lock` or `lock_shared` makes a
ticket, which waits, or is granted the lock and then claims it when its task
resumes.  A `unique_lock` or `shared_lock` that waits through its own `lock`
passes its `owned_` flag as `notify`: it gives the lock back when it is
destroyed, claimed or not.  Holders, grants and ticket numbers are history: the
mutex never reads them.
-/
import Mathlib.Data.List.Basic
import Mathlib.Data.List.Perm.Basic
import Psets.Transition.Machine

namespace Psets
namespace Cotamer
namespace Mutex

/-! ## The latch word -/

abbrev LatchType := BitVec 32

def mfLatch : LatchType := 1
def mfNextExcl : LatchType := 2
def mfNextShared : LatchType := 4
def mfmNext : LatchType := 6
def mfLockExcl : LatchType := 8
def mfLockShared : LatchType := 16

/-- What one lock adds to the word. -/
def lockAmount (isShared : Bool) : LatchType := if isShared then mfLockShared else mfLockExcl

/-- An entry of `waiters_`. -/
structure Waiter where
  id : Nat
  shared : Bool
  notify : Bool
  live : Bool := true
  deriving DecidableEq, Repr

end Mutex

structure Mutex where
  word : Mutex.LatchType := 0
  waiters : List Mutex.Waiter := []
  deriving DecidableEq, Repr

namespace Mutex

def allow (isShared : Bool) (l : LatchType) : Bool :=
  if isShared then l &&& mfLockExcl == 0 else decide (l < mfLockExcl)

/-- The word `latch()` returns. -/
def latch (m : Mutex) : LatchType := m.word &&& ~~~mfmNext

/-- The word `unlatch(l)` stores. -/
def unlatch (waiters : List Waiter) (l : LatchType) : Mutex :=
  match waiters with
  | [] => { word := l, waiters := [] }
  | w :: rest =>
    { word := l + (if w.shared then mfNextShared else mfNextExcl), waiters := w :: rest }

/-- The loop of `notify_locked`: the waiters it leaves, the word it returns and
the waiters it grants.  `trigger` on the event of a live waiter succeeds. -/
def notifyLocked : List Waiter → LatchType → List Waiter × LatchType × List Waiter
  | [], l => ([], l, [])
  | fw :: rest, l =>
    if fw.live then
      if !allow fw.shared l then (fw :: rest, l, [])
      else
        let r := notifyLocked rest (l + lockAmount fw.shared)
        (r.1, r.2.1, fw :: r.2.2)
    else notifyLocked rest l

/-- `lock_impl` for the new ticket `w`. -/
def lockImpl (m : Mutex) (w : Waiter) : Mutex × List Waiter :=
  let r := notifyLocked m.waiters m.latch
  if r.1.isEmpty && allow w.shared r.2.1 then
    (unlatch [] (r.2.1 + lockAmount w.shared), r.2.2 ++ [w])
  else
    (unlatch (r.1 ++ [w]) r.2.1, r.2.2)

def unlockImpl (m : Mutex) (isShared : Bool) : Mutex × List Waiter :=
  let r := notifyLocked m.waiters (m.latch - lockAmount isShared)
  (unlatch r.1 r.2.1, r.2.2)

def tryLock (m : Mutex) : Option Mutex :=
  if m.word = 0 then some { m with word := mfLockExcl } else none

def tryLockShared (m : Mutex) : Option Mutex :=
  if m.word &&& (mfLatch ||| mfmNext ||| mfLockExcl) ≠ 0 then none
  else some { m with word := m.word + mfLockShared }

/-- The fast path of `unlock`: not latched, no waiter. -/
def unlockFast (m : Mutex) : Option Mutex :=
  if m.word &&& (mfLatch ||| mfmNext) = 0 then some { m with word := m.word - mfLockExcl }
  else none

/-- The fast path of `unlock_shared`: not latched, no shared waiter, and either
no exclusive waiter or the shared lock is still held. -/
def unlockSharedFast (m : Mutex) : Option Mutex :=
  if m.word &&& (mfLatch ||| mfNextShared) = 0 ∧
      (m.word &&& mfNextExcl = 0 ∨ 2 * mfLockShared ≤ m.word) then
    some { m with word := m.word - mfLockShared }
  else none

def fastPath (m : Mutex) (isShared : Bool) : Option Mutex :=
  if isShared then m.unlockSharedFast else m.unlockFast

/-- `unlock_shared` or `unlock`. -/
def unlock (m : Mutex) (isShared : Bool) : Mutex × List Waiter :=
  match m.fastPath isShared with
  | some m => (m, [])
  | none => m.unlockImpl isShared

/-- `try_lock_shared` or `try_lock`. -/
def tryLockAny (m : Mutex) (isShared : Bool) : Option Mutex :=
  if isShared then m.tryLockShared else m.tryLock

/-! ## Tickets -/

/-- A lock that was granted and not given back. -/
structure Holder where
  id : Nat
  shared : Bool
  notify : Bool
  claimed : Bool
  deriving DecidableEq, Repr

structure State where
  mutex : Mutex := {}
  holders : List Holder := []
  /-- the tickets granted so far, in order -/
  grants : List Nat := []
  nextId : Nat := 0
  deriving DecidableEq, Repr

namespace State

def grant (s : State) (ws : List Waiter) : State :=
  { s with
    holders := s.holders ++ ws.map fun w => ⟨w.id, w.shared, w.notify, false⟩
    grants := s.grants ++ ws.map Waiter.id }

/-- The owner of `h` gives its lock back. -/
def release (s : State) (h : Holder) : State :=
  let r := s.mutex.unlock h.shared
  { s with mutex := r.1, holders := s.holders.erase h }.grant r.2

def holder? (s : State) (id : Nat) : Option Holder := s.holders.find? fun h => h.id == id

end State

inductive Op where
  /-- `lock` or `lock_shared`, with or without a `notify` flag -/
  | lock (shared notify : Bool)
  /-- `try_lock` or `try_lock_shared` -/
  | tryLock (shared : Bool)
  /-- `unlock` or `unlock_shared` by the holder `id` -/
  | unlock (id : Nat)
  /-- the waiting ticket `id` is destroyed -/
  | cancel (id : Nat)
  /-- the task of the granted ticket `id` resumes -/
  | claim (id : Nat)
  /-- the granted ticket `id` is destroyed before it was claimed -/
  | destroy (id : Nat)
  deriving DecidableEq, Repr

def step (s : State) : Op → Option State
  | .lock shared notify =>
    let r := s.mutex.lockImpl { id := s.nextId, shared := shared, notify := notify }
    some ({ s with mutex := r.1, nextId := s.nextId + 1 }.grant r.2)
  | .tryLock shared =>
    match s.mutex.tryLockAny shared with
    | some m =>
      some { mutex := m, holders := s.holders ++ [⟨s.nextId, shared, false, true⟩],
             grants := s.grants ++ [s.nextId], nextId := s.nextId + 1 }
    | none => some { s with nextId := s.nextId + 1 }
  | .unlock id => (s.holder? id).map s.release
  | .cancel id =>
    if s.mutex.waiters.any fun w => w.id == id && w.live then
      let waiters := s.mutex.waiters.map fun w =>
        if w.id = id then { w with live := false } else w
      some { s with mutex := { s.mutex with waiters := waiters } }
    else none
  | .claim id =>
    (s.holder? id).map fun h =>
      { s with holders := s.holders.map fun h' => if h' = h then { h with claimed := true } else h' }
  | .destroy id =>
    (s.holder? id).bind fun h =>
      if h.claimed then none
      else if h.notify then some (s.release h)
      else some { s with holders := s.holders.erase h }

/-- The runs of one mutex. -/
def system : Transition.Machine State Op where
  init s := s = {}
  step := step

end Mutex
end Cotamer
end Psets
