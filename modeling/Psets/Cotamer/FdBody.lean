/-
The body of a file descriptor: `fd_body`.

The body counts the strong references to it and lists the drivers that have it registered.
What a call does under the lock of the body is one step, and so is each load or change of a
counter outside it; what is left to do after the lock is released is done piece by piece.
A driver is a number here, and so is an event; the count of the references is a natural
number.  A driver that was destroyed is not called again: there is no step that does so.
-/
import Psets.Containers.SwapErase
import Psets.Cotamer.WatchMap

namespace Psets
namespace Cotamer

open Transition Containers FdEvents

/-- `fd_body`; `none` stands for a negative file descriptor. -/
structure FdBody where
  fd : Option Nat
  baseFd : Option Nat
  ref : Nat := 1
  drivers : List Nat := []
deriving DecidableEq, Repr

namespace FdBody

/-- What is left to do when the lock is released. -/
inductive Act where
  /-- `::close(fd)` -/
  | closeOs (fd : Nat)
  /-- `notify_close` on the driver of the thread, `migrate_fd_close` on another one -/
  | notifyClose (baseFd driver : Nat)
  /-- `delete this` -/
  | delete
deriving DecidableEq, Repr

def addListener (b : FdBody) (d : Nat) : FdBody := { b with drivers := b.drivers ++ [d] }

def removeListener (b : FdBody) (d : Nat) : FdBody × List Act :=
  let b := { b with drivers := swapErase d b.drivers }
  if b.drivers ≠ [] then (b, [])
  else
    let deletable := b.ref = 0
    let closable := if b.fd = none then b.baseFd else none
    ({ b with baseFd := if closable ≠ none then none else b.baseFd },
      (closable.map Act.closeOs).toList ++ if deletable then [.delete] else [])

/-- The part of `close` under the lock, and what is left of it. -/
def close (b : FdBody) (becauseDeref : Bool) : FdBody × List Act :=
  let drivers := if b.fd ≠ none then b.drivers else []
  let baseFd := if b.fd ≠ none then b.baseFd else none
  let deletable := becauseDeref ∧ b.drivers = []
  ({ b with
      fd := none
      baseFd := if baseFd ≠ none ∧ drivers = [] then none else b.baseFd
      ref := if becauseDeref then b.ref - 1 else b.ref },
    (match baseFd with
      | none => []
      | some fd => if drivers = [] then [.closeOs fd] else drivers.map (.notifyClose fd)) ++
    if deletable then [.delete] else [])

/-! ## Threads and drivers -/

/-- A call that is under way, on the thread of a driver. -/
inductive Task where
  /-- `deref`, which has read the counter -/
  | deref (me loaded : Nat)
  /-- `file_event`, which has read `fileno()` and found the file open -/
  | watch (me : Nat) (mask : Fdevent) (ev : Nat)
  /-- a call that has released the lock -/
  | rest (me : Nat) (acts : List Act)
  /-- a driver that has taken watches and triggers their events -/
  | taken (me : Nat) (evs : List Nat)
deriving DecidableEq, Repr

def Task.me : Task → Nat
  | .deref me _ => me
  | .watch me _ _ => me
  | .rest me _ => me
  | .taken me _ => me

def Task.acts : Task → List Act
  | .rest _ acts => acts
  | _ => []

def Task.evs : Task → List Nat
  | .taken _ evs => evs
  | _ => []

/-- The counter as a `deref` has read it. -/
def Task.loaded : Task → List Nat
  | .deref _ loaded => [loaded]
  | _ => []

def Task.isWatch : Task → Bool
  | .watch .. => true
  | _ => false

/-- A body, its handles, and its file on the drivers. -/
structure Life where
  body : FdBody
  /-- the handles that no `deref` has begun to drop -/
  held : Nat := 1
  tasks : List Task := []
  /-- the watches of each driver that has the body registered -/
  watches : Nat → Option (List Watch) := fun _ => none
  /-- how often the file is in `migrate_fd_close_` -/
  migrateFdClose : Nat → Nat := fun _ => 0
  destroyed : List Nat := []
  osCloses : Nat := 0
  deletes : Nat := 0
  /-- the events that `watch` has returned -/
  returned : List Nat := []
  triggered : List Nat := []
  /-- the events that only the watches refer to -/
  released : List Nat := []
  /-- the events that went with their driver, untriggered -/
  freed : List Nat := []

namespace Life

/-- `new fd_body(raw)`, with its first handle. -/
def start (raw : Nat) : Life where
  body := { fd := some raw, baseFd := some raw }

/-- `fd_close` and, if there was something to close, `remove_listener`. -/
def fdClose (s : Life) (d : Nat) : Life × List Act :=
  match s.watches d with
  | none => (s, [])
  | some ws =>
    if s.body.fd = none then
      let (body, acts) := s.body.removeListener d
      ({ s with
          body
          watches := Function.update s.watches d none
          triggered := ws.map Watch.ev ++ s.triggered }, acts)
    else (s, [])

/-- The part of `watch` behind `fileno()`. -/
def install (s : Life) (d : Nat) (mask : Fdevent) (ev : Nat) : Life :=
  { s with
    body := if s.watches d = none then s.body.addListener d else s.body
    watches := Function.update s.watches d (some ((s.watches d).getD [] ++ [⟨ev, mask⟩]))
    returned := ev :: s.returned }

/-- The next piece of a call, which is off the list of tasks already. -/
def advance (s : Life) : Task → Option Life
  | .deref me loaded =>
    if loaded = 1 then
      let (body, acts) := s.body.close true
      some { s with body, tasks := .rest me acts :: s.tasks }
    else some { s with body := { s.body with ref := s.body.ref - 1 } }
  | .watch me mask ev => some (s.install me mask ev)
  | .rest _ [] => some s
  | .rest me (.closeOs _ :: acts) =>
    some { s with osCloses := s.osCloses + 1, tasks := .rest me acts :: s.tasks }
  | .rest me (.notifyClose _ d :: acts) =>
    if d ∈ s.destroyed then none
    else if d = me then
      let (s, more) := s.fdClose d
      some { s with tasks := .rest me (more ++ acts) :: s.tasks }
    else
      some { s with
        migrateFdClose := Function.update s.migrateFdClose d (s.migrateFdClose d + 1)
        tasks := .rest me acts :: s.tasks }
  | .rest me (.delete :: acts) =>
    -- `~fd_body` closes what is not closed yet
    some { s with
      deletes := s.deletes + 1
      osCloses := if s.body.baseFd ≠ none then s.osCloses + 1 else s.osCloses
      tasks := .rest me acts :: s.tasks }
  | .taken _ [] => some s
  | .taken me (ev :: evs) =>
    some { s with triggered := ev :: s.triggered, tasks := .taken me evs :: s.tasks }

/-- The events that can be collected. -/
def empty (s : Life) : List Nat := s.triggered ++ s.released

inductive Label where
  | ref
  | deref (me : Nat)
  /-- `fd::close` -/
  | close (me : Nat)
  | watch (me : Nat) (mask : Fdevent) (ev : Nat)
  | advance (t : Task)
  /-- `finish_migrate` takes one file -/
  | finishMigrate (d : Nat)
  /-- `fd_close` for another body: it had the same file, or it has now -/
  | fdClose (d : Nat)
  /-- events of the kernel, or `process_clearing` -/
  | takeWatchList (d : Nat) (imask : Fdevent)
  /-- the last handle of the event goes -/
  | release (ev : Nat)
  /-- the end of `~driver` -/
  | destroy (d : Nat)
deriving DecidableEq, Repr

/-- The calls of the holders need a handle, and the last one stays while there is a watch
under way. -/
def step (s : Life) : Label → Option Life
  | .ref =>
    if s.held = 0 then none
    else some { s with body := { s.body with ref := s.body.ref + 1 }, held := s.held + 1 }
  | .deref me =>
    if s.held = 0 ∨ s.held = 1 ∧ s.tasks.any Task.isWatch then none
    else some { s with held := s.held - 1, tasks := .deref me s.body.ref :: s.tasks }
  | .close me =>
    if s.held = 0 then none
    else
      let (body, acts) := s.body.close false
      some { s with body, tasks := .rest me acts :: s.tasks }
  | .watch me mask ev =>
    if s.held = 0 ∨ me ∈ s.destroyed ∨ ev ∈ s.returned then none
    else if s.body.fd = none ∨ mask = Fdevent.none then
      some { s with returned := ev :: s.returned }
    else some { s with tasks := .watch me mask ev :: s.tasks }
  | .advance t => if t ∈ s.tasks then advance { s with tasks := s.tasks.erase t } t else none
  | .finishMigrate d =>
    if s.migrateFdClose d = 0 then none
    else
      let s := { s with
        migrateFdClose := Function.update s.migrateFdClose d (s.migrateFdClose d - 1) }
      let (s, acts) := s.fdClose d
      some { s with tasks := .rest d acts :: s.tasks }
  | .fdClose d =>
    if d ∈ s.destroyed then none
    else
      let (s, acts) := s.fdClose d
      some { s with tasks := .rest d acts :: s.tasks }
  | .takeWatchList d imask =>
    match s.watches d with
    | none => some s
    | some ws =>
      let taken := ws.filter (WatchMap.hit imask s.empty)
      let kept := ws.filter fun w => !WatchMap.hit imask s.empty w
      some { s with
        watches := Function.update s.watches d (some kept)
        tasks := .taken d (taken.map Watch.ev) :: s.tasks }
  | .release ev => some { s with released := ev :: s.released }
  | .destroy d =>
    -- the loop has ended, and every call of the thread has returned
    if d ∈ s.destroyed ∨ (∃ t ∈ s.tasks, t.me = d) ∨
        ∃ w ∈ (s.watches d).getD [], w.ev ∉ s.empty then none
    else
      let gone := ((s.watches d).getD []).filter fun w => w.ev ∉ s.triggered
      let (body, acts) := if s.watches d = none then (s.body, []) else s.body.removeListener d
      some { s with
        body
        watches := Function.update s.watches d none
        migrateFdClose := Function.update s.migrateFdClose d 0
        destroyed := d :: s.destroyed
        freed := gone.map Watch.ev ++ s.freed
        tasks := .rest d acts :: s.tasks }

end Life

def machine : Machine Life Life.Label where
  init s := ∃ raw, s = Life.start raw
  step := Life.step

end FdBody
end Cotamer
end Psets
