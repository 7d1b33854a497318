/-
What the watches of a driver are for: a map from file descriptors to lists of watches.

A watch is added at the end of the list of its file.  Taking watches splits the list of a
file in two and keeps the order in both, and the caller has one of the two.  A file whose
body is closed loses all its watches.
-/
import Mathlib.Logic.Function.Basic
import Psets.Cotamer.FdEventSet

namespace Psets
namespace Cotamer
namespace FdEvents

open Transition

structure Watch where
  ev : Nat
  mask : Fdevent
deriving DecidableEq, Repr

structure WatchMap where
  watches : Nat → List Watch := fun _ => []
  body : Nat → Option Nat := fun _ => none
  epoch : Nat → Nat := fun _ => 0
  /-- the files that may have to be registered anew, the last one first -/
  updates : List Nat := []

namespace WatchMap

def touch (m : WatchMap) (ufd : Nat) : WatchMap :=
  { m with updates := if ufd ∈ m.updates then m.updates else ufd :: m.updates }

def setBody (m : WatchMap) (ufd : Nat) (body : Option Nat) : WatchMap :=
  { m with body := Function.update m.body ufd body }

def setEpoch (m : WatchMap) (ufd : Nat) (epoch : Nat) : WatchMap :=
  { m with epoch := Function.update m.epoch ufd epoch }

def setWatches (m : WatchMap) (ufd : Nat) (ws : List Watch) : WatchMap :=
  { m with watches := Function.update m.watches ufd ws }

/-- All watches of the file go, and so does its body. -/
def close (m : WatchMap) (ufd : Nat) : WatchMap :=
  (((m.setWatches ufd []).setEpoch ufd (nextEpoch (m.epoch ufd))).touch ufd).setBody ufd none

def triggers (ws : List Watch) : List Effect := ws.map fun w => .trigger w.ev

/-- Nothing is closed before its body is. -/
def fdClose (m : WatchMap) (fd : Int32) (closed : List Nat) :
    WatchMap × List Effect × Option (Nat × Nat) :=
  let ufd := unsigned fd
  match m.body ufd with
  | none => (m, [], none)
  | some body =>
    if body ∈ closed then (m.close ufd, triggers (m.watches ufd), some (body, m.epoch ufd))
    else (m, [], none)

/-- The file has one body.  Another one takes its place when it is closed. -/
def register (m : WatchMap) (ufd body : Nat) (closed : List Nat) :
    Option (WatchMap × List Effect) :=
  match m.body ufd with
  | none => some (m.setBody ufd (some body), [.addListener body])
  | some old =>
    if old = body then some (m, [])
    else if old ∈ closed then
      some ((m.close ufd).setBody ufd (some body),
        triggers (m.watches ufd) ++ [.removeListener old, .addListener body])
    else none

def watch (m : WatchMap) (fd : Int32) (mask : Fdevent) (body ev : Nat) (closed : List Nat) :
    Option (WatchMap × List Effect) :=
  if fd < 0 ∨ mask = Fdevent.none then some (m, [])
  else
    let ufd := unsigned fd
    (m.register ufd body closed).map fun (m, effects) =>
      ((m.touch ufd).setWatches ufd (m.watches ufd ++ [⟨ev, mask⟩]), effects)

/-- The watch is for something that has happened, or for nobody. -/
def hit (imask : Fdevent) (empty : List Nat) (w : Watch) : Bool :=
  decide (imask &&& w.mask ≠ Fdevent.none) || decide (w.ev ∈ empty)

/-- The notification is for an earlier registration of the file. -/
def Stale (m : WatchMap) (ufd : Nat) (epoch : Nat) : Prop := epoch ≠ 0 ∧ epoch ≠ m.epoch ufd

instance (m : WatchMap) (ufd : Nat) (epoch : Nat) : Decidable (m.Stale ufd epoch) :=
  inferInstanceAs (Decidable (_ ∧ _))

def takeWatchList (m : WatchMap) (fd : Int32) (imask : Fdevent) (epoch : Nat)
    (empty : List Nat) : WatchMap × List Watch :=
  let ufd := unsigned fd
  if m.Stale ufd epoch then (m, [])
  else
    let taken := (m.watches ufd).filter (hit imask empty)
    let kept := (m.watches ufd).filter fun w => !hit imask empty w
    let m := m.setWatches ufd kept
    (if taken = [] then m else m.touch ufd, taken)

/-- The watches that somebody waits for. -/
def interest (empty : List Nat) (ws : List Watch) : Fdevent :=
  ws.foldl (fun mask w => if w.ev ∈ empty then mask else mask ||| w.mask) Fdevent.none

def popUpdate (m : WatchMap) (empty : List Nat) : WatchMap × Option FdUpdate :=
  match m.updates with
  | [] => (m, none)
  | ufd :: rest =>
    let mask := interest empty (m.watches ufd)
    let m := { m with updates := rest }
    if mask = Fdevent.none then
      (m.setEpoch ufd (nextEpoch (m.epoch ufd)), some ⟨ufd, mask, m.epoch ufd⟩)
    else if m.epoch ufd < userEpoch then
      (m.setEpoch ufd userEpoch, some ⟨ufd, mask, userEpoch⟩)
    else (m, some ⟨ufd, mask, m.epoch ufd⟩)

end WatchMap

/-! ## Runs -/

/-- A map and its callers. -/
structure MapSession where
  map : WatchMap := {}
  lists : List (List Watch) := []
  log : List (List Effect × Result) := []

namespace MapSession

def returned (a : MapSession) (map : WatchMap) (effects : List Effect) (result : Result) :
    MapSession :=
  { a with map, log := a.log ++ [(effects, result)] }

def step (a : MapSession) : Label → Option MapSession
  | .watch fd mask body ev closed => do
    let (map, effects) ← a.map.watch fd mask body ev closed
    some (a.returned map effects (.event (some ev)))
  | .takeWatchList fd imask epoch empty =>
    let (map, taken) := a.map.takeWatchList fd imask epoch empty
    some ({ a with lists := a.lists ++ [taken] }.returned map [] .list)
  | .popWatchListEvent i mask =>
    match a.lists[i]? with
    | some (w :: rest) =>
      let effects := if mask ≠ Fdevent.none then [.setUserFlags w.ev mask] else []
      some ({ a with lists := a.lists.set i rest }.returned a.map effects (.event (some w.ev)))
    | _ => none
  | .fdClose fd closed =>
    let (map, effects, fx) := a.map.fdClose fd closed
    some (a.returned map effects (.body fx))
  | .popUpdate empty =>
    let (map, u) := a.map.popUpdate empty
    some (a.returned map [] (.update u))

end MapSession

def mapMachine : Machine MapSession Label where
  init a := a = {}
  step := MapSession.step

end FdEvents
end Cotamer
end Psets
