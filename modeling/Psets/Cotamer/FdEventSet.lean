/-
The watches of a driver: `fd_event_set`.

Links are the indices of slots plus one, as in the source, and 0 ends a list.  A slot that
does not exist and a handle that is null are not read: the call has no result then, as it
has none if a loop does not end or `fd_close` returns nothing where its result is taken
for granted.  Which events are empty and which bodies are closed is up to the code around
the set, and so is the event that `watch` makes; what a call does to events and bodies is
returned with its result.

The numbers that the set keeps are natural numbers, of which only the epochs come round after
32 bits.  A file descriptor that is passed in is an `Int32`, which can be negative.
-/
import Mathlib.Algebra.GroupWithZero.Nat
import Mathlib.Data.List.Basic
import Psets.Transition.Machine

namespace Psets
namespace Cotamer

/-- `fdevent`: the bits are `read`, `write` and `close`. -/
abbrev Fdevent := BitVec 3

def Fdevent.none : Fdevent := 0#3

def Fdevent.read : Fdevent := 1#3

def Fdevent.write : Fdevent := 2#3

namespace FdEvents

open Transition

def linkSentinel : Nat := 2 ^ 32 - 1

def linkClean : Nat := 0

def userEpoch : Nat := 2

/-- `epoch + 1`, in 32 bits -/
def nextEpoch (epoch : Nat) : Nat := (epoch + 1) % 2 ^ 32

def firstCapacity : Nat := 128

def blockCapacity : Nat := 1024

/-- `fdrec` -/
structure Fdrec where
  body : Option Nat := none
  epoch : Nat := 0
  whead : Nat := linkClean
  wtail : Nat := linkClean
  updateLink : Nat := linkClean
deriving DecidableEq, Repr

/-- `watchrec` -/
structure Watchrec where
  ev : Option Nat
  mask : Fdevent
  wlink : Nat
deriving DecidableEq, Repr

/-- `(imask & wr.mask) != fdevent::none || wr.ev->empty()` -/
def Watchrec.taken? (wr : Watchrec) (imask : Fdevent) (empty : List Nat) : Option Bool :=
  if imask &&& wr.mask ≠ Fdevent.none then some true
  else wr.ev.map fun ev => decide (ev ∈ empty)

/-- `fd_update` -/
structure FdUpdate where
  fd : Nat
  mask : Fdevent
  epoch : Nat
deriving DecidableEq, Repr

structure FdEventSet where
  /-- `fdrs_`, of the length `fdr_capacity_` -/
  fdrs : List Fdrec := []
  updateLink : Nat := linkSentinel
  ws : List Watchrec := []
  freeWlink : Nat := linkClean
deriving DecidableEq, Repr

/-- What a call does outside the set. -/
inductive Effect where
  | trigger (ev : Nat)
  | setUserFlags (ev : Nat) (mask : Fdevent)
  | addListener (body : Nat)
  | removeListener (body : Nat)
deriving DecidableEq, Repr

/-- `unsigned ufd = fd` -/
def unsigned (fd : Int32) : Nat := fd.toUInt32.toNat

namespace FdEventSet

/-! ## Cells -/

/-- `fdrs_[ufd]` -/
def fdr? (s : FdEventSet) (ufd : Nat) : Option Fdrec := s.fdrs[ufd]?

/-- `ws_[wix - 1]` -/
def wr? (s : FdEventSet) : Nat → Option Watchrec
  | 0 => none
  | wix + 1 => s.ws[wix]?

def modFdr (s : FdEventSet) (ufd : Nat) (g : Fdrec → Fdrec) : FdEventSet :=
  { s with fdrs := s.fdrs.modify ufd g }

def modWr (s : FdEventSet) (wix : Nat) (g : Watchrec → Watchrec) : FdEventSet :=
  match wix with
  | 0 => s
  | i + 1 => { s with ws := s.ws.modify i g }

/-! ## Capacity -/

/-- `while (ufd >= ncapacity) ncapacity *= 2`, with a bound for the number of rounds. -/
def doubled (ufd : Nat) : Nat → Nat → Nat
  | 0, ncapacity => ncapacity
  | rounds + 1, ncapacity =>
    if ufd ≥ ncapacity then doubled ufd rounds (ncapacity * 2) else ncapacity

def newCapacity (capacity ufd : Nat) : Nat :=
  if ufd ≥ blockCapacity then (ufd / blockCapacity + 1) * blockCapacity
  else doubled ufd ufd (max firstCapacity (capacity * 2))

def hardEnsure (s : FdEventSet) (ufd : Nat) : FdEventSet :=
  { s with fdrs := s.fdrs ++
      List.replicate (newCapacity s.fdrs.length ufd - s.fdrs.length) {} }

/-! ## The update list -/

/-- `if (fdi.update_link == link_clean)` -/
def queueUpdate (s : FdEventSet) (ufd : Nat) : Option FdEventSet := do
  let fdi ← s.fdr? ufd
  if fdi.updateLink = linkClean then
    some { s.modFdr ufd (fun r => { r with updateLink := s.updateLink }) with
      updateLink := ufd + 1 }
  else some s

/-- The loop of `watch_list_mask`. -/
def maskLoop (s : FdEventSet) (empty : List Nat) : Nat → Nat → Fdevent → Option Fdevent
  | _, 0, mask => some mask
  | 0, _ + 1, _ => none
  | rounds + 1, wix + 1, mask => do
    let wr ← s.wr? (wix + 1)
    let idle := wr.ev.elim true fun ev => decide (ev ∈ empty)
    s.maskLoop empty rounds wr.wlink (if idle then mask else mask ||| wr.mask)

def watchListMask (s : FdEventSet) (empty : List Nat) (wix : Nat) : Option Fdevent :=
  s.maskLoop empty s.ws.length wix Fdevent.none

def popUpdate (s : FdEventSet) (empty : List Nat) : Option (FdEventSet × Option FdUpdate) := do
  if s.updateLink = linkSentinel then some (s, none)
  else
    let ufd := s.updateLink - 1
    let fdi ← if s.updateLink = 0 then none else s.fdr? ufd
    let s := { s.modFdr ufd (fun r => { r with updateLink := linkClean }) with
      updateLink := fdi.updateLink }
    let mask ← s.watchListMask empty fdi.whead
    if mask = Fdevent.none then
      some (s.modFdr ufd fun r => { r with epoch := nextEpoch r.epoch }, some ⟨ufd, mask, fdi.epoch⟩)
    else if fdi.epoch < userEpoch then
      some (s.modFdr ufd fun r => { r with epoch := userEpoch }, some ⟨ufd, mask, userEpoch⟩)
    else some (s, some ⟨ufd, mask, fdi.epoch⟩)

/-! ## Closing -/

/-- A slot goes to the front of the free list. -/
def freeSlot (s : FdEventSet) (wix : Nat) : FdEventSet :=
  { s.modWr wix (fun r => { r with ev := none, wlink := s.freeWlink }) with freeWlink := wix }

/-- The loop of `fd_close`. -/
def closeLoop (ufd : Nat) : Nat → FdEventSet → Option (FdEventSet × List Effect)
  | 0, _ => none
  | rounds + 1, s => do
    let fdi ← s.fdr? ufd
    if fdi.whead = linkClean then some (s, [])
    else
      let wr ← s.wr? fdi.whead
      let ev ← wr.ev
      let s := (s.modFdr ufd fun r => { r with whead := wr.wlink }).freeSlot fdi.whead
      let (s, effects) ← closeLoop ufd rounds s
      some (s, .trigger ev :: effects)

/-- `fd_close`: the body and its epoch, if there was something to close. -/
def fdClose (s : FdEventSet) (fd : Int32) (closed : List Nat) :
    Option (FdEventSet × List Effect × Option (Nat × Nat)) := do
  let ufd := unsigned fd
  match s.fdr? ufd with
  | none => some (s, [], none)
  | some fdi =>
    match fdi.body with
    | none => some (s, [], none)
    | some body =>
      if body ∈ closed then
        let (s, effects) ← closeLoop ufd (s.ws.length + 1) s
        let s := s.modFdr ufd fun r => { r with wtail := linkClean }
        let s := s.modFdr ufd fun r => { r with epoch := nextEpoch r.epoch }
        let s ← s.queueUpdate ufd
        some (s.modFdr ufd fun r => { r with body := none }, effects, some (body, fdi.epoch))
      else some (s, [], none)

/-! ## Watching -/

/-- The part of `watch` that makes `body` the body of `fd`. -/
def register (s : FdEventSet) (fd : Int32) (body : Nat) (closed : List Nat) :
    Option (FdEventSet × List Effect) := do
  let ufd := unsigned fd
  let fdi ← s.fdr? ufd
  if fdi.body = some body then some (s, [])
  else
    match fdi.body with
    | none => some (s.modFdr ufd fun r => { r with body := some body }, [.addListener body])
    | some _ =>
      let (s, effects, fx) ← s.fdClose fd closed
      -- `fx` is dereferenced without a check
      let (old, _) ← fx
      some (s.modFdr ufd fun r => { r with body := some body },
        effects ++ [.removeListener old, .addListener body])

/-- A slot for a new watch. -/
def newSlot (s : FdEventSet) (mask : Fdevent) : Option (FdEventSet × Nat) := do
  if s.freeWlink ≠ 0 then
    let wr ← s.wr? s.freeWlink
    some ({ s.modWr s.freeWlink (fun r => { r with mask, wlink := linkClean }) with
      freeWlink := wr.wlink }, s.freeWlink)
  else some ({ s with ws := s.ws ++ [⟨none, mask, linkClean⟩] }, s.ws.length + 1)

/-- The slot becomes the last one of `ufd`. -/
def appendSlot (s : FdEventSet) (ufd wix : Nat) : Option FdEventSet := do
  let fdi ← s.fdr? ufd
  if fdi.whead ≠ 0 then
    let _ ← s.wr? fdi.wtail
    some ((s.modWr fdi.wtail fun r => { r with wlink := wix }).modFdr ufd
      fun r => { r with wtail := wix })
  else some (s.modFdr ufd fun r => { r with whead := wix, wtail := wix })

/-- `watch`, which returns the new event `ev`. -/
def watch (s : FdEventSet) (fd : Int32) (mask : Fdevent) (body ev : Nat) (closed : List Nat) :
    Option (FdEventSet × List Effect) := do
  if fd < 0 ∨ mask = Fdevent.none then some (s, [])
  else
    let ufd := unsigned fd
    let s := if ufd ≥ s.fdrs.length then s.hardEnsure ufd else s
    let (s, effects) ← s.register fd body closed
    let s ← s.queueUpdate ufd
    let (s, wix) ← s.newSlot mask
    let s ← s.appendSlot ufd wix
    some (s.modWr wix fun r => { r with ev := some ev }, effects)

/-! ## Taking watches -/

/-- What the pointers of `take_watch_list` point to. -/
inductive LinkPtr where
  /-- its variable `whead` -/
  | whead
  | fdWhead (ufd : Nat)
  | wlink (wix : Nat)

/-- `*p = link`, on the set and the variable `whead`. -/
def store (s : FdEventSet) (whead : Nat) (p : LinkPtr) (link : Nat) : FdEventSet × Nat :=
  match p with
  | .whead => (s, link)
  | .fdWhead ufd => (s.modFdr ufd fun r => { r with whead := link }, whead)
  | .wlink wix => (s.modWr wix fun r => { r with wlink := link }, whead)

/-- The loop of `take_watch_list`; `imask` and `empty` say which watches are taken. -/
def takeLoop (ufd : Nat) (imask : Fdevent) (empty : List Nat) :
    Nat → FdEventSet → Nat → LinkPtr → LinkPtr → Nat → Option (FdEventSet × Nat)
  | _, s, whead, wpprev, fdpprev, 0 =>
    let (s, whead) := s.store whead fdpprev 0
    some (s.store whead wpprev 0)
  | 0, _, _, _, _, _ + 1 => none
  | rounds + 1, s, whead, wpprev, fdpprev, wix + 1 => do
    let wr ← s.wr? (wix + 1)
    let next := wr.wlink
    let taken ← wr.taken? imask empty
    if taken then
      let (s, whead) := s.store whead wpprev (wix + 1)
      takeLoop ufd imask empty rounds s whead (.wlink (wix + 1)) fdpprev next
    else
      let s := s.modFdr ufd fun r => { r with wtail := wix + 1 }
      let (s, whead) := s.store whead fdpprev (wix + 1)
      takeLoop ufd imask empty rounds s whead wpprev (.wlink (wix + 1)) next

/-- `take_watch_list`, which returns the first link of the list it detaches. -/
def takeWatchList (s : FdEventSet) (fd : Int32) (imask : Fdevent) (epoch : Nat)
    (empty : List Nat) : Option (FdEventSet × Nat) := do
  let ufd := unsigned fd
  match s.fdr? ufd with
  | none => some (s, 0)
  | some fdi =>
    if fdi.whead = 0 ∨ (epoch ≠ 0 ∧ epoch ≠ fdi.epoch) then some (s, 0)
    else
      let s := s.modFdr ufd fun r => { r with wtail := 0 }
      let (s, whead) ← takeLoop ufd imask empty s.ws.length s 0 .whead (.fdWhead ufd) fdi.whead
      if whead ≠ 0 then
        let s ← s.queueUpdate ufd
        some (s, whead)
      else some (s, whead)

/-- `pop_watch_list_event`: the new value of `wix` and the event. -/
def popWatchListEvent (s : FdEventSet) (wix : Nat) (mask : Fdevent) :
    Option (FdEventSet × Nat × List Effect × Option Nat) := do
  let wr ← s.wr? wix
  let effects := match wr.ev with
    | some ev => if mask ≠ Fdevent.none then [.setUserFlags ev mask] else []
    | none => []
  some (s.freeSlot wix, wr.wlink, effects, wr.ev)

end FdEventSet

/-! ## Runs -/

/-- What a call returns.  The list that `take_watch_list` returns is its caller's. -/
inductive Result where
  | event (ev : Option Nat)
  | list
  | body (fx : Option (Nat × Nat))
  | update (u : Option FdUpdate)
deriving DecidableEq, Repr

/-- The calls, with the events they find empty and the bodies they find closed. -/
inductive Label where
  | watch (fd : Int32) (mask : Fdevent) (body ev : Nat) (closed : List Nat)
  | takeWatchList (fd : Int32) (imask : Fdevent) (epoch : Nat) (empty : List Nat)
  /-- by the caller that has the list number `i` -/
  | popWatchListEvent (i : Nat) (mask : Fdevent)
  | fdClose (fd : Int32) (closed : List Nat)
  | popUpdate (empty : List Nat)
deriving DecidableEq, Repr

/-- A set and its callers. -/
structure Session where
  set : FdEventSet := {}
  /-- the first links of the lists that `take_watch_list` has returned -/
  lists : List Nat := []
  /-- what each call has done and returned -/
  log : List (List Effect × Result) := []
deriving DecidableEq, Repr

namespace Session

def returned (s : Session) (set : FdEventSet) (effects : List Effect) (result : Result) :
    Session :=
  { s with set, log := s.log ++ [(effects, result)] }

def step (s : Session) : Label → Option Session
  | .watch fd mask body ev closed => do
    let (set, effects) ← s.set.watch fd mask body ev closed
    some (s.returned set effects (.event (some ev)))
  | .takeWatchList fd imask epoch empty => do
    let (set, whead) ← s.set.takeWatchList fd imask epoch empty
    some ({ s with lists := s.lists ++ [whead] }.returned set [] .list)
  | .popWatchListEvent i mask => do
    let wix ← s.lists[i]?
    let (set, wix, effects, ev) ← s.set.popWatchListEvent wix mask
    some ({ s with lists := s.lists.set i wix }.returned set effects (.event ev))
  | .fdClose fd closed => do
    let (set, effects, fx) ← s.set.fdClose fd closed
    some (s.returned set effects (.body fx))
  | .popUpdate empty => do
    let (set, u) ← s.set.popUpdate empty
    some (s.returned set [] (.update u))

end Session

def machine : Machine Session Label where
  init s := s = {}
  step := Session.step

end FdEvents
end Cotamer
end Psets
