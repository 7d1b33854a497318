/-
`timer_heap`: the pending timers of a driver, the earliest on top.

The elements are a heap of some arity in an array.  Timers of the same time leave in the
order in which they came, which a counter of 32 bits tells.  Positions are `unsigned` as
well.  Whether a value is empty is for others to decide, and may change between two calls.
-/
import Mathlib.Data.BitVec
import Psets.Transition.Machine

namespace Psets
namespace Cotamer

/-- `circular_int<unsigned>` -/
structure CircularInt where
  v : BitVec 32
  deriving DecidableEq, Repr

/-- `operator<=>` -/
def CircularInt.cmp (a x : CircularInt) : Ordering :=
  if a.v = x.v then .eq
  else if (a.v - x.v).toInt < 0 then .lt
  else .gt

namespace TimerHeap

structure Element (T : Type) where
  when : Int
  order : CircularInt
  value : T
  /-- The number of the insertion, of which `order` keeps 32 bits.  No member, and never
  read. -/
  serial : Nat
  deriving DecidableEq, Repr

/-- `operator<` -/
def Element.less {T : Type} (e x : Element T) : Bool :=
  e.when < x.when || (e.when == x.when && e.order.cmp x.order == .lt)

end TimerHeap

open TimerHeap

/-- The elements `es_[0..size_)`; the capacity is left out. -/
structure TimerHeap (T : Type) where
  es : Array (Element T) := #[]
  order : BitVec 32 := 0
  cullRand : BitVec 32 := 8173
  /-- How many elements were inserted.  No member, and never read but for `serial`. -/
  inserted : Nat := 0
  deriving DecidableEq, Repr

namespace TimerHeap

variable {T : Type} (arity : Nat)

/-! ## Positions -/

def unsigned (n : Nat) : Nat := n % 2 ^ 32

def heapParent (i : Nat) : Nat := unsigned (i + 2 ^ 32 - (arity == 2).toNat) / arity

def heapFirstChild (i : Nat) : Nat := unsigned (i * arity + (arity == 2 || i == 0).toNat)

def heapLastChild (size i : Nat) : Nat :=
  let p := unsigned (i * arity + arity + (arity == 2).toNat)
  if p < size then p else size

/-! ## Moving an element to its place -/

/-- `es_[i] < es_[j]` -/
def lessAt (es : Array (Element T)) (i j : Nat) : Bool :=
  match es[i]?, es[j]? with
  | some x, some y => x.less y
  | _, _ => false

/-- The smallest of the element at `pos` and its children. -/
def smallest (es : Array (Element T)) (pos : Nat) : Nat :=
  let first := heapFirstChild arity pos
  let last := heapLastChild arity es.size pos
  (List.range' first (last - first)).foldl
    (fun smallest t => if lessAt es t smallest then t else smallest) pos

/-- The loop towards the root.  There are `fuel` rounds of it at most. -/
def siftUp : Nat → Array (Element T) → Nat → Option (Array (Element T))
  | 0, _, _ => none
  | fuel + 1, es, pos =>
    if pos ≠ 0 ∧ lessAt es pos (heapParent arity pos) then
      siftUp fuel (es.swapIfInBounds pos (heapParent arity pos)) (heapParent arity pos)
    else some es

/-- The loop away from the root. -/
def siftDown : Nat → Array (Element T) → Nat → Option (Array (Element T))
  | 0, _, _ => none
  | fuel + 1, es, pos =>
    if smallest arity es pos = pos then some es
    else siftDown fuel (es.swapIfInBounds pos (smallest arity es pos)) (smallest arity es pos)

/-! ## Operations -/

variable (h : TimerHeap T)

/-- Remove the element at `pos`. -/
def hardCull (pos : Nat) : Option (TimerHeap T) :=
  let size := h.es.size - 1
  if pos = size then some { h with es := h.es.pop }
  else
    let es := (h.es.swapIfInBounds size pos).pop
    if pos = 0 ∨ lessAt es pos (heapParent arity pos) = false then
      (siftDown arity h.es.size es pos).map fun es => { h with es }
    else
      -- the loop tests its condition once more before the first exchange
      (siftUp arity h.es.size es pos).map fun es => { h with es }

/-- The value at `pos` is empty. -/
def emptyAt (empty : T → Bool) (pos : Nat) : Bool :=
  match h.es[pos]? with
  | some e => empty e.value
  | none => false

/-- The next random number. -/
def nextRand (rand : BitVec 32) : BitVec 32 := rand * 1664525 + 1013904223

/-- The loop in `emplace` that removes random elements as long as they are empty. -/
def cullRandom (empty : T → Bool) : Nat → TimerHeap T → Option (TimerHeap T)
  | 0, h => some h
  | fuel + 1, h =>
    if 32 ≤ h.es.size then
      let pos := h.cullRand.toNat % h.es.size
      let h := { h with cullRand := nextRand h.cullRand }
      if h.emptyAt empty pos then (hardCull arity h pos).bind (cullRandom empty fuel)
      else some h
    else some h

def emplace (when : Int) (value : T) (empty : T → Bool) : Option (TimerHeap T) := do
  let h ← cullRandom arity empty h.es.size h
  let pos := h.es.size
  let order := h.order + 1
  let es := h.es.push { when, order := ⟨order⟩, value, serial := h.inserted + 1 }
  let es ← siftUp arity es.size es pos
  some { h with es, order, inserted := h.inserted + 1 }

def pop : Option (TimerHeap T) := if h.es.size ≠ 0 then hardCull arity h 0 else none

/-- Every round removes an element. -/
def cull (empty : T → Bool) : Nat → TimerHeap T → Option (TimerHeap T)
  | 0, h => some h
  | fuel + 1, h =>
    if h.emptyAt empty 0 then (hardCull arity h 0).bind (cull empty fuel) else some h

def clear : TimerHeap T := { h with es := #[] }

inductive Label (T : Type) where
  | emplace (when : Int) (value : T) (empty : T → Bool)
  | pop
  | cull (empty : T → Bool)
  | clear

def step (h : TimerHeap T) : Label T → Option (TimerHeap T)
  | .emplace when value empty => emplace arity h when value empty
  | .pop => pop arity h
  | .cull empty => cull arity empty h.es.size h
  | .clear => some h.clear

def system : Transition.Machine (TimerHeap T) (Label T) where
  init h := h = {}
  step := step arity

end TimerHeap
end Cotamer
end Psets
