/-
`small_vector`.

A vector keeps up to `N` elements in a buffer of its own and more of them in an allocated
block; `cap_` says which, and the pointer to the block shares its bytes with the buffer.
The state is the storage with all its objects and the fields of every vector there is.  A
step is a call of a member function.  A call that runs into undefined behaviour has no
result: it reads a pointer that is not there or an object that has ended, or it writes the
pointer over living elements.

`N` is between 1 and 128 in the source; `moved` is the value that a move leaves behind.
-/
import Mathlib.Algebra.GroupWithZero.Nat
import Psets.Containers.Arrays
import Psets.Transition.Machine

namespace Psets
namespace Cotamer
namespace SmallVector

open Containers Containers.Storage

/-! ## The state -/

/-- The inline buffer of a vector, or a block of the allocator. -/
inductive Region where
  | inbuf (v : Nat)
  | block (b : Nat)
  deriving DecidableEq, Repr

/-- The fields of a vector.  `out` is `none` while the bytes of the union are not a
pointer. -/
structure Vec where
  sz : Nat
  cap : Nat
  out : Option Nat
  deriving DecidableEq, Repr

/-- Where the elements are. -/
def Vec.begin (N v : Nat) (x : Vec) : Option Region :=
  if x.cap ≤ N then some (.inbuf v) else x.out.map .block

def uint32 (n : Nat) : Nat := n % 2 ^ 32

structure State (α : Type) where
  storage : Storage Region α
  vecs : Nat → Option Vec
  /-- the block that the allocator gives out next -/
  fresh : Nat

variable {α : Type}

namespace State

def init : State α := ⟨.empty, fun _ => none, 0⟩

def setVec (st : State α) (v : Nat) (x : Vec) : State α :=
  { st with vecs := Function.update st.vecs v (some x) }

def setStorage (st : State α) (s : Storage Region α) : State α := { st with storage := s }

/-- Assign `u_.out`, which the elements of the inline buffer must not outlive. -/
def setOut (st : State α) (v : Nat) (x : Vec) (b : Nat) : Option (State α) :=
  if st.storage.Vacant (.inbuf v) then some (st.setVec v { x with out := some b }) else none

/-- An object in the inline buffer takes the place of the pointer. -/
def useRegion (st : State α) : Region → State α
  | .inbuf v =>
    { st with
      vecs := Function.update st.vecs v ((st.vecs v).map fun x => { x with out := none }) }
  | .block _ => st

def constructAt (st : State α) (r : Region) (i : Nat) (a : α) : Option (State α) :=
  (st.storage.construct r i a).map fun s => (st.setStorage s).useRegion r

end State

/-! ## Arguments -/

/-- What a constructor reads of an element, the element itself or a part of it, and the
element after the constructor has moved from there. -/
structure Part (α β : Type) where
  get : α → β
  leave : α → α

def Part.whole (moved : α → α) : Part α α := ⟨id, moved⟩

/-- An argument is an object outside the vectors, or an element or a part of one, by
reference. -/
inductive Arg (α β : Type) where
  | value (b : β)
  | element (w i : Nat) (part : Part α β)

/-- The vector that an argument refers into. -/
def Arg.vector {β : Type} : Arg α β → Option Nat
  | .value _ => none
  | .element w _ _ => some w

/-- The constructor that gets the argument moves from it if it is an `rvalue`. -/
structure Argument (α β : Type) where
  arg : Arg α β
  rvalue : Bool

/-- What `push_back` gets has the type of the elements: no part of an element has. -/
inductive Ref (α : Type) where
  | value (a : α)
  | element (w i : Nat)

def Ref.vector : Ref α → Option Nat
  | .value _ => none
  | .element w _ => some w

def Ref.arg (moved : α → α) : Ref α → Arg α α
  | .value a => .value a
  | .element w i => .element w i (.whole moved)

@[simp]
theorem Ref.arg_vector (moved : α → α) (ref : Ref α) : (ref.arg moved).vector = ref.vector := by
  cases ref <;> rfl

/-- What a reference refers to. -/
inductive Place (α β : Type) where
  | value (b : β)
  | cell (r : Region) (i : Nat) (part : Part α β)

section Members

variable {β : Type} (N : Nat) (moved : α → α)

/-- Bind a reference. -/
def place (st : State α) : Arg α β → Option (Place α β)
  | .value b => some (.value b)
  | .element w i part => (st.vecs w).bind fun x => (x.begin N w).map fun r => .cell r i part

def places (st : State α) : List (Argument α β) → Option (List (Place α β × Bool))
  | [] => some []
  | arg :: args =>
    (place N st arg.arg).bind fun p => (places st args).map fun ps => (p, arg.rvalue) :: ps

/-- Read through a reference, and move from it. -/
def take (s : Storage Region α) : Place α β → Bool → Option (β × Storage Region α)
  | .value b, _ => some (b, s)
  | .cell r i part, true =>
    (moveFrom part.leave r i s).map fun next => (part.get next.1, next.2)
  | .cell r i part, false => (s.read r i).map fun a => (part.get a, s)

def takeAll : List (Place α β × Bool) → Storage Region α → Option (List β × Storage Region α)
  | [], s => some ([], s)
  | p :: ps, s =>
    (take s p.1 p.2).bind fun next =>
      (takeAll ps next.2).map fun rest => (next.1 :: rest.1, rest.2)

/-! ## The member functions -/

/-- `alloc.deallocate(u_.out, cap_)` if the elements are in a block. -/
def deallocateOut (x : Vec) (s : Storage Region α) : Option (Storage Region α) :=
  if N < x.cap then x.out.bind fun b => s.deallocate (.block b) x.cap else some s

/-- `small_vector()` -/
def make (v : Nat) (st : State α) : Option (State α) :=
  if (st.vecs v).isNone then
    (st.storage.allocate (.inbuf v) N).map fun s =>
      (st.setStorage s).setVec v ⟨0, N, none⟩
  else none

/-- `small_vector(small_vector&& x)` -/
def moveMake (v w : Nat) (st : State α) : Option (State α) :=
  if (st.vecs v).isNone then
    (st.vecs w).bind fun x =>
      (st.storage.allocate (.inbuf v) N).bind fun s =>
        if N < x.cap then
          x.out.bind fun b =>
            ((st.setStorage s).setOut v ⟨x.sz, x.cap, none⟩ b).map fun st =>
              st.setVec w { x with sz := 0, cap := 0 }
        else
          (x.begin N w).bind fun src =>
            (Vec.begin N v ⟨x.sz, x.cap, none⟩).bind fun dst =>
              (uninitializedMoveN moved src dst 0 0 x.sz s).map fun s =>
                (st.setStorage s).setVec v ⟨x.sz, x.cap, none⟩
  else none

/-- `clear` -/
def clear (v : Nat) (st : State α) : Option (State α) :=
  (st.vecs v).bind fun x =>
    (x.begin N v).bind fun r =>
      (destroyN r 0 x.sz st.storage).map fun s =>
        (st.setStorage s).setVec v { x with sz := 0 }

/-- `clear_capacity` -/
def clearCapacity (v : Nat) (st : State α) : Option (State α) :=
  (st.vecs v).bind fun x =>
    (x.begin N v).bind fun r =>
      (destroyN r 0 x.sz st.storage).bind fun s =>
        (deallocateOut N x s).map fun s =>
          (st.setStorage s).setVec v { x with sz := 0, cap := 0 }

/-- `~small_vector` -/
def drop (v : Nat) (st : State α) : Option (State α) :=
  (clearCapacity N v st).bind fun st =>
    (st.storage.deallocate (.inbuf v) N).map fun s =>
      { st with storage := s, vecs := Function.update st.vecs v none }

/-- `erase(first, last)`; iterators are positions. -/
def erase (v first last : Nat) (st : State α) : Option (State α) :=
  (st.vecs v).bind fun x =>
    (x.begin N v).bind fun r =>
      if first ≤ last ∧ last ≤ x.sz then
        if first ≠ last then
          (moveRange moved r last first (x.sz - last) st.storage).bind fun s =>
            let sz := uint32 (x.sz - (last - first))
            (destroyN r sz (x.sz - sz) s).map fun s =>
              (st.setStorage s).setVec v { x with sz := sz }
        else some st
      else none

/-- `truncate(first)` -/
def truncate (v first : Nat) (st : State α) : Option (State α) :=
  (st.vecs v).bind fun x =>
    (x.begin N v).bind fun r =>
      if first ≤ x.sz then
        (destroyN r first (x.sz - first) st.storage).map fun s =>
          (st.setStorage s).setVec v { x with sz := uint32 first }
      else none

/-- The part of `push_space` for a full vector. -/
def grow (v : Nat) (x : Vec) (st : State α) : Option (State α × Region × Nat) :=
  let cap := uint32 (x.cap * 2)
  let newptr := Region.block st.fresh
  (x.begin N v).bind fun r =>
    (st.storage.allocate newptr cap).bind fun s =>
      (uninitializedMoveN moved r newptr 0 0 x.sz s).bind fun s =>
        (destroyN r 0 x.sz s).bind fun s =>
          (deallocateOut N x s).bind fun s =>
            ({ st with storage := s, fresh := st.fresh + 1 }.setOut v { x with cap := cap }
              st.fresh).map fun st => (st, newptr, x.sz)

/-- `push_space`: the place for one more element. -/
def pushSpace (v : Nat) (st : State α) : Option (State α × Region × Nat) :=
  (st.vecs v).bind fun x =>
    let x := if x.cap = 0 then { x with cap := N } else x
    let st := st.setVec v x
    if x.sz < x.cap then (x.begin N v).map fun r => (st, r, x.sz)
    else grow N moved v x st

/-- Construct an element from arguments at the end.  The references are bound before
`push_space` runs, and read after it; the list has them in the order in which the
constructor of the element reads them. -/
def constructBack (v : Nat) (construct : List β → Option α) (args : List (Argument α β))
    (st : State α) : Option (State α) :=
  (places N st args).bind fun ps =>
    (pushSpace N moved v st).bind fun space =>
      (takeAll ps space.1.storage).bind fun taken =>
        (construct taken.1).bind fun a =>
          ((space.1.setStorage taken.2).constructAt space.2.1 space.2.2 a).bind fun st =>
            (st.vecs v).map fun x => st.setVec v { x with sz := uint32 (x.sz + 1) }

/-- `push_back(const T&)` -/
def pushBack (v : Nat) (ref : Ref α) (st : State α) : Option (State α) :=
  constructBack N moved v List.head? [⟨ref.arg moved, false⟩] st

/-- `push_back(T&&)` -/
def pushBackMove (v : Nat) (ref : Ref α) (st : State α) : Option (State α) :=
  constructBack N moved v List.head? [⟨ref.arg moved, true⟩] st

/-- `emplace_back` -/
def emplaceBack (v : Nat) (construct : List β → α) (args : List (Argument α β)) (st : State α) :
    Option (State α) :=
  constructBack N moved v (fun values => some (construct values)) args st

/-- `pop_back` -/
def popBack (v : Nat) (st : State α) : Option (State α) :=
  (st.vecs v).bind fun x =>
    (x.begin N v).bind fun r =>
      if 0 < x.sz then
        (st.storage.destroy r (x.sz - 1)).map fun s =>
          (st.setStorage s).setVec v { x with sz := x.sz - 1 }
      else none

end Members

/-! ## The calls -/

/-- `β` is what the arguments of `emplace_back` are. -/
inductive Call (α β : Type) where
  | make (v : Nat)
  | moveMake (v w : Nat)
  | drop (v : Nat)
  | clear (v : Nat)
  | clearCapacity (v : Nat)
  | erase (v first last : Nat)
  | truncate (v first : Nat)
  | pushBack (v : Nat) (ref : Ref α)
  | pushBackMove (v : Nat) (ref : Ref α)
  | emplaceBack (v : Nat) (construct : List β → α) (args : List (Argument α β))
  | popBack (v : Nat)

def step {β : Type} (N : Nat) (moved : α → α) (st : State α) : Call α β → Option (State α)
  | .make v => make N v st
  | .moveMake v w => moveMake N moved v w st
  | .drop v => drop N v st
  | .clear v => clear N v st
  | .clearCapacity v => clearCapacity N v st
  | .erase v first last => erase N moved v first last st
  | .truncate v first => truncate N v first st
  | .pushBack v ref => pushBack N moved v ref st
  | .pushBackMove v ref => pushBackMove N moved v ref st
  | .emplaceBack v construct args => emplaceBack N moved v construct args st
  | .popBack v => popBack N v st

/-- A program that uses small vectors; it starts without any. -/
def machine {β : Type} (N : Nat) (moved : α → α) :
    Transition.Machine (State α) (Call α β) where
  init st := st = State.init
  step := step N moved

/-- The elements of a vector, as `begin` and `size` show them. -/
def State.visible (N : Nat) (st : State α) (v : Nat) : Option (List α) :=
  (st.vecs v).bind fun x => (x.begin N v).bind fun r => st.storage.readN r 0 x.sz

end SmallVector
end Cotamer
end Psets
