/-
What a driver tells its kernel notifier: `fdctl_`, `nfdctl_` and `fd_batch::add`.

The driver mirrors in `fdctl_`, four bits a file, for which events each file is registered
with the kernel.  `apply_fd_update` compares the mirror with what the set of watches wants
and registers the file anew if the two differ.  A registration carries the epoch of the
file, which the kernel returns with its notifications.  A call to the kernel succeeds here.
-/
import Mathlib.Data.Finset.Card
import Psets.Containers.Lanes
import Psets.Cotamer.FdEventRefinement

namespace Psets
namespace Cotamer
namespace FdEvents

open Transition Containers

/-- `fds_.has_update()` -/
def FdEventSet.hasUpdate (s : FdEventSet) : Bool := s.updateLink ≠ linkSentinel

/-- The slot `wix` is on the list that starts with a link. -/
inductive FdEventSet.OnList (s : FdEventSet) : Nat → Nat → Prop where
  | here {wix : Nat} : wix ≠ linkClean → OnList s wix wix
  | next {link wix : Nat} {wr : Watchrec} : s.wr? link = some wr → OnList s wr.wlink wix →
      OnList s link wix

/-- The bits that stand for a mask. -/
def bits (mask : Fdevent) : BitVec 4 := mask.setWidth 4

theorem bits_none : bits Fdevent.none = 0 := rfl

theorem bits_eq_zero_iff {mask : Fdevent} : bits mask = 0 ↔ mask = Fdevent.none := by
  revert mask
  decide

/-- The part of a driver that watches files, and what it has asked of the kernel. -/
structure FdControl where
  session : Session := {}
  fdctl : List (BitVec 64) := []
  nfdctl : Nat := 0
  /-- the updates given to `fd_batch::add`, the last one first -/
  added : List FdUpdate := []
  /-- the bodies whose `fileno()` is negative -/
  closed : List Nat := []
  /-- the events that are `empty()`; they stay so -/
  empty : List Nat := []
deriving DecidableEq, Repr

namespace FdControl

/-- `fds_` -/
def fds (s : FdControl) : FdEventSet := s.session.set

/-- The bits of `fdctl_` for a file. -/
def nibble (s : FdControl) (ufd : Nat) : BitVec 4 := lane 4 16 s.fdctl ufd

/-- The last registration of a file. -/
def registration (s : FdControl) (ufd : Nat) : Option FdUpdate :=
  s.added.find? fun fdu => fdu.fd = ufd

def resize (fdctl : List (BitVec 64)) (size : Nat) : List (BitVec 64) :=
  fdctl ++ List.replicate (size - fdctl.length) 0

def applyFdUpdate (s : FdControl) (fdu : FdUpdate) : FdControl :=
  let fdci := fdu.fd / 16
  let fdcs := fdu.fd % 16 * 4
  let fdctl := if fdci ≥ s.fdctl.length then resize s.fdctl (fdci + 1) else s.fdctl
  let oldMask := (fdctl.getD fdci 0 >>> fdcs) &&& 15#64
  let newMask := fdu.mask.setWidth 64
  if oldMask = newMask then { s with fdctl }
  else
    { s with
      added := fdu :: s.added
      fdctl := fdctl.modify fdci fun word => word ^^^ ((oldMask ^^^ newMask) <<< fdcs)
      nfdctl := if oldMask = 0 then s.nfdctl + 1
        else if fdu.mask = Fdevent.none then s.nfdctl - 1
        else s.nfdctl }

def notifyClose (s : FdControl) (baseFd : Int32) : Option FdControl := do
  let (set, effects, fx) ← s.session.set.fdClose baseFd s.closed
  let s := { s with session := s.session.returned set effects (.body fx) }
  match fx with
  | none => some s
  | some (_, epoch) => some (s.applyFdUpdate ⟨unsigned baseFd, Fdevent.none, epoch⟩)

/-- One round of `while (auto fdu = fds_.pop_update())`. -/
def update (s : FdControl) : Option FdControl := do
  let (set, fdu) ← s.session.set.popUpdate s.empty
  let s := { s with session := s.session.returned set [] (.update fdu) }
  match fdu with
  | none => some s
  | some fdu => some (s.applyFdUpdate fdu)

inductive Label where
  | watch (fd : Int32) (mask : Fdevent) (body ev : Nat)
  | takeWatchList (fd : Int32) (imask : Fdevent) (epoch : Nat)
  | popWatchListEvent (i : Nat) (mask : Fdevent)
  | notifyClose (baseFd : Int32)
  | update
  /-- `fd_body::close`, which may run on another driver -/
  | closeBody (body : Nat)
  /-- the event triggers, or all that wait for it or could have it go -/
  | vacate (ev : Nat)
deriving DecidableEq, Repr

def step (s : FdControl) : Label → Option FdControl
  | .watch fd mask body ev => do
    let session ← s.session.step (.watch fd mask body ev s.closed)
    some { s with session }
  | .takeWatchList fd imask epoch => do
    let session ← s.session.step (.takeWatchList fd imask epoch s.empty)
    some { s with session }
  | .popWatchListEvent i mask => do
    let session ← s.session.step (.popWatchListEvent i mask)
    some { s with session }
  | .notifyClose baseFd => s.notifyClose baseFd
  | .update => s.update
  | .closeBody body => some { s with closed := body :: s.closed }
  | .vacate ev => some { s with empty := ev :: s.empty }

end FdControl

def fdControlMachine : Machine FdControl FdControl.Label where
  init s := s = {}
  step := FdControl.step

namespace FdControl

/-! ## The mirror -/

theorem lane_resize (fdctl : List (BitVec 64)) (size : Nat) :
    lane 4 16 (resize fdctl size) = lane 4 16 fdctl := by
  funext ufd
  exact lane_append_replicate _ _ _

/-- The four bits of a file, read as `apply_fd_update` does. -/
theorem and_fifteen (word : BitVec 64) (k : Nat) :
    (word >>> k) &&& 15#64 = ((word >>> k).setWidth 4).setWidth 64 := by
  have hlow : (word >>> k) &&& 15#64 = (word >>> k) &&& BitVec.setWidth 64 (BitVec.allOnes 4) := rfl
  apply BitVec.eq_of_getLsbD_eq
  intro i hi
  rw [hlow, BitVec.getLsbD_and, BitVec.getLsbD_setWidth, BitVec.getLsbD_setWidth,
    BitVec.getLsbD_setWidth, BitVec.getLsbD_allOnes, decide_eq_true hi, Bool.true_and,
    Bool.true_and, Bool.and_comm]

theorem setWidth_inj {x y : BitVec 4} : x.setWidth 64 = y.setWidth 64 ↔ x = y := by
  refine ⟨fun h => ?_, congrArg _⟩
  have hback := congrArg (BitVec.setWidth 4) h
  rwa [BitVec.setWidth_setWidth_of_le _ (by decide), BitVec.setWidth_setWidth_of_le _ (by decide),
    BitVec.setWidth_eq, BitVec.setWidth_eq] at hback

/-- What `apply_fd_update` does: nothing if the mirror has the mask, else the file is
registered anew and the mirror changed. -/
theorem applyFdUpdate_cases (s : FdControl) (fdu : FdUpdate) :
    ∃ fdctl, lane 4 16 fdctl = Function.update s.nibble fdu.fd (bits fdu.mask) ∧
      ((s.nibble fdu.fd = bits fdu.mask ∧ s.applyFdUpdate fdu = { s with fdctl }) ∨
       (s.nibble fdu.fd ≠ bits fdu.mask ∧ s.applyFdUpdate fdu = { s with
          added := fdu :: s.added, fdctl
          nfdctl := if s.nibble fdu.fd = 0 then s.nfdctl + 1
            else if fdu.mask = Fdevent.none then s.nfdctl - 1
            else s.nfdctl })) := by
  have hgrown : ∃ grown, (if fdu.fd / 16 ≥ s.fdctl.length then resize s.fdctl (fdu.fd / 16 + 1)
      else s.fdctl) = grown ∧ fdu.fd / 16 < grown.length ∧ lane 4 16 grown = s.nibble := by
    refine ⟨_, rfl, ?_⟩
    split
    · refine ⟨?_, lane_resize _ _⟩
      rw [resize, List.length_append, List.length_replicate]
      omega
    · exact ⟨by omega, rfl⟩
  obtain ⟨grown, hgrown, hlen, hlane⟩ := hgrown
  have hold : (grown.getD (fdu.fd / 16) 0 >>> (fdu.fd % 16 * 4)) &&& 15#64 =
      (s.nibble fdu.fd).setWidth 64 := by
    rw [and_fifteen, ← hlane]
    rfl
  have hmask : fdu.mask.setWidth 64 = (bits fdu.mask).setWidth 64 := by
    rw [bits, BitVec.setWidth_setWidth (by decide)]
  unfold applyFdUpdate
  simp only [hgrown, hold, hmask, setWidth_inj]
  by_cases heq : s.nibble fdu.fd = bits fdu.mask
  · refine ⟨grown, ?_, .inl ⟨heq, if_pos heq⟩⟩
    rw [hlane, ← heq, Function.update_eq_self]
  · have hzero : (s.nibble fdu.fd).setWidth 64 = 0 ↔ s.nibble fdu.fd = 0 :=
      setWidth_inj (y := 0)
    refine ⟨flipLane 4 16 grown fdu.fd (lane 4 16 grown fdu.fd ^^^ bits fdu.mask), ?_,
      .inr ⟨heq, ?_⟩⟩
    · rw [lane_write (by decide) (by decide) hlen, hlane]
    · rw [if_neg heq]
      simp only [flipLane, hlane, BitVec.setWidth_xor, hzero]

theorem nibble_applyFdUpdate (s : FdControl) (fdu : FdUpdate) :
    (s.applyFdUpdate fdu).nibble = Function.update s.nibble fdu.fd (bits fdu.mask) := by
  obtain ⟨fdctl, hlane, ⟨-, happly⟩ | ⟨-, happly⟩⟩ := s.applyFdUpdate_cases fdu <;>
  · rw [happly]
    exact hlane

theorem registration_applyFdUpdate (s : FdControl) (fdu : FdUpdate) :
    (s.applyFdUpdate fdu).registration = if s.nibble fdu.fd = bits fdu.mask then s.registration
      else Function.update s.registration fdu.fd (some fdu) := by
  obtain ⟨fdctl, -, ⟨heq, happly⟩ | ⟨hne, happly⟩⟩ := s.applyFdUpdate_cases fdu
  · rw [happly, if_pos heq]
    rfl
  · rw [happly, if_neg hne]
    funext ufd
    simp only [registration, List.find?_cons, Function.update_apply]
    by_cases h : fdu.fd = ufd
    · simp [h]
    · simp [h, Ne.symm h]

@[simp] theorem session_applyFdUpdate (s : FdControl) (fdu : FdUpdate) :
    (s.applyFdUpdate fdu).session = s.session := by
  obtain ⟨fdctl, -, ⟨-, happly⟩ | ⟨-, happly⟩⟩ := s.applyFdUpdate_cases fdu <;> rw [happly]

@[simp] theorem empty_applyFdUpdate (s : FdControl) (fdu : FdUpdate) :
    (s.applyFdUpdate fdu).empty = s.empty := by
  obtain ⟨fdctl, -, ⟨-, happly⟩ | ⟨-, happly⟩⟩ := s.applyFdUpdate_cases fdu <;> rw [happly]

/-- `nfdctl_` counts the files that have bits in `fdctl_`. -/
def Counted (s : FdControl) : Prop :=
  ∃ fds : Finset Nat, (∀ ufd, ufd ∈ fds ↔ s.nibble ufd ≠ 0) ∧ s.nfdctl = fds.card

theorem Counted.applyFdUpdate {s : FdControl} (h : s.Counted) (fdu : FdUpdate) :
    (s.applyFdUpdate fdu).Counted := by
  obtain ⟨fds, hfds, hcount⟩ := h
  have hnibble := s.nibble_applyFdUpdate fdu
  obtain ⟨fdctl, -, ⟨heq, happly⟩ | ⟨hne, happly⟩⟩ := s.applyFdUpdate_cases fdu
  · refine ⟨fds, fun ufd => ?_, ?_⟩
    · rw [hnibble, ← heq, Function.update_eq_self]
      exact hfds ufd
    · rw [happly]
      exact hcount
  · have hnew : ∀ ufd, (s.applyFdUpdate fdu).nibble ufd =
        if ufd = fdu.fd then bits fdu.mask else s.nibble ufd := fun ufd => by
      rw [hnibble, Function.update_apply]
    have hsize : (s.applyFdUpdate fdu).nfdctl = if s.nibble fdu.fd = 0 then s.nfdctl + 1
        else if fdu.mask = Fdevent.none then s.nfdctl - 1 else s.nfdctl :=
      congrArg FdControl.nfdctl happly
    by_cases hold : s.nibble fdu.fd = 0
    · -- the file is registered now
      rw [hold] at hne
      refine ⟨insert fdu.fd fds, fun ufd => ?_, ?_⟩
      · rw [Finset.mem_insert, hnew, hfds]
        by_cases h : ufd = fdu.fd
        · simpa [h] using hne.symm
        · simp [h]
      · rw [hsize, if_pos hold, Finset.card_insert_of_notMem fun h => (hfds _).1 h hold, hcount]
    · have hmem : fdu.fd ∈ fds := (hfds _).2 hold
      by_cases hnone : fdu.mask = Fdevent.none
      · -- it is not registered any more
        refine ⟨fds.erase fdu.fd, fun ufd => ?_, ?_⟩
        · rw [Finset.mem_erase, hnew, hfds]
          by_cases h : ufd = fdu.fd
          · simp [h, hnone, bits_none]
          · simp [h]
        · rw [hsize, if_neg hold, if_pos hnone, Finset.card_erase_of_mem hmem, hcount]
      · refine ⟨fds, fun ufd => ?_, ?_⟩
        · rw [hnew, hfds]
          by_cases h : ufd = fdu.fd
          · rw [h, if_pos rfl]
            exact iff_of_true hold (mt bits_eq_zero_iff.1 hnone)
          · rw [if_neg h]
        · rw [hsize, if_neg hold, if_neg hnone, hcount]

end FdControl

end FdEvents
end Cotamer
end Psets
