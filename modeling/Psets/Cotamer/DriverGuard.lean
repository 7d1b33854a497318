/-
The guards of a driver, object by object.

A `driver_guard` counts itself when it is made and discounts itself when it goes, and
does neither while the driver clears.  The count is one number, so it cannot tell a
guard it has counted from one whose count `process_clearing` has taken back: the
objects are followed here by address through any number of calls of the loop.
-/
import Mathlib.Data.Finset.Card
import Psets.Cotamer.DriverQuiescence

namespace Psets
namespace Cotamer
namespace Driver
namespace Guarded

open Transition

/-! ## The objects -/

/-- The addresses of the `driver_guard` objects. -/
abbrev GuardId := Nat

/-- `drv_ = exchange(x.drv_, nullptr)`, seen from a set of pointers: `g` is in the set
afterwards if `x` was, and `x` is not. -/
def exchange (g x : GuardId) (S : Finset GuardId) : Finset GuardId :=
  if x ∈ S then insert g (S.erase x) else S.erase g

theorem exchange_mono {g x : GuardId} {S T : Finset GuardId} (h : S ⊆ T) :
    exchange g x S ⊆ exchange g x T := by
  intro y hy
  unfold exchange at hy ⊢
  by_cases hT : x ∈ T
  · rw [if_pos hT, Finset.mem_insert, Finset.mem_erase]
    by_cases hS : x ∈ S
    · rw [if_pos hS, Finset.mem_insert, Finset.mem_erase] at hy
      exact hy.imp id fun hne => ⟨hne.1, h hne.2⟩
    · rw [if_neg hS, Finset.mem_erase] at hy
      right
      refine ⟨?_, h hy.2⟩
      rintro rfl
      exact hS hy.2
  · have hS : x ∉ S := fun hx => hT (h hx)
    rw [if_neg hS] at hy
    rw [if_neg hT]
    exact Finset.erase_subset_erase g h hy

theorem exchange_subset {g x : GuardId} {S T : Finset GuardId} (h : S ⊆ T) :
    exchange g x S ⊆ insert g T := by
  unfold exchange
  split
  · exact Finset.insert_subset_insert g ((Finset.erase_subset x S).trans h)
  · exact ((Finset.erase_subset g S).trans h).trans (Finset.subset_insert g T)

/-- A pointer that moves to a place without one. -/
theorem card_exchange {g x : GuardId} {S : Finset GuardId} (hg : g ∉ S) :
    (exchange g x S).card = S.card := by
  unfold exchange
  split
  · rename_i hx
    rw [Finset.card_insert_of_notMem (fun h => hg (Finset.mem_of_mem_erase h)),
      Finset.card_erase_of_mem hx]
    have := Finset.card_pos.2 ⟨x, hx⟩
    omega
  · rw [Finset.erase_eq_of_notMem hg]

/-- The guards that live. -/
structure Guards where
  objects : Finset GuardId
  /-- Those whose `drv_` points to the driver. -/
  bound : Finset GuardId
  /-- Those for which `guard_count_` still has a one.  No code reads this. -/
  counted : Finset GuardId
  bound_sub : bound ⊆ objects
  counted_sub : counted ⊆ bound

namespace Guards

def empty : Guards := ⟨∅, ∅, ∅, Finset.Subset.refl _, Finset.Subset.refl _⟩

/-- A new object that points to no driver. -/
def addNull (G : Guards) (g : GuardId) : Guards :=
  { G with
    objects := insert g G.objects
    bound_sub := G.bound_sub.trans (Finset.subset_insert g _) }

def addBound (G : Guards) (g : GuardId) : Guards where
  objects := insert g G.objects
  bound := insert g G.bound
  counted := insert g G.counted
  bound_sub := Finset.insert_subset_insert g G.bound_sub
  counted_sub := Finset.insert_subset_insert g G.counted_sub

/-- `guard_count_` has gone down on behalf of `g`. -/
def uncount (G : Guards) (g : GuardId) : Guards :=
  { G with
    counted := G.counted.erase g
    counted_sub := (Finset.erase_subset g _).trans G.counted_sub }

/-- `guard_count_` is set to zero. -/
def uncountAll (G : Guards) : Guards :=
  { G with counted := ∅, counted_sub := Finset.empty_subset _ }

/-- `drv_` of `g` becomes that of `x`. -/
def move (G : Guards) (g x : GuardId) : Guards where
  objects := insert g G.objects
  bound := exchange g x G.bound
  counted := exchange g x G.counted
  bound_sub := exchange_subset G.bound_sub
  counted_sub := exchange_mono G.counted_sub

def remove (G : Guards) (g : GuardId) : Guards where
  objects := G.objects.erase g
  bound := G.bound.erase g
  counted := G.counted.erase g
  bound_sub := Finset.erase_subset_erase g G.bound_sub
  counted_sub := Finset.erase_subset_erase g G.counted_sub

theorem counted_objects {G : Guards} {g : GuardId} (hg : g ∉ G.objects) : g ∉ G.counted :=
  fun h => hg (G.bound_sub (G.counted_sub h))

end Guards

/-! ## The operations -/

/-- The driver and the guards of its thread. -/
structure State where
  driver : Driver.State
  guards : Guards

namespace State

/-- The driver's own record of how many objects point to it follows the objects. -/
def place (s : State) (G : Guards) : State where
  driver := { s.driver with guards := G.bound.card }
  guards := G

/-- `++drv->guard_count_` -/
def increment (s : State) : State :=
  { s with driver := { s.driver with guardCount := s.driver.guardCount + 1 } }

/-- `if (drv_ && !drv_->clearing()) --drv_->guard_count_` -/
def release (s : State) (g : GuardId) : State where
  driver :=
    if g ∈ s.guards.bound ∧ s.driver.clearing = false then
      { s.driver with guardCount := s.driver.guardCount - 1 }
    else s.driver
  guards := s.guards.uncount g

/-- `driver_guard()` -/
def construct (s : State) (g : GuardId) : State :=
  if s.driver.clearing then s.place (s.guards.addNull g)
  else s.increment.place (s.guards.addBound g)

/-- `driver_guard(driver_guard&& x)` -/
def moveConstruct (s : State) (g x : GuardId) : State := s.place (s.guards.move g x)

/-- `operator=(driver_guard&& x)`; `x` may be the object itself. -/
def moveAssign (s : State) (g x : GuardId) : State :=
  (s.release g).place ((s.release g).guards.move g x)

/-- `~driver_guard()` -/
def destroy (s : State) (g : GuardId) : State :=
  (s.release g).place ((s.release g).guards.remove g)

end State

/-- What a coroutine, or the code outside the coroutines, does next. -/
inductive Op where
  | construct (g : GuardId)
  | moveConstruct (g x : GuardId)
  | moveAssign (g x : GuardId)
  | destroy (g : GuardId)
  /-- an operation that is not about guards -/
  | act (a : Act)
deriving DecidableEq, Repr

def perform (s : State) : Op → Option State
  | .construct g => if g ∈ s.guards.objects then none else some (s.construct g)
  | .moveConstruct g x =>
      if g ∉ s.guards.objects ∧ x ∈ s.guards.objects then some (s.moveConstruct g x) else none
  | .moveAssign g x =>
      if g ∈ s.guards.objects ∧ x ∈ s.guards.objects then some (s.moveAssign g x) else none
  | .destroy g => if g ∈ s.guards.objects then some (s.destroy g) else none
  | .act a =>
      if a.onGuards then none
      else (act s.driver a).map fun d => { s with driver := d }

/-! ## The runs -/

inductive Label where
  | op (o : Op)
  /-- a piece of the running call; a coroutine that suspends is `resume []` -/
  | loop (a : Driver.Label)
  /-- `loop()` or `poll()` is called -/
  | call (lt : LoopType)
deriving DecidableEq, Repr

/-- A coroutine runs, or no call does. -/
def Pc.code : Pc → Bool
  | .drive _ _ | .returned _ => true
  | _ => false

/-- Guards come and go at any time, with the frames and objects that hold them. -/
def Op.allowed (pc : Pc) : Op → Bool
  | .act _ => Pc.code pc
  | _ => true

/-- `process_clearing` begins with this step. -/
def zeroes (d : Driver.State) (a : Driver.Label) : Prop :=
  a = .next ∧ d.pc = .keepalives ∧ d.clearing = true

instance (d : Driver.State) (a : Driver.Label) : Decidable (zeroes d a) :=
  inferInstanceAs (Decidable (_ ∧ _))

def step (s : State) : Label → Option State
  | .op o => if o.allowed s.driver.pc then perform s o else none
  | .loop a =>
      if a.body = [] then
        (Driver.step s.driver a).map fun d =>
          ⟨d, if zeroes s.driver a then s.guards.uncountAll else s.guards⟩
      else none
  | .call lt =>
      match s.driver.pc with
      | .returned _ => some { s with driver := { s.driver with pc := .top, looptype := lt } }
      | _ => none

/-- One driver, from its construction on. -/
def machine : Machine State Label where
  init s := ∃ realTime,
    s = { driver := { realTime, pc := .returned false }, guards := Guards.empty }
  step := step

/-! ## What the rest of the driver does to the count -/

/-- The guards, `clear` and the loop itself apart, nothing touches the count. -/
structure Kept (d d' : Driver.State) : Prop where
  pc : d'.pc = d.pc
  guardCount : d'.guardCount = d.guardCount
  guards : d'.guards = d.guards
  clearing : d'.clearing = d.clearing

theorem Kept.refl (d : Driver.State) : Kept d d := ⟨rfl, rfl, rfl, rfl⟩

theorem Kept.trans {d d' d'' : Driver.State} (h : Kept d d') (h' : Kept d' d'') : Kept d d'' :=
  ⟨h'.pc.trans h.pc, h'.guardCount.trans h.guardCount, h'.guards.trans h.guards,
    h'.clearing.trans h.clearing⟩

theorem queueUpdate_kept (d : Driver.State) (fd : Nat) : Kept d (d.queueUpdate fd) := by
  rcases State.queueUpdate_eq d fd with ⟨updates, h⟩
  rw [h]
  exact ⟨rfl, rfl, rfl, rfl⟩

theorem applyFdUpdate_kept (d : Driver.State) (fd : Nat) (mask : FdEvent) :
    Kept d (d.applyFdUpdate fd mask) := by
  rcases State.applyFdUpdate_eq d fd mask with ⟨registered, h⟩
  rw [h]
  exact ⟨rfl, rfl, rfl, rfl⟩

theorem notifyClose_kept (d : Driver.State) (fd : Nat) (also waited : List EventId) :
    Kept d (d.notifyClose fd also waited) := by
  unfold State.notifyClose
  split
  · refine Kept.trans ?_ (applyFdUpdate_kept _ fd 0)
    refine Kept.trans ?_ (queueUpdate_kept _ fd)
    exact ⟨rfl, rfl, rfl, rfl⟩
  · exact .refl d

theorem closeAll_kept (d : Driver.State) (fds : List Nat)
    (closed : List (List EventId × List EventId)) : Kept d (closeAll d fds closed) := by
  induction fds generalizing d closed with
  | nil => exact .refl d
  | cons fd fds ih => exact (notifyClose_kept d fd _ _).trans (ih _ _)

/-- An operation that is not about guards either clears or leaves the count alone. -/
theorem act_kept {d d' : Driver.State} {a : Act} (ha : a.onGuards = false)
    (h : act d a = some d') : Kept d d' ∨ d' = { d with clearing := true } := by
  cases a with
  | guard => cases ha
  | unguard => cases ha
  | assignGuard self => cases ha
  | clear =>
    right
    exact (Option.some.inj h).symm
  | asap e =>
    obtain rfl := Option.some.inj h
    exact .inl ⟨rfl, rfl, rfl, rfl⟩
  | trigger es waited =>
    obtain rfl := Option.some.inj h
    exact .inl ⟨rfl, rfl, rfl, rfl⟩
  | timer x e culled =>
    rcases Option.map_eq_some_iff.1 h with ⟨q, _, rfl⟩
    exact .inl ⟨rfl, rfl, rfl, rfl⟩
  | drop e =>
    obtain rfl := Option.some.inj h
    exact .inl ⟨rfl, rfl, rfl, rfl⟩
  | keepalive e =>
    simp only [act] at h
    split at h
    · obtain rfl := Option.some.inj h
      exact .inl (.refl d)
    · obtain rfl := Option.some.inj h
      exact .inl ⟨rfl, rfl, rfl, rfl⟩
  | watch fd mask e =>
    obtain rfl := Option.some.inj h
    refine .inl (Kept.trans ?_ (queueUpdate_kept _ fd))
    exact ⟨rfl, rfl, rfl, rfl⟩
  | close fd also waited =>
    obtain rfl := Option.some.inj h
    exact .inl (notifyClose_kept d fd also waited)
  | stepTime =>
    obtain rfl := Option.some.inj h
    rcases d.stepTime_eq with ⟨snow, hs, _⟩
    rw [hs]
    exact .inl ⟨rfl, rfl, rfl, rfl⟩
  | setClock real =>
    obtain rfl := Option.some.inj h
    exact .inl ⟨rfl, rfl, rfl, rfl⟩

/-- The part of an iteration that begins with `process_clearing` and ends with the exit
test. -/
inductive Phase where
  | clearing
  | testing
  | other
deriving DecidableEq, Repr

def phase : Pc → Phase
  | .clearFds _ _ | .clearTimers | .drive _ (.clearFds _ _) | .drive _ .clearTimers => .clearing
  | .fdUpdates | .exit => .testing
  | _ => .other

/-- The step goes on in a phase or leaves it. -/
def Onward (pc pc' : Pc) : Prop :=
  phase pc' = .other ∨ phase pc = .clearing ∨ phase pc = .testing ∧ phase pc' = .testing

theorem onward_refl (pc : Pc) : Onward pc pc := by
  unfold Onward
  cases phase pc with
  | clearing => exact .inr (.inl rfl)
  | testing => exact .inr (.inr ⟨rfl, rfl⟩)
  | other => exact .inl rfl

/-- What a piece of the loop does to the count: nothing, unless it begins
`process_clearing` or ends the call. -/
inductive Counts (d : Driver.State) (a : Driver.Label) (d' : Driver.State) : Prop where
  | kept : d'.guardCount = d.guardCount → d'.clearing = d.clearing → Onward d.pc d'.pc →
      ¬ zeroes d a → Counts d a d'
  | passed : d'.guardCount = d.guardCount → d.clearing = false → d'.clearing = false →
      phase d'.pc = .testing → ¬ zeroes d a → Counts d a d'
  | zeroed : d'.guardCount = 0 → d.clearing = true → d'.clearing = true → zeroes d a →
      Counts d a d'
  | ended : d.guardCount = 0 → d'.guardCount = 0 → d'.clearing = false →
      phase d'.pc = .other → ¬ zeroes d a → Counts d a d'

theorem not_zeroes {d : Driver.State} {a : Driver.Label} (h : a ≠ .next ∨ d.pc ≠ .keepalives) :
    ¬ zeroes d a := by
  rintro ⟨ha, hpc, _⟩
  exact h.elim (fun h => h ha) (fun h => h hpc)

/-- The drive of an event belongs to the phase it goes back to. -/
theorem phase_drive (eh : EventId) (back : Back) : phase (.drive eh back) = phase back.pc := by
  cases back <;> rfl

theorem fire_counts {d d' : Driver.State} {also : List EventId}
    (h : Driver.step d (.fire also) = some d') :
    d'.guards = d.guards ∧ Counts d (.fire also) d' := by
  have hz : ¬ zeroes d (.fire also) := not_zeroes (.inl nofun)
  simp only [Driver.step] at h
  split at h
  · split at h
    · obtain rfl := Option.some.inj h
      exact ⟨rfl, .kept rfl rfl (.inl rfl) hz⟩
    · cases h
  · rename_i hpc
    obtain rfl := Option.some.inj h
    exact ⟨rfl, .kept rfl rfl (.inr (.inl (by rw [hpc]; rfl))) hz⟩
  · rename_i hpc
    split at h
    · obtain rfl := Option.some.inj h
      exact ⟨rfl, .kept rfl rfl (.inr (.inl (by rw [hpc]; rfl))) hz⟩
    · cases h
  · obtain rfl := Option.some.inj h
    exact ⟨rfl, .kept rfl rfl (.inl rfl) hz⟩
  · rcases Option.map_eq_some_iff.1 h with ⟨x, _, rfl⟩
    exact ⟨rfl, .kept rfl rfl (.inl rfl) hz⟩
  · cases h

theorem next_counts {d d' : Driver.State} (h : Driver.step d .next = some d') :
    d'.guards = d.guards ∧ Counts d .next d' := by
  -- only the sweep over the keepalives can begin `process_clearing`
  have hz : ∀ {pc : Pc}, d.pc = pc → pc ≠ .keepalives → ¬ zeroes d .next :=
    fun hpc hne => not_zeroes (.inr (hpc ▸ hne))
  simp only [Driver.step] at h
  split at h
  · rename_i n hpc
    split at h
    · obtain rfl := Option.some.inj h
      exact ⟨rfl, .kept rfl rfl (.inl rfl) (hz hpc (by simp))⟩
    · cases h
  · rename_i hpc
    obtain rfl := Option.some.inj h
    by_cases hc : d.clearing = true
    · simp only [sweep, hc, if_true]
      exact ⟨trivial, .zeroed rfl hc rfl ⟨rfl, hpc, hc⟩⟩
    · have hkept : ¬ zeroes d .next := fun hz => hc hz.2.2
      simp only [sweep, hc, Bool.false_eq_true, if_false]
      exact ⟨trivial, .passed rfl (Bool.not_eq_true _ ▸ hc) rfl rfl hkept⟩
  · rename_i fd hpc
    have hphase : phase d.pc = .clearing := by rw [hpc]; rfl
    split at h
    · rename_i f _
      obtain rfl := Option.some.inj h
      rcases State.takeWatchList_eq d f 7 with ⟨watches, updates, ht⟩
      rw [ht]
      exact ⟨rfl, .kept rfl rfl (.inr (.inl hphase)) (hz hpc (by simp))⟩
    · obtain rfl := Option.some.inj h
      exact ⟨rfl, .kept rfl rfl (.inr (.inl hphase)) (hz hpc (by simp))⟩
  · rename_i hpc
    split at h
    · obtain rfl := Option.some.inj h
      exact ⟨rfl, .kept rfl rfl (.inr (.inl (by rw [hpc]; rfl))) (hz hpc (by simp))⟩
    · cases h
  · rename_i hpc
    obtain rfl := Option.some.inj h
    rcases updateFds_eq d d.updates with ⟨registered, hr⟩
    rw [hr]
    exact ⟨rfl, .kept rfl rfl (.inr (.inr ⟨by rw [hpc]; rfl, rfl⟩)) (hz hpc (by simp))⟩
  · rename_i hpc
    obtain rfl := Option.some.inj h
    exact ⟨rfl, .kept rfl rfl (.inl rfl) (hz hpc (by simp))⟩
  · rename_i hpc
    split at h
    · obtain rfl := Option.some.inj h
      refine ⟨rfl, .kept rfl rfl (.inl ?_) (hz hpc (by simp))⟩
      by_cases hp : d.looptype = .poll
      · simp only [hp, if_true, phase]
      · simp only [hp, if_false, phase]
    · cases h
  · cases h

theorem tick_counts {d d' : Driver.State} {clock : Int}
    (h : Driver.step d (.tick clock) = some d') :
    d'.guards = d.guards ∧ Counts d (.tick clock) d' := by
  have hz : ¬ zeroes d (.tick clock) := not_zeroes (.inl nofun)
  simp only [Driver.step] at h
  split at h
  · rename_i hpc
    obtain rfl := Option.some.inj h
    unfold exitTest
    simp only []
    split
    · rename_i hidle
      have hcount : d.guardCount = 0 := ((idle_iff _).1 hidle).2.2.2.1
      exact ⟨rfl, .ended hcount hcount rfl rfl hz⟩
    · split
      · exact ⟨rfl, .kept rfl rfl (.inl rfl) hz⟩
      · exact ⟨rfl, .kept rfl rfl (.inl rfl) hz⟩
  · rename_i had hpc
    obtain rfl := Option.some.inj h
    rcases updateTime_eq d clock had with ⟨snow, heq⟩
    rw [heq]
    exact ⟨rfl, .kept rfl rfl (.inl rfl) hz⟩
  · cases h

theorem step_counts {d d' : Driver.State} {a : Driver.Label} (ha : a.body = [])
    (h : Driver.step d a = some d') : d'.guards = d.guards ∧ Counts d a d' := by
  have hz : ∀ {b : Driver.Label}, b ≠ .next → ¬ zeroes d b := fun hb => not_zeroes (.inl hb)
  cases a with
  | next => exact next_counts h
  | fire also => exact fire_counts h
  | tick clock => exact tick_counts h
  | finishMigrate closed =>
    simp only [Driver.step] at h
    split at h
    · obtain rfl := Option.some.inj h
      have hk := closeAll_kept
        { d with
          asap := d.asap ++ d.migrate, migrate := [], migrateFdClose := []
          posted := (d.asap ++ d.migrate).length, pc := .aliquot asapQuota }
        d.migrateFdClose closed
      have hphase := congrArg phase hk.pc
      exact ⟨hk.guards, .kept hk.guardCount hk.clearing (.inl hphase) (hz (by simp))⟩
    · cases h
  | resume body =>
    obtain rfl : body = [] := ha
    simp only [Driver.step] at h
    split at h
    · rename_i eh back hpc
      obtain rfl : afterCoh d back = d' := Option.some.inj h
      rcases afterCoh_eq d back with ⟨snow, hs, _⟩
      rw [hs]
      exact ⟨rfl, .kept rfl rfl (onward_refl d.pc) (hz (by simp))⟩
    · cases h
  | drained =>
    simp only [Driver.step] at h
    split at h
    · rename_i eh back hpc
      obtain rfl := Option.some.inj h
      refine ⟨rfl, .kept rfl rfl ?_ (hz (by simp))⟩
      rw [hpc, Onward, phase_drive]
      exact onward_refl back.pc
    · cases h
  | wait had =>
    simp only [Driver.step] at h
    split at h
    · obtain rfl := Option.some.inj h
      refine ⟨rfl, .kept rfl rfl (.inl ?_) (hz (by simp))⟩
      cases had <;> rfl
    · cases h
  | ready fd mask =>
    simp only [Driver.step] at h
    split at h
    · obtain rfl := Option.some.inj h
      rcases State.takeWatchList_eq d fd mask with ⟨watches, updates, ht⟩
      rw [ht]
      exact ⟨rfl, .kept rfl rfl (.inl rfl) (hz (by simp))⟩
    · cases h
  | remote es waited =>
    simp only [Driver.step] at h
    split at h
    · cases h
    · obtain rfl := Option.some.inj h
      exact ⟨rfl, .kept rfl rfl (onward_refl d.pc) (hz (by simp))⟩
  | remoteClose fd =>
    simp only [Driver.step] at h
    split at h
    · cases h
    · obtain rfl := Option.some.inj h
      exact ⟨rfl, .kept rfl rfl (onward_refl d.pc) (hz (by simp))⟩

/-! ## The count against the objects -/

/-- `guard_count_` is the number of counted guards; a driver that clears may be ahead of
it until `process_clearing` begins, and is at zero from then on. -/
structure Counting (s : State) : Prop where
  guards : s.driver.guards = s.guards.bound.card
  le : (s.guards.counted.card : Int) ≤ s.driver.guardCount
  eq : s.driver.clearing = false → s.driver.guardCount = s.guards.counted.card
  clears : phase s.driver.pc = .clearing → s.driver.clearing = true ∧ s.driver.guardCount = 0
  tests : phase s.driver.pc = .testing → s.driver.clearing = true → s.driver.guardCount = 0

/-- The guard that the operation discounts. -/
def Op.released : Op → Option GuardId
  | .destroy g | .moveAssign g _ => some g
  | _ => none

/-- The operation discounts no guard that the count has lost: a guard that lived
through a `process_clearing` or was assigned to itself does not go, and is not assigned
over, while the driver does not clear. -/
def Op.Counted (s : State) (o : Op) : Prop :=
  ∀ g ∈ o.released, g ∈ s.guards.bound → s.driver.clearing = false → g ∈ s.guards.counted

def Label.Counted (s : State) : Label → Prop
  | .op o => o.Counted s
  | _ => True

instance (s : State) (o : Op) : Decidable (o.Counted s) :=
  inferInstanceAs (Decidable (∀ g ∈ o.released, _))

instance (s : State) : (a : Label) → Decidable (a.Counted s)
  | .op o => inferInstanceAs (Decidable (o.Counted s))
  | .loop _ => .isTrue trivial
  | .call _ => .isTrue trivial

/-- The objects change, but not how many of them are counted. -/
theorem Counting.place {s : State} {G : Guards} (hs : Counting s)
    (h : G.counted.card = s.guards.counted.card) : Counting (s.place G) where
  guards := rfl
  le := by
    show (G.counted.card : Int) ≤ s.driver.guardCount
    rw [h]
    exact hs.le
  eq hc := by
    show s.driver.guardCount = G.counted.card
    rw [h]
    exact hs.eq hc
  clears := hs.clears
  tests := hs.tests

/-- The driver moves on, and what the count depends on stays as it is. -/
theorem Counting.keep {s : State} {d : Driver.State} (hs : Counting s) (hk : Kept s.driver d) :
    Counting { s with driver := d } where
  guards := hk.guards.trans hs.guards
  le := by
    show (s.guards.counted.card : Int) ≤ d.guardCount
    rw [hk.guardCount]
    exact hs.le
  eq hc := hk.guardCount.trans (hs.eq (hk.clearing.symm.trans hc))
  clears h := by
    rcases hs.clears (hk.pc ▸ h) with ⟨hclearing, hcount⟩
    exact ⟨hk.clearing.trans hclearing, hk.guardCount.trans hcount⟩
  tests h hc := hk.guardCount.trans (hs.tests (hk.pc ▸ h) (hk.clearing.symm.trans hc))

theorem Counting.release {s : State} {g : GuardId} (hs : Counting s)
    (hok : g ∈ s.guards.bound → s.driver.clearing = false → g ∈ s.guards.counted) :
    Counting (s.release g) := by
  by_cases hc : s.driver.clearing = false
  · have hle : (s.release g).driver.guardCount = (s.guards.counted.erase g).card := by
      have heq := hs.eq hc
      unfold State.release
      simp only [hc, and_true]
      by_cases hb : g ∈ s.guards.bound
      · have hg := hok hb hc
        have hpos := Finset.card_pos.2 ⟨g, hg⟩
        rw [if_pos hb, Finset.card_erase_of_mem hg]
        show s.driver.guardCount - 1 = _
        omega
      · have hg : g ∉ s.guards.counted := fun h => hb (s.guards.counted_sub h)
        rw [if_neg hb, Finset.erase_eq_of_notMem hg]
        exact heq
    have hkept : (s.release g).driver.pc = s.driver.pc ∧
        (s.release g).driver.clearing = s.driver.clearing ∧
        (s.release g).driver.guards = s.driver.guards := by
      unfold State.release
      simp only []
      split <;> exact ⟨rfl, rfl, rfl⟩
    rcases hkept with ⟨hpc, hclear, hguards⟩
    exact {
      guards := hguards.trans hs.guards
      le := hle.symm.le
      eq := fun _ => hle
      clears := fun h => by
        rw [hpc] at h
        have := (hs.clears h).1
        simp [hc] at this
      tests := fun _ h => by simp [hclear, hc] at h }
  · have hdriver : (s.release g).driver = s.driver := if_neg fun h => hc h.2
    exact {
      guards := by rw [hdriver]; exact hs.guards
      le := by
        rw [hdriver]
        have hcard := Finset.card_le_card (Finset.erase_subset g s.guards.counted)
        have hle := hs.le
        show ((s.guards.counted.erase g).card : Int) ≤ _
        omega
      eq := fun h => by
        rw [hdriver] at h
        exact absurd h hc
      clears := by rw [hdriver]; exact hs.clears
      tests := by rw [hdriver]; exact hs.tests }

theorem Counting.construct {s : State} {g : GuardId} (hs : Counting s)
    (hg : g ∉ s.guards.objects) : Counting (s.construct g) := by
  unfold State.construct
  split
  · exact hs.place rfl
  · rename_i hc
    rw [Bool.not_eq_true] at hc
    have hcard : (insert g s.guards.counted).card = s.guards.counted.card + 1 :=
      Finset.card_insert_of_notMem (Guards.counted_objects hg)
    have heq := hs.eq hc
    exact {
      guards := rfl
      le := by
        show ((insert g s.guards.counted).card : Int) ≤ s.driver.guardCount + 1
        omega
      eq := fun _ => by
        show s.driver.guardCount + 1 = (insert g s.guards.counted).card
        omega
      clears := fun h => by
        have := (hs.clears h).1
        simp [hc] at this
      tests := fun _ h => absurd h (by simp [State.place, State.increment, hc]) }

theorem perform_counting {s t : State} {o : Op} (hs : Counting s) (hok : o.Counted s)
    (hallowed : o.allowed s.driver.pc = true) (h : perform s o = some t) : Counting t := by
  cases o with
  | construct g =>
    simp only [perform] at h
    split at h
    · cases h
    · rename_i hg
      obtain rfl := Option.some.inj h
      exact hs.construct hg
  | moveConstruct g x =>
    simp only [perform] at h
    split at h
    · rename_i hg
      obtain rfl := Option.some.inj h
      exact hs.place (card_exchange (Guards.counted_objects hg.1))
    · cases h
  | moveAssign g x =>
    simp only [perform] at h
    split at h
    · obtain rfl := Option.some.inj h
      -- `g` has left the count before the pointer of `x` comes in
      have hrel := hs.release (hok g rfl)
      exact hrel.place (card_exchange (Finset.notMem_erase g s.guards.counted))
    · cases h
  | destroy g =>
    simp only [perform] at h
    split at h
    · obtain rfl := Option.some.inj h
      have hrel := hs.release (hok g rfl)
      refine hrel.place ?_
      show ((s.guards.counted.erase g).erase g).card = (s.guards.counted.erase g).card
      rw [Finset.erase_eq_of_notMem (Finset.notMem_erase g _)]
    · cases h
  | act a =>
    simp only [perform] at h
    split at h
    · cases h
    · rename_i hne
      rcases Option.map_eq_some_iff.1 h with ⟨d, hd, rfl⟩
      rcases act_kept (Bool.eq_false_iff.2 hne) hd with hk | rfl
      · exact hs.keep hk
      · exact {
          guards := hs.guards
          le := hs.le
          eq := fun hc => absurd hc (by simp)
          clears := fun h => ⟨rfl, (hs.clears h).2⟩
          tests := fun h _ => by
            -- nothing runs between the register of file updates and the exit test
            have hcode : Pc.code s.driver.pc = true := hallowed
            simp only [] at h
            cases hpc : s.driver.pc <;> simp [hpc, Pc.code, phase] at hcode h
            rename_i eh back
            cases back <;> simp at h }

theorem step_counting {s t : State} {a : Label} (hs : Counting s) (hok : a.Counted s)
    (h : step s a = some t) : Counting t := by
  cases a with
  | op o =>
    simp only [step] at h
    split at h
    · rename_i hallowed
      exact perform_counting hs hok hallowed h
    · cases h
  | call lt =>
    simp only [step] at h
    split at h
    · obtain rfl := Option.some.inj h
      exact ⟨hs.guards, hs.le, hs.eq, nofun, nofun⟩
    · cases h
  | loop a =>
    simp only [step] at h
    split at h
    · rename_i ha
      rcases Option.map_eq_some_iff.1 h with ⟨d, hd, rfl⟩
      rcases step_counts ha hd with ⟨hguards, hcounts⟩
      cases hcounts with
      | kept hcount hclear honward hz =>
        rw [if_neg hz]
        exact {
          guards := hguards.trans hs.guards
          le := hcount.symm ▸ hs.le
          eq := fun hc => hcount.trans (hs.eq (hclear.symm.trans hc))
          clears := fun hp => by
            rcases honward with ho | hp' | ⟨_, ho⟩
            · cases ho.symm.trans hp
            · exact ⟨hclear.trans (hs.clears hp').1, hcount.trans (hs.clears hp').2⟩
            · cases ho.symm.trans hp
          tests := fun hp hc => by
            rcases honward with ho | hp' | ⟨hp', _⟩
            · cases ho.symm.trans hp
            · exact hcount.trans (hs.clears hp').2
            · exact hcount.trans (hs.tests hp' (hclear.symm.trans hc)) }
      | passed hcount hclear hclear' hphase hz =>
        rw [if_neg hz]
        exact {
          guards := hguards.trans hs.guards
          le := hcount.symm ▸ hs.le
          eq := fun _ => hcount.trans (hs.eq hclear)
          clears := fun hp => by cases hphase.symm.trans hp
          tests := fun _ hc => by cases hclear'.symm.trans hc }
      | zeroed hcount hclear hclear' hz =>
        rw [if_pos hz]
        exact {
          guards := hguards.trans hs.guards
          le := hcount.symm.le
          eq := fun hc => by cases hclear'.symm.trans hc
          clears := fun _ => ⟨hclear', hcount⟩
          tests := fun _ _ => hcount }
      | ended hcount hcount' hclear hphase hz =>
        rw [if_neg hz]
        -- a count of zero leaves no guard counted
        have hcard : s.guards.counted.card = 0 := by
          have := hs.le
          omega
        exact {
          guards := hguards.trans hs.guards
          le := by
            show (s.guards.counted.card : Int) ≤ d.guardCount
            omega
          eq := fun _ => by
            show d.guardCount = s.guards.counted.card
            omega
          clears := fun hp => by cases hphase.symm.trans hp
          tests := fun _ _ => hcount' }
    · cases h

theorem init_counting {s : State} (h : machine.init s) : Counting s := by
  rcases h with ⟨realTime, rfl⟩
  exact ⟨rfl, Int.le_refl _, fun _ => rfl, nofun, nofun⟩

/-! ## The driver's own operations -/

/-- Among the operations of the driver, making a guard is `guard`. -/
theorem construct_act {s : State} {g : GuardId} (hs : Counting s) (hg : g ∉ s.guards.objects) :
    act s.driver .guard = some (s.construct g).driver := by
  have hguards := hs.guards
  unfold State.construct
  simp only [act]
  split
  · show some s.driver = some { s.driver with guards := s.guards.bound.card }
    rw [← hguards]
  · have hcard : (insert g s.guards.bound).card = s.guards.bound.card + 1 :=
      Finset.card_insert_of_notMem fun h => hg (s.guards.bound_sub h)
    show _ = some { s.increment.driver with guards := (insert g s.guards.bound).card }
    rw [hcard, ← hguards]
    rfl

/-- The end of a guard that points to the driver is `unguard`. -/
theorem destroy_act {s : State} {g : GuardId} (hs : Counting s) (hg : g ∈ s.guards.bound) :
    act s.driver .unguard = some (s.destroy g).driver := by
  have hguards := hs.guards
  have hpos := Finset.card_pos.2 ⟨g, hg⟩
  have hcard : (s.guards.bound.erase g).card = s.driver.guards - 1 := by
    rw [Finset.card_erase_of_mem hg, hguards]
  have hne : ¬ s.driver.guards = 0 := by omega
  show _ = some { (s.release g).driver with guards := (s.guards.bound.erase g).card }
  simp only [act, hne, if_false, hcard, State.release]
  cases hc : s.driver.clearing <;> simp [hg, hc]

/-- The assignment to a guard that points to the driver is `assignGuard`. -/
theorem moveAssign_act {s : State} {g x : GuardId} (hs : Counting s) (hg : g ∈ s.guards.bound) :
    act s.driver (.assignGuard (decide (g = x))) = some (s.moveAssign g x).driver := by
  have hguards := hs.guards
  have hpos := Finset.card_pos.2 ⟨g, hg⟩
  have hne : ¬ s.driver.guards = 0 := by omega
  have hcard : (exchange g x s.guards.bound).card =
      if decide (g = x) then s.driver.guards else s.driver.guards - 1 := by
    rw [hguards]
    by_cases hx : g = x
    · subst hx
      simp only [exchange, hg, if_true, Finset.insert_erase hg, decide_true]
    · -- one pointer fewer, that of `x` or that of `g`
      simp only [exchange, hx, decide_false, Bool.false_eq_true, if_false]
      split
      · rename_i hb
        rw [Finset.insert_eq_of_mem (Finset.mem_erase.2 ⟨hx, hg⟩), Finset.card_erase_of_mem hb]
      · rw [Finset.card_erase_of_mem hg]
  show _ = some { (s.release g).driver with guards := (exchange g x s.guards.bound).card }
  simp only [act, hne, if_false, hcard, State.release]
  cases hc : s.driver.clearing <;> simp [hg, hc]

/-- The assignment to a guard of no driver leaves the driver alone. -/
theorem moveAssign_driver {s : State} {g x : GuardId} (hs : Counting s)
    (hg : g ∉ s.guards.bound) : (s.moveAssign g x).driver = s.driver := by
  show { (s.release g).driver with guards := (exchange g x s.guards.bound).card } = s.driver
  rw [card_exchange hg, ← hs.guards, State.release, if_neg fun h => hg h.1]

/-- A guard that moves to a new object leaves the driver alone. -/
theorem moveConstruct_driver {s : State} {g x : GuardId} (hs : Counting s)
    (hg : g ∉ s.guards.objects) : (s.moveConstruct g x).driver = s.driver := by
  show { s.driver with guards := (exchange g x s.guards.bound).card } = s.driver
  rw [card_exchange fun h => hg (s.guards.bound_sub h), ← hs.guards]

/-! ## The theorem -/

/-- The count is not negative, and at the exit test it is zero when no guard points to
the driver. -/
structure Sound (s : State) : Prop where
  nonneg : 0 ≤ s.driver.guardCount
  released : s.driver.pc = .exit → s.guards.bound = ∅ → s.driver.guardCount = 0

theorem Counting.sound {s : State} (hs : Counting s) : Sound s where
  nonneg := le_trans (Int.natCast_nonneg _) hs.le
  released hpc hbound := by
    cases hc : s.driver.clearing with
    | true => exact hs.tests (by rw [hpc]; rfl) hc
    | false =>
      have hcounted : s.guards.counted = ∅ :=
        Finset.subset_empty.1 (hbound ▸ s.guards.counted_sub)
      rw [hs.eq hc, hcounted]
      rfl

/-- A run whose operations discount only guards that the count has. -/
theorem guard_count_sound {s : State} {as : List Label} (hs : machine.init s)
    (hok : machine.Within (fun s a => a.Counted s) s as) : machine.Always Sound s as :=
  Machine.Always.of_invariant (I := Counting) (Q := fun _ => True)
    (fun _ _ _ hi hok h _ => step_counting hi hok h) (fun _ hi => hi.sound) (init_counting hs)
    hok (Machine.always_true s as)

/-- A guard that lives through a clear and goes before the loop returns. -/
def coveredRun : List Label :=
  [.op (.construct 0), .op (.construct 1), .op (.moveAssign 1 0), .op (.act .clear),
    .call .complete, .loop (.finishMigrate []), .loop .next, .loop .next, .op (.destroy 1),
    .loop .next, .loop .next, .loop .next, .loop (.tick 0), .op (.construct 2),
    .op (.destroy 2), .op (.destroy 0)]

def fresh : State := { driver := { pc := .returned false }, guards := Guards.empty }

theorem guard_count_sound_covered : machine.Always Sound fresh coveredRun :=
  guard_count_sound ⟨false, rfl⟩ (by decide +kernel)

/-- Outside the condition: a guard that the count has lost takes one from the others,
or takes the count below zero. -/
theorem destroy_uncounted {s : State} {g : GuardId} (hs : Counting s)
    (hc : s.driver.clearing = false) (hg : g ∈ s.guards.bound) (hu : g ∉ s.guards.counted) :
    (s.destroy g).driver.guardCount = (s.destroy g).guards.counted.card - 1 := by
  have hcounted : (s.destroy g).guards.counted = s.guards.counted := by
    show (s.guards.counted.erase g).erase g = s.guards.counted
    rw [Finset.erase_eq_of_notMem hu, Finset.erase_eq_of_notMem hu]
  have hcount : (s.destroy g).driver.guardCount = s.driver.guardCount - 1 := by
    show (s.release g).driver.guardCount = s.driver.guardCount - 1
    simp only [State.release, hg, hc, and_self, if_true]
  rw [hcounted, hcount, hs.eq hc]

/-- A guard that outlives `clear(); loop()`. -/
def outlivedRun : List Label :=
  [.op (.construct 0), .op (.act .clear), .call .complete, .loop (.finishMigrate []),
    .loop .next, .loop .next, .loop .next, .loop .next, .loop .next, .loop (.tick 0),
    .op (.destroy 0)]

/-- The count can become negative. -/
theorem outlived_negative : ¬ ∀ s, machine.Reachable s → 0 ≤ s.driver.guardCount := by
  intro hall
  have hcount : (machine.exec fresh outlivedRun).map (·.driver.guardCount) = some (-1) := by
    decide +kernel
  rcases Option.map_eq_some_iff.1 hcount with ⟨t, hrun, ht⟩
  have hinit : machine.init fresh := ⟨false, rfl⟩
  have := hall t (Machine.Reachable.of_exec (.init hinit) hrun)
  omega

end Guarded
end Driver
end Cotamer
end Psets
