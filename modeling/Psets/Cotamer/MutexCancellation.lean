/-
Locks lost to cancellation.

`notify_locked` adds a grant to the word when it triggers the waiter's event, and
the lock has an owner only once the task resumes.  A ticket destroyed in between
takes its lock with it, unless the call passed the `owned_` flag of a `unique_lock`
or `shared_lock`: the grant sets that flag, and the destructor gives the lock back.
The word counts the owners that exist in exactly the runs without such a loss, as
long as it can count them.
-/
import Psets.Cotamer.MutexSafety

namespace Psets
namespace Cotamer
namespace Mutex

open Transition

/-- The word counts the locks whose owner still exists, and a live waiter waits for
one of them. -/
structure Counted (s : State) : Prop where
  count : s.mutex.word.toNat =
    16 * s.sharedHeld + 8 * s.exclHeld + nextBits s.mutex.waiters
  owned : (∃ w ∈ s.mutex.waiters, w.live = true) → s.holders ≠ []

theorem Counted.fewShared {s : State} (h : Counted s) : FewShared s := by
  have hcount := h.count
  have hlt := s.mutex.word.isLt
  show s.sharedHeld < 2 ^ 28
  omega

theorem Inv.counted {s : State} (h : Inv s) (hfew : FewShared s) : Counted s := by
  refine ⟨?_, h.fair.held⟩
  have hexcl := h.excl
  have hlt := nextBits_lt s.mutex.waiters
  have hfew' : s.sharedHeld < 2 ^ 28 := hfew
  rw [h.word, toNat_fullWord]
  omega

/-- A lost lock stays in the word and has no owner. -/
theorem Leaks.not_counted {s t : State} {op : Op} (h : Leaks s op) (hs : Counted s)
    (ht : step s op = some t) : ¬ Counted t := by
  cases op with
  | destroy id =>
    obtain ⟨x, hx, hc, hn⟩ := h
    simp only [step, hx, Option.bind_some, hc, hn, Bool.false_eq_true, if_false,
      Option.some.injEq] at ht
    subst ht
    intro hcounted
    have hold := hs.count
    have hnew := hcounted.count
    obtain ⟨hS, hE⟩ := State.erase_held (State.mem_of_holder? hx)
    simp only [State.sharedHeld, State.exclHeld] at hnew hold hS hE
    cases hb : x.shared <;> simp only [hb, Bool.toNat_true, Bool.toNat_false, Bool.not_true,
      Bool.not_false] at hS hE <;> omega
  | _ => exact h.elim

theorem within_of_counted {s : State} {ops : List Op} (hs : Inv s)
    (h : system.Always Counted s ops) : system.Within (fun s op => ¬ Leaks s op) s ops := by
  induction ops generalizing s with
  | nil => trivial
  | cons op ops ih =>
    have hleak : ∀ t, step s op = some t → ¬ Leaks s op := fun t ht hl =>
      hl.not_counted h.1 ht (h.2 t ht).head
    refine ⟨fun hl => ?_, fun t ht => ih (hs.step (hleak t ht) ht).inv (h.2 t ht)⟩
    -- a step that leaks is enabled
    cases op with
    | destroy id =>
      have hl' := hl
      obtain ⟨x, hx, hc, hn⟩ := hl'
      exact hleak { s with holders := s.holders.erase x } (by simp [step, hx, hc, hn]) hl
    | _ => exact hl

/-- The word counts the owners throughout a run exactly when no granted ticket is
destroyed unclaimed and unguarded, and fewer than `2 ^ 28` shared locks are held. -/
theorem mutex_counted_iff (ops : List Op) :
    system.Always Counted {} ops ↔
      system.Within (fun s op => ¬ Leaks s op) {} ops ∧ system.Always FewShared {} ops := by
  constructor
  · exact fun h => ⟨within_of_counted Inv.start h, h.mono fun _ hs => hs.fewShared⟩
  · rintro ⟨hok, hfew⟩
    refine Machine.Always.of_invariant (I := fun s => Inv s ∧ FewShared s) ?_
      (fun s hs => hs.1.counted hs.2) ⟨Inv.start, fewShared_start⟩ hok hfew
    intro s op t ⟨hinv, _⟩ hleak hstep hq
    exact ⟨(hinv.step hleak hstep).inv, hq⟩

/-- A task waits for the lock, is granted it, and is destroyed before it resumes. -/
def leakRun : List Op :=
  [.lock false false, .claim 0, .lock false false, .unlock 0, .destroy 1, .lock false false]

/-- The next task waits for a lock that nobody owns. -/
theorem leakRun_blocked : ∃ s, system.exec {} leakRun = some s ∧ s.holders = [] ∧
    (∃ w ∈ s.mutex.waiters, w.live = true) ∧ s.mutex.word &&& mfLockExcl ≠ 0 ∧ ¬ Counted s := by
  refine ⟨{ mutex := { word := 10, waiters := [⟨2, false, false, true⟩] }, grants := [0, 1],
            nextId := 3 }, by decide, rfl, by decide, by decide, fun h => ?_⟩
  exact absurd h.count (by decide)

/-- The same run with a `unique_lock`: its destructor gives the lock back. -/
example : (system.exec {} [.lock false false, .claim 0, .lock false true, .unlock 0, .destroy 1,
    .lock false false]).map (fun s => (s.mutex.word, s.holders.length)) = some (8, 1) := by
  decide

end Mutex
end Cotamer
end Psets
