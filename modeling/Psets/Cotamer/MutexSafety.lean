/-
Mutual exclusion, word accuracy and fairness of the mutex.

Here waiters are destroyed before they are granted the lock or not at all.  The
word has 28 bits for the shared locks, so `2 ^ 28` of them make it zero while
they are held, and the next `try_lock` succeeds beside them.  Below that bound
the word is exact and the lock is safe.  The order of the grants does not depend
on the bound.
-/
import Psets.Cotamer.MutexInvariant

namespace Psets
namespace Cotamer
namespace Mutex

open Transition

/-- A granted ticket is not destroyed before its task resumes. -/
def Op.early : Op → Bool
  | .destroy _ => false
  | _ => true

theorem not_leaks_of_early {s : State} {op : Op} (h : op.early = true) : ¬ Leaks s op := by
  cases op <;> simp_all [Op.early, Leaks]

/-! ## Safety -/

/-- The holders exclude each other, the word is exact and the fast paths are
shortcuts. -/
structure Safe (s : State) : Prop where
  exclusion : s.exclHeld = 0 ∨ s.exclHeld = 1 ∧ s.sharedHeld = 0
  count : s.mutex.word.toNat =
    16 * s.sharedHeld + 8 * s.exclHeld + nextBits s.mutex.waiters
  lock_excl : s.mutex.word &&& mfLockExcl ≠ 0 ↔ s.exclHeld = 1
  next : s.mutex.word &&& mfmNext ≠ 0 ↔ s.mutex.waiters ≠ []
  next_excl : s.mutex.word &&& mfNextExcl ≠ 0 ↔
    ∃ w rest, s.mutex.waiters = w :: rest ∧ w.shared = false
  next_shared : s.mutex.word &&& mfNextShared ≠ 0 ↔
    ∃ w rest, s.mutex.waiters = w :: rest ∧ w.shared = true
  fast : ∀ h ∈ s.holders, ∀ m, s.mutex.fastPath h.shared = some m →
    (∀ w rest, s.mutex.waiters = w :: rest → w.live = true) →
    s.mutex.unlockImpl h.shared = (m, [])

/-- Where a fast path applies and the front waiter is live, the slow path grants
nothing and stores the same word. -/
theorem Inv.fast {s : State} (h : Inv s) {x : Holder} (hx : x ∈ s.holders) {m : Mutex}
    (hm : s.mutex.fastPath x.shared = some m)
    (hlive : ∀ w rest, s.mutex.waiters = w :: rest → w.live = true) :
    s.mutex.unlockImpl x.shared = (m, []) := by
  obtain ⟨hS, hE⟩ := State.erase_held hx
  have hexcl := h.excl
  rw [hE] at hexcl
  have hw := h.word
  rw [hS, hE] at hw
  obtain ⟨rfl, hfront⟩ := fastPath_eq hw hexcl hm
  rw [Mutex.unlockImpl, h.latch, hS, hE, lockWord_sub]
  by_cases hnil : s.mutex.waiters = []
  · rw [hnil]
    rfl
  · obtain ⟨-, hne, w, rest, hws, hsh⟩ := hfront hnil
    have ha : allow w.shared (lockWord ((s.holders.erase x).countP fun h => h.shared)
        ((s.holders.erase x).countP fun h => !h.shared)) = false := by
      rw [hsh, Bool.eq_false_iff]
      intro ha
      apply hne
      apply BitVec.eq_of_toNat_eq
      rw [toNat_lockWord, allow_excl.1 ha]
      rfl
    rw [hws, notifyLocked, if_pos (hlive w rest hws), ha]
    rfl

theorem Inv.safe {s : State} (h : Inv s) (hcomp : Compatible s.sharedHeld s.exclHeld)
    (hfew : FewShared s) : Safe s := by
  have hexcl := h.excl
  have hlt := nextBits_lt s.mutex.waiters
  have hcount : s.mutex.word.toNat =
      16 * s.sharedHeld + 8 * s.exclHeld + nextBits s.mutex.waiters := by
    have hfew' : s.sharedHeld < 2 ^ 28 := hfew
    have hnat := toNat_fullWord s.sharedHeld s.exclHeld s.mutex.waiters
    rw [← h.word] at hnat
    rcases hcomp with hc | ⟨hc, hs⟩ <;> omega
  refine ⟨hcomp, hcount, ?_, ?_, ?_, ?_, fun x hx m hm hlive => h.fast hx hm hlive⟩
  · rw [ne_eq, and_mfLockExcl, hcount]
    omega
  · rw [ne_eq, and_mfmNext, hcount]
    rcases nextBits_cases s.mutex.waiters with ⟨hw, hb⟩ | ⟨w, rest, hw, hs, hb⟩ |
      ⟨w, rest, hw, hs, hb⟩
    · exact iff_of_false (by omega) (by simp [hw])
    · exact iff_of_true (by omega) (by simp [hw])
    · exact iff_of_true (by omega) (by simp [hw])
  · rw [ne_eq, and_mfNextExcl, hcount]
    rcases nextBits_cases s.mutex.waiters with ⟨hw, hb⟩ | ⟨w, rest, hw, hs, hb⟩ |
      ⟨w, rest, hw, hs, hb⟩
    · exact iff_of_false (by omega) (by simp [hw])
    · exact iff_of_true (by omega) ⟨w, rest, hw, hs⟩
    · exact iff_of_false (by omega) (by simp [hw, hs])
  · rw [ne_eq, and_mfNextShared, hcount]
    rcases nextBits_cases s.mutex.waiters with ⟨hw, hb⟩ | ⟨w, rest, hw, hs, hb⟩ |
      ⟨w, rest, hw, hs, hb⟩
    · exact iff_of_false (by omega) (by simp [hw])
    · exact iff_of_false (by omega) (by simp [hw, hs])
    · exact iff_of_true (by omega) ⟨w, rest, hw, hs⟩

theorem Safe.fewShared {s : State} (h : Safe s) : FewShared s := by
  have hcount := h.count
  have hlt := s.mutex.word.isLt
  show s.sharedHeld < 2 ^ 28
  omega

theorem fewShared_start : FewShared {} := show State.sharedHeld {} < 2 ^ 28 by decide

/-- A run is safe throughout exactly when it never holds `2 ^ 28` shared locks at
once. -/
theorem mutex_safe_iff {ops : List Op} (hops : ∀ op ∈ ops, op.early = true) :
    system.Always Safe {} ops ↔ system.Always FewShared {} ops := by
  constructor
  · exact fun h => h.mono fun _ hs => hs.fewShared
  · intro hfew
    have hearly : system.Within (fun _ op => op.early = true) {} ops :=
      Machine.within_of_forall _ fun op hop _ => hops op hop
    refine Machine.Always.of_invariant
      (I := fun s => Inv s ∧ Compatible s.sharedHeld s.exclHeld ∧ FewShared s) ?_
      (fun s hs => hs.1.safe hs.2.1 hs.2.2) ⟨Inv.start, Or.inl rfl, fewShared_start⟩ hearly hfew
    intro s op t ⟨hinv, hcomp, _⟩ hearly hstep hq
    have hk := hinv.step (not_leaks_of_early hearly) hstep
    exact ⟨hk.inv, hk.compatible hcomp hq, hq⟩

theorem mutex_safe_iff_example :
    system.Always Safe {} [.lock true false, .lock false true, .cancel 1, .unlock 0] ↔
      system.Always FewShared {} [.lock true false, .lock false true, .cancel 1, .unlock 0] :=
  mutex_safe_iff (by decide)

/-! ## The word overflows -/

/-- `k` calls to `lock_shared` on an idle mutex are all granted. -/
theorem exec_lockShared (k : Nat) : ∃ s, system.exec {} (List.replicate k (.lock true false)) = some s ∧
    s.mutex = unlatch [] (lockWord k 0) ∧ s.sharedHeld = k ∧ s.exclHeld = 0 := by
  induction k with
  | zero => exact ⟨{}, rfl, by decide, rfl, rfl⟩
  | succ k ih =>
    obtain ⟨s, hs, hm, hS, hE⟩ := ih
    have hword : lockWord k 0 + lockAmount true = lockWord (k + 1) 0 := lockWord_add k 0 true
    have hlatch : s.mutex.latch = lockWord k 0 := by
      rw [Mutex.latch, hm, unlatch_lockWord, latch_fullWord]
    have hws : s.mutex.waiters = [] := by rw [hm]; rfl
    have hstep : step s (.lock true false) = some (State.grant
        { s with mutex := unlatch [] (lockWord (k + 1) 0), nextId := s.nextId + 1 }
        [⟨s.nextId, true, false, true⟩]) := by
      simp only [step, lockImpl, hlatch, hws, notifyLocked, List.isEmpty_nil, Bool.true_and,
        (allow_shared (Nat.zero_le 1)).2, if_true, hword, List.nil_append]
    refine ⟨State.grant
      { s with mutex := unlatch [] (lockWord (k + 1) 0), nextId := s.nextId + 1 }
      [⟨s.nextId, true, false, true⟩], ?_, rfl, ?_, ?_⟩
    · rw [List.replicate_succ', Machine.exec_append hs]
      exact Machine.exec_cons hstep rfl
    · rw [State.grant_sharedHeld]
      exact congrArg (· + 1) hS
    · rw [State.grant_exclHeld]
      exact hE

/-- `k` shared locks, then an exclusive one. -/
def overflowRun (k : Nat) : List Op := List.replicate k (.lock true false) ++ [.tryLock false]

theorem overflowRun_early (k : Nat) : ∀ op ∈ overflowRun k, op.early = true := by
  intro op hop
  rcases List.mem_append.1 hop with hop | hop
  · rw [List.eq_of_mem_replicate hop]
    rfl
  · rw [List.mem_singleton.1 hop]
    rfl

theorem exec_overflowRun {k : Nat} (hk : lockWord k 0 = 0) :
    ∃ s, system.exec {} (overflowRun k) = some s ∧ s.exclHeld = 1 ∧ s.sharedHeld = k := by
  obtain ⟨s, hs, hm, hS, hE⟩ := exec_lockShared k
  have htry : s.mutex.tryLockAny false = some (unlatch [] mfLockExcl) := by
    rw [hm, hk]
    rfl
  have hstep : step s (.tryLock false) = some
      { mutex := unlatch [] mfLockExcl, holders := s.holders ++ [⟨s.nextId, false, false, true⟩],
        grants := s.grants ++ [s.nextId], nextId := s.nextId + 1 } := by
    rw [step, htry]
  refine ⟨{ mutex := unlatch [] mfLockExcl,
            holders := s.holders ++ [⟨s.nextId, false, false, true⟩],
            grants := s.grants ++ [s.nextId], nextId := s.nextId + 1 }, ?_, ?_, ?_⟩
  · rw [overflowRun, Machine.exec_append hs]
    exact Machine.exec_cons hstep rfl
  · rw [exclHeld_append, hE]
    rfl
  · rw [sharedHeld_append, hS]
    rfl

/-- After `2 ^ 28` calls to `lock_shared` the word is zero, and `try_lock` takes the
exclusive lock beside all of them. -/
theorem overflowRun_unsafe : (∀ op ∈ overflowRun (2 ^ 28), op.early = true) ∧
    ∃ s, system.exec {} (overflowRun (2 ^ 28)) = some s ∧ s.exclHeld = 1 ∧
      s.sharedHeld = 2 ^ 28 ∧ ¬ Safe s := by
  obtain ⟨s, hs, hE, hS⟩ := exec_overflowRun (show lockWord (2 ^ 28) 0 = 0 by decide)
  refine ⟨overflowRun_early _, s, hs, hE, hS, fun hsafe => ?_⟩
  rcases hsafe.exclusion with h | ⟨_, h⟩ <;> omega

/-! ## Fairness -/

/-- Tickets are granted in the order of the calls among the live waiters, and a live
waiter waits for somebody. -/
structure Fair (s : State) : Prop where
  increasing : s.grants.Pairwise (· < ·)
  ahead : ∀ g ∈ s.grants, ∀ w ∈ s.mutex.waiters, w.live = true → g < w.id
  held : (∃ w ∈ s.mutex.waiters, w.live = true) → s.holders ≠ []

theorem Inv.fair {s : State} (h : Inv s) : Fair s := by
  refine ⟨h.order.increasing, h.order.ahead, fun hw hnil => h.blocked hw ?_⟩
  rw [State.sharedHeld, State.exclHeld, hnil]
  rfl

theorem mutex_fair {ops : List Op} (hops : ∀ op ∈ ops, op.early = true) :
    system.Always Fair {} ops := by
  have hearly : system.Within (fun _ op => op.early = true) {} ops :=
    Machine.within_of_forall _ fun op hop _ => hops op hop
  refine Machine.Always.of_invariant (I := Inv)
    (Q := fun _ => True) ?_ (fun _ hs => hs.fair) Inv.start hearly (Machine.always_true _ _)
  intro s op t hinv hearly hstep _
  exact (hinv.step (not_leaks_of_early hearly) hstep).inv

/-- A reader and a writer wait behind a writer, the reader gives up, and the second
writer is granted the lock when the first gives it back. -/
theorem mutex_fair_example : system.Always Fair {}
    [.lock false false, .lock true false, .lock false true, .cancel 1, .tryLock true, .unlock 0] :=
  mutex_fair (by decide)

end Mutex
end Cotamer
end Psets
