/-
What every operation on the mutex keeps.

`notifyLocked` starts from the word of `S` shared and `E` exclusive locks and
grants waiters one by one, so its lemmas are inductions on the queue that carry
`S` and `E`.  The invariant says that the word counts the holders modulo
`2 ^ 32`, and that the queue and the grants are in ticket order.  It does not say
that an exclusive holder is alone: that needs a bound on the holders.
-/
import Mathlib.Data.List.Count
import Psets.Cotamer.MutexWord

namespace Psets
namespace Cotamer
namespace Mutex

/-! ## What `notify_locked` grants -/

def sharedCount (ws : List Waiter) : Nat := ws.countP fun w => w.shared
def exclCount (ws : List Waiter) : Nat := ws.countP fun w => !w.shared

theorem sharedCount_cons (w : Waiter) (ws : List Waiter) :
    sharedCount (w :: ws) = sharedCount ws + w.shared.toNat := by
  cases hw : w.shared <;> simp [sharedCount, hw]

theorem exclCount_cons (w : Waiter) (ws : List Waiter) :
    exclCount (w :: ws) = exclCount ws + (!w.shared).toNat := by
  cases hw : w.shared <;> simp [exclCount, hw]

theorem sharedCount_append (ws : List Waiter) (w : Waiter) :
    sharedCount (ws ++ [w]) = sharedCount ws + w.shared.toNat := by
  cases hw : w.shared <;> simp [sharedCount, hw]

theorem exclCount_append (ws : List Waiter) (w : Waiter) :
    exclCount (ws ++ [w]) = exclCount ws + (!w.shared).toNat := by
  cases hw : w.shared <;> simp [exclCount, hw]

theorem allow_shared {S E : Nat} (hE : E ≤ 1) :
    allow true (lockWord S E) = true ↔ E = 0 := by
  simp only [allow, if_true, beq_iff_eq]
  rw [and_mfLockExcl, toNat_lockWord]
  omega

theorem allow_excl {S E : Nat} :
    allow false (lockWord S E) = true ↔ (16 * S + 8 * E) % 2 ^ 32 = 0 := by
  simp only [allow, Bool.false_eq_true, if_false, decide_eq_true_eq, BitVec.lt_def,
    toNat_lockWord]
  rw [show mfLockExcl.toNat = 8 from rfl]
  omega

/-- An exclusive lock is granted only where no exclusive lock is held. -/
theorem excl_eq_zero_of_allow {S E : Nat} (hE : E ≤ 1) {b : Bool}
    (h : allow b (lockWord S E) = true) : E = 0 := by
  cases b with
  | false =>
    have := allow_excl.1 h
    omega
  | true => exact (allow_shared hE).1 h

theorem lockWord_ne_zero_of_not_allow {S E : Nat} (hE : E ≤ 1) {b : Bool}
    (h : allow b (lockWord S E) = false) : lockWord S E ≠ 0 := by
  intro hz
  have hnat : (16 * S + 8 * E) % 2 ^ 32 = 0 := by
    rw [← toNat_lockWord, hz]
    rfl
  cases b with
  | false =>
    rw [allow_excl.2 hnat] at h
    exact absurd h (by simp)
  | true =>
    rw [(allow_shared hE).2 (by omega)] at h
    exact absurd h (by simp)

theorem notifyLocked_word (ws : List Waiter) (S E : Nat) :
    (notifyLocked ws (lockWord S E)).2.1 =
      lockWord (S + sharedCount (notifyLocked ws (lockWord S E)).2.2)
        (E + exclCount (notifyLocked ws (lockWord S E)).2.2) := by
  induction ws generalizing S E with
  | nil => rfl
  | cons fw rest ih =>
    rw [notifyLocked]
    by_cases hlive : fw.live = true
    · rw [if_pos hlive]
      by_cases ha : (!allow fw.shared (lockWord S E)) = true
      · rw [if_pos ha]
        rfl
      · rw [if_neg ha]
        simp only [lockWord_add, sharedCount_cons, exclCount_cons, ih]
        congr 1 <;> omega
    · rw [if_neg hlive]
      exact ih S E

theorem notifyLocked_excl (ws : List Waiter) (S : Nat) {E : Nat} (hE : E ≤ 1) :
    E + exclCount (notifyLocked ws (lockWord S E)).2.2 ≤ 1 := by
  induction ws generalizing S E with
  | nil => simpa [notifyLocked, exclCount] using hE
  | cons fw rest ih =>
    rw [notifyLocked]
    by_cases hlive : fw.live = true
    · rw [if_pos hlive]
      by_cases ha : allow fw.shared (lockWord S E) = true
      · have hz := excl_eq_zero_of_allow hE ha
        rw [if_neg (by simp [ha])]
        simp only [lockWord_add, exclCount_cons]
        have := ih (S + fw.shared.toNat) (E := E + (!fw.shared).toNat)
          (by cases fw.shared <;> simp [hz])
        omega
      · rw [if_pos (by simpa using ha)]
        simpa [exclCount] using hE
    · rw [if_neg hlive]
      exact ih S hE

/-- No exclusive lock is held together with another lock. -/
def Compatible (S E : Nat) : Prop := E = 0 ∨ E = 1 ∧ S = 0

/-- While the shared locks fit into the word, what is granted is compatible. -/
theorem notifyLocked_compatible (ws : List Waiter) {S E : Nat} (h : Compatible S E)
    (hroom : S + sharedCount (notifyLocked ws (lockWord S E)).2.2 < 2 ^ 28) :
    Compatible (S + sharedCount (notifyLocked ws (lockWord S E)).2.2)
      (E + exclCount (notifyLocked ws (lockWord S E)).2.2) := by
  induction ws generalizing S E with
  | nil => simpa [notifyLocked, sharedCount, exclCount] using h
  | cons fw rest ih =>
    rw [notifyLocked] at hroom ⊢
    by_cases hlive : fw.live = true
    · rw [if_pos hlive] at hroom ⊢
      by_cases ha : allow fw.shared (lockWord S E) = true
      · rw [if_neg (by simp [ha])] at hroom ⊢
        simp only [lockWord_add, sharedCount_cons, exclCount_cons] at hroom ⊢
        have hE : E = 0 := excl_eq_zero_of_allow (by rcases h with h | h <;> omega) ha
        have hnew : Compatible (S + fw.shared.toNat) (E + (!fw.shared).toNat) := by
          cases hs : fw.shared with
          | true => exact Or.inl (by simp [hE])
          | false =>
            rw [hs] at ha
            have := allow_excl.1 ha
            exact Or.inr ⟨by simp [hE], by simp; omega⟩
        have := ih hnew (by omega)
        rwa [Nat.add_right_comm, Nat.add_right_comm E, Nat.add_assoc, Nat.add_assoc E] at this
      · rw [if_pos (by simpa using ha)]
        simpa [sharedCount, exclCount] using h
    · rw [if_neg hlive] at hroom ⊢
      exact ih h hroom

/-- The waiters that leave the queue are a prefix of it, and the live ones among
them are granted in order. -/
theorem notifyLocked_queue (ws : List Waiter) (l : LatchType) :
    ∃ pre, ws = pre ++ (notifyLocked ws l).1 ∧
      (notifyLocked ws l).2.2 = pre.filter fun w => w.live := by
  induction ws generalizing l with
  | nil => exact ⟨[], rfl, rfl⟩
  | cons fw rest ih =>
    rw [notifyLocked]
    by_cases hlive : fw.live = true
    · rw [if_pos hlive]
      by_cases ha : (!allow fw.shared l) = true
      · rw [if_pos ha]
        exact ⟨[], rfl, rfl⟩
      · rw [if_neg ha]
        obtain ⟨pre, hq, hg⟩ := ih (l + lockAmount fw.shared)
        refine ⟨fw :: pre, ?_, ?_⟩
        · simpa using hq
        · simp only [List.filter_cons, hlive, if_true, hg]
    · rw [if_neg hlive]
      obtain ⟨pre, hq, hg⟩ := ih l
      refine ⟨fw :: pre, ?_, ?_⟩
      · simpa using hq
      · simp only [List.filter_cons, hlive, Bool.false_eq_true, if_false, hg]

/-- The loop stops at the end of the queue or at a live waiter it may not grant. -/
theorem notifyLocked_front (ws : List Waiter) (l : LatchType) :
    (notifyLocked ws l).1 = [] ∨ ∃ w rest, (notifyLocked ws l).1 = w :: rest ∧
      w.live = true ∧ allow w.shared (notifyLocked ws l).2.1 = false := by
  induction ws generalizing l with
  | nil => exact Or.inl rfl
  | cons fw rest ih =>
    rw [notifyLocked]
    by_cases hlive : fw.live = true
    · rw [if_pos hlive]
      by_cases ha : (!allow fw.shared l) = true
      · rw [if_pos ha]
        exact Or.inr ⟨fw, rest, rfl, hlive, by simpa using ha⟩
      · rw [if_neg ha]
        exact ih (l + lockAmount fw.shared)
    · rw [if_neg hlive]
      exact ih l

/-! ## Ticket order -/

/-- Waiters queue in ticket order, and nobody was granted the lock ahead of a live
waiter with an earlier ticket. -/
structure Ordered (grants : List Nat) (ws : List Waiter) (next : Nat) : Prop where
  sorted : ws.Pairwise fun a b => a.id < b.id
  fresh : ∀ w ∈ ws, w.id < next
  granted : ∀ g ∈ grants, g < next
  ahead : ∀ g ∈ grants, ∀ w ∈ ws, w.live = true → g < w.id
  increasing : grants.Pairwise (· < ·)

namespace Ordered

variable {gs : List Nat} {ws : List Waiter} {n : Nat}

/-- The live waiters of a prefix of the queue are granted. -/
theorem notify {pre : List Waiter} (h : Ordered gs (pre ++ ws) n) :
    Ordered (gs ++ (pre.filter fun w => w.live).map Waiter.id) ws n := by
  obtain ⟨hpre, hws, hcross⟩ := List.pairwise_append.1 h.sorted
  have hmem : ∀ g ∈ (pre.filter fun w => w.live).map Waiter.id,
      ∃ w ∈ pre, w.live = true ∧ w.id = g := by
    intro g hg
    obtain ⟨w, hw, rfl⟩ := List.mem_map.1 hg
    exact ⟨w, (List.mem_filter.1 hw).1, by simpa using (List.mem_filter.1 hw).2, rfl⟩
  refine ⟨hws, fun w hw => h.fresh w (List.mem_append_right _ hw), fun g hg => ?_,
    fun g hg w hw hlive => ?_, ?_⟩
  · rcases List.mem_append.1 hg with hg | hg
    · exact h.granted g hg
    · obtain ⟨w, hw, _, rfl⟩ := hmem g hg
      exact h.fresh w (List.mem_append_left _ hw)
  · rcases List.mem_append.1 hg with hg | hg
    · exact h.ahead g hg w (List.mem_append_right _ hw) hlive
    · obtain ⟨w', hw', _, rfl⟩ := hmem g hg
      exact hcross w' hw' w hw
  · refine List.pairwise_append.2 ⟨h.increasing, ?_, fun g hg g' hg' => ?_⟩
    · exact List.pairwise_map.2 (hpre.filter _)
    · obtain ⟨w, hw, hlive, rfl⟩ := hmem g' hg'
      exact h.ahead g hg w (List.mem_append_left _ hw) hlive

/-- A new ticket joins the queue. -/
theorem push (h : Ordered gs ws n) {w : Waiter} (hw : w.id = n) :
    Ordered gs (ws ++ [w]) (n + 1) := by
  refine ⟨?_, fun w' hw' => ?_, fun g hg => Nat.lt_succ_of_lt (h.granted g hg),
    fun g hg w' hw' hlive => ?_, h.increasing⟩
  · refine List.pairwise_append.2 ⟨h.sorted, List.pairwise_singleton _ _, fun a ha b hb => ?_⟩
    rw [List.mem_singleton.1 hb, hw]
    exact h.fresh a ha
  · rcases List.mem_append.1 hw' with hw' | hw'
    · exact Nat.lt_succ_of_lt (h.fresh w' hw')
    · rw [List.mem_singleton.1 hw', hw]
      exact Nat.lt_succ_self n
  · rcases List.mem_append.1 hw' with hw' | hw'
    · exact h.ahead g hg w' hw' hlive
    · rw [List.mem_singleton.1 hw', hw]
      exact h.granted g hg

/-- A new ticket is granted at once, past an empty queue. -/
theorem take (h : Ordered gs [] n) : Ordered (gs ++ [n]) [] (n + 1) := by
  refine ⟨List.Pairwise.nil, by simp, fun g hg => ?_, by simp, ?_⟩
  · rcases List.mem_append.1 hg with hg | hg
    · exact Nat.lt_succ_of_lt (h.granted g hg)
    · rw [List.mem_singleton.1 hg]
      exact Nat.lt_succ_self n
  · refine List.pairwise_append.2 ⟨h.increasing, List.pairwise_singleton _ _,
      fun g hg g' hg' => ?_⟩
    rw [List.mem_singleton.1 hg']
    exact h.granted g hg

/-- A ticket that is neither granted nor queued. -/
theorem skip (h : Ordered gs ws n) : Ordered gs ws (n + 1) :=
  ⟨h.sorted, fun w hw => Nat.lt_succ_of_lt (h.fresh w hw),
    fun g hg => Nat.lt_succ_of_lt (h.granted g hg), h.ahead, h.increasing⟩

theorem cancel (h : Ordered gs ws n) (id : Nat) :
    Ordered gs (ws.map fun w => if w.id = id then { w with live := false } else w) n := by
  have hid : ∀ w : Waiter, (if w.id = id then { w with live := false } else w).id = w.id := by
    intro w
    split <;> rfl
  have hlive : ∀ w : Waiter,
      (if w.id = id then { w with live := false } else w).live = true → w.live = true := by
    intro w hl
    split at hl
    · simp at hl
    · exact hl
  refine ⟨?_, fun w hw => ?_, h.granted, fun g hg w hw hl => ?_, h.increasing⟩
  · rw [List.pairwise_map]
    refine h.sorted.imp fun hab => ?_
    rw [hid, hid]
    exact hab
  · obtain ⟨w', hw', rfl⟩ := List.mem_map.1 hw
    rw [hid]
    exact h.fresh w' hw'
  · obtain ⟨w', hw', rfl⟩ := List.mem_map.1 hw
    rw [hid]
    exact h.ahead g hg w' hw' (hlive w' hl)

end Ordered

/-! ## The invariant -/

namespace State

def sharedHeld (s : State) : Nat := s.holders.countP fun h => h.shared
def exclHeld (s : State) : Nat := s.holders.countP fun h => !h.shared

@[simp] theorem grant_mutex (s : State) (ws : List Waiter) : (s.grant ws).mutex = s.mutex := rfl
@[simp] theorem grant_nextId (s : State) (ws : List Waiter) :
    (s.grant ws).nextId = s.nextId := rfl
@[simp] theorem grant_grants (s : State) (ws : List Waiter) :
    (s.grant ws).grants = s.grants ++ ws.map Waiter.id := rfl

theorem grant_sharedHeld (s : State) (ws : List Waiter) :
    (s.grant ws).sharedHeld = s.sharedHeld + sharedCount ws := by
  simp [sharedHeld, grant, sharedCount, Function.comp_def]

theorem grant_exclHeld (s : State) (ws : List Waiter) :
    (s.grant ws).exclHeld = s.exclHeld + exclCount ws := by
  simp [exclHeld, grant, exclCount, Function.comp_def]

/-- The holder that gives its lock back is no longer counted. -/
theorem erase_held {s : State} {h : Holder} (hh : h ∈ s.holders) :
    s.sharedHeld = (s.holders.erase h).countP (fun h => h.shared) + h.shared.toNat ∧
      s.exclHeld = (s.holders.erase h).countP (fun h => !h.shared) + (!h.shared).toNat := by
  have hperm := List.perm_cons_erase hh
  constructor
  · rw [sharedHeld, hperm.countP_eq, List.countP_cons]
    cases h.shared <;> rfl
  · rw [exclHeld, hperm.countP_eq, List.countP_cons]
    cases h.shared <;> rfl

theorem mem_of_holder? {s : State} {id : Nat} {h : Holder} (hh : s.holder? id = some h) :
    h ∈ s.holders := List.mem_of_find?_eq_some hh

end State

structure Inv (s : State) : Prop where
  word : s.mutex.word = fullWord s.sharedHeld s.exclHeld s.mutex.waiters
  excl : s.exclHeld ≤ 1
  blocked : (∃ w ∈ s.mutex.waiters, w.live = true) → lockWord s.sharedHeld s.exclHeld ≠ 0
  order : Ordered s.grants s.mutex.waiters s.nextId

/-- An operation that ends with `unlatch`. -/
theorem Inv.of_unlatch {s : State} {ws : List Waiter} {S E : Nat}
    (hm : s.mutex = unlatch ws (lockWord S E)) (hS : s.sharedHeld = S) (hE : s.exclHeld = E)
    (hle : E ≤ 1) (hblocked : (∃ w ∈ ws, w.live = true) → lockWord S E ≠ 0)
    (horder : Ordered s.grants ws s.nextId) : Inv s := by
  rw [unlatch_lockWord] at hm
  exact ⟨by rw [hm, hS, hE], by rw [hE]; exact hle, by rw [hm, hS, hE]; exact hblocked,
    by rw [hm]; exact horder⟩

theorem Inv.latch {s : State} (h : Inv s) : s.mutex.latch = lockWord s.sharedHeld s.exclHeld := by
  rw [Mutex.latch, h.word, latch_fullWord]

/-- The outcome of the loop of `notify_locked` over the holders `S` and `E`. -/
structure Notified (ws : List Waiter) (S E : Nat) (ws' : List Waiter) (l : LatchType)
    (g : List Waiter) : Prop where
  word : l = lockWord (S + sharedCount g) (E + exclCount g)
  excl : E + exclCount g ≤ 1
  queue : ∃ pre, ws = pre ++ ws' ∧ g = pre.filter fun w => w.live
  /-- whoever still waits is blocked by a lock -/
  blocked : ws' ≠ [] → lockWord (S + sharedCount g) (E + exclCount g) ≠ 0
  compatible : Compatible S E → S + sharedCount g < 2 ^ 28 →
    Compatible (S + sharedCount g) (E + exclCount g)

theorem notifyLocked_spec {ws ws' g : List Waiter} {S E : Nat} {l : LatchType} (hE : E ≤ 1)
    (h : notifyLocked ws (lockWord S E) = (ws', l, g)) : Notified ws S E ws' l g := by
  have hword := notifyLocked_word ws S E
  have hexcl := notifyLocked_excl ws S hE
  have hqueue := notifyLocked_queue ws (lockWord S E)
  have hfront := notifyLocked_front ws (lockWord S E)
  have hcomp := fun hc => notifyLocked_compatible ws (S := S) (E := E) hc
  rw [h] at hword hexcl hqueue hfront hcomp
  refine ⟨hword, hexcl, hqueue, fun hne => ?_, hcomp⟩
  rcases hfront with hnil | ⟨w, rest, _, _, ha⟩
  · exact absurd hnil hne
  · have hl : l = lockWord (S + sharedCount g) (E + exclCount g) := hword
    subst hl
    exact lockWord_ne_zero_of_not_allow hexcl ha

theorem Notified.order {ws ws' g : List Waiter} {S E n : Nat} {l : LatchType} {gs : List Nat}
    (h : Notified ws S E ws' l g) (ho : Ordered gs ws n) :
    Ordered (gs ++ g.map Waiter.id) ws' n := by
  obtain ⟨pre, rfl, rfl⟩ := h.queue
  exact ho.notify

/-! ## The operations -/

/-- Fewer than `2 ^ 28` shared locks are held, so that the word can count them. -/
def FewShared (s : State) : Prop := s.sharedHeld < 2 ^ 28

/-- What an operation does to the invariant. -/
structure Kept (s t : State) : Prop where
  inv : Inv t
  compatible : Compatible s.sharedHeld s.exclHeld → FewShared t →
    Compatible t.sharedHeld t.exclHeld

theorem Inv.lock {s : State} (h : Inv s) (shared notify : Bool) {t : State}
    (ht : step s (.lock shared notify) = some t) : Kept s t := by
  rcases hr : notifyLocked s.mutex.waiters (lockWord s.sharedHeld s.exclHeld) with ⟨ws, l, g⟩
  have hn := notifyLocked_spec h.excl hr
  have horder := hn.order h.order
  simp only [step, lockImpl, h.latch, hr, Option.some.injEq] at ht
  subst ht
  by_cases hc : (ws.isEmpty && allow shared l) = true
  · -- the new ticket is granted past an empty queue
    obtain ⟨hnil, ha⟩ := Bool.and_eq_true_iff.1 hc
    obtain rfl : ws = [] := List.isEmpty_iff.1 hnil
    rw [hn.word] at ha
    have hz := excl_eq_zero_of_allow hn.excl ha
    simp only [if_pos hc]
    have hm : unlatch [] (l + lockAmount shared) = unlatch []
        (lockWord (s.sharedHeld + sharedCount g + shared.toNat)
          (s.exclHeld + exclCount g + (!shared).toNat)) := by
      rw [hn.word, lockWord_add]
    have hS : State.sharedHeld (State.grant
        { s with mutex := unlatch [] (l + lockAmount shared), nextId := s.nextId + 1 }
        (g ++ [⟨s.nextId, shared, notify, true⟩])) =
        s.sharedHeld + sharedCount g + shared.toNat := by
      rw [State.grant_sharedHeld, sharedCount_append, ← Nat.add_assoc]
      rfl
    have hE : State.exclHeld (State.grant
        { s with mutex := unlatch [] (l + lockAmount shared), nextId := s.nextId + 1 }
        (g ++ [⟨s.nextId, shared, notify, true⟩])) =
        s.exclHeld + exclCount g + (!shared).toNat := by
      rw [State.grant_exclHeld, exclCount_append, ← Nat.add_assoc]
      rfl
    refine ⟨Inv.of_unlatch hm hS hE ?_ (by simp) (by simpa using horder.take),
      fun hcomp hfew => ?_⟩
    · rw [hz]
      cases shared <;> simp
    · rw [FewShared, hS] at hfew
      rw [hS, hE]
      cases shared with
      | true => exact Or.inl (by simpa using hz)
      | false =>
        have := allow_excl.1 ha
        rw [hz] at this ⊢
        simp only [Bool.toNat_false] at hfew
        exact Or.inr ⟨rfl, by simp only [Bool.toNat_false]; omega⟩
  · -- the new ticket waits behind a queue or a lock
    simp only [if_neg hc]
    have hS := State.grant_sharedHeld
      { s with mutex := unlatch (ws ++ [⟨s.nextId, shared, notify, true⟩]) l,
               nextId := s.nextId + 1 } g
    have hE := State.grant_exclHeld
      { s with mutex := unlatch (ws ++ [⟨s.nextId, shared, notify, true⟩]) l,
               nextId := s.nextId + 1 } g
    refine ⟨Inv.of_unlatch (congrArg (unlatch _) hn.word) hS hE hn.excl (fun _ => ?_)
      (horder.push rfl), fun hcomp hfew => ?_⟩
    · by_cases hnil : ws = []
      · rw [hnil, List.isEmpty_nil, Bool.true_and, hn.word, Bool.not_eq_true] at hc
        exact lockWord_ne_zero_of_not_allow hn.excl hc
      · exact hn.blocked hnil
    · rw [FewShared, hS] at hfew
      rw [hS, hE]
      exact hn.compatible hcomp hfew

theorem nextBits_eq_zero {ws : List Waiter} (h : nextBits ws = 0) : ws = [] := by
  rcases nextBits_cases ws with ⟨hws, _⟩ | ⟨_, _, _, _, hb⟩ | ⟨_, _, _, _, hb⟩
  · exact hws
  · omega
  · omega

/-- The try paths succeed only past an empty queue and no exclusive lock. -/
theorem Inv.tryLockAny_eq {s : State} (h : Inv s) {b : Bool} {m : Mutex}
    (hm : s.mutex.tryLockAny b = some m) :
    s.mutex.waiters = [] ∧ s.exclHeld = 0 ∧
      (b = false → (16 * s.sharedHeld) % 2 ^ 32 = 0) ∧
      m = unlatch [] (lockWord (s.sharedHeld + b.toNat) (s.exclHeld + (!b).toNat)) := by
  have hexcl := h.excl
  have hlt := nextBits_lt s.mutex.waiters
  have hnat := toNat_fullWord s.sharedHeld s.exclHeld s.mutex.waiters
  rw [← h.word] at hnat
  have hrest : nextBits s.mutex.waiters = 0 →
      unlatch [] (lockWord (s.sharedHeld + b.toNat) (s.exclHeld + (!b).toNat)) =
        { word := s.mutex.word + lockAmount b, waiters := s.mutex.waiters } := by
    intro hnb
    rw [← lockWord_add, unlatch, h.word, nextBits_eq_zero hnb]
    rfl
  cases b with
  | false =>
    simp only [Mutex.tryLockAny, Bool.false_eq_true, if_false, Mutex.tryLock] at hm
    by_cases hz : s.mutex.word = 0
    · rw [if_pos hz] at hm
      simp only [Option.some.injEq] at hm
      rw [hz] at hnat
      simp only [BitVec.ofNat_eq_ofNat, BitVec.toNat_ofNat] at hnat
      have hnb : nextBits s.mutex.waiters = 0 := by omega
      have hE : s.exclHeld = 0 := by omega
      refine ⟨nextBits_eq_zero hnb, hE, fun _ => by omega, ?_⟩
      rw [hrest hnb, ← hm, hz]
      rfl
    · rw [if_neg hz] at hm
      simp at hm
  | true =>
    simp only [Mutex.tryLockAny, if_true, Mutex.tryLockShared, ne_eq, ite_not] at hm
    by_cases hz : s.mutex.word &&& (mfLatch ||| mfmNext ||| mfLockExcl) = 0
    · rw [if_pos hz] at hm
      simp only [Option.some.injEq] at hm
      rw [and_or_eq_zero, and_or_eq_zero, and_mfLatch, and_mfmNext, and_mfLockExcl, hnat] at hz
      have hnb : nextBits s.mutex.waiters = 0 := by omega
      have hE : s.exclHeld = 0 := by omega
      refine ⟨nextBits_eq_zero hnb, hE, by simp, ?_⟩
      rw [hrest hnb, ← hm]
      rfl
    · rw [if_neg hz] at hm
      simp at hm

/-- A lock taken by a try path. -/
theorem sharedHeld_append (s : State) (m : Mutex) (h : Holder) (gs : List Nat) (n : Nat) :
    ({ mutex := m, holders := s.holders ++ [h], grants := gs, nextId := n } : State).sharedHeld =
      s.sharedHeld + h.shared.toNat := by
  cases hs : h.shared <;> simp [State.sharedHeld, hs]

theorem exclHeld_append (s : State) (m : Mutex) (h : Holder) (gs : List Nat) (n : Nat) :
    ({ mutex := m, holders := s.holders ++ [h], grants := gs, nextId := n } : State).exclHeld =
      s.exclHeld + (!h.shared).toNat := by
  cases hs : h.shared <;> simp [State.exclHeld, hs]

theorem Inv.tryLock {s : State} (h : Inv s) (shared : Bool) {t : State}
    (ht : step s (.tryLock shared) = some t) : Kept s t := by
  rw [step] at ht
  rcases hm : s.mutex.tryLockAny shared with _ | m
  · simp only [hm, Option.some.injEq] at ht
    subst ht
    exact ⟨⟨h.word, h.excl, h.blocked, h.order.skip⟩, fun hcomp _ => hcomp⟩
  · simp only [hm, Option.some.injEq] at ht
    subst ht
    obtain ⟨hws, hE, hS, rfl⟩ := h.tryLockAny_eq hm
    refine ⟨Inv.of_unlatch (show _ = unlatch [] _ from rfl) (sharedHeld_append ..)
      (exclHeld_append ..) ?_ (by simp) ?_, fun _ hfew => ?_⟩
    · rw [hE]
      cases shared <;> simp
    · have := h.order
      rw [hws] at this
      exact this.take
    · rw [FewShared, sharedHeld_append] at hfew
      rw [sharedHeld_append, exclHeld_append, hE]
      cases shared with
      | true => exact Or.inl rfl
      | false =>
        have := hS rfl
        simp only [Bool.toNat_false] at hfew ⊢
        exact Or.inr ⟨rfl, by omega⟩

/-- A fast path takes the lock out of the word.  It is not taken while the next
waiter could be granted the lock. -/
theorem fastPath_eq {m m' : Mutex} {S E : Nat} {b : Bool}
    (hw : m.word = fullWord (S + b.toNat) (E + (!b).toNat) m.waiters)
    (hE : E + (!b).toNat ≤ 1) (hm : m.fastPath b = some m') :
    m' = unlatch m.waiters (lockWord S E) ∧
      (m.waiters ≠ [] → b = true ∧ lockWord S E ≠ 0 ∧
        ∃ w rest, m.waiters = w :: rest ∧ w.shared = false) := by
  have hnat := toNat_fullWord (S + b.toNat) (E + (!b).toNat) m.waiters
  rw [← hw] at hnat
  have hsub : m.word - lockAmount b = fullWord S E m.waiters := by
    have hsum : fullWord (S + b.toNat) (E + (!b).toNat) m.waiters =
        fullWord S E m.waiters + lockAmount b := by
      apply BitVec.eq_of_toNat_eq
      cases b <;>
        simp [fullWord, lockAmount, mfLockShared, mfLockExcl, BitVec.toNat_add] <;> omega
    rw [hw, hsum]
    exact BitVec.add_sub_cancel _ _
  cases b with
  | false =>
    simp only [Mutex.fastPath, Bool.false_eq_true, if_false, Mutex.unlockFast] at hm
    by_cases hc : m.word &&& (mfLatch ||| mfmNext) = 0
    · rw [if_pos hc] at hm
      simp only [Option.some.injEq] at hm
      rw [and_or_eq_zero, and_mfLatch, and_mfmNext, hnat] at hc
      have hlt := nextBits_lt m.waiters
      have hws : m.waiters = [] := nextBits_eq_zero (by omega)
      refine ⟨?_, fun hne => absurd hws hne⟩
      rw [unlatch_lockWord, ← hsub, ← hm]
      rfl
    · rw [if_neg hc] at hm
      simp at hm
  | true =>
    simp only [Mutex.fastPath, if_true, Mutex.unlockSharedFast] at hm
    by_cases hc : m.word &&& (mfLatch ||| mfNextShared) = 0 ∧
        (m.word &&& mfNextExcl = 0 ∨ 2 * mfLockShared ≤ m.word)
    · rw [if_pos hc] at hm
      simp only [Option.some.injEq] at hm
      refine ⟨?_, fun hne => ⟨rfl, ?_⟩⟩
      · rw [unlatch_lockWord, ← hsub, ← hm]
        rfl
      · obtain ⟨hbits, hmore⟩ := hc
        rw [and_or_eq_zero, and_mfLatch, and_mfNextShared, hnat] at hbits
        rw [and_mfNextExcl, BitVec.le_def, hnat, show (2 * mfLockShared).toNat = 32 from rfl]
          at hmore
        rcases nextBits_cases m.waiters with ⟨hws, _⟩ | ⟨w, rest, hws, hsh, hb⟩ | ⟨_, _, _, _, hb⟩
        · exact absurd hws hne
        · refine ⟨fun hz => ?_, w, rest, hws, hsh⟩
          have hz' := congrArg BitVec.toNat hz
          rw [toNat_lockWord] at hz'
          simp only [BitVec.ofNat_eq_ofNat, BitVec.toNat_ofNat, Bool.toNat_true, Bool.not_true,
            Bool.toNat_false] at *
          omega
        · omega
    · rw [if_neg hc] at hm
      simp at hm

theorem Inv.release {s : State} (h : Inv s) {x : Holder} (hx : x ∈ s.holders) :
    Kept s (s.release x) := by
  obtain ⟨hS, hE⟩ := State.erase_held hx
  have hexcl := h.excl
  rw [hE] at hexcl
  have hdrop : ∀ {S E : Nat} {b : Bool}, Compatible (S + b.toNat) (E + (!b).toNat) →
      Compatible S E := by
    intro S E b hc
    rcases hc with hc | ⟨hc, hs⟩
    · exact Or.inl (by omega)
    · cases b <;> simp only [Bool.toNat_true, Bool.toNat_false, Bool.not_true, Bool.not_false]
        at hc hs
      · exact Or.inl (by omega)
      · omega
  rw [State.release, Mutex.unlock]
  rcases hm : s.mutex.fastPath x.shared with _ | m
  · have hl : s.mutex.latch - lockAmount x.shared =
        lockWord ((s.holders.erase x).countP fun h => h.shared)
          ((s.holders.erase x).countP fun h => !h.shared) := by
      rw [h.latch, hS, hE, lockWord_sub]
    rcases hr : notifyLocked s.mutex.waiters
      (lockWord ((s.holders.erase x).countP fun h => h.shared)
        ((s.holders.erase x).countP fun h => !h.shared)) with ⟨ws, l, g⟩
    have hn := notifyLocked_spec (by omega) hr
    simp only [Mutex.unlockImpl, hl, hr]
    have hS' := State.grant_sharedHeld
      { s with mutex := unlatch ws l, holders := s.holders.erase x } g
    have hE' := State.grant_exclHeld
      { s with mutex := unlatch ws l, holders := s.holders.erase x } g
    refine ⟨Inv.of_unlatch (congrArg (unlatch _) hn.word) hS' hE' hn.excl
      (fun hw => hn.blocked ?_) (hn.order h.order), fun hcomp hfew => ?_⟩
    · obtain ⟨w, hw, _⟩ := hw
      exact List.ne_nil_of_mem hw
    · rw [FewShared, hS'] at hfew
      rw [hS', hE']
      rw [hS, hE] at hcomp
      exact hn.compatible (hdrop hcomp) hfew
  · have hw := h.word
    rw [hS, hE] at hw
    obtain ⟨hm', hblocked⟩ := fastPath_eq hw hexcl hm
    have hgrant : ({ s with mutex := m, holders := s.holders.erase x } : State).grant [] =
        { s with mutex := m, holders := s.holders.erase x } := by
      simp [State.grant]
    simp only [hgrant]
    refine ⟨Inv.of_unlatch hm' rfl rfl (by omega) (fun hw => ?_) h.order, fun hcomp _ => ?_⟩
    · obtain ⟨w, hw, _⟩ := hw
      exact (hblocked (List.ne_nil_of_mem hw)).2.1
    · rw [hS, hE] at hcomp
      exact hdrop hcomp

theorem nextBits_cancel (ws : List Waiter) (id : Nat) :
    nextBits (ws.map fun w => if w.id = id then { w with live := false } else w) =
      nextBits ws := by
  rcases ws with _ | ⟨w, rest⟩
  · rfl
  · simp only [List.map_cons, nextBits]
    split <;> rfl

/-- A cancelled waiter keeps its place in the queue and its next bit. -/
theorem Inv.cancel {s : State} (h : Inv s) (id : Nat) {t : State}
    (ht : step s (.cancel id) = some t) : Kept s t := by
  rw [step] at ht
  by_cases hc : (s.mutex.waiters.any fun w => w.id == id && w.live) = true
  · rw [if_pos hc] at ht
    simp only [Option.some.injEq] at ht
    subst ht
    refine ⟨⟨?_, h.excl, fun hw => h.blocked ?_, h.order.cancel id⟩, fun hcomp _ => hcomp⟩
    · have hword := h.word
      rw [fullWord, ← nextBits_cancel _ id] at hword
      exact hword
    · obtain ⟨w, hw, hlive⟩ := hw
      obtain ⟨w', hw', rfl⟩ := List.mem_map.1 hw
      refine ⟨w', hw', ?_⟩
      split at hlive
      · simp at hlive
      · exact hlive
  · rw [if_neg hc] at ht
    simp at ht

theorem Inv.claim {s : State} (h : Inv s) (id : Nat) {t : State}
    (ht : step s (.claim id) = some t) : Kept s t := by
  obtain ⟨x, hx, rfl⟩ := Option.map_eq_some_iff.1 ht
  have hshared : ∀ y : Holder, (if y = x then { x with claimed := true } else y).shared =
      y.shared := by
    intro y
    split
    · next hy => rw [hy]
    · rfl
  have hS : State.sharedHeld { s with
      holders := s.holders.map fun y => if y = x then { x with claimed := true } else y } =
      s.sharedHeld := by
    simp only [State.sharedHeld, List.countP_map, Function.comp_def, hshared]
  have hE : State.exclHeld { s with
      holders := s.holders.map fun y => if y = x then { x with claimed := true } else y } =
      s.exclHeld := by
    simp only [State.exclHeld, List.countP_map, Function.comp_def, hshared]
  refine ⟨⟨by rw [hS, hE]; exact h.word, by rw [hE]; exact h.excl,
    by rw [hS, hE]; exact h.blocked, h.order⟩, fun hcomp _ => ?_⟩
  rw [hS, hE]
  exact hcomp

/-- A granted ticket is destroyed, and no `owned_` flag was set when it was
granted. -/
def Leaks (s : State) : Op → Prop
  | .destroy id => ∃ h, s.holder? id = some h ∧ h.claimed = false ∧ h.notify = false
  | _ => False

/-- Every operation that does not lose a lock keeps the invariant. -/
theorem Inv.step {s t : State} {op : Op} (h : Inv s) (hleak : ¬ Leaks s op)
    (ht : step s op = some t) : Kept s t := by
  cases op with
  | lock shared notify => exact h.lock shared notify ht
  | tryLock shared => exact h.tryLock shared ht
  | unlock id =>
    obtain ⟨x, hx, rfl⟩ := Option.map_eq_some_iff.1 ht
    exact h.release (State.mem_of_holder? hx)
  | cancel id => exact h.cancel id ht
  | claim id => exact h.claim id ht
  | destroy id =>
    obtain ⟨x, hx, ht⟩ := Option.bind_eq_some_iff.1 ht
    by_cases hc : x.claimed = true
    · simp [hc] at ht
    · by_cases hn : x.notify = true
      · simp only [hc, hn, if_true, Bool.false_eq_true, if_false, Option.some.injEq] at ht
        exact ht ▸ h.release (State.mem_of_holder? hx)
      · exact absurd ⟨x, hx, by simpa using hc, by simpa using hn⟩ hleak

theorem Inv.start : Inv {} where
  word := by decide
  excl := by decide
  blocked := by simp
  order := ⟨List.Pairwise.nil, by simp, by simp, by simp, List.Pairwise.nil⟩

end Mutex
end Cotamer
end Psets
