/-
The threads of the RPC game take turns.

Whoever comes first, the thread whose serial is wanted is the only one that gets past the
wait.  It can sleep only if it came before its turn, and then the thread before it has
yet to notify: no wakeup is lost, and since a notification comes with each critical
section and wakes everyone once, the threads run out of steps only when all have returned.
-/
import Mathlib.Algebra.Order.BigOperators.Group.Finset
import Mathlib.Data.Fintype.BigOperators
import Psets.RpcGame.Server

namespace Psets
namespace RpcGame

open Transition

variable {H : Type} (x : XXH3 H) {n : Nat}

/-- Request `i` asks for serial `i + 1`. -/
structure Numbered (reqs : Fin n → TryRequest) (calls : Fin n → Call) : Prop where
  parse : ∀ i, (reqs i).parse = some (calls i)
  serial : ∀ i, (calls i).serial.toNat = i + 1

/-- The thread has not been past the wait. -/
def Handler.Before (h : Handler) : Prop := h = .called ∨ h = .waiting ∨ h = .woken

theorem not_before_unlocked {v : BitVec 64} : ¬ (Handler.unlocked v).Before := by
  rintro (h | h | h) <;> cases h

theorem not_before_returned {value : Str} : ¬ (Handler.returned value).Before := by
  rintro (h | h | h) <;> cases h

/-- The first threads are past the wait, in the order of their serials, and have the
responses of the calls in sequence. -/
structure Inv (calls : Fin n → Call) (s : State H n) : Prop where
  order : s.processed = (List.finRange n).take s.processed.length
  server : ∃ rs, sequential x (Server.init x) ((List.ofFn calls).take s.processed.length) =
      some (rs, s.server) ∧ ∀ i : Fin n, i < s.processed.length → ∃ v, rs[(i : Nat)]? = some v ∧
        (s.handlers i = .unlocked v ∨ s.handlers i = .returned (decimal v.toNat))
  before : ∀ i : Fin n, s.processed.length ≤ i → (s.handlers i).Before
  /-- Who sleeps in his turn will be notified. -/
  awaited : ∀ i : Fin n, i = s.processed.length → s.handlers i = .waiting →
    ∃ j v, s.handlers j = .unlocked v

variable {x} {calls : Fin n → Call} {reqs : Fin n → TryRequest} {s t : State H n}

theorem Inv.turn_le (h : Inv x calls s) : s.processed.length ≤ n := by
  have hlen := congrArg List.length h.order
  rw [List.length_take, List.length_finRange] at hlen
  omega

theorem start_inv : Inv x calls (start x : State H n) where
  order := rfl
  server := ⟨[], rfl, fun i hi => absurd hi (Nat.not_lt_zero i)⟩
  before _ _ := .inl rfl
  awaited _ _ h := by cases h

/-- The serial that is wanted is that of the thread whose turn it is. -/
theorem Inv.wanted_iff (hs : Inv x calls s) (hreq : Numbered reqs calls) (i : Fin n) :
    (calls i).serial = s.server.wantSerial ↔ i = s.processed.length := by
  rcases hs.server with ⟨rs, hseq, _⟩
  have hwant := (wantSerial_sequential x hseq).1
  have hle := hs.turn_le
  have hi := hreq.serial i
  have hlt := (calls i).serial.isLt
  rw [List.length_take, List.length_ofFn, Nat.min_eq_left hle] at hwant
  have hnat : s.server.wantSerial.toNat = (1 + s.processed.length) % 2 ^ 64 := by
    rw [hwant, BitVec.toNat_add, BitVec.toNat_ofNat, Nat.add_mod_mod]
    rfl
  have hlast : (calls ⟨n - 1, by omega⟩).serial.toNat = n - 1 + 1 := hreq.serial ⟨n - 1, by omega⟩
  have hbound := (calls ⟨n - 1, by omega⟩).serial.isLt
  rw [← BitVec.toNat_inj, hi, hnat]
  omega

theorem Inv.not_done (hs : Inv x calls s) : s.server.done = false := by
  rcases hs.server with ⟨rs, hseq, _⟩
  exact (wantSerial_sequential x hseq).2

/-! ## One thread looks -/

theorem take_finRange_succ {k : Nat} {i : Fin n} (hi : i = k) :
    (List.finRange n).take (k + 1) = (List.finRange n).take k ++ [i] := by
  have hget : (List.finRange n)[k]? = some i := by
    rw [List.getElem?_eq_getElem (by rw [List.length_finRange]; omega), List.getElem_finRange]
    exact congrArg some (Fin.ext hi.symm)
  rw [List.take_add_one, hget, Option.toList_some]

theorem take_ofFn_succ {k : Nat} {i : Fin n} (hi : i = k) :
    (List.ofFn calls).take (k + 1) = (List.ofFn calls).take k ++ [calls i] := by
  have hget : (List.ofFn calls)[k]? = some (calls i) := by
    rw [List.getElem?_ofFn, dif_pos (by omega)]
    exact congrArg (some ∘ calls) (Fin.ext hi.symm)
  rw [List.take_add_one, hget, Option.toList_some]

/-- A thread in its turn processes its request. -/
theorem Inv.process (hs : Inv x calls s) {i : Fin n} (hi : i = s.processed.length)
    (hwant : (calls i).serial = s.server.wantSerial) :
    Inv x calls
      { s.setHandler i (.unlocked (processTry x s.server (calls i)).1) with
        server := (processTry x s.server (calls i)).2, processed := s.processed ++ [i] } := by
  have hlen : (s.processed ++ [i]).length = s.processed.length + 1 := by
    rw [List.length_append, List.length_singleton]
  rcases hs.server with ⟨rs, hseq, hresp⟩
  have hrs : rs.length = s.processed.length := by
    have hle := hs.turn_le
    rw [length_sequential x hseq, List.length_take, List.length_ofFn]
    omega
  have hcall : sequential x s.server [calls i] =
      some ([(processTry x s.server (calls i)).1], (processTry x s.server (calls i)).2) := by
    simp only [sequential, call, hwant, hs.not_done, and_self, if_true]
    rfl
  exact {
    order := by
      show s.processed ++ [i] = (List.finRange n).take (s.processed ++ [i]).length
      rw [hlen, take_finRange_succ hi, ← hs.order]
    server := by
      refine ⟨rs ++ [(processTry x s.server (calls i)).1], ?_, fun j hj => ?_⟩
      · show sequential x _ ((List.ofFn calls).take (s.processed ++ [i]).length) = _
        rw [hlen, take_ofFn_succ hi]
        exact sequential_append x hseq hcall
      · change j < (s.processed ++ [i]).length at hj
        rw [hlen] at hj
        by_cases hji : j = i
        · subst hji
          refine ⟨(processTry x s.server (calls j)).1, ?_, .inl ?_⟩
          · rw [hi, ← hrs, List.getElem?_append_right (Nat.le_refl _), Nat.sub_self]
            rfl
          · exact Function.update_self ..
        · have hlt : j < s.processed.length := by
            have : (j : Nat) ≠ i := fun h => hji (Fin.ext h)
            omega
          rcases hresp j hlt with ⟨v, hv, hj⟩
          refine ⟨v, ?_, ?_⟩
          · rwa [List.getElem?_append_left (by omega)]
          · show Function.update s.handlers i _ j = _ ∨ Function.update s.handlers i _ j = _
            rwa [Function.update_of_ne hji]
    before := fun j hj => by
      change (s.processed ++ [i]).length ≤ j at hj
      rw [hlen] at hj
      have hji : j ≠ i := fun h => by
        rw [h] at hj
        omega
      show (Function.update s.handlers i _ j).Before
      rw [Function.update_of_ne hji]
      exact hs.before j (by omega)
    awaited := fun j _ _ => ⟨i, _, Function.update_self ..⟩ }

/-- What the threads do besides processing requests. -/
theorem Inv.of_handlers (hs : Inv x calls s) {handlers : Fin n → Handler}
    (hpast : ∀ (i : Fin n) v, i < s.processed.length →
      s.handlers i = .unlocked v ∨ s.handlers i = .returned (decimal v.toNat) →
      handlers i = .unlocked v ∨ handlers i = .returned (decimal v.toNat))
    (hbefore : ∀ i : Fin n, s.processed.length ≤ i → (handlers i).Before)
    (hawaited : ∀ i : Fin n, i = s.processed.length → handlers i = .waiting →
      ∃ j v, handlers j = .unlocked v) : Inv x calls { s with handlers } where
  order := hs.order
  server := by
    rcases hs.server with ⟨rs, hseq, hresp⟩
    refine ⟨rs, hseq, fun i hi => ?_⟩
    rcases hresp i hi with ⟨v, hv, h⟩
    exact ⟨v, hv, hpast i v hi h⟩
  before := hbefore
  awaited := hawaited

/-- A thread that has not been past the wait has its turn now or later. -/
theorem Inv.le_of_before (hs : Inv x calls s) {i : Fin n} (h : (s.handlers i).Before) :
    s.processed.length ≤ i := by
  by_contra hlt
  rcases hs.server with ⟨rs, _, hresp⟩
  rcases hresp i (by omega) with ⟨v, _, hv | hv⟩
  · rw [hv] at h
    exact not_before_unlocked h
  · rw [hv] at h
    exact not_before_returned h

/-- A thread that is not past the wait changes its place before it. -/
theorem Inv.setBefore (hs : Inv x calls s) {i : Fin n} {h : Handler}
    (hi : (s.handlers i).Before) (hh : h.Before)
    (hawaited : i = s.processed.length → h ≠ .waiting) : Inv x calls (s.setHandler i h) := by
  have hle := hs.le_of_before hi
  apply hs.of_handlers
  · intro j v hj hv
    have hji : j ≠ i := fun h => by
      rw [h] at hj
      omega
    rwa [Function.update_of_ne hji]
  · intro j hj
    by_cases hji : j = i
    · rw [hji, Function.update_self]
      exact hh
    · rw [Function.update_of_ne hji]
      exact hs.before j hj
  · intro j hj hwait
    have hji : j ≠ i := by
      rintro rfl
      rw [Function.update_self] at hwait
      exact hawaited hj hwait
    rw [Function.update_of_ne hji] at hwait
    rcases hs.awaited j hj hwait with ⟨k, v, hk⟩
    have hki : k ≠ i := by
      rintro rfl
      rw [hk] at hi
      exact not_before_unlocked hi
    exact ⟨k, v, by rwa [Function.update_of_ne hki]⟩

theorem Inv.look (hs : Inv x calls s) (hreq : Numbered reqs calls) {i : Fin n}
    (hi : s.handlers i = .called ∨ s.handlers i = .woken) :
    ∃ t, s.look x i (calls i) = some t ∧ Inv x calls t := by
  unfold State.look
  by_cases hwant : (calls i).serial = s.server.wantSerial
  · have hturn := (hs.wanted_iff hreq i).1 hwant
    simp only [hwant, hs.not_done, if_true, Bool.false_eq_true, if_false]
    exact ⟨_, rfl, hs.process hturn hwant⟩
  · rw [if_neg hwant]
    refine ⟨_, rfl, hs.setBefore ?_ (.inr (.inl rfl)) ?_⟩
    · exact hi.imp id .inr
    · exact fun hturn => absurd ((hs.wanted_iff hreq i).2 hturn) hwant

/-- A notification wakes everyone. -/
theorem Inv.notify (hs : Inv x calls s) {i : Fin n} {v : BitVec 64}
    (hi : s.handlers i = .unlocked v) :
    Inv x calls (s.setHandler i (.returned (decimal v.toNat))).notifyAll := by
  apply hs.of_handlers
  · intro j w hj hw
    by_cases hji : j = i
    · subst hji
      obtain rfl : w = v := by
        rcases hw with hw | hw <;> rw [hi] at hw <;> cases hw
        rfl
      right
      simp only [State.setHandler, Function.update_self, reduceCtorEq, if_false]
    · have hne : s.handlers j ≠ .waiting := by
        rcases hw with hw | hw <;> rw [hw] <;> nofun
      simp only [State.setHandler, Function.update_of_ne hji, hne, if_false]
      exact hw
  · intro j hj
    have hji : j ≠ i := by
      rintro rfl
      have hbefore := hs.before j hj
      rw [hi] at hbefore
      exact not_before_unlocked hbefore
    simp only [State.setHandler, Function.update_of_ne hji]
    split
    · exact .inr (.inr rfl)
    · exact hs.before j hj
  · intro j _ hwait
    -- nobody sleeps any more
    change (if _ then Handler.woken else _) = Handler.waiting at hwait
    by_cases hw : (s.setHandler i (.returned (decimal v.toNat))).handlers j = .waiting
    · rw [if_pos hw] at hwait
      cases hwait
    · rw [if_neg hw] at hwait
      exact absurd hwait hw

theorem step_inv (hreq : Numbered reqs calls) {a : Label n} (hs : Inv x calls s)
    (h : step x reqs s a = some t) : Inv x calls t := by
  cases a with
  | enter i =>
    simp only [step, hreq.parse i] at h
    split at h
    · rename_i hi
      rcases hs.look hreq (.inl hi) with ⟨u, hu, hinv⟩
      obtain rfl := Option.some.inj (hu.symm.trans h)
      exact hinv
    · cases h
  | retry i =>
    simp only [step, hreq.parse i, Option.bind_some] at h
    split at h
    · rename_i hi
      rcases hs.look hreq (.inr hi) with ⟨u, hu, hinv⟩
      obtain rfl := Option.some.inj (hu.symm.trans h)
      exact hinv
    · cases h
  | notify i =>
    simp only [step] at h
    split at h
    · rename_i v hi
      obtain rfl := Option.some.inj h
      exact hs.notify hi
    · cases h
  | spurious i =>
    simp only [step] at h
    split at h
    · rename_i hi
      obtain rfl := Option.some.inj h
      exact hs.setBefore (.inr (.inl hi)) (.inr (.inr rfl)) nofun
    · cases h

/-! ## The runs end -/

/-- The steps that a thread has before it, those of a woken thread included for everyone
a notification wakes. -/
def Handler.weight (n : Nat) : Handler → Nat
  | .called | .woken => n + 2
  | .waiting | .unlocked _ => n + 1
  | .returned _ | .threw => 0

def State.weight (s : State H n) : Nat := ∑ i, (s.handlers i).weight n

theorem weight_setHandler (s : State H n) (i : Fin n) (h : Handler) :
    (s.setHandler i h).weight + (s.handlers i).weight n = s.weight + h.weight n := by
  have hset : (s.setHandler i h).weight =
      h.weight n + ∑ j ∈ Finset.univ \ {i}, (s.handlers j).weight n := by
    rw [State.weight, ← Finset.sum_update_of_mem (Finset.mem_univ i)]
    refine Finset.sum_congr rfl fun j _ => ?_
    show Handler.weight n (Function.update s.handlers i h j) = _
    by_cases hji : j = i
    · rw [hji, Function.update_self, Function.update_self]
    · rw [Function.update_of_ne hji, Function.update_of_ne hji]
  have hsum : s.weight =
      (s.handlers i).weight n + ∑ j ∈ Finset.univ \ {i}, (s.handlers j).weight n := by
    rw [State.weight, Finset.sdiff_singleton_eq_erase]
    exact (Finset.add_sum_erase _ (fun j => (s.handlers j).weight n) (Finset.mem_univ i)).symm
  omega

theorem weight_notifyAll (s : State H n) : s.notifyAll.weight ≤ s.weight + n := by
  have hone : ∀ i ∈ Finset.univ, (s.notifyAll.handlers i).weight n ≤
      (s.handlers i).weight n + 1 := by
    intro i _
    simp only [State.notifyAll]
    split
    · rename_i hi
      rw [hi]
      exact Nat.le_refl _
    · exact Nat.le_succ _
  calc s.notifyAll.weight ≤ ∑ i, ((s.handlers i).weight n + 1) := Finset.sum_le_sum hone
    _ = s.weight + n := by
      rw [Finset.sum_add_distrib, Finset.sum_const_nat fun _ _ => rfl, Finset.card_univ,
        Fintype.card_fin, Nat.mul_one]
      rfl

/-- A thread that looks is past the wait or asleep. -/
theorem weight_look {i : Fin n} {c : Call} (hi : s.handlers i = .called ∨ s.handlers i = .woken)
    (h : s.look x i c = some t) : t.weight < s.weight := by
  have hold : (s.handlers i).weight n = n + 2 := by
    rcases hi with hi | hi <;> rw [hi] <;> rfl
  unfold State.look at h
  split at h
  · split at h
    · cases h
    · obtain rfl := Option.some.inj h
      have hset := weight_setHandler s i (.unlocked (processTry x s.server c).1)
      rw [hold, Handler.weight] at hset
      show (s.setHandler i (.unlocked (processTry x s.server c).1)).weight < s.weight
      omega
  · obtain rfl := Option.some.inj h
    have hset := weight_setHandler s i .waiting
    rw [hold, Handler.weight] at hset
    omega

theorem step_weight {a : Label n} (h : step x reqs s a = some t) :
    if a.isSpurious then t.weight ≤ s.weight + 1 else t.weight < s.weight := by
  cases a with
  | enter i =>
    simp only [Label.isSpurious, Bool.false_eq_true, if_false]
    simp only [step] at h
    split at h
    · rename_i hi
      split at h
      · obtain rfl := Option.some.inj h
        have hset := weight_setHandler s i .threw
        rw [hi, Handler.weight, Handler.weight] at hset
        omega
      · exact weight_look (.inl hi) h
    · cases h
  | retry i =>
    simp only [Label.isSpurious, Bool.false_eq_true, if_false]
    simp only [step] at h
    split at h
    · rename_i hi
      rcases Option.bind_eq_some_iff.1 h with ⟨c, _, hlook⟩
      exact weight_look (.inr hi) hlook
    · cases h
  | notify i =>
    simp only [Label.isSpurious, Bool.false_eq_true, if_false]
    simp only [step] at h
    split at h
    · rename_i v hi
      obtain rfl := Option.some.inj h
      have hset := weight_setHandler s i (.returned (decimal v.toNat))
      have hall := weight_notifyAll (s.setHandler i (.returned (decimal v.toNat)))
      rw [hi, Handler.weight, Handler.weight] at hset
      omega
    · cases h
  | spurious i =>
    simp only [Label.isSpurious, if_true]
    simp only [step] at h
    split at h
    · rename_i hi
      obtain rfl := Option.some.inj h
      have hset := weight_setHandler s i .woken
      rw [hi, Handler.weight, Handler.weight] at hset
      omega
    · cases h

/-- When no thread can go on, but for waking up without a reason, all have returned. -/
theorem Inv.stuck (hs : Inv x calls s) (hreq : Numbered reqs calls)
    (hstuck : ∀ a : Label n, a.isSpurious = false → step x reqs s a = none) :
    s.processed.length = n ∧ ∀ i v, s.handlers i ≠ .unlocked v := by
  have hunlocked : ∀ i v, s.handlers i ≠ .unlocked v := by
    intro i v hi
    have := hstuck (.notify i) rfl
    simp [step, hi] at this
  refine ⟨?_, hunlocked⟩
  by_contra hne
  have hlt : s.processed.length < n := Nat.lt_of_le_of_ne hs.turn_le hne
  -- the thread whose turn it is
  rcases hs.before ⟨s.processed.length, hlt⟩ (Nat.le_refl _) with hi | hi | hi
  · rcases hs.look hreq (.inl hi) with ⟨t, ht, _⟩
    have := hstuck (.enter ⟨s.processed.length, hlt⟩) rfl
    simp only [step, hi, if_true, hreq.parse, ht] at this
    cases this
  · rcases hs.awaited _ rfl hi with ⟨j, v, hj⟩
    exact hunlocked j v hj
  · rcases hs.look hreq (.inr hi) with ⟨t, ht, _⟩
    have := hstuck (.retry ⟨s.processed.length, hlt⟩) rfl
    simp only [step, hi, if_true, hreq.parse, Option.bind_some, ht] at this
    cases this

/-! ## The theorem -/

/-- The requests processed so far are the first ones, each once and in the order of the
serials, and the server and the responses are those of the calls in sequence. -/
structure InOrder (x : XXH3 H) (calls : Fin n → Call) (s : State H n) : Prop where
  processed : s.processed = (List.finRange n).take s.processed.length
  server : ∃ rs, sequential x (Server.init x) ((List.ofFn calls).take s.processed.length) =
      some (rs, s.server) ∧ ∀ i v, s.handlers i = .returned v →
        ∃ r, rs[(i : Nat)]? = some r ∧ v = decimal r.toNat

/-- Every request has been processed and answered as the calls in sequence would answer
it, and the checksums are theirs. -/
structure Finished (x : XXH3 H) (calls : Fin n → Call) (s : State H n) : Prop where
  processed : s.processed = List.finRange n
  server : ∃ rs server, sequential x (Server.init x) (List.ofFn calls) = some (rs, server) ∧
    (∀ i : Fin n, ∃ r, rs[(i : Nat)]? = some r ∧ s.handlers i = .returned (decimal r.toNat)) ∧
    ∀ ep, checksum x s.server ep = checksum x server ep

theorem Inv.inOrder (hs : Inv x calls s) : InOrder x calls s where
  processed := hs.order
  server := by
    rcases hs.server with ⟨rs, hseq, hresp⟩
    refine ⟨rs, hseq, fun i v hv => ?_⟩
    rcases Nat.lt_or_ge i s.processed.length with hi | hi
    · rcases hresp i hi with ⟨r, hr, h | h⟩
      · rw [hv] at h
        cases h
      · rw [hv] at h
        exact ⟨r, hr, Handler.returned.inj h⟩
    · have hbefore := hs.before i hi
      rw [hv] at hbefore
      exact absurd hbefore not_before_returned

theorem Inv.finished (hs : Inv x calls s) (hlen : s.processed.length = n)
    (hunlocked : ∀ i v, s.handlers i ≠ .unlocked v) : Finished x calls s where
  processed := by
    have horder := hs.order
    rwa [hlen, List.take_of_length_le (by rw [List.length_finRange])] at horder
  server := by
    rcases hs.server with ⟨rs, hseq, hresp⟩
    rw [hlen, List.take_of_length_le (by rw [List.length_ofFn])] at hseq
    refine ⟨rs, s.server, hseq, fun i => ?_, fun _ => rfl⟩
    rcases hresp i (by omega) with ⟨r, hr, h | h⟩
    · exact absurd h (hunlocked i r)
    · exact ⟨r, hr, h⟩

theorem tries_in_order (hreq : Numbered reqs calls) {as : List (Label n)}
    (hr : (machine x reqs).exec (start x) as = some s) :
    InOrder x calls s ∧ as.length ≤ n * (n + 2) + 2 * as.countP Label.isSpurious ∧
      ((∀ a : Label n, a.isSpurious = false → step x reqs s a = none) → Finished x calls s) := by
  have hs : Inv x calls s :=
    Machine.exec_preserves (P := Inv x calls) (fun _ _ _ h hstep => step_inv hreq h hstep)
      start_inv hr
  refine ⟨hs.inOrder, ?_, fun hstuck => ?_⟩
  · have hstart : (start x : State H n).weight = n * (n + 2) := by
      show ∑ _i : Fin n, (n + 2) = n * (n + 2)
      rw [Finset.sum_const_nat fun _ _ => rfl, Finset.card_univ, Fintype.card_fin]
    have hlen := Machine.exec_length_le State.weight Label.isSpurious
      (fun _ _ _ hstep => step_weight hstep) hr
    omega
  · rcases hs.stuck hreq hstuck with ⟨hlen, hunlocked⟩
    exact hs.finished hlen hunlocked

/-- A hash that keeps what it is given. -/
def transcript : XXH3 Str where
  reset := []
  update ctx bytes := ctx ++ bytes
  digest ctx := BitVec.ofNat 64 ctx.length
  hash bytes := BitVec.ofNat 64 bytes.length

def pair : Fin 2 → TryRequest := fun i =>
  ⟨decimal (i + 1), ['a'], decimal 7⟩

-- for the numerals of `pairRun`
local instance neZero_pair : NeZero 2 := ⟨by decide⟩

/-- The second request comes first, and is woken once for nothing. -/
def pairRun : List (Label 2) :=
  [.enter 1, .spurious 1, .retry 1, .enter 0, .notify 0, .retry 1, .notify 1]

theorem tries_in_order_pair : ∃ s,
    (machine transcript pair).exec (start transcript) pairRun = some s ∧
      Finished transcript (fun i : Fin 2 => ⟨BitVec.ofNat 64 (i + 1), ['a'], 7⟩) s := by
  have hend : ((machine transcript pair).exec (start transcript) pairRun).map
      (fun s => (s.handlers 0, s.handlers 1)) = some (.returned ['8'], .returned ['9']) := by
    decide +kernel
  have hnumbered : Numbered pair fun i => ⟨BitVec.ofNat 64 (i + 1), ['a'], 7⟩ :=
    ⟨by decide +kernel, by decide +kernel⟩
  rcases Option.map_eq_some_iff.1 hend with ⟨s, hs, hhandlers⟩
  rcases Prod.mk.inj hhandlers with ⟨h0, h1⟩
  refine ⟨s, hs, (tries_in_order hnumbered hs).2.2 fun a ha => ?_⟩
  have hreturned : ∀ i, ∃ v, s.handlers i = .returned v := by
    intro i
    match i with
    | 0 => exact ⟨_, h0⟩
    | 1 => exact ⟨_, h1⟩
  cases a with
  | enter i =>
    rcases hreturned i with ⟨v, hv⟩
    simp [step, hv]
  | retry i =>
    rcases hreturned i with ⟨v, hv⟩
    simp [step, hv]
  | notify i =>
    rcases hreturned i with ⟨v, hv⟩
    simp [step, hv]
  | spurious i => cases ha

end RpcGame
end Psets
