/-
What a cascade of triggers does to the coroutines.

A cascade takes no coroutine from a listener list, except the one that `driver_trigger`
claims.  When no driver called, every triggered event with a coroutine of this driver is
posted to `asap_`.  When the driver itself called, none is: the caller is trusted to run
the coroutines to completion.
-/
import Psets.Cotamer.Event

namespace Psets
namespace Cotamer
namespace Event

open Containers Transition

namespace Runtime

/-- How often `l` is on the listener list of `x`. -/
def enlisted (s : Runtime) (x : EventId) (l : Listener) : Nat := (s.body x).listeners.count l

@[simp] theorem setBody_self (s : Runtime) (x : EventId) (b : EventBody) :
    (s.setBody x b).body x = b := Function.update_self ..

theorem setBody_of_ne {s : Runtime} {x y : EventId} (h : y ≠ x) (b : EventBody) :
    (s.setBody x b).body y = s.body y := Function.update_of_ne h ..

/-- A body is changed in the fields given, at one address. -/
theorem setBody_field {β : Type} (f : EventBody → β) {s : Runtime} {x : EventId} {b : EventBody}
    (h : f b = f (s.body x)) (y : EventId) : f ((s.setBody x b).body y) = f (s.body y) := by
  by_cases hy : y = x
  · rw [hy, setBody_self, h]
  · rw [setBody_of_ne hy]

/-- One more listener at the end of a list. -/
theorem enlisted_append (s : Runtime) (x y : EventId) (l l' : Listener) :
    (s.setBody x { s.body x with listeners := (s.body x).listeners ++ [l] }).enlisted y l' =
      s.enlisted y l' + if y = x ∧ l' = l then 1 else 0 := by
  unfold enlisted
  by_cases hy : y = x
  · rw [hy, setBody_self, List.count_append]
    by_cases hl : l' = l
    · simp [hl]
    · simp [hl, Ne.symm hl]
  · rw [setBody_of_ne hy]
    simp [hy]

theorem mem_listeners {s : Runtime} {x : EventId} {l : Listener} :
    l ∈ (s.body x).listeners ↔ 0 < s.enlisted x l := List.count_pos_iff.symm

end Runtime

/-! ## Culling -/

/-- The two runtimes differ in the listener lists only, and there in `l` only. -/
structure SameBut (l : Listener) (s t : Runtime) : Prop where
  size : t.size = s.size
  asap : t.asap = s.asap
  migrate : t.migrate = s.migrate
  coh : t.coh = s.coh
  body : ∀ x, t.body x = { s.body x with listeners := (t.body x).listeners }
  others : ∀ x l', l' ≠ l → t.enlisted x l' = s.enlisted x l'
  fewer : ∀ x, t.enlisted x l ≤ s.enlisted x l
  idle : ∀ x, (s.body x).listeners = [] → (t.body x).listeners = []

theorem SameBut.refl (l : Listener) (s : Runtime) : SameBut l s s :=
  ⟨rfl, rfl, rfl, rfl, fun _ => rfl, fun _ _ _ => rfl, fun _ => Nat.le_refl _, fun _ h => h⟩

theorem SameBut.trans {l : Listener} {s t u : Runtime} (h : SameBut l s t)
    (h' : SameBut l t u) : SameBut l s u where
  size := h'.size.trans h.size
  asap := h'.asap.trans h.asap
  migrate := h'.migrate.trans h.migrate
  coh := h'.coh.trans h.coh
  body x := by rw [h'.body x, h.body x]
  others x l' hl := (h'.others x l' hl).trans (h.others x l' hl)
  fewer x := Nat.le_trans (h'.fewer x) (h.fewer x)
  idle x hx := h'.idle x (h.idle x hx)

theorem SameBut.triggered {l : Listener} {s t : Runtime} (h : SameBut l s t) (x : EventId) :
    t.Triggered x ↔ s.Triggered x := by
  unfold Runtime.Triggered
  rw [h.body x]

theorem removeListener_sameBut (s : Runtime) (x : EventId) (l : Listener) :
    SameBut l s (s.removeListener x l) := by
  refine ⟨rfl, rfl, rfl, rfl, fun y => ?_, fun y l' hl => ?_, fun y => ?_, fun y hy => ?_⟩ <;>
    by_cases hyx : y = x
  · simp only [hyx, Runtime.removeListener, Runtime.setBody_self]
  · simp only [Runtime.removeListener, Runtime.setBody_of_ne hyx]
  · simp only [hyx, Runtime.enlisted, Runtime.removeListener, Runtime.setBody_self]
    exact count_swapErase_of_ne hl _
  · simp only [Runtime.enlisted, Runtime.removeListener, Runtime.setBody_of_ne hyx]
  · simp only [hyx, Runtime.enlisted, Runtime.removeListener, Runtime.setBody_self,
      count_swapErase_self]
    omega
  · simp only [Runtime.enlisted, Runtime.removeListener, Runtime.setBody_of_ne hyx]
    exact Nat.le_refl _
  · simp only [hyx] at hy
    simp only [hyx, Runtime.removeListener, Runtime.setBody_self, hy]
    rfl
  · simpa only [Runtime.removeListener, Runtime.setBody_of_ne hyx] using hy

theorem cullLoop_sameBut (q : EventId) (n : Nat) (s : Runtime) (kept todo : List EventId) :
    SameBut (.quorum q) s (Runtime.cullLoop q n s kept todo).1 := by
  induction n generalizing s kept todo with
  | zero =>
    unfold Runtime.cullLoop
    exact .refl _ s
  | succ n ih =>
    cases todo with
    | nil =>
      unfold Runtime.cullLoop
      exact .refl _ s
    | cons m rest =>
      unfold Runtime.cullLoop
      split
      · exact ih _ _ _
      · exact (removeListener_sameBut s m _).trans (ih _ _ _)

/-- A quorum leaves the lists of its members: nothing else changes but its members. -/
structure Culled (q : EventId) (s t : Runtime) : Prop where
  size : t.size = s.size
  asap : t.asap = s.asap
  migrate : t.migrate = s.migrate
  coh : t.coh = s.coh
  body : ∀ x, t.body x =
    { s.body x with listeners := (t.body x).listeners, members := (t.body x).members }
  members : ∀ x, x ≠ q → (t.body x).members = (s.body x).members
  others : ∀ x l, l ≠ .quorum q → t.enlisted x l = s.enlisted x l
  fewer : ∀ x, t.enlisted x (.quorum q) ≤ s.enlisted x (.quorum q)
  idle : ∀ x, (s.body x).listeners = [] → (t.body x).listeners = []

theorem Culled.refl (q : EventId) (s : Runtime) : Culled q s s :=
  ⟨rfl, rfl, rfl, rfl, fun _ => rfl, fun _ _ => rfl, fun _ _ _ => rfl, fun _ => Nat.le_refl _,
    fun _ h => h⟩

theorem Culled.triggered {q : EventId} {s t : Runtime} (h : Culled q s t) (x : EventId) :
    t.Triggered x ↔ s.Triggered x := by
  unfold Runtime.Triggered
  rw [h.body x]

theorem cullMembers_culled (s : Runtime) (q : EventId) : Culled q s (s.cullMembers q) := by
  unfold Runtime.cullMembers
  simp only []
  have h := cullLoop_sameBut q (s.body q).members.length s [] (s.body q).members
  generalize Runtime.cullLoop q (s.body q).members.length s [] (s.body q).members = r at h
  have hlisteners : ∀ x, ((r.1.setBody q { r.1.body q with members := r.2 }).body x).listeners =
      (r.1.body x).listeners := Runtime.setBody_field EventBody.listeners rfl
  constructor
  · exact h.size
  · exact h.asap
  · exact h.migrate
  · exact h.coh
  · intro x
    rw [hlisteners]
    by_cases hx : x = q
    · rw [hx, Runtime.setBody_self, h.body q]
    · rw [Runtime.setBody_of_ne hx, h.body x]
  · intro x hx
    rw [Runtime.setBody_of_ne hx, h.body x]
  · intro x l hl
    unfold Runtime.enlisted
    rw [hlisteners]
    exact h.others x l hl
  · intro x
    unfold Runtime.enlisted
    rw [hlisteners]
    exact h.fewer x
  · intro x hx
    rw [hlisteners]
    exact h.idle x hx

/-! ## One walk over the listeners -/

section

variable (home : CoroId → DriverId) (current : DriverId)

/-- What the walk makes of the coroutines: it keeps them all, or all but the one it
claims. -/
structure Scanned (drv : Option DriverId) (ls : List Listener) (r r' : Scan) : Prop where
  quorums : ∀ q, r'.quorums.count q = r.quorums.count q + ls.count (.quorum q)
  keptQuorum : ∀ q, r'.kept.count (.quorum q) = r.kept.count (.quorum q)
  account : (r'.coh = r.coh ∧
      (∀ c, r'.kept.count (.coroutine c) = r.kept.count (.coroutine c) + ls.count (.coroutine c)) ∧
      (r.coh = none → ∀ c, .coroutine c ∈ ls → drv ≠ some (home c))) ∨
    (r.coh = none ∧ ∃ c₀, r'.coh = some c₀ ∧ drv = some (home c₀) ∧
      ∀ c, r'.kept.count (.coroutine c) + (if c = c₀ then 1 else 0) =
        r.kept.count (.coroutine c) + ls.count (.coroutine c))
  drivers : ∀ d, d ∈ r'.drivers ↔
    d ∈ r.drivers ∨ ∃ c, .coroutine c ∈ ls ∧ d = home c ∧ drv ≠ some d

theorem scan_cons {drv : Option DriverId} {l : Listener} {ls : List Listener}
    {r r' r'' : Scan} (h : Scanned home drv [l] r r') (h' : Scanned home drv ls r' r'') :
    Scanned home drv (l :: ls) r r'' := by
  have hcount : ∀ l', (l :: ls).count l' = [l].count l' + ls.count l' := fun l' => by
    rw [← List.count_append, List.singleton_append]
  refine ⟨fun q => ?_, fun q => (h'.keptQuorum q).trans (h.keptQuorum q), ?_, fun d => ?_⟩
  · rw [h'.quorums q, h.quorums q, hcount, Nat.add_assoc]
  · rcases h.account with ⟨hcoh, hkept, hnone⟩ | ⟨hfree, c₀, hcoh, hown, hkept⟩
    · rcases h'.account with ⟨hcoh', hkept', hnone'⟩ | ⟨hfree', c₀, hcoh', hown', hkept'⟩
      · refine .inl ⟨hcoh'.trans hcoh, fun c => ?_, fun hr c hc => ?_⟩
        · rw [hkept' c, hkept c, hcount, Nat.add_assoc]
        · rcases List.mem_cons.1 hc with hc | hc
          · exact hnone hr c (by rw [hc]; exact List.mem_cons_self)
          · exact hnone' (hcoh.trans hr) c hc
      · refine .inr ⟨hcoh.symm.trans hfree', c₀, hcoh', hown', fun c => ?_⟩
        rw [hkept' c, hkept c, hcount, Nat.add_assoc]
    · rcases h'.account with ⟨hcoh', hkept', _⟩ | ⟨hfree', _⟩
      · refine .inr ⟨hfree, c₀, hcoh'.trans hcoh, hown, fun c => ?_⟩
        have h₁ := hkept c
        have h₂ := hkept' c
        rw [hcount]
        omega
      · rw [hcoh] at hfree'
        cases hfree'
  · rw [h'.drivers d, h.drivers d]
    simp only [List.mem_cons, List.not_mem_nil, or_false]
    constructor
    · rintro ((hd | ⟨c, hc, hd⟩) | ⟨c, hc, hd⟩)
      · exact .inl hd
      · exact .inr ⟨c, .inl hc, hd⟩
      · exact .inr ⟨c, .inr hc, hd⟩
    · rintro (hd | ⟨c, hc | hc, hd⟩)
      · exact .inl (.inl hd)
      · exact .inl (.inr ⟨c, hc, hd⟩)
      · exact .inr ⟨c, hc, hd⟩

theorem scanListener_scanned (drv : Option DriverId) (r : Scan) (l : Listener) :
    Scanned home drv [l] r (scanListener home drv r l) := by
  cases l with
  | quorum q =>
    refine ⟨fun q' => ?_, fun _ => rfl, .inl ⟨rfl, fun c => ?_, fun _ c hc => ?_⟩, fun d => ?_⟩
    · simp [scanListener, List.count_append, List.count_singleton]
    · simp [scanListener]
    · simp at hc
    · simp [scanListener]
  | coroutine c =>
    unfold scanListener
    simp only []
    by_cases hown : drv = some (home c)
    · rw [if_pos hown]
      have hdrivers : ∀ d, d ∈ r.drivers ↔ d ∈ r.drivers ∨
          ∃ c', .coroutine c' ∈ [Listener.coroutine c] ∧ d = home c' ∧ drv ≠ some d := by
        intro d
        simp only [List.mem_singleton, Listener.coroutine.injEq, exists_eq_left]
        constructor
        · exact .inl
        · rintro (hd | ⟨rfl, hne⟩)
          · exact hd
          · exact absurd hown hne
      by_cases hcoh : r.coh = none
      · rw [if_pos hcoh]
        refine ⟨fun q => by simp, fun _ => rfl, .inr ⟨hcoh, c, rfl, hown, fun c' => ?_⟩, hdrivers⟩
        by_cases hc : c' = c
        · simp [hc]
        · simp [hc, Ne.symm hc]
      · rw [if_neg hcoh]
        refine ⟨fun q => by simp, fun q => by simp [List.count_append],
          .inl ⟨rfl, fun c' => by simp [List.count_append], fun hr => absurd hr hcoh⟩, hdrivers⟩
    · rw [if_neg hown]
      refine ⟨fun q => by simp, fun q => by simp [List.count_append],
        .inl ⟨rfl, fun c' => by simp [List.count_append], fun _ c' hc' => ?_⟩, fun d => ?_⟩
      · simp only [List.mem_singleton, Listener.coroutine.injEq] at hc'
        rw [hc']
        exact hown
      · simp only [List.mem_singleton, Listener.coroutine.injEq, exists_eq_left]
        split
        · rename_i hmem
          constructor
          · exact .inl
          · rintro (hd | ⟨rfl, _⟩)
            · exact hd
            · exact hmem
        · rw [List.mem_append, List.mem_singleton]
          constructor
          · rintro (hd | rfl)
            · exact .inl hd
            · exact .inr ⟨rfl, hown⟩
          · rintro (hd | ⟨rfl, _⟩)
            · exact .inl hd
            · exact .inr rfl

theorem scan_scanned (drv : Option DriverId) (r : Scan) (ls : List Listener) :
    Scanned home drv ls r (ls.foldl (scanListener home drv) r) := by
  induction ls generalizing r with
  | nil =>
    exact ⟨fun _ => rfl, fun _ => rfl, .inl ⟨rfl, fun _ => rfl, fun _ _ hc => by simp at hc⟩,
      fun d => by simp⟩
  | cons l ls ih => exact scan_cons home (scanListener_scanned home drv r l) (ih _)

/-- `trigger_unlock` up to the point where it informs the quorums. -/
structure Marked (drv : Option DriverId) (s : Runtime) (x : EventId) (r : Scan) (t : Runtime) :
    Prop where
  size : t.size = s.size
  asap : t.asap = s.asap
  triggered : ∀ y, t.Triggered y ↔ y = x ∨ s.Triggered y
  account : (t.coh = s.coh ∧
      (∀ y c, t.enlisted y (.coroutine c) = s.enlisted y (.coroutine c)) ∧
      (s.coh = none → ∀ c, 0 < s.enlisted x (.coroutine c) → drv ≠ some (home c))) ∨
    (s.coh = none ∧ ∃ c₀, t.coh = some c₀ ∧ drv = some (home c₀) ∧
      ∀ y c, t.enlisted y (.coroutine c) + (if y = x ∧ c = c₀ then 1 else 0) =
        s.enlisted y (.coroutine c))
  drivers : ∀ d, d ∈ r.drivers ↔
    ∃ c, 0 < s.enlisted x (.coroutine c) ∧ d = home c ∧ drv ≠ some d
  same : ∀ y, (t.body y).isQuorum = (s.body y).isQuorum ∧
    (t.body y).count = (s.body y).count ∧ (t.body y).quorum = (s.body y).quorum
  members : ∀ y, y ≠ x → (t.body y).members = (s.body y).members
  listens : ∀ y q, y ≠ x → q ≠ x → t.enlisted y (.quorum q) = s.enlisted y (.quorum q)
  fewer : ∀ y q, t.enlisted y (.quorum q) ≤ s.enlisted y (.quorum q)
  informs : ∀ q, q ≠ x → r.quorums.count q = s.enlisted x (.quorum q)
  informed : ∀ q ∈ r.quorums, 0 < s.enlisted x (.quorum q)
  fresh : ∀ y, y ≠ x → s.body y = {} → t.body y = {}

theorem markTriggered_marked (drv : Option DriverId) (s : Runtime) (x : EventId) :
    Marked home drv s x (markTriggered home drv s x).1 (markTriggered home drv s x).2 := by
  unfold markTriggered
  simp only []
  generalize hu : (if (s.body x).isQuorum then s.cullMembers x else s) = u
  have hcull : Culled x s u := by
    rw [← hu]
    split
    · exact cullMembers_culled s x
    · exact .refl x s
  have hlisted : ∀ y c, u.enlisted y (.coroutine c) = s.enlisted y (.coroutine c) :=
    fun y c => hcull.others y _ (by simp)
  have hmem : ∀ c, .coroutine c ∈ (u.body x).listeners ↔ 0 < s.enlisted x (.coroutine c) := by
    intro c
    rw [Runtime.mem_listeners, hlisted]
  have hscan := scan_scanned home drv { coh := u.coh } (u.body x).listeners
  have hr : scanListeners home drv u.coh (u.body x).listeners =
      (u.body x).listeners.foldl (scanListener home drv) { coh := u.coh } := rfl
  rw [hr]
  generalize (u.body x).listeners.foldl (scanListener home drv) { coh := u.coh } = r at hscan
  have hself : ∀ l, Runtime.enlisted { u.setBody x
      { u.body x with triggered := true, listeners := r.kept } with coh := r.coh } x l =
      r.kept.count l := fun l => by
    show ((u.setBody x _).body x).listeners.count l = _
    rw [Runtime.setBody_self]
  have hother : ∀ y l, y ≠ x → Runtime.enlisted { u.setBody x
      { u.body x with triggered := true, listeners := r.kept } with coh := r.coh } y l =
      u.enlisted y l := fun y l hy => by
    show ((u.setBody x _).body y).listeners.count l = _
    rw [Runtime.setBody_of_ne hy]
    rfl
  have hquorums : ∀ q, r.quorums.count q = u.enlisted x (.quorum q) := fun q =>
    (hscan.quorums q).trans (Nat.zero_add _)
  have hfewer : ∀ y q, u.enlisted y (.quorum q) ≤ s.enlisted y (.quorum q) := fun y q => by
    by_cases hq : q = x
    · rw [hq]
      exact hcull.fewer y
    · exact Nat.le_of_eq (hcull.others y _ (by simpa using hq))
  refine ⟨hcull.size, hcull.asap, fun y => ?_, ?_, fun d => ?_, fun y => ?_, fun y hy => ?_,
    fun y q hy hq => ?_, fun y q => ?_, fun q hq => ?_, fun q hq => ?_, fun y hy hbody => ?_⟩
  · show ((u.setBody x _).body y).triggered = true ↔ _
    by_cases hy : y = x
    · rw [hy, Runtime.setBody_self]
      simp
    · rw [Runtime.setBody_of_ne hy]
      simp only [hy, false_or]
      exact hcull.triggered y
  · rcases hscan.account with ⟨hcoh, hkept, hnone⟩ | ⟨hfree, c₀, hcoh, hown, hkept⟩
    · refine .inl ⟨hcoh.trans hcull.coh, fun y c => ?_, fun hs c hc => ?_⟩
      · rw [← hlisted y c]
        by_cases hy : y = x
        · rw [hy, hself, hkept c]
          exact Nat.zero_add _
        · exact hother y _ hy
      · exact hnone (hcull.coh.trans hs) c ((hmem c).2 hc)
    · refine .inr ⟨hcull.coh.symm.trans hfree, c₀, hcoh, hown, fun y c => ?_⟩
      rw [← hlisted y c]
      by_cases hy : y = x
      · rw [hy, hself]
        simp only [true_and]
        exact (hkept c).trans (Nat.zero_add _)
      · rw [hother y _ hy]
        simp [hy]
  · rw [hscan.drivers d]
    simp only [List.not_mem_nil, false_or, hmem]
  · show ((u.setBody x _).body y).isQuorum = _ ∧ ((u.setBody x _).body y).count = _ ∧
      ((u.setBody x _).body y).quorum = _
    rw [Runtime.setBody_field EventBody.isQuorum (by rfl),
      Runtime.setBody_field EventBody.count (by rfl),
      Runtime.setBody_field EventBody.quorum (by rfl), hcull.body y]
    exact ⟨rfl, rfl, rfl⟩
  · show ((u.setBody x _).body y).members = _
    rw [Runtime.setBody_of_ne hy]
    exact hcull.members y hy
  · rw [hother y _ hy]
    exact hcull.others y _ (by simpa using hq)
  · by_cases hy : y = x
    · rw [hy, hself, hscan.keptQuorum q]
      exact Nat.zero_le _
    · rw [hother y _ hy]
      exact hfewer y q
  · rw [hquorums q]
    exact hcull.others x _ (by simpa using hq)
  · have hpos := List.count_pos_iff.2 hq
    rw [hquorums q] at hpos
    exact Nat.lt_of_lt_of_le hpos (hfewer x q)
  · show (u.setBody x _).body y = _
    rw [Runtime.setBody_of_ne hy, hcull.body y, hcull.members y hy, hcull.idle y (by rw [hbody]),
      hbody]

/-! ## The cascade -/

/-- What a cascade that `drv` started does to the coroutines and to `asap_`. -/
structure Cascade (drv : Option DriverId) (s t : Runtime) : Prop where
  size : t.size = s.size
  mono : ∀ y, s.Triggered y → t.Triggered y
  asap : ∀ y ∈ s.asap, y ∈ t.asap
  unposted : drv = some current → t.asap = s.asap
  account : (t.coh = s.coh ∧
      ∀ y c, t.enlisted y (.coroutine c) = s.enlisted y (.coroutine c)) ∨
    (s.coh = none ∧ ∃ y₀ c₀, t.coh = some c₀ ∧ drv = some (home c₀) ∧
      ¬ s.Triggered y₀ ∧ t.Triggered y₀ ∧
      ∀ y c, t.enlisted y (.coroutine c) + (if y = y₀ ∧ c = c₀ then 1 else 0) =
        s.enlisted y (.coroutine c))
  posted : drv = none → ∀ y c, ¬ s.Triggered y → t.Triggered y →
    0 < t.enlisted y (.coroutine c) → home c = current → y ∈ t.asap
  claimed : ∀ d, drv = some d → t.coh = none → ∀ y c, ¬ s.Triggered y → t.Triggered y →
    0 < t.enlisted y (.coroutine c) → home c ≠ d

variable {home current}

theorem Cascade.refl (drv : Option DriverId) (s : Runtime) : Cascade home current drv s s :=
  ⟨rfl, fun _ h => h, fun _ h => h, fun _ => rfl, .inl ⟨rfl, fun _ _ => rfl⟩,
    fun _ _ _ h h' => absurd h' h, fun _ _ _ _ _ h h' => absurd h' h⟩

/-- What has triggered keeps its coroutines. -/
theorem Cascade.enlisted {drv : Option DriverId} {s t : Runtime}
    (h : Cascade home current drv s t) {y : EventId} (hy : s.Triggered y) (c : CoroId) :
    t.enlisted y (.coroutine c) = s.enlisted y (.coroutine c) := by
  rcases h.account with ⟨_, hsame⟩ | ⟨_, y₀, c₀, _, _, hnew, _, hsame⟩
  · exact hsame y c
  · have hne : y ≠ y₀ := fun he => hnew (he ▸ hy)
    simpa [hne] using hsame y c

/-- A claim is not given up. -/
theorem Cascade.coh {drv : Option DriverId} {s t : Runtime} (h : Cascade home current drv s t)
    (ht : t.coh = none) : s.coh = none := by
  rcases h.account with ⟨hcoh, _⟩ | ⟨hnone, _⟩
  · exact hcoh.symm.trans ht
  · exact hnone

theorem Cascade.trans {drv : Option DriverId} {s t u : Runtime}
    (h : Cascade home current drv s t) (h' : Cascade home current drv t u) :
    Cascade home current drv s u where
  size := h'.size.trans h.size
  mono y hy := h'.mono y (h.mono y hy)
  asap y hy := h'.asap y (h.asap y hy)
  unposted hd := (h'.unposted hd).trans (h.unposted hd)
  account := by
    rcases h.account with ⟨hcoh, hsame⟩ | ⟨hnone, y₀, c₀, hcoh, hown, hnew, ht, hsame⟩
    · rcases h'.account with ⟨hcoh', hsame'⟩ | ⟨hnone', y₀, c₀, hcoh', hown', hnew', ht', hsame'⟩
      · exact .inl ⟨hcoh'.trans hcoh, fun y c => (hsame' y c).trans (hsame y c)⟩
      · refine .inr ⟨hcoh.symm.trans hnone', y₀, c₀, hcoh', hown', fun hy => hnew' (h.mono _ hy),
          ht', fun y c => ?_⟩
        rw [← hsame y c]
        exact hsame' y c
    · rcases h'.account with ⟨hcoh', hsame'⟩ | ⟨hnone', _⟩
      · refine .inr ⟨hnone, y₀, c₀, hcoh'.trans hcoh, hown, hnew, h'.mono _ ht, fun y c => ?_⟩
        rw [hsame' y c]
        exact hsame y c
      · rw [hcoh] at hnone'
        cases hnone'
  posted hd y c hs hu hc hown := by
    by_cases ht : t.Triggered y
    · rw [h'.enlisted ht c] at hc
      exact h'.asap y (h.posted hd y c hs ht hc hown)
    · exact h'.posted hd y c ht hu hc hown
  claimed d hd hcoh y c hs hu hc := by
    by_cases ht : t.Triggered y
    · rw [h'.enlisted ht c] at hc
      exact h.claimed d hd (h'.coh hcoh) y c hs ht hc
    · exact h'.claimed d hd hcoh y c ht hu hc

theorem foldlM_cascade {drv : Option DriverId} {f : Runtime → EventId → Option Runtime}
    (hf : ∀ s q t, f s q = some t → Cascade home current drv s t) {qs : List EventId}
    {s t : Runtime} (h : qs.foldlM f s = some t) : Cascade home current drv s t := by
  induction qs generalizing s with
  | nil =>
    obtain rfl := Option.some.inj h
    exact .refl drv s
  | cons q qs ih =>
    rw [List.foldlM_cons] at h
    rcases Option.bind_eq_some_iff.1 h with ⟨u, hu, ht⟩
    exact (hf s q u hu).trans (ih ht)

theorem countMember_eq (s : Runtime) (q x : EventId) :
    ∃ count members,
      countMember s q x = s.setBody q { s.body q with count, members } := by
  unfold countMember
  simp only []
  split
  · exact ⟨_, _, rfl⟩
  · refine ⟨(s.body q).count, (s.body q).members, ?_⟩
    simp only [Runtime.setBody, Function.update_eq_self]

theorem countMember_triggered (s : Runtime) (q x y : EventId) :
    (countMember s q x).Triggered y ↔ s.Triggered y := by
  rcases countMember_eq s q x with ⟨count, members, heq⟩
  have hfield : ((countMember s q x).body y).triggered = (s.body y).triggered := by
    rw [heq]
    exact Runtime.setBody_field EventBody.triggered (by rfl) y
  unfold Runtime.Triggered
  rw [hfield]

theorem countMember_enlisted (s : Runtime) (q x y : EventId) (l : Listener) :
    (countMember s q x).enlisted y l = s.enlisted y l := by
  rcases countMember_eq s q x with ⟨count, members, heq⟩
  have hfield : ((countMember s q x).body y).listeners = (s.body y).listeners := by
    rw [heq]
    exact Runtime.setBody_field EventBody.listeners (by rfl) y
  unfold Runtime.enlisted
  rw [hfield]

theorem countMember_same (s : Runtime) (q x y : EventId) :
    ((countMember s q x).body y).isQuorum = (s.body y).isQuorum ∧
      ((countMember s q x).body y).quorum = (s.body y).quorum := by
  rcases countMember_eq s q x with ⟨count, members, heq⟩
  rw [heq]
  exact ⟨Runtime.setBody_field EventBody.isQuorum (by rfl) y,
    Runtime.setBody_field EventBody.quorum (by rfl) y⟩

theorem countMember_of_ne {s : Runtime} {q x y : EventId} (h : y ≠ q) :
    (countMember s q x).body y = s.body y := by
  rcases countMember_eq s q x with ⟨count, members, heq⟩
  rw [heq, Runtime.setBody_of_ne h]

theorem countMember_size (s : Runtime) (q x : EventId) : (countMember s q x).size = s.size := by
  rcases countMember_eq s q x with ⟨count, members, heq⟩
  rw [heq]
  rfl

theorem countMember_of_mem {s : Runtime} {q x : EventId} (h : x ∈ (s.body q).members) :
    ((countMember s q x).body q).members = swapErase x (s.body q).members ∧
      ((countMember s q x).body q).count = (s.body q).count + 1 := by
  unfold countMember
  simp only []
  rw [if_pos h, Runtime.setBody_self]
  exact ⟨rfl, rfl⟩

variable (home current) in
theorem countMember_cascade (drv : Option DriverId) (s : Runtime) (q x : EventId) :
    Cascade home current drv s (countMember s q x) := by
  have hsame : (countMember s q x).coh = s.coh ∧ (countMember s q x).asap = s.asap ∧
      (countMember s q x).size = s.size := by
    rcases countMember_eq s q x with ⟨count, members, heq⟩
    rw [heq]
    exact ⟨rfl, rfl, rfl⟩
  have htriggered := countMember_triggered s q x
  refine ⟨hsame.2.2, fun y => (htriggered y).2, fun y hy => ?_, fun _ => hsame.2.1,
    .inl ⟨hsame.1, fun y c => countMember_enlisted s q x y _⟩, ?_, ?_⟩
  · rwa [hsame.2.1]
  · intro _ y c hs ht
    exact absurd ((htriggered y).1 ht) hs
  · intro _ _ _ y c hs ht
    exact absurd ((htriggered y).1 ht) hs

variable (current) in
/-- Posting touches the queues only. -/
theorem post_eq (drv : Option DriverId) (x : EventId) (ds : List DriverId) (s : Runtime) :
    ∃ asap migrate, ds.foldl (post current drv x) s = { s with asap, migrate } ∧
      (∀ y ∈ s.asap, y ∈ asap) ∧ (drv.getD current ∈ ds → x ∈ asap) ∧
      (drv.getD current ∉ ds → asap = s.asap) := by
  induction ds generalizing s with
  | nil =>
    exact ⟨s.asap, s.migrate, rfl, fun _ h => h, fun h => by simp at h, fun _ => rfl⟩
  | cons d ds ih =>
    rcases ih (post current drv x s d) with ⟨asap, migrate, heq, hsub, hin, hout⟩
    by_cases hd : d = drv.getD current
    · have hpost : post current drv x s d = { s with asap := s.asap ++ [x] } := if_pos hd
      rw [hpost] at heq hsub
      refine ⟨asap, migrate, ?_, fun y hy => hsub y (List.mem_append_left _ hy), fun _ => ?_,
        fun h => absurd (by rw [hd]; exact List.mem_cons_self) h⟩
      · rw [List.foldl_cons, hpost, heq]
      · exact hsub x (List.mem_append_right _ List.mem_cons_self)
    · have hpost : post current drv x s d = { s with migrate := s.migrate ++ [(d, x)] } :=
        if_neg hd
      rw [hpost] at heq hsub hout
      refine ⟨asap, migrate, ?_, hsub, fun h => ?_, fun h => ?_⟩
      · rw [List.foldl_cons, hpost, heq]
      · rcases List.mem_cons.1 h with h | h
        · exact absurd h.symm hd
        · exact hin h
      · exact hout fun h' => h (List.mem_cons_of_mem _ h')

/-- The parts of `trigger_unlock`. -/
theorem triggerUnlock_inv {drv : Option DriverId} {n : Nat} {s t : Runtime} {x : EventId}
    (h : triggerUnlock home current drv (n + 1) s x = some t) :
    ∃ u, (markTriggered home drv s x).1.quorums.foldlM
        (triggerMember (triggerUnlock home current drv n) x) (markTriggered home drv s x).2 = some u ∧
      t = (markTriggered home drv s x).1.drivers.foldl (post current drv x) u := by
  unfold triggerUnlock at h
  simp only [] at h
  rcases Option.map_eq_some_iff.1 h with ⟨u, hu, ht⟩
  exact ⟨u, hu, ht.symm⟩

/-- From the mark to the end, `x` has triggered and waits to be posted. -/
theorem cascade_of_marked {drv : Option DriverId} {s m u : Runtime} {x : EventId} {r : Scan}
    (hx : ¬ s.Triggered x) (hm : Marked home drv s x r m)
    (hu : Cascade home current drv m u) :
    Cascade home current drv s (r.drivers.foldl (post current drv x) u) := by
  rcases post_eq current drv x r.drivers u with
    ⟨asap, migrate, heq, hsub, hin, hout⟩
  rw [heq]
  have hmx : m.Triggered x := (hm.triggered x).2 (.inl rfl)
  have hbelow : ∀ y c, m.enlisted y (.coroutine c) ≤ s.enlisted y (.coroutine c) := by
    intro y c
    rcases hm.account with ⟨_, hsame, _⟩ | ⟨_, c₀, _, _, hsame⟩
    · exact Nat.le_of_eq (hsame y c)
    · have := hsame y c
      omega
  have hold : ∀ y, ¬ s.Triggered y → y ≠ x → ¬ m.Triggered y := by
    intro y hs hy ht
    rcases (hm.triggered y).1 ht with he | ht
    · exact hy he
    · exact hs ht
  constructor
  · exact hu.size.trans hm.size
  · exact fun y hy => hu.mono y ((hm.triggered y).2 (.inr hy))
  · intro y hy
    rw [← hm.asap] at hy
    exact hsub y (hu.asap y hy)
  · intro hd
    have hnot : drv.getD current ∉ r.drivers := by
      intro hmem
      rcases (hm.drivers _).1 hmem with ⟨c, _, _, hne⟩
      rw [hd] at hne
      exact hne rfl
    rw [hout hnot, hu.unposted hd, hm.asap]
  · rcases hm.account with ⟨hcoh, hsame, _⟩ | ⟨hnone, c₀, hcoh, hown, hsame⟩
    · rcases hu.account with ⟨hcoh', hsame'⟩ | ⟨hnone', y₀, c₀, hcoh', hown', hnew, ht, hsame'⟩
      · exact .inl ⟨hcoh'.trans hcoh, fun y c => (hsame' y c).trans (hsame y c)⟩
      · refine .inr ⟨hcoh.symm.trans hnone', y₀, c₀, hcoh', hown',
          fun hs => hnew ((hm.triggered _).2 (.inr hs)), ht, fun y c => ?_⟩
        rw [← hsame y c]
        exact hsame' y c
    · rcases hu.account with ⟨hcoh', hsame'⟩ | ⟨hnone', _⟩
      · refine .inr ⟨hnone, x, c₀, hcoh'.trans hcoh, hown, hx, hu.mono x hmx, fun y c => ?_⟩
        rw [← hsame y c]
        exact congrArg (· + _) (hsame' y c)
      · rw [hcoh] at hnone'
        cases hnone'
  · intro hd y c hs ht hc hown
    by_cases hy : y = x
    · -- the driver of a coroutine that waits for `x` is on the list
      rw [hy] at hc ⊢
      have hcm : 0 < m.enlisted x (.coroutine c) := by
        rw [← hu.enlisted hmx c]
        exact hc
      have hmem : current ∈ r.drivers :=
        (hm.drivers current).2 ⟨c, Nat.lt_of_lt_of_le hcm (hbelow x c), hown.symm, by simp [hd]⟩
      exact hin (by rw [hd]; exact hmem)
    · exact hsub y (hu.posted hd y c (hold y hs hy) ht hc hown)
  · intro d hd hcoh y c hs ht hc
    by_cases hy : y = x
    · rw [hy] at hc
      have hcm : 0 < m.enlisted x (.coroutine c) := by
        rw [← hu.enlisted hmx c]
        exact hc
      have hmcoh : m.coh = none := hu.coh hcoh
      rcases hm.account with ⟨hkeep, _, hnone⟩ | ⟨_, c₀, hsome, _⟩
      · have hne := hnone (hkeep.symm.trans hmcoh) c (Nat.lt_of_lt_of_le hcm (hbelow x c))
        intro he
        rw [he] at hne
        exact hne hd
      · rw [hmcoh] at hsome
        cases hsome
    · exact hu.claimed d hd hcoh y c (hold y hs hy) ht hc

theorem triggerMember_cascade {drv : Option DriverId} {x : EventId}
    {unlock : Runtime → EventId → Option Runtime}
    (hunlock : ∀ s q t, ¬ s.Triggered q → unlock s q = some t → Cascade home current drv s t)
    {s t : Runtime} {q : EventId} (h : triggerMember unlock x s q = some t) :
    Cascade home current drv s t := by
  unfold triggerMember at h
  simp only [] at h
  have hcount := countMember_cascade home current drv s q x
  split at h
  · rename_i hq
    exact hcount.trans (hunlock _ q t hq.1 h)
  · obtain rfl := Option.some.inj h
    exact hcount

theorem triggerUnlock_cascade {drv : Option DriverId} {n : Nat} {s t : Runtime} {x : EventId}
    (hx : ¬ s.Triggered x) (h : triggerUnlock home current drv n s x = some t) :
    Cascade home current drv s t := by
  induction n generalizing s t x with
  | zero => cases h
  | succ n ih =>
    rcases triggerUnlock_inv h with ⟨u, hu, rfl⟩
    apply cascade_of_marked hx (markTriggered_marked home drv s x)
    exact foldlM_cascade (fun a q b => triggerMember_cascade fun _ _ _ hq hb => ih hq hb) hu

/-- The event that is fired is the first to be asked for a coroutine. -/
theorem triggerUnlock_claims_root {n : Nat} {s t : Runtime} {x : EventId} {c : CoroId}
    (hcoh : s.coh = none) (hc : 0 < s.enlisted x (.coroutine c)) (hown : home c = current)
    (h : triggerUnlock home current (some current) (n + 1) s x = some t) :
    ∃ c₀, t.coh = some c₀ ∧ 0 < s.enlisted x (.coroutine c₀) := by
  rcases triggerUnlock_inv h with ⟨u, hu, rfl⟩
  have hm := markTriggered_marked home (some current) s x
  have hinform : Cascade home current (some current)
      (markTriggered home (some current) s x).2 u :=
    foldlM_cascade (fun a q b => triggerMember_cascade fun _ _ _ hq hb =>
      triggerUnlock_cascade hq hb) hu
  rcases hm.account with ⟨_, _, hnone⟩ | ⟨_, c₀, hc₀, _, hsame⟩
  · exact absurd (by rw [hown]) (hnone hcoh c hc)
  · refine ⟨c₀, ?_, ?_⟩
    · rcases post_eq current (some current) x
        (markTriggered home (some current) s x).1.drivers u with ⟨asap, migrate, heq, _⟩
      rw [heq]
      rcases hinform.account with ⟨hkeep, _⟩ | ⟨hfree, _⟩
      · exact hkeep.trans hc₀
      · rw [hc₀] at hfree
        cases hfree
    · have := hsame x c₀
      simp only [and_self, if_true] at this
      omega

end

end Event
end Cotamer
end Psets
