/-
Which events a cascade triggers.

Between two calls the runtime is quiet: an untriggered quorum is a listener of each of
its members as often as it has the member, its triggered members are counted and gone,
and it is short of its quorum.  In the middle of a cascade some quorums have still to be
informed.  The cascade that fires `eh` triggers `eh` and every quorum that reaches its
number through it, each event once, and comes to an end.
-/
import Mathlib.Data.Finset.Card
import Mathlib.Data.Finset.Range
import Psets.Cotamer.Cascade
import Psets.Quorum.Threshold

namespace Psets
namespace Cotamer
namespace Event

open Containers Transition Quorum

/-- The events that trigger when `eh` is fired in `s`. -/
def Fires (s : Runtime) (eh : EventId) : EventId → Prop :=
  Fired (fun x => x = eh ∧ ¬ s.Triggered x) (fun q => (s.body q).isQuorum = true ∧ ¬ s.Triggered q)
    (fun q => (s.body q).members) (fun q => (s.body q).quorum - (s.body q).count)

/-- No call is under way; `hole` may have reached its quorum. -/
structure QuietBut (hole : Option EventId) (s : Runtime) : Prop where
  settled : ∀ m q, s.Triggered m → ¬ s.Triggered q → (s.body q).members.count m = 0
  edges : ∀ m q, ¬ s.Triggered m → ¬ s.Triggered q →
    s.enlisted m (.quorum q) = (s.body q).members.count m
  short : ∀ q, hole ≠ some q → (s.body q).isQuorum = true → ¬ s.Triggered q →
    (s.body q).count < (s.body q).quorum
  known : ∀ m q, 0 < s.enlisted m (.quorum q) → (s.body q).isQuorum = true ∧ q < s.size
  fresh : ∀ x, s.size ≤ x → s.body x = {}
  /-- A coroutine is suspended on one event, once. -/
  once : ∀ x c, s.enlisted x (.coroutine c) ≤ 1
  alone : ∀ x y c, 0 < s.enlisted x (.coroutine c) → 0 < s.enlisted y (.coroutine c) → x = y

/-- No call is under way. -/
abbrev Quiet (s : Runtime) : Prop := QuietBut none s

/-- The graph in the middle of the cascade that fired `eh` in `s₀`: `pend` are the
members with the quorums they have still to inform, and `hole` may have reached its
quorum. -/
structure Underway (s₀ : Runtime) (eh : EventId) (hole : Option EventId)
    (pend : List (EventId × EventId)) (s : Runtime) : Prop where
  size : s.size = s₀.size
  mono : ∀ x, s₀.Triggered x → s.Triggered x
  sound : ∀ x, s.Triggered x → ¬ s₀.Triggered x → Fires s₀ eh x
  same : ∀ q, (s.body q).isQuorum = (s₀.body q).isQuorum ∧ (s.body q).quorum = (s₀.body q).quorum
  removed : ∀ q, ¬ s.Triggered q → ∃ removed : List EventId,
    (removed ++ (s.body q).members).Perm (s₀.body q).members ∧
      (s.body q).count = (s₀.body q).count + removed.length ∧ ∀ m ∈ removed, Fires s₀ eh m
  short : ∀ q, hole ≠ some q → (s.body q).isQuorum = true → ¬ s.Triggered q →
    (s.body q).count < (s.body q).quorum
  pending : ∀ m q, s.Triggered m → ¬ s.Triggered q →
    (s.body q).members.count m = pend.count (m, q)
  edges : ∀ m q, ¬ s.Triggered m → ¬ s.Triggered q →
    s.enlisted m (.quorum q) = (s.body q).members.count m
  told : ∀ m q, (m, q) ∈ pend → s.Triggered m ∧ ¬ s₀.Triggered m ∧
    (s.body q).isQuorum = true ∧ q < s.size
  known : ∀ m q, 0 < s.enlisted m (.quorum q) → (s.body q).isQuorum = true ∧ q < s.size
  fresh : ∀ x, s.size ≤ x → s.body x = {}

theorem QuietBut.underway {s : Runtime} {hole : Option EventId} (h : QuietBut hole s)
    (eh : EventId) : Underway s eh hole [] s where
  size := rfl
  mono _ hx := hx
  sound _ hx hx' := absurd hx hx'
  same _ := ⟨rfl, rfl⟩
  removed q _ := ⟨[], List.Perm.refl _, rfl, fun m hm => by simp at hm⟩
  short := h.short
  pending m q hm hq := h.settled m q hm hq
  edges := h.edges
  told m q hmq := by simp at hmq
  known := h.known
  fresh := h.fresh

theorem QuietBut.weaken {s : Runtime} (h : Quiet s) (hole : Option EventId) : QuietBut hole s :=
  { h with short := fun q _ => h.short q nofun }

/-- A quorum that has reached its number fires. -/
theorem Underway.fires {s₀ s : Runtime} {eh q : EventId} {hole : Option EventId}
    {pend : List (EventId × EventId)} (h : Underway s₀ eh hole pend s)
    (hq : (s.body q).isQuorum = true) (hs : ¬ s.Triggered q)
    (hreached : (s.body q).quorum ≤ (s.body q).count) : Fires s₀ eh q := by
  rcases h.removed q hs with ⟨removed, hperm, hcount, hfires⟩
  have hgate : (s₀.body q).isQuorum = true ∧ ¬ s₀.Triggered q := by
    rw [← (h.same q).1]
    exact ⟨hq, fun hs₀ => hs (h.mono q hs₀)⟩
  have hsame := (h.same q).2
  unfold Fires at hfires ⊢
  refine Fired.of_removed hgate hperm hfires ?_
  show (s₀.body q).quorum - (s₀.body q).count ≤ removed.length
  omega

section

variable {home : CoroId → DriverId} {current : DriverId}

/-- Marking an event: its quorums join those to inform. -/
theorem Underway.mark {drv : Option DriverId} {s₀ s m : Runtime} {eh x : EventId} {r : Scan}
    {pend : List (EventId × EventId)} (h : Underway s₀ eh (some x) pend s)
    (hx : ¬ s.Triggered x) (hfires : Fires s₀ eh x) (hsize : x < s.size)
    (hm : Marked home drv s x r m) :
    Underway s₀ eh none (r.quorums.map (fun q => (x, q)) ++ pend) m := by
  have hne : ∀ {q}, ¬ m.Triggered q → q ≠ x ∧ ¬ s.Triggered q := by
    intro q hq
    rw [hm.triggered, not_or] at hq
    exact hq
  have hisQuorum : ∀ q, (m.body q).isQuorum = (s.body q).isQuorum := fun q => (hm.same q).1
  constructor
  · exact hm.size.trans h.size
  · exact fun y hy => (hm.triggered y).2 (.inr (h.mono y hy))
  · intro y hy hy₀
    rcases (hm.triggered y).1 hy with rfl | hy
    · exact hfires
    · exact h.sound y hy hy₀
  · intro q
    rw [hisQuorum, (hm.same q).2.2]
    exact h.same q
  · intro q hq
    rw [hm.members q (hne hq).1, (hm.same q).2.1]
    exact h.removed q (hne hq).2
  · intro q _ hquorum hq
    rw [(hm.same q).2.1, (hm.same q).2.2]
    rw [hisQuorum] at hquorum
    exact h.short q (fun he => (hne hq).1 (Option.some.inj he).symm) hquorum (hne hq).2
  · intro y q hy hq
    rw [hm.members q (hne hq).1, List.count_append]
    rcases (hm.triggered y).1 hy with rfl | hy
    · -- the quorums of `x` were its listeners
      have hpend : pend.count (y, q) = 0 :=
        List.count_eq_zero.2 fun hmem => hx (h.told y q hmem).1
      have hmap : (r.quorums.map (fun q' => (y, q'))).count (y, q) = r.quorums.count q :=
        List.count_map_of_injective _ _ (fun a b hab => (Prod.mk.inj hab).2) q
      rw [hpend, hmap, hm.informs q (hne hq).1, h.edges y q hx (hne hq).2, Nat.add_zero]
    · have hmap : (r.quorums.map (fun q' => (x, q'))).count (y, q) = 0 := by
        apply List.count_eq_zero.2
        intro hmem
        rcases List.mem_map.1 hmem with ⟨q', _, he⟩
        exact hx ((Prod.mk.inj he).1 ▸ hy)
      rw [hmap, Nat.zero_add]
      exact h.pending y q hy (hne hq).2
  · intro y q hy hq
    rw [hm.members q (hne hq).1, hm.listens y q (hne hy).1 (hne hq).1]
    exact h.edges y q (hne hy).2 (hne hq).2
  · intro y q hmem
    rw [hisQuorum, hm.size]
    rcases List.mem_append.1 hmem with hmem | hmem
    · rcases List.mem_map.1 hmem with ⟨q', hq', he⟩
      obtain ⟨rfl, rfl⟩ := Prod.mk.inj he
      have hknown := h.known _ _ (hm.informed _ hq')
      exact ⟨(hm.triggered _).2 (.inl rfl), fun hx₀ => hx (h.mono _ hx₀), hknown⟩
    · rcases h.told y q hmem with ⟨ht, ht₀, hknown⟩
      exact ⟨(hm.triggered y).2 (.inr ht), ht₀, hknown⟩
  · intro y q hpos
    rw [hisQuorum, hm.size]
    exact h.known y q (Nat.lt_of_lt_of_le hpos (hm.fewer y q))
  · intro y hy
    rw [hm.size] at hy
    exact hm.fresh y (Nat.ne_of_gt (Nat.lt_of_lt_of_le hsize hy)) (h.fresh y hy)

/-- Informing a quorum: a member that was to inform it is counted and removed. -/
theorem Underway.count {s₀ s : Runtime} {eh q x : EventId} {pend : List (EventId × EventId)}
    (h : Underway s₀ eh none ((x, q) :: pend) s) :
    Underway s₀ eh (some q) pend (countMember s q x) := by
  rcases h.told x q List.mem_cons_self with ⟨hx, hx₀, hquorum, hsize⟩
  have htriggered := countMember_triggered s q x
  have henlisted := countMember_enlisted s q x
  have hmem : ¬ s.Triggered q → x ∈ (s.body q).members := by
    intro hq
    have hcount := h.pending x q hx hq
    rw [List.count_cons_self] at hcount
    exact List.count_pos_iff.1 (by omega)
  constructor
  · exact (countMember_size s q x).trans h.size
  · exact fun y hy => (htriggered y).2 (h.mono y hy)
  · exact fun y hy hy₀ => h.sound y ((htriggered y).1 hy) hy₀
  · intro y
    rw [(countMember_same s q x y).1, (countMember_same s q x y).2]
    exact h.same y
  · intro y hy
    rw [htriggered] at hy
    rcases h.removed y hy with ⟨removed, hperm, hcount, hfires⟩
    by_cases hyq : y = q
    · rw [hyq] at hy hperm hcount ⊢
      rcases countMember_of_mem (hmem hy) with ⟨hmembers, hcount'⟩
      refine ⟨x :: removed, ?_, ?_, ?_⟩
      · rw [hmembers]
        apply List.Perm.trans _ hperm
        apply List.Perm.trans List.perm_middle.symm
        exact (cons_swapErase_perm (hmem hy)).append_left removed
      · rw [hcount', hcount, List.length_cons, Nat.add_assoc]
      · intro m hm
        rcases List.mem_cons.1 hm with rfl | hm
        · exact h.sound m hx hx₀
        · exact hfires m hm
    · rw [countMember_of_ne hyq]
      exact ⟨removed, hperm, hcount, hfires⟩
  · intro y hne hyquorum hy
    have hyq : y ≠ q := fun he => hne (by rw [he])
    rw [htriggered] at hy
    rw [countMember_of_ne hyq] at hyquorum ⊢
    exact h.short y nofun hyquorum hy
  · intro m y hm hy
    rw [htriggered] at hm hy
    have hcount := h.pending m y hm hy
    by_cases hyq : y = q
    · rw [hyq] at hy hcount ⊢
      rw [(countMember_of_mem (hmem hy)).1]
      by_cases hmx : m = x
      · rw [hmx] at hcount ⊢
        rw [List.count_cons_self] at hcount
        rw [count_swapErase_self]
        omega
      · rw [count_swapErase_of_ne hmx, hcount, List.count_cons_of_ne]
        exact fun he => hmx (Prod.mk.inj he).1.symm
    · rw [countMember_of_ne hyq, hcount, List.count_cons_of_ne]
      exact fun he => hyq (Prod.mk.inj he).2.symm
  · intro m y hm hy
    rw [htriggered] at hm hy
    rw [henlisted, h.edges m y hm hy]
    by_cases hyq : y = q
    · rw [hyq] at hy ⊢
      have hmx : m ≠ x := fun he => hm (he ▸ hx)
      rw [(countMember_of_mem (hmem hy)).1, count_swapErase_of_ne hmx]
    · rw [countMember_of_ne hyq]
  · intro m y hmy
    rw [htriggered, (countMember_same s q x y).1, countMember_size]
    exact h.told m y (List.mem_cons_of_mem _ hmy)
  · intro m y hpos
    rw [henlisted] at hpos
    rw [(countMember_same s q x y).1, countMember_size]
    exact h.known m y hpos
  · intro y hy
    rw [countMember_size] at hy
    rw [countMember_of_ne (Nat.ne_of_gt (Nat.lt_of_lt_of_le hsize hy))]
    exact h.fresh y hy

/-- The hole is closed unless the quorum has reached its number. -/
theorem Underway.close {s₀ s : Runtime} {eh q : EventId} {pend : List (EventId × EventId)}
    (h : Underway s₀ eh (some q) pend s)
    (hq : s.Triggered q ∨ (s.body q).count < (s.body q).quorum) : Underway s₀ eh none pend s := by
  refine { h with short := fun y _ hquorum hy => ?_ }
  by_cases hyq : y = q
  · rw [hyq] at hy ⊢
    exact hq.resolve_left hy
  · exact h.short y (fun he => hyq (Option.some.inj he).symm) hquorum hy

/-! ## The end of a cascade -/

/-- The events a cascade can still trigger. -/
def remaining (s : Runtime) : Nat := ((Finset.range s.size).filter (fun x => ¬ s.Triggered x)).card

theorem remaining_le (s : Runtime) : remaining s ≤ s.size := by
  have h := Finset.card_filter_le (Finset.range s.size) (fun x => ¬ s.Triggered x)
  rwa [Finset.card_range] at h

theorem remaining_mono {s t : Runtime} (hsize : t.size = s.size)
    (hmono : ∀ x, s.Triggered x → t.Triggered x) : remaining t ≤ remaining s := by
  apply Finset.card_le_card
  intro x hx
  rw [Finset.mem_filter, hsize] at hx
  exact Finset.mem_filter.2 ⟨hx.1, fun hs => hx.2 (hmono x hs)⟩

theorem remaining_mark {s t : Runtime} {x : EventId} (hsize : t.size = s.size)
    (hx : ¬ s.Triggered x) (hlt : x < s.size)
    (ht : ∀ y, t.Triggered y ↔ y = x ∨ s.Triggered y) : remaining t < remaining s := by
  apply Finset.card_lt_card
  rw [Finset.ssubset_iff_of_subset]
  · refine ⟨x, Finset.mem_filter.2 ⟨Finset.mem_range.2 hlt, hx⟩, fun hmem => ?_⟩
    exact (Finset.mem_filter.1 hmem).2 ((ht x).2 (.inl rfl))
  · intro y hy
    rw [Finset.mem_filter, hsize] at hy
    exact Finset.mem_filter.2 ⟨hy.1, fun hs => hy.2 ((ht y).2 (.inr hs))⟩

variable (current) in
/-- Posting does not touch the graph. -/
theorem Underway.post {s₀ s : Runtime} {eh : EventId} {hole : Option EventId}
    {pend : List (EventId × EventId)} (h : Underway s₀ eh hole pend s) (drv : Option DriverId)
    (x : EventId) (ds : List DriverId) :
    Underway s₀ eh hole pend (ds.foldl (post current drv x) s) ∧
      ∀ y, (ds.foldl (Event.post current drv x) s).Triggered y ↔ s.Triggered y := by
  rcases post_eq current drv x ds s with ⟨asap, migrate, heq, _⟩
  rw [heq]
  exact ⟨⟨h.size, h.mono, h.sound, h.same, h.removed, h.short, h.pending, h.edges, h.told,
    h.known, h.fresh⟩, fun _ => Iff.rfl⟩

/-- Informing the quorums one after the other, when the nested calls do what they
should. -/
theorem inform_underway {s₀ : Runtime} {eh x : EventId} {n : Nat}
    {unlock : Runtime → EventId → Option Runtime}
    (hunlock : ∀ s q pend, Underway s₀ eh (some q) pend s → ¬ s.Triggered q → Fires s₀ eh q →
      q < s.size → remaining s ≤ n → ∃ t, unlock s q = some t ∧ Underway s₀ eh none pend t ∧
        ∀ y, s.Triggered y → t.Triggered y)
    {qs : List EventId} {pend : List (EventId × EventId)} {s : Runtime}
    (h : Underway s₀ eh none (qs.map (fun q => (x, q)) ++ pend) s) (hn : remaining s ≤ n) :
    ∃ t, qs.foldlM (triggerMember unlock x) s = some t ∧ Underway s₀ eh none pend t ∧
      ∀ y, s.Triggered y → t.Triggered y := by
  induction qs generalizing s with
  | nil => exact ⟨s, rfl, h, fun _ hy => hy⟩
  | cons q qs ih =>
    have hcount := h.count
    have htold := h.told x q List.mem_cons_self
    have htriggered := countMember_triggered s q x
    have hrem : remaining (countMember s q x) ≤ n :=
      Nat.le_trans (remaining_mono (countMember_size s q x) fun y => (htriggered y).2) hn
    have hstep : ∃ u, triggerMember unlock x s q = some u ∧
        Underway s₀ eh none (qs.map (fun q => (x, q)) ++ pend) u ∧
        ∀ y, s.Triggered y → u.Triggered y := by
      unfold triggerMember
      simp only []
      split
      · rename_i hreached
        have hquorum : ((countMember s q x).body q).isQuorum = true := by
          rw [(countMember_same s q x q).1]
          exact htold.2.2.1
        have hlt : q < (countMember s q x).size := by
          rw [countMember_size]
          exact htold.2.2.2
        rcases hunlock _ q _ hcount hreached.1
          (hcount.fires hquorum hreached.1 hreached.2) hlt hrem with ⟨u, hu, hunder, hmono⟩
        exact ⟨u, hu, hunder, fun y hy => hmono y ((htriggered y).2 hy)⟩
      · rename_i hnot
        refine ⟨_, rfl, hcount.close ?_, fun y => (htriggered y).2⟩
        by_cases hq : (countMember s q x).Triggered q
        · exact .inl hq
        · exact .inr (Nat.lt_of_not_le fun hle => hnot ⟨hq, hle⟩)
    rcases hstep with ⟨u, hu, hunder, hmono⟩
    have hremu : remaining u ≤ n := by
      have hsize : u.size = s.size := hunder.size.trans h.size.symm
      exact Nat.le_trans (remaining_mono hsize hmono) hn
    rcases ih hunder hremu with ⟨t, ht, hend, hmono'⟩
    refine ⟨t, ?_, hend, fun y hy => hmono' y (hmono y hy)⟩
    rw [List.foldlM_cons, hu]
    exact ht

variable (home current) in
/-- A depth of as many nested calls as there are events left is enough. -/
theorem triggerUnlock_underway (drv : Option DriverId) {s₀ : Runtime} {eh : EventId} {n : Nat}
    {s : Runtime} {x : EventId} {pend : List (EventId × EventId)}
    (h : Underway s₀ eh (some x) pend s) (hx : ¬ s.Triggered x) (hfires : Fires s₀ eh x)
    (hsize : x < s.size) (hn : remaining s ≤ n) :
    ∃ t, triggerUnlock home current drv n s x = some t ∧ Underway s₀ eh none pend t ∧
      (∀ y, s.Triggered y → t.Triggered y) ∧ t.Triggered x := by
  induction n generalizing s x pend with
  | zero =>
    have hpos : 0 < remaining s :=
      Finset.card_pos.2 ⟨x, Finset.mem_filter.2 ⟨Finset.mem_range.2 hsize, hx⟩⟩
    omega
  | succ n ih =>
    have hm := markTriggered_marked home drv s x
    have hrem := remaining_mark hm.size hx hsize hm.triggered
    rcases inform_underway (fun s' q pend' h' hq hf hlt hn' => by
      rcases ih h' hq hf hlt hn' with ⟨t, ht, hunder, hmono, _⟩
      exact ⟨t, ht, hunder, hmono⟩) (h.mark hx hfires hsize hm) (by omega) with
      ⟨u, hu, hunder, hmono⟩
    rcases hunder.post current drv x (markTriggered home drv s x).1.drivers with
      ⟨hpost, htriggered⟩
    refine ⟨_, ?_, hpost, fun y hy => ?_, ?_⟩
    · unfold triggerUnlock
      simp only [hu, Option.map_some]
    · exact (htriggered y).2 (hmono y ((hm.triggered y).2 (.inr hy)))
    · exact (htriggered x).2 (hmono x ((hm.triggered x).2 (.inl rfl)))

/-- What fires has triggered, when nothing is left to inform. -/
theorem Underway.complete {s₀ s : Runtime} {eh : EventId} (h : Underway s₀ eh none [] s)
    (heh : s.Triggered eh) {x : EventId} (hx : Fires s₀ eh x) : s.Triggered x := by
  unfold Fires at hx
  refine Fired.least (fun y hy => hy.1 ▸ heh) (fun q hq hs => ?_) hx
  rcases h.removed q hs with ⟨removed, hperm, hcount, _⟩
  refine ⟨removed, (s.body q).members, hperm, fun m hm ht => ?_, ?_⟩
  · have hpending := h.pending m q ht hs
    have hpos := List.count_pos_iff.2 hm
    rw [List.count_nil] at hpending
    omega
  · have hquorum : (s.body q).isQuorum = true := by
      rw [(h.same q).1]
      exact hq.1
    have hshort := h.short q nofun hquorum hs
    have hsame := (h.same q).2
    show removed.length < (s₀.body q).quorum - (s₀.body q).count
    omega

/-- The end of a cascade is quiet. -/
theorem Underway.quiet {drv : Option DriverId} {s₀ s : Runtime} {eh : EventId}
    {hole : Option EventId} (h : Underway s₀ eh none [] s) (hs₀ : QuietBut hole s₀)
    (hc : Cascade home current drv s₀ s) : Quiet s := by
  have hfewer : ∀ x c, s.enlisted x (.coroutine c) ≤ s₀.enlisted x (.coroutine c) := by
    intro x c
    rcases hc.account with ⟨_, hsame⟩ | ⟨_, x₀, c₀, _, _, _, _, hsame⟩
    · exact Nat.le_of_eq (hsame x c)
    · have := hsame x c
      omega
  exact
    { settled := fun m q hm hq => h.pending m q hm hq
      edges := h.edges
      short := h.short
      known := h.known
      fresh := h.fresh
      once := fun x c => Nat.le_trans (hfewer x c) (hs₀.once x c)
      alone := fun x y c hx hy => hs₀.alone x y c (Nat.lt_of_lt_of_le hx (hfewer x c))
        (Nat.lt_of_lt_of_le hy (hfewer y c)) }

/-- The cascade that fires `x`, as a whole. -/
structure FullCascade (home : CoroId → DriverId) (current : DriverId) (drv : Option DriverId)
    (s : Runtime) (x : EventId) (t : Runtime) : Prop where
  run : triggerUnlock home current drv (depth s) s x = some t
  cascade : Cascade home current drv s t
  quiet : Quiet t
  root : t.Triggered x
  fires : ∀ y, ¬ s.Triggered y → (t.Triggered y ↔ Fires s x y)

variable (home current) in
theorem fullCascade {s : Runtime} {x : EventId} (drv : Option DriverId)
    (h : QuietBut (some x) s) (hx : ¬ s.Triggered x) (hsize : x < s.size) :
    ∃ t, FullCascade home current drv s x t := by
  have hroot : Fires s x x := Fired.root ⟨rfl, hx⟩
  have hdepth : remaining s ≤ depth s := Nat.le_trans (remaining_le s) (Nat.le_succ _)
  rcases triggerUnlock_underway home current drv
    (h.underway x) hx hroot hsize hdepth with ⟨t, hrun, hunder, _, ht⟩
  have hcascade := triggerUnlock_cascade hx hrun
  refine ⟨t, hrun, hcascade, hunder.quiet h hcascade, ht, fun y hy => ⟨fun hty => ?_, ?_⟩⟩
  · exact hunder.sound y hty hy
  · exact fun hf => hunder.complete ht hf

end

end Event
end Cotamer
end Psets
