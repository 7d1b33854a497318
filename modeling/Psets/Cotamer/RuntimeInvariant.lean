/-
Every runtime that events can be brought to is quiet.

Each operation on events is one that builds a new quorum, one that adds or removes a
coroutine, or one that starts a cascade, and each leaves the graph as a cascade expects
to find it.
-/
import Mathlib.Data.List.ReduceOption
import Psets.Cotamer.Propagation

namespace Psets
namespace Cotamer
namespace Event

open Containers Transition Quorum

variable {home : CoroId → DriverId} {current : DriverId}

/-- Coroutines come and go without touching the graph. -/
theorem SameBut.quiet {s t : Runtime} {c : CoroId} (h : SameBut (.coroutine c) s t)
    (hs : Quiet s) : Quiet t := by
  have hquorum : ∀ m q, t.enlisted m (.quorum q) = s.enlisted m (.quorum q) :=
    fun m q => h.others m _ nofun
  have hfewer : ∀ x d, t.enlisted x (.coroutine d) ≤ s.enlisted x (.coroutine d) := by
    intro x d
    by_cases hd : d = c
    · rw [hd]
      exact h.fewer x
    · exact Nat.le_of_eq (h.others x _ fun he => hd (Listener.coroutine.inj he))
  constructor
  · intro m q hm hq
    rw [h.triggered] at hm hq
    rw [h.body q]
    exact hs.settled m q hm hq
  · intro m q hm hq
    rw [h.triggered] at hm hq
    rw [hquorum, h.body q]
    exact hs.edges m q hm hq
  · intro q hne hquorum' hq
    rw [h.triggered] at hq
    rw [h.body q] at hquorum' ⊢
    exact hs.short q hne hquorum' hq
  · intro m q hpos
    rw [hquorum] at hpos
    rw [h.body q, h.size]
    exact hs.known m q hpos
  · intro x hx
    rw [h.size] at hx
    have hbody := hs.fresh x hx
    rw [h.body x, h.idle x (by rw [hbody]), hbody]
  · exact fun x d => Nat.le_trans (hfewer x d) (hs.once x d)
  · exact fun x y d hx hy => hs.alone x y d (Nat.lt_of_lt_of_le hx (hfewer x d))
      (Nat.lt_of_lt_of_le hy (hfewer y d))

/-- A coroutine that is not suspended is on no listener list. -/
theorem not_suspended {s : Runtime} (hs : Quiet s) {c : CoroId} (hc : ¬ Suspended s c)
    (x : EventId) : s.enlisted x (.coroutine c) = 0 := by
  apply List.count_eq_zero.2
  intro hmem
  by_cases hx : x < s.size
  · exact hc ⟨x, hx, hmem⟩
  · rw [hs.fresh x (Nat.le_of_not_lt hx)] at hmem
    cases hmem

/-- `co_await` on an event that has not triggered. -/
theorem await_quiet {s : Runtime} {c : CoroId} {x : EventId} (hs : Quiet s)
    (hc : ¬ Suspended s c) (hx : x < s.size) :
    Quiet (s.setBody x
      { s.body x with listeners := (s.body x).listeners ++ [.coroutine c] }) := by
  generalize ht : s.setBody x
    { s.body x with listeners := (s.body x).listeners ++ [.coroutine c] } = t
  have hsame : ∀ {β : Type} (f : EventBody → β),
      (∀ b ls, f { b with listeners := ls } = f b) → ∀ y, f (t.body y) = f (s.body y) := by
    intro β f hf y
    rw [← ht]
    exact Runtime.setBody_field f (hf _ _) y
  have htriggered : ∀ y, t.Triggered y ↔ s.Triggered y := fun y => by
    unfold Runtime.Triggered
    rw [hsame EventBody.triggered fun _ _ => rfl]
  have hlisted : ∀ y l, t.enlisted y l =
      s.enlisted y l + if y = x ∧ l = .coroutine c then 1 else 0 := by
    intro y l
    rw [← ht]
    exact s.enlisted_append x y _ l
  have hquorum : ∀ y q, t.enlisted y (.quorum q) = s.enlisted y (.quorum q) := fun y q => by
    simp [hlisted]
  have hsize : t.size = s.size := by
    rw [← ht]
    rfl
  have hmembers := hsame EventBody.members fun _ _ => rfl
  have hisQuorum := hsame EventBody.isQuorum fun _ _ => rfl
  constructor
  · intro m q hm hq
    rw [htriggered] at hm hq
    rw [hmembers]
    exact hs.settled m q hm hq
  · intro m q hm hq
    rw [htriggered] at hm hq
    rw [hquorum, hmembers]
    exact hs.edges m q hm hq
  · intro q hne hq hqt
    rw [htriggered] at hqt
    rw [hisQuorum] at hq
    rw [hsame EventBody.count fun _ _ => rfl, hsame EventBody.quorum fun _ _ => rfl]
    exact hs.short q hne hq hqt
  · intro m q hpos
    rw [hquorum] at hpos
    rw [hisQuorum, hsize]
    exact hs.known m q hpos
  · intro y hy
    rw [hsize] at hy
    rw [← ht, Runtime.setBody_of_ne (Nat.ne_of_gt (Nat.lt_of_lt_of_le hx hy))]
    exact hs.fresh y hy
  · intro y d
    rw [hlisted]
    by_cases hd : y = x ∧ Listener.coroutine d = .coroutine c
    · rw [if_pos hd, hd.2, not_suspended hs hc]
    · rw [if_neg hd]
      exact hs.once y d
  · intro y z d hy hz
    rw [hlisted] at hy hz
    by_cases hd : d = c
    · rw [hd, not_suspended hs hc] at hy hz
      have hyx : y = x := by
        by_contra hne
        simp [hne] at hy
      have hzx : z = x := by
        by_contra hne
        simp [hne] at hz
      rw [hyx, hzx]
    · have hne : ¬ Listener.coroutine d = .coroutine c := fun he => hd (Listener.coroutine.inj he)
      simp only [hne, and_false, if_false, Nat.add_zero] at hy hz
      exact hs.alone y z d hy hz

/-! ## Building a quorum -/

/-- A quorum under construction takes the member `m`, or counts one that needs no
waiting for (`k = 0`). -/
theorem QuietBut.extend {s t : Runtime} {q m k : Nat} (hs : QuietBut (some q) s)
    (hsize : t.size = s.size) (htriggered : ∀ y, t.Triggered y ↔ s.Triggered y)
    (hsame : ∀ y, (t.body y).isQuorum = (s.body y).isQuorum ∧
      (t.body y).quorum = (s.body y).quorum)
    (hcount : ∀ y, y ≠ q → (t.body y).count = (s.body y).count)
    (hmembers : ∀ y m', (t.body y).members.count m' =
      (s.body y).members.count m' + if y = q ∧ m' = m then k else 0)
    (hlisted : ∀ y l, t.enlisted y l =
      s.enlisted y l + if y = m ∧ l = .quorum q then k else 0)
    (hfresh : ∀ y, s.size ≤ y → t.body y = s.body y)
    (hm : 0 < k → ¬ s.Triggered m) (hq : (s.body q).isQuorum = true ∧ q < s.size) :
    QuietBut (some q) t := by
  have hcoroutine : ∀ y c, t.enlisted y (.coroutine c) = s.enlisted y (.coroutine c) :=
    fun y c => by simp [hlisted]
  constructor
  · intro m' y hm' hy
    rw [htriggered] at hm' hy
    rw [hmembers, hs.settled m' y hm' hy, Nat.zero_add]
    split
    · rename_i he
      by_contra hk
      exact hm (Nat.pos_of_ne_zero hk) (he.2 ▸ hm')
    · rfl
  · intro m' y hm' hy
    rw [htriggered] at hm' hy
    rw [hmembers, hlisted, hs.edges m' y hm' hy]
    simp only [Listener.quorum.injEq, and_comm]
  · intro y hne hquorum hy
    have hyq : y ≠ q := fun he => hne (by rw [he])
    rw [htriggered] at hy
    rw [(hsame y).1] at hquorum
    rw [hcount y hyq, (hsame y).2]
    exact hs.short y hne hquorum hy
  · intro m' y hpos
    rw [(hsame y).1, hsize]
    by_cases hy : y = q
    · rw [hy]
      exact hq
    · rw [hlisted] at hpos
      simp only [Listener.quorum.injEq, hy, and_false, if_false, Nat.add_zero] at hpos
      exact hs.known m' y hpos
  · intro y hy
    rw [hsize] at hy
    rw [hfresh y hy, hs.fresh y hy]
  · intro y c
    rw [hcoroutine]
    exact hs.once y c
  · intro y z c hy hz
    rw [hcoroutine] at hy hz
    exact hs.alone y z c hy hz

/-- The state of a quorum that `make` has yet to seal. -/
structure Building (q : EventId) (s : Runtime) : Prop where
  quiet : QuietBut (some q) s
  untriggered : ¬ s.Triggered q
  isQuorum : (s.body q).isQuorum = true
  size : q < s.size

theorem addMember_size (q : EventId) (s : Runtime) (e : Option EventId) :
    (addMember q s e).size = s.size := by
  cases e with
  | none => rfl
  | some m =>
    unfold addMember
    simp only []
    split <;> rfl

theorem addMember_of_arrived {q : EventId} {s : Runtime} {e : Option EventId}
    (he : ∀ m, e = some m → s.Triggered m) :
    addMember q s e = s.setBody q { s.body q with count := (s.body q).count + 1 } := by
  cases e with
  | none => rfl
  | some m =>
    unfold addMember
    simp only []
    rw [if_pos (he m rfl)]

theorem addMember_of_waiting {q m : EventId} {s : Runtime} (hm : ¬ s.Triggered m) (hmq : m ≠ q) :
    addMember q s (some m) =
      (s.setBody m { s.body m with listeners := (s.body m).listeners ++ [.quorum q] }).setBody q
        { s.body q with members := (s.body q).members ++ [m] } := by
  unfold addMember
  simp only []
  rw [if_neg hm, Runtime.setBody_of_ne hmq.symm]

/-- An argument is told of the new quorum if it has yet to trigger. -/
theorem addMember_of_ne {q y : EventId} (s : Runtime) (e : Option EventId) (hy : y ≠ q) :
    (addMember q s e).body y = s.body y ∨
      e = some y ∧ ¬ s.Triggered y ∧ (addMember q s e).body y =
        { s.body y with listeners := (s.body y).listeners ++ [.quorum q] } := by
  by_cases hwait : ∀ m, e = some m → s.Triggered m
  · rw [addMember_of_arrived hwait]
    exact .inl (Runtime.setBody_of_ne hy _)
  · simp only [not_forall] at hwait
    obtain ⟨m, rfl, hm⟩ := hwait
    unfold addMember
    simp only []
    rw [if_neg hm, Runtime.setBody_of_ne hy]
    by_cases hym : y = m
    · rw [hym, Runtime.setBody_self]
      exact .inr ⟨rfl, hm, rfl⟩
    · exact .inl (Runtime.setBody_of_ne hym _)

/-- The new quorum counts the argument or waits for it. -/
theorem addMember_self {q : EventId} {s : Runtime} {e : Option EventId}
    (he : ∀ m, e = some m → m ≠ q) :
    ∃ count members, (addMember q s e).body q = { s.body q with count, members } := by
  by_cases hwait : ∀ m, e = some m → s.Triggered m
  · rw [addMember_of_arrived hwait]
    exact ⟨_, _, Runtime.setBody_self ..⟩
  · simp only [not_forall] at hwait
    obtain ⟨m, rfl, hm⟩ := hwait
    rw [addMember_of_waiting hm (he m rfl)]
    exact ⟨_, _, Runtime.setBody_self ..⟩

/-- What one argument changes outside the account of the new quorum. -/
theorem addMember_others {q : EventId} {s : Runtime} {e : Option EventId}
    (he : ∀ m, e = some m → m ≠ q) :
    (∀ y, (addMember q s e).Triggered y ↔ s.Triggered y) ∧
    (∀ y, ((addMember q s e).body y).isQuorum = (s.body y).isQuorum ∧
      ((addMember q s e).body y).quorum = (s.body y).quorum) ∧
    (∀ y, y ≠ q → ((addMember q s e).body y).count = (s.body y).count ∧
      ((addMember q s e).body y).members = (s.body y).members) ∧
    (∀ m p, s.Triggered m → (addMember q s e).enlisted m (.quorum p) =
      s.enlisted m (.quorum p)) := by
  obtain ⟨count, members, hself⟩ := addMember_self (s := s) he
  have hsame : ∀ y, ((addMember q s e).body y).triggered = (s.body y).triggered ∧
      ((addMember q s e).body y).isQuorum = (s.body y).isQuorum ∧
      ((addMember q s e).body y).quorum = (s.body y).quorum := by
    intro y
    by_cases hy : y = q
    · rw [hy, hself]
      exact ⟨rfl, rfl, rfl⟩
    · rcases addMember_of_ne s e hy with heq | ⟨_, _, heq⟩
      · rw [heq]
        exact ⟨rfl, rfl, rfl⟩
      · rw [heq]
        exact ⟨rfl, rfl, rfl⟩
  refine ⟨fun y => ?_, fun y => (hsame y).2, fun y hy => ?_, fun m p hm => ?_⟩
  · unfold Runtime.Triggered
    rw [(hsame y).1]
  · rcases addMember_of_ne s e hy with heq | ⟨_, _, heq⟩
    · rw [heq]
      exact ⟨rfl, rfl⟩
    · rw [heq]
      exact ⟨rfl, rfl⟩
  · unfold Runtime.enlisted
    by_cases hmq : m = q
    · rw [hmq, hself]
    · rcases addMember_of_ne s e hmq with heq | ⟨_, hnot, _⟩
      · rw [heq]
      · exact absurd hm hnot

theorem addMember_building {q : EventId} {s : Runtime} (h : Building q s) {e : Option EventId}
    (he : ∀ m, e = some m → m < s.size ∧ m ≠ q) : Building q (addMember q s e) := by
  have hne : ∀ m, e = some m → m ≠ q := fun m hm => (he m hm).2
  obtain ⟨htriggered, hsame, hothers, _⟩ := addMember_others (s := s) hne
  have hsize := addMember_size q s e
  have hfresh : ∀ y, s.size ≤ y → (addMember q s e).body y = s.body y := by
    intro y hy
    rcases addMember_of_ne s e (Nat.ne_of_gt (Nat.lt_of_lt_of_le h.size hy)) with heq | ⟨hey, _⟩
    · exact heq
    · exact absurd (he y hey).1 (Nat.not_lt.2 hy)
  refine ⟨?_, by rw [htriggered]; exact h.untriggered, by rw [(hsame q).1]; exact h.isQuorum,
    by rw [hsize]; exact h.size⟩
  by_cases hwait : ∀ m, e = some m → s.Triggered m
  · apply h.quiet.extend (m := q) (k := 0) hsize htriggered hsame (fun y hy => (hothers y hy).1)
      _ _ hfresh (fun hk => absurd hk (Nat.lt_irrefl 0)) ⟨h.isQuorum, h.size⟩
    · intro y m'
      rw [addMember_of_arrived hwait, Runtime.setBody_field EventBody.members (by rfl)]
      simp
    · intro y l
      unfold Runtime.enlisted
      rw [addMember_of_arrived hwait, Runtime.setBody_field EventBody.listeners (by rfl)]
      simp
  · simp only [not_forall] at hwait
    obtain ⟨m, rfl, hm⟩ := hwait
    have hmq := hne m rfl
    apply h.quiet.extend (m := m) (k := 1) hsize htriggered hsame (fun y hy => (hothers y hy).1)
      _ _ hfresh (fun _ => hm) ⟨h.isQuorum, h.size⟩
    · intro y m'
      by_cases hy : y = q
      · rw [hy, addMember_of_waiting hm hmq, Runtime.setBody_self, List.count_append]
        by_cases hm' : m' = m
        · simp [hm']
        · simp [hm', Ne.symm hm']
      · rw [(hothers y hy).2]
        simp [hy]
    · intro y l
      have hlist := s.enlisted_append m y (.quorum q) l
      unfold Runtime.enlisted at hlist ⊢
      rw [addMember_of_waiting hm hmq, ← hlist]
      refine congrArg _ (Runtime.setBody_field EventBody.listeners ?_ y)
      rw [Runtime.setBody_of_ne hmq.symm]

/-- A body for a new quorum. -/
theorem newQuorum_building {s : Runtime} (hs : Quiet s) (quorum : Nat) :
    Building s.size (Runtime.setBody { s with size := s.size + 1 } s.size
      { isQuorum := true, quorum }) := by
  have hold := hs.fresh s.size (Nat.le_refl _)
  generalize ht : Runtime.setBody { s with size := s.size + 1 } s.size
    { isQuorum := true, quorum } = t
  have hne : ∀ y, y ≠ s.size → t.body y = s.body y := by
    intro y hy
    rw [← ht, Runtime.setBody_of_ne hy]
  have hself : t.body s.size = { isQuorum := true, quorum } := by
    rw [← ht, Runtime.setBody_self]
  -- the fields of a new body are those of the unallocated one
  have hsame : ∀ {β : Type} (f : EventBody → β), f { isQuorum := true, quorum } = f {} →
      ∀ y, f (t.body y) = f (s.body y) := by
    intro β f hf y
    by_cases hy : y = s.size
    · rw [hy, hself, hold, hf]
    · rw [hne y hy]
  have htriggered : ∀ y, t.Triggered y ↔ s.Triggered y := fun y => by
    unfold Runtime.Triggered
    rw [hsame EventBody.triggered rfl]
  have hlisted : ∀ y l, t.enlisted y l = s.enlisted y l := fun y l => by
    unfold Runtime.enlisted
    rw [hsame EventBody.listeners rfl]
  have hmembers := hsame EventBody.members rfl
  have hsize : t.size = s.size + 1 := by
    rw [← ht]
    rfl
  have huntriggered : ¬ t.Triggered s.size := by
    unfold Runtime.Triggered
    rw [hself]
    exact Bool.false_ne_true
  refine ⟨⟨?_, ?_, ?_, ?_, ?_, ?_, ?_⟩, huntriggered, by rw [hself],
    by rw [hsize]; exact Nat.lt_succ_self _⟩
  · intro m q hm hq
    rw [htriggered] at hm hq
    rw [hmembers]
    exact hs.settled m q hm hq
  · intro m q hm hq
    rw [htriggered] at hm hq
    rw [hlisted, hmembers]
    exact hs.edges m q hm hq
  · intro q hhole hquorum hq
    have hqs : q ≠ s.size := fun he => hhole (by rw [he])
    rw [htriggered] at hq
    rw [hne q hqs] at hquorum ⊢
    exact hs.short q nofun hquorum hq
  · intro m q hpos
    rw [hlisted] at hpos
    rcases hs.known m q hpos with ⟨hquorum, hlt⟩
    rw [hne q (Nat.ne_of_lt hlt), hsize]
    exact ⟨hquorum, Nat.lt_succ_of_lt hlt⟩
  · intro y hy
    rw [hsize] at hy
    rw [hne y (Nat.ne_of_gt hy)]
    exact hs.fresh y (Nat.le_of_succ_le hy)
  · intro y c
    rw [hlisted]
    exact hs.once y c
  · intro y z c hy hz
    rw [hlisted] at hy hz
    exact hs.alone y z c hy hz

theorem addMembers_building {q : EventId} {es : List (Option EventId)} {s : Runtime}
    (h : Building q s) (hes : ∀ m, some m ∈ es → m < s.size ∧ m ≠ q) :
    Building q (es.foldl (addMember q) s) := by
  induction es generalizing s with
  | nil => exact h
  | cons e es ih =>
    rw [List.foldl_cons]
    apply ih
    · exact addMember_building h fun m hm => hes m (by rw [hm]; exact List.mem_cons_self)
    · intro m hm
      rw [addMember_size]
      exact hes m (List.mem_cons_of_mem _ hm)

/-- The quorum that `make` is about to seal. -/
theorem makeQuorum_building {s : Runtime} (hs : Quiet s) (quorum : Nat)
    {es : List (Option EventId)} (hes : ∀ m ∈ es.reduceOption, m < s.size) :
    Building s.size (es.foldl (addMember s.size)
      (Runtime.setBody { s with size := s.size + 1 } s.size { isQuorum := true, quorum })) := by
  apply addMembers_building (newQuorum_building hs quorum)
  intro m hm
  have hlt := hes m (List.reduceOption_mem_iff.2 hm)
  exact ⟨Nat.lt_succ_of_lt hlt, Nat.ne_of_lt hlt⟩

theorem makeQuorum_quiet {s t : Runtime} {quorum : Nat} {es : List (Option EventId)}
    (hs : Quiet s) (hes : ∀ m ∈ es.reduceOption, m < s.size)
    (h : makeQuorum home current s quorum es = some t) : Quiet t := by
  have hbuild := makeQuorum_building hs quorum hes
  unfold makeQuorum at h
  simp only [] at h
  split at h
  · rcases fullCascade home current none hbuild.quiet hbuild.untriggered
      hbuild.size with ⟨u, hu⟩
    rw [hu.run] at h
    exact Option.some.inj h ▸ hu.quiet
  · rename_i hshort
    rw [← Option.some.inj h]
    refine { hbuild.quiet with short := fun q _ hquorum hq => ?_ }
    by_cases hqs : q = s.size
    · rw [hqs]
      exact Nat.lt_of_not_le hshort
    · exact hbuild.quiet.short q (fun he => hqs (Option.some.inj he).symm) hquorum hq

/-! ## Every step -/

theorem quiet_start : Quiet {} := by
  constructor
  · exact fun m q hm => absurd hm Bool.false_ne_true
  · exact fun m q _ _ => rfl
  · exact fun q _ hq => absurd hq Bool.false_ne_true
  · exact fun m q hpos => absurd hpos (Nat.lt_irrefl 0)
  · exact fun x _ => rfl
  · exact fun x c => Nat.zero_le 1
  · exact fun x y c hx => absurd hx (Nat.lt_irrefl 0)

/-- The queues and the claim are no part of the graph. -/
theorem QuietBut.requeue {s : Runtime} {hole : Option EventId} (h : QuietBut hole s)
    (asap : List EventId) (migrate : List (DriverId × EventId)) (coh : Option CoroId) :
    QuietBut hole { s with asap, migrate, coh } :=
  ⟨h.settled, h.edges, h.short, h.known, h.fresh, h.once, h.alone⟩

theorem event_quiet {s : Runtime} (hs : Quiet s) :
    Quiet { s.setBody s.size {} with size := s.size + 1 } := by
  have hsame : s.setBody s.size {} = s := by
    unfold Runtime.setBody
    rw [← hs.fresh s.size (Nat.le_refl _), Function.update_eq_self]
  rw [hsame]
  refine ⟨hs.settled, hs.edges, hs.short, fun m q hpos => ?_, fun x hx => ?_, hs.once, hs.alone⟩
  · rcases hs.known m q hpos with ⟨hquorum, hlt⟩
    exact ⟨hquorum, Nat.lt_succ_of_lt hlt⟩
  · exact hs.fresh x (Nat.le_of_succ_le hx)

theorem act_quiet {s t : Runtime} {a : Act} (hs : Quiet s) (h : act home current s a = some t) :
    Quiet t := by
  cases a with
  | event =>
    obtain rfl := Option.some.inj h
    exact event_quiet hs
  | quorum quorum es =>
    unfold act at h
    simp only [] at h
    split at h
    · rename_i hes
      exact makeQuorum_quiet hs hes h
    · cases h
  | await c x =>
    unfold act at h
    simp only [] at h
    split at h
    · cases h
    · rename_i hguard
      rw [not_or] at hguard
      split at h
      · exact Option.some.inj h ▸ hs
      · rw [← Option.some.inj h]
        exact await_quiet hs hguard.1 (Nat.lt_of_not_le hguard.2)
  | trigger x =>
    unfold act trigger at h
    simp only [] at h
    split at h
    · rename_i hx
      split at h
      · exact Option.some.inj h ▸ hs
      · rename_i hut
        rcases fullCascade home current none (hs.weaken (some x)) hut hx
          with ⟨u, hu⟩
        rw [hu.run] at h
        exact Option.some.inj h ▸ hu.quiet
    · cases h
  | destroy c x =>
    unfold act at h
    simp only [] at h
    split at h
    · rw [← Option.some.inj h]
      exact (removeListener_sameBut s x _).quiet hs
    · cases h
  | asap x =>
    unfold act at h
    simp only [] at h
    split at h
    · rw [← Option.some.inj h]
      exact hs.requeue _ _ _
    · cases h

theorem acts_quiet {s t : Runtime} {body : List Act} (hs : Quiet s)
    (h : acts home current s body = some t) : Quiet t := by
  induction body generalizing s with
  | nil => exact Option.some.inj h ▸ hs
  | cons a body ih =>
    rcases Option.bind_eq_some_iff.1 h with ⟨u, hu, ht⟩
    exact ih (act_quiet hs hu) ht

theorem driverTrigger_quiet {s t : Runtime} {x : EventId} (hs : Quiet s) (hx : x < s.size)
    (h : driverTrigger home current s x = some t) : Quiet t := by
  have hclear : Quiet { s with coh := none } := hs.requeue s.asap s.migrate none
  unfold driverTrigger at h
  simp only [] at h
  split at h
  · split at h
    · rename_i c _
      rw [← Option.some.inj h]
      exact ((removeListener_sameBut _ x (.coroutine c)).quiet hclear).requeue _ _ _
    · exact Option.some.inj h ▸ hclear
  · rename_i hut
    rcases fullCascade home current (some current)
      (hclear.weaken (some x)) hut hx with ⟨u, hu⟩
    rw [hu.run] at h
    exact Option.some.inj h ▸ hu.quiet

theorem reachable_quiet {s : Runtime} (h : (runtime home current).Reachable s) : Quiet s := by
  refine Machine.Reachable.invariant (fun s hs => ?_) (fun s a t hs ht => ?_) h
  · have hinit : s = {} := hs
    rw [hinit]
    exact quiet_start
  · cases a with
    | act a => exact act_quiet hs ht
    | call x =>
      have hcall : (if x < s.size then driverTrigger home current s x else none) = some t := ht
      split at hcall
      · rename_i hx
        exact driverTrigger_quiet hs hx hcall
      · cases hcall

end Event
end Cotamer
end Psets
