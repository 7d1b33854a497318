/-
Lost wakeups.

The loop that fires an event resumes the coroutines on the event's own list, one per
call, and at most one that a cascade found elsewhere.  Any other coroutine of the driver
that waits for a quorum the cascade triggered stays on a list that is never looked at
again.  Nothing is lost exactly when there is no such coroutine.
-/
import Psets.Cotamer.RuntimeInvariant

namespace Psets
namespace Cotamer
namespace Event

open Containers Transition Quorum

/-! ## What a coroutine body does to the others -/

/-- The changes a body makes to the runtime in which it runs. -/
structure Lived (home : CoroId → DriverId) (current : DriverId) (destroyed : List CoroId)
    (s t : Runtime) : Prop where
  size : s.size ≤ t.size
  mono : ∀ x, s.Triggered x → t.Triggered x
  asap : ∀ x ∈ s.asap, x ∈ t.asap
  waits : ∀ x c, 0 < s.enlisted x (.coroutine c) →
    0 < t.enlisted x (.coroutine c) ∨ c ∈ destroyed
  stays : ∀ x c, s.Triggered x → t.enlisted x (.coroutine c) ≤ s.enlisted x (.coroutine c)
  posted : ∀ x c, ¬ s.Triggered x → t.Triggered x → 0 < t.enlisted x (.coroutine c) →
    home c = current → x ∈ t.asap

/-- The two runtimes have the same events triggered and the same coroutines waiting. -/
structure SameWaits (s t : Runtime) : Prop where
  size : s.size ≤ t.size
  asap : t.asap = s.asap
  triggered : ∀ x, t.Triggered x ↔ s.Triggered x
  waits : ∀ x c, t.enlisted x (.coroutine c) = s.enlisted x (.coroutine c)

variable {home : CoroId → DriverId} {current : DriverId}

theorem Lived.refl (s : Runtime) : Lived home current [] s s :=
  ⟨Nat.le_refl _, fun _ h => h, fun _ h => h, fun _ _ h => .inl h, fun _ _ _ => Nat.le_refl _,
    fun _ _ h h' => absurd h' h⟩

theorem Lived.trans {d d' : List CoroId} {s t u : Runtime} (h : Lived home current d s t)
    (h' : Lived home current d' t u) : Lived home current (d ++ d') s u where
  size := Nat.le_trans h.size h'.size
  mono x hx := h'.mono x (h.mono x hx)
  asap x hx := h'.asap x (h.asap x hx)
  waits x c hx := by
    rcases h.waits x c hx with ht | hd
    · rcases h'.waits x c ht with hu | hd
      · exact .inl hu
      · exact .inr (List.mem_append_right d hd)
    · exact .inr (List.mem_append_left d' hd)
  stays x c hx := Nat.le_trans (h'.stays x c (h.mono x hx)) (h.stays x c hx)
  posted x c hs hu hc hown := by
    by_cases ht : t.Triggered x
    · exact h'.asap x (h.posted x c hs ht (Nat.lt_of_lt_of_le hc (h'.stays x c ht)) hown)
    · exact h'.posted x c ht hu hc hown

theorem SameWaits.lived {s t : Runtime} (h : SameWaits s t) : Lived home current [] s t where
  size := h.size
  mono x := (h.triggered x).2
  asap x hx := by rwa [h.asap]
  waits x c hx := .inl (by rwa [h.waits])
  stays x c _ := Nat.le_of_eq (h.waits x c)
  posted x c hs ht := absurd ((h.triggered x).1 ht) hs

theorem SameWaits.trans {s t u : Runtime} (h : SameWaits s t) (h' : SameWaits t u) :
    SameWaits s u where
  size := Nat.le_trans h.size h'.size
  asap := h'.asap.trans h.asap
  triggered x := (h'.triggered x).trans (h.triggered x)
  waits x c := (h'.waits x c).trans (h.waits x c)

/-- A cascade without a calling driver posts what it triggers. -/
theorem Cascade.lived {s t : Runtime} (h : Cascade home current none s t) :
    Lived home current [] s t where
  size := Nat.le_of_eq h.size.symm
  mono := h.mono
  asap := h.asap
  waits x c hx := by
    rcases h.account with ⟨_, hsame⟩ | ⟨_, _, _, _, hown, _⟩
    · exact .inl (by rwa [hsame])
    · cases hown
  stays x c hx := Nat.le_of_eq (h.enlisted hx c)
  posted x c := h.posted rfl x c

theorem addMember_sameWaits (q : EventId) (s : Runtime) (e : Option EventId) :
    SameWaits s (addMember q s e) := by
  have hcountUp : SameWaits s (s.setBody q { s.body q with count := (s.body q).count + 1 }) := by
    refine ⟨Nat.le_refl _, rfl, fun x => ?_, fun x c => ?_⟩
    · unfold Runtime.Triggered
      rw [Runtime.setBody_field EventBody.triggered (by rfl)]
    · unfold Runtime.enlisted
      rw [Runtime.setBody_field EventBody.listeners (by rfl)]
  cases e with
  | none => exact hcountUp
  | some m =>
    unfold addMember
    simp only []
    split
    · exact hcountUp
    · refine ⟨Nat.le_refl _, rfl, fun x => ?_, fun x c => ?_⟩
      · unfold Runtime.Triggered
        rw [Runtime.setBody_field EventBody.triggered (by rfl),
          Runtime.setBody_field EventBody.triggered (by rfl)]
      · have hlist := s.enlisted_append m x (.quorum q) (.coroutine c)
        unfold Runtime.enlisted at hlist ⊢
        rw [Runtime.setBody_field EventBody.listeners (by rfl), hlist]
        simp

theorem addMembers_sameWaits (q : EventId) (es : List (Option EventId)) (s : Runtime) :
    SameWaits s (es.foldl (addMember q) s) := by
  induction es generalizing s with
  | nil => exact ⟨Nat.le_refl _, rfl, fun _ => Iff.rfl, fun _ _ => rfl⟩
  | cons e es ih => exact (addMember_sameWaits q s e).trans (ih _)

/-- A new body is as idle as the unallocated one. -/
theorem newBody_sameWaits {s : Runtime} (hs : Quiet s) {b : EventBody}
    (hb : b.triggered = false) (hl : b.listeners = []) :
    SameWaits s (Runtime.setBody { s with size := s.size + 1 } s.size b) := by
  have hold := hs.fresh s.size (Nat.le_refl _)
  refine ⟨Nat.le_succ _, rfl, fun x => ?_, fun x c => ?_⟩
  · unfold Runtime.Triggered
    by_cases hx : x = s.size
    · rw [hx, Runtime.setBody_self, hb, hold]
    · rw [Runtime.setBody_of_ne hx]
  · unfold Runtime.enlisted
    by_cases hx : x = s.size
    · rw [hx, Runtime.setBody_self, hl, hold]
    · rw [Runtime.setBody_of_ne hx]

theorem makeQuorum_lived {s t : Runtime} {quorum : Nat} {es : List (Option EventId)}
    (hs : Quiet s) (hes : ∀ m ∈ es.reduceOption, m < s.size)
    (h : makeQuorum home current s quorum es = some t) : Lived home current [] s t := by
  have hbuild := makeQuorum_building hs quorum hes
  have hsame := (newBody_sameWaits hs (b := { isQuorum := true, quorum }) rfl rfl).trans
    (addMembers_sameWaits s.size es _)
  unfold makeQuorum at h
  simp only [] at h
  split at h
  · exact hsame.lived.trans (triggerUnlock_cascade hbuild.untriggered h).lived
  · rw [← Option.some.inj h]
    exact hsame.lived

theorem await_lived {s : Runtime} {c : CoroId} {x : EventId} (hx : ¬ s.Triggered x) :
    Lived home current [] s (s.setBody x
      { s.body x with listeners := (s.body x).listeners ++ [.coroutine c] }) := by
  have htriggered : ∀ y, (s.setBody x { s.body x with
      listeners := (s.body x).listeners ++ [.coroutine c] }).Triggered y ↔ s.Triggered y := by
    intro y
    unfold Runtime.Triggered
    rw [Runtime.setBody_field EventBody.triggered (by rfl)]
  refine ⟨Nat.le_refl _, fun y => (htriggered y).2, fun _ hy => hy, fun y d hy => .inl ?_,
    fun y d hy => ?_, fun y d hs ht => absurd ((htriggered y).1 ht) hs⟩
  · rw [s.enlisted_append]
    omega
  · have hne : y ≠ x := fun he => hx (he ▸ hy)
    rw [s.enlisted_append]
    simp [hne]

/-- A destroyed coroutine leaves its list. -/
theorem SameBut.lived {s t : Runtime} {c : CoroId} (h : SameBut (.coroutine c) s t) :
    Lived home current [c] s t where
  size := Nat.le_of_eq h.size.symm
  mono x := (h.triggered x).2
  asap x hx := by rwa [h.asap]
  waits x d hx := by
    by_cases hd : d = c
    · exact .inr (by rw [hd]; exact List.mem_cons_self)
    · exact .inl (by rwa [h.others x _ fun he => hd (Listener.coroutine.inj he)])
  stays x d _ := by
    by_cases hd : d = c
    · rw [hd]
      exact h.fewer x
    · exact Nat.le_of_eq (h.others x _ fun he => hd (Listener.coroutine.inj he))
  posted x _ hs ht := absurd ((h.triggered x).1 ht) hs

theorem act_lived {s t : Runtime} {a : Act} (hs : Quiet s) (h : act home current s a = some t) :
    Lived home current a.destroyed.toList s t := by
  cases a with
  | event =>
    obtain rfl := Option.some.inj h
    exact (newBody_sameWaits hs (b := {}) rfl rfl).lived
  | quorum quorum es =>
    unfold act at h
    simp only [] at h
    split at h
    · rename_i hes
      exact makeQuorum_lived hs hes h
    · cases h
  | await c x =>
    unfold act at h
    simp only [] at h
    split at h
    · cases h
    · split at h
      · exact Option.some.inj h ▸ .refl s
      · rename_i hx
        rw [← Option.some.inj h]
        exact await_lived hx
  | trigger x =>
    unfold act trigger at h
    simp only [] at h
    split at h
    · split at h
      · exact Option.some.inj h ▸ .refl s
      · rename_i hx
        exact (triggerUnlock_cascade hx h).lived
    · cases h
  | destroy c x =>
    unfold act at h
    simp only [] at h
    split at h
    · rw [← Option.some.inj h]
      exact (removeListener_sameBut s x (.coroutine c)).lived
    · cases h
  | asap x =>
    unfold act at h
    simp only [] at h
    split at h
    · rw [← Option.some.inj h]
      exact ⟨Nat.le_refl _, fun _ hy => hy, fun y hy => List.mem_append_left _ hy,
        fun _ _ hy => .inl hy, fun _ _ _ => Nat.le_refl _, fun _ _ hy hy' => absurd hy' hy⟩
    · cases h

theorem acts_lived {s t : Runtime} {body : List Act} (hs : Quiet s)
    (h : acts home current s body = some t) :
    Lived home current (body.filterMap Act.destroyed) s t := by
  induction body generalizing s with
  | nil => exact Option.some.inj h ▸ .refl s
  | cons a body ih =>
    rcases Option.bind_eq_some_iff.1 h with ⟨u, hu, ht⟩
    have htrans := (act_lived hs hu).trans (ih (act_quiet hs hu) ht)
    cases hd : a.destroyed with
    | none => simpa [hd] using htrans
    | some c => simpa [hd] using htrans

/-! ## The loop -/

variable (home current)

/-- No coroutine that waited for an event the loop has triggered is left behind. -/
def NoLostWakeup (s : Runtime) (eh : EventId) (w : Firing) : Prop :=
  ∀ x c, home c = current → 0 < s.enlisted x (.coroutine c) → x = eh ∨ ¬ s.Triggered x →
    w.rt.Triggered x → w.resumed.count c = 1 ∨ x ∈ w.rt.asap ∨ c ∈ w.destroyed

/-- A coroutine of the driver that waits for a quorum that fires, and that is not on
`asap_` already, is the only one of the driver that waits for an event that fires, as
far as the events in `among` go. -/
def OneWaiter (s : Runtime) (eh : EventId) (among : EventId → Prop) : Prop :=
  ∀ q c, Fires s eh q → q ≠ eh → q ∉ s.asap → home c = current →
    0 < s.enlisted q (.coroutine c) →
    ∀ x d, Fires s eh x → among x → home d = current → 0 < s.enlisted x (.coroutine d) → d = c

/-- Any event that fires. -/
def Anywhere (_ : EventId) : Prop := True

/-- The fired event itself, or one that is not on `asap_` already. -/
def Unposted (s : Runtime) (eh x : EventId) : Prop := x = eh ∨ x ∉ s.asap

/-- Where a coroutine that waited for `x` in `s` is while `eh` is fired. -/
structure Served (s : Runtime) (eh : EventId) (w : Firing) : Prop where
  quiet : Quiet w.rt
  triggered : w.rt.Triggered eh
  size : eh < w.rt.size
  fewer : ∀ c, w.rt.enlisted eh (.coroutine c) ≤ s.enlisted eh (.coroutine c)
  each : ∀ x c, home c = current → 0 < s.enlisted x (.coroutine c) → x = eh ∨ ¬ s.Triggered x →
    (0 < w.rt.enlisted x (.coroutine c) ∧ w.resumed.count c = 0 ∧
      (w.rt.Triggered x → x ≠ eh → x ∈ w.rt.asap)) ∨
    (w.resumed.count c = 1 ∧ w.rt.enlisted eh (.coroutine c) = 0) ∨ c ∈ w.destroyed

variable {home current}

variable (home current) in
/-- `driver_trigger` on an event that has triggered hands over a coroutine of the driver,
or there is none on the list. -/
theorem driverTrigger_triggered {s : Runtime} {x : EventId} (hx : s.Triggered x) :
    (∃ c, home c = current ∧ 0 < s.enlisted x (.coroutine c) ∧
      driverTrigger home current s x =
        some { s.removeListener x (.coroutine c) with coh := some c }) ∨
    ((∀ c, home c = current → s.enlisted x (.coroutine c) = 0) ∧
      driverTrigger home current s x = some { s with coh := none }) := by
  have hx' : Runtime.Triggered { s with coh := none } x := hx
  unfold driverTrigger
  simp only []
  rw [if_pos hx']
  cases hfind : (s.body x).listeners.findSome? (ownCoroutine home current) with
  | some c =>
    rcases List.exists_of_findSome?_eq_some hfind with ⟨l, hl, hown⟩
    cases l with
    | quorum q => cases hown
    | coroutine d =>
      simp only [ownCoroutine] at hown
      split at hown
      · rename_i hd
        obtain rfl := Option.some.inj hown
        exact .inl ⟨d, hd, Runtime.mem_listeners.1 hl, rfl⟩
      · cases hown
  | none =>
    refine .inr ⟨fun c hc => List.count_eq_zero.2 fun hmem => ?_, rfl⟩
    have hnone := List.findSome?_eq_none_iff.1 hfind _ hmem
    simp only [ownCoroutine, if_pos hc] at hnone
    cases hnone

/-- The coroutine runs. -/
theorem Served.acts {s rt : Runtime} {eh : EventId} {w : Firing} {body : List Act}
    (h : Served home current s eh w) (hbody : acts home current w.rt body = some rt) :
    Served home current s eh
      { w with rt, destroyed := body.filterMap Act.destroyed ++ w.destroyed } := by
  have hlived := acts_lived h.quiet hbody
  refine ⟨acts_quiet h.quiet hbody, hlived.mono eh h.triggered,
    Nat.lt_of_lt_of_le h.size hlived.size,
    fun c => Nat.le_trans (hlived.stays eh c h.triggered) (h.fewer c), fun x c hown hx hnew => ?_⟩
  rcases h.each x c hown hx hnew with ⟨hwait, hcount, hasap⟩ | ⟨hcount, hgone⟩ | hdestroyed
  · rcases hlived.waits x c hwait with hwait' | hd
    · refine .inl ⟨hwait', hcount, fun ht hne => ?_⟩
      by_cases hwt : w.rt.Triggered x
      · exact hlived.asap x (hasap hwt hne)
      · exact hlived.posted x c hwt ht hwait' hown
    · exact .inr (.inr (List.mem_append_left _ hd))
  · have hle := hlived.stays eh c h.triggered
    exact .inr (.inl ⟨hcount, by simp only [] at hle ⊢; omega⟩)
  · exact .inr (.inr (List.mem_append_right _ hdestroyed))

/-- A later call of `driver_trigger` hands over a coroutine that waited for `eh`. -/
theorem Served.claim {s : Runtime} {eh : EventId} {w : Firing} {c₀ : CoroId}
    (hs : Quiet s) (h : Served home current s eh w)
    (hc₀ : 0 < w.rt.enlisted eh (.coroutine c₀)) :
    Served home current s eh
      { w with
        rt := { w.rt.removeListener eh (.coroutine c₀) with coh := some c₀ }
        resumed := c₀ :: w.resumed } := by
  have hsame := removeListener_sameBut w.rt eh (.coroutine c₀)
  have hwas : 0 < s.enlisted eh (.coroutine c₀) := Nat.lt_of_lt_of_le hc₀ (h.fewer c₀)
  have hother : ∀ x c, c ≠ c₀ → (w.rt.removeListener eh (.coroutine c₀)).enlisted x
      (.coroutine c) = w.rt.enlisted x (.coroutine c) :=
    fun x c hc => hsame.others x _ fun he => hc (Listener.coroutine.inj he)
  have hself : (w.rt.removeListener eh (.coroutine c₀)).enlisted eh (.coroutine c₀) = 0 := by
    have honce := h.quiet.once eh c₀
    unfold Runtime.enlisted at honce ⊢
    unfold Runtime.removeListener
    rw [Runtime.setBody_self, count_swapErase_self]
    omega
  refine ⟨(hsame.quiet h.quiet).requeue _ _ _, (hsame.triggered eh).2 h.triggered, h.size,
    fun c => ?_, fun x c hown hx hnew => ?_⟩
  · by_cases hc : c = c₀
    · rw [hc]
      exact Nat.le_trans (hsame.fewer eh) (h.fewer c₀)
    · exact Nat.le_trans (Nat.le_of_eq (hother eh c hc)) (h.fewer c)
  · by_cases hc : c = c₀
    · rw [hc] at hx ⊢
      have hxe : x = eh := hs.alone x eh c₀ hx hwas
      rcases h.each x c₀ (hc ▸ hown) hx hnew with ⟨_, hcount, _⟩ | ⟨_, hgone⟩ | hdestroyed
      · exact .inr (.inl ⟨by rw [List.count_cons_self, hcount], hself⟩)
      · rw [hgone] at hc₀
        exact absurd hc₀ (Nat.lt_irrefl 0)
      · exact .inr (.inr hdestroyed)
    · have hcount : (c₀ :: w.resumed).count c = w.resumed.count c :=
        List.count_cons_of_ne (Ne.symm hc)
      rcases h.each x c hown hx hnew with ⟨hwait, hzero, hasap⟩ | ⟨hone, hgone⟩ | hdestroyed
      · refine .inl ⟨?_, hcount.trans hzero, fun ht hne => ?_⟩
        · exact Nat.lt_of_lt_of_eq hwait (hother x c hc).symm
        · exact hasap ((hsame.triggered x).1 ht) hne
      · exact .inr (.inl ⟨hcount.trans hone, (hother eh c hc).trans hgone⟩)
      · exact .inr (.inr hdestroyed)

/-- The loop ends when no coroutine of the driver is left on the list of `eh`. -/
theorem Served.end {s : Runtime} {eh : EventId} {w : Firing} (h : Served home current s eh w)
    (hnone : ∀ c, home c = current → w.rt.enlisted eh (.coroutine c) = 0) :
    NoLostWakeup home current s eh w := by
  intro x c hown hx hnew ht
  rcases h.each x c hown hx hnew with ⟨hwait, _, hasap⟩ | ⟨hone, _⟩ | hdestroyed
  · by_cases hxe : x = eh
    · rw [hxe, hnone c hown] at hwait
      exact absurd hwait (Nat.lt_irrefl 0)
    · exact .inr (.inl (hasap ht hxe))
  · exact .inl hone
  · exact .inr (.inr hdestroyed)

/-- One iteration after the event has triggered. -/
theorem Served.iterate {s : Runtime} {eh : EventId} {w w' : Firing} {body : List Act}
    (hs : Quiet s) (h : Served home current s eh w)
    (hw : iterate home current eh w body = some w') :
    (w'.ended = false ∧ Served home current s eh w') ∨
      (w'.ended = true ∧ NoLostWakeup home current s eh w') := by
  unfold Event.iterate at hw
  split at hw
  · cases hw
  · rename_i hended
    rcases driverTrigger_triggered home current h.triggered with
      ⟨c, hown, hc, hcall⟩ | ⟨hnone, hcall⟩
    · simp only [hcall, Option.bind_some] at hw
      rcases Option.map_eq_some_iff.1 hw with ⟨rt, hrt, rfl⟩
      exact .inl ⟨by simpa using hended, (h.claim hs hc).acts hrt⟩
    · simp only [hcall, Option.bind_some] at hw
      obtain rfl := Option.some.inj hw
      exact .inr ⟨rfl, h.end hnone⟩

/-- Nothing follows the end of the loop. -/
theorem ended_exec {s : Runtime} {eh : EventId} {w w' : Firing} {bodies : List (List Act)}
    (hended : w.ended = true) (hrun : (firing home current s eh).exec w bodies = some w') :
    w = w' := by
  cases bodies with
  | nil => exact Option.some.inj hrun
  | cons body bodies =>
    rcases Machine.exec_cons_inv hrun with ⟨u, hu, _⟩
    have hstuck : Event.iterate home current eh w body = some u := hu
    unfold Event.iterate at hstuck
    rw [if_pos hended] at hstuck
    cases hstuck

theorem Served.run {s : Runtime} {eh : EventId} {w w' : Firing} {bodies : List (List Act)}
    (hs : Quiet s) (h : Served home current s eh w) (hopen : w.ended = false)
    (hrun : (firing home current s eh).exec w bodies = some w') (hended : w'.ended = true) :
    NoLostWakeup home current s eh w' := by
  induction bodies generalizing w with
  | nil =>
    obtain rfl := Option.some.inj hrun
    rw [hopen] at hended
    cases hended
  | cons body bodies ih =>
    rcases Machine.exec_cons_inv hrun with ⟨u, hu, hrest⟩
    rcases h.iterate hs hu with ⟨hopen', hserved⟩ | ⟨hdone, hlost⟩
    · exact ih hserved hopen' hrest
    · exact ended_exec hdone hrest ▸ hlost

/-! ## The first call -/

variable (home current) in
/-- The first call of `driver_trigger`, on an event that has not triggered. -/
theorem firstCall {s : Runtime} {eh : EventId} (hs : Quiet s) (heh : eh < s.size)
    (hut : ¬ s.Triggered eh) :
    ∃ rt, driverTrigger home current s eh = some rt ∧
      FullCascade home current (some current) { s with coh := none } eh rt := by
  have hclear : Quiet { s with coh := none } := hs.requeue s.asap s.migrate none
  rcases fullCascade home current (some current) (hclear.weaken (some eh))
    hut heh with ⟨rt, hrt⟩
  refine ⟨rt, ?_, hrt⟩
  have hut' : ¬ Runtime.Triggered { s with coh := none } eh := hut
  unfold driverTrigger
  simp only []
  rw [if_neg hut']
  exact hrt.run

/-- The coroutine claimed by a cascade is all that leaves the lists. -/
theorem FullCascade.claim {s rt : Runtime} {eh : EventId}
    (h : FullCascade home current (some current) { s with coh := none } eh rt) :
    (rt.coh = none ∧ (∀ x c, rt.enlisted x (.coroutine c) = s.enlisted x (.coroutine c)) ∧
      ∀ x c, ¬ s.Triggered x → rt.Triggered x → 0 < rt.enlisted x (.coroutine c) →
        home c ≠ current) ∨
    ∃ x₀ c₀, rt.coh = some c₀ ∧ home c₀ = current ∧ Fires s eh x₀ ∧
      ∀ x c, rt.enlisted x (.coroutine c) + (if x = x₀ ∧ c = c₀ then 1 else 0) =
        s.enlisted x (.coroutine c) := by
  rcases h.cascade.account with ⟨hcoh, hsame⟩ | ⟨_, x₀, c₀, hcoh, hown, hnew, ht, hsame⟩
  · exact .inl ⟨hcoh, hsame, fun x c hs hx hc => h.cascade.claimed current rfl hcoh x c hs hx hc⟩
  · exact .inr ⟨x₀, c₀, hcoh, (Option.some.inj hown).symm, (h.fires x₀ hnew).1 ht, hsame⟩

/-- After the first call the coroutine it claimed runs, and the others wait for `eh`, or
for an event that is on `asap_`, or for one that has not triggered. -/
theorem FullCascade.served {s rt : Runtime} {eh : EventId} {x₀ : EventId} {c₀ : CoroId}
    (hs : Quiet s) (heh : eh < s.size)
    (h : FullCascade home current (some current) { s with coh := none } eh rt)
    (hone : OneWaiter home current s eh Anywhere) (hown₀ : home c₀ = current) (hfires₀ : Fires s eh x₀)
    (hclaim : ∀ x c, rt.enlisted x (.coroutine c) + (if x = x₀ ∧ c = c₀ then 1 else 0) =
      s.enlisted x (.coroutine c)) :
    Served home current s eh { rt, resumed := [c₀] } := by
  have hfewer : ∀ x c, rt.enlisted x (.coroutine c) ≤ s.enlisted x (.coroutine c) := by
    intro x c
    have := hclaim x c
    omega
  have hwas : 0 < s.enlisted x₀ (.coroutine c₀) := by
    have := hclaim x₀ c₀
    simp only [and_self, if_true] at this
    omega
  refine ⟨h.quiet, h.root, Nat.lt_of_lt_of_eq heh h.cascade.size.symm, fun c => hfewer eh c,
    fun x c hown hx hnew => ?_⟩
  by_cases hc : c = c₀
  · rw [hc] at hx ⊢
    refine .inr (.inl ⟨List.count_singleton_self, ?_⟩)
    show rt.enlisted eh (.coroutine c₀) = 0
    have hclaim₀ := hclaim eh c₀
    by_cases he : eh = x₀
    · have honce := hs.once eh c₀
      simp only [he, and_self, if_true] at hclaim₀ honce ⊢
      omega
    · have hzero : s.enlisted eh (.coroutine c₀) = 0 := by
        by_contra hne
        exact he (hs.alone eh x₀ c₀ (Nat.pos_of_ne_zero hne) hwas)
      omega
  · have hsame : rt.enlisted x (.coroutine c) = s.enlisted x (.coroutine c) := by
      simpa [hc] using hclaim x c
    refine .inl ⟨Nat.lt_of_lt_of_eq hx hsame.symm, List.count_singleton.trans ?_, fun ht hne => ?_⟩
    · simp [Ne.symm hc]
    · have hut : ¬ s.Triggered x := hnew.resolve_left hne
      have hfires : Fires s eh x := (h.fires x hut).1 ht
      by_contra hasap
      have hasap' : x ∉ s.asap := fun hmem => hasap (h.cascade.asap x hmem)
      exact hc (hone x c hfires hne hasap' hown hx x₀ c₀ hfires₀ trivial hown₀ hwas).symm

theorem no_lost_wakeup {s : Runtime} {eh : EventId} {bodies : List (List Act)} {w : Firing}
    (hs : Quiet s) (heh : eh < s.size) (hone : OneWaiter home current s eh Anywhere)
    (hrun : (firing home current s eh).exec { rt := s } bodies = some w)
    (hended : w.ended = true) : NoLostWakeup home current s eh w := by
  by_cases hut : s.Triggered eh
  · have hserved : Served home current s eh { rt := s } := by
      refine ⟨hs, hut, heh, fun c => Nat.le_refl _, fun x c hown hx hnew => .inl ⟨hx, rfl, ?_⟩⟩
      intro ht hne
      exact absurd ht (hnew.resolve_left hne)
    exact hserved.run hs rfl hrun hended
  · cases bodies with
    | nil =>
      obtain rfl := Option.some.inj hrun
      cases hended
    | cons body bodies =>
      rcases Machine.exec_cons_inv hrun with ⟨u, hu, hrest⟩
      rcases firstCall home current hs heh hut with ⟨rt, hcall, hfull⟩
      have hiter : iterate home current eh { rt := s } body = some u := hu
      unfold iterate at hiter
      simp only [hcall, Bool.false_eq_true, if_false, Option.bind_some] at hiter
      rcases hfull.claim with ⟨hcoh, hsame, hnone⟩ | ⟨x₀, c₀, hcoh, hown₀, hfires₀, hclaim⟩
      · -- the cascade met no coroutine of the driver
        rw [hcoh] at hiter
        obtain rfl := Option.some.inj hiter
        obtain rfl := ended_exec rfl hrest
        intro x c hown hx hnew ht
        have hnew' : ¬ s.Triggered x := by
          rcases hnew with rfl | hnew
          · exact hut
          · exact hnew
        have hx' : 0 < rt.enlisted x (.coroutine c) := Nat.lt_of_lt_of_eq hx (hsame x c).symm
        exact absurd hown (hnone x c hnew' ht hx')
      · rw [hcoh] at hiter
        rcases Option.map_eq_some_iff.1 hiter with ⟨rt', hrt', rfl⟩
        have hserved := hfull.served hs heh hone hown₀ hfires₀ hclaim
        exact (hserved.acts hrt').run hs rfl hrest hended

/-! ## A coroutine that is left behind -/

theorem fires_untriggered {s : Runtime} {eh x : EventId} (h : Fires s eh x) :
    ¬ s.Triggered x := by
  unfold Fires at h
  cases h with
  | root hx => exact hx.1 ▸ hx.2
  | gate ms hq _ _ _ => exact hq.2

/-- Firing an event again triggers nothing. -/
theorem not_fires_of_triggered {s : Runtime} {eh x : EventId} (hs : Quiet s)
    (heh : s.Triggered eh) : ¬ Fires s eh x := by
  intro h
  unfold Fires at h
  refine Fired.least (P := fun _ => False) ?_ ?_ h
  · intro y hy
    exact hy.2 (hy.1 ▸ heh)
  · intro q hq _
    refine ⟨[], (s.body q).members, List.Perm.refl _, fun _ _ hf => hf, ?_⟩
    have hshort := hs.short q nofun hq.1 hq.2
    show 0 < (s.body q).quorum - (s.body q).count
    omega

/-- From `w` the loop ends, changes no more than the list of `eh`, and resumes only
coroutines on that list. -/
def EndsQuietly (home : CoroId → DriverId) (current : DriverId) (s : Runtime) (eh : EventId)
    (w : Firing) : Prop :=
  ∃ bodies w', (firing home current s eh).exec w bodies = some w' ∧ w'.ended = true ∧
    (∀ x, w'.rt.Triggered x ↔ w.rt.Triggered x) ∧ w'.rt.asap = w.rt.asap ∧
    w'.destroyed = w.destroyed ∧
    ∀ c, w.rt.enlisted eh (.coroutine c) = 0 → w'.resumed.count c = w.resumed.count c

theorem endsQuietly_now {s : Runtime} {eh : EventId} {w : Firing} (hopen : w.ended = false)
    (hcall : driverTrigger home current w.rt eh = some { w.rt with coh := none }) :
    EndsQuietly home current s eh w := by
  refine ⟨[[]], { w with rt := { w.rt with coh := none }, ended := true }, ?_, rfl,
    fun _ => Iff.rfl, rfl, rfl, fun _ _ => rfl⟩
  have hiter : iterate home current eh w [] =
      some { w with rt := { w.rt with coh := none }, ended := true } := by
    unfold iterate
    simp only [hopen, hcall, Bool.false_eq_true, if_false, Option.bind_some]
  exact Machine.exec_cons hiter rfl

/-- The loop, when no coroutine does anything. -/
theorem endsQuietly {s : Runtime} {eh : EventId} (n : Nat) {w : Firing}
    (ht : w.rt.Triggered eh) (hopen : w.ended = false)
    (hn : (w.rt.body eh).listeners.length ≤ n) : EndsQuietly home current s eh w := by
  induction n generalizing w with
  | zero =>
    rcases driverTrigger_triggered home current ht with
      ⟨c, _, hc, _⟩ | ⟨_, hcall⟩
    · have hmem := List.length_pos_of_mem (Runtime.mem_listeners.2 hc)
      omega
    · exact endsQuietly_now hopen hcall
  | succ n ih =>
    rcases driverTrigger_triggered home current ht with
      ⟨c₀, _, hc₀, hcall⟩ | ⟨_, hcall⟩
    · have hsame := removeListener_sameBut w.rt eh (.coroutine c₀)
      generalize hw : ({ w with
          rt := { w.rt.removeListener eh (.coroutine c₀) with coh := some c₀ }
          resumed := c₀ :: w.resumed } : Firing) = v
      have hiter : iterate home current eh w [] = some v := by
        have hgo : ¬ w.ended = true := by simp [hopen]
        unfold iterate
        rw [if_neg hgo, hcall, ← hw]
        rfl
      have htv : ∀ x, v.rt.Triggered x ↔ w.rt.Triggered x := by
        rw [← hw]
        exact hsame.triggered
      have hlength : (v.rt.body eh).listeners.length ≤ n := by
        have hmem := Runtime.mem_listeners.2 hc₀
        rw [← hw]
        show ((w.rt.removeListener eh (.coroutine c₀)).body eh).listeners.length ≤ n
        unfold Runtime.removeListener
        rw [Runtime.setBody_self, (swapErase_perm _ _).length_eq, List.length_erase_of_mem hmem]
        omega
      have hopen' : v.ended = false := by
        rw [← hw]
        exact hopen
      rcases ih ((htv eh).2 ht) hopen' hlength with
        ⟨bodies, w', hrun, hended, htriggered, hasap, hdestroyed, hcount⟩
      refine ⟨[] :: bodies, w', Machine.exec_cons hiter hrun, hended,
        fun x => (htriggered x).trans (htv x), ?_, ?_, fun c hc => ?_⟩
      · rw [hasap, ← hw]
        rfl
      · rw [hdestroyed, ← hw]
      · have hne : c ≠ c₀ := by
          intro he
          rw [he] at hc
          omega
        have hzero : v.rt.enlisted eh (.coroutine c) = 0 := by
          rw [← hw]
          exact (hsame.others eh _ fun he => hne (Listener.coroutine.inj he)).trans hc
        rw [hcount c hzero, ← hw]
        exact List.count_cons_of_ne (Ne.symm hne)
    · exact endsQuietly_now hopen hcall

theorem oneWaiter_of_no_lost_wakeup {s : Runtime} {eh : EventId} (hs : Quiet s)
    (heh : eh < s.size)
    (hno : ∀ bodies w, (firing home current s eh).exec { rt := s } bodies = some w →
      w.ended = true → NoLostWakeup home current s eh w) :
    OneWaiter home current s eh (Unposted s eh) := by
  intro q c hq hqe hasapq hownc hwaitc x d hx hamong hownd hwaitd
  by_cases hut : s.Triggered eh
  · exact absurd hq (not_fires_of_triggered hs hut)
  rcases firstCall home current hs heh hut with ⟨rt, hcall, hfull⟩
  have htriggered : ∀ y, Fires s eh y → rt.Triggered y := fun y hy =>
    (hfull.fires y (fires_untriggered hy)).2 hy
  rcases hfull.claim with ⟨_, hsame, hnone⟩ | ⟨x₀, c₀, hcoh, _, _, hclaim⟩
  · have hpos := Nat.lt_of_lt_of_eq hwaitc (hsame q c).symm
    exact absurd hownc (hnone q c (fires_untriggered hq) (htriggered q hq) hpos)
  · have hiter : iterate home current eh { rt := s } [] =
        some { rt, resumed := [c₀] } := by
      unfold iterate
      simp only [hcall, Bool.false_eq_true, if_false, Option.bind_some, hcoh]
      rfl
    have hquiet : EndsQuietly home current s eh { rt, resumed := [c₀] } :=
      endsQuietly _ hfull.root rfl (Nat.le_refl _)
    rcases hquiet with ⟨bodies, w', hrun, hended, hsame, hasap', hdestroyed, hcount⟩
    have hlost := hno ([] :: bodies) w' (Machine.exec_cons hiter hrun) hended
    -- a coroutine that does not wait for `eh` is resumed only if the cascade claimed it
    have key : ∀ y e, Fires s eh y → y ≠ eh → y ∉ s.asap → home e = current →
        0 < s.enlisted y (.coroutine e) → e = c₀ := by
      intro y e hy hye hasapy howne hwait
      have hzero : rt.enlisted eh (.coroutine e) = 0 := by
        have hs₀ : s.enlisted eh (.coroutine e) = 0 := by
          by_contra hne
          exact hye (hs.alone y eh e hwait (Nat.pos_of_ne_zero hne))
        have := hclaim eh e
        omega
      rcases hlost y e howne hwait (.inr (fires_untriggered hy))
        ((hsame y).2 (htriggered y hy)) with hone | hmem | hmem
      · rw [hcount e hzero] at hone
        exact List.mem_singleton.1 (List.count_pos_iff.1 (by rw [hone]; exact Nat.one_pos))
      · rw [hasap', show rt.asap = s.asap from hfull.cascade.unposted rfl] at hmem
        exact absurd hmem hasapy
      · rw [hdestroyed] at hmem
        cases hmem
    have hc : c = c₀ := key q c hq hqe hasapq hownc hwaitc
    by_cases hxe : x = eh
    · -- the fired event would have been asked first
      rw [hxe] at hwaitd
      have hwaitd' : 0 < Runtime.enlisted { s with coh := none } eh (.coroutine d) := hwaitd
      rcases triggerUnlock_claims_root rfl hwaitd' hownd hfull.run with ⟨c₁, hc₁, hwait₁⟩
      rw [hcoh] at hc₁
      obtain rfl := Option.some.inj hc₁
      exact absurd (hs.alone q eh c hwaitc (hc ▸ hwait₁)) hqe
    · rw [hc]
      exact key x d hx hxe (hamong.resolve_left hxe) hownd hwaitd

/-- Firing an event loses no wakeup, whatever the coroutines do, if a coroutine of the
driver that waits for a quorum that fires is the only one among all events that fire,
and only if it is the only one among those that are not on `asap_` already. -/
theorem no_lost_wakeup_iff {s : Runtime} {eh : EventId}
    (hs : (runtime home current).Reachable s) (heh : eh < s.size) :
    (OneWaiter home current s eh Anywhere → ∀ bodies w,
      (firing home current s eh).exec { rt := s } bodies = some w → w.ended = true →
        NoLostWakeup home current s eh w) ∧
    ((∀ bodies w, (firing home current s eh).exec { rt := s } bodies = some w →
        w.ended = true → NoLostWakeup home current s eh w) →
      OneWaiter home current s eh (Unposted s eh)) :=
  ⟨fun hone _ _ hrun hended => no_lost_wakeup (reachable_quiet hs) heh hone hrun hended,
    fun hno => oneWaiter_of_no_lost_wakeup (reachable_quiet hs) heh hno⟩

/-- A driver whose coroutine 11 waits for `any` of the events 0 and 1. -/
def waitAny : Runtime :=
  ((runtime (fun _ => 0) 0).exec {} [.act .event, .act .event,
    .act (.quorum 1 [some 0, some 1]), .act (.await 11 2)]).get (by decide)

theorem waitAny_reachable : (runtime (fun _ => 0) 0).Reachable waitAny := by
  have hinit : (runtime (fun _ => 0) 0).init {} := rfl
  exact Machine.Reachable.of_get hinit (by decide)

theorem waitAny_waiter {x : EventId} {d : CoroId} (hd : 0 < waitAny.enlisted x (.coroutine d)) :
    d = 11 := by
  by_cases hx : x < waitAny.size
  · have hlisted : ∀ y < waitAny.size, ∀ l ∈ (waitAny.body y).listeners,
        l = .coroutine 11 ∨ l = .quorum 2 := by decide
    rcases hlisted x hx _ (Runtime.mem_listeners.2 hd) with he | he
    · exact Listener.coroutine.inj he
    · cases he
  · have hfresh := (reachable_quiet waitAny_reachable).fresh x (Nat.le_of_not_lt hx)
    have hmem := Runtime.mem_listeners.2 hd
    rw [hfresh] at hmem
    cases hmem

/-- Event 0 is fired, and the coroutine triggers event 1. -/
def anyFired : Firing :=
  ((firing (fun _ => 0) 0 waitAny 0).exec { rt := waitAny } [[.trigger 1], []]).get (by decide)

theorem waitAny_wakes : NoLostWakeup (fun _ => 0) 0 waitAny 0 anyFired := by
  have hone : OneWaiter (fun _ => 0) 0 waitAny 0 Anywhere := by
    intro q c _ _ _ _ hc x d _ _ _ hd
    rw [waitAny_waiter hd, waitAny_waiter hc]
  have hended : anyFired.ended = true := by decide
  exact (no_lost_wakeup_iff waitAny_reachable (by decide)).1 hone _ _ (Option.some_get _).symm
    hended

/-- Coroutine 10 waits for event 0, coroutine 11 for `any` of the events 0 and 1. -/
def waitBoth : Runtime :=
  ((runtime (fun _ => 0) 0).exec {} [.act .event, .act .event,
    .act (.quorum 1 [some 0, some 1]), .act (.await 10 0), .act (.await 11 2)]).get (by decide)

def bothFired : Firing :=
  ((firing (fun _ => 0) 0 waitBoth 0).exec { rt := waitBoth } [[], []]).get (by decide)

/-- Event 0 is fired: coroutine 11 is neither resumed nor posted. -/
theorem waitBoth_loses : (runtime (fun _ => 0) 0).Reachable waitBoth ∧ 0 < waitBoth.size ∧
    (firing (fun _ => 0) 0 waitBoth 0).exec { rt := waitBoth } [[], []] = some bothFired ∧
    bothFired.ended = true ∧ ¬ NoLostWakeup (fun _ => 0) 0 waitBoth 0 bothFired := by
  have hinit : (runtime (fun _ => 0) 0).init {} := rfl
  refine ⟨Machine.Reachable.of_get hinit (by decide), by decide, (Option.some_get _).symm,
    by decide, fun h => ?_⟩
  have hlost := h 2 11 rfl (by decide) (.inr (by decide)) (by decide)
  exact absurd hlost (by decide)

end Event
end Cotamer
end Psets
