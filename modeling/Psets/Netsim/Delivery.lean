/-
Delivery in order.

Seen from one sender the network is a link that keeps order and may lose.  The clock does not
keep order by itself: it may jump back to the earliest deadline.  But it never goes back behind
a timer that has fired, and a sender that awaits `send` has seen a timer fire that was set when
its last message was, so its next message cannot overtake that one.
-/
import Psets.Netsim.Network
import Psets.Transition.Link

namespace Psets
namespace Netsim
namespace Delivery

open Containers (Deadlines)
open Containers.Deadlines (select)
open Transition (Link)

variable {S C P M : Type} [DecidableEq S] [DecidableEq C] [DecidableEq P]
variable {st st' : Network S C P M}

/-! ## What a step does -/

/-- The steps of the network. -/
inductive Moved (st : Network S C P M) : Network S C P M → Prop where
  | send (source : S) (c : C) (message : M) (lost : Bool) : st.sender source = .idle →
      Moved st (st.send source c message lost)
  | fire {t : Nat} {w : Wake S C P M} {rest : List (Nat × Wake S C P M)} :
      st.timed.entries = (t, w) :: rest → t ≤ st.snow →
      Moved st ({ st with timed := st.timed.pop, fired := t }.wake w)
  | jump {x : Nat × Wake S C P M} {rest : List (Nat × Wake S C P M)} :
      st.timed.entries = x :: rest → Moved st { st with snow := x.1 }
  | tick (n : Nat) : Moved st { st with snow := st.snow + n }
  | after (d : Nat) : Moved st { st with timed := st.timed.insert (st.snow + d) .other }
  | cull {pos : Nat} {x : Nat × Wake S C P M} : st.timed.entries[pos]? = some x →
      st.dead x.2 = true → Moved st { st with timed := st.timed.remove pos }
  | connect (c : C) (port : Option P) : Moved st (st.connect c port)
  | receive {p : P} {m : Packet S C P M} {q : List (Packet S C P M)} : st.messageq p = m :: q →
      Moved st { st with
        messageq := Function.update st.messageq p q
        received := Function.update st.received p (st.received p ++ [m]) }
  | destroy (source : S) : Moved st { st with sender := Function.update st.sender source .gone }

theorem step_moved {a : Label S C P M} (h : st.step a = some st') : Moved st st' := by
  cases a with
  | send source c message lost =>
    simp only [Network.step] at h
    split at h
    · rename_i hidle
      obtain rfl := Option.some.inj h
      exact .send source c message lost hidle
    · cases h
  | fire =>
    simp only [Network.step] at h
    split at h
    · cases h
    · rename_i t w rest hentries
      split at h
      · rename_i hle
        obtain rfl := Option.some.inj h
        exact .fire hentries hle
      · cases h
  | jump =>
    obtain ⟨x, hx, rfl⟩ := Option.map_eq_some_iff.1 h
    obtain ⟨rest, hrest⟩ := List.head?_eq_some_iff.1 hx
    exact .jump hrest
  | tick n =>
    obtain rfl := Option.some.inj h
    exact .tick n
  | after d =>
    obtain rfl := Option.some.inj h
    exact .after d
  | cull pos =>
    simp only [Network.step] at h
    split at h
    · rename_i x hx
      split at h
      · rename_i hdead
        obtain rfl := Option.some.inj h
        exact .cull hx hdead
      · cases h
    · cases h
  | connect c port =>
    obtain rfl := Option.some.inj h
    exact .connect c (some port)
  | disconnect c =>
    obtain rfl := Option.some.inj h
    exact .connect c none
  | receive p =>
    simp only [Network.step] at h
    split at h
    · cases h
    · rename_i m q hq
      obtain rfl := Option.some.inj h
      exact .receive hq
  | destroy source =>
    obtain rfl := Option.some.inj h
    exact .destroy source

/-! ## Timers and senders -/

/-- The timer at which `source` sends its next message. -/
def isDone (source : S) : Wake S C P M → Bool
  | .sendDone source' => source' = source
  | _ => false

/-- The packet of class `k` that a timer holds. -/
def underway (k : Packet S C P M → Bool) : Wake S C P M → Option (Packet S C P M)
  | .sendAfter packet _ => if k packet then some packet else none
  | _ => none

omit [DecidableEq S] [DecidableEq C] [DecidableEq P] in
theorem underway_pos {k : Packet S C P M → Bool} {packet : Packet S C P M}
    (h : k packet = true) (version : Nat) :
    underway k (.sendAfter packet version) = some packet := if_pos h

omit [DecidableEq S] [DecidableEq C] [DecidableEq P] in
theorem underway_neg {k : Packet S C P M → Bool} {packet : Packet S C P M}
    (h : ¬ k packet = true) (version : Nat) :
    underway k (.sendAfter packet version) = none := if_neg h

omit [DecidableEq S] [DecidableEq C] [DecidableEq P] in
theorem eq_of_underway {k : Packet S C P M → Bool} {w : Wake S C P M} {packet : Packet S C P M}
    (h : underway k w = some packet) :
    k packet = true ∧ ∃ version, w = .sendAfter packet version := by
  cases w with
  | sendAfter packet' version =>
    by_cases hk : k packet' = true
    · rw [underway_pos hk] at h
      obtain rfl := Option.some.inj h
      exact ⟨hk, version, rfl⟩
    · rw [underway_neg hk] at h
      cases h
  | sendDone source => cases h
  | other => cases h

/-- The timer holds a packet of `source`. -/
def Carries (source : S) (w : Wake S C P M) : Prop :=
  ∃ packet version, w = .sendAfter packet version ∧ packet.source = source

omit [DecidableEq S] [DecidableEq C] [DecidableEq P] in
theorem carries_of_underway {k : Packet S C P M → Bool} {source : S}
    (hk : ∀ packet, k packet = true → packet.source = source) {w : Wake S C P M}
    (h : underway k w ≠ none) : Carries source w := by
  cases w with
  | sendAfter packet version =>
    by_cases hp : k packet = true
    · exact ⟨packet, version, rfl, hk packet hp⟩
    · exact absurd (if_neg hp) h
  | sendDone source' => exact absurd rfl h
  | other => exact absurd rfl h

/-- What holds of the timers and the clock. -/
structure Timely (st : Network S C P M) : Prop where
  fired_le : st.fired ≤ st.snow
  due : ∀ x ∈ st.timed.entries, st.fired ≤ x.1
  /-- An idle sender's messages were sent at least `send_delay_` before the last timer. -/
  idle : ∀ source, st.sender source = .idle →
    st.timed.entries.countP (fun x => isDone source x.2) = 0 ∧
      ∀ x ∈ st.timed.entries, Carries source x.2 → x.1 + sendDelay ≤ st.fired + linkDelay
  sending : ∀ source, st.sender source = .sending →
    st.timed.entries.countP (fun x => isDone source x.2) ≤ 1 ∧
      ∀ x ∈ st.timed.entries, Carries source x.2 → ∀ y ∈ st.timed.entries,
        isDone source y.2 = true → x.1 + sendDelay ≤ y.1 + linkDelay

omit [DecidableEq C] in
theorem wake_timed (st : Network S C P M) (w : Wake S C P M) :
    (st.wake w).timed = st.timed ∧ (st.wake w).snow = st.snow ∧
      (st.wake w).fired = st.fired ∧ (st.wake w).sent = st.sent := by
  cases w with
  | sendAfter packet version =>
    simp only [Network.wake, Network.sendAfter]
    split
    · exact ⟨rfl, rfl, rfl, rfl⟩
    · split <;> exact ⟨rfl, rfl, rfl, rfl⟩
  | sendDone source =>
    simp only [Network.wake]
    split <;> exact ⟨rfl, rfl, rfl, rfl⟩
  | other => exact ⟨rfl, rfl, rfl, rfl⟩

omit [DecidableEq C] in
/-- A timer changes at most the sender it belongs to. -/
theorem wake_sender (st : Network S C P M) (w : Wake S C P M) (source : S) :
    (st.wake w).sender source = st.sender source ∨
      isDone source w = true ∧ st.sender source = .sending ∧ (st.wake w).sender source = .idle := by
  cases w with
  | sendAfter packet version =>
    simp only [Network.wake, Network.sendAfter]
    split
    · exact .inl rfl
    · split <;> exact .inl rfl
  | sendDone source' =>
    simp only [Network.wake]
    split
    · rename_i hsending
      by_cases hs : source = source'
      · subst hs
        exact .inr ⟨by simp [isDone], hsending, Function.update_self ..⟩
      · exact .inl (Function.update_of_ne hs ..)
    · exact .inl rfl
  | other => exact .inl rfl

omit [DecidableEq C] [DecidableEq P] in
/-- Steps that neither set a timer for a sender nor wake one. -/
theorem Timely.mono (h : Timely st) (hfired : st'.fired = st.fired) (hsnow : st.fired ≤ st'.snow)
    (hsub : st'.timed.entries.Sublist st.timed.entries)
    (hsender : ∀ source, st'.sender source = st.sender source ∨ st'.sender source = .gone) :
    Timely st' where
  fired_le := hfired ▸ hsnow
  due x hx := hfired ▸ h.due x (hsub.subset hx)
  idle source hs := by
    rcases hsender source with he | he
    · obtain ⟨hcount, hall⟩ := h.idle source (he ▸ hs)
      refine ⟨Nat.le_zero.1 (hcount ▸ hsub.countP_le), fun x hx hc => ?_⟩
      rw [hfired]
      exact hall x (hsub.subset hx) hc
    · rw [he] at hs
      cases hs
  sending source hs := by
    rcases hsender source with he | he
    · obtain ⟨hcount, hall⟩ := h.sending source (he ▸ hs)
      exact ⟨Nat.le_trans hsub.countP_le hcount, fun x hx hc y hy =>
        hall x (hsub.subset hx) hc y (hsub.subset hy)⟩
    · rw [he] at hs
      cases hs

omit [DecidableEq C] [DecidableEq P] in
/-- A timer that no sender waits for. -/
theorem Timely.insert_other (h : Timely st) (d : Nat) :
    Timely { st with timed := st.timed.insert (st.snow + d) .other } := by
  have hcount : ∀ source, ((st.timed.insert (st.snow + d) .other).entries.countP
      fun x => isDone source x.2) = st.timed.entries.countP fun x => isDone source x.2 := by
    intro source
    refine ((Containers.Deadlines.place_perm _ _ _).countP_eq _).trans ?_
    rw [List.countP_cons]
    simp [isDone]
  have hold : ∀ {x}, x ∈ (st.timed.insert (st.snow + d) .other).entries →
      x = (st.snow + d, .other) ∨ x ∈ st.timed.entries := fun hx => Deadlines.mem_insert.1 hx
  have hcarry : ∀ {x source}, x ∈ (st.timed.insert (st.snow + d) .other).entries →
      Carries source x.2 → x ∈ st.timed.entries := by
    intro x source hx hc
    rcases hold hx with rfl | hx
    · obtain ⟨_, _, he, _⟩ := hc
      cases he
    · exact hx
  exact {
    fired_le := h.fired_le
    due := fun x hx => by
      rcases hold hx with rfl | hx
      · exact Nat.le_trans h.fired_le (Nat.le_add_right _ _)
      · exact h.due x hx
    idle := fun source hs => by
      obtain ⟨hzero, hall⟩ := h.idle source hs
      exact ⟨(hcount source).trans hzero, fun x hx hc => hall x (hcarry hx hc) hc⟩
    sending := fun source hs => by
      obtain ⟨hone, hall⟩ := h.sending source hs
      refine ⟨Nat.le_trans (Nat.le_of_eq (hcount source)) hone, fun x hx hc y hy hd => ?_⟩
      rcases hold hy with rfl | hy
      · cases hd
      · exact hall x (hcarry hx hc) hc y hy hd }

omit [DecidableEq C] in
/-- The earliest timer fires. -/
theorem Timely.fire (h : Timely st) {t : Nat} {w : Wake S C P M}
    {rest : List (Nat × Wake S C P M)} (hentries : st.timed.entries = (t, w) :: rest)
    (hle : t ≤ st.snow) : Timely ({ st with timed := st.timed.pop, fired := t }.wake w) := by
  have hpop : st.timed.pop.entries = rest := by
    show st.timed.entries.tail = rest
    rw [hentries]
    rfl
  have hrest : ∀ {x}, x ∈ rest → x ∈ st.timed.entries := fun hx => by
    rw [hentries]
    exact List.mem_cons_of_mem _ hx
  have hhead : (t, w) ∈ st.timed.entries := by
    rw [hentries]
    exact List.mem_cons_self
  have hcount : ∀ source, st.timed.entries.countP (fun x => isDone source x.2) =
      rest.countP (fun x => isDone source x.2) + if isDone source w then 1 else 0 := by
    intro source
    rw [hentries, List.countP_cons]
  obtain ⟨htimed, hsnow, hfired, _⟩ :=
    wake_timed { st with timed := st.timed.pop, fired := t } w
  have hsender := wake_sender { st with timed := st.timed.pop, fired := t } w
  exact {
    fired_le := by
      rw [hfired, hsnow]
      exact hle
    due := fun x hx => by
      rw [htimed] at hx
      rw [hfired]
      exact Deadlines.head_le hentries (hrest (hpop ▸ hx))
    idle := fun source hs => by
      rw [htimed, hfired, hpop]
      rcases hsender source with he | ⟨hdone, hwas, _⟩
      · obtain ⟨hzero, hall⟩ := h.idle source (he ▸ hs)
        have := hcount source
        refine ⟨by omega, fun x hx hc => ?_⟩
        have := hall x (hrest hx) hc
        have := h.due _ hhead
        show x.1 + sendDelay ≤ t + linkDelay
        omega
      · obtain ⟨hone, hall⟩ := h.sending source hwas
        have := hcount source
        rw [if_pos hdone] at this
        exact ⟨by omega, fun x hx hc => hall x (hrest hx) hc (t, w) hhead hdone⟩
    sending := fun source hs => by
      rw [htimed, hpop]
      rcases hsender source with he | ⟨_, _, hnow⟩
      · obtain ⟨hone, hall⟩ := h.sending source (he ▸ hs)
        have := hcount source
        exact ⟨by omega, fun x hx hc y hy hd => hall x (hrest hx) hc y (hrest hy) hd⟩
      · rw [hnow] at hs
        cases hs }

omit [DecidableEq C] [DecidableEq P] in
/-- The timers that `send` sets. -/
theorem mem_send_timed {source : S} {c : C} {message : M} {lost : Bool} {x : Nat × Wake S C P M}
    (hx : x ∈ (st.send source c message lost).timed.entries) :
    x = (st.snow + sendDelay, .sendDone source) ∨ x ∈ st.timed.entries ∨
      x.1 = st.snow + linkDelay ∧ ∃ version, x.2 = .sendAfter
        ⟨source, c, message, (st.channel c).destination, st.moves c⟩ version := by
  rcases Deadlines.mem_insert.1 hx with rfl | hx
  · exact .inl rfl
  · right
    by_cases hgo : (st.channel c).destination.isSome ∧ lost = false
    · rw [if_pos hgo] at hx
      rcases Deadlines.mem_insert.1 hx with rfl | hx
      · exact .inr ⟨rfl, _, rfl⟩
      · exact .inl hx
    · rw [if_neg hgo] at hx
      exact .inl hx

omit [DecidableEq C] [DecidableEq P] in
theorem countP_send_timed (source source' : S) (c : C) (message : M) (lost : Bool) :
    (st.send source c message lost).timed.entries.countP (fun x => isDone source' x.2) =
      st.timed.entries.countP (fun x => isDone source' x.2) + if source = source' then 1 else 0 := by
  refine ((Containers.Deadlines.place_perm _ _ _).countP_eq _).trans ?_
  rw [List.countP_cons]
  have hdone : (isDone source' (.sendDone source : Wake S C P M) = true) ↔ source = source' := by
    simp [isDone]
  simp only [hdone]
  congr 1
  by_cases hgo : (st.channel c).destination.isSome ∧ lost = false
  · rw [if_pos hgo]
    refine ((Containers.Deadlines.place_perm _ _ _).countP_eq _).trans ?_
    rw [List.countP_cons]
    simp [isDone]
  · rw [if_neg hgo]

omit [DecidableEq C] [DecidableEq P] in
/-- An idle sender sends a message. -/
theorem Timely.send (h : Timely st) {source : S} (hidle : st.sender source = .idle) (c : C)
    (message : M) (lost : Bool) : Timely (st.send source c message lost) := by
  have hfired := h.fired_le
  have hself : (st.send source c message lost).sender source = .sending := Function.update_self ..
  have hother : ∀ {s}, s ≠ source → (st.send source c message lost).sender s = st.sender s :=
    fun hs => Function.update_of_ne hs ..
  -- a packet in a timer is another's, or an old one of this sender, or the new one
  have hcarry : ∀ {x s}, x ∈ (st.send source c message lost).timed.entries → Carries s x.2 →
      x ∈ st.timed.entries ∨ s = source ∧ x.1 = st.snow + linkDelay := by
    intro x s hx hc
    obtain ⟨packet, version, hw, hs⟩ := hc
    rcases mem_send_timed hx with rfl | hx | ⟨ht, version', hw'⟩
    · cases hw
    · exact .inl hx
    · rw [hw'] at hw
      obtain ⟨rfl, _⟩ := Wake.sendAfter.inj hw
      exact .inr ⟨hs.symm, ht⟩
  exact {
    fired_le := hfired
    due := fun x hx => by
      show st.fired ≤ x.1
      rcases mem_send_timed hx with rfl | hx | ⟨ht, _⟩
      · exact Nat.le_trans hfired (Nat.le_add_right _ _)
      · exact h.due x hx
      · rw [ht]
        exact Nat.le_trans hfired (Nat.le_add_right _ _)
    idle := fun s hs => by
      have hne : s ≠ source := by
        rintro rfl
        rw [hself] at hs
        cases hs
      obtain ⟨hzero, hall⟩ := h.idle s (hother hne ▸ hs)
      rw [countP_send_timed, if_neg (Ne.symm hne)]
      refine ⟨hzero, fun x hx hc => ?_⟩
      rcases hcarry hx hc with hx | ⟨he, _⟩
      · exact hall x hx hc
      · exact absurd he hne
    sending := fun s hs => by
      rw [countP_send_timed]
      by_cases hss : s = source
      · subst hss
        obtain ⟨hzero, hall⟩ := h.idle s hidle
        rw [if_pos rfl]
        refine ⟨by omega, fun x hx hc y hy hd => ?_⟩
        have hy' : y = (st.snow + sendDelay, .sendDone s) := by
          rcases mem_send_timed hy with hy | hy | ⟨_, version, hw⟩
          · exact hy
          · exact absurd hd (List.countP_eq_zero.1 hzero y hy)
          · rw [hw] at hd
            cases hd
        rw [hy']
        show x.1 + sendDelay ≤ st.snow + sendDelay + linkDelay
        rcases hcarry hx hc with hx | ⟨_, ht⟩
        · have := hall x hx hc
          omega
        · omega
      · obtain ⟨hone, hall⟩ := h.sending s (hother hss ▸ hs)
        rw [if_neg (Ne.symm hss)]
        refine ⟨hone, fun x hx hc y hy hd => ?_⟩
        rcases hcarry hx hc with hx | ⟨he, _⟩
        · rcases mem_send_timed hy with rfl | hy | ⟨_, version, hw⟩
          · have hs' : source = s := by simpa [isDone] using hd
            exact absurd hs'.symm hss
          · exact hall x hx hc y hy hd
          · rw [hw] at hd
            cases hd
        · exact absurd he hss }

theorem Timely.moved (h : Timely st) (hm : Moved st st') : Timely st' := by
  cases hm with
  | send source c message lost hidle => exact h.send hidle c message lost
  | fire hentries hle => exact h.fire hentries hle
  | @jump x rest hentries =>
    have hx : x ∈ st.timed.entries := by
      rw [hentries]
      exact List.mem_cons_self
    exact h.mono rfl (h.due x hx) (List.Sublist.refl _) fun _ => .inl rfl
  | tick n =>
    exact h.mono rfl (Nat.le_trans h.fired_le (Nat.le_add_right _ n)) (List.Sublist.refl _)
      fun _ => .inl rfl
  | after d => exact h.insert_other d
  | cull hx hdead => exact h.mono rfl h.fired_le (List.eraseIdx_sublist ..) fun _ => .inl rfl
  | connect c port => exact h.mono rfl h.fired_le (List.Sublist.refl _) fun _ => .inl rfl
  | receive hq => exact h.mono rfl h.fired_le (List.Sublist.refl _) fun _ => .inl rfl
  | destroy source =>
    refine h.mono rfl h.fired_le (List.Sublist.refl _) fun s => ?_
    by_cases hs : s = source
    · subst hs
      exact .inr (Function.update_self ..)
    · exact .inl (Function.update_of_ne hs ..)

omit [DecidableEq C] [DecidableEq P] in
theorem Timely.start (destination : C → Option P) :
    Timely (start destination : Network S C P M) where
  fired_le := Nat.le_refl 0
  due x hx := by cases hx
  idle source _ := ⟨rfl, fun x hx => by cases hx⟩
  sending source hs := by cases hs

/-! ## The network seen from one sender -/

/-- The packets of class `k`: sent, held by a timer, and put into a port. -/
def link (k : Packet S C P M → Bool) (st : Network S C P M) : Link (Packet S C P M) where
  sent := st.sent.filter k
  underway := select (underway k) st.timed.entries
  arrived := (st.arrived.map (·.packet)).filter k

omit [DecidableEq S] [DecidableEq C] [DecidableEq P] in
theorem link_congr {k : Packet S C P M → Bool} (hsent : st'.sent = st.sent)
    (htimed : select (underway k) st'.timed.entries = select (underway k) st.timed.entries)
    (harrived : st'.arrived = st.arrived) : link k st' = link k st := by
  rw [link, link, hsent, htimed, harrived]

omit [DecidableEq S] [DecidableEq C] in
/-- The rest of `send_after` puts the packet into a port or drops it. -/
theorem sendAfter_arrived (st : Network S C P M) (packet : Packet S C P M) (version : Nat) :
    (st.sendAfter packet version).arrived = st.arrived ∨
      ∃ p, (st.channel packet.channel).destination = some p ∧
        version = (st.channel packet.channel).version ∧
        (st.sendAfter packet version).arrived =
          st.arrived ++ [⟨p, st.moves packet.channel, packet⟩] := by
  simp only [Network.sendAfter]
  split
  · exact .inl rfl
  · rename_i p hp
    split
    · rename_i hv
      exact .inr ⟨p, hp, hv, rfl⟩
    · exact .inl rfl

omit [DecidableEq C] in
theorem wake_arrived_of_none {k : Packet S C P M → Bool} {w : Wake S C P M}
    (h : underway k w = none) :
    ((st.wake w).arrived.map (·.packet)).filter k = (st.arrived.map (·.packet)).filter k := by
  cases w with
  | sendAfter packet version =>
    have hk : ¬ k packet = true := fun hk => by
      rw [underway_pos hk] at h
      cases h
    show ((st.sendAfter packet version).arrived.map _).filter k = _
    rcases sendAfter_arrived st packet version with he | ⟨p, _, _, he⟩
    · rw [he]
    · rw [he, List.map_append, List.filter_append, List.map_singleton,
        List.filter_cons_of_neg hk, List.filter_nil, List.append_nil]
  | sendDone source =>
    simp only [Network.wake]
    split <;> rfl
  | other => rfl

omit [DecidableEq C] in
/-- The timer of something else fires. -/
theorem link_fire_none {k : Packet S C P M → Bool} {t : Nat} {w : Wake S C P M}
    {rest : List (Nat × Wake S C P M)} (hentries : st.timed.entries = (t, w) :: rest)
    (hw : underway k w = none) :
    link k ({ st with timed := st.timed.pop, fired := t }.wake w) = link k st := by
  obtain ⟨htimed, _, _, hsent⟩ :=
    wake_timed { st with timed := st.timed.pop, fired := t } w
  have hselect : select (underway k) st.timed.pop.entries =
      select (underway k) st.timed.entries := by
    show select (underway k) st.timed.entries.tail = _
    rw [hentries, Containers.Deadlines.select_cons, hw]
    rfl
  rw [link, link, htimed, hsent, wake_arrived_of_none hw, hselect]

omit [DecidableEq S] [DecidableEq C] [DecidableEq P] in
/-- The timer of a packet is the first of its class. -/
theorem link_underway_cons {k : Packet S C P M → Bool} {t version : Nat}
    {packet : Packet S C P M} {rest : List (Nat × Wake S C P M)}
    (hentries : st.timed.entries = (t, .sendAfter packet version) :: rest)
    (hk : k packet = true) : (link k st).underway = packet :: select (underway k) rest := by
  show select (underway k) st.timed.entries = _
  rw [hentries, Containers.Deadlines.select_cons, underway_pos hk]
  rfl

omit [DecidableEq C] in
/-- It fires, and the packet is dropped. -/
theorem link_fire_drop {k : Packet S C P M → Bool} {t version : Nat} {packet : Packet S C P M}
    {rest : List (Nat × Wake S C P M)}
    (hentries : st.timed.entries = (t, .sendAfter packet version) :: rest)
    (he : (Network.sendAfter { st with timed := st.timed.pop, fired := t } packet
      version).arrived = st.arrived) :
    link k (Network.sendAfter { st with timed := st.timed.pop, fired := t } packet version) =
      { link k st with underway := select (underway k) rest } := by
  obtain ⟨htimed, _, _, hsent⟩ := wake_timed { st with timed := st.timed.pop, fired := t }
    (.sendAfter packet version)
  simp only [Network.wake] at htimed hsent
  have hpop : st.timed.pop.entries = rest := by
    show st.timed.entries.tail = rest
    rw [hentries]
    rfl
  rw [link, htimed, hsent, hpop, he]
  rfl

omit [DecidableEq C] in
/-- It fires, and the packet arrives. -/
theorem link_fire_arrive {k : Packet S C P M → Bool} {t version n : Nat} {p : P}
    {packet : Packet S C P M} {rest : List (Nat × Wake S C P M)}
    (hentries : st.timed.entries = (t, .sendAfter packet version) :: rest)
    (hk : k packet = true)
    (he : (Network.sendAfter { st with timed := st.timed.pop, fired := t } packet
      version).arrived = st.arrived ++ [⟨p, n, packet⟩]) :
    link k (Network.sendAfter { st with timed := st.timed.pop, fired := t } packet version) =
      { link k st with
        underway := select (underway k) rest
        arrived := (link k st).arrived ++ [packet] } := by
  obtain ⟨htimed, _, _, hsent⟩ := wake_timed { st with timed := st.timed.pop, fired := t }
    (.sendAfter packet version)
  simp only [Network.wake] at htimed hsent
  have hpop : st.timed.pop.entries = rest := by
    show st.timed.entries.tail = rest
    rw [hentries]
    rfl
  rw [link, htimed, hsent, hpop, he, List.map_append, List.filter_append, List.map_singleton,
    List.filter_cons_of_pos hk, List.filter_nil]
  rfl

omit [DecidableEq C] [DecidableEq P] in
theorem sent_send (source : S) (c : C) (message : M) (lost : Bool) :
    (st.send source c message lost).sent =
      st.sent ++ [⟨source, c, message, (st.channel c).destination, st.moves c⟩] := rfl

omit [DecidableEq C] [DecidableEq P] in
/-- A packet of another class is sent. -/
theorem link_send_none {k : Packet S C P M → Bool} {source : S} {c : C} {message : M}
    (hk : ¬ k ⟨source, c, message, (st.channel c).destination, st.moves c⟩ = true)
    (lost : Bool) : link k (st.send source c message lost) = link k st := by
  have hsent : (st.send source c message lost).sent.filter k = st.sent.filter k := by
    rw [sent_send, List.filter_append, List.filter_cons_of_neg hk, List.filter_nil,
      List.append_nil]
  have hselect : select (underway k) (st.send source c message lost).timed.entries =
      select (underway k) st.timed.entries := by
    refine (Containers.Deadlines.select_place_none rfl _).trans ?_
    split
    · exact Containers.Deadlines.select_place_none (underway_neg hk _) _
    · rfl
  rw [link, hselect, hsent]
  rfl

omit [DecidableEq C] [DecidableEq P] in
/-- A packet of the class is sent and goes, behind those under way. -/
theorem link_send_go (h : Timely st) {k : Packet S C P M → Bool} {owner source : S}
    (hk : ∀ packet, k packet = true → packet.source = owner) (hidle : st.sender source = .idle)
    {c : C} {message : M} {lost : Bool}
    (hp : k ⟨source, c, message, (st.channel c).destination, st.moves c⟩ = true)
    (hgo : (st.channel c).destination.isSome ∧ lost = false) :
    link k (st.send source c message lost) = { link k st with
      sent := (link k st).sent ++ [⟨source, c, message, (st.channel c).destination, st.moves c⟩]
      underway := (link k st).underway ++
        [⟨source, c, message, (st.channel c).destination, st.moves c⟩] } := by
  have hsent : (st.send source c message lost).sent.filter k = st.sent.filter k ++
      [⟨source, c, message, (st.channel c).destination, st.moves c⟩] := by
    rw [sent_send, List.filter_append, List.filter_cons_of_pos hp, List.filter_nil]
  have hselect : select (underway k) (st.send source c message lost).timed.entries =
      select (underway k) st.timed.entries ++
        [⟨source, c, message, (st.channel c).destination, st.moves c⟩] := by
    refine (Containers.Deadlines.select_place_none rfl _).trans ?_
    rw [if_pos hgo]
    refine Containers.Deadlines.select_place_some (underway_pos hp _) st.timed.sorted
      fun x hx hne => ?_
    have hcarries := carries_of_underway hk hne
    rw [← hk _ hp] at hcarries
    have hold := (h.idle source hidle).2 x hx hcarries
    have hfired := h.fired_le
    omega
  rw [link, hselect, hsent]
  rfl

omit [DecidableEq C] [DecidableEq P] in
/-- A packet of the class is sent and is lost at once. -/
theorem link_send_miss {k : Packet S C P M → Bool} {source : S} {c : C} {message : M} {lost : Bool}
    (hp : k ⟨source, c, message, (st.channel c).destination, st.moves c⟩ = true)
    (hgo : ¬ ((st.channel c).destination.isSome ∧ lost = false)) :
    link k (st.send source c message lost) = { link k st with
      sent := (link k st).sent ++
        [⟨source, c, message, (st.channel c).destination, st.moves c⟩] } := by
  have hsent : (st.send source c message lost).sent.filter k = st.sent.filter k ++
      [⟨source, c, message, (st.channel c).destination, st.moves c⟩] := by
    rw [sent_send, List.filter_append, List.filter_cons_of_pos hp, List.filter_nil]
  have hselect : select (underway k) (st.send source c message lost).timed.entries =
      select (underway k) st.timed.entries := by
    refine (Containers.Deadlines.select_place_none rfl _).trans ?_
    rw [if_neg hgo]
  rw [link, hselect, hsent]
  rfl

omit [DecidableEq S] [DecidableEq C] [DecidableEq P] in
/-- A timer nobody waits for holds no packet. -/
theorem select_cull {k : Packet S C P M → Bool} {pos : Nat} {x : Nat × Wake S C P M}
    (hx : st.timed.entries[pos]? = some x) (hdead : st.dead x.2 = true) :
    select (underway k) (st.timed.remove pos).entries = select (underway k) st.timed.entries := by
  refine Containers.Deadlines.select_eraseIdx_none hx ?_
  unfold Network.dead at hdead
  split at hdead
  · rename_i hw
    rw [hw]
    rfl
  · rename_i hw
    rw [hw]
    rfl
  · cases hdead

/-- Whatever else the network does, it is a link for each sender. -/
theorem moved_link (h : Timely st) (hm : Moved st st') {k : Packet S C P M → Bool} {owner : S}
    (hk : ∀ packet, k packet = true → packet.source = owner) :
    link k st' = link k st ∨ Link.Hop (link k st) (link k st') := by
  cases hm with
  | send source c message lost hidle =>
    by_cases hp : k ⟨source, c, message, (st.channel c).destination, st.moves c⟩ = true
    · by_cases hgo : (st.channel c).destination.isSome ∧ lost = false
      · rw [link_send_go h hk hidle hp hgo]
        exact .inr (.send _)
      · rw [link_send_miss hp hgo]
        exact .inr (.miss _)
    · exact .inl (link_send_none hp lost)
  | @fire t w rest hentries hle =>
    cases hw : underway k w with
    | none => exact .inl (link_fire_none hentries hw)
    | some packet =>
      obtain ⟨hp, version, rfl⟩ := eq_of_underway hw
      have hunder := link_underway_cons hentries hp
      right
      show Link.Hop _ (link k (Network.sendAfter _ packet version))
      rcases sendAfter_arrived { st with timed := st.timed.pop, fired := t } packet
        version with he | ⟨p, _, _, he⟩
      · rw [link_fire_drop hentries he]
        have hhead : (link k st).underway = [] ++ packet :: select (underway k) rest := hunder
        exact .lose hhead
      · rw [link_fire_arrive hentries hp he]
        exact .arrive hunder
  | jump hentries => exact .inl rfl
  | tick n => exact .inl rfl
  | after d => exact .inl (link_congr rfl (Containers.Deadlines.select_place_none rfl _) rfl)
  | @cull pos x hx hdead =>
    exact .inl (link_congr rfl (select_cull hx hdead) rfl)
  | connect c port => exact .inl rfl
  | receive hq => exact .inl rfl
  | destroy source => exact .inl rfl

/-! ## Ports -/

/-- The messages put into a port are those it has returned and those it holds. -/
def Queued (st : Network S C P M) : Prop :=
  ∀ p, (st.arrived.filter fun a => a.port = p).map (·.packet) = st.received p ++ st.messageq p

omit [DecidableEq S] [DecidableEq C] in
theorem queued_sendAfter (h : Queued st) (packet : Packet S C P M) (version : Nat) :
    Queued (st.sendAfter packet version) := by
  simp only [Network.sendAfter]
  split
  · exact h
  · rename_i p hp
    split
    · intro q
      show ((st.arrived ++ [_]).filter _).map _ =
        st.received q ++ Function.update st.messageq p (st.messageq p ++ [packet]) q
      rw [List.filter_append, List.map_append, h q]
      by_cases hq : q = p
      · subst hq
        simp
      · simp [hq, Ne.symm hq]
    · exact h

theorem queued_moved (h : Queued st) (hm : Moved st st') : Queued st' := by
  cases hm with
  | @fire t w rest hentries hle =>
    cases w with
    | sendAfter packet version =>
      have hpopped : Queued { st with timed := st.timed.pop, fired := t } := h
      exact queued_sendAfter hpopped packet version
    | sendDone source =>
      simp only [Network.wake]
      split <;> exact h
    | other => exact h
  | @receive p m q hq =>
    intro p'
    show _ = Function.update st.received p (st.received p ++ [m]) p' ++
      Function.update st.messageq p q p'
    by_cases hp : p' = p
    · subst hp
      rw [Function.update_self, Function.update_self, List.append_assoc, List.singleton_append,
        ← hq]
      exact h p'
    · rw [Function.update_of_ne hp, Function.update_of_ne hp]
      exact h p'
  | _ => exact h

variable {destination : C → Option P}

/-- What holds of every state of a run. -/
theorem reachable_timely (h : (network destination).Reachable st) : Timely st ∧ Queued st := by
  refine h.invariant (P := fun st => Timely st ∧ Queued st) (fun st hst => ?_)
    fun _ _ _ hs hstep => ⟨hs.1.moved (step_moved hstep), queued_moved hs.2 (step_moved hstep)⟩
  obtain rfl : st = start destination := hst
  exact ⟨.start destination, fun p => rfl⟩

/-- For every class of packets of one sender, the network is a link that keeps order. -/
theorem reachable_ordered (h : (network destination).Reachable st) {k : Packet S C P M → Bool}
    {owner : S} (hk : ∀ packet, k packet = true → packet.source = owner) :
    (link k st).Ordered := by
  refine @Transition.refine_invariant _ _ _ (network destination) (link k) Timely
    (fun l => l = ⟨[], [], []⟩) Link.Hop Link.Ordered (fun st hst => (reachable_timely hst).1)
    (fun st hst => ?_) (fun st a st' hs hstep => moved_link hs (step_moved hstep) hk) ?_
    (fun l l' ho hop => hop.ordered ho) st h
  · obtain rfl : st = start destination := hst
    rfl
  · rintro l rfl
    exact List.Sublist.refl []

/-- Two senders share a channel to the port `true`; the clock goes back twice to a timer that
the ticks have overtaken, and a message on the other channel is lost. -/
def sharedRun : List (Label Bool Bool Bool Nat) :=
  [.send false true 1 false, .tick 3, .send true true 9 false, .jump, .fire, .tick 3,
    .send false true 2 false, .jump, .fire, .jump, .fire, .jump, .fire, .jump, .fire,
    .send false true 3 false, .receive true, .send true false 7 true]

theorem sharedRun_isSome : ((network fun _ => some true).exec (start fun _ => some true)
    sharedRun).isSome = true := by
  decide +kernel

/-- The state `sharedRun` ends in. -/
def sharedState : Network Bool Bool Bool Nat :=
  ((network fun _ => some true).exec (start fun _ => some true) sharedRun).get sharedRun_isSome

end Delivery
end Netsim
end Psets
