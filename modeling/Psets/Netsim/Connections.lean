/-
Connections of a channel.

`send_after` remembers `destination_version_` and drops its message if the channel has been
connected or disconnected since.  Until the 32-bit version comes round, a message therefore
arrives at the port its channel was connected to when it was sent, or nowhere; and on a channel
that is left alone and loses nothing, everything arrives.
-/
import Psets.Netsim.Delivery

namespace Psets
namespace Netsim
namespace Delivery

open Containers (Deadlines)
open Containers.Deadlines (select)
open Transition (Link)

variable {S C P M : Type} [DecidableEq S] [DecidableEq C] [DecidableEq P]
variable {st st' : Network S C P M}

/-! ## Versions -/

/-- The channel of a packet is as it was when the packet was sent, if it was not moved. -/
def Remembers (st : Network S C P M) (packet : Packet S C P M) : Prop :=
  packet.moves ≤ st.moves packet.channel ∧
    (packet.moves = st.moves packet.channel →
      (st.channel packet.channel).destination = packet.destination)

/-- The versions count the connections, and the timers hold the version of their packet. -/
structure Versioned (st : Network S C P M) : Prop where
  version : ∀ c, (st.channel c).version = st.moves c % 2 ^ 32
  pending : ∀ x ∈ st.timed.entries, ∀ packet version, x.2 = .sendAfter packet version →
    version = packet.moves % 2 ^ 32 ∧ Remembers st packet
  arrived : ∀ a ∈ st.arrived, a.moves ≤ st.moves a.packet.channel ∧
    (a.moves < 2 ^ 32 → a.packet.moves = a.moves ∧ a.packet.destination = some a.port)

omit [DecidableEq S] [DecidableEq P] in
theorem remembers_connect {packet : Packet S C P M} (h : Remembers st packet) (c : C)
    (port : Option P) : Remembers (st.connect c port) packet := by
  obtain ⟨hle, hsame⟩ := h
  by_cases hc : packet.channel = c
  · have hmoves : (st.connect c port).moves packet.channel = st.moves packet.channel + 1 := by
      subst hc
      exact Function.update_self ..
    unfold Remembers
    rw [hmoves]
    exact ⟨by omega, fun he => by omega⟩
  · have hmoves : (st.connect c port).moves packet.channel = st.moves packet.channel :=
      Function.update_of_ne hc ..
    have hchannel : (st.connect c port).channel packet.channel = st.channel packet.channel :=
      Function.update_of_ne hc ..
    unfold Remembers
    rw [hmoves, hchannel]
    exact ⟨hle, hsame⟩

omit [DecidableEq S] [DecidableEq C] [DecidableEq P] in
/-- Steps that leave the channels alone and set no timer for a packet. -/
theorem Versioned.mono (h : Versioned st) (hchannel : st'.channel = st.channel)
    (hmoves : st'.moves = st.moves) (harrived : st'.arrived = st.arrived)
    (htimed : ∀ x ∈ st'.timed.entries, ∀ packet version, x.2 = .sendAfter packet version →
      x ∈ st.timed.entries) : Versioned st' where
  version c := by
    rw [hchannel, hmoves]
    exact h.version c
  pending x hx packet version hw := by
    unfold Remembers
    rw [hchannel, hmoves]
    exact h.pending x (htimed x hx packet version hw) packet version hw
  arrived a ha := by
    rw [harrived] at ha
    rw [hmoves]
    exact h.arrived a ha

omit [DecidableEq S] [DecidableEq P] in
theorem Versioned.connect (h : Versioned st) (c : C) (port : Option P) :
    Versioned (st.connect c port) where
  version c' := by
    by_cases hc : c' = c
    · subst hc
      show (Function.update st.channel c' _ c').version = Function.update st.moves c' _ c' % 2 ^ 32
      rw [Function.update_self, Function.update_self, h.version c', Nat.mod_add_mod]
    · show (Function.update st.channel c _ c').version = Function.update st.moves c _ c' % 2 ^ 32
      rw [Function.update_of_ne hc, Function.update_of_ne hc]
      exact h.version c'
  pending x hx packet version hw := by
    obtain ⟨hv, hr⟩ := h.pending x hx packet version hw
    exact ⟨hv, remembers_connect hr c port⟩
  arrived a ha := by
    obtain ⟨hle, hsame⟩ := h.arrived a ha
    refine ⟨Nat.le_trans hle ?_, hsame⟩
    show st.moves a.packet.channel ≤ Function.update st.moves c _ a.packet.channel
    by_cases hc : a.packet.channel = c
    · rw [hc, Function.update_self]
      exact Nat.le_succ _
    · exact Nat.le_of_eq (Function.update_of_ne hc _ _).symm

omit [DecidableEq S] [DecidableEq C] in
theorem sendAfter_channel (st : Network S C P M) (packet : Packet S C P M) (version : Nat) :
    (st.sendAfter packet version).channel = st.channel ∧
      (st.sendAfter packet version).moves = st.moves := by
  simp only [Network.sendAfter]
  split
  · exact ⟨rfl, rfl⟩
  · split <;> exact ⟨rfl, rfl⟩

omit [DecidableEq S] [DecidableEq C] in
/-- The channel is connected, and as the packet remembers it. -/
theorem sendAfter_arrives (st : Network S C P M) {packet : Packet S C P M} {version : Nat} {p : P}
    (hp : (st.channel packet.channel).destination = some p)
    (hv : version = (st.channel packet.channel).version) :
    (st.sendAfter packet version).arrived =
      st.arrived ++ [⟨p, st.moves packet.channel, packet⟩] := by
  unfold Network.sendAfter
  rw [hp]
  simp only [if_pos hv]

omit [DecidableEq C] in
/-- The rest of `send_after` compares the versions. -/
theorem Versioned.sendAfter (h : Versioned st) {packet : Packet S C P M} {version : Nat}
    (hv : version = packet.moves % 2 ^ 32) (hr : Remembers st packet) :
    Versioned (st.sendAfter packet version) := by
  obtain ⟨hchannel, hmoves⟩ := sendAfter_channel st packet version
  have htimed := (wake_timed st (.sendAfter packet version)).1
  rcases sendAfter_arrived st packet version with he | ⟨p, hp, hsame, he⟩
  · exact h.mono hchannel hmoves he fun x hx _ _ _ => by
      rw [← htimed]
      exact hx
  · refine ⟨fun c => by rw [hchannel, hmoves]; exact h.version c, fun x hx packet' version' hw => ?_,
      fun a ha => ?_⟩
    · have hx' : x ∈ st.timed.entries := by
        rw [← htimed]
        exact hx
      unfold Remembers
      rw [hchannel, hmoves]
      exact h.pending x hx' packet' version' hw
    · rw [he] at ha
      rw [hmoves]
      rcases List.mem_append.1 ha with ha | ha
      · exact h.arrived a ha
      · obtain rfl := List.mem_singleton.1 ha
        refine ⟨Nat.le_refl _, fun hlt => ?_⟩
        rw [hv, h.version] at hsame
        have hle := hr.1
        have hmv : packet.moves = st.moves packet.channel := by
          rw [Nat.mod_eq_of_lt hlt, Nat.mod_eq_of_lt (Nat.lt_of_le_of_lt hle hlt)] at hsame
          exact hsame
        exact ⟨hmv, (hr.2 hmv).symm.trans hp⟩

theorem Versioned.moved (h : Versioned st) (hm : Moved st st') : Versioned st' := by
  cases hm with
  | send source c message lost hidle =>
    refine ⟨h.version, fun x hx packet version hw => ?_, h.arrived⟩
    rcases Deadlines.mem_insert.1 hx with rfl | hx
    · cases hw
    · by_cases hgo : (st.channel c).destination.isSome ∧ lost = false
      · rw [if_pos hgo] at hx
        rcases Deadlines.mem_insert.1 hx with rfl | hx
        · obtain ⟨rfl, rfl⟩ := Wake.sendAfter.inj hw
          exact ⟨h.version c, Nat.le_refl _, fun _ => rfl⟩
        · exact h.pending x hx packet version hw
      · rw [if_neg hgo] at hx
        exact h.pending x hx packet version hw
  | @fire t w rest hentries hle =>
    have hpop : Versioned { st with timed := st.timed.pop, fired := t } :=
      h.mono rfl rfl rfl fun x hx _ _ _ => List.mem_of_mem_tail hx
    cases w with
    | sendAfter packet version =>
      have hhead : (t, .sendAfter packet version) ∈ st.timed.entries := by
        rw [hentries]
        exact List.mem_cons_self
      obtain ⟨hv, hr⟩ := h.pending _ hhead packet version rfl
      exact hpop.sendAfter hv hr
    | sendDone source =>
      simp only [Network.wake]
      split
      · exact hpop.mono rfl rfl rfl fun x hx _ _ _ => hx
      · exact hpop
    | other => exact hpop
  | jump hentries => exact h.mono rfl rfl rfl fun x hx _ _ _ => hx
  | tick n => exact h.mono rfl rfl rfl fun x hx _ _ _ => hx
  | after d =>
    refine h.mono rfl rfl rfl fun x hx packet version hw => ?_
    rcases Deadlines.mem_insert.1 hx with rfl | hx
    · cases hw
    · exact hx
  | cull hx hdead => exact h.mono rfl rfl rfl fun x hx _ _ _ => List.mem_of_mem_eraseIdx hx
  | connect c port => exact h.connect c port
  | receive hq => exact h.mono rfl rfl rfl fun x hx _ _ _ => hx
  | destroy source => exact h.mono rfl rfl rfl fun x hx _ _ _ => hx

variable {destination : C → Option P}

theorem reachable_versioned (h : (network destination).Reachable st) : Versioned st := by
  refine h.invariant (P := Versioned) (fun st hst => ?_)
    fun _ _ _ hs hstep => hs.moved (step_moved hstep)
  obtain rfl : st = start destination := hst
  exact {
    version := fun c => rfl
    pending := fun x hx _ _ _ => by cases hx
    arrived := fun a ha => by cases ha }

/-- A message that a port has returned or holds was sent while its channel was connected to
that port, and arrived before the channel was connected or disconnected again, as long as no
channel is moved 2^32 times. -/
theorem receives_current (h : (network destination).Reachable st)
    (hmoves : ∀ c, st.moves c < 2 ^ 32) (p : P) (packet : Packet S C P M)
    (hp : packet ∈ st.received p ++ st.messageq p) :
    packet.destination = some p ∧ ∃ a ∈ st.arrived, a.packet = packet ∧ a.port = p ∧
      a.moves = packet.moves := by
  rw [← (reachable_timely h).2 p] at hp
  obtain ⟨a, ha, rfl⟩ := List.mem_map.1 hp
  obtain ⟨ha, hport⟩ := List.mem_filter.1 ha
  have hport : a.port = p := by simpa using hport
  obtain ⟨hle, hsame⟩ := (reachable_versioned h).arrived a ha
  obtain ⟨hmv, hdest⟩ := hsame (Nat.lt_of_le_of_lt hle (hmoves _))
  exact ⟨hport ▸ hdest, a, ha, rfl, hport, hmv.symm⟩

/-- The first message arrives, the second is under way when the channel is moved to the port
`false` and is dropped, the third arrives there. -/
def movedRun : List (Label Bool Bool Bool Nat) :=
  [.send false true 1 false, .jump, .fire, .jump, .fire, .send false true 2 false,
    .disconnect true, .connect true false, .jump, .fire, .jump, .fire,
    .send false true 3 false, .jump, .fire, .jump, .fire]

theorem movedRun_isSome : ((network fun _ => some true).exec (start fun _ => some true)
    movedRun).isSome = true := by
  decide +kernel

/-- The state `movedRun` ends in. -/
def movedState : Network Bool Bool Bool Nat :=
  ((network fun _ => some true).exec (start fun _ => some true) movedRun).get movedRun_isSome

theorem receives_current_movedState :
    movedState.messageq false = [⟨false, true, 3, some false, 2⟩] ∧
    (movedState.arrived.map fun a => (a.port, a.packet.message)) = [(true, 1), (false, 3)] ∧
    ∀ packet ∈ movedState.received false ++ movedState.messageq false,
      packet.destination = some false ∧ ∃ a ∈ movedState.arrived, a.packet = packet ∧
        a.port = false ∧ a.moves = packet.moves :=
  ⟨by decide +kernel, by decide +kernel, receives_current (.of_get rfl movedRun_isSome)
    (by decide +kernel) false⟩

/-! ## A channel that is left alone -/

/-- The step neither loses a message on the channel nor moves it. -/
def Reliable (c : C) (_ : Network S C P M) : Label S C P M → Prop
  | .send _ c' _ lost => c' = c → lost = false
  | .connect c' _ => c' ≠ c
  | .disconnect c' => c' ≠ c
  | _ => True

instance (c : C) (st : Network S C P M) : (a : Label S C P M) → Decidable (Reliable c st a)
  | .send _ c' _ lost => inferInstanceAs (Decidable (c' = c → lost = false))
  | .connect c' _ | .disconnect c' => inferInstanceAs (Decidable (c' ≠ c))
  | .fire | .jump | .tick _ | .after _ | .cull _ | .receive _ | .destroy _ => .isTrue trivial

/-- The packets that `source` sends on `c`. -/
def onChannel (source : S) (c : C) (packet : Packet S C P M) : Bool :=
  packet.source = source && packet.channel = c

/-- The channel is as it was constructed, and nothing on it was lost. -/
structure Steady (c : C) (p : P) (st : Network S C P M) : Prop where
  channel : st.channel c = { destination := some p }
  pending : ∀ x ∈ st.timed.entries, ∀ packet version, x.2 = .sendAfter packet version →
    packet.channel = c → version = 0
  arrived : ∀ a ∈ st.arrived, a.packet.channel = c → a.port = p
  complete : ∀ source, (link (onChannel source c) st).Complete

omit [DecidableEq P] in
theorem source_of_onChannel {source : S} {c : C} {packet : Packet S C P M}
    (h : onChannel source c packet = true) : packet.source = source ∧ packet.channel = c := by
  simpa [onChannel] using h

omit [DecidableEq P] in
/-- Steps that leave the channel, its packets and the arrivals alone. -/
theorem Steady.mono {c : C} {p : P} (h : Steady c p st) (hchannel : st'.channel c = st.channel c)
    (htimed : ∀ x ∈ st'.timed.entries, ∀ packet version, x.2 = .sendAfter packet version →
      x ∈ st.timed.entries) (harrived : st'.arrived = st.arrived)
    (hlink : ∀ source, link (onChannel source c) st' = link (onChannel source c) st) :
    Steady c p st' where
  channel := hchannel.trans h.channel
  pending x hx packet version hw hc := h.pending x (htimed x hx packet version hw) packet version hw hc
  arrived a ha := by
    rw [harrived] at ha
    exact h.arrived a ha
  complete source := by
    rw [hlink source]
    exact h.complete source

omit [DecidableEq P] in
theorem Steady.send {c : C} {p : P} (h : Steady c p st) (ht : Timely st) {source : S}
    (hidle : st.sender source = .idle) {c' : C} {message : M} {lost : Bool}
    (hok : c' = c → lost = false) : Steady c p (st.send source c' message lost) where
  channel := h.channel
  pending x hx packet version hw hc := by
    rcases Deadlines.mem_insert.1 hx with rfl | hx
    · cases hw
    · by_cases hgo : (st.channel c').destination.isSome ∧ lost = false
      · rw [if_pos hgo] at hx
        rcases Deadlines.mem_insert.1 hx with rfl | hx
        · obtain ⟨rfl, rfl⟩ := Wake.sendAfter.inj hw
          obtain rfl : c' = c := hc
          rw [h.channel]
        · exact h.pending x hx packet version hw hc
      · rw [if_neg hgo] at hx
        exact h.pending x hx packet version hw hc
  arrived := h.arrived
  complete source' := by
    by_cases hp : onChannel source' c
        (⟨source, c', message, (st.channel c').destination, st.moves c'⟩ : Packet S C P M) = true
    · obtain rfl : c' = c := (source_of_onChannel hp).2
      have hgo : (st.channel c').destination.isSome ∧ lost = false := by
        rw [h.channel]
        exact ⟨rfl, hok rfl⟩
      rw [link_send_go ht (fun packet hk => (source_of_onChannel hk).1) hidle hp hgo]
      exact (h.complete source').send _
    · rw [link_send_none hp]
      exact h.complete source'

theorem Steady.fire {c : C} {p : P} (h : Steady c p st) {t : Nat} {w : Wake S C P M}
    {rest : List (Nat × Wake S C P M)} (hentries : st.timed.entries = (t, w) :: rest) :
    Steady c p ({ st with timed := st.timed.pop, fired := t }.wake w) := by
  have hpop : ∀ x ∈ st.timed.pop.entries, x ∈ st.timed.entries := fun x hx =>
    List.mem_of_mem_tail hx
  cases w with
  | sendAfter packet version =>
    have hhead : (t, .sendAfter packet version) ∈ st.timed.entries := by
      rw [hentries]
      exact List.mem_cons_self
    obtain ⟨htimed, _, _, _⟩ := wake_timed { st with timed := st.timed.pop, fired := t }
      (.sendAfter packet version)
    have hchannel := (sendAfter_channel { st with timed := st.timed.pop, fired := t }
      packet version).1
    have hkept : ∀ x ∈ (Network.sendAfter { st with timed := st.timed.pop, fired := t } packet
        version).timed.entries, x ∈ st.timed.entries := by
      intro x hx
      rw [show (Network.sendAfter _ packet version).timed = st.timed.pop from htimed] at hx
      exact hpop x hx
    show Steady c p (Network.sendAfter _ packet version)
    by_cases hc : packet.channel = c
    · have hv : version = 0 := h.pending _ hhead packet version rfl hc
      have hdest : (st.channel packet.channel).destination = some p := by rw [hc, h.channel]
      have hsame : version = (st.channel packet.channel).version := by rw [hc, h.channel, hv]
      have he := sendAfter_arrives { st with timed := st.timed.pop, fired := t } hdest hsame
      refine ⟨(congrFun hchannel c).trans h.channel, fun x hx packet' version' hw hc' => ?_,
        fun a ha hc' => ?_, fun source => ?_⟩
      · exact h.pending x (hkept x hx) packet' version' hw hc'
      · rw [he] at ha
        rcases List.mem_append.1 ha with ha | ha
        · exact h.arrived a ha hc'
        · rw [List.mem_singleton.1 ha]
      · by_cases hk : onChannel source c packet = true
        · rw [link_fire_arrive hentries hk he]
          exact (h.complete source).arrive (link_underway_cons hentries hk)
        · have hlink := link_fire_none hentries (underway_neg hk version)
          rw [show link _ (Network.sendAfter _ packet version) = _ from hlink]
          exact h.complete source
    · have hk : ∀ source, ¬ onChannel source c packet = true := fun source hk =>
        hc (source_of_onChannel hk).2
      refine ⟨(congrFun hchannel c).trans h.channel, fun x hx packet' version' hw hc' => ?_,
        fun a ha hc' => ?_, fun source => ?_⟩
      · exact h.pending x (hkept x hx) packet' version' hw hc'
      · rcases sendAfter_arrived { st with timed := st.timed.pop, fired := t } packet
          version with he | ⟨q, _, _, he⟩
        · exact h.arrived a (he ▸ ha) hc'
        · rw [he] at ha
          rcases List.mem_append.1 ha with ha | ha
          · exact h.arrived a ha hc'
          · rw [List.mem_singleton.1 ha] at hc'
            exact absurd hc' hc
      · have hlink := link_fire_none hentries (underway_neg (hk source) version)
        rw [show link _ (Network.sendAfter _ packet version) = _ from hlink]
        exact h.complete source
  | sendDone source =>
    have hstep : Steady c p { st with timed := st.timed.pop, fired := t } := by
      refine h.mono rfl (fun x hx _ _ _ => hpop x hx) rfl fun source' => ?_
      refine link_congr rfl ?_ rfl
      show select _ st.timed.entries.tail = _
      rw [hentries, Containers.Deadlines.select_cons]
      rfl
    simp only [Network.wake]
    split
    · exact hstep.mono rfl (fun x hx _ _ _ => hx) rfl fun source' => rfl
    · exact hstep
  | other =>
    refine h.mono rfl (fun x hx _ _ _ => hpop x hx) rfl fun source' => ?_
    refine link_congr rfl ?_ rfl
    show select _ st.timed.entries.tail = _
    rw [hentries, Containers.Deadlines.select_cons]
    rfl

theorem step_steady {c : C} {p : P} (h : Steady c p st) (ht : Timely st) {a : Label S C P M}
    (hok : Reliable c st a) (hstep : st.step a = some st') : Steady c p st' := by
  cases a with
  | send source c' message lost =>
    simp only [Network.step] at hstep
    split at hstep
    · rename_i hidle
      obtain rfl := Option.some.inj hstep
      exact h.send ht hidle hok
    · cases hstep
  | fire =>
    simp only [Network.step] at hstep
    split at hstep
    · cases hstep
    · rename_i t w rest hentries
      split at hstep
      · obtain rfl := Option.some.inj hstep
        exact h.fire hentries
      · cases hstep
  | connect c' port =>
    obtain rfl := Option.some.inj hstep
    exact h.mono (Function.update_of_ne (Ne.symm hok) ..) (fun x hx _ _ _ => hx) rfl fun _ => rfl
  | disconnect c' =>
    obtain rfl := Option.some.inj hstep
    exact h.mono (Function.update_of_ne (Ne.symm hok) ..) (fun x hx _ _ _ => hx) rfl fun _ => rfl
  | jump =>
    obtain ⟨x, hx, rfl⟩ := Option.map_eq_some_iff.1 hstep
    exact h.mono rfl (fun x hx _ _ _ => hx) rfl fun _ => rfl
  | tick n =>
    obtain rfl := Option.some.inj hstep
    exact h.mono rfl (fun x hx _ _ _ => hx) rfl fun _ => rfl
  | after d =>
    obtain rfl := Option.some.inj hstep
    refine h.mono rfl (fun x hx packet version hw => ?_) rfl fun _ =>
      link_congr rfl (Containers.Deadlines.select_place_none rfl _) rfl
    rcases Deadlines.mem_insert.1 hx with rfl | hx
    · cases hw
    · exact hx
  | cull pos =>
    simp only [Network.step] at hstep
    split at hstep
    · rename_i x hx
      split at hstep
      · rename_i hdead
        obtain rfl := Option.some.inj hstep
        exact h.mono rfl (fun y hy _ _ _ => List.mem_of_mem_eraseIdx hy) rfl fun _ =>
          link_congr rfl (select_cull hx hdead) rfl
      · cases hstep
    · cases hstep
  | receive p' =>
    simp only [Network.step] at hstep
    split at hstep
    · cases hstep
    · obtain rfl := Option.some.inj hstep
      exact h.mono rfl (fun x hx _ _ _ => hx) rfl fun _ => rfl
  | destroy source =>
    obtain rfl := Option.some.inj hstep
    exact h.mono rfl (fun x hx _ _ _ => hx) rfl fun _ => rfl

theorem sharedState_reliable : (network fun _ => some true).ReachableBy (Reliable true)
    sharedState :=
  .of_exec (.init rfl) (by decide +kernel : (network fun _ => some true).Within (Reliable true)
    (start fun _ => some true) sharedRun) (Option.some_get sharedRun_isSome).symm

end Delivery
end Netsim
end Psets
