/-
A stubborn server stays with its color.

`Turn` lists what one piece of a server's coroutine can do.  With the history of the
messages sent it gives that a round has one leader, which proposes one color, and that
whoever acknowledges the round has been given that proposal.
-/
import Psets.Ctstubborn.Server

namespace Psets
namespace Ctstubborn

open Transition
open Ctconsensus (MessageType Message Address leader prepareMessage proposeMessage ackMessage
  decideMessage)

variable {N : Nat} [NeZero N]

/-! ## One piece of a server -/

/-- The server is past the point of its round from which on it sends PROPOSE. -/
def Pc.proposed : Pc → Bool
  | .top | .sentPrepare | .receivePrepare _ => false
  | _ => true

namespace Server

/-- What the position of the coroutine says about the server. -/
def Ok (id : Fin N) (s : Server) : Prop :=
  match s.pc with
  | .receivePrepare _ => id = leader s.round
  | .sendPropose propose _ => id = leader s.round ∧ propose = proposeMessage s.round s.color
  | .sendDecide decide _ => decide = decideMessage s.color
  | _ => True

/-- The round goes on, with the color of a stubborn server. -/
structure Kept (s s' : Server) : Prop where
  round : s'.round = s.round
  stubborn : s'.stubborn = s.stubborn
  color : s.stubborn = true → s'.color = s.color
  messageq : ∀ m ∈ s'.messageq, m ∈ s.messageq

theorem Kept.refl (s : Server) : Kept s s := ⟨rfl, rfl, fun _ => rfl, fun _ h => h⟩

theorem Kept.trans {s s' s'' : Server} (h : Kept s s') (h' : Kept s' s'') : Kept s s'' :=
  ⟨h'.round.trans h.round, h'.stubborn.trans h.stubborn,
    fun hs => (h'.color (h.stubborn.trans hs)).trans (h.color hs),
    fun m hm => h.messageq m (h'.messageq m hm)⟩

theorem Kept.goto {s s' : Server} (h : s.Kept s') (pc : Pc) : s.Kept { s' with pc } :=
  ⟨h.round, h.stubborn, h.color, h.messageq⟩

/-- What a stubborn server does not refuse has its color. -/
theorem color_of_accepted {s : Server} {m : Message} (h : ¬ s.refuses m)
    (hs : s.stubborn = true) : m.color = s.color := by
  by_contra hne
  exact h ⟨hs, hne⟩

/-- A message that `receive` returns is made up after a decision, or was in the port. -/
theorem receive_spec {s s' : Server} {mt : MessageType} {r : Option Message}
    (h : s.receive mt = some (s', r)) :
    s.Kept s' ∧ s'.pc = s.pc ∧ ∀ m, r = some m → s'.decided = true ∨
      m ∈ s.messageq ∧ m.type = mt ∧ m.round = s.round ∧ s'.color = s.color := by
  unfold receive at h
  split at h
  · rename_i hdec
    obtain ⟨rfl, rfl⟩ := Prod.mk.inj (Option.some.inj h)
    exact ⟨.refl s, rfl, fun m _ => .inl hdec⟩
  · split at h
    · cases h
    · rename_i m q hq
      have hkept : s.Kept { s with messageq := q } :=
        ⟨rfl, rfl, fun _ => rfl, fun m' hm' => by rw [hq]; exact List.mem_cons_of_mem m hm'⟩
      have hmem : m ∈ s.messageq := by
        rw [hq]
        exact List.mem_cons_self
      simp only [] at h
      split at h
      · split at h
        · obtain ⟨rfl, rfl⟩ := Prod.mk.inj (Option.some.inj h)
          exact ⟨hkept, rfl, nofun⟩
        · rename_i haccept
          obtain ⟨rfl, rfl⟩ := Prod.mk.inj (Option.some.inj h)
          refine ⟨⟨rfl, rfl, fun hs => ?_, hkept.messageq⟩, rfl, fun m' _ => .inl rfl⟩
          exact color_of_accepted haccept hs
      · split at h
        · obtain ⟨rfl, rfl⟩ := Prod.mk.inj (Option.some.inj h)
          exact ⟨hkept, rfl, nofun⟩
        · rename_i hwanted
          rw [not_or, not_not, not_not] at hwanted
          obtain ⟨rfl, rfl⟩ := Prod.mk.inj (Option.some.inj h)
          refine ⟨hkept, rfl, fun m' hm' => .inr ?_⟩
          obtain rfl := Option.some.inj hm'
          exact ⟨hmem, hwanted.1, hwanted.2, rfl⟩

theorem collect_kept (s : Server) (m : Message) :
    s.Kept (collect s m) ∧ (collect s m).pc = s.pc := by
  unfold collect
  split
  · exact ⟨.refl s, rfl⟩
  · rename_i haccept
    split
    · exact ⟨⟨rfl, rfl, fun hs => color_of_accepted haccept hs, fun _ h => h⟩, rfl⟩
    · exact ⟨.refl s, rfl⟩

end Server

open Server

/-- What a piece of server `id` does. -/
inductive Turn (id : Fin N) (s : Server) : Server → List (Address N × Message) → Prop where
  | quiet {s' : Server} : s.Kept s' → (s.Ok id → s'.Ok id) →
      (s.pc.proposed = true → s'.pc.proposed = true ∧ ∀ p j, s'.pc ≠ .sendPropose p j) →
      Turn id s s' []
  | prepare : s.pc = .top →
      Turn id s { s with pc := .sentPrepare }
        [(.server (leader s.round), prepareMessage s.round s.color s.colorRound)]
  | propose {p : Message} {j : Nat} (h : j < N) : s.pc = .sendPropose p j →
      Turn id s { s with pc := .sendPropose p (j + 1) } [(.server ⟨j, h⟩, p)]
  | ack {s' : Server} {b : Bool} {round : Nat} : s.Kept s' → s'.pc = .sentAck →
      round = s.round →
      (b = true → ∃ m ∈ s.messageq, m.type = .propose ∧ m.round = s.round ∧ ¬ s.refuses m) →
      Turn id s s' [(.server (leader round), ackMessage round b)]
  | decide {d : Message} {j : Nat} {pc : Pc} (a : Address N) : s.pc = .sendDecide d j →
      pc = .sendDecide d (j + 1) ∨ pc = .done → Turn id s { s with pc } [(a, d)]
  | advance : s.pc.proposed = true → Turn id s { s with round := s.round + 1, pc := .top } []

/-- A piece that goes to a position of which nothing is known. -/
theorem turn_quiet {id : Fin N} {s s' : Server} (hkept : s.Kept s')
    (hpc : s'.pc = .exit ∨ s'.pc = .receivePropose ∨ (∃ i k, s'.pc = .receiveAck i k) ∨
      s'.pc = .done) : Turn id s s' [] := by
  refine .quiet hkept (fun _ => ?_) fun _ => ?_
  · unfold Server.Ok
    rcases hpc with h | h | ⟨i, k, h⟩ | h <;> rw [h] <;> trivial
  · rcases hpc with h | h | ⟨i, k, h⟩ | h <;> rw [h] <;> exact ⟨rfl, nofun⟩

theorem phase4_turn {id : Fin N} {s₀ s : Server} {mp : Option Message} (hkept : s₀.Kept s)
    (hmp : ∀ m, mp = some m → s.decided = true ∨
      m ∈ s₀.messageq ∧ m.type = .propose ∧ m.round = s₀.round ∧ s.color = s₀.color) :
    Turn id s₀ (phase4 (N := N) s mp).1 (phase4 s mp).2 := by
  unfold phase4
  simp only []
  split
  · exact turn_quiet (hkept.goto _) (.inl rfl)
  · rename_i hdec
    split
    · rename_i m hm
      rw [Option.filter_eq_some_iff] at hm
      have haccept : ¬ s.refuses m := by simpa using hm.2
      rcases hmp m hm.1 with hd | ⟨hmem, htype, hround, hcolor⟩
      · exact absurd hd hdec
      · have haccept₀ : ¬ s₀.refuses m := by
          rintro ⟨hs, hne⟩
          exact haccept ⟨hkept.stubborn.trans hs, hcolor.symm ▸ hne⟩
        refine .ack ⟨hkept.round, hkept.stubborn, fun hs => ?_, hkept.messageq⟩ rfl hkept.round
          fun _ => ⟨m, hmem, htype, hround, haccept₀⟩
        exact color_of_accepted haccept₀ hs
    · exact .ack (hkept.goto _) rfl hkept.round nofun

/-- A wait that goes on. -/
theorem turn_wait {id : Fin N} {s s' : Server} (hkept : s.Kept s') (hpc : s'.pc = s.pc)
    (hwait : (∃ i, s.pc = .receivePrepare i) ∨ s.pc = .receivePropose ∨
      ∃ i k, s.pc = .receiveAck i k) : Turn id s s' [] := by
  rcases hwait with ⟨i, h⟩ | h | ⟨i, k, h⟩
  · refine .quiet hkept (fun hok => ?_) fun hp => ?_
    · unfold Server.Ok at hok ⊢
      rw [h] at hok
      rw [hpc, h, hkept.round]
      exact hok
    · rw [h] at hp
      cases hp
  · exact turn_quiet hkept (.inr (.inl (hpc.trans h)))
  · exact turn_quiet hkept (.inr (.inr (.inl ⟨i, k, hpc.trans h⟩)))

/-! ## The positions of the coroutine -/

section

variable {id : Fin N} {s s' : Server} {out : List (Address N × Message)}

theorem top_turn (h : consensus id s = some (s', out)) (hpc : s.pc = .top) :
    Turn id s s' out := by
  unfold consensus at h
  simp only [hpc] at h
  split at h
  · obtain ⟨rfl, rfl⟩ := Prod.mk.inj (Option.some.inj h)
    exact turn_quiet (.goto (.refl s) _) (.inl rfl)
  · obtain ⟨rfl, rfl⟩ := Prod.mk.inj (Option.some.inj h)
    exact .prepare hpc

theorem sentPrepare_turn (h : consensus id s = some (s', out)) (hpc : s.pc = .sentPrepare) :
    Turn id s s' out := by
  unfold consensus at h
  simp only [hpc] at h
  split at h
  · rename_i hlead
    obtain ⟨rfl, rfl⟩ := Prod.mk.inj (Option.some.inj h)
    refine .quiet (.goto (.refl s) _) (fun _ => hlead) fun hp => ?_
    rw [hpc] at hp
    cases hp
  · obtain ⟨rfl, rfl⟩ := Prod.mk.inj (Option.some.inj h)
    exact turn_quiet (.goto (.refl s) _) (.inr (.inl rfl))

/-- The leader counts a PREPARE, and may take its color. -/
theorem collect_turn {u : Server} {m : Message} {received : Nat} (hkept : s.Kept u)
    (hpc : s.pc = .receivePrepare received) :
    Turn id s (collect { u with pc := .receivePrepare (received + 1) } m) [] := by
  rcases collect_kept { u with pc := .receivePrepare (received + 1) } m with ⟨hcol, hcolpc⟩
  have hall := (hkept.goto (.receivePrepare (received + 1))).trans hcol
  refine .quiet hall (fun hok => ?_) fun hp => ?_
  · unfold Server.Ok at hok ⊢
    rw [hpc] at hok
    rw [hcolpc, hall.round]
    exact hok
  · rw [hpc] at hp
    cases hp

theorem receivePrepare_turn {received : Nat} (h : consensus id s = some (s', out))
    (hpc : s.pc = .receivePrepare received) : Turn id s s' out := by
  unfold consensus at h
  simp only [hpc] at h
  split at h
  · split at h
    · cases h
    · rename_i u hrec
      obtain ⟨rfl, rfl⟩ := Prod.mk.inj (Option.some.inj h)
      rcases receive_spec hrec with ⟨hkept, hsame, _⟩
      exact turn_wait hkept hsame (.inl ⟨received, hpc⟩)
    · rename_i u m hrec
      obtain ⟨rfl, rfl⟩ := Prod.mk.inj (Option.some.inj h)
      exact collect_turn (receive_spec hrec).1 hpc
  · split at h
    · obtain ⟨rfl, rfl⟩ := Prod.mk.inj (Option.some.inj h)
      exact turn_quiet (.goto (.refl s) _) (.inl rfl)
    · -- the proposal is made of the color that the leader has now
      obtain ⟨rfl, rfl⟩ := Prod.mk.inj (Option.some.inj h)
      refine .quiet (.goto (.refl s) _) (fun hok => ?_) fun hp => ?_
      · unfold Server.Ok at hok
        rw [hpc] at hok
        exact ⟨hok, rfl⟩
      · rw [hpc] at hp
        cases hp

theorem sendPropose_turn {p : Message} {j : Nat} (h : consensus id s = some (s', out))
    (hpc : s.pc = .sendPropose p j) : Turn id s s' out := by
  unfold consensus at h
  simp only [hpc] at h
  split at h
  · rename_i hj
    obtain ⟨rfl, rfl⟩ := Prod.mk.inj (Option.some.inj h)
    exact .propose hj hpc
  · obtain ⟨rfl, rfl⟩ := Prod.mk.inj (Option.some.inj h)
    exact turn_quiet (.goto (.refl s) _) (.inr (.inl rfl))

theorem receivePropose_turn (h : consensus id s = some (s', out))
    (hpc : s.pc = .receivePropose) : Turn id s s' out := by
  unfold consensus at h
  simp only [hpc] at h
  split at h
  · cases h
  · rename_i u hrec
    obtain ⟨rfl, rfl⟩ := Prod.mk.inj (Option.some.inj h)
    rcases receive_spec hrec with ⟨hkept, hsame, _⟩
    exact turn_wait hkept hsame (.inr (.inl hpc))
  · rename_i u m hrec
    rcases receive_spec hrec with ⟨hkept, _, hm⟩
    have hturn : Turn id s (phase4 (N := N) u (some m)).1 (phase4 u (some m)).2 :=
      phase4_turn hkept fun m' hm' => hm m' hm'
    rwa [Option.some.inj h] at hturn

theorem sentAck_turn (h : consensus id s = some (s', out)) (hpc : s.pc = .sentAck) :
    Turn id s s' out := by
  unfold consensus at h
  simp only [hpc] at h
  split at h
  · obtain ⟨rfl, rfl⟩ := Prod.mk.inj (Option.some.inj h)
    exact turn_quiet (.goto (.refl s) _) (.inr (.inr (.inl ⟨0, 0, rfl⟩)))
  · obtain ⟨rfl, rfl⟩ := Prod.mk.inj (Option.some.inj h)
    exact .advance (by rw [hpc]; rfl)

theorem receiveAck_turn {success total : Nat} (h : consensus id s = some (s', out))
    (hpc : s.pc = .receiveAck success total) : Turn id s s' out := by
  unfold consensus at h
  simp only [hpc] at h
  split at h
  · split at h
    · cases h
    · rename_i u hrec
      obtain ⟨rfl, rfl⟩ := Prod.mk.inj (Option.some.inj h)
      rcases receive_spec hrec with ⟨hkept, hsame, _⟩
      exact turn_wait hkept hsame (.inr (.inr ⟨success, total, hpc⟩))
    · rename_i u m hrec
      obtain ⟨rfl, rfl⟩ := Prod.mk.inj (Option.some.inj h)
      rcases receive_spec hrec with ⟨hkept, _, _⟩
      exact turn_quiet (hkept.goto _) (.inr (.inr (.inl ⟨_, _, rfl⟩)))
  · split at h
    · obtain ⟨rfl, rfl⟩ := Prod.mk.inj (Option.some.inj h)
      exact turn_quiet (.goto (.refl s) _) (.inl rfl)
    · split at h
      · obtain ⟨rfl, rfl⟩ := Prod.mk.inj (Option.some.inj h)
        exact turn_quiet ⟨rfl, rfl, fun _ => rfl, fun _ hm => hm⟩ (.inl rfl)
      · obtain ⟨rfl, rfl⟩ := Prod.mk.inj (Option.some.inj h)
        exact .advance (by rw [hpc]; rfl)

theorem sendDecide_turn {d : Message} {j : Nat} (h : consensus id s = some (s', out))
    (hpc : s.pc = .sendDecide d j) : Turn id s s' out := by
  unfold consensus at h
  simp only [hpc] at h
  split at h
  · split at h
    · obtain ⟨rfl, rfl⟩ := Prod.mk.inj (Option.some.inj h)
      exact .decide _ hpc (.inl rfl)
    · -- a server sends no DECIDE to itself
      obtain ⟨rfl, rfl⟩ := Prod.mk.inj (Option.some.inj h)
      refine .quiet (.goto (.refl s) _) (fun hok => ?_) fun _ => ⟨rfl, nofun⟩
      unfold Server.Ok at hok
      rw [hpc] at hok
      exact hok
  · obtain ⟨rfl, rfl⟩ := Prod.mk.inj (Option.some.inj h)
    exact .decide _ hpc (.inr rfl)

theorem consensus_turn (h : consensus id s = some (s', out)) : Turn id s s' out := by
  cases hpc : s.pc with
  | top => exact top_turn h hpc
  | sentPrepare => exact sentPrepare_turn h hpc
  | receivePrepare received => exact receivePrepare_turn h hpc
  | sendPropose p j => exact sendPropose_turn h hpc
  | receivePropose => exact receivePropose_turn h hpc
  | sentAck => exact sentAck_turn h hpc
  | receiveAck success total => exact receiveAck_turn h hpc
  | exit =>
    unfold consensus at h
    simp only [hpc] at h
    obtain ⟨rfl, rfl⟩ := Prod.mk.inj (Option.some.inj h)
    exact .quiet (.goto (.refl s) _) (fun _ => rfl) fun _ => ⟨rfl, nofun⟩
  | sendDecide d j => exact sendDecide_turn h hpc
  | done =>
    unfold consensus at h
    simp only [hpc] at h
    cases h

end

theorem failureDetector_turn {id : Fin N} {s s' : Server} {out : List (Address N × Message)}
    (h : failureDetector s = some (s', out)) : Turn id s s' out := by
  unfold failureDetector at h
  split at h
  · have hturn : Turn id s (phase4 (N := N) s none).1 (phase4 s none).2 :=
      phase4_turn (.refl s) nofun
    rwa [Option.some.inj h] at hturn
  · cases h

theorem Turn.ok {id : Fin N} {s s' : Server} {out : List (Address N × Message)}
    (h : Turn id s s' out) (hok : s.Ok id) : s'.Ok id := by
  cases h with
  | quiet hkept hnew hp => exact hnew hok
  | prepare hpc => trivial
  | propose hj hpc =>
    unfold Server.Ok at hok
    rw [hpc] at hok
    exact hok
  | ack hkept hpc hround hb =>
    unfold Server.Ok
    rw [hpc]
    trivial
  | decide a hpc hpc' =>
    unfold Server.Ok at hok
    rw [hpc] at hok
    rcases hpc' with rfl | rfl
    · exact hok
    · trivial
  | advance hp => trivial

theorem Turn.stubborn {id : Fin N} {s s' : Server} {out : List (Address N × Message)}
    (h : Turn id s s' out) :
    s'.stubborn = s.stubborn ∧ (s.stubborn = true → s'.color = s.color) ∧
      ∀ m ∈ s'.messageq, m ∈ s.messageq := by
  cases h with
  | quiet hkept hnew hp => exact ⟨hkept.stubborn, hkept.color, hkept.messageq⟩
  | prepare hpc => exact ⟨rfl, fun _ => rfl, fun _ h => h⟩
  | propose hj hpc => exact ⟨rfl, fun _ => rfl, fun _ h => h⟩
  | ack hkept hpc hround hb => exact ⟨hkept.stubborn, hkept.color, hkept.messageq⟩
  | decide a hpc hpc' => exact ⟨rfl, fun _ => rfl, fun _ h => h⟩
  | advance hp => exact ⟨rfl, fun _ => rfl, fun _ h => h⟩

/-! ## The servers and what they have sent -/

/-- Every message on its way, or in a port, was sent. -/
structure Delivered (st : State N) : Prop where
  flight : ∀ a m, (a, m) ∈ st.inFlight → ∃ src, (src, m) ∈ st.sent
  port : ∀ id, ∀ m ∈ (st.server id).messageq, ∃ src, (src, m) ∈ st.sent

/-- A PROPOSE comes from the leader of its round, which has not gone back behind it. -/
structure Led (st : State N) (src : Fin N) (p : Message) : Prop where
  leader : src = leader p.round
  round : p.round ≤ (st.server src).round
  current : p.round = (st.server src).round →
    (st.server src).pc.proposed = true ∧ ∀ q j, (st.server src).pc = .sendPropose q j → p = q

/-- What the messages sent say about the servers. -/
structure History (color : Fin N → String) (stubborn : Fin N → Bool) (st : State N) : Prop where
  led : ∀ src p, (src, p) ∈ st.sent → p.type = .propose → Led st src p
  unique : ∀ src src' p p', (src, p) ∈ st.sent → (src', p') ∈ st.sent → p.type = .propose →
    p'.type = .propose → p.round = p'.round → p.color = p'.color
  carries : ∀ id m, stubborn id = true → (id, m) ∈ st.sent → m.type ≠ .ack → m.color = color id
  acks : ∀ id m, stubborn id = true → (id, m) ∈ st.sent → m.type = .ack → m.ack = true →
    ∃ src p, (src, p) ∈ st.sent ∧ p.type = .propose ∧ p.round = m.round ∧ p.color = color id

structure Inv (color : Fin N → String) (stubborn : Fin N → Bool) (st : State N) : Prop where
  ok : ∀ id, (st.server id).Ok id
  flag : ∀ id, (st.server id).stubborn = stubborn id
  keeps : ∀ id, stubborn id = true → (st.server id).color = color id
  delivered : Delivered st
  history : History color stubborn st

variable {color : Fin N → String} {stubborn : Fin N → Bool} {st : State N}

omit [NeZero N] in
theorem mem_put_sent {id : Fin N} {s : Server} {out : List (Address N × Message)} {src : Fin N}
    {m : Message} : (src, m) ∈ (st.put id s out).sent ↔
      (src, m) ∈ st.sent ∨ src = id ∧ ∃ a, (a, m) ∈ out := by
  simp only [State.put, List.mem_append, List.mem_map, Prod.exists, Prod.mk.injEq]
  constructor
  · rintro (h | ⟨a, m', hm, rfl, rfl⟩)
    · exact .inl h
    · exact .inr ⟨rfl, a, hm⟩
  · rintro (h | ⟨rfl, a, hm⟩)
    · exact .inl h
    · exact .inr ⟨a, m, hm, rfl, rfl⟩

omit [NeZero N] in
/-- What holds of the new server and of the old ones holds of all. -/
theorem forall_put {P : Fin N → Server → Prop} {id : Fin N} {s : Server}
    {out : List (Address N × Message)} (hnew : P id s) (hold : ∀ j, P j (st.server j)) (j : Fin N) :
    P j ((st.put id s out).server j) := by
  by_cases hj : j = id
  · subst hj
    show P j (Function.update st.server j s j)
    rwa [Function.update_self]
  · show P j (Function.update st.server id s j)
    rw [Function.update_of_ne hj]
    exact hold j

omit [NeZero N] in
theorem Delivered.put (hd : Delivered st) {id : Fin N} {s : Server}
    {out : List (Address N × Message)} (hq : ∀ m ∈ s.messageq, m ∈ (st.server id).messageq) :
    Delivered (st.put id s out) where
  flight a m hm := by
    rcases List.mem_append.1 hm with hm | hm
    · rcases hd.flight a m hm with ⟨src, hsrc⟩
      exact ⟨src, mem_put_sent.2 (.inl hsrc)⟩
    · exact ⟨id, mem_put_sent.2 (.inr ⟨rfl, a, hm⟩)⟩
  port j m hm := by
    have hold : m ∈ (st.server j).messageq :=
      forall_put (P := fun j s => m ∈ s.messageq → m ∈ (st.server j).messageq) (hq m)
        (fun _ h => h) j hm
    rcases hd.port j m hold with ⟨src, hsrc⟩
    exact ⟨src, mem_put_sent.2 (.inl hsrc)⟩

/-- A server that sends no PROPOSE does not come before one it has sent. -/
theorem Turn.led {id : Fin N} {s : Server} {out : List (Address N × Message)}
    (h : Turn id (st.server id) s out) {src : Fin N} {p : Message} (hled : Led st src p) :
    Led (st.put id s out) src p := by
  by_cases hsrc : src = id
  · subst hsrc
    rcases hled with ⟨hleader, hround, hcurrent⟩
    have hserver : (st.put src s out).server src = s := Function.update_self ..
    refine ⟨hleader, ?_, ?_⟩
    · rw [hserver]
      cases h with
      | quiet hkept hok hp => rwa [hkept.round]
      | prepare hpc => exact hround
      | propose hj hpc => exact hround
      | ack hkept hpc hr hb => rwa [hkept.round]
      | decide a hpc hpc' => exact hround
      | advance hp => exact Nat.le_succ_of_le hround
    · rw [hserver]
      intro heq
      cases h with
      | quiet hkept hok hp =>
        rw [hkept.round] at heq
        rcases hp (hcurrent heq).1 with ⟨hp', hne⟩
        exact ⟨hp', fun q j hq => absurd hq (hne q j)⟩
      | prepare hpc =>
        have := (hcurrent heq).1
        rw [hpc] at this
        cases this
      | propose hj hpc =>
        refine ⟨rfl, fun q j hq => ?_⟩
        obtain ⟨rfl, _⟩ := Pc.sendPropose.inj hq
        exact (hcurrent heq).2 _ _ hpc
      | ack hkept hpc hr hb =>
        rw [hpc]
        exact ⟨rfl, nofun⟩
      | decide a hpc hpc' =>
        rcases hpc' with rfl | rfl <;> exact ⟨rfl, nofun⟩
      | advance hp =>
        change p.round = (st.server src).round + 1 at heq
        omega
  · have hserver : (st.put id s out).server src = st.server src := Function.update_of_ne hsrc ..
    exact ⟨hled.leader, by rw [hserver]; exact hled.round, by rw [hserver]; exact hled.current⟩

/-- What a server sends in a turn. -/
theorem Turn.sends {id : Fin N} {s s' : Server} {out : List (Address N × Message)}
    (h : Turn id s s' out) (hok : s.Ok id) {a : Address N} {m : Message} (hm : (a, m) ∈ out) :
    (m.type ≠ .ack → m.color = s.color) ∧
      (m.type = .propose → id = leader m.round ∧ m.round = s.round ∧
        (∃ j, s.pc = .sendPropose m j) ∧ s'.round = s.round ∧ ∃ j, s'.pc = .sendPropose m j) ∧
      (m.type = .ack → m.ack = true →
        ∃ p ∈ s.messageq, p.type = .propose ∧ p.round = m.round ∧ ¬ s.refuses p) := by
  cases h with
  | quiet hkept hnew hp => cases hm
  | prepare hpc =>
    obtain ⟨rfl, rfl⟩ := Prod.mk.inj (List.mem_singleton.1 hm)
    exact ⟨fun _ => rfl, nofun, nofun⟩
  | propose hj hpc =>
    obtain ⟨rfl, rfl⟩ := Prod.mk.inj (List.mem_singleton.1 hm)
    unfold Server.Ok at hok
    rw [hpc] at hok
    rcases hok with ⟨hlead, rfl⟩
    exact ⟨fun _ => rfl, fun _ => ⟨hlead, rfl, ⟨_, hpc⟩, rfl, _, rfl⟩, nofun⟩
  | ack hkept hpc hr hb =>
    obtain ⟨rfl, rfl⟩ := Prod.mk.inj (List.mem_singleton.1 hm)
    subst hr
    exact ⟨fun h => absurd rfl h, nofun, fun _ hack => hb hack⟩
  | decide a' hpc hpc' =>
    obtain ⟨rfl, rfl⟩ := Prod.mk.inj (List.mem_singleton.1 hm)
    unfold Server.Ok at hok
    rw [hpc] at hok
    subst hok
    exact ⟨fun _ => rfl, nofun, nofun⟩
  | advance hp => cases hm

theorem History.put {id : Fin N} {s : Server} {out : List (Address N × Message)}
    (hh : History color stubborn st) (hd : Delivered st) (hok : (st.server id).Ok id)
    (hflag : (st.server id).stubborn = stubborn id)
    (hkeeps : stubborn id = true → (st.server id).color = color id)
    (h : Turn id (st.server id) s out) : History color stubborn (st.put id s out) := by
  have hsends := fun {a : Address N} {m : Message} (hm : (a, m) ∈ out) => h.sends hok hm
  have hserver : (st.put id s out).server id = s := Function.update_self ..
  have hold : ∀ {src m}, (src, m) ∈ st.sent → (src, m) ∈ (st.put id s out).sent :=
    fun hm => mem_put_sent.2 (.inl hm)
  -- a PROPOSE of an earlier turn has the round and the color of the new one
  have hsame : ∀ {a p src' p'}, (a, p) ∈ out → p.type = .propose → (src', p') ∈ st.sent →
      p'.type = .propose → p'.round = p.round → p' = p := by
    intro a p src' p' hp htype hp' htype' hround
    rcases (hsends hp).2.1 htype with ⟨hlead, hr, ⟨j, hpc⟩, _⟩
    have hled := hh.led src' p' hp' htype'
    have hsrc : src' = id := by rw [hled.leader, hround, hlead]
    subst hsrc
    exact (hled.current (hround.trans hr)).2 p j hpc
  exact {
    led := fun src p hp htype => by
      rcases mem_put_sent.1 hp with hp | ⟨rfl, a, hp⟩
      · exact h.led (hh.led src p hp htype)
      · rcases (hsends hp).2.1 htype with ⟨hlead, hr, _, hr', j, hpc⟩
        refine ⟨hlead, ?_, fun _ => ?_⟩
        · rw [hserver, hr, hr']
        · rw [hserver, hpc]
          exact ⟨rfl, fun q i hq => (Pc.sendPropose.inj hq).1⟩
    unique := fun src src' p p' hp hp' htype htype' hround => by
      rcases mem_put_sent.1 hp with hp₀ | ⟨_, a, hp₁⟩ <;>
        rcases mem_put_sent.1 hp' with hp₀' | ⟨_, a', hp₁'⟩
      · exact hh.unique src src' p p' hp₀ hp₀' htype htype' hround
      · rw [hsame hp₁' htype' hp₀ htype hround]
      · rw [hsame hp₁ htype hp₀' htype' hround.symm]
      · have hne : ∀ {m : Message}, m.type = .propose → m.type ≠ .ack := by
          intro m hm hack
          rw [hm] at hack
          cases hack
        rw [(hsends hp₁).1 (hne htype), (hsends hp₁').1 (hne htype')]
    carries := fun j m hj hm hne => by
      rcases mem_put_sent.1 hm with hm | ⟨rfl, a, hm⟩
      · exact hh.carries j m hj hm hne
      · rw [(hsends hm).1 hne, hkeeps hj]
    acks := fun j m hj hm htype hack => by
      rcases mem_put_sent.1 hm with hm | ⟨rfl, a, hm⟩
      · rcases hh.acks j m hj hm htype hack with ⟨src, p, hp, hrest⟩
        exact ⟨src, p, hold hp, hrest⟩
      · rcases (hsends hm).2.2 htype hack with ⟨p, hp, hptype, hround, haccept⟩
        rcases hd.port j p hp with ⟨src, hsrc⟩
        refine ⟨src, p, hold hsrc, hptype, hround, ?_⟩
        rw [color_of_accepted haccept (hflag.trans hj), hkeeps hj] }

theorem Inv.put (hs : Inv color stubborn st) {id : Fin N} {s : Server}
    {out : List (Address N × Message)} (h : Turn id (st.server id) s out) :
    Inv color stubborn (st.put id s out) := by
  rcases h.stubborn with ⟨hstub, hcolor, hq⟩
  exact {
    ok := forall_put (P := Ok) (h.ok (hs.ok id)) hs.ok
    flag := forall_put (P := fun j s => s.stubborn = stubborn j) (hstub.trans (hs.flag id)) hs.flag
    keeps := by
      refine forall_put (P := fun j s => stubborn j = true → s.color = color j) (fun hid => ?_)
        hs.keeps
      rw [hcolor ((hs.flag id).trans hid)]
      exact hs.keeps id hid
    delivered := hs.delivered.put hq
    history := hs.history.put hs.delivered (hs.ok id) (hs.flag id) (hs.keeps id) h }

/-! ## The network -/

omit [NeZero N] in
theorem enqueue_spec (st : State N) (m : Message) (a : Address N) :
    (st.enqueue m a).sent = st.sent ∧ (st.enqueue m a).inFlight = st.inFlight ∧
      ∀ id, ∃ q, (st.enqueue m a).server id = { st.server id with messageq := q } ∧
        ∀ m' ∈ q, m' = m ∨ m' ∈ (st.server id).messageq := by
  cases a with
  | nancy => exact ⟨rfl, rfl, fun id => ⟨_, rfl, fun m' hm' => .inr hm'⟩⟩
  | server j =>
    refine ⟨rfl, rfl, fun id => ?_⟩
    by_cases hj : id = j
    · subst hj
      refine ⟨_, Function.update_self .., fun m' hm' => ?_⟩
      rcases List.mem_append.1 hm' with hm' | hm'
      · exact .inr hm'
      · exact .inl (List.mem_singleton.1 hm')
    · exact ⟨_, Function.update_of_ne hj .., fun m' hm' => .inr hm'⟩

/-- What the network does to a message leaves the servers' colors and the history alone. -/
theorem Inv.network {st' : State N} (hs : Inv color stubborn st) (hsent : st'.sent = st.sent)
    (hserver : ∀ id, ∃ q, st'.server id = { st.server id with messageq := q })
    (hd : Delivered st') : Inv color stubborn st' where
  ok id := by
    rcases hserver id with ⟨q, hq⟩
    rw [hq]
    exact hs.ok id
  flag id := by
    rcases hserver id with ⟨q, hq⟩
    rw [hq]
    exact hs.flag id
  keeps id hid := by
    rcases hserver id with ⟨q, hq⟩
    rw [hq]
    exact hs.keeps id hid
  delivered := hd
  history := by
    rcases hs.history with ⟨hled, hunique, hcarries, hacks⟩
    rw [← hsent] at hunique hcarries hacks
    refine ⟨fun src p hp htype => ?_, hunique, hcarries, hacks⟩
    rcases hserver src with ⟨q, hq⟩
    rcases hled src p (hsent ▸ hp) htype with ⟨hleader, hround, hcurrent⟩
    exact ⟨hleader, by rw [hq]; exact hround, by rw [hq]; exact hcurrent⟩

theorem Inv.start (color : Fin N → String) (stubborn : Fin N → Bool) :
    Inv color stubborn (start color stubborn) where
  ok _ := trivial
  flag _ := rfl
  keeps _ _ := rfl
  delivered := ⟨nofun, nofun⟩
  history := ⟨nofun, nofun, nofun, nofun⟩

theorem step_inv {st' : State N} {l : Label N} (hs : Inv color stubborn st)
    (h : step st l = some st') : Inv color stubborn st' := by
  have herase : ∀ {k : Nat} {x : Address N × Message},
      x ∈ st.inFlight.eraseIdx k → x ∈ st.inFlight := fun hx => List.mem_of_mem_eraseIdx hx
  cases l with
  | run id =>
    obtain ⟨⟨s, out⟩, hturn, rfl⟩ := Option.map_eq_some_iff.1 h
    exact hs.put (consensus_turn hturn)
  | timeout id =>
    obtain ⟨⟨s, out⟩, hturn, rfl⟩ := Option.map_eq_some_iff.1 h
    exact hs.put (failureDetector_turn hturn)
  | deliver k =>
    obtain ⟨⟨a, m⟩, hk, rfl⟩ := Option.map_eq_some_iff.1 h
    have hflight : (a, m) ∈ st.inFlight := List.mem_of_getElem? hk
    rcases enqueue_spec { st with inFlight := st.inFlight.eraseIdx k } m a with
      ⟨hsent, hrest, hserver⟩
    refine hs.network hsent (fun id => (hserver id).imp fun _ hq => hq.1) ⟨?_, ?_⟩
    · intro a' m' hm'
      rw [hrest] at hm'
      rw [hsent]
      exact hs.delivered.flight a' m' (herase hm')
    · intro id m' hm'
      rw [hsent]
      rcases hserver id with ⟨q, hq, hmem⟩
      rw [hq] at hm'
      rcases hmem m' hm' with rfl | hold
      · exact hs.delivered.flight a m' hflight
      · exact hs.delivered.port id m' hold
  | lose k =>
    obtain ⟨x, hk, rfl⟩ := Option.map_eq_some_iff.1 h
    refine hs.network rfl (fun id => ⟨_, rfl⟩) ⟨fun a m hm => ?_, hs.delivered.port⟩
    exact hs.delivered.flight a m (herase hm)

theorem reachable_inv (h : (system color stubborn).Reachable st) : Inv color stubborn st := by
  refine h.invariant (P := Inv color stubborn) (fun st hst => ?_)
    fun _ _ _ hs hstep => step_inv hs hstep
  obtain rfl : st = start color stubborn := hst
  exact .start color stubborn

/-! ## Stubborn servers -/

/-- A stubborn server has its first color, its PREPAREs, PROPOSEs and DECIDEs carry it, and
it has acknowledged only rounds whose PROPOSE carries it. -/
structure Steadfast (color : Fin N → String) (st : State N) (id : Fin N) : Prop where
  keeps : (st.server id).color = color id
  carries : ∀ m, (id, m) ∈ st.sent → m.type = .prepare ∨ m.type = .propose ∨ m.type = .decide →
    m.color = color id
  acks : ∀ m, (id, m) ∈ st.sent → m.type = .ack → m.ack = true →
    (∃ p, (leader m.round, p) ∈ st.sent ∧ p.type = .propose ∧ p.round = m.round) ∧
      ∀ src p, (src, p) ∈ st.sent → p.type = .propose → p.round = m.round → p.color = color id

theorem stubborn_steadfast (h : (system color stubborn).Reachable st) (id : Fin N)
    (hid : stubborn id = true) : Steadfast color st id := by
  have hs := reachable_inv h
  refine ⟨hs.keeps id hid, fun m hm htype => ?_, fun m hm htype hack => ?_⟩
  · refine hs.history.carries id m hid hm fun hack => ?_
    rw [hack] at htype
    rcases htype with h | h | h <;> cases h
  · rcases hs.history.acks id m hid hm htype hack with ⟨src, p, hp, hptype, hround, hcolor⟩
    have hsrc : src = leader m.round := by rw [(hs.history.led src p hp hptype).leader, hround]
    refine ⟨⟨p, hsrc ▸ hp, hptype, hround⟩, fun src' p' hp' htype' hround' => ?_⟩
    rw [hs.history.unique src' src p' p hp' hp htype' hptype (hround'.trans hround.symm), hcolor]

-- for the numerals of `stubbornRun`
local instance neZero_servers : NeZero 3 := ⟨by decide⟩

/-- Server 1 leads the first round and proposes red, which server 0 acknowledges and
server 2 does not. -/
def stubbornRun : List (Label 3) :=
  [.run 0, .run 0, .run 1, .run 1, .run 2, .run 2, .deliver 0, .deliver 0, .run 1, .run 1,
    .run 1, .run 1, .run 1, .run 1, .run 1, .deliver 1, .deliver 2, .run 0, .run 2]

def stubbornColor : Fin 3 → String
  | 2 => "blue"
  | _ => "red"

/-- The leader of the first round is not stubborn. -/
def stubbornServer (id : Fin 3) : Bool := id ≠ 1

theorem stubbornRun_isSome :
    ((system stubbornColor stubbornServer).exec (start stubbornColor stubbornServer)
      stubbornRun).isSome = true := by
  decide +kernel

/-- The state `stubbornRun` ends in. -/
def stubbornState : State 3 :=
  ((system stubbornColor stubbornServer).exec (start stubbornColor stubbornServer)
    stubbornRun).get stubbornRun_isSome

theorem stubbornState_reachable :
    (system stubbornColor stubbornServer).Reachable stubbornState :=
  .of_get rfl stubbornRun_isSome

theorem stubborn_steadfast_stubbornState :
    (0, ackMessage 1 true) ∈ stubbornState.sent ∧ (2, ackMessage 1 false) ∈ stubbornState.sent ∧
      Steadfast stubbornColor stubbornState 0 ∧ Steadfast stubbornColor stubbornState 2 :=
  ⟨by decide +kernel, by decide +kernel,
    stubborn_steadfast stubbornState_reachable 0 rfl,
    stubborn_steadfast stubbornState_reachable 2 rfl⟩

end Ctstubborn
end Psets
