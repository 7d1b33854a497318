/-
Chandra-Toueg consensus: agreement and validity.

`abs` reads a state of the servers as a configuration of the rotating
coordinator.  The mail of a state is every message that was sent and not used,
whether it is on the network, in an input port or in a stash, so that delivering
or stashing a message is no step at all.  A server that has decided is stopped
even where its coroutine still runs the rest of its phase on fake messages.
-/
import Mathlib.Algebra.BigOperators.Group.Finset.Basic
import Mathlib.Algebra.Order.Group.Multiset
import Mathlib.Data.Multiset.MapFold
import Psets.Ctconsensus.Server
import Psets.Quorum.Agreement

namespace Psets
namespace Ctconsensus

open Quorum (Config Next Party Stage)

/-! ## The abstraction -/

/-- A message without the fields its type does not use. -/
def Message.toMsg (m : Message) : Quorum.Msg String :=
  match m.type with
  | .prepare => .prepare m.round m.color m.colorRound
  | .propose => .propose m.round m.color
  | .ack => .ack m.round m.ack
  | .decide => .decide m.color

namespace Server

def stage (s : Server) : Stage :=
  if s.decided then .stopped
  else
    match s.pc with
    | .top => .ready
    | .sentPrepare => .prepared
    | .receivePrepare received _ => .collecting received
    | .sendPropose _ _ => .proposing
    | .receivePropose _ => .waiting
    | .sentAck => .acked
    | .receiveAck success total _ => .counting success total
    | .exit | .sendDecide _ _ | .done => .stopped

def party (s : Server) : Party String := ⟨s.round, s.color, s.colorRound, s.stage⟩

theorem stage_of_decided {s : Server} (h : s.decided = true) : s.stage = .stopped := by
  simp [stage, h]

/-- What the position of the coroutine says about the server. -/
def Ok (s : Server) : Prop :=
  match s.pc with
  | .top | .sentPrepare | .receivePropose _ | .sentAck => s.decided = false
  | .sendPropose propose _ => s.decided = false ∧ propose = proposeMessage s.round s.color
  | .exit | .done => s.decided = true
  | .sendDecide decide _ => s.decided = true ∧ decide = decideMessage s.color
  | .receivePrepare _ _ | .receiveAck _ _ _ => True

end Server

namespace State

variable {N : Nat}

/-- Every message that was sent and not used. -/
def mail (st : State N) : Multiset Message :=
  ↑(st.inFlight.map Prod.snd) + ↑st.nancyq + ∑ i, ↑(st.server i).mail

/-- The mail of everybody but server `id`. -/
def otherMail (st : State N) (id : Fin N) : Multiset Message :=
  ↑(st.inFlight.map Prod.snd) + ↑st.nancyq + ∑ i ∈ Finset.univ.erase id, ↑(st.server i).mail

def abs (st : State N) : Config N String :=
  { party := fun id => (st.server id).party, bag := st.mail.map Message.toMsg }

theorem mail_eq (st : State N) (id : Fin N) :
    st.mail = ↑(st.server id).mail + st.otherMail id := by
  rw [mail, otherMail, ← Finset.add_sum_erase _ _ (Finset.mem_univ id)]
  exact add_left_comm _ _ _

theorem otherMail_put (st : State N) (id : Fin N) (s : Server)
    (sent : List (Address N × Message)) :
    (st.put id s sent).otherMail id = ↑(sent.map Prod.snd) + st.otherMail id := by
  have hsum : ∑ i ∈ Finset.univ.erase id, (↑((st.put id s sent).server i).mail :
      Multiset Message) = ∑ i ∈ Finset.univ.erase id, ↑(st.server i).mail := by
    refine Finset.sum_congr rfl fun i hi => ?_
    simp [put, Finset.ne_of_mem_erase hi]
  rw [otherMail, otherMail, hsum]
  simp only [put, List.map_append, ← Multiset.coe_add]
  rw [add_comm (↑(st.inFlight.map Prod.snd) : Multiset Message), add_assoc, add_assoc, add_assoc]

/-- The step of one server, seen from above. -/
theorem abs_put (st : State N) (id : Fin N) (s : Server) (sent : List (Address N × Message)) :
    (st.put id s sent).abs = st.abs.put id s.party
      ((↑(sent.map Prod.snd) + (↑s.mail + st.otherMail id) : Multiset Message).map
        Message.toMsg) := by
  have hbag : (st.put id s sent).mail =
      ↑(sent.map Prod.snd) + (↑s.mail + st.otherMail id) := by
    rw [mail_eq _ id, otherMail_put]
    simp only [put, Function.update_self]
    exact add_left_comm _ _ _
  rw [abs, Config.put, hbag]
  congr 1
  funext i
  by_cases hi : i = id
  · subst hi
    simp [put]
  · simp [put, hi, abs]

theorem abs_bag (st : State N) (id : Fin N) :
    st.abs.bag = (↑(st.server id).mail + st.otherMail id : Multiset Message).map
      Message.toMsg := by
  rw [abs, ← mail_eq]

/-- A server that keeps its mail and sends nothing. -/
theorem abs_put_quiet {st : State N} {id : Fin N} {s : Server}
    (h : (↑s.mail : Multiset Message) = ↑(st.server id).mail) :
    (st.put id s []).abs = st.abs.put id s.party st.abs.bag := by
  rw [abs_put, abs_bag st id, h]
  simp

/-- A server that keeps its mail and sends one message. -/
theorem abs_put_send {st : State N} {id : Fin N} {s : Server} {a : Address N} {m : Message}
    (h : (↑s.mail : Multiset Message) = ↑(st.server id).mail) :
    (st.put id s [(a, m)]).abs = st.abs.put id s.party (m.toMsg ::ₘ st.abs.bag) := by
  rw [abs_put, abs_bag st id, h]
  simp [← Multiset.cons_add]

/-- A server that uses one message. -/
theorem abs_put_use {st : State N} {id : Fin N} {s : Server} {m : Message}
    (h : (↑(st.server id).mail : Multiset Message) = m ::ₘ ↑s.mail) :
    ∃ rest, st.abs.bag = m.toMsg ::ₘ rest ∧
      (st.put id s []).abs = st.abs.put id s.party rest ∧
      ∀ a m', (st.put id s [(a, m')]).abs = st.abs.put id s.party (m'.toMsg ::ₘ rest) := by
  refine ⟨(↑s.mail + st.otherMail id : Multiset Message).map Message.toMsg, ?_, ?_, ?_⟩
  · rw [abs_bag st id, h, Multiset.cons_add, Multiset.map_cons]
  · rw [abs_put]
    simp
  · intro a m'
    rw [abs_put]
    simp

theorem put_party_self (st : State N) (id : Fin N) :
    st.abs.put id (st.server id).party st.abs.bag = st.abs := by
  have h : Function.update st.abs.party id (st.server id).party = st.abs.party :=
    Function.update_eq_self id st.abs.party
  rw [Config.put, h]

end State

/-! ## What one iteration of `receive` can do -/

namespace Server

/-- The outcomes of an iteration of `receive`.  `q` and `stash` are the port and
the stash it leaves. -/
inductive Received (s : Server) (mt : MessageType) : Server → Message ⊕ Nat → Prop where
  | fake : s.decided = true → Received s mt s (.inl (s.fakeMessage mt))
  | decide {m m' : Message} {q stash : List Message} : s.decided = false →
      m.type = .decide → (↑s.mail : Multiset Message) = m ::ₘ ↑(q ++ stash) →
      m'.colorRound = s.colorRound →
      Received s mt
        { s with messageq := q, stash := stash, color := m.color, decided := true } (.inl m')
  | keep {k : Nat} {q stash : List Message} : s.decided = false →
      (↑s.mail : Multiset Message) = ↑(q ++ stash) →
      Received s mt { s with messageq := q, stash := stash } (.inr k)
  | discard {k : Nat} {m : Message} {q stash : List Message} : s.decided = false →
      (↑s.mail : Multiset Message) = m ::ₘ ↑(q ++ stash) →
      Received s mt { s with messageq := q, stash := stash } (.inr k)
  | wanted {m : Message} {q stash : List Message} : s.decided = false →
      m.type = mt → m.round = s.round → (↑s.mail : Multiset Message) = m ::ₘ ↑(q ++ stash) →
      Received s mt { s with messageq := q, stash := stash } (.inl m)

theorem next_mail {s s' : Server} {k k' : Nat} {m : Message}
    (h : s.next k = some (m, k', s')) :
    ∃ q stash, s' = { s with messageq := q, stash := stash } ∧
      (↑s.mail : Multiset Message) = m ::ₘ ↑(q ++ stash) := by
  unfold next at h
  by_cases hk : 0 < k
  · rw [if_pos hk] at h
    cases hstash : s.stash with
    | nil => simp [hstash] at h
    | cons m₁ stash =>
      simp only [hstash, Option.some.injEq, Prod.mk.injEq] at h
      obtain ⟨rfl, -, rfl⟩ := h
      refine ⟨s.messageq, stash, rfl, ?_⟩
      rw [mail, hstash, Multiset.cons_coe, Multiset.coe_eq_coe]
      exact List.perm_middle
  · rw [if_neg hk] at h
    cases hq : s.messageq with
    | nil => simp [hq] at h
    | cons m₁ q =>
      simp only [hq, Option.some.injEq, Prod.mk.injEq] at h
      obtain ⟨rfl, -, rfl⟩ := h
      refine ⟨q, s.stash, rfl, ?_⟩
      rw [mail, hq]
      rfl

theorem receive_cases {s s' : Server} {mt : MessageType} {k : Nat} {r : Message ⊕ Nat}
    (h : s.receive mt k = some (s', r)) : Received s mt s' r := by
  unfold receive at h
  by_cases hd : s.decided = true
  · rw [if_pos hd] at h
    simp only [Option.some.injEq, Prod.mk.injEq] at h
    obtain ⟨rfl, rfl⟩ := h
    exact .fake hd
  · rw [if_neg hd] at h
    have hf : s.decided = false := by simpa using hd
    rcases hn : s.next k with _ | ⟨m, k', s₁⟩
    · simp [hn] at h
    · obtain ⟨q, stash, rfl, hmail⟩ := next_mail hn
      simp only [hn] at h
      by_cases hdec : m.type = .decide
      · rw [if_pos hdec] at h
        simp only [Option.some.injEq, Prod.mk.injEq] at h
        obtain ⟨rfl, rfl⟩ := h
        exact .decide hf hdec hmail rfl
      · rw [if_neg hdec] at h
        by_cases hu : m.type ≠ mt ∨ m.round ≠ s.round
        · rw [if_pos hu] at h
          by_cases hr : s.round ≤ m.round
          · rw [if_pos hr] at h
            simp only [Option.some.injEq, Prod.mk.injEq] at h
            obtain ⟨rfl, rfl⟩ := h
            refine .keep hf ?_
            rw [hmail, Multiset.cons_coe, Multiset.coe_eq_coe, ← List.append_assoc]
            exact (List.perm_append_singleton _ _).symm
          · rw [if_neg hr] at h
            simp only [Option.some.injEq, Prod.mk.injEq] at h
            obtain ⟨rfl, rfl⟩ := h
            exact .discard hf hmail
        · rw [if_neg hu] at h
          simp only [Option.some.injEq, Prod.mk.injEq] at h
          obtain ⟨rfl, rfl⟩ := h
          simp only [ne_eq, not_or, not_not] at hu
          exact .wanted hf hu.1 hu.2 hmail

end Server

/-! ## The simulation -/

section Simulation

variable {N : Nat} {st : State N} {id : Fin N}

/-- Server `id` may become `r.1` and send `r.2`. -/
def Simulates (st : State N) (id : Fin N) (r : Server × List (Address N × Message)) : Prop :=
  r.1.Ok ∧ ((st.put id r.1 r.2).abs = st.abs ∨ Next st.abs (st.put id r.1 r.2).abs)

/-- The coroutine moves on and nothing changes above. -/
theorem simulates_stutter {s : Server} (hok : s.Ok)
    (hmail : (↑s.mail : Multiset Message) = ↑(st.server id).mail)
    (hparty : s.party = (st.server id).party) : Simulates st id (s, []) := by
  refine ⟨hok, Or.inl ?_⟩
  rw [State.abs_put_quiet hmail, hparty, State.put_party_self]

theorem simulates_quiet {s : Server} {p : Party String} (hok : s.Ok)
    (hmail : (↑s.mail : Multiset Message) = ↑(st.server id).mail) (hparty : s.party = p)
    (hn : Next st.abs (st.abs.put id p st.abs.bag)) : Simulates st id (s, []) := by
  refine ⟨hok, Or.inr ?_⟩
  rw [State.abs_put_quiet hmail, hparty]
  exact hn

theorem simulates_send {s : Server} {p : Party String} {a : Address N} {m : Message}
    (hok : s.Ok) (hmail : (↑s.mail : Multiset Message) = ↑(st.server id).mail)
    (hparty : s.party = p) (hn : Next st.abs (st.abs.put id p (m.toMsg ::ₘ st.abs.bag))) :
    Simulates st id (s, [(a, m)]) := by
  refine ⟨hok, Or.inr ?_⟩
  rw [State.abs_put_send hmail, hparty]
  exact hn

/-- `receive` threw a message away. -/
theorem simulates_discard {s : Server} {m : Message} (hok : s.Ok)
    (hmail : (↑(st.server id).mail : Multiset Message) = m ::ₘ ↑s.mail)
    (hparty : s.party = (st.server id).party) : Simulates st id (s, []) := by
  obtain ⟨rest, hbag, habs, _⟩ := State.abs_put_use hmail
  refine ⟨hok, Or.inr ?_⟩
  have hlose : (st.put id s []).abs = { st.abs with bag := rest } := by
    rw [habs, hparty]
    show Config.mk _ _ = _
    congr 1
    exact Function.update_eq_self id st.abs.party
  rw [hlose]
  exact .lose hbag

/-- `receive` used a message. -/
theorem simulates_use {s : Server} {p : Party String} {m : Message} (hok : s.Ok)
    (hmail : (↑(st.server id).mail : Multiset Message) = m ::ₘ ↑s.mail) (hparty : s.party = p)
    (hn : ∀ rest, st.abs.bag = m.toMsg ::ₘ rest → Next st.abs (st.abs.put id p rest)) :
    Simulates st id (s, []) := by
  obtain ⟨rest, hbag, habs, _⟩ := State.abs_put_use hmail
  refine ⟨hok, Or.inr ?_⟩
  rw [habs, hparty]
  exact hn rest hbag

/-- `receive` used a message and the server answers it. -/
theorem simulates_reply {s : Server} {p : Party String} {m m' : Message} {a : Address N}
    (hok : s.Ok) (hmail : (↑(st.server id).mail : Multiset Message) = m ::ₘ ↑s.mail)
    (hparty : s.party = p)
    (hn : ∀ rest, st.abs.bag = m.toMsg ::ₘ rest →
      Next st.abs (st.abs.put id p (m'.toMsg ::ₘ rest))) :
    Simulates st id (s, [(a, m')]) := by
  obtain ⟨rest, hbag, _, habs⟩ := State.abs_put_use hmail
  refine ⟨hok, Or.inr ?_⟩
  rw [habs, hparty]
  exact hn rest hbag

/-- A DECIDE stops the server, wherever its coroutine is. -/
theorem simulates_hear {s : Server} {m : Message}
    (hexit : (st.server id).stage ≠ .stopped) (hdec : m.type = .decide)
    (hmail : (↑(st.server id).mail : Multiset Message) = m ::ₘ ↑s.mail) (hok : s.Ok)
    (hs : s.decided = true) (hround : s.round = (st.server id).round)
    (hcr : s.colorRound = (st.server id).colorRound) (hcolor : s.color = m.color) :
    Simulates st id (s, []) := by
  refine simulates_use (p := { (st.server id).party with
    value := m.color, stage := .stopped }) hok hmail ?_ fun rest hbag => ?_
  · simp [Server.party, Server.stage, hs, hround, hcr, hcolor]
  · refine .hear id hexit ?_
    rw [hbag, Message.toMsg, hdec]

/-! ## The pieces of `consensus` -/

variable [NeZero N] {r : Server × List (Address N × Message)}

theorem simulates_top (hok : (st.server id).Ok) (hpc : (st.server id).pc = .top)
    (h : consensus id (st.server id) = some r) : Simulates st id r := by
  have hd : (st.server id).decided = false := by simpa [Server.Ok, hpc] using hok
  simp only [consensus, hpc, hd, Bool.false_eq_true, if_false, Option.some.injEq] at h
  subst h
  refine simulates_send (p := (st.server id).party.goto .prepared) rfl rfl ?_ ?_
  · simp [Server.party, Server.stage, hd, Party.goto]
  · exact .prepare id (by simp [State.abs, Server.party, Server.stage, hd, hpc])

theorem simulates_sentPrepare (hok : (st.server id).Ok) (hpc : (st.server id).pc = .sentPrepare)
    (h : consensus id (st.server id) = some r) : Simulates st id r := by
  have hd : (st.server id).decided = false := by simpa [Server.Ok, hpc] using hok
  have hstage : (st.abs.party id).stage = .prepared := by
    simp [State.abs, Server.party, Server.stage, hd, hpc]
  simp only [consensus, hpc] at h
  by_cases hl : id = leader (st.server id).round
  · rw [if_pos hl] at h
    simp only [Option.some.injEq] at h
    subst h
    refine simulates_quiet (p := (st.server id).party.goto (.collecting 0)) trivial rfl ?_ ?_
    · simp [Server.party, Server.stage, hd, Party.goto]
    · exact .gather id hstage (congrArg Fin.val hl)
  · rw [if_neg hl] at h
    simp only [Option.some.injEq] at h
    subst h
    refine simulates_quiet (p := (st.server id).party.goto .waiting) hd rfl ?_ ?_
    · simp [Server.party, Server.stage, hd, Party.goto]
    · exact .await id (Or.inr ⟨hstage, fun he => hl (Fin.ext he)⟩)

theorem simulates_receivePrepare {received k : Nat}
    (hpc : (st.server id).pc = .receivePrepare received k)
    (h : consensus id (st.server id) = some r) : Simulates st id r := by
  have hstage : (st.server id).decided = false →
      (st.server id).stage = .collecting received := by
    intro hd
    simp [Server.stage, hd, hpc]
  simp only [consensus, hpc] at h
  by_cases hle : received ≤ N / 2
  · rw [if_pos hle] at h
    rcases hr : (st.server id).receive .prepare k with _ | ⟨s₁, r₁⟩
    · simp [hr] at h
    · simp only [hr] at h
      cases Server.receive_cases hr with
      | fake hd =>
        simp only [Server.fakeMessage, Nat.lt_irrefl, if_false, Option.some.injEq] at h
        subst h
        exact simulates_stutter trivial rfl (by simp [Server.party, Server.stage, hd])
      | decide hd hdec hmail hcr =>
        simp only [hcr, Nat.lt_irrefl, if_false, Option.some.injEq] at h
        subst h
        exact simulates_hear (by simp [hstage hd]) hdec hmail trivial rfl rfl rfl rfl
      | keep hd hmail =>
        simp only [Option.some.injEq] at h
        subst h
        exact simulates_stutter trivial hmail.symm
          (by simp [Server.party, Server.stage, hd, hpc])
      | discard hd hmail =>
        simp only [Option.some.injEq] at h
        subst h
        exact simulates_discard trivial hmail (by simp [Server.party, Server.stage, hd, hpc])
      | @wanted m q stash hd hm hround hmail =>
        have hbag : ∀ rest, st.abs.bag = m.toMsg ::ₘ rest →
            st.abs.bag = .prepare (st.server id).round m.color m.colorRound ::ₘ rest := by
          intro rest hb
          rw [hb, Message.toMsg, hm, hround]
        have hn : ∀ rest, st.abs.bag = m.toMsg ::ₘ rest → Next st.abs (st.abs.put id
            ((st.server id).party.gather (received + 1) m.color m.colorRound) rest) :=
          fun rest hb => .collect id (hstage hd) (hbag rest hb)
        by_cases hlt : (st.server id).colorRound < m.colorRound
        · simp only [hlt, if_true, Option.some.injEq] at h
          subst h
          refine simulates_use trivial hmail ?_ hn
          rw [Party.gather_of_lt (p := (st.server id).party) hlt]
          simp [Server.party, Server.stage, hd]
        · simp only [hlt, if_false, Option.some.injEq] at h
          subst h
          refine simulates_use trivial hmail ?_ hn
          rw [Party.gather_of_le (p := (st.server id).party) (Nat.not_lt.1 hlt)]
          simp [Server.party, Server.stage, hd, Party.goto]
  · rw [if_neg hle] at h
    by_cases hd : (st.server id).decided = true
    · rw [if_pos hd] at h
      simp only [Option.some.injEq] at h
      subst h
      exact simulates_stutter hd rfl (by simp [Server.party, Server.stage, hd])
    · rw [if_neg hd] at h
      simp only [Option.some.injEq] at h
      subst h
      have hd' : (st.server id).decided = false := by simpa using hd
      refine simulates_quiet (p := (st.server id).party.goto .proposing) ⟨hd', rfl⟩ rfl ?_ ?_
      · simp [Server.party, Server.stage, hd', Party.goto]
      · exact .elect id (hstage hd') (by omega)

theorem simulates_sendPropose {propose : Message} {j : Nat} (hok : (st.server id).Ok)
    (hpc : (st.server id).pc = .sendPropose propose j)
    (h : consensus id (st.server id) = some r) : Simulates st id r := by
  obtain ⟨hd, rfl⟩ : (st.server id).decided = false ∧
      propose = proposeMessage (st.server id).round (st.server id).color := by
    simpa [Server.Ok, hpc] using hok
  have hstage : (st.abs.party id).stage = .proposing := by
    simp [State.abs, Server.party, Server.stage, hd, hpc]
  simp only [consensus, hpc] at h
  by_cases hj : j < N
  · simp only [hj, dite_true, Option.some.injEq] at h
    subst h
    refine simulates_send (p := (st.server id).party) ⟨hd, rfl⟩ rfl ?_ (.propose id hstage)
    simp [Server.party, Server.stage, hd, hpc]
  · simp only [hj, dite_false, Option.some.injEq] at h
    subst h
    refine simulates_quiet (p := (st.server id).party.goto .waiting) hd rfl ?_ ?_
    · simp [Server.party, Server.stage, hd, Party.goto]
    · exact .await id (Or.inl hstage)

theorem simulates_receivePropose {k : Nat} (hok : (st.server id).Ok)
    (hpc : (st.server id).pc = .receivePropose k)
    (h : consensus id (st.server id) = some r) : Simulates st id r := by
  have hd : (st.server id).decided = false := by simpa [Server.Ok, hpc] using hok
  have hstage : (st.abs.party id).stage = .waiting := by
    simp [State.abs, Server.party, Server.stage, hd, hpc]
  simp only [consensus, hpc] at h
  rcases hr : (st.server id).receive .propose k with _ | ⟨s₁, r₁⟩
  · simp [hr] at h
  · simp only [hr] at h
    cases Server.receive_cases hr with
    | fake hdec => simp [hd] at hdec
    | decide _ hdec hmail _ =>
      simp only [phase4, if_true, Option.some.injEq] at h
      subst h
      exact simulates_hear (by simp [Server.stage, hd, hpc]) hdec hmail rfl rfl rfl rfl rfl
    | keep _ hmail =>
      simp only [Option.some.injEq] at h
      subst h
      exact simulates_stutter hd hmail.symm (by simp [Server.party, Server.stage, hd, hpc])
    | discard _ hmail =>
      simp only [Option.some.injEq] at h
      subst h
      exact simulates_discard hd hmail (by simp [Server.party, Server.stage, hd, hpc])
    | @wanted m q stash _ hm hround hmail =>
      simp only [phase4, hd, Bool.false_eq_true, if_false, Option.some.injEq] at h
      subst h
      refine simulates_reply (p := (st.server id).party.adopt m.color) rfl hmail ?_
        fun rest hb => .adopt id hstage ?_
      · simp [Server.party, Server.stage, Party.adopt]
      · rw [hb, Message.toMsg, hm, hround]
        rfl

theorem simulates_sentAck (hok : (st.server id).Ok) (hpc : (st.server id).pc = .sentAck)
    (h : consensus id (st.server id) = some r) : Simulates st id r := by
  have hd : (st.server id).decided = false := by simpa [Server.Ok, hpc] using hok
  have hstage : (st.abs.party id).stage = .acked := by
    simp [State.abs, Server.party, Server.stage, hd, hpc]
  simp only [consensus, hpc] at h
  by_cases hl : id = leader (st.server id).round
  · rw [if_pos hl] at h
    simp only [Option.some.injEq] at h
    subst h
    refine simulates_quiet (p := (st.server id).party.goto (.counting 0 0)) trivial rfl ?_ ?_
    · simp [Server.party, Server.stage, hd, Party.goto]
    · exact .tally id hstage (congrArg Fin.val hl)
  · rw [if_neg hl] at h
    simp only [Option.some.injEq] at h
    subst h
    refine simulates_quiet hd rfl ?_ (.advance id (by rw [hstage]; rfl))
    simp [Server.party, Server.stage, hd, State.abs]

theorem simulates_receiveAck {success total k : Nat}
    (hpc : (st.server id).pc = .receiveAck success total k)
    (h : consensus id (st.server id) = some r) : Simulates st id r := by
  have hstage : (st.server id).decided = false →
      (st.server id).stage = .counting success total := by
    intro hd
    simp [Server.stage, hd, hpc]
  simp only [consensus, hpc] at h
  by_cases hle : total ≤ N / 2
  · rw [if_pos hle] at h
    rcases hr : (st.server id).receive .ack k with _ | ⟨s₁, r₁⟩
    · simp [hr] at h
    · simp only [hr] at h
      cases Server.receive_cases hr with
      | fake hd =>
        simp only [Option.some.injEq] at h
        subst h
        exact simulates_stutter trivial rfl (by simp [Server.party, Server.stage, hd])
      | decide hd hdec hmail hcr =>
        simp only [Option.some.injEq] at h
        subst h
        exact simulates_hear (by simp [hstage hd]) hdec hmail trivial rfl rfl rfl rfl
      | keep hd hmail =>
        simp only [Option.some.injEq] at h
        subst h
        exact simulates_stutter trivial hmail.symm
          (by simp [Server.party, Server.stage, hd, hpc])
      | discard hd hmail =>
        simp only [Option.some.injEq] at h
        subst h
        exact simulates_discard trivial hmail (by simp [Server.party, Server.stage, hd, hpc])
      | @wanted m q stash hd hm hround hmail =>
        simp only [Option.some.injEq] at h
        subst h
        refine simulates_use (p := (st.server id).party.goto
          (.counting (if m.ack then success + 1 else success) (total + 1))) trivial hmail ?_
          fun rest hb => .count id (hstage hd) ?_
        · simp [Server.party, Server.stage, hd, Party.goto]
        · rw [hb, Message.toMsg, hm, hround]
          rfl
  · rw [if_neg hle] at h
    by_cases hd : (st.server id).decided = true
    · rw [if_pos hd] at h
      simp only [Option.some.injEq] at h
      subst h
      exact simulates_stutter hd rfl (by simp [Server.party, Server.stage, hd])
    · rw [if_neg hd] at h
      have hd' : (st.server id).decided = false := by simpa using hd
      by_cases hs : N / 2 < success
      · rw [if_pos hs] at h
        simp only [Option.some.injEq] at h
        subst h
        refine simulates_quiet (p := (st.server id).party.goto .stopped) rfl rfl ?_
          (.decide id (hstage hd') hs)
        simp [Server.party, Server.stage, Party.goto]
      · rw [if_neg hs] at h
        simp only [Option.some.injEq] at h
        subst h
        refine simulates_quiet hd' rfl ?_ (.advance id ?_)
        · simp [Server.party, Server.stage, hd', State.abs]
        · show (st.server id).stage.answered = true
          rw [hstage hd']
          rfl

theorem simulates_exit (hok : (st.server id).Ok) (hpc : (st.server id).pc = .exit)
    (h : consensus id (st.server id) = some r) : Simulates st id r := by
  have hd : (st.server id).decided = true := by simpa [Server.Ok, hpc] using hok
  simp only [consensus, hpc, Option.some.injEq] at h
  subst h
  refine simulates_send (p := (st.server id).party) ⟨hd, rfl⟩ rfl ?_
    (.announce id (Server.stage_of_decided hd))
  simp [Server.party, Server.stage, hd]

theorem simulates_sendDecide {decide : Message} {j : Nat} (hok : (st.server id).Ok)
    (hpc : (st.server id).pc = .sendDecide decide j)
    (h : consensus id (st.server id) = some r) : Simulates st id r := by
  obtain ⟨hd, rfl⟩ : (st.server id).decided = true ∧
      decide = decideMessage (st.server id).color := by
    simpa [Server.Ok, hpc] using hok
  simp only [consensus, hpc] at h
  by_cases hj : j < N
  · rw [dif_pos hj] at h
    by_cases hid : j ≠ id.val
    · rw [if_pos hid] at h
      simp only [Option.some.injEq] at h
      subst h
      refine simulates_send (p := (st.server id).party) ⟨hd, rfl⟩ rfl ?_
        (.announce id (Server.stage_of_decided hd))
      simp [Server.party, Server.stage, hd]
    · rw [if_neg hid] at h
      simp only [Option.some.injEq] at h
      subst h
      exact simulates_stutter ⟨hd, rfl⟩ rfl (by simp [Server.party, Server.stage, hd])
  · rw [dif_neg hj] at h
    simp only [Option.some.injEq] at h
    subst h
    exact simulates_stutter hd rfl (by simp [Server.party, Server.stage, hd])

/-- Every piece of the coroutine is a step of the rotating coordinator or none. -/
theorem simulates_consensus (hok : (st.server id).Ok)
    (h : consensus id (st.server id) = some r) : Simulates st id r := by
  cases hpc : (st.server id).pc with
  | top => exact simulates_top hok hpc h
  | sentPrepare => exact simulates_sentPrepare hok hpc h
  | receivePrepare received k => exact simulates_receivePrepare hpc h
  | sendPropose propose j => exact simulates_sendPropose hok hpc h
  | receivePropose k => exact simulates_receivePropose hok hpc h
  | sentAck => exact simulates_sentAck hok hpc h
  | receiveAck success total k => exact simulates_receiveAck hpc h
  | exit => exact simulates_exit hok hpc h
  | sendDecide decide j => exact simulates_sendDecide hok hpc h
  | done => simp [consensus, hpc] at h

theorem simulates_failureDetector (hok : (st.server id).Ok)
    (h : failureDetector (st.server id) = some r) : Simulates st id r := by
  unfold failureDetector at h
  split at h
  · next hpc =>
    have hd : (st.server id).decided = false := by simpa [Server.Ok, hpc] using hok
    simp only [phase4, hd, Bool.false_eq_true, if_false, Option.some.injEq] at h
    subst h
    refine simulates_send (p := (st.server id).party.goto .acked) rfl rfl ?_ (.refuse id ?_)
    · simp [Server.party, Server.stage, Party.goto]
    · simp [State.abs, Server.party, Server.stage, hd, hpc]
  · simp at h

end Simulation

/-! ## The system -/

section System

variable {N : Nat} {st : State N}

theorem abs_enqueue (st : State N) (m : Message) (a : Address N) :
    (st.enqueue m a).abs = { st.abs with bag := m.toMsg ::ₘ st.abs.bag } := by
  cases a with
  | server id =>
    have hput : st.enqueue m (.server id) = st.put id
        { st.server id with messageq := (st.server id).messageq ++ [m] } [] := by
      simp [State.enqueue, State.put]
    have hmail : (↑(({ st.server id with messageq := (st.server id).messageq ++ [m] } :
        Server).mail) : Multiset Message) = m ::ₘ ↑(st.server id).mail := by
      rw [Multiset.cons_coe, Multiset.coe_eq_coe]
      simp only [Server.mail, List.append_assoc]
      exact List.perm_middle
    rw [hput, State.abs_put, hmail, State.abs_bag st id]
    simp only [List.map_nil, Multiset.coe_nil, zero_add, Multiset.cons_add, Multiset.map_cons]
    show Config.mk _ _ = _
    congr 1
    exact Function.update_eq_self id st.abs.party
  | nancy =>
    have hmail : (st.enqueue m .nancy).mail = m ::ₘ st.mail := by
      have hq : (↑(st.nancyq ++ [m]) : Multiset Message) = m ::ₘ ↑st.nancyq := by
        rw [Multiset.cons_coe, Multiset.coe_eq_coe]
        exact List.perm_append_singleton _ _
      simp only [State.mail, State.enqueue]
      rw [hq, Multiset.add_cons, Multiset.cons_add]
    rw [State.abs, hmail, Multiset.map_cons]
    rfl

/-- Taking a message off the network. -/
theorem abs_eraseIdx {k : Nat} {a : Address N} {m : Message}
    (h : st.inFlight[k]? = some (a, m)) :
    st.abs.bag = m.toMsg ::ₘ
      ({ st with inFlight := st.inFlight.eraseIdx k } : State N).abs.bag := by
  obtain ⟨hk, hget⟩ := List.getElem?_eq_some_iff.1 h
  have hperm : (↑(st.inFlight.map Prod.snd) : Multiset Message) =
      m ::ₘ ↑((st.inFlight.eraseIdx k).map Prod.snd) := by
    rw [Multiset.cons_coe, Multiset.coe_eq_coe]
    have := (List.getElem_cons_eraseIdx_perm hk).map Prod.snd
    rw [hget] at this
    exact this.symm
  rw [State.abs, State.abs, State.mail, State.mail, hperm]
  simp only [Multiset.cons_add, Multiset.map_cons]

theorem decision_of_decided {id : Fin N} (h : (st.server id).decided = true) :
    Quorum.Decision st.abs (st.server id).color :=
  Or.inl ⟨id, Server.stage_of_decided h, rfl⟩

theorem decision_of_mail {m : Message} (hm : m ∈ st.mail) (hd : m.type = .decide) :
    Quorum.Decision st.abs m.color := by
  refine Or.inr (Multiset.mem_map.2 ⟨m, hm, ?_⟩)
  rw [Message.toMsg, hd]

theorem ok_put {id : Fin N} {s : Server} {sent : List (Address N × Message)}
    (h : ∀ i, (st.server i).Ok) (hs : s.Ok) (i : Fin N) : ((st.put id s sent).server i).Ok := by
  by_cases hi : i = id
  · subst hi
    simpa [State.put] using hs
  · simpa [State.put, hi] using h i

theorem start_abs (color : Fin N → String) : Quorum.Start color (start color).abs := by
  refine ⟨fun i => rfl, ?_⟩
  simp [State.abs, State.mail, start, Server.mail]

variable [NeZero N] {color : Fin N → String}

/-- A step of the system keeps every coroutine in order and is a step of the
rotating coordinator or none. -/
theorem step_refines {st' : State N} {a : Label N} (hok : ∀ i, (st.server i).Ok)
    (h : step st a = some st') :
    (∀ i, (st'.server i).Ok) ∧ (st'.abs = st.abs ∨ Next st.abs st'.abs) := by
  cases a with
  | run id =>
    obtain ⟨r, hr, rfl⟩ := Option.map_eq_some_iff.1 h
    obtain ⟨hs, habs⟩ := simulates_consensus (hok id) hr
    exact ⟨ok_put hok hs, habs⟩
  | timeout id =>
    obtain ⟨r, hr, rfl⟩ := Option.map_eq_some_iff.1 h
    obtain ⟨hs, habs⟩ := simulates_failureDetector (hok id) hr
    exact ⟨ok_put hok hs, habs⟩
  | deliver k =>
    obtain ⟨⟨a, m⟩, hm, rfl⟩ := Option.map_eq_some_iff.1 h
    refine ⟨fun i => ?_, Or.inl ?_⟩
    · cases a with
      | server id =>
        by_cases hi : i = id
        · subst hi
          simpa [State.enqueue, Server.Ok] using hok i
        · simpa [State.enqueue, hi] using hok i
      | nancy => exact hok i
    · rw [abs_enqueue, ← abs_eraseIdx hm]
      rfl
  | lose k =>
    obtain ⟨⟨a, m⟩, hm, rfl⟩ := Option.map_eq_some_iff.1 h
    exact ⟨hok, Or.inr (.lose (abs_eraseIdx hm))⟩

theorem reachable_ok (h : (system color).Reachable st) : ∀ i, (st.server i).Ok := by
  refine Transition.Machine.Reachable.invariant (P := fun st => ∀ i, (st.server i).Ok)
    (fun st hst i => ?_) (fun st a st' hok hs => (step_refines hok hs).1) h
  obtain rfl : st = start color := hst
  rfl

theorem reachable_inv (h : (system color).Reachable st) : ∃ g, Quorum.Inv color g st.abs := by
  have hinit : ∀ st, (system color).init st → Quorum.Start color st.abs := by
    intro st hst
    obtain rfl : st = start color := hst
    exact start_abs color
  exact Transition.refine_invariant (P := fun x => ∃ g, Quorum.Inv color g x)
    (fun _ => reachable_ok) hinit (fun _ _ _ hok hs => (step_refines hok hs).2)
    (fun _ hstart => ⟨_, Quorum.Inv.of_start hstart⟩)
    (fun _ _ hx hn => hx.elim fun _ hg => hg.next hn) h

/-! ## Agreement and validity -/

/-- All servers that have decided have the same color, every DECIDE that was sent
and not used carries it, and some server started with it. -/
theorem consensus_agreement (h : (system color).Reachable st) :
    ∃ k, (∀ id, (st.server id).decided = true → (st.server id).color = color k) ∧
      ∀ m ∈ st.mail, m.type = .decide → m.color = color k := by
  obtain ⟨g, hg⟩ := reachable_inv h
  by_cases hdec : ∃ c, Quorum.Decision st.abs c
  · obtain ⟨c, hc⟩ := hdec
    obtain ⟨k, rfl⟩ := hg.validity hc
    exact ⟨k, fun id hd => hg.agreement (decision_of_decided hd) hc,
      fun m hm hd => hg.agreement (decision_of_mail hm hd) hc⟩
  · refine ⟨0, fun id hd => ?_, fun m hm hd => ?_⟩
    · exact absurd ⟨_, decision_of_decided hd⟩ hdec
    · exact absurd ⟨_, decision_of_mail hm hd⟩ hdec

end System

/-- Server 1 leads the first round of three servers, decides on the second
PREPARE it sees and on two acknowledgements, and server 0 hears of it in round 2. -/
def agreedRun : List (Label 3) :=
  [.run 0, .run 0, .run 1, .run 1, .deliver 0, .deliver 0, .run 1, .run 1,
    .run 1, .run 1, .run 1, .run 1, .run 1, .deliver 0, .run 0, .deliver 0, .run 1,
    .deliver 1, .deliver 1, .run 1, .run 1, .run 1, .run 1, .run 1, .run 1,
    .deliver 2, .run 0, .run 0, .run 0, .run 0]

def agreedColor : Fin 3 → String
  | 0 => "red"
  | _ => "blue"

theorem agreedRun_isSome :
    ((system agreedColor).exec (start agreedColor) agreedRun).isSome = true := by
  decide +kernel

/-- The state `agreedRun` ends in. -/
def agreedState : State 3 :=
  ((system agreedColor).exec (start agreedColor) agreedRun).get agreedRun_isSome

theorem consensus_agreement_agreedState :
    (agreedState.server 0).decided = true ∧ (agreedState.server 1).decided = true ∧
    ∃ k, (∀ id, (agreedState.server id).decided = true →
        (agreedState.server id).color = agreedColor k) ∧
      ∀ m ∈ agreedState.mail, m.type = .decide → m.color = agreedColor k :=
  ⟨by decide +kernel, by decide +kernel, consensus_agreement (Transition.Machine.Reachable.of_get rfl
    agreedRun_isSome)⟩

end Ctconsensus
end Psets
