/-
Agreement among stubborn servers.

A server without its stubbornness is a server of Chandra-Toueg consensus with an empty
stash, and each piece of the coroutine is then a piece of that one, or loses a message, or
both loses a PROPOSE and times out.  One piece is none of these: a stubborn leader that
counts a PREPARE with a later stamp than its own and keeps its color.  Every run without
such a piece agrees.
-/
import Mathlib.Logic.Relation
import Psets.Ctconsensus.Agreement
import Psets.Ctstubborn.Server

namespace Psets
namespace Ctstubborn

open Relation (ReflTransGen)
open Quorum (Config Next Party)
open Ctconsensus (MessageType Message Address leader prepareMessage proposeMessage ackMessage
  decideMessage)

/-! ## The server without its stubbornness -/

/-- The same position with an empty stash. -/
def Pc.plain : Pc → Ctconsensus.Pc
  | .top => .top
  | .sentPrepare => .sentPrepare
  | .receivePrepare received => .receivePrepare received 0
  | .sendPropose propose j => .sendPropose propose j
  | .receivePropose => .receivePropose 0
  | .sentAck => .sentAck
  | .receiveAck success total => .receiveAck success total 0
  | .exit => .exit
  | .sendDecide decide j => .sendDecide decide j
  | .done => .done

namespace Server

def plain (s : Server) : Ctconsensus.Server where
  color := s.color
  round := s.round
  colorRound := s.colorRound
  decided := s.decided
  messageq := s.messageq
  pc := s.pc.plain

theorem plain_mail (s : Server) : s.plain.mail = s.messageq := List.append_nil s.messageq

theorem not_refuses_of_color {s : Server} {m : Message} (h : m.color = s.color) :
    ¬ s.refuses m := fun hr => hr.2 h

end Server

namespace State

variable {N : Nat}

def plain (st : State N) : Ctconsensus.State N where
  server id := (st.server id).plain
  inFlight := st.inFlight
  nancyq := st.nancyq

theorem plain_put (st : State N) (id : Fin N) (s : Server) (out : List (Address N × Message)) :
    (st.put id s out).plain = st.plain.put id s.plain out := by
  rw [plain, Ctconsensus.State.put]
  congr 1
  funext i
  by_cases hi : i = id
  · subst hi
    simp [put]
  · simp [put, hi, plain]

theorem plain_enqueue (st : State N) (m : Message) (a : Address N) :
    (st.enqueue m a).plain = st.plain.enqueue m a := by
  cases a with
  | nancy => rfl
  | server id =>
    show State.plain _ = Ctconsensus.State.mk _ _ _
    rw [plain]
    congr 1
    funext i
    by_cases hi : i = id
    · subst hi
      simp [enqueue, Server.plain, plain]
    · simp [enqueue, hi, plain]

end State

/-! ## What one iteration of `receive` can do -/

/-- A decided server makes a message up, a server that has not decided takes one. -/
inductive Received (s : Server) (mt : MessageType) : Server → Option Message → Prop where
  | fake : s.decided = true → Received s mt s (some (s.fakeMessage mt))
  | decide {m : Message} {q : List Message} : s.decided = false → s.messageq = m :: q →
      m.type = .decide →
      Received s mt { s with messageq := q, color := m.color, decided := true }
        (some (Server.fakeMessage
          { s with messageq := q, color := m.color, decided := true } mt))
  | discard {m : Message} {q : List Message} : s.decided = false → s.messageq = m :: q →
      Received s mt { s with messageq := q } none
  | wanted {m : Message} {q : List Message} : s.decided = false → s.messageq = m :: q →
      m.type = mt → m.round = s.round → Received s mt { s with messageq := q } (some m)

theorem receive_cases {s s' : Server} {mt : MessageType} {r : Option Message}
    (h : s.receive mt = some (s', r)) : Received s mt s' r := by
  unfold Server.receive at h
  by_cases hd : s.decided = true
  · rw [if_pos hd] at h
    obtain ⟨rfl, rfl⟩ := Prod.mk.inj (Option.some.inj h)
    exact .fake hd
  · rw [if_neg hd] at h
    have hf : s.decided = false := by simpa using hd
    cases hq : s.messageq with
    | nil =>
      rw [hq] at h
      cases h
    | cons m q =>
      simp only [hq] at h
      by_cases hdec : m.type = .decide
      · rw [if_pos hdec] at h
        split at h
        · obtain ⟨rfl, rfl⟩ := Prod.mk.inj (Option.some.inj h)
          exact .discard hf hq
        · obtain ⟨rfl, rfl⟩ := Prod.mk.inj (Option.some.inj h)
          exact .decide hf hq hdec
      · rw [if_neg hdec] at h
        by_cases hu : m.type ≠ mt ∨ m.round ≠ s.round
        · rw [if_pos hu] at h
          obtain ⟨rfl, rfl⟩ := Prod.mk.inj (Option.some.inj h)
          exact .discard hf hq
        · rw [if_neg hu] at h
          rw [not_or, not_not, not_not] at hu
          obtain ⟨rfl, rfl⟩ := Prod.mk.inj (Option.some.inj h)
          exact .wanted hf hq hu.1 hu.2

/-- What `receive` returns, the server without its stubbornness and its stash gets too. -/
theorem Received.plain {s s' : Server} {mt : MessageType} {m : Message}
    (h : Received s mt s' (some m)) (hmt : mt ≠ .decide) :
    s.plain.receive mt 0 = some (s'.plain, .inl m) := by
  have hnext : ∀ {m : Message} {q : List Message}, s.messageq = m :: q →
      s.plain.next 0 = some (m, 0, { s.plain with messageq := q }) := by
    intro m q hq
    have hq' : s.plain.messageq = m :: q := hq
    simp [Ctconsensus.Server.next, hq']
  unfold Ctconsensus.Server.receive
  cases h with
  | fake hd =>
    rw [if_pos (show s.plain.decided = true from hd)]
    rfl
  | decide hd hq hdec =>
    rw [if_neg (show ¬ s.plain.decided = true by simp [Server.plain, hd]), hnext hq]
    simp only [hdec, if_true]
    rfl
  | wanted hd hq htype hround =>
    rw [if_neg (show ¬ s.plain.decided = true by simp [Server.plain, hd]), hnext hq]
    have hdec : m.type ≠ .decide := by
      rw [htype]
      exact hmt
    have hthis : ¬ (m.type ≠ mt ∨ m.round ≠ s.plain.round) := by
      rw [not_or, not_not, not_not]
      exact ⟨htype, hround⟩
    simp only [if_neg hdec]
    rw [if_neg hthis]
    rfl

/-! ## One piece of a server -/

section Simulation

variable {N : Nat} {st : State N} {id : Fin N} {s : Server} {out : List (Address N × Message)}

/-- Server `id` may become `s` and send `out`. -/
structure Follows (st : State N) (id : Fin N) (s : Server)
    (out : List (Address N × Message)) : Prop where
  ok : s.plain.Ok
  next : ReflTransGen Next st.plain.abs (st.put id s out).plain.abs

theorem Follows.of_simulates (h : Ctconsensus.Simulates st.plain id (s.plain, out)) :
    Follows st id s out := by
  obtain ⟨hok, habs⟩ := h
  refine ⟨hok, ?_⟩
  rw [State.plain_put]
  rcases habs with he | hn
  · rw [he]
  · exact .single hn

/-- One piece after another. -/
theorem Follows.trans {s₁ : Server} (h₁ : Follows st id s₁ [])
    (h₂ : Follows (st.put id s₁ []) id s out) : Follows st id s out := by
  have hput : ((st.put id s₁ []).put id s out).plain = (st.put id s out).plain := by
    rw [State.plain_put, State.plain_put, State.plain_put]
    simp [Ctconsensus.State.put]
  have h := h₂.next
  rw [hput] at h
  exact ⟨h₂.ok, h₁.next.trans h⟩

/-- A message of the port is lost. -/
theorem follows_discard {m : Message} {q : List Message} {pc : Pc}
    (hok : (st.server id).plain.Ok) (hq : (st.server id).messageq = m :: q)
    (hpc : (st.server id).pc = pc) :
    Follows st id { st.server id with messageq := q, pc } [] := by
  subst hpc
  refine .of_simulates (Ctconsensus.simulates_discard (m := m) hok ?_ rfl)
  rw [Multiset.cons_coe, Multiset.coe_eq_coe]
  show ((st.server id).plain.mail).Perm (m :: (q ++ []))
  rw [Server.plain_mail, hq, List.append_nil]

variable [NeZero N]

/-- A piece that the server without its stubbornness runs too. -/
theorem follows_plain (hok : (st.server id).plain.Ok)
    (h : Ctconsensus.consensus id (st.server id).plain = some (s.plain, out)) :
    Follows st id s out :=
  .of_simulates (Ctconsensus.simulates_consensus hok h)

theorem plain_phase4 {mp : Option Message} (h : ∀ m, mp = some m → ¬ s.refuses m) :
    Ctconsensus.phase4 (N := N) s.plain mp = ((phase4 (N := N) s mp).1.plain, (phase4 s mp).2) := by
  have hfilter : (mp.filter fun m => ¬ s.refuses m) = mp := by
    cases mp with
    | none => rfl
    | some m => exact Option.filter_some_pos (by simpa using h m rfl)
  unfold phase4 Ctconsensus.phase4
  simp only [hfilter]
  by_cases hd : s.decided = true
  · rw [if_pos hd, if_pos (show s.plain.decided = true from hd)]
    rfl
  · rw [if_neg hd, if_neg (show ¬ s.plain.decided = true from hd)]
    cases mp <;> rfl

theorem follows_top (hok : (st.server id).plain.Ok) (hpc : (st.server id).pc = .top)
    (h : consensus id (st.server id) = some (s, out)) : Follows st id s out := by
  apply follows_plain hok
  have hpc' : (st.server id).plain.pc = .top := congrArg Pc.plain hpc
  simp only [consensus, hpc] at h
  simp only [Ctconsensus.consensus, hpc']
  by_cases hd : (st.server id).decided = true
  · rw [if_pos hd] at h
    rw [if_pos (show (st.server id).plain.decided = true from hd)]
    obtain ⟨rfl, rfl⟩ := Prod.mk.inj (Option.some.inj h)
    rfl
  · rw [if_neg hd] at h
    rw [if_neg (show ¬ (st.server id).plain.decided = true from hd)]
    obtain ⟨rfl, rfl⟩ := Prod.mk.inj (Option.some.inj h)
    rfl

theorem follows_sentPrepare (hok : (st.server id).plain.Ok)
    (hpc : (st.server id).pc = .sentPrepare)
    (h : consensus id (st.server id) = some (s, out)) : Follows st id s out := by
  apply follows_plain hok
  have hpc' : (st.server id).plain.pc = .sentPrepare := congrArg Pc.plain hpc
  simp only [consensus, hpc] at h
  simp only [Ctconsensus.consensus, hpc']
  show (if id = leader (st.server id).round then _ else _) = _
  by_cases hl : id = leader (st.server id).round
  · rw [if_pos hl] at h ⊢
    obtain ⟨rfl, rfl⟩ := Prod.mk.inj (Option.some.inj h)
    rfl
  · rw [if_neg hl] at h ⊢
    obtain ⟨rfl, rfl⟩ := Prod.mk.inj (Option.some.inj h)
    rfl

theorem follows_sendPropose {propose : Message} {j : Nat} (hok : (st.server id).plain.Ok)
    (hpc : (st.server id).pc = .sendPropose propose j)
    (h : consensus id (st.server id) = some (s, out)) : Follows st id s out := by
  apply follows_plain hok
  have hpc' : (st.server id).plain.pc = .sendPropose propose j := congrArg Pc.plain hpc
  simp only [consensus, hpc] at h
  simp only [Ctconsensus.consensus, hpc']
  by_cases hj : j < N
  · rw [dif_pos hj] at h ⊢
    obtain ⟨rfl, rfl⟩ := Prod.mk.inj (Option.some.inj h)
    rfl
  · rw [dif_neg hj] at h ⊢
    obtain ⟨rfl, rfl⟩ := Prod.mk.inj (Option.some.inj h)
    rfl

theorem follows_sentAck (hok : (st.server id).plain.Ok) (hpc : (st.server id).pc = .sentAck)
    (h : consensus id (st.server id) = some (s, out)) : Follows st id s out := by
  apply follows_plain hok
  have hpc' : (st.server id).plain.pc = .sentAck := congrArg Pc.plain hpc
  simp only [consensus, hpc] at h
  simp only [Ctconsensus.consensus, hpc']
  show (if id = leader (st.server id).round then _ else _) = _
  by_cases hl : id = leader (st.server id).round
  · rw [if_pos hl] at h ⊢
    obtain ⟨rfl, rfl⟩ := Prod.mk.inj (Option.some.inj h)
    rfl
  · rw [if_neg hl] at h ⊢
    obtain ⟨rfl, rfl⟩ := Prod.mk.inj (Option.some.inj h)
    rfl

theorem failureDetector_waiting {p : Ctconsensus.Server} (hpc : p.pc = .receivePropose 0) :
    Ctconsensus.failureDetector (N := N) p = some (Ctconsensus.phase4 p none) := by
  rw [Ctconsensus.failureDetector, hpc]
  rfl

theorem follows_failureDetector (hok : (st.server id).plain.Ok)
    (h : failureDetector (st.server id) = some (s, out)) : Follows st id s out := by
  unfold failureDetector at h
  split at h
  · rename_i hpc
    have hpc' : (st.server id).plain.pc = .receivePropose 0 := congrArg Pc.plain hpc
    apply Follows.of_simulates
    apply Ctconsensus.simulates_failureDetector hok
    have hnone : ∀ m, none = some m → ¬ (st.server id).refuses m := fun m hm => by cases hm
    show Ctconsensus.failureDetector (st.server id).plain = _
    rw [failureDetector_waiting hpc', plain_phase4 hnone, Option.some.inj h]
  · cases h

/-- A stubborn leader counts a PREPARE with a later stamp than its own and keeps its color. -/
def passesOver (N : Nat) (s : Server) : Bool :=
  match s.pc, s.messageq with
  | .receivePrepare received, m :: _ =>
    received ≤ N / 2 && !s.decided && m.type = .prepare && m.round = s.round && s.refuses m &&
      s.colorRound < m.colorRound
  | _, _ => false

/-- Otherwise the leader takes the PREPARE as any leader does. -/
theorem plain_collect {m : Message} (h : s.refuses m → m.colorRound ≤ s.colorRound) :
    (collect s m).plain = if s.plain.colorRound < m.colorRound then
      { s.plain with color := m.color, colorRound := m.colorRound } else s.plain := by
  unfold collect
  by_cases hr : s.refuses m
  · rw [if_pos hr, if_neg (show ¬ s.plain.colorRound < m.colorRound from Nat.not_lt.2 (h hr))]
  · rw [if_neg hr]
    by_cases hlt : s.colorRound < m.colorRound
    · rw [if_pos hlt, if_pos (show s.plain.colorRound < m.colorRound from hlt)]
      rfl
    · rw [if_neg hlt, if_neg (show ¬ s.plain.colorRound < m.colorRound from hlt)]

omit [NeZero N] in
theorem passesOver_of_refuses {received : Nat} {m : Message} {q : List Message}
    (hpc : s.pc = .receivePrepare received) (hle : received ≤ N / 2) (hd : s.decided = false)
    (hq : s.messageq = m :: q) (htype : m.type = .prepare) (hround : m.round = s.round)
    (hr : s.refuses m) (hlt : s.colorRound < m.colorRound) : passesOver N s = true := by
  simp [passesOver, hpc, hq, hle, hd, htype, hround, hr, hlt]

theorem follows_receivePrepare {received : Nat} (hok : (st.server id).plain.Ok)
    (hpc : (st.server id).pc = .receivePrepare received)
    (hheeds : passesOver N (st.server id) = false)
    (h : consensus id (st.server id) = some (s, out)) : Follows st id s out := by
  have hpc' : (st.server id).plain.pc = .receivePrepare received 0 := congrArg Pc.plain hpc
  simp only [consensus, hpc] at h
  by_cases hle : received ≤ N / 2
  · rw [if_pos hle] at h
    cases hr : (st.server id).receive .prepare with
    | none =>
      rw [hr] at h
      cases h
    | some x =>
      obtain ⟨s₁, r⟩ := x
      have hrec := receive_cases hr
      rw [hr] at h
      cases r with
      | none =>
        obtain ⟨rfl, rfl⟩ := Prod.mk.inj (Option.some.inj h)
        cases hrec with
        | discard hd hq => exact follows_discard hok hq rfl
      | some m =>
        obtain ⟨rfl, rfl⟩ := Prod.mk.inj (Option.some.inj h)
        have hcollect : ({ s₁ with pc := .receivePrepare (received + 1) } : Server).refuses m →
            m.colorRound ≤ s₁.colorRound := by
          intro href
          cases hrec with
          | fake hd => exact Nat.le_refl _
          | decide hd hq hdec => exact Nat.le_refl _
          | wanted hd hq htype hround =>
            by_contra hlt
            have := passesOver_of_refuses hpc hle hd hq htype hround href (Nat.not_le.1 hlt)
            rw [hheeds] at this
            cases this
        apply follows_plain hok
        simp only [Ctconsensus.consensus, hpc', if_pos hle, hrec.plain (by decide)]
        rw [plain_collect hcollect]
        show (if s₁.plain.colorRound < m.colorRound then _ else _) =
          some (if s₁.plain.colorRound < m.colorRound then _ else _, _)
        split <;> rfl
  · rw [if_neg hle] at h
    apply follows_plain hok
    simp only [Ctconsensus.consensus, hpc', if_neg hle]
    by_cases hd : (st.server id).decided = true
    · rw [if_pos hd] at h
      rw [if_pos (show (st.server id).plain.decided = true from hd)]
      obtain ⟨rfl, rfl⟩ := Prod.mk.inj (Option.some.inj h)
      rfl
    · rw [if_neg hd] at h
      rw [if_neg (show ¬ (st.server id).plain.decided = true from hd)]
      obtain ⟨rfl, rfl⟩ := Prod.mk.inj (Option.some.inj h)
      rfl

/-- A PROPOSE that is refused is lost, and then the server times out. -/
theorem follows_refused {m : Message} {q : List Message} (hok : (st.server id).plain.Ok)
    (hpc : (st.server id).pc = .receivePropose) (hq : (st.server id).messageq = m :: q)
    (hr : (st.server id).refuses m)
    (h : phase4 { st.server id with messageq := q } (some m) = (s, out)) :
    Follows st id s out := by
  have hdiscard : Follows st id { st.server id with messageq := q } [] :=
    follows_discard hok hq rfl
  have hnone : phase4 (N := N) { st.server id with messageq := q } (some m) =
      phase4 { st.server id with messageq := q } none := by
    have hr' : ({ st.server id with messageq := q } : Server).refuses m := hr
    unfold phase4
    rw [Option.filter_some_neg (by simpa using hr')]
    rfl
  have hserver : (st.put id { st.server id with messageq := q } []).server id =
      { st.server id with messageq := q } := by simp [State.put]
  refine hdiscard.trans (follows_failureDetector (by rw [hserver]; exact hdiscard.ok) ?_)
  rw [hserver, failureDetector, hpc, ← hnone, h]

theorem follows_receivePropose (hok : (st.server id).plain.Ok)
    (hpc : (st.server id).pc = .receivePropose)
    (h : consensus id (st.server id) = some (s, out)) : Follows st id s out := by
  have hpc' : (st.server id).plain.pc = .receivePropose 0 := congrArg Pc.plain hpc
  simp only [consensus, hpc] at h
  cases hrcv : (st.server id).receive .propose with
  | none =>
    rw [hrcv] at h
    cases h
  | some x =>
    obtain ⟨s₁, r⟩ := x
    have hrec := receive_cases hrcv
    rw [hrcv] at h
    cases r with
    | none =>
      obtain ⟨rfl, rfl⟩ := Prod.mk.inj (Option.some.inj h)
      cases hrec with
      | discard hd hq => exact follows_discard hok hq rfl
    | some m =>
      have hphase : phase4 s₁ (some m) = (s, out) := Option.some.inj h
      by_cases hr : s₁.refuses m
      · cases hrec with
        | fake hd => exact absurd hr (Server.not_refuses_of_color rfl)
        | decide hd hq hdec => exact absurd hr (Server.not_refuses_of_color rfl)
        | wanted hd hq htype hround => exact follows_refused hok hpc hq hr hphase
      · have hsome : ∀ m', some m = some m' → ¬ s₁.refuses m' := by
          intro m' hm'
          rwa [← Option.some.inj hm']
        apply follows_plain hok
        simp only [Ctconsensus.consensus, hpc', hrec.plain (by decide)]
        rw [plain_phase4 hsome, hphase]

theorem follows_receiveAck {success total : Nat} (hok : (st.server id).plain.Ok)
    (hpc : (st.server id).pc = .receiveAck success total)
    (h : consensus id (st.server id) = some (s, out)) : Follows st id s out := by
  have hpc' : (st.server id).plain.pc = .receiveAck success total 0 := congrArg Pc.plain hpc
  simp only [consensus, hpc] at h
  by_cases hle : total ≤ N / 2
  · rw [if_pos hle] at h
    cases hr : (st.server id).receive .ack with
    | none =>
      rw [hr] at h
      cases h
    | some x =>
      obtain ⟨s₁, r⟩ := x
      have hrec := receive_cases hr
      rw [hr] at h
      cases r with
      | none =>
        obtain ⟨rfl, rfl⟩ := Prod.mk.inj (Option.some.inj h)
        cases hrec with
        | discard hd hq => exact follows_discard hok hq rfl
      | some m =>
        obtain ⟨rfl, rfl⟩ := Prod.mk.inj (Option.some.inj h)
        apply follows_plain hok
        simp only [Ctconsensus.consensus, hpc', if_pos hle, hrec.plain (by decide)]
        rfl
  · rw [if_neg hle] at h
    apply follows_plain hok
    simp only [Ctconsensus.consensus, hpc', if_neg hle]
    by_cases hd : (st.server id).decided = true
    · rw [if_pos hd] at h
      rw [if_pos (show (st.server id).plain.decided = true from hd)]
      obtain ⟨rfl, rfl⟩ := Prod.mk.inj (Option.some.inj h)
      rfl
    · rw [if_neg hd] at h
      rw [if_neg (show ¬ (st.server id).plain.decided = true from hd)]
      by_cases hs : N / 2 < success
      · rw [if_pos hs] at h ⊢
        obtain ⟨rfl, rfl⟩ := Prod.mk.inj (Option.some.inj h)
        rfl
      · rw [if_neg hs] at h ⊢
        obtain ⟨rfl, rfl⟩ := Prod.mk.inj (Option.some.inj h)
        rfl

theorem follows_exit (hok : (st.server id).plain.Ok) (hpc : (st.server id).pc = .exit)
    (h : consensus id (st.server id) = some (s, out)) : Follows st id s out := by
  have hpc' : (st.server id).plain.pc = .exit := congrArg Pc.plain hpc
  have hd : (st.server id).decided = true := by
    unfold Ctconsensus.Server.Ok at hok
    rw [hpc'] at hok
    exact hok
  simp only [consensus, hpc] at h
  obtain ⟨rfl, rfl⟩ := Prod.mk.inj (Option.some.inj h)
  refine .of_simulates (Ctconsensus.simulates_stutter ⟨hd, rfl⟩ rfl ?_)
  simp [Ctconsensus.Server.party, Ctconsensus.Server.stage, Server.plain, State.plain, hd]

/-- The DECIDEs go to the other servers first and to Nancy last. -/
theorem follows_sendDecide {decide : Message} {j : Nat} (hok : (st.server id).plain.Ok)
    (hpc : (st.server id).pc = .sendDecide decide j)
    (h : consensus id (st.server id) = some (s, out)) : Follows st id s out := by
  have hpc' : (st.server id).plain.pc = .sendDecide decide j := congrArg Pc.plain hpc
  by_cases hj : j < N
  · apply follows_plain hok
    simp only [consensus, hpc, dif_pos hj] at h
    simp only [Ctconsensus.consensus, hpc', dif_pos hj]
    by_cases hid : j ≠ id.val
    · rw [if_pos hid] at h ⊢
      obtain ⟨rfl, rfl⟩ := Prod.mk.inj (Option.some.inj h)
      rfl
    · rw [if_neg hid] at h ⊢
      obtain ⟨rfl, rfl⟩ := Prod.mk.inj (Option.some.inj h)
      rfl
  · have hsent : (st.server id).decided = true ∧
        decide = decideMessage (st.server id).color := by
      unfold Ctconsensus.Server.Ok at hok
      rw [hpc'] at hok
      exact hok
    simp only [consensus, hpc, dif_neg hj] at h
    obtain ⟨rfl, rfl⟩ := Prod.mk.inj (Option.some.inj h)
    have hstop : (st.server id).plain.stage = .stopped :=
      Ctconsensus.Server.stage_of_decided hsent.1
    refine .of_simulates (Ctconsensus.simulates_send (p := (st.server id).plain.party) hsent.1 rfl
      ?_ ?_)
    · simp [Ctconsensus.Server.party, Ctconsensus.Server.stage, Server.plain, hsent.1]
    · rw [hsent.2]
      exact .announce id hstop

theorem follows_consensus (hok : (st.server id).plain.Ok)
    (hheeds : passesOver N (st.server id) = false)
    (h : consensus id (st.server id) = some (s, out)) : Follows st id s out := by
  cases hpc : (st.server id).pc with
  | top => exact follows_top hok hpc h
  | sentPrepare => exact follows_sentPrepare hok hpc h
  | receivePrepare received => exact follows_receivePrepare hok hpc hheeds h
  | sendPropose propose j => exact follows_sendPropose hok hpc h
  | receivePropose => exact follows_receivePropose hok hpc h
  | sentAck => exact follows_sentAck hok hpc h
  | receiveAck success total => exact follows_receiveAck hok hpc h
  | exit => exact follows_exit hok hpc h
  | sendDecide decide j => exact follows_sendDecide hok hpc h
  | done =>
    simp only [consensus, hpc] at h
    cases h

end Simulation

/-! ## The system -/

section System

variable {N : Nat} {st : State N}

/-- Every message that was sent and not used. -/
def State.mail (st : State N) : Multiset Message :=
  ↑(st.inFlight.map Prod.snd) + ↑st.nancyq + ∑ i, ↑(st.server i).messageq

theorem plain_mail (st : State N) : st.plain.mail = st.mail := by
  rw [Ctconsensus.State.mail, State.mail]
  congr 1
  refine Finset.sum_congr rfl fun i _ => ?_
  show ((st.server i).plain.mail : Multiset Message) = _
  rw [Server.plain_mail]

theorem plain_ok_put {id : Fin N} {s : Server} {out : List (Address N × Message)}
    (h : ∀ i, (st.server i).plain.Ok) (hs : s.plain.Ok) (i : Fin N) :
    ((st.put id s out).server i).plain.Ok := by
  by_cases hi : i = id
  · subst hi
    simpa [State.put] using hs
  · simpa [State.put, hi] using h i

variable [NeZero N]

/-- No leader passes over a PREPARE in the step. -/
def Heeds (st : State N) : Label N → Prop
  | .run id => passesOver N (st.server id) = false
  | _ => True

instance (st : State N) : (a : Label N) → Decidable (Heeds st a)
  | .run id => inferInstanceAs (Decidable (passesOver N (st.server id) = false))
  | .timeout _ | .deliver _ | .lose _ => .isTrue trivial

/-- A step keeps every coroutine in order and is some steps of the rotating coordinator. -/
theorem step_follows {st' : State N} {a : Label N} (hok : ∀ i, (st.server i).plain.Ok)
    (hheeds : Heeds st a) (h : step st a = some st') :
    (∀ i, (st'.server i).plain.Ok) ∧ ReflTransGen Next st.plain.abs st'.plain.abs := by
  cases a with
  | run id =>
    obtain ⟨⟨s, out⟩, hr, rfl⟩ := Option.map_eq_some_iff.1 h
    have hf := follows_consensus (hok id) hheeds hr
    exact ⟨plain_ok_put hok hf.ok, hf.next⟩
  | timeout id =>
    obtain ⟨⟨s, out⟩, hr, rfl⟩ := Option.map_eq_some_iff.1 h
    have hf := follows_failureDetector (hok id) hr
    exact ⟨plain_ok_put hok hf.ok, hf.next⟩
  | deliver k =>
    obtain ⟨⟨a, m⟩, hk, rfl⟩ := Option.map_eq_some_iff.1 h
    have hflight : st.plain.inFlight[k]? = some (a, m) := hk
    refine ⟨fun i => ?_, ?_⟩
    · cases a with
      | server id =>
        by_cases hi : i = id
        · subst hi
          simpa [State.enqueue, Server.plain, Ctconsensus.Server.Ok] using hok i
        · simpa [State.enqueue, hi] using hok i
      | nancy => exact hok i
    · rw [State.plain_enqueue, Ctconsensus.abs_enqueue]
      have hbag := Ctconsensus.abs_eraseIdx hflight
      have hsame : st.plain.abs = Config.mk st.plain.abs.party (m.toMsg ::ₘ
          ({ st.plain with inFlight := st.plain.inFlight.eraseIdx k } :
            Ctconsensus.State N).abs.bag) := congrArg (Config.mk st.plain.abs.party) hbag
      exact hsame ▸ .refl
  | lose k =>
    obtain ⟨⟨a, m⟩, hk, rfl⟩ := Option.map_eq_some_iff.1 h
    have hflight : st.plain.inFlight[k]? = some (a, m) := hk
    exact ⟨hok, .single (.lose (Ctconsensus.abs_eraseIdx hflight))⟩

variable {color : Fin N → String} {stubborn : Fin N → Bool}

omit [NeZero N] in
/-- The rotating coordinator keeps its invariant along its runs. -/
theorem inv_of_steps {c c' : Config N String} (h : ReflTransGen Next c c')
    (hc : ∃ g, Quorum.Inv color g c) : ∃ g, Quorum.Inv color g c' := by
  induction h with
  | refl => exact hc
  | tail _ hn ih =>
    obtain ⟨g, hg⟩ := ih
    exact hg.next hn

theorem heeding_inv (h : (system color stubborn).ReachableBy Heeds st) :
    (∀ i, (st.server i).plain.Ok) ∧ ∃ g, Quorum.Inv color g st.plain.abs := by
  refine h.invariant (P := fun st => (∀ i, (st.server i).plain.Ok) ∧
    ∃ g, Quorum.Inv color g st.plain.abs) (fun st hst => ?_) fun st a st' hs hheeds hstep => ?_
  · obtain rfl : st = start color stubborn := hst
    have hstart : Quorum.Start color (start color stubborn).plain.abs :=
      Ctconsensus.start_abs color
    exact ⟨fun i => rfl, _, Quorum.Inv.of_start hstart⟩
  · obtain ⟨hok, hnext⟩ := step_follows hs.1 hheeds hstep
    exact ⟨hok, inv_of_steps hnext hs.2⟩

/-- Whatever servers are stubborn, in a run in which no leader passes over a PREPARE all
servers that have decided have one color, every DECIDE on its way carries it, and some
server started with it. -/
theorem stubborn_agreement (h : (system color stubborn).ReachableBy Heeds st) :
    ∃ k, (∀ id, (st.server id).decided = true → (st.server id).color = color k) ∧
      ∀ m ∈ st.mail, m.type = .decide → m.color = color k := by
  obtain ⟨_, g, hg⟩ := heeding_inv h
  have hserver : ∀ {id}, (st.server id).decided = true →
      Quorum.Decision st.plain.abs (st.server id).color := by
    intro id hd
    have hplain : (st.plain.server id).decided = true := hd
    exact Ctconsensus.decision_of_decided hplain
  have hmail : ∀ {m}, m ∈ st.mail → m.type = .decide →
      Quorum.Decision st.plain.abs m.color := by
    intro m hm htype
    rw [← plain_mail] at hm
    exact Ctconsensus.decision_of_mail hm htype
  by_cases hdec : ∃ c, Quorum.Decision st.plain.abs c
  · obtain ⟨c, hc⟩ := hdec
    obtain ⟨k, rfl⟩ := hg.validity hc
    exact ⟨k, fun id hd => hg.agreement (hserver hd) hc,
      fun m hm hd => hg.agreement (hmail hm hd) hc⟩
  · exact ⟨0, fun id hd => absurd ⟨_, hserver hd⟩ hdec,
      fun m hm hd => absurd ⟨_, hmail hm hd⟩ hdec⟩

end System

-- for the numerals of the runs
local instance neZero_three : NeZero 3 := ⟨by decide⟩

def rivalColor : Fin 3 → String
  | 2 => "blue"
  | _ => "red"

/-- Server 2 is stubborn. -/
def rival (id : Fin 3) : Bool := id = 2

/-- Server 1 leads the first round and proposes red, which server 0 acknowledges and
server 2 refuses. -/
def firstRound : List (Label 3) :=
  [.run 0, .run 0, .run 1, .run 1, .run 2, .run 2, .deliver 0, .deliver 0, .run 1, .run 1,
    .run 1, .run 1, .run 1, .run 1, .run 1, .deliver 1, .deliver 2, .run 0, .run 2,
    .deliver 1, .run 1, .run 1, .deliver 1, .deliver 2, .run 1, .run 1, .run 1, .run 1]

/-- Server 0 hears of the decision, and server 2 refuses to. -/
def heededRun : List (Label 3) :=
  firstRound ++ [.run 1, .run 1, .run 1, .run 1, .deliver 2, .deliver 2, .run 0, .run 0,
    .run 0, .run 0, .run 2, .run 2, .run 2, .run 2]

/-- Server 2 leads the second round, passes over the PREPARE of server 0 and proposes blue,
which server 0 acknowledges. -/
def passedOverRun : List (Label 3) :=
  firstRound ++ [.run 0, .run 0, .run 0, .run 2, .run 2, .run 2, .deliver 2, .deliver 2,
    .run 2, .run 2, .run 2, .run 2, .run 2, .run 2, .run 2, .deliver 2, .run 0, .deliver 3,
    .run 2, .run 2, .deliver 3, .deliver 3, .run 2, .run 2, .run 2]

theorem heededRun_isSome :
    ((system rivalColor rival).exec (start rivalColor rival) heededRun).isSome = true := by
  decide +kernel

theorem passedOverRun_isSome :
    ((system rivalColor rival).exec (start rivalColor rival) passedOverRun).isSome = true := by
  decide +kernel

/-- The state `heededRun` ends in. -/
def heededState : State 3 :=
  ((system rivalColor rival).exec (start rivalColor rival) heededRun).get heededRun_isSome

/-- The state `passedOverRun` ends in. -/
def passedOverState : State 3 :=
  ((system rivalColor rival).exec (start rivalColor rival) passedOverRun).get
    passedOverRun_isSome

theorem heededState_reachable : (system rivalColor rival).ReachableBy Heeds heededState :=
  .of_exec (.init rfl) (by decide +kernel : (system rivalColor rival).Within Heeds
    (start rivalColor rival) heededRun) (Option.some_get heededRun_isSome).symm

theorem stubborn_agreement_heededState :
    (heededState.server 0).decided = true ∧ (heededState.server 1).decided = true ∧
    (heededState.server 2).color = "blue" ∧
    ∃ k, (∀ id, (heededState.server id).decided = true →
        (heededState.server id).color = rivalColor k) ∧
      ∀ m ∈ heededState.mail, m.type = .decide → m.color = rivalColor k :=
  ⟨by decide +kernel, by decide +kernel, by decide +kernel,
    stubborn_agreement heededState_reachable⟩

/-- Without the condition two servers may decide different colors. -/
theorem passedOverState_disagrees : (system rivalColor rival).Reachable passedOverState ∧
    ((passedOverState.server 1).decided = true ∧ (passedOverState.server 1).color = "red") ∧
    (passedOverState.server 2).decided = true ∧ (passedOverState.server 2).color = "blue" :=
  ⟨.of_get rfl passedOverRun_isSome, ⟨by decide +kernel, by decide +kernel⟩,
    by decide +kernel, by decide +kernel⟩

end Ctstubborn
end Psets
