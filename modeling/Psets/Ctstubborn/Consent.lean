/-
A color is decided with the consent of a majority.

Every server acknowledges a round once at most, and a leader counts an acknowledgement once
at most, whatever the network does.  So a leader that decides has been acknowledged by more
than half of the servers, and none of these is stubborn for another color.
-/
import Psets.Ctstubborn.Agreement
import Psets.Ctstubborn.Steadfast
import Psets.Quorum.Votes

namespace Psets
namespace Ctstubborn

open Transition
open Ctconsensus (MessageType Message Address leader prepareMessage proposeMessage ackMessage
  decideMessage)

variable {N : Nat} [NeZero N]

/-! ## What one piece does with acknowledgements -/

/-- The server has answered the PROPOSE of its round, or never will. -/
def Pc.answered : Pc → Bool
  | .sentAck | .receiveAck _ _ | .exit | .sendDecide _ _ | .done => true
  | _ => false

/-- The part of a round in which the leader stands by its PROPOSE. -/
def Pc.proposing : Pc → Bool
  | .receivePropose | .sentAck | .receiveAck _ _ => true
  | _ => false

/-- The round that a message acknowledges. -/
def ballot (m : Message) : Option Nat :=
  if m.type = .ack ∧ m.ack = true then some m.round else none

/-- The acknowledgements of round `r` that the server has counted. -/
def counted (r : Nat) (s : Server) : Nat :=
  match s.pc with
  | .receiveAck success _ => if s.round = r ∧ s.decided = false then success else 0
  | _ => 0

/-- The acknowledgements of round `r` that the server has counted or can count. -/
def tally (r : Nat) (s : Server) : Nat :=
  counted r s + s.messageq.countP fun m => ballot m = some r

/-- Leaders count, and who has decided says so. -/
def Seated (id : Fin N) (s : Server) : Prop :=
  match s.pc with
  | .receiveAck _ _ => id = leader s.round
  | .exit | .done => s.decided = true
  | .sendDecide decide _ => s.decided = true ∧ decide = decideMessage s.color
  | _ => True

/-- What a piece of server `id` does with rounds, acknowledgements and decisions. -/
structure Piece (id : Fin N) (s s' : Server) (out : List (Address N × Message)) : Prop where
  seated : Seated id s → Seated id s'
  round : s.round ≤ s'.round
  answered : s'.round = s.round → s.pc.answered = true → s'.pc.answered = true
  tally : ∀ r, tally r s' ≤ tally r s
  length : out.length ≤ 1
  acks : ∀ a m r, (a, m) ∈ out → ballot m = some r → r = s.round ∧ s.pc.answered = false ∧
    s'.round = s.round ∧ s'.pc.answered = true
  decided : s.decided = true → s'.decided = true ∧ s'.color = s.color
  decides : s.decided = false → s'.decided = true →
    (∃ m ∈ s.messageq, m.type = .decide ∧ m.color = s'.color) ∨
      ∃ success total, s.pc = .receiveAck success total ∧ N / 2 < success ∧ s'.color = s.color
  announces : Seated id s → ∀ a m, (a, m) ∈ out → m.type = .decide →
    s.decided = true ∧ m.color = s.color
  proposing : s'.decided = false → s'.pc.proposing = true → s'.round = s.round ∧
    (s.pc.proposing = true ∧ (s'.color = s.color ∨ ∃ m ∈ s.messageq, m.type = .propose ∧
        m.round = s.round ∧ m.color = s'.color) ∨
      (∃ p j, s.pc = .sendPropose p j ∧ N ≤ j ∧ s'.color = s.color) ∨ id ≠ leader s.round)
  sending : ∀ p j, s'.pc = .sendPropose p j → j = 0 ∨
    (∃ i, s.pc = .sendPropose p i) ∧ ∃ a, (a, p) ∈ out

theorem ballot_round {m : Message} {r : Nat} (h : ballot m = some r) : r = m.round := by
  unfold ballot at h
  split at h
  · exact (Option.some.inj h).symm
  · cases h

theorem counted_of_ne {r : Nat} {s : Server} (h : ∀ success total, s.pc ≠ .receiveAck success total) :
    counted r s = 0 := by
  unfold counted
  split
  · rename_i success total hpc
    exact absurd hpc (h success total)
  · rfl

theorem counted_of_decided {r : Nat} {s : Server} (h : s.decided = true) : counted r s = 0 := by
  unfold counted
  split
  · rw [h, if_neg (by simp)]
  · rfl

theorem tally_of_tail {r : Nat} {s s' : Server} {m : Message} {q : List Message}
    (hq : s.messageq = m :: q) (hq' : s'.messageq = q) (h : counted r s' ≤ counted r s) :
    tally r s' ≤ tally r s := by
  unfold tally
  rw [hq, hq']
  have hcount : q.countP (fun m => ballot m = some r) ≤
      (m :: q).countP (fun m => ballot m = some r) := (List.sublist_cons_self m q).countP_le
  omega

theorem tally_of_same {r : Nat} {s s' : Server} (hq : s'.messageq = s.messageq)
    (h : counted r s' ≤ counted r s) : tally r s' ≤ tally r s := by
  unfold tally
  rw [hq]
  omega

/-- A piece that sends nothing and keeps the color and the round. -/
theorem Piece.quiet {id : Fin N} {s s' : Server} (hseat : Seated id s → Seated id s')
    (hround : s'.round = s.round) (hans : s.pc.answered = true → s'.pc.answered = true)
    (htally : ∀ r, Ctstubborn.tally r s' ≤ Ctstubborn.tally r s) (hdec : s'.decided = s.decided)
    (hcolor : s'.color = s.color)
    (hprop : s'.pc.proposing = true → s.pc.proposing = true ∨
      (∃ p j, s.pc = .sendPropose p j ∧ N ≤ j) ∨ id ≠ leader s.round)
    (hsend : ∀ p j, s'.pc = .sendPropose p j → j = 0) : Piece id s s' [] where
  seated := hseat
  round := Nat.le_of_eq hround.symm
  answered _ := hans
  tally := htally
  length := Nat.zero_le 1
  acks a m r h := by cases h
  decided h := ⟨hdec.trans h, hcolor⟩
  decides h h' := by
    rw [hdec, h] at h'
    cases h'
  announces _ a m h := by cases h
  proposing _ h := by
    refine ⟨hround, ?_⟩
    rcases hprop h with h | ⟨p, j, h, hj⟩ | h
    · exact .inl ⟨h, .inl hcolor⟩
    · exact .inr (.inl ⟨p, j, h, hj, hcolor⟩)
    · exact .inr (.inr h)
  sending p j h := .inl (hsend p j h)

/-- A message of the port is lost. -/
theorem piece_discard {id : Fin N} {s : Server} {m : Message} {q : List Message}
    (hq : s.messageq = m :: q) (hpc : ∀ p j, s.pc ≠ .sendPropose p j) :
    Piece id s { s with messageq := q } [] := by
  refine .quiet (fun h => h) rfl (fun h => h) (fun r => ?_) rfl rfl (fun h => .inl h) ?_
  · exact tally_of_tail hq rfl (Nat.le_refl _)
  · exact fun p j h => absurd h (hpc p j)

/-- A DECIDE is taken, and the coroutine stays where it does not answer. -/
theorem piece_decide {id : Fin N} {s : Server} {m : Message} {q : List Message} {pc : Pc}
    (hd : s.decided = false) (hq : s.messageq = m :: q) (htype : m.type = .decide)
    (hseat : Seated id s → Seated id { s with messageq := q, color := m.color, decided := true, pc })
    (hans : s.pc.answered = true → pc.answered = true) (hpc : ∀ p j, pc ≠ .sendPropose p j) :
    Piece id s { s with messageq := q, color := m.color, decided := true, pc } [] where
  seated := hseat
  round := Nat.le_refl _
  answered _ := hans
  tally r := tally_of_tail hq rfl (by rw [counted_of_decided rfl]; exact Nat.zero_le _)
  length := Nat.zero_le 1
  acks a m r h := by cases h
  decided h := by
    rw [hd] at h
    cases h
  decides _ _ := .inl ⟨m, by rw [hq]; exact List.mem_cons_self, htype, rfl⟩
  announces _ a m h := by cases h
  proposing h := by cases h
  sending p j h := absurd h (hpc p j)

/-- The PROPOSE of the round is answered. -/
theorem piece_ack {id : Fin N} {s s' : Server} {a : Address N} {b : Bool} {round : Nat}
    (hpc : s.pc = .receivePropose) (hd : s.decided = false) (hpc' : s'.pc = .sentAck)
    (hd' : s'.decided = false) (hround : s'.round = s.round) (hr : round = s.round)
    (hq : s'.messageq = s.messageq ∨ ∃ m, s.messageq = m :: s'.messageq)
    (hcolor : s'.color = s.color ∨ ∃ m ∈ s.messageq, m.type = .propose ∧ m.round = s.round ∧
      m.color = s'.color) : Piece id s s' [(a, ackMessage round b)] where
  seated _ := by
    unfold Seated
    rw [hpc']
    trivial
  round := Nat.le_of_eq hround.symm
  answered _ _ := by
    rw [hpc']
    rfl
  tally r := by
    have hcount : counted r s' = 0 := counted_of_ne fun i j h => by
      rw [hpc'] at h
      cases h
    rcases hq with hq | ⟨m, hq⟩
    · unfold Ctstubborn.tally
      rw [hcount, hq]
      omega
    · exact tally_of_tail hq rfl (by rw [hcount]; exact Nat.zero_le _)
  length := Nat.le_refl 1
  acks a' m r h hm := by
    obtain ⟨_, rfl⟩ := Prod.mk.inj (List.mem_singleton.1 h)
    refine ⟨(ballot_round hm).trans hr, ?_, hround, ?_⟩
    · rw [hpc]
      rfl
    · rw [hpc']
      rfl
  decided h := by
    rw [hd] at h
    cases h
  decides _ h := by
    rw [hd'] at h
    cases h
  announces _ a' m h htype := by
    obtain ⟨_, rfl⟩ := Prod.mk.inj (List.mem_singleton.1 h)
    cases htype
  proposing _ _ := ⟨hround, .inl ⟨by rw [hpc]; rfl, hcolor⟩⟩
  sending p j h := by
    rw [hpc'] at h
    cases h

/-- A server that has decided leaves its loop. -/
theorem piece_exit {id : Fin N} {s : Server} (hd : s.decided = true) :
    Piece id s { s with pc := .exit } [] := by
  refine .quiet (fun _ => hd) rfl (fun _ => rfl) (fun r => ?_) rfl rfl (fun h => by cases h)
    fun p j h => by cases h
  exact tally_of_same rfl (by rw [counted_of_decided hd]; exact Nat.zero_le _)

theorem piece_phase4_none {id : Fin N} {s : Server} (hpc : s.pc = .receivePropose)
    (hd : s.decided = false) : Piece id s (phase4 (N := N) s none).1 (phase4 s none).2 := by
  have hnd : ¬ s.decided = true := by simp [hd]
  unfold phase4
  rw [if_neg hnd]
  exact piece_ack hpc hd rfl hd rfl rfl (.inl rfl) (.inl rfl)

theorem piece_receivePropose {id : Fin N} {s s' : Server} {out : List (Address N × Message)}
    (hpc : s.pc = .receivePropose) (h : consensus id s = some (s', out)) :
    Piece id s s' out := by
  simp only [consensus, hpc] at h
  cases hrcv : s.receive .propose with
  | none =>
    rw [hrcv] at h
    cases h
  | some x =>
    obtain ⟨s₁, r⟩ := x
    have hrec := receive_cases hrcv
    rw [hrcv] at h
    cases r with
    | none =>
      obtain ⟨rfl, rfl⟩ := Prod.mk.inj (Option.some.inj h)
      cases hrec with
      | discard hd hq => exact piece_discard hq fun p j h => by rw [hpc] at h; cases h
    | some m =>
      have hphase : phase4 s₁ (some m) = (s', out) := Option.some.inj h
      cases hrec with
      | fake hd =>
        unfold phase4 at hphase
        rw [if_pos hd] at hphase
        obtain ⟨rfl, rfl⟩ := Prod.mk.inj hphase
        exact piece_exit hd
      | decide hd hq htype =>
        unfold phase4 at hphase
        rw [if_pos rfl] at hphase
        obtain ⟨rfl, rfl⟩ := Prod.mk.inj hphase
        exact piece_decide hd hq htype (fun _ => rfl) (fun _ => rfl) fun p j h => by cases h
      | @wanted m q hd hq htype hround =>
        have hnd : ¬ ({ s with messageq := q } : Server).decided = true := by simp [hd]
        unfold phase4 at hphase
        rw [if_neg hnd] at hphase
        split at hphase
        · rename_i m' hm'
          obtain rfl : m = m' := by
            rw [Option.filter_eq_some_iff] at hm'
            exact Option.some.inj hm'.1
          obtain ⟨rfl, rfl⟩ := Prod.mk.inj hphase
          refine piece_ack hpc hd rfl hd rfl rfl (.inr ⟨m, hq⟩) (.inr ⟨m, ?_, htype, hround, rfl⟩)
          rw [hq]
          exact List.mem_cons_self
        · obtain ⟨rfl, rfl⟩ := Prod.mk.inj hphase
          exact piece_ack hpc hd rfl hd rfl rfl (.inr ⟨m, hq⟩) (.inl rfl)

/-- The coroutine goes to a position where it counts nothing. -/
theorem piece_goto {id : Fin N} {s : Server} {pc : Pc} (hseat : Seated id s → Seated id { s with pc })
    (hans : s.pc.answered = true → pc.answered = true)
    (hcount : ∀ r, counted r { s with pc } = 0)
    (hprop : pc.proposing = true → s.pc.proposing = true ∨
      (∃ p j, s.pc = .sendPropose p j ∧ N ≤ j) ∨ id ≠ leader s.round)
    (hsend : ∀ p j, pc = .sendPropose p j → j = 0) : Piece id s { s with pc } [] :=
  .quiet hseat rfl hans
    (fun r => tally_of_same rfl (by rw [hcount]; exact Nat.zero_le _)) rfl rfl hprop hsend

theorem collect_own {s : Server} {m : Message} (h : m.color = s.color)
    (hts : m.colorRound ≤ s.colorRound) : collect s m = s := by
  rw [collect, if_neg (Server.not_refuses_of_color h), if_neg (Nat.not_lt.2 hts)]

theorem collect_spec (s : Server) (m : Message) : (collect s m).pc = s.pc ∧
    (collect s m).round = s.round ∧ (collect s m).messageq = s.messageq ∧
    (collect s m).decided = s.decided := by
  unfold collect
  split
  · exact ⟨rfl, rfl, rfl, rfl⟩
  · split <;> exact ⟨rfl, rfl, rfl, rfl⟩

/-- A leader that has not decided takes a PREPARE. -/
theorem piece_collect {id : Fin N} {s s' : Server} {m : Message}
    (hd : s.decided = false) (hans : s.pc.answered = false)
    (hpc' : ∃ k, s'.pc = .receivePrepare k) (hround : s'.round = s.round)
    (hd' : s'.decided = false) (hq : s.messageq = m :: s'.messageq) : Piece id s s' [] := by
  obtain ⟨k, hpc'⟩ := hpc'
  have hcount : ∀ r, counted r s' = 0 := fun r => counted_of_ne fun i j h => by
    rw [hpc'] at h
    cases h
  exact {
    seated := fun _ => by
      unfold Seated
      rw [hpc']
      trivial
    round := Nat.le_of_eq hround.symm
    answered := fun _ h => by
      rw [hans] at h
      cases h
    tally := fun r => tally_of_tail hq rfl (by rw [hcount]; exact Nat.zero_le _)
    length := Nat.zero_le 1
    acks := fun a m r h => by cases h
    decided := fun h => by
      rw [hd] at h
      cases h
    decides := fun _ h => by
      rw [hd'] at h
      cases h
    announces := fun _ a m h => by cases h
    proposing := fun _ h => by
      rw [hpc'] at h
      cases h
    sending := fun p j h => by
      rw [hpc'] at h
      cases h }

theorem piece_receivePrepare {id : Fin N} {s s' : Server} {out : List (Address N × Message)}
    {received : Nat} (hpc : s.pc = .receivePrepare received)
    (h : consensus id s = some (s', out)) : Piece id s s' out := by
  have hnot : ∀ {b : Bool}, s.pc.answered = true → b = true := fun h => by
    rw [hpc] at h
    cases h
  simp only [consensus, hpc] at h
  by_cases hle : received ≤ N / 2
  · rw [if_pos hle] at h
    cases hr : s.receive .prepare with
    | none =>
      rw [hr] at h
      cases h
    | some x =>
      obtain ⟨s₁, r⟩ := x
      have hrec := receive_cases hr
      rw [hr] at h
      cases r with
      | none =>
        obtain ⟨rfl, rfl⟩ := Prod.mk.inj (Option.some.inj h)
        cases hrec with
        | discard hd hq => exact piece_discard hq fun p j h => by rw [hpc] at h; cases h
      | some m =>
        obtain ⟨rfl, rfl⟩ := Prod.mk.inj (Option.some.inj h)
        cases hrec with
        | fake hd =>
          rw [collect_own rfl (Nat.le_refl _)]
          exact piece_goto (fun _ => trivial) hnot (fun r => rfl) (fun h => by cases h)
            fun p j h => by cases h
        | decide hd hq htype =>
          rw [collect_own rfl (Nat.le_refl _)]
          exact piece_decide hd hq htype (fun _ => trivial) hnot fun p j h => by cases h
        | @wanted m q hd hq htype hround =>
          obtain ⟨hcpc, hcround, hcq, hcd⟩ := collect_spec
            { s with messageq := q, pc := .receivePrepare (received + 1) } m
          refine piece_collect (m := m) hd (by rw [hpc]; rfl) ⟨_, hcpc⟩ hcround (hcd.trans hd) ?_
          rw [hcq]
          exact hq
  · rw [if_neg hle] at h
    split at h
    · rename_i hd
      obtain ⟨rfl, rfl⟩ := Prod.mk.inj (Option.some.inj h)
      exact piece_exit hd
    · obtain ⟨rfl, rfl⟩ := Prod.mk.inj (Option.some.inj h)
      exact piece_goto (fun _ => trivial) hnot (fun r => rfl) (fun h => by cases h)
        fun p j h => (Pc.sendPropose.inj h).2.symm

/-- The server goes on to the next round. -/
theorem piece_advance {id : Fin N} {s : Server} :
    Piece id s { s with round := s.round + 1, pc := .top } [] where
  seated _ := trivial
  round := Nat.le_succ _
  answered h := absurd h (Nat.succ_ne_self _)
  tally r := tally_of_same rfl (Nat.zero_le _)
  length := Nat.zero_le 1
  acks a m r h := by cases h
  decided h := ⟨h, rfl⟩
  decides h h' := by
    have := h.symm.trans h'
    cases this
  announces _ a m h := by cases h
  proposing _ h := by cases h
  sending p j h := by cases h

theorem counted_receiveAck {s : Server} {success total r : Nat}
    (hpc : s.pc = .receiveAck success total) (hd : s.decided = false) :
    counted r s = if s.round = r then success else 0 := by
  unfold counted
  rw [hpc]
  simp [hd]

/-- A leader counts an acknowledgement, or a refusal. -/
theorem tally_count {s s' : Server} {m : Message} {success total r : Nat}
    (hpc : s.pc = .receiveAck success total) (hd : s.decided = false)
    (hq : s.messageq = m :: s'.messageq) (htype : m.type = .ack) (hround : m.round = s.round)
    (hpc' : s'.pc = .receiveAck (if m.ack then success + 1 else success) (total + 1))
    (hround' : s'.round = s.round) (hd' : s'.decided = false) : tally r s' ≤ tally r s := by
  unfold tally
  rw [counted_receiveAck hpc hd, counted_receiveAck hpc' hd', hround', hq, List.countP_cons]
  by_cases hr : s.round = r
  · rw [if_pos hr, if_pos hr]
    cases hack : m.ack with
    | true =>
      have hb : ballot m = some r := by rw [ballot, if_pos ⟨htype, hack⟩, hround, hr]
      rw [if_pos rfl, if_pos (decide_eq_true hb)]
      omega
    | false =>
      rw [if_neg (by simp)]
      omega
  · rw [if_neg hr, if_neg hr]
    omega

theorem piece_receiveAck {id : Fin N} {s s' : Server} {out : List (Address N × Message)}
    {success total : Nat} (hpc : s.pc = .receiveAck success total)
    (h : consensus id s = some (s', out)) : Piece id s s' out := by
  have hseat : ∀ {t : Server} {i k : Nat}, t.round = s.round → t.pc = .receiveAck i k →
      Seated id s → Seated id t := by
    intro t i k hround ht h
    unfold Seated at h ⊢
    rw [hpc] at h
    rw [ht, hround]
    exact h
  have hprop : s.pc.proposing = true := by
    rw [hpc]
    rfl
  simp only [consensus, hpc] at h
  by_cases hle : total ≤ N / 2
  · rw [if_pos hle] at h
    cases hr : s.receive .ack with
    | none =>
      rw [hr] at h
      cases h
    | some x =>
      obtain ⟨s₁, r⟩ := x
      have hrec := receive_cases hr
      rw [hr] at h
      cases r with
      | none =>
        obtain ⟨rfl, rfl⟩ := Prod.mk.inj (Option.some.inj h)
        cases hrec with
        | discard hd hq => exact piece_discard hq fun p j h => by rw [hpc] at h; cases h
      | some m =>
        obtain ⟨rfl, rfl⟩ := Prod.mk.inj (Option.some.inj h)
        cases hrec with
        | fake hd =>
          refine .quiet (hseat rfl rfl) rfl (fun _ => rfl) (fun r => ?_) rfl rfl
            (fun _ => .inl hprop) fun p j h => by cases h
          exact tally_of_same rfl (Nat.le_trans (Nat.le_of_eq (counted_of_decided hd)) (Nat.zero_le _))
        | decide hd hq htype =>
          exact piece_decide hd hq htype (hseat rfl rfl) (fun _ => rfl) fun p j h => by cases h
        | wanted hd hq htype hround =>
          refine .quiet (hseat rfl rfl) rfl (fun _ => rfl) (fun r => ?_) rfl rfl
            (fun _ => .inl hprop) fun p j h => by cases h
          exact tally_count hpc hd hq htype hround rfl rfl hd
  · rw [if_neg hle] at h
    split at h
    · rename_i hd
      obtain ⟨rfl, rfl⟩ := Prod.mk.inj (Option.some.inj h)
      exact piece_exit hd
    · rename_i hnd
      split at h
      · rename_i hsuccess
        obtain ⟨rfl, rfl⟩ := Prod.mk.inj (Option.some.inj h)
        exact {
          seated := fun _ => rfl
          round := Nat.le_refl _
          answered := fun _ _ => rfl
          tally := fun r => tally_of_same rfl (by rw [counted_of_decided rfl]; exact Nat.zero_le _)
          length := Nat.zero_le 1
          acks := fun a m r h => by cases h
          decided := fun h => absurd h hnd
          decides := fun _ _ => .inr ⟨success, total, hpc, hsuccess, rfl⟩
          announces := fun _ a m h => by cases h
          proposing := fun h => by cases h
          sending := fun p j h => by cases h }
      · obtain ⟨rfl, rfl⟩ := Prod.mk.inj (Option.some.inj h)
        exact piece_advance

/-- A piece that only sends. -/
theorem piece_send {id : Fin N} {s : Server} {pc : Pc} {a : Address N} {m : Message}
    (hseat : Seated id s → Seated id { s with pc })
    (hans : s.pc.answered = true → pc.answered = true)
    (hcount : ∀ r, counted r { s with pc } = 0) (hm : ballot m = none)
    (hdec : Seated id s → m.type = .decide → s.decided = true ∧ m.color = s.color)
    (hprop : pc.proposing = false)
    (hsend : ∀ p j, pc = .sendPropose p j → (∃ i, s.pc = .sendPropose p i) ∧ p = m) :
    Piece id s { s with pc } [(a, m)] where
  seated := hseat
  round := Nat.le_refl _
  answered _ := hans
  tally r := tally_of_same rfl (by rw [hcount]; exact Nat.zero_le _)
  length := Nat.le_refl 1
  acks a' m' r h hb := by
    obtain ⟨_, rfl⟩ := Prod.mk.inj (List.mem_singleton.1 h)
    rw [hm] at hb
    cases hb
  decided h := ⟨h, rfl⟩
  decides h h' := by
    have := h.symm.trans h'
    cases this
  announces hs a' m' h htype := by
    obtain ⟨_, rfl⟩ := Prod.mk.inj (List.mem_singleton.1 h)
    exact hdec hs htype
  proposing _ h := by
    rw [show pc.proposing = true from h] at hprop
    cases hprop
  sending p j h := by
    obtain ⟨hi, rfl⟩ := hsend p j h
    exact .inr ⟨hi, a, List.mem_singleton_self _⟩

theorem consensus_piece {id : Fin N} {s s' : Server} {out : List (Address N × Message)}
    (hok : s.Ok id) (h : consensus id s = some (s', out)) : Piece id s s' out := by
  cases hpc : s.pc with
  | top =>
    simp only [consensus, hpc] at h
    split at h
    · rename_i hd
      obtain ⟨rfl, rfl⟩ := Prod.mk.inj (Option.some.inj h)
      exact piece_exit hd
    · obtain ⟨rfl, rfl⟩ := Prod.mk.inj (Option.some.inj h)
      exact piece_send (fun _ => trivial) (fun h => by rw [hpc] at h; cases h) (fun r => rfl) rfl
        (fun _ h => by cases h) rfl fun p j h => by cases h
  | sentPrepare =>
    have hnot : ∀ {b : Bool}, s.pc.answered = true → b = true := fun h => by
      rw [hpc] at h
      cases h
    simp only [consensus, hpc] at h
    split at h
    · obtain ⟨rfl, rfl⟩ := Prod.mk.inj (Option.some.inj h)
      exact piece_goto (fun _ => trivial) hnot (fun r => rfl) (fun h => by cases h)
        fun p j h => by cases h
    · rename_i hlead
      obtain ⟨rfl, rfl⟩ := Prod.mk.inj (Option.some.inj h)
      exact piece_goto (fun _ => trivial) hnot (fun r => rfl) (fun _ => .inr (.inr hlead))
        fun p j h => by cases h
  | receivePrepare received => exact piece_receivePrepare hpc h
  | sendPropose p j =>
    have hnot : ∀ {b : Bool}, s.pc.answered = true → b = true := fun h => by
      rw [hpc] at h
      cases h
    unfold Server.Ok at hok
    rw [hpc] at hok
    simp only [consensus, hpc] at h
    split at h
    · obtain ⟨rfl, rfl⟩ := Prod.mk.inj (Option.some.inj h)
      refine piece_send (fun _ => trivial) hnot (fun r => rfl) ?_ (fun _ h => ?_) rfl fun p' i h => ?_
      · rw [hok.2]
        rfl
      · rw [hok.2] at h
        cases h
      · obtain ⟨rfl, _⟩ := Pc.sendPropose.inj h
        exact ⟨⟨j, hpc⟩, rfl⟩
    · rename_i hj
      obtain ⟨rfl, rfl⟩ := Prod.mk.inj (Option.some.inj h)
      exact piece_goto (fun _ => trivial) hnot (fun r => rfl)
        (fun _ => .inr (.inl ⟨p, j, hpc, Nat.not_lt.1 hj⟩)) fun p j h => by cases h
  | receivePropose => exact piece_receivePropose hpc h
  | sentAck =>
    simp only [consensus, hpc] at h
    split at h
    · rename_i hlead
      obtain ⟨rfl, rfl⟩ := Prod.mk.inj (Option.some.inj h)
      refine piece_goto (fun _ => hlead) (fun _ => rfl) (fun r => ?_) (fun _ => .inl (by rw [hpc]; rfl))
        fun p j h => by cases h
      unfold counted
      exact ite_self 0
    · obtain ⟨rfl, rfl⟩ := Prod.mk.inj (Option.some.inj h)
      exact piece_advance
  | receiveAck success total => exact piece_receiveAck hpc h
  | exit =>
    simp only [consensus, hpc] at h
    obtain ⟨rfl, rfl⟩ := Prod.mk.inj (Option.some.inj h)
    refine piece_goto (fun hs => ?_) (fun _ => rfl) (fun r => rfl) (fun h => by cases h)
      fun p j h => by cases h
    unfold Seated at hs
    rw [hpc] at hs
    exact ⟨hs, rfl⟩
  | sendDecide d j =>
    have hsat : Seated id s → s.decided = true ∧ d = decideMessage s.color := fun hs => by
      unfold Seated at hs
      rw [hpc] at hs
      exact hs
    unfold Server.Ok at hok
    rw [hpc] at hok
    have hsays : Seated id s → d.type = .decide → s.decided = true ∧ d.color = s.color :=
      fun hs _ => ⟨(hsat hs).1, by rw [(hsat hs).2]; rfl⟩
    have hb : ballot d = none := by
      rw [hok]
      rfl
    simp only [consensus, hpc] at h
    split at h
    · split at h
      · obtain ⟨rfl, rfl⟩ := Prod.mk.inj (Option.some.inj h)
        exact piece_send hsat (fun _ => rfl) (fun r => rfl) hb hsays rfl fun p i h => by cases h
      · obtain ⟨rfl, rfl⟩ := Prod.mk.inj (Option.some.inj h)
        exact piece_goto hsat (fun _ => rfl) (fun r => rfl) (fun h => by cases h)
          fun p j h => by cases h
    · obtain ⟨rfl, rfl⟩ := Prod.mk.inj (Option.some.inj h)
      exact piece_send (fun hs => (hsat hs).1) (fun _ => rfl) (fun r => rfl) hb hsays rfl
        fun p i h => by cases h
  | done =>
    simp only [consensus, hpc] at h
    cases h

theorem failureDetector_piece {id : Fin N} {s s' : Server} {out : List (Address N × Message)}
    (h : failureDetector s = some (s', out)) : Piece id s s' out := by
  unfold failureDetector at h
  split at h
  · rename_i hpc
    have hpiece : Piece id s (phase4 (N := N) s none).1 (phase4 s none).2 := by
      by_cases hd : s.decided = true
      · have hexit : phase4 (N := N) s none = ({ s with pc := .exit }, []) := by
          rw [phase4, if_pos hd]
        rw [hexit]
        exact piece_exit hd
      · exact piece_phase4_none hpc (by simpa using hd)
    rwa [Option.some.inj h] at hpiece
  · cases h

/-! ## The servers and the acknowledgements they have sent -/

/-- The rounds the servers have acknowledged. -/
def votes (st : State N) : List (Fin N × Option Nat) :=
  st.sent.map fun x => (x.1, ballot x.2)

/-- In one round `c` was proposed and more than half of the servers acknowledged it. -/
def Chosen (st : State N) (c : String) : Prop :=
  ∃ r, (leader r, proposeMessage r c) ∈ st.sent ∧
    N / 2 < (Quorum.voters (votes st) (some r)).card

structure Consent (st : State N) : Prop where
  seated : ∀ id, Seated id (st.server id)
  sending : ∀ id p j, (st.server id).pc = .sendPropose p j → 0 < j → (id, p) ∈ st.sent
  leads : ∀ id, id = leader (st.server id).round → (st.server id).decided = false →
    (st.server id).pc.proposing = true →
      (id, proposeMessage (st.server id).round (st.server id).color) ∈ st.sent
  once : ∀ id r, ((votes st).countP fun x => x = (id, some r)) ≤ 1
  voted : ∀ id r, (id, some r) ∈ votes st → r < (st.server id).round ∨
    r = (st.server id).round ∧ (st.server id).pc.answered = true
  conserved : ∀ r, st.inFlight.countP (fun x => ballot x.2 = some r) +
    tally r (st.server (leader r)) ≤ (votes st).countP fun x => x.2 = some r
  decided : ∀ id, (st.server id).decided = true → Chosen st (st.server id).color
  announced : ∀ src m, (src, m) ∈ st.sent → m.type = .decide → Chosen st m.color

variable {color : Fin N → String} {stubborn : Fin N → Bool} {st : State N}

omit [NeZero N] in
theorem votes_put (id : Fin N) (s : Server) (out : List (Address N × Message)) :
    votes (st.put id s out) = votes st ++ out.map fun x => (id, ballot x.2) := by
  simp [votes, State.put]

theorem Chosen.mono {st' : State N} {c : String} (hsent : ∀ x ∈ st.sent, x ∈ st'.sent)
    (h : Chosen st c) : Chosen st' c := by
  obtain ⟨r, hp, hcard⟩ := h
  refine ⟨r, hsent _ hp, Nat.lt_of_lt_of_le hcard (Finset.card_le_card fun i hi => ?_)⟩
  rw [Quorum.mem_voters] at hi ⊢
  obtain ⟨x, hx, he⟩ := List.mem_map.1 hi
  exact List.mem_map.2 ⟨x, hsent x hx, he⟩

/-- A leader that has counted a majority has been acknowledged by one. -/
theorem Consent.chosen (hc : Consent st) {id : Fin N} {success total : Nat}
    (hpc : (st.server id).pc = .receiveAck success total) (hd : (st.server id).decided = false)
    (h : N / 2 < success) : Chosen st (st.server id).color := by
  have hlead : id = leader (st.server id).round := by
    have hseat := hc.seated id
    unfold Seated at hseat
    rw [hpc] at hseat
    exact hseat
  have hsent := hc.leads id hlead hd (by rw [hpc]; rfl)
  have hcount := hc.conserved (st.server id).round
  rw [← hlead] at hcount
  have htally : success ≤ tally (st.server id).round (st.server id) := by
    unfold tally
    rw [counted_receiveAck hpc hd, if_pos rfl]
    omega
  have hcard := Quorum.countP_le_card_voters (hc.once · (st.server id).round)
  rw [hlead] at hsent
  exact ⟨(st.server id).round, hlead ▸ hsent, by omega⟩

/-- Nobody votes twice. -/
theorem Consent.once_put (hc : Consent st) {id : Fin N} {s : Server}
    {out : List (Address N × Message)} (h : Piece id (st.server id) s out) (j : Fin N) (r : Nat) :
    ((votes (st.put id s out)).countP fun x => x = (j, some r)) ≤ 1 := by
  rw [votes_put, List.countP_append]
  by_cases hnew : (j, some r) ∈ out.map fun x => (id, ballot x.2)
  · obtain ⟨⟨a, m⟩, hm, he⟩ := List.mem_map.1 hnew
    obtain ⟨rfl, hb⟩ := Prod.mk.inj he
    obtain ⟨rfl, hans, _⟩ := h.acks a m r hm hb
    have hold : ((votes st).countP fun x => x = (id, some (st.server id).round)) = 0 := by
      rw [List.countP_eq_zero]
      intro x hx he
      rw [decide_eq_true_iff] at he
      rcases hc.voted id _ (he ▸ hx) with hlt | ⟨_, h⟩
      · exact absurd hlt (Nat.lt_irrefl _)
      · rw [hans] at h
        cases h
    have hlen := (out.map fun x => (id, ballot x.2)).countP_le_length
      (p := fun x => x = (id, some (st.server id).round))
    rw [List.length_map] at hlen
    have := h.length
    omega
  · have hnone : ((out.map fun x => (id, ballot x.2)).countP fun x => x = (j, some r)) = 0 := by
      rw [List.countP_eq_zero]
      intro x hx he
      rw [decide_eq_true_iff] at he
      exact hnew (he ▸ hx)
    rw [hnone]
    exact hc.once j r

theorem Consent.voted_put (hc : Consent st) {id : Fin N} {s : Server}
    {out : List (Address N × Message)} (h : Piece id (st.server id) s out) (j : Fin N) (r : Nat)
    (hmem : (j, some r) ∈ votes (st.put id s out)) :
    r < ((st.put id s out).server j).round ∨
      r = ((st.put id s out).server j).round ∧ ((st.put id s out).server j).pc.answered = true := by
  rw [votes_put, List.mem_append] at hmem
  by_cases hj : j = id
  · subst hj
    rw [show (st.put j s out).server j = s from Function.update_self ..]
    rcases hmem with hmem | hmem
    · have hround := h.round
      rcases hc.voted j r hmem with hlt | ⟨rfl, hans⟩
      · exact .inl (Nat.lt_of_lt_of_le hlt hround)
      · rcases Nat.lt_or_eq_of_le hround with hlt | he
        · exact .inl hlt
        · exact .inr ⟨he, h.answered he.symm hans⟩
    · obtain ⟨⟨a, m⟩, hm, he⟩ := List.mem_map.1 hmem
      obtain ⟨hr, _, hround, hans⟩ := h.acks a m r hm (Prod.mk.inj he).2
      exact .inr ⟨hr.trans hround.symm, hans⟩
  · rw [show (st.put id s out).server j = st.server j from Function.update_of_ne hj ..]
    rcases hmem with hmem | hmem
    · exact hc.voted j r hmem
    · obtain ⟨x, _, he⟩ := List.mem_map.1 hmem
      exact absurd (Prod.mk.inj he).1.symm hj

theorem Consent.conserved_put (hc : Consent st) {id : Fin N} {s : Server}
    {out : List (Address N × Message)} (h : Piece id (st.server id) s out) (r : Nat) :
    (st.put id s out).inFlight.countP (fun x => ballot x.2 = some r) +
      tally r ((st.put id s out).server (leader r)) ≤
        (votes (st.put id s out)).countP fun x => x.2 = some r := by
  have hold := hc.conserved r
  have htally : tally r ((st.put id s out).server (leader r)) ≤ tally r (st.server (leader r)) :=
    forall_put (P := fun j s => tally r s ≤ tally r (st.server j)) (h.tally r)
      (fun j => Nat.le_refl _) (leader r)
  rw [votes_put, List.countP_append, List.countP_map]
  show (st.inFlight ++ out).countP _ + _ ≤ _
  rw [List.countP_append]
  show _ ≤ _ + out.countP fun x => ballot x.2 = some r
  omega

theorem Consent.leads_put (hs : Inv color stubborn st) (hc : Consent st) {id : Fin N} {s : Server}
    {out : List (Address N × Message)} (h : Piece id (st.server id) s out)
    (hlead : id = leader s.round) (hd : s.decided = false) (hpc : s.pc.proposing = true) :
    (id, proposeMessage s.round s.color) ∈ st.sent := by
  have hd₀ : (st.server id).decided = false := by
    cases hdec : (st.server id).decided with
    | false => rfl
    | true =>
      rw [(h.decided hdec).1] at hd
      cases hd
  obtain ⟨hround, hfrom⟩ := h.proposing hd hpc
  rw [hround] at hlead ⊢
  rcases hfrom with ⟨hprop, hcolor⟩ | ⟨p, j, hsend, hj, hcolor⟩ | hne
  · have hsent := hc.leads id hlead hd₀ hprop
    rcases hcolor with hcolor | ⟨m, hm, htype, hr, hcolor⟩
    · rw [hcolor]
      exact hsent
    · obtain ⟨src, hsrc⟩ := hs.delivered.port id m hm
      have hsame := hs.history.unique src id m _ hsrc hsent htype rfl hr
      rw [← hcolor, hsame]
      exact hsent
  · have hok := hs.ok id
    unfold Server.Ok at hok
    rw [hsend] at hok
    have hsent := hc.sending id p j hsend (Nat.lt_of_lt_of_le (Nat.pos_of_neZero N) hj)
    rw [hok.2] at hsent
    rw [hcolor]
    exact hsent
  · exact absurd hlead hne

theorem Consent.decided_put (hs : Inv color stubborn st) (hc : Consent st) {id : Fin N}
    {s : Server} {out : List (Address N × Message)} (h : Piece id (st.server id) s out)
    (hd : s.decided = true) : Chosen st s.color := by
  cases hd₀ : (st.server id).decided with
  | true =>
    rw [(h.decided hd₀).2]
    exact hc.decided id hd₀
  | false =>
    rcases h.decides hd₀ hd with ⟨m, hm, htype, hcolor⟩ | ⟨success, total, hpc, hlt, hcolor⟩
    · obtain ⟨src, hsrc⟩ := hs.delivered.port id m hm
      rw [← hcolor]
      exact hc.announced src m hsrc htype
    · rw [hcolor]
      exact hc.chosen hpc hd₀ hlt

theorem Consent.put (hs : Inv color stubborn st) (hc : Consent st) {id : Fin N} {s : Server}
    {out : List (Address N × Message)} (h : Piece id (st.server id) s out) :
    Consent (st.put id s out) := by
  have hserver : (st.put id s out).server id = s := Function.update_self ..
  have hother : ∀ {j}, j ≠ id → (st.put id s out).server j = st.server j := fun hj =>
    Function.update_of_ne hj ..
  have hold : ∀ x ∈ st.sent, x ∈ (st.put id s out).sent := fun x hx =>
    mem_put_sent.2 (.inl hx)
  exact {
    seated := forall_put (P := Seated) (h.seated (hc.seated id)) hc.seated
    sending := fun j p i hpc hi => by
      by_cases hj : j = id
      · subst hj
        rw [hserver] at hpc
        rcases h.sending p i hpc with rfl | ⟨_, a, ha⟩
        · exact absurd hi (Nat.lt_irrefl 0)
        · exact mem_put_sent.2 (.inr ⟨rfl, a, ha⟩)
      · rw [hother hj] at hpc
        exact hold _ (hc.sending j p i hpc hi)
    leads := fun j hlead hd hpc => by
      by_cases hj : j = id
      · subst hj
        rw [hserver] at hlead hd hpc ⊢
        exact hold _ (hc.leads_put hs h hlead hd hpc)
      · rw [hother hj] at hlead hd hpc ⊢
        exact hold _ (hc.leads j hlead hd hpc)
    once := hc.once_put h
    voted := hc.voted_put h
    conserved := hc.conserved_put h
    decided := fun j hd => by
      by_cases hj : j = id
      · subst hj
        rw [hserver] at hd ⊢
        exact (hc.decided_put hs h hd).mono hold
      · rw [hother hj] at hd ⊢
        exact (hc.decided j hd).mono hold
    announced := fun src m hm htype => by
      rcases mem_put_sent.1 hm with hm | ⟨rfl, a, ha⟩
      · exact (hc.announced src m hm htype).mono hold
      · obtain ⟨hd, hcolor⟩ := h.announces (hc.seated src) a m ha htype
        rw [hcolor]
        exact (hc.decided src hd).mono hold }

/-! ## The network -/

/-- What the network does to a message that is delivered or lost. -/
theorem Consent.network {st' : State N} (hc : Consent st) (hsent : st'.sent = st.sent)
    (hserver : ∀ id, ∃ q, st'.server id = { st.server id with messageq := q })
    (hcount : ∀ r, st'.inFlight.countP (fun x => ballot x.2 = some r) +
      tally r (st'.server (leader r)) ≤ st.inFlight.countP (fun x => ballot x.2 = some r) +
        tally r (st.server (leader r))) : Consent st' := by
  have hvotes : votes st' = votes st := by rw [votes, hsent, votes]
  have hchosen : ∀ {c}, Chosen st c → Chosen st' c := fun h =>
    h.mono fun x hx => by rw [hsent]; exact hx
  exact {
    seated := fun id => by
      obtain ⟨q, hq⟩ := hserver id
      rw [hq]
      exact hc.seated id
    sending := fun id p j hpc hj => by
      obtain ⟨q, hq⟩ := hserver id
      rw [hq] at hpc
      rw [hsent]
      exact hc.sending id p j hpc hj
    leads := fun id hlead hd hpc => by
      obtain ⟨q, hq⟩ := hserver id
      rw [hq] at hlead hd hpc ⊢
      rw [hsent]
      exact hc.leads id hlead hd hpc
    once := fun id r => by
      rw [hvotes]
      exact hc.once id r
    voted := fun id r hmem => by
      obtain ⟨q, hq⟩ := hserver id
      rw [hvotes] at hmem
      rw [hq]
      exact hc.voted id r hmem
    conserved := fun r => by
      rw [hvotes]
      exact Nat.le_trans (hcount r) (hc.conserved r)
    decided := fun id hd => by
      obtain ⟨q, hq⟩ := hserver id
      rw [hq] at hd ⊢
      exact hchosen (hc.decided id hd)
    announced := fun src m hm htype => by
      rw [hsent] at hm
      exact hchosen (hc.announced src m hm htype) }

omit [NeZero N] in
theorem countP_eraseIdx {k : Nat} {a : Address N} {m : Message} (r : Nat)
    (h : st.inFlight[k]? = some (a, m)) :
    st.inFlight.countP (fun x => ballot x.2 = some r) =
      (st.inFlight.eraseIdx k).countP (fun x => ballot x.2 = some r) +
        if ballot m = some r then 1 else 0 := by
  obtain ⟨hk, hget⟩ := List.getElem?_eq_some_iff.1 h
  have hperm := (List.getElem_cons_eraseIdx_perm hk).countP_eq
    (p := fun x => ballot x.2 = some r)
  rw [← hperm, List.countP_cons, hget]
  simp

omit [NeZero N] in
theorem tally_enqueue (st : State N) (m : Message) (a : Address N) (r : Nat) (id : Fin N) :
    tally r ((st.enqueue m a).server id) ≤
      tally r (st.server id) + if ballot m = some r then 1 else 0 := by
  cases a with
  | nancy => exact Nat.le_add_right _ _
  | server j =>
    by_cases hj : id = j
    · subst hj
      have hserver : (st.enqueue m (.server id)).server id =
          { st.server id with messageq := (st.server id).messageq ++ [m] } :=
        Function.update_self ..
      rw [hserver]
      unfold tally
      show counted r (st.server id) + ((st.server id).messageq ++ [m]).countP _ ≤ _
      rw [List.countP_append, List.countP_singleton]
      simp only [decide_eq_true_eq]
      omega
    · rw [show (st.enqueue m (.server j)).server id = st.server id from Function.update_of_ne hj ..]
      exact Nat.le_add_right _ _

theorem step_consent {st' : State N} {l : Label N} (hs : Inv color stubborn st)
    (hc : Consent st) (h : step st l = some st') : Consent st' := by
  cases l with
  | run id =>
    obtain ⟨⟨s, out⟩, hturn, rfl⟩ := Option.map_eq_some_iff.1 h
    exact hc.put hs (consensus_piece (hs.ok id) hturn)
  | timeout id =>
    obtain ⟨⟨s, out⟩, hturn, rfl⟩ := Option.map_eq_some_iff.1 h
    exact hc.put hs (failureDetector_piece hturn)
  | deliver k =>
    obtain ⟨⟨a, m⟩, hk, rfl⟩ := Option.map_eq_some_iff.1 h
    obtain ⟨hsent, hflight, hserver⟩ :=
      enqueue_spec { st with inFlight := st.inFlight.eraseIdx k } m a
    refine hc.network hsent (fun id => (hserver id).imp fun _ hq => hq.1) fun r => ?_
    rw [hflight, countP_eraseIdx r hk]
    have htally := tally_enqueue { st with inFlight := st.inFlight.eraseIdx k } m a r (leader r)
    show (st.inFlight.eraseIdx k).countP _ + _ ≤ _ + tally r (st.server (leader r))
    rw [Nat.add_right_comm, Nat.add_assoc]
    exact Nat.add_le_add_left htally _
  | lose k =>
    obtain ⟨⟨a, m⟩, hk, rfl⟩ := Option.map_eq_some_iff.1 h
    refine hc.network rfl (fun id => ⟨_, rfl⟩) fun r => ?_
    rw [countP_eraseIdx r hk]
    exact Nat.add_le_add_right (Nat.le_add_right _ _) _

theorem Consent.start (color : Fin N → String) (stubborn : Fin N → Bool) :
    Consent (start color stubborn) where
  seated _ := trivial
  sending _ _ _ h := by cases h
  leads _ _ _ h := by cases h
  once _ _ := Nat.zero_le 1
  voted _ _ h := by cases h
  conserved _ := Nat.le_refl 0
  decided _ h := by cases h
  announced _ _ h := by cases h

theorem reachable_consent (h : (system color stubborn).Reachable st) :
    Inv color stubborn st ∧ Consent st := by
  refine h.invariant (P := fun st => Inv color stubborn st ∧ Consent st) (fun st hst => ?_)
    fun _ _ _ hs hstep => ⟨step_inv hs.1 hstep, step_consent hs.1 hs.2 hstep⟩
  obtain rfl : st = Ctstubborn.start color stubborn := hst
  exact ⟨.start color stubborn, .start color stubborn⟩

/-! ## Decisions -/

/-- A server has decided `c`, or has sent a DECIDE that says so. -/
def Decides (st : State N) (c : String) : Prop :=
  (∃ id, (st.server id).decided = true ∧ (st.server id).color = c) ∨
    ∃ src m, (src, m) ∈ st.sent ∧ m.type = .decide ∧ m.color = c

/-- A color is decided only if in one round its leader proposed it, more than half of the
servers acknowledged that round, and those of them that are stubborn started with it. -/
theorem decides_consented (h : (system color stubborn).Reachable st) {c : String}
    (hc : Decides st c) :
    ∃ r, (leader r, proposeMessage r c) ∈ st.sent ∧ ∃ servers : Finset (Fin N),
      N / 2 < servers.card ∧ ∀ id ∈ servers,
        (∃ m, (id, m) ∈ st.sent ∧ m.type = .ack ∧ m.round = r ∧ m.ack = true) ∧
          (stubborn id = true → color id = c) := by
  obtain ⟨hs, hcon⟩ := reachable_consent h
  have hchosen : Chosen st c := by
    rcases hc with ⟨id, hd, rfl⟩ | ⟨src, m, hm, htype, rfl⟩
    · exact hcon.decided id hd
    · exact hcon.announced src m hm htype
  obtain ⟨r, hsent, hcard⟩ := hchosen
  refine ⟨r, hsent, Quorum.voters (votes st) (some r), hcard, fun id hid => ?_⟩
  rw [Quorum.mem_voters] at hid
  obtain ⟨⟨src, m⟩, hm, he⟩ := List.mem_map.1 hid
  obtain ⟨rfl, hb⟩ := Prod.mk.inj he
  have hack : m.type = .ack ∧ m.ack = true := by
    by_contra hno
    rw [ballot, if_neg hno] at hb
    cases hb
  have hround := ballot_round hb
  refine ⟨⟨m, hm, hack.1, hround.symm, hack.2⟩, fun hstub => ?_⟩
  obtain ⟨src', p, hp, hptype, hpround, hpcolor⟩ := hs.history.acks src m hstub hm hack.1 hack.2
  rw [← hpcolor]
  exact hs.history.unique src' (leader r) p _ hp hsent hptype rfl (hpround.trans hround.symm)

/-- Where more than half of the servers are stubborn for one color, no other is decided. -/
theorem stubborn_majority_decides (h : (system color stubborn).Reachable st) {c c' : String}
    (hmaj : N / 2 < (Finset.univ.filter fun id => stubborn id = true ∧ color id = c).card)
    (hc : Decides st c') : c' = c := by
  obtain ⟨r, _, servers, hcard, hservers⟩ := decides_consented h hc
  obtain ⟨id, hid, hid'⟩ := Quorum.exists_mem_of_majorities hcard hmaj
  obtain ⟨hstub, hcolor⟩ := (Finset.mem_filter.1 hid').2
  rw [← (hservers id hid).2 hstub, hcolor]

/-- The decision of `heededRun`, with the consent of servers 0 and 1. -/
theorem decides_consented_heededState :
    ∃ r, (leader r, proposeMessage r "red") ∈ heededState.sent ∧ ∃ servers : Finset (Fin 3),
      3 / 2 < servers.card ∧ ∀ id ∈ servers,
        (∃ m, (id, m) ∈ heededState.sent ∧ m.type = .ack ∧ m.round = r ∧ m.ack = true) ∧
          (rival id = true → rivalColor id = "red") :=
  decides_consented (.of_get rfl heededRun_isSome)
    (.inl ⟨0, by decide +kernel, by decide +kernel⟩)

attribute [local instance] neZero_three

theorem heededRun_all_isSome : ((system rivalColor fun _ => true).exec
    (start rivalColor fun _ => true) heededRun).isSome = true := by
  decide +kernel

/-- The state `heededRun` ends in when all servers are stubborn. -/
def allStubbornState : State 3 :=
  ((system rivalColor fun _ => true).exec (start rivalColor fun _ => true) heededRun).get
    heededRun_all_isSome

theorem stubborn_majority_decides_red : Decides allStubbornState "red" ∧
    ∀ c, Decides allStubbornState c → c = "red" :=
  ⟨.inl ⟨0, by decide +kernel, by decide +kernel⟩, fun _ hc =>
    stubborn_majority_decides (.of_get rfl heededRun_all_isSome) (by decide +kernel) hc⟩

end Ctstubborn
end Psets
