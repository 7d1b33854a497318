/-
The servers of a run of Chandra-Toueg consensus make sessions.

A session knows the calls of `receive` and no more of the coroutine.  `Follows` relates it
to a server whose coroutine is anywhere; each piece of `consensus`, the failure detector and
the delivery of a message are a few moves of the session.
-/
import Psets.Ctconsensus.Agreement
import Psets.Ctconsensus.Receive

namespace Psets
namespace Ctconsensus

/-- The call of `receive` that is in progress: its argument and its `stashSize`. -/
def Pc.receiving (N : Nat) : Pc → Option (MessageType × Nat)
  | .receivePrepare received stashSize =>
    if received ≤ N / 2 then some (.prepare, stashSize) else none
  | .receivePropose stashSize => some (.propose, stashSize)
  | .receiveAck _ total stashSize => if total ≤ N / 2 then some (.ack, stashSize) else none
  | _ => none

section Receiving

variable {N received success total k : Nat}

theorem receiving_receivePrepare (h : received ≤ N / 2) :
    Pc.receiving N (.receivePrepare received k) = some (.prepare, k) := if_pos h

theorem receiving_receivePrepare_done (h : ¬ received ≤ N / 2) :
    Pc.receiving N (.receivePrepare received k) = none := if_neg h

theorem receiving_receiveAck (h : total ≤ N / 2) :
    Pc.receiving N (.receiveAck success total k) = some (.ack, k) := if_pos h

theorem receiving_receiveAck_done (h : ¬ total ≤ N / 2) :
    Pc.receiving N (.receiveAck success total k) = none := if_neg h

end Receiving

/-- A server without the position of its coroutine. -/
def Server.still (s : Server) : Server := { s with pc := .top }

/-- The session has the server's fields, and is in the call that the coroutine is in. -/
structure Follows (N : Nat) (st : Session) (s : Server) : Prop where
  server : st.server = s.still
  stashSize : st.stashSize = (s.pc.receiving N).map Prod.snd
  call : ∀ mt k, s.pc.receiving N = some (mt, k) → ∃ c, st.call = some c ∧ c.mt = mt

/-- Some moves take the session to one that follows `s'`. -/
def Advances (N : Nat) (st : Session) (s' : Server) : Prop :=
  ∃ moves st', sessions.exec st moves = some st' ∧ Follows N st' s'

/-! ## Moves of a session -/

section Moves

variable {N : Nat} {st : Session} {s s₁ s' : Server} {mt : MessageType} {k k' : Nat} {m : Message}

theorem Server.handle_still (s : Server) (mt : MessageType) (k : Nat) (m : Message) :
    s.still.handle mt k m = ((s.handle mt k m).1.still, (s.handle mt k m).2) := by
  by_cases hdec : m.type = .decide
  · simp only [handle, if_pos hdec]
    rfl
  · by_cases hunwanted : m.type ≠ mt ∨ m.round ≠ s.round
    · have hunwanted' : m.type ≠ mt ∨ m.round ≠ s.still.round := hunwanted
      by_cases hround : s.round ≤ m.round
      · have hround' : s.still.round ≤ m.round := hround
        rw [handle, handle, if_neg hdec, if_neg hdec, if_pos hunwanted', if_pos hunwanted,
          if_pos hround', if_pos hround]
        rfl
      · have hround' : ¬ s.still.round ≤ m.round := hround
        rw [handle, handle, if_neg hdec, if_neg hdec, if_pos hunwanted', if_pos hunwanted,
          if_neg hround', if_neg hround]
    · have hunwanted' : ¬ (m.type ≠ mt ∨ m.round ≠ s.still.round) := hunwanted
      rw [handle, handle, if_neg hdec, if_neg hdec, if_neg hunwanted', if_neg hunwanted]

theorem Server.receive_still (s : Server) (mt : MessageType) (k : Nat) :
    s.still.receive mt k = (s.receive mt k).map fun next => (next.1.still, next.2) := by
  have hnext : s.still.next k = (s.next k).map fun next => (next.1, next.2.1, next.2.2.still) := by
    rw [Server.next, Server.next]
    by_cases hk : 0 < k
    · rw [if_pos hk, if_pos hk, show s.still.stash = s.stash from rfl]
      cases s.stash <;> rfl
    · rw [if_neg hk, if_neg hk, show s.still.messageq = s.messageq from rfl]
      cases s.messageq <;> rfl
  cases hd : s.decided with
  | true =>
    rw [Server.receive_of_decided hd, Server.receive_of_decided (s := s.still) hd]
    rfl
  | false =>
    rw [Server.receive_of_undecided hd, Server.receive_of_undecided (s := s.still) hd, hnext,
      Option.map_map, Option.map_map]
    cases s.next k with
    | none => rfl
    | some next =>
      obtain ⟨m, k₁, s₁⟩ := next
      exact congrArg some (Server.handle_still s₁ mt k₁ m)

theorem Advances.stay (hf : Follows N st s) (hstill : s'.still = s.still)
    (hpc : s'.pc.receiving N = s.pc.receiving N) : Advances N st s' := by
  refine ⟨[], st, rfl, ?_, ?_, ?_⟩
  · rw [hstill]
    exact hf.server
  · rw [hpc]
    exact hf.stashSize
  · rw [hpc]
    exact hf.call

theorem Advances.move {a : Move} {st₁ : Session} (h : Advances N st₁ s')
    (hstep : st.step a = some st₁) : Advances N st s' := by
  obtain ⟨moves, st', hrun, hf⟩ := h
  exact ⟨a :: moves, st', Transition.Machine.exec_cons (M := sessions) hstep hrun, hf⟩

/-- A coroutine that is in no call starts one. -/
theorem Advances.begin (hf : Follows N st s) (hidle : s.pc.receiving N = none)
    (hstill : s'.still = s.still) (hpc : s'.pc.receiving N = some (mt, s.stash.length)) :
    Advances N st s' := by
  have hsize : st.stashSize = none := by rw [hf.stashSize, hidle, Option.map_none]
  have hstep : st.step (.call mt) = some { st with
      stashSize := some st.server.stash.length
      call := some { mt := mt, round := st.server.round, stash := st.server.stash } } := if_pos hsize
  refine Advances.move ⟨[], _, rfl, ?_, ?_, ?_⟩ hstep
  · rw [hstill]
    exact hf.server
  · rw [hpc, hf.server]
    rfl
  · intro mt' k hpc'
    rw [hpc, Option.some.injEq, Prod.mk.injEq] at hpc'
    exact ⟨_, rfl, hpc'.1⟩

/-- A coroutine that is in no call goes on. -/
theorem Advances.proceed (hf : Follows N st s) (hidle : s.pc.receiving N = none)
    (hmay : MayProceed s s') (hidle' : s'.pc.receiving N = none) : Advances N st s' := by
  have hsize : st.stashSize = none := by rw [hf.stashSize, hidle, Option.map_none]
  have hmay' : MayProceed st.server s'.still := by
    rw [hf.server]
    exact ⟨hmay.stash, hmay.messageq, hmay.round, hmay.decided⟩
  have hstep : st.step (.proceed s'.still) = some { st with server := s'.still } :=
    if_pos ⟨hsize, hmay'⟩
  refine Advances.move ⟨[], _, rfl, rfl, ?_, ?_⟩ hstep
  · rw [hidle']
    exact hsize
  · intro mt k hpc
    rw [hidle'] at hpc
    exact absurd hpc.symm (Option.some_ne_none _)

/-- An iteration of the call in progress. -/
theorem follows_iterate (hf : Follows N st s) (hpc : s.pc.receiving N = some (mt, k))
    {r : Message ⊕ Nat} (hreceive : s.receive mt k = some (s₁, r)) :
    ∃ st₁, st.step .iterate = some st₁ ∧ st₁.server = s₁.still ∧ st₁.stashSize = r.getRight? ∧
      ∃ c, st₁.call = some c ∧ c.mt = mt := by
  obtain ⟨c, hcall, hmt⟩ := hf.call mt k hpc
  have hsize : st.stashSize = some k := by rw [hf.stashSize, hpc, Option.map_some]
  refine ⟨st.iterated c k s₁.still r, ?_, ?_, ?_, ?_⟩
  · rw [Session.step, hsize, Option.bind_some, hcall, Option.bind_some, hf.server, hmt,
      Server.receive_still, hreceive]
    rfl
  · rw [Session.iterated]
    split <;> rfl
  · rw [Session.iterated]
    split <;> rfl
  · rw [Session.iterated]
    split
    · exact ⟨c, hcall, hmt⟩
    · exact ⟨_, rfl, hmt⟩

/-- The call goes on with its next iteration. -/
theorem Advances.next (hf : Follows N st s) (hpc : s.pc.receiving N = some (mt, k))
    (hreceive : s.receive mt k = some (s₁, .inr k')) (hstill : s'.still = s₁.still)
    (hpc' : s'.pc.receiving N = some (mt, k')) : Advances N st s' := by
  obtain ⟨st₁, hstep, hserver, hsize, hcall⟩ := follows_iterate hf hpc hreceive
  refine Advances.move ⟨[], _, rfl, ?_, ?_, ?_⟩ hstep
  · rw [hserver, hstill]
  · rw [hpc', hsize]
    rfl
  · intro mt' k₁ hpc₁
    rw [hpc', Option.some.injEq, Prod.mk.injEq] at hpc₁
    rw [← hpc₁.1]
    exact hcall

/-- The call returns: the coroutine is in no call, with what the call has left. -/
theorem Advances.finish (hf : Follows N st s) (hpc : s.pc.receiving N = some (mt, k))
    (hreceive : s.receive mt k = some (s₁, .inl m)) :
    Advances N st { s₁ with pc := .done } := by
  obtain ⟨st₁, hstep, hserver, hsize, -⟩ := follows_iterate hf hpc hreceive
  refine Advances.move ⟨[], st₁, rfl, hserver, hsize, ?_⟩ hstep
  exact fun mt k hpc => absurd hpc.symm (Option.some_ne_none _)

/-- The failure detector ends a call that waits for the network. -/
theorem Advances.cancel (hf : Follows N st s) (hpc : s.pc.receiving N = some (mt, 0))
    (hd : s.decided = false) : Advances N st { s with pc := .done } := by
  have hsize : st.stashSize = some 0 := by rw [hf.stashSize, hpc, Option.map_some]
  have hdecided : st.server.decided = false := by
    rw [hf.server]
    exact hd
  let st₁ : Session := { st with stashSize := none }
  have hstep : st.step .cancel = some st₁ := if_pos ⟨hsize, hdecided⟩
  refine Advances.move ⟨[], st₁, rfl, hf.server, rfl, ?_⟩ hstep
  exact fun mt k hpc => absurd hpc.symm (Option.some_ne_none _)

theorem Advances.trans (h : Advances N st s₁)
    (hrest : ∀ st₁, Follows N st₁ s₁ → Advances N st₁ s') : Advances N st s' := by
  obtain ⟨moves, st₁, hrun, hf⟩ := h
  obtain ⟨moves', st₂, hrun', hf'⟩ := hrest st₁ hf
  refine ⟨moves ++ moves', st₂, ?_, hf'⟩
  rw [Transition.Machine.exec_append hrun, hrun']

/-- Between two calls the coroutine goes on, and it may start the next one. -/
theorem Advances.resume (h : Advances N st { s₁ with pc := .done }) (hmay : MayProceed s₁ s')
    (hpc : s'.pc.receiving N = none ∨
      ∃ mt, s'.pc.receiving N = some (mt, s'.stash.length)) : Advances N st s' := by
  refine h.trans fun st₁ hf => ?_
  have hgo : Advances N st₁ { s' with pc := .done } :=
    Advances.proceed hf rfl ⟨hmay.stash, hmay.messageq, hmay.round, hmay.decided⟩ rfl
  refine hgo.trans fun st₂ hf₂ => ?_
  rcases hpc with hidle | ⟨mt, hcall⟩
  · exact Advances.stay hf₂ rfl hidle
  · exact Advances.begin hf₂ rfl rfl hcall

end Moves

/-! ## Pieces of the coroutine -/

section Pieces

variable {N : Nat} [NeZero N] {id : Fin N} {st : Session} {s s' : Server}
  {sent : List (Address N × Message)}

theorem mayProceed_pc (pc : Pc) : MayProceed s { s with pc := pc } :=
  ⟨rfl, rfl, Nat.le_refl _, fun hd => ⟨hd, rfl⟩⟩

/-- A call that has found a decision returns a message that does not change the color. -/
theorem colorRound_of_decided {s₁ : Server} {mt : MessageType} {k : Nat} {m : Message}
    (h : s.receive mt k = some (s₁, .inl m)) (hd : s₁.decided = true) :
    m.colorRound = s₁.colorRound := by
  rcases Server.receive_handled h with ⟨-, rfl, hr⟩ | ⟨hs, m₁, k', s₂, hnext, hh⟩
  · rw [Sum.inl.inj hr]
    rfl
  · cases hh with
    | decide hdec hfake => exact hfake
    | wanted hdec htype hround =>
      rw [(next_frame hnext).2, hs] at hd
      exact Bool.noConfusion hd

theorem advances_top (hf : Follows N st s) (hpc : s.pc = .top)
    (h : consensus id s = some (s', sent)) : Advances N st s' := by
  simp only [consensus, hpc] at h
  split at h
  · obtain ⟨rfl, -⟩ := Prod.mk.inj (Option.some.inj h)
    exact Advances.stay hf rfl (by rw [hpc]; rfl)
  · obtain ⟨rfl, -⟩ := Prod.mk.inj (Option.some.inj h)
    exact Advances.stay hf rfl (by rw [hpc]; rfl)

theorem advances_sentPrepare (hf : Follows N st s) (hpc : s.pc = .sentPrepare)
    (h : consensus id s = some (s', sent)) : Advances N st s' := by
  have hidle : s.pc.receiving N = none := by rw [hpc]; rfl
  simp only [consensus, hpc] at h
  split at h
  · obtain ⟨rfl, -⟩ := Prod.mk.inj (Option.some.inj h)
    exact Advances.begin hf hidle rfl (receiving_receivePrepare (Nat.zero_le _))
  · obtain ⟨rfl, -⟩ := Prod.mk.inj (Option.some.inj h)
    exact Advances.begin hf hidle rfl rfl

theorem advances_receivePrepare {received k : Nat} (hf : Follows N st s)
    (hpc : s.pc = .receivePrepare received k) (h : consensus id s = some (s', sent)) :
    Advances N st s' := by
  simp only [consensus, hpc] at h
  by_cases hreceived : received ≤ N / 2
  · have hbusy : s.pc.receiving N = some (.prepare, k) := by
      rw [hpc, receiving_receivePrepare hreceived]
    rw [if_pos hreceived] at h
    rcases hr : s.receive .prepare k with _ | ⟨s₁, m | k'⟩
    · simp [hr] at h
    · simp only [hr] at h
      have hcall : ∀ color colorRound, Pc.receiving N (.receivePrepare (received + 1)
          s₁.stash.length) = none ∨ ∃ mt, Pc.receiving N (.receivePrepare (received + 1)
          s₁.stash.length) = some (mt, ({ s₁ with color := color, colorRound := colorRound } :
            Server).stash.length) := by
        intro color colorRound
        by_cases hnext : received + 1 ≤ N / 2
        · exact .inr ⟨.prepare, receiving_receivePrepare hnext⟩
        · exact .inl (receiving_receivePrepare_done hnext)
      split at h
      · rename_i hlt
        obtain ⟨rfl, -⟩ := Prod.mk.inj (Option.some.inj h)
        refine (Advances.finish hf hbusy hr).resume ⟨rfl, rfl, Nat.le_refl _, fun hd => ?_⟩
          (hcall m.color m.colorRound)
        have := colorRound_of_decided hr hd
        omega
      · obtain ⟨rfl, -⟩ := Prod.mk.inj (Option.some.inj h)
        exact (Advances.finish hf hbusy hr).resume (mayProceed_pc _)
          (hcall s₁.color s₁.colorRound)
    · simp only [hr] at h
      obtain ⟨rfl, -⟩ := Prod.mk.inj (Option.some.inj h)
      exact Advances.next hf hbusy hr rfl (receiving_receivePrepare hreceived)
  · have hidle : s.pc.receiving N = none := by rw [hpc, receiving_receivePrepare_done hreceived]
    rw [if_neg hreceived] at h
    split at h
    · obtain ⟨rfl, -⟩ := Prod.mk.inj (Option.some.inj h)
      exact Advances.stay hf rfl hidle.symm
    · obtain ⟨rfl, -⟩ := Prod.mk.inj (Option.some.inj h)
      exact Advances.stay hf rfl hidle.symm

theorem advances_sendPropose {propose : Message} {j : Nat} (hf : Follows N st s)
    (hpc : s.pc = .sendPropose propose j) (h : consensus id s = some (s', sent)) :
    Advances N st s' := by
  have hidle : s.pc.receiving N = none := by rw [hpc]; rfl
  simp only [consensus, hpc] at h
  split at h
  · obtain ⟨rfl, -⟩ := Prod.mk.inj (Option.some.inj h)
    exact Advances.stay hf rfl hidle.symm
  · obtain ⟨rfl, -⟩ := Prod.mk.inj (Option.some.inj h)
    exact Advances.begin hf hidle rfl rfl

theorem advances_receivePropose {k : Nat} (hf : Follows N st s) (hpc : s.pc = .receivePropose k)
    (h : consensus id s = some (s', sent)) : Advances N st s' := by
  have hbusy : s.pc.receiving N = some (.propose, k) := by rw [hpc]; rfl
  simp only [consensus, hpc] at h
  rcases hr : s.receive .propose k with _ | ⟨s₁, m | k'⟩
  · simp [hr] at h
  · simp only [hr, phase4] at h
    split at h
    · obtain ⟨rfl, -⟩ := Prod.mk.inj (Option.some.inj h)
      exact (Advances.finish hf hbusy hr).resume (mayProceed_pc _) (.inl rfl)
    · rename_i hd
      obtain ⟨rfl, -⟩ := Prod.mk.inj (Option.some.inj h)
      exact (Advances.finish hf hbusy hr).resume
        ⟨rfl, rfl, Nat.le_refl _, fun hd' => absurd hd' hd⟩ (.inl rfl)
  · simp only [hr] at h
    obtain ⟨rfl, -⟩ := Prod.mk.inj (Option.some.inj h)
    exact Advances.next hf hbusy hr rfl rfl

theorem advances_sentAck (hf : Follows N st s) (hpc : s.pc = .sentAck)
    (h : consensus id s = some (s', sent)) : Advances N st s' := by
  have hidle : s.pc.receiving N = none := by rw [hpc]; rfl
  simp only [consensus, hpc] at h
  split at h
  · obtain ⟨rfl, -⟩ := Prod.mk.inj (Option.some.inj h)
    exact Advances.begin hf hidle rfl (receiving_receiveAck (Nat.zero_le _))
  · obtain ⟨rfl, -⟩ := Prod.mk.inj (Option.some.inj h)
    exact Advances.proceed hf hidle ⟨rfl, rfl, Nat.le_succ _, fun hd => ⟨hd, rfl⟩⟩ rfl

theorem advances_receiveAck {success total k : Nat} (hf : Follows N st s)
    (hpc : s.pc = .receiveAck success total k) (h : consensus id s = some (s', sent)) :
    Advances N st s' := by
  simp only [consensus, hpc] at h
  by_cases htotal : total ≤ N / 2
  · have hbusy : s.pc.receiving N = some (.ack, k) := by rw [hpc, receiving_receiveAck htotal]
    rw [if_pos htotal] at h
    rcases hr : s.receive .ack k with _ | ⟨s₁, m | k'⟩
    · simp [hr] at h
    · simp only [hr] at h
      obtain ⟨rfl, -⟩ := Prod.mk.inj (Option.some.inj h)
      refine (Advances.finish hf hbusy hr).resume (mayProceed_pc _) ?_
      by_cases hnext : total + 1 ≤ N / 2
      · exact .inr ⟨.ack, receiving_receiveAck hnext⟩
      · exact .inl (receiving_receiveAck_done hnext)
    · simp only [hr] at h
      obtain ⟨rfl, -⟩ := Prod.mk.inj (Option.some.inj h)
      exact Advances.next hf hbusy hr rfl (receiving_receiveAck htotal)
  · have hidle : s.pc.receiving N = none := by rw [hpc, receiving_receiveAck_done htotal]
    rw [if_neg htotal] at h
    split at h
    · obtain ⟨rfl, -⟩ := Prod.mk.inj (Option.some.inj h)
      exact Advances.stay hf rfl hidle.symm
    · rename_i hd
      split at h
      · obtain ⟨rfl, -⟩ := Prod.mk.inj (Option.some.inj h)
        exact Advances.proceed hf hidle
          ⟨rfl, rfl, Nat.le_refl _, fun hd' => absurd hd' hd⟩ rfl
      · obtain ⟨rfl, -⟩ := Prod.mk.inj (Option.some.inj h)
        exact Advances.proceed hf hidle ⟨rfl, rfl, Nat.le_succ _, fun hd => ⟨hd, rfl⟩⟩ rfl

theorem advances_exit (hf : Follows N st s) (hpc : s.pc = .exit)
    (h : consensus id s = some (s', sent)) : Advances N st s' := by
  simp only [consensus, hpc] at h
  obtain ⟨rfl, -⟩ := Prod.mk.inj (Option.some.inj h)
  exact Advances.stay hf rfl (by rw [hpc]; rfl)

theorem advances_sendDecide {decide : Message} {j : Nat} (hf : Follows N st s)
    (hpc : s.pc = .sendDecide decide j) (h : consensus id s = some (s', sent)) :
    Advances N st s' := by
  have hidle : none = s.pc.receiving N := by rw [hpc]; rfl
  simp only [consensus, hpc] at h
  split at h
  · split at h
    · obtain ⟨rfl, -⟩ := Prod.mk.inj (Option.some.inj h)
      exact Advances.stay hf rfl hidle
    · obtain ⟨rfl, -⟩ := Prod.mk.inj (Option.some.inj h)
      exact Advances.stay hf rfl hidle
  · obtain ⟨rfl, -⟩ := Prod.mk.inj (Option.some.inj h)
    exact Advances.stay hf rfl hidle

/-- Every piece of the coroutine is a few moves of the session. -/
theorem advances_consensus (hf : Follows N st s) (h : consensus id s = some (s', sent)) :
    Advances N st s' := by
  cases hpc : s.pc with
  | top => exact advances_top hf hpc h
  | sentPrepare => exact advances_sentPrepare hf hpc h
  | receivePrepare received k => exact advances_receivePrepare hf hpc h
  | sendPropose propose j => exact advances_sendPropose hf hpc h
  | receivePropose k => exact advances_receivePropose hf hpc h
  | sentAck => exact advances_sentAck hf hpc h
  | receiveAck success total k => exact advances_receiveAck hf hpc h
  | exit => exact advances_exit hf hpc h
  | sendDecide decide j => exact advances_sendDecide hf hpc h
  | done => simp [consensus, hpc] at h

theorem advances_failureDetector (hok : s.Ok) (hf : Follows N st s)
    (h : failureDetector s = some (s', sent)) : Advances N st s' := by
  unfold failureDetector at h
  split at h
  · next hpc =>
    have hd : s.decided = false := by simpa [Server.Ok, hpc] using hok
    simp only [phase4, hd, Bool.false_eq_true, if_false, Option.some.injEq] at h
    obtain ⟨rfl, -⟩ := Prod.mk.inj h
    have hbusy : s.pc.receiving N = some (.propose, 0) := by rw [hpc]; rfl
    exact (Advances.cancel hf hbusy hd).resume
      ⟨rfl, rfl, Nat.le_refl _, fun hd' => absurd (hd.symm.trans hd') Bool.false_ne_true⟩
      (.inl rfl)
  · simp at h

omit [NeZero N] in
/-- A message that is delivered arrives in the session. -/
theorem advances_arrive (hf : Follows N st s) (m : Message) :
    Advances N st { s with messageq := s.messageq ++ [m] } := by
  let st₁ : Session := { st with
    server := { st.server with messageq := st.server.messageq ++ [m] }
    arrived := st.arrived ++ [m] }
  have hstep : st.step (.arrive m) = some st₁ := rfl
  refine Advances.move ⟨[], st₁, rfl, ?_, hf.stashSize, hf.call⟩ hstep
  show { st.server with messageq := st.server.messageq ++ [m] } = _
  rw [hf.server]
  rfl

end Pieces

/-! ## The system -/

section System

variable {N : Nat} {st st' : State N}

/-- Some session follows server `id`. -/
def HasSession (st : State N) (id : Fin N) : Prop :=
  ∃ session, sessions.Reachable session ∧ Follows N session (st.server id)

theorem hasSession_put {id : Fin N} {s : Server} {sent : List (Address N × Message)}
    (h : ∀ i, HasSession st i)
    (hadv : ∀ session, Follows N session (st.server id) → Advances N session s) (i : Fin N) :
    HasSession (st.put id s sent) i := by
  obtain ⟨session, hreach, hf⟩ := h i
  by_cases hi : i = id
  · subst hi
    obtain ⟨moves, session', hrun, hf'⟩ := hadv session hf
    refine ⟨session', hreach.of_exec hrun, ?_⟩
    simpa only [State.put, Function.update_self] using hf'
  · refine ⟨session, hreach, ?_⟩
    simpa only [State.put, Function.update_of_ne hi] using hf

/-- Delivering a message gives it to the session of its destination. -/
theorem hasSession_enqueue (h : ∀ i, HasSession st i) (m : Message) (a : Address N) (i : Fin N) :
    HasSession (st.enqueue m a) i := by
  cases a with
  | nancy => exact h i
  | server id =>
    have hput : HasSession (st.put id { st.server id with
        messageq := (st.server id).messageq ++ [m] } []) i :=
      hasSession_put h (fun session hf => advances_arrive hf m) i
    exact hput

variable [NeZero N] {color : Fin N → String}

theorem hasSession_step {a : Label N} (hok : ∀ i, (st.server i).Ok) (h : ∀ i, HasSession st i)
    (hstep : step st a = some st') (i : Fin N) : HasSession st' i := by
  cases a with
  | run id =>
    obtain ⟨⟨s, sent⟩, hr, rfl⟩ := Option.map_eq_some_iff.1 hstep
    exact hasSession_put h (fun _ hf => advances_consensus hf hr) i
  | timeout id =>
    obtain ⟨⟨s, sent⟩, hr, rfl⟩ := Option.map_eq_some_iff.1 hstep
    exact hasSession_put h (fun _ hf => advances_failureDetector (hok id) hf hr) i
  | deliver k =>
    obtain ⟨⟨a, m⟩, -, rfl⟩ := Option.map_eq_some_iff.1 hstep
    have herase : ∀ i, HasSession { st with inFlight := st.inFlight.eraseIdx k } i := h
    exact hasSession_enqueue herase m a i
  | lose k =>
    obtain ⟨-, -, rfl⟩ := Option.map_eq_some_iff.1 hstep
    exact h i

/-- In every run a session follows each server. -/
theorem reachable_hasSession (h : (system color).Reachable st) : ∀ id, HasSession st id := by
  have key : (∀ i, (st.server i).Ok) ∧ ∀ i, HasSession st i := by
    refine h.invariant (P := fun st => (∀ i, (st.server i).Ok) ∧ ∀ i, HasSession st i) ?_ ?_
    · rintro _ rfl
      refine ⟨fun i => rfl, fun i => ⟨Session.start { color := color i }, .init ⟨_, rfl⟩, rfl, rfl,
        fun mt k hpc => absurd hpc.symm (Option.some_ne_none _)⟩⟩
    · intro st a st' hinv hstep
      exact ⟨(step_refines hinv.1 hstep).1, hasSession_step hinv.1 hinv.2 hstep⟩
  exact key.2

/-- A server that waits for the network in a call of `receive` has no message in its stash
that the call wants. -/
theorem stash_of_waiting (h : (system color).Reachable st) {id : Fin N} {mt : MessageType}
    (hpc : (st.server id).pc.receiving N = some (mt, 0)) :
    ∀ m ∈ (st.server id).stash,
      m.type ≠ .decide ∧ (st.server id).round ≤ m.round ∧
        (m.type ≠ mt ∨ m.round ≠ (st.server id).round) := by
  obtain ⟨session, hreach, hf⟩ := reachable_hasSession h id
  have hinv := reachable_sessionInv hreach
  have hsize : session.stashSize = some 0 := by rw [hf.stashSize, hpc, Option.map_some]
  obtain ⟨c, hcall, hround, -⟩ := hinv.running 0 hsize
  obtain ⟨c', hcall', hmt⟩ := hf.call mt 0 hpc
  rw [hcall, Option.some.injEq] at hcall'
  subst hcall'
  have hwaiting := (hinv.call c hcall).accounted.waiting hsize
  rw [hf.server] at hwaiting hround
  intro m hm
  have hunwanted := hwaiting m hm
  rw [Call.Unwanted, hround, hmt] at hunwanted
  exact hunwanted

end System

end Ctconsensus
end Psets
