/-
When a client aborts.

The test behind "must not be waiting for ourselves" lets a client retry when it waits
for itself and aborts it when another client holds the lock.  That is the only throw
that a run reaches.
-/
import Psets.LockSeq.Runs

namespace Psets
namespace LockSeq

open Pancy

variable {nclients : Nat} {s s' : State nclients} {oldss newss : Fin nclients → List Request}

def NoThrow (s : State nclients) : Prop := ∀ i phase errcode, (s.clients i).pc ≠ .thrown phase errcode

/-- A client that waits for a lock receives the value of another client. -/
def Refused (s : State nclients) : Label nclients → Prop
  | .receive cid k => ∃ m, s.responses[k]? = some (.cas m) ∧ m.serial = (s.clients cid).serial ∧
      (s.clients cid).pc = .wait .lock ∧ m.errcode = .noMatch ∧
      ¬ clientKeyPrefix cid <+: m.actual
  | _ => False

/-! ## Clients that go on -/

theorem begin_pc (c : Client) (phase : Phase) : (c.begin phase).pc = .send phase := rfl

theorem clearLoop_pc (c : Client) : ∃ phase, c.clearLoop.pc = .send phase := by
  rw [Client.clearLoop]
  split
  · exact ⟨.clear, rfl⟩
  · exact ⟨.unlock, rfl⟩

theorem writeLoop_pc (c : Client) : ∃ phase, c.writeLoop.pc = .send phase := by
  rw [Client.writeLoop]
  split
  · exact ⟨.write, rfl⟩
  · exact clearLoop_pc c

/-- The responses that the server sends make no client throw, unless they refuse a
lock. -/
theorem receive_pc {t : Table} {c : Client} {i : Nat} {phase : Phase} {resp : Response}
    (hr : ReplyOk t c resp phase)
    (hok : ∀ m, phase = .lock → resp = .cas m → m.errcode = .noMatch →
      clientKeyPrefix i <+: m.actual) (phase' : Phase) (errcode : Errc) :
    (c.receive i phase resp).pc ≠ .thrown phase' errcode := by
  have send {c' : Client} (h : ∃ phase, c'.pc = .send phase) : c'.pc ≠ .thrown phase' errcode := by
    obtain ⟨phase, h⟩ := h
    rw [h]
    simp
  cases phase with
  | lock =>
    obtain ⟨m, rfl, hcode, _⟩ := hr
    rw [Client.receive, Client.lockResponse]
    by_cases he : m.errcode = .ok
    · rw [if_pos he]
      exact send (writeLoop_pc _)
    · have hnm := hcode.resolve_left he
      rw [if_neg he, if_neg (not_not.2 hnm)]
      split
      · exact send (writeLoop_pc _)
      · rw [if_neg (by rw [List.isPrefixOf_iff_prefix.2 (hok m rfl rfl hnm)]; simp)]
        simp
  | write =>
    obtain ⟨m, rfl, he, _⟩ := hr
    rw [Client.receive, Client.writeResponse, if_neg (not_not.2 he)]
    simp [Client.next]
  | clear =>
    obtain ⟨m, rfl, _, hcode⟩ := hr
    rw [Client.receive, Client.clearResponse]
    by_cases he : m.errcode = .ok
    · rw [if_pos he]
      simp [Client.next]
    · rw [if_neg he, if_neg (not_not.2 (hcode.resolve_left he).1)]
      split
      · exact send ⟨.unlock, rfl⟩
      · simp [Client.next]
  | unlock =>
    obtain ⟨m, rfl, _, hcode⟩ := hr
    have hfirst : ¬ (m.errcode ≠ .ok ∧ c.tries = 0) := by
      rintro ⟨hne, h0⟩
      have := hcode.resolve_left hne
      omega
    rw [Client.receive, Client.unlockResponse, if_neg hfirst]
    simp

theorem resume_pc (c : Client) {phase : Phase} (hpc : c.pc = .pause phase) (phase' : Phase)
    (errcode : Errc) : (c.resume phase).pc ≠ .thrown phase' errcode := by
  cases phase with
  | lock => simp [Client.resume, Client.retry]
  | write =>
    obtain ⟨ph, h⟩ := writeLoop_pc c
    rw [Client.resume, h]
    simp
  | clear =>
    obtain ⟨ph, h⟩ := clearLoop_pc c
    rw [Client.resume, h]
    simp
  | unlock =>
    rw [Client.resume, hpc]
    simp

theorem NoThrow.setClient (h : NoThrow s) {i : Fin nclients} {c' : Client}
    (hclients : s'.clients = Function.update s.clients i c')
    (hc : ∀ phase errcode, c'.pc ≠ .thrown phase errcode) : NoThrow s' := by
  intro j phase errcode
  rw [hclients]
  by_cases hj : j = i
  · rw [hj, Function.update_self]
    exact hc phase errcode
  · rw [Function.update_of_ne hj]
    exact h j phase errcode

theorem NoThrow.step (h : NoThrow s) (hinv : Inv oldss newss s) {a : Label nclients}
    (hok : ¬ Refused s a) (hs : step s a = some s') : NoThrow s' := by
  cases step_stepped hs with
  | choose => exact h.setClient rfl fun _ _ => by simp [Client.choose, begin_pc]
  | send => exact h.setClient rfl fun _ _ => by simp
  | timeout => exact h.setClient rfl fun _ _ => by simp [Client.retry]
  | receive hpc hk hserial =>
    have hreply := hinv.reply hpc (List.mem_of_getElem? hk) hserial
    refine h.setClient rfl (receive_pc hreply ?_)
    rintro m rfl rfl hnm
    by_contra hpre
    exact hok ⟨m, hk, hserial, hpc, hnm, hpre⟩
  | resume hpc => exact h.setClient rfl (resume_pc _ hpc)
  | ignore | serve | loseRequest | loseResponse => exact h

/-- A client that is refused aborts. -/
theorem Refused.throws (hinv : Inv oldss newss s) {a : Label nclients} (h : Refused s a)
    (hs : step s a = some s') : ¬ NoThrow s' := by
  cases a with
  | receive cid k =>
    obtain ⟨m, hk, hserial, hpc, hnm, hpre⟩ := h
    have hch := (hinv.clients cid).chosen (by rw [hpc]; simp)
    have hmine : ¬ (m.actual = (s.clients cid).value ∧ 0 < (s.clients cid).tries) := fun h =>
      hpre (h.1 ▸ hch.named)
    have hthrow : (s.clients cid).receive cid .lock (.cas m) =
        (s.clients cid).throw .lock .noMatch := by
      have hbool : (clientKeyPrefix cid).isPrefixOf m.actual = false :=
        Bool.eq_false_iff.2 (mt List.isPrefixOf_iff_prefix.1 hpre)
      rw [Client.receive, Client.lockResponse, if_neg (by rw [hnm]; simp), if_neg (not_not.2 hnm),
        if_neg hmine, if_pos hbool]
    simp only [LockSeq.step, hpc, hk] at hs
    split at hs
    · exact absurd hs (by simp)
    · rw [if_neg (not_not.2 (show (Response.cas m).serial = _ from hserial))] at hs
      obtain rfl := Option.some.inj hs
      refine fun hno => hno cid .lock .noMatch ?_
      show (Function.update s.clients cid ((s.clients cid).receive cid .lock (.cas m)) cid).pc = _
      rw [Function.update_self, hthrow]
      rfl
  | choose | send | timeout | resume | serve | loseRequest | loseResponse => exact h.elim

/-- In a run in which no removal is retransmitted 2^32 times, the clients never abort
exactly if none is refused a lock. -/
theorem no_throw_iff (hn : nclients ≤ maxClients) {as : List (Label nclients)}
    (hr : (system nclients).exec (start nclients) as = some s)
    (hfit : (system nclients).Within TriesFit (start nclients) as) :
    (system nclients).Always NoThrow (start nclients) as ↔
      (system nclients).Within (fun s a => ¬ Refused s a) (start nclients) as := by
  refine Transition.Machine.always_iff_within (I := fun s => ∃ oldss newss, Inv oldss newss s) ?_ ?_
    ⟨_, _, Inv.start nclients hn⟩ (fun i phase errcode => by simp [start]) hfit hr
  · rintro s a t ⟨oldss, newss, h⟩ hok hs
    exact h.step hok hs
  · rintro s a t ⟨oldss, newss, h⟩ hno hs
    exact ⟨fun ht href => href.throws h hs ht, fun hok => hno.step h hok hs⟩

/-! ## Two clients and one group -/

-- for the numerals of `refusedRun`
local instance neZero_clients : NeZero 2 := ⟨by decide⟩

/-- Client 0 holds the lock of a group, and client 1 asks for it. -/
def refusedRun : List (Label 2) :=
  [.choose 0 0 1 (List.replicate 7 '0'), .send 0, .serve 0,
   .choose 1 0 1 (List.replicate 7 '0'), .send 1, .serve 1, .receive 1 1]

theorem refusedRun_isSome : ((system 2).exec (start 2) refusedRun).isSome = true := by
  decide +kernel

def refusedState : State 2 := ((system 2).exec (start 2) refusedRun).get refusedRun_isSome

theorem no_throw_iff_example :
    (system 2).Always NoThrow (start 2) refusedRun ↔
      (system 2).Within (fun s a => ¬ Refused s a) (start 2) refusedRun := by
  refine no_throw_iff (by decide) (Option.some_get refusedRun_isSome).symm ?_
  exact Transition.Machine.within_of_forall _ (by simp [refusedRun, TriesFit])

theorem refusedState_throws : (system 2).Reachable refusedState ∧ ¬ NoThrow refusedState := by
  have hinit : (system 2).init (start 2) := ⟨by decide, rfl⟩
  have hpc : (refusedState.clients 1).pc = .thrown .lock .noMatch := by decide +kernel
  exact ⟨.of_get hinit refusedRun_isSome, fun h => h 1 .lock .noMatch hpc⟩

end LockSeq
end Psets
