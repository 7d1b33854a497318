/-
The serial numbers of the primary's requests.

The primary numbers its requests and sends one until the backup acknowledges its number.
Whatever is lost or sent again, the channel to the backup holds requests under the numbers
the primary gave them, in the order of these numbers, and none but the last one is ahead of
the backup.
-/
import Psets.PtBackup.Failover

namespace Psets
namespace PtBackup

open Pancy Pancydb Transition

/-- The requests that the primary receives in a run. -/
def received (ls : List Label) : List Request :=
  ls.filterMap fun l =>
    match l with
    | .primaryReceive req => some req
    | _ => none

theorem received_append (ls ls' : List Label) :
    received (ls ++ ls') = received ls ++ received ls' :=
  List.filterMap_append

/-- `reqs` are the requests that the primary has received: each is sent under its number, and
the backup has processed a first part of them. -/
structure Numbered (reqs : List Request) (s : State) : Prop where
  count : reqs.length = s.serial
  current : ∀ req, s.primaryPc = .forward req ∨ s.primaryPc = .await req →
    s.serial ≠ 0 ∧ reqs[s.serial - 1]? = some req
  numbered : ∀ m ∈ s.p2b, m.1 ≠ 0 ∧ reqs[m.1 - 1]? = some m.2
  processed : s.order.take s.expectedSerial = reqs.take s.expectedSerial

theorem Numbered.start : Numbered [] {} where
  count := rfl
  current _ hpc := by simp at hpc
  numbered _ hm := absurd hm List.not_mem_nil
  processed := rfl

variable {check : Pancydb → Bool} {pos : List Nat} {reqs : List Request} {s t : State}

namespace Numbered

theorem primaryReceive (h : Numbered reqs s) (req : Request) (hle : s.expectedSerial ≤ s.serial) :
    Numbered (reqs ++ [req]) { s with serial := s.serial + 1, primaryPc := .forward req } where
  count := by
    show (reqs ++ [req]).length = s.serial + 1
    rw [List.length_append, h.count]
    rfl
  current r hpc := by
    obtain rfl : req = r := by simpa using hpc
    refine ⟨Nat.succ_ne_zero _, ?_⟩
    show (reqs ++ [req])[s.serial + 1 - 1]? = some req
    rw [Nat.add_sub_cancel, ← h.count]
    exact List.getElem?_concat_length
  numbered m hm := by
    obtain ⟨hne, hreq⟩ := h.numbered m hm
    have hlt := (List.getElem?_eq_some_iff.1 hreq).1
    exact ⟨hne, (List.getElem?_append_left hlt).trans hreq⟩
  processed := by
    show _ = (reqs ++ [req]).take s.expectedSerial
    rw [List.take_append_of_le_length (by rw [h.count]; exact hle)]
    exact h.processed

theorem primaryForward (h : Numbered reqs s) {req : Request} (hpc : s.primaryPc = .forward req) :
    Numbered reqs { s with p2b := s.p2b ++ [(s.serial, req)], primaryPc := .await req } where
  count := h.count
  current r hr := by
    obtain rfl : req = r := by simpa using hr
    exact h.current req (.inl hpc)
  numbered m hm := by
    rcases List.mem_append.1 hm with hm | hm
    · exact h.numbered m hm
    · rw [List.mem_singleton.1 hm]
      exact h.current req (.inl hpc)
  processed := h.processed

/-- The primary waits, sends again or gives up; messages are lost. -/
theorem frame (h : Numbered reqs s) (hserial : t.serial = s.serial)
    (hpc : ∀ req, t.primaryPc = .forward req ∨ t.primaryPc = .await req →
      s.primaryPc = .forward req ∨ s.primaryPc = .await req)
    (hp2b : t.p2b ⊆ s.p2b) (hexpected : t.expectedSerial = s.expectedSerial)
    (horder : t.order.take s.expectedSerial = s.order.take s.expectedSerial) :
    Numbered reqs t where
  count := by rw [hserial, h.count]
  current req hreq := by
    rw [hserial]
    exact h.current req (hpc req hreq)
  numbered m hm := h.numbered m (hp2b hm)
  processed := by
    rw [hexpected, horder]
    exact h.processed

/-- The backup receives the next request, which is the one with the next number. -/
theorem applyNext (h : Numbered reqs s) {req : Request} {p2b : List (Nat × Request)}
    (hlen : s.order.length = s.expectedSerial) (hp2b : s.p2b = (s.expectedSerial + 1, req) :: p2b) :
    Numbered reqs { s with
      p2b
      expectedSerial := s.expectedSerial + 1
      backupdb := (s.backupdb.processReq req).1
      order := s.order ++ [req]
      b2p := s.b2p ++ [s.expectedSerial + 1] } where
  count := h.count
  current := h.current
  numbered m hm := h.numbered m (by rw [hp2b]; exact List.mem_cons_of_mem _ hm)
  processed := by
    obtain ⟨-, hreq⟩ := h.numbered (s.expectedSerial + 1, req) (by
      rw [hp2b]
      exact List.mem_cons_self)
    have hreq : reqs[s.expectedSerial]? = some req := hreq
    show (s.order ++ [req]).take (s.expectedSerial + 1) = reqs.take (s.expectedSerial + 1)
    have hwhole : s.order = s.order.take s.expectedSerial := by rw [← hlen, List.take_length]
    rw [List.take_of_length_le (by simp [hlen]), List.take_add_one, hreq, ← h.processed, ← hwhole]
    rfl

theorem respond (h : Numbered reqs s) (req : Request) :
    Numbered reqs (PtBackup.respond check s req) := by
  unfold PtBackup.respond
  simp only []
  split
  · exact h.frame rfl (by simp) (List.Subset.refl _) rfl rfl
  · exact h.frame rfl (by simp) (List.Subset.refl _) rfl rfl

theorem applyForwarded (h : Numbered reqs s) (hi : Inv pos s) {n : Nat} {req : Request}
    {p2b : List (Nat × Request)} (hpc : s.backupPc = .backup) (hp2b : s.p2b = (n, req) :: p2b) :
    Numbered reqs (PtBackup.applyForwarded { s with p2b } n req) := by
  have hsub : p2b ⊆ s.p2b := by
    rw [hp2b]
    exact List.subset_cons_self _ _
  unfold PtBackup.applyForwarded
  by_cases hn : n = s.expectedSerial + 1
  · rw [if_pos hn]
    subst hn
    exact h.applyNext (hi.length hpc) hp2b
  · rw [if_neg hn]
    split
    · exact h.frame rfl (fun _ => id) hsub rfl rfl
    · exact h.frame rfl (fun _ => id) hsub rfl rfl

/-- The backup processes a client request, behind the requests of the primary. -/
theorem serve (h : Numbered reqs s) (hi : Inv pos s) (req : Request) :
    Numbered reqs (PtBackup.serve check s req) := by
  have horder : (s.order ++ [req]).take s.expectedSerial = s.order.take s.expectedSerial :=
    List.take_append_of_le_length hi.length_le
  unfold PtBackup.serve
  simp only []
  split
  · exact h.frame rfl (fun _ => id) (List.Subset.refl _) rfl horder
  · exact h.frame rfl (fun _ => id) (List.Subset.refl _) rfl horder

theorem step (h : Numbered reqs s) (hi : Inv pos s) {a : Label}
    (ht : PtBackup.step check s a = some t) : Numbered (reqs ++ received [a]) t := by
  cases a with
  | primaryReceive req =>
    rw [PtBackup.step] at ht
    split at ht
    · cases ht
      exact h.primaryReceive req hi.expected_le
    · cases ht
  | primaryForward =>
    rw [show received [Label.primaryForward] = [] from rfl, List.append_nil]
    cases hpc : s.primaryPc with
    | forward req =>
      simp only [PtBackup.step, hpc] at ht
      cases ht
      exact h.primaryForward hpc
    | _ => simp [PtBackup.step, hpc] at ht
  | primaryAck =>
    rw [show received [Label.primaryAck] = [] from rfl, List.append_nil]
    cases hpc : s.primaryPc with
    | await req =>
      rcases hb : s.b2p with _ | ⟨ack, b2p⟩
      · simp [PtBackup.step, hpc, hb] at ht
      · have hlost : Numbered reqs { s with b2p } :=
          h.frame rfl (fun _ => id) (List.Subset.refl _) rfl rfl
        simp only [PtBackup.step, hpc, hb] at ht
        split at ht
        · cases ht
          have hdone : Numbered reqs (PtBackup.respond check { s with b2p } req) :=
            hlost.respond req
          rwa [hpc] at hdone
        · cases ht
          refine h.frame rfl (fun r hr => ?_) (List.Subset.refl _) rfl rfl
          obtain rfl : req = r := by simpa using hr
          exact .inr hpc
    | _ => simp [PtBackup.step, hpc] at ht
  | primaryRetry =>
    rw [show received [Label.primaryRetry] = [] from rfl, List.append_nil]
    cases hpc : s.primaryPc with
    | await req =>
      simp only [PtBackup.step, hpc] at ht
      cases ht
      refine h.frame rfl (fun r hr => ?_) (List.Subset.refl _) rfl rfl
      obtain rfl : req = r := by simpa using hr
      exact .inr hpc
    | _ => simp [PtBackup.step, hpc] at ht
  | primaryFail =>
    rw [show received [Label.primaryFail] = [] from rfl, List.append_nil]
    cases ht
    exact h.frame rfl (by simp) (List.Subset.refl _) rfl rfl
  | backupReceive =>
    rw [show received [Label.backupReceive] = [] from rfl, List.append_nil]
    cases hpc : s.backupPc with
    | backup =>
      rcases hp : s.p2b with _ | ⟨⟨n, req⟩, p2b⟩
      · simp [PtBackup.step, hpc, hp] at ht
      · simp only [PtBackup.step, hpc, hp] at ht
        cases ht
        have hnext := h.applyForwarded hi hpc hp
        rwa [hpc] at hnext
    | _ => simp [PtBackup.step, hpc] at ht
  | backupRequest req =>
    rw [show received [Label.backupRequest req] = [] from rfl, List.append_nil]
    cases hpc : s.backupPc with
    | backup =>
      simp only [PtBackup.step, hpc] at ht
      cases ht
      exact h.frame rfl (fun _ => id) (List.Subset.refl _) rfl rfl
    | primary =>
      simp only [PtBackup.step, hpc] at ht
      cases ht
      exact h.serve hi req
    | _ => simp [PtBackup.step, hpc] at ht
  | takeover =>
    rw [show received [Label.takeover] = [] from rfl, List.append_nil]
    rw [PtBackup.step] at ht
    split at ht
    · cases ht
      exact h.frame rfl (fun _ => id) (List.Subset.refl _) rfl rfl
    · cases ht
  | loseP2b k =>
    rw [show received [Label.loseP2b k] = [] from rfl, List.append_nil]
    cases ht
    exact h.frame rfl (fun _ => id) (List.eraseIdx_sublist _ _).subset rfl rfl
  | loseB2p k =>
    rw [show received [Label.loseB2p k] = [] from rfl, List.append_nil]
    cases ht
    exact h.frame rfl (fun _ => id) (List.Subset.refl _) rfl rfl

theorem exec (h : Numbered reqs s) (hi : Inv pos s) {ls : List Label}
    (hr : (system check).exec s ls = some t) :
    (∃ pos', Inv pos' t) ∧ Numbered (reqs ++ received ls) t := by
  induction ls generalizing reqs pos s with
  | nil =>
    simp only [Machine.exec_nil, Option.some.injEq] at hr
    subst hr
    exact ⟨⟨pos, hi⟩, by rwa [show received [] = [] from rfl, List.append_nil]⟩
  | cons a ls ih =>
    obtain ⟨u, hu, hr⟩ := Machine.exec_cons_inv hr
    obtain ⟨pos', hi'⟩ := hi.step hu
    have hnext := ih (h.step hi hu) hi' hr
    rwa [List.append_assoc, ← received_append] at hnext

end Numbered

/-- The backup is always at the number of the message it receives or one before it, and has
processed the requests of the primary, each once and in order, up to its number. -/
theorem serial_expected {ls : List Label} (h : (system check).exec {} ls = some s) :
    (∀ serial req p2b, s.backupPc = .backup → s.p2b = (serial, req) :: p2b →
      serial = s.expectedSerial ∨ serial = s.expectedSerial + 1) ∧
    s.backupPc ≠ .aborted ∧
    s.backupdb = replay s.order ∧
    s.order.take s.expectedSerial = (received ls).take s.expectedSerial ∧
    (s.backupPc = .backup → s.order.length = s.expectedSerial) ∧
    s.expectedSerial ≤ (received ls).length ∧
    (s.primaryPc = .receive → s.expectedSerial = (received ls).length) := by
  obtain ⟨⟨pos, hi⟩, hn⟩ := Numbered.start.exec Inv.start h
  rw [List.nil_append] at hn
  refine ⟨fun serial req p2b _ hp2b => ?_, hi.alive, hi.backupdb, hn.processed, hi.length, ?_,
    fun hpc => ?_⟩
  · have hmem : (serial, req) ∈ s.p2b := by
      rw [hp2b]
      exact List.mem_cons_self
    have hlow := hi.low _ hmem
    have hhigh := hi.high _ hmem
    have hserial := hi.serial_le
    simp only at hlow hhigh
    omega
  · rw [hn.count]
    exact hi.expected_le
  · have hp := hi.primary
    rw [PrimaryOk, hpc] at hp
    rw [hn.count]
    exact hp.2

/-- The first request is sent twice and its first acknowledgement lost, and a copy of the
request is on its way when the second request is processed. -/
def retriedRun : List Label :=
  [.primaryReceive (.put ⟨4096, "k".toList, "v".toList, anyVersion⟩), .primaryForward,
    .primaryRetry, .primaryForward, .primaryRetry, .primaryForward, .backupReceive, .loseB2p 0,
    .backupReceive, .primaryAck,
    .primaryReceive (.put ⟨8192, "k".toList, "w".toList, anyVersion⟩), .primaryForward]

def retriedEnd : State :=
  ((system fun _ => false).exec {} retriedRun).get (by decide +kernel)

theorem serial_expected_retried :
    retriedEnd.p2b.map Prod.fst = [1, 2] ∧ retriedEnd.expectedSerial = 1 ∧
      retriedEnd.order.take 1 = (received retriedRun).take 1 := by
  have hr : (system fun _ => false).exec {} retriedRun = some retriedEnd :=
    (Option.some_get _).symm
  have hexpected : retriedEnd.expectedSerial = 1 := by decide +kernel
  have htake := (serial_expected hr).2.2.2.1
  rw [hexpected] at htake
  exact ⟨by decide +kernel, hexpected, htake⟩

end PtBackup
end Psets
