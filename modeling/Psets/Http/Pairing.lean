/-
Answers and the callers that receive them.

The tickets for `m_[0]` are taken in the order in which the requests are written, so the
queue of the mutex and the answers still to be read are in step: the holder of the first
ticket reads the answer to its own request.  Dropping a ticket that waits takes it out of
the queue, but its answer still comes, and everybody behind reads the answer to the
request before.
-/
import Psets.Http.ReadLock

namespace Psets
namespace Http
namespace Tickets

open Cotamer Transition
open Mutex (Covered Lost)

/-- Who completes a `receive` has the answer to its own request. -/
def Paired (p : Parser) : Prop := ∀ r ∈ p.results, r.1 = r.2

instance (p : Parser) : Decidable (Paired p) :=
  inferInstanceAs (Decidable (∀ r ∈ p.results, r.1 = r.2))

/-- The calls of somebody who sends requests and receives with the tickets. -/
def Label.byTicket : Label → Bool
  | .send | .sendResponse | .receiveNext => false
  | _ => true

/-- The step takes the reader away from a request on the wire and lets the next one read:
its ticket waits, or it has begun to read. -/
def Parser.misplaces (p : Parser) : Label → Bool
  | .cancel i wrote =>
    match p.phase i with
    | .writing _ _ (some t) => wrote && !decide (p.read.Granted t)
    | .ticket t | .readWait t => !decide (p.read.Granted t)
    | .reading _ => true
    | _ => false
  | _ => false

/-! ## The queue and the answers in step -/

/-- `front` are the tickets, with their calls, of the requests on the wire that are
not answered yet or whose answer is not read, and `writer` is the call that writes. -/
structure InLine (p : Parser) (front : List (Nat × Nat)) (writer : Option (Nat × Nat)) :
    Prop where
  tickets : (front ++ writer.toList).map Prod.fst = p.read.queue
  calls : front.map Prod.snd = p.sent.drop p.taken
  mine : ∀ i t, p.readTickets i = some t → (t, i) ∈ front ++ writer.toList
  request : ∀ i k w, p.phase i = .writeWait k w → k = .request
  writing : ∀ i k w t, p.phase i = .writing k w t → ∃ t', t = some t' ∧ writer = some (t', i)
  writes : ∀ t i, writer = some (t, i) → ∃ w, p.phase i = .writing .request w (some t)
  taken : p.taken ≤ p.answered
  answered : p.answered ≤ p.sent.length

theorem InLine.start : InLine {} [] none where
  tickets := rfl
  calls := rfl
  mine := nofun
  request := nofun
  writing := nofun
  writes := nofun
  taken := Nat.le_refl 0
  answered := Nat.le_refl 0

section

variable {p q : Parser} {front front' : List (Nat × Nat)} {writer writer' : Option (Nat × Nat)}
  {i : Nat} {ph : Phase}

/-- Call `i` moves on, and the others keep their places. -/
theorem InLine.move (h : InLine p front writer) (hphase : q.phase = Function.update p.phase i ph)
    (htickets : (front' ++ writer'.toList).map Prod.fst = q.read.queue)
    (hcalls : front'.map Prod.snd = q.sent.drop q.taken)
    (hself : ∀ t, ph.readTicket? = some t → (t, i) ∈ front' ++ writer'.toList)
    (hothers : ∀ e ∈ front ++ writer.toList, e.2 ≠ i → e ∈ front' ++ writer'.toList)
    (hrequest : ∀ k w, ph = .writeWait k w → k = .request)
    (hwriting : ∀ k w t, ph = .writing k w t → ∃ t', t = some t' ∧ writer' = some (t', i))
    (hkept : ∀ t j, j ≠ i → (writer' = some (t, j) ↔ writer = some (t, j)))
    (hown : ∀ t, writer' = some (t, i) → ∃ w, ph = .writing .request w (some t))
    (htaken : q.taken ≤ q.answered) (hanswered : q.answered ≤ q.sent.length) :
    InLine q front' writer' := by
  have hself' : q.phase i = ph := by
    rw [hphase, Function.update_self]
  have hother : ∀ {j}, j ≠ i → q.phase j = p.phase j := by
    intro j hj
    rw [hphase, Function.update_of_ne hj]
  refine ⟨htickets, hcalls, fun j t hj => ?_, fun j k w hj => ?_, fun j k w t hj => ?_,
    fun t j hj => ?_, htaken, hanswered⟩
  · rw [Parser.readTickets] at hj
    by_cases hji : j = i
    · rw [hji, hself'] at hj
      rw [hji]
      exact hself t hj
    · rw [hother hji] at hj
      exact hothers _ (h.mine j t hj) hji
  · by_cases hji : j = i
    · rw [hji, hself'] at hj
      exact hrequest k w hj
    · rw [hother hji] at hj
      exact h.request j k w hj
  · by_cases hji : j = i
    · rw [hji, hself'] at hj
      rw [hji]
      exact hwriting k w t hj
    · rw [hother hji] at hj
      obtain ⟨t', ht, hw⟩ := h.writing j k w t hj
      exact ⟨t', ht, (hkept t' j hji).2 hw⟩
  · by_cases hji : j = i
    · rw [hji, hself']
      rw [hji] at hj
      exact hown t hj
    · rw [hother hji]
      exact h.writes t j ((hkept t j hji).1 hj)

/-- Call `i` neither writes nor has a place in the queue to give up. -/
theorem InLine.rephase (h : InLine p front writer)
    (hphase : q.phase = Function.update p.phase i ph) (hqueue : q.read.queue = p.read.queue)
    (hwire : q.sent = p.sent ∧ q.answered = p.answered ∧ q.taken = p.taken)
    (hticket : ∀ t, ph.readTicket? = some t → p.readTickets i = some t)
    (hbefore : ∀ k w t, p.phase i ≠ .writing k w t) (hafter : ∀ k w t, ph ≠ .writing k w t)
    (hrequest : ∀ k w, ph = .writeWait k w → k = .request) : InLine q front writer := by
  obtain ⟨hsent, hanswered, htaken⟩ := hwire
  apply h.move hphase
  · rw [h.tickets, hqueue]
  · rw [h.calls, hsent, htaken]
  · exact fun t ht => h.mine i t (hticket t ht)
  · exact fun e he _ => he
  · exact hrequest
  · exact fun k w t he => absurd he (hafter k w t)
  · exact fun _ _ _ => Iff.rfl
  · intro t hw
    obtain ⟨w, hi⟩ := h.writes t i hw
    exact absurd hi (hbefore _ _ _)
  · rw [htaken, hanswered]
    exact h.taken
  · rw [hanswered, hsent]
    exact h.answered

/-- The sender that gets `m_[1]` is the only one that writes. -/
theorem InLine.writer_none (h : InLine p front writer) (hwf : Wf p) {k : Kind} {w : Nat}
    (hph : p.phase i = .writeWait k w) (hg : p.write.Granted w) : writer = none := by
  rcases hw : writer with _ | ⟨t, j⟩
  · rfl
  · obtain ⟨w', hj⟩ := h.writes t j hw
    have hww : w' = w := hwf.write.exclusive.granted_unique (hwf.writing j _ w' _ hj) hg
    have hij : i = j := hwf.write.unique i j w (by rw [Parser.writeTickets, hph]; rfl)
      (by rw [Parser.writeTickets, hj, hww]; rfl)
    rw [hij, hj] at hph
    cases hph

/-- A request takes its ticket, behind all others. -/
theorem InLine.acquire (h : InLine p front writer) (hwf : Wf p) (hs : p.acquire i = some q) :
    InLine q front (some (p.read.nextId, i)) := by
  unfold Parser.acquire at hs
  split at hs
  · rename_i k w hph
    obtain ⟨write, hw, hs⟩ := Option.bind_eq_some_iff.1 hs
    obtain ⟨-, hg, -⟩ := hwf.write.exclusive.claim hw
    have hnone := h.writer_none hwf hph hg
    obtain rfl := h.request i k w hph
    simp only [reduceCtorEq, if_false] at hs
    obtain ⟨read, hr, rfl⟩ := Option.map_eq_some_iff.1 hs
    obtain ⟨-, hqueue, -⟩ := hwf.read.exclusive.lock hr
    have htickets := h.tickets
    rw [hnone, Option.toList_none, List.append_nil] at htickets
    apply h.move rfl
    · rw [Option.toList_some, List.map_append, htickets]
      exact hqueue.symm
    · exact h.calls
    · intro t ht
      rw [← Option.some.inj ht]
      exact List.mem_append_right _ List.mem_cons_self
    · intro e he _
      rw [hnone, Option.toList_none, List.append_nil] at he
      exact List.mem_append_left _ he
    · nofun
    · intro k w' t he
      obtain ⟨-, -, rfl⟩ := Phase.writing.inj he
      exact ⟨p.read.nextId, rfl, rfl⟩
    · intro t j hj
      rw [hnone]
      exact iff_of_false (fun he => hj (Prod.mk.inj (Option.some.inj he)).2.symm) nofun
    · intro t he
      rw [(Prod.mk.inj (Option.some.inj he)).1]
      exact ⟨w, rfl⟩
    · exact h.taken
    · exact h.answered
  · cases hs

/-- The writer is done, and its request is on the wire. -/
theorem InLine.written (h : InLine p front writer) (hs : p.written i = some q) :
    ∃ t, InLine q (front ++ [(t, i)]) none := by
  unfold Parser.written at hs
  split at hs
  · rename_i k w t hph
    obtain ⟨t, rfl, hwriter⟩ := h.writing i k w t hph
    obtain ⟨w', hw'⟩ := h.writes t i hwriter
    obtain ⟨rfl, rfl, -⟩ := Phase.writing.inj (hph.symm.trans hw')
    obtain ⟨write, -, hq⟩ := Option.map_eq_some_iff.1 hs
    subst hq
    have htickets := h.tickets
    rw [hwriter, Option.toList_some] at htickets
    have hsent : p.sentAfter .request i = p.sent ++ [i] := by
      rw [Parser.sentAfter, if_neg nofun]
    have hle : p.taken ≤ p.sent.length := Nat.le_trans h.taken h.answered
    refine ⟨t, ?_⟩
    apply h.move rfl
    · rw [Option.toList_none, List.append_nil]
      exact htickets
    · show _ = (p.sentAfter .request i).drop p.taken
      rw [List.map_append, h.calls, hsent, List.drop_append_of_le_length hle]
      rfl
    · intro t' ht'
      rw [← Option.some.inj ht', Option.toList_none, List.append_nil]
      exact List.mem_append_right _ List.mem_cons_self
    · intro e he _
      rw [hwriter, Option.toList_some] at he
      rw [Option.toList_none, List.append_nil]
      exact he
    · nofun
    · nofun
    · intro t' j hj
      rw [hwriter]
      exact iff_of_false nofun fun he => hj (Prod.mk.inj (Option.some.inj he)).2.symm
    · nofun
    · exact h.taken
    · show p.answered ≤ (p.sentAfter .request i).length
      rw [hsent, List.length_append]
      exact Nat.le_trans h.answered (Nat.le_add_right _ _)
  · cases hs

theorem InLine.answer (h : InLine p front writer) (hlt : p.answered < p.sent.length) :
    InLine { p with answered := p.answered + 1 } front writer :=
  ⟨h.tickets, h.calls, h.mine, h.request, h.writing, h.writes, Nat.le_succ_of_le h.taken, hlt⟩

/-- The reader is the call at the head. -/
theorem InLine.head (h : InLine p front writer) (hwf : Wf p) {t : Nat} {rest : List Nat}
    (hi : p.readTickets i = some t) (hqueue : p.read.queue = t :: rest)
    (hlt : p.taken < p.sent.length) :
    ∃ front', front = (t, i) :: front' ∧ (front' ++ writer.toList).map Prod.fst = rest ∧
      p.sent[p.taken]? = some i ∧ front'.map Prod.snd = p.sent.drop (p.taken + 1) := by
  have hcalls := h.calls
  have htickets := h.tickets
  have hsorted := hwf.read.exclusive.sorted
  rw [List.drop_eq_getElem_cons hlt] at hcalls
  obtain _ | ⟨⟨t', i'⟩, front⟩ := front
  · cases hcalls
  · simp only [List.cons_append, List.map_cons, List.cons.injEq] at hcalls htickets
    rw [hqueue] at htickets hsorted
    obtain ⟨rfl, rfl⟩ := List.cons.inj htickets
    obtain ⟨rfl, hcalls⟩ := hcalls
    have hi' : i = p.sent[p.taken] := by
      rcases List.mem_cons.1 (h.mine i t' hi) with he | he
      · exact (Prod.mk.inj he).2
      · have hlater := (List.pairwise_cons.1 hsorted).1 t' (List.mem_map_of_mem he)
        exact absurd hlater (Nat.lt_irrefl t')
    refine ⟨front, by rw [hi'], rfl, ?_, hcalls⟩
    rw [List.getElem?_eq_getElem hlt, hi']

/-- The reader has the first ticket, and the next answer is its own. -/
theorem InLine.finish (h : InLine p front writer) (hwf : Wf p)
    (hs : p.finish .client i = some q) :
    q.results = p.results ++ [(i, i)] ∧ ∃ front', InLine q front' writer := by
  unfold Parser.finish at hs
  split at hs
  · rename_i t hph
    split at hs
    · cases hs
    · simp only [] at hs
      split at hs
      · rename_i hlt
        obtain ⟨r, hr, hs⟩ := Option.bind_eq_some_iff.1 hs
        obtain ⟨read, hunlock, rfl⟩ := Option.map_eq_some_iff.1 hs
        obtain ⟨-, hqueue, -⟩ := hwf.read.exclusive.unlock hunlock
        have hself : p.readTickets i = some t := by
          rw [Parser.readTickets, hph]
          rfl
        obtain ⟨front', rfl, hrest, hri, hcalls⟩ :=
          h.head hwf hself hqueue (Nat.lt_of_lt_of_le hlt h.answered)
        obtain rfl : r = i := Option.some.inj (hr.symm.trans hri)
        refine ⟨rfl, front', ?_⟩
        apply h.move rfl
        · exact hrest
        · exact hcalls
        · intro t' ht'
          cases ht'
        · intro e he hne
          rcases List.mem_cons.1 he with he | he
          · exact absurd (congrArg Prod.snd he) hne
          · exact he
        · intro k w hw
          cases hw
        · intro k w t' hw
          cases hw
        · exact fun _ _ _ => Iff.rfl
        · intro t' hw
          obtain ⟨w, hi⟩ := h.writes t' r hw
          rw [hph] at hi
          cases hi
        · exact hlt
        · exact h.answered
      · cases hs
  · cases hs

/-- A sender is destroyed before it has written, while its ticket waits. -/
theorem InLine.withdraw (h : InLine p front writer) (hwf : Wf p) {k : Kind} {w t : Nat}
    (hph : p.phase i = .writing k w (some t)) (hg : ¬ p.read.Granted t)
    (hs : p.cancel i false = some q) : InLine q front none := by
  obtain ⟨t', ht', hwriter⟩ := h.writing i k w _ hph
  obtain rfl := Option.some.inj ht'
  obtain ⟨-, -, -, -, hqueue⟩ := hwf.read.exclusive.abandon t
  have htickets := h.tickets
  have hsorted := hwf.read.exclusive.sorted
  rw [hwriter, Option.toList_some, List.map_append] at htickets
  rw [← htickets] at hsorted
  unfold Parser.cancel at hs
  rw [hph] at hs
  obtain ⟨write, -, rfl⟩ := Option.map_eq_some_iff.1 hs
  have hrest : (front.map Prod.fst).filter (fun a => a ≠ t) = front.map Prod.fst := by
    rw [List.filter_eq_self]
    intro a ha
    have hlt := (List.pairwise_append.1 hsorted).2.2 a ha t List.mem_cons_self
    exact decide_eq_true (Nat.ne_of_lt hlt)
  apply h.move rfl
  · show _ = (p.read.abandon t).queue
    rw [hqueue hg, ← htickets, List.filter_append, hrest]
    simp
  · exact h.calls
  · nofun
  · intro e he hne
    rw [hwriter, Option.toList_some] at he
    rw [Option.toList_none, List.append_nil]
    rcases List.mem_append.1 he with he | he
    · exact he
    · exact absurd (congrArg Prod.snd (List.mem_singleton.1 he)) hne
  · nofun
  · nofun
  · intro t' j hj
    rw [hwriter]
    exact iff_of_false nofun fun he => hj (Prod.mk.inj (Option.some.inj he)).2.symm
  · nofun
  · exact h.taken
  · exact h.answered

end

/-! ## Runs -/

/-- Everybody is in line, or nobody will complete a `receive` any more. -/
def Settled (p : Parser) : Prop :=
  p.failed = true ∨ Lost p.read p.readTickets ∨ ∃ front writer, InLine p front writer

section

variable {p q : Parser} {l : Label} {front : List (Nat × Nat)} {writer : Option (Nat × Nat)}
  {i : Nat}

theorem stopReading_results {i t : Nat} (hs : p.stopReading i t = some q) :
    q.results = p.results ∧ q.failed = p.failed := by
  obtain ⟨read, _, rfl⟩ := Option.map_eq_some_iff.1 hs
  exact ⟨rfl, rfl⟩

theorem lockRead_results (hs : p.lockRead = some q) :
    q.results = p.results ∧ q.failed = p.failed := by
  obtain ⟨read, _, rfl⟩ := Option.map_eq_some_iff.1 hs
  exact ⟨rfl, rfl⟩

theorem lockWrite_results {k : Kind} (hs : p.lockWrite k = some q) :
    q.results = p.results ∧ q.failed = p.failed := by
  obtain ⟨write, _, rfl⟩ := Option.map_eq_some_iff.1 hs
  exact ⟨rfl, rfl⟩

theorem written_results {i : Nat} (hs : p.written i = some q) :
    q.results = p.results ∧ q.failed = p.failed := by
  unfold Parser.written at hs
  split at hs
  · obtain ⟨write, _, rfl⟩ := Option.map_eq_some_iff.1 hs
    split <;> exact ⟨rfl, rfl⟩
  · cases hs

theorem acquire_results {i : Nat} (hs : p.acquire i = some q) :
    q.results = p.results ∧ q.failed = p.failed := by
  unfold Parser.acquire at hs
  split at hs
  · obtain ⟨write, _, hs⟩ := Option.bind_eq_some_iff.1 hs
    split at hs
    · obtain rfl := Option.some.inj hs
      exact ⟨rfl, rfl⟩
    · obtain ⟨read, _, rfl⟩ := Option.map_eq_some_iff.1 hs
      exact ⟨rfl, rfl⟩
  · cases hs

theorem cancel_results {i : Nat} {wrote : Bool} (hs : p.cancel i wrote = some q) :
    q.results = p.results ∧ q.failed = p.failed := by
  unfold Parser.cancel at hs
  split at hs
  · obtain rfl := Option.some.inj hs
    exact ⟨rfl, rfl⟩
  · rename_i k w t hph
    obtain ⟨write, _, hq⟩ := Option.map_eq_some_iff.1 hs
    cases t with
    | none =>
      obtain rfl := hq
      exact ⟨rfl, rfl⟩
    | some t =>
      obtain rfl := hq
      exact ⟨rfl, rfl⟩
  · obtain rfl := Option.some.inj hs
    exact ⟨rfl, rfl⟩
  · obtain rfl := Option.some.inj hs
    exact ⟨rfl, rfl⟩
  · exact stopReading_results hs
  · cases hs

/-- Only a `receive` that completes has a result, and an error stays. -/
theorem step_results (hwf : Wf p) (hs : step .client p l = some q) :
    (p.failed = true → q.failed = true) ∧
      (q.results = p.results ∨ ∃ i, l = .finish i ∧ p.failed = false) := by
  have hsame : q.results = p.results ∧ q.failed = p.failed →
      (p.failed = true → q.failed = true) ∧
        (q.results = p.results ∨ ∃ i, l = .finish i ∧ p.failed = false) := by
    intro h
    exact ⟨fun hf => h.2.trans hf, .inl h.1⟩
  cases l with
  | sendRequest => exact hsame (lockWrite_results hs)
  | send => exact hsame (lockWrite_results hs)
  | sendResponse => exact hsame (lockWrite_results hs)
  | receiveNext => exact hsame (lockRead_results hs)
  | acquire i => exact hsame (acquire_results hs)
  | written i => exact hsame (written_results hs)
  | receive i =>
    obtain ⟨t, _, rfl, _⟩ := receive_moved hwf hs
    exact hsame ⟨rfl, rfl⟩
  | start i =>
    obtain ⟨t, read, _, _, rfl, _⟩ := start_moved hwf hs
    exact hsame ⟨rfl, rfl⟩
  | answer =>
    obtain ⟨_, rfl⟩ := step_answer hs
    exact hsame ⟨rfl, rfl⟩
  | finish i =>
    have hfinish : p.finish .client i = some q := hs
    obtain ⟨t, _, hfailed, _⟩ := finish_moved hwf hfinish
    rw [hfailed]
    exact ⟨nofun, .inr ⟨i, rfl, rfl⟩⟩
  | fail i =>
    obtain ⟨hf, hresults, _⟩ := fail_moved hwf hs
    exact ⟨fun _ => hf, .inl hresults⟩
  | cancel i wrote => exact hsame (cancel_results hs)

/-- Nobody reads when the lock is lost. -/
theorem finish_not_lost {mode : Mode} {i : Nat} (hwf : Wf p) (hs : p.finish mode i = some q) :
    ¬ Lost p.read p.readTickets := by
  rintro ⟨id, hid, hnone⟩
  obtain ⟨t, hph, _, _⟩ := finish_moved hwf hs
  have ht : id = t := hwf.read.exclusive.granted_unique hid (hwf.reading i t hph)
  refine hnone i ?_
  rw [ht, Parser.readTickets, hph]
  rfl

/-- A new call of `send_request` waits for `m_[1]`. -/
theorem InLine.enter (h : InLine p front writer) (hwf : Wf p)
    (hs : p.lockWrite .request = some q) : InLine q front writer := by
  have hm := lockWrite_moved hwf hs
  have hover := hwf.fresh p.calls (Nat.le_refl _)
  obtain ⟨write, _, rfl⟩ := Option.map_eq_some_iff.1 hs
  refine h.rephase hm.phase rfl ⟨rfl, rfl, rfl⟩ nofun (fun k w t he => ?_) nofun ?_
  · rw [hover] at he
    cases he
  · intro k w he
    exact (Phase.writeWait.inj he).1.symm

theorem InLine.receive (h : InLine p front writer) (hwf : Wf p) (hs : p.receive i = some q) :
    InLine q front writer := by
  obtain ⟨t, hph, rfl, hm⟩ := receive_moved hwf hs
  refine h.rephase hm.phase rfl ⟨rfl, rfl, rfl⟩ ?_ (fun k w t' he => ?_) nofun nofun
  · intro t' ht'
    rw [Parser.readTickets, hph]
    exact ht'
  · rw [hph] at he
    cases he

theorem InLine.read (h : InLine p front writer) (hwf : Wf p) (hs : p.start i = some q) :
    InLine q front writer := by
  obtain ⟨t, read, hph, hclaim, rfl, hm⟩ := start_moved hwf hs
  obtain ⟨-, -, hqueue, -⟩ := hwf.read.exclusive.claim hclaim
  refine h.rephase hm.phase hqueue ⟨rfl, rfl, rfl⟩ ?_ (fun k w t' he => ?_) nofun nofun
  · intro t' ht'
    rw [Parser.readTickets, hph]
    exact ht'
  · rw [hph] at he
    cases he

/-- Whoever is cancelled leaves the line as it is, or leaves the lock behind. -/
theorem InLine.cancel {wrote : Bool} (h : InLine p front writer) (hwf : Wf p)
    (hl : p.misplaces (.cancel i wrote) = false)
    (hs : step .client p (.cancel i wrote) = some q) : Settled q := by
  have hlost : ∀ {t : Nat}, p.dropped? (.cancel i wrote) = some t → p.read.Granted t →
      Settled q := by
    intro t hd hg
    refine .inr (.inl (step_loses hwf ?_ hs))
    rw [Parser.loses_of_dropped hd]
    exact decide_eq_true hg
  have hcancel : p.cancel i wrote = some q := hs
  simp only [Parser.misplaces] at hl
  cases hph : p.phase i with
  | writeWait k w =>
    have hm := cancel_moved hwf hcancel
    unfold Parser.cancel at hcancel
    rw [hph] at hcancel
    obtain rfl := Option.some.inj hcancel
    refine .inr (.inr ⟨front, writer, ?_⟩)
    refine h.rephase hm.phase rfl ⟨rfl, rfl, rfl⟩ nofun (fun k' w' t he => ?_) nofun nofun
    rw [hph] at he
    cases he
  | writing k w t =>
    obtain ⟨t', rfl, -⟩ := h.writing i k w t hph
    rw [hph] at hl
    by_cases hg : p.read.Granted t'
    · exact hlost (by rw [Parser.dropped?, hph]; rfl) hg
    · cases wrote with
      | true =>
        simp only [Bool.true_and, Bool.not_eq_false', decide_eq_true_eq] at hl
        exact absurd hl hg
      | false => exact .inr (.inr ⟨front, none, h.withdraw hwf hph hg hs⟩)
  | ticket t =>
    rw [hph] at hl
    exact hlost (by rw [Parser.dropped?, hph]; rfl) (by simpa using hl)
  | readWait t =>
    rw [hph] at hl
    exact hlost (by rw [Parser.dropped?, hph]; rfl) (by simpa using hl)
  | reading t =>
    rw [hph] at hl
    cases hl
  | ended =>
    unfold Parser.cancel at hcancel
    rw [hph] at hcancel
    cases hcancel

theorem InLine.step (h : InLine p front writer) (hwf : Wf p) (hl : l.byTicket = true)
    (hkept : p.misplaces l = false) (hs : step .client p l = some q) : Settled q := by
  have hline : ∀ {front writer}, InLine q front writer → Settled q := by
    intro front writer hq
    exact .inr (.inr ⟨front, writer, hq⟩)
  cases l with
  | sendRequest => exact hline (h.enter hwf hs)
  | send => cases hl
  | sendResponse => cases hl
  | receiveNext => cases hl
  | acquire i => exact hline (h.acquire hwf hs)
  | written i =>
    obtain ⟨t, hq⟩ := h.written hs
    exact hline hq
  | receive i => exact hline (h.receive hwf hs)
  | start i => exact hline (h.read hwf hs)
  | answer =>
    obtain ⟨hlt, rfl⟩ := step_answer hs
    exact hline (h.answer hlt)
  | finish i =>
    obtain ⟨-, front', hq⟩ := h.finish hwf hs
    exact hline hq
  | fail i => exact .inl (fail_moved hwf hs).1
  | cancel i wrote => exact h.cancel hwf hkept hs

/-- What holds in every state of a run that keeps each waiting ticket. -/
structure Kept (p : Parser) : Prop where
  wf : Wf p
  paired : Paired p
  settled : Settled p

theorem Kept.start : Kept {} where
  wf := Wf.start
  paired := nofun
  settled := .inr (.inr ⟨[], none, InLine.start⟩)

theorem Kept.step (h : Kept p) (hl : l.byTicket = true) (hkept : p.misplaces l = false)
    (hs : step .client p l = some q) : Kept q := by
  obtain ⟨hfailed, hresults⟩ := step_results h.wf hs
  refine ⟨step_wf h.wf hs, ?_, ?_⟩
  · rcases hresults with hr | ⟨i, rfl, hok⟩
    · rw [Paired, hr]
      exact h.paired
    · rcases h.settled with hf | hlost | ⟨front, writer, hline⟩
      · rw [hok] at hf
        cases hf
      · have hfinish : p.finish .client i = some q := hs
        exact absurd hlost (finish_not_lost h.wf hfinish)
      · obtain ⟨hr, -⟩ := hline.finish h.wf hs
        rw [Paired, hr]
        intro r hmem
        rcases List.mem_append.1 hmem with hmem | hmem
        · exact h.paired r hmem
        · rw [List.mem_singleton.1 hmem]
  · rcases h.settled with hf | hlost | ⟨front, writer, hline⟩
    · exact .inl (hfailed hf)
    · exact .inr (.inl (step_lost h.wf hlost hs))
    · exact hline.step h.wf hl hkept hs

end

/-- Two callers have requests in flight, and the second reads last. -/
def pairedRun : List Label :=
  [.sendRequest, .sendRequest, .acquire 0, .written 0, .acquire 1, .written 1, .receive 1,
    .receive 0, .answer, .answer, .start 0, .finish 0, .start 1, .finish 1]

def pairedEnd : Parser := ((parser .client).exec {} pairedRun).get (by decide)

/-- Three callers, and the second gives up while its ticket waits. -/
def droppedRun : List Label :=
  [.sendRequest, .sendRequest, .sendRequest, .acquire 0, .written 0, .acquire 1, .written 1,
    .acquire 2, .written 2, .receive 0, .start 0, .cancel 1 false, .receive 2, .answer, .answer,
    .answer, .finish 0, .start 2, .finish 2]

def droppedEnd : Parser := ((parser .client).exec {} droppedRun).get (by decide)

end Tickets
end Http
end Psets
