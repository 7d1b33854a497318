/-
When the backup discards a request.

A receive of the race that has completed holds its message.  The combinator looks at
the receive from the primary first: when both have completed, the message of a client
is destroyed with its receive.  In every other case what was taken is handled.
-/
import Psets.Netsim.AltBackup

namespace Psets
namespace Netsim
namespace AltBackup

open Cotamer Pancy

variable {Req : Type} {s s' : State} {r : Race} {awaiter : Awaiter} {a : Label}
  {recv : Receive (Req × Str) (Req × Str)} {q : List (Req × Str)}

/-! ## The receives of a race -/

/-- A receive that waits, or that has taken a message and holds it. -/
inductive Pending (awaiter : Awaiter) : Receive (Req × Str) (Req × Str) → Prop where
  | waiting {port : Nat} {pc : Pc} : pc ≠ .resolving → pc ≠ .done →
      Pending awaiter (.waiting false port pc awaiter)
  | finished {port : Nat} {inner : Awaiter} {m : Req × Str} :
      Pending awaiter (.finished port inner awaiter (some m))

theorem Pending.setAwaiter (h : Pending awaiter recv) (awaiter' : Awaiter) :
    Pending awaiter' (recv.setAwaiter awaiter') := by
  cases h with
  | waiting h1 h2 => exact .waiting h1 h2
  | finished => exact .finished

theorem Pending.wake (h : Pending awaiter recv) :
    Pending awaiter (wake recv) ∧ (AltBackup.wake recv).result = recv.result := by
  rw [AltBackup.wake]
  split
  · rename_i hpc
    cases h with
    | waiting => exact ⟨.waiting (by simp) (by simp), rfl⟩
    | finished => exact absurd hpc (by simp [Receive.finished])
  · exact ⟨h, rfl⟩

theorem Pending.done_iff (h : Pending awaiter recv) : recv.done = recv.result.isSome := by
  cases h <;> rfl

theorem resolveReceive_pending (h : Pending awaiter recv) :
    resolveReceive q recv = some (recv.result.isSome, { messageq := q, recv := recv }) := by
  cases h with
  | waiting => rfl
  | finished => rfl

/-- A call takes the head of the queue, if there is one. -/
theorem call_pending (port : Nat) (q : List (Req × Str)) :
    ∃ t, Turn.call (reception Req) port q = some t ∧ Pending .none t.recv ∧
      q = t.recv.result.toList ++ t.messageq ∧ (t.recv.result.isSome = true ↔ q ≠ []) := by
  cases q with
  | nil => exact ⟨_, Turn.call_nil, .waiting (by simp) (by simp), rfl, by simp [Receive.waiting]⟩
  | cons m q => exact ⟨_, Turn.call_direct rfl, .finished, rfl, by simp [Receive.finished]⟩

theorem resumeReceive_pending {t : Turn (Req × Str) (Req × Str)} (h : Pending (.event 0) recv)
    (ht : resumeReceive q recv = some t) :
    Pending (.event 0) t.recv ∧
      recv.result.toList ++ q = t.recv.result.toList ++ t.messageq := by
  rw [resumeReceive, Option.ite_none_right_eq_some, Option.some.injEq] at ht
  obtain ⟨hpc, rfl⟩ := ht
  cases h with
  | finished => exact absurd hpc (by simp [Receive.finished])
  | @waiting port pc h1 h2 =>
    rcases hpc with hpc | hpc
    · obtain rfl : pc = .woken := hpc
      exact ⟨.waiting (by simp) (by simp), rfl⟩
    · obtain rfl : pc = .delaying := hpc
      cases q with
      | nil => exact ⟨.waiting (by simp) (by simp), rfl⟩
      | cons m q =>
        rw [Turn.innerResume_direct (by simp)]
        exact ⟨.finished, rfl⟩

/-! ## The loop of the combinator -/

/-- What the race comes to, by what its receives hold. -/
theorem race_eq (h : Pending awaiter r.p2b) (h' : Pending awaiter r.c2b) : s.race r =
    match r.p2b.result, r.c2b.result with
    | some m, _ => some (s.handle m)
    | none, some m => some (s.redirect m)
    | none, none =>
      if r.timeout then some { s with pc := .failedOver }
      else some { s with pc := .racing r.makeEvent } := by
  rw [State.race, resolveReceive_pending h]
  cases hp : r.p2b.result with
  | some m => simp [hp]
  | none =>
    simp only [Option.isSome_none, Option.bind_eq_bind, Option.bind_some, Bool.false_eq_true,
      if_false, resolveReceive_pending h']
    cases hc : r.c2b.result with
    | some m => simp
    | none => simp

/-! ## What becomes of the messages -/

def heldP2b (s : State) : List (PbRequest × Str) :=
  match s.pc with
  | .racing r => r.p2b.result.toList
  | _ => []

def heldC2b (s : State) : List (Request × Str) :=
  match s.pc with
  | .racing r => r.c2b.result.toList
  | _ => []

/-- The effect of a request of the primary on the serial and the database. -/
def applyOnce (x : Nat × Pancydb) (m : PbRequest × Str) : Nat × Pancydb :=
  if m.1.1 = x.1 + 1 then (x.1 + 1, (x.2.processReq m.1.2).1) else x

/-- The messages of the primary but for `held` and the queue are applied and acknowledged. -/
def Acknowledged (s : State) (held : List (PbRequest × Str)) : Prop :=
  ∃ handled, s.p2bDelivered = handled ++ (held ++ s.p2bq) ∧
    s.acks = handled.map (fun m => (m.2, m.1.1)) ∧
    (s.expectedSerial, s.backupdb) = handled.foldl applyOnce (0, {})

/-- The messages of clients but for `held` and the queue are redirected. -/
def Redirected (s : State) (held : List (Request × Str)) : Prop :=
  ∃ handled, s.c2bDelivered = handled ++ (held ++ s.c2bq) ∧
    s.redirections = handled.map fun m => (m.2, m.1.serial)

/-- Every message that was removed from a queue is handled, or is held by a race that goes on. -/
def Handled (s : State) : Prop := Acknowledged s (heldP2b s) ∧ Redirected s (heldC2b s)

/-- Serials that follow `first`, and the last of them. -/
def Serials : Nat → List Nat → Nat → Prop
  | first, [], last => last = first
  | first, serial :: serials, last => NextSerial first serial ∧ Serials serial serials last

theorem Serials.snoc {first last serial : Nat} {l : List Nat} (h : Serials first l last)
    (hn : NextSerial last serial) : Serials first (l ++ [serial]) serial := by
  induction l generalizing first with
  | nil =>
    obtain rfl : last = first := h
    exact ⟨hn, rfl⟩
  | cons n l ih => exact ⟨h.1, ih h.2⟩

def Expected (s : State) (held : List (PbRequest × Str)) : Prop :=
  Serials s.expectedSerial ((held ++ s.p2bq).map (·.1.1)) s.p2bSerial

/-- The messages of the primary come in order and are never lost. -/
structure Ok (s : State) : Prop where
  receives : ∀ r, s.pc = .racing r → Pending (.event 0) r.p2b ∧ Pending (.event 0) r.c2b
  expected : Expected s (heldP2b s)
  acknowledged : Acknowledged s (heldP2b s)

theorem handle_fields {m : PbRequest × Str} (hn : NextSerial s.expectedSerial m.1.1) :
    (s.handle m).pc = .sending ∧ (s.handle m).acks = s.acks ++ [(m.2, m.1.1)] ∧
      ((s.handle m).expectedSerial, (s.handle m).backupdb) =
        applyOnce (s.expectedSerial, s.backupdb) m ∧
      (s.handle m).expectedSerial = m.1.1 := by
  rw [State.handle, applyOnce]
  by_cases h : m.1.1 = s.expectedSerial + 1
  · rw [if_pos h, if_pos h, h]
    exact ⟨rfl, rfl, rfl, rfl⟩
  · have he := hn.resolve_right h
    rw [if_neg h, if_pos he, if_neg h, he]
    exact ⟨rfl, rfl, rfl, rfl⟩

theorem handle_frame (s : State) (m : PbRequest × Str) :
    (s.handle m).p2bq = s.p2bq ∧ (s.handle m).c2bq = s.c2bq ∧
      (s.handle m).p2bDelivered = s.p2bDelivered ∧ (s.handle m).c2bDelivered = s.c2bDelivered ∧
      (s.handle m).redirections = s.redirections ∧ (s.handle m).p2bSerial = s.p2bSerial := by
  rw [State.handle]
  split
  · exact ⟨rfl, rfl, rfl, rfl, rfl, rfl⟩
  · split <;> exact ⟨rfl, rfl, rfl, rfl, rfl, rfl⟩

theorem held_of_not_racing (h : ∀ r, s.pc ≠ .racing r) : heldP2b s = [] ∧ heldC2b s = [] := by
  rw [heldP2b, heldC2b]
  constructor
  · split
    · rename_i r hr
      exact absurd hr (h r)
    · rfl
  · split
    · rename_i r hr
      exact absurd hr (h r)
    · rfl

/-- The message of the primary that a race returns. -/
theorem handle_ok {m : PbRequest × Str} (he : Expected s [m]) (ha : Acknowledged s [m]) :
    Ok (s.handle m) ∧ heldC2b (s.handle m) = [] := by
  obtain ⟨hn, hrest⟩ := he
  obtain ⟨handled, hd, hacks, hdb⟩ := ha
  obtain ⟨hpc, hacks', hdb', hexp⟩ := handle_fields hn
  obtain ⟨hq, _, hdel, _, _, hser⟩ := handle_frame s m
  have hnot : ∀ r, (s.handle m).pc ≠ .racing r := fun r => by
    rw [hpc]
    simp
  obtain ⟨hp2b, hc2b⟩ := held_of_not_racing hnot
  refine ⟨⟨fun r hr => absurd hr (hnot r), ?_, ?_⟩, hc2b⟩
  · rw [Expected, hp2b, hexp, hq, hser]
    exact hrest
  · rw [hp2b]
    refine ⟨handled ++ [m], ?_, ?_, ?_⟩
    · rw [hdel, hd, hq]
      simp
    · rw [hacks', hacks]
      simp
    · rw [hdb', hdb, List.foldl_append]
      rfl

/-- A message that is gone without a redirection. -/
theorem not_redirected {m : Request × Str} (h : Redirected s [m])
    (hq : s'.c2bq = s.c2bq) (hd : s'.c2bDelivered = s.c2bDelivered)
    (hr : s'.redirections = s.redirections) : ¬ Redirected s' [] := by
  obtain ⟨handled, hdel, hred⟩ := h
  rintro ⟨handled', hdel', hred'⟩
  have h1 : handled'.length = handled.length := by
    have := congrArg List.length (hred'.symm.trans (hr.trans hred))
    simpa using this
  have h2 := congrArg List.length (hdel'.symm.trans (hd.trans hdel))
  rw [hq] at h2
  simp only [List.length_append, List.length_cons, List.length_nil] at h2
  omega

/-- The whole race: what was taken from the primary is handled, and what was taken from a
client is lost exactly when both receives had completed. -/
theorem race_ok (h : Pending awaiter r.p2b) (h' : Pending awaiter r.c2b)
    (he : Expected s r.p2b.result.toList) (ha : Acknowledged s r.p2b.result.toList) :
    ∃ s', s.race r = some s' ∧ Ok s' ∧ (Redirected s r.c2b.result.toList →
      (Redirected s' (heldC2b s') ↔
        ¬ (r.p2b.result.isSome = true ∧ r.c2b.result.isSome = true))) := by
  rw [race_eq h h']
  cases hp : r.p2b.result with
  | some m =>
    rw [hp] at he ha
    obtain ⟨hok, hheld⟩ := handle_ok he ha
    obtain ⟨_, hq, _, hd, hr, _⟩ := handle_frame s m
    refine ⟨_, rfl, hok, fun hred => ?_⟩
    rw [hheld]
    cases hc : r.c2b.result with
    | none =>
      rw [hc] at hred
      refine iff_of_true ?_ (by simp)
      rw [Redirected, hq, hd, hr]
      exact hred
    | some m' =>
      rw [hc] at hred
      exact iff_of_false (not_redirected hred hq hd hr) (by simp)
  | none =>
    rw [hp] at he ha
    cases hc : r.c2b.result with
    | some m =>
      refine ⟨_, rfl, ⟨fun r hr => by simp [State.redirect] at hr, he, ha⟩, fun hred => ?_⟩
      rw [Option.toList_some] at hred
      obtain ⟨handled, hdel, hred⟩ := hred
      refine iff_of_true ⟨handled ++ [m], ?_, ?_⟩ (by simp)
      · show s.c2bDelivered = _
        rw [hdel]
        simp [heldC2b, State.redirect]
      · show s.redirections ++ _ = _
        rw [hred]
        simp
    | none =>
      by_cases ht : r.timeout = true
      · simp only [ht, if_true]
        exact ⟨_, rfl, ⟨fun r hr => by simp at hr, he, ha⟩, fun hred => iff_of_true hred (by simp)⟩
      · simp only [ht]
        have hp' : heldP2b { s with pc := .racing r.makeEvent } = [] := by
          show r.p2b.result.toList = []
          rw [hp]
          rfl
        have hc' : heldC2b { s with pc := .racing r.makeEvent } = [] := by
          show r.c2b.result.toList = []
          rw [hc]
          rfl
        refine ⟨_, rfl, ⟨fun r' hr => ?_, ?_, ?_⟩, fun hred => iff_of_true ?_ (by simp)⟩
        · obtain rfl := BackupPc.racing.inj hr
          exact ⟨h.setAwaiter _, h'.setAwaiter _⟩
        · rw [hp']
          exact he
        · rw [hp']
          exact ha
        · rw [hc']
          exact hred

/-! ## Steps -/

/-- The combinator is about to look at two receives that have both taken a message: each of
them does so when it is called on a queue that is not empty. -/
def BothTaken (s : State) : Label → Prop
  | .begin => s.p2bq ≠ [] ∧ s.c2bq ≠ []
  | .resume => ∃ r, s.pc = .racing r ∧ r.p2b.done = true ∧ r.c2b.done = true
  | _ => False

/-- What one step comes to. -/
structure Stepped (s : State) (a : Label) (s' : State) : Prop where
  ok : Ok s'
  redirected : Redirected s (heldC2b s) → (Redirected s' (heldC2b s') ↔ ¬ BothTaken s a)

theorem Ok.wakeP2b (h : Ok s) (r : Race) (hr : s.pc.onRace (fun r => { r with p2b := wake r.p2b }) =
    .racing r) : Pending (.event 0) r.p2b ∧ Pending (.event 0) r.c2b := by
  rcases hpc : s.pc with _ | r0 | _ | _ | _ <;> rw [hpc] at hr
  · simp [BackupPc.onRace] at hr
  · obtain rfl := BackupPc.racing.inj hr
    exact ⟨(h.receives r0 hpc).1.wake.1, (h.receives r0 hpc).2⟩
  · simp [BackupPc.onRace] at hr
  · simp [BackupPc.onRace] at hr
  · simp [BackupPc.onRace] at hr

theorem Ok.wakeC2b (h : Ok s) (r : Race) (hr : s.pc.onRace (fun r => { r with c2b := wake r.c2b }) =
    .racing r) : Pending (.event 0) r.p2b ∧ Pending (.event 0) r.c2b := by
  rcases hpc : s.pc with _ | r0 | _ | _ | _ <;> rw [hpc] at hr
  · simp [BackupPc.onRace] at hr
  · obtain rfl := BackupPc.racing.inj hr
    exact ⟨(h.receives r0 hpc).1, (h.receives r0 hpc).2.wake.1⟩
  · simp [BackupPc.onRace] at hr
  · simp [BackupPc.onRace] at hr
  · simp [BackupPc.onRace] at hr

/-- A change of the race that leaves the results as they are. -/
theorem held_onRace (h : Ok s) {f : Race → Race} (hpc : s'.pc = s.pc.onRace f)
    (hf : ∀ r, Pending (.event 0) r.p2b → Pending (.event 0) r.c2b →
      (f r).p2b.result = r.p2b.result ∧ (f r).c2b.result = r.c2b.result) :
    heldP2b s' = heldP2b s ∧ heldC2b s' = heldC2b s := by
  rw [heldP2b, heldP2b, heldC2b, heldC2b, hpc]
  rcases hpc : s.pc with _ | r | _ | _ | _
  · exact ⟨rfl, rfl⟩
  · obtain ⟨h1, h2⟩ := h.receives r hpc
    obtain ⟨hr1, hr2⟩ := hf r h1 h2
    simp only [BackupPc.onRace, hr1, hr2, and_self]
  · exact ⟨rfl, rfl⟩
  · exact ⟨rfl, rfl⟩
  · exact ⟨rfl, rfl⟩

theorem Ok.deliverP2b (h : Ok s) {serial : Nat} (hn : NextSerial s.p2bSerial serial)
    (req : Request) (source : Str) (hs : step s (.deliverP2b serial req source) = some s') :
    Stepped s (.deliverP2b serial req source) s' := by
  rw [step, if_pos hn, Option.some.injEq] at hs
  have hpc : s'.pc = s.pc.onRace fun r => { r with p2b := wake r.p2b } := by rw [← hs]
  obtain ⟨hp, hc⟩ := held_onRace h hpc fun r h1 _ => ⟨h1.wake.2, rfl⟩
  obtain ⟨handled, hd, hacks, hdb⟩ := h.acknowledged
  refine ⟨⟨fun r hr => h.wakeP2b r (by rw [← hs] at hr; exact hr), ?_, ?_⟩, fun hred => ?_⟩
  · rw [hp, ← hs, Expected, ← List.append_assoc, List.map_append]
    exact h.expected.snoc hn
  · rw [hp, ← hs]
    refine ⟨handled, ?_, hacks, hdb⟩
    show s.p2bDelivered ++ _ = _
    rw [hd]
    simp
  · rw [hc, ← hs]
    exact iff_of_true hred id

theorem Ok.deliverC2b (h : Ok s) (req : Request) (source : Str)
    (hs : step s (.deliverC2b req source) = some s') : Stepped s (.deliverC2b req source) s' := by
  rw [step, Option.some.injEq] at hs
  have hpc : s'.pc = s.pc.onRace fun r => { r with c2b := wake r.c2b } := by rw [← hs]
  obtain ⟨hp, hc⟩ := held_onRace h hpc fun r _ h2 => ⟨rfl, h2.wake.2⟩
  refine ⟨⟨fun r hr => h.wakeC2b r (by rw [← hs] at hr; exact hr), ?_, ?_⟩, fun hred => ?_⟩
  · rw [hp, ← hs]
    exact h.expected
  · rw [hp, ← hs]
    exact h.acknowledged
  · rw [hc, ← hs]
    obtain ⟨handled, hd, hr⟩ := hred
    refine iff_of_true ⟨handled, ?_, hr⟩ id
    show s.c2bDelivered ++ _ = _
    rw [hd]
    simp

/-- The race that a step goes on with, by what its receives hold. -/
theorem Stepped.of_race {s₁ : State} (hs : s₁.race r = some s') (h : Pending awaiter r.p2b)
    (h' : Pending awaiter r.c2b) (he : Expected s₁ r.p2b.result.toList)
    (ha : Acknowledged s₁ r.p2b.result.toList)
    (hred : Redirected s (heldC2b s) → Redirected s₁ r.c2b.result.toList)
    (hb : BothTaken s a ↔ r.p2b.result.isSome = true ∧ r.c2b.result.isSome = true) :
    Stepped s a s' := by
  obtain ⟨s₂, hs₂, hok, hiff⟩ := race_ok h h' he ha
  obtain rfl : s₂ = s' := Option.some.inj (hs₂.symm.trans hs)
  exact ⟨hok, fun hr => by rw [hb, hiff (hred hr)]⟩

theorem Ok.begin (h : Ok s) (hs : step s .begin = some s') : Stepped s .begin s' := by
  cases hpc : s.pc with
  | looping =>
    obtain ⟨t, ht, hpt, hqt, hit⟩ := call_pending 0 s.p2bq
    obtain ⟨t', ht', hpt', hqt', hit'⟩ := call_pending 1 s.c2bq
    obtain ⟨hp, hc⟩ := held_of_not_racing (s := s) (by simp [hpc])
    simp only [step, hpc, ht, ht', Option.bind_eq_bind, Option.bind_some] at hs
    refine .of_race hs hpt hpt' ?_ ?_ ?_ ?_
    · have he := h.expected
      rw [hp, Expected, List.nil_append, hqt] at he
      exact he
    · have ha := h.acknowledged
      rw [hp, Acknowledged, List.nil_append, hqt] at ha
      exact ha
    · intro hred
      rw [hc, Redirected, List.nil_append, hqt'] at hred
      exact hred
    · rw [BothTaken, hit, hit']
  | racing | sending | failedOver | aborted => simp [step, hpc] at hs

/-- A race that goes on: what one of its receives takes, it holds. -/
theorem Ok.racing (h : Ok s) (hpc : s.pc = .racing r) {r' : Race} {p2bq : List (PbRequest × Str)}
    {c2bq : List (Request × Str)} (h1 : Pending (.event 0) r'.p2b)
    (h2 : Pending (.event 0) r'.c2b)
    (hq : r.p2b.result.toList ++ s.p2bq = r'.p2b.result.toList ++ p2bq)
    (hq' : r.c2b.result.toList ++ s.c2bq = r'.c2b.result.toList ++ c2bq)
    (hb : ¬ BothTaken s a) :
    Stepped s a { s with p2bq := p2bq, c2bq := c2bq, pc := .racing r' } := by
  have hp : heldP2b s = r.p2b.result.toList := by rw [heldP2b, hpc]
  have hc : heldC2b s = r.c2b.result.toList := by rw [heldC2b, hpc]
  refine ⟨⟨fun r'' hr => ?_, ?_, ?_⟩, fun hred => iff_of_true ?_ hb⟩
  · obtain rfl := BackupPc.racing.inj hr
    exact ⟨h1, h2⟩
  · have he := h.expected
    rw [hp, Expected, hq] at he
    exact he
  · have ha := h.acknowledged
    rw [hp, Acknowledged, hq] at ha
    exact ha
  · rw [hc, Redirected, hq'] at hred
    exact hred

theorem Ok.resumeP2b (h : Ok s) (hs : step s .resumeP2b = some s') : Stepped s .resumeP2b s' := by
  cases hpc : s.pc with
  | racing r =>
    simp only [step, hpc, Option.map_eq_some_iff] at hs
    obtain ⟨t, ht, rfl⟩ := hs
    obtain ⟨h1, h2⟩ := h.receives r hpc
    obtain ⟨h1', hq⟩ := resumeReceive_pending h1 ht
    exact h.racing hpc h1' h2 hq rfl id
  | looping | sending | failedOver | aborted => simp [step, hpc] at hs

theorem Ok.resumeC2b (h : Ok s) (hs : step s .resumeC2b = some s') : Stepped s .resumeC2b s' := by
  cases hpc : s.pc with
  | racing r =>
    simp only [step, hpc, Option.map_eq_some_iff] at hs
    obtain ⟨t, ht, rfl⟩ := hs
    obtain ⟨h1, h2⟩ := h.receives r hpc
    obtain ⟨h2', hq⟩ := resumeReceive_pending h2 ht
    exact h.racing hpc h1 h2' rfl hq id
  | looping | sending | failedOver | aborted => simp [step, hpc] at hs

theorem Ok.timeout (h : Ok s) (hs : step s .timeout = some s') : Stepped s .timeout s' := by
  cases hpc : s.pc with
  | racing r =>
    simp only [step, hpc, Option.some.injEq] at hs
    subst hs
    obtain ⟨h1, h2⟩ := h.receives r hpc
    exact h.racing hpc (by exact h1) (by exact h2) rfl rfl id
  | looping | sending | failedOver | aborted => simp [step, hpc] at hs

theorem Ok.resume (h : Ok s) (hs : step s .resume = some s') : Stepped s .resume s' := by
  cases hpc : s.pc with
  | racing r =>
    simp only [step, hpc, Option.ite_none_right_eq_some] at hs
    obtain ⟨h1, h2⟩ := h.receives r hpc
    have hp : heldP2b s = r.p2b.result.toList := by rw [heldP2b, hpc]
    have hc : heldC2b s = r.c2b.result.toList := by rw [heldC2b, hpc]
    refine .of_race hs.2 (h1.setAwaiter _) (h2.setAwaiter _) (hp ▸ h.expected)
      (hp ▸ h.acknowledged) (fun hred => hc ▸ hred) ?_
    constructor
    · rintro ⟨r', hr', hd, hd'⟩
      obtain rfl := BackupPc.racing.inj (hpc.symm.trans hr')
      exact ⟨h1.done_iff ▸ hd, h2.done_iff ▸ hd'⟩
    · rintro ⟨hd, hd'⟩
      exact ⟨r, hpc, h1.done_iff.trans hd, h2.done_iff.trans hd'⟩
  | looping | sending | failedOver | aborted => simp [step, hpc] at hs

theorem Ok.sent (h : Ok s) (hs : step s .sent = some s') : Stepped s .sent s' := by
  cases hpc : s.pc with
  | sending =>
    simp only [step, hpc, Option.some.injEq] at hs
    subst hs
    obtain ⟨hp, hc⟩ := held_of_not_racing (s := s) (by simp [hpc])
    have he := h.expected
    have ha := h.acknowledged
    rw [hp] at he ha
    exact ⟨⟨fun r' hr => by simp at hr, he, ha⟩, fun hred => iff_of_true (hc ▸ hred :) id⟩
  | looping | racing | failedOver | aborted => simp [step, hpc] at hs

/-- What each step does to the messages. -/
theorem Ok.step (h : Ok s) (hs : step s a = some s') : Stepped s a s' := by
  cases a with
  | deliverP2b serial req source =>
    have hn : NextSerial s.p2bSerial serial := by
      rw [AltBackup.step, Option.ite_none_right_eq_some] at hs
      exact hs.1
    exact h.deliverP2b hn req source hs
  | deliverC2b req source => exact h.deliverC2b req source hs
  | begin => exact h.begin hs
  | resumeP2b => exact h.resumeP2b hs
  | resumeC2b => exact h.resumeC2b hs
  | timeout => exact h.timeout hs
  | resume => exact h.resume hs
  | sent => exact h.sent hs

theorem Ok.init : Ok {} :=
  ⟨fun r hr => by simp at hr, rfl, ⟨[], rfl, rfl, rfl⟩⟩

/-- Every dequeued message is handled, all along a run, exactly when the combinator never
looks at two receives that have both taken a message. -/
theorem requests_handled_iff {as : List Label} (hr : system.exec {} as = some s) :
    system.Always Handled {} as ↔ system.Within (fun s a => ¬ BothTaken s a) {} as := by
  refine Transition.Machine.always_iff_within (I := Ok) ?_ ?_ .init
    ⟨Ok.init.acknowledged, [], rfl, rfl⟩ (Transition.Machine.within_true _ _) hr
  · intro s a t h _ ht
    exact (h.step ht).ok
  · intro s a t h hh ht
    have hst := h.step ht
    rw [Handled, ← hst.redirected hh.2]
    exact and_iff_right hst.ok.acknowledged

/-! ## Two messages before the race is resumed -/

/-- A request of the primary and one of a client arrive, and both receives take theirs. -/
def lostRun : List Label :=
  let req := Request.get { serial := 1, key := [] }
  [.begin, .deliverP2b 1 req [], .deliverC2b req [], .resumeP2b, .resumeC2b, .resumeP2b,
    .resumeC2b, .resume]

def lostState : State := (system.exec {} lostRun).get (by decide +kernel)

theorem requests_handled_iff_lostRun : system.Always Handled {} lostRun ↔
    system.Within (fun s a => ¬ BothTaken s a) {} lostRun :=
  requests_handled_iff (s := lostState) (Option.some_get _).symm

theorem Redirected.length {held : List (Request × Str)} (h : Redirected s held) :
    s.c2bDelivered.length = s.redirections.length + (held.length + s.c2bq.length) := by
  obtain ⟨handled, hd, hr⟩ := h
  rw [hd, hr]
  simp

theorem lostState_not_handled : system.Reachable lostState ∧ ¬ Handled lostState := by
  refine ⟨.of_get rfl _, fun h => ?_⟩
  have hlen := h.2.length
  revert hlen
  decide +kernel

end AltBackup
end Netsim
end Psets
