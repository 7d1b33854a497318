/-
Primary and backup behave as one `pancydb`.

The backup processes the requests of the primary in serial order and then, after
the takeover, those of the clients; `order` lists them.  The primary answers its
request number `p` only when the backup has processed it, so its database is the
replay of the first `p` requests of `order`, and an answer is placed at its
position there.  Positions are recorded beside the state: each answer has one of
its own.
-/
import Mathlib.Data.List.Forall2
import Mathlib.Data.List.Nodup
import Psets.PtBackup.Instance

namespace Psets
namespace PtBackup

open Pancy Pancydb

/-! ## The abstract service -/

/-- The response of `e` is the one that a single database gives to the request of
`e` at position `p` of `order`. -/
def Answered (order : List Request) (p : Nat) (e : Request × Response) : Prop :=
  order[p]? = some e.1 ∧ e.2 = ((replay (order.take p)).processReq e.1).2

/-- The responses are those of a single database that processes `order`, each at a
position of its own. -/
def Explains (order : List Request) (sent : List (Request × Response)) : Prop :=
  ∃ pos : List Nat, pos.Nodup ∧ List.Forall₂ (Answered order) pos sent

theorem Answered.lt {order : List Request} {p : Nat} {e : Request × Response}
    (h : Answered order p e) : p < order.length :=
  (List.getElem?_eq_some_iff.1 h.1).1

/-- Later requests do not change an answer. -/
theorem Answered.append {order : List Request} {p : Nat} {e : Request × Response}
    (h : Answered order p e) (req : Request) : Answered (order ++ [req]) p e := by
  have hlt := h.lt
  refine ⟨?_, ?_⟩
  · rw [List.getElem?_append_left hlt]
    exact h.1
  · rw [List.take_append_of_le_length (Nat.le_of_lt hlt)]
    exact h.2

theorem forall₂_answered_append {order : List Request} {pos : List Nat}
    {sent : List (Request × Response)} (h : List.Forall₂ (Answered order) pos sent)
    (req : Request) : List.Forall₂ (Answered (order ++ [req])) pos sent :=
  h.imp fun _ _ ha => ha.append req

theorem lt_of_forall₂_answered {order : List Request} {pos : List Nat}
    {sent : List (Request × Response)} (h : List.Forall₂ (Answered order) pos sent) :
    ∀ p ∈ pos, p < order.length := by
  induction h with
  | nil => simp
  | cons ha _ ih => exact List.forall_mem_cons.2 ⟨ha.lt, ih⟩

theorem forall₂_snoc {α β : Type} {R : α → β → Prop} {as : List α} {bs : List β} {a : α} {b : β}
    (h : List.Forall₂ R as bs) (hab : R a b) : List.Forall₂ R (as ++ [a]) (bs ++ [b]) :=
  List.rel_append h (.cons hab .nil)

/-! ## The invariant -/

/-- The responses that answer a request. -/
def answers (sent : List (Request × Response)) : List (Request × Response) :=
  sent.filter fun e => !e.2.isRedirection

/-- What the primary has asked for.  It has responded `primaryLoops` times. -/
def PrimaryOk (s : State) : Prop :=
  match s.primaryPc with
  | .receive => s.serial = s.primaryLoops ∧ s.expectedSerial = s.serial
  | .forward req | .await req => s.serial = s.primaryLoops + 1 ∧
      (s.expectedSerial = s.primaryLoops ∨
        s.expectedSerial = s.serial ∧ s.order[s.primaryLoops]? = some req)
  | .returned => True

/-- The answer of a database joins the answers. -/
theorem answers_snoc (sent : List (Request × Response)) (d : Pancydb) (req : Request) :
    answers (sent ++ [(req, (d.processReq req).2)]) =
      answers sent ++ [(req, (d.processReq req).2)] := by
  simp [answers, List.filter_append, processReq_isRedirection]

structure Inv (pos : List Nat) (s : State) : Prop where
  primarydb : s.primarydb = replay (s.order.take s.primaryLoops)
  backupdb : s.backupdb = replay s.order
  primary : PrimaryOk s
  loops : s.primaryLoops ≤ s.expectedSerial
  expected_le : s.expectedSerial ≤ s.serial
  serial_le : s.serial ≤ s.expectedSerial + 1
  length_le : s.expectedSerial ≤ s.order.length
  length : s.backupPc = .backup → s.order.length = s.expectedSerial
  alive : s.backupPc ≠ .aborted
  fifo : s.p2b.Pairwise fun a b => a.1 ≤ b.1
  low : ∀ m ∈ s.p2b, s.expectedSerial ≤ m.1
  high : ∀ m ∈ s.p2b, m.1 ≤ s.serial
  pending : ∀ m ∈ s.p2b, m.1 = s.expectedSerial + 1 →
    s.primaryPc = .forward m.2 ∨ s.primaryPc = .await m.2 ∨ s.primaryPc = .returned
  acks : ∀ a ∈ s.b2p, a ≤ s.expectedSerial
  nodup : pos.Nodup
  answered : List.Forall₂ (Answered s.order) pos (answers s.sent)
  placed : ∀ p ∈ pos, p < s.primaryLoops ∨ s.backupPc ≠ .backup ∧ s.expectedSerial ≤ p

theorem Inv.start : Inv [] {} where
  primarydb := rfl
  backupdb := rfl
  primary := ⟨rfl, rfl⟩
  loops := Nat.le_refl _
  expected_le := Nat.le_refl _
  serial_le := Nat.zero_le _
  length_le := Nat.le_refl _
  length _ := rfl
  alive := by simp
  fifo := List.Pairwise.nil
  low := by simp
  high := by simp
  pending := by simp
  acks := by simp
  nodup := List.nodup_nil
  answered := .nil
  placed := by simp

variable {check : Pancydb → Bool} {pos : List Nat} {s : State}

/-! ## The steps of the primary -/

theorem Inv.primaryReceive (h : Inv pos s) (req : Request) (hpc : s.primaryPc = .receive) :
    Inv pos { s with serial := s.serial + 1, primaryPc := .forward req } := by
  have hp := h.primary
  rw [PrimaryOk, hpc] at hp
  obtain ⟨hserial, hexp⟩ := hp
  exact { h with
    primary := ⟨by rw [hserial], Or.inl (by rw [hexp, hserial])⟩
    expected_le := Nat.le_succ_of_le h.expected_le
    serial_le := by rw [hexp]
    high := fun m hm => Nat.le_succ_of_le (h.high m hm)
    pending := fun m hm (he : m.1 = s.expectedSerial + 1) => by
      have := h.high m hm
      omega }

theorem Inv.primaryForward (h : Inv pos s) {req : Request} (hpc : s.primaryPc = .forward req) :
    Inv pos { s with p2b := s.p2b ++ [(s.serial, req)], primaryPc := .await req } := by
  have hp := h.primary
  rw [PrimaryOk, hpc] at hp
  have hmem : ∀ m ∈ s.p2b ++ [(s.serial, req)], m ∈ s.p2b ∨ m = (s.serial, req) := by
    intro m hm
    rcases List.mem_append.1 hm with hm | hm
    · exact Or.inl hm
    · exact Or.inr (List.mem_singleton.1 hm)
  exact { h with
    primary := hp
    fifo := by
      refine List.pairwise_append.2 ⟨h.fifo, List.pairwise_singleton _ _, fun a ha b hb => ?_⟩
      rw [List.mem_singleton.1 hb]
      exact h.high a ha
    low := fun m hm => by
      rcases hmem m hm with hm | rfl
      · exact h.low m hm
      · exact h.expected_le
    high := fun m hm => by
      rcases hmem m hm with hm | rfl
      · exact h.high m hm
      · exact Nat.le_refl _
    pending := fun m hm he => by
      rcases hmem m hm with hm | rfl
      · rcases h.pending m hm he with hf | ha | hr
        · rw [hpc] at hf
          exact Or.inr (Or.inl (by rw [PrimaryPc.forward.inj hf]))
        · rw [hpc] at ha
          exact absurd ha (by simp)
        · rw [hpc] at hr
          exact absurd hr (by simp)
      · exact Or.inr (Or.inl rfl) }

/-- The primary sends its request again, after a stale acknowledgement or a
second. -/
theorem Inv.primaryRetry (h : Inv pos s) {req : Request} (hpc : s.primaryPc = .await req) :
    Inv pos { s with primaryPc := .forward req } := by
  have hp := h.primary
  rw [PrimaryOk, hpc] at hp
  exact { h with
    primary := hp
    pending := fun m hm he => by
      rcases h.pending m hm he with hf | ha | hr
      · rw [hpc] at hf
        exact absurd hf (by simp)
      · rw [hpc] at ha
        exact Or.inl (by rw [PrimaryPc.await.inj ha])
      · rw [hpc] at hr
        exact absurd hr (by simp) }

theorem Inv.primaryFail (h : Inv pos s) : Inv pos { s with primaryPc := .returned } :=
  { h with
    primary := trivial
    pending := fun _ _ _ => Or.inr (Or.inr rfl) }

/-- Messages that were lost. -/
theorem Inv.lose (h : Inv pos s) {p2b : List (Nat × Request)} {b2p : List Nat}
    (hp : p2b.Sublist s.p2b) (hb : b2p.Sublist s.b2p) :
    Inv pos { s with p2b := p2b, b2p := b2p } :=
  { h with
    fifo := h.fifo.sublist hp
    low := fun m hm => h.low m (hp.subset hm)
    high := fun m hm => h.high m (hp.subset hm)
    pending := fun m hm => h.pending m (hp.subset hm)
    acks := fun a ha => h.acks a (hb.subset ha) }

/-- The backup has processed the request that the primary waits for. -/
theorem Inv.acked (h : Inv pos s) {req : Request} (hpc : s.primaryPc = .await req)
    (hack : s.serial ≤ s.expectedSerial) :
    s.serial = s.primaryLoops + 1 ∧ s.expectedSerial = s.serial ∧
      s.order[s.primaryLoops]? = some req := by
  have hp := h.primary
  rw [PrimaryOk, hpc] at hp
  obtain ⟨hserial, hexp | ⟨hexp, hreq⟩⟩ := hp
  · omega
  · exact ⟨hserial, hexp, hreq⟩

/-- The position of the primary's answer is its own. -/
theorem Inv.respond (h : Inv pos s) {req : Request} (hpc : s.primaryPc = .await req)
    (hack : s.serial ≤ s.expectedSerial) :
    Inv (pos ++ [s.primaryLoops]) (respond check s req) := by
  obtain ⟨hserial, hexp, hreq⟩ := h.acked hpc hack
  obtain ⟨hlt, hget⟩ := List.getElem?_eq_some_iff.1 hreq
  have hdb : (s.primarydb.processReq req).1 = replay (s.order.take (s.primaryLoops + 1)) := by
    rw [h.primarydb, List.take_add_one, hreq, Option.toList_some, replay_append_one]
  have hanswer : Answered s.order s.primaryLoops (req, (s.primarydb.processReq req).2) :=
    ⟨hreq, by rw [h.primarydb]⟩
  have hnew : ∀ pc : PrimaryPc, pc = .receive ∨ pc = .returned →
      ∀ e : Bool, Inv (pos ++ [s.primaryLoops]) { s with
        primarydb := (s.primarydb.processReq req).1, primaryLoops := s.primaryLoops + 1,
        sent := s.sent ++ [(req, (s.primarydb.processReq req).2)], primarydbError := e,
        primaryPc := pc } := by
    intro pc hpc' e
    exact { h with
      primarydb := hdb
      primary := by
        rcases hpc' with rfl | rfl
        · exact ⟨hserial, hexp⟩
        · trivial
      loops := by rw [hexp, hserial]
      pending := fun m hm (he : m.1 = s.expectedSerial + 1) => by
        have := h.high m hm
        omega
      nodup := by
        refine List.nodup_append.2 ⟨h.nodup, List.nodup_singleton _, fun a ha b hb => ?_⟩
        rw [List.mem_singleton.1 hb]
        rcases h.placed a ha with hp | ⟨_, hp⟩ <;> omega
      answered := by
        rw [answers_snoc]
        exact forall₂_snoc h.answered hanswer
      placed := fun p hp => by
        rcases List.mem_append.1 hp with hp | hp
        · rcases h.placed p hp with hp | hp
          · exact Or.inl (Nat.lt_succ_of_lt hp)
          · exact Or.inr hp
        · rw [List.mem_singleton.1 hp]
          exact Or.inl (Nat.lt_succ_self _) }
  rw [PtBackup.respond]
  split
  · exact hnew .returned (Or.inr rfl) true
  · exact hnew .receive (Or.inl rfl) s.primarydbError

/-! ## The steps of the backup -/

/-- A longer order has the same beginning. -/
theorem Inv.primarydb_append (h : Inv pos s) (req : Request) :
    s.primarydb = replay ((s.order ++ [req]).take s.primaryLoops) := by
  rw [List.take_append_of_le_length (Nat.le_trans h.loops h.length_le)]
  exact h.primarydb

theorem Inv.backupdb_append (h : Inv pos s) (req : Request) :
    (s.backupdb.processReq req).1 = replay (s.order ++ [req]) := by
  rw [replay_append_one, h.backupdb]

/-- A request that the primary did not ask for is processed. -/
theorem Inv.primary_append (h : Inv pos s) (req : Request) :
    PrimaryOk { s with order := s.order ++ [req] } := by
  have hkeep : ∀ r, s.expectedSerial = s.primaryLoops ∨
      s.expectedSerial = s.serial ∧ s.order[s.primaryLoops]? = some r →
      s.expectedSerial = s.primaryLoops ∨
        s.expectedSerial = s.serial ∧ (s.order ++ [req])[s.primaryLoops]? = some r := by
    rintro r (he | ⟨he, hr⟩)
    · exact Or.inl he
    · have hlt := (List.getElem?_eq_some_iff.1 hr).1
      exact Or.inr ⟨he, (List.getElem?_append_left hlt).trans hr⟩
  have hp := h.primary
  unfold PrimaryOk at hp ⊢
  cases hpc : s.primaryPc with
  | receive => simpa only [hpc] using hp
  | returned => trivial
  | forward r =>
    simp only [hpc] at hp ⊢
    exact ⟨hp.1, hkeep r hp.2⟩
  | await r =>
    simp only [hpc] at hp ⊢
    exact ⟨hp.1, hkeep r hp.2⟩

/-- The request that the primary asked for is processed. -/
theorem Inv.primary_next (h : Inv pos s) {req : Request} (hlen : s.order.length = s.expectedSerial)
    (hhigh : s.expectedSerial + 1 ≤ s.serial)
    (hnext : s.primaryPc = .forward req ∨ s.primaryPc = .await req ∨ s.primaryPc = .returned) :
    PrimaryOk { s with expectedSerial := s.expectedSerial + 1, order := s.order ++ [req] } := by
  have hget : (s.order ++ [req])[s.expectedSerial]? = some req := by
    rw [← hlen]
    exact List.getElem?_concat_length
  have hdone : s.serial = s.primaryLoops + 1 ∧
      (s.expectedSerial = s.primaryLoops ∨
        s.expectedSerial = s.serial ∧ s.order[s.primaryLoops]? = some req) →
      s.serial = s.primaryLoops + 1 ∧
      (s.expectedSerial + 1 = s.primaryLoops ∨ s.expectedSerial + 1 = s.serial ∧
        (s.order ++ [req])[s.primaryLoops]? = some req) := by
    rintro ⟨hserial, he | ⟨he, _⟩⟩
    · exact ⟨hserial, Or.inr ⟨by omega, he ▸ hget⟩⟩
    · omega
  have hp := h.primary
  unfold PrimaryOk at hp ⊢
  rcases hnext with hpc | hpc | hpc
  · simp only [hpc] at hp ⊢
    exact hdone hp
  · simp only [hpc] at hp ⊢
    exact hdone hp
  · simp only [hpc]

/-- The backup receives a message of the primary.  It is the next request or a copy
of the last one. -/
theorem Inv.applyForwarded (h : Inv pos s) {n : Nat} {req : Request}
    {p2b : List (Nat × Request)} (hpc : s.backupPc = .backup) (hp2b : s.p2b = (n, req) :: p2b) :
    Inv pos (applyForwarded { s with p2b := p2b } n req) := by
  have hsub : p2b.Sublist s.p2b := by
    rw [hp2b]
    exact List.sublist_cons_self _ _
  have hlow := h.low (n, req) (by rw [hp2b]; exact List.mem_cons_self)
  have hhigh := h.high (n, req) (by rw [hp2b]; exact List.mem_cons_self)
  have hle := h.serial_le
  have hlen := h.length hpc
  rw [PtBackup.applyForwarded]
  by_cases hn : n = s.expectedSerial + 1
  · -- the next request
    rw [if_pos hn]
    have hsorted := h.fifo
    rw [hp2b, List.pairwise_cons] at hsorted
    have hnext : s.primaryPc = .forward req ∨ s.primaryPc = .await req ∨
        s.primaryPc = .returned :=
      h.pending (n, req) (by rw [hp2b]; exact List.mem_cons_self) hn
    exact
      { primarydb := h.primarydb_append req
        backupdb := h.backupdb_append req
        primary := h.primary_next hlen (hn ▸ hhigh) hnext
        loops := Nat.le_succ_of_le h.loops
        expected_le := by
          show s.expectedSerial + 1 ≤ s.serial
          rw [← hn]
          exact hhigh
        serial_le := Nat.le_succ_of_le hle
        length_le := by
          show s.expectedSerial + 1 ≤ (s.order ++ [req]).length
          simp [hlen]
        length := fun _ => by
          show (s.order ++ [req]).length = s.expectedSerial + 1
          simp [hlen]
        alive := h.alive
        fifo := hsorted.2
        low := fun m hm => by
          show s.expectedSerial + 1 ≤ m.1
          rw [← hn]
          exact hsorted.1 m hm
        high := fun m hm => h.high m (hsub.subset hm)
        pending := fun m hm (he : m.1 = s.expectedSerial + 1 + 1) => by
          have := h.high m (hsub.subset hm)
          omega
        acks := fun a ha => by
          show a ≤ s.expectedSerial + 1
          rcases List.mem_append.1 ha with ha | ha
          · exact Nat.le_succ_of_le (h.acks a ha)
          · rw [List.mem_singleton.1 ha]
        nodup := h.nodup
        answered := forall₂_answered_append h.answered req
        placed := fun p hp => by
          rcases h.placed p hp with hp | ⟨hne, _⟩
          · exact Or.inl hp
          · exact absurd hpc hne }
  · -- a copy of the last request
    have hn' : n = s.expectedSerial := by
      simp only at hlow hhigh
      omega
    rw [if_neg hn, if_pos hn']
    refine { h.lose hsub (List.Sublist.refl _) with acks := fun a ha => ?_ }
    rcases List.mem_append.1 ha with ha | ha
    · exact h.acks a ha
    · rw [List.mem_singleton.1 ha]

theorem Inv.redirect (h : Inv pos s) (req : Request) : Inv pos (redirect s req) :=
  { h with
    answered := by
      have hsent : answers (s.sent ++
          [(req, .redirection ⟨req.serial, .redirect, 0⟩)]) = answers s.sent := by
        simp [answers, List.filter_append, Response.isRedirection]
      rw [PtBackup.redirect, hsent]
      exact h.answered }

theorem Inv.takeover (h : Inv pos s) : Inv pos { s with backupPc := .primary } :=
  { h with
    length := by simp
    alive := by simp
    placed := fun p hp => (h.placed p hp).imp id fun hp => ⟨by simp, hp.2⟩ }

/-- The request gets the next position. -/
theorem Inv.serve (h : Inv pos s) (hpc : s.backupPc = .primary) (req : Request) :
    Inv (pos ++ [s.order.length]) (serve check s req) := by
  have hanswer : Answered (s.order ++ [req]) s.order.length
      (req, (s.backupdb.processReq req).2) := by
    refine ⟨List.getElem?_concat_length, ?_⟩
    rw [List.take_left, h.backupdb]
  have hold := lt_of_forall₂_answered h.answered
  have hnew : ∀ pc : BackupPc, pc = .primary ∨ pc = .returned →
      Inv (pos ++ [s.order.length]) { s with
        backupdb := (s.backupdb.processReq req).1, backupLoops := s.backupLoops + 1,
        order := s.order ++ [req], sent := s.sent ++ [(req, (s.backupdb.processReq req).2)],
        backupPc := pc } := by
    intro pc hpc'
    have hne : pc ≠ .backup := by rcases hpc' with rfl | rfl <;> simp
    exact { h with
      primarydb := h.primarydb_append req
      backupdb := h.backupdb_append req
      primary := h.primary_append req
      length_le := by
        show s.expectedSerial ≤ (s.order ++ [req]).length
        have := h.length_le
        simp
        omega
      length := fun he => absurd he hne
      alive := by
        show pc ≠ .aborted
        rcases hpc' with rfl | rfl <;> simp
      nodup := by
        refine List.nodup_append.2 ⟨h.nodup, List.nodup_singleton _, fun a ha b hb => ?_⟩
        rw [List.mem_singleton.1 hb]
        exact Nat.ne_of_lt (hold a ha)
      answered := by
        rw [answers_snoc]
        exact forall₂_snoc (forall₂_answered_append h.answered req) hanswer
      placed := fun p hp => by
        rcases List.mem_append.1 hp with hp | hp
        · exact (h.placed p hp).imp id fun hp => ⟨hne, hp.2⟩
        · rw [List.mem_singleton.1 hp]
          exact Or.inr ⟨hne, h.length_le⟩ }
  rw [PtBackup.serve]
  split
  · exact hnew .returned (Or.inr rfl)
  · have := hnew .primary (Or.inl rfl)
    rwa [← hpc] at this

/-! ## Runs -/

theorem Inv.step (h : Inv pos s) {a : Label} {t : State} (ht : step check s a = some t) :
    ∃ pos', Inv pos' t := by
  cases a with
  | primaryReceive req =>
    rw [PtBackup.step] at ht
    by_cases hpc : s.primaryPc = .receive
    · rw [if_pos hpc] at ht
      exact ⟨pos, Option.some.inj ht ▸ h.primaryReceive req hpc⟩
    · rw [if_neg hpc] at ht
      simp at ht
  | primaryForward =>
    cases hpc : s.primaryPc with
    | forward req =>
      simp only [PtBackup.step, hpc, Option.some.injEq] at ht
      exact ⟨pos, ht ▸ h.primaryForward hpc⟩
    | _ => simp [PtBackup.step, hpc] at ht
  | primaryAck =>
    cases hpc : s.primaryPc with
    | await req =>
      cases hb : s.b2p with
      | nil => simp [PtBackup.step, hpc, hb] at ht
      | cons ack b2p =>
        have hsub : b2p.Sublist s.b2p := by
          rw [hb]
          exact List.sublist_cons_self _ _
        have hl := h.lose (List.Sublist.refl _) hsub
        simp only [PtBackup.step, hpc, hb] at ht
        by_cases hack : ack = s.serial
        · rw [if_pos hack] at ht
          have hle := h.acks ack (by rw [hb]; exact List.mem_cons_self)
          exact ⟨_, Option.some.inj ht ▸ hl.respond hpc (hack ▸ hle)⟩
        · rw [if_neg hack] at ht
          exact ⟨pos, Option.some.inj ht ▸ hl.primaryRetry hpc⟩
    | _ => simp [PtBackup.step, hpc] at ht
  | primaryRetry =>
    cases hpc : s.primaryPc with
    | await req =>
      simp only [PtBackup.step, hpc, Option.some.injEq] at ht
      exact ⟨pos, ht ▸ h.primaryRetry hpc⟩
    | _ => simp [PtBackup.step, hpc] at ht
  | primaryFail => exact ⟨pos, Option.some.inj ht ▸ h.primaryFail⟩
  | backupReceive =>
    cases hpc : s.backupPc with
    | backup =>
      rcases hp : s.p2b with _ | ⟨⟨n, req⟩, p2b⟩
      · simp [PtBackup.step, hpc, hp] at ht
      · simp only [PtBackup.step, hpc, hp, Option.some.injEq] at ht
        have := h.applyForwarded hpc hp
        simp only [hpc] at this
        exact ⟨pos, ht ▸ this⟩
    | _ => simp [PtBackup.step, hpc] at ht
  | backupRequest req =>
    cases hpc : s.backupPc with
    | backup =>
      simp only [PtBackup.step, hpc, Option.some.injEq] at ht
      exact ⟨pos, ht ▸ h.redirect req⟩
    | primary =>
      simp only [PtBackup.step, hpc, Option.some.injEq] at ht
      exact ⟨_, ht ▸ h.serve hpc req⟩
    | _ => simp [PtBackup.step, hpc] at ht
  | takeover =>
    rw [PtBackup.step] at ht
    by_cases hpc : s.backupPc = .backup
    · rw [if_pos hpc] at ht
      exact ⟨pos, Option.some.inj ht ▸ h.takeover⟩
    · rw [if_neg hpc] at ht
      simp at ht
  | loseP2b k =>
    exact ⟨pos, Option.some.inj ht ▸ h.lose (List.eraseIdx_sublist _ _) (List.Sublist.refl _)⟩
  | loseB2p k =>
    exact ⟨pos, Option.some.inj ht ▸ h.lose (List.Sublist.refl _) (List.eraseIdx_sublist _ _)⟩

theorem reachable_inv (h : (system check).Reachable s) : ∃ pos, Inv pos s :=
  Transition.Machine.Reachable.invariant (M := system check) (P := fun s => ∃ pos, Inv pos s)
    (fun s (hs : s = {}) => ⟨[], hs ▸ Inv.start⟩)
    (fun _ _ _ hs ht => hs.elim fun _ hi => hi.step ht) h

/-- Every answer sent by the primary, or by the backup after the takeover, is the
answer of a single database that processes the requests in the order in which
`backupdb_` does, at a position of its own; so nothing that was acknowledged is
missing from `backupdb_`. -/
theorem responses_explained (h : (system check).Reachable s) :
    s.backupdb = replay s.order ∧ Explains s.order (answers s.sent) := by
  obtain ⟨pos, hi⟩ := reachable_inv h
  exact ⟨hi.backupdb, pos, hi.nodup, hi.answered⟩

/-- The primary sends one PUT twice and answers it on the first acknowledgement.
The backup takes over and answers the same PUT, which the client sent again. -/
def failoverRun : List Label :=
  [.primaryReceive (.put ⟨4096, "k".toList, "v".toList, anyVersion⟩), .primaryForward,
    .primaryRetry, .primaryForward, .backupReceive, .backupReceive, .primaryAck, .takeover,
    .backupRequest (.put ⟨4096, "k".toList, "v".toList, anyVersion⟩)]

theorem failoverRun_isSome :
    ((system fun _ => false).exec {} failoverRun).isSome = true := by
  decide +kernel

/-- The state `failoverRun` ends in. -/
def failoverState : State :=
  ((system fun _ => false).exec {} failoverRun).get failoverRun_isSome

theorem responses_explained_failoverState :
    failoverState.sent.length = 2 ∧ failoverState.backupdb = replay failoverState.order ∧
      Explains failoverState.order (answers failoverState.sent) :=
  ⟨by decide +kernel, responses_explained
    (Transition.Machine.Reachable.of_get (M := system fun _ => false) rfl failoverRun_isSome)⟩

end PtBackup
end Psets
