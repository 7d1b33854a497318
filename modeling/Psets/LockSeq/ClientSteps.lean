/-
The steps of the clients keep the invariant.

A response tells a client that its current request was processed, so the copies of
it that are still queued are harmless: they join the older requests, and the client
goes on from a settled queue.
-/
import Psets.LockSeq.Invariant

namespace Psets
namespace LockSeq

open Pancy

variable {t : Table} {i : Nat} {c c' : Client} {olds news queue : List Request}
  {responses responses' : List Response} {req : Request} {phase : Phase}

@[simp] theorem Client.request_serial (c : Client) (phase : Phase) :
    (c.request phase).serial = c.serial := by
  cases phase <;> rfl

/-- `Harmless` reads the group, the value and the length only. -/
theorem Harmless.congr (h : Harmless t c req) (hg : c'.gid = c.gid) (hv : c'.value = c.value)
    (hn : c'.nvalues = c.nvalues) : Harmless t c' req := by
  have howns {version : VersionType} (ho : Owns t c version) : Owns t c' version := by
    rw [Owns, hg, hv]
    exact ho
  cases h with
  | lock ho hne =>
    rw [← hg, ← hv]
    exact .lock (howns ho) (hv ▸ hne)
  | write ho hlt hval =>
    rw [← hg, ← hv]
    exact .write (howns ho) (hn ▸ hlt) (by rw [hg, hv]; exact hval)
  | clear ho hle hval =>
    rw [← hg]
    exact .clear (howns ho) (hn ▸ hle) (by rw [hg]; exact hval)
  | unlock hs => exact .unlock hs

/-! ## Settled clients -/

/-- No request of the client that is queued can do anything. -/
structure Settled (t : Table) (i : Nat) (c : Client) (queue : List Request)
    (responses : List Response) : Prop where
  serial : c.serial % maxClients = i
  chosen : Chosen i c
  queue : ∀ req ∈ queue, Harmless t c req ∧ req.serial % maxClients = i ∧ req.serial ≤ c.serial
  replies : ∀ resp ∈ responses, resp.serial % maxClients = i → resp.serial ≤ c.serial

theorem Settled.congr (h : Settled t i c queue responses) (c' : Client) (hs : c'.serial = c.serial)
    (hg : c'.gid = c.gid) (hv : c'.value = c.value) (hn : c'.nvalues = c.nvalues) :
    Settled t i c' queue responses where
  serial := hs ▸ h.serial
  chosen := ⟨hg ▸ h.chosen.gid, hv ▸ h.chosen.named, hv ▸ h.chosen.long, hn ▸ h.chosen.nvalues⟩
  queue req hreq := ⟨(h.queue req hreq).1.congr hg hv hn, hs ▸ (h.queue req hreq).2⟩
  replies resp hresp := hs ▸ h.replies resp hresp

/-- A client between two requests. -/
theorem Settled.rest (h : Settled t i c queue responses) (ha : c.active = none)
    (hp : Progress t c 0) : ClientOk t i c queue [] responses where
  serial := h.serial
  named := Or.inr h.chosen.named
  chosen _ := h.chosen
  harmless req hreq := ⟨(h.queue req hreq).1, (h.queue req hreq).2.1, (h.queue req hreq).2.2,
    fun hne => absurd ha hne⟩
  current _ hreq := absurd hreq List.not_mem_nil
  progress := hp
  replies resp hresp hid := ⟨h.replies resp hresp hid, fun _ _ hact => by
    rw [ha] at hact
    exact absurd hact (by simp)⟩

/-- The next request has a serial of its own, which no message carries yet. -/
theorem Settled.begin (h : Settled t i c queue responses)
    (hp : InPhase t (c.begin phase) 0 phase) :
    ClientOk t i (c.begin phase) queue [] responses where
  serial := by
    have := h.serial
    show (c.serial + serialStep) % maxClients = i
    rw [serialStep, maxClients] at *
    omega
  named := Or.inr h.chosen.named
  chosen _ := ⟨h.chosen.gid, h.chosen.named, h.chosen.long, h.chosen.nvalues⟩
  harmless req hreq := by
    obtain ⟨hh, hid, hle⟩ := h.queue req hreq
    have hlt : req.serial < (c.begin phase).serial := by
      show req.serial < c.serial + serialStep
      rw [serialStep]
      omega
    exact ⟨hh.congr rfl rfl rfl, hid, Nat.le_of_lt hlt, fun _ => hlt⟩
  current _ hreq := absurd hreq List.not_mem_nil
  progress := hp
  replies resp hresp hid := by
    have hle := h.replies resp hresp hid
    have hlt : resp.serial < (c.begin phase).serial := by
      show resp.serial < c.serial + serialStep
      rw [serialStep]
      omega
    exact ⟨Nat.le_of_lt hlt, fun he => absurd he (Nat.ne_of_lt hlt)⟩

/-- Once the current request is harmless, so is the whole queue. -/
theorem ClientOk.settled (h : ClientOk t i c olds news responses) (hd : c.pc ≠ .delay)
    (hcur : ∀ phase, c.active = some phase → Harmless t c (c.request phase)) :
    Settled t i c (olds ++ news) responses where
  serial := h.serial
  chosen := h.chosen hd
  queue req hreq := by
    rcases List.mem_append.1 hreq with hreq | hreq
    · exact ⟨(h.harmless req hreq).1, (h.harmless req hreq).2.1, (h.harmless req hreq).2.2.1⟩
    · obtain ⟨phase, hact, rfl⟩ := h.current req hreq
      exact ⟨hcur phase hact, by rw [Client.request_serial]; exact h.serial,
        by rw [Client.request_serial]⟩
  replies resp hresp hid := (h.replies resp hresp hid).1

theorem ClientOk.mono (h : ClientOk t i c olds news responses)
    (hsub : ∀ resp ∈ responses', resp ∈ responses) : ClientOk t i c olds news responses' :=
  { h with replies := fun resp hresp => h.replies resp (hsub resp hresp) }

/-! ## Moves within a request -/

/-- The client moves on without leaving its request. -/
theorem ClientOk.move {pc : Pc} {tries : Nat} {news' : List Request}
    (h : ClientOk t i c olds news responses) (hd : c.pc ≠ .delay)
    (hact : ({ c with pc := pc, tries := tries } : Client).active = c.active)
    (hnews : ∀ req ∈ news', ∃ phase, c.active = some phase ∧ req = c.request phase)
    (hp : Progress t { c with pc := pc, tries := tries } news'.length)
    (htries : c.active = some .clear ∨ c.active = some .unlock → c.tries ≤ tries) :
    ClientOk t i { c with pc := pc, tries := tries } olds news' responses where
  serial := h.serial
  named := h.named
  chosen _ := ⟨(h.chosen hd).gid, (h.chosen hd).named, (h.chosen hd).long, (h.chosen hd).nvalues⟩
  harmless req hreq := by
    obtain ⟨hh, hid, hle, hlt⟩ := h.harmless req hreq
    exact ⟨hh.congr rfl rfl rfl, hid, hle, by rw [hact]; exact hlt⟩
  current req hreq := by
    obtain ⟨phase, ha, rfl⟩ := hnews req hreq
    exact ⟨phase, hact.trans ha, by cases phase <;> rfl⟩
  progress := hp
  replies resp hresp hid := by
    obtain ⟨hle, hok⟩ := h.replies resp hresp hid
    refine ⟨hle, fun he phase ha => ?_⟩
    rw [hact] at ha
    have hr := hok he phase ha
    cases phase with
    | lock => exact hr
    | write => exact hr
    | clear =>
      obtain ⟨m, hm, hs, hcode⟩ := hr
      have := htries (Or.inl ha)
      exact ⟨m, hm, hs, hcode.imp id (And.imp_right (Or.imp_left fun h0 => by
        show 0 < tries
        omega))⟩
    | unlock =>
      obtain ⟨m, hm, hs, hcode⟩ := hr
      have := htries (Or.inr ha)
      exact ⟨m, hm, hs, hcode.imp id fun h0 => by
        show 0 < tries
        omega⟩

/-- Counting one more transmission for one more copy. -/
theorem InPhase.sent {c' : Client} {count count' : Nat} (h : InPhase t c count phase)
    (hs : c'.gid = c.gid ∧ c'.value = c.value ∧ c'.nvalues = c.nvalues ∧
      c'.lockVersion = c.lockVersion ∧ c'.n = c.n)
    (hle : phase = .clear ∨ phase = .unlock → count' + c.sent ≤ count + c'.sent) :
    InPhase t c' count' phase := by
  obtain ⟨hg, hv, hn, hl, hi⟩ := hs
  cases phase with
  | lock => trivial
  | write => simpa only [InPhase, Owns, hg, hv, hn, hl, hi] using h
  | clear =>
    have hle := hle (Or.inl rfl)
    simp only [InPhase, Owns, hg, hv, hn, hl, hi] at h ⊢
    refine ⟨h.1, h.2.1, h.2.2.1, h.2.2.2.imp (And.imp_right ?_) (And.imp_right ?_)⟩
    · intro hc
      omega
    · intro hc
      omega
  | unlock =>
    have hle := hle (Or.inr rfl)
    simp only [InPhase, Owns, hg, hv, hn, hl] at h ⊢
    refine h.imp (And.imp_right (And.imp_right ?_)) (And.imp_right ?_)
    · intro hc
      omega
    · intro hc
      omega

theorem ClientOk.send (h : ClientOk t i c olds news responses) (hpc : c.pc = .send phase) :
    ClientOk t i { c with pc := .wait phase } olds (news ++ [c.request phase]) responses := by
  have hact : c.active = some phase := by rw [Client.active, hpc]
  have hprog := h.progress
  rw [Progress, hpc] at hprog
  refine h.move (by rw [hpc]; simp) (hact ▸ rfl) (fun req hreq => ?_) ?_ fun _ => Nat.le_refl _
  · rcases List.mem_append.1 hreq with hreq | hreq
    · exact h.current req hreq
    · exact ⟨phase, hact, List.mem_singleton.1 hreq⟩
  · refine hprog.sent ⟨rfl, rfl, rfl, rfl, rfl⟩ fun _ => ?_
    rw [List.length_append, List.length_singleton, Client.sent, hpc, Client.sent]
    show news.length + 1 + c.tries ≤ news.length + (c.tries + 1)
    omega

theorem ClientOk.timeout (h : ClientOk t i c olds news responses) (hpc : c.pc = .wait phase)
    (hfit : phase = .clear ∨ phase = .unlock → c.tries + 1 < unsignedModulus) :
    ClientOk t i (c.retry phase) olds news responses := by
  have hact : c.active = some phase := by rw [Client.active, hpc]
  have hprog := h.progress
  rw [Progress, hpc] at hprog
  refine h.move (by rw [hpc]; simp) (hact ▸ rfl) h.current ?_ fun hph => ?_
  · refine hprog.sent ⟨rfl, rfl, rfl, rfl, rfl⟩ fun hph => ?_
    rw [Client.sent, hpc, Client.sent]
    show news.length + (c.tries + 1) ≤ news.length + (c.tries + 1) % unsignedModulus
    rw [Nat.mod_eq_of_lt (hfit hph)]
  · rw [hact, Option.some.injEq, Option.some.injEq] at hph
    rw [Nat.mod_eq_of_lt (hfit hph)]
    omega

theorem ClientOk.throw (h : ClientOk t i c olds news responses) (hpc : c.pc = .wait phase)
    (errcode : Errc) : ClientOk t i (c.throw phase errcode) olds news responses := by
  have hact : c.active = some phase := by rw [Client.active, hpc]
  have hprog := h.progress
  rw [Progress, hpc] at hprog
  refine h.move (by rw [hpc]; simp) (hact ▸ rfl) h.current ?_ fun _ => Nat.le_refl _
  refine hprog.sent ⟨rfl, rfl, rfl, rfl, rfl⟩ fun _ => ?_
  rw [Client.sent, hpc, Client.sent]

theorem ClientOk.lockPause (h : ClientOk t i c olds news responses) (hpc : c.pc = .wait .lock) :
    ClientOk t i { c with pc := .pause .lock } olds news responses := by
  have hact : c.active = some .lock := by rw [Client.active, hpc]
  exact h.move (by rw [hpc]; simp) (hact ▸ rfl) h.current trivial fun _ => Nat.le_refl _

theorem ClientOk.lockResume (h : ClientOk t i c olds news responses)
    (hpc : c.pc = .pause .lock) : ClientOk t i (c.retry .lock) olds news responses := by
  have hact : c.active = some .lock := by rw [Client.active, hpc]
  refine h.move (by rw [hpc]; simp) (hact ▸ rfl) h.current trivial fun hph => ?_
  rw [hact] at hph
  simp at hph

/-! ## Moves to the next request -/

theorem Settled.clearLoop (h : Settled t i c queue responses) (ho : Owns t c c.lockVersion)
    (hn : c.nvalues ≤ c.n) (hle : c.n ≤ maxSequenceLength)
    (hs : Shape (t.vals c.gid) c.value c.nvalues c.n) :
    ClientOk t i c.clearLoop queue [] responses := by
  rw [Client.clearLoop]
  by_cases hlt : c.n < maxSequenceLength
  · rw [if_pos hlt]
    exact h.begin ⟨ho, hn, hlt, Or.inl ⟨hs, Nat.zero_le _⟩⟩
  · rw [if_neg hlt]
    have hmax : c.n = maxSequenceLength := Nat.le_antisymm hle (Nat.le_of_not_lt hlt)
    exact h.begin (Or.inl ⟨ho, hmax ▸ hs, Nat.zero_le _⟩)

theorem Settled.writeLoop (h : Settled t i c queue responses) (ho : Owns t c c.lockVersion)
    (hn : c.n ≤ c.nvalues) (hs : Shape (t.vals c.gid) c.value c.n c.n) :
    ClientOk t i c.writeLoop queue [] responses := by
  rw [Client.writeLoop]
  by_cases he : c.n = c.nvalues
  · rw [if_neg (not_not.2 he)]
    exact h.clearLoop ho (Nat.le_of_eq he.symm) (he ▸ h.chosen.nvalues.2) (he ▸ hs)
  · rw [if_pos he]
    exact h.begin ⟨ho, Nat.lt_of_le_of_ne hn he, Or.inl hs⟩

theorem ClientOk.chosen_of_wait (h : ClientOk t i c olds news responses)
    (hpc : c.pc = .wait phase) : Chosen i c := h.chosen (by rw [hpc]; simp)

theorem Chosen.value_ne (h : Chosen i c) : c.value ≠ [] := by
  obtain ⟨r, hr⟩ := h.named
  rw [← hr]
  exact List.cons_ne_nil _ _

theorem ClientOk.enterWrite (h : ClientOk t i c olds news responses) (hpc : c.pc = .wait .lock)
    {version : VersionType} (ho : Owns t c version)
    (hs : Shape (t.vals c.gid) c.value 0 0) :
    ClientOk t i (c.enterWrite version) (olds ++ news) [] responses := by
  have hset : Settled t i c (olds ++ news) responses := by
    refine h.settled (by rw [hpc]; simp) fun phase hact => ?_
    rw [Client.active, hpc, Option.some.injEq] at hact
    rw [← hact]
    exact .lock ho (h.chosen_of_wait hpc).value_ne
  exact (hset.congr { c with lockVersion := version, n := 0 } rfl rfl rfl rfl).writeLoop ho
    (Nat.zero_le _) hs

theorem ClientOk.writeNext (h : ClientOk t i c olds news responses) (hpc : c.pc = .wait .write)
    (hs : Shape (t.vals c.gid) c.value (c.n + 1) (c.n + 1)) :
    ClientOk t i (c.next .write) (olds ++ news) [] responses := by
  have hprog := h.progress
  rw [Progress, hpc] at hprog
  have hset : Settled t i c (olds ++ news) responses := by
    refine h.settled (by rw [hpc]; simp) fun phase hact => ?_
    rw [Client.active, hpc, Option.some.injEq] at hact
    rw [← hact]
    exact .write hprog.1 hprog.2.1 (hs.own (Nat.lt_succ_self _))
  exact (hset.congr (c.next .write) rfl rfl rfl rfl).rest rfl ⟨hprog.1, hprog.2.1, hs⟩

/-- A removal that was answered leaves nothing to do for its copies. -/
theorem ClientOk.clearSettled (h : ClientOk t i c olds news responses)
    (hpc : c.pc = .wait .clear) (hs : Shape (t.vals c.gid) c.value c.nvalues (c.n + 1)) :
    Settled t i c (olds ++ news) responses := by
  have hprog := h.progress
  rw [Progress, hpc] at hprog
  refine h.settled (by rw [hpc]; simp) fun phase hact => ?_
  rw [Client.active, hpc, Option.some.injEq] at hact
  rw [← hact]
  exact .clear hprog.1 hprog.2.1 (hs.gap hprog.2.1 (Nat.lt_succ_self _))

theorem ClientOk.clearNext (h : ClientOk t i c olds news responses) (hpc : c.pc = .wait .clear)
    (hs : Shape (t.vals c.gid) c.value c.nvalues (c.n + 1)) :
    ClientOk t i (c.next .clear) (olds ++ news) [] responses := by
  have hprog := h.progress
  rw [Progress, hpc] at hprog
  exact ((h.clearSettled hpc hs).congr (c.next .clear) rfl rfl rfl rfl).rest rfl
    ⟨hprog.1, Nat.le_succ_of_le hprog.2.1, hprog.2.2.1, hs⟩

theorem ClientOk.clearUnlock (h : ClientOk t i c olds news responses)
    (hpc : c.pc = .wait .clear) (hs : Shape (t.vals c.gid) c.value c.nvalues (c.n + 1))
    (hend : Shape (t.vals c.gid) c.value c.nvalues maxSequenceLength) :
    ClientOk t i (c.begin .unlock) (olds ++ news) [] responses := by
  have hprog := h.progress
  rw [Progress, hpc] at hprog
  exact (h.clearSettled hpc hs).begin (Or.inl ⟨hprog.1, hend, Nat.zero_le _⟩)

theorem ClientOk.unlocked (h : ClientOk t i c olds news responses) (hpc : c.pc = .wait .unlock)
    (hs : Stale t c.gid c.lockVersion) :
    ClientOk t i { c with pc := .delay } (olds ++ news) [] responses := by
  have hset : Settled t i c (olds ++ news) responses := by
    refine h.settled (by rw [hpc]; simp) fun phase hact => ?_
    rw [Client.active, hpc, Option.some.injEq] at hact
    rw [← hact]
    exact .unlock hs
  exact (hset.congr { c with pc := .delay } rfl rfl rfl rfl).rest rfl trivial

/-- The old requests of a client that owns nothing are stale removals of a lock,
whatever it chooses next. -/
theorem ClientOk.choose (h : ClientOk t i c olds news responses) (hpc : c.pc = .delay)
    (hno : ∀ version, ¬ Owns t c version) {gid nvalues : Nat} {hex : Str}
    (hch : Choice gid nvalues hex) :
    ClientOk t i (c.choose i gid nvalues hex) (olds ++ news) [] responses := by
  have hact : c.active = none := by rw [Client.active, hpc]
  have hset : Settled t i
      { c with gid := gid, value := clientKeyPrefix i ++ hex, nvalues := nvalues,
               lockVersion := 0, n := 0 } (olds ++ news) responses := by
    have hlong : 4 ≤ (clientKeyPrefix i ++ hex).length := by
      rw [List.length_append, hch.2.2.2.1]
      omega
    refine ⟨h.serial, ⟨hch.1, List.prefix_append _ _, hlong, hch.2.1, hch.2.2.1⟩,
      fun req hreq => ?_, fun resp hresp hid => (h.replies resp hresp hid).1⟩
    rcases List.mem_append.1 hreq with hreq | hreq
    · obtain ⟨hh, hid, hle, _⟩ := h.harmless req hreq
      refine ⟨?_, hid, hle⟩
      cases hh with
      | lock ho | write ho | clear ho => exact absurd ho (hno _)
      | unlock hs => exact .unlock hs
    · obtain ⟨phase, ha, _⟩ := h.current req hreq
      rw [hact] at ha
      exact absurd ha (by simp)
  exact hset.begin trivial

/-! ## Ownership -/

theorem Owner.of_phase {g : Nat} {vv : Vv} (h : Owner t c g vv) (hg : c'.gid = c.gid)
    (hv : c'.value = c.value) (hl : c'.lockVersion = c.lockVersion) (hp : c'.phase = c.phase) :
    Owner t c' g vv :=
  ⟨hg ▸ h.gid, hv ▸ h.value, by rw [hp, hl]; exact h.phase⟩

/-- An owner that works goes on to work. -/
theorem Owner.of_working {g : Nat} {vv : Vv} (h : Owner t c g vv) (hg : c'.gid = c.gid)
    (hv : c'.value = c.value) (hl : c'.lockVersion = c.lockVersion) (hw : c.phase ≠ some .lock)
    {phase : Phase} (hp : c'.phase = some phase) (hne : phase ≠ .lock) : Owner t c' g vv := by
  refine ⟨hg ▸ h.gid, hv ▸ h.value, Or.inr ⟨⟨phase, hp, hne⟩, ?_⟩⟩
  rcases h.phase with hlock | hwork
  · exact absurd hlock.1 hw
  · rw [hl]
    exact hwork.2

theorem Owner.owns {g : Nat} {vv : Vv} (h : Owner t c g vv) (hlock : t.lock g = some vv) :
    Owns t c vv.version := by
  rw [Owns, h.gid, hlock, h.value]

theorem Client.clearLoop_fields (c : Client) : c.clearLoop.gid = c.gid ∧
    c.clearLoop.value = c.value ∧ c.clearLoop.lockVersion = c.lockVersion ∧
    ∃ phase, c.clearLoop.phase = some phase ∧ phase ≠ .lock := by
  rw [clearLoop]
  split
  · exact ⟨rfl, rfl, rfl, .clear, rfl, by simp⟩
  · exact ⟨rfl, rfl, rfl, .unlock, rfl, by simp⟩

theorem Client.writeLoop_fields (c : Client) : c.writeLoop.gid = c.gid ∧
    c.writeLoop.value = c.value ∧ c.writeLoop.lockVersion = c.lockVersion ∧
    ∃ phase, c.writeLoop.phase = some phase ∧ phase ≠ .lock := by
  rw [writeLoop]
  split
  · exact ⟨rfl, rfl, rfl, .write, rfl, by simp⟩
  · exact clearLoop_fields c

/-! ## Whole moves -/

/-- `c'` is a state that `c` may move to with its queue as it is. -/
def Moved (t : Table) (i : Nat) (c c' : Client) (queue : List Request)
    (responses : List Response) : Prop :=
  (∃ olds news, queue = olds ++ news ∧ ClientOk t i c' olds news responses) ∧
    ∀ g vv, t.lock g = some vv → Owner t c g vv → Owner t c' g vv

theorem Moved.within (h : ClientOk t i c' olds news responses) (hg : c'.gid = c.gid)
    (hv : c'.value = c.value) (hl : c'.lockVersion = c.lockVersion) (hp : c'.phase = c.phase) :
    Moved t i c c' (olds ++ news) responses :=
  ⟨⟨olds, news, rfl, h⟩, fun _ _ _ ho => ho.of_phase hg hv hl hp⟩

theorem Moved.onward (h : ClientOk t i c' queue [] responses) (hg : c'.gid = c.gid)
    (hv : c'.value = c.value) (hl : c'.lockVersion = c.lockVersion) (hw : c.phase ≠ some .lock)
    (hp : ∃ phase, c'.phase = some phase ∧ phase ≠ .lock) : Moved t i c c' queue responses := by
  obtain ⟨phase, hp, hne⟩ := hp
  exact ⟨⟨queue, [], (List.append_nil _).symm, h⟩, fun _ _ _ ho => ho.of_working hg hv hl hw hp hne⟩

theorem ClientOk.lockResponse (h : ClientOk t i c olds news responses) (hpc : c.pc = .wait .lock)
    {m : ModResponse} (hr : ReplyOk t c (.cas m) .lock)
    (hs : ∀ version, Owns t c version → Shape (t.vals c.gid) [] 0 0) :
    Moved t i c (c.lockResponse i m) (olds ++ news) responses := by
  have hphase : c.phase = some .lock := by rw [Client.phase, hpc]
  obtain ⟨m', hm, hcode, hown⟩ := hr
  obtain rfl : m = m' := Response.cas.inj hm
  have enter (hw : m.errcode = .ok ∨ m.actual = c.value) :
      Moved t i c (c.enterWrite m.version) (olds ++ news) responses := by
    have ho := hown hw
    refine ⟨⟨_, [], (List.append_nil _).symm, h.enterWrite hpc ho ((hs _ ho).rename _)⟩, ?_⟩
    intro g vv hlock howner
    obtain ⟨hg, hv, hl, hp⟩ :=
      Client.writeLoop_fields { c with lockVersion := m.version, n := 0 }
    refine ⟨hg.trans howner.gid, hv.trans howner.value, Or.inr ⟨hp, ?_⟩⟩
    rw [Owns, howner.gid, hlock, Option.some.injEq] at ho
    exact (congrArg Vv.version ho).trans hl.symm
  rw [Client.lockResponse]
  by_cases hok : m.errcode = .ok
  · rw [if_pos hok]
    exact enter (Or.inl hok)
  · rw [if_neg hok]
    by_cases hnm : m.errcode = .noMatch
    · rw [if_neg (not_not.2 hnm)]
      by_cases hmine : m.actual = c.value ∧ 0 < c.tries
      · rw [if_pos hmine]
        exact enter (Or.inr hmine.1)
      · rw [if_neg hmine]
        split
        · exact .within (h.throw hpc _) rfl rfl rfl hphase.symm
        · exact .within (h.lockPause hpc) rfl rfl rfl hphase.symm
    · exact absurd (hcode.resolve_left hok) hnm

theorem ClientOk.writeResponse (h : ClientOk t i c olds news responses)
    (hpc : c.pc = .wait .write) {m : ModResponse} (hr : ReplyOk t c (.put m) .write) :
    Moved t i c (c.writeResponse m) (olds ++ news) responses := by
  obtain ⟨m', hm, hok, hs⟩ := hr
  obtain rfl : m = m' := Response.put.inj hm
  rw [Client.writeResponse, if_neg (not_not.2 hok)]
  exact .onward (h.writeNext hpc hs) rfl rfl rfl (by rw [Client.phase, hpc]; simp)
    ⟨.write, rfl, by simp⟩

theorem ClientOk.clearResponse (h : ClientOk t i c olds news responses)
    (hpc : c.pc = .wait .clear) {m : ModResponse} (hr : ReplyOk t c (.remove m) .clear) :
    Moved t i c (c.clearResponse m) (olds ++ news) responses := by
  have hw : c.phase ≠ some .lock := by rw [Client.phase, hpc]; simp
  obtain ⟨m', hm, hs, hcode⟩ := hr
  obtain rfl : m = m' := Response.remove.inj hm
  have hnext : Moved t i c (c.next .clear) (olds ++ news) responses :=
    .onward (h.clearNext hpc hs) rfl rfl rfl hw ⟨.clear, rfl, by simp⟩
  rw [Client.clearResponse]
  by_cases hok : m.errcode = .ok
  · rw [if_pos hok]
    exact hnext
  · obtain ⟨hnf, hend⟩ := hcode.resolve_left hok
    rw [if_neg hok, if_neg (not_not.2 hnf)]
    by_cases htries : c.tries = 0
    · -- the first try found nothing, so the previous sequence ends here
      rw [if_pos htries]
      have hend := hend.resolve_left (by omega)
      exact .onward (h.clearUnlock hpc hs hend) rfl rfl rfl hw ⟨.unlock, rfl, by simp⟩
    · rw [if_neg htries]
      exact hnext

theorem ClientOk.unlockResponse (h : ClientOk t i c olds news responses)
    (hpc : c.pc = .wait .unlock) {m : ModResponse} (hr : ReplyOk t c (.remove m) .unlock) :
    Moved t i c (c.unlockResponse m) (olds ++ news) responses := by
  have hphase : c.phase = some .unlock := by rw [Client.phase, hpc]
  obtain ⟨m', hm, hstale, hcode⟩ := hr
  obtain rfl : m = m' := Response.remove.inj hm
  have hfirst : ¬ (m.errcode ≠ .ok ∧ c.tries = 0) := by
    rintro ⟨hne, h0⟩
    have := hcode.resolve_left hne
    omega
  rw [Client.unlockResponse, if_neg hfirst]
  refine ⟨⟨_, [], (List.append_nil _).symm, h.unlocked hpc hstale⟩, fun g vv hlock ho => ?_⟩
  rcases ho.phase with hl | hw
  · rw [hphase] at hl
    exact absurd hl.1 (by simp)
  · rw [← ho.gid] at hlock
    exact absurd hw.2 (hstale.2.2 vv hlock)

theorem ClientOk.receive (h : ClientOk t i c olds news responses) (hpc : c.pc = .wait phase)
    {resp : Response} (hr : ReplyOk t c resp phase)
    (hs : phase = .lock → ∀ version, Owns t c version → Shape (t.vals c.gid) [] 0 0) :
    Moved t i c (c.receive i phase resp) (olds ++ news) responses := by
  cases phase with
  | lock =>
    obtain ⟨m, rfl, _⟩ := id hr
    exact h.lockResponse hpc hr (hs rfl)
  | write =>
    obtain ⟨m, rfl, _⟩ := id hr
    exact h.writeResponse hpc hr
  | clear =>
    obtain ⟨m, rfl, _⟩ := id hr
    exact h.clearResponse hpc hr
  | unlock =>
    obtain ⟨m, rfl, _⟩ := id hr
    exact h.unlockResponse hpc hr

theorem ClientOk.resume (h : ClientOk t i c olds news responses) (hpc : c.pc = .pause phase) :
    Moved t i c (c.resume phase) (olds ++ news) responses := by
  have hprog := h.progress
  rw [Progress, hpc] at hprog
  have settled (hne : phase ≠ .lock) : Settled t i c (olds ++ news) responses := by
    refine h.settled (by rw [hpc]; simp) fun phase' hact => ?_
    rw [Client.active, hpc] at hact
    cases phase <;> simp at hact hne
  cases phase with
  | lock =>
    have hphase : c.phase = some .lock := by rw [Client.phase, hpc]
    exact .within (h.lockResume hpc) rfl rfl rfl hphase.symm
  | write =>
    obtain ⟨hg, hv, hl, hp⟩ := c.writeLoop_fields
    exact .onward ((settled (by simp)).writeLoop hprog.1 hprog.2.1 hprog.2.2) hg hv hl
      (by rw [Client.phase, hpc]; simp) hp
  | clear =>
    obtain ⟨hg, hv, hl, hp⟩ := c.clearLoop_fields
    exact .onward ((settled (by simp)).clearLoop hprog.1 hprog.2.1 hprog.2.2.1 hprog.2.2.2) hg hv hl
      (by rw [Client.phase, hpc]; simp) hp
  | unlock => exact hprog.elim

end LockSeq
end Psets
