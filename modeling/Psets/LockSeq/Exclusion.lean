/-
Who may touch a group.

The clients again, now in every run: a counter of tries may wrap around here.  Only
the locks are followed, not the values.  A client's queue is a block of requests that
are left over, which leave the locks as they are, and then copies of its current one;
whatever a client queues for the values of a group, it queues while it owns the lock.
-/
import Psets.LockSeq.ClientSteps

namespace Psets
namespace LockSeq
namespace Exclusion

open Pancy

/-- A request of `c` that changes no lock when it is processed. -/
inductive Spent (t : Table) (c : Client) : Request → Prop where
  | lock {serial : Nat} {version : VersionType} : Owns t c version → c.value ≠ [] →
      Spent t c (lockRequest serial c.gid c.value)
  | write {serial v : Nat} {version : VersionType} : Owns t c version →
      Spent t c (writeRequest serial c.gid v c.value)
  | clear {serial v : Nat} {version : VersionType} : Owns t c version →
      Spent t c (clearRequest serial c.gid v)
  | unlock {serial g : Nat} {version : VersionType} : Stale t g version →
      Spent t c (unlockRequest serial g version)

/-- What a client in a phase knows of its lock. -/
def Holds (t : Table) (c : Client) : Phase → Prop
  | .lock => True
  | .write | .clear => Owns t c c.lockVersion
  | .unlock => Owns t c c.lockVersion ∨ Stale t c.gid c.lockVersion

/-- What a response to the current request tells of the lock. -/
def Told (t : Table) (c : Client) (resp : Response) : Phase → Prop
  | .lock => ∀ m, resp = .cas m → m.errcode = .ok ∨ m.actual = c.value → Owns t c m.version
  | .write | .clear => True
  | .unlock => Stale t c.gid c.lockVersion

/-- Client `i` with the requests `olds` that are left over and the copies `news` of its
current request in its queue. -/
structure Orderly (t : Table) (i : Nat) (c : Client) (olds news : List Request)
    (responses : List Response) : Prop where
  serial : c.serial % maxClients = i
  named : c.value = [] ∨ clientKeyPrefix i <+: c.value
  chosen : c.phase ≠ none → c.value ≠ []
  spent : ∀ req ∈ olds, Spent t c req ∧ req.serial % maxClients = i ∧
    req.serial ≤ c.serial ∧ (c.active ≠ none → req.serial < c.serial)
  current : ∀ req ∈ news, ∃ phase, c.active = some phase ∧ req = c.request phase
  holds : ∀ phase, c.phase = some phase → Holds t c phase
  told : ∀ resp ∈ responses, resp.serial % maxClients = i → resp.serial ≤ c.serial ∧
    (resp.serial = c.serial → ∀ phase, c.active = some phase → Told t c resp phase)

/-- The client that the lock `vv` of `g` stands for. -/
structure Holder (c : Client) (g : Nat) (vv : Vv) : Prop where
  gid : c.gid = g
  value : c.value = vv.value
  phase : c.phase = some .lock ∨
    (∃ phase, c.phase = some phase ∧ phase ≠ .lock) ∧ vv.version = c.lockVersion

variable {t : Table} {i : Nat} {c c' : Client} {olds news : List Request}
  {responses responses' : List Response} {req : Request} {phase : Phase} {version : VersionType}

theorem Spent.congr (h : Spent t c req) (hg : c'.gid = c.gid) (hv : c'.value = c.value) :
    Spent t c' req := by
  have howns {version : VersionType} (ho : Owns t c version) : Owns t c' version := by
    rw [Owns, hg, hv]
    exact ho
  cases h with
  | lock ho hne =>
    rw [← hg, ← hv]
    exact .lock (howns ho) (hv ▸ hne)
  | write ho =>
    rw [← hg, ← hv]
    exact .write (howns ho)
  | clear ho =>
    rw [← hg]
    exact .clear (howns ho)
  | unlock hs => exact .unlock hs

theorem Holds.of_owns (ho : Owns t c c.lockVersion) (phase : Phase) : Holds t c phase := by
  cases phase with
  | lock => trivial
  | write | clear => exact ho
  | unlock => exact Or.inl ho

theorem Holder.phase_ne {g : Nat} {vv : Vv} (h : Holder c g vv) : c.phase ≠ none := by
  rcases h.phase with hp | ⟨⟨phase, hp, _⟩, _⟩
  · rw [hp]
    simp
  · rw [hp]
    simp

/-! ## Moves within a request -/

theorem Orderly.mono (h : Orderly t i c olds news responses)
    (hsub : ∀ resp ∈ responses', resp ∈ responses) : Orderly t i c olds news responses' :=
  { h with told := fun resp hresp => h.told resp (hsub resp hresp) }

/-- The client moves on without leaving its request. -/
theorem Orderly.stay {pc : Pc} {tries : Nat} {news' : List Request}
    (h : Orderly t i c olds news responses)
    (hact : ({ c with pc := pc, tries := tries } : Client).active = c.active)
    (hphase : ({ c with pc := pc, tries := tries } : Client).phase = c.phase)
    (hnews : ∀ req ∈ news', ∃ phase, c.active = some phase ∧ req = c.request phase) :
    Orderly t i { c with pc := pc, tries := tries } olds news' responses where
  serial := h.serial
  named := h.named
  chosen := by
    rw [hphase]
    exact h.chosen
  spent req hreq := by
    obtain ⟨hs, hid, hle, hlt⟩ := h.spent req hreq
    exact ⟨hs.congr rfl rfl, hid, hle, by rw [hact]; exact hlt⟩
  current req hreq := by
    obtain ⟨phase, ha, rfl⟩ := hnews req hreq
    exact ⟨phase, hact.trans ha, by cases phase <;> rfl⟩
  holds phase hp := by
    rw [hphase] at hp
    have := h.holds phase hp
    cases phase <;> exact this
  told resp hresp hid := by
    obtain ⟨hle, htold⟩ := h.told resp hresp hid
    refine ⟨hle, fun he phase ha => ?_⟩
    rw [hact] at ha
    have := htold he phase ha
    cases phase <;> exact this

/-- `c'` is a state that `c` may move to with its queue as it is. -/
def Moved (t : Table) (i : Nat) (c c' : Client) (queue : List Request)
    (responses : List Response) : Prop :=
  (∃ olds news, queue = olds ++ news ∧ Orderly t i c' olds news responses) ∧
    ∀ g vv, t.lock g = some vv → Holder c g vv → Holder c' g vv

theorem Orderly.within {pc : Pc} {tries : Nat} (h : Orderly t i c olds news responses)
    (hact : ({ c with pc := pc, tries := tries } : Client).active = c.active)
    (hphase : ({ c with pc := pc, tries := tries } : Client).phase = c.phase) :
    Moved t i c { c with pc := pc, tries := tries } (olds ++ news) responses :=
  ⟨⟨olds, news, rfl, h.stay hact hphase h.current⟩,
    fun _ _ _ ho => ⟨ho.gid, ho.value, by rw [hphase]; exact ho.phase⟩⟩

theorem Orderly.retry (h : Orderly t i c olds news responses) (ha : c.active = some phase)
    (hp : c.phase = some phase) : Moved t i c (c.retry phase) (olds ++ news) responses :=
  h.within (ha ▸ rfl) (hp ▸ rfl)

theorem Orderly.throw (h : Orderly t i c olds news responses) (ha : c.active = some phase)
    (hp : c.phase = some phase) (errcode : Errc) :
    Moved t i c (c.throw phase errcode) (olds ++ news) responses :=
  h.within (ha ▸ rfl) (hp ▸ rfl)

/-! ## Moves to the next request -/

/-- A client whose requests are all spent leaves them behind. -/
theorem Orderly.settle (h : Orderly t i c olds news responses)
    (hspent : ∀ req ∈ olds ++ news, Spent t c' req)
    (hserial : c'.serial = c.serial ∧ c'.active = none ∨ c'.serial = c.serial + serialStep)
    (hnamed : c'.value = [] ∨ clientKeyPrefix i <+: c'.value)
    (hchosen : c'.phase ≠ none → c'.value ≠ [])
    (hholds : ∀ phase, c'.phase = some phase → Holds t c' phase) :
    Orderly t i c' (olds ++ news) [] responses := by
  have hmod : c'.serial % maxClients = i := by
    have := h.serial
    rcases hserial with ⟨he, _⟩ | he
    · rw [he]
      exact this
    · rw [he, serialStep]
      rw [maxClients] at this ⊢
      omega
  have hle {n : Nat} (hn : n ≤ c.serial) : n ≤ c'.serial ∧ (c'.active ≠ none → n < c'.serial) := by
    rcases hserial with ⟨he, ha⟩ | he
    · exact ⟨he ▸ hn, fun hne => absurd ha hne⟩
    · rw [he, serialStep]
      exact ⟨by omega, fun _ => by omega⟩
  refine ⟨hmod, hnamed, hchosen, fun req hreq => ⟨hspent req hreq, ?_⟩,
    fun _ hreq => absurd hreq List.not_mem_nil, hholds, fun resp hresp hid => ?_⟩
  · rcases List.mem_append.1 hreq with hreq | hreq
    · obtain ⟨_, hid, hn, _⟩ := h.spent req hreq
      exact ⟨hid, hle hn⟩
    · obtain ⟨phase, _, rfl⟩ := h.current req hreq
      rw [Client.request_serial]
      exact ⟨h.serial, hle (Nat.le_refl _)⟩
  · obtain ⟨hn, hlt⟩ := hle (h.told resp hresp hid).1
    refine ⟨hn, fun he phase ha => ?_⟩
    exact absurd he (Nat.ne_of_lt (hlt (by rw [ha]; simp)))

/-- Whatever an owner has queued before it begins to unlock is spent. -/
theorem Orderly.spent_of_owns (h : Orderly t i c olds news responses) (ho : Owns t c version)
    (hne : c.value ≠ []) (hact : c.active ≠ some .unlock) :
    ∀ req ∈ olds ++ news, Spent t c req := by
  intro req hreq
  rcases List.mem_append.1 hreq with hreq | hreq
  · exact (h.spent req hreq).1
  · obtain ⟨phase, ha, rfl⟩ := h.current req hreq
    cases phase with
    | lock => exact .lock ho hne
    | write => exact .write ho
    | clear => exact .clear ho
    | unlock => exact absurd ha hact

/-- An owner goes on to work. -/
theorem Orderly.onward (h : Orderly t i c olds news responses) (ho : Owns t c version)
    (hp : c.phase ≠ none) (hact : c.active ≠ some .unlock) (hg : c'.gid = c.gid)
    (hv : c'.value = c.value) (hl : c'.lockVersion = version)
    (hserial : c'.serial = c.serial ∧ c'.active = none ∨ c'.serial = c.serial + serialStep)
    (hwork : ∃ phase, c'.phase = some phase ∧ phase ≠ .lock) :
    Moved t i c c' (olds ++ news) responses := by
  have hne := h.chosen hp
  have ho' : Owns t c' c'.lockVersion := by
    rw [Owns, hg, hv, hl]
    exact ho
  refine ⟨⟨_, [], (List.append_nil _).symm, h.settle (fun req hreq => ?_) hserial
    (by rw [hv]; exact h.named) (fun _ => by rw [hv]; exact hne) fun phase _ => .of_owns ho' phase⟩,
    fun g vv hlock howner => ?_⟩
  · exact (h.spent_of_owns ho hne hact req hreq).congr hg hv
  · refine ⟨hg.trans howner.gid, hv.trans howner.value, Or.inr ⟨hwork, ?_⟩⟩
    rw [Owns, howner.gid, hlock, Option.some.injEq] at ho
    rw [ho, hl]

theorem clearLoop_serial (c : Client) : c.clearLoop.serial = c.serial + serialStep := by
  rw [Client.clearLoop]
  split <;> rfl

theorem writeLoop_serial (c : Client) : c.writeLoop.serial = c.serial + serialStep := by
  rw [Client.writeLoop]
  split
  · rfl
  · exact clearLoop_serial c

theorem Orderly.enterWrite (h : Orderly t i c olds news responses) (hpc : c.pc = .wait .lock)
    (ho : Owns t c version) : Moved t i c (c.enterWrite version) (olds ++ news) responses := by
  obtain ⟨hg, hv, hl, hwork⟩ := Client.writeLoop_fields { c with lockVersion := version, n := 0 }
  refine h.onward ho ?_ ?_ hg hv hl
    (Or.inr (writeLoop_serial { c with lockVersion := version, n := 0 })) hwork
  · rw [Client.phase, hpc]
    simp
  · rw [Client.active, hpc]
    simp

/-- The end of a request of the write or of the clear phase. -/
theorem Orderly.work (h : Orderly t i c olds news responses) (hp : c.phase = some phase)
    (hphase : phase = .write ∨ phase = .clear) (hact : c.active = some phase ∨ c.active = none)
    (hg : c'.gid = c.gid) (hv : c'.value = c.value) (hl : c'.lockVersion = c.lockVersion)
    (hserial : c'.serial = c.serial ∧ c'.active = none ∨ c'.serial = c.serial + serialStep)
    (hwork : ∃ phase, c'.phase = some phase ∧ phase ≠ .lock) :
    Moved t i c c' (olds ++ news) responses := by
  have ho : Owns t c c.lockVersion := by
    have := h.holds phase hp
    rcases hphase with rfl | rfl
    · exact this
    · exact this
  refine h.onward ho (by rw [hp]; simp) ?_ hg hv hl hserial hwork
  rcases hact with ha | ha
  · rw [ha]
    rcases hphase with rfl | rfl
    · simp
    · simp
  · rw [ha]
    simp

theorem Orderly.lockResponse (h : Orderly t i c olds news responses) (hpc : c.pc = .wait .lock)
    {m : ModResponse} (htold : Told t c (.cas m) .lock) :
    Moved t i c (c.lockResponse i m) (olds ++ news) responses := by
  have ha : c.active = some .lock := by rw [Client.active, hpc]
  have hp : c.phase = some .lock := by rw [Client.phase, hpc]
  have ho := htold m rfl
  rw [Client.lockResponse]
  split_ifs with hok hnm hmine
  · exact h.enterWrite hpc (ho (Or.inl hok))
  · exact h.throw ha hp _
  · exact h.enterWrite hpc (ho (Or.inr hmine.1))
  · exact h.throw ha hp _
  · exact h.within (ha ▸ rfl) (hp ▸ rfl)

theorem Orderly.writeResponse (h : Orderly t i c olds news responses)
    (hpc : c.pc = .wait .write) (m : ModResponse) :
    Moved t i c (c.writeResponse m) (olds ++ news) responses := by
  have ha : c.active = some .write := by rw [Client.active, hpc]
  have hp : c.phase = some .write := by rw [Client.phase, hpc]
  rw [Client.writeResponse]
  split_ifs with hok
  · exact h.throw ha hp _
  · exact h.work hp (Or.inl rfl) (Or.inl ha) rfl rfl rfl (Or.inl ⟨rfl, rfl⟩) ⟨.write, rfl, by simp⟩

theorem Orderly.clearResponse (h : Orderly t i c olds news responses)
    (hpc : c.pc = .wait .clear) (m : ModResponse) :
    Moved t i c (c.clearResponse m) (olds ++ news) responses := by
  have ha : c.active = some .clear := by rw [Client.active, hpc]
  have hp : c.phase = some .clear := by rw [Client.phase, hpc]
  have hnext : Moved t i c (c.next .clear) (olds ++ news) responses :=
    h.work hp (Or.inr rfl) (Or.inl ha) rfl rfl rfl (Or.inl ⟨rfl, rfl⟩) ⟨.clear, rfl, by simp⟩
  rw [Client.clearResponse]
  split_ifs with hok hnf htries
  · exact hnext
  · exact h.throw ha hp _
  · exact h.work hp (Or.inr rfl) (Or.inl ha) rfl rfl rfl (Or.inr rfl) ⟨.unlock, rfl, by simp⟩
  · exact hnext

theorem Orderly.unlockResponse (h : Orderly t i c olds news responses)
    (hpc : c.pc = .wait .unlock) (hstale : Stale t c.gid c.lockVersion) (m : ModResponse) :
    Moved t i c (c.unlockResponse m) (olds ++ news) responses := by
  have ha : c.active = some .unlock := by rw [Client.active, hpc]
  have hp : c.phase = some .unlock := by rw [Client.phase, hpc]
  rw [Client.unlockResponse]
  split_ifs with hfirst
  · exact h.throw ha hp _
  · refine ⟨⟨_, [], (List.append_nil _).symm, h.settle (fun req hreq => ?_) (Or.inl ⟨rfl, rfl⟩)
      h.named (fun hne => absurd rfl hne) (fun _ hp => by simp [Client.phase] at hp)⟩,
      fun g vv hlock ho => ?_⟩
    · rcases List.mem_append.1 hreq with hreq | hreq
      · exact (h.spent req hreq).1.congr rfl rfl
      · obtain ⟨phase, ha', rfl⟩ := h.current req hreq
        rw [ha, Option.some.injEq] at ha'
        rw [← ha']
        exact .unlock hstale
    · rcases ho.phase with hl | ⟨_, hversion⟩
      · rw [hp] at hl
        simp at hl
      · rw [← ho.gid] at hlock
        exact absurd hversion (hstale.2.2 vv hlock)

theorem Orderly.receive (h : Orderly t i c olds news responses) (hpc : c.pc = .wait phase)
    {resp : Response} (htold : Told t c resp phase) :
    Moved t i c (c.receive i phase resp) (olds ++ news) responses := by
  have ha : c.active = some phase := by rw [Client.active, hpc]
  have hp : c.phase = some phase := by rw [Client.phase, hpc]
  rw [Client.receive.eq_def]
  split
  · exact h.lockResponse hpc htold
  · exact h.writeResponse hpc _
  · exact h.clearResponse hpc _
  · exact h.unlockResponse hpc htold _
  · exact h.retry ha hp

theorem Orderly.resume (h : Orderly t i c olds news responses) (hpc : c.pc = .pause phase) :
    Moved t i c (c.resume phase) (olds ++ news) responses := by
  have hp : c.phase = some phase := by rw [Client.phase, hpc]
  cases phase with
  | lock => exact h.retry (by rw [Client.active, hpc]) hp
  | write =>
    obtain ⟨hg, hv, hl, hwork⟩ := c.writeLoop_fields
    exact h.work hp (Or.inl rfl) (Or.inr (by rw [Client.active, hpc])) hg hv hl
      (Or.inr (writeLoop_serial c)) hwork
  | clear =>
    obtain ⟨hg, hv, hl, hwork⟩ := c.clearLoop_fields
    exact h.work hp (Or.inr rfl) (Or.inr (by rw [Client.active, hpc])) hg hv hl
      (Or.inr (clearLoop_serial c)) hwork
  | unlock => exact ⟨⟨olds, news, rfl, h⟩, fun _ _ _ ho => ho⟩

/-- The requests of a client that owns nothing are stale removals of a lock, whatever it
chooses next. -/
theorem Orderly.choose (h : Orderly t i c olds news responses) (hpc : c.pc = .delay)
    (hno : ∀ version, ¬ Owns t c version) (gid nvalues : Nat) (hex : Str) :
    Moved t i c (c.choose i gid nvalues hex) (olds ++ news) responses := by
  have hact : c.active = none := by rw [Client.active, hpc]
  have hphase : c.phase = none := by rw [Client.phase, hpc]
  have hvalue : (c.choose i gid nvalues hex).value ≠ [] := List.cons_ne_nil _ _
  refine ⟨⟨_, [], (List.append_nil _).symm, h.settle (fun req hreq => ?_) (Or.inr rfl)
    (Or.inr (List.prefix_append _ _)) (fun _ => hvalue) fun phase hp => ?_⟩,
    fun g vv _ ho => absurd hphase ho.phase_ne⟩
  · rcases List.mem_append.1 hreq with hreq | hreq
    · cases (h.spent req hreq).1 with
      | lock ho | write ho | clear ho => exact absurd ho (hno _)
      | unlock hs => exact .unlock hs
    · obtain ⟨phase, ha, _⟩ := h.current req hreq
      rw [hact] at ha
      simp at ha
  · obtain rfl : Phase.lock = phase := Option.some.inj hp
    trivial

end Exclusion
end LockSeq
end Psets
