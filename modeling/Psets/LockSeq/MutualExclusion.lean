/-
At most one client works on a group, and it holds the lock.

The server changes a lock in two ways only: a client that asks for a free lock gets it
with a fresh version, and the removal with its version frees it.  Nobody owned the
group before the one, and only the client that asks owned it before the other.
-/
import Psets.LockSeq.Exclusion
import Psets.LockSeq.Runs

namespace Psets
namespace LockSeq
namespace Exclusion

open Pancy

variable {t t' : Table} {i : Nat} {c d : Client} {olds news : List Request}
  {responses : List Response} {req : Request} {resp : Response} {phase : Phase} {g : Nat}
  {version : VersionType}

/-! ## The locks -/

/-- What the server may do to the locks when it processes a request of `c`. -/
inductive Locks (t : Table) (c : Client) (t' : Table) : Prop where
  | same : t'.lock = t.lock → t.next ≤ t'.next → Locks t c t'
  | acquired : t.lock c.gid = none → c.phase = some .lock → t' = t.acquire c.gid c.value →
      Locks t c t'
  | released : Owns t c c.lockVersion → t' = t.release c.gid → Locks t c t'

structure Versions (t : Table) : Prop where
  next : 0 < t.next
  lock : ∀ g vv, t.lock g = some vv → 0 < vv.version ∧ vv.version < t.next

theorem Versions.stale_of_free (h : Versions t) (ho : Owns t c version) :
    Stale (t.release c.gid) c.gid version := by
  obtain ⟨h0, hlt⟩ := h.lock _ _ ho
  refine ⟨Int.le_of_lt h0, Int.lt_trans hlt (Int.lt_succ _), fun vv hvv => ?_⟩
  rw [Table.release_lock_self] at hvv
  simp at hvv

theorem Locks.versions (h : Locks t c t') (hv : Versions t) : Versions t' := by
  cases h with
  | same hl hn =>
    refine ⟨Int.lt_of_lt_of_le hv.next hn, fun g vv hvv => ?_⟩
    rw [hl] at hvv
    exact ⟨(hv.lock g vv hvv).1, Int.lt_of_lt_of_le (hv.lock g vv hvv).2 hn⟩
  | acquired _ _ ht =>
    subst ht
    refine ⟨Int.lt_trans hv.next (Int.lt_succ _), fun g vv hvv => ?_⟩
    by_cases hg : g = c.gid
    · rw [hg, Table.acquire_lock_self, Option.some.injEq] at hvv
      rw [← hvv]
      exact ⟨hv.next, Int.lt_succ _⟩
    · have hold : t.lock g = some vv := (Function.update_of_ne hg ..).symm.trans hvv
      exact ⟨(hv.lock g vv hold).1, Int.lt_trans (hv.lock g vv hold).2 (Int.lt_succ _)⟩
  | released _ ht =>
    subst ht
    refine ⟨Int.lt_trans hv.next (Int.lt_succ _), fun g vv hvv => ?_⟩
    by_cases hg : g = c.gid
    · rw [hg, Table.release_lock_self] at hvv
      simp at hvv
    · have hold : t.lock g = some vv := (Function.update_of_ne hg ..).symm.trans hvv
      exact ⟨(hv.lock g vv hold).1, Int.lt_trans (hv.lock g vv hold).2 (Int.lt_succ _)⟩

/-- A version that is in no lock stays out. -/
theorem Locks.stale (h : Locks t c t') (hs : Stale t g version) : Stale t' g version := by
  obtain ⟨h0, hlt, hne⟩ := hs
  cases h with
  | same hl hn => exact ⟨h0, Int.lt_of_lt_of_le hlt hn, by rw [hl]; exact hne⟩
  | acquired _ _ ht =>
    subst ht
    refine ⟨h0, Int.lt_trans hlt (Int.lt_succ _), fun vv hvv => ?_⟩
    by_cases hg : g = c.gid
    · rw [hg, Table.acquire_lock_self, Option.some.injEq] at hvv
      rw [← hvv]
      exact (Int.ne_of_lt hlt).symm
    · exact hne vv ((Function.update_of_ne hg ..).symm.trans hvv)
  | released _ ht =>
    subst ht
    refine ⟨h0, Int.lt_trans hlt (Int.lt_succ _), fun vv hvv => ?_⟩
    by_cases hg : g = c.gid
    · rw [hg, Table.release_lock_self] at hvv
      simp at hvv
    · exact hne vv ((Function.update_of_ne hg ..).symm.trans hvv)

/-- Only a removal by `c` takes a lock from somebody. -/
theorem Locks.owns (h : Locks t c t') (hd : Owns t c c.lockVersion → d.gid = c.gid →
    d.value ≠ c.value) (ho : Owns t d version) : Owns t' d version := by
  cases h with
  | same hl _ =>
    rw [Owns, hl]
    exact ho
  | acquired hfree _ ht =>
    have hg : d.gid ≠ c.gid := fun hg => by
      rw [Owns, hg, hfree] at ho
      simp at ho
    rw [Owns, ht]
    exact (Function.update_of_ne hg ..).trans ho
  | released hown ht =>
    have hg : d.gid ≠ c.gid := fun hg => by
      refine hd hown hg ?_
      rw [Owns, hg, hown, Option.some.injEq] at ho
      exact (congrArg Vv.value ho).symm
    rw [Owns, ht]
    exact (Function.update_of_ne hg ..).trans ho

theorem Locks.holder (h : Locks t c t') {vv : Vv} (hvv : t'.lock g = some vv) :
    t.lock g = some vv ∨ Holder c g vv := by
  cases h with
  | same hl _ => exact Or.inl (hl ▸ hvv)
  | acquired _ hp ht =>
    subst ht
    by_cases hg : g = c.gid
    · rw [hg, Table.acquire_lock_self, Option.some.injEq] at hvv
      exact Or.inr ⟨hg.symm, by rw [← hvv], Or.inl hp⟩
    · exact Or.inl ((Function.update_of_ne hg ..).symm.trans hvv)
  | released _ ht =>
    subst ht
    by_cases hg : g = c.gid
    · rw [hg, Table.release_lock_self] at hvv
      simp at hvv
    · exact Or.inl ((Function.update_of_ne hg ..).symm.trans hvv)

/-! ## Processing a request -/

variable {db : Pancydb}

theorem Spent.process (h : Spent (table db) c req) :
    (table (db.processReq req).1).lock = (table db).lock ∧
      (table db).next ≤ (table (db.processReq req).1).next := by
  cases h with
  | lock ho hne =>
    rw [process_lock_held _ _ _ ho hne]
    exact ⟨rfl, Int.le_refl _⟩
  | @write serial v _ _ =>
    rw [(process_write serial c.gid db v c.value).1]
    exact ⟨rfl, Int.le_of_lt (Int.lt_succ _)⟩
  | @clear serial v _ _ =>
    rcases hval : (table db).vals c.gid v with _ | o
    · rw [(process_clear_absent serial c.gid v hval).1]
      exact ⟨rfl, Int.le_refl _⟩
    · rw [(process_clear_present serial c.gid v hval).1]
      exact ⟨rfl, Int.le_of_lt (Int.lt_succ _)⟩
  | unlock hs =>
    rw [(process_unlock_stale _ _ hs.1 hs.2.2).1]
    exact ⟨rfl, Int.le_refl _⟩

/-- A copy of the current request is processed. -/
structure Served (t t' : Table) (c : Client) (phase : Phase) (resp : Response) : Prop where
  locks : Locks t c t'
  told : Told t' c resp phase
  owns : phase ≠ .unlock → ∀ version, Owns t c version → Owns t' c version

theorem served_lock (hp : c.phase = some .lock)
    (hvalue : ∀ vv, (table db).lock c.gid = some vv → vv.value ≠ []) :
    Served (table db) (table (db.processReq (c.request .lock)).1) c .lock
      (db.processReq (c.request .lock)).2 := by
  rw [Client.request]
  rcases hl : (table db).lock c.gid with _ | vv
  · obtain ⟨ht, hresp⟩ := process_lock_free c.serial c.gid c.value hl
    rw [ht, hresp]
    refine ⟨.acquired hl hp rfl, fun m hm _ => ?_, fun _ version ho => ?_⟩
    · rw [← Response.cas.inj hm]
      exact Table.acquire_lock_self ..
    · rw [Owns, hl] at ho
      simp at ho
  · rw [process_lock_held c.serial c.gid c.value hl (hvalue vv hl)]
    refine ⟨.same rfl (Int.le_refl _), fun m hm hw => ?_, fun _ _ ho => ho⟩
    rw [← Response.cas.inj hm] at hw ⊢
    have hval : vv.value = c.value := hw.resolve_left (by simp [Pancydb.modNoMatch])
    rw [Owns, hl, ← hval]
    rfl

theorem served_work (hphase : phase = .write ∨ phase = .clear)
    (ho : Owns (table db) c c.lockVersion) :
    Served (table db) (table (db.processReq (c.request phase)).1) c phase
      (db.processReq (c.request phase)).2 := by
  have hspent : Spent (table db) c (c.request phase) := by
    rcases hphase with rfl | rfl
    · exact .write ho
    · exact .clear ho
  obtain ⟨hl, hn⟩ := hspent.process
  refine ⟨.same hl hn, ?_, fun _ version ho => ?_⟩
  · rcases hphase with rfl | rfl
    · trivial
    · trivial
  · rw [Owns, hl]
    exact ho

theorem served_unlock (hv : Versions (table db))
    (hh : Owns (table db) c c.lockVersion ∨ Stale (table db) c.gid c.lockVersion) :
    Served (table db) (table (db.processReq (c.request .unlock)).1) c .unlock
      (db.processReq (c.request .unlock)).2 := by
  rw [Client.request]
  rcases hh with ho | hs
  · rw [(process_unlock_held c.serial c.gid ho).1]
    exact ⟨.released ho rfl, hv.stale_of_free ho, fun hne => absurd rfl hne⟩
  · rw [(process_unlock_stale c.serial c.gid hs.1 hs.2.2).1]
    exact ⟨.same rfl (Int.le_refl _), hs, fun hne => absurd rfl hne⟩

theorem Orderly.serve (h : Orderly (table db) i c olds news responses)
    (hv : Versions (table db)) (ha : c.active = some phase)
    (hvalue : ∀ vv, (table db).lock c.gid = some vv → vv.value ≠ []) :
    Served (table db) (table (db.processReq (c.request phase)).1) c phase
      (db.processReq (c.request phase)).2 := by
  have hp := Client.phase_of_active ha
  have hholds := h.holds phase hp
  cases phase with
  | lock => exact served_lock hp hvalue
  | write => exact served_work (Or.inl rfl) hholds
  | clear => exact served_work (Or.inr rfl) hholds
  | unlock => exact served_unlock hv hholds

/-! ## What a client makes of it -/

theorem Spent.frame (h : Spent t c req) (hl : Locks t d t')
    (howns : ∀ version, Owns t c version → Owns t' c version) : Spent t' c req := by
  cases h with
  | lock ho hne => exact .lock (howns _ ho) hne
  | write ho => exact .write (howns _ ho)
  | clear ho => exact .clear (howns _ ho)
  | unlock hs => exact .unlock (hl.stale hs)

theorem Holds.frame (h : Holds t c phase) (hl : Locks t d t')
    (howns : ∀ version, Owns t c version → Owns t' c version) : Holds t' c phase := by
  cases phase with
  | lock => trivial
  | write | clear => exact howns _ h
  | unlock => exact h.imp (howns _) hl.stale

theorem Told.frame (h : Told t c resp phase) (hl : Locks t d t')
    (howns : phase ≠ .unlock → ∀ version, Owns t c version → Owns t' c version) :
    Told t' c resp phase := by
  cases phase with
  | lock => exact fun m hm hw => howns (by simp) _ (h m hm hw)
  | write | clear => trivial
  | unlock => exact hl.stale h

/-- A request that does not touch the lock of `c` is processed. -/
theorem Orderly.frame (h : Orderly t i c olds news responses) (hl : Locks t d t')
    (howns : ∀ version, Owns t c version → Owns t' c version)
    (hresp : resp.serial % maxClients = i → resp.serial ≤ c.serial ∧
      (resp.serial = c.serial → c.active = none)) :
    Orderly t' i c olds news (responses ++ [resp]) where
  serial := h.serial
  named := h.named
  chosen := h.chosen
  spent req hreq := ⟨(h.spent req hreq).1.frame hl howns, (h.spent req hreq).2⟩
  current := h.current
  holds phase hp := (h.holds phase hp).frame hl howns
  told r hr hid := by
    rcases List.mem_append.1 hr with hr | hr
    · refine ⟨(h.told r hr hid).1, fun he phase ha => ?_⟩
      exact ((h.told r hr hid).2 he phase ha).frame hl fun _ => howns
    · obtain rfl := List.mem_singleton.1 hr
      refine ⟨(hresp hid).1, fun he phase ha => ?_⟩
      rw [(hresp hid).2 he] at ha
      simp at ha

/-- The first copy of the current request is processed; nothing older is queued. -/
theorem Orderly.served (h : Orderly t i c [] (req :: news) responses)
    (ha : c.active = some phase) (hs : Served t t' c phase resp)
    (hserial : resp.serial = c.serial) :
    Orderly t' i c [] news (responses ++ [resp]) where
  serial := h.serial
  named := h.named
  chosen := h.chosen
  spent _ hreq := absurd hreq List.not_mem_nil
  current r hr := h.current r (List.mem_cons_of_mem _ hr)
  holds phase' hp := by
    rw [Client.phase_of_active ha] at hp
    obtain rfl := Option.some.inj hp
    have hold := h.holds phase (Client.phase_of_active ha)
    by_cases hu : phase = .unlock
    · subst hu
      exact Or.inr hs.told
    · exact hold.frame hs.locks (hs.owns hu)
  told r hr hid := by
    rcases List.mem_append.1 hr with hr | hr
    · refine ⟨(h.told r hr hid).1, fun he phase' ha' => ?_⟩
      rw [ha] at ha'
      obtain rfl := Option.some.inj ha'
      exact ((h.told r hr hid).2 he phase ha).frame hs.locks hs.owns
    · obtain rfl := List.mem_singleton.1 hr
      refine ⟨Nat.le_of_eq hserial, fun _ phase' ha' => ?_⟩
      rw [ha] at ha'
      exact Option.some.inj ha' ▸ hs.told

/-! ## The invariant of the whole system -/

structure Exclusive {nclients : Nat} (olds news : Fin nclients → List Request)
    (s : State nclients) : Prop where
  requests : ∀ i, s.requests i = olds i ++ news i
  clients : ∀ i : Fin nclients, Orderly (table s.db) i (s.clients i) (olds i) (news i) s.responses
  holders : ∀ g vv, (table s.db).lock g = some vv → ∃ i, Holder (s.clients i) g vv
  versions : Versions (table s.db)

section System

variable {nclients : Nat} {s s' : State nclients} {i j : Fin nclients}
  {oldss newss : Fin nclients → List Request} {rest : List Request} {vv : Vv}

theorem Exclusive.value_ne (h : Exclusive oldss newss s) (hl : (table s.db).lock g = some vv) :
    vv.value ≠ [] := by
  obtain ⟨j, hj⟩ := h.holders g vv hl
  rw [← hj.value]
  exact (h.clients j).chosen hj.phase_ne

/-- Values tell the clients apart. -/
theorem Exclusive.eq_of_value (h : Exclusive oldss newss s) (hne : (s.clients i).value ≠ [])
    (he : (s.clients j).value = (s.clients i).value) : j = i := by
  have hi := (h.clients i).named.resolve_left hne
  have hj := (h.clients j).named.resolve_left (he ▸ hne)
  rw [he] at hj
  exact Fin.ext (clientKeyPrefix_inj hj hi)

theorem Exclusive.holder (h : Exclusive oldss newss s)
    (ho : Owns (table s.db) (s.clients i) version) :
    Holder (s.clients i) (s.clients i).gid ⟨(s.clients i).value, version⟩ := by
  obtain ⟨j, hj⟩ := h.holders _ _ ho
  obtain rfl : j = i := h.eq_of_value (h.value_ne ho) hj.value
  exact hj

theorem Exclusive.start (nclients : Nat) (h : nclients ≤ maxClients) :
    Exclusive (fun _ => []) (fun _ => []) (start nclients) where
  requests _ := rfl
  clients i :=
    { serial := Nat.mod_eq_of_lt (Nat.lt_of_lt_of_le i.isLt h)
      named := Or.inl rfl
      chosen := fun hp => absurd rfl hp
      spent := fun _ hr => absurd hr List.not_mem_nil
      current := fun _ hr => absurd hr List.not_mem_nil
      holds := fun _ hp => by simp [LockSeq.start, Client.phase] at hp
      told := fun _ hr => absurd hr List.not_mem_nil }
  holders _ _ h := absurd h (by simp [table, LockSeq.start])
  versions := ⟨Int.one_pos, fun _ _ h => absurd h (by simp [table, LockSeq.start])⟩

/-- One client moves; the database stays. -/
theorem Exclusive.setClient (h : Exclusive oldss newss s) {c' : Client} {olds news : List Request}
    (hclients : s'.clients = Function.update s.clients i c')
    (hreq : s'.requests i = olds ++ news) (hother : ∀ j, j ≠ i → s'.requests j = s.requests j)
    (hresp : ∀ r ∈ s'.responses, r ∈ s.responses) (hdb : s'.db = s.db)
    (hok : Orderly (table s.db) i c' olds news s'.responses)
    (hholder : ∀ g vv, (table s.db).lock g = some vv → Holder (s.clients i) g vv →
      Holder c' g vv) :
    Exclusive (Function.update oldss i olds) (Function.update newss i news) s' := by
  refine ⟨requests_update h.requests hreq hother, fun j => ?_, fun g vv hl => ?_,
    hdb ▸ h.versions⟩
  · rw [hdb, hclients]
    by_cases hj : j = i
    · subst hj
      rw [Function.update_self, Function.update_self, Function.update_self]
      exact hok
    · rw [Function.update_of_ne hj, Function.update_of_ne hj, Function.update_of_ne hj]
      exact (h.clients j).mono hresp
  · rw [hdb] at hl
    obtain ⟨j, hj⟩ := h.holders g vv hl
    refine ⟨j, ?_⟩
    rw [hclients]
    by_cases he : j = i
    · subst he
      rw [Function.update_self]
      exact hholder g vv hl hj
    · rw [Function.update_of_ne he]
      exact hj

theorem Exclusive.moved (h : Exclusive oldss newss s) {c' : Client} (responses : List Response)
    (hsub : ∀ r ∈ responses, r ∈ s.responses)
    (hm : Moved (table s.db) i (s.clients i) c' (oldss i ++ newss i) responses) :
    ∃ oldss newss, Exclusive oldss newss ({ s with responses := responses }.setClient i c') := by
  obtain ⟨⟨olds, news, hq, hok⟩, hholder⟩ := hm
  exact ⟨_, _, h.setClient rfl ((h.requests i).trans hq) (fun _ _ => rfl) hsub rfl hok hholder⟩

theorem Exclusive.not_owns (h : Exclusive oldss newss s) (hpc : (s.clients i).pc = .delay)
    (version : VersionType) : ¬ Owns (table s.db) (s.clients i) version := fun ho => by
  refine (h.holder ho).phase_ne ?_
  rw [Client.phase, hpc]

theorem Exclusive.send (h : Exclusive oldss newss s) (hpc : (s.clients i).pc = .send phase) :
    ∃ oldss newss, Exclusive oldss newss
      { s.setClient i { s.clients i with pc := .wait phase } with
        requests := Function.update s.requests i
          (s.requests i ++ [(s.clients i).request phase]) } := by
  have ha : (s.clients i).active = some phase := by rw [Client.active, hpc]
  have hp : (s.clients i).phase = some phase := by rw [Client.phase, hpc]
  have hok : Orderly (table s.db) i { s.clients i with pc := .wait phase } (oldss i)
      (newss i ++ [(s.clients i).request phase]) s.responses := by
    refine (h.clients i).stay (ha ▸ rfl) (hp ▸ rfl) fun req hreq => ?_
    rcases List.mem_append.1 hreq with hreq | hreq
    · exact (h.clients i).current req hreq
    · exact ⟨phase, ha, List.mem_singleton.1 hreq⟩
  refine ⟨_, _, h.setClient rfl ?_ (fun j hj => Function.update_of_ne hj ..) (fun _ hr => hr) rfl
    hok fun g vv _ ho => ⟨ho.gid, ho.value, ?_⟩⟩
  · show Function.update s.requests i _ i = _
    rw [Function.update_self, h.requests, List.append_assoc]
  · have := ho.phase
    rw [hp] at this
    exact this

theorem Exclusive.receive (h : Exclusive oldss newss s) (hpc : (s.clients i).pc = .wait phase)
    {k : Nat} {resp : Response} (hk : s.responses[k]? = some resp)
    (hserial : resp.serial = (s.clients i).serial) :
    ∃ oldss newss, Exclusive oldss newss ({ s with
      responses := s.responses.eraseIdx k }.setClient i ((s.clients i).receive i phase resp)) := by
  have hsub : ∀ r ∈ s.responses.eraseIdx k, r ∈ s.responses := fun _ hr =>
    List.mem_of_mem_eraseIdx hr
  have htold : Told (table s.db) (s.clients i) resp phase :=
    ((h.clients i).told resp (List.mem_of_getElem? hk) (hserial ▸ (h.clients i).serial)).2 hserial
      phase (by rw [Client.active, hpc])
  exact h.moved _ hsub (((h.clients i).mono hsub).receive hpc htold)

theorem Exclusive.loseResponses (h : Exclusive oldss newss s) {responses : List Response}
    (hsub : ∀ r ∈ responses, r ∈ s.responses) :
    Exclusive oldss newss { s with responses := responses } :=
  ⟨h.requests, fun i => (h.clients i).mono hsub, h.holders, h.versions⟩

theorem Exclusive.loseRequest (h : Exclusive oldss newss s) (k : Nat) :
    ∃ oldss newss, Exclusive oldss newss
      { s with requests := Function.update s.requests i ((s.requests i).eraseIdx k) } := by
  obtain ⟨olds, news, hsplit, holds, hnews⟩ := eraseIdx_append_split (oldss i) (newss i) k
  have hcl := h.clients i
  refine ⟨_, _, h.setClient (Function.update_eq_self i s.clients).symm ?_
    (fun j hj => Function.update_of_ne hj ..) (fun _ hr => hr) rfl
    { hcl with
      spent := fun r hr => hcl.spent r (holds.subset hr)
      current := fun r hr => hcl.current r (hnews.subset hr) } fun _ _ _ ho => ho⟩
  show Function.update s.requests i _ i = _
  rw [Function.update_self, h.requests, hsplit]

/-! ## The server -/

/-- The server processes a request of client `i`, which has `olds` and `news` left. -/
theorem Exclusive.serve_of (h : Exclusive oldss newss s) {olds news : List Request}
    (hrest : rest = olds ++ news)
    (hlocks : Locks (table s.db) (s.clients i) (table (s.db.processReq req).1))
    (hi : Orderly (table (s.db.processReq req).1) i (s.clients i) olds news
      (s.responses ++ [(s.db.processReq req).2]))
    (hid : req.serial % maxClients = i) :
    Exclusive (Function.update oldss i olds) (Function.update newss i news)
      (s.serve i req rest) := by
  have hself : (s.serve i req rest).requests i = olds ++ news :=
    (Function.update_self ..).trans hrest
  refine ⟨requests_update h.requests hself fun j hj => Function.update_of_ne hj .., fun j => ?_,
    fun g vv hvv => ?_, hlocks.versions h.versions⟩
  · by_cases hj : j = i
    · subst hj
      rw [Function.update_self, Function.update_self]
      exact hi
    · rw [Function.update_of_ne hj, Function.update_of_ne hj]
      refine (h.clients j).frame hlocks (fun version ho => hlocks.owns (fun hown _ he => ?_) ho)
        fun hid' => ?_
      · exact hj (h.eq_of_value (h.value_ne hown) he)
      · rw [Pancydb.processReq_serial] at hid'
        exact absurd (Fin.ext (hid'.symm.trans hid)) hj
  · rcases hlocks.holder hvv with hold | hnew
    · exact h.holders g vv hold
    · exact ⟨i, hnew⟩

theorem Exclusive.serve (h : Exclusive oldss newss s) (hq : s.requests i = req :: rest) :
    ∃ oldss newss, Exclusive oldss newss (s.serve i req rest) := by
  have hsplit := h.requests i
  rw [hq] at hsplit
  have hcl := h.clients i
  have hresp := Pancydb.processReq_serial s.db req
  rcases ho : oldss i with _ | ⟨r, olds⟩
  · -- a copy of the current request
    rw [ho, List.nil_append] at hsplit
    rw [ho, ← hsplit] at hcl
    obtain ⟨phase, ha, hreq⟩ := hcl.current req List.mem_cons_self
    have hserial : req.serial = (s.clients i).serial := by rw [hreq, Client.request_serial]
    have hs := hcl.serve h.versions ha fun vv => h.value_ne
    rw [← hreq] at hs
    exact ⟨_, _, h.serve_of (List.nil_append rest).symm hs.locks
      (hcl.served ha hs (hresp.trans hserial)) (hserial ▸ hcl.serial)⟩
  · -- a request that is left over
    rw [ho, List.cons_append] at hsplit
    obtain ⟨rfl, hrest⟩ := List.cons.inj hsplit
    rw [ho] at hcl
    obtain ⟨hs, hid, hle, hlt⟩ := hcl.spent req List.mem_cons_self
    obtain ⟨hl, hn⟩ := hs.process
    have hlocks : Locks (table s.db) (s.clients i) (table (s.db.processReq req).1) := .same hl hn
    have hkept : ∀ version, Owns (table s.db) (s.clients i) version →
        Owns (table (s.db.processReq req).1) (s.clients i) version := fun version ho => by
      rw [Owns, hl]
      exact ho
    have hnew : (s.db.processReq req).2.serial % maxClients = i →
        (s.db.processReq req).2.serial ≤ (s.clients i).serial ∧
          ((s.db.processReq req).2.serial = (s.clients i).serial →
            (s.clients i).active = none) := fun _ => by
      rw [hresp]
      refine ⟨hle, fun he => ?_⟩
      by_contra hne
      exact Nat.ne_of_lt (hlt hne) he
    have hi := hcl.frame hlocks hkept hnew
    exact ⟨_, _, h.serve_of hrest hlocks
      { hi with spent := fun r hr => hi.spent r (List.mem_cons_of_mem _ hr) } hid⟩

/-! ## Runs -/

theorem Exclusive.step (h : Exclusive oldss newss s) {a : Label nclients}
    (hs : step s a = some s') : ∃ oldss newss, Exclusive oldss newss s' := by
  have hall : ∀ r ∈ s.responses, r ∈ s.responses := fun _ hr => hr
  cases step_stepped hs with
  | @choose cid gid nvalues hex hpc =>
    exact h.moved s.responses hall
      ((h.clients cid).choose hpc (h.not_owns hpc) gid nvalues hex)
  | send hpc => exact h.send hpc
  | @timeout cid phase hpc =>
    exact h.moved s.responses hall
      ((h.clients cid).retry (by rw [Client.active, hpc]) (by rw [Client.phase, hpc]))
  | ignore => exact ⟨_, _, h.loseResponses fun r hr => List.mem_of_mem_eraseIdx hr⟩
  | receive hpc hk hserial => exact h.receive hpc hk hserial
  | @resume cid phase hpc => exact h.moved s.responses hall ((h.clients cid).resume hpc)
  | serve hq => exact h.serve hq
  | loseRequest cid k => exact h.loseRequest k
  | loseResponse => exact ⟨_, _, h.loseResponses fun r hr => List.mem_of_mem_eraseIdx hr⟩

theorem reachable_exclusive (h : (system nclients).Reachable s) :
    ∃ oldss newss, Exclusive oldss newss s := by
  refine Transition.Machine.Reachable.invariant
    (P := fun s => ∃ oldss newss, Exclusive oldss newss s) ?_ ?_ h
  · rintro _ ⟨hn, rfl⟩
    exact ⟨_, _, Exclusive.start nclients hn⟩
  · rintro s a s' ⟨oldss, newss, h⟩ hs
    exact h.step hs

/-- The client is past `++lock_complete` and not past `++clear_complete`. -/
def Working (c : Client) : Prop := c.phase = some .write ∨ c.phase = some .clear

/-- A PUT or a REMOVE of a value key of `g`. -/
def ChangesValue (req : Request) (g : Nat) : Prop :=
  (∃ m v, req = .put m ∧ m.key = makeValueKey g v) ∨
    ∃ m v, req = .remove m ∧ m.key = makeValueKey g v

theorem Orderly.owns (h : Orderly t i c olds news responses) (hw : Working c) :
    Owns t c c.lockVersion := by
  rcases hw with hp | hp
  · exact h.holds _ hp
  · exact h.holds _ hp

theorem Spent.owns_of_changes (h : Spent t c req) (hch : ChangesValue req g) :
    c.gid = g ∧ ∃ version, Owns t c version := by
  cases h with
  | lock =>
    rcases hch with ⟨m, v, hm, _⟩ | ⟨m, v, hm, _⟩
    · exact absurd hm (by simp [lockRequest])
    · exact absurd hm (by simp [lockRequest])
  | write ho =>
    rcases hch with ⟨m, v, hm, hkey⟩ | ⟨m, v, hm, _⟩
    · rw [← Request.put.inj hm] at hkey
      exact ⟨(makeValueKey_inj hkey).1, _, ho⟩
    · exact absurd hm (by simp [writeRequest])
  | clear ho =>
    rcases hch with ⟨m, v, hm, _⟩ | ⟨m, v, hm, hkey⟩
    · exact absurd hm (by simp [clearRequest])
    · rw [← Request.remove.inj hm] at hkey
      exact ⟨(makeValueKey_inj hkey).1, _, ho⟩
  | unlock =>
    rcases hch with ⟨m, v, hm, _⟩ | ⟨m, v, hm, hkey⟩
    · exact absurd hm (by simp [unlockRequest])
    · rw [← Request.remove.inj hm] at hkey
      exact absurd hkey (makeLockKey_ne_makeValueKey _ g v)

/-- Only the owner of a group has a request for its values in its queue. -/
theorem Orderly.owns_of_changes (h : Orderly t i c olds news responses) (hreq : req ∈ olds ++ news)
    (hch : ChangesValue req g) : c.gid = g ∧ ∃ version, Owns t c version := by
  rcases List.mem_append.1 hreq with hreq | hreq
  · exact (h.spent req hreq).1.owns_of_changes hch
  · obtain ⟨phase, ha, rfl⟩ := h.current req hreq
    have hholds := h.holds phase (Client.phase_of_active ha)
    cases phase with
    | lock =>
      rcases hch with ⟨m, v, hm, _⟩ | ⟨m, v, hm, _⟩
      · exact absurd hm (by simp [Client.request, lockRequest])
      · exact absurd hm (by simp [Client.request, lockRequest])
    | write => exact (Spent.write hholds).owns_of_changes hch
    | clear => exact (Spent.clear hholds).owns_of_changes hch
    | unlock =>
      rcases hch with ⟨m, v, hm, _⟩ | ⟨m, v, hm, hkey⟩
      · exact absurd hm (by simp [Client.request, unlockRequest])
      · rw [← Request.remove.inj hm] at hkey
        exact absurd hkey (makeLockKey_ne_makeValueKey _ g v)

/-- At most one client works on a group; the lock holds its value and its version; and
the server processes no change to the values of a group but from the client whose value
is in the lock. -/
theorem mutual_exclusion (h : (system nclients).Reachable s) :
    (∀ i j, Working (s.clients i) → Working (s.clients j) →
      (s.clients i).gid = (s.clients j).gid → i = j) ∧
    (∀ i, Working (s.clients i) → (table s.db).lock (s.clients i).gid =
      some ⟨(s.clients i).value, (s.clients i).lockVersion⟩) ∧
    ∀ i s', step s (.serve i) = some s' → ∀ req, (s.requests i).head? = some req →
      ∀ g, ChangesValue req g → ∃ vv, (table s.db).lock g = some vv ∧
        vv.value = (s.clients i).value ∧ clientKeyPrefix i <+: vv.value := by
  obtain ⟨oldss, newss, hx⟩ := reachable_exclusive h
  refine ⟨fun i j hi hj hg => ?_, fun i hi => (hx.clients i).owns hi,
    fun i s' _ req hreq g hch => ?_⟩
  · have hoi := (hx.clients i).owns hi
    have hoj := (hx.clients j).owns hj
    rw [Owns, ← hg, hoi, Option.some.injEq] at hoj
    exact hx.eq_of_value (hx.value_ne ((hx.clients j).owns hj)) (congrArg Vv.value hoj)
  · have hmem : req ∈ oldss i ++ newss i := by
      rw [← hx.requests]
      exact List.mem_of_mem_head? hreq
    obtain ⟨hg, version, ho⟩ := (hx.clients i).owns_of_changes hmem hch
    rw [Owns, hg] at ho
    exact ⟨_, ho, rfl, (hx.clients i).named.resolve_left (hx.value_ne ho)⟩

end System

/-! ## A client at work -/

/-- Client 0 gets the lock of group 0 and sends its first value; client 1 waits. -/
def workingRun : List (Label 2) :=
  [.choose 0 0 1 (List.replicate 7 '0'), .send 0, .serve 0, .receive 0 0, .send 0,
   .choose 1 0 1 (List.replicate 7 '1'), .send 1, .serve 1]

def workingState : State 2 :=
  ((system 2).exec (start 2) workingRun).get (by decide +kernel)

theorem mutual_exclusion_working :
    Working (workingState.clients 0) ∧ (workingState.requests 0).head?.isSome = true ∧
      (table workingState.db).lock (workingState.clients 0).gid =
        some ⟨(workingState.clients 0).value, (workingState.clients 0).lockVersion⟩ := by
  have hinit : (system 2).init (start 2) := ⟨by decide, rfl⟩
  have hwork : (workingState.clients 0).phase = some .write := by decide +kernel
  exact ⟨Or.inl hwork, by decide +kernel,
    (mutual_exclusion (.of_get hinit _)).2.1 0 (Or.inl hwork)⟩

end Exclusion
end LockSeq
end Psets
