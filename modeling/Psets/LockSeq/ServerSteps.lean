/-
The steps of the server keep the invariant.

The head of a client's queue is harmless or current.  A current request takes the
group of its client one step ahead; no other client owns that group, and a client
that owns nothing asks for nothing of it.
-/
import Psets.LockSeq.ClientSteps

namespace Psets
namespace LockSeq

open Pancy

variable {t t' : Table} {i j : Nat} {c : Client} {olds news : List Request}
  {responses : List Response} {req : Request} {phase : Phase}

/-! ## What other clients see -/

/-- The table changed where `c` owns nothing. -/
structure Frame (t t' : Table) (c : Client) : Prop where
  lock : ∀ version, Owns t c version → t'.lock c.gid = t.lock c.gid
  vals : ∀ version, Owns t c version → t'.vals c.gid = t.vals c.gid
  fresh : ∀ g vv, t'.lock g = some vv →
    t.lock g = some vv ∨ t.next ≤ vv.version ∧ vv.version < t'.next
  next : t.next ≤ t'.next

theorem Frame.owns (h : Frame t t' c) {version : VersionType} (ho : Owns t c version) :
    Owns t' c version := by
  rw [Owns, h.lock version ho]
  exact ho

theorem Frame.stale (h : Frame t t' c) {g : Nat} {version : VersionType}
    (hs : Stale t g version) : Stale t' g version := by
  obtain ⟨h0, hlt, hne⟩ := hs
  refine ⟨h0, Int.lt_of_lt_of_le hlt h.next, fun vv hvv => ?_⟩
  rcases h.fresh g vv hvv with hold | hnew
  · exact hne vv hold
  · exact fun he => absurd (he ▸ hlt) (Int.not_lt.2 hnew.1)

theorem Frame.harmless (h : Frame t t' c) (hh : Harmless t c req) : Harmless t' c req := by
  cases hh with
  | lock ho hne => exact .lock (h.owns ho) hne
  | write ho hlt hval => exact .write (h.owns ho) hlt (by rw [h.vals _ ho]; exact hval)
  | clear ho hle hval => exact .clear (h.owns ho) hle (by rw [h.vals _ ho]; exact hval)
  | unlock hs => exact .unlock (h.stale hs)

theorem Frame.inPhase (h : Frame t t' c) {count : Nat} (hp : InPhase t c count phase) :
    InPhase t' c count phase := by
  cases phase with
  | lock => trivial
  | write =>
    obtain ⟨ho, hlt, hs⟩ := hp
    exact ⟨h.owns ho, hlt, by rw [h.vals _ ho]; exact hs⟩
  | clear =>
    obtain ⟨ho, hle, hlt, hs⟩ := hp
    exact ⟨h.owns ho, hle, hlt, by rw [h.vals _ ho]; exact hs⟩
  | unlock =>
    rcases hp with ⟨ho, hs, hc⟩ | ⟨hs, hc⟩
    · exact Or.inl ⟨h.owns ho, by rw [h.vals _ ho]; exact hs, hc⟩
    · exact Or.inr ⟨h.stale hs, hc⟩

theorem Frame.progress (h : Frame t t' c) {count : Nat} (hp : Progress t c count) :
    Progress t' c count := by
  rw [Progress] at hp ⊢
  split
  · trivial
  · rename_i he
    rw [he] at hp
    exact h.inPhase hp
  · rename_i he
    rw [he] at hp
    exact h.inPhase hp
  · rename_i he
    rw [he] at hp
    exact h.inPhase hp
  · rename_i ph he
    rw [he] at hp
    cases ph with
    | lock => trivial
    | write =>
      obtain ⟨ho, hle, hs⟩ := hp
      exact ⟨h.owns ho, hle, by rw [h.vals _ ho]; exact hs⟩
    | clear =>
      obtain ⟨ho, hle, hle', hs⟩ := hp
      exact ⟨h.owns ho, hle, hle', by rw [h.vals _ ho]; exact hs⟩
    | unlock => exact hp

/-- In the write and the clear phase the client owns its group. -/
theorem Frame.replyOk (h : Frame t t' c) {resp : Response} {count : Nat}
    (hp : InPhase t c count phase) (hr : ReplyOk t c resp phase) : ReplyOk t' c resp phase := by
  cases phase with
  | lock =>
    obtain ⟨m, hm, hcode, hown⟩ := hr
    exact ⟨m, hm, hcode, fun hw => h.owns (hown hw)⟩
  | write =>
    obtain ⟨m, hm, hok, hs⟩ := hr
    exact ⟨m, hm, hok, by rw [h.vals _ hp.1]; exact hs⟩
  | clear =>
    obtain ⟨m, hm, hs, hcode⟩ := hr
    exact ⟨m, hm, by rw [h.vals _ hp.1]; exact ⟨hs, hcode⟩⟩
  | unlock =>
    obtain ⟨m, hm, hs, hcode⟩ := hr
    exact ⟨m, hm, h.stale hs, hcode⟩

theorem Progress.inPhase {count : Nat} (h : Progress t c count) (ha : c.active = some phase) :
    InPhase t c count phase := by
  rw [Client.active] at ha
  rw [Progress] at h
  rcases hpc : c.pc with _ | ph | ph | ph | ⟨ph, e⟩ <;> rw [hpc] at ha h
  · simp at ha
  · exact Option.some.inj ha ▸ h
  · exact Option.some.inj ha ▸ h
  · cases ph with
    | lock => exact Option.some.inj ha ▸ trivial
    | write | clear | unlock => simp at ha
  · exact Option.some.inj ha ▸ h

/-- A response to another client, or to an old request of this one, says nothing
about the current request. -/
theorem ClientOk.frame (h : ClientOk t i c olds news responses) (hf : Frame t t' c)
    (resp : Response) (hresp : resp.serial % maxClients = i → resp.serial ≤ c.serial ∧
      (resp.serial = c.serial → c.active = none)) :
    ClientOk t' i c olds news (responses ++ [resp]) where
  serial := h.serial
  named := h.named
  chosen := h.chosen
  harmless req hreq := ⟨hf.harmless (h.harmless req hreq).1, (h.harmless req hreq).2⟩
  current := h.current
  progress := hf.progress h.progress
  replies r hr hid := by
    rcases List.mem_append.1 hr with hr | hr
    · refine ⟨(h.replies r hr hid).1, fun he phase ha => ?_⟩
      exact hf.replyOk (h.progress.inPhase ha) ((h.replies r hr hid).2 he phase ha)
    · obtain rfl := List.mem_singleton.1 hr
      refine ⟨(hresp hid).1, fun he phase ha => ?_⟩
      rw [(hresp hid).2 he] at ha
      exact absurd ha (by simp)

/-! ## Processing a request -/

/-- What the server may do to the table when it processes a request of `c`. -/
structure Change (t t' : Table) (c : Client) : Prop where
  elsewhere : ∀ g, g ≠ c.gid → t'.lock g = t.lock g ∧ t'.vals g = t.vals g
  group : t'.lock c.gid = t.lock c.gid ∧ t'.vals c.gid = t.vals c.gid ∨
    (∀ vv, t.lock c.gid = some vv → vv.value = c.value) ∧
      (t'.lock c.gid = none ∧ Shape (t'.vals c.gid) [] 0 0 ∨
        ∃ vv, t'.lock c.gid = some vv ∧ Owner t' c c.gid vv)
  fresh : ∀ g vv, t'.lock g = some vv →
    t.lock g = some vv ∨ t.next ≤ vv.version ∧ vv.version < t'.next
  next : t.next ≤ t'.next

theorem Change.of_same (hl : t'.lock = t.lock) (hv : t'.vals = t.vals) (hn : t.next ≤ t'.next) :
    Change t t' c where
  elsewhere _ _ := ⟨by rw [hl], by rw [hv]⟩
  group := Or.inl ⟨by rw [hl], by rw [hv]⟩
  fresh _ _ h := Or.inl (by rw [← hl]; exact h)
  next := hn

theorem Change.none : Change t t c := .of_same rfl rfl (Int.le_refl _)

theorem Change.frame (h : Change t t' c) {d : Client} (hd : d.gid = c.gid → d.value ≠ c.value) :
    Frame t t' d := by
  have same {version : VersionType} (ho : Owns t d version) :
      t'.lock d.gid = t.lock d.gid ∧ t'.vals d.gid = t.vals d.gid := by
    by_cases hg : d.gid = c.gid
    · rcases h.group with hsame | ⟨hall, _⟩
      · rw [hg]
        exact hsame
      · rw [Owns, hg] at ho
        exact absurd (hall _ ho) (hd hg)
    · exact h.elsewhere _ hg
  exact ⟨fun _ ho => (same ho).1, fun _ ho => (same ho).2, h.fresh, h.next⟩

/-- What a copy of the current request does when `count` more are queued. -/
structure Served (t t' : Table) (c : Client) (count : Nat) (phase : Phase) (resp : Response) :
    Prop where
  change : Change t t' c
  inPhase : InPhase t' c count phase
  reply : ReplyOk t' c resp phase
  replies : ∀ old, ReplyOk t c old phase → ReplyOk t' c old phase

theorem Client.phase_of_active (h : c.active = some phase) : c.phase = some phase := by
  rw [active] at h
  rw [Client.phase]
  rcases hpc : c.pc with _ | ph | ph | ph | ⟨ph, e⟩ <;> rw [hpc] at h
  · simp at h
  · exact h
  · exact h
  · cases ph with
    | lock => exact h
    | write | clear | unlock => simp at h
  · exact h

variable {db : Pancydb} {count : Nat}

/-- The owner of a group that it works on. -/
theorem Owns.owner (ho : Owns t' c c.lockVersion) (ha : c.active = some phase)
    (hne : phase ≠ .lock) : ∃ vv, t'.lock c.gid = some vv ∧ Owner t' c c.gid vv :=
  ⟨_, ho, rfl, rfl, Or.inr ⟨⟨phase, Client.phase_of_active ha, hne⟩, rfl⟩⟩

theorem Owns.entitled {version : VersionType} (ho : Owns t c version) :
    ∀ vv, t.lock c.gid = some vv → vv.value = c.value := by
  intro vv hvv
  rw [Owns, hvv, Option.some.injEq] at ho
  rw [ho]

theorem served_lock (ha : c.active = some .lock)
    (hvalue : ∀ vv, (table db).lock c.gid = some vv → vv.value ≠ [])
    (hfree : (table db).lock c.gid = none → Shape ((table db).vals c.gid) [] 0 0) :
    Served (table db) (table (db.processReq (c.request .lock)).1) c count .lock
      (db.processReq (c.request .lock)).2 := by
  rw [Client.request]
  rcases hl : (table db).lock c.gid with _ | vv
  · obtain ⟨ht, hresp⟩ := process_lock_free c.serial c.gid c.value hl
    rw [ht, hresp]
    have howns : Owns ((table db).acquire c.gid c.value) c (table db).next :=
      Table.acquire_lock_self ..
    refine ⟨⟨fun g hg => ⟨Function.update_of_ne hg .., rfl⟩, Or.inr ⟨?_, Or.inr ?_⟩, ?_, ?_⟩,
      trivial, ⟨_, rfl, Or.inl rfl, fun _ => howns⟩, ?_⟩
    · intro vv hvv
      rw [hl] at hvv
      exact absurd hvv (by simp)
    · exact ⟨_, howns, rfl, rfl,
        Or.inl ⟨Client.phase_of_active ha, hfree hl⟩⟩
    · intro g vv hvv
      by_cases hg : g = c.gid
      · subst hg
        rw [howns, Option.some.injEq] at hvv
        rw [← hvv]
        exact Or.inr ⟨Int.le_refl _, Int.lt_succ _⟩
      · exact Or.inl ((Function.update_of_ne hg ..).symm.trans hvv)
    · exact Int.le_of_lt (Int.lt_succ _)
    · rintro old ⟨m, hm, hcode, hown⟩
      refine ⟨m, hm, hcode, fun hw => ?_⟩
      have := hown hw
      rw [Owns, hl] at this
      exact absurd this (by simp)
  · rw [process_lock_held c.serial c.gid c.value hl (hvalue vv hl)]
    refine ⟨.none, trivial, ⟨_, rfl, Or.inr rfl, fun hw => ?_⟩, fun _ h => h⟩
    have hval : vv.value = c.value := hw.resolve_left (by simp [Pancydb.modNoMatch])
    rw [Owns, hl, ← hval]
    rfl

theorem served_write (ha : c.active = some .write)
    (hp : InPhase (table db) c (count + 1) .write) :
    Served (table db) (table (db.processReq (c.request .write)).1) c count .write
      (db.processReq (c.request .write)).2 := by
  obtain ⟨ho, hlt, hs⟩ := hp
  obtain ⟨ht, m, hresp, hok⟩ := process_write c.serial c.gid db c.n c.value
  rw [Client.request, ht, hresp]
  have howns : Owns ((table db).write c.gid c.n c.value) c c.lockVersion := ho
  have hshape : Shape (((table db).write c.gid c.n c.value).vals c.gid) c.value (c.n + 1)
      (c.n + 1) := by
    rw [Table.write_vals_self]
    rcases hs with hs | hs
    · exact hs.write
    · rw [Function.update_eq_self_iff.2 (hs.own (Nat.lt_succ_self _)).symm]
      exact hs
  refine ⟨⟨fun g hg => ⟨rfl, Function.update_of_ne hg ..⟩,
    Or.inr ⟨ho.entitled, Or.inr (howns.owner ha (by simp))⟩, fun _ _ h => Or.inl h,
    Int.le_of_lt (Int.lt_succ _)⟩, ⟨howns, hlt, Or.inr hshape⟩, ⟨m, rfl, hok, hshape⟩, ?_⟩
  rintro old ⟨m, hm, hok, _⟩
  exact ⟨m, hm, hok, hshape⟩

theorem served_clear (ha : c.active = some .clear)
    (hp : InPhase (table db) c (count + 1) .clear) (hsent : c.sent ≤ c.tries + 1) :
    Served (table db) (table (db.processReq (c.request .clear)).1) c count .clear
      (db.processReq (c.request .clear)).2 := by
  obtain ⟨ho, hle, hlt, hs⟩ := hp
  rw [Client.request]
  rcases hval : (table db).vals c.gid c.n with _ | o
  · obtain ⟨ht, m, hresp, hnf⟩ := process_clear_absent c.serial c.gid c.n hval
    rw [ht, hresp]
    rcases hs with ⟨hs, hc⟩ | ⟨hs, hc⟩
    · have hnext := hs.of_absent hle hval (Nat.le_succ c.n)
      have hend := hs.of_absent hle hval (Nat.le_of_lt hlt)
      exact ⟨.none, ⟨ho, hle, hlt, Or.inr ⟨hnext, hc⟩⟩,
        ⟨m, rfl, hnext, Or.inr ⟨hnf, Or.inr hend⟩⟩, fun _ h => h⟩
    · exact ⟨.none, ⟨ho, hle, hlt, Or.inr ⟨hs, by omega⟩⟩,
        ⟨m, rfl, hs, Or.inr ⟨hnf, Or.inl (by omega)⟩⟩, fun _ h => h⟩
  · obtain ⟨ht, m, hresp, hok⟩ := process_clear_present c.serial c.gid c.n hval
    rw [ht, hresp]
    have howns : Owns ((table db).clear c.gid c.n) c c.lockVersion := ho
    have hpresent {j : Nat} (hj : c.n < j) :
        ¬ Shape ((table db).vals c.gid) c.value c.nvalues j := fun h => by
      rw [h.gap hle hj] at hval
      exact absurd hval (by simp)
    obtain ⟨hs, hc⟩ := hs.resolve_right fun h => hpresent (Nat.lt_succ_self _) h.1
    have hshape : Shape (((table db).clear c.gid c.n).vals c.gid) c.value c.nvalues (c.n + 1) := by
      rw [Table.clear_vals_self]
      exact hs.clear hle
    refine ⟨⟨fun g hg => ⟨rfl, Function.update_of_ne hg ..⟩,
      Or.inr ⟨ho.entitled, Or.inr (howns.owner ha (by simp))⟩, fun _ _ h => Or.inl h,
      Int.le_of_lt (Int.lt_succ _)⟩, ⟨howns, hle, hlt, Or.inr ⟨hshape, hc⟩⟩,
      ⟨m, rfl, hshape, Or.inl hok⟩, ?_⟩
    rintro old ⟨m, hm, hold, _⟩
    exact absurd hold (hpresent (Nat.lt_succ_self _))

theorem served_unlock (hch : Chosen i c) (hp : InPhase (table db) c (count + 1) .unlock)
    (hversion : Owns (table db) c c.lockVersion → 0 ≤ c.lockVersion ∧
      c.lockVersion < (table db).next) (hsent : c.sent ≤ c.tries + 1) :
    Served (table db) (table (db.processReq (c.request .unlock)).1) c count .unlock
      (db.processReq (c.request .unlock)).2 := by
  rw [Client.request]
  rcases hp with ⟨ho, hs, hc⟩ | ⟨hs, hc⟩
  · obtain ⟨ht, m, hresp, hok⟩ := process_unlock_held c.serial c.gid ho
    rw [ht, hresp]
    have hnone : ((table db).release c.gid).lock c.gid = none := Table.release_lock_self ..
    have hstale : Stale ((table db).release c.gid) c.gid c.lockVersion := by
      refine ⟨(hversion ho).1, Int.lt_trans (hversion ho).2 (Int.lt_succ _), fun vv hvv => ?_⟩
      rw [hnone] at hvv
      exact absurd hvv (by simp)
    refine ⟨⟨fun g hg => ⟨Function.update_of_ne hg .., rfl⟩,
      Or.inr ⟨ho.entitled, Or.inl ⟨hnone, hs.cleared hch.nvalues.2 hch.value_ne⟩⟩, ?_,
      Int.le_of_lt (Int.lt_succ _)⟩, Or.inr ⟨hstale, hc⟩, ⟨m, rfl, hstale, Or.inl hok⟩, ?_⟩
    · intro g vv hvv
      by_cases hg : g = c.gid
      · rw [hg, hnone] at hvv
        exact absurd hvv (by simp)
      · exact Or.inl ((Function.update_of_ne hg ..).symm.trans hvv)
    · rintro old ⟨m, _, hold, _⟩
      exact absurd rfl (hold.2.2 _ ho)
  · obtain ⟨ht, m, hresp, _⟩ := process_unlock_stale c.serial c.gid hs.1 hs.2.2
    rw [ht, hresp]
    exact ⟨.none, Or.inr ⟨hs, by omega⟩, ⟨m, rfl, hs, Or.inr (by omega)⟩, fun _ h => h⟩

/-! ## The keys of the database -/

def requestKey : Request → Str
  | .get req => req.key
  | .put req => req.key
  | .cas req => req.key
  | .remove req => req.key

/-- Processing a request adds no key but its own. -/
theorem find?_processReq {key : Str} {vv : Vv}
    (h : (db.processReq req).1.db.find? key = some vv) :
    key = requestKey req ∨ ∃ vv, db.db.find? key = some vv := by
  by_cases he : key = requestKey req
  · exact Or.inl he
  · refine Or.inr ⟨vv, ?_⟩
    cases req with
    | get req => exact h
    | put req =>
      simp only [Pancydb.processReq, Pancydb.processPut] at h
      split at h
      · exact h
      · rwa [Pancydb.find?_store, if_neg (show key ≠ req.key from he)] at h
    | cas req =>
      simp only [Pancydb.processReq, Pancydb.processCas] at h
      split at h
      · exact h
      · rwa [Pancydb.find?_store, if_neg (show key ≠ req.key from he)] at h
    | remove req =>
      simp only [Pancydb.processReq, Pancydb.processRemove] at h
      split at h
      · exact h
      · split at h
        · exact h
        · rwa [Pancydb.find?_doRemove, if_neg (show key ≠ req.key from he)] at h

theorem TableOk.process (h : TableOk db)
    (hkey : ClientKey (requestKey req) ∨ ∃ vv, db.db.find? (requestKey req) = some vv)
    (hfresh : ∀ g vv, (table (db.processReq req).1).lock g = some vv → (table db).lock g = some vv ∨
      (table db).next ≤ vv.version ∧ vv.version < (table (db.processReq req).1).next)
    (hnext : (table db).next ≤ (table (db.processReq req).1).next) :
    TableOk (db.processReq req).1 where
  keys key vv hfind := by
    rcases find?_processReq hfind with rfl | ⟨vv', hold⟩
    · exact hkey.elim id fun ⟨vv', hold⟩ => h.keys _ vv' hold
    · exact h.keys key vv' hold
  next := Int.lt_of_lt_of_le h.next hnext
  versions g vv hvv := by
    rcases hfresh g vv hvv with hold | hnew
    · exact ⟨(h.versions g vv hold).1, Int.lt_of_lt_of_le (h.versions g vv hold).2 hnext⟩
    · exact ⟨Int.lt_of_lt_of_le h.next hnew.1, hnew.2⟩

theorem Chosen.clientKey (h : Chosen i c) (phase : Phase) :
    ClientKey (requestKey (c.request phase)) := by
  cases phase with
  | lock | unlock => exact ⟨c.gid, h.gid, Or.inl rfl⟩
  | write | clear => exact ⟨c.gid, h.gid, Or.inr ⟨c.n, rfl⟩⟩

theorem Harmless.process (h : Harmless (table db) c req) (hok : TableOk db) :
    (table (db.processReq req).1).lock = (table db).lock ∧
      (table (db.processReq req).1).vals = (table db).vals ∧
      (table db).next ≤ (table (db.processReq req).1).next ∧ TableOk (db.processReq req).1 := by
  cases h with
  | lock ho hne =>
    rw [process_lock_held _ _ _ ho hne]
    exact ⟨rfl, rfl, Int.le_refl _, hok⟩
  | @write serial v version ho hlt hval =>
    obtain ⟨ht, _⟩ := process_write serial c.gid db v c.value
    obtain ⟨vv, hfind, _⟩ := Option.map_eq_some_iff.1 hval
    have hsame : Function.update ((table db).vals c.gid) v (some c.value) =
        (table db).vals c.gid := Function.update_eq_self_iff.2 hval.symm
    have hvals : ((table db).write c.gid v c.value).vals = (table db).vals :=
      Function.update_eq_self_iff.2 hsame
    have hnext : (table db).next ≤ ((table db).write c.gid v c.value).next :=
      Int.le_of_lt (Int.lt_succ _)
    rw [ht]
    refine ⟨rfl, hvals, hnext, hok.process (Or.inr ⟨vv, hfind⟩) (fun g vv h => ?_) ?_⟩
    · rw [ht] at h
      exact Or.inl h
    · rw [ht]
      exact hnext
  | clear ho hle hval =>
    obtain ⟨hdb, _⟩ := process_clear_absent _ c.gid _ hval
    rw [hdb]
    exact ⟨rfl, rfl, Int.le_refl _, hok⟩
  | unlock hs =>
    obtain ⟨hdb, _⟩ := process_unlock_stale _ _ hs.1 hs.2.2
    rw [hdb]
    exact ⟨rfl, rfl, Int.le_refl _, hok⟩

/-! ## The invariant of the whole system -/

variable {nclients : Nat} {s : State nclients} {i j : Fin nclients} {g : Nat} {vv : Vv}
  {oldss newss : Fin nclients → List Request} {rest : List Request}

/-- The queue of one client changes, and its two parts with it. -/
theorem requests_update {queue queue' : Fin nclients → List Request} {olds news : List Request}
    (h : ∀ j, queue j = oldss j ++ newss j) (hself : queue' i = olds ++ news)
    (hother : ∀ j, j ≠ i → queue' j = queue j) (j : Fin nclients) :
    queue' j = Function.update oldss i olds j ++ Function.update newss i news j := by
  by_cases hj : j = i
  · subst hj
    rw [Function.update_self, Function.update_self, hself]
  · rw [Function.update_of_ne hj, Function.update_of_ne hj, hother j hj, h]

theorem Owner.congr {d : Client} (h : Owner t d g vv) (hv : t'.vals g = t.vals g) :
    Owner t' d g vv := ⟨h.gid, h.value, by rw [hv]; exact h.phase⟩

theorem GroupOk.congr {clients : Fin nclients → Client} (h : GroupOk t clients g)
    (hl : t'.lock g = t.lock g) (hv : t'.vals g = t.vals g) : GroupOk t' clients g := by
  rw [GroupOk] at h ⊢
  rw [hl]
  split
  · rename_i hn
    rw [hn] at h
    rw [hv]
    exact h
  · rename_i vv hs
    rw [hs] at h
    obtain ⟨i, ho⟩ := h
    exact ⟨i, ho.congr hv⟩

theorem GroupOk.free {clients : Fin nclients → Client} (h : GroupOk t clients g)
    (hl : t.lock g = none) : Shape (t.vals g) [] 0 0 := by
  rw [GroupOk, hl] at h
  exact h

theorem GroupOk.held {clients : Fin nclients → Client} (h : GroupOk t clients g)
    (hl : t.lock g = some vv) : ∃ i, Owner t (clients i) g vv := by
  rw [GroupOk, hl] at h
  exact h

theorem Owner.chosen (h : Inv oldss newss s) {t : Table} (ho : Owner t (s.clients i) g vv) :
    Chosen i (s.clients i) := by
  refine (h.clients i).chosen fun hpc => ?_
  have hphase : (s.clients i).phase = none := by rw [Client.phase, hpc]
  rcases ho.phase with hp | ⟨⟨ph, hp, _⟩, _⟩
  · rw [hphase] at hp
    exact absurd hp.1 (by simp)
  · rw [hphase] at hp
    exact absurd hp (by simp)

/-- Values tell the clients apart. -/
theorem Inv.eq_of_value (h : Inv oldss newss s) (hi : Chosen i (s.clients i))
    (he : (s.clients j).value = (s.clients i).value) : j = i := by
  have hj := (h.clients j).named
  rw [he] at hj
  exact Fin.ext (clientKeyPrefix_inj (hj.resolve_left hi.value_ne) hi.named)

theorem Inv.owner (h : Inv oldss newss s) {version : VersionType}
    (ho : Owns (table s.db) (s.clients i) version) :
    Owner (table s.db) (s.clients i) (s.clients i).gid ⟨(s.clients i).value, version⟩ := by
  obtain ⟨j, hj⟩ := (h.groups _).held ho
  obtain rfl : i = j := h.eq_of_value (hj.chosen h) hj.value.symm
  exact hj

theorem Inv.lock_value_ne (h : Inv oldss newss s) (hl : (table s.db).lock g = some vv) :
    vv.value ≠ [] := by
  obtain ⟨j, hj⟩ := (h.groups g).held hl
  rw [← hj.value]
  exact (hj.chosen h).value_ne

theorem InPhase.progress {c : Client} {count : Nat} (h : InPhase t c count phase)
    (ha : c.active = some phase) : Progress t c count := by
  rw [Client.active] at ha
  rw [Progress]
  rcases hpc : c.pc with _ | ph | ph | ph | ⟨ph, e⟩ <;> rw [hpc] at ha
  · simp at ha
  · exact Option.some.inj ha ▸ h
  · exact Option.some.inj ha ▸ h
  · cases ph with
    | lock => trivial
    | write | clear | unlock => simp at ha
  · exact Option.some.inj ha ▸ h

theorem Client.sent_le (c : Client) : c.sent ≤ c.tries + 1 := by
  rw [sent]
  split
  · exact Nat.le_succ _
  · exact Nat.le_refl _

/-- The current request of a client is processed. -/
theorem Inv.served (h : Inv oldss newss s) (ha : (s.clients i).active = some phase) {count : Nat}
    (hp : InPhase (table s.db) (s.clients i) (count + 1) phase) (hch : Chosen i (s.clients i)) :
    Served (table s.db) (table (s.db.processReq ((s.clients i).request phase)).1) (s.clients i)
      count phase (s.db.processReq ((s.clients i).request phase)).2 := by
  cases phase with
  | lock => exact served_lock ha (fun vv => h.lock_value_ne) (h.groups _).free
  | write => exact served_write ha hp
  | clear => exact served_clear ha hp (Client.sent_le _)
  | unlock =>
    exact served_unlock hch hp (fun ho => ⟨Int.le_of_lt (h.tableOk.versions _ _ ho).1,
      (h.tableOk.versions _ _ ho).2⟩) (Client.sent_le _)

theorem Inv.serve_old (h : Inv oldss newss s) {olds : List Request}
    (holds : oldss i = req :: olds) (hrest : rest = olds ++ newss i) :
    Inv (Function.update oldss i olds) newss (s.serve i req rest) := by
  have hmem : req ∈ oldss i := by
    rw [holds]
    exact List.mem_cons_self
  obtain ⟨hh, hid, hle, hlt⟩ := (h.clients i).harmless req hmem
  obtain ⟨hl, hv, hn, htable⟩ := hh.process h.tableOk
  have hserial := Pancydb.processReq_serial s.db req
  have hframe (d : Client) : Frame (table s.db) (table (s.db.processReq req).1) d :=
    ⟨fun _ _ => by rw [hl], fun _ _ => by rw [hv], fun _ _ h => Or.inl (by rw [← hl]; exact h), hn⟩
  refine ⟨fun j => ?_, fun j => ?_, fun g => (h.groups g).congr (by rw [← hl]; rfl)
    (by rw [← hv]; rfl), htable⟩
  · have hself : (s.serve i req rest).requests i = olds ++ newss i :=
      (Function.update_self ..).trans hrest
    have hqueue := requests_update h.requests hself (fun j hj => Function.update_of_ne hj ..) j
    rwa [Function.update_eq_self] at hqueue
  · have hj := (h.clients j).frame (hframe _) (s.db.processReq req).2 fun hid' => by
      rw [hserial] at hid' ⊢
      obtain rfl : i = j := Fin.ext (hid.symm.trans hid')
      refine ⟨hle, fun he => ?_⟩
      by_contra hne
      exact Nat.ne_of_lt (hlt hne) he
    by_cases he : j = i
    · subst he
      rw [Function.update_self]
      exact { hj with harmless := fun r hr => hj.harmless r (by
        rw [holds]
        exact List.mem_cons_of_mem _ hr) }
    · rw [Function.update_of_ne he]
      exact hj

theorem Inv.serve_new (h : Inv oldss newss s) {news : List Request} (holds : oldss i = [])
    (hnews : newss i = req :: news) (hrest : rest = news) :
    Inv oldss (Function.update newss i news) (s.serve i req rest) := by
  have hcl := h.clients i
  rw [hnews] at hcl
  obtain ⟨phase, ha, hreq⟩ := hcl.current req List.mem_cons_self
  have hd : (s.clients i).pc ≠ .delay := fun hpc => by
    rw [Client.active, hpc] at ha
    exact absurd ha (by simp)
  have hch := hcl.chosen hd
  have hserved := h.served ha (hcl.progress.inPhase ha) hch
  rw [← hreq] at hserved
  have hserial : (s.db.processReq req).2.serial = (s.clients i).serial := by
    rw [Pancydb.processReq_serial, hreq, Client.request_serial]
  have hchange := hserved.change
  refine ⟨fun j => ?_, fun j => ?_, fun g => ?_, h.tableOk.process
    (Or.inl (hreq ▸ hch.clientKey phase)) hchange.fresh hchange.next⟩
  · have hself : (s.serve i req rest).requests i = oldss i ++ news := by
      rw [holds, List.nil_append, ← hrest]
      exact Function.update_self ..
    have hqueue := requests_update h.requests hself (fun j hj => Function.update_of_ne hj ..) j
    rwa [Function.update_eq_self] at hqueue
  · by_cases hj : j = i
    · subst hj
      rw [Function.update_self]
      refine ⟨hcl.serial, hcl.named, hcl.chosen, ?_, fun r hr => hcl.current r
        (List.mem_cons_of_mem _ hr), hserved.inPhase.progress ha, ?_⟩
      · rw [holds]
        exact fun r hr => absurd hr List.not_mem_nil
      · intro r hr hid
        have of_phase (hok : ReplyOk (table (s.db.processReq req).1) (s.clients j) r phase) :
            ∀ phase', (s.clients j).active = some phase' →
              ReplyOk (table (s.db.processReq req).1) (s.clients j) r phase' := fun phase' ha' => by
          rw [ha] at ha'
          exact Option.some.inj ha' ▸ hok
        rcases List.mem_append.1 hr with hr | hr
        · obtain ⟨hle, hok⟩ := hcl.replies r hr hid
          exact ⟨hle, fun he => of_phase (hserved.replies r (hok he phase ha))⟩
        · obtain rfl := List.mem_singleton.1 hr
          exact ⟨Nat.le_of_eq hserial, fun _ => of_phase hserved.reply⟩
    · rw [Function.update_of_ne hj]
      refine (h.clients j).frame (hchange.frame fun _ he => hj (h.eq_of_value hch he)) _ fun hid => ?_
      rw [hserial, hcl.serial] at hid
      exact absurd (Fin.ext hid.symm) hj
  · by_cases hg : g = (s.clients i).gid
    · subst hg
      rcases hchange.group with ⟨hl, hv⟩ | ⟨_, ⟨hl, hs⟩ | ⟨vv, hl, ho⟩⟩
      · exact (h.groups _).congr hl hv
      · show GroupOk (table (s.db.processReq req).1) s.clients _
        rw [GroupOk, hl]
        exact hs
      · show GroupOk (table (s.db.processReq req).1) s.clients _
        rw [GroupOk, hl]
        exact ⟨i, ho⟩
    · exact (h.groups g).congr (hchange.elsewhere g hg).1 (hchange.elsewhere g hg).2

theorem Inv.serve (h : Inv oldss newss s) (hq : s.requests i = req :: rest) :
    ∃ oldss newss, Inv oldss newss (s.serve i req rest) := by
  have hsplit := h.requests i
  rw [hq] at hsplit
  rcases ho : oldss i with _ | ⟨r, olds⟩
  · rw [ho, List.nil_append] at hsplit
    exact ⟨_, _, h.serve_new ho hsplit.symm rfl⟩
  · rw [ho, List.cons_append] at hsplit
    obtain ⟨rfl, hrest⟩ := List.cons.inj hsplit
    exact ⟨_, _, h.serve_old ho hrest⟩

end LockSeq
end Psets
