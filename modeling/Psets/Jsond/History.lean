/-
What clients can conclude from the responses of the notes server.

A response that shows or deletes a note is the last word on it until the next such response, the
titles of half refused PUTs apart.  And while ids last, an id that was deleted is never heard of
again.
-/
import Psets.Jsond.Effects

namespace Psets
namespace Jsond

open Transition

variable {lib : Library} {req : Request} {res : Response} {db db' : NotesDb} {body : Parsed}
  {path : Str} {id : Nat} {st : State}

/-! ## The last word on a note -/

/-- What the responses, the last one first, tell of a note. -/
def told (lib : Library) (id : Nat) : List (Request × Response) → Option Note
  | [] => none
  | (req, res) :: log =>
      match res.payload with
      | .note n => if id = n.id then some n else told lib id log
      | .notes ns => ns.find? fun n => n.id == id
      | .deleted k => if id = k then none else told lib id log
      | .stats .. => told lib id log
      | .error _ =>
          if parseNoteId req.path = some id then
            match keptTitle (lib.parse req.body) res with
            | some title => (told lib id log).map fun n => { n with title }
            | none => told lib id log
          else told lib id log

/-- A response that only reads tells nothing new. -/
theorem told_read {log : List (Request × Response)} (hkeyed : db.Keyed)
    (htold : ∀ id, db.find id = told lib id log) (hreads : Reads db res.payload)
    (hkept : keptTitle (lib.parse req.body) res = none) (id : Nat) :
    db.find id = told lib id ((req, res) :: log) := by
  unfold told
  cases hpayload : res.payload with
  | note n =>
    rw [hpayload] at hreads
    simp only
    by_cases hid : id = n.id
    · rw [if_pos hid, hid]
      exact hreads
    · rw [if_neg hid]
      exact htold id
  | notes ns =>
    rw [hpayload] at hreads
    have hreads : ∀ n, n ∈ ns ↔ db.find n.id = some n := hreads
    simp only
    cases hfind : ns.find? fun n => n.id == id with
    | none =>
      cases hdb : db.find id with
      | none => rfl
      | some n =>
        have hid : n.id = id := hkeyed id n hdb
        have hmem : n ∈ ns := (hreads n).2 (by rw [hid]; exact hdb)
        exact absurd (List.find?_eq_none.1 hfind n hmem) (by simp [hid])
    | some n =>
      have hid : n.id = id := by simpa using List.find?_some hfind
      rw [← hid]
      exact (hreads n).1 (List.mem_of_find?_eq_some hfind)
  | deleted k =>
    rw [hpayload] at hreads
    exact hreads.elim
  | stats => exact htold id
  | error message =>
    simp only [hkept]
    rw [ite_self]
    exact htold id

/-- One request, whatever it does, is told by its response. -/
theorem Did.told {log : List (Request × Response)}
    (h : Did req.path (lib.parse req.body) db res db') (hkeyed : db.Keyed)
    (htold : ∀ id, db.find id = Jsond.told lib id log) (k : Nat) :
    db'.find k = Jsond.told lib k ((req, res) :: log) := by
  cases h with
  | read hreads _ hkept => exact told_read hkeyed htold hreads hkept k
  | created _ _ hset =>
    rw [hset k, htold k]
    rfl
  | updated _ _ _ hset =>
    rw [hset k, htold k]
    rfl
  | deleted _ _ hset =>
    rw [hset k, htold k]
    rfl
  | @half id n title db' hpath hkept hold hnext hset =>
    show db'.find k = if parseNoteId req.path = some k then _ else Jsond.told lib k log
    rw [hset k, hpath, hkept]
    by_cases hk : k = id
    · subst hk
      rw [if_pos rfl, if_pos rfl, ← htold k, hold]
      rfl
    · rw [if_neg hk, if_neg fun he => hk (Option.some.inj he).symm]
      exact htold k

theorem get_answer (hget : req.method = .get) (hpath : parseNoteId req.path = some id) :
    (handle lib req db).map Prod.fst = some ((db.find id).elim (errorResponse 404 "no such note")
      fun n => ⟨200, .note n⟩) := by
  have hnone : parseNoteId "/notes".toList = none := by decide
  have hnotes : req.path ≠ "/notes".toList := by
    intro he
    rw [he, hnone] at hpath
    cases hpath
  unfold handle dispatch
  rw [if_neg hnotes, hpath, hget]
  simp only
  cases db.find id with
  | none => rfl
  | some n => rfl

/-- In every state the notes are what the responses tell, so that a GET answers what the last
response about the note said. -/
theorem responses_tell_notes (h : (jsond lib).Reachable st) (id : Nat) :
    st.db.find id = told lib id st.log ∧
      ∀ req : Request, req.method = .get → parseNoteId req.path = some id →
        (handle lib req st.db).map Prod.fst = some ((told lib id st.log).elim
          (errorResponse 404 "no such note") fun n => ⟨200, .note n⟩) := by
  have key : st.db.Keyed ∧ ∀ id, st.db.find id = told lib id st.log := by
    refine Machine.Reachable.invariant (P := fun st : State =>
      st.db.Keyed ∧ ∀ id, st.db.find id = told lib id st.log) ?_ ?_ h
    · intro st hinit
      have hinit : st = {} := hinit
      subst hinit
      refine ⟨fun id n hn => ?_, fun id => rfl⟩
      cases hn
    · intro st req st' hp hstep
      rcases jsond_step hp.1 hstep with rfl | ⟨res, db', hdid, rfl⟩
      · exact hp
      · exact ⟨hdid.keyed hp.1, hdid.told hp.1 hp.2⟩
  refine ⟨key.2 id, fun req hget hpath => ?_⟩
  rw [get_answer hget hpath, key.2 id]

def sample : Library where
  parse s :=
    if s = "\x7b\"title\":\"a\",\"body\":\"b\"\x7d".toList then
      .value (.object [("title".toList, .string ['a']), ("body".toList, .string ['b'])])
    else if s = "\x7b\"title\":\"c\",\"body\":0\x7d".toList then
      .value (.object [("title".toList, .string ['c']), ("body".toList, .other)])
    else if s = "1e999".toList then .outOfRange
    else .parseError "syntax error".toList
  utf8 s := s.all fun c => c.toNat < 128

/-- A note, a PUT that stores its title and is refused, and one without a response. -/
def halfRefused : List Request :=
  [⟨.post, "/notes".toList, "\x7b\"title\":\"a\",\"body\":\"b\"\x7d".toList⟩,
    ⟨.put, "/notes/1".toList, "\x7b\"title\":\"c\",\"body\":0\x7d".toList⟩,
    ⟨.put, "/notes/1".toList, "1e999".toList⟩]

theorem halfRefused_runs : ((jsond sample).exec {} halfRefused).isSome = true := by decide

/-- The GET after the PUTs shows the new title. -/
theorem responses_tell_notes_halfRefused :
    (handle sample ⟨.get, "/notes/1".toList, []⟩
      (((jsond sample).exec {} halfRefused).get halfRefused_runs).db).map Prod.fst =
      some ⟨200, .note ⟨1, ['c'], ['b']⟩⟩ := by
  rw [(responses_tell_notes (.of_get rfl halfRefused_runs) 1).2 _ rfl (by decide)]
  decide

/-! ## Ids -/

/-- The ids a response names. -/
def Payload.ids : Payload → List Nat
  | .note n => [n.id]
  | .notes ns => ns.map Note.id
  | .deleted id => [id]
  | .stats _ _ recentIds _ => recentIds
  | .error _ => []

/-- What is stored was stored, the new note apart. -/
theorem Did.stored (h : Did path body db res db') {n : Note} (hn : db'.find id = some n) :
    (∃ n, db.find id = some n) ∨ res.status = 201 ∧ id = db.nextId := by
  cases h with
  | read => exact .inl ⟨n, hn⟩
  | created hid _ hset =>
    rcases hset.stored hn with hk | hfind
    · exact .inr ⟨rfl, hk.trans hid⟩
    · exact .inl ⟨n, hfind⟩
  | updated _ hold _ hset =>
    rcases hset.stored hn with hk | hfind
    · exact .inl ⟨_, hk ▸ hold⟩
    · exact .inl ⟨n, hfind⟩
  | deleted hold _ hset =>
    rcases hset.stored hn with hk | hfind
    · exact .inl ⟨_, hk ▸ hold⟩
    · exact .inl ⟨n, hfind⟩
  | half _ _ hold _ hset =>
    rcases hset.stored hn with hk | hfind
    · exact .inl ⟨_, hk ▸ hold⟩
    · exact .inl ⟨n, hfind⟩

/-- A response names what was stored, or the new note. -/
theorem Did.named (h : Did path body db res db') (hid : id ∈ res.payload.ids) :
    (∃ n, db.find id = some n) ∨ res.status = 201 ∧ id = db.nextId := by
  cases h with
  | read hreads =>
    left
    unfold Payload.ids at hid
    cases hpayload : res.payload with
    | note n =>
      rw [hpayload] at hreads hid
      rw [List.mem_singleton.1 hid]
      exact ⟨n, hreads⟩
    | notes ns =>
      rw [hpayload] at hreads hid
      obtain ⟨n, hn, he⟩ := List.mem_map.1 hid
      exact ⟨n, he ▸ (hreads n).1 hn⟩
    | deleted k =>
      rw [hpayload] at hreads
      exact hreads.elim
    | stats count totalTextBytes recentIds server =>
      rw [hpayload] at hreads hid
      exact hreads id hid
    | error message =>
      rw [hpayload] at hid
      cases hid
  | created hnew => exact .inr ⟨rfl, (List.mem_singleton.1 hid).trans hnew⟩
  | updated _ hold =>
    rw [List.mem_singleton.1 hid]
    exact .inl ⟨_, hold⟩
  | deleted hold =>
    rw [List.mem_singleton.1 hid]
    exact .inl ⟨_, hold⟩
  | half => cases hid

theorem Did.erased (h : Did path body db res db') (hres : res.payload = .deleted id) :
    db'.find id = none := by
  cases h with
  | read hreads =>
    rw [hres] at hreads
    exact hreads.elim
  | created => cases hres
  | updated => cases hres
  | deleted _ _ hset =>
    cases hres
    rw [hset id, if_pos rfl]
  | half => cases hres

theorem Did.created_id {n : Note} (h : Did path body db res db') (hres : res = ⟨201, .note n⟩) :
    n.id = db.nextId := by
  cases h with
  | read _ hstatus =>
    rw [hres] at hstatus
    exact absurd rfl hstatus
  | created hid =>
    cases hres
    exact hid
  | updated => cases hres
  | deleted => cases hres
  | half => cases hres

theorem Did.nextId (h : Did path body db res db') (hroom : db.nextId + 1 < 2 ^ 64) :
    db'.nextId = db.nextId + if res.status = 201 then 1 else 0 := by
  cases h with
  | read _ hstatus => rw [if_neg hstatus]; rfl
  | created _ hnext => rw [hnext, Nat.mod_eq_of_lt hroom]; rfl
  | updated _ _ hnext => exact hnext
  | deleted _ hnext => exact hnext
  | half _ _ _ hnext => exact hnext

/-- What the later of two responses cannot say after the earlier one. -/
def Follows (later earlier : Request × Response) : Prop :=
  (∀ id, earlier.2.payload = .deleted id → id ∉ later.2.payload.ids) ∧
    ∀ n, later.2 = ⟨201, .note n⟩ → ∀ id ∈ earlier.2.payload.ids, id < n.id

/-- The ids that are stored or were named are below the next one, and what was deleted is not
there. -/
structure Fresh (st : State) : Prop where
  keyed : st.db.Keyed
  stored : ∀ id n, st.db.find id = some n → id < st.db.nextId
  named : ∀ x ∈ st.log, ∀ id ∈ x.2.payload.ids, id < st.db.nextId
  gone : ∀ x ∈ st.log, ∀ id, x.2.payload = .deleted id → st.db.find id = none
  follows : st.log.Pairwise Follows

theorem Fresh.step (h : Fresh st) (hroom : st.db.nextId + 1 < 2 ^ 64)
    (hdid : Did req.path (lib.parse req.body) st.db res db') :
    Fresh ⟨db', (req, res) :: st.log⟩ := by
  have hnext := hdid.nextId hroom
  have hbelow : ∀ id, ((∃ n, st.db.find id = some n) ∨ res.status = 201 ∧ id = st.db.nextId) →
      id < db'.nextId := by
    rintro id (⟨n, hn⟩ | ⟨hstatus, hid⟩)
    · have := h.stored id n hn
      omega
    · rw [if_pos hstatus] at hnext
      omega
  have hgone : ∀ x ∈ st.log, ∀ id, x.2.payload = .deleted id →
      ¬((∃ n, st.db.find id = some n) ∨ res.status = 201 ∧ id = st.db.nextId) := by
    rintro x hx id hdeleted (⟨n, hn⟩ | ⟨_, hid⟩)
    · rw [h.gone x hx id hdeleted] at hn
      cases hn
    · have := h.named x hx id (by rw [hdeleted]; exact List.mem_singleton.2 rfl)
      omega
  refine ⟨hdid.keyed h.keyed, ?_, ?_, ?_, ?_⟩
  · intro id n hn
    exact hbelow id (hdid.stored hn)
  · intro x hx id hid
    rcases List.mem_cons.1 hx with rfl | hx
    · exact hbelow id (hdid.named hid)
    · have := h.named x hx id hid
      show id < db'.nextId
      omega
  · intro x hx id hdeleted
    rcases List.mem_cons.1 hx with rfl | hx
    · exact hdid.erased hdeleted
    · cases hfind : db'.find id with
      | none => rfl
      | some n => exact absurd (hdid.stored hfind) (hgone x hx id hdeleted)
  · refine List.pairwise_cons.2 ⟨fun x hx => ⟨fun id hdeleted hid => ?_, ?_⟩, h.follows⟩
    · exact hgone x hx id hdeleted (hdid.named hid)
    · intro n hn id hid
      have := h.named x hx id hid
      have hn : res = ⟨201, .note n⟩ := hn
      rw [hdid.created_id hn]
      exact this

/-- While ids last, no response names a note that was deleted, and a new note has an id above
every id named before. -/
theorem ids_not_reused
    (h : (jsond lib).ReachableBy (fun st _ => st.db.nextId + 1 < 2 ^ 64) st) :
    st.log.Pairwise Follows := by
  have key : Fresh st := by
    refine Machine.ReachableBy.invariant ?_ ?_ h
    · intro st hinit
      have hinit : st = {} := hinit
      subst hinit
      refine ⟨fun id n hn => ?_, fun id n hn => ?_, fun x hx => ?_, fun x hx => ?_, .nil⟩
      · cases hn
      · cases hn
      · cases hx
      · cases hx
    · intro st req st' hp hroom hstep
      rcases jsond_step hp.keyed hstep with rfl | ⟨res, db', hdid, rfl⟩
      · exact hp
      · exact hp.step hroom hdid
  exact key.follows

/-- A note that is deleted, and a new one. -/
def deleted : List Request :=
  halfRefused.take 1 ++ ⟨.delete, "/notes/1".toList, []⟩ :: halfRefused.take 1

theorem deleted_runs : ((jsond sample).exec {} deleted).isSome = true := by decide

theorem ids_not_reused_deleted :
    (((jsond sample).exec {} deleted).get deleted_runs).log.Pairwise Follows :=
  ids_not_reused (.of_exec (.init rfl) (by decide) (Option.some_get deleted_runs).symm)

end Jsond
end Psets
