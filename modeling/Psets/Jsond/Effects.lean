/-
What a request to the notes server does.

It reads, or it changes the note of one id and says so.  There is one exception, a PUT that is
refused for its body after its title was stored.
-/
import Psets.Jsond.Notes

namespace Psets
namespace Jsond

open Transition

variable {lib : Library} {req : Request} {res : Response} {db db' : NotesDb} {body : Parsed}
  {path : Str} {id : Nat} {n : Note}

/-- Notes are stored under their ids. -/
def NotesDb.Keyed (db : NotesDb) : Prop := ∀ id n, db.find id = some n → n.id = id

/-- `db'` differs from `db` at `id` only, and has `n` there. -/
def NotesDb.SetTo (db : NotesDb) (id : Nat) (n : Option Note) (db' : NotesDb) : Prop :=
  ∀ k, db'.find k = if k = id then n else db.find k

/-- A response that only says what is stored. -/
def Reads (db : NotesDb) : Payload → Prop
  | .note n => db.find n.id = some n
  | .notes ns => ∀ n, n ∈ ns ↔ db.find n.id = some n
  | .deleted _ => False
  | .stats _ _ recentIds _ => ∀ id ∈ recentIds, ∃ n, db.find id = some n
  | .error _ => True

def Parsed.json : Parsed → Option Json
  | .value json => some json
  | _ => none

/-- The title of the body, if it is the one that was sent with a body to refuse. -/
def keptTitle (body : Parsed) (res : Response) : Option Str :=
  if res = errorResponse 400 "body must be a string" then
    body.json.bind fun json =>
      match json.find "title".toList with
      | some (.string title) => some title
      | _ => none
  else none

/-- What a request has done. -/
inductive Did (path : Str) (body : Parsed) (db : NotesDb) :
    Response → NotesDb → Prop where
  | read {res : Response} (hreads : Reads db res.payload) (hstatus : res.status ≠ 201)
      (hkept : keptTitle body res = none) : Did path body db res db
  | created {n : Note} {db' : NotesDb} (hid : n.id = db.nextId)
      (hnext : db'.nextId = (db.nextId + 1) % 2 ^ 64) (hset : db.SetTo n.id (some n) db') :
      Did path body db ⟨201, .note n⟩ db'
  | updated (n' : Note) {n : Note} {db' : NotesDb} (hold : db.find n'.id = some n)
      (hnext : db'.nextId = db.nextId) (hset : db.SetTo n'.id (some n') db') :
      Did path body db ⟨200, .note n'⟩ db'
  | deleted {id : Nat} {n : Note} {db' : NotesDb} (hold : db.find id = some n)
      (hnext : db'.nextId = db.nextId) (hset : db.SetTo id none db') :
      Did path body db ⟨200, .deleted id⟩ db'
  /-- a PUT that was refused, with its title stored -/
  | half {id : Nat} {n : Note} {title : Str} {db' : NotesDb} (hpath : parseNoteId path = some id)
      (hkept : keptTitle body (errorResponse 400 "body must be a string") = some title)
      (hold : db.find id = some n) (hnext : db'.nextId = db.nextId)
      (hset : db.SetTo id (some { n with title }) db') :
      Did path body db (errorResponse 400 "body must be a string") db'

/-- Errors with another text. -/
theorem Did.refused {status : Nat} {message : Str}
    (hmessage : message ≠ "body must be a string".toList) (hstatus : status ≠ 201) :
    Did path body db ⟨status, .error message⟩ db := by
  refine .read trivial hstatus (if_neg fun he => hmessage ?_)
  cases he
  rfl

theorem NotesDb.setTo_set : db.SetTo id (some n) (db.set id n) := fun _ => SortedMap.find?_insert ..

theorem NotesDb.setTo_erase : db.SetTo id none (db.erase id).2 := fun _ => SortedMap.find?_erase ..

theorem NotesDb.SetTo.again {v w : Option Note} {db'' : NotesDb} (h : db.SetTo id v db')
    (h' : db'.SetTo id w db'') : db.SetTo id w db'' := by
  intro k
  rw [h' k]
  by_cases hk : k = id
  · rw [if_pos hk, if_pos hk]
  · rw [if_neg hk, if_neg hk, h k, if_neg hk]

theorem NotesDb.SetTo.stored {k : Nat} {v : Option Note} (hset : db.SetTo k v db')
    (hn : db'.find id = some n) : id = k ∨ db.find id = some n := by
  rw [hset id] at hn
  by_cases hk : id = k
  · exact .inl hk
  · rw [if_neg hk] at hn
    exact .inr hn

theorem NotesDb.mem_all (hkeyed : db.Keyed) : n ∈ db.all ↔ db.find n.id = some n := by
  constructor
  · intro hn
    obtain ⟨⟨k, n'⟩, hmem, he⟩ := List.mem_map.1 hn
    have he : n' = n := he
    subst he
    have hfind : db.find k = some n' := SortedMap.mem_entries.1 hmem
    rw [hkeyed k n' hfind]
    exact hfind
  · intro hfind
    exact List.mem_map.2 ⟨(n.id, n), SortedMap.mem_entries.2 hfind, rfl⟩

/-- The note has the next id, also where the ids have come around to one that is taken. -/
theorem NotesDb.create_spec (hkeyed : db.Keyed) (title text : Str) :
    (db.create title text).1.id = db.nextId ∧
      (db.create title text).2.nextId = (db.nextId + 1) % 2 ^ 64 ∧
      db.SetTo db.nextId (some (db.create title text).1) (db.create title text).2 := by
  unfold NotesDb.create
  cases hfind : db.notes.find? db.nextId with
  | none => exact ⟨rfl, rfl, fun _ => SortedMap.find?_insert ..⟩
  | some n =>
    refine ⟨hkeyed db.nextId n hfind, rfl, fun k => ?_⟩
    by_cases hk : k = db.nextId
    · rw [if_pos hk, hk]
      exact hfind
    · rw [if_neg hk]
      rfl

theorem NotesDb.SetTo.keyed (hkeyed : db.Keyed) {v : Option Note} (hset : db.SetTo id v db')
    (hv : ∀ n, v = some n → n.id = id) : db'.Keyed := by
  intro k n hfind
  rw [hset k] at hfind
  by_cases hk : k = id
  · rw [if_pos hk] at hfind
    rw [hk]
    exact hv n hfind
  · rw [if_neg hk] at hfind
    exact hkeyed k n hfind

theorem Did.keyed (h : Did path body db res db') (hkeyed : db.Keyed) : db'.Keyed := by
  cases h with
  | read => exact hkeyed
  | created _ _ hset =>
    refine hset.keyed hkeyed fun n hn => ?_
    rw [← Option.some.inj hn]
  | updated _ _ _ hset =>
    refine hset.keyed hkeyed fun n hn => ?_
    rw [← Option.some.inj hn]
  | deleted _ _ hset => exact hset.keyed hkeyed fun n hn => by cases hn
  | @half id n title db' hpath hkept hold hnext hset =>
    refine hset.keyed hkeyed fun n' hn => ?_
    rw [← Option.some.inj hn]
    show n.id = id
    exact hkeyed id n hold

/-- The members of the update: a title that is kept, and then the body. -/
theorem update_did (hkeyed : db.Keyed) (hpath : parseNoteId path = some id)
    (hfind : db.find id = some n) (json : Json) :
    Did path (.value json) db (update db id n json).1 (update db id n json).2 := by
  have hid : n.id = id := hkeyed id n hfind
  subst hid
  unfold update
  cases htitle : json.find "title".toList with
  | none =>
    simp only
    unfold update.updateBody
    have hrefused : Did path (.value json) db (errorResponse 400 "body must be a string") db := by
      refine .read trivial (by simp [errorResponse]) ?_
      rw [keptTitle, if_pos rfl]
      simp only [Parsed.json, Option.bind_some, htitle]
    cases hbody : json.find "body".toList with
    | none => exact .read hfind (by simp) (if_neg fun he => by cases he)
    | some value =>
      cases value with
      | string text => exact .updated { n with body := text } hfind rfl NotesDb.setTo_set
      | object members => exact hrefused
      | other => exact hrefused
  | some value =>
    cases value with
    | object members => exact .refused (by decide) (by simp)
    | other => exact .refused (by decide) (by simp)
    | string title =>
      simp only
      unfold update.updateBody
      have hrefused : Did path (.value json) db (errorResponse 400 "body must be a string")
          (db.set n.id { n with title }) := by
        refine .half hpath ?_ hfind rfl NotesDb.setTo_set
        rw [keptTitle, if_pos rfl]
        simp only [Parsed.json, Option.bind_some, htitle]
      cases hbody : json.find "body".toList with
      | none => exact .updated { n with title } hfind rfl NotesDb.setTo_set
      | some value =>
        cases value with
        | string text =>
          exact .updated { n with title, body := text } hfind rfl
            (NotesDb.setTo_set.again NotesDb.setTo_set)
        | object members => exact hrefused
        | other => exact hrefused

/-- What is true of a result, if there is one. -/
def After (out : Option (Response × NotesDb)) (P : Response → NotesDb → Prop) : Prop :=
  ∀ x ∈ out, P x.1 x.2

theorem After.intro {P : Response → NotesDb → Prop} (h : P res db') : After (some (res, db')) P := by
  intro x hx
  obtain rfl := Option.mem_some.1 hx
  exact h

/-- An exception has changed nothing, and neither has a parse error. -/
theorem withValue_did (utf8 : Str → Bool) {go : Json → Option (Response × NotesDb)}
    (hgo : ∀ json, body = .value json → After (go json) (Did path body db)) :
    After (withValue utf8 body db go) (Did path body db) := by
  intro x hx
  cases body with
  | value json => exact hgo json rfl x hx
  | parseError what =>
    simp only [withValue, Option.mem_def] at hx
    split at hx
    · obtain rfl := Option.some.inj hx
      exact .refused (by simp) (by simp)
    · cases hx
  | outOfRange => cases hx

theorem dispatch_did (hkeyed : db.Keyed) (utf8 : Str → Bool) (server : Str) {expected : String}
    (hexpected : expected.toList ≠ "body must be a string".toList) (method : Method) :
    After (dispatch utf8 server expected method path body db) (Did path body db) := by
  unfold dispatch
  by_cases hnotes : path = "/notes".toList
  · rw [if_pos hnotes]
    cases method with
    | get =>
      refine .intro (.read (fun n => NotesDb.mem_all hkeyed) (by simp) (if_neg fun he => ?_))
      cases he
    | post =>
      refine withValue_did utf8 fun json hbody => ?_
      subst hbody
      split
      · rename_i title text htitle htext
        obtain ⟨hid, hnext, hset⟩ := NotesDb.create_spec hkeyed title text
        rw [← hid] at hset
        exact .intro (.created hid hnext hset)
      · exact .intro (.refused hexpected (by simp))
    | put => exact .intro (.refused (by decide) (by simp))
    | delete => exact .intro (.refused (by decide) (by simp))
    | other => exact .intro (.refused (by decide) (by simp))
  · rw [if_neg hnotes]
    cases hpath : parseNoteId path with
    | none =>
      simp only
      split
      · refine .intro (.read (fun id hid => ?_) (by simp) (if_neg fun he => by cases he))
        obtain ⟨n, hn, rfl⟩ := List.mem_map.1 (List.mem_of_mem_take hid)
        exact ⟨n, (NotesDb.mem_all hkeyed).1 (List.mem_reverse.1 hn)⟩
      · exact .intro (.refused (by decide) (by simp))
    | some id =>
      simp only
      cases hfind : db.find id with
      | none =>
        have hmissing : db.erase id = (false, db) := by
          rw [NotesDb.erase, SortedMap.erase_of_find? hfind, hfind]
          rfl
        cases method with
        | get => exact .intro (.refused (by decide) (by simp))
        | post => exact .intro (.refused (by decide) (by simp))
        | put => exact .intro (.refused (by decide) (by simp))
        | delete =>
          simp only [hmissing]
          exact .intro (.refused (by decide) (by simp))
        | other => exact .intro (.refused (by decide) (by simp))
      | some n =>
        have hid : n.id = id := hkeyed id n hfind
        subst hid
        cases method with
        | get => exact .intro (.read hfind (by simp) (if_neg fun he => by cases he))
        | post => exact .intro (.refused (by decide) (by simp))
        | put =>
          refine withValue_did utf8 fun json hbody => ?_
          subst hbody
          exact .intro (update_did hkeyed hpath hfind json)
        | delete =>
          have herase : db.erase n.id = (true, (db.erase n.id).2) := by
            rw [NotesDb.erase, hfind]
            rfl
          simp only
          rw [herase]
          exact .intro (.deleted hfind rfl NotesDb.setTo_erase)
        | other => exact .intro (.refused (by decide) (by simp))

theorem handle_did (lib : Library) (req : Request) (hkeyed : db.Keyed) :
    After (handle lib req db) (Did req.path (lib.parse req.body) db) :=
  dispatch_did hkeyed lib.utf8 "jsond".toList (by decide) req.method

/-- A request was answered, or there was an exception, and nothing has changed. -/
theorem jsond_step {st st' : State} (hkeyed : st.db.Keyed)
    (h : (jsond lib).step st req = some st') :
    st' = st ∨ ∃ res db', Did req.path (lib.parse req.body) st.db res db' ∧
      st' = ⟨db', (req, res) :: st.log⟩ := by
  have hdid := handle_did lib req hkeyed
  cases hhandle : handle lib req st.db with
  | none =>
    simp only [jsond, hhandle] at h
    exact .inl (Option.some.inj h).symm
  | some out =>
    simp only [jsond, hhandle] at h
    exact .inr ⟨out.1, out.2, hdid out hhandle, (Option.some.inj h).symm⟩

end Jsond
end Psets
