/-
The two interfaces of `pancydb`, with the tests and the assignments that the code makes.

A direct `put` takes a key for stored when `emplace` does not insert it.  A request takes
it for stored when the version that it reads is not the zero of `nonexistent_vv`, which
is the same as long as no stored version is zero.
-/
import Psets.Pancy.Versions

namespace Psets
namespace Pancydb
namespace Calls

open Pancy Transition

/-! ## The assignments -/

/-- `emplace_vvptr`: the key is left alone where it is stored. -/
def emplaceVvptr (d : Pancydb) (key value : Str) : Pancydb × Bool :=
  match d.db.find? key with
  | some _ => (d, false)
  | none => ({ d with db := d.db.insert key ⟨value, d.nextVersion⟩ }, true)

/-- Assign the value and `next_version_` through the pointer to the entry of `key`. -/
def assignVv (d : Pancydb) (key value : Str) : Pancydb :=
  match d.db.find? key with
  | some _ => { d with db := d.db.insert key ⟨value, d.nextVersion⟩ }
  -- the pointer is to `nonexistent_vv`, which is not in the map
  | none => d

/-- `++next_version_`. -/
def bump (d : Pancydb) : Pancydb := { d with nextVersion := d.nextVersion + 1 }

/-! ## The direct calls -/

def existsKey (d : Pancydb) (key : Str) : Bool := (d.db.find? key).isSome

def put (d : Pancydb) (key value : Str) : Pancydb :=
  let (d', inserted) := emplaceVvptr d key value
  bump (if inserted then d' else assignVv d' key value)

/-! ## The requests -/

/-- What `process` does with a put or a matching cas request, where `vv` is what
`find_vvptr` has found. -/
def modify (d : Pancydb) (serial : Nat) (key value : Str) (vv : Vv) : Pancydb × ModResponse :=
  if vv.version = nonexistentVersion then
    let d' := bump (emplaceVvptr d key value).1
    (d', modOk serial nonexistentVersion (d'.version key))
  else
    let d' := bump (assignVv d key value)
    (d', modOk serial vv.version (d'.version key))

def processPut (d : Pancydb) (req : PutRequest) : Pancydb × ModResponse :=
  let vv := d.findVv req.key
  if versionMismatch req.versionMatch vv.version then (d, modNoMatch req.serial vv)
  else modify d req.serial req.key req.value vv

def processCas (d : Pancydb) (req : CasRequest) : Pancydb × ModResponse :=
  let vv := d.findVv req.key
  if req.expected != vv.value || versionMismatch req.versionMatch vv.version then
    (d, modNoMatch req.serial vv)
  else modify d req.serial req.key req.desired vv

def processReq (d : Pancydb) : Request → Pancydb × Response
  | .get req => (d, .get (d.processGet req))
  | .put req => ((processPut d req).1, .put (processPut d req).2)
  | .cas req => ((processCas d req).1, .cas (processCas d req).2)
  | .remove req => ((d.processRemove req).1, .remove (d.processRemove req).2)

/-! ## Sequences of calls -/

inductive Call where
  | version (key : Str)
  | existsKey (key : Str)
  | get (key : Str)
  | put (key value : Str)
  | remove (key : Str)
  | request (req : Request)
  deriving DecidableEq, Repr

/-- What a call returns. -/
inductive Result where
  | version (v : VersionType)
  | existsKey (b : Bool)
  | get (vv : Option Vv)
  | put
  | remove (b : Bool)
  | response (resp : Response)
  deriving DecidableEq, Repr

def perform (d : Pancydb) : Call → Pancydb × Result
  | .version key => (d, .version (d.version key))
  | .existsKey key => (d, .existsKey (existsKey d key))
  | .get key => (d, .get (d.get key))
  | .put key value => (put d key value, .put)
  | .remove key => ((d.remove key).1, .remove (d.remove key).2)
  | .request req => ((processReq d req).1, .response (processReq d req).2)

/-- The request that a call amounts to. -/
def Call.message (serial : Nat) : Call → Request
  | .version key | .existsKey key | .get key => .get { serial, key }
  | .put key value => .put { serial, key, value }
  | .remove key => .remove { serial, key }
  | .request req => req

/-- What the response to that request says about the call. -/
def Call.read : Call → Response → Result
  | .version _, .get resp => .version resp.version
  | .existsKey _, .get resp => .existsKey (resp.version != nonexistentVersion)
  | .get _, .get resp =>
    .get (if resp.version = nonexistentVersion then none else some ⟨resp.value, resp.version⟩)
  | .put _ _, .put _ => .put
  | .remove _, .remove resp => .remove (resp.errcode == .ok)
  | _, resp => .response resp

def performAll : Pancydb → List Call → Pancydb × List Result
  | d, [] => (d, [])
  | d, c :: cs =>
    let (d', results) := performAll (perform d c).1 cs
    (d', (perform d c).2 :: results)

def processAll : Pancydb → List Request → Pancydb × List Response
  | d, [] => (d, [])
  | d, req :: reqs =>
    let (d', resps) := processAll (processReq d req).1 reqs
    (d', (processReq d req).2 :: resps)

/-- The histories of one database. -/
def calls : Machine Pancydb Call where
  init d := d = {}
  step d c := some (perform d c).1

/-! ## One modification -/

theorem put_eq (d : Pancydb) (key value : Str) : put d key value = d.store key value := by
  rw [put, emplaceVvptr]
  cases hfind : d.db.find? key with
  | none => rfl
  | some vv =>
    show bump (assignVv d key value) = _
    rw [assignVv, hfind]
    rfl

/-- A version that is not zero tells that the key is stored. -/
theorem stored_iff {d : Pancydb} (hd : Versioned d) (key : Str) :
    (d.findVv key).version = nonexistentVersion ↔ d.db.find? key = none := by
  rw [findVv]
  cases hfind : d.db.find? key with
  | none => exact iff_of_true rfl rfl
  | some vv =>
    have hpos := hd.positive key vv hfind
    exact iff_of_false (Int.ne_of_gt hpos) (Option.some_ne_none vv)

theorem version_store (d : Pancydb) (key value : Str) :
    (d.store key value).version key = d.nextVersion := by
  rw [version, findVv, find?_store, if_pos rfl]
  rfl

theorem modify_eq {d : Pancydb} (hd : Versioned d) (serial : Nat) (key value : Str) :
    modify d serial key value (d.findVv key) =
      (d.store key value, modOk serial (d.findVv key).version d.nextVersion) := by
  have hstored := stored_iff hd key
  rw [modify]
  by_cases hzero : (d.findVv key).version = nonexistentVersion
  · have hbump : bump (emplaceVvptr d key value).1 = d.store key value := by
      rw [emplaceVvptr, hstored.1 hzero]
      rfl
    simp only [if_pos hzero, hbump, version_store]
    rw [hzero]
  · obtain ⟨vv, hvv⟩ := Option.ne_none_iff_exists'.1 fun hnone => hzero (hstored.2 hnone)
    have hbump : bump (assignVv d key value) = d.store key value := by
      rw [assignVv, hvv]
      rfl
    simp only [if_neg hzero, hbump, version_store]

theorem processReq_eq {d : Pancydb} (hd : Versioned d) (req : Request) :
    processReq d req = d.processReq req := by
  cases req with
  | get req => rfl
  | put req =>
    rw [processReq, Pancydb.processReq, processPut, Pancydb.processPut, modify_eq hd]
  | cas req =>
    rw [processReq, Pancydb.processReq, processCas, Pancydb.processCas, modify_eq hd]
  | remove req => rfl

/-! ## The histories -/

/-- A call changes the database as the pieces of `database` do, or not at all. -/
theorem perform_apply {d : Pancydb} (hd : Versioned d) (c : Call) :
    (perform d c).1 = d ∨ ∃ op, (perform d c).1 = d.apply op := by
  cases c with
  | version key => exact Or.inl rfl
  | existsKey key => exact Or.inl rfl
  | get key => exact Or.inl rfl
  | put key value => exact Or.inr ⟨.put key value, put_eq d key value⟩
  | remove key => exact Or.inr ⟨.remove key, rfl⟩
  | request req =>
    refine Or.inr ⟨.request req, ?_⟩
    rw [perform, processReq_eq hd]
    rfl

theorem reachable_database {d : Pancydb} (h : calls.Reachable d) : database.Reachable d := by
  refine Machine.Reachable.invariant (M := calls) (P := database.Reachable)
    (fun d hs => .init hs) (fun d c e hd hs => ?_) h
  obtain rfl := Option.some.inj hs
  rcases perform_apply (reachable_versioned hd) c with hsame | ⟨op, hop⟩
  · rw [hsame]
    exact hd
  · rw [hop]
    exact .step op hd trivial rfl

theorem reachable_perform {d : Pancydb} (h : calls.Reachable d) (c : Call) :
    calls.Reachable (perform d c).1 :=
  .step c h trivial rfl

/-! ## The messages -/

/-- A call does what its message does, and returns what the response says. -/
theorem perform_message {d : Pancydb} (hd : Versioned d) (serial : Nat) (c : Call) :
    (perform d c).1 = (processReq d (c.message serial)).1 ∧
      (perform d c).2 = c.read (processReq d (c.message serial)).2 := by
  cases c with
  | version key => exact ⟨rfl, rfl⟩
  | existsKey key =>
    refine ⟨rfl, congrArg Result.existsKey ?_⟩
    have hstored := stored_iff hd key
    rw [existsKey, Bool.eq_iff_iff, Option.isSome_iff_ne_none, bne_iff_ne]
    exact not_congr hstored.symm
  | get key =>
    refine ⟨rfl, congrArg Result.get ?_⟩
    exact ite_not ..
  | put key value =>
    rw [Call.message, processReq_eq hd]
    exact ⟨put_eq d key value, rfl⟩
  | remove key =>
    rw [Call.message, processReq_eq hd]
    simp only [perform, Pancydb.processReq, Pancydb.remove, processRemove, Call.read]
    cases d.db.find? key with
    | none => exact ⟨rfl, rfl⟩
    | some vv => exact ⟨rfl, rfl⟩
  | request req => cases req <;> exact ⟨rfl, rfl⟩

/-- A mixed sequence and its messages, sent under any serials. -/
theorem performAll_messages {d : Pancydb} (hd : calls.Reachable d) {cs : List Call}
    {reqs : List Request}
    (hmessages : List.Forall₂ (fun c req => ∃ serial, req = Call.message serial c) cs reqs) :
    (performAll d cs).1 = (processAll d reqs).1 ∧
      (performAll d cs).2 = List.zipWith Call.read cs (processAll d reqs).2 := by
  induction hmessages generalizing d with
  | nil => exact ⟨rfl, rfl⟩
  | @cons c req cs reqs hc _ ih =>
    obtain ⟨serial, rfl⟩ := hc
    have hversioned := reachable_versioned (reachable_database hd)
    obtain ⟨hstate, hresult⟩ := perform_message hversioned serial c
    obtain ⟨ihstate, ihresults⟩ := ih (reachable_perform hd c)
    rw [hstate] at ihstate ihresults
    simp only [performAll, processAll, List.zipWith_cons_cons]
    rw [hresult, hstate]
    exact ⟨ihstate, congrArg _ ihresults⟩

/-- The interfaces agree, call by call and over mixed sequences. -/
theorem interfaces_agree {d : Pancydb} (hd : calls.Reachable d) :
    (∀ serial key value, put d key value = (processPut d { serial, key, value }).1) ∧
      (∀ serial key, (d.remove key).1 = (d.processRemove { serial, key }).1 ∧
        ((d.remove key).2 = true ↔ (d.processRemove { serial, key }).2.errcode = .ok)) ∧
      (∀ serial key, d.version key = (d.processGet { serial, key }).version ∧
        d.get key = (if (d.processGet { serial, key }).version = nonexistentVersion then none
          else some ⟨(d.processGet { serial, key }).value,
            (d.processGet { serial, key }).version⟩) ∧
        (existsKey d key = true ↔
          (d.processGet { serial, key }).version ≠ nonexistentVersion)) ∧
      ∀ cs reqs,
        List.Forall₂ (fun c req => ∃ serial, req = Call.message serial c) cs reqs →
        (performAll d cs).1 = (processAll d reqs).1 ∧
          (performAll d cs).2 = List.zipWith Call.read cs (processAll d reqs).2 := by
  have hversioned := reachable_versioned (reachable_database hd)
  refine ⟨fun serial key value => ?_, fun serial key => ?_, fun serial key => ?_,
    fun cs reqs hmessages => performAll_messages hd hmessages⟩
  · exact (perform_message hversioned serial (.put key value)).1
  · obtain ⟨hstate, hresult⟩ := perform_message hversioned serial (.remove key)
    have hremove := Result.remove.inj hresult
    refine ⟨hstate, ?_⟩
    rw [hremove, beq_iff_eq]
  · have hget := (perform_message hversioned serial (.get key)).2
    have hexists := (perform_message hversioned serial (.existsKey key)).2
    refine ⟨rfl, Result.get.inj hget, ?_⟩
    rw [Result.existsKey.inj hexists, bne_iff_ne]

/-- A key is stored, removed and stored again, through both interfaces. -/
theorem interfaces_agree_recreated :
    (performAll {} [.put "a".toList "x".toList, .remove "a".toList,
        .request (.cas ⟨1, "a".toList, [], "y".toList, 0⟩), .get "a".toList]).2 =
      List.zipWith Call.read [.put "a".toList "x".toList, .remove "a".toList,
          .request (.cas ⟨1, "a".toList, [], "y".toList, 0⟩), .get "a".toList]
        (processAll {} [.put { serial := 7, key := "a".toList, value := "x".toList },
          .remove { serial := 8, key := "a".toList }, .cas ⟨1, "a".toList, [], "y".toList, 0⟩,
          .get ⟨9, "a".toList⟩]).2 :=
  ((interfaces_agree (.init rfl)).2.2.2 _ _
    (.cons ⟨7, rfl⟩ (.cons ⟨8, rfl⟩ (.cons ⟨0, rfl⟩ (.cons ⟨9, rfl⟩ .nil))))).2

end Calls
end Pancydb
end Psets
