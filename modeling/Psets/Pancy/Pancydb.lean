/-
The Pancy messages and `pancydb`, the database that processes them.

A string is the list of its bytes, each written as the character with that code,
so that strings compare as `std::string` does.  Versions are integers: they are
64-bit in the source and rise by one with each modification, and -1 asks for any
version.
-/
import Mathlib.Data.Char
import Mathlib.Data.List.Lex
import Psets.Containers.Numerals
import Psets.Containers.SortedMap

namespace Psets
namespace Pancy

/-! ## Messages -/

abbrev VersionType := Int

/-- Represents absent keys. -/
def nonexistentVersion : VersionType := 0

/-- Used in `versionMatch` to match any version. -/
def anyVersion : VersionType := -1

inductive Errc where
  | ok
  | notFound
  | noMatch
  | redirect
  deriving DecidableEq, Repr

structure GetRequest where
  serial : Nat
  key : Str
  deriving DecidableEq, Repr

structure PutRequest where
  serial : Nat
  key : Str
  value : Str
  versionMatch : VersionType := anyVersion
  deriving DecidableEq, Repr

structure CasRequest where
  serial : Nat
  key : Str
  expected : Str
  desired : Str
  versionMatch : VersionType := anyVersion
  deriving DecidableEq, Repr

structure RemoveRequest where
  serial : Nat
  key : Str
  versionMatch : VersionType := anyVersion
  deriving DecidableEq, Repr

inductive Request where
  | get (req : GetRequest)
  | put (req : PutRequest)
  | cas (req : CasRequest)
  | remove (req : RemoveRequest)
  deriving DecidableEq, Repr

structure GetResponse where
  serial : Nat
  errcode : Errc
  value : Str
  version : VersionType
  deriving DecidableEq, Repr

/-- The fields of `put_response`, `cas_response` and `remove_response`. -/
structure ModResponse where
  serial : Nat
  errcode : Errc
  actual : Str
  previousVersion : VersionType
  version : VersionType
  deriving DecidableEq, Repr

structure RedirectionResponse where
  serial : Nat
  errcode : Errc
  redirection : Nat
  deriving DecidableEq, Repr

inductive Response where
  | redirection (resp : RedirectionResponse)
  | get (resp : GetResponse)
  | put (resp : ModResponse)
  | cas (resp : ModResponse)
  | remove (resp : ModResponse)
  deriving DecidableEq, Repr

def Request.serial : Request → Nat
  | .get req => req.serial
  | .put req => req.serial
  | .cas req => req.serial
  | .remove req => req.serial

def Request.key : Request → Str
  | .get req => req.key
  | .put req => req.key
  | .cas req => req.key
  | .remove req => req.key

/-- The version that a modification asks for. -/
def Request.versionMatch : Request → VersionType
  | .get _ => anyVersion
  | .put req => req.versionMatch
  | .cas req => req.versionMatch
  | .remove req => req.versionMatch

def Response.serial : Response → Nat
  | .redirection resp => resp.serial
  | .get resp => resp.serial
  | .put resp | .cas resp | .remove resp => resp.serial

/-- The response to a modification. -/
def Response.mod? : Response → Option ModResponse
  | .put resp | .cas resp | .remove resp => some resp
  | _ => none

def Response.isRedirection : Response → Bool
  | .redirection _ => true
  | _ => false

/-! ## The database -/

/-- A versioned value. -/
structure Vv where
  value : Str
  version : VersionType
  deriving DecidableEq, Repr

def nonexistentVv : Vv := ⟨[], nonexistentVersion⟩

structure RecentRemove where
  key : Str
  vv : Vv
  removeVersion : VersionType
  deriving DecidableEq, Repr

end Pancy

structure Pancydb where
  nextVersion : Pancy.VersionType := 1
  db : SortedMap Str Pancy.Vv := SortedMap.empty
  recentRemoves : List Pancy.RecentRemove := []
  deriving DecidableEq

namespace Pancydb

open Pancy

def maxRecentRemoves : Nat := 100

instance : Inhabited Pancydb := ⟨{}⟩

/-- The stored value, or `nonexistentVv`. -/
def findVv (d : Pancydb) (key : Str) : Vv := (d.db.find? key).getD nonexistentVv

/-- Store `value` at `key` under the next version. -/
def store (d : Pancydb) (key value : Str) : Pancydb :=
  { d with db := d.db.insert key ⟨value, d.nextVersion⟩, nextVersion := d.nextVersion + 1 }

/-- Erase the entry of `key`, which holds `vv`. -/
def doRemove (d : Pancydb) (key : Str) (vv : Vv) : Pancydb :=
  { nextVersion := d.nextVersion + 1
    db := d.db.erase key
    recentRemoves := (⟨key, vv, d.nextVersion⟩ :: d.recentRemoves).take maxRecentRemoves }

/-! The direct calls. -/

def version (d : Pancydb) (key : Str) : VersionType := (d.findVv key).version

def get (d : Pancydb) (key : Str) : Option Vv :=
  let vv := d.findVv key
  if vv.version ≠ nonexistentVersion then some vv else none

def put (d : Pancydb) (key value : Str) : Pancydb := d.store key value

def remove (d : Pancydb) (key : Str) : Pancydb × Bool :=
  match d.db.find? key with
  | none => (d, false)
  | some vv => (d.doRemove key vv, true)

/-! The requests. -/

/-- A request that asks for a version other than the stored one. -/
def versionMismatch (versionMatch version : VersionType) : Bool :=
  decide (0 ≤ versionMatch) && versionMatch != version

def modNoMatch (serial : Nat) (vv : Vv) : ModResponse :=
  ⟨serial, .noMatch, vv.value, vv.version, vv.version⟩

def modOk (serial : Nat) (previousVersion version : VersionType) : ModResponse :=
  ⟨serial, .ok, [], previousVersion, version⟩

/-- `find_vvptr` never returns null, so an absent key reads as the empty string at
version zero and not as an error. -/
def processGet (d : Pancydb) (req : GetRequest) : GetResponse :=
  let vv := d.findVv req.key
  ⟨req.serial, .ok, vv.value, vv.version⟩

def processPut (d : Pancydb) (req : PutRequest) : Pancydb × ModResponse :=
  let vv := d.findVv req.key
  if versionMismatch req.versionMatch vv.version then (d, modNoMatch req.serial vv)
  else (d.store req.key req.value, modOk req.serial vv.version d.nextVersion)

def processCas (d : Pancydb) (req : CasRequest) : Pancydb × ModResponse :=
  let vv := d.findVv req.key
  if req.expected != vv.value || versionMismatch req.versionMatch vv.version then
    (d, modNoMatch req.serial vv)
  else (d.store req.key req.desired, modOk req.serial vv.version d.nextVersion)

def processRemove (d : Pancydb) (req : RemoveRequest) : Pancydb × ModResponse :=
  match d.db.find? req.key with
  | none => (d, ⟨req.serial, .notFound, [], nonexistentVersion, nonexistentVersion⟩)
  | some vv =>
    if versionMismatch req.versionMatch vv.version then (d, modNoMatch req.serial vv)
    else (d.doRemove req.key vv, modOk req.serial vv.version nonexistentVersion)

def processReq (d : Pancydb) : Request → Pancydb × Response
  | .get req => (d, .get (d.processGet req))
  | .put req => ((d.processPut req).1, .put (d.processPut req).2)
  | .cas req => ((d.processCas req).1, .cas (d.processCas req).2)
  | .remove req => ((d.processRemove req).1, .remove (d.processRemove req).2)

theorem find?_store (d : Pancydb) (key value key' : Str) :
    (d.store key value).db.find? key' =
      if key' = key then some ⟨value, d.nextVersion⟩ else d.db.find? key' := by
  rw [store, SortedMap.find?_insert]
  by_cases h : key' = key
  · rw [if_pos h, if_pos h]
  · rw [if_neg h, if_neg h]

theorem find?_doRemove (d : Pancydb) (key : Str) (vv : Vv) (key' : Str) :
    (d.doRemove key vv).db.find? key' = if key' = key then none else d.db.find? key' := by
  rw [doRemove, SortedMap.find?_erase]
  by_cases h : key' = key
  · rw [if_pos h, if_pos h]
  · rw [if_neg h, if_neg h]

/-! ## Replaying a sequence of requests -/

/-- The database after a sequence of requests. -/
def replay (reqs : List Request) : Pancydb := reqs.foldl (fun d req => (d.processReq req).1) {}

@[simp] theorem replay_append_one (reqs : List Request) (req : Request) :
    replay (reqs ++ [req]) = ((replay reqs).processReq req).1 := by
  simp [replay]

theorem processReq_isRedirection (d : Pancydb) (req : Request) :
    (d.processReq req).2.isRedirection = false := by
  cases req <;> rfl

theorem processReq_serial (d : Pancydb) (req : Request) :
    (d.processReq req).2.serial = req.serial := by
  cases req with
  | get req => rfl
  | put req =>
    simp only [processReq, processPut, Response.serial]
    split <;> rfl
  | cas req =>
    simp only [processReq, processCas, Response.serial]
    split <;> rfl
  | remove req =>
    simp only [processReq, processRemove, Response.serial]
    split
    · rfl
    · split <;> rfl

end Pancydb
end Psets
