/-
A table of locked groups.

The database of a lock sequence service, seen as what it is for: each group has a
lock, which is free or holds a value and a version, and a sequence of values.  The
four operations are what the requests of the clients do to it.
-/
import Mathlib.Logic.Function.Basic
import Psets.LockSeq.Check

namespace Psets
namespace LockSeq

open Pancy

structure Table where
  lock : Nat → Option Vv
  vals : Nat → Nat → Option Str
  next : VersionType

namespace Table

/-- The owner of `value` takes the free lock of `g`. -/
def acquire (t : Table) (g : Nat) (value : Str) : Table :=
  { t with lock := Function.update t.lock g (some ⟨value, t.next⟩), next := t.next + 1 }

def release (t : Table) (g : Nat) : Table :=
  { t with lock := Function.update t.lock g none, next := t.next + 1 }

def write (t : Table) (g v : Nat) (value : Str) : Table :=
  { t with vals := Function.update t.vals g (Function.update (t.vals g) v (some value)),
           next := t.next + 1 }

def clear (t : Table) (g v : Nat) : Table :=
  { t with vals := Function.update t.vals g (Function.update (t.vals g) v none),
           next := t.next + 1 }

@[simp] theorem acquire_lock_self (t : Table) (g : Nat) (value : Str) :
    (t.acquire g value).lock g = some ⟨value, t.next⟩ := Function.update_self ..

@[simp] theorem release_lock_self (t : Table) (g : Nat) : (t.release g).lock g = none :=
  Function.update_self ..

@[simp] theorem write_vals_self (t : Table) (g v : Nat) (value : Str) :
    (t.write g v value).vals g = Function.update (t.vals g) v (some value) :=
  Function.update_self ..

@[simp] theorem clear_vals_self (t : Table) (g v : Nat) :
    (t.clear g v).vals g = Function.update (t.vals g) v none := Function.update_self ..

end Table

/-- The table that a database stands for. -/
def table (db : Pancydb) : Table where
  lock g := db.db.find? (makeLockKey g)
  vals g v := (db.db.find? (makeValueKey g v)).map Vv.value
  next := db.nextVersion

/-! ## The requests -/

theorem table_store_lock (db : Pancydb) (g : Nat) (value : Str) :
    table (db.store (makeLockKey g) value) = (table db).acquire g value := by
  rw [Table.acquire, table]
  congr 1
  · funext g'
    rw [Pancydb.find?_store]
    by_cases h : g' = g
    · subst h
      rw [if_pos rfl, Function.update_self]
      rfl
    · rw [if_neg (mt makeLockKey_inj h), Function.update_of_ne h]
      rfl
  · funext g' v
    rw [Pancydb.find?_store, if_neg (makeLockKey_ne_makeValueKey g g' v).symm]
    rfl

theorem table_store_value (db : Pancydb) (g v : Nat) (value : Str) :
    table (db.store (makeValueKey g v) value) = (table db).write g v value := by
  rw [Table.write, table]
  congr 1
  · funext g'
    rw [Pancydb.find?_store, if_neg (makeLockKey_ne_makeValueKey g' g v)]
    rfl
  · funext g' v'
    rw [Pancydb.find?_store]
    by_cases hg : g' = g
    · subst hg
      rw [Function.update_self]
      by_cases hv : v' = v
      · subst hv
        rw [if_pos rfl, Function.update_self]
        rfl
      · rw [if_neg fun h => hv (makeValueKey_inj h).2, Function.update_of_ne hv]
        rfl
    · rw [if_neg fun h => hg (makeValueKey_inj h).1, Function.update_of_ne hg]
      rfl

theorem table_doRemove_lock (db : Pancydb) (g : Nat) (vv : Vv) :
    table (db.doRemove (makeLockKey g) vv) = (table db).release g := by
  rw [Table.release, table]
  congr 1
  · funext g'
    rw [Pancydb.find?_doRemove]
    by_cases h : g' = g
    · subst h
      rw [if_pos rfl, Function.update_self]
    · rw [if_neg (mt makeLockKey_inj h), Function.update_of_ne h]
      rfl
  · funext g' v
    rw [Pancydb.find?_doRemove, if_neg (makeLockKey_ne_makeValueKey g g' v).symm]
    rfl

theorem table_doRemove_value (db : Pancydb) (g v : Nat) (vv : Vv) :
    table (db.doRemove (makeValueKey g v) vv) = (table db).clear g v := by
  rw [Table.clear, table]
  congr 1
  · funext g'
    rw [Pancydb.find?_doRemove, if_neg (makeLockKey_ne_makeValueKey g' g v)]
    rfl
  · funext g' v'
    rw [Pancydb.find?_doRemove]
    by_cases hg : g' = g
    · subst hg
      rw [Function.update_self]
      by_cases hv : v' = v
      · subst hv
        rw [if_pos rfl, Function.update_self]
        rfl
      · rw [if_neg fun h => hv (makeValueKey_inj h).2, Function.update_of_ne hv]
        rfl
    · rw [if_neg fun h => hg (makeValueKey_inj h).1, Function.update_of_ne hg]
      rfl

/-! The four requests a client sends. -/

def lockRequest (serial g : Nat) (value : Str) : Request :=
  .cas { serial := serial, key := makeLockKey g, expected := [], desired := value }

def writeRequest (serial g v : Nat) (value : Str) : Request :=
  .put { serial := serial, key := makeValueKey g v, value := value }

def clearRequest (serial g v : Nat) : Request :=
  .remove { serial := serial, key := makeValueKey g v }

def unlockRequest (serial g : Nat) (lockVersion : VersionType) : Request :=
  .remove { serial := serial, key := makeLockKey g, versionMatch := lockVersion }

section Requests

variable {db : Pancydb} (serial g : Nat)

theorem versionMismatch_any (version : VersionType) :
    Pancydb.versionMismatch anyVersion version = false := rfl

theorem process_lock_free (value : Str) (h : (table db).lock g = none) :
    table (db.processReq (lockRequest serial g value)).1 = (table db).acquire g value ∧
      (db.processReq (lockRequest serial g value)).2 =
        .cas (Pancydb.modOk serial nonexistentVersion db.nextVersion) := by
  have hfind : db.findVv (makeLockKey g) = nonexistentVv := by
    rw [Pancydb.findVv, show db.db.find? (makeLockKey g) = none from h]
    rfl
  simp only [lockRequest, Pancydb.processReq, Pancydb.processCas, hfind, versionMismatch_any,
    nonexistentVv, bne_self_eq_false, Bool.or_self, Bool.false_eq_true, if_false]
  exact ⟨table_store_lock db g value, trivial⟩

theorem process_lock_held (value : Str) {vv : Vv} (h : (table db).lock g = some vv)
    (hv : vv.value ≠ []) :
    db.processReq (lockRequest serial g value) = (db, .cas (Pancydb.modNoMatch serial vv)) := by
  have hfind : db.findVv (makeLockKey g) = vv := by
    rw [Pancydb.findVv, show db.db.find? (makeLockKey g) = some vv from h]
    rfl
  have hne : ([] != vv.value) = true := bne_iff_ne.2 (Ne.symm hv)
  simp only [lockRequest, Pancydb.processReq, Pancydb.processCas, hfind, hne, Bool.true_or, if_true]

theorem process_write (db : Pancydb) (v : Nat) (value : Str) :
    table (db.processReq (writeRequest serial g v value)).1 = (table db).write g v value ∧
      ∃ m, (db.processReq (writeRequest serial g v value)).2 = .put m ∧ m.errcode = .ok := by
  simp only [writeRequest, Pancydb.processReq, Pancydb.processPut, versionMismatch_any,
    Bool.false_eq_true, if_false]
  exact ⟨table_store_value db g v value, _, rfl, rfl⟩

theorem process_clear_absent (v : Nat) (h : (table db).vals g v = none) :
    (db.processReq (clearRequest serial g v)).1 = db ∧
      ∃ m, (db.processReq (clearRequest serial g v)).2 = .remove m ∧ m.errcode = .notFound := by
  have hfind : db.db.find? (makeValueKey g v) = none := Option.map_eq_none_iff.1 h
  simp only [clearRequest, Pancydb.processReq, Pancydb.processRemove, hfind]
  exact ⟨trivial, _, rfl, rfl⟩

theorem process_clear_present (v : Nat) {o : Str} (h : (table db).vals g v = some o) :
    table (db.processReq (clearRequest serial g v)).1 = (table db).clear g v ∧
      ∃ m, (db.processReq (clearRequest serial g v)).2 = .remove m ∧ m.errcode = .ok := by
  obtain ⟨vv, hfind, _⟩ := Option.map_eq_some_iff.1 h
  simp only [clearRequest, Pancydb.processReq, Pancydb.processRemove, hfind, versionMismatch_any,
    Bool.false_eq_true, if_false]
  exact ⟨table_doRemove_value db g v vv, _, rfl, rfl⟩

theorem process_unlock_held {vv : Vv} (h : (table db).lock g = some vv) :
    table (db.processReq (unlockRequest serial g vv.version)).1 = (table db).release g ∧
      ∃ m, (db.processReq (unlockRequest serial g vv.version)).2 = .remove m ∧
        m.errcode = .ok := by
  have hfind : db.db.find? (makeLockKey g) = some vv := h
  have hm : Pancydb.versionMismatch vv.version vv.version = false := by
    rw [Pancydb.versionMismatch, bne_self_eq_false, Bool.and_false]
  simp only [unlockRequest, Pancydb.processReq, Pancydb.processRemove, hfind, hm,
    Bool.false_eq_true, if_false]
  exact ⟨table_doRemove_lock db g vv, _, rfl, rfl⟩

/-- A version that is not in the lock releases nothing. -/
theorem process_unlock_stale {lockVersion : VersionType} (h0 : 0 ≤ lockVersion)
    (h : ∀ vv, (table db).lock g = some vv → vv.version ≠ lockVersion) :
    (db.processReq (unlockRequest serial g lockVersion)).1 = db ∧
      ∃ m, (db.processReq (unlockRequest serial g lockVersion)).2 = .remove m ∧
        m.errcode ≠ .ok := by
  rcases hfind : db.db.find? (makeLockKey g) with _ | vv
  · simp only [unlockRequest, Pancydb.processReq, Pancydb.processRemove, hfind]
    exact ⟨trivial, _, rfl, by simp⟩
  · have hm : Pancydb.versionMismatch lockVersion vv.version = true := by
      rw [Pancydb.versionMismatch, decide_eq_true h0, Bool.true_and]
      exact bne_iff_ne.2 (Ne.symm (h vv hfind))
    simp only [unlockRequest, Pancydb.processReq, Pancydb.processRemove, hfind, hm, if_true]
    exact ⟨trivial, _, rfl, by simp [Pancydb.modNoMatch]⟩

end Requests

end LockSeq
end Psets
