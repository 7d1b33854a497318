/-
The versions of a Pancy database.

Each successful modification takes the next version, so the stored versions are
positive, different and below `next_version_`.  A version that a key has lost is never
its version again, whatever is stored, removed and stored again.
-/
import Psets.Pancy.Pancydb
import Psets.Transition.Machine

namespace Psets
namespace Pancydb

open Pancy Transition

/-- The calls that can change a database, and the requests that cannot. -/
inductive Op where
  | put (key value : Str)
  | remove (key : Str)
  | request (req : Request)
  deriving DecidableEq, Repr

def Op.key : Op → Str
  | .put key _ => key
  | .remove key => key
  | .request req => req.key

def apply (d : Pancydb) : Op → Pancydb
  | .put key value => d.put key value
  | .remove key => (d.remove key).1
  | .request req => (d.processReq req).1

/-- The call is a modification and reports success. -/
def modified (d : Pancydb) : Op → Bool
  | .put _ _ => true
  | .remove key => (d.remove key).2
  | .request req => (d.processReq req).2.mod?.any fun resp => resp.errcode = .ok

/-- The histories of one database. -/
def database : Machine Pancydb Op where
  init d := d = {}
  step d op := some (d.apply op)

/-! ## What a call does -/

/-- A call changes one key, or nothing. -/
inductive Change (d : Pancydb) (key : Str) : Bool → Pancydb → Prop where
  | none : Change d key false d
  | store (value : Str) : Change d key true (d.store key value)
  | remove {vv : Vv} : d.db.find? key = some vv → Change d key true (d.doRemove key vv)

theorem apply_change (d : Pancydb) (op : Op) :
    Change d op.key (d.modified op) (d.apply op) := by
  cases op with
  | put key value => exact .store value
  | remove key =>
    simp only [Op.key, modified, apply, Pancydb.remove]
    split
    · exact .none
    · rename_i vv hfind
      exact .remove hfind
  | request req =>
    cases req with
    | get req => exact .none
    | put req =>
      simp only [Op.key, Request.key, modified, apply, processReq, processPut]
      split
      · exact .none
      · exact .store req.value
    | cas req =>
      simp only [Op.key, Request.key, modified, apply, processReq, processCas]
      split
      · exact .none
      · exact .store req.desired
    | remove req =>
      simp only [Op.key, Request.key, modified, apply, processReq, processRemove]
      split
      · exact .none
      · rename_i vv hfind
        split
        · exact .none
        · exact .remove hfind

theorem Change.nextVersion {d d' : Pancydb} {key : Str} (h : Change d key true d') :
    d'.nextVersion = d.nextVersion + 1 := by
  cases h <;> rfl

theorem Change.unchanged {d d' : Pancydb} {key : Str} (h : Change d key false d') : d' = d := by
  cases h
  rfl

theorem Change.le_nextVersion {d d' : Pancydb} {key : Str} {b : Bool} (h : Change d key b d') :
    d.nextVersion ≤ d'.nextVersion := by
  cases b with
  | false => exact Int.le_of_eq (by rw [h.unchanged])
  | true =>
    rw [h.nextVersion]
    exact Int.le_of_lt (Int.lt_succ _)

/-- What is stored afterwards was stored before, or is new. -/
theorem Change.find? {d d' : Pancydb} {key key' : Str} {b : Bool} {vv : Vv}
    (h : Change d key b d') (hfind : d'.db.find? key' = some vv) :
    d.db.find? key' = some vv ∧ (key' = key → b = false) ∨
      key' = key ∧ vv.version = d.nextVersion ∧ d'.nextVersion = d.nextVersion + 1 := by
  cases h with
  | none => exact Or.inl ⟨hfind, fun _ => rfl⟩
  | store value =>
    rw [find?_store] at hfind
    by_cases hk : key' = key
    · rw [if_pos hk] at hfind
      rw [← Option.some.inj hfind]
      exact Or.inr ⟨hk, rfl, rfl⟩
    · rw [if_neg hk] at hfind
      exact Or.inl ⟨hfind, fun he => absurd he hk⟩
  | remove _ =>
    rw [find?_doRemove] at hfind
    by_cases hk : key' = key
    · rw [if_pos hk] at hfind
      cases hfind
    · rw [if_neg hk] at hfind
      exact Or.inl ⟨hfind, fun he => absurd he hk⟩

/-! ## The stored versions -/

/-- The stored versions are positive, below `next_version_` and different. -/
structure Versioned (d : Pancydb) : Prop where
  positive : ∀ key vv, d.db.find? key = some vv → 0 < vv.version
  below : ∀ key vv, d.db.find? key = some vv → vv.version < d.nextVersion
  distinct : ∀ key key' vv vv', d.db.find? key = some vv → d.db.find? key' = some vv' →
    vv.version = vv'.version → key = key'
  next : 0 < d.nextVersion

theorem versioned_start : Versioned {} where
  positive _ _ h := by cases h
  below _ _ h := by cases h
  distinct _ _ _ _ h := by cases h
  next := Int.zero_lt_one

theorem Versioned.change {d d' : Pancydb} {key : Str} {b : Bool} (hd : Versioned d)
    (h : Change d key b d') : Versioned d' where
  positive key' vv hfind := by
    rcases h.find? hfind with ⟨hold, _⟩ | ⟨_, hnew, _⟩
    · exact hd.positive key' vv hold
    · rw [hnew]
      exact hd.next
  below key' vv hfind := by
    rcases h.find? hfind with ⟨hold, _⟩ | ⟨_, hnew, hnext⟩
    · exact Int.lt_of_lt_of_le (hd.below key' vv hold) h.le_nextVersion
    · rw [hnew, hnext]
      exact Int.lt_succ _
  distinct key₁ key₂ vv₁ vv₂ hfind₁ hfind₂ hsame := by
    rcases h.find? hfind₁ with ⟨hold₁, _⟩ | ⟨hk₁, hnew₁, _⟩ <;>
      rcases h.find? hfind₂ with ⟨hold₂, _⟩ | ⟨hk₂, hnew₂, _⟩
    · exact hd.distinct key₁ key₂ vv₁ vv₂ hold₁ hold₂ hsame
    · exact absurd (hsame.trans hnew₂) (Int.ne_of_lt (hd.below key₁ vv₁ hold₁))
    · exact absurd (hsame.symm.trans hnew₁) (Int.ne_of_lt (hd.below key₂ vv₂ hold₂))
    · rw [hk₁, hk₂]
  next := Int.lt_of_lt_of_le hd.next h.le_nextVersion

theorem reachable_versioned {d : Pancydb} (h : database.Reachable d) : Versioned d :=
  Machine.Reachable.invariant (fun _ hs => hs ▸ versioned_start)
    (fun d op _ hd hs => Option.some.inj hs ▸ hd.change (apply_change d op)) h

/-! ## The version of one key -/

/-- The version of `key`, if it has one, is `n` at least. -/
def Past (n : VersionType) (key : Str) (d : Pancydb) : Prop :=
  ∀ vv, d.db.find? key = some vv → n ≤ vv.version

theorem Past.change {d d' : Pancydb} {n : VersionType} {key key' : Str} {b : Bool}
    (hpast : Past n key d) (hn : n ≤ d.nextVersion) (h : Change d key' b d') :
    Past n key d' := by
  intro vv hfind
  rcases h.find? hfind with ⟨hold, _⟩ | ⟨_, hnew, _⟩
  · exact hpast vv hold
  · rw [hnew]
    exact hn

theorem Past.run {d d' : Pancydb} {n : VersionType} {key : Str} {ops : List Op}
    (hpast : Past n key d) (hn : n ≤ d.nextVersion) (h : database.exec d ops = some d') :
    Past n key d' := by
  have hboth : Past n key d' ∧ n ≤ d'.nextVersion := by
    refine Machine.exec_preserves (P := fun d => Past n key d ∧ n ≤ d.nextVersion)
      (fun d op e hd hs => ?_) ⟨hpast, hn⟩ h
    obtain rfl := Option.some.inj hs
    have hchange := apply_change d op
    exact ⟨hd.1.change hd.2 hchange, Int.le_trans hd.2 hchange.le_nextVersion⟩
  exact hboth.1

/-- A modified key has no earlier version any more. -/
theorem Change.past {d d' : Pancydb} {key : Str} (h : Change d key true d') :
    Past d.nextVersion key d' := by
  intro vv hfind
  rcases h.find? hfind with ⟨_, hfalse⟩ | ⟨_, hnew, _⟩
  · cases hfalse rfl
  · exact Int.le_of_eq hnew.symm

/-- The call does not modify `key`. -/
def Spares (key : Str) (d : Pancydb) (op : Op) : Prop := ¬ (op.key = key ∧ d.modified op = true)

theorem Change.find?_of_spared {d d' : Pancydb} {key key' : Str} {b : Bool}
    (h : Change d key' b d') (hspared : ¬ (key' = key ∧ b = true)) :
    d'.db.find? key = d.db.find? key := by
  cases h with
  | none => rfl
  | store value => rw [find?_store, if_neg fun he => hspared ⟨he.symm, rfl⟩]
  | remove _ => rw [find?_doRemove, if_neg fun he => hspared ⟨he.symm, rfl⟩]

/-- Either a run spares a key, or it takes its version away for good. -/
theorem run_key {d d' : Pancydb} {ops : List Op} (key : Str)
    (h : database.exec d ops = some d') :
    d'.db.find? key = d.db.find? key ∧ database.Within (Spares key) d ops ∨
      Past d.nextVersion key d' := by
  induction ops generalizing d with
  | nil => exact Or.inl ⟨by rw [Option.some.inj h], trivial⟩
  | cons op ops ih =>
    obtain ⟨e, he, hrun⟩ := Machine.exec_cons_inv h
    obtain rfl := Option.some.inj he
    have hchange := apply_change d op
    by_cases hspares : Spares key d op
    · rcases ih hrun with ⟨hfind, hwithin⟩ | hpast
      · refine Or.inl ⟨hfind.trans (hchange.find?_of_spared hspares), hspares, fun t ht => ?_⟩
        rwa [← Option.some.inj ht]
      · exact Or.inr fun vv hvv => Int.le_trans hchange.le_nextVersion (hpast vv hvv)
    · have hhit := Classical.not_not.1 hspares
      rw [hhit.1, hhit.2] at hchange
      exact Or.inr (hchange.past.run hchange.le_nextVersion hrun)

theorem findVv_version_pos {d : Pancydb} {key : Str} (h : 0 < (d.findVv key).version) :
    d.db.find? key = some (d.findVv key) := by
  unfold findVv at h ⊢
  cases hfind : d.db.find? key with
  | none =>
    rw [hfind] at h
    exact absurd h (Int.lt_irrefl 0)
  | some vv => rfl

/-- The discipline of versions.  Every read of a key (`GET`, `version` and `get`) reports
what `findVv` finds. -/
theorem version_discipline {d : Pancydb} (hd : database.Reachable d) :
    Versioned d ∧
      (∀ op, (d.modified op = true → (d.apply op).nextVersion = d.nextVersion + 1) ∧
        (d.modified op = false → d.apply op = d)) ∧
      ∀ ops d' key, database.exec d ops = some d' → 0 < (d.findVv key).version →
        (d'.findVv key).version = (d.findVv key).version →
        (d'.findVv key).value = (d.findVv key).value ∧ database.Within (Spares key) d ops := by
  have hversioned := reachable_versioned hd
  refine ⟨hversioned, fun op => ⟨fun hm => ?_, fun hm => ?_⟩, ?_⟩
  · have hchange := apply_change d op
    rw [hm] at hchange
    exact hchange.nextVersion
  · have hchange := apply_change d op
    rw [hm] at hchange
    exact hchange.unchanged
  · intro ops d' key hrun hpos hsame
    rcases run_key key hrun with ⟨hfind, hwithin⟩ | hpast
    · have hread : d'.findVv key = d.findVv key := by
        unfold findVv
        rw [hfind]
      exact ⟨by rw [hread], hwithin⟩
    · -- the version of the first read is below those that are left
      have hbelow := hversioned.below key _ (findVv_version_pos hpos)
      have hpos' : 0 < (d'.findVv key).version := by rwa [hsame]
      have hle := hpast _ (findVv_version_pos hpos')
      rw [hsame] at hle
      exact absurd hbelow (Int.not_lt.2 hle)

/-- Two keys are stored, one of them is removed and stored again. -/
def recreated : Pancydb :=
  (database.exec {} [.put "a".toList "x".toList, .put "b".toList "y".toList,
    .remove "a".toList, .put "a".toList "x".toList]).get (by decide)

theorem recreated_reachable : database.Reachable recreated :=
  Machine.Reachable.of_get (M := database) rfl (by decide)

/-- `b` is read before and after `a` is modified again. -/
theorem version_discipline_recreated : Versioned recreated ∧
    ((recreated.apply (.put "a".toList "z".toList)).findVv "b".toList).value =
      (recreated.findVv "b".toList).value := by
  obtain ⟨hversioned, _, hread⟩ := version_discipline recreated_reachable
  refine ⟨hversioned, ?_⟩
  exact (hread [.put "a".toList "z".toList] _ "b".toList rfl (by decide) (by decide)).1

/-! ## Modifications that ask for a version -/

/-- Such a modification succeeds on the version it asks for, and only there. -/
theorem processReq_versioned (d : Pancydb) {req : Request} (hv : 0 < req.versionMatch) :
    ∃ resp, (d.processReq req).2.mod? = some resp ∧
      (resp.errcode = .ok ∧ resp.previousVersion = req.versionMatch ∧
          (d.findVv req.key).version = req.versionMatch ∨
        (resp.errcode = .noMatch ∨ resp.errcode = .notFound) ∧
          (d.processReq req).1 = d) := by
  have hmatch : ∀ {versionMatch version : VersionType}, 0 < versionMatch →
      ¬ versionMismatch versionMatch version = true → version = versionMatch := by
    intro versionMatch version hpos hmm
    simp only [versionMismatch, Bool.and_eq_true, decide_eq_true_eq, bne_iff_ne, ne_eq,
      not_and, not_not] at hmm
    exact (hmm (Int.le_of_lt hpos)).symm
  cases req with
  | get req => exact absurd hv (show ¬ (0 : Int) < -1 by decide)
  | put req =>
    refine ⟨_, rfl, ?_⟩
    simp only [processReq, processPut]
    split
    · exact Or.inr ⟨Or.inl rfl, rfl⟩
    · rename_i hmm
      have he := hmatch hv hmm
      exact Or.inl ⟨rfl, he, he⟩
  | cas req =>
    refine ⟨_, rfl, ?_⟩
    simp only [processReq, processCas]
    split
    · exact Or.inr ⟨Or.inl rfl, rfl⟩
    · rename_i hmm
      rw [Bool.or_eq_true, not_or] at hmm
      have he := hmatch hv hmm.2
      exact Or.inl ⟨rfl, he, he⟩
  | remove req =>
    refine ⟨_, rfl, ?_⟩
    simp only [processReq, processRemove]
    split
    · exact Or.inr ⟨Or.inr rfl, rfl⟩
    · rename_i vv hfind
      split
      · exact Or.inr ⟨Or.inl rfl, rfl⟩
      · rename_i hmm
        have he := hmatch hv hmm
        refine Or.inl ⟨rfl, he, ?_⟩
        show ((d.db.find? req.key).getD nonexistentVv).version = req.versionMatch
        rw [hfind]
        exact he

/-- How often a delivery of `req` succeeds in a run. -/
def successes (req : Request) : Pancydb → List Op → Nat
  | _, [] => 0
  | d, op :: ops =>
    (if op = .request req ∧ d.modified op = true then 1 else 0) + successes req (d.apply op) ops

/-- The key of `req` has left the version that `req` asks for. -/
def Missed (req : Request) (d : Pancydb) : Prop :=
  Past (req.versionMatch + 1) req.key d ∧ req.versionMatch < d.nextVersion

theorem Missed.run {req : Request} {d d' : Pancydb} {ops : List Op} (h : Missed req d)
    (hrun : database.exec d ops = some d') : Missed req d' := by
  refine Machine.exec_preserves (P := Missed req) (fun d op e hd hs => ?_) h hrun
  obtain rfl := Option.some.inj hs
  have hchange := apply_change d op
  exact ⟨hd.1.change (Int.add_one_le_of_lt hd.2) hchange,
    Int.lt_of_lt_of_le hd.2 hchange.le_nextVersion⟩

/-- A delivery that comes too late. -/
theorem Missed.fails {req : Request} {d : Pancydb} (h : Missed req d)
    (hv : 0 < req.versionMatch) :
    (d.processReq req).1 = d ∧ ∃ resp, (d.processReq req).2.mod? = some resp ∧
      (resp.errcode = .noMatch ∨ resp.errcode = .notFound) := by
  obtain ⟨resp, hresp, hcase⟩ := d.processReq_versioned hv
  rcases hcase with ⟨_, _, hversion⟩ | ⟨herr, hsame⟩
  · have hfind := findVv_version_pos (hversion.symm ▸ hv)
    have hle := h.1 _ hfind
    rw [hversion] at hle
    exact absurd (Int.lt_succ _) (Int.not_lt.2 hle)
  · exact ⟨hsame, resp, hresp, herr⟩

theorem not_modified_of_fails {req : Request} {d : Pancydb} {resp : ModResponse}
    (hresp : (d.processReq req).2.mod? = some resp)
    (herr : resp.errcode = .noMatch ∨ resp.errcode = .notFound) :
    d.modified (.request req) = false := by
  simp only [modified, hresp, Option.any_some]
  rcases herr with he | he <;> rw [he] <;> rfl

/-- A delivery that succeeds uses the version up. -/
theorem missed_of_modified {req : Request} {d : Pancydb} (hd : Versioned d)
    (hv : 0 < req.versionMatch) (hm : d.modified (.request req) = true) :
    (∃ resp, (d.processReq req).2.mod? = some resp ∧ resp.previousVersion = req.versionMatch) ∧
      Missed req (d.apply (.request req)) := by
  obtain ⟨resp, hresp, hcase⟩ := d.processReq_versioned hv
  rcases hcase with ⟨_, hprev, hversion⟩ | ⟨herr, _⟩
  · refine ⟨⟨resp, hresp, hprev⟩, ?_⟩
    have hchange := apply_change d (.request req)
    rw [hm] at hchange
    have hbelow := hd.below _ _ (findVv_version_pos (hversion.symm ▸ hv))
    rw [hversion] at hbelow
    refine ⟨fun vv hfind => ?_, Int.lt_of_lt_of_le hbelow hchange.le_nextVersion⟩
    exact Int.le_trans (Int.add_one_le_of_lt hbelow) (hchange.past vv hfind)
  · rw [not_modified_of_fails hresp herr] at hm
    cases hm

theorem Missed.successes {req : Request} {d : Pancydb} (h : Missed req d)
    (hv : 0 < req.versionMatch) (ops : List Op) : successes req d ops = 0 := by
  induction ops generalizing d with
  | nil => rfl
  | cons op ops ih =>
    have hone : database.exec d [op] = some (d.apply op) := rfl
    have hrest := ih (h.run hone)
    rw [Pancydb.successes, hrest, if_neg]
    rintro ⟨rfl, hm⟩
    obtain ⟨_, resp, hresp, herr⟩ := h.fails hv
    rw [not_modified_of_fails hresp herr] at hm
    cases hm

/-- A modification that asks for a version succeeds once at most, however often it is
delivered, and whatever else is processed in between. -/
theorem conditional_once {d : Pancydb} (hd : database.Reachable d) {req : Request}
    (hv : 0 < req.versionMatch) :
    (∀ ops, successes req d ops ≤ 1) ∧
      (d.modified (.request req) = true →
        (∃ resp, (d.processReq req).2.mod? = some resp ∧
          resp.previousVersion = req.versionMatch) ∧
        ∀ ops e, database.exec (d.apply (.request req)) ops = some e →
          (e.processReq req).1 = e ∧ ∃ resp, (e.processReq req).2.mod? = some resp ∧
            (resp.errcode = .noMatch ∨ resp.errcode = .notFound)) := by
  constructor
  · intro ops
    induction ops generalizing d with
    | nil => exact Nat.zero_le 1
    | cons op ops ih =>
      have hnext : database.Reachable (d.apply op) := .step op hd trivial rfl
      rw [successes]
      split
      · rename_i hhit
        obtain ⟨rfl, hm⟩ := hhit
        have hmissed := (missed_of_modified (reachable_versioned hd) hv hm).2
        rw [hmissed.successes hv]
      · rw [Nat.zero_add]
        exact ih hnext
  · intro hm
    obtain ⟨hprev, hmissed⟩ := missed_of_modified (reachable_versioned hd) hv hm
    exact ⟨hprev, fun ops e hrun => (hmissed.run hrun).fails hv⟩

/-- The removal of version 2 of `b`, delivered twice around a new version. -/
theorem conditional_once_recreated :
    successes (.remove ⟨7, "b".toList, 2⟩) recreated
      [.request (.remove ⟨7, "b".toList, 2⟩), .put "b".toList "z".toList,
        .request (.remove ⟨7, "b".toList, 2⟩)] ≤ 1 :=
  (conditional_once recreated_reachable (by decide)).1 _

end Pancydb
end Psets
