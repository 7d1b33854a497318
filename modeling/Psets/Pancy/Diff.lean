/-
`pancydb::diff`: whether one database lags behind another.

The walk calls the caller's database the newer one unless the other has a greater
`next_version_`.  A key that the newer database has removed is looked up in
`recent_removes_`, which holds the last 100 removals.

`version_skew` is a `size_t` in the source, and the window `next_version_ -
version_skew` is the difference of the numbers as long as it does not wrap.
-/
import Psets.Pancy.Versions

namespace Psets
namespace Pancydb

open Pancy Transition

/-- `find_recent_remove`. -/
def findRecentRemove (d : Pancydb) (key : Str) (minVersion : VersionType) : Option Vv :=
  (d.recentRemoves.find? fun rr => rr.key == key && decide (minVersion ≤ rr.removeVersion)).map
    RecentRemove.vv

/-- The recent removals are complete for the window: the deque has not reached its
capacity, or its oldest entry predates the window. -/
def removesComplete (d : Pancydb) (minVersion : VersionType) : Bool :=
  decide (d.recentRemoves.length < maxRecentRemoves) ||
    d.recentRemoves.getLast?.any fun rr => decide (rr.removeVersion ≤ minVersion)

/-- The version correspondence: is there an error? -/
def mismatch (minVersion : VersionType) (aRemovesComplete : Bool) : Option Vv → Option Vv → Bool
  -- missing from the older database, but maybe added within the window
  | some avv, none => !decide (minVersion ≤ avv.version)
  -- missing from the newer database, but maybe an evicted removal
  | none, _ => aRemovesComplete
  | some avv, some bvv =>
    decide (avv.version < bvv.version) ||
      decide (bvv.version < avv.version ∧ avv.version < minVersion) ||
      decide (avv.version = bvv.version ∧ avv.value ≠ bvv.value)

def minVersion (a : Pancydb) (versionSkew : Nat) : VersionType := a.nextVersion - versionSkew

/-- The check of one key, where `avv` and `bvv` are what the databases store. -/
def differs (a b : Pancydb) (versionSkew : Nat) (key : Str) (avv bvv : Option Vv) : Bool :=
  let minVersion := a.minVersion versionSkew
  mismatch minVersion (a.removesComplete minVersion)
    (avv.or (a.findRecentRemove key minVersion)) (bvv.or (b.findRecentRemove key minVersion))

/-- The loop of `diff`, with `a` as the newer database. -/
def diffNewer (a b : Pancydb) (versionSkew : Nat) : Option Str :=
  SortedMap.mergeFind (differs a b versionSkew) a.db.entries b.db.entries

def diff (a b : Pancydb) (versionSkew : Nat) : Option Str :=
  if a.nextVersion < b.nextVersion then diffNewer b a versionSkew
  else diffNewer a b versionSkew

/-- A key of one of the databases is in order. -/
theorem diffNewer_eq_none (a b : Pancydb) (versionSkew : Nat) :
    diffNewer a b versionSkew = none ↔
      ∀ key, a.db.find? key ≠ none ∨ b.db.find? key ≠ none →
        differs a b versionSkew key (a.db.find? key) (b.db.find? key) = false :=
  SortedMap.mergeFind_eq_none a.db.sorted b.db.sorted

/-! ## Recent removals -/

/-- The removals are kept with the last one first, up to the capacity. -/
structure Recorded (d : Pancydb) : Prop where
  descending : d.recentRemoves.Pairwise fun rr rr' => rr'.removeVersion < rr.removeVersion
  below : ∀ rr ∈ d.recentRemoves, rr.removeVersion < d.nextVersion
  stored : ∀ rr ∈ d.recentRemoves, rr.vv.version < rr.removeVersion
  capacity : d.recentRemoves.length ≤ maxRecentRemoves

theorem recorded_start : Recorded {} where
  descending := List.Pairwise.nil
  below _ h := by cases h
  stored _ h := by cases h
  capacity := Nat.zero_le _

theorem Recorded.change {d d' : Pancydb} {key : Str} {b : Bool} (hd : Recorded d)
    (hv : Versioned d) (h : Change d key b d') : Recorded d' := by
  have hnext := h.le_nextVersion
  cases h with
  | none => exact hd
  | store value =>
    exact { hd with below := fun rr hrr => Int.lt_of_lt_of_le (hd.below rr hrr) hnext }
  | @remove vv hfind =>
    have hmem : ∀ rr ∈ (d.doRemove key vv).recentRemoves,
        rr = ⟨key, vv, d.nextVersion⟩ ∨ rr ∈ d.recentRemoves :=
      fun rr hrr => List.mem_cons.1 (List.mem_of_mem_take hrr)
    refine ⟨?_, fun rr hrr => ?_, fun rr hrr => ?_, List.length_take_le _ _⟩
    · exact (List.pairwise_cons.2 ⟨hd.below, hd.descending⟩).sublist (List.take_sublist _ _)
    · rcases hmem rr hrr with rfl | hold
      · exact Int.lt_succ _
      · exact Int.lt_of_lt_of_le (hd.below rr hold) hnext
    · rcases hmem rr hrr with rfl | hold
      · exact hv.below key vv hfind
      · exact hd.stored rr hold

theorem reachable_recorded {d : Pancydb} (h : database.Reachable d) : Recorded d := by
  have hboth : Versioned d ∧ Recorded d := by
    refine Machine.Reachable.invariant (P := fun d => Versioned d ∧ Recorded d)
      (fun d hs => ?_) (fun d op e hd hs => ?_) h
    · have hinit : d = {} := hs
      rw [hinit]
      exact ⟨versioned_start, recorded_start⟩
    · obtain rfl := Option.some.inj hs
      have hchange := apply_change d op
      exact ⟨hd.1.change hchange, hd.2.change hd.1 hchange⟩
  exact hboth.2

/-! ## Lagging -/

/-- What became of a key that `b` has and `a` has no more: its last removal is on
record, or was evicted by later ones. -/
def Removed (a : Pancydb) (n : VersionType) (key : Str) (vv : Vv) : Prop :=
  (∃ rr, a.recentRemoves.find? (fun rr => rr.key == key) = some rr ∧ n ≤ rr.removeVersion ∧
      (n ≤ rr.vv.version ∨ rr.vv = vv)) ∨
    (∀ rr ∈ a.recentRemoves, rr.key ≠ key ∧ n < rr.removeVersion) ∧
      a.recentRemoves.length = maxRecentRemoves

/-- `b` lags behind `a`: what differs was modified after `b`. -/
structure Lags (b a : Pancydb) : Prop where
  next : b.nextVersion ≤ a.nextVersion
  kept : ∀ key vv, a.db.find? key = some vv →
    b.nextVersion ≤ vv.version ∨ b.db.find? key = some vv
  gone : ∀ key vv, b.db.find? key = some vv → a.db.find? key = none →
    Removed a b.nextVersion key vv

theorem Lags.refl (d : Pancydb) : Lags d d where
  next := Int.le_refl _
  kept _ _ h := Or.inr h
  gone key vv h h' := by
    rw [h] at h'
    cases h'

/-- Another removal leaves the record of `key` in place, or evicts it. -/
theorem Removed.doRemove {a : Pancydb} {n : VersionType} {key key' : Str} {vv vv' : Vv}
    (h : Removed a n key vv) (ha : Recorded a) (hne : key' ≠ key) :
    Removed (a.doRemove key' vv') n key vv := by
  rcases h with ⟨rr, hfind, hrr, hvv⟩ | ⟨hlater, hfull⟩
  · -- the record is on the list, behind `pre`
    obtain ⟨hkey, pre, post, hlist, hpre⟩ := List.find?_eq_some_iff_append.1 hfind
    have hrest : (a.doRemove key' vv').recentRemoves =
        ((⟨key', vv', a.nextVersion⟩ :: pre) ++ rr :: post).take maxRecentRemoves := by
      rw [Pancydb.doRemove, hlist]
      rfl
    have hmiss : ∀ rr' ∈ (⟨key', vv', a.nextVersion⟩ :: pre : List RecentRemove),
        rr'.key ≠ key := by
      intro rr' hrr'
      rcases List.mem_cons.1 hrr' with rfl | hrr'
      · exact hne
      · simpa using hpre rr' hrr'
    by_cases hroom : (⟨key', vv', a.nextVersion⟩ :: pre : List RecentRemove).length <
        maxRecentRemoves
    · refine Or.inl ⟨rr, ?_, hrr, hvv⟩
      obtain ⟨k, hk⟩ := Nat.exists_eq_add_of_lt hroom
      rw [hrest, hk, Nat.add_assoc, List.take_length_add_append, List.take_succ_cons,
        List.find?_append, List.find?_eq_none.2 fun rr' hrr' => by simpa using hmiss rr' hrr',
        Option.none_or, List.find?_cons, hkey]
    · -- evicted: what is left was removed later
      refine Or.inr ⟨fun rr' hrr' => ?_, ?_⟩
      · rw [hrest, List.take_append_of_le_length (Nat.not_lt.1 hroom)] at hrr'
        have hmem := List.mem_of_mem_take hrr'
        refine ⟨hmiss rr' hmem, Int.lt_of_le_of_lt hrr ?_⟩
        rcases List.mem_cons.1 hmem with rfl | hmem
        · exact ha.below rr (by rw [hlist]; simp)
        · have hdesc := ha.descending
          rw [hlist] at hdesc
          exact (List.pairwise_append.1 hdesc).2.2 rr' hmem rr List.mem_cons_self
      · rw [hrest, List.length_take, List.length_append]
        omega
  · refine Or.inr ⟨fun rr hrr => ?_, ?_⟩
    · rcases List.mem_cons.1 (List.mem_of_mem_take hrr) with rfl | hold
      · refine ⟨hne, ?_⟩
        obtain ⟨rr₀, hrr₀⟩ := List.exists_mem_of_length_pos
          (show 0 < a.recentRemoves.length by rw [hfull]; decide)
        exact Int.lt_trans (hlater rr₀ hrr₀).2 (ha.below rr₀ hrr₀)
      · exact hlater rr hold
    · rw [Pancydb.doRemove, List.length_take, List.length_cons, hfull]
      rfl

theorem Lags.change {a a' b : Pancydb} {key : Str} {f : Bool} (h : Lags b a) (ha : Recorded a)
    (hc : Change a key f a') : Lags b a' := by
  have hnext := Int.le_trans h.next hc.le_nextVersion
  refine ⟨hnext, fun key' vv hfind => ?_, fun key' vv hb hfind => ?_⟩
  · rcases hc.find? hfind with ⟨hold, _⟩ | ⟨_, hnew, _⟩
    · exact h.kept key' vv hold
    · rw [hnew]
      exact Or.inl h.next
  · cases hc with
    | none => exact h.gone key' vv hb hfind
    | store value =>
      rw [find?_store] at hfind
      by_cases hk : key' = key
      · rw [if_pos hk] at hfind
        cases hfind
      · rw [if_neg hk] at hfind
        exact h.gone key' vv hb hfind
    | @remove vv' hstored =>
      rw [find?_doRemove] at hfind
      by_cases hk : key' = key
      · -- the removal that `diff` will find
        subst hk
        refine Or.inl ⟨⟨key', vv', a.nextVersion⟩, ?_, h.next, ?_⟩
        · rw [Pancydb.doRemove, maxRecentRemoves, List.take_succ_cons, List.find?_cons,
            beq_self_eq_true]
        · rcases h.kept key' vv' hstored with hle | hsame
          · exact Or.inl hle
          · rw [hb] at hsame
            exact Or.inr (Option.some.inj hsame).symm
      · rw [if_neg hk] at hfind
        exact (h.gone key' vv hb hfind).doRemove ha (Ne.symm hk)

theorem Lags.run {a a' b : Pancydb} {ops : List Op} (h : Lags b a) (ha : Versioned a)
    (ha' : Recorded a) (hrun : database.exec a ops = some a') : Lags b a' := by
  have hall : Lags b a' ∧ Versioned a' ∧ Recorded a' := by
    refine Machine.exec_preserves (P := fun a => Lags b a ∧ Versioned a ∧ Recorded a)
      (fun a op e hd hs => ?_) ⟨h, ha, ha'⟩ hrun
    obtain rfl := Option.some.inj hs
    have hchange := apply_change a op
    exact ⟨hd.1.change hd.2.2 hchange, hd.2.1.change hchange,
      hd.2.2.change hd.2.1 hchange⟩
  exact hall.1

/-- A record that is later than the window agrees with an older one, and with itself. -/
theorem mismatch_of_later {minVersion n : VersionType} {complete : Bool} {avv bvv : Vv}
    (hn : minVersion ≤ n) (ha : n ≤ avv.version ∧ bvv.version < n ∨ avv = bvv) :
    mismatch minVersion complete (some avv) (some bvv) = false := by
  rcases ha with ⟨ha, hb⟩ | rfl
  · have hlt : bvv.version < avv.version := Int.lt_of_lt_of_le hb ha
    simp only [mismatch, Bool.or_eq_false_iff, decide_eq_false_iff_not]
    refine ⟨⟨Int.not_lt.2 (Int.le_of_lt hlt), fun h => ?_⟩, fun h => ?_⟩
    · exact absurd h.2 (Int.not_lt.2 (Int.le_trans hn ha))
    · exact absurd h.1 (Int.ne_of_gt hlt)
  · simp [mismatch]

theorem findRecentRemove_version {d : Pancydb} (hd : Recorded d) {key : Str}
    {minVersion : VersionType} {vv : Vv} (h : d.findRecentRemove key minVersion = some vv) :
    vv.version < d.nextVersion := by
  obtain ⟨rr, hrr, rfl⟩ := Option.map_eq_some_iff.1 h
  have hmem := List.mem_of_find?_eq_some hrr
  exact Int.lt_trans (hd.stored rr hmem) (hd.below rr hmem)

/-- The last removal of a key is the first that the search for recent ones finds. -/
theorem Removed.findRecentRemove {a : Pancydb} {n minVersion : VersionType} {key : Str}
    {vv : Vv} (h : Removed a n key vv) (hn : minVersion ≤ n) :
    (∃ avv, a.findRecentRemove key minVersion = some avv ∧ (n ≤ avv.version ∨ avv = vv)) ∨
      a.findRecentRemove key minVersion = none ∧ a.removesComplete minVersion = false := by
  rcases h with ⟨rr, hfind, hrr, hvv⟩ | ⟨hlater, hfull⟩
  · refine Or.inl ⟨rr.vv, ?_, hvv⟩
    obtain ⟨hkey, pre, post, hlist, hpre⟩ := List.find?_eq_some_iff_append.1 hfind
    have hhit : a.recentRemoves.find?
        (fun rr => rr.key == key && decide (minVersion ≤ rr.removeVersion)) = some rr := by
      refine List.find?_eq_some_iff_append.2 ⟨?_, pre, post, hlist, fun rr' hrr' => ?_⟩
      · rw [hkey, decide_eq_true (Int.le_trans hn hrr)]
        rfl
      · have hmiss : (rr'.key == key) = false := by simpa using hpre rr' hrr'
        rw [hmiss]
        rfl
    rw [Pancydb.findRecentRemove, hhit]
    rfl
  · refine Or.inr ⟨?_, ?_⟩
    · rw [Pancydb.findRecentRemove, List.find?_eq_none.2, Option.map_none]
      intro rr hrr
      simp [(hlater rr hrr).1]
    · rw [removesComplete, hfull, decide_eq_false (Nat.lt_irrefl _), Bool.false_or]
      cases hlast : a.recentRemoves.getLast? with
      | none => rfl
      | some rr =>
        have hmem := List.mem_of_getLast? hlast
        rw [Option.any_some, decide_eq_false_iff_not, Int.not_le]
        exact Int.lt_of_le_of_lt hn (hlater rr hmem).2

/-- Each key of a lagging database is in order. -/
theorem Lags.differs {a b : Pancydb} (h : Lags b a) (hb : Versioned b) (hb' : Recorded b)
    {versionSkew : Nat} (hskew : a.nextVersion - b.nextVersion ≤ versionSkew) (key : Str)
    (hkey : a.db.find? key ≠ none ∨ b.db.find? key ≠ none) :
    differs a b versionSkew key (a.db.find? key) (b.db.find? key) = false := by
  have hwindow : a.minVersion versionSkew ≤ b.nextVersion := by
    rw [Pancydb.minVersion]
    exact Int.sub_le_of_sub_le hskew
  rw [Pancydb.differs]
  cases hfind : a.db.find? key with
  | some avv =>
    rw [Option.some_or]
    rcases h.kept key avv hfind with hle | hsame
    · cases hold : (b.db.find? key).or (b.findRecentRemove key (a.minVersion versionSkew)) with
      | none =>
        simp only [mismatch, Bool.not_eq_false', decide_eq_true_eq]
        exact Int.le_trans hwindow hle
      | some bvv =>
        refine mismatch_of_later hwindow (Or.inl ⟨hle, ?_⟩)
        cases hbfind : b.db.find? key with
        | some bvv' =>
          rw [hbfind, Option.some_or] at hold
          exact Option.some.inj hold ▸ hb.below key bvv' hbfind
        | none =>
          rw [hbfind, Option.none_or] at hold
          exact findRecentRemove_version hb' hold
    · rw [hsame, Option.some_or]
      exact mismatch_of_later hwindow (Or.inr rfl)
  | none =>
    rw [hfind] at hkey
    obtain ⟨bvv, hbfind⟩ := Option.ne_none_iff_exists'.1 (hkey.resolve_left fun he => he rfl)
    rw [hbfind, Option.some_or, Option.none_or]
    rcases (h.gone key bvv hbfind hfind).findRecentRemove hwindow with
      ⟨avv, havv, hlater⟩ | ⟨hnone, hincomplete⟩
    · rw [havv]
      refine mismatch_of_later hwindow (hlater.imp (fun hle => ⟨hle, ?_⟩) id)
      exact hb.below key bvv hbfind
    · rw [hnone, hincomplete]
      rfl

theorem Lags.diffNewer {a b : Pancydb} (h : Lags b a) (hb : Versioned b) (hb' : Recorded b)
    {versionSkew : Nat} (hskew : a.nextVersion - b.nextVersion ≤ versionSkew) :
    diffNewer a b versionSkew = none :=
  (diffNewer_eq_none a b versionSkew).2 fun key hkey => h.differs hb hb' hskew key hkey

/-- A run without a successful modification changes nothing. -/
theorem run_nextVersion {d d' : Pancydb} {ops : List Op} (h : database.exec d ops = some d') :
    d' = d ∨ d.nextVersion < d'.nextVersion := by
  induction ops generalizing d with
  | nil => exact Or.inl (Option.some.inj h).symm
  | cons op ops ih =>
    obtain ⟨e, he, hrun⟩ := Machine.exec_cons_inv h
    obtain rfl := Option.some.inj he
    have hchange := apply_change d op
    cases hm : d.modified op with
    | false =>
      rw [hm] at hchange
      rw [hchange.unchanged] at hrun
      exact ih hrun
    | true =>
      rw [hm] at hchange
      have hlt : d.nextVersion < (d.apply op).nextVersion := by
        rw [hchange.nextVersion]
        exact Int.lt_succ _
      rcases ih hrun with hsame | hmore
      · rw [hsame]
        exact Or.inr hlt
      · exact Or.inr (Int.lt_trans hlt hmore)

/-- No false alarm: a database and one that has processed more, up to `version_skew`
modifications, are equivalent in both orders. -/
theorem diff_lagging {a b : Pancydb} (hb : database.Reachable b) {ops : List Op}
    (hrun : database.exec b ops = some a) {versionSkew : Nat}
    (hskew : a.nextVersion - b.nextVersion ≤ versionSkew) :
    diff a b versionSkew = none ∧ diff b a versionSkew = none := by
  have hversioned := reachable_versioned hb
  have hrecorded := reachable_recorded hb
  have hlags := (Lags.refl b).run hversioned hrecorded hrun
  have hnewer := hlags.diffNewer hversioned hrecorded hskew
  rcases run_nextVersion hrun with hsame | hlt
  · rw [hsame] at hnewer ⊢
    rw [diff, if_neg (Int.lt_irrefl _)]
    exact ⟨hnewer, hnewer⟩
  · rw [diff, diff, if_neg (Int.not_lt.2 (Int.le_of_lt hlt)), if_pos hlt]
    exact ⟨hnewer, hnewer⟩

/-- A key is removed and another one stored after `recreated`. -/
theorem diff_lagging_recreated :
    diff (((recreated.apply (.remove "b".toList)).apply (.put "c".toList "w".toList)))
        recreated 2 = none ∧
      diff recreated
        (((recreated.apply (.remove "b".toList)).apply (.put "c".toList "w".toList))) 2 = none :=
  diff_lagging recreated_reachable
    (show database.exec recreated [.remove "b".toList, .put "c".toList "w".toList] = some _ from rfl)
    (by decide)

/-! ## The order of the arguments -/

/-- What a database has on record for a key, stored or recently removed. -/
def record (d : Pancydb) (key : Str) (minVersion : VersionType) : Option Vv :=
  (d.db.find? key).or (d.findRecentRemove key minVersion)

/-- The walk visits the key. -/
def Visited (a b : Pancydb) (key : Str) : Prop := a.db.find? key ≠ none ∨ b.db.find? key ≠ none

/-- The key is an error whichever database comes first: two values of one version, or
two versions before the window, or one such version whose removal is not on record. -/
def Clash (a b : Pancydb) (minVersion : VersionType) (key : Str) : Prop :=
  match a.record key minVersion, b.record key minVersion with
  | some avv, some bvv =>
    avv.version = bvv.version ∧ avv.value ≠ bvv.value ∨
      avv.version ≠ bvv.version ∧ avv.version < minVersion ∧ bvv.version < minVersion
  | some avv, none => avv.version < minVersion ∧ b.removesComplete minVersion = true
  | none, some bvv => bvv.version < minVersion ∧ a.removesComplete minVersion = true
  | none, none => False

/-- `a` is ahead at the key: it is an error only when `b` comes first. -/
def Ahead (a b : Pancydb) (minVersion : VersionType) (key : Str) : Prop :=
  match a.record key minVersion, b.record key minVersion with
  | some avv, some bvv => bvv.version < avv.version ∧ minVersion ≤ avv.version
  | some avv, none => minVersion ≤ avv.version ∧ b.removesComplete minVersion = true
  | none, some bvv => bvv.version < minVersion ∧ a.removesComplete minVersion = false
  | none, none => False

theorem clash_comm {a b : Pancydb} {minVersion : VersionType} {key : Str} :
    Clash a b minVersion key ↔ Clash b a minVersion key := by
  unfold Clash
  cases a.record key minVersion <;> cases b.record key minVersion <;>
    simp only [eq_comm, ne_eq, and_comm]

theorem differs_iff {a b : Pancydb} {versionSkew : Nat} {key : Str} (hkey : Visited a b key) :
    differs a b versionSkew key (a.db.find? key) (b.db.find? key) = true ↔
      Clash a b (a.minVersion versionSkew) key ∨ Ahead b a (a.minVersion versionSkew) key := by
  have hrecord : differs a b versionSkew key (a.db.find? key) (b.db.find? key) =
      mismatch (a.minVersion versionSkew) (a.removesComplete (a.minVersion versionSkew))
        (a.record key (a.minVersion versionSkew)) (b.record key (a.minVersion versionSkew)) := rfl
  have hsome : a.record key (a.minVersion versionSkew) ≠ none ∨
      b.record key (a.minVersion versionSkew) ≠ none := by
    unfold record
    rcases hkey with hkey | hkey
    · obtain ⟨vv, hvv⟩ := Option.ne_none_iff_exists'.1 hkey
      exact Or.inl (by rw [hvv, Option.some_or]; exact Option.some_ne_none vv)
    · obtain ⟨vv, hvv⟩ := Option.ne_none_iff_exists'.1 hkey
      exact Or.inr (by rw [hvv, Option.some_or]; exact Option.some_ne_none vv)
  rw [hrecord]
  unfold Clash Ahead
  generalize a.minVersion versionSkew = minVersion at hsome ⊢
  generalize a.record key minVersion = avv at hsome ⊢
  generalize b.record key minVersion = bvv at hsome ⊢
  cases avv with
  | none =>
    cases bvv with
    | none => exact absurd rfl (hsome.resolve_left fun h => h rfl)
    | some bvv =>
      simp only [mismatch]
      grind
  | some avv =>
    cases bvv with
    | none =>
      simp only [mismatch]
      grind
    | some bvv =>
      simp only [mismatch]
      grind

/-- With `a` as the newer database there is no clash, and `b` is nowhere ahead. -/
theorem diffNewer_iff (a b : Pancydb) (versionSkew : Nat) :
    diffNewer a b versionSkew = none ↔
      (∀ key, Visited a b key → ¬ Clash a b (a.minVersion versionSkew) key) ∧
        ∀ key, Visited a b key → ¬ Ahead b a (a.minVersion versionSkew) key := by
  rw [diffNewer_eq_none]
  constructor
  · intro h
    have hnot : ∀ key, Visited a b key → ¬ (Clash a b (a.minVersion versionSkew) key ∨
        Ahead b a (a.minVersion versionSkew) key) := by
      intro key hkey hbad
      rw [← differs_iff hkey, h key hkey] at hbad
      cases hbad
    exact ⟨fun key hkey hc => hnot key hkey (Or.inl hc),
      fun key hkey ha => hnot key hkey (Or.inr ha)⟩
  · rintro ⟨hclash, hahead⟩ key hkey
    rw [Bool.eq_false_iff]
    intro hbad
    rcases (differs_iff hkey).1 hbad with hc | ha
    · exact hclash key hkey hc
    · exact hahead key hkey ha

/-- Some key is one with the property `P`. -/
def Somewhere (a b : Pancydb) (P : Str → Prop) : Prop := ∃ key, Visited a b key ∧ P key

/-- The verdict depends on the order of the arguments exactly at a tie of
`next_version_` where one database is ahead at some keys, the other at none, and nothing
clashes. -/
theorem diff_symmetric_iff (a b : Pancydb) (versionSkew : Nat) :
    (diff a b versionSkew = none ↔ diff b a versionSkew = none) ↔
      a.nextVersion ≠ b.nextVersion ∨
        Somewhere a b (Clash a b (a.minVersion versionSkew)) ∨
        (Somewhere a b (Ahead a b (a.minVersion versionSkew)) ↔
          Somewhere a b (Ahead b a (a.minVersion versionSkew))) := by
  by_cases htie : a.nextVersion = b.nextVersion
  · have hwindow : b.minVersion versionSkew = a.minVersion versionSkew := by
      rw [minVersion, minVersion, htie]
    have hvisited : ∀ key, Visited b a key ↔ Visited a b key := fun _ => or_comm
    have hab : diff a b versionSkew = none ↔
        ¬ Somewhere a b (Clash a b (a.minVersion versionSkew)) ∧
          ¬ Somewhere a b (Ahead b a (a.minVersion versionSkew)) := by
      rw [diff, if_neg (Int.not_lt.2 (Int.le_of_eq htie.symm)), diffNewer_iff]
      simp only [Somewhere, not_exists, not_and]
    have hba : diff b a versionSkew = none ↔
        ¬ Somewhere a b (Clash a b (a.minVersion versionSkew)) ∧
          ¬ Somewhere a b (Ahead a b (a.minVersion versionSkew)) := by
      rw [diff, if_neg (Int.not_lt.2 (Int.le_of_eq htie)), diffNewer_iff, hwindow]
      simp only [Somewhere, not_exists, not_and, hvisited, clash_comm (a := b)]
    rw [hab, hba]
    have hnot : ¬ a.nextVersion ≠ b.nextVersion := fun hne => hne htie
    tauto
  · refine iff_of_true ?_ (Or.inl htie)
    rw [diff, diff]
    rcases Int.lt_or_gt_of_ne htie with hlt | hgt
    · rw [if_pos hlt, if_neg (Int.not_lt.2 (Int.le_of_lt hlt))]
    · rw [if_neg (Int.not_lt.2 (Int.le_of_lt hgt)), if_pos hgt]

/-- `k` is stored twice. -/
def overwritten : Pancydb :=
  (database.exec {} [.put "k".toList "x".toList, .put "k".toList "y".toList]).get (by decide)

/-- Another key is stored and removed. -/
def emptied : Pancydb :=
  (database.exec {} [.put "j".toList "x".toList, .remove "j".toList]).get (by decide)

/-- Both databases have seen two modifications.  One order takes `k` for a key that was
added within the window, the other misses it. -/
theorem overwritten_emptied_diff : database.Reachable overwritten ∧
    database.Reachable emptied ∧ (2 : Int) ≤ overwritten.nextVersion ∧
    diff overwritten emptied 2 = none ∧ diff emptied overwritten 2 = some "k".toList :=
  ⟨Machine.Reachable.of_get (M := database) rfl (by decide),
    Machine.Reachable.of_get (M := database) rfl (by decide), by decide, by decide, by decide⟩

end Pancydb
end Psets
