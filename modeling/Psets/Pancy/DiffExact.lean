/-
`pancydb::diff` without skew tells whether the databases are equal.

The window starts at `next_version_` of the newer database.  Each removal version is
below that, so no removal on record is found and the record counts as complete.
-/
import Psets.Pancy.Diff

namespace Psets
namespace Pancydb

open Pancy Transition

/-- What the walk compares when there is no window. -/
def unequal (_ : Str) (avv bvv : Option Vv) : Bool := decide (avv ≠ bvv)

/-! ## The record of removals is not consulted -/

theorem Recorded.findRecentRemove {d : Pancydb} (hd : Recorded d) {minVersion : VersionType}
    (hmin : d.nextVersion ≤ minVersion) (key : Str) :
    d.findRecentRemove key minVersion = none := by
  rw [Pancydb.findRecentRemove, List.find?_eq_none.2, Option.map_none]
  intro rr hrr
  have hout : ¬ minVersion ≤ rr.removeVersion :=
    Int.not_le.2 (Int.lt_of_lt_of_le (hd.below rr hrr) hmin)
  rw [decide_eq_false hout, Bool.and_false]
  exact Bool.false_ne_true

theorem Recorded.removesComplete {d : Pancydb} (hd : Recorded d) {minVersion : VersionType}
    (hmin : d.nextVersion ≤ minVersion) : d.removesComplete minVersion = true := by
  rw [Pancydb.removesComplete, Bool.or_eq_true, decide_eq_true_eq]
  cases hlast : d.recentRemoves.getLast? with
  | none =>
    rw [List.getLast?_eq_none_iff.1 hlast]
    exact Or.inl (by decide)
  | some rr =>
    have hbelow := hd.below rr (List.mem_of_getLast? hlast)
    rw [Option.any_some, decide_eq_true_eq]
    exact Or.inr (Int.le_of_lt (Int.lt_of_lt_of_le hbelow hmin))

/-! ## The walk -/

theorem mismatch_below {minVersion : VersionType} {avv bvv : Vv}
    (hbelow : avv.version < minVersion) :
    mismatch minVersion true (some avv) (some bvv) = unequal [] (some avv) (some bvv) := by
  obtain ⟨avalue, aversion⟩ := avv
  obtain ⟨bvalue, bversion⟩ := bvv
  simp only [mismatch, unequal]
  rcases Int.lt_trichotomy aversion bversion with hlt | rfl | hgt
  · simp [hlt, Int.ne_of_lt hlt]
  · simp
  · simp [hgt, Int.ne_of_gt hgt, hbelow, Int.not_lt.2 (Int.le_of_lt hgt)]

theorem differs_zero {a b : Pancydb} (ha : Versioned a) (ha' : Recorded a) (hb : Recorded b)
    (hle : b.nextVersion ≤ a.nextVersion) {key : Str} (hkey : Visited a b key) :
    differs a b 0 key (a.db.find? key) (b.db.find? key) =
      unequal key (a.db.find? key) (b.db.find? key) := by
  have hmin : a.minVersion 0 = a.nextVersion := Int.sub_zero _
  rw [differs, hmin, ha'.findRecentRemove (Int.le_refl _), hb.findRecentRemove hle,
    ha'.removesComplete (Int.le_refl _), Option.or_none, Option.or_none]
  cases hfind : a.db.find? key with
  | none =>
    obtain ⟨bvv, hbvv⟩ := Option.ne_none_iff_exists'.1 (hkey.resolve_left fun h => h hfind)
    rw [hbvv]
    rfl
  | some avv =>
    have hbelow := ha.below key avv hfind
    cases b.db.find? key with
    | none =>
      rw [mismatch, decide_eq_false (Int.not_le.2 hbelow)]
      rfl
    | some bvv => exact mismatch_below hbelow

theorem diffNewer_zero {a b : Pancydb} (ha : Versioned a) (ha' : Recorded a) (hb : Recorded b)
    (hle : b.nextVersion ≤ a.nextVersion) :
    diffNewer a b 0 = SortedMap.mergeFind unequal a.db.entries b.db.entries :=
  SortedMap.mergeFind_congr a.db.sorted b.db.sorted fun _ hkey =>
    differs_zero ha ha' hb hle hkey

/-- The answer depends on what is stored, and on nothing else. -/
theorem diff_zero {a b : Pancydb} (ha : database.Reachable a) (hb : database.Reachable b) :
    diff a b 0 = SortedMap.mergeFind unequal a.db.entries b.db.entries := by
  have hra := reachable_recorded ha
  have hrb := reachable_recorded hb
  have hsymm : (fun k avv bvv => unequal k bvv avv) = unequal := by
    funext k avv bvv
    rw [unequal, unequal, decide_eq_decide]
    exact ne_comm
  rw [diff]
  by_cases hlt : a.nextVersion < b.nextVersion
  · rw [if_pos hlt, diffNewer_zero (reachable_versioned hb) hrb hra (Int.le_of_lt hlt),
      ← SortedMap.mergeFind_swap a.db.sorted b.db.sorted, hsymm]
  · rw [if_neg hlt, diffNewer_zero (reachable_versioned ha) hra hrb (Int.not_lt.1 hlt)]

/-- Without skew, `diff` finds a key at which the databases differ if there is one,
whatever has been removed from either. -/
theorem diff_exact {a b : Pancydb} (ha : database.Reachable a) (hb : database.Reachable b) :
    (diff a b 0 = none ↔ ∀ key, a.db.find? key = b.db.find? key) ∧
      (∀ key, diff a b 0 = some key → a.db.find? key ≠ b.db.find? key) ∧
      ∀ a' b', database.Reachable a' → database.Reachable b' → a'.db = a.db → b'.db = b.db →
        diff a' b' 0 = diff a b 0 := by
  rw [diff_zero ha hb]
  refine ⟨?_, fun key hkey => ?_, fun a' b' ha' hb' hadb hbdb => ?_⟩
  · rw [SortedMap.mergeFind_eq_none a.db.sorted b.db.sorted]
    constructor
    · intro hagree key
      by_contra hne
      have hvisited : Visited a b key := by
        by_contra hnot
        rw [Visited, not_or, not_not, not_not] at hnot
        exact hne (hnot.1.trans hnot.2.symm)
      have hsame := hagree key hvisited
      exact of_decide_eq_false hsame hne
    · intro hsame key _
      exact decide_eq_false (not_not.2 (hsame key))
  · have hfirst := SortedMap.mergeFind_some a.db.sorted b.db.sorted hkey
    exact of_decide_eq_true hfirst.holds.2
  · rw [diff_zero ha' hb', hadb, hbdb]

/-- A key that one database has stored again, and the other not. -/
theorem diff_exact_recreated :
    diff recreated (recreated.apply (.remove "b".toList)) 0 = some "b".toList ∧
      recreated.db.find? "b".toList ≠
        (recreated.apply (.remove "b".toList)).db.find? "b".toList := by
  have hdiff : diff recreated (recreated.apply (.remove "b".toList)) 0 = some "b".toList := by
    decide +kernel
  exact ⟨hdiff, (diff_exact recreated_reachable
    (.step (.remove "b".toList) recreated_reachable trivial rfl)).2.1 _ hdiff⟩

end Pancydb
end Psets
