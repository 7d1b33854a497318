/-
`lockseq_model::check`: one pass over the keys of a database in order.

The pass is a fold of `checkEntry`, which stops with the offending key.  A group of
keys that consists of an optional lock, a run of values from index 0 and, under a
lock, a second run behind a gap is accepted whatever the pass saw before.
-/
import Psets.Containers.PrefixOrder
import Psets.LockSeq.Keys

namespace Psets
namespace LockSeq

inductive LockState where
  | unlocked
  | lockedStart
  | lockedRest
  deriving DecidableEq, Repr

structure Scan where
  lastGroup : Str := []
  glen : Nat := 0
  expectedValue : Str := []
  expectedIndex : Nat := 0
  lockState : LockState := .unlocked
  deriving DecidableEq, Repr

/-- Check for a new group. -/
def newGroup (st : Scan) (key : Str) : Except Str Scan :=
  if st.lastGroup = [] ∨ st.lastGroup.isPrefixOf key = false then
    if key.length < 3 ∨ key[0]? ≠ some 'g' then .error key
    else
      match key.findIdx? (· == '/') with
      | none => .error key
      | some slash =>
        if parseDigits key 1 slash = invalidDigits then .error key
        else .ok { lastGroup := key.take (slash + 1), glen := slash + 1 }
  else .ok st

def isLockKey (st : Scan) (key : Str) : Bool :=
  key.length == st.glen + 4 && ['l', 'o', 'c', 'k'].isSuffixOf key

def checkLock (st : Scan) (key value : Str) : Except Str Scan :=
  if st.expectedIndex ≠ 0 ∨ st.lockState ≠ .unlocked then .error key
  else if value = [] then .ok st
  else if value.length < 4 ∨ value[0]? ≠ some 'c' then .error key
  else .ok { st with lockState := .lockedStart, expectedValue := value }

/-- A gap is allowed once, after the values of a lock holder. -/
def checkIndex (st : Scan) (key : Str) (vindex : Nat) : Except Str Scan :=
  if vindex ≠ st.expectedIndex then
    if st.lockState = .unlocked ∨ st.lockState = .lockedRest ∨ vindex < st.expectedIndex then
      .error key
    else .ok { st with lockState := .lockedRest, expectedIndex := vindex, expectedValue := [] }
  else .ok st

def checkContent (st : Scan) (key value : Str) : Except Str Scan :=
  if st.expectedValue ≠ [] ∧ value ≠ st.expectedValue then
    if st.lockState ≠ .lockedStart then .error key
    else
      .ok { st with lockState := .lockedRest, expectedValue := value,
                    expectedIndex := st.expectedIndex + 1 }
  else .ok { st with expectedValue := value, expectedIndex := st.expectedIndex + 1 }

def checkValue (st : Scan) (key value : Str) : Except Str Scan :=
  let vindex := parseDigits key (st.glen + 1) (st.glen + 4)
  if key.length ≠ st.glen + 4 ∨ key[st.glen]? ≠ some 'v' ∨ vindex = invalidDigits ∨ value = [] then
    .error key
  else do
    let st ← checkIndex st key vindex
    checkContent st key value

def checkEntry (st : Scan) (e : Str × Str) : Except Str Scan := do
  let st ← newGroup st e.1
  if isLockKey st e.1 then checkLock st e.1 e.2 else checkValue st e.1 e.2

def scan (st : Scan) (entries : List (Str × Str)) : Except Str Scan := entries.foldlM checkEntry st

/-- The key and the value of each entry, in key order. -/
def keyValues (db : Pancydb) : List (Str × Str) := db.db.entries.map fun e => (e.1, e.2.value)

/-- `nullopt`, or a key that no client of this model can have written. -/
def check (db : Pancydb) : Option Str :=
  match scan {} (keyValues db) with
  | .ok _ => none
  | .error key => some key

theorem scan_cons {st st' : Scan} {e : Str × Str} (h : checkEntry st e = .ok st')
    (entries : List (Str × Str)) : scan st (e :: entries) = scan st' entries := by
  rw [scan, List.foldlM_cons, h]
  rfl

theorem scan_append {st st' : Scan} {l : List (Str × Str)} (h : scan st l = .ok st')
    (l' : List (Str × Str)) : scan st (l ++ l') = scan st' l' := by
  rw [scan, List.foldlM_append, ← scan, h]
  rfl

/-! ## Single keys -/

/-- The pass is inside the group of prefix `p`. -/
structure Inside (p : Str) (st : Scan) : Prop where
  lastGroup : st.lastGroup = p
  glen : st.glen = p.length

/-- The state at the start of a group. -/
def fresh (p : Str) : Scan := { lastGroup := p, glen := p.length }

theorem Inside.fresh (p : Str) : Inside p (fresh p) := ⟨rfl, rfl⟩

/-- `g{G}/`, where the number may have leading zeros. -/
def digitsPrefix (digits : Str) : Str := 'g' :: digits ++ ['/']

/-- The pass can enter the group of prefix `p`. -/
structure Opens (p : Str) : Prop where
  ne_nil : p ≠ []
  enter : ∀ {st : Scan} {r : Str}, (st.lastGroup ≠ [] → ¬ st.lastGroup <+: p ++ r) →
    newGroup st (p ++ r) = .ok (fresh p)

theorem findIdx?_digitsPrefix {digits : Str} (hdigits : ∀ ch ∈ digits, ch.isDigit = true)
    (r : Str) : (digitsPrefix digits ++ r).findIdx? (· == '/') = some (digits.length + 1) := by
  have hd : digits.findIdx? (· == '/') = none := by
    rw [List.findIdx?_eq_none_iff]
    intro ch hch
    refine beq_false_of_ne fun he => ?_
    rw [he] at hch
    exact absurd (hdigits _ hch) (by decide)
  simp [digitsPrefix, List.findIdx?_cons, List.findIdx?_append, hd]

theorem opens_digits {digits : Str} (hne : digits ≠ [])
    (hdigits : ∀ ch ∈ digits, ch.isDigit = true)
    (hlt : Nat.ofDigitChars 10 digits 0 < invalidDigits) : Opens (digitsPrefix digits) := by
  refine ⟨List.cons_ne_nil _ _, @fun st r hout => ?_⟩
  have hcond : st.lastGroup = [] ∨
      st.lastGroup.isPrefixOf (digitsPrefix digits ++ r) = false := by
    by_cases he : st.lastGroup = []
    · exact Or.inl he
    · exact Or.inr (Bool.eq_false_iff.2 fun h => hout he (List.isPrefixOf_iff_prefix.1 h))
  have hpos : 0 < digits.length := List.length_pos_iff.2 hne
  have hlength : (digitsPrefix digits).length = digits.length + 1 + 1 := by
    simp [digitsPrefix]
  have hlen : ¬ ((digitsPrefix digits ++ r).length < 3 ∨
      (digitsPrefix digits ++ r)[0]? ≠ some 'g') := by
    rintro (h | h)
    · rw [List.length_append, hlength] at h
      omega
    · exact h rfl
  have hparse : parseDigits (digitsPrefix digits ++ r) 1 (digits.length + 1) =
      Nat.ofDigitChars 10 digits 0 := by
    rw [parseDigits, if_neg (by omega), Nat.add_sub_cancel]
    have htake : ((digitsPrefix digits ++ r).drop 1).take digits.length = digits := by
      simp [digitsPrefix]
    rw [htake]
    rw [invalidDigits] at hlt
    exact parseLoop_eq hdigits (by omega)
  have htake : (digitsPrefix digits ++ r).take (digits.length + 1 + 1) = digitsPrefix digits :=
    List.take_left' hlength
  rw [newGroup, if_pos hcond, if_neg hlen, findIdx?_digitsPrefix hdigits]
  simp only [hparse]
  rw [if_neg (Nat.ne_of_lt hlt), htake, fresh, hlength]

theorem opens_groupPrefix {g : Nat} (hg : g < invalidDigits) : Opens (groupPrefix g) :=
  opens_digits (decimal_ne_nil g) (fun _ => isDigit_of_mem_decimal)
    (by rw [ofDigitChars_decimal]; exact hg)

theorem newGroup_stay {p : Str} {st : Scan} (h : Inside p st) (hp : p ≠ []) (r : Str) :
    newGroup st (p ++ r) = .ok st := by
  rw [newGroup, if_neg]
  rw [h.lastGroup]
  rintro (he | he)
  · exact hp he
  · rw [List.isPrefixOf_iff_prefix.2 (List.prefix_append p r)] at he
    exact absurd he (by decide)

/-- What follows once the group of the key is settled. -/
theorem checkEntry_lock {p : Str} {st st' : Scan} {L : Str}
    (hn : newGroup st (p ++ ['l', 'o', 'c', 'k']) = .ok st') (hin : Inside p st') :
    checkEntry st (p ++ ['l', 'o', 'c', 'k'], L) =
      checkLock st' (p ++ ['l', 'o', 'c', 'k']) L := by
  have hlock : isLockKey st' (p ++ ['l', 'o', 'c', 'k']) = true := by
    rw [isLockKey, hin.glen, List.isSuffixOf_iff_suffix.2 (List.suffix_append _ _)]
    simp
  simp only [checkEntry, hn, bind, Except.bind, hlock, if_true]

theorem checkEntry_value {p : Str} {st st' : Scan} {v : Nat} {o : Str} (hv : v < 1000)
    (ho : o ≠ []) (hn : newGroup st (p ++ 'v' :: decimal3 v) = .ok st') (hin : Inside p st') :
    checkEntry st (p ++ 'v' :: decimal3 v, o) =
      (checkIndex st' (p ++ 'v' :: decimal3 v) v).bind fun st =>
        checkContent st (p ++ 'v' :: decimal3 v) o := by
  have hlen := length_decimal3 hv
  have hlock : isLockKey st' (p ++ 'v' :: decimal3 v) = false := by
    rw [isLockKey, Bool.and_eq_false_iff]
    right
    rw [Bool.eq_false_iff]
    intro h
    obtain ⟨t, ht⟩ := List.isSuffixOf_iff_suffix.1 h
    have hl : t.length = p.length := by
      have := congrArg List.length ht
      simp only [List.length_append, List.length_cons, List.length_nil, hlen] at this
      omega
    exact absurd (List.cons.inj (List.append_inj ht hl).2).1 (by decide)
  have hdigits : parseDigits (p ++ 'v' :: decimal3 v) (st'.glen + 1) (st'.glen + 4) = v := by
    rw [parseDigits, if_neg (by omega), hin.glen, show p.length + 4 - (p.length + 1) = 3 by omega,
      List.drop_append, List.drop_of_length_le (by omega)]
    simp only [List.nil_append, Nat.add_sub_cancel_left, List.drop_succ_cons, List.drop_zero]
    rw [List.take_of_length_le (by omega)]
    exact parseLoop_decimal3 (by simp only [unsignedModulus]; omega)
  have hbad : ¬ ((p ++ 'v' :: decimal3 v).length ≠ st'.glen + 4 ∨
      (p ++ 'v' :: decimal3 v)[st'.glen]? ≠ some 'v' ∨ v = invalidDigits ∨ o = []) := by
    rintro (h | h | h | h)
    · apply h
      rw [hin.glen, List.length_append, List.length_cons, hlen]
    · apply h
      rw [hin.glen]
      simp
    · simp only [invalidDigits, unsignedModulus] at h
      omega
    · exact ho h
  simp only [checkEntry, hn, bind, Except.bind, hlock, Bool.false_eq_true, if_false, checkValue,
    hdigits]
  rw [if_neg hbad]

/-! ## Runs of values -/

/-- `n` entries with value `o` at the indices from `a` on. -/
def run (p : Str) (a n : Nat) (o : Str) : List (Str × Str) :=
  (List.range' a n).map fun v => (p ++ 'v' :: decimal3 v, o)

theorem run_succ (p : Str) (a n : Nat) (o : Str) :
    run p a (n + 1) o = (p ++ 'v' :: decimal3 a, o) :: run p (a + 1) n o := by
  rw [run, List.range'_succ, List.map_cons, run]

/-- The state after a run that continues what is expected. -/
def Scan.pass (st : Scan) (n : Nat) (o : Str) : Scan :=
  if n = 0 then st
  else { st with expectedIndex := st.expectedIndex + n, expectedValue := o }

theorem Inside.pass {p : Str} {st : Scan} (h : Inside p st) (n : Nat) (o : Str) :
    Inside p (st.pass n o) := by
  rw [Scan.pass]
  split
  · exact h
  · exact ⟨h.lastGroup, h.glen⟩

theorem checkEntry_expected {p : Str} {st : Scan} (st' : Scan) {o : Str} (ho : o ≠ [])
    (hn : newGroup st (p ++ 'v' :: decimal3 st'.expectedIndex) = .ok st') (hin : Inside p st')
    (hv : st'.expectedValue = [] ∨ st'.expectedValue = o) (hi : st'.expectedIndex < 1000) :
    checkEntry st (p ++ 'v' :: decimal3 st'.expectedIndex, o) = .ok (st'.pass 1 o) := by
  rw [checkEntry_value hi ho hn hin, checkIndex, if_neg (not_not.2 rfl), Except.bind, checkContent,
    if_neg, Scan.pass, if_neg (by decide)]
  rintro ⟨h1, h2⟩
  rcases hv with hv | hv
  · exact h1 hv
  · exact h2 hv.symm

theorem scan_run {p : Str} (hp : p ≠ []) {o : Str} (ho : o ≠ []) (n : Nat) {st : Scan}
    (hin : Inside p st) (hv : st.expectedValue = [] ∨ st.expectedValue = o)
    (hi : st.expectedIndex + n ≤ 1000) :
    scan st (run p st.expectedIndex n o) = .ok (st.pass n o) := by
  induction n generalizing st with
  | zero => rfl
  | succ n ih =>
    have hstep := checkEntry_expected st ho (newGroup_stay hin hp _) hin hv (by omega)
    have hnext := ih (hin.pass 1 o) (Or.inr rfl)
      (show st.expectedIndex + 1 + n ≤ 1000 by omega)
    have hpass : (st.pass 1 o).pass n o = st.pass (n + 1) o := by
      cases n with
      | zero => rfl
      | succ n =>
        simp only [Scan.pass, Nat.add_assoc, Nat.add_comm 1, Nat.succ_ne_zero, if_false]
    rw [run_succ, scan_cons hstep]
    exact hnext.trans (by rw [hpass])

/-! ## Groups -/

/-- The entries of a group: `m` values of the lock holder from index 0, a gap, and
values `o` from `j` up to `k`. -/
def groupEntries (p : Str) (lock : Option Str) (m j k : Nat) (v o : Str) : List (Str × Str) :=
  (lock.toList.map fun L => (p ++ ['l', 'o', 'c', 'k'], L)) ++ run p 0 m v ++ run p j (k - j) o

theorem scan_values {p : Str} (hp : Opens p) {st : Scan} {k : Nat} {o : Str} (ho : o ≠ [])
    (hk : k ≤ 1000) (hout : ∀ r, st.lastGroup ≠ [] → ¬ st.lastGroup <+: p ++ r) (hne : 0 < k) :
    ∃ st', scan st (run p 0 k o) = .ok st' ∧ Inside p st' := by
  obtain ⟨n, rfl⟩ : ∃ n, k = n + 1 := ⟨k - 1, by omega⟩
  have hstep := checkEntry_expected (fresh p) ho (hp.enter (hout _)) (Inside.fresh _)
    (Or.inl rfl) (show 0 < 1000 by decide)
  have hrest := scan_run hp.ne_nil ho n ((Inside.fresh p).pass 1 o) (Or.inr rfl)
    (show 0 + 1 + n ≤ 1000 by omega)
  refine ⟨_, ?_, ((Inside.fresh p).pass 1 o).pass n o⟩
  rw [run_succ]
  exact (scan_cons hstep _).trans hrest

/-- The first value behind the values of the lock holder. -/
theorem checkEntry_behind {p : Str} (hp : p ≠ []) {st : Scan} (hin : Inside p st)
    (hs : st.lockState = .lockedStart) {j : Nat} (hj : st.expectedIndex ≤ j) (hj' : j < 1000)
    {o : Str} (ho : o ≠ []) :
    ∃ st', checkEntry st (p ++ 'v' :: decimal3 j, o) = .ok st' ∧ Inside p st' ∧
      st'.expectedIndex = j + 1 ∧ st'.expectedValue = o := by
  rw [checkEntry_value hj' ho (newGroup_stay hin hp _) hin, checkIndex]
  by_cases he : j = st.expectedIndex
  · rw [if_neg (not_not.2 he), Except.bind, checkContent]
    by_cases hv : st.expectedValue ≠ [] ∧ o ≠ st.expectedValue
    · rw [if_pos hv, if_neg (not_not.2 hs)]
      exact ⟨_, rfl, ⟨hin.lastGroup, hin.glen⟩, by rw [he], rfl⟩
    · rw [if_neg hv]
      exact ⟨_, rfl, ⟨hin.lastGroup, hin.glen⟩, by rw [he], rfl⟩
  · have hok : ¬ (st.lockState = .unlocked ∨ st.lockState = .lockedRest ∨
        j < st.expectedIndex) := by
      rw [hs]
      rintro (h | h | h)
      · exact absurd h (by decide)
      · exact absurd h (by decide)
      · omega
    rw [if_pos he, if_neg hok, Except.bind, checkContent, if_neg (fun h => h.1 rfl)]
    exact ⟨_, rfl, ⟨hin.lastGroup, hin.glen⟩, rfl, rfl⟩

theorem scan_locked {p : Str} (hp : Opens p) {st : Scan} {m j k : Nat} {L o : Str}
    (hL : 4 ≤ L.length) (hc : L[0]? = some 'c') (ho : o ≠ []) (hm : m ≤ 1000) (hj : m ≤ j)
    (hk : k ≤ 1000) (hout : ∀ r, st.lastGroup ≠ [] → ¬ st.lastGroup <+: p ++ r) :
    ∃ st', scan st (groupEntries p (some L) m j k L o) = .ok st' ∧
      Inside p st' := by
  have hLne : L ≠ [] := by
    rintro rfl
    exact absurd hc (by decide)
  -- the lock and the values of its holder
  have hlock : checkEntry st (p ++ ['l', 'o', 'c', 'k'], L) =
      .ok { fresh p with lockState := .lockedStart, expectedValue := L } := by
    rw [checkEntry_lock (hp.enter (hout _)) (Inside.fresh _), checkLock,
      if_neg (by simp [fresh]), if_neg hLne, if_neg]
    rintro (h | h)
    · omega
    · exact h hc
  have hin1 : Inside p
      { fresh p with lockState := .lockedStart, expectedValue := L } := ⟨rfl, rfl⟩
  have hrun := scan_run (hp.ne_nil) hLne m hin1 (Or.inr rfl) (by show 0 + m ≤ 1000; omega)
  generalize hst : Scan.pass _ m L = st1 at hrun
  have hin : Inside p st1 := hst ▸ hin1.pass m L
  have hs : st1.lockState = .lockedStart := by
    rw [← hst, Scan.pass]
    split <;> rfl
  have hidx : st1.expectedIndex = m := by
    rw [← hst, Scan.pass]
    split
    · rename_i h
      rw [h]
      rfl
    · exact Nat.zero_add m
  have hfront : scan st ((p ++ ['l', 'o', 'c', 'k'], L) :: run p 0 m L) =
      .ok st1 := (scan_cons hlock _).trans hrun
  rw [groupEntries, Option.toList_some, List.map_singleton, List.singleton_append,
    scan_append hfront]
  by_cases hjk : j < k
  · obtain ⟨n, hn⟩ : ∃ n, k - j = n + 1 := ⟨k - j - 1, by omega⟩
    obtain ⟨st2, hstep, hin2, hidx2, hval2⟩ := checkEntry_behind (hp.ne_nil) hin hs
      (j := j) (by omega) (by omega) ho
    have hrest := scan_run (hp.ne_nil) ho n hin2 (Or.inr hval2) (by omega)
    rw [hidx2] at hrest
    rw [hn, run_succ, scan_cons hstep]
    exact ⟨_, hrest, hin2.pass n o⟩
  · rw [Nat.sub_eq_zero_of_le (Nat.le_of_not_lt hjk)]
    exact ⟨st1, rfl, hin⟩

/-! ## Databases -/

/-- The entries of one group as the pass accepts them. -/
inductive Group (g : Nat) : List (Str × Str) → Prop where
  | unlocked {k : Nat} {o : Str} : o ≠ [] → k ≤ 1000 → Group g (run (groupPrefix g) 0 k o)
  | locked {m j k : Nat} {L o : Str} : 4 ≤ L.length → L[0]? = some 'c' → o ≠ [] → m ≤ 1000 →
      m ≤ j → k ≤ 1000 → Group g (groupEntries (groupPrefix g) (some L) m j k L o)

/-- The entries of group `g`. -/
def groupOf (g : Nat) (l : List (Str × Str)) : List (Str × Str) :=
  l.filter fun e => (groupPrefix g).isPrefixOf e.1

theorem mem_groupOf {g : Nat} {l : List (Str × Str)} {e : Str × Str} :
    e ∈ groupOf g l ↔ e ∈ l ∧ groupPrefix g <+: e.1 := by
  rw [groupOf, List.mem_filter, List.isPrefixOf_iff_prefix]

theorem groupPrefix_unique {g g' : Nat} {key : Str} (h : groupPrefix g <+: key)
    (h' : groupPrefix g' <+: key) : g = g' := by
  obtain ⟨r, hr⟩ := h
  obtain ⟨r', hr'⟩ := h'
  exact (groupPrefix_append_inj (hr.trans hr'.symm)).1

/-- The pass is not inside a group that continues in `l`. -/
def Outside (st : Scan) (l : List (Str × Str)) : Prop :=
  st.lastGroup = [] ∨ ∃ g, st.lastGroup = groupPrefix g ∧ ∀ e ∈ l, ¬ groupPrefix g <+: e.1

theorem Outside.not_prefix {st : Scan} {l : List (Str × Str)} (h : Outside st l) {g : Nat}
    {e : Str × Str} (he : e ∈ l) (hg : groupPrefix g <+: e.1) (r : Str) :
    st.lastGroup ≠ [] → ¬ st.lastGroup <+: groupPrefix g ++ r := by
  intro hne hpre
  rcases h with h | ⟨g', hlast, hnone⟩
  · exact hne h
  · rw [hlast] at hpre
    rw [groupPrefix_unique (List.prefix_append _ r) hpre] at hg
    exact hnone e he hg

theorem Group.scan {g : Nat} (hg : g < invalidDigits) {block : List (Str × Str)}
    (h : Group g block) (hne : block ≠ []) {st : Scan}
    (hout : ∀ r, st.lastGroup ≠ [] → ¬ st.lastGroup <+: groupPrefix g ++ r) :
    ∃ st', scan st block = .ok st' ∧ Inside (groupPrefix g) st' := by
  cases h with
  | unlocked ho hk =>
    refine scan_values (opens_groupPrefix hg) ho hk hout (Nat.pos_of_ne_zero ?_)
    rintro rfl
    exact hne rfl
  | locked hL hc ho hm hj hk => exact scan_locked (opens_groupPrefix hg) hL hc ho hm hj hk hout

theorem scan_groups (n : Nat) {l : List (Str × Str)} (hn : l.length ≤ n)
    (hsorted : l.Pairwise fun a b => a.1 < b.1)
    (hkeys : ∀ e ∈ l, ∃ g < invalidDigits, groupPrefix g <+: e.1)
    (hgroups : ∀ g, Group g (groupOf g l)) {st : Scan} (hout : Outside st l) :
    ∃ st', scan st l = .ok st' := by
  induction n generalizing l st with
  | zero =>
    rw [List.length_eq_zero_iff.1 (Nat.le_zero.1 hn)]
    exact ⟨st, rfl⟩
  | succ n ih =>
    cases l with
    | nil => exact ⟨st, rfl⟩
    | cons e l =>
      obtain ⟨g, hg, hpre⟩ := hkeys e List.mem_cons_self
      have hmem : e ∈ groupOf g (e :: l) := mem_groupOf.2 ⟨List.mem_cons_self, hpre⟩
      obtain ⟨st1, hblock, hin⟩ := (hgroups g).scan hg (List.ne_nil_of_mem hmem)
        (hout.not_prefix List.mem_cons_self hpre)
      have hsplit := PrefixOrder.filter_append_filter (p := groupPrefix g) hsorted
        (by rintro f hf; obtain rfl := Option.some.inj hf; exact hpre)
      rw [← groupOf] at hsplit
      generalize hrest : (e :: l).filter (fun e => !(groupPrefix g).isPrefixOf e.1) = rest at hsplit
      have hrestmem : ∀ f ∈ rest, f ∈ e :: l ∧ ¬ groupPrefix g <+: f.1 := by
        intro f hf
        rw [← hrest, List.mem_filter, Bool.not_eq_true', Bool.eq_false_iff, Ne,
          List.isPrefixOf_iff_prefix] at hf
        exact hf
      have hlen : rest.length ≤ n := by
        have h1 := congrArg List.length hsplit
        rw [List.length_append] at h1
        have h2 := List.length_pos_of_mem hmem
        omega
      rw [hsplit, scan_append hblock]
      refine ih hlen (hrest ▸ hsorted.filter _) (fun f hf => hkeys f (hrestmem f hf).1) ?_
        (Or.inr ⟨g, hin.lastGroup, fun f hf => (hrestmem f hf).2⟩)
      intro g'
      by_cases he : g' = g
      · have hnil : groupOf g' rest = [] := List.eq_nil_iff_forall_not_mem.2 fun f hf =>
          (hrestmem f (mem_groupOf.1 hf).1).2 (he ▸ (mem_groupOf.1 hf).2)
        rw [hnil]
        exact Group.unlocked (k := 0) (List.cons_ne_nil 'c' []) (by decide)
      · have hsame : groupOf g' rest = groupOf g' (e :: l) := by
          rw [groupOf, groupOf, ← hrest, List.filter_filter]
          refine List.filter_congr fun f _ => ?_
          by_cases hf : groupPrefix g' <+: f.1
          · rw [List.isPrefixOf_iff_prefix.2 hf, Bool.true_and, Bool.not_eq_true',
              Bool.eq_false_iff, Ne, List.isPrefixOf_iff_prefix]
            exact fun hf' => he (groupPrefix_unique hf hf')
          · rw [Bool.eq_false_iff.2 (mt List.isPrefixOf_iff_prefix.1 hf), Bool.false_and]
        rw [hsame]
        exact hgroups g'

theorem keyValues_sorted (db : Pancydb) : (keyValues db).Pairwise fun a b => a.1 < b.1 :=
  List.pairwise_map.2 db.db.sorted

theorem mem_keyValues {db : Pancydb} {key value : Str} :
    (key, value) ∈ keyValues db ↔ (db.db.find? key).map Pancy.Vv.value = some value := by
  rw [keyValues, List.mem_map, Option.map_eq_some_iff]
  constructor
  · rintro ⟨⟨k, vv⟩, hmem, he⟩
    obtain ⟨rfl, rfl⟩ := Prod.mk.inj he
    exact ⟨vv, SortedMap.mem_entries.1 hmem, rfl⟩
  · rintro ⟨vv, hfind, rfl⟩
    exact ⟨(key, vv), SortedMap.mem_entries.2 hfind, rfl⟩

/-- A database whose groups are all accepted is accepted. -/
theorem check_eq_none {db : Pancydb}
    (hkeys : ∀ e ∈ keyValues db, ∃ g < invalidDigits, groupPrefix g <+: e.1)
    (hgroups : ∀ g, Group g (groupOf g (keyValues db))) : check db = none := by
  have hout : Outside {} (keyValues db) := Or.inl rfl
  obtain ⟨st, hscan⟩ := scan_groups _ le_rfl (keyValues_sorted db) hkeys hgroups hout
  rw [check, hscan]

end LockSeq
end Psets
