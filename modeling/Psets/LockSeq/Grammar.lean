/-
`lockseq_model::check` accepts what its comment describes.

The description is a split of the entries into groups; the pass is followed one entry at
a time.  `Reads` says which entries of the current group lead to which state.
-/
import Mathlib.Data.List.Induction
import Psets.LockSeq.Check

namespace Psets
namespace LockSeq

/-! ## The description -/

def lockEntry (p L : Str) : Str × Str := (p ++ ['l', 'o', 'c', 'k'], L)

/-- A lock value starts with a client id: `c{N} {HEXDIGITS}`. -/
def HeldLock (L : Str) : Prop := 4 ≤ L.length ∧ L[0]? = some 'c'

/-- The entries of one group, of prefix `p`. -/
inductive Block (p : Str) : List (Str × Str) → Prop where
  | unlocked {m : Nat} {o : Str} : o ≠ [] → m ≤ 1000 → Block p (run p 0 m o)
  | released {m : Nat} {o : Str} : o ≠ [] → m ≤ 1000 →
      Block p (lockEntry p [] :: run p 0 m o)
  | locked {i j k : Nat} {L o : Str} : HeldLock L → o ≠ [] → i ≤ j → i ≤ 1000 → k ≤ 1000 →
      Block p (lockEntry p L :: (run p 0 i L ++ run p j (k - j) o))

/-- The prefixes of groups, `g` and a number and a slash. -/
def GroupPrefix (p : Str) : Prop :=
  ∃ digits, digits ≠ [] ∧ (∀ ch ∈ digits, ch.isDigit = true) ∧ p = digitsPrefix digits

/-- The entries split into groups: each has a prefix of its own. -/
structure Groups (groups : List (Str × List (Str × Str))) : Prop where
  prefixes : ∀ g ∈ groups, GroupPrefix g.1
  nonempty : ∀ g ∈ groups, g.2 ≠ []
  blocks : ∀ g ∈ groups, Block g.1 g.2
  distinct : (groups.map Prod.fst).Nodup

def entriesOf (groups : List (Str × List (Str × Str))) : List (Str × Str) :=
  (groups.map Prod.snd).flatten

def Grammatical (entries : List (Str × Str)) : Prop :=
  ∃ groups, Groups groups ∧ entries = entriesOf groups

/-- The numbers of the groups are below `unsigned(-1)`. -/
def NumbersFit (entries : List (Str × Str)) : Prop :=
  ∀ digits, digits ≠ [] → (∀ ch ∈ digits, ch.isDigit = true) →
    (∃ e ∈ entries, digitsPrefix digits <+: e.1) → Nat.ofDigitChars 10 digits 0 < invalidDigits

/-! ## Prefixes -/

theorem slash_notMem {digits : Str} (h : ∀ ch ∈ digits, ch.isDigit = true) : '/' ∉ digits :=
  fun hmem => absurd (h _ hmem) (by decide)

theorem GroupPrefix.ne_nil {p : Str} (h : GroupPrefix p) : p ≠ [] := by
  obtain ⟨digits, _, _, rfl⟩ := h
  exact List.cons_ne_nil _ _

/-- A key has one group. -/
theorem GroupPrefix.unique {p q key : Str} (hp : GroupPrefix p) (hq : GroupPrefix q)
    (hpk : p <+: key) (hqk : q <+: key) : p = q := by
  obtain ⟨digits, _, hdigits, rfl⟩ := hp
  obtain ⟨digits', _, hdigits', rfl⟩ := hq
  obtain ⟨r, hr⟩ := hpk
  obtain ⟨r', hr'⟩ := hqk
  have h := hr.trans hr'.symm
  simp only [digitsPrefix, List.cons_append, List.append_assoc, List.nil_append,
    List.cons.injEq, true_and] at h
  rw [(append_sep_inj (slash_notMem hdigits) (slash_notMem hdigits') h).1]

/-! ## What the pass learns from a key -/

theorem isDigit_of_parseLoop {l : Str} {v : Nat} (h : parseLoop v l ≠ invalidDigits) :
    ∀ ch ∈ l, ch.isDigit = true := by
  induction l generalizing v with
  | nil => exact fun ch hch => absurd hch List.not_mem_nil
  | cons ch l ih =>
    rw [parseLoop] at h
    by_cases hch : ch < '0' ∨ '9' < ch
    · rw [if_pos hch] at h
      exact absurd rfl h
    · rw [if_neg hch] at h
      have hrest : ∀ c ∈ l, c.isDigit = true := by
        simp only [] at h
        split at h
        · exact absurd rfl h
        · exact ih h
      intro c hc
      rcases List.mem_cons.1 hc with rfl | hc
      · exact isDigit_iff.2 hch
      · exact hrest c hc

/-- A number between a `g` and the first slash opens a group. -/
theorem groupPrefix_of_opening {key : Str} {slash : Nat} (hg : key[0]? = some 'g')
    (hslash : key.findIdx? (· == '/') = some slash)
    (hparse : parseDigits key 1 slash ≠ invalidDigits) :
    GroupPrefix (key.take (slash + 1)) ∧ slash < key.length := by
  have hlt : ¬ slash ≤ 1 := by
    intro hle
    rw [parseDigits, if_pos hle] at hparse
    exact hparse rfl
  rw [parseDigits, if_neg hlt] at hparse
  obtain ⟨hlength, hch, -⟩ := List.findIdx?_eq_some_iff_getElem.1 hslash
  obtain ⟨rest, rfl⟩ := List.head?_eq_some_iff.1 (List.head?_eq_getElem?.trans hg)
  obtain ⟨n, rfl⟩ : ∃ n, slash = n + 1 := ⟨slash - 1, by omega⟩
  rw [List.drop_succ_cons, List.drop_zero, Nat.add_sub_cancel] at hparse
  have hn : n < rest.length := by
    rw [List.length_cons] at hlength
    omega
  have htake : ('g' :: rest).take (n + 1 + 1) = digitsPrefix (rest.take n) := by
    have hlast : rest.take (n + 1) = rest.take n ++ ['/'] := by
      rw [List.take_succ_eq_append_getElem hn]
      rw [List.getElem_cons_succ, beq_iff_eq] at hch
      rw [hch]
    rw [List.take_succ_cons, hlast]
    rfl
  refine ⟨⟨rest.take n, fun hnil => ?_, isDigit_of_parseLoop hparse, htake⟩, hlength⟩
  have hpos : (rest.take n).length = n := List.length_take_of_le (Nat.le_of_lt hn)
  rw [hnil, List.length_nil] at hpos
  omega

/-- A key that is let through stays in the group, or opens one. -/
theorem newGroup_inv {st st' : Scan} {key : Str} (h : newGroup st key = .ok st') :
    st' = st ∧ st.lastGroup ≠ [] ∧ st.lastGroup <+: key ∨
      ∃ p, GroupPrefix p ∧ p <+: key ∧ st' = fresh p ∧
        (st.lastGroup = [] ∨ ¬ st.lastGroup <+: key) := by
  rw [newGroup] at h
  by_cases hout : st.lastGroup = [] ∨ st.lastGroup.isPrefixOf key = false
  · right
    rw [if_pos hout] at h
    by_cases hstart : key.length < 3 ∨ key[0]? ≠ some 'g'
    · rw [if_pos hstart] at h
      cases h
    · rw [if_neg hstart] at h
      rw [not_or, not_not] at hstart
      cases hslash : key.findIdx? (· == '/') with
      | none =>
        rw [hslash] at h
        cases h
      | some slash =>
        rw [hslash] at h
        simp only [] at h
        by_cases hinvalid : parseDigits key 1 slash = invalidDigits
        · rw [if_pos hinvalid] at h
          cases h
        · rw [if_neg hinvalid] at h
          obtain rfl := Except.ok.inj h
          obtain ⟨hgroup, hlength⟩ := groupPrefix_of_opening hstart.2 hslash hinvalid
          refine ⟨_, hgroup, List.take_prefix _ _, ?_, hout.imp id fun hfalse hpre => ?_⟩
          · rw [fresh, List.length_take_of_le hlength]
          · rw [List.isPrefixOf_iff_prefix.2 hpre] at hfalse
            cases hfalse
  · left
    rw [if_neg hout] at h
    rw [not_or, Bool.not_eq_false, List.isPrefixOf_iff_prefix] at hout
    exact ⟨(Except.ok.inj h).symm, hout.1, hout.2⟩

theorem exists_digitChar {ch : Char} (h : ch.isDigit = true) :
    ∃ x < 10, ch = Nat.digitChar x := by
  rw [Char.isDigit, Bool.and_eq_true, decide_eq_true_iff, decide_eq_true_iff] at h
  have hlow : 48 ≤ ch.toNat := h.1
  have hhigh : ch.toNat ≤ 57 := h.2
  refine ⟨ch.toNat - 48, by omega, Char.toNat_inj.1 ?_⟩
  rw [Nat.toNat_digitChar_of_lt_ten (by omega)]
  omega

/-- Three digits are an index. -/
theorem exists_decimal3 {l : Str} (hlength : l.length = 3)
    (hdigits : ∀ ch ∈ l, ch.isDigit = true) : ∃ v < 1000, l = decimal3 v := by
  obtain ⟨a, b, c, rfl⟩ := List.length_eq_three.1 hlength
  obtain ⟨x, hx, rfl⟩ := exists_digitChar (hdigits a (by simp))
  obtain ⟨y, hy, rfl⟩ := exists_digitChar (hdigits b (by simp))
  obtain ⟨z, hz, rfl⟩ := exists_digitChar (hdigits c (by simp))
  have h₀ : (100 * x + 10 * y + z) / 100 = x := by omega
  have h₁ : (100 * x + 10 * y + z) / 10 % 10 = y := by omega
  have h₂ : (100 * x + 10 * y + z) % 10 = z := by omega
  refine ⟨100 * x + 10 * y + z, by omega, ?_⟩
  rw [decimal3_eq (by omega), h₀, h₁, h₂]

/-- What an accepted value does to the state. -/
inductive ValueStep (st : Scan) (v : Nat) (value : Str) : Scan → Prop where
  | expected : v = st.expectedIndex → (st.expectedValue = [] ∨ value = st.expectedValue) →
      ValueStep st v value { st with expectedIndex := v + 1, expectedValue := value }
  | behind : st.lockState = .lockedStart → st.expectedIndex ≤ v →
      ValueStep st v value
        { st with lockState := .lockedRest, expectedIndex := v + 1, expectedValue := value }

theorem checkIndex_content_inv {st st' : Scan} {key value : Str} {v : Nat}
    (h : ((checkIndex st key v).bind fun st => checkContent st key value) = .ok st') :
    ValueStep st v value st' := by
  rw [checkIndex] at h
  by_cases hv : v = st.expectedIndex
  · rw [if_neg (not_not.2 hv), Except.bind, checkContent] at h
    by_cases hother : st.expectedValue ≠ [] ∧ value ≠ st.expectedValue
    · rw [if_pos hother] at h
      by_cases hstart : st.lockState = .lockedStart
      · rw [if_neg (not_not.2 hstart)] at h
        rw [← Except.ok.inj h, ← hv]
        exact .behind hstart (Nat.le_of_eq hv.symm)
      · rw [if_pos hstart] at h
        cases h
    · rw [if_neg hother] at h
      rw [not_and_or, not_not, not_not] at hother
      rw [← Except.ok.inj h, ← hv]
      exact .expected hv hother
  · rw [if_pos hv] at h
    by_cases hbad : st.lockState = .unlocked ∨ st.lockState = .lockedRest ∨ v < st.expectedIndex
    · rw [if_pos hbad] at h
      cases h
    · rw [if_neg hbad, Except.bind, checkContent, if_neg fun hne => hne.1 rfl] at h
      rw [not_or, not_or, not_lt] at hbad
      have hstart : st.lockState = .lockedStart := by
        cases hs : st.lockState with
        | unlocked => exact absurd hs hbad.1
        | lockedStart => rfl
        | lockedRest => exact absurd hs hbad.2.1
      rw [← Except.ok.inj h]
      exact .behind hstart hbad.2.2

theorem checkValue_inv {p : Str} {st st' : Scan} {key value : Str} (hin : Inside p st)
    (hpre : p <+: key) (h : checkValue st key value = .ok st') :
    ∃ v < 1000, key = p ++ 'v' :: decimal3 v ∧ value ≠ [] ∧ ValueStep st v value st' := by
  obtain ⟨r, rfl⟩ := hpre
  rw [checkValue] at h
  simp only [hin.glen] at h
  by_cases hbad : (p ++ r).length ≠ p.length + 4 ∨ (p ++ r)[p.length]? ≠ some 'v' ∨
      parseDigits (p ++ r) (p.length + 1) (p.length + 4) = invalidDigits ∨ value = []
  · rw [if_pos hbad] at h
    cases h
  · rw [if_neg hbad] at h
    rw [not_or, not_or, not_or, not_not, not_not] at hbad
    obtain ⟨hlength, hletter, hparse, hvalue⟩ := hbad
    rw [List.getElem?_append_right (Nat.le_refl _), Nat.sub_self,
      ← List.head?_eq_getElem?] at hletter
    obtain ⟨digits, rfl⟩ := List.head?_eq_some_iff.1 hletter
    have hthree : digits.length = 3 := by
      rw [List.length_append, List.length_cons] at hlength
      omega
    have hloop : parseDigits (p ++ 'v' :: digits) (p.length + 1) (p.length + 4) =
        parseLoop 0 digits := by
      rw [parseDigits, if_neg (by omega), List.drop_length_add_append, List.drop_succ_cons,
        List.drop_zero, List.take_of_length_le (by omega)]
    rw [hloop] at hparse h
    obtain ⟨v, hv, rfl⟩ := exists_decimal3 hthree (isDigit_of_parseLoop hparse)
    rw [parseLoop_decimal3 (by simp only [unsignedModulus]; omega)] at h
    exact ⟨v, hv, rfl, hvalue, checkIndex_content_inv h⟩

/-- An accepted lock comes first, and is free or held. -/
theorem checkLock_inv {st st' : Scan} {key value : Str} (h : checkLock st key value = .ok st') :
    st.expectedIndex = 0 ∧ st.lockState = .unlocked ∧
      (value = [] ∧ st' = st ∨
        HeldLock value ∧
          st' = { st with lockState := .lockedStart, expectedValue := value }) := by
  rw [checkLock] at h
  by_cases hlate : st.expectedIndex ≠ 0 ∨ st.lockState ≠ .unlocked
  · rw [if_pos hlate] at h
    cases h
  · rw [if_neg hlate] at h
    rw [not_or, not_not, not_not] at hlate
    refine ⟨hlate.1, hlate.2, ?_⟩
    by_cases hfree : value = []
    · rw [if_pos hfree] at h
      exact Or.inl ⟨hfree, (Except.ok.inj h).symm⟩
    · rw [if_neg hfree] at h
      by_cases hbad : value.length < 4 ∨ value[0]? ≠ some 'c'
      · rw [if_pos hbad] at h
        cases h
      · rw [if_neg hbad] at h
        rw [not_or, not_lt, not_not] at hbad
        exact Or.inr ⟨hbad, (Except.ok.inj h).symm⟩

theorem isLockKey_inv {p : Str} {st : Scan} {key : Str} (hin : Inside p st) (hpre : p <+: key)
    (h : isLockKey st key = true) : key = p ++ ['l', 'o', 'c', 'k'] := by
  obtain ⟨r, rfl⟩ := hpre
  rw [isLockKey, hin.glen, Bool.and_eq_true, beq_iff_eq, List.isSuffixOf_iff_suffix] at h
  obtain ⟨hlength, t, ht⟩ := h
  have hsame : t.length = p.length := by
    have hl := congrArg List.length ht
    rw [List.length_append, List.length_append] at hl
    rw [List.length_append] at hlength
    have hlock : ['l', 'o', 'c', 'k'].length = 4 := rfl
    omega
  rw [← (List.append_inj ht hsame).2]

/-! ## The current group -/

/-- The state after the entries `block` of the group of prefix `p`. -/
inductive Reads (p : Str) : Scan → List (Str × Str) → Prop where
  | unlocked {m : Nat} {o : Str} {lock : List (Str × Str)} :
      (lock = [] ∨ lock = [lockEntry p []]) → o ≠ [] → m ≤ 1000 →
      Reads p ((fresh p).pass m o) (lock ++ run p 0 m o)
  | lockedStart {i : Nat} {L : Str} : HeldLock L → i ≤ 1000 →
      Reads p
        { fresh p with lockState := .lockedStart, expectedIndex := i, expectedValue := L }
        (lockEntry p L :: run p 0 i L)
  | lockedRest {i j k : Nat} {L o : Str} : HeldLock L → o ≠ [] → i ≤ j → i ≤ 1000 → j < k →
      k ≤ 1000 →
      Reads p
        { fresh p with lockState := .lockedRest, expectedIndex := k, expectedValue := o }
        (lockEntry p L :: (run p 0 i L ++ run p j (k - j) o))

theorem HeldLock.ne_nil {L : Str} (h : HeldLock L) : L ≠ [] := by
  rintro rfl
  exact absurd h.2 (by decide)

theorem run_append_one (p : Str) (a n : Nat) (o : Str) :
    run p a n o ++ [(p ++ 'v' :: decimal3 (a + n), o)] = run p a (n + 1) o := by
  rw [run, run, List.range'_concat, List.map_append, Nat.one_mul]
  rfl

theorem Reads.start (p : Str) : Reads p (fresh p) [] :=
  .unlocked (m := 0) (o := ['c']) (.inl rfl) (List.cons_ne_nil _ _) (Nat.zero_le _)

theorem Reads.inside {p : Str} {st : Scan} {block : List (Str × Str)} (h : Reads p st block) :
    Inside p st := by
  cases h with
  | unlocked _ _ _ => exact (Inside.fresh p).pass _ _
  | lockedStart _ _ => exact ⟨rfl, rfl⟩
  | lockedRest _ _ _ _ _ _ => exact ⟨rfl, rfl⟩

/-- What has been read is a block. -/
theorem Reads.block {p : Str} {st : Scan} {block : List (Str × Str)} (h : Reads p st block) :
    Block p block := by
  cases h with
  | unlocked hlock ho hm =>
    rcases hlock with rfl | rfl
    · exact .unlocked ho hm
    · exact .released ho hm
  | @lockedStart i L hL hi =>
    have hblock := Block.locked (p := p) (k := 0) hL hL.ne_nil (Nat.le_refl i) hi (Nat.zero_le _)
    have hnil : run p i (0 - i) L = [] := by
      rw [Nat.zero_sub]
      rfl
    rwa [hnil, List.append_nil] at hblock
  | lockedRest hL ho hij hi _ hk => exact .locked hL ho hij hi hk

theorem pass_fresh (p : Str) (m : Nat) (o : Str) :
    ((fresh p).pass m o).lockState = .unlocked ∧ ((fresh p).pass m o).expectedIndex = m ∧
      ((fresh p).pass m o).expectedValue = if m = 0 then [] else o := by
  rw [Scan.pass]
  by_cases hm : m = 0
  · rw [if_pos hm, if_pos hm, hm]
    exact ⟨rfl, rfl, rfl⟩
  · rw [if_neg hm, if_neg hm]
    exact ⟨rfl, Nat.zero_add m, rfl⟩

theorem pass_succ (p : Str) (m : Nat) (o value : Str) :
    { (fresh p).pass m o with expectedIndex := m + 1, expectedValue := value } =
      (fresh p).pass (m + 1) value := by
  rw [Scan.pass, Scan.pass, if_neg (Nat.succ_ne_zero m)]
  have hidx : (fresh p).expectedIndex + (m + 1) = m + 1 := Nat.zero_add _
  by_cases hm : m = 0
  · rw [if_pos hm, hidx]
  · rw [if_neg hm, hidx]

/-- A run that the next value continues; before the first value any will do. -/
theorem run_extend {p : Str} {m : Nat} {o value : Str}
    (h : (if m = 0 then [] else o) = [] ∨ value = if m = 0 then [] else o) (ho : o ≠ []) :
    run p 0 m o ++ [(p ++ 'v' :: decimal3 m, value)] = run p 0 (m + 1) value := by
  have hrun : run p 0 m o = run p 0 m value := by
    by_cases hm : m = 0
    · rw [hm]
      rfl
    · rw [if_neg hm] at h
      rw [h.resolve_left ho]
  have hlast := run_append_one p 0 m value
  rw [Nat.zero_add] at hlast
  rw [hrun, hlast]

theorem Reads.lock {p : Str} {st st' : Scan} {block : List (Str × Str)} {value : Str}
    (h : Reads p st block) (hnew : ∀ L, lockEntry p L ∉ block)
    (hstep : checkLock st (p ++ ['l', 'o', 'c', 'k']) value = .ok st') :
    Reads p st' (block ++ [lockEntry p value]) := by
  obtain ⟨hidx, hstate, hvalue⟩ := checkLock_inv hstep
  cases h with
  | @unlocked m o lock hlock ho hm =>
    rw [(pass_fresh p m o).2.1] at hidx
    subst hidx
    have hnone : lock = [] := by
      rcases hlock with rfl | rfl
      · rfl
      · exact absurd List.mem_cons_self (hnew [])
    rw [hnone]
    rcases hvalue with ⟨rfl, rfl⟩ | ⟨hL, rfl⟩
    · exact .unlocked (m := 0) (.inr rfl) ho (Nat.zero_le _)
    · exact .lockedStart (i := 0) hL (Nat.zero_le _)
  | lockedStart _ _ => cases hstate
  | lockedRest _ _ _ _ _ _ => cases hstate

theorem Reads.value {p : Str} {st st' : Scan} {block : List (Str × Str)} {v : Nat}
    {value : Str} (h : Reads p st block) (hv : v < 1000) (hvalue : value ≠ [])
    (hstep : ValueStep st v value st') :
    Reads p st' (block ++ [(p ++ 'v' :: decimal3 v, value)]) := by
  cases h with
  | @unlocked m o lock hlock ho hm =>
    obtain ⟨hstate, hidx, hexpected⟩ := pass_fresh p m o
    cases hstep with
    | expected he hsame =>
      rw [hidx] at he
      subst he
      rw [hexpected] at hsame
      rw [List.append_assoc, run_extend hsame ho, pass_succ]
      exact .unlocked hlock hvalue hv
    | behind hstart _ =>
      rw [hstate] at hstart
      cases hstart
  | @lockedStart i L hL hi =>
    cases hstep with
    | expected he hsame =>
      have he' : v = i := he
      have hsame' : value = L := hsame.resolve_left hL.ne_nil
      subst he'
      subst hsame'
      have hlast := run_append_one p 0 v value
      rw [Nat.zero_add] at hlast
      rw [List.cons_append, hlast]
      exact .lockedStart hL hv
    | behind _ hle =>
      have hone : run p v (v + 1 - v) value = [(p ++ 'v' :: decimal3 v, value)] := by
        rw [Nat.add_sub_cancel_left]
        rfl
      rw [List.cons_append, ← hone]
      exact .lockedRest hL hvalue hle hi (Nat.lt_succ_self v) hv
  | @lockedRest i j k L o hL ho hij hi hjk hk =>
    cases hstep with
    | expected he hsame =>
      have he' : v = k := he
      have hsame' : value = o := hsame.resolve_left ho
      subst he'
      subst hsame'
      have hlast := run_append_one p j (v - j) value
      have hadd : j + (v - j) = v := Nat.add_sub_cancel' (Nat.le_of_lt hjk)
      have hsub : v - j + 1 = v + 1 - j := (Nat.succ_sub (Nat.le_of_lt hjk)).symm
      rw [hadd, hsub] at hlast
      rw [List.cons_append, List.append_assoc, hlast]
      exact .lockedRest hL ho hij hi (Nat.lt_succ_of_lt hjk) hv
    | behind hstart _ => cases hstart

/-- One more entry of the group. -/
theorem Reads.step {p : Str} {st st' : Scan} {block : List (Str × Str)} {e : Str × Str}
    (h : Reads p st block) (hpre : p <+: e.1) (hnew : ∀ f ∈ block, f.1 ≠ e.1)
    (hstep : (if isLockKey st e.1 then checkLock st e.1 e.2 else checkValue st e.1 e.2) =
      .ok st') : Reads p st' (block ++ [e]) := by
  obtain ⟨key, value⟩ := e
  by_cases hlock : isLockKey st key = true
  · rw [if_pos hlock] at hstep
    obtain rfl := isLockKey_inv h.inside hpre hlock
    exact h.lock (fun L hmem => hnew _ hmem rfl) hstep
  · rw [if_neg hlock] at hstep
    obtain ⟨v, hv, rfl, hvalue, hvstep⟩ := checkValue_inv h.inside hpre hstep
    exact h.value hv hvalue hvstep

/-! ## Accepted entries are grammatical -/

theorem prefix_of_mem_run {p o : Str} {a n : Nat} {e : Str × Str} (h : e ∈ run p a n o) :
    p <+: e.1 := by
  obtain ⟨v, _, rfl⟩ := List.mem_map.1 h
  exact List.prefix_append _ _

theorem Block.prefix_mem {p : Str} {block : List (Str × Str)} (h : Block p block)
    {e : Str × Str} (he : e ∈ block) : p <+: e.1 := by
  cases h with
  | unlocked _ _ => exact prefix_of_mem_run he
  | released _ _ =>
    rcases List.mem_cons.1 he with rfl | he
    · exact List.prefix_append _ _
    · exact prefix_of_mem_run he
  | locked _ _ _ _ _ =>
    rcases List.mem_cons.1 he with rfl | he
    · exact List.prefix_append _ _
    · rcases List.mem_append.1 he with he | he <;> exact prefix_of_mem_run he

theorem groups_nil : Groups [] where
  prefixes _ h := absurd h List.not_mem_nil
  nonempty _ h := absurd h List.not_mem_nil
  blocks _ h := absurd h List.not_mem_nil
  distinct := List.Pairwise.nil

/-- One more group. -/
theorem Groups.concat {groups : List (Str × List (Str × Str))} {p : Str}
    {block : List (Str × Str)} (h : Groups groups) (hp : GroupPrefix p)
    (hnew : p ∉ groups.map Prod.fst) (hne : block ≠ []) (hblock : Block p block) :
    Groups (groups ++ [(p, block)]) := by
  have hmem : ∀ {P : Str × List (Str × Str) → Prop}, (∀ g ∈ groups, P g) → P (p, block) →
      ∀ g ∈ groups ++ [(p, block)], P g := by
    intro P hold hlast g hg
    rcases List.mem_append.1 hg with hg | hg
    · exact hold g hg
    · rw [List.mem_singleton.1 hg]
      exact hlast
  refine ⟨hmem h.prefixes hp, hmem h.nonempty hne, hmem h.blocks hblock, ?_⟩
  rw [List.map_append, List.nodup_append]
  refine ⟨h.distinct, List.pairwise_singleton _ _, fun q hq q' hq' he => hnew ?_⟩
  rw [List.map_singleton, List.mem_singleton] at hq'
  have hqp : q = p := he.trans hq'
  rwa [← hqp]

theorem entriesOf_concat (groups : List (Str × List (Str × Str))) (g : Str × List (Str × Str)) :
    entriesOf (groups ++ [g]) = entriesOf groups ++ g.2 := by
  simp [entriesOf]

/-- The state after entries that have been accepted: groups, and one that is still read. -/
inductive Parses : Scan → List (Str × Str) → Prop where
  | start : Parses {} []
  | inside {groups : List (Str × List (Str × Str))} {p : Str} {block : List (Str × Str)}
      {st : Scan} : Groups groups → GroupPrefix p → p ∉ groups.map Prod.fst → block ≠ [] →
      Reads p st block → Parses st (entriesOf groups ++ block)

theorem Parses.grammatical {st : Scan} {entries : List (Str × Str)} (h : Parses st entries) :
    Grammatical entries := by
  cases h with
  | start => exact ⟨[], groups_nil, rfl⟩
  | @inside groups p block _ hgroups hp hnew hne hreads =>
    exact ⟨_, hgroups.concat hp hnew hne hreads.block, (entriesOf_concat groups (p, block)).symm⟩

theorem checkEntry_inv {st st' : Scan} {e : Str × Str} (h : checkEntry st e = .ok st') :
    ∃ st₁, newGroup st e.1 = .ok st₁ ∧
      (if isLockKey st₁ e.1 then checkLock st₁ e.1 e.2 else checkValue st₁ e.1 e.2) =
        .ok st' := by
  rw [checkEntry] at h
  cases hnew : newGroup st e.1 with
  | error key =>
    rw [hnew] at h
    cases h
  | ok st₁ =>
    rw [hnew] at h
    exact ⟨st₁, rfl, h⟩

/-- A group that has been left is not opened again: it would reach over the last one. -/
theorem Groups.not_reopened {groups : List (Str × List (Str × Str))} {p q : Str}
    {block : List (Str × Str)} {e : Str × Str} (hgroups : Groups groups) (hp : GroupPrefix p)
    (hq : GroupPrefix q) (hne : block ≠ []) (hblock : Block p block)
    (hsorted : (entriesOf groups ++ block ++ [e]).Pairwise fun a b => a.1 < b.1)
    (hpre : q <+: e.1) (hnot : ¬ p <+: e.1) : q ∉ groups.map Prod.fst := by
  intro hmem
  obtain ⟨g, hg, rfl⟩ := List.mem_map.1 hmem
  obtain ⟨f, hf⟩ := List.exists_mem_of_ne_nil _ (hgroups.nonempty g hg)
  obtain ⟨b, hb⟩ := List.exists_mem_of_ne_nil _ hne
  obtain ⟨hall, -, hlast⟩ := List.pairwise_append.1 hsorted
  have hfb : f.1 < b.1 := by
    refine (List.pairwise_append.1 hall).2.2 f ?_ b hb
    exact List.mem_flatten.2 ⟨g.2, List.mem_map_of_mem hg, hf⟩
  have hbe : b.1 < e.1 := hlast b (List.mem_append_right _ hb) e List.mem_cons_self
  have hbetween := PrefixOrder.prefix_of_between ((hgroups.blocks g hg).prefix_mem hf)
    hpre (le_of_lt hfb) (le_of_lt hbe)
  have hsame := hq.unique hp hbetween (hblock.prefix_mem hb)
  rw [hsame] at hpre
  exact hnot hpre

theorem Parses.step {st st' : Scan} {entries : List (Str × Str)} {e : Str × Str}
    (h : Parses st entries) (hsorted : (entries ++ [e]).Pairwise fun a b => a.1 < b.1)
    (hstep : checkEntry st e = .ok st') : Parses st' (entries ++ [e]) := by
  obtain ⟨st₁, hnew, hrest⟩ := checkEntry_inv hstep
  have hlast : ∀ f ∈ entries, f.1 < e.1 := fun f hf =>
    (List.pairwise_append.1 hsorted).2.2 f hf e List.mem_cons_self
  have hopen : ∀ {p : Str}, p <+: e.1 → st₁ = fresh p → Reads p st' [e] := by
    rintro p hpre rfl
    exact (Reads.start p).step hpre (fun f hf => absurd hf List.not_mem_nil) hrest
  cases h with
  | start =>
    rcases newGroup_inv hnew with ⟨_, hne, _⟩ | ⟨p, hp, hpre, hfresh, _⟩
    · exact absurd rfl hne
    · exact .inside groups_nil hp List.not_mem_nil (List.cons_ne_nil _ _) (hopen hpre hfresh)
  | @inside groups p block _ hgroups hp hpnew hne hreads =>
    have hgroup := hreads.inside.lastGroup
    rcases newGroup_inv hnew with ⟨rfl, _, hpre⟩ | ⟨q, hq, hpre, hfresh, hleft⟩
    · rw [hgroup] at hpre
      rw [List.append_assoc]
      refine .inside hgroups hp hpnew (List.append_ne_nil_of_left_ne_nil hne _)
        (hreads.step hpre (fun f hf => ?_) hrest)
      exact ne_of_lt (hlast f (List.mem_append_right _ hf))
    · rw [hgroup] at hleft
      have hnot := hleft.resolve_left hp.ne_nil
      have hsplit := entriesOf_concat groups (p, block)
      rw [← hsplit]
      refine .inside (hgroups.concat hp hpnew hne hreads.block) hq (fun hmem => ?_)
        (List.cons_ne_nil _ _) (hopen hpre hfresh)
      rw [List.map_append, List.map_singleton, List.mem_append, List.mem_singleton] at hmem
      rcases hmem with hmem | rfl
      · exact hgroups.not_reopened hp hq hne hreads.block hsorted hpre hnot hmem
      · exact hnot hpre

theorem scan_concat_inv {st st' : Scan} {entries : List (Str × Str)} {e : Str × Str}
    (h : scan st (entries ++ [e]) = .ok st') :
    ∃ st₁, scan st entries = .ok st₁ ∧ checkEntry st₁ e = .ok st' := by
  rw [scan, List.foldlM_append, ← scan] at h
  cases hfront : scan st entries with
  | error key =>
    rw [hfront] at h
    cases h
  | ok st₁ =>
    rw [hfront] at h
    refine ⟨st₁, rfl, ?_⟩
    rw [← h]
    cases hlast : checkEntry st₁ e <;>
      simp [bind, Except.bind, pure, Except.pure, hlast]

theorem parses_of_scan {st : Scan} {entries : List (Str × Str)}
    (hsorted : entries.Pairwise fun a b => a.1 < b.1) (h : scan {} entries = .ok st) :
    Parses st entries := by
  induction entries using List.reverseRecOn generalizing st with
  | nil =>
    rw [← Except.ok.inj h]
    exact .start
  | append_singleton entries e ih =>
    obtain ⟨st₁, hfront, hlast⟩ := scan_concat_inv h
    exact (ih (List.pairwise_append.1 hsorted).1 hfront).step hsorted hlast

/-! ## Grammatical entries are accepted -/

theorem Block.scan {p : Str} (hp : Opens p) {block : List (Str × Str)} (h : Block p block)
    (hne : block ≠ []) {st : Scan}
    (hout : ∀ r, st.lastGroup ≠ [] → ¬ st.lastGroup <+: p ++ r) :
    ∃ st', scan st block = .ok st' ∧ Inside p st' := by
  cases h with
  | unlocked ho hm =>
    refine scan_values hp ho hm hout (Nat.pos_of_ne_zero ?_)
    rintro rfl
    exact hne rfl
  | @released m o ho hm =>
    have hlock : checkEntry st (lockEntry p []) = .ok (fresh p) := by
      rw [lockEntry, checkEntry_lock (hp.enter (hout _)) (Inside.fresh p), checkLock,
        if_neg (by simp [fresh]), if_pos rfl]
    have hrun := scan_run hp.ne_nil ho m (Inside.fresh p) (Or.inl rfl)
      (show 0 + m ≤ 1000 by omega)
    exact ⟨_, (scan_cons hlock _).trans hrun, (Inside.fresh p).pass m o⟩
  | @locked i j k L o hL ho hij hi hk => exact scan_locked hp hL.1 hL.2 ho hi hij hk hout

theorem scan_entriesOf {groups : List (Str × List (Str × Str))} (h : Groups groups)
    (hopens : ∀ g ∈ groups, Opens g.1) {st : Scan}
    (hout : ∀ g ∈ groups, ∀ r, st.lastGroup ≠ [] → ¬ st.lastGroup <+: g.1 ++ r) :
    ∃ st', scan st (entriesOf groups) = .ok st' := by
  induction groups generalizing st with
  | nil => exact ⟨st, rfl⟩
  | cons g groups ih =>
    obtain ⟨st₁, hblock, hin⟩ := (h.blocks g List.mem_cons_self).scan
      (hopens g List.mem_cons_self) (h.nonempty g List.mem_cons_self)
      (hout g List.mem_cons_self)
    have htail : ∀ f ∈ groups, f ∈ g :: groups := fun f hf => List.mem_cons_of_mem g hf
    obtain ⟨hgnew, hdistinct⟩ := List.nodup_cons.1 h.distinct
    have hgroups : Groups groups := ⟨fun f hf => h.prefixes f (htail f hf),
      fun f hf => h.nonempty f (htail f hf), fun f hf => h.blocks f (htail f hf), hdistinct⟩
    have hout₁ : ∀ f ∈ groups, ∀ r, st₁.lastGroup ≠ [] → ¬ st₁.lastGroup <+: f.1 ++ r := by
      intro f hf r _ hpre
      rw [hin.lastGroup] at hpre
      have hsame := (h.prefixes g List.mem_cons_self).unique (h.prefixes f (htail f hf)) hpre
        (List.prefix_append _ _)
      exact hgnew (List.mem_map.2 ⟨f, hf, hsame.symm⟩)
    obtain ⟨st', hrest⟩ := ih hgroups (fun f hf => hopens f (htail f hf)) hout₁
    refine ⟨st', ?_⟩
    rw [entriesOf, List.map_cons, List.flatten_cons, scan_append hblock]
    exact hrest

theorem NumbersFit.opens {groups : List (Str × List (Str × Str))}
    (hfit : NumbersFit (entriesOf groups)) (h : Groups groups) :
    ∀ g ∈ groups, Opens g.1 := by
  intro g hg
  obtain ⟨digits, hne, hdigits, hg₁⟩ := h.prefixes g hg
  obtain ⟨e, he⟩ := List.exists_mem_of_ne_nil _ (h.nonempty g hg)
  have hpre := (h.blocks g hg).prefix_mem he
  rw [hg₁] at hpre ⊢
  refine opens_digits hne hdigits (hfit digits hne hdigits ⟨e, ?_, hpre⟩)
  exact List.mem_flatten.2 ⟨g.2, List.mem_map_of_mem hg, he⟩

/-- Numbers that are written as clients write them. -/
theorem numbersFit_of_groups {entries : List (Str × Str)}
    (h : ∀ e ∈ entries, ∃ g < invalidDigits, groupPrefix g <+: e.1) : NumbersFit entries := by
  rintro digits hne hdigits ⟨e, he, hpre⟩
  obtain ⟨g, hg, hgpre⟩ := h e he
  have hdecimal : ∀ ch ∈ decimal g, ch.isDigit = true := fun _ => isDigit_of_mem_decimal
  have hsame : digitsPrefix digits = digitsPrefix (decimal g) :=
    GroupPrefix.unique ⟨digits, hne, hdigits, rfl⟩ ⟨decimal g, decimal_ne_nil g, hdecimal, rfl⟩
      hpre hgpre
  have hnumber := (append_sep_inj (slash_notMem hdigits) (slash_notMem hdecimal)
    (List.cons.inj hsame).2).1
  rw [hnumber, ofDigitChars_decimal]
  exact hg

/-! ## The pass -/

theorem checkValue_error {st : Scan} {key value err : Str}
    (h : checkValue st key value = .error err) : err = key := by
  rw [checkValue] at h
  split at h
  · exact (Except.error.inj h).symm
  · cases hindex : checkIndex st key (parseDigits key (st.glen + 1) (st.glen + 4)) with
    | error err' =>
      rw [hindex] at h
      obtain rfl := Except.error.inj h
      rw [checkIndex] at hindex
      grind
    | ok st₁ =>
      rw [hindex] at h
      have hcontent : checkContent st₁ key value = .error err := h
      rw [checkContent] at hcontent
      grind

/-- An error is the key of the entry. -/
theorem checkEntry_error {st : Scan} {e : Str × Str} {key : Str}
    (h : checkEntry st e = .error key) : key = e.1 := by
  rw [checkEntry] at h
  cases hnew : newGroup st e.1 with
  | error key' =>
    rw [hnew] at h
    obtain rfl := Except.error.inj h
    rw [newGroup] at hnew
    grind
  | ok st₁ =>
    rw [hnew] at h
    have h' : (if isLockKey st₁ e.1 then checkLock st₁ e.1 e.2 else checkValue st₁ e.1 e.2) =
        .error key := h
    by_cases hlock : isLockKey st₁ e.1 = true
    · rw [if_pos hlock, checkLock] at h'
      grind
    · rw [if_neg hlock] at h'
      exact checkValue_error h'

theorem scan_error {st : Scan} {entries : List (Str × Str)} {key : Str}
    (h : scan st entries = .error key) : ∃ e ∈ entries, e.1 = key := by
  induction entries generalizing st with
  | nil => cases h
  | cons e entries ih =>
    cases hstep : checkEntry st e with
    | error key' =>
      rw [scan, List.foldlM_cons, hstep] at h
      obtain rfl := Except.error.inj h
      exact ⟨e, List.mem_cons_self, (checkEntry_error hstep).symm⟩
    | ok st₁ =>
      rw [scan_cons hstep] at h
      obtain ⟨f, hf, hkey⟩ := ih h
      exact ⟨f, List.mem_cons_of_mem e hf, hkey⟩

/-- The pass accepts the databases that the grammar describes, and otherwise names one of
the keys. -/
theorem check_grammar (db : Pancydb) :
    (NumbersFit (keyValues db) → (check db = none ↔ Grammatical (keyValues db))) ∧
      ∀ key, check db = some key → ∃ value, (key, value) ∈ keyValues db := by
  constructor
  · intro hfit
    constructor
    · intro hcheck
      cases hscan : scan {} (keyValues db) with
      | error key =>
        rw [check, hscan] at hcheck
        cases hcheck
      | ok st => exact (parses_of_scan (keyValues_sorted db) hscan).grammatical
    · rintro ⟨groups, hgroups, hentries⟩
      rw [hentries] at hfit
      have hfirst : ∀ g ∈ groups, ∀ r, ({} : Scan).lastGroup ≠ [] →
          ¬ ({} : Scan).lastGroup <+: g.1 ++ r := fun _ _ _ hne => absurd rfl hne
      obtain ⟨st, hscan⟩ := scan_entriesOf hgroups (hfit.opens hgroups) hfirst
      rw [check, hentries, hscan]
  · intro key hcheck
    cases hscan : scan {} (keyValues db) with
    | error key' =>
      rw [check, hscan] at hcheck
      obtain ⟨e, he, hkey⟩ := scan_error hscan
      rw [← Option.some.inj hcheck, ← hkey]
      exact ⟨e.2, he⟩
    | ok st =>
      rw [check, hscan] at hcheck
      cases hcheck

/-- A lock, one of its values, and an older value behind a gap. -/
def overwriting : Pancydb :=
  ((({} : Pancydb).put "g0/v002".toList "c2 b".toList).put "g0/lock".toList
    "c1 a".toList).put "g0/v000".toList "c1 a".toList

theorem check_grammar_overwriting : Grammatical (keyValues overwriting) := by
  have hkeys : (keyValues overwriting).all (fun e => (groupPrefix 0).isPrefixOf e.1) = true := by
    decide +kernel
  have hfit : NumbersFit (keyValues overwriting) := by
    refine numbersFit_of_groups fun e he => ⟨0, by decide, ?_⟩
    exact List.isPrefixOf_iff_prefix.1 (List.all_eq_true.1 hkeys e he)
  exact ((check_grammar overwriting).1 hfit).1 (by decide +kernel)

end LockSeq
end Psets
