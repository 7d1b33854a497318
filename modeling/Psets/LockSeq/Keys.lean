/-
The keys and values of `lockseq_model`, and `parse_digits`.
-/
import Mathlib.Algebra.GroupWithZero.Nat
import Mathlib.Data.List.Basic
import Psets.Pancy.Pancydb

namespace Psets
namespace LockSeq

/-- `std::format("{:03}", n)`. -/
def decimal3 (n : Nat) : Str := List.replicate (3 - (decimal n).length) '0' ++ decimal n

def makeClientKey (cid : Nat) : Str := 'c' :: decimal cid

def clientKeyPrefix (cid : Nat) : Str := makeClientKey cid ++ [' ']

def makeGroupKey (gid : Nat) : Str := 'g' :: decimal gid

/-- The group with its slash, `last_group` in the checker. -/
def groupPrefix (gid : Nat) : Str := makeGroupKey gid ++ ['/']

def makeLockKey (gid : Nat) : Str := groupPrefix gid ++ ['l', 'o', 'c', 'k']

def makeValueKey (gid vid : Nat) : Str := groupPrefix gid ++ 'v' :: decimal3 vid

/-! ## Parsing -/

def unsignedModulus : Nat := 2 ^ 32

/-- `unsigned(-1)`. -/
def invalidDigits : Nat := unsignedModulus - 1

def parseLoop : Nat → Str → Nat
  | v, [] => v
  | v, ch :: rest =>
    if ch < '0' ∨ '9' < ch then invalidDigits
    else
      let vv := (v * 10 + (ch.toNat - '0'.toNat)) % unsignedModulus
      if vv < v then invalidDigits else parseLoop vv rest

/-- Parse a decimal number from `s[start]` up to, but not including, `s[stop]`. -/
def parseDigits (s : Str) (start stop : Nat) : Nat :=
  if stop ≤ start then invalidDigits else parseLoop 0 ((s.drop start).take (stop - start))

theorem le_ofDigitChars (l : Str) (v : Nat) : v ≤ Nat.ofDigitChars 10 l v := by
  induction l generalizing v with
  | nil => rw [Nat.ofDigitChars_nil]
  | cons ch l ih =>
    rw [Nat.ofDigitChars_cons]
    have := ih (10 * v + (ch.toNat - '0'.toNat))
    omega

theorem isDigit_iff {ch : Char} : ch.isDigit = true ↔ ¬ (ch < '0' ∨ '9' < ch) := by
  rw [Char.isDigit, Bool.and_eq_true, decide_eq_true_iff, decide_eq_true_iff, not_or, Char.not_lt,
    Char.not_lt]
  exact Iff.rfl

/-- The loop computes the number that the digits denote as long as it fits. -/
theorem parseLoop_eq {l : Str} (hl : ∀ ch ∈ l, ch.isDigit = true) {v : Nat}
    (hlt : Nat.ofDigitChars 10 l v < unsignedModulus) :
    parseLoop v l = Nat.ofDigitChars 10 l v := by
  induction l generalizing v with
  | nil => rw [parseLoop, Nat.ofDigitChars_nil]
  | cons ch l ih =>
    have hch := isDigit_iff.1 (hl ch List.mem_cons_self)
    rw [Nat.ofDigitChars_cons] at hlt ⊢
    have hle := le_ofDigitChars l (10 * v + (ch.toNat - '0'.toNat))
    have hvv : (v * 10 + (ch.toNat - '0'.toNat)) % unsignedModulus =
        10 * v + (ch.toNat - '0'.toNat) := by
      rw [Nat.mod_eq_of_lt (by omega)]
      omega
    rw [parseLoop, if_neg hch]
    simp only [hvv]
    rw [if_neg (by omega)]
    exact ih (fun c hc => hl c (List.mem_cons_of_mem _ hc)) hlt

/-! ## Numerals -/

theorem isDigit_of_mem_decimal3 {n : Nat} {ch : Char} (h : ch ∈ decimal3 n) :
    ch.isDigit = true := by
  rcases List.mem_append.1 h with h | h
  · rw [List.eq_of_mem_replicate h]
    rfl
  · exact isDigit_of_mem_decimal h

theorem ofDigitChars_decimal3 (n : Nat) : Nat.ofDigitChars 10 (decimal3 n) 0 = n := by
  rw [decimal3, Nat.ofDigitChars_append, Nat.ofDigitChars_replicate_zero, Nat.mul_zero]
  exact ofDigitChars_decimal n

theorem parseLoop_decimal3 {n : Nat} (h : n < unsignedModulus) : parseLoop 0 (decimal3 n) = n := by
  have hv := ofDigitChars_decimal3 n
  rw [parseLoop_eq (fun ch => isDigit_of_mem_decimal3) (by rw [hv]; exact h), hv]

theorem decimal3_injective {m n : Nat} (h : decimal3 m = decimal3 n) : m = n := by
  rw [← ofDigitChars_decimal3 m, ← ofDigitChars_decimal3 n, h]

theorem length_decimal3 {n : Nat} (h : n < 1000) : (decimal3 n).length = 3 := by
  have hle : (decimal n).length ≤ 3 := (Nat.length_toDigits_le_iff (by decide) (by decide)).2 h
  rw [decimal3, List.length_append, List.length_replicate]
  omega

/-- Numerals of three digits are ordered as the numbers are. -/
theorem decimal3_eq {n : Nat} (h : n < 1000) :
    decimal3 n = [(n / 100).digitChar, (n / 10 % 10).digitChar, (n % 10).digitChar] := by
  rw [decimal3, decimal]
  by_cases h1 : n < 10
  · rw [Nat.toDigits_of_lt_base h1, Nat.div_eq_of_lt (by omega : n < 100), Nat.div_eq_of_lt h1,
      Nat.mod_eq_of_lt h1]
    rfl
  · by_cases h2 : n < 100
    · rw [Nat.toDigits_of_base_le (by decide) (by omega), Nat.toDigits_of_lt_base (by omega),
        Nat.div_eq_of_lt h2, Nat.mod_eq_of_lt (by omega : n / 10 < 10)]
      rfl
    · rw [Nat.toDigits_of_base_le (by decide) (by omega),
        Nat.toDigits_of_base_le (by decide) (by omega), Nat.toDigits_of_lt_base (by omega),
        Nat.div_div_eq_div_mul]
      rfl

theorem digitChar_lt {m n : Nat} (hmn : m < n) (hn : n < 10) : m.digitChar < n.digitChar := by
  have key : ∀ n < 10, ∀ m < n, m.digitChar < n.digitChar := by decide
  exact key n hn m hmn

theorem decimal3_lt {m n : Nat} (hmn : m < n) (hn : n < 1000) : decimal3 m < decimal3 n := by
  rw [decimal3_eq (by omega), decimal3_eq hn]
  by_cases h1 : m / 100 < n / 100
  · exact List.cons_lt_cons_iff.2 (Or.inl (digitChar_lt h1 (by omega)))
  · have h1e : m / 100 = n / 100 := by omega
    rw [h1e]
    refine List.cons_lt_cons_iff.2 (Or.inr ⟨rfl, ?_⟩)
    by_cases h2 : m / 10 % 10 < n / 10 % 10
    · exact List.cons_lt_cons_iff.2 (Or.inl (digitChar_lt h2 (by omega)))
    · have h2e : m / 10 % 10 = n / 10 % 10 := by omega
      rw [h2e]
      refine List.cons_lt_cons_iff.2 (Or.inr ⟨rfl, ?_⟩)
      exact List.cons_lt_cons_iff.2 (Or.inl (digitChar_lt (by omega) (by omega)))

/-! ## Keys and values determine their numbers -/

theorem slash_notMem_decimal (n : Nat) : '/' ∉ decimal n := fun h =>
  absurd (isDigit_of_mem_decimal h) (by decide)

theorem space_notMem_decimal (n : Nat) : ' ' ∉ decimal n := fun h =>
  absurd (isDigit_of_mem_decimal h) (by decide)

/-- Lists cut at the first separator. -/
theorem append_sep_inj {x y r r' : Str} {sep : Char} (hx : sep ∉ x) (hy : sep ∉ y)
    (h : x ++ sep :: r = y ++ sep :: r') : x = y ∧ r = r' := by
  induction x generalizing y with
  | nil =>
    cases y with
    | nil => exact ⟨rfl, (List.cons.inj h).2⟩
    | cons b y => exact absurd ((List.cons.inj h).1 ▸ List.mem_cons_self) hy
  | cons a x ih =>
    cases y with
    | nil => exact absurd ((List.cons.inj h).1 ▸ List.mem_cons_self) hx
    | cons b y =>
      obtain ⟨hab, h⟩ := List.cons.inj h
      obtain ⟨hxy, hr⟩ := ih (fun hm => hx (List.mem_cons_of_mem _ hm))
        (fun hm => hy (List.mem_cons_of_mem _ hm)) h
      exact ⟨by rw [hab, hxy], hr⟩

/-- What follows a numeral does not obscure it. -/
theorem decimal_append_inj {m n : Nat} {sep : Char} {r r' : Str} (hm : sep ∉ decimal m)
    (hn : sep ∉ decimal n) (h : decimal m ++ sep :: r = decimal n ++ sep :: r') :
    m = n ∧ r = r' := by
  obtain ⟨hd, hr⟩ := append_sep_inj hm hn h
  exact ⟨decimal_injective hd, hr⟩

theorem groupPrefix_append_inj {g g' : Nat} {r r' : Str}
    (h : groupPrefix g ++ r = groupPrefix g' ++ r') : g = g' ∧ r = r' := by
  simp only [groupPrefix, makeGroupKey, List.cons_append, List.append_assoc, List.nil_append,
    List.cons.injEq, true_and] at h
  exact decimal_append_inj (slash_notMem_decimal g) (slash_notMem_decimal g') h

theorem makeLockKey_inj {g g' : Nat} (h : makeLockKey g = makeLockKey g') : g = g' :=
  (groupPrefix_append_inj h).1

theorem makeLockKey_ne_makeValueKey (g g' v : Nat) : makeLockKey g ≠ makeValueKey g' v := fun h =>
  absurd (List.cons.inj (groupPrefix_append_inj h).2).1 (by decide)

theorem makeValueKey_inj {g g' v v' : Nat} (h : makeValueKey g v = makeValueKey g' v') :
    g = g' ∧ v = v' := by
  obtain ⟨hg, hr⟩ := groupPrefix_append_inj h
  exact ⟨hg, decimal3_injective (List.cons.inj hr).2⟩

/-- A value names one client. -/
theorem clientKeyPrefix_inj {i j : Nat} {value : Str} (hi : clientKeyPrefix i <+: value)
    (hj : clientKeyPrefix j <+: value) : i = j := by
  obtain ⟨r, hr⟩ := hi
  obtain ⟨r', hr'⟩ := hj
  have h := hr.trans hr'.symm
  simp only [clientKeyPrefix, makeClientKey, List.cons_append, List.append_assoc, List.nil_append,
    List.cons.injEq, true_and] at h
  exact (decimal_append_inj (space_notMem_decimal i) (space_notMem_decimal j) h).1

end LockSeq
end Psets
