/-
Which numerals `parse_digits` rejects.

The loop keeps the value of the digits read so far modulo `2 ^ 32` and gives up
when that remainder falls.  A digit that carries the value past `2 ^ 32` can
leave a remainder at least as large as the one before: `500000000` followed by
`0` leaves `705032704`.  `parseLoop_mod` says what the loop returns for every
text, and `Undetected` names the numerals that slip through.
-/
import Psets.LockSeq.Keys

namespace Psets
namespace LockSeq

/-- The range `s[start..stop)`. -/
def digitsRange (s : Str) (start stop : Nat) : Str := (s.drop start).take (stop - start)

/-- The number that digits read after the value `p` denote. -/
def digitsNumber (p : Nat) (l : Str) : Nat := Nat.ofDigitChars 10 l p

/-- What the comment above `parse_digits` promises for a range. -/
def digitsValue (l : Str) : Nat :=
  if l ≠ [] ∧ l.all Char.isDigit = true ∧ digitsNumber 0 l < invalidDigits then
    digitsNumber 0 l
  else invalidDigits

/-- No digit lowers the remainder of the number read so far. -/
def NeverFalls (p : Nat) (l : Str) : Prop :=
  ∀ i < l.length, digitsNumber p (l.take i) % unsignedModulus ≤
    digitsNumber p (l.take (i + 1)) % unsignedModulus

instance (p : Nat) (l : Str) : Decidable (NeverFalls p l) :=
  inferInstanceAs (Decidable (∀ i < l.length, _))

/-- A numeral too large for 32 bits that is taken for a number: its remainder
never falls, and is not `unsigned(-1)` itself. -/
structure Undetected (l : Str) : Prop where
  digits : l.all Char.isDigit = true
  large : unsignedModulus ≤ digitsNumber 0 l
  neverFalls : NeverFalls 0 l
  valid : digitsNumber 0 l % unsignedModulus ≠ invalidDigits

/-! ## The loop on remainders -/

theorem digitsNumber_nil (p : Nat) : digitsNumber p [] = p := Nat.ofDigitChars_nil

theorem digitsNumber_cons (p : Nat) (ch : Char) (l : Str) :
    digitsNumber p (ch :: l) = digitsNumber (10 * p + (ch.toNat - '0'.toNat)) l :=
  Nat.ofDigitChars_cons

/-- The wrapped multiply-and-add is the remainder of the real one. -/
theorem wrapped_step (p d : Nat) :
    (p % unsignedModulus * 10 + d) % unsignedModulus = (10 * p + d) % unsignedModulus := by
  rw [Nat.add_mod, Nat.mod_mul_mod, ← Nat.add_mod, Nat.mul_comm p 10]

theorem neverFalls_nil (p : Nat) : NeverFalls p [] := fun i hi => absurd hi (Nat.not_lt_zero i)

theorem neverFalls_cons {p : Nat} {ch : Char} {l : Str} :
    NeverFalls p (ch :: l) ↔
      p % unsignedModulus ≤ (10 * p + (ch.toNat - '0'.toNat)) % unsignedModulus ∧
        NeverFalls (10 * p + (ch.toNat - '0'.toNat)) l := by
  constructor
  · intro h
    constructor
    · have h0 := h 0 (Nat.zero_lt_succ l.length)
      rw [List.take_zero, digitsNumber_nil, List.take_succ_cons, digitsNumber_cons,
        List.take_zero, digitsNumber_nil] at h0
      exact h0
    · intro i hi
      have hs := h (i + 1) (Nat.succ_lt_succ hi)
      rw [List.take_succ_cons, digitsNumber_cons, List.take_succ_cons, digitsNumber_cons] at hs
      exact hs
  · intro h i hi
    cases i with
    | zero =>
      rw [List.take_zero, digitsNumber_nil, List.take_succ_cons, digitsNumber_cons,
        List.take_zero, digitsNumber_nil]
      exact h.1
    | succ i =>
      rw [List.take_succ_cons, digitsNumber_cons, List.take_succ_cons, digitsNumber_cons]
      exact h.2 i (Nat.lt_of_succ_lt_succ hi)

/-- The loop, started on the remainder of `p`, for every text. -/
theorem parseLoop_mod (l : Str) (p : Nat) :
    parseLoop (p % unsignedModulus) l =
      if l.all Char.isDigit = true ∧ NeverFalls p l then digitsNumber p l % unsignedModulus
      else invalidDigits := by
  induction l generalizing p with
  | nil =>
    rw [parseLoop, if_pos ⟨List.all_nil, neverFalls_nil p⟩, digitsNumber_nil]
  | cons ch l ih =>
    rw [parseLoop]
    by_cases hch : ch < '0' ∨ '9' < ch
    · rw [if_pos hch, if_neg]
      intro h
      exact isDigit_iff.1 (List.all_eq_true.1 h.1 ch List.mem_cons_self) hch
    · rw [if_neg hch, wrapped_step]
      by_cases hfall : (10 * p + (ch.toNat - '0'.toNat)) % unsignedModulus < p % unsignedModulus
      · -- the test of the source fires
        rw [if_pos hfall, if_neg]
        intro h
        have := (neverFalls_cons.1 h.2).1
        omega
      · have hiff : ((ch :: l).all Char.isDigit = true ∧ NeverFalls p (ch :: l)) ↔
            l.all Char.isDigit = true ∧ NeverFalls (10 * p + (ch.toNat - '0'.toNat)) l := by
          rw [List.all_cons, Bool.and_eq_true, neverFalls_cons]
          constructor
          · intro h
            exact ⟨h.1.2, h.2.2⟩
          · intro h
            exact ⟨⟨isDigit_iff.2 hch, h.1⟩, by omega, h.2⟩
        rw [if_neg hfall, ih, digitsNumber_cons]
        simp only [hiff]

/-! ## The function -/

theorem parseDigits_eq (s : Str) (start stop : Nat) :
    parseDigits s start stop =
      if stop ≤ start then invalidDigits else parseLoop 0 (digitsRange s start stop) := rfl

theorem digitsRange_of_le {s : Str} {start stop : Nat} (h : stop ≤ start) :
    digitsRange s start stop = [] := by
  rw [digitsRange, Nat.sub_eq_zero_of_le h, List.take_zero]

/-- A numeral that fits is parsed, one that does not is reported unless it is
undetected. -/
theorem parseLoop_zero {l : Str} (hl : l ≠ []) :
    parseLoop 0 l = digitsValue l ↔ ¬ Undetected l := by
  have hmod := parseLoop_mod l 0
  rw [Nat.zero_mod] at hmod
  have hinvalid : invalidDigits + 1 = unsignedModulus := rfl
  by_cases hdigits : l.all Char.isDigit = true
  · by_cases hlt : digitsNumber 0 l < unsignedModulus
    · have hnot : ¬ Undetected l := fun h => absurd h.large (Nat.not_le.2 hlt)
      have hparse : parseLoop 0 l = digitsNumber 0 l :=
        parseLoop_eq (List.all_eq_true.1 hdigits) hlt
      refine iff_of_true ?_ hnot
      rw [hparse, digitsValue]
      by_cases hv : digitsNumber 0 l < invalidDigits
      · rw [if_pos ⟨hl, hdigits, hv⟩]
      · rw [if_neg (fun h => hv h.2.2)]
        omega
    · have hvalue : digitsValue l = invalidDigits := by
        rw [digitsValue, if_neg]
        intro h
        have := h.2.2
        omega
      rw [hmod, hvalue]
      by_cases hfalls : NeverFalls 0 l
      · rw [if_pos ⟨hdigits, hfalls⟩]
        constructor
        · intro h hu
          exact hu.valid h
        · intro h
          by_contra hne
          exact h ⟨hdigits, Nat.not_lt.1 hlt, hfalls, hne⟩
      · rw [if_neg (fun h => hfalls h.2)]
        exact iff_of_true rfl (fun h => hfalls h.neverFalls)
  · rw [hmod, if_neg (fun h => hdigits h.1), digitsValue, if_neg (fun h => hdigits h.2.1)]
    exact iff_of_true rfl (fun h => hdigits h.digits)

/-- `parse_digits` returns what it promises exactly on the ranges that are not
undetected. -/
theorem parseDigits_eq_digitsValue_iff (s : Str) (start stop : Nat) (hstop : stop ≤ s.length) :
    parseDigits s start stop = digitsValue (digitsRange s start stop) ↔
      ¬ Undetected (digitsRange s start stop) := by
  rw [parseDigits_eq]
  by_cases hle : stop ≤ start
  · rw [if_pos hle, digitsRange_of_le hle]
    refine iff_of_true ?_ (fun h => absurd h.large (by decide))
    rw [digitsValue, if_neg (fun h => h.1 rfl)]
  · rw [if_neg hle]
    refine parseLoop_zero fun h => ?_
    have hlen := congrArg List.length h
    rw [digitsRange, List.length_take, List.length_drop, List.length_nil] at hlen
    omega

/-- In `g123/lock` the group number is `123`. -/
theorem parseDigits_group :
    parseDigits "g123/lock".toList 1 4 = digitsValue "123".toList :=
  (parseDigits_eq_digitsValue_iff "g123/lock".toList 1 4 (by decide)).2
    (fun h => absurd h.large (by decide))

/-- Five thousand million is taken for `705032704`. -/
theorem parseDigits_fiveThousandMillion :
    ¬ ∀ (s : Str) (start stop : Nat), stop ≤ s.length →
      parseDigits s start stop = digitsValue (digitsRange s start stop) := by
  intro h
  have hbad := h ('5' :: List.replicate 9 '0') 0 10 (by decide)
  exact absurd hbad (by decide +kernel)

end LockSeq
end Psets
