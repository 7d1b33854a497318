/-
Strings of bytes and the numerals of `std::format`.
-/
import Mathlib.Data.List.Basic

namespace Psets

/-- The bytes of a `std::string`. -/
abbrev Str := List Char

/-- `std::format("{}", n)`. -/
def decimal (n : Nat) : Str := Nat.toDigits 10 n

theorem isDigit_of_mem_decimal {n : Nat} {ch : Char} (h : ch ∈ decimal n) : ch.isDigit = true :=
  Nat.isDigit_of_mem_toDigits (by decide) (by decide) h

theorem decimal_ne_nil (n : Nat) : decimal n ≠ [] := Nat.toDigits_ne_nil

theorem ofDigitChars_decimal (n : Nat) : Nat.ofDigitChars 10 (decimal n) 0 = n :=
  Nat.ofDigitChars_ten_toDigits

theorem decimal_injective {m n : Nat} (h : decimal m = decimal n) : m = n := by
  rw [← ofDigitChars_decimal m, ← ofDigitChars_decimal n, h]

/-! ## Decimal digits read to another base -/

theorem ofDigitChars_mono {b c : Nat} (hbc : b ≤ c) (l : Str) {v w : Nat} (hvw : v ≤ w) :
    Nat.ofDigitChars b l v ≤ Nat.ofDigitChars c l w := by
  induction l generalizing v w with
  | nil =>
    rw [Nat.ofDigitChars_nil, Nat.ofDigitChars_nil]
    exact hvw
  | cons ch l ih =>
    rw [Nat.ofDigitChars_cons, Nat.ofDigitChars_cons]
    exact ih (Nat.add_le_add_right (Nat.mul_le_mul hbc hvw) _)

theorem ofDigitChars_decimal_of_lt (b : Nat) {n : Nat} (hn : n < 10) :
    Nat.ofDigitChars b (decimal n) 0 = n := by
  rw [decimal, Nat.toDigits_of_lt_base hn, Nat.ofDigitChars_cons_digitChar_of_lt_ten hn,
    Nat.ofDigitChars_nil, Nat.mul_zero, Nat.zero_add]

/-- From two digits on, a larger base gives a larger number. -/
theorem lt_ofDigitChars_decimal {b n : Nat} (hb : 10 < b) (hn : 10 ≤ n) :
    n < Nat.ofDigitChars b (decimal n) 0 := by
  have hmod : n % 10 < 10 := Nat.mod_lt n (by decide)
  have hle : n / 10 ≤ Nat.ofDigitChars b (decimal (n / 10)) 0 := by
    conv_lhs => rw [← ofDigitChars_decimal (n / 10)]
    exact ofDigitChars_mono (Nat.le_of_lt hb) _ (Nat.le_refl 0)
  have hpos : 1 ≤ n / 10 := by omega
  rw [decimal, Nat.toDigits_of_base_le (by decide) hn, Nat.ofDigitChars_append,
    Nat.ofDigitChars_cons_digitChar_of_lt_ten hmod, Nat.ofDigitChars_nil]
  calc n = 10 * (n / 10) + n % 10 := (Nat.div_add_mod n 10).symm
    _ < b * (n / 10) + n % 10 :=
      Nat.add_lt_add_right (Nat.mul_lt_mul_of_pos_right hb hpos) _
    _ ≤ b * Nat.ofDigitChars b (decimal (n / 10)) 0 + n % 10 :=
      Nat.add_le_add_right (Nat.mul_le_mul_left b hle) _

end Psets
