/-
The arithmetic of the latch word.

With `S` shared and `E` exclusive locks held the word is `16 * S + 8 * E`, plus 2
or 4 for the kind of the front waiter, modulo `2 ^ 32`.  Every mask the mutex uses
reads one of the four low bits, or their disjunction, so each test is a statement
about one of these bits.
-/
import Mathlib.Data.Nat.Bitwise
import Psets.Cotamer.Mutex

namespace Psets
namespace Cotamer
namespace Mutex

/-- The word of a mutex without waiters. -/
def lockWord (S E : Nat) : LatchType := BitVec.ofNat 32 (16 * S + 8 * E)

/-- The next bits of a queue. -/
def nextBits : List Waiter → Nat
  | [] => 0
  | w :: _ => if w.shared then 4 else 2

/-- The word of a mutex at rest. -/
def fullWord (S E : Nat) (waiters : List Waiter) : LatchType :=
  BitVec.ofNat 32 (16 * S + 8 * E + nextBits waiters)

theorem nextBits_cases (ws : List Waiter) :
    ws = [] ∧ nextBits ws = 0 ∨ (∃ w rest, ws = w :: rest ∧ w.shared = false ∧ nextBits ws = 2) ∨
      ∃ w rest, ws = w :: rest ∧ w.shared = true ∧ nextBits ws = 4 := by
  rcases ws with _ | ⟨w, rest⟩
  · exact Or.inl ⟨rfl, rfl⟩
  · right
    cases hw : w.shared with
    | false => exact Or.inl ⟨w, rest, rfl, hw, by simp [nextBits, hw]⟩
    | true => exact Or.inr ⟨w, rest, rfl, hw, by simp [nextBits, hw]⟩

theorem nextBits_lt (ws : List Waiter) : nextBits ws < 8 := by
  rcases nextBits_cases ws with ⟨_, h⟩ | ⟨_, _, _, _, h⟩ | ⟨_, _, _, _, h⟩ <;> omega

/-! ## Counting up and down -/

theorem lockWord_add (S E : Nat) (b : Bool) :
    lockWord S E + lockAmount b = lockWord (S + b.toNat) (E + (!b).toNat) := by
  apply BitVec.eq_of_toNat_eq
  cases b <;>
    simp [lockWord, lockAmount, mfLockShared, mfLockExcl, BitVec.toNat_add] <;> omega

theorem lockWord_sub (S E : Nat) (b : Bool) :
    lockWord (S + b.toNat) (E + (!b).toNat) - lockAmount b = lockWord S E := by
  rw [← lockWord_add]
  exact BitVec.add_sub_cancel _ _

theorem unlatch_lockWord (ws : List Waiter) (S E : Nat) :
    unlatch ws (lockWord S E) = { word := fullWord S E ws, waiters := ws } := by
  rcases ws with _ | ⟨w, rest⟩
  · rfl
  · have hw : lockWord S E + (if w.shared then mfNextShared else mfNextExcl) =
        fullWord S E (w :: rest) := by
      apply BitVec.eq_of_toNat_eq
      cases hs : w.shared <;>
        simp [lockWord, fullWord, nextBits, hs, mfNextShared, mfNextExcl, BitVec.toNat_add]
    rw [unlatch, hw]

theorem toNat_lockWord (S E : Nat) : (lockWord S E).toNat = (16 * S + 8 * E) % 2 ^ 32 := by
  simp [lockWord]

theorem toNat_fullWord (S E : Nat) (ws : List Waiter) :
    (fullWord S E ws).toNat = (16 * S + 8 * E + nextBits ws) % 2 ^ 32 := by
  simp [fullWord]

/-! ## Reading the low bits -/

theorem and_twoPow_eq_zero (x : BitVec 32) {i : Nat} (hi : i < 32) :
    x &&& BitVec.twoPow 32 i = 0 ↔ x.toNat / 2 ^ i % 2 = 0 := by
  have hne : BitVec.twoPow 32 i ≠ 0 := by
    intro h
    have hnat := congrArg BitVec.toNat h
    rw [BitVec.toNat_twoPow, Nat.mod_eq_of_lt (Nat.pow_lt_pow_right (by omega) hi)] at hnat
    exact absurd hnat (Nat.two_pow_pos i).ne'
  rw [BitVec.and_twoPow, BitVec.getLsbD, Nat.testBit_eq_decide_div_mod_eq]
  by_cases hb : x.toNat / 2 ^ i % 2 = 1
  · rw [if_pos (by simpa using hb)]
    exact iff_of_false hne (by omega)
  · rw [if_neg (by simpa using hb)]
    exact iff_of_true rfl (by omega)

theorem and_mfLatch (x : LatchType) : x &&& mfLatch = 0 ↔ x.toNat % 2 = 0 := by
  rw [show mfLatch = BitVec.twoPow 32 0 from rfl, and_twoPow_eq_zero x (by omega), Nat.pow_zero,
    Nat.div_one]

theorem and_mfNextExcl (x : LatchType) : x &&& mfNextExcl = 0 ↔ x.toNat / 2 % 2 = 0 :=
  and_twoPow_eq_zero x (i := 1) (by omega)

theorem and_mfNextShared (x : LatchType) : x &&& mfNextShared = 0 ↔ x.toNat / 4 % 2 = 0 :=
  and_twoPow_eq_zero x (i := 2) (by omega)

theorem and_mfLockExcl (x : LatchType) : x &&& mfLockExcl = 0 ↔ x.toNat / 8 % 2 = 0 :=
  and_twoPow_eq_zero x (i := 3) (by omega)

theorem and_or_eq_zero (x a b : LatchType) :
    x &&& (a ||| b) = 0 ↔ x &&& a = 0 ∧ x &&& b = 0 := by
  rw [BitVec.and_or_distrib_left]
  exact BitVec.or_eq_zero_iff

theorem and_mfmNext (x : LatchType) :
    x &&& mfmNext = 0 ↔ x.toNat / 2 % 2 = 0 ∧ x.toNat / 4 % 2 = 0 := by
  rw [show mfmNext = mfNextExcl ||| mfNextShared from rfl, and_or_eq_zero, and_mfNextExcl,
    and_mfNextShared]

/-- `latch()` clears the next bits. -/
theorem latch_fullWord (S E : Nat) (ws : List Waiter) :
    fullWord S E ws &&& ~~~mfmNext = lockWord S E := by
  have hlow : 16 * S + 8 * E = 2 ^ 3 * (2 * S + E) + 0 := by omega
  have hbit : ∀ b i, b < 8 → (2 ^ 3 * (2 * S + E) + b).testBit i =
      if i < 3 then b.testBit i else (2 * S + E).testBit (i - 3) :=
    fun b i hb => Nat.testBit_two_pow_mul_add _ hb i
  apply BitVec.eq_of_getLsbD_eq
  intro i hi
  rw [BitVec.getLsbD_and, BitVec.getLsbD_not, fullWord, lockWord, BitVec.getLsbD_ofNat,
    BitVec.getLsbD_ofNat, hlow, Nat.add_zero, hbit _ _ (nextBits_lt ws),
    ← Nat.add_zero (2 ^ 3 * (2 * S + E)), hbit _ _ (by omega)]
  by_cases hi3 : i < 3
  · -- bit 0 of the next bits is clear, and the mask has bits 1 and 2
    have hmask : i = 0 ∧ (nextBits ws).testBit i = false ∨ mfmNext.getLsbD i = true := by
      have h6 : ∀ j : Fin 3, j.val = 0 ∨ mfmNext.getLsbD j.val = true := by decide
      rcases h6 ⟨i, hi3⟩ with h0 | h1
      · left
        obtain rfl : i = 0 := h0
        rcases nextBits_cases ws with ⟨_, h⟩ | ⟨_, _, _, _, h⟩ | ⟨_, _, _, _, h⟩ <;> simp [h]
      · exact Or.inr h1
    rw [if_pos hi3, if_pos hi3, Nat.zero_testBit]
    rcases hmask with ⟨_, h⟩ | h <;> simp [h]
  · have hmask : mfmNext.getLsbD i = false := by
      have h6 : ∀ j : Fin 32, 3 ≤ j.val → mfmNext.getLsbD j.val = false := by decide
      exact h6 ⟨i, hi⟩ (Nat.le_of_not_lt hi3)
    rw [if_neg hi3, if_neg hi3, hmask]
    simp [hi]

end Mutex
end Cotamer
end Psets
