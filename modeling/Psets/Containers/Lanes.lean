/-
Small numbers packed into machine words.

A list of words of `W` bits holds `p` lanes of `b` bits in each word.  A lane is changed by
an exclusive or with the word it is in, which leaves every other lane alone.  A word that
the list does not have yet reads as zero, so the list can grow without a lane changing.
-/
import Mathlib.Data.List.Basic
import Mathlib.Logic.Function.Basic
import Mathlib.Tactic.Ring

namespace Psets
namespace Containers

variable {W b p : Nat}

/-- Lane number `i`. -/
def lane (b p : Nat) (ws : List (BitVec W)) (i : Nat) : BitVec b :=
  (ws.getD (i / p) 0 >>> (i % p * b)).setWidth b

/-- Flip the bits of `x` in lane number `i`. -/
def flipLane (b p : Nat) (ws : List (BitVec W)) (i : Nat) (x : BitVec b) : List (BitVec W) :=
  ws.modify (i / p) fun w => w ^^^ (x.setWidth W <<< (i % p * b))

theorem lane_append_replicate (ws : List (BitVec W)) (n i : Nat) :
    lane b p (ws ++ List.replicate n 0) i = lane b p ws i := by
  have hword : (ws ++ List.replicate n 0).getD (i / p) 0 = ws.getD (i / p) 0 := by
    simp only [List.getD_eq_getElem?_getD]
    rcases Nat.lt_or_ge (i / p) ws.length with hlt | hge
    · rw [List.getElem?_append_left hlt]
    · rw [List.getElem?_append_right hge, List.getElem?_eq_none hge, List.getElem?_replicate]
      split <;> rfl
  rw [lane, lane, hword]

/-- The bits of a lane are those of its word. -/
theorem getLsbD_lane {ws : List (BitVec W)} {i k : Nat} (hk : k < b) :
    (lane b p ws i).getLsbD k = (ws.getD (i / p) 0).getLsbD (i % p * b + k) := by
  rw [lane, BitVec.getLsbD_setWidth, BitVec.getLsbD_ushiftRight, decide_eq_true hk, Bool.true_and]

/-- What is flipped in a word stays within the lane. -/
theorem getLsbD_shifted {x : BitVec b} {m n k : Nat} (hW : p * b ≤ W) (hm : m < p) (hk : k < b) :
    (x.setWidth W <<< (n * b)).getLsbD (m * b + k) = (decide (m = n) && x.getLsbD k) := by
  have hbit : m * b + k < W :=
    calc m * b + k < m * b + b := Nat.add_lt_add_left hk _
      _ = (m + 1) * b := by ring
      _ ≤ p * b := Nat.mul_le_mul_right b hm
      _ ≤ W := hW
  rw [BitVec.getLsbD_shiftLeft, BitVec.getLsbD_setWidth, decide_eq_true hbit, Bool.true_and]
  rcases Nat.lt_trichotomy m n with hlt | rfl | hgt
  · have hbelow : m * b + k < n * b :=
      calc m * b + k < m * b + b := Nat.add_lt_add_left hk _
        _ = (m + 1) * b := by ring
        _ ≤ n * b := Nat.mul_le_mul_right b hlt
    rw [decide_eq_true hbelow, decide_eq_false (Nat.ne_of_lt hlt)]
    rfl
  · have hkW : k < W := Nat.lt_of_le_of_lt (Nat.le_add_left _ _) hbit
    rw [decide_eq_false (Nat.not_lt.2 (Nat.le_add_right _ _)), Nat.add_sub_cancel_left,
      decide_eq_true hkW, decide_eq_true rfl]
    rfl
  · have habove : b ≤ m * b + k - n * b := by
      have hmul : (n + 1) * b ≤ m * b := Nat.mul_le_mul_right b hgt
      rw [Nat.succ_mul] at hmul
      omega
    rw [BitVec.getLsbD_of_ge x _ habove, decide_eq_false (Nat.ne_of_gt hgt), Bool.and_false,
      Bool.and_false]
    rfl

theorem getD_flipLane {ws : List (BitVec W)} {i j : Nat} {x : BitVec b} (hi : i / p < ws.length) :
    (flipLane b p ws i x).getD j 0 =
      if j = i / p then ws.getD j 0 ^^^ (x.setWidth W <<< (i % p * b)) else ws.getD j 0 := by
  simp only [flipLane, List.getD_eq_getElem?_getD, List.getElem?_modify]
  by_cases h : i / p = j
  · subst h
    simp [List.getElem?_eq_getElem hi]
  · have hne : j ≠ i / p := fun heq => h heq.symm
    simp [h, hne]

theorem lane_flipLane (hp : 0 < p) (hW : p * b ≤ W) {ws : List (BitVec W)} {i : Nat}
    (hi : i / p < ws.length) (x : BitVec b) (j : Nat) :
    lane b p (flipLane b p ws i x) j = if j = i then lane b p ws j ^^^ x else lane b p ws j := by
  apply BitVec.eq_of_getLsbD_eq
  intro k hk
  have hne : j / p = i / p → j % p = i % p → j = i := fun hdiv hmod => by
    rw [← Nat.div_add_mod j p, ← Nat.div_add_mod i p, hdiv, hmod]
  rw [getLsbD_lane hk, getD_flipLane hi]
  by_cases hdiv : j / p = i / p
  · rw [if_pos hdiv, BitVec.getLsbD_xor, getLsbD_shifted hW (Nat.mod_lt _ hp) hk,
      ← getLsbD_lane hk]
    by_cases hmod : j % p = i % p
    · rw [if_pos (hne hdiv hmod), BitVec.getLsbD_xor, decide_eq_true hmod, Bool.true_and]
    · rw [if_neg fun h => hmod (congrArg (· % p) h), decide_eq_false hmod, Bool.false_and,
        Bool.xor_false]
  · rw [if_neg hdiv, if_neg fun h => hdiv (congrArg (· / p) h), getLsbD_lane hk]

/-- Writing a lane: what is flipped is the difference. -/
theorem lane_write (hp : 0 < p) (hW : p * b ≤ W) {ws : List (BitVec W)} {i : Nat}
    (hi : i / p < ws.length) (x : BitVec b) :
    lane b p (flipLane b p ws i (lane b p ws i ^^^ x)) = Function.update (lane b p ws) i x := by
  funext j
  rw [lane_flipLane hp hW hi, Function.update_apply]
  split
  · subst j
    rw [← BitVec.xor_assoc, BitVec.xor_self, BitVec.zero_xor]
  · rfl

end Containers
end Psets
