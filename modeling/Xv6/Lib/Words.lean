import Mathlib.Tactic

/-!
# Masks of machine words

Clearing the low bits of a word rounds it down to a multiple of a power of two.
-/

namespace BitVec

variable {w : ℕ}

theorem toNat_and_not_mask (x : BitVec w) {n : ℕ} (hn : n ≤ w) :
    (x &&& ~~~BitVec.ofNat w (2 ^ n - 1)).toNat = x.toNat / 2 ^ n * 2 ^ n := by
  apply Nat.eq_of_testBit_eq
  intro k
  rw [Nat.testBit_mul_two_pow, Nat.testBit_div_two_pow, BitVec.testBit_toNat, BitVec.getLsbD_and,
    BitVec.getLsbD_not, BitVec.getLsbD_ofNat, Nat.testBit_two_pow_sub_one]
  rcases Nat.lt_or_ge k n with hlt | hge
  · simp [hlt, Nat.not_le.mpr hlt, Nat.lt_of_lt_of_le hlt hn]
  · rw [Nat.sub_add_cancel hge, BitVec.testBit_toNat]
    by_cases hk : k < w
    · simp [hge, Nat.not_lt.mpr hge, hk]
    · simp [BitVec.getLsbD_of_ge x k (Nat.le_of_not_lt hk)]

end BitVec
