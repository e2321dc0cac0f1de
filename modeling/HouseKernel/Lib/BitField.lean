import Mathlib.Tactic

/-! Fields of adjacent bits in a word, as numbers. -/
namespace HouseKernel.Lib

variable {w : ℕ}

/-- The `n` bits from `lo` on. -/
def fieldMask (w lo n : ℕ) : BitVec w := BitVec.ofNat w ((2^n - 1) * 2^lo)

lemma testBit_field {lo n i : ℕ} : ((2^n - 1) * 2^lo).testBit i = decide (lo ≤ i ∧ i < lo + n) := by
  rw [Nat.testBit_mul_two_pow, Nat.testBit_two_pow_sub_one]
  by_cases h : lo ≤ i
  · simp only [h, decide_true, Bool.true_and, true_and, decide_eq_decide]
    omega
  · simp [h]

/-- The value of a field, in its place. -/
theorem toNat_and_fieldMask {lo n : ℕ} (h : lo + n ≤ w) (d : BitVec w) :
    (d &&& fieldMask w lo n).toNat = d.toNat / 2^lo % 2^n * 2^lo := by
  have hmask : (2^n - 1) * 2^lo < 2^w := by
    calc (2^n - 1) * 2^lo < 2^n * 2^lo := Nat.mul_lt_mul_of_pos_right (Nat.sub_lt (Nat.two_pow_pos n) one_pos) (Nat.two_pow_pos lo)
      _ = 2^(lo + n) := by rw [← pow_add, Nat.add_comm]
      _ ≤ 2^w := Nat.pow_le_pow_right (by norm_num) h
  rw [BitVec.toNat_and, fieldMask, BitVec.toNat_ofNat, Nat.mod_eq_of_lt hmask]
  refine Nat.eq_of_testBit_eq fun i => ?_
  rw [Nat.testBit_and, testBit_field, Nat.testBit_mul_two_pow, Nat.testBit_mod_two_pow, Nat.testBit_div_two_pow]
  by_cases hlo : lo ≤ i
  · have hsub : i - lo + lo = i := Nat.sub_add_cancel hlo
    have hlt : i - lo < n ↔ i < lo + n := by omega
    simp only [hlo, hsub, hlt, decide_true, Bool.true_and, true_and]
    exact Bool.and_comm _ _
  · simp [hlo]

/-- A field of a word that is put together from two masked words. -/
theorem and_or_masks (d x K C A : BitVec w) : ((d &&& K) ||| (x &&& C)) &&& A = (d &&& (K &&& A)) ||| (x &&& (C &&& A)) := by
  rw [BitVec.and_comm, BitVec.and_or_distrib_left, BitVec.and_comm A, BitVec.and_comm A, BitVec.and_assoc, BitVec.and_assoc]

end HouseKernel.Lib
