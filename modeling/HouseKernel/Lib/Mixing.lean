import Mathlib.Tactic

/-! Mixing of fixed-width words. The steps that a mixer is made of lose nothing: the sum with a word, the product with a
word that has an inverse, and the sum modulo two of a word and its own upper bits. -/
namespace HouseKernel.Lib

variable {w k : ℕ}

def xorShift (k : ℕ) (x : BitVec w) : BitVec w := x ^^^ x >>> k

/-- Only zero is its own upper bits. -/
theorem eq_zero_of_ushiftRight (hk : 0 < k) {x : BitVec w} (h : x >>> k = x) : x = 0#w := by
  have hdiv : x.toNat / 2 ^ k = x.toNat := by
    rw [← Nat.shiftRight_eq_div_pow, ← BitVec.toNat_ushiftRight, h]
  refine BitVec.eq_of_toNat_eq ?_
  rw [BitVec.toNat_ofNat, Nat.zero_mod]
  by_contra hx
  have hlt := Nat.div_lt_self (Nat.pos_of_ne_zero hx) (Nat.one_lt_two_pow hk.ne')
  omega

theorem xorShift_injective (hk : 0 < k) : Function.Injective (xorShift k : BitVec w → BitVec w) := by
  intro x y h
  unfold xorShift at h
  have hsame : (x ^^^ y) >>> k = x ^^^ y := by
    rw [BitVec.ushiftRight_xor_distrib]
    calc x >>> k ^^^ y >>> k = x ^^^ (x ^^^ x >>> k) ^^^ y >>> k := by rw [← BitVec.xor_assoc x x, BitVec.xor_self, BitVec.zero_xor]
      _ = x ^^^ (y ^^^ y >>> k) ^^^ y >>> k := by rw [h]
      _ = x ^^^ y := by rw [BitVec.xor_assoc, BitVec.xor_assoc, BitVec.xor_self, BitVec.xor_zero]
  exact BitVec.xor_eq_zero_iff.mp (eq_zero_of_ushiftRight hk hsame)

/-- The product with a word that has an inverse. -/
theorem mul_injective_of_inverse {c d : BitVec w} (h : c * d = 1#w) : Function.Injective fun x : BitVec w => x * c := by
  intro x y hxy
  have hd : x * c * d = y * c * d := congrArg (· * d) hxy
  rwa [BitVec.mul_assoc, BitVec.mul_assoc, h, BitVec.mul_one, BitVec.mul_one] at hd

end HouseKernel.Lib
