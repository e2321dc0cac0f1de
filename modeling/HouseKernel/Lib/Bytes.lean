import Mathlib.Tactic

/-! The little-endian byte view of a memory of 64-bit words. A word is addressed by its first
byte, a multiple of eight. -/
namespace HouseKernel.Lib

/-- Byte `k` of a word. -/
def getByte (w : BitVec 64) (k : ℕ) : BitVec 8 := w.extractLsb' (8*k) 8

def putByte (w : BitVec 64) (k : ℕ) (b : BitVec 8) : BitVec 64 :=
  (w &&& ~~~(0xFF#64 <<< (8*k))) ||| (b.setWidth 64 <<< (8*k))

lemma getLsbD_ones (j : ℕ) : (0xFF#64).getLsbD j = decide (j < 8) := by
  by_cases h : j < 8
  · have hall : ∀ j < 8, (0xFF#64).getLsbD j = true := by decide
    simp [h, hall j h]
  · by_cases h64 : j < 64
    · have hall : ∀ j < 64, 8 ≤ j → (0xFF#64).getLsbD j = false := by decide
      simp [h, hall j h64 (by omega)]
    · rw [BitVec.getLsbD_of_ge _ j (Nat.le_of_not_lt h64)]
      simp [h]

theorem getByte_putByte (w : BitVec 64) {k : ℕ} (hk : k < 8) (b : BitVec 8) : getByte (putByte w k b) k = b := by
  apply BitVec.eq_of_getLsbD_eq
  intro i hi
  simp only [getByte, putByte, BitVec.getLsbD_extractLsb', BitVec.getLsbD_or, BitVec.getLsbD_and, BitVec.getLsbD_not,
    BitVec.getLsbD_shiftLeft, BitVec.getLsbD_setWidth, getLsbD_ones, Nat.add_sub_cancel_left]
  simp [show 8*k + i < 64 by omega, show i < 64 by omega, hi]

theorem getByte_putByte_ne (w : BitVec 64) {j k : ℕ} (hj : j < 8) (hne : j ≠ k) (b : BitVec 8) :
    getByte (putByte w k b) j = getByte w j := by
  apply BitVec.eq_of_getLsbD_eq
  intro i hi
  simp only [getByte, putByte, BitVec.getLsbD_extractLsb', BitVec.getLsbD_or, BitVec.getLsbD_and, BitVec.getLsbD_not,
    BitVec.getLsbD_shiftLeft, BitVec.getLsbD_setWidth, getLsbD_ones]
  obtain hlt | hgt := Nat.lt_or_gt_of_ne hne
  · simp [show 8*j + i < 64 by omega, show 8*j + i < 8*k by omega]
  · have hhigh : b.getLsbD (8*j + i - 8*k) = false := BitVec.getLsbD_of_ge _ _ (by omega)
    simp [show 8*j + i < 64 by omega, show ¬ 8*j + i < 8*k by omega, show ¬ 8*j + i - 8*k < 8 by omega, hhigh]

variable (mem : ℕ → BitVec 64)

def loadByte (a : ℕ) : BitVec 8 := getByte (mem (a - a % 8)) (a % 8)

def storeByte (a : ℕ) (b : BitVec 8) : ℕ → BitVec 64 :=
  Function.update mem (a - a % 8) (putByte (mem (a - a % 8)) (a % 8) b)

theorem loadByte_storeByte (a : ℕ) (b : BitVec 8) (a' : ℕ) :
    loadByte (storeByte mem a b) a' = if a' = a then b else loadByte mem a' := by
  by_cases hword : a' - a' % 8 = a - a % 8
  · rw [loadByte, storeByte, hword, Function.update_self]
    split_ifs with h
    · subst h
      exact getByte_putByte _ (Nat.mod_lt _ (by norm_num)) b
    · rw [getByte_putByte_ne _ (Nat.mod_lt _ (by norm_num)) (by omega), loadByte, hword]
  · rw [loadByte, storeByte, Function.update_of_ne hword, if_neg (by rintro rfl; exact hword rfl)]
    rfl

end HouseKernel.Lib
