import Mathlib.Tactic

/-! Memories of bytes, and the little-endian words at their addresses. A word is determined by its bytes, and
a store changes no word that it does not overlap. A word that has its first byte only once does not overlap
itself: two of its occurrences are apart. -/
namespace HouseKernel.Lib

abbrev ByteMem := ℕ → BitVec 8

/-- Byte `k` of a number. -/
def byteOf (v k : ℕ) : BitVec 8 := BitVec.ofNat 8 (v / 256 ^ k)

def readLE (mem : ByteMem) : ℕ → ℕ → ℕ
  | 0, _ => 0
  | n + 1, a => (mem a).toNat + 256 * readLE mem n (a + 1)

def readWord (mem : ByteMem) (a : ℕ) : ℕ := readLE mem 8 a

/-- Store `n` bytes at `a`. -/
def fill (mem : ByteMem) (a n : ℕ) (f : ℕ → BitVec 8) : ByteMem := fun x =>
  if a ≤ x ∧ x < a + n then f (x - a) else mem x

def writeWord (mem : ByteMem) (a v : ℕ) : ByteMem := fill mem a 8 (byteOf v)

def copyBytes (mem : ByteMem) (src dst n : ℕ) : ByteMem := fill mem dst n fun k => mem (src + k)

/-- Store numbers of `n` bytes each, one behind the other. -/
def fillAll (mem : ByteMem) (n : ℕ) : ℕ → List ℕ → ByteMem
  | _, [] => mem
  | a, v :: vs => fillAll (fill mem a n (byteOf v)) n (a + n) vs

/-- The memory at `p`, as it is seen by who has it mapped at `va`. -/
def viewAt (p va : ℕ) (mem : ByteMem) : ByteMem := fun x => mem (p + (x - va))

/-- The addresses whose words overlap the `n` bytes at `a`. -/
def overlapping (a n : ℕ) : List ℕ := List.range' (a - 7) (n + 7)

variable {mem mem' : ByteMem} {a n q v w x : ℕ} {f : ℕ → BitVec 8}

theorem mem_overlapping (ha : a < q + 8) (hq : q < a + n) : q ∈ overlapping a n := by
  rw [overlapping, List.mem_range'_1]
  omega

theorem fill_of_mem (h : a ≤ x) (h' : x < a + n) : fill mem a n f x = f (x - a) := if_pos ⟨h, h'⟩

theorem fill_of_notMem (h : x < a ∨ a + n ≤ x) : fill mem a n f x = mem x := if_neg (by omega)

theorem byteOf_zero (v : ℕ) : byteOf v 0 = BitVec.ofNat 8 v := by simp [byteOf]

theorem byteOf_succ (v k : ℕ) : byteOf v (k + 1) = byteOf (v / 256) k := by
  rw [byteOf, byteOf, Nat.div_div_eq_div_mul, Nat.pow_succ']

theorem byteOf_eq_zero {k : ℕ} (h : v < 256 ^ k) : byteOf v k = 0 := by
  rw [byteOf, Nat.div_eq_of_lt h]
  rfl

@[simp] theorem readLE_zero : readLE mem 0 a = 0 := rfl

theorem readLE_succ : readLE mem (n + 1) a = (mem a).toNat + 256 * readLE mem n (a + 1) := rfl

theorem readLE_congr {a' : ℕ} (h : ∀ k < n, mem' (a' + k) = mem (a + k)) : readLE mem' n a' = readLE mem n a := by
  induction n generalizing a a' with
  | zero => rfl
  | succ n ih =>
    have hrest : readLE mem' n (a' + 1) = readLE mem n (a + 1) := by
      refine ih fun k hk => ?_
      rw [Nat.add_assoc, Nat.add_assoc, Nat.add_comm 1 k]
      exact h (k + 1) (Nat.succ_lt_succ hk)
    have hfirst : mem' a' = mem a := h 0 (Nat.succ_pos n)
    rw [readLE_succ, readLE_succ, hrest, hfirst]

/-- The bytes of the number that is read are the bytes of the memory. -/
theorem byteOf_readLE {k : ℕ} (hk : k < n) : byteOf (readLE mem n a) k = mem (a + k) := by
  induction n generalizing a k with
  | zero => cases hk
  | succ n ih =>
    have hbyte : (mem a).toNat < 256 := (mem a).isLt
    cases k with
    | zero =>
      apply BitVec.eq_of_toNat_eq
      rw [byteOf_zero, readLE_succ, BitVec.toNat_ofNat]
      exact (Nat.add_mul_mod_self_left _ _ _).trans (Nat.mod_eq_of_lt hbyte)
    | succ k =>
      have hdiv : readLE mem (n + 1) a / 256 = readLE mem n (a + 1) := by
        rw [readLE_succ, Nat.add_mul_div_left _ _ (by norm_num), Nat.div_eq_of_lt hbyte, Nat.zero_add]
      rw [byteOf_succ, hdiv, ih (Nat.lt_of_succ_lt_succ hk), Nat.add_assoc, Nat.add_comm 1 k]

theorem readLE_of_bytes (h : ∀ k < n, mem (a + k) = byteOf v k) : readLE mem n a = v % 256 ^ n := by
  induction n generalizing a v with
  | zero => simp [Nat.mod_one]
  | succ n ih =>
    have hrest : readLE mem n (a + 1) = v / 256 % 256 ^ n := by
      refine ih fun k hk => ?_
      rw [← byteOf_succ, Nat.add_assoc, Nat.add_comm 1 k]
      exact h (k + 1) (Nat.succ_lt_succ hk)
    have hfirst : (mem a).toNat = v % 256 := by
      have hbyte := h 0 (Nat.succ_pos n)
      rw [Nat.add_zero, byteOf_zero] at hbyte
      rw [hbyte]
      rfl
    rw [readLE_succ, hrest, hfirst, Nat.pow_succ', Nat.mod_mul]

theorem readWord_bytes (h : readWord mem a = w) {k : ℕ} (hk : k < 8) : mem (a + k) = byteOf w k := by
  rw [← h]
  exact (byteOf_readLE hk).symm

theorem readWord_fill (h : q + 8 ≤ a ∨ a + n ≤ q) : readWord (fill mem a n f) q = readWord mem q := by
  refine readLE_congr fun k hk => fill_of_notMem ?_
  omega

theorem readWord_writeWord_ne (h : q + 8 ≤ a ∨ a + 8 ≤ q) : readWord (writeWord mem a v) q = readWord mem q :=
  readWord_fill h

theorem readWord_writeWord (hv : v < 2 ^ 64) : readWord (writeWord mem a v) a = v := by
  have hbytes : ∀ k < 8, writeWord mem a v (a + k) = byteOf v k := by
    intro k hk
    rw [writeWord, fill_of_mem (by omega) (by omega), Nat.add_sub_cancel_left]
  exact (readLE_of_bytes hbytes).trans (Nat.mod_eq_of_lt hv)

theorem readLE_viewAt {p va o : ℕ} : readLE (viewAt p va mem) n (va + o) = readLE mem n (p + o) := by
  refine readLE_congr fun k _ => ?_
  have hplace : p + (va + o + k - va) = p + o + k := by omega
  rw [viewAt, hplace]

theorem readWord_viewAt {p va o : ℕ} : readWord (viewAt p va mem) (va + o) = readWord mem (p + o) := readLE_viewAt

section All

variable {vs : List ℕ} {i : ℕ}

theorem fillAll_cons {v : ℕ} : fillAll mem n a (v :: vs) = fillAll (fill mem a n (byteOf v)) n (a + n) vs := rfl

theorem fillAll_of_notMem (h : x < a ∨ a + n * vs.length ≤ x) : fillAll mem n a vs x = mem x := by
  induction vs generalizing mem a with
  | nil => rfl
  | cons v vs ih =>
    rw [List.length_cons, Nat.mul_succ] at h
    rw [fillAll_cons, ih (by omega), fill_of_notMem (by omega)]

theorem readLE_fillAll (hi : i < vs.length) (hv : vs[i] < 256 ^ n) : readLE (fillAll mem n a vs) n (a + n * i) = vs[i] := by
  induction vs generalizing mem a i with
  | nil => cases hi
  | cons v vs ih =>
    cases i with
    | zero =>
      have hbytes : ∀ k < n, fillAll (fill mem a n (byteOf v)) n (a + n) vs (a + k) = byteOf v k := by
        intro k hk
        rw [fillAll_of_notMem (by omega), fill_of_mem (by omega) (by omega), Nat.add_sub_cancel_left]
      exact (readLE_of_bytes hbytes).trans (Nat.mod_eq_of_lt hv)
    | succ i =>
      have hrest := @ih (fill mem a n (byteOf v)) (a + n) i (Nat.lt_of_succ_lt_succ hi) hv
      have hplace : a + n + n * i = a + n * (i + 1) := by rw [Nat.mul_succ, Nat.add_assoc, Nat.add_comm n]
      rw [hplace] at hrest
      exact hrest

end All

/-- Two occurrences of a word that has its first byte only once are apart. -/
theorem readWord_apart (hw : ∀ k < 8, 0 < k → byteOf w k ≠ byteOf w 0) (hq : readWord mem q = w)
    (ha : readWord mem a = w) (hne : q ≠ a) : q + 8 ≤ a ∨ a + 8 ≤ q := by
  have hlt : ∀ {q a : ℕ}, readWord mem q = w → readWord mem a = w → q < a → q + 8 ≤ a := by
    intro q a hq ha hqa
    by_contra hover
    have hinside : mem (q + (a - q)) = byteOf w (a - q) := readWord_bytes hq (by omega)
    have hfirst : mem (a + 0) = byteOf w 0 := readWord_bytes ha (by norm_num)
    refine hw (a - q) (by omega) (by omega) ?_
    rw [← hinside, ← hfirst, Nat.add_sub_of_le hqa.le, Nat.add_zero]
  obtain h | h := Nat.lt_or_gt_of_ne hne
  · exact .inl (hlt hq ha h)
  · exact .inr (hlt ha hq h)

end HouseKernel.Lib
