import HouseKernel.VirtualMemory.Translation

/-! A block is split into a table of smaller mappings. The masks of the split keep 44 bits of the output
address, four less than the descriptor has. -/
namespace HouseKernel.VirtualMemory

open HouseKernel.Lib

/-- The bits of a block that its parts take over, besides the address. -/
def keepMask : Desc := 0xFFFF000000000FFF

/-- Part `i` of a block. -/
def splitEntry (level : ℕ) (d : Desc) (i : ℕ) : Desc :=
  if level = 1 then
    let base := d &&& 0xFFFFC0000000
    let keep := d &&& keepMask
    keep ||| ((base + BitVec.ofNat 64 i <<< 21) &&& 0xFFFFFE00000)
  else
    let base := d &&& 0xFFFFFE00000
    -- pages of the lowest level have the table bit
    let keep := (d &&& keepMask) ||| 2
    keep ||| ((base + BitVec.ofNat 64 i <<< 12) &&& 0x0000FFFFFFFFF000)

/-- Write every word of a table. -/
def fillTable (t : ℕ) (f : ℕ → Desc) (m : Memory) : Memory :=
  { m with mem := fun a => if t ≤ a ∧ a < t + 4096 then f ((a - t) / 8) else m.mem a }

/-- Split the block at the address `slot`, an entry of level 1 or 2. What is no block stays as it is. -/
def vmSplitSlot (m : Memory) (slot level : ℕ) : Bool × Memory :=
  if slot = 0 ∨ (level ≠ 1 ∧ level ≠ 2) then (false, m)
  else
    let d := m.mem slot
    if d &&& 1 = 0 ∨ d &&& 2 ≠ 0 then (true, m)
    else match allocPage m with
      | (none, m) => (false, m)
      | (some child, m) =>
        let m := fillTable child (splitEntry level d) (zeroPage child m)
        (true, { m with mem := Function.update m.mem slot (BitVec.ofNat 64 child &&& ~~~0xFFF#64 ||| 0x3#64) })

section Entries

variable {d : Desc} {i : ℕ}

/-- A block, by its bits. -/
lemma block_and_three (h1 : d &&& 1 ≠ 0) (h2 : d &&& 2 = 0) : d &&& 3 = 1 := by
  have hsplit : d &&& 3 = (d &&& 1) ||| (d &&& 2) := by
    rw [← BitVec.and_or_distrib_left]
    rfl
  have hone : d &&& 1 = 1 := by
    have hpow : (1 : Desc) = BitVec.twoPow 64 0 := rfl
    rw [hpow, BitVec.and_twoPow] at h1 ⊢
    split_ifs at h1 ⊢ with hbit
    · rfl
    · exact absurd rfl h1
  rw [hsplit, hone, h2]
  rfl

lemma and_three_block (h : d &&& 3 = 1) : d &&& 1 ≠ 0 ∧ d &&& 2 = 0 := by
  have h1 : d &&& 1 = (d &&& 3) &&& 1 := by rw [BitVec.and_assoc]; rfl
  have h2 : d &&& 2 = (d &&& 3) &&& 2 := by rw [BitVec.and_assoc]; rfl
  rw [h1, h2, h]
  decide

lemma mAddress_toNat (d : Desc) : (d &&& mAddress).toNat = d.toNat / 2^12 % 2^36 * 2^12 := by
  rw [show mAddress = fieldMask 64 12 36 by decide]
  exact toNat_and_fieldMask (by norm_num) d

lemma gigabyte_toNat (d : Desc) : (d &&& (0xFFFFC0000000 : Desc)).toNat = d.toNat / 2^30 % 2^18 * 2^30 := by
  rw [show (0xFFFFC0000000 : Desc) = fieldMask 64 30 18 by decide]
  exact toNat_and_fieldMask (by norm_num) d

/-- The mask of the split stops at bit 43. -/
lemma chunk_toNat (d : Desc) : (d &&& (0xFFFFFE00000 : Desc)).toNat = d.toNat / 2^21 % 2^23 * 2^21 := by
  rw [show (0xFFFFFE00000 : Desc) = fieldMask 64 21 23 by decide]
  exact toNat_and_fieldMask (by norm_num) d

lemma shift_toNat {n : ℕ} (hi : i < 512) (hn : n ≤ 21) : (BitVec.ofNat 64 i <<< n).toNat = i * 2^n := by
  have hpow : 2^n ≤ 2^21 := Nat.pow_le_pow_right (by norm_num) hn
  have hle : i * 2^n ≤ 511 * 2^21 := Nat.mul_le_mul (by omega) hpow
  have hi' : i % 2^64 = i := Nat.mod_eq_of_lt (by omega)
  rw [BitVec.toNat_shiftLeft, BitVec.toNat_ofNat, hi', Nat.shiftLeft_eq, Nat.mod_eq_of_lt (by omega)]

/-- The parts of a block have its attributes. Their addresses are cut at 44 bits. -/
theorem splitEntry_spec {level : ℕ} (hlevel : level = 1 ∨ level = 2) (hd : d &&& 3 = 1) (hi : i < 512) :
    splitEntry level d i &&& 3 = (if level = 2 then 3 else 1) ∧ splitEntry level d i &&& attrMask = d &&& attrMask ∧
      (splitEntry level d i &&& mAddress).toNat = (outputAddress (3 - level) d + i * 2^(12 + 9*(2 - level))) % 2^44 := by
  have hword := d.isLt
  obtain rfl | rfl := hlevel
  · have hshift := @shift_toNat i 21 hi (by norm_num)
    have hbase := gigabyte_toNat d
    simp only [splitEntry, if_pos, and_or_masks]
    refine ⟨?_, ?_, ?_⟩
    · rw [show keepMask &&& 3 = 3 by decide, show (0xFFFFFE00000 : Desc) &&& 3 = 0#64 by decide, hd]
      simp
    · rw [show keepMask &&& attrMask = attrMask by decide, show (0xFFFFFE00000 : Desc) &&& attrMask = 0#64 by decide]
      simp
    · rw [show keepMask &&& mAddress = 0#64 by decide, show (0xFFFFFE00000 : Desc) &&& mAddress = 0xFFFFFE00000 by decide]
      simp only [BitVec.and_zero, BitVec.zero_or, chunk_toNat, BitVec.toNat_add, hbase, hshift, outputAddress, mAddress_toNat]
      omega
  · have hshift := @shift_toNat i 12 hi (by norm_num)
    have hbase := chunk_toNat d
    have hpart : splitEntry 2 d i =
        ((d &&& keepMask) ||| (((d &&& (0xFFFFFE00000 : Desc)) + BitVec.ofNat 64 i <<< 12) &&& mAddress)) ||| 2 := by
      simp only [splitEntry, BitVec.or_assoc, BitVec.or_comm (2 : Desc)]
      rfl
    have hfield : ∀ mask : Desc, (2 : Desc) &&& mask = 0#64 → splitEntry 2 d i &&& mask =
        (d &&& (keepMask &&& mask)) |||
            (((d &&& (0xFFFFFE00000 : Desc)) + BitVec.ofNat 64 i <<< 12) &&& (mAddress &&& mask)) := by
      intro mask hmask
      rw [hpart, BitVec.and_comm, BitVec.and_or_distrib_left, BitVec.and_comm mask 2, hmask, BitVec.or_zero, BitVec.and_comm,
        and_or_masks]
    refine ⟨?_, ?_, ?_⟩
    · rw [hpart, BitVec.and_comm, BitVec.and_or_distrib_left, BitVec.and_comm, and_or_masks,
        show keepMask &&& 3 = 3 by decide, show mAddress &&& 3 = 0#64 by decide, hd]
      simp
    · rw [hfield _ (by decide), show keepMask &&& attrMask = attrMask by decide, show mAddress &&& attrMask = 0#64 by decide]
      simp
    · rw [hfield _ (by decide), show keepMask &&& mAddress = 0#64 by decide, BitVec.and_self]
      simp only [BitVec.and_zero, BitVec.zero_or, BitVec.toNat_add, hbase, hshift, outputAddress, mAddress_toNat]
      omega

end Entries

/-- The memory after a split: the slot points to a table of the parts, on a page that was free. -/
structure Split (m m' : Memory) (slot level child : ℕ) (rest : List ℕ) : Prop where
  taken : m.pool = child :: rest
  pool : m'.pool = rest
  link : m'.mem slot = descFromTable child
  parts : ∀ i < 512, m'.mem (child + 8*i) = splitEntry level (m.mem slot) i
  other : ∀ a, a ≠ slot → a < child ∨ child + 4096 ≤ a → m'.mem a = m.mem a

section Split

variable {m m' : Memory} {slot level child va : ℕ} {rest : List ℕ}

/-- The pages of the allocator, none of which holds the slot. -/
def FreeOf (m : Memory) (slot : ℕ) : Prop := ∀ p ∈ m.pool, p % 4096 = 0 ∧ p < 2^48 ∧ (slot < p ∨ p + 4096 ≤ slot)

/-- A block is split, unless there is no page for its table. -/
theorem vmSplitSlot_cases (hlevel : level = 1 ∨ level = 2) (hslot : slot ≠ 0) (hblock : m.mem slot &&& 3 = 1)
    (hfree : FreeOf m slot) : (m.pool = [] ∧ vmSplitSlot m slot level = (false, m)) ∨
      ∃ child rest m', vmSplitSlot m slot level = (true, m') ∧ Split m m' slot level child rest := by
  obtain ⟨h1, h2⟩ := and_three_block hblock
  have hrun : vmSplitSlot m slot level = match allocPage m with
      | (none, m) => (false, m)
      | (some child, m) =>
        let m := fillTable child (splitEntry level (m.mem slot)) (zeroPage child m)
        (true, { m with mem := Function.update m.mem slot (BitVec.ofNat 64 child &&& ~~~0xFFF#64 ||| 0x3#64) }) := by
    rw [vmSplitSlot, if_neg (by omega)]
    simp only [h1, h2, false_or, ne_eq, not_true_eq_false, if_false]
    cases hpool : m.pool with
    | nil => simp only [allocPage, hpool]
    | cons c rest => simp only [allocPage, hpool]
  rw [hrun]
  cases hpool : m.pool with
  | nil =>
    left
    refine ⟨rfl, ?_⟩
    simp only [allocPage, hpool]
  | cons c rest =>
    right
    obtain ⟨ha, hb, hout⟩ := hfree c (by simp [hpool])
    simp only [allocPage, hpool]
    refine ⟨c, rest, _, rfl, hpool, rfl, ?_, fun i hi => ?_, fun a hne ha => ?_⟩
    · simp only [Function.update_self]
      exact tableDesc_eq ha hb
    · simp only [fillTable]
      rw [Function.update_of_ne (by omega), if_pos (by omega), Nat.add_sub_cancel_left, Nat.mul_div_cancel_left _ (by norm_num)]
    · simp only [fillTable, zeroPage]
      rw [Function.update_of_ne hne, if_neg (by omega), if_neg (by omega)]

lemma hwTable_descFromTable {c : ℕ} (ha : c % 4096 = 0) (hb : c < 2^48) : hwTable (descFromTable c) = some c := by
  have h3 : descFromTable c &&& 3 = 3 := by
    have := field_flagBits (BitVec.ofNat 64 c) tableFlag 0 3 (by decide)
    simpa [descFromTable, tableFlag] using this
  rw [hwTable, if_pos h3, descFromTable_address ha hb]

lemma hwTable_block {d : Desc} (h : d &&& 3 = 1) : hwTable d = none := by
  rw [hwTable, h]
  rfl

/-- The four bits of an address that the split does not keep. -/
lemma high_bits_iff (d : Desc) : d &&& 0xF00000000000 = 0 ↔ (d &&& mAddress).toNat < 2^44 := by
  have hhigh : (d &&& (0xF00000000000 : Desc)).toNat = d.toNat / 2^44 % 2^4 * 2^44 := by
    rw [show (0xF00000000000 : Desc) = fieldMask 64 44 4 by decide]
    exact toNat_and_fieldMask (by norm_num) d
  rw [← BitVec.toNat_inj, hhigh, mAddress_toNat]
  change _ = 0 ↔ _
  omega

/-- The translation through a slot before and after it is split. -/
theorem Split.translate_iff (h : Split m m' slot level child rest) (hlevel : level = 1 ∨ level = 2)
    (hblock : m.mem slot &&& 3 = 1) (hfree : FreeOf m slot) :
    translateSlot m'.mem (3 - level) slot va = translateSlot m.mem (3 - level) slot va ↔ m.mem slot &&& 0xF00000000000 = 0 := by
  obtain ⟨ha, hb, -⟩ := hfree child (by simp [h.taken])
  have hold : translateSlot m.mem (3 - level) slot va = some ⟨outputAddress (3 - level) (m.mem slot) +
      va % 2^(12 + 9*(3 - level)), m.mem slot &&& attrMask⟩ := by
    obtain rfl | rfl := hlevel
    · rw [translateSlot, hwTable_block hblock, output, if_pos ⟨by norm_num, hblock⟩]
    · rw [translateSlot, hwTable_block hblock, output, if_pos ⟨by norm_num, hblock⟩]
  obtain ⟨htype, hattrs, haddr⟩ := splitEntry_spec hlevel hblock (indexAt_lt (2 - level) va)
  have hpart := h.parts _ (indexAt_lt (2 - level) va)
  have hnew : translateSlot m'.mem (3 - level) slot va = some ⟨outputAddress (2 - level) (splitEntry level (m.mem slot)
      (indexAt (2 - level) va)) + va % 2^(12 + 9*(2 - level)), m.mem slot &&& attrMask⟩ := by
    obtain rfl | rfl := hlevel
    · rw [translateSlot, h.link, hwTable_descFromTable ha hb]
      change translateSlot m'.mem 1 _ va = _
      rw [translateSlot, hpart, hwTable_block htype, output, if_pos ⟨by norm_num, htype⟩, hattrs]
    · rw [translateSlot, h.link, hwTable_descFromTable ha hb]
      change translateSlot m'.mem 0 _ va = _
      rw [translateSlot, hpart, output, if_pos ⟨by norm_num, htype⟩, hattrs]
  rw [hold, hnew, Option.some.injEq, Translation.mk.injEq, and_iff_left rfl, high_bits_iff]
  simp only [outputAddress] at haddr ⊢
  rw [haddr]
  obtain rfl | rfl := hlevel
  · unfold indexAt
    omega
  · unfold indexAt
    omega

end Split

/-- A split that finds no page changes nothing. One that does keeps the translation of an address exactly when
the block's address has no bit from 44 on. -/
theorem split_preserves_iff {m : Memory} {slot level : ℕ} (hlevel : level = 1 ∨ level = 2) (hblock : m.mem slot &&& 3 = 1)
    (hfree : FreeOf m slot) :
    ((vmSplitSlot m slot level).1 = false → (vmSplitSlot m slot level).2 = m) ∧
      ((vmSplitSlot m slot level).1 = true → ∀ va,
        (translateSlot (vmSplitSlot m slot level).2.mem (3 - level) slot va = translateSlot m.mem (3 - level) slot va ↔
          m.mem slot &&& 0xF00000000000 = 0)) := by
  by_cases hslot : slot = 0
  · have hrun : vmSplitSlot m slot level = (false, m) := by rw [vmSplitSlot, if_pos (Or.inl hslot)]
    rw [hrun]
    refine ⟨fun _ => rfl, fun h => ?_⟩
    cases h
  · obtain ⟨-, hrun⟩ | ⟨child, rest, m', hrun, hsplit⟩ := vmSplitSlot_cases hlevel hslot hblock hfree
    · rw [hrun]
      refine ⟨fun _ => rfl, fun h => ?_⟩
      cases h
    · rw [hrun]
      refine ⟨fun h => ?_, fun _ va => hsplit.translate_iff hlevel hblock hfree⟩
      cases h

section Sample

/-- One descriptor, and one free page. -/
def oneSlot (d : Desc) : Memory := ⟨fun a => if a = 0x40001000 then d else 0, [0x50000000]⟩

/-- A block of the kernel's RAM keeps its translation. -/
theorem split_preserves_iff_ram :
    translateSlot (vmSplitSlot (oneSlot 0x40000701#64) 0x40001000 1).2.mem 2 0x40001000 0x40201234 =
      translateSlot (oneSlot 0x40000701#64).mem 2 0x40001000 0x40201234 :=
  ((split_preserves_iff (Or.inl rfl) (by decide) (by unfold FreeOf; decide)).2 (by rfl) 0x40201234).mpr (by decide)

/-- A block at 16 TiB: its first page is at 0 after the split, at either level. -/
theorem split_loses_address :
    (vmSplitSlot (oneSlot 0x100000000701#64) 0x40001000 1).1 = true ∧
    translateSlot (oneSlot 0x100000000701#64).mem 2 0x40001000 0 = some ⟨0x100000000000, 0x700#64⟩ ∧
    translateSlot (vmSplitSlot (oneSlot 0x100000000701#64) 0x40001000 1).2.mem 2 0x40001000 0 = some ⟨0, 0x700#64⟩ ∧
    (vmSplitSlot (oneSlot 0x100000000701#64) 0x40001000 2).1 = true ∧
    translateSlot (oneSlot 0x100000000701#64).mem 1 0x40001000 0 = some ⟨0x100000000000, 0x700#64⟩ ∧
    translateSlot (vmSplitSlot (oneSlot 0x100000000701#64) 0x40001000 2).2.mem 1 0x40001000 0 = some ⟨0, 0x700#64⟩ := by
  decide

end Sample

end HouseKernel.VirtualMemory
