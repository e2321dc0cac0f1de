import HouseKernel.VirtualMemory.BlockSplit
import HouseKernel.VirtualMemory.Creation
import HouseKernel.VirtualMemory.Hardware

/-! Driver roots: the window of a device is mapped into a new root, and the root is narrowed to it and enrolled in the
driver set. The checks of the narrowing come before its writes, but not before the enrolment. -/
namespace HouseKernel.VirtualMemory

open HouseKernel.Lib

def virtioMmioBase : ℕ := 0x0a000000

def virtioMmioStride : ℕ := 0x200

def virtioSlotCount : ℤ := 32

/-- The page with the registers of a slot. -/
def mmioSlotPage (slot : ℤ) : Option ℕ :=
  if 0 ≤ slot ∧ slot < virtioSlotCount then some ((virtioMmioBase + slot.toNat*virtioMmioStride) / 4096 * 4096) else none

def mmioLeafDesc (paPage : ℕ) : Desc :=
  (BitVec.ofNat 64 paPage &&& ~~~0xFFF#64) ||| 1#64 ||| 2#64 ||| 1#64 <<< 10 ||| 3#64 <<< 8 ||| 1#64 <<< 11 ||| 1#64 <<< 54 |||
    1#64 <<< 53 ||| 1#64 <<< 2 ||| 1#64 <<< 6

/-- The L2 table in which the slot of the page is free. -/
def mmioL2Slot (m : Memory) (pdir page : ℕ) : Option ℕ :=
  match pageTable (m.peek pdir (l0Index page)) with
  | none => none
  | some l1 => match pageTable (m.peek l1 (l1Index page)) with
    | none => none
    | some l2 => if m.peek l2 (l2Index page) &&& 1 ≠ 0 then none else some l2

def houseVmMapMmio (pdir : ℕ) (slot : ℤ) (m : Memory) : ℤ × Memory :=
  match mmioSlotPage slot with
  | none => (0, m)
  | some page =>
    if pdir = 0 ∨ pdir % 4096 ≠ 0 then (0, m)
    else match mmioL2Slot m pdir page with
      | none => (0, m)
      | some l2 => match allocPage m with
        | (none, m) => (-12, m)
        | (some l3, m) =>
          let m := (zeroPage l3 m).poke l2 (l2Index page) (BitVec.ofNat 64 l3 &&& ~~~0xFFF#64 ||| 1#64 ||| 2#64)
          (1, m.poke l3 (l3Index page) (mmioLeafDesc page))

def driverL2Uart : ℕ := 64

def driverL2Gic : ℕ := 72

/-- Enrol a root, in the first place that is free; a root that is enrolled keeps its place. -/
def driverMark (pdir : ℕ) (rs : List ℕ) : Option (List ℕ) :=
  if pdir ∈ rs then some rs else if 0 ∈ rs then some (rs.replace 0 pdir) else none

def driverUnmark (pdir : ℕ) (rs : List ℕ) : List ℕ := rs.replace pdir 0

/-- The two tables on the user's way, where the slots of the devices hold nothing but blocks. -/
def narrowValidate (m : Memory) (pdir : ℕ) : Option (ℕ × ℕ) :=
  match pageTable (m.peek pdir 0) with
  | none => none
  | some l1 => match pageTable (m.peek l1 0) with
    | none => none
    | some l2 =>
      if [driverL2Uart, driverL2Gic].any fun idx =>
        let d := m.peek l2 idx
        d ≠ 0 ∧ (d &&& 1 = 0 ∨ d &&& 2 ≠ 0) then none else some (l1, l2)

def clearSlots (t : ℕ) (is : List ℕ) (m : Memory) : Memory := is.foldl (fun m i => m.poke t i 0) m

/-- The places `rs` of the driver set, 0 where one is free. -/
def houseVmNarrowDriverRoot (pdir : ℕ) (rs : List ℕ) (m : Memory) : ℤ × List ℕ × Memory :=
  if pdir = 0 ∨ pdir % 4096 ≠ 0 then (0, rs, m)
  else match driverMark pdir rs with
    | none => (0, rs, m)
    | some rs => match narrowValidate m pdir with
      | none => (0, driverUnmark pdir rs, m)
      | some (l1, l2) => (1, rs, clearSlots l2 [driverL2Uart, driverL2Gic] (clearSlots l1 (List.range' 1 511) m))

/-- The addresses for which a new root has the kernel's entries. -/
def SharedKernel (va : ℕ) : Prop :=
  l0Index va = 0 ∧ (l1Index va ≠ 0 ∨ l2Index va = driverL2Uart ∨ l2Index va = driverL2Gic)

/-- An address in the page of the slot's registers. -/
def InSlotPage (slot : ℤ) (va : ℕ) : Prop := mmioSlotPage slot = some (va / 4096 * 4096)

/-- A refusal changes nothing, and after a success the root translates the slot's page and nothing else outside the
kernel's part. -/
def AllOrNothing (pdir : ℕ) (slot : ℤ) (rs : List ℕ) (m : Memory) (out : ℤ × List ℕ × Memory) : Prop :=
  (out.1 = 0 → out.2 = (rs, m)) ∧
    (out.1 = 1 → ∀ va < 2^48, ¬ SharedKernel va → ((translate out.2.2 pdir va).isSome ↔ InSlotPage slot va))

/-- The entries that the narrowing clears. -/
def Cleared (l1 l2 a : ℕ) : Prop :=
  (∃ i, 1 ≤ i ∧ i < 512 ∧ a = l1 + 8*i) ∨ a = l2 + 8*driverL2Uart ∨ a = l2 + 8*driverL2Gic

/-- The translation of an address through `slot` reads one of these entries. -/
def Meets (C : ℕ → Prop) (mem : ℕ → Desc) : ℕ → ℕ → ℕ → Prop
  | 0, slot, _ => C slot
  | k+1, slot, va => C slot ∨ match hwTable (mem slot) with
    | some c => Meets C mem k (c + 8*indexAt k va) va
    | none => False

section Enrolment

variable {pdir : ℕ} {rs rs' : List ℕ}

lemma replace_cons_ne {a b r : ℕ} (h : r ≠ a) : (r :: rs).replace a b = r :: rs.replace a b := by
  rw [List.replace_cons, beq_false_of_ne h.symm]

/-- Taking back what was enrolled anew. -/
lemma replace_replace {a b : ℕ} (h : b ∉ rs) : (rs.replace a b).replace b a = rs := by
  induction rs with
  | nil => rfl
  | cons r rs ih =>
    rw [List.mem_cons, not_or] at h
    by_cases hr : r = a
    · subst hr
      simp
    · rw [replace_cons_ne hr, replace_cons_ne (Ne.symm h.1), ih h.2]

lemma replace_ne {a b : ℕ} (h : a ∈ rs) (hab : a ≠ b) : rs.replace a b ≠ rs := by
  induction rs with
  | nil => cases h
  | cons r rs ih =>
    by_cases hr : r = a
    · subst hr
      simp [hab.symm]
    · have hmem : a ∈ rs := (List.mem_cons.mp h).resolve_left fun heq => hr heq.symm
      rw [replace_cons_ne hr]
      simpa using ih hmem

lemma mem_replace {a b : ℕ} (h : a ∈ rs) : b ∈ rs.replace a b := by
  induction rs with
  | nil => cases h
  | cons r rs ih =>
    by_cases hr : r = a
    · subst hr
      simp
    · rw [replace_cons_ne hr]
      exact List.mem_cons_of_mem _ (ih ((List.mem_cons.mp h).resolve_left fun heq => hr heq.symm))

/-- A refusal gives the driver set back as it was, unless the root was in it before. -/
lemma unmark_eq_iff (hmark : driverMark pdir rs = some rs') (hpos : pdir ≠ 0) : driverUnmark pdir rs' = rs ↔ pdir ∉ rs := by
  unfold driverMark at hmark
  split_ifs at hmark with hmem hroom
  · obtain rfl := Option.some.inj hmark
    exact iff_of_false (replace_ne hmem hpos) (not_not.mpr hmem)
  · obtain rfl := Option.some.inj hmark
    exact iff_of_true (replace_replace hmem) hmem

end Enrolment

section Clearing

variable {m : Memory} {mem mem' : ℕ → Desc} {C : ℕ → Prop} {t l1 l2 k slot va a : ℕ}

lemma clearSlots_mem (is : List ℕ) : (clearSlots t is m).mem a = if ∃ i ∈ is, a = t + 8*i then 0 else m.mem a := by
  induction is generalizing m with
  | nil => simp [clearSlots]
  | cons i is ih =>
    rw [clearSlots, List.foldl_cons]
    refine ih.trans ?_
    by_cases hrest : ∃ j ∈ is, a = t + 8*j
    · obtain ⟨j, hj, hja⟩ := hrest
      rw [if_pos ⟨j, hj, hja⟩, if_pos ⟨j, List.mem_cons_of_mem _ hj, hja⟩]
    · rw [if_neg hrest]
      simp only [Memory.poke]
      by_cases ha : a = t + 8*i
      · rw [if_pos ⟨i, List.mem_cons_self, ha⟩, ha, Function.update_self]
      · rw [Function.update_of_ne ha, if_neg]
        rintro ⟨j, hj, hja⟩
        obtain rfl | hj := List.mem_cons.mp hj
        · exact ha hja
        · exact hrest ⟨j, hj, hja⟩

/-- The memory of a narrowed root. -/
def narrowed (m : Memory) (l1 l2 : ℕ) : Memory :=
  clearSlots l2 [driverL2Uart, driverL2Gic] (clearSlots l1 (List.range' 1 511) m)

lemma narrowed_cleared (h : Cleared l1 l2 a) : (narrowed m l1 l2).mem a = 0 := by
  rw [narrowed, clearSlots_mem, clearSlots_mem]
  obtain ⟨i, h1, h2, rfl⟩ | h2 := h
  · have hi : ∃ j ∈ List.range' 1 511, l1 + 8*i = l1 + 8*j := ⟨i, by rw [List.mem_range'_1]; omega, rfl⟩
    rw [if_pos hi, ite_self]
  · exact if_pos (by simpa using h2)

lemma narrowed_kept (h : ¬ Cleared l1 l2 a) : (narrowed m l1 l2).mem a = m.mem a := by
  rw [narrowed, clearSlots_mem, clearSlots_mem, if_neg, if_neg]
  · rintro ⟨i, hi, rfl⟩
    rw [List.mem_range'_1] at hi
    exact h (Or.inl ⟨i, by omega, by omega, rfl⟩)
  · rintro ⟨i, hi, rfl⟩
    refine h (Or.inr ?_)
    simpa using hi

/-- With some entries cleared the addresses translate that do not need them. -/
theorem translateSlot_clear (hzero : ∀ a, C a → mem' a = 0) (hkept : ∀ a, ¬ C a → mem' a = mem a) :
    (translateSlot mem' k slot va).isSome ↔ ¬ Meets C mem k slot va ∧ (translateSlot mem k slot va).isSome := by
  have hnone : ∀ {k slot}, C slot → translateSlot mem' k slot va = none := fun hc =>
    translateSlot_invalid (by rw [hzero _ hc]; rfl)
  induction k generalizing slot with
  | zero =>
    by_cases hc : C slot
    · rw [hnone hc]
      simp [Meets, hc]
    · simp [Meets, hc, translateSlot, hkept slot hc]
  | succ k ih =>
    by_cases hc : C slot
    · rw [hnone hc]
      simp [Meets, hc]
    · rw [translateSlot, translateSlot, Meets, hkept slot hc]
      cases hwTable (mem slot) with
      | none => simp [hc]
      | some c => simpa [hc] using ih

end Clearing

section Fresh

variable {pf : Platform} {m m' : Memory} {l0 l1 l2 l3 k t j c va page : ℕ} {slot : ℤ} {mem : ℕ → Desc} {rest : List ℕ}

lemma mmioSlotPage_some (h : mmioSlotPage slot = some page) : ∃ i < 4, page = virtioMmioBase + 4096*i := by
  unfold mmioSlotPage at h
  split_ifs at h with hslot
  obtain rfl := Option.some.inj h
  have hcount : virtioSlotCount = 32 := rfl
  refine ⟨slot.toNat / 8, by omega, ?_⟩
  simp only [virtioMmioBase, virtioMmioStride]
  omega

/-- A table with one entry that leads on. -/
lemma translateSlot_single (hc : c % 4096 = 0 ∧ c < 2^48)
    (hword : ∀ i < 512, mem (t + 8*i) = if i = j then descFromTable c else 0) :
    translateSlot mem (k+1) (t + 8*indexAt (k+1) va) va =
      if indexAt (k+1) va = j then translateSlot mem k (c + 8*indexAt k va) va else none := by
  rw [translateSlot, hword _ (indexAt_lt _ va)]
  split_ifs with hj
  · rw [hwTable_descFromTable hc.1 hc.2]
  · rw [hwTable_invalid (by decide), output_invalid (by decide)]

/-- The tables of a root with one page mapped, and all that its new tables hold besides. -/
structure DriverWords (m : Memory) (l0 l1 l2 l3 page : ℕ) : Prop where
  root : ∀ i < 512, m.mem (l0 + 8*i) = if i = 0 then descFromTable l1 else 0
  mid : m.mem l1 = descFromTable l2
  low : ∀ i < 512, i ≠ driverL2Uart → i ≠ driverL2Gic → m.mem (l2 + 8*i) = if i = 80 then descFromTable l3 else 0
  devices : ∀ i ∈ [driverL2Uart, driverL2Gic], m.mem (l2 + 8*i) &&& 3 = 1
  leaf : ∀ i < 512, m.mem (l3 + 8*i) = if i = l3Index page then mmioLeafDesc page else 0

/-- Such a root is narrowed. -/
lemma DriverWords.validate (h : DriverWords m l0 l1 l2 l3 page) (h1 : l1 % 4096 = 0 ∧ l1 < 2^48)
    (h2 : l2 % 4096 = 0 ∧ l2 < 2^48) :
    narrowValidate m l0 = some (l1, l2) := by
  have hroot : m.peek l0 0 = descFromTable l1 := h.root 0 (by norm_num)
  have hmid : m.peek l1 0 = descFromTable l2 := h.mid
  have hblock : ∀ i ∈ [driverL2Uart, driverL2Gic], ¬ (m.peek l2 i ≠ 0 ∧ (m.peek l2 i &&& 1 = 0 ∨ m.peek l2 i &&& 2 ≠ 0)) := by
    intro i hi
    have hone : m.peek l2 i &&& 3 = 1 := h.devices i hi
    have hfirst : m.peek l2 i &&& 1 ≠ 0 := fun hzero => (invalid_and_three hzero).2 hone
    have hsecond : m.peek l2 i &&& 2 = 0 := by
      rw [show (2 : Desc) = 3 &&& 2 by decide, ← BitVec.and_assoc, hone]
      decide
    tauto
  simp only [narrowValidate, hroot, hmid, pageTable_descFromTable h1.1 h1.2, pageTable_descFromTable h2.1 h2.2]
  rw [if_neg]
  simpa using hblock

/-- A narrowed root translates its page, and nothing else. -/
theorem DriverWords.translate_iff (h : DriverWords m l0 l1 l2 l3 page)
    (ha : l0 % 4096 = 0 ∧ l1 % 4096 = 0 ∧ l2 % 4096 = 0 ∧ l3 % 4096 = 0)
    (hb : l1 < 2^48 ∧ l2 < 2^48 ∧ l3 < 2^48) (hne : [l0, l1, l2, l3].Nodup) {i : ℕ} (hi : i < 4)
    (hpage : page = virtioMmioBase + 4096*i)
    (hva : va < 2^48) : (translate (narrowed m l1 l2) l0 va).isSome ↔ page = va / 4096 * 4096 := by
  obtain ⟨ha0, ha1, ha2, ha3⟩ := ha
  obtain ⟨hb1, hb2, hb3⟩ := hb
  simp only [List.nodup_cons, List.mem_cons, List.not_mem_nil, or_false, not_or] at hne
  obtain ⟨⟨h01, h02, h03⟩, ⟨h12, h13⟩, h23, -⟩ := hne
  have huart : driverL2Uart = 64 := rfl
  have hgic : driverL2Gic = 72 := rfl
  have hroot : ∀ j < 512, (narrowed m l1 l2).mem (l0 + 8*j) = if j = 0 then descFromTable l1 else 0 := by
    intro j hj
    rw [narrowed_kept, h.root j hj]
    rintro (⟨x, -, hx, heq⟩ | heq)
    · omega
    · omega
  have hmid : ∀ j < 512, (narrowed m l1 l2).mem (l1 + 8*j) = if j = 0 then descFromTable l2 else 0 := by
    intro j hj
    split_ifs with h0
    · subst h0
      rw [narrowed_kept, mul_zero, add_zero, h.mid]
      rintro (⟨x, hx, -, heq⟩ | heq)
      · omega
      · omega
    · exact narrowed_cleared (Or.inl ⟨j, by omega, hj, rfl⟩)
  have hlow : ∀ j < 512, (narrowed m l1 l2).mem (l2 + 8*j) = if j = 80 then descFromTable l3 else 0 := by
    intro j hj
    by_cases hdev : j = driverL2Uart ∨ j = driverL2Gic
    · rw [narrowed_cleared (Or.inr (by omega)), if_neg (by omega)]
    · rw [not_or] at hdev
      rw [narrowed_kept, h.low j hj hdev.1 hdev.2]
      rintro (⟨x, -, hx, heq⟩ | heq)
      · omega
      · omega
  have hleaf : ∀ j < 512, (narrowed m l1 l2).mem (l3 + 8*j) = if j = l3Index page then mmioLeafDesc page else 0 := by
    intro j hj
    rw [narrowed_kept, h.leaf j hj]
    rintro (⟨x, -, hx, heq⟩ | heq)
    · omega
    · omega
  have hoffset : virtioMmioBase = 0x0a000000 := rfl
  have htype : mmioLeafDesc page &&& 3 = 3 := by
    rw [hpage]
    interval_cases i
    all_goals decide
  have hout : (output 0 (mmioLeafDesc page) va).isSome := by
    rw [output, if_pos ⟨by norm_num, htype⟩]
    rfl
  rw [translate, translateSlot_single ⟨ha1, hb1⟩ hroot, translateSlot_single ⟨ha2, hb2⟩ hmid,
    translateSlot_single ⟨ha3, hb3⟩ hlow,
    translateSlot, hleaf _ (indexAt_lt 0 va)]
  have hindex : (indexAt 3 va = 0 ∧ indexAt 2 va = 0 ∧ indexAt 1 va = 80 ∧ indexAt 0 va = l3Index page) ↔
      page = va / 4096 * 4096 := by
    unfold indexAt l3Index
    omega
  rw [← hindex]
  by_cases h3 : indexAt 3 va = 0
  · by_cases h2 : indexAt 2 va = 0
    · by_cases h1 : indexAt 1 va = 80
      · by_cases h0 : indexAt 0 va = l3Index page
        · simp [h3, h2, h1, h0, hout]
        · simp [h3, h2, h1, h0, output_invalid]
      · simp [h3, h2, h1]
    · simp [h3, h2]
  · simp [h3]

/-- The window of a slot in a new root. -/
lemma driverWords_map (hpool : m.pool = l0 :: l1 :: l2 :: rest) (hnodup : m.pool.Nodup)
    (hpages : ∀ p ∈ m.pool, 0 < p ∧ p < 2^48 ∧ p % 4096 = 0) (hslot : mmioSlotPage slot = some page)
    (hmap : houseVmMapMmio l0 slot (allocPageMap pf m).2 = (1, m')) :
    ∃ l3 ∈ rest, DriverWords m' l0 l1 l2 l3 page := by
  rw [allocPageMap_eq hpool] at hmap
  rw [hpool] at hnodup hpages
  simp only [List.nodup_cons, List.mem_cons, not_or] at hnodup
  obtain ⟨⟨h01, h02, h0⟩, ⟨h12, h1⟩, h2, hrest⟩ := hnodup
  obtain ⟨hpos0, hb0, ha0⟩ := hpages l0 (by simp)
  obtain ⟨hpos1, hb1, ha1⟩ := hpages l1 (by simp)
  obtain ⟨hpos2, hb2, ha2⟩ := hpages l2 (by simp)
  have hw : CreatedWords pf m (created pf m l0 l1 l2 rest) l0 l1 l2 := created_words ha0 ha1 ha2 h01 h02 h12
  obtain ⟨i, hi, rfl⟩ := mmioSlotPage_some hslot
  have hbase : virtioMmioBase = 0x0a000000 := rfl
  have hindex : l0Index (virtioMmioBase + 4096*i) = 0 ∧ l1Index (virtioMmioBase + 4096*i) = 0 ∧
      l2Index (virtioMmioBase + 4096*i) = 80 := by
    simp only [l0Index, l1Index, l2Index]
    omega
  have hl3 : l3Index (virtioMmioBase + 4096*i) < 512 := Nat.mod_lt _ (by norm_num)
  have hroot := hw.root 0 (by norm_num)
  have hmid := hw.mid 0 (by norm_num)
  have hfree := hw.low 80 (by norm_num)
  rw [if_pos rfl, mul_zero, add_zero] at hroot hmid
  rw [if_neg (by norm_num), if_neg (by norm_num)] at hfree
  have hslot2 : mmioL2Slot (created pf m l0 l1 l2 rest) l0 (virtioMmioBase + 4096*i) = some l2 := by
    simp only [mmioL2Slot, Memory.peek, hindex, mul_zero, add_zero, hroot, hmid, hfree, pageTable_descFromTable ha1 hb1,
      pageTable_descFromTable ha2 hb2]
    exact if_neg (by decide)
  have haddr : ¬ (l0 = 0 ∨ l0 % 4096 ≠ 0) := by omega
  simp only [houseVmMapMmio, hslot, if_neg haddr, hslot2, allocPage] at hmap
  have hcreated : (created pf m l0 l1 l2 rest).pool = rest := rfl
  rw [hcreated] at hmap
  cases rest with
  | nil => exact absurd (Prod.mk.inj hmap).1 (by norm_num)
  | cons l3 rest =>
    obtain ⟨hpos3, hb3, ha3⟩ := hpages l3 (by simp)
    simp only [List.mem_cons, not_or] at h0 h1 h2
    have huart : driverL2Uart = 64 := rfl
    have hgic : driverL2Gic = 72 := rfl
    obtain rfl := (Prod.mk.inj hmap).2
    rw [BitVec.or_assoc, show (1#64 ||| 2#64) = 0x3#64 by decide, tableDesc_eq ha3 hb3, hindex.2.2]
    refine ⟨l3, List.mem_cons_self, ⟨fun j hj => ?_, ?_, fun j hj hu hg => ?_, fun j hj => ?_, fun j hj => ?_⟩⟩
    · simp only [Memory.poke, zeroPage]
      rw [Function.update_of_ne (by omega), Function.update_of_ne (by omega), if_neg (by omega), hw.root j hj]
      rfl
    · simp only [Memory.poke, zeroPage]
      rw [Function.update_of_ne (by omega), Function.update_of_ne (by omega), if_neg (by omega), hmid]
    · simp only [Memory.poke, zeroPage]
      rw [Function.update_of_ne (by omega)]
      by_cases h80 : j = 80
      · subst h80
        rw [Function.update_self, if_pos rfl]
      · rw [Function.update_of_ne (by omega), if_neg (by omega), hw.low j hj, if_neg (by omega), if_neg (by omega), if_neg h80]
        rfl
    · have hj64 : j = 64 ∨ j = 72 := by simpa [huart, hgic] using hj
      simp only [Memory.poke, zeroPage]
      rw [Function.update_of_ne (by omega), Function.update_of_ne (by omega), if_neg (by omega), hw.low j (by omega)]
      obtain rfl | rfl := hj64
      · decide
      · decide
    · simp only [Memory.poke, zeroPage]
      by_cases hlast : j = l3Index (virtioMmioBase + 4096*i)
      · rw [if_pos hlast, hlast, Function.update_self]
      · rw [if_neg hlast, Function.update_of_ne (by omega), Function.update_of_ne (by omega), if_pos (by omega)]

/-- The roots that drivers get: a new root with the page of its slot is narrowed whenever the driver set has a place for it,
and translates that page and nothing else. -/
theorem fresh_driver_root {r : ℕ} {rs : List ℕ} (hroot : (allocPageMap pf m).1 = some r) (hnodup : m.pool.Nodup)
    (hpages : ∀ p ∈ m.pool, 0 < p ∧ p < 2^48 ∧ p % 4096 = 0) (hmap : houseVmMapMmio r slot (allocPageMap pf m).2 = (1, m'))
    (hroom : r ∈ rs ∨ 0 ∈ rs) : (houseVmNarrowDriverRoot r rs m').1 = 1 ∧ r ∈ (houseVmNarrowDriverRoot r rs m').2.1 ∧
      ∀ va < 2^48, (translate (houseVmNarrowDriverRoot r rs m').2.2 r va).isSome ↔ InSlotPage slot va := by
  obtain ⟨l0, l1, l2, rest, hpool⟩ | hnone := allocPageMap_pool pf m
  · rw [allocPageMap_eq hpool] at hroot
    obtain rfl := Option.some.inj hroot
    obtain ⟨page, hslot⟩ : ∃ page, mmioSlotPage slot = some page := by
      cases hslot : mmioSlotPage slot with
      | none =>
        simp only [houseVmMapMmio, hslot] at hmap
        exact absurd (Prod.mk.inj hmap).1 (by norm_num)
      | some page => exact ⟨page, rfl⟩
    obtain ⟨l3, hl3, hw⟩ := driverWords_map hpool hnodup hpages hslot hmap
    rw [hpool] at hnodup hpages
    obtain ⟨hpos0, hb0, ha0⟩ := hpages l0 (by simp)
    obtain ⟨hpos1, hb1, ha1⟩ := hpages l1 (by simp)
    obtain ⟨hpos2, hb2, ha2⟩ := hpages l2 (by simp)
    obtain ⟨hpos3, hb3, ha3⟩ := hpages l3 (by simp [hl3])
    have hne : [l0, l1, l2, l3].Nodup :=
      hnodup.sublist ((List.singleton_sublist.mpr hl3).cons_cons l2 |>.cons_cons l1 |>.cons_cons l0)
    obtain ⟨rs', hmark, hmem⟩ : ∃ rs', driverMark l0 rs = some rs' ∧ l0 ∈ rs' := by
      unfold driverMark
      by_cases hin : l0 ∈ rs
      · exact ⟨rs, if_pos hin, hin⟩
      · have hzero : 0 ∈ rs := hroom.resolve_left hin
        rw [if_neg hin, if_pos hzero]
        exact ⟨_, rfl, mem_replace hzero⟩
    have haddr : ¬ (l0 = 0 ∨ l0 % 4096 ≠ 0) := by omega
    have hout : houseVmNarrowDriverRoot l0 rs m' = (1, rs', narrowed m' l1 l2) := by
      simp only [houseVmNarrowDriverRoot, if_neg haddr, hmark, hw.validate ⟨ha1, hb1⟩ ⟨ha2, hb2⟩, narrowed]
    obtain ⟨i, hi, hpage⟩ := mmioSlotPage_some hslot
    rw [hout]
    refine ⟨rfl, hmem, fun va hva => ?_⟩
    rw [hw.translate_iff ⟨ha0, ha1, ha2, ha3⟩ ⟨hb1, hb2, hb3⟩ hne hi hpage hva, InSlotPage, hslot, Option.some.injEq]
  · rw [hnone] at hroot
    cases hroot

end Fresh

/-- The narrowing is all or nothing exactly when no enrolled root of another shape is narrowed again, and when a root that
is narrowed has besides the cleared entries only those of the window. -/
theorem narrow_all_or_nothing (pdir : ℕ) (slot : ℤ) (rs : List ℕ) (m : Memory) :
    AllOrNothing pdir slot rs m (houseVmNarrowDriverRoot pdir rs m) ↔
      (pdir ≠ 0 → pdir % 4096 = 0 → narrowValidate m pdir = none → pdir ∉ rs) ∧
      (pdir ≠ 0 → pdir % 4096 = 0 → pdir ∈ rs ∨ 0 ∈ rs → ∀ l1 l2, narrowValidate m pdir = some (l1, l2) →
        ∀ va < 2^48, ¬ SharedKernel va →
          ((¬ Meets (Cleared l1 l2) m.mem 3 (pdir + 8*indexAt 3 va) va ∧ (translate m pdir va).isSome) ↔
              InSlotPage slot va)) := by
  unfold houseVmNarrowDriverRoot
  by_cases haddr : pdir = 0 ∨ pdir % 4096 ≠ 0
  · rw [if_pos haddr]
    refine iff_of_true ⟨fun _ => rfl, fun h => absurd h (by norm_num)⟩ ⟨?_, ?_⟩
    · intro h0 h1
      omega
    · intro h0 h1
      omega
  · rw [not_or, not_not] at haddr
    obtain ⟨hpos, halign⟩ := haddr
    rw [if_neg (by tauto)]
    cases hmark : driverMark pdir rs with
    | none =>
      have hfull : pdir ∉ rs ∧ 0 ∉ rs := by
        unfold driverMark at hmark
        split_ifs at hmark with h1 h2
        exact ⟨h1, h2⟩
      refine iff_of_true ⟨fun _ => rfl, fun h => absurd h (by norm_num)⟩ ⟨fun _ _ _ => hfull.1, fun _ _ h => ?_⟩
      exact absurd h (by tauto)
    | some rs' =>
      have hroom : pdir ∈ rs ∨ 0 ∈ rs := by
        unfold driverMark at hmark
        split_ifs at hmark with h1 h2
        · exact Or.inl h1
        · exact Or.inr h2
      cases hshape : narrowValidate m pdir with
      | none =>
        have hiff := unmark_eq_iff hmark hpos
        constructor
        · rintro ⟨hrefused, -⟩
          have heq := hrefused rfl
          exact ⟨fun _ _ _ => hiff.mp (Prod.mk.inj heq).1, fun _ _ _ l1 l2 h => by cases h⟩
        · rintro ⟨hnot, -⟩
          have heq := hiff.mpr (hnot hpos halign rfl)
          exact ⟨fun _ => congrArg (·, m) heq, fun h => absurd h (by norm_num)⟩
      | some tables =>
        obtain ⟨l1, l2⟩ := tables
        have htranslate : ∀ va, (translate (narrowed m l1 l2) pdir va).isSome ↔
            ¬ Meets (Cleared l1 l2) m.mem 3 (pdir + 8*indexAt 3 va) va ∧ (translate m pdir va).isSome := fun va =>
          translateSlot_clear (fun _ => narrowed_cleared) fun _ => narrowed_kept
        constructor
        · rintro ⟨-, hdone⟩
          refine ⟨nofun, fun _ _ _ t1 t2 ht va hva hout => ?_⟩
          obtain ⟨rfl, rfl⟩ := Prod.mk.inj (Option.some.inj ht)
          rw [← htranslate]
          exact hdone rfl va hva hout
        · rintro ⟨-, hwindow⟩
          refine ⟨fun h => absurd h (by norm_num), fun _ va hva hout => ?_⟩
          exact (htranslate va).trans (hwindow hpos halign hroom l1 l2 rfl va hva hout)

/-- An enrolled root that got a table where a device's block was. -/
def reshapedRoot : Memory :=
  ⟨fun a => if a = 0x50000000 then descFromTable 0x50001000 else if a = 0x50001000 then descFromTable 0x50002000
    else if a = 0x50002000 + 8*64 then descFromTable 0x50003000 else 0, []⟩

/-- It is refused, and its enrolment is gone. -/
theorem narrow_drops_enrolment : houseVmNarrowDriverRoot 0x50000000 [0x50000000, 0] reshapedRoot = (0, [0, 0], reshapedRoot) ∧
    ¬ AllOrNothing 0x50000000 0 [0x50000000, 0] reshapedRoot
      (houseVmNarrowDriverRoot 0x50000000 [0x50000000, 0] reshapedRoot) := by
  have hshape : narrowValidate reshapedRoot 0x50000000 = none := by decide
  have hout : houseVmNarrowDriverRoot 0x50000000 [0x50000000, 0] reshapedRoot = (0, [0, 0], reshapedRoot) := by
    simp [houseVmNarrowDriverRoot, driverMark, driverUnmark, hshape]
  refine ⟨hout, fun h => ?_⟩
  rw [hout] at h
  exact absurd (Prod.mk.inj (h.1 rfl)).1 (by decide)

end HouseKernel.VirtualMemory
