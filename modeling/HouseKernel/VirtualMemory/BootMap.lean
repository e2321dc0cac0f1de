import HouseKernel.Lib.Updates
import HouseKernel.VirtualMemory.FormedRoot
import HouseKernel.VirtualMemory.Reservations

/-! The tables that the kernel boots with. They are first built before the size of RAM is known, for 4 GiB of it, and
corrected when it is; then the stack moves to the end of RAM, and `mmap` commits ranges of the alias window. One function
says what the hardware makes of the tables from either root, and with it a committed range lies below the boot stacks,
and the boot stacks are mapped up to 255 GiB of RAM and the 2 MiB that are kept free above them. -/
namespace HouseKernel.VirtualMemory

open HouseKernel.Lib

def ramBase : ℕ := 0x40000000

def fallbackRam : ℕ := 512 * 2^20

def houseRamTcrMax : ℕ := 256 * 2^30

def stackReserve : ℕ := 0x200000

def houseHwSmpMax : ℤ := 32

structure Detected where
  ramBytes : ℕ
  bootStackTop : ℕ
  deriving DecidableEq, Repr

/-- The size as the tables and the stacks can use it. -/
def boundRam (ram : ℕ) : ℕ :=
  let ram := if houseRamTcrMax < ram then houseRamTcrMax else ram
  let ram := ram / 0x200000 * 0x200000
  if ram ≤ stackReserve then fallbackRam else ram

/-- The size of RAM, from the device tree or else from the probe, each of them zero where it finds nothing. -/
def houseDetectEarly (dtbRam probed : ℕ) : Detected :=
  let ram := if dtbRam ≠ 0 then dtbRam else 0
  let ram := if ram = 0 ∧ probed ≠ 0 then probed else ram
  let ram := if ram = 0 then fallbackRam else ram
  ⟨boundRam ram, ramBase + boundRam ram - stackReserve⟩

/-- The number of cores that the kernel goes on with. -/
def houseDetectLate (dtbSmp psci gicr : ℤ) : ℤ :=
  let chosen := if 1 ≤ dtbSmp then dtbSmp else 0
  let chosen := if chosen < 1 then 2 else chosen
  let chosen := if chosen < psci then psci else chosen
  let chosen := if chosen < gicr then gicr else chosen
  let chosen := if chosen < 1 then 1 else chosen
  if houseHwSmpMax < chosen then houseHwSmpMax else chosen

/-- The arrays that the kernel's image has for its first tables. -/
structure BootTables where
  l1Low : ℕ → Desc
  l1Rts : ℕ → Desc
  l2Rts : ℕ → ℕ → Desc
  ttbr0L0 : ℕ → Desc
  ttbr1L0 : ℕ → Desc

def BootTables.bss : BootTables := ⟨fun _ => 0, fun _ => 0, fun _ _ => 0, fun _ => 0, fun _ => 0⟩

/-- Where the arrays lie. A table begins a page. -/
structure BootPlaces where
  l1Low : ℕ
  l2Rts : ℕ
  ttbr0L0 : ℕ
  ttbr1L0 : ℕ
  l1Low_page : l1Low % 4096 = 0
  l1Low_lt : l1Low < 2^48
  l2Rts_pos : 0 < l2Rts
  l2Rts_page : l2Rts % 4096 = 0
  l2Rts_le : l2Rts + 4096*8 ≤ 2^48

def pteTable (addr : ℕ) : Desc := 1#64 ||| 1#64 <<< 1 ||| BitVec.ofNat 64 addr

def pteBlock (attr : Desc) (addr : ℕ) : Desc := 1#64 ||| 1#64 <<< 10 ||| 3#64 <<< 8 ||| attr <<< 2 ||| BitVec.ofNat 64 addr

def BootTables.mapBlock (t : BootTables) (idx : ℕ) (attr : Desc) : BootTables :=
  { t with l1Low := Function.update t.l1Low idx (VirtualMemory.mapBlock idx attr) }

def zeroEntries (f : ℕ → Desc) : ℕ → Desc := (List.range 512).foldl (fun f e => Function.update f e 0) f

/-- The size of the alias window, `vspan64`. -/
def aliasSpan (smpN span : ℕ) : ℕ :=
  let smpN := if smpN = 0 then 2 else smpN
  let reserve := 0x200000 + smpN * 65536
  let half := span / 2
  let usable := if reserve < half then half - reserve else 0
  if 8 * 2^30 < usable then 8 * 2^30 else usable

def clearAlias (t : BootTables) : BootTables :=
  (List.range 8).foldl (fun t i =>
    { t with
      l2Rts := Function.update t.l2Rts i (zeroEntries (t.l2Rts i))
      l1Rts := Function.update t.l1Rts i 0
      l1Low := Function.update t.l1Low (264 + i) 0 }) t

def linkAlias (p : BootPlaces) (n : ℕ) (t : BootTables) : BootTables :=
  (List.range n).foldl (fun t i =>
    let l1Rts := Function.update t.l1Rts i (pteTable (p.l2Rts + 4096*i))
    { t with l1Rts := l1Rts, l1Low := Function.update t.l1Low (264 + i) (l1Rts i) }) t

/-- The loop over the window, from `off` on. -/
def fillAlias (pa vspan off : ℕ) (t : BootTables) : BootTables :=
  if off < vspan then
    let i := off / 2^30
    let e := off / 2^21 % 512
    fillAlias pa vspan (off + 2^21)
      { t with l2Rts := Function.update t.l2Rts i (Function.update (t.l2Rts i) e (pteBlock 0 (pa + off))) }
  else t
termination_by vspan - off
decreasing_by omega

def aliasTables (vspan : ℕ) : ℕ :=
  let n := (vspan + (2^30 - 1)) / 2^30
  if 8 < n then 8 else n

def buildRtsAlias (p : BootPlaces) (smpN span : ℕ) (t : BootTables) : BootTables :=
  let vspan := aliasSpan smpN span
  fillAlias (ramBase + span / 2) vspan 0 (linkAlias p (aliasTables vspan) (clearAlias t))

/-- The loop over the blocks of RAM, from `i` on. -/
def mapRam (blocks i : ℕ) (t : BootTables) : BootTables :=
  if i ≤ blocks ∧ i < 256 then mapRam blocks (i + 1) (t.mapBlock i 0) else t
termination_by 256 - i

def houseMmuEarly (p : BootPlaces) (ramBytes smpN : ℕ) (t : BootTables) : BootTables :=
  let span := if ramBytes = 0 then 4 * 2^30 else ramBytes
  let t := mapRam ((span + (2^30 - 1)) / 2^30) 1 (t.mapBlock 0 1)
  let t := buildRtsAlias p smpN span t
  { t with
    ttbr0L0 := Function.update (zeroEntries t.ttbr0L0) 0 (pteTable p.l1Low)
    ttbr1L0 := Function.update (zeroEntries t.ttbr1L0) 0 (pteTable p.l1Low) }

def BootTables.extendBlock (t : BootTables) (idx : ℕ) : BootTables := if t.l1Low idx = 0 then t.mapBlock idx 0 else t

/-- The loop over the blocks of RAM that maps those that the early boot has not. -/
def extendRam (blocks i : ℕ) (t : BootTables) : BootTables :=
  if i ≤ blocks ∧ i < 256 then extendRam blocks (i + 1) (t.extendBlock i) else t
termination_by 256 - i

def extendRamBlocks (ramBytes : ℕ) (t : BootTables) : BootTables :=
  let span := if ramBytes = 0 then 4 * 2^30 else ramBytes
  extendRam ((span + (2^30 - 1)) / 2^30) 1 t

/-- The loop over the blocks behind RAM. -/
def trimRam (blocks : ℕ) (t : BootTables) : BootTables :=
  (List.range (256 - (blocks + 1))).foldl (fun t k =>
    let idx := blocks + 1 + k
    let d := t.l1Low idx
    if d &&& 1 ≠ 0 ∧ d &&& 2 = 0 then { t with l1Low := Function.update t.l1Low idx 0 } else t) t

def trimRamBlocks (ramBytes : ℕ) (t : BootTables) : BootTables :=
  let span := if ramBytes = 0 then 4 * 2^30 else ramBytes
  trimRam ((span + (2^30 - 1)) / 2^30) t

def houseMmuUpdateAlias (p : BootPlaces) (ramBytes smpN : ℕ) (t : BootTables) : BootTables :=
  buildRtsAlias p smpN ramBytes (trimRamBlocks ramBytes (extendRamBlocks ramBytes t))

/-- What `c_start` goes on with. Both steps run before the cores are counted, while `house_smp_n` is 2. -/
def bootTables (p : BootPlaces) (ramBytes : ℕ) : BootTables :=
  houseMmuUpdateAlias p ramBytes 2 (houseMmuEarly p 0 2 .bss)

/-- A memory with the tables in it. -/
structure BootPlaces.Shows (p : BootPlaces) (t : BootTables) (mem : ℕ → Desc) : Prop where
  l1Low : ∀ i < 512, mem (p.l1Low + 8*i) = t.l1Low i
  l2Rts : ∀ k < 8, ∀ e < 512, mem (p.l2Rts + 4096*k + 8*e) = t.l2Rts k e
  ttbr0L0 : ∀ i < 512, mem (p.ttbr0L0 + 8*i) = t.ttbr0L0 i
  ttbr1L0 : ∀ i < 512, mem (p.ttbr1L0 + 8*i) = t.ttbr1L0 i

/-- Attributes of the kernel's own blocks, for RAM and for devices. -/
def normalAttrs : Desc := 0x700

def deviceAttrs : Desc := 0x704

/-- The address space of the boot: devices in the first GiB, RAM in place, and the upper half of RAM once more in the
alias window. -/
def bootMap (ramBytes va : ℕ) : Option Translation :=
  let gib := va / 2^30
  if gib = 0 then some ⟨va, deviceAttrs⟩
  else if gib ≤ (ramBytes + (2^30 - 1)) / 2^30 ∧ gib < 256 then some ⟨va, normalAttrs⟩
  else if rtsAliasBase ≤ va ∧ (va - rtsAliasBase) / 2^21 * 2^21 < aliasSpan 2 ramBytes then
    some ⟨(ramBase + ramBytes / 2) / 2^21 * 2^21 + (va - rtsAliasBase), normalAttrs⟩
  else none

section Detection

variable {dtbRam probed : ℕ}

lemma boundRam_range (ram : ℕ) : boundRam ram % 2^21 = 0 ∧ 2^22 ≤ boundRam ram ∧ boundRam ram ≤ 256 * 2^30 := by
  obtain ⟨clamped, hclamp, hbound⟩ : ∃ clamped ≤ 256 * 2^30, boundRam ram =
      if clamped / 0x200000 * 0x200000 ≤ 0x200000 then 512 * 2^20 else clamped / 0x200000 * 0x200000 := by
    refine ⟨if houseRamTcrMax < ram then houseRamTcrMax else ram, ?_, rfl⟩
    split_ifs with h
    · exact le_rfl
    · exact not_lt.mp h
  rw [hbound]
  split_ifs <;> omega

/-- Whole blocks of 2 MiB, and more than the one that is kept free. -/
theorem houseDetectEarly_ram : (houseDetectEarly dtbRam probed).ramBytes % 2^21 = 0 ∧
    2^22 ≤ (houseDetectEarly dtbRam probed).ramBytes ∧ (houseDetectEarly dtbRam probed).ramBytes ≤ 256 * 2^30 :=
  boundRam_range _

theorem houseDetectEarly_top : (houseDetectEarly dtbRam probed).bootStackTop =
    ramBase + (houseDetectEarly dtbRam probed).ramBytes - 2^21 := rfl

theorem houseDetectLate_range (dtbSmp psci gicr : ℤ) :
    1 ≤ houseDetectLate dtbSmp psci gicr ∧ houseDetectLate dtbSmp psci gicr ≤ 32 := by
  simp only [houseDetectLate, houseHwSmpMax]
  split_ifs <;> omega

end Detection

section Descriptors

variable {attr : Desc} {addr idx k va : ℕ}

lemma pteTable_eq (ha : addr % 4096 = 0) (hb : addr < 2^48) : pteTable addr = descFromTable addr := by
  rw [pteTable, descFromTable, mAddress_ofNat ha hb, BitVec.or_comm]
  rfl

lemma hwTable_pteTable (ha : addr % 4096 = 0) (hb : addr < 2^48) : hwTable (pteTable addr) = some addr := by
  rw [pteTable_eq ha hb, hwTable_descFromTable ha hb]

lemma mapBlock_eq (idx : ℕ) (attr : Desc) : mapBlock idx attr = pteBlock attr (idx * 2^30) := by
  have hshift : BitVec.ofNat 64 idx <<< 30 = BitVec.ofNat 64 (idx * 2^30) := by
    apply BitVec.eq_of_toNat_eq
    rw [BitVec.toNat_shiftLeft, BitVec.toNat_ofNat, BitVec.toNat_ofNat, Nat.shiftLeft_eq]
    omega
  rw [mapBlock, pteBlock, hshift]

/-- The bits of a block outside its address. -/
lemma pteBlock_and {mask : Desc} (ha : addr % 4096 = 0) (hb : addr < 2^48) (h : mAddress &&& mask = 0#64) :
    pteBlock attr addr &&& mask = (1#64 ||| 1#64 <<< 10 ||| 3#64 <<< 8 ||| attr <<< 2) &&& mask := by
  have hzero : BitVec.ofNat 64 addr &&& mask = 0#64 := by
    rw [← mAddress_ofNat ha hb, BitVec.and_assoc, h, BitVec.and_zero]
  rw [pteBlock, BitVec.and_or_distrib_right, hzero, BitVec.or_zero]

lemma pteBlock_address (hattr : attr = 0 ∨ attr = 1) (ha : addr % 4096 = 0) (hb : addr < 2^48) :
    (pteBlock attr addr &&& mAddress).toNat = addr := by
  have hflags : (1#64 ||| 1#64 <<< 10 ||| 3#64 <<< 8 ||| attr <<< 2) &&& mAddress = 0#64 := by
    obtain rfl | rfl := hattr <;> decide
  rw [pteBlock, BitVec.and_or_distrib_right, hflags, BitVec.zero_or, mAddress_ofNat ha hb, BitVec.toNat_ofNat]
  omega

/-- What the hardware makes of a block. -/
lemma output_pteBlock (hattr : attr = 0 ∨ attr = 1) (ha : addr % 4096 = 0) (hb : addr < 2^48) (hk : k = 1 ∨ k = 2) :
    hwTable (pteBlock attr addr) = none ∧ output k (pteBlock attr addr) va =
      some ⟨addr / 2^(12 + 9*k) * 2^(12 + 9*k) + va % 2^(12 + 9*k), if attr = 0 then normalAttrs else deviceAttrs⟩ := by
  have htype : pteBlock attr addr &&& 3 = 1 := by
    rw [pteBlock_and ha hb (by decide)]
    obtain rfl | rfl := hattr <;> decide
  have hattrs : pteBlock attr addr &&& attrMask = if attr = 0 then normalAttrs else deviceAttrs := by
    rw [pteBlock_and ha hb (by decide)]
    obtain rfl | rfl := hattr <;> decide
  refine ⟨hwTable_block htype, ?_⟩
  rw [output, htype, if_pos, outputAddress, pteBlock_address hattr ha hb, hattrs]
  obtain rfl | rfl := hk <;> decide

lemma pteBlock_bits (hattr : attr = 0 ∨ attr = 1) (ha : addr % 4096 = 0) (hb : addr < 2^48) :
    pteBlock attr addr &&& 1 ≠ 0 ∧ pteBlock attr addr &&& 2 = 0 ∧ pteBlock attr addr ≠ 0 := by
  have hone : pteBlock attr addr &&& 1 ≠ 0 := by
    rw [pteBlock_and ha hb (by decide)]
    obtain rfl | rfl := hattr <;> decide
  refine ⟨hone, ?_, fun h => hone (by rw [h]; rfl)⟩
  rw [pteBlock_and ha hb (by decide)]
  obtain rfl | rfl := hattr <;> decide

end Descriptors

section Arrays

variable {p : BootPlaces} {t : BootTables} {n i j k e blocks smpN span pa vspan off ramBytes : ℕ}

lemma foldl_keeps {β : Type*} (g : BootTables → β) {step : BootTables → ℕ → BootTables}
    (h : ∀ t i, g (step t i) = g t) {l : List ℕ} : g (l.foldl step t) = g t := by
  induction l generalizing t with
  | nil => rfl
  | cons i l ih => rw [List.foldl_cons, ih, h]

lemma zeroEntries_apply {f : ℕ → Desc} : zeroEntries f e = if e < 512 then 0 else f e := by
  simpa [zeroEntries] using foldl_update_range (fun _ _ => 0) f 0 512 e

lemma clearAlias_l1Low : (clearAlias t).l1Low j = if 264 ≤ j ∧ j < 264 + 8 then 0 else t.l1Low j := by
  have hfold : (clearAlias t).l1Low = (List.range 8).foldl (fun f i => Function.update f (264 + i) 0) t.l1Low :=
    (List.foldl_hom BootTables.l1Low fun _ _ => rfl).symm
  rw [hfold, foldl_update_range fun _ _ => 0]

lemma clearAlias_l2Rts (hk : k < 8) (he : e < 512) : (clearAlias t).l2Rts k e = 0 := by
  have hfold : (clearAlias t).l2Rts = (List.range 8).foldl (fun f i => Function.update f (0 + i) (zeroEntries (f (0 + i))))
      t.l2Rts := by
    simp only [Nat.zero_add]
    exact (List.foldl_hom BootTables.l2Rts fun _ _ => rfl).symm
  rw [hfold, foldl_update_range fun _ => zeroEntries, if_pos (by omega), zeroEntries_apply, if_pos he]

lemma linkAlias_l1Low : (linkAlias p n t).l1Low j =
    if 264 ≤ j ∧ j < 264 + n then pteTable (p.l2Rts + 4096*(j - 264)) else t.l1Low j := by
  have hfold : (linkAlias p n t).l1Low =
      (List.range n).foldl (fun f i => Function.update f (264 + i) (pteTable (p.l2Rts + 4096*i))) t.l1Low :=
    (List.foldl_hom BootTables.l1Low fun _ _ => by simp).symm
  rw [hfold, foldl_update_range fun i _ => pteTable (p.l2Rts + 4096*i)]

lemma linkAlias_l2Rts : (linkAlias p n t).l2Rts = t.l2Rts := by
  unfold linkAlias
  refine foldl_keeps BootTables.l2Rts fun _ _ => ?_
  rfl

/-- The loop over the window writes the second-level tables only, one entry a round. -/
lemma fillAlias_spec : (fillAlias pa vspan off t).l1Low = t.l1Low ∧ (off % 2^21 = 0 → e < 512 →
    (fillAlias pa vspan off t).l2Rts k e = if off ≤ (512*k + e)*2^21 ∧ (512*k + e)*2^21 < vspan
      then pteBlock 0 (pa + (512*k + e)*2^21) else t.l2Rts k e) := by
  fun_induction fillAlias pa vspan off t with
  | case1 off t hlt i e' ih =>
    refine ⟨ih.1, fun hoff he => ?_⟩
    rw [ih.2 (by omega) he]
    obtain rfl | hne := eq_or_ne off ((512*k + e)*2^21)
    · rw [if_neg (by omega), if_pos ⟨le_rfl, hlt⟩]
      have hi : i = k := by simp only [i]; omega
      have he' : e' = e := by simp only [e']; omega
      rw [hi, he']
      dsimp only
      rw [Function.update_self, Function.update_self]
    · have hother : Function.update t.l2Rts i (Function.update (t.l2Rts i) e' (pteBlock 0 (pa + off))) k e = t.l2Rts k e := by
        obtain rfl | hki := eq_or_ne k i
        · rw [Function.update_self, Function.update_of_ne]
          simp only [i, e'] at *
          omega
        · rw [Function.update_of_ne hki]
      dsimp only
      rw [hother]
      congr 1
      simp only [eq_iff_iff]
      omega
  | case2 off t hge => exact ⟨rfl, fun _ _ => (if_neg (by omega)).symm⟩

lemma aliasSpan_le : aliasSpan smpN span ≤ 8 * 2^30 := by
  simp only [aliasSpan]
  split_ifs <;> omega

lemma aliasTables_le : aliasTables vspan ≤ 8 := by
  simp only [aliasTables]
  split_ifs <;> omega

lemma buildRtsAlias_l1Low : (buildRtsAlias p smpN span t).l1Low j =
    if 264 ≤ j ∧ j < 264 + aliasTables (aliasSpan smpN span) then pteTable (p.l2Rts + 4096*(j - 264))
    else if 264 ≤ j ∧ j < 264 + 8 then 0 else t.l1Low j := by
  rw [buildRtsAlias, (fillAlias_spec (k := 0) (e := 0)).1, linkAlias_l1Low, clearAlias_l1Low]

lemma buildRtsAlias_l2Rts (hk : k < 8) (he : e < 512) : (buildRtsAlias p smpN span t).l2Rts k e =
    if (512*k + e)*2^21 < aliasSpan smpN span then pteBlock 0 (ramBase + span/2 + (512*k + e)*2^21) else 0 := by
  rw [buildRtsAlias, fillAlias_spec.2 rfl he, linkAlias_l2Rts, clearAlias_l2Rts hk he]
  simp only [Nat.zero_le, true_and]

lemma mapRam_l1Low : (mapRam blocks i t).l1Low j =
    if i ≤ j ∧ j ≤ blocks ∧ j < 256 then mapBlock j 0 else t.l1Low j := by
  fun_induction mapRam blocks i t with
  | case1 i t hlt ih =>
    rw [ih]
    obtain rfl | hne := eq_or_ne j i
    · rw [if_neg (by omega), if_pos ⟨le_rfl, hlt⟩]
      exact Function.update_self ..
    · have hother : (t.mapBlock i 0).l1Low j = t.l1Low j := Function.update_of_ne hne ..
      rw [hother]
      congr 1
      simp only [eq_iff_iff]
      omega
  | case2 i t hge => rw [if_neg (by omega)]

lemma extendRam_l1Low : (extendRam blocks i t).l1Low j =
    if (i ≤ j ∧ j ≤ blocks ∧ j < 256) ∧ t.l1Low j = 0 then mapBlock j 0 else t.l1Low j := by
  fun_induction extendRam blocks i t with
  | case1 i t hlt ih =>
    rw [ih]
    obtain rfl | hne := eq_or_ne j i
    · rw [if_neg (by omega), BootTables.extendBlock]
      split_ifs with hzero hpos hneg
      · exact Function.update_self ..
      · exact absurd ⟨⟨le_rfl, hlt⟩, hzero⟩ hpos
      · exact absurd hneg.2 hzero
      · rfl
    · have hother : (t.extendBlock i).l1Low j = t.l1Low j := by
        rw [BootTables.extendBlock]
        split_ifs
        · exact Function.update_of_ne hne ..
        · rfl
      rw [hother]
      congr 1
      simp only [eq_iff_iff, and_congr_left_iff]
      omega
  | case2 i t hge => rw [if_neg (by omega)]

lemma trimRam_l1Low : (trimRam blocks t).l1Low j =
    if (blocks < j ∧ j < 256) ∧ t.l1Low j &&& 1 ≠ 0 ∧ t.l1Low j &&& 2 = 0 then 0 else t.l1Low j := by
  have hfold : (trimRam blocks t).l1Low = (List.range (256 - (blocks + 1))).foldl (fun f k =>
      Function.update f (blocks + 1 + k) (if f (blocks + 1 + k) &&& 1 ≠ 0 ∧ f (blocks + 1 + k) &&& 2 = 0
        then 0 else f (blocks + 1 + k))) t.l1Low := by
    refine (List.foldl_hom BootTables.l1Low fun t k => ?_).symm
    dsimp only
    split_ifs
    · rfl
    · exact Function.update_eq_self ..
  have hrange : (blocks + 1 ≤ j ∧ j < blocks + 1 + (256 - (blocks + 1))) ↔ blocks < j ∧ j < 256 := by omega
  rw [hfold, foldl_update_range fun _ d => if d &&& 1 ≠ 0 ∧ d &&& 2 = 0 then 0 else d]
  simp only [hrange]
  split_ifs with hj hd hboth hboth hboth
  · rfl
  · exact absurd ⟨hj, hd⟩ hboth
  · exact absurd hboth.2 hd
  · rfl
  · exact absurd hboth.1 hj
  · rfl

end Arrays

/-- The tables that the two registers point to. -/
def BootTables.roots (t : BootTables) : (ℕ → Desc) × (ℕ → Desc) := (t.ttbr0L0, t.ttbr1L0)

section Roots

variable {p : BootPlaces} {t : BootTables} {i blocks smpN ramBytes pa vspan off : ℕ}

lemma fillAlias_roots : (fillAlias pa vspan off t).roots = t.roots := by
  fun_induction fillAlias pa vspan off t with
  | case1 off t hlt i e ih => exact ih
  | case2 off t hge => rfl

lemma extendRam_roots : (extendRam blocks i t).roots = t.roots := by
  fun_induction extendRam blocks i t with
  | case1 i t hlt ih =>
    rw [ih, BootTables.extendBlock]
    split_ifs <;> rfl
  | case2 i t hge => rfl

lemma clearAlias_roots : (clearAlias t).roots = t.roots := by
  unfold clearAlias
  refine foldl_keeps BootTables.roots fun _ _ => ?_
  rfl

lemma linkAlias_roots {n : ℕ} : (linkAlias p n t).roots = t.roots := by
  unfold linkAlias
  refine foldl_keeps BootTables.roots fun _ _ => ?_
  rfl

lemma trimRam_roots : (trimRam blocks t).roots = t.roots := by
  unfold trimRam
  refine foldl_keeps BootTables.roots fun _ _ => ?_
  dsimp only
  split_ifs <;> rfl

/-- Nothing but the early boot writes the roots. -/
theorem houseMmuUpdateAlias_roots : (houseMmuUpdateAlias p ramBytes smpN t).roots = t.roots := by
  rw [houseMmuUpdateAlias, buildRtsAlias, fillAlias_roots, linkAlias_roots, clearAlias_roots, trimRamBlocks, trimRam_roots,
    extendRamBlocks, extendRam_roots]

end Roots

section Boot

variable {p : BootPlaces} {ramBytes i j k e : ℕ}

lemma bootTables_roots (hi : i < 512) : (bootTables p ramBytes).ttbr0L0 i = (if i = 0 then pteTable p.l1Low else 0) ∧
    (bootTables p ramBytes).ttbr1L0 i = if i = 0 then pteTable p.l1Low else 0 := by
  have hroots := @houseMmuUpdateAlias_roots p (houseMmuEarly p 0 2 .bss) 2 ramBytes
  obtain ⟨h0, h1⟩ := Prod.mk.inj hroots
  rw [bootTables, h0, h1]
  simp only [houseMmuEarly, Function.update_apply, zeroEntries_apply, if_pos hi, and_self]

lemma bootTables_l2Rts (hk : k < 8) (he : e < 512) : (bootTables p ramBytes).l2Rts k e =
    if (512*k + e)*2^21 < aliasSpan 2 ramBytes then pteBlock 0 (ramBase + ramBytes/2 + (512*k + e)*2^21) else 0 :=
  buildRtsAlias_l2Rts hk he

lemma aliasTables_eq : aliasTables (aliasSpan 2 ramBytes) = (aliasSpan 2 ramBytes + (2^30 - 1)) / 2^30 :=
  if_neg (by have := @aliasSpan_le 2 ramBytes; omega)

lemma aliasSpan_two : aliasSpan 2 span = min (span/2 - 0x220000) (8 * 2^30) := by
  simp only [aliasSpan]
  generalize span / 2 = half
  split_ifs <;> omega

/-- The window of the tables, made for two cores, reaches to the 2 MiB block in which the window for `cores` ends. -/
lemma aliasSpan_covers {cores d : ℕ} (hram : ramBytes % 2^21 = 0) (hone : 1 ≤ cores)
    (hd : d < min (ramBytes/2 - (0x200000 + cores * 65536)) (8 * 2^30)) : d / 2^21 * 2^21 < aliasSpan 2 ramBytes := by
  rw [aliasSpan_two]
  omega

/-- Blocks for 4 GiB, and two tables of the window, before the size is known. -/
lemma houseMmuEarly_l1Low : (houseMmuEarly p 0 2 .bss).l1Low j = l1Boot 4 2 p.l2Rts j := by
  have htables : aliasTables (aliasSpan 2 (4 * 2^30)) = 2 := by decide
  have hblocks : (4 * 2^30 + (2^30 - 1)) / 2^30 = 4 := by norm_num
  have hbss : (BootTables.bss.mapBlock 0 1).l1Low j = if j = 0 then mapBlock 0 1 else 0 := Function.update_apply ..
  have hearly : (houseMmuEarly p 0 2 .bss).l1Low j =
      (buildRtsAlias p 2 (4 * 2^30) (mapRam ((4 * 2^30 + (2^30 - 1)) / 2^30) 1 (BootTables.bss.mapBlock 0 1))).l1Low j := rfl
  rw [hearly, buildRtsAlias_l1Low, htables, hblocks, mapRam_l1Low, hbss, l1Boot]
  split_ifs <;> first | rfl | omega

lemma l1Boot_ram {blocks tables a : ℕ} (hj : 0 < j) (hlow : j < 256) :
    l1Boot blocks tables a j = if j ≤ blocks then mapBlock j 0 else 0 := by
  rw [l1Boot]
  split_ifs <;> first | rfl | omega

lemma l1Boot_window {blocks tables a : ℕ} (hhigh : 256 ≤ j) : l1Boot blocks tables a j =
    if 264 ≤ j ∧ j < 264 + tables then pteTable (a + 4096*(j - 264)) else 0 := by
  rw [l1Boot, if_neg (by omega), if_neg (by omega)]
  rfl

/-- Blocks for any number of GiB become blocks for `blocks` of them. -/
lemma trimRam_extendRam {t : BootTables} {blocks known : ℕ} (hj : 0 < j) (hlow : j < 256)
    (hknown : t.l1Low j = if j ≤ known then mapBlock j 0 else 0) :
    (trimRam blocks (extendRam blocks 1 t)).l1Low j = if j ≤ blocks then mapBlock j 0 else 0 := by
  obtain ⟨hone, htwo, hne⟩ := @pteBlock_bits 0 (j * 2^30) (.inl rfl) (by omega) (by omega)
  rw [← mapBlock_eq] at hone htwo hne
  rw [trimRam_l1Low]
  by_cases hb : j ≤ blocks
  · have hmapped : (extendRam blocks 1 t).l1Low j = mapBlock j 0 := by
      rw [extendRam_l1Low, hknown]
      by_cases hold : j ≤ known
      · rw [if_pos hold, if_neg fun h => hne h.2]
      · rw [if_neg hold, if_pos ⟨⟨hj, hb, hlow⟩, rfl⟩]
    rw [hmapped, if_neg (by omega), if_pos hb]
  · have hkept : (extendRam blocks 1 t).l1Low j = t.l1Low j := by
      rw [extendRam_l1Low, if_neg (by omega)]
    rw [hkept, hknown, if_neg hb]
    by_cases hold : j ≤ known
    · rw [if_pos hold, if_pos ⟨⟨by omega, hlow⟩, hone, htwo⟩]
    · rw [if_neg hold, ite_self]

lemma trimRam_extendRam_window {t : BootTables} {blocks : ℕ} (hhigh : 256 ≤ j) :
    (trimRam blocks (extendRam blocks 1 t)).l1Low j = t.l1Low j := by
  rw [trimRam_l1Low, if_neg (by omega), extendRam_l1Low, if_neg (by omega)]

/-- The kernel's table has a block for each GiB that is known to be RAM, and no other. -/
theorem bootTables_l1Low (hpos : 0 < ramBytes) : (bootTables p ramBytes).l1Low =
    l1Boot ((ramBytes + (2^30 - 1)) / 2^30) (aliasTables (aliasSpan 2 ramBytes)) p.l2Rts := by
  funext j
  have htables := @aliasTables_le (aliasSpan 2 ramBytes)
  rw [bootTables, houseMmuUpdateAlias, buildRtsAlias_l1Low, trimRamBlocks, if_neg hpos.ne', extendRamBlocks, if_neg hpos.ne']
  generalize (ramBytes + (2^30 - 1)) / 2^30 = blocks
  generalize aliasTables (aliasSpan 2 ramBytes) = tables at htables ⊢
  obtain rfl | hj := Nat.eq_zero_or_pos j
  · rw [if_neg (by omega), if_neg (by omega), trimRam_l1Low, if_neg (by omega), extendRam_l1Low, if_neg (by omega),
      houseMmuEarly_l1Low, l1Boot, if_pos rfl, l1Boot, if_pos rfl]
  obtain hlow | hhigh := Nat.lt_or_ge j 256
  · rw [if_neg (by omega), if_neg (by omega), l1Boot_ram hj hlow]
    exact trimRam_extendRam hj hlow (houseMmuEarly_l1Low.trans (l1Boot_ram hj hlow))
  · rw [trimRam_extendRam_window hhigh, houseMmuEarly_l1Low, l1Boot_window hhigh, l1Boot_window hhigh]
    split_ifs <;> first | rfl | omega

end Boot

section Translation

variable {p : BootPlaces} {m : Memory} {r ramBytes va k slot c : ℕ}

lemma translateSlot_table {mem : ℕ → Desc} (h : hwTable (mem slot) = some c) :
    translateSlot mem (k+1) slot va = translateSlot mem k (c + 8*indexAt k va) va := by rw [translateSlot, h]

lemma translateSlot_block {mem : ℕ → Desc} (h : hwTable (mem slot) = none) :
    translateSlot mem (k+1) slot va = output (k+1) (mem slot) va := by rw [translateSlot, h]

/-- A block of the kernel's table maps its GiB in place. -/
lemma translateSlot_mapBlock {mem : ℕ → Desc} {idx : ℕ} {attr : Desc} (hattr : attr = 0 ∨ attr = 1) (hidx : idx < 256)
    (hslot : mem slot = mapBlock idx attr) : translateSlot mem 2 slot va =
      some ⟨idx * 2^30 + va % 2^30, if attr = 0 then normalAttrs else deviceAttrs⟩ := by
  obtain ⟨hblock, hout⟩ := @output_pteBlock attr (idx * 2^30) 2 va hattr (by omega) (by omega) (.inr rfl)
  rw [← mapBlock_eq, ← hslot] at hblock hout
  rw [translateSlot_block hblock, hout, Nat.mul_div_cancel _ (by norm_num)]

lemma rtsAliasBase_eq : rtsAliasBase = 264 * 2^30 := by decide

lemma window_offset {v : ℕ} (hv : 264 * 2^30 ≤ v) : (v - 264 * 2^30) / 2^21 * 2^21 + v % 2^21 = v - 264 * 2^30 := by omega

/-- The table of the alias window for GiB `k` of it. -/
lemma BootPlaces.Shows.window (hm : p.Shows (bootTables p ramBytes) m.mem) (hram : ramBytes % 2^21 = 0)
    (hle : ramBytes ≤ 256 * 2^30) (hk : k < 8) (hslot : m.mem slot = pteTable (p.l2Rts + 4096*k)) :
    translateSlot m.mem 2 slot va = if (512*k + indexAt 1 va)*2^21 < aliasSpan 2 ramBytes then
      some ⟨(ramBase + ramBytes/2) / 2^21 * 2^21 + (512*k + indexAt 1 va)*2^21 + va % 2^21, normalAttrs⟩ else none := by
  have hpage := p.l2Rts_page
  have hend := p.l2Rts_le
  have htable : hwTable (m.mem slot) = some (p.l2Rts + 4096*k) := by
    rw [hslot]
    exact hwTable_pteTable (by omega) (by omega)
  have he := indexAt_lt 1 va
  have hentry := hm.l2Rts k hk _ he
  rw [bootTables_l2Rts hk he] at hentry
  rw [translateSlot_table htable]
  split_ifs at hentry ⊢ with hin
  · generalize indexAt 1 va = e at he hentry hin ⊢
    obtain ⟨hblock, hout⟩ := @output_pteBlock 0 (ramBase + ramBytes/2 + (512*k + e)*2^21) 1 va (.inl rfl)
      (by unfold ramBase; omega) (by unfold ramBase; omega) (.inl rfl)
    rw [← hentry] at hblock hout
    rw [translateSlot_block hblock, hout, if_pos rfl, Nat.add_mul_div_right _ _ (by norm_num), Nat.add_mul]
  · rw [translateSlot_invalid (by rw [hentry]; rfl)]

/-- Translation from the kernel's table, of what its root sends there. -/
lemma BootPlaces.Shows.translate_l1Low (hm : p.Shows (bootTables p ramBytes) m.mem) (hram : ramBytes % 2^21 = 0)
    (hpos : 0 < ramBytes) (hle : ramBytes ≤ 256 * 2^30) (hlow : va % 2^48 < 2^39) :
    translateSlot m.mem 2 (p.l1Low + 8*indexAt 2 va) va = bootMap ramBytes (va % 2^48) := by
  have hspan := @aliasSpan_le 2 ramBytes
  have hg : indexAt 2 va = va % 2^48 / 2^30 := by
    rw [indexAt]
    omega
  have he : indexAt 1 va = va % 2^48 / 2^21 % 512 := by
    rw [indexAt]
    omega
  have hslot := hm.l1Low _ (indexAt_lt 2 va)
  rw [bootTables_l1Low hpos, hg, l1Boot, aliasTables_eq] at hslot
  rw [hg, bootMap]
  have h30 : va % 2^30 = va % 2^48 % 2^30 := by omega
  have h21 : va % 2^21 = va % 2^48 % 2^21 := by omega
  generalize hv : va % 2^48 = v at *
  split_ifs at hslot with hdev hblock hwindow
  · rw [translateSlot_mapBlock (.inr rfl) (by norm_num) hslot, if_pos hdev, if_neg (by decide), h30]
    congr 2
    omega
  · rw [translateSlot_mapBlock (.inl rfl) hblock.2 hslot, if_neg hdev, if_pos hblock, if_pos rfl, h30]
    congr 2
    omega
  · rw [hm.window hram hle (by omega) hslot, if_neg hdev, if_neg hblock, he, h21, rtsAliasBase_eq]
    have hoff : (512*(v / 2^30 - 264) + v / 2^21 % 512)*2^21 = (v - 264 * 2^30) / 2^21 * 2^21 := by omega
    rw [hoff]
    by_cases hin : (v - 264 * 2^30) / 2^21 * 2^21 < aliasSpan 2 ramBytes
    · rw [if_pos hin, if_pos ⟨by omega, hin⟩, Nat.add_assoc, window_offset (by omega)]
    · rw [if_neg hin, if_neg fun h => hin h.2]
  · have hout : ¬ (rtsAliasBase ≤ v ∧ (v - rtsAliasBase) / 2^21 * 2^21 < aliasSpan 2 ramBytes) := by
      rw [rtsAliasBase_eq]
      omega
    rw [translateSlot_invalid (by rw [hslot]; rfl), if_neg hdev, if_neg hblock, if_neg hout]

/-- Translation from a root that has the kernel's table in its first slot and nothing else. -/
theorem BootPlaces.Shows.translate_root (hm : p.Shows (bootTables p ramBytes) m.mem) (hram : ramBytes % 2^21 = 0)
    (hpos : 0 < ramBytes) (hle : ramBytes ≤ 256 * 2^30)
    (hroot : ∀ i < 512, m.mem (r + 8*i) = if i = 0 then pteTable p.l1Low else 0) :
    translate m r va = bootMap ramBytes (va % 2^48) := by
  have htop := hroot _ (indexAt_lt 3 va)
  rw [translate]
  by_cases h0 : indexAt 3 va = 0
  · have hlow : va % 2^48 < 2^39 := by
      rw [indexAt] at h0
      omega
    have htable : hwTable (m.mem (r + 8*indexAt 3 va)) = some p.l1Low := by
      rw [htop, if_pos h0]
      exact hwTable_pteTable p.l1Low_page p.l1Low_lt
    rw [translateSlot_table htable, hm.translate_l1Low hram hpos hle hlow]
  · have hhigh : 2^39 ≤ va % 2^48 := by
      rw [indexAt] at h0
      omega
    rw [if_neg h0] at htop
    have hspan := @aliasSpan_le 2 ramBytes
    rw [translateSlot_invalid (by rw [htop]; rfl), bootMap, rtsAliasBase_eq, if_neg (by omega), if_neg (by omega),
      if_neg (by omega)]

/-- Both roots. -/
theorem BootPlaces.Shows.translate_detected {dtbRam probed : ℕ}
    (hm : p.Shows (bootTables p (houseDetectEarly dtbRam probed).ramBytes) m.mem) (hr : r = p.ttbr0L0 ∨ r = p.ttbr1L0) :
    translate m r va = bootMap (houseDetectEarly dtbRam probed).ramBytes (va % 2^48) := by
  obtain ⟨hram, hpos, hle⟩ := @houseDetectEarly_ram dtbRam probed
  refine hm.translate_root hram (by omega) hle fun i hi => ?_
  obtain rfl | rfl := hr
  · rw [hm.ttbr0L0 i hi, (bootTables_roots hi).1]
  · rw [hm.ttbr1L0 i hi, (bootTables_roots hi).2]

end Translation

section Booted

variable {p : BootPlaces} {m : Memory} {dtbRam probed : ℕ}

/-- A memory with the tables in it and nothing else. -/
def BootPlaces.put (p : BootPlaces) (t : BootTables) (a : ℕ) : Desc :=
  if p.l1Low ≤ a ∧ a < p.l1Low + 4096 then t.l1Low ((a - p.l1Low) / 8)
  else if p.l2Rts ≤ a ∧ a < p.l2Rts + 4096*8 then t.l2Rts ((a - p.l2Rts) / 4096) ((a - p.l2Rts) % 4096 / 8)
  else if p.ttbr0L0 ≤ a ∧ a < p.ttbr0L0 + 4096 then t.ttbr0L0 ((a - p.ttbr0L0) / 8)
  else t.ttbr1L0 ((a - p.ttbr1L0) / 8)

def samplePlaces : BootPlaces where
  l1Low := 0x40301000
  l2Rts := 0x40308000
  ttbr0L0 := 0x40310000
  ttbr1L0 := 0x40311000
  l1Low_page := by decide
  l1Low_lt := by decide
  l2Rts_pos := by decide
  l2Rts_page := by decide
  l2Rts_le := by decide

lemma samplePlaces_shows (t : BootTables) : samplePlaces.Shows t (samplePlaces.put t) := by
  have hl1 : samplePlaces.l1Low = 0x40301000 := rfl
  have hl2 : samplePlaces.l2Rts = 0x40308000 := rfl
  have h0 : samplePlaces.ttbr0L0 = 0x40310000 := rfl
  have h1 : samplePlaces.ttbr1L0 = 0x40311000 := rfl
  refine ⟨fun i hi => ?_, fun k hk e he => ?_, fun i hi => ?_, fun i hi => ?_⟩
  · rw [BootPlaces.put, if_pos (by omega), Nat.add_sub_cancel_left, Nat.mul_div_cancel_left _ (by norm_num)]
  · rw [BootPlaces.put, if_neg (by omega), if_pos (by omega)]
    congr 1 <;> omega
  · rw [BootPlaces.put, if_neg (by omega), if_neg (by omega), if_pos (by omega), Nat.add_sub_cancel_left,
      Nat.mul_div_cancel_left _ (by norm_num)]
  · rw [BootPlaces.put, if_neg (by omega), if_neg (by omega), if_neg (by omega), Nat.add_sub_cancel_left,
      Nat.mul_div_cancel_left _ (by norm_num)]

/-- The memory of a machine after the boot. -/
def bootedMemory (dtbRam : ℕ) : Memory :=
  ⟨samplePlaces.put (bootTables samplePlaces (houseDetectEarly dtbRam 0).ramBytes), []⟩

/-- Whatever the machine reports of itself, the hardware translates with the boot tables as `bootMap` says, from either root
and for every address: devices in the first GiB, RAM in place, the upper half of RAM in the window, and nothing else. -/
theorem boot_translates (hm : p.Shows (bootTables p (houseDetectEarly dtbRam probed).ramBytes) m.mem) (va : ℕ) :
    translate m p.ttbr0L0 va = bootMap (houseDetectEarly dtbRam probed).ramBytes (va % 2^48) ∧
      translate m p.ttbr1L0 va = bootMap (houseDetectEarly dtbRam probed).ramBytes (va % 2^48) :=
  ⟨hm.translate_detected (.inl rfl), hm.translate_detected (.inr rfl)⟩

theorem boot_translates_sample :
    translate (bootedMemory 0x60000000) samplePlaces.ttbr0L0 0x70000123 = some ⟨0x70000123, normalAttrs⟩ :=
  (@boot_translates samplePlaces (bootedMemory 0x60000000) 0x60000000 0 (samplePlaces_shows _) 0x70000123).1.trans
    (by decide)

/-- A range of the window that `mmap` may commit is mapped from end to end, also when there turn out to be fewer cores than
the tables were made for, and the RAM behind it ends below the boot stacks of all the cores that there are. -/
theorem alias_committed {dtbSmp psci gicr : ℤ} {heapBase lo n a : ℕ}
    (hm : p.Shows (bootTables p (houseDetectEarly dtbRam probed).ramBytes) m.mem)
    (h : vmCommittable ⟨heapBase, (houseDetectEarly dtbRam probed).ramBytes, (houseDetectLate dtbSmp psci gicr).toNat⟩ lo n)
    (hlo : rtsAliasBase ≤ lo) (ha : lo ≤ a) (hn : a < lo + n) :
    ∃ pa, translate m p.ttbr0L0 a = some ⟨pa, normalAttrs⟩ ∧
      pa = (ramBase + (houseDetectEarly dtbRam probed).ramBytes / 2) / 2^21 * 2^21 + (a - rtsAliasBase) ∧
      pa < (houseDetectEarly dtbRam probed).bootStackTop - (houseDetectLate dtbSmp psci gicr).toNat * 65536 := by
  obtain ⟨hram, hpos, hle⟩ := @houseDetectEarly_ram dtbRam probed
  obtain ⟨hone, hmany⟩ := houseDetectLate_range dtbSmp psci gicr
  rw [houseDetectEarly_top, hm.translate_detected (.inl rfl)]
  generalize (houseDetectEarly dtbRam probed).ramBytes = ramBytes at *
  obtain ⟨cores, hcores⟩ : ∃ cores : ℕ, houseDetectLate dtbSmp psci gicr = cores := Int.eq_ofNat_of_zero_le (by omega)
  rw [hcores] at h hone hmany ⊢
  have hspan : lo + n ≤ rtsAliasBase + min (ramBytes/2 - (0x200000 + cores * 65536)) (8 * 2^30) := by
    simp only [vmCommittable, vmInUserWindow, vmInRam, decide_eq_true_eq, Int.toNat_natCast] at h
    rw [if_neg (by omega), if_neg (by omega)] at h
    rw [rtsAliasBase_eq] at h hlo ⊢
    unfold houseUserVaMin houseUserVaMax at h
    omega
  rw [rtsAliasBase_eq] at hspan hlo ⊢
  have hmod : a % 2^48 = a := by omega
  have hd : a - 264 * 2^30 < min (ramBytes/2 - (0x200000 + cores * 65536)) (8 * 2^30) := by omega
  have hin : 264 * 2^30 ≤ a ∧ (a - 264 * 2^30) / 2^21 * 2^21 < aliasSpan 2 ramBytes :=
    ⟨hlo.trans ha, aliasSpan_covers hram (by omega) hd⟩
  refine ⟨_, ?_, rfl, ?_⟩
  · rw [hmod, bootMap, rtsAliasBase_eq, if_neg (by omega), if_neg (by omega), if_pos hin]
  · unfold ramBase
    omega

/-- One core, where the tables were made for two. -/
theorem alias_committed_sample : ∃ pa, translate (bootedMemory 0x100000000) samplePlaces.ttbr0L0 0x4200000123 =
    some ⟨pa, normalAttrs⟩ ∧ pa = 0xC0000123 := by
  obtain ⟨pa, htranslate, hpa, -⟩ := @alias_committed samplePlaces (bootedMemory 0x100000000) 0x100000000 0 1 0 0 0x40400000
    0x4200000000 0x1000 0x4200000123 (samplePlaces_shows _) (by rfl) (by decide) (by decide) (by decide)
  exact ⟨pa, htranslate, hpa.trans (by rfl)⟩

/-- The stacks that `c_start` moves to the end of RAM are mapped in place exactly up to 255 GiB of RAM and the 2 MiB above
the stacks: the tables have blocks for 255 GiB, where the detection lets 256 pass. -/
theorem boot_stacks_mapped {cores : ℕ} (hm : p.Shows (bootTables p (houseDetectEarly dtbRam probed).ramBytes) m.mem)
    (hone : 1 ≤ cores) (hmany : cores ≤ 32) :
    (∀ a, (houseDetectEarly dtbRam probed).bootStackTop - cores * 65536 ≤ a →
      a < (houseDetectEarly dtbRam probed).bootStackTop →
      translate m p.ttbr0L0 a = some ⟨a, normalAttrs⟩) ↔
      (houseDetectEarly dtbRam probed).ramBytes ≤ 255 * 2^30 + 2^21 := by
  obtain ⟨hram, hpos, hle⟩ := @houseDetectEarly_ram dtbRam probed
  have htranslate : ∀ a, translate m p.ttbr0L0 a = bootMap (houseDetectEarly dtbRam probed).ramBytes (a % 2^48) :=
    fun a => hm.translate_detected (.inl rfl)
  simp only [htranslate]
  rw [houseDetectEarly_top]
  generalize (houseDetectEarly dtbRam probed).ramBytes = ramBytes at *
  unfold ramBase
  constructor
  · intro h
    by_contra hbig
    have hlast := h (0x40000000 + ramBytes - 2^21 - 1) (by omega) (by omega)
    rw [Nat.mod_eq_of_lt (by omega), bootMap, rtsAliasBase_eq, if_neg (by omega), if_neg (by omega),
      if_neg (by omega)] at hlast
    cases hlast
  · intro hsmall a hlow hhigh
    rw [Nat.mod_eq_of_lt (by omega), bootMap, if_neg (by omega), if_pos (by omega)]

theorem boot_stacks_mapped_sample : translate (bootedMemory 0x100000000) samplePlaces.ttbr0L0 0x13FDFFFF8 =
      some ⟨0x13FDFFFF8, normalAttrs⟩ ∧
    ¬ ∀ a, 0x403FE00000 - 2 * 65536 ≤ a → a < 0x403FE00000 →
      translate (bootedMemory 0x4000000000) samplePlaces.ttbr0L0 a = some ⟨a, normalAttrs⟩ :=
  ⟨(@boot_stacks_mapped samplePlaces (bootedMemory 0x100000000) 0x100000000 0 2 (samplePlaces_shows _) (by decide)
      (by decide)).mpr (by decide) 0x13FDFFFF8 (by decide) (by decide),
    fun h => absurd ((@boot_stacks_mapped samplePlaces (bootedMemory 0x4000000000) 0x4000000000 0 2 (samplePlaces_shows _)
      (by decide) (by decide)).mp h) (by decide)⟩

end Booted

end HouseKernel.VirtualMemory
