import Mathlib.Tactic

/-! Descriptors of the 4 KiB granule: pages, tables and the software marks of
`H.VirtualMemory`, with what each reader makes of what each writer wrote. -/
namespace HouseKernel.VirtualMemory

abbrev Desc := BitVec 64

def minVAddr : ℕ := 0x01000000
def maxVAddr : ℕ := 0x1000000000

structure PageInfo where
  physPage : BitVec 64
  /-- The user process has write access to the page. -/
  writable : Bool
  dirty : Bool
  accessed : Bool
  /-- Copy-on-write sharer; the hardware sees a read-only page. -/
  cow : Bool
  deriving DecidableEq, Repr

def bValid : ℕ := 0
def bAF : ℕ := 10
def bNG : ℕ := 11
def bSwDirty : ℕ := 55
def bSwAccessed : ℕ := 56
def bSwCow : ℕ := 57

def demandMagic : Desc := 0xDE#64 <<< 56
def demandMagicMask : Desc := 0xFF#64 <<< 56
def demandWritableBit : Desc := 1#64 <<< 1

/-- The marker of a page whose content is not yet there; Valid stays clear. -/
def demandDesc (writable : Bool) : Desc := demandMagic ||| if writable then demandWritableBit else 0

def isDemandDesc (d : Desc) : Bool := (d &&& 1) = 0 && (d &&& demandMagicMask) = demandMagic

def demandWritable (d : Desc) : Bool := (d &&& demandWritableBit) ≠ 0

/-- The output address, bits 12 to 47. -/
def mAddress : Desc := 0x0000FFFFFFFFF000

def tableFlag : Desc := 0x3
def pageFlag : Desc := 0x3
def attrNormal : Desc := 0#64 <<< 2
def shInner : Desc := 3#64 <<< 8
def apRW : Desc := 1#64 <<< 6
def apRO : Desc := 3#64 <<< 6

/-- A leaf that names device registers, never RAM. -/
def isDeviceDesc (d : Desc) : Bool := (d >>> 2) &&& 0x7 = 1

def descToPageInfo (d : Desc) : Option PageInfo :=
  if !d.getLsbD bValid then none
  else if isDeviceDesc d then none
  else some
    { physPage := d &&& mAddress
      writable := (d >>> 6) &&& 0x3 = 0x1
      dirty := d.getLsbD bSwDirty
      accessed := d.getLsbD bSwAccessed
      cow := d.getLsbD bSwCow }

def condBit (b : Bool) (i : ℕ) (d : Desc) : Desc := if b then d ||| 1#64 <<< i else d &&& ~~~(1#64 <<< i)

def pageInfoToDesc (pinfo : PageInfo) : Desc :=
  let base := (pinfo.physPage &&& mAddress) ||| pageFlag ||| 1#64 <<< bAF ||| shInner ||| 1#64 <<< bNG ||| attrNormal
  let apBits := if pinfo.writable then apRW else apRO
  let sw := condBit pinfo.dirty bSwDirty (condBit pinfo.accessed bSwAccessed (condBit pinfo.cow bSwCow 0))
  base ||| apBits ||| sw

/-- The pages that the allocators own. -/
structure Ram where
  minAddr : ℕ
  maxAddr : ℕ
  buddyStart : ℕ
  buddyEnd : ℕ
  bound : maxAddr ≤ 2^48 ∧ buddyEnd ≤ 2^48

def buddyContains (ram : Ram) (p : ℕ) : Bool :=
  p ≠ 0 && p % 4096 = 0 && ram.buddyStart ≤ p && p < ram.buddyEnd

def validPage (ram : Ram) (p : ℕ) : Bool :=
  (ram.minAddr ≤ p && p < ram.maxAddr && p % 4096 = 0) || (p % 4096 = 0 && buddyContains ram p)

/-- A descriptor of a table that the allocators own; never a block or a kernel table. -/
def userTable (ram : Ram) (d : Desc) : Option ℕ :=
  if d &&& 3 = 3 ∧ validPage ram (d &&& mAddress).toNat then some (d &&& mAddress).toNat else none

/-- What is fixed at boot: the RAM, and the kernel's L1 table that new address spaces clone.
Its entries are blocks, and above the user's range tables in kernel RAM. -/
structure Platform extends Ram where
  l1Low : ℕ → Desc
  kernelOwned : ∀ i, userTable toRam (l1Low i) = none
  blocks : ∀ i ≤ 64, l1Low i ≠ 0 → (l1Low i).getLsbD 0 = true ∧ (l1Low i).getLsbD 1 = false

def descFromTable (tbl : ℕ) : Desc := (BitVec.ofNat 64 tbl &&& mAddress) ||| tableFlag

/-- Any valid descriptor is taken for a table pointer. -/
def tableFromDesc (d : Desc) : Option ℕ :=
  if d.getLsbD bValid then some (d &&& mAddress).toNat else none

/-- The bits of a page descriptor outside its address. -/
def flagBits (writable dirty accessed cow : Bool) : Desc := pageInfoToDesc ⟨0#64, writable, dirty, accessed, cow⟩

lemma pageInfoToDesc_eq (pinfo : PageInfo) :
    pageInfoToDesc pinfo = (pinfo.physPage &&& mAddress) |||
      flagBits pinfo.writable pinfo.dirty pinfo.accessed pinfo.cow := by
  simp only [pageInfoToDesc, flagBits, BitVec.zero_and, BitVec.zero_or, BitVec.or_assoc]

/-- Fields outside the address read the flag bits. -/
lemma field_flagBits (a f : Desc) (k : ℕ) (mask : Desc) (h : mAddress >>> k &&& mask = 0#64) :
    ((a &&& mAddress ||| f) >>> k) &&& mask = (f >>> k) &&& mask := by
  have hzero : (a &&& mAddress) >>> k &&& mask = 0#64 := by
    rw [BitVec.ushiftRight_and_distrib, BitVec.and_assoc, h, BitVec.and_zero]
  rw [BitVec.ushiftRight_or_distrib, BitVec.and_comm, BitVec.and_or_distrib_left, BitVec.and_comm, hzero,
    BitVec.zero_or, BitVec.and_comm]

lemma bit_flagBits (a f : Desc) (i : ℕ) (h : mAddress.getLsbD i = false) :
    (a &&& mAddress ||| f).getLsbD i = f.getLsbD i := by
  rw [BitVec.getLsbD_or, BitVec.getLsbD_and, h, Bool.and_false, Bool.false_or]

lemma address_flagBits (a f : Desc) (h : f &&& mAddress = 0#64) :
    (a &&& mAddress ||| f) &&& mAddress = a &&& mAddress := by
  rw [BitVec.and_comm, BitVec.and_or_distrib_left, BitVec.and_comm, BitVec.and_comm mAddress f, h,
    BitVec.or_zero, BitVec.and_assoc, BitVec.and_self]

lemma flagBits_fields : ∀ w d a c : Bool,
    (flagBits w d a c).getLsbD bValid = true ∧ isDeviceDesc (flagBits w d a c) = false ∧
    flagBits w d a c &&& mAddress = 0#64 ∧ decide ((flagBits w d a c >>> 6) &&& 0x3 = 0x1) = w ∧
    (flagBits w d a c).getLsbD bSwDirty = d ∧ (flagBits w d a c).getLsbD bSwAccessed = a ∧
    (flagBits w d a c).getLsbD bSwCow = c := by
  decide

lemma bit_and_twoPow (d : Desc) {i : ℕ} (hi : i < 64) : (d &&& BitVec.twoPow 64 i) ≠ 0 ↔ d.getLsbD i = true := by
  have hpow : BitVec.twoPow 64 i ≠ 0 := by
    revert i
    decide
  rw [BitVec.and_twoPow]
  constructor
  · intro hne
    by_contra hbit
    exact hne (by rw [if_neg hbit]; rfl)
  · intro hbit
    rwa [if_pos hbit]

lemma bit_and_one (d : Desc) : (d &&& 1) ≠ 0 ↔ d.getLsbD bValid = true :=
  @bit_and_twoPow d 0 (by norm_num)

lemma bit_and_two (d : Desc) : (d &&& 2) ≠ 0 ↔ d.getLsbD 1 = true :=
  @bit_and_twoPow d 1 (by norm_num)

/-- A page descriptor reads back as the page it was made from. -/
theorem descToPageInfo_pageInfoToDesc {pinfo : PageInfo} (h : pinfo.physPage &&& mAddress = pinfo.physPage) :
    descToPageInfo (pageInfoToDesc pinfo) = some pinfo := by
  obtain ⟨hv, hdev, haddr, hw, hd, ha, hc⟩ := flagBits_fields pinfo.writable pinfo.dirty pinfo.accessed pinfo.cow
  have hdev' : isDeviceDesc (pageInfoToDesc pinfo) = false := by
    rw [isDeviceDesc, pageInfoToDesc_eq, field_flagBits _ _ _ _ (by decide)]
    exact hdev
  rw [descToPageInfo, hdev', pageInfoToDesc_eq, bit_flagBits _ _ _ (by decide), bit_flagBits _ _ _ (by decide),
    bit_flagBits _ _ _ (by decide), bit_flagBits _ _ _ (by decide), address_flagBits _ _ haddr,
    field_flagBits _ _ _ _ (by decide), hv, hw, hd, ha, hc, h]
  rfl
/-- The page of a descriptor is an output address. -/
theorem descToPageInfo_physPage {d : Desc} {pinfo : PageInfo} (h : descToPageInfo d = some pinfo) :
    d.getLsbD bValid = true ∧ isDeviceDesc d = false ∧ pinfo.physPage = d &&& mAddress ∧
      pinfo.physPage &&& mAddress = pinfo.physPage := by
  unfold descToPageInfo at h
  split_ifs at h with hv hdev
  cases h
  exact ⟨by simpa using hv, by simpa using hdev, rfl, by rw [BitVec.and_assoc, BitVec.and_self]⟩

/-- An address of a page is a multiple of the page size, below the output size. -/
lemma mAddress_bound {a : Desc} (h : a &&& mAddress = a) : a.toNat % 4096 = 0 ∧ a.toNat < 2^48 := by
  constructor
  · have hlow : a &&& 0xFFF#64 = 0#64 := by
      rw [← h, BitVec.and_assoc, show mAddress &&& 0xFFF#64 = 0#64 by decide, BitVec.and_zero]
    have hnat := congrArg BitVec.toNat hlow
    rw [BitVec.toNat_and] at hnat
    have hmod := Nat.and_two_pow_sub_one_eq_mod a.toNat 12
    simp at hnat hmod
    omega
  · have hle : (a &&& mAddress).toNat ≤ mAddress.toNat := by
      rw [BitVec.toNat_and]
      exact Nat.and_le_right
    rw [h] at hle
    have : mAddress.toNat < 2^48 := by decide
    omega

@[simp] theorem descToPageInfo_zero : descToPageInfo 0#64 = none := by decide

@[simp] theorem descToPageInfo_demandDesc (w : Bool) : descToPageInfo (demandDesc w) = none := by
  cases w <;> decide

@[simp] theorem tableFromDesc_zero : tableFromDesc 0#64 = none := by decide

@[simp] theorem userTable_zero (ram : Ram) : userTable ram 0#64 = none := by
  simp [userTable]

lemma validPage_bound {ram : Ram} {p : ℕ} (h : validPage ram p = true) : p % 4096 = 0 ∧ p < 2^48 := by
  obtain ⟨h1, h2⟩ := ram.bound
  simp only [validPage, buddyContains, Bool.or_eq_true, Bool.and_eq_true, decide_eq_true_eq] at h
  omega

lemma mAddress_ofNat {p : ℕ} (ha : p % 4096 = 0) (hb : p < 2^48) :
    BitVec.ofNat 64 p &&& mAddress = BitVec.ofNat 64 p := by
  apply BitVec.eq_of_getLsbD_eq
  intro i hi
  rw [BitVec.getLsbD_and, BitVec.getLsbD_ofNat]
  simp only [hi, decide_true, Bool.true_and]
  by_cases hlow : i < 12
  · have : p.testBit i = false := by
      obtain ⟨k, rfl⟩ : ∃ k, p = 2^12*k := ⟨p/4096, by omega⟩
      rw [Nat.testBit_two_pow_mul]
      simp
      omega
    simp [this]
  · by_cases hhigh : i < 48
    · have : mAddress.getLsbD i = true := by
        have hall : ∀ j < 48, 12 ≤ j → mAddress.getLsbD j = true := by decide
        exact hall i hhigh (by omega)
      simp [this]
    · have : p.testBit i = false := Nat.testBit_lt_two_pow (hb.trans_le (Nat.pow_le_pow_right (by norm_num) (by omega)))
      simp [this]

lemma ofNat_and_pageMask {c : ℕ} (ha : c % 4096 = 0) (hb : c < 2^48) :
    BitVec.ofNat 64 c &&& ~~~0xFFF#64 = BitVec.ofNat 64 c := by
  rw [← mAddress_ofNat ha hb, BitVec.and_assoc, show mAddress &&& ~~~0xFFF#64 = mAddress by decide]

/-- The link to a table as the trap paths write it. -/
lemma tableDesc_eq {c : ℕ} (ha : c % 4096 = 0) (hb : c < 2^48) :
    BitVec.ofNat 64 c &&& ~~~0xFFF#64 ||| 0x3#64 = descFromTable c := by
  rw [ofNat_and_pageMask ha hb, descFromTable, mAddress_ofNat ha hb]
  rfl

lemma descFromTable_address {p : ℕ} (ha : p % 4096 = 0) (hb : p < 2^48) :
    (descFromTable p &&& mAddress).toNat = p := by
  rw [descFromTable, address_flagBits _ _ (by decide), mAddress_ofNat ha hb, BitVec.toNat_ofNat]
  exact Nat.mod_eq_of_lt (by omega)

theorem tableFromDesc_descFromTable {p : ℕ} (ha : p % 4096 = 0) (hb : p < 2^48) :
    tableFromDesc (descFromTable p) = some p := by
  have hv : (descFromTable p).getLsbD bValid = true := by
    rw [descFromTable, bit_flagBits _ _ _ (by decide)]
    decide
  rw [tableFromDesc, if_pos hv, descFromTable_address ha hb]

theorem userTable_descFromTable {ram : Ram} {p : ℕ} (h : validPage ram p = true) :
    userTable ram (descFromTable p) = some p := by
  obtain ⟨ha, hb⟩ := validPage_bound h
  have h3 : descFromTable p &&& 3 = 3 := by
    have := field_flagBits (BitVec.ofNat 64 p) tableFlag 0 3 (by decide)
    simpa [descFromTable, tableFlag] using this
  rw [userTable, descFromTable_address ha hb, if_pos ⟨h3, h⟩]

/-- A user table is followed by every walk. -/
theorem tableFromDesc_of_userTable {ram : Ram} {d : Desc} {t : ℕ} (h : userTable ram d = some t) :
    tableFromDesc d = some t := by
  unfold userTable at h
  split_ifs at h with hd
  have hv : d.getLsbD bValid = true := by
    have h0 : (d &&& 3).getLsbD 0 = true := by
      rw [hd.1]
      decide
    rw [BitVec.getLsbD_and] at h0
    exact (Bool.and_eq_true _ _ ▸ h0).1
  rw [tableFromDesc, if_pos hv]
  exact h

lemma userTable_valid {ram : Ram} {d : Desc} {t : ℕ} (h : userTable ram d = some t) : validPage ram t = true := by
  unfold userTable at h
  split_ifs at h with hd
  cases h
  exact hd.2

lemma userTable_of_bit {ram : Ram} {d : Desc} (h : d.getLsbD 1 = false) : userTable ram d = none := by
  rw [userTable, if_neg]
  rintro ⟨h3, -⟩
  have h1 : (d &&& 3).getLsbD 1 = true := by
    rw [h3]
    decide
  rw [BitVec.getLsbD_and, h] at h1
  simp at h1

end HouseKernel.VirtualMemory
