import HouseKernel.VirtualMemory.AddressSpace

/-! The page-table walks of the kernel's trap and copy paths, which read descriptors as they
are, and writes to data pages. -/
namespace HouseKernel.VirtualMemory

open HouseKernel.Lib

/-- The next table as the trap and copy paths read it: all bits above the page offset. -/
def rawTable (d : Desc) : Option ℕ := if d &&& 1 = 0 then none else some (d &&& ~~~0xFFF#64).toNat

/-- The same, where a block ends the walk. -/
def pageTable (d : Desc) : Option ℕ := if d &&& 2 = 0 then none else rawTable d

/-- The leaf that a walk of the trap path finds; a block has none. -/
def trapLeaf (m : Memory) (pdir va : ℕ) : Option Desc :=
  if pdir % 4096 ≠ 0 then none
  else match rawTable (m.peek pdir (l0Index va)) with
    | none => none
    | some l1 => match pageTable (m.peek l1 (l1Index va)) with
      | none => none
      | some l2 => match pageTable (m.peek l2 (l2Index va)) with
        | none => none
        | some l3 => let d3 := m.peek l3 (l3Index va); if d3 &&& 1 = 0 then none else some d3

/-- Read-only with the copy-on-write mark. -/
def houseIsCowPage (m : Memory) (pdir va : ℕ) : Bool :=
  match trapLeaf m pdir va with
  | none => false
  | some d3 => (d3 >>> 6) &&& 3 = 3 && (d3 >>> 57) &&& 1 = 1

def copyPageBytes (src dst : ℕ) (m : Memory) : Memory :=
  { m with mem := fun a => if dst ≤ a ∧ a < dst + 4096 then m.mem (src + (a - dst)) else m.mem a }

section Raw

variable {d : Desc} {c : ℕ}

lemma descFromTable_raw (ha : c % 4096 = 0) (hb : c < 2^48) : (descFromTable c &&& ~~~0xFFF#64).toNat = c := by
  have hmask : descFromTable c &&& ~~~0xFFF#64 = BitVec.ofNat 64 c := by
    rw [descFromTable, mAddress_ofNat ha hb, BitVec.and_comm, BitVec.and_or_distrib_left,
      show ~~~0xFFF#64 &&& tableFlag = 0#64 by decide, BitVec.or_zero, BitVec.and_comm, ofNat_and_pageMask ha hb]
  rw [hmask, BitVec.toNat_ofNat, Nat.mod_eq_of_lt (by omega)]

lemma descFromTable_bits (c : ℕ) : descFromTable c &&& 1 ≠ 0 ∧ descFromTable c &&& 2 ≠ 0 := by
  have hbit : ∀ i < 2, (descFromTable c).getLsbD i = true := by
    intro i hi
    rw [descFromTable, bit_flagBits _ _ _ (by revert i; decide)]
    revert i
    decide
  exact ⟨(bit_and_one _).mpr (hbit 0 (by norm_num)), (bit_and_two _).mpr (hbit 1 (by norm_num))⟩

lemma pageTable_descFromTable (ha : c % 4096 = 0) (hb : c < 2^48) : pageTable (descFromTable c) = some c := by
  obtain ⟨h1, h2⟩ := descFromTable_bits c
  rw [pageTable, if_neg h2, rawTable, if_neg h1, descFromTable_raw ha hb]

lemma rawTable_of_pageTable (h : pageTable d = some c) : rawTable d = some c := by
  unfold pageTable at h
  split_ifs at h
  exact h

lemma pageTable_of_block (h : isBlock d) : pageTable d = none := by
  rw [pageTable, if_pos]
  by_contra hne
  have := (bit_and_two d).mp hne
  rw [h.2] at this
  cases this

/-- A descriptor that is made read-only is read-only for the user. -/
lemma access_pageInfoToDesc {info : PageInfo} (h : info.writable = false) : (pageInfoToDesc info >>> 6) &&& 3 = 3 := by
  have hbits : ∀ d a c : Bool, (flagBits false d a c >>> 6) &&& 3 = 3 := by decide
  rw [pageInfoToDesc_eq, field_flagBits _ _ _ _ (by decide), h]
  exact hbits _ _ _

end Raw

section Spaces

variable {pf : Platform} {roots : Set ℕ} {m : Memory} {r va : ℕ}

/-- Where a root has a table, the trap path follows it. -/
lemma Spaces.pageTable_eq (h : Spaces pf roots m) {js : List ℕ} {q i c : ℕ} (hq : TableAt pf.toRam m roots r js q)
    (hlt : js.length < 3) (hi : i < 512) (hc : userTable pf.toRam (m.mem (q + 8*i)) = some c) :
    pageTable (m.mem (q + 8*i)) = some c := by
  rw [h.tidy hq hlt hi hc]
  obtain ⟨ha, hb⟩ := validPage_bound (userTable_valid hc)
  exact pageTable_descFromTable ha hb

/-- The trap path finds the leaf of a page that is mapped. -/
theorem Spaces.trapLeaf_eq (h : Spaces pf roots m) (hr : r ∈ roots) {info : PageInfo}
    (hp : userPage pf.toRam m r va = some info) : trapLeaf m r va = some (leaf pf.toRam m r va) := by
  have h0 : TableAt pf.toRam m roots r [] r := stands_nil.mpr ⟨hr, rfl⟩
  obtain ⟨l3, hwalk, hdesc⟩ := userPage_table hp
  have hlt := index_lt va
  simp only [path, List.mem_cons, List.not_mem_nil, or_false, forall_eq_or_imp, forall_eq] at hlt
  have hleaf : leaf pf.toRam m r va = m.peek l3 (l3Index va) := by rw [leaf, hwalk]
  have hvalid : m.peek l3 (l3Index va) &&& 1 ≠ 0 := (bit_and_one _).mpr (descToPageInfo_physPage hdesc).1
  obtain ⟨l1, hl1, hwalk⟩ := Option.bind_eq_some_iff.mp hwalk
  obtain ⟨l2, hl2, hwalk⟩ := Option.bind_eq_some_iff.mp hwalk
  obtain ⟨l3', hl3, hwalk⟩ := Option.bind_eq_some_iff.mp hwalk
  obtain rfl : l3' = l3 := Option.some.inj hwalk
  have h1 := h0.child (by simp) hlt.1 hl1
  have h2 := h1.child (by simp) hlt.2.1 hl2
  have e1 := rawTable_of_pageTable (h.pageTable_eq h0 (by simp) hlt.1 hl1)
  have e2 := h.pageTable_eq h1 (by simp) hlt.2.1 hl2
  have e3 := h.pageTable_eq h2 (by simp) hlt.2.2 hl3
  simp only [Memory.peek] at hvalid hleaf
  simp only [trapLeaf, Memory.peek, h.forest.aligned h0, e1, e2, e3, hleaf, ne_eq, not_true_eq_false, if_false]
  exact if_neg hvalid

/-- The kernel's slots hold blocks, which end the trap path's walk. -/
theorem Spaces.trapLeaf_kernel (h : Spaces pf roots m) (hr : r ∈ roots) (hva : validVAddr va = true)
    (hk : pf.kernelWindow va) : trapLeaf m r va = none := by
  have h0 : TableAt pf.toRam m roots r [] r := stands_nil.mpr ⟨hr, rfl⟩
  have hlt := index_lt va
  simp only [path, List.mem_cons, List.not_mem_nil, or_false, forall_eq_or_imp, forall_eq] at hlt
  obtain ⟨js, i, q, hjs, hpre, hq, hb⟩ := h.slots hr hva hk
  have hend := pageTable_of_block hb
  rcases js with _ | ⟨j0, _ | ⟨j1, _ | ⟨j2, js⟩⟩⟩
  · exact absurd rfl hjs
  · -- a block in the L1 table
    obtain ⟨rfl, rfl⟩ : j0 = l0Index va ∧ i = l1Index va := by simpa [path] using hpre
    obtain ⟨l1, hl1, hwalk⟩ := Option.bind_eq_some_iff.mp hq.reach
    obtain rfl : l1 = q := Option.some.inj hwalk
    have e1 := rawTable_of_pageTable (h.pageTable_eq h0 (by simp) hlt.1 hl1)
    simp [trapLeaf, Memory.peek, h.forest.aligned h0, e1, hend]
  · -- a block in the L2 table
    obtain ⟨rfl, rfl, rfl⟩ : j0 = l0Index va ∧ j1 = l1Index va ∧ i = l2Index va := by simpa [path] using hpre
    obtain ⟨l1, hl1, hwalk⟩ := Option.bind_eq_some_iff.mp hq.reach
    obtain ⟨l2, hl2, hwalk⟩ := Option.bind_eq_some_iff.mp hwalk
    obtain rfl : l2 = q := Option.some.inj hwalk
    have h1 := h0.child (by simp) hlt.1 hl1
    have e1 := rawTable_of_pageTable (h.pageTable_eq h0 (by simp) hlt.1 hl1)
    have e2 := h.pageTable_eq h1 (by simp) hlt.2.1 hl2
    simp [trapLeaf, Memory.peek, h.forest.aligned h0, e1, e2, hend]
  · have := hpre.length_le
    simp only [List.length_append, List.length_cons, path, List.length_nil] at this
    omega

/-- What does not touch the tables changes no leaf. -/
theorem Spaces.write {m' : Memory} (h : Spaces pf roots m) (hpool : m'.pool = m.pool)
    (hmem : ∀ {r js q i}, TableAt pf.toRam m roots r js q → i < 512 → m'.mem (q + 8*i) = m.mem (q + 8*i)) :
    Spaces pf roots m' ∧ (∀ {r js q}, TableAt pf.toRam m' roots r js q ↔ TableAt pf.toRam m roots r js q) ∧
      ∀ {r va}, r ∈ roots → leaf pf.toRam m' r va = leaf pf.toRam m r va := by
  have hinner : ∀ {r js q i}, TableAt pf.toRam m roots r js q → js.length < 3 → i < 512 →
      userTable pf.toRam (m'.mem (q + 8*i)) = userTable pf.toRam (m.mem (q + 8*i)) :=
    fun hq _ hi => by rw [hmem hq hi]
  have htables : ∀ {r js q}, TableAt pf.toRam m' roots r js q ↔ TableAt pf.toRam m roots r js q := stands_congr hinner
  have hleaf : ∀ {r va}, r ∈ roots → leaf pf.toRam m' r va = leaf pf.toRam m r va := by
    intro r va hr
    have hwalk : walk (userTable pf.toRam) m'.mem r (path va) = walk (userTable pf.toRam) m.mem r (path va) := by
      refine Option.ext fun q => ⟨fun hq => ?_, fun hq => ?_⟩
      · exact (htables.mp ⟨hr, index_lt va, by simp [path], hq⟩).reach
      · exact (htables.mpr ⟨hr, index_lt va, by simp [path], hq⟩).reach
    rw [leaf, leaf, hwalk]
    cases hq : walk (userTable pf.toRam) m.mem r (path va) with
    | none => rfl
    | some q => exact hmem ⟨hr, index_lt va, by simp [path], hq⟩ (l3Index_lt va)
  refine ⟨⟨hpool ▸ h.forest.congr hinner, hpool ▸ h.pool, ?_, ?_, ?_, ?_, ?_⟩, htables, hleaf⟩
  · intro r va hr hva js i q hpre hq
    have hlen := hpre.length_le
    simp only [List.length_append, path, List.length_cons, List.length_nil] at hlen
    have hin : ∀ k ∈ js ++ [i], k < 512 := fun k hk => index_lt va k (hpre.subset hk)
    have hq' := htables.mp ⟨hr, fun k hk => hin k (by simp [hk]), by omega, hq⟩
    rw [Memory.peek, hmem hq' (hin i (by simp))]
    exact h.clear hr hva js i q hpre hq'.reach
  · intro r va info hr hp
    exact h.user hr (userPage_congr (hleaf hr) ▸ hp)
  · intro r va info hr hp
    obtain ⟨h1, h2⟩ := h.data hr (userPage_congr (hleaf hr) ▸ hp)
    exact ⟨hpool ▸ h1, fun r' js q hq => h2 r' js q (htables.mp hq)⟩
  · intro r js q i c hq hlt hi hc
    rw [hmem (htables.mp hq) hi] at hc ⊢
    exact h.tidy (htables.mp hq) hlt hi hc
  · intro r va hr hva hk
    obtain ⟨js, i, q, hjs, hpre, hq, hb⟩ := h.slots hr hva hk
    refine ⟨js, i, q, hjs, hpre, htables.mpr hq, ?_⟩
    rw [hmem hq (index_lt va i (hpre.subset (by simp)))]
    exact hb

/-- A page that is no table can be overwritten. -/
lemma outside_tables (h : Spaces pf roots m) {p : ℕ} (hp : p % 4096 = 0)
    (htab : ∀ r js q, TableAt pf.toRam m roots r js q → q ≠ p) {r : ℕ} {js : List ℕ} {q i : ℕ}
    (hq : TableAt pf.toRam m roots r js q) (hi : i < 512) : ¬ (p ≤ q + 8*i ∧ q + 8*i < p + 4096) := by
  have := outside_page (h.forest.aligned hq) hp hi (htab r js q hq)
  omega

end Spaces

end HouseKernel.VirtualMemory
