import HouseKernel.VirtualMemory.AddressSpace

/-! New address spaces: `allocPageMap` adds a root that maps nothing and shares with the kernel
exactly the slots of the kernel window. -/
namespace HouseKernel.VirtualMemory

open HouseKernel.Lib

lemma cloneKernelL1_fold (pf : Platform) (m : Memory) (l1 n : ℕ) :
    let m' := (List.range n).foldl (fun m idx =>
      if pf.l1Low idx = 0 then m else if idx = 0 then m else m.poke l1 idx (pf.l1Low idx)) m
    m'.pool = m.pool ∧ (∀ a, (∀ idx < n, a ≠ l1 + 8*idx) → m'.mem a = m.mem a) ∧
      ∀ idx < n, m'.mem (l1 + 8*idx) =
        if idx = 0 ∨ pf.l1Low idx = 0 then m.mem (l1 + 8*idx) else pf.l1Low idx := by
  induction n with
  | zero => simp
  | succ n ih =>
    simp only [List.range_succ, List.foldl_append, List.foldl_cons, List.foldl_nil]
    obtain ⟨hpool, hout, hin⟩ := ih
    have hlast : ∀ idx < n, l1 + 8*idx ≠ l1 + 8*n := by omega
    by_cases hzero : pf.l1Low n = 0 ∨ n = 0
    · have hskip : ∀ m : Memory, (if pf.l1Low n = 0 then m else if n = 0 then m else m.poke l1 n (pf.l1Low n)) = m := by
        intro m
        obtain h | h := hzero <;> simp [h]
      rw [hskip]
      refine ⟨hpool, fun a ha => hout a fun idx hidx => ha idx (by omega), fun idx hidx => ?_⟩
      by_cases hn : idx = n
      · subst hn
        rw [if_pos (by tauto), hout _ fun j hj heq => hlast j hj heq.symm]
      · exact hin idx (by omega)
    · rw [not_or] at hzero
      rw [if_neg hzero.1, if_neg hzero.2]
      refine ⟨hpool, fun a ha => ?_, fun idx hidx => ?_⟩
      · simp only [Memory.poke, Function.update_of_ne (ha n (by omega))]
        exact hout a fun idx hidx => ha idx (by omega)
      · by_cases hn : idx = n
        · subst hn
          rw [if_neg (by tauto)]
          simp [Memory.poke]
        · simp only [Memory.poke, Function.update_of_ne (hlast idx (by omega))]
          exact hin idx (by omega)

/-- The cloned L1 table: the kernel's entries, except the first. -/
lemma cloneKernelL1_spec (pf : Platform) (m : Memory) (l1 : ℕ) :
    (cloneKernelL1 pf m l1).pool = m.pool ∧
    (∀ a, (∀ idx < 512, a ≠ l1 + 8*idx) → (cloneKernelL1 pf m l1).mem a = m.mem a) ∧
    ∀ idx < 512, (cloneKernelL1 pf m l1).mem (l1 + 8*idx) =
      if idx = 0 ∨ pf.l1Low idx = 0 then m.mem (l1 + 8*idx) else pf.l1Low idx := by
  unfold cloneKernelL1
  exact cloneKernelL1_fold pf m l1 512

/-- A block descriptor of the kernel's L1 table. -/
def mapBlock (idx : ℕ) (attr : Desc) : Desc :=
  1#64 ||| 1#64 <<< 10 ||| 3#64 <<< 8 ||| attr <<< 2 ||| BitVec.ofNat 64 idx <<< 30

/-- The kernel's L1 table after boot: a device block, a block for each GiB of RAM, and the
tables `l2Rts` of the alias window. -/
def l1Boot (blocks aliases l2Rts idx : ℕ) : Desc :=
  if idx = 0 then mapBlock 0 1
  else if idx ≤ blocks ∧ idx < 256 then mapBlock idx 0
  else if 264 ≤ idx ∧ idx < 264 + aliases then 1#64 ||| 1#64 <<< 1 ||| BitVec.ofNat 64 (l2Rts + 4096*(idx - 264))
  else 0#64

lemma userTable_mapBlock (ram : Ram) (idx : ℕ) (attr : Desc) : userTable ram (mapBlock idx attr) = none := by
  apply userTable_of_bit
  simp [mapBlock]

section Alloc

variable {pf : Platform} {roots : Set ℕ} {m : Memory} {l0 l1 l2 : ℕ} {rest : List ℕ}

/-- The memory in which `allocPageMap` has a root and a cloned L1 table. -/
def cloned (pf : Platform) (m : Memory) (l0 l1 : ℕ) (rest : List ℕ) : Memory :=
  cloneKernelL1 pf (zeroPage l1 { zeroPage l0 m with pool := rest }) l1

/-- The memory after `allocPageMap` took the pages `l0`, `l1` and `l2`. -/
def created (pf : Platform) (m : Memory) (l0 l1 l2 : ℕ) (rest : List ℕ) : Memory :=
  ((cloneKernelL2 (zeroPage l2 { cloned pf m l0 l1 (l2 :: rest) with pool := rest }) l2).poke l0 (l0Index minVAddr)
    (descFromTable l1)).poke l1 (l1Index minVAddr) (descFromTable l2)

lemma cloned_pool : (cloned pf m l0 l1 rest).pool = rest := (cloneKernelL1_spec pf _ l1).1

lemma allocPageMap_eq (h : m.pool = l0 :: l1 :: l2 :: rest) :
    allocPageMap pf m = (some l0, created pf m l0 l1 l2 rest) := by
  have h1 : allocPage m = (some l0, { m with pool := l1 :: l2 :: rest }) := by simp only [allocPage, h]
  have h2 : allocPage (zeroPage l0 { m with pool := l1 :: l2 :: rest }) =
      (some l1, { zeroPage l0 m with pool := l2 :: rest }) := by simp only [allocPage, zeroPage]
  have h3 : allocPage (cloned pf m l0 l1 (l2 :: rest)) =
      (some l2, { cloned pf m l0 l1 (l2 :: rest) with pool := rest }) := by simp only [allocPage, cloned_pool]
  rw [cloned] at h3
  simp only [allocPageMap, h1, h2, h3, created, cloned]

lemma cloned_words (h0 : l0 % 4096 = 0) (h1 : l1 % 4096 = 0) (h01 : l0 ≠ l1) :
    (∀ i < 512, (cloned pf m l0 l1 rest).mem (l0 + 8*i) = 0#64) ∧
    (∀ i < 512, i ≠ 0 → (cloned pf m l0 l1 rest).mem (l1 + 8*i) = pf.l1Low i) ∧
    ∀ a, (a < l0 ∨ l0 + 4096 ≤ a) → (a < l1 ∨ l1 + 4096 ≤ a) → (cloned pf m l0 l1 rest).mem a = m.mem a := by
  obtain ⟨-, hout, hin⟩ := cloneKernelL1_spec pf (zeroPage l1 { zeroPage l0 m with pool := rest }) l1
  unfold cloned
  refine ⟨fun i hi => ?_, fun i hi hne => ?_, fun a ha0 ha1 => ?_⟩
  · rw [hout (l0 + 8*i) (by omega)]
    simp only [zeroPage]
    rw [if_neg (by omega), if_pos (by omega)]
    rfl
  · rw [hin i hi]
    simp only [zeroPage]
    split_ifs with hz hpage
    · exact (hz.resolve_left hne).symm
    · omega
    · omega
    · rfl
  · rw [hout a (by omega)]
    simp only [zeroPage]
    rw [if_neg (by omega), if_neg (by omega)]

/-- The words of the new tables, and all others. -/
structure CreatedWords (pf : Platform) (m m' : Memory) (l0 l1 l2 : ℕ) : Prop where
  root : ∀ i < 512, m'.mem (l0 + 8*i) = if i = 0 then descFromTable l1 else 0#64
  mid : ∀ i < 512, m'.mem (l1 + 8*i) = if i = 0 then descFromTable l2 else pf.l1Low i
  low : ∀ i < 512, m'.mem (l2 + 8*i) = if i = 64 then 0x08000705#64 else if i = 72 then 0x09000705#64 else 0#64
  other : ∀ a, (a < l0 ∨ l0 + 4096 ≤ a) → (a < l1 ∨ l1 + 4096 ≤ a) → (a < l2 ∨ l2 + 4096 ≤ a) → m'.mem a = m.mem a

lemma created_words (h0 : l0 % 4096 = 0) (h1 : l1 % 4096 = 0) (h2 : l2 % 4096 = 0) (h01 : l0 ≠ l1) (h02 : l0 ≠ l2)
    (h12 : l1 ≠ l2) : CreatedWords pf m (created pf m l0 l1 l2 rest) l0 l1 l2 := by
  have hl0 : l0Index minVAddr = 0 := by decide
  have hl1 : l1Index minVAddr = 0 := by decide
  obtain ⟨hroot, hmid, hother⟩ := @cloned_words pf m l0 l1 (l2 :: rest) h0 h1 h01
  constructor
  · intro i hi
    simp only [created, cloneKernelL2, Memory.poke, hl0, hl1]
    rw [Function.update_of_ne (by omega)]
    by_cases h : i = 0
    · subst h
      simp
    · rw [Function.update_of_ne (by omega), Function.update_of_ne (by omega), Function.update_of_ne (by omega), if_neg h]
      simp only [zeroPage]
      rw [if_neg (by omega)]
      exact hroot i hi
  · intro i hi
    simp only [created, cloneKernelL2, Memory.poke, hl0, hl1]
    by_cases h : i = 0
    · subst h
      simp
    · rw [Function.update_of_ne (by omega), Function.update_of_ne (by omega), Function.update_of_ne (by omega),
        Function.update_of_ne (by omega), if_neg h]
      simp only [zeroPage]
      rw [if_neg (by omega)]
      exact hmid i hi h
  · intro i hi
    simp only [created, cloneKernelL2, Memory.poke, hl0, hl1]
    rw [Function.update_of_ne (by omega), Function.update_of_ne (by omega)]
    by_cases h72 : i = 72
    · subst h72
      rw [Function.update_self]
      decide
    · rw [Function.update_of_ne (by omega), if_neg h72]
      by_cases h64 : i = 64
      · subst h64
        rw [Function.update_self]
        decide
      · rw [Function.update_of_ne (by omega), if_neg h64]
        simp only [zeroPage]
        rw [if_pos (by omega)]
        rfl
  · intro a ha0 ha1 ha2
    simp only [created, cloneKernelL2, Memory.poke, hl0, hl1]
    rw [Function.update_of_ne (by omega), Function.update_of_ne (by omega), Function.update_of_ne (by omega),
      Function.update_of_ne (by omega)]
    simp only [zeroPage]
    rw [if_neg (by omega)]
    exact hother a ha0 ha1

/-- The tables after a creation: the old ones, and three of the new root. -/
lemma CreatedWords.forest {m' : Memory} (hw : CreatedWords pf m m' l0 l1 l2)
    (hf : Forest (userTable pf.toRam) 3 m.mem roots (l0 :: l1 :: l2 :: rest))
    (hvalid : ∀ p ∈ l0 :: l1 :: l2 :: rest, validPage pf.toRam p = true) :
    Forest (userTable pf.toRam) 3 m'.mem (insert l0 roots) rest ∧ ∀ {r js q},
      TableAt pf.toRam m' (insert l0 roots) r js q ↔
        TableAt pf.toRam m roots r js q ∨ (r = l0 ∧ (js, q) ∈ [([], l0), ([0], l1), ([0, 0], l2)]) := by
  have hnodup := hf.nodup
  simp only [List.nodup_cons, List.mem_cons, not_or] at hnodup
  obtain ⟨⟨h01, h02, -⟩, ⟨h12, -⟩, -⟩ := hnodup
  have ha0 : l0 % 4096 = 0 := hf.freeAligned (by simp)
  have ha1 : l1 % 4096 = 0 := hf.freeAligned (by simp)
  have ha2 : l2 % 4096 = 0 := hf.freeAligned (by simp)
  -- first the root alone, then the L1 table without its first entry, then the L2 table
  let mem1 : ℕ → Desc := fun a => if l0 ≤ a ∧ a < l0 + 4096 then 0#64 else m.mem a
  let mem2 : ℕ → Desc := fun a => if a = l1 then 0#64 else if l2 ≤ a ∧ a < l2 + 4096 then m.mem a else m'.mem a
  have hnew1 : ∀ j < 512, userTable pf.toRam (mem1 (l0 + 8*j)) = none := by
    intro j hj
    simp only [mem1]
    rw [if_pos (by omega), userTable_zero]
  have hout1 : ∀ a, a % 8 = 0 → a < l0 ∨ l0 + 4096 ≤ a → mem1 a = m.mem a := by
    intro a _ ha
    simp only [mem1]
    rw [if_neg (by omega)]
  have hf1 := hf.plant hnew1 hout1
  have hroot : Stands (userTable pf.toRam) 3 mem1 (insert l0 roots) l0 [] l0 := stands_nil.mpr ⟨by simp, rfl⟩
  have hempty2 : userTable pf.toRam (mem1 (l0 + 8*0)) = none := hnew1 0 (by norm_num)
  have hslot2 : userTable pf.toRam (mem2 (l0 + 8*0)) = some l1 := by
    simp only [mem2]
    rw [if_neg (by omega), if_neg (by omega), hw.root 0 (by norm_num), if_pos rfl]
    exact userTable_descFromTable (hvalid l1 (by simp))
  have hnew2 : ∀ j < 512, userTable pf.toRam (mem2 (l1 + 8*j)) = none := by
    intro j hj
    simp only [mem2]
    by_cases h : j = 0
    · rw [if_pos (by omega), userTable_zero]
    · rw [if_neg (by omega), if_neg (by omega), hw.mid j hj, if_neg h]
      exact pf.kernelOwned j
  have hout2 : ∀ a, a % 8 = 0 → a < l1 ∨ l1 + 4096 ≤ a → a ≠ l0 + 8*0 → mem2 a = mem1 a := by
    intro a ha8 ha hne
    simp only [mem2, mem1]
    rw [if_neg (by omega)]
    split_ifs with h2 h0 h0
    · omega
    · rfl
    · obtain ⟨i, rfl⟩ : ∃ i, a = l0 + 8*i := ⟨(a - l0)/8, by omega⟩
      rw [hw.root i (by omega), if_neg (by omega)]
    · exact hw.other a (by omega) ha (by omega)
  have hf2 := hf1.graft hroot (by simp) (by norm_num) hempty2 hslot2 hnew2 hout2
  have hs2 := fun r js q => @Forest.stands_graft _ _ _ _ _ _ _ _ hf1 _ _ _ _ hroot (by simp) (by norm_num) hempty2
    hslot2 hnew2 hout2 r js q
  have hl1 : Stands (userTable pf.toRam) 3 mem2 (insert l0 roots) l0 [0] l1 := (hs2 _ _ _).mpr (Or.inr ⟨rfl, rfl, rfl⟩)
  have hempty3 : userTable pf.toRam (mem2 (l1 + 8*0)) = none := hnew2 0 (by norm_num)
  have hslot3 : userTable pf.toRam (m'.mem (l1 + 8*0)) = some l2 := by
    rw [hw.mid 0 (by norm_num), if_pos rfl]
    exact userTable_descFromTable (hvalid l2 (by simp))
  have hnew3 : ∀ j < 512, userTable pf.toRam (m'.mem (l2 + 8*j)) = none := by
    intro j hj
    rw [hw.low j hj]
    split_ifs <;> simp [userTable]
  have hout3 : ∀ a, a % 8 = 0 → a < l2 ∨ l2 + 4096 ≤ a → a ≠ l1 + 8*0 → m'.mem a = mem2 a := by
    intro a _ ha hne
    simp only [mem2]
    rw [if_neg (by omega), if_neg (by omega)]
  refine ⟨hf2.graft hl1 (by simp) (by norm_num) hempty3 hslot3 hnew3 hout3, fun {r js q} => ?_⟩
  rw [TableAt, hf2.stands_graft hl1 (by simp) (by norm_num) hempty3 hslot3 hnew3 hout3, hs2,
    hf.stands_plant hnew1 hout1]
  simp only [List.mem_cons, Prod.mk.injEq, List.not_mem_nil, or_false, List.nil_append, List.cons_append]
  tauto

section Words

variable {m' : Memory} {js : List ℕ} {q i va : ℕ}

/-- The new tables, each with its place under the root. -/
lemma mem_newTables : (js, q) ∈ [([], l0), ([0], l1), ([0, 0], l2)] ↔
    (js = [] ∧ q = l0) ∨ (js = [0] ∧ q = l1) ∨ (js = [0, 0] ∧ q = l2) := by
  simp only [List.mem_cons, Prod.mk.injEq, List.not_mem_nil, or_false]

/-- Off the kernel's window the slots of the new tables are zero, but for those of the next table. -/
lemma CreatedWords.clear (hw : CreatedWords pf m m' l0 l1 l2) (hvalid : ∀ p ∈ [l0, l1, l2], validPage pf.toRam p = true)
    (hq : (js, q) ∈ [([], l0), ([0], l1), ([0, 0], l2)]) (hi : i < 512) (hpre : js ++ [i] <+: path va) (hva : ¬pf.kernelWindow va) :
    tableFromDesc (m'.mem (q + 8*i)) = userTable pf.toRam (m'.mem (q + 8*i)) := by
  have hdesc : ∀ {p}, p ∈ [l0, l1, l2] → tableFromDesc (descFromTable p) = userTable pf.toRam (descFromTable p) := by
    intro p hp
    obtain ⟨haligned, hbound⟩ := validPage_bound (hvalid p hp)
    rw [userTable_descFromTable (hvalid p hp), tableFromDesc_descFromTable haligned hbound]
  have hzero : tableFromDesc 0#64 = userTable pf.toRam 0#64 := by rw [tableFromDesc_zero, userTable_zero]
  obtain ⟨rfl, rfl⟩ | ⟨rfl, rfl⟩ | ⟨rfl, rfl⟩ := mem_newTables.mp hq
  · rw [hw.root i hi]
    split_ifs
    · exact hdesc (by simp)
    · exact hzero
  · rw [hw.mid i hi]
    split_ifs with h0
    · exact hdesc (by simp)
    · obtain ⟨-, hpre⟩ := List.cons_prefix_cons.mp hpre
      have hi1 : i = l1Index va := (List.cons_prefix_cons.mp hpre).1
      have hlow : pf.l1Low i = 0 := by
        by_contra hne
        exact hva (Or.inl ⟨hi1 ▸ h0, hi1 ▸ hne⟩)
      rw [hlow]
      exact hzero
  · rw [hw.low i hi]
    obtain ⟨-, hpre⟩ := List.cons_prefix_cons.mp hpre
    obtain ⟨h1, hpre⟩ := List.cons_prefix_cons.mp hpre
    have hi2 : i = l2Index va := (List.cons_prefix_cons.mp hpre).1
    split_ifs with h64 h72
    · exact absurd (Or.inr ⟨h1.symm, Or.inl (hi2 ▸ h64)⟩) hva
    · exact absurd (Or.inr ⟨h1.symm, Or.inr (hi2 ▸ h72)⟩) hva
    · exact hzero

/-- The links of the new tables are written as the supervisor writes them. -/
lemma CreatedWords.tidy (hw : CreatedWords pf m m' l0 l1 l2) (hvalid : ∀ p ∈ [l0, l1, l2], validPage pf.toRam p = true)
    (hq : (js, q) ∈ [([], l0), ([0], l1), ([0, 0], l2)]) (hi : i < 512) {c : ℕ} (hc : userTable pf.toRam (m'.mem (q + 8*i)) = some c) :
    m'.mem (q + 8*i) = descFromTable c := by
  have hdesc : ∀ {p}, p ∈ [l0, l1, l2] → userTable pf.toRam (descFromTable p) = some c →
      descFromTable p = descFromTable c := by
    intro p hp hsome
    rw [userTable_descFromTable (hvalid p hp)] at hsome
    rw [Option.some.inj hsome]
  obtain ⟨rfl, rfl⟩ | ⟨rfl, rfl⟩ | ⟨rfl, rfl⟩ := mem_newTables.mp hq
  · rw [hw.root i hi] at hc ⊢
    split_ifs at hc ⊢
    · exact hdesc (by simp) hc
    · simp at hc
  · rw [hw.mid i hi] at hc ⊢
    split_ifs at hc ⊢
    · exact hdesc (by simp) hc
    · rw [pf.kernelOwned] at hc
      cases hc
  · rw [hw.low i hi] at hc
    split_ifs at hc <;> simp [userTable] at hc

/-- On the kernel's window there is a block in one of the new tables. -/
lemma CreatedWords.block (hw : CreatedWords pf m m' l0 l1 l2) (hva : validVAddr va = true) (hk : pf.kernelWindow va) :
    ∃ js i q, js ≠ [] ∧ js ++ [i] <+: path va ∧ (js, q) ∈ [([], l0), ([0], l1), ([0, 0], l2)] ∧
      isBlock (m'.mem (q + 8*i)) := by
  rw [validVAddr_iff] at hva
  have hl0 : l0Index va = 0 := by
    simp only [l0Index]
    omega
  obtain ⟨h0, hne⟩ | ⟨h1, h2⟩ := hk
  · have hlt : l1Index va < 512 := Nat.mod_lt _ (by norm_num)
    refine ⟨[0], l1Index va, l1, by simp, ⟨[l2Index va], by simp [path, hl0]⟩, by simp, ?_⟩
    rw [hw.mid _ hlt, if_neg h0]
    refine pf.blocks _ ?_ hne
    simp only [l1Index]
    omega
  · have hlt : l2Index va < 512 := Nat.mod_lt _ (by norm_num)
    refine ⟨[0, 0], l2Index va, l2, by simp, ⟨[], by simp [path, hl0, h1]⟩, by simp, ?_⟩
    rw [hw.low _ hlt]
    obtain h2 | h2 := h2
    · rw [if_pos h2]
      exact ⟨by decide, by decide⟩
    · rw [if_neg (by omega), if_pos h2]
      exact ⟨by decide, by decide⟩

end Words

/-- What `allocPageMap` gives: one more address space, which maps nothing; the others keep
every leaf. -/
structure Creates (pf : Platform) (roots : Set ℕ) (m m' : Memory) (l0 : ℕ) : Prop where
  fresh : l0 ∉ roots
  spaces : Spaces pf (insert l0 roots) m'
  blank : ∀ va, leaf pf.toRam m' l0 va = 0#64
  leaves : ∀ {r va}, r ∈ roots → leaf pf.toRam m' r va = leaf pf.toRam m r va
  taken : m'.pool.Sublist m.pool
  outside : ∀ {a}, (∀ p ∈ m.pool, a < p ∨ p + 4096 ≤ a) → m'.mem a = m.mem a

theorem Spaces.creates (h : Spaces pf roots m) (hpool : m.pool = l0 :: l1 :: l2 :: rest) :
    Creates pf roots m (created pf m l0 l1 l2 rest) l0 := by
  have hf := hpool ▸ h.forest
  have hnodup := hf.nodup
  simp only [List.nodup_cons, List.mem_cons, not_or] at hnodup
  have hw : CreatedWords pf m (created pf m l0 l1 l2 rest) l0 l1 l2 :=
    created_words (hf.freeAligned (by simp)) (hf.freeAligned (by simp)) (hf.freeAligned (by simp)) hnodup.1.1
      hnodup.1.2.1 hnodup.2.1.1
  have hin : ∀ {p}, p ∈ [l0, l1, l2] → p ∈ m.pool := by
    intro p hp
    rw [hpool]
    simp only [List.mem_cons, List.not_mem_nil, or_false] at hp ⊢
    tauto
  have hfresh : l0 ∉ roots := fun hr => h.forest.apart (stands_nil.mpr ⟨hr, rfl⟩) (hin (by simp))
  generalize hm' : created pf m l0 l1 l2 rest = m' at hw ⊢
  have hrest : m'.pool = rest := by rw [← hm']; rfl
  obtain ⟨hforest, htables⟩ := hw.forest hf (hpool ▸ h.pool)
  -- a word of an old table is as it was
  have hold : ∀ {r js q i}, TableAt pf.toRam m roots r js q → i < 512 → m'.mem (q + 8*i) = m.mem (q + 8*i) := by
    intro r js q i hq hi
    have hne : ∀ {t}, t ∈ [l0, l1, l2] → q ≠ t := fun ht heq => h.forest.apart hq (heq ▸ hin ht)
    have hal := h.forest.aligned hq
    exact hw.other _ (outside_page hal (hf.freeAligned (by simp)) hi (hne (by simp)))
      (outside_page hal (hf.freeAligned (by simp)) hi (hne (by simp)))
      (outside_page hal (hf.freeAligned (by simp)) hi (hne (by simp)))
  have hwalk : ∀ {r js}, r ∈ roots → (∀ i ∈ js, i < 512) → js.length ≤ 3 →
      walk (userTable pf.toRam) m'.mem r js = walk (userTable pf.toRam) m.mem r js := by
    intro r js hr hidx hshort
    refine Option.ext fun q => ⟨fun hq => ?_, fun hq => ?_⟩
    · obtain hq | ⟨rfl, -⟩ := htables.mp ⟨Set.mem_insert_of_mem _ hr, hidx, hshort, hq⟩
      · exact hq.reach
      · exact absurd hr hfresh
    · exact (htables.mpr (Or.inl ⟨hr, hidx, hshort, hq⟩)).reach
  have hleaves : ∀ {r va}, r ∈ roots → leaf pf.toRam m' r va = leaf pf.toRam m r va := by
    intro r va hr
    rw [leaf, leaf, hwalk hr (index_lt va) (by simp [path])]
    cases hq : walk (userTable pf.toRam) m.mem r (path va) with
    | none => rfl
    | some l3 => exact hold ⟨hr, index_lt va, by simp [path], hq⟩ (l3Index_lt va)
  have hblank : ∀ va, leaf pf.toRam m' l0 va = 0#64 := by
    intro va
    cases hq : walk (userTable pf.toRam) m'.mem l0 (path va) with
    | none => rw [leaf, hq]
    | some l3 =>
      obtain hl3 | ⟨-, hl3⟩ := htables.mp ⟨Set.mem_insert _ _, index_lt va, by simp [path], hq⟩
      · exact absurd hl3.root hfresh
      · simp [path] at hl3
  have hnone : ∀ {va info}, userPage pf.toRam m' l0 va ≠ some info := by
    intro va info
    rw [userPage, hblank]
    simp
  have hsub : m'.pool.Sublist m.pool := by
    rw [hrest, hpool]
    exact (List.sublist_append_right [l0, l1, l2] rest)
  refine ⟨hfresh, ⟨hrest ▸ hforest, ?_, ?_, ?_, ?_, ?_, ?_⟩, hblank, hleaves, hsub,
    fun ha => hw.other _ (ha _ (hin (by simp))) (ha _ (hin (by simp))) (ha _ (hin (by simp)))⟩
  · intro p hp
    exact h.pool p (by rw [hpool]; simp [← hrest, hp])
  · intro r va hr hva js i q hpre hq
    have hidx : ∀ k ∈ js ++ [i], k < 512 := fun k hk => index_lt va k (hpre.subset hk)
    have hlen := hpre.length_le
    simp only [List.length_append, path, List.length_cons, List.length_nil] at hlen
    have hi : i < 512 := hidx i (by simp)
    obtain hq' | ⟨rfl, hq'⟩ := htables.mp ⟨hr, fun k hk => hidx k (by simp [hk]), by omega, hq⟩
    · rw [Memory.peek, hold hq' hi]
      exact h.clear hq'.root hva js i q hpre hq'.reach
    · exact hw.clear (fun p hp => h.pool p (hin hp)) hq' hi hpre hva
  · intro r va info hr hp
    obtain rfl | hr := Set.mem_insert_iff.mp hr
    · exact absurd hp hnone
    · exact h.user hr (userPage_congr (hleaves hr) ▸ hp)
  · intro r va info hr hp
    obtain rfl | hr := Set.mem_insert_iff.mp hr
    · exact absurd hp hnone
    · obtain ⟨hfree, htab⟩ := h.data hr (userPage_congr (hleaves hr) ▸ hp)
      refine ⟨fun hmem => hfree (by rw [hpool]; simp [← hrest, hmem]), fun r' js q hq => ?_⟩
      obtain hq | ⟨-, hq⟩ := htables.mp hq
      · exact htab r' js q hq
      · rintro rfl
        refine hfree (hin ?_)
        simp only [List.mem_cons, Prod.mk.injEq, List.not_mem_nil, or_false] at hq ⊢
        tauto
  · intro r js q i c hq hlt hi hc
    obtain hq | ⟨-, hq⟩ := htables.mp hq
    · rw [hold hq hi] at hc ⊢
      exact h.tidy hq hlt hi hc
    · exact hw.tidy (fun p hp => h.pool p (hin hp)) hq hi hc
  · intro r va hr hva hk
    obtain rfl | hr := Set.mem_insert_iff.mp hr
    · obtain ⟨js, i, q, hjs, hpre, hq, hb⟩ := hw.block hva hk
      exact ⟨js, i, q, hjs, hpre, htables.mpr (Or.inr ⟨rfl, hq⟩), hb⟩
    · obtain ⟨js, i, q, hjs, hpre, hq, hb⟩ := h.slots hr hva hk
      refine ⟨js, i, q, hjs, hpre, htables.mpr (Or.inl hq), ?_⟩
      rw [hold hq (index_lt va i (hpre.subset (by simp)))]
      exact hb

/-- `allocPageMap` takes three pages or, with fewer, fails. -/
lemma allocPageMap_pool (pf : Platform) (m : Memory) :
    (∃ l0 l1 l2 rest, m.pool = l0 :: l1 :: l2 :: rest) ∨ (allocPageMap pf m).1 = none := by
  rcases hpool : m.pool with _ | ⟨l0, _ | ⟨l1, _ | ⟨l2, rest⟩⟩⟩
  · right
    simp [allocPageMap, allocPage, hpool]
  · right
    simp [allocPageMap, allocPage, hpool, zeroPage]
  · right
    have h1 : allocPage m = (some l0, { m with pool := [l1] }) := by simp only [allocPage, hpool]
    have h2 : allocPage (zeroPage l0 { m with pool := [l1] }) = (some l1, { zeroPage l0 m with pool := [] }) := by
      simp only [allocPage, zeroPage]
    have h3 : allocPage (cloned pf m l0 l1 []) = (none, cloned pf m l0 l1 []) := by simp only [allocPage, cloned_pool]
    rw [cloned] at h3
    simp only [allocPageMap, h1, h2, h3]
  · exact Or.inl ⟨l0, l1, l2, rest, rfl⟩

theorem allocPageMap_cases (h : Spaces pf roots m) :
    (∃ l0 m', allocPageMap pf m = (some l0, m') ∧ Creates pf roots m m' l0 ∧ 3 + m'.pool.length = m.pool.length) ∨
    (allocPageMap pf m).1 = none := by
  obtain ⟨l0, l1, l2, rest, hpool⟩ | hnone := allocPageMap_pool pf m
  · refine Or.inl ⟨l0, created pf m l0 l1 l2 rest, allocPageMap_eq hpool, h.creates hpool, ?_⟩
    simp only [created, cloneKernelL2, Memory.poke, zeroPage, hpool, List.length_cons]
    omega
  · exact Or.inr hnone

theorem Spaces.allocPageMap (h : Spaces pf roots m) (hsome : (VirtualMemory.allocPageMap pf m).1 = some l0) :
    Creates pf roots m (VirtualMemory.allocPageMap pf m).2 l0 := by
  obtain ⟨l0', m', heq, hc, -⟩ | hnone := allocPageMap_cases h
  · rw [heq] at hsome ⊢
    cases hsome
    exact hc
  · rw [hnone] at hsome
    cases hsome

end Alloc

/-- A machine with 4 GiB of RAM, of which the allocators own 256 MiB. -/
def samplePlatform : Platform where
  minAddr := 0
  maxAddr := 0
  buddyStart := 0x50000000
  buddyEnd := 0x60000000
  bound := by norm_num
  l1Low := l1Boot 4 2 0x40200000
  kernelOwned i := by
    unfold l1Boot
    split_ifs with h1 h2 h3
    · exact userTable_mapBlock _ _ _
    · exact userTable_mapBlock _ _ _
    · obtain rfl | rfl : i = 264 ∨ i = 265 := by omega
      · decide
      · decide
    · exact userTable_zero _
  blocks i hi hne := by
    simp only [l1Boot] at hne ⊢
    split_ifs at hne ⊢ with h1 h2
    · decide
    · exact ⟨by simp [mapBlock], by simp [mapBlock]⟩
    · omega
    · exact absurd rfl hne

/-- Its memory before the first address space, with 32 free pages. -/
def sampleBoot : Memory := ⟨fun _ => 0#64, (List.range 32).map fun i => 0x50000000 + 4096*i⟩

lemma sampleBoot_spaces : Spaces samplePlatform ∅ sampleBoot :=
  Spaces.empty (by decide) (by decide)

end HouseKernel.VirtualMemory
