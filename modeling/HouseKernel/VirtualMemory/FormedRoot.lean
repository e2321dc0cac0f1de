import HouseKernel.VirtualMemory.Hardware
import HouseKernel.VirtualMemory.PagedRoot

/-! What stands at the slots of a root's tables, whoever wrote them: no descriptor but those of tables, of pages and of the
kernel's blocks. -/
namespace HouseKernel.VirtualMemory

open HouseKernel.Lib

/-- Open to the process exactly when it is tagged with the address space. -/
def OwnOpen (d : Desc) : Prop := d.getLsbD 6 = d.getLsbD bNG

/-- An inner descriptor: invalid, a table, or below the root a block. -/
def Inner (top : Prop) (d : Desc) : Prop :=
  d &&& 1 = 0 ∨ (∃ c, d = descFromTable c ∧ 0 < c ∧ c % 4096 = 0 ∧ c < 2^48) ∨ (¬ top ∧ d &&& 3 = 1 ∧ OwnOpen d)

/-- A descriptor of the lowest level: invalid, or a page. -/
def Lowest (d : Desc) : Prop := d &&& 1 = 0 ∨ (d &&& 3 = 3 ∧ OwnOpen d)

/-- The tables of one root, next to the free pages and some more that are held back. -/
structure Formed (m : Memory) (r : ℕ) (held : List ℕ) : Prop where
  forest : Forest hwTable 3 m.mem {r} (m.pool ++ held)
  pool : ∀ p ∈ m.pool, 0 < p ∧ p < 2^48
  root : 0 < r
  inner : ∀ {js t i}, Stands hwTable 3 m.mem {r} r js t → js.length < 3 → i < 512 → Inner (js = []) (m.mem (t + 8*i))
  lowest : ∀ {js t i}, Stands hwTable 3 m.mem {r} r js t → js.length = 3 → i < 512 → Lowest (m.mem (t + 8*i))

/-- The way along `is` meets no block. -/
def TablesOnly (mem : ℕ → Desc) : ℕ → List ℕ → Prop
  | _, [] => True
  | t, i :: is => mem (t + 8*i) &&& 3 ≠ 1 ∧ ∀ c, hwTable (mem (t + 8*i)) = some c → TablesOnly mem c is

instance decidableTablesOnly (mem : ℕ → Desc) : ∀ t is, Decidable (TablesOnly mem t is)
  | _, [] => isTrue trivial
  | t, i :: is => match hc : hwTable (mem (t + 8*i)) with
    | none => decidable_of_iff (mem (t + 8*i) &&& 3 ≠ 1) (by simp [TablesOnly, hc])
    | some c =>
      have := decidableTablesOnly mem c is
      decidable_of_iff (mem (t + 8*i) &&& 3 ≠ 1 ∧ TablesOnly mem c is) (by simp [TablesOnly, hc])

section Descriptors

variable {d : Desc} {top : Prop}

/-- Where there is no block, all walks go the same way. -/
lemma Inner.table_eq (h : Inner top d) (hb : d &&& 3 ≠ 1) : tableFromDesc d = hwTable d ∧ rawTable d = hwTable d := by
  obtain hzero | ⟨c, rfl, -, ha, hlt⟩ | ⟨-, hblock, -⟩ := h
  · have hbit : ¬ d.getLsbD bValid = true := fun hv => (bit_and_one d).mpr hv hzero
    rw [tableFromDesc, if_neg hbit, rawTable, if_pos hzero, hwTable_invalid hzero]
    exact ⟨rfl, rfl⟩
  · rw [tableFromDesc_descFromTable ha hlt, hwTable_descFromTable ha hlt, rawTable, if_neg (descFromTable_bits c).1,
      descFromTable_raw ha hlt]
    exact ⟨rfl, rfl⟩
  · exact absurd hblock hb

lemma Inner.table_pos {c : ℕ} (h : Inner top d) (hc : hwTable d = some c) : 0 < c ∧ c < 2^48 := by
  obtain hzero | ⟨c', rfl, hpos, ha, hlt⟩ | ⟨-, hblock, -⟩ := h
  · rw [hwTable_invalid hzero] at hc
    cases hc
  · rw [hwTable_descFromTable ha hlt] at hc
    obtain rfl := Option.some.inj hc
    exact ⟨hpos, hlt⟩
  · rw [hwTable_block hblock] at hc
    cases hc

lemma lowest_zero : Lowest 0 := Or.inl (by decide)

lemma lowest_demandDesc (writable : Bool) : Lowest (demandDesc writable) := by
  cases writable
  · exact Or.inl (by decide)
  · exact Or.inl (by decide)

/-- What `setPage` writes is a page that is open to the process. -/
lemma lowest_pageInfoToDesc (info : PageInfo) : Lowest (pageInfoToDesc info) := by
  have hflags : ∀ w d a c : Bool, flagBits w d a c &&& 3 = 3 ∧ (flagBits w d a c).getLsbD 6 = true ∧
      (flagBits w d a c).getLsbD bNG = true := by decide
  obtain ⟨htype, hopen, hng⟩ := hflags info.writable info.dirty info.accessed info.cow
  refine Or.inr ⟨?_, ?_⟩
  · have hfield := field_flagBits info.physPage (flagBits info.writable info.dirty info.accessed info.cow) 0 3 (by decide)
    simp only [BitVec.ushiftRight_zero] at hfield
    rw [pageInfoToDesc_eq, hfield, htype]
  · rw [OwnOpen, pageInfoToDesc_eq, bit_flagBits _ _ _ (by decide), bit_flagBits _ _ _ (by decide), hopen, hng]

end Descriptors

section Steps

variable {m m' : Memory} {r t i c : ℕ} {held held' rest : List ℕ} {js : List ℕ} {d : Desc}

/-- What leaves the tables alone, and takes no page of theirs for a free one. -/
theorem Formed.same (h : Formed m r held)
    (hread : ∀ {js t i}, Stands hwTable 3 m.mem {r} r js t → i < 512 → m'.mem (t + 8*i) = m.mem (t + 8*i))
    (hfree : ∀ p ∈ m'.pool ++ held', p % 4096 = 0 ∧ ∀ js, ¬ Stands hwTable 3 m.mem {r} r js p)
    (hnodup : (m'.pool ++ held').Nodup) (hpool : ∀ p ∈ m'.pool, 0 < p ∧ p < 2^48) :
    Formed m' r held' ∧ ∀ {js t}, Stands hwTable 3 m'.mem {r} r js t ↔ Stands hwTable 3 m.mem {r} r js t := by
  have hroot : ∀ {r' js t}, Stands hwTable 3 m.mem {r} r' js t → r' = r := fun ht => ht.root
  have hstands : ∀ {r' js t}, Stands hwTable 3 m'.mem {r} r' js t ↔ Stands hwTable 3 m.mem {r} r' js t :=
    stands_congr fun {r' _ _ _} ht _ hi => by
      obtain rfl := hroot ht
      rw [hread ht hi]
  refine ⟨⟨⟨fun ht => h.forest.aligned (hstands.mp ht), fun ht ht' => h.forest.unique (hstands.mp ht) (hstands.mp ht'),
    fun {r' js t} ht hmem => ?_, fun hp => (hfree _ hp).1, hnodup⟩, hpool, h.root, fun ht hjs hi => ?_, fun ht hjs hi => ?_⟩,
    hstands⟩
  · obtain rfl := hroot (hstands.mp ht)
    exact (hfree t hmem).2 js (hstands.mp ht)
  · rw [hread (hstands.mp ht) hi]
    exact h.inner (hstands.mp ht) hjs hi
  · rw [hread (hstands.mp ht) hi]
    exact h.lowest (hstands.mp ht) hjs hi

/-- A free page becomes a table behind a slot that had none. -/
theorem Formed.hang (h : Formed m r held) (ht : Stands hwTable 3 m.mem {r} r js t) (hjs : js.length < 3) (hi : i < 512)
    (hempty : hwTable (m.mem (t + 8*i)) = none) (hpool : m.pool = c :: rest) (hpool' : m'.pool = rest)
    (hlink : m'.mem (t + 8*i) = descFromTable c)
    (hother : ∀ a, a ≠ t + 8*i → a < c ∨ c + 4096 ≤ a → m'.mem a = m.mem a)
    (hparts : js.length + 1 < 3 → ∀ j < 512, hwTable (m'.mem (c + 8*j)) = none ∧ Inner False (m'.mem (c + 8*j)))
    (hpages : js.length + 1 = 3 → ∀ j < 512, Lowest (m'.mem (c + 8*j))) :
    Formed m' r held ∧ ∀ {ks q}, Stands hwTable 3 m'.mem {r} r ks q ↔
      Stands hwTable 3 m.mem {r} r ks q ∨ (ks = js ++ [i] ∧ q = c) := by
  have hf : Forest hwTable 3 m.mem {r} (c :: (rest ++ held)) := by
    have := h.forest
    rwa [hpool] at this
  have hc := hf.freeAligned List.mem_cons_self
  obtain ⟨hpos, hbound⟩ := h.pool c (by simp [hpool])
  have hlink' : hwTable (m'.mem (t + 8*i)) = some c := by rw [hlink, hwTable_descFromTable hc hbound]
  have hstands : ∀ {r' ks q}, Stands hwTable 3 m'.mem {r} r' ks q ↔
      Stands hwTable 3 m.mem {r} r' ks q ∨ (r' = r ∧ ks = js ++ [i] ∧ q = c) :=
    hf.stands_hang ht hjs hi hempty hlink' (fun hlt j hj => (hparts hlt j hj).1) fun a _ ha hne => hother a hne ha
  have hforest : Forest hwTable 3 m'.mem {r} (m'.pool ++ held) := by
    rw [hpool']
    exact hf.extend fun _ _ _ => hstands
  -- a word of an old table other than the slot
  have hold : ∀ {ks q j}, Stands hwTable 3 m.mem {r} r ks q → j < 512 → ¬ (q = t ∧ j = i) →
      m'.mem (q + 8*j) = m.mem (q + 8*j) := by
    intro ks q j hq hj hne
    refine hother _ (word_ne (hf.aligned hq) (hf.aligned ht) hj hi (by tauto)) (outside_page (hf.aligned hq) hc hj ?_)
    rintro rfl
    exact hf.apart hq List.mem_cons_self
  refine ⟨⟨hforest, fun p hp => h.pool p ?_, h.root, fun {ks q j} hq hks hj => ?_, fun {ks q j} hq hks hj => ?_⟩,
    fun {ks q} => ?_⟩
  · rw [hpool, ← hpool']
    exact List.mem_cons_of_mem _ hp
  · obtain hq | ⟨-, rfl, rfl⟩ := hstands.mp hq
    · by_cases hslot : q = t ∧ j = i
      · obtain ⟨rfl, rfl⟩ := hslot
        rw [hlink]
        exact Or.inr (Or.inl ⟨c, rfl, hpos, hc, hbound⟩)
      · rw [hold hq hj hslot]
        exact h.inner hq hks hj
    · rw [List.length_append, List.length_singleton] at hks
      simpa using (hparts hks j hj).2
  · obtain hq | ⟨-, rfl, rfl⟩ := hstands.mp hq
    · rw [hold hq hj]
      · exact h.lowest hq hks hj
      · rintro ⟨rfl, -⟩
        have := (hf.unique hq ht).2
        rw [this] at hks
        omega
    · rw [List.length_append, List.length_singleton] at hks
      exact hpages hks j hj
  · simpa using @hstands r ks q

/-- A descriptor of the lowest level is written. -/
theorem Formed.poke (h : Formed m r held) (ht : Stands hwTable 3 m.mem {r} r js t) (hjs : js.length = 3) (hi : i < 512)
    (hd : Lowest d) : Formed (m.poke t i d) r held ∧
      ∀ {ks q}, Stands hwTable 3 (m.poke t i d).mem {r} r ks q ↔ Stands hwTable 3 m.mem {r} r ks q := by
  have hread : ∀ {r' ks q j}, Stands hwTable 3 m.mem {r} r' ks q → ks.length < 3 → j < 512 →
      hwTable ((m.poke t i d).mem (q + 8*j)) = hwTable (m.mem (q + 8*j)) := fun hq hks hj =>
    h.forest.leaf_write ht hjs hi d hq hks hj
  have hstands : ∀ {r' ks q}, Stands hwTable 3 (m.poke t i d).mem {r} r' ks q ↔ Stands hwTable 3 m.mem {r} r' ks q :=
    stands_congr hread
  have hold : ∀ {ks q j}, Stands hwTable 3 m.mem {r} r ks q → j < 512 → ¬ (q = t ∧ j = i) →
      (m.poke t i d).mem (q + 8*j) = m.mem (q + 8*j) := fun hq hj hne =>
    Function.update_of_ne (word_ne (h.forest.aligned hq) (h.forest.aligned ht) hj hi (by tauto)) _ _
  refine ⟨⟨h.forest.congr hread, h.pool, h.root, fun {ks q j} hq hks hj => ?_, fun {ks q j} hq hks hj => ?_⟩, hstands⟩
  · rw [hold (hstands.mp hq) hj]
    · exact h.inner (hstands.mp hq) hks hj
    · rintro ⟨rfl, -⟩
      have := (h.forest.unique (hstands.mp hq) ht).2
      rw [this] at hks
      omega
  · by_cases hslot : q = t ∧ j = i
    · obtain ⟨rfl, rfl⟩ := hslot
      rw [Memory.poke]
      simpa using hd
    · rw [hold (hstands.mp hq) hj hslot]
      exact h.lowest (hstands.mp hq) hks hj

/-- A table of the lowest level is taken out and becomes free. -/
theorem Formed.prune (h : Formed m r held) (ht : Stands hwTable 3 m.mem {r} r js t) (hjs : js.length = 2) (hi : i < 512)
    (hc : hwTable (m.mem (t + 8*i)) = some c) : Formed (freePage c (m.poke t i 0)) r held := by
  have hnone : hwTable ((m.poke t i 0).mem (t + 8*i)) = none := by
    rw [Memory.poke]
    simp [hwTable_invalid]
  have hold : ∀ {r' ks q j}, Stands hwTable 3 m.mem {r} r' ks q → j < 512 → ¬ (q = t ∧ j = i) →
      (m.poke t i 0).mem (q + 8*j) = m.mem (q + 8*j) := fun hq hj hne =>
    Function.update_of_ne (word_ne (h.forest.aligned hq) (h.forest.aligned ht) hj hi (by tauto)) _ _
  have hout : ∀ {r' ks q j}, Stands hwTable 3 m.mem {r} r' ks q → ks.length < 3 → j < 512 → ¬ (q = t ∧ j = i) →
      hwTable ((m.poke t i 0).mem (q + 8*j)) = hwTable (m.mem (q + 8*j)) := fun hq _ hj hne => congrArg hwTable (hold hq hj hne)
  have hstands : ∀ {r' ks q}, Stands hwTable 3 (m.poke t i 0).mem {r} r' ks q ↔ Stands hwTable 3 m.mem {r} r' ks q ∧ q ≠ c :=
    h.forest.stands_prune ht (by omega) hi hc hnone hout
  have hbound := (h.inner ht (by omega) hi).table_pos hc
  refine ⟨h.forest.prune ht (by omega) hi hc hnone hout, fun p hp => ?_, h.root, fun {ks q j} hq hks hj => ?_,
    fun {ks q j} hq hks hj => ?_⟩
  · obtain rfl | hp := List.mem_cons.mp hp
    · exact hbound
    · exact h.pool p hp
  · obtain ⟨hq', -⟩ := hstands.mp hq
    by_cases hslot : q = t ∧ j = i
    · obtain ⟨rfl, rfl⟩ := hslot
      have hzero : (freePage c (m.poke q j 0)).mem (q + 8*j) = 0 := Function.update_self _ _ _
      rw [hzero]
      exact Or.inl (by decide)
    · exact (hold hq' hj hslot).symm ▸ h.inner hq' hks hj
  · obtain ⟨hq', -⟩ := hstands.mp hq
    refine (hold hq' hj ?_).symm ▸ h.lowest hq' hks hj
    rintro ⟨rfl, -⟩
    have := (h.forest.unique hq' ht).2
    rw [this] at hks
    omega

lemma Formed.table_pos (h : Formed m r held) (ht : Stands hwTable 3 m.mem {r} r js t) : 0 < t := by
  induction js using List.reverseRecOn with
  | nil =>
    obtain ⟨-, rfl⟩ := stands_nil.mp ht
    exact h.root
  | append_singleton js j _ =>
    have hlen := ht.short
    rw [List.length_append, List.length_singleton] at hlen
    obtain ⟨q, hq, hc⟩ := ht.parent
    exact ((h.inner hq (by omega) (ht.index j (by simp))).table_pos hc).1

/-- The slot of a table does not lie in a free page. -/
lemma Formed.freeOf (h : Formed m r held) (ht : Stands hwTable 3 m.mem {r} r js t) (hi : i < 512) : FreeOf m (t + 8*i) := by
  intro p hp
  have hin : p ∈ m.pool ++ held := List.mem_append_left _ hp
  have hpa := h.forest.freeAligned hin
  refine ⟨hpa, (h.pool p hp).2, ?_⟩
  refine outside_page (h.forest.aligned ht) hpa hi ?_
  rintro rfl
  exact h.forest.apart ht hin

/-- A page is taken out of the pool, cleared and held. -/
theorem Formed.take (h : Formed m r []) (hpool : m.pool = c :: rest) : Formed (zeroPage c { m with pool := rest }) r [c] ∧
    ∀ {js t}, Stands hwTable 3 (zeroPage c { m with pool := rest }).mem {r} r js t ↔ Stands hwTable 3 m.mem {r} r js t := by
  have hf : Forest hwTable 3 m.mem {r} (c :: rest) := by
    have := h.forest
    rwa [List.append_nil, hpool] at this
  have hperm : (c :: rest).Perm (rest ++ [c]) := (List.perm_append_singleton c rest).symm
  refine h.same (fun {js t i} ht hi => ?_) (fun p hp => ?_) (hperm.nodup_iff.mp hf.nodup) fun p hp => h.pool p ?_
  · refine if_neg ?_
    have := outside_page (hf.aligned ht) (hf.freeAligned List.mem_cons_self) hi fun heq : t = c =>
      hf.apart ht (heq ▸ List.mem_cons_self)
    omega
  · have hin : p ∈ c :: rest := hperm.mem_iff.mpr hp
    exact ⟨hf.freeAligned hin, fun js ht => hf.apart ht hin⟩
  · rw [hpool]
    exact List.mem_cons_of_mem _ hp

/-- The page goes back. -/
lemma Formed.give (h : Formed m r [c]) (hpos : 0 < c) (hb : c < 2^48) : Formed (freePage c m) r [] where
  forest := h.forest.perm (by rw [List.append_nil]; exact (List.perm_append_singleton c m.pool).symm)
  pool p hp := by
    obtain rfl | hp := List.mem_cons.mp hp
    · exact ⟨hpos, hb⟩
    · exact h.pool p hp
  root := h.root
  inner := h.inner
  lowest := h.lowest

/-- The held page is mapped. -/
lemma Formed.keep (h : Formed m r held) : Formed m r [] where
  forest := h.forest.subset le_rfl (by rw [List.append_nil]; exact List.sublist_append_left _ _)
  pool := h.pool
  root := h.root
  inner := h.inner
  lowest := h.lowest

end Steps

section Fresh

variable {pf : Platform} {m : Memory} {r : ℕ}

/-- The kernel's part of a root with all its descriptors. -/
structure KernelTables (pf : Platform) (m : Memory) : Prop extends SharedTables pf m where
  entries : ∀ i < 512, Inner False (pf.l1Low i)
  words : ∀ {i c j}, i < 512 → hwTable (pf.l1Low i) = some c → j < 512 → Inner False (m.mem (c + 8*j))

/-- A new root. -/
theorem formed_allocPageMap (hk : KernelTables pf m) (hnodup : m.pool.Nodup)
    (hpages : ∀ p ∈ m.pool, 0 < p ∧ p < 2^48 ∧ p % 4096 = 0) (hsome : (allocPageMap pf m).1 = some r) :
    Formed (allocPageMap pf m).2 r [] := by
  have hpaged := paged_allocPageMap hk.toSharedTables hnodup hpages hsome
  obtain ⟨l1, l2, h⟩ := allocPageMap_newRoot hk.toSharedTables hnodup hpages hsome
  refine ⟨h.forest, hpaged.pool, hpaged.root, fun {js t i} ht _ hi => ?_, fun {js t i} ht hjs _ => ?_⟩
  · obtain ⟨rfl, rfl⟩ | ⟨rfl, rfl⟩ | ⟨rfl, rfl⟩ | ⟨j, -, hj, rfl, hc⟩ := h.stands ht
    · rw [h.words.root i hi]
      split_ifs
      · exact Or.inr (Or.inl ⟨l1, rfl, h.page1.1, h.page1.2.2, h.page1.2.1⟩)
      · exact Or.inl (by decide)
    · rw [h.words.mid i hi]
      split_ifs
      · exact Or.inr (Or.inl ⟨l2, rfl, h.page2.1, h.page2.2.2, h.page2.2.1⟩)
      · simpa using hk.entries i hi
    · rw [h.words.low i hi]
      split_ifs
      · exact Or.inr (Or.inr ⟨by simp, by decide, by unfold OwnOpen; decide⟩)
      · exact Or.inr (Or.inr ⟨by simp, by decide, by unfold OwnOpen; decide⟩)
      · exact Or.inl (by decide)
    · rw [h.kernel_word hj hc hi]
      simpa using hk.words hj hc hi
  · obtain ⟨rfl, -⟩ | ⟨rfl, -⟩ | ⟨rfl, -⟩ | ⟨j, -, -, rfl, -⟩ := h.stands ht
    all_goals simp at hjs

lemma inner_mapBlock (idx : ℕ) {attr : Desc} (hattr : attr = 0 ∨ attr = 1) : Inner False (mapBlock idx attr) := by
  have hbits : ∀ k < 12, (mapBlock idx attr).getLsbD k = (1#64 ||| 1#64 <<< 10 ||| 3#64 <<< 8 ||| attr <<< 2).getLsbD k := by
    intro k hk
    rw [mapBlock, BitVec.getLsbD_or, BitVec.getLsbD_shiftLeft]
    simp [show k < 30 by omega]
  refine Or.inr (Or.inr ⟨not_false, block_and_three ((bit_and_one _).mpr ?_) ?_, ?_⟩)
  · rw [bValid, hbits 0 (by norm_num)]
    obtain rfl | rfl := hattr <;> decide
  · by_contra hne
    have hone := (bit_and_two _).mp hne
    rw [hbits 1 (by norm_num)] at hone
    obtain rfl | rfl := hattr <;> exact absurd hone (by decide)
  · rw [OwnOpen, hbits 6 (by norm_num), bNG, hbits 11 (by norm_num)]
    obtain rfl | rfl := hattr <;> decide

/-- The kernel's table after boot, with blocks in the alias window. -/
theorem kernelTables_l1Boot {blocks aliases l2Rts : ℕ} (hboot : pf.l1Low = l1Boot blocks aliases l2Rts) (hpos : 0 < l2Rts)
    (ha : l2Rts % 4096 = 0) (hb : l2Rts + 4096*aliases ≤ 2^48)
    (hout : ∀ p ∈ m.pool, p < l2Rts ∨ l2Rts + 4096*aliases ≤ p)
    (hwords : ∀ k < aliases, ∀ j < 512, hwTable (m.mem (l2Rts + 4096*k + 8*j)) = none ∧
    Inner False (m.mem (l2Rts + 4096*k + 8*j))) :
    KernelTables pf m := by
  have hshared := sharedTables_l1Boot hboot ha hb hout fun k hk j hj => (hwords k hk j hj).1
  have hdesc : ∀ k < aliases, (1#64 ||| 1#64 <<< 1 ||| BitVec.ofNat 64 (l2Rts + 4096*k)) = descFromTable (l2Rts + 4096*k) := by
    intro k hk
    rw [descFromTable, mAddress_ofNat (by omega) (by omega), BitVec.or_comm]
    rfl
  have hentries : ∀ i, Inner False (pf.l1Low i) ∧ ∀ c, hwTable (pf.l1Low i) = some c → ∃ k < aliases, c = l2Rts + 4096*k := by
    intro i
    rw [hboot, l1Boot]
    have hblock : ∀ {idx attr}, attr = 0 ∨ attr = 1 → ∀ c, hwTable (mapBlock idx attr) ≠ some c := by
      intro idx attr hattr c hc
      obtain hzero | ⟨c', heq, -⟩ | ⟨-, hone, -⟩ := inner_mapBlock idx hattr
      · rw [hwTable_invalid hzero] at hc
        cases hc
      · have hbit := (bit_and_two _).mp (descFromTable_bits c').2
        rw [← heq] at hbit
        obtain rfl | rfl := hattr <;> simp [mapBlock] at hbit
      · rw [hwTable_block hone] at hc
        cases hc
    split_ifs with h0 hram halias
    · exact ⟨inner_mapBlock 0 (Or.inr rfl), fun c hc => absurd hc (hblock (Or.inr rfl) c)⟩
    · exact ⟨inner_mapBlock i (Or.inl rfl), fun c hc => absurd hc (hblock (Or.inl rfl) c)⟩
    · rw [hdesc (i - 264) (by omega)]
      refine ⟨Or.inr (Or.inl ⟨_, rfl, by omega, by omega, by omega⟩), fun c hc => ⟨i - 264, by omega, ?_⟩⟩
      rw [hwTable_descFromTable (by omega) (by omega)] at hc
      exact (Option.some.inj hc).symm
    · exact ⟨Or.inl (by decide), fun c hc => by cases hc⟩
  refine ⟨hshared, fun i _ => (hentries i).1, fun {i c j} _ hc hj => ?_⟩
  obtain ⟨k, hk, rfl⟩ := (hentries i).2 c hc
  exact (hwords k hk j hj).2

end Fresh

section Writers

variable {m : Memory} {r t va : ℕ} {js is : List ℕ}

lemma tablesOnly_zero {mem : ℕ → Desc} (h : ∀ j < 512, mem (t + 8*j) = 0) (his : ∀ i ∈ is, i < 512) : TablesOnly mem t is := by
  cases is with
  | nil => trivial
  | cons i is =>
    rw [TablesOnly, h i (his i List.mem_cons_self)]
    refine ⟨by decide, fun c hc => ?_⟩
    rw [hwTable_invalid (by decide)] at hc
    cases hc

/-- A table is found or made. What it makes is empty. -/
lemma ensureTable_formed {i : ℕ} (h : Formed m r []) (ht : Stands hwTable 3 m.mem {r} r js t) (hjs : js.length < 3)
    (hi : ∀ k ∈ i :: is, k < 512) (hb : TablesOnly m.mem t (i :: is)) : Formed (ensureTable m t i).2 r [] ∧
      ∀ c, (ensureTable m t i).1 = some c →
        Stands hwTable 3 (ensureTable m t i).2.mem {r} r (js ++ [i]) c ∧ TablesOnly (ensureTable m t i).2.mem c is := by
  obtain ⟨hlt, his⟩ := List.forall_mem_cons.mp hi
  obtain ⟨htable, -⟩ := (h.inner ht hjs hlt).table_eq hb.1
  rw [ensureTable, Memory.peek, htable]
  cases hc : hwTable (m.mem (t + 8*i)) with
  | some c =>
    refine ⟨h, fun c' hc' => ?_⟩
    obtain rfl := Option.some.inj hc'
    exact ⟨ht.child hjs hlt hc, hb.2 c hc⟩
  | none =>
    cases hpool : m.pool with
    | nil =>
      simp only [allocPage, hpool]
      exact ⟨h, fun c hc => by cases hc⟩
    | cons c rest =>
      simp only [allocPage, hpool]
      have hmem : c ∈ m.pool ++ [] := by simp [hpool]
      have ha := h.forest.freeAligned hmem
      have hout : t + 8*i < c ∨ c + 4096 ≤ t + 8*i :=
        outside_page (h.forest.aligned ht) ha hlt fun heq => h.forest.apart ht (heq ▸ hmem)
      have hzero : ∀ j < 512, ((zeroPage c { m with pool := rest }).poke t i (descFromTable c)).mem (c + 8*j) = 0 := by
        intro j hj
        simp only [Memory.poke, zeroPage]
        rw [Function.update_of_ne (by omega), if_pos (by omega)]
      have hlink : ((zeroPage c { m with pool := rest }).poke t i (descFromTable c)).mem (t + 8*i) = descFromTable c :=
        Function.update_self _ _ _
      obtain ⟨hformed, hstands⟩ := h.hang ht hjs hlt hc hpool rfl hlink (fun a hne ha' => by
        simp only [Memory.poke, zeroPage]
        rw [Function.update_of_ne hne, if_neg (by omega)]) (fun _ j hj => by
        rw [hzero j hj]
        exact ⟨hwTable_invalid (by decide), Or.inl (by decide)⟩) (fun _ j hj => by
        rw [hzero j hj]
        exact lowest_zero)
      refine ⟨hformed, fun c' hc' => ?_⟩
      obtain rfl := Option.some.inj hc'
      exact ⟨hstands.mpr (Or.inr ⟨rfl, rfl⟩), tablesOnly_zero hzero his⟩

lemma ensurePath_formed (h : Formed m r []) (ht : Stands hwTable 3 m.mem {r} r js t) (hlen : js.length + is.length ≤ 3)
    (hi : ∀ k ∈ is, k < 512) (hb : TablesOnly m.mem t is) : Formed (ensurePath m t is).2 r [] ∧
      ∀ c, (ensurePath m t is).1 = some c → Stands hwTable 3 (ensurePath m t is).2.mem {r} r (js ++ is) c := by
  induction is generalizing m t js with
  | nil =>
    refine ⟨h, fun c hc => ?_⟩
    obtain rfl := Option.some.inj hc
    rwa [List.append_nil]
  | cons i is ih =>
    rw [List.length_cons] at hlen
    obtain ⟨hformed, hstep⟩ := ensureTable_formed h ht (by omega) hi hb
    rw [ensurePath]
    generalize ensureTable m t i = out at hformed hstep
    obtain ⟨_ | c, m'⟩ := out
    · exact ⟨hformed, fun c hc => by cases hc⟩
    · obtain ⟨hc, hb'⟩ := hstep c rfl
      rw [List.append_cons]
      exact ih hformed hc (by rw [List.length_append, List.length_singleton]; omega) (List.forall_mem_cons.mp hi).2 hb'

/-- The way to a table of the lowest level, for the writers that make what is missing. -/
lemma ensureL3_formed (h : Formed m r []) (hva : validVAddr va = true) (hb : TablesOnly m.mem r (path va)) :
    Formed (ensureL3 m r va).2 r [] ∧
      ∀ l3, (ensureL3 m r va).1 = some l3 → Stands hwTable 3 (ensureL3 m r va).2.mem {r} r (path va) l3 := by
  rw [ensureL3_eq hva]
  exact ensurePath_formed h (stands_nil.mpr ⟨rfl, rfl⟩) le_rfl (index_lt va) hb

theorem setPage_formed (h : Formed m r []) (hb : TablesOnly m.mem r (path va)) (info : Option PageInfo) :
    Formed (setPage m r va info).2 r [] := by
  by_cases hva : validVAddr va = true
  · cases info with
    | some info =>
      obtain ⟨hformed, hl3⟩ := ensureL3_formed h hva hb
      rw [setPage]
      generalize ensureL3 m r va = out at hformed hl3
      obtain ⟨_ | l3, m'⟩ := out
      · exact hformed
      · exact (hformed.poke (hl3 l3 rfl) rfl (l3Index_lt va) (lowest_pageInfoToDesc info)).1
    | none =>
      have hlt := index_lt va
      simp only [path, List.mem_cons, List.not_mem_nil, or_false, forall_eq_or_imp, forall_eq] at hlt
      obtain ⟨hb0, hb⟩ := hb
      have h0 : Stands hwTable 3 m.mem {r} r [] r := stands_nil.mpr ⟨rfl, rfl⟩
      simp only [setPage, hva, if_true, Memory.peek, ((h.inner h0 (by simp) hlt.1).table_eq hb0).1]
      cases hc1 : hwTable (m.mem (r + 8*l0Index va)) with
      | none => exact h
      | some l1 =>
        obtain ⟨hb1, hb⟩ := hb l1 hc1
        have h1 := h0.child (by simp) hlt.1 hc1
        simp only [((h.inner h1 (by simp) hlt.2.1).table_eq hb1).1]
        cases hc2 : hwTable (m.mem (l1 + 8*l1Index va)) with
        | none => exact h
        | some l2 =>
          obtain ⟨hb2, -⟩ := hb l2 hc2
          have h2 := h1.child (by simp) hlt.2.1 hc2
          simp only [((h.inner h2 (by simp) hlt.2.2).table_eq hb2).1]
          cases hc3 : hwTable (m.mem (l2 + 8*l2Index va)) with
          | none => exact h
          | some l3 =>
            have h3 := h2.child (by simp) hlt.2.2 hc3
            simp only
            cases descToPageInfo (m.mem (l3 + 8*l3Index va)) with
            | none => exact h
            | some _ =>
              obtain ⟨hformed, hstands⟩ := h.poke h3 rfl (l3Index_lt va) lowest_zero
              simp only
              split_ifs
              · refine hformed.prune (hstands.mpr h2) rfl hlt.2.2 ?_
                have hne : l2 + 8*l2Index va ≠ l3 + 8*l3Index va := by
                  refine word_ne (h.forest.aligned h2) (h.forest.aligned h3) hlt.2.2 (l3Index_lt va) (Or.inl ?_)
                  rintro rfl
                  have := (h.forest.unique h2 h3).2
                  simp at this
                simp only [Memory.poke]
                rw [Function.update_of_ne hne]
                exact hc3
              · exact hformed
  · cases info with
    | some info => simpa [setPage, ensureL3, hva] using h
    | none => simpa [setPage, hva] using h

theorem setDemandPage_formed (h : Formed m r []) (hb : TablesOnly m.mem r (path va)) (writable : Bool) :
    Formed (setDemandPage m r va writable).2 r [] := by
  rw [setDemandPage]
  split_ifs with hva
  · rw [Bool.and_eq_true] at hva
    obtain ⟨hformed, hl3⟩ := ensureL3_formed h hva.1 hb
    generalize ensureL3 m r va = out at hformed hl3
    obtain ⟨_ | l3, m'⟩ := out
    · exact hformed
    · simp only
      cases descToPageInfo (m'.peek l3 (l3Index va)) with
      | some _ => exact hformed
      | none => exact (hformed.poke (hl3 l3 rfl) rfl (l3Index_lt va) (lowest_demandDesc writable)).1
  · exact h

end Writers

end HouseKernel.VirtualMemory
