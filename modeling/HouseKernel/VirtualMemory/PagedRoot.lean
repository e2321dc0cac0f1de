import HouseKernel.VirtualMemory.BlockSplit
import HouseKernel.VirtualMemory.Creation

/-! The tables under one root as the hardware walks them, with the kernel's blocks and its shared tables, and what may
be added to them so that no translation changes. -/
namespace HouseKernel.VirtualMemory

open HouseKernel.Lib

/-- An inner descriptor as the kernel writes them: invalid, a table, or below the root a block under 16 TiB. -/
def Plain (top : Prop) (d : Desc) : Prop :=
  d &&& 1 = 0 ∨ (∃ c, d = descFromTable c ∧ 0 < c ∧ c % 4096 = 0 ∧ c < 2^48) ∨
    (¬ top ∧ d &&& 3 = 1 ∧ d &&& 0xF00000000000 = 0)

/-- Indices on the way to an address of the user's range. -/
def InWindow (is : List ℕ) : Prop := ∃ va ≤ maxVAddr, is <+: indices 3 va

/-- The tables of one root, next to the free pages and some more that are held back. -/
structure Paged (m : Memory) (r : ℕ) (held : List ℕ) : Prop where
  forest : Forest hwTable 3 m.mem {r} (m.pool ++ held)
  pool : ∀ p ∈ m.pool, 0 < p ∧ p < 2^48
  root : 0 < r
  plain : ∀ {js t i}, Stands hwTable 3 m.mem {r} r js t → js.length < 3 → InWindow (js ++ [i]) →
    Plain (js = []) (m.mem (t + 8*i))

/-- An address that is neither in a free page nor in the part of the tables that the pager works on. -/
structure Apart (m : Memory) (r a : ℕ) : Prop where
  pages : ∀ p ∈ m.pool, a < p ∨ p + 4096 ≤ a
  tables : ∀ {js t i}, Stands hwTable 3 m.mem {r} r js t → InWindow (js ++ [i]) → a ≠ t + 8*i

/-- What the pager may do before it maps the page: take pages for tables that do not show. -/
structure Neutral (m m' : Memory) (r : ℕ) (held : List ℕ) : Prop where
  paged : Paged m' r held
  same : ∀ va, translate m' r va = translate m r va
  grown : ∀ {js t}, Stands hwTable 3 m.mem {r} r js t → Stands hwTable 3 m'.mem {r} r js t
  taken : ∃ used, m.pool = used ++ m'.pool ∧ ∀ p ∈ used, ∃ js, Stands hwTable 3 m'.mem {r} r js p
  free : ∀ p ∈ m'.pool ++ held, ∀ a, p ≤ a → a < p + 4096 → m'.mem a = m.mem a
  frame : ∀ {a}, Apart m r a → Apart m' r a ∧ m'.mem a = m.mem a

lemma InWindow.front {is js : List ℕ} (h : InWindow (is ++ js)) : InWindow is := by
  obtain ⟨va, hva, hpre⟩ := h
  exact ⟨va, hva, (List.prefix_append is js).trans hpre⟩

lemma InWindow.lt {is : List ℕ} {i : ℕ} (h : InWindow is) (hi : i ∈ is) : i < 512 := by
  obtain ⟨va, -, hpre⟩ := h
  exact indices_lt (hpre.subset hi)

section Neutral

variable {m m' m'' : Memory} {r : ℕ} {held : List ℕ}

lemma Neutral.refl (h : Paged m r held) : Neutral m m r held :=
  ⟨h, fun _ => rfl, fun h => h, ⟨[], rfl, by simp⟩, fun _ _ _ _ _ => rfl, fun h => ⟨h, rfl⟩⟩

lemma Neutral.trans (h : Neutral m m' r held) (h' : Neutral m' m'' r held) : Neutral m m'' r held := by
  obtain ⟨used, hused, htables⟩ := h.taken
  obtain ⟨used', hused', htables'⟩ := h'.taken
  refine ⟨h'.paged, fun va => (h'.same va).trans (h.same va), fun hs => h'.grown (h.grown hs), ⟨used ++ used', ?_, ?_⟩, ?_, ?_⟩
  · rw [hused, hused', List.append_assoc]
  · intro p hp
    obtain hp | hp := List.mem_append.mp hp
    · obtain ⟨js, hjs⟩ := htables p hp
      exact ⟨js, h'.grown hjs⟩
    · exact htables' p hp
  · intro p hp a h1 h2
    rw [h'.free p hp a h1 h2]
    refine h.free p ?_ a h1 h2
    obtain hp | hp := List.mem_append.mp hp
    · rw [hused']
      simp [hp]
    · exact List.mem_append_right _ hp
  · intro a ha
    obtain ⟨ha', heq⟩ := h.frame ha
    obtain ⟨ha'', heq'⟩ := h'.frame ha'
    exact ⟨ha'', heq'.trans heq⟩

/-- No table stands at address 0. -/
lemma Paged.table_pos {js : List ℕ} {t : ℕ} (h : Paged m r held) (ht : Stands hwTable 3 m.mem {r} r js t) (hw : InWindow js) :
    0 < t := by
  induction js using List.reverseRecOn with
  | nil =>
    obtain ⟨-, rfl⟩ := stands_nil.mp ht
    exact h.root
  | append_singleton js j _ =>
    have hlen := ht.short
    rw [List.length_append, List.length_singleton] at hlen
    obtain ⟨q, hq, hc⟩ := ht.parent
    obtain hzero | ⟨c, hdesc, hpos, ha, hb⟩ | ⟨-, hblock, -⟩ := h.plain hq (by omega) hw
    · rw [hwTable_invalid hzero] at hc
      cases hc
    · rw [hdesc, hwTable_descFromTable ha hb] at hc
      obtain rfl := Option.some.inj hc
      exact hpos
    · rw [hwTable_block hblock] at hc
      cases hc

end Neutral

section Step

variable {m m' : Memory} {r t i c : ℕ} {held rest : List ℕ} {js : List ℕ}

/-- A free page becomes a table behind a slot that had none, and the slot translates as before. -/
theorem Paged.hang (h : Paged m r held) (ht : Stands hwTable 3 m.mem {r} r js t) (hjs : js.length < 3)
    (hw : InWindow (js ++ [i])) (hempty : hwTable (m.mem (t + 8*i)) = none) (hpool : m.pool = c :: rest)
    (hpool' : m'.pool = rest) (hlink : m'.mem (t + 8*i) = descFromTable c)
    (hother : ∀ a, a ≠ t + 8*i → a < c ∨ c + 4096 ≤ a → m'.mem a = m.mem a)
    (hparts : js.length + 1 < 3 → ∀ j < 512, hwTable (m'.mem (c + 8*j)) = none ∧ Plain False (m'.mem (c + 8*j)))
    (hsame : ∀ va, translateSlot m'.mem (3 - js.length) (t + 8*i) va = translateSlot m.mem (3 - js.length) (t + 8*i) va) :
    Neutral m m' r held ∧ Stands hwTable 3 m'.mem {r} r (js ++ [i]) c := by
  have hi : i < 512 := hw.lt (by simp)
  have hf : Forest hwTable 3 m.mem {r} (c :: (rest ++ held)) := by
    have := h.forest
    rwa [hpool] at this
  have hc := hf.freeAligned List.mem_cons_self
  obtain ⟨hpos, hbound⟩ := h.pool c (by simp [hpool])
  have hlink' : hwTable (m'.mem (t + 8*i)) = some c := by rw [hlink, hwTable_descFromTable hc hbound]
  have hnew : js.length + 1 < 3 → ∀ j < 512, hwTable (m'.mem (c + 8*j)) = none := fun hlt j hj => (hparts hlt j hj).1
  have hout : ∀ a, a % 8 = 0 → a < c ∨ c + 4096 ≤ a → a ≠ t + 8*i → m'.mem a = m.mem a := fun a _ ha hne => hother a hne ha
  have hstands : ∀ {r' ks q}, Stands hwTable 3 m'.mem {r} r' ks q ↔
      Stands hwTable 3 m.mem {r} r' ks q ∨ (r' = r ∧ ks = js ++ [i] ∧ q = c) :=
    hf.stands_hang ht hjs hi hempty hlink' hnew hout
  have hforest : Forest hwTable 3 m'.mem {r} (m'.pool ++ held) := by
    rw [hpool']
    exact hf.extend fun _ _ _ => hstands
  -- a word of an old table other than the slot
  have hold : ∀ {r' ks q j}, Stands hwTable 3 m.mem {r} r' ks q → j < 512 → ¬ (q = t ∧ j = i) →
      m'.mem (q + 8*j) = m.mem (q + 8*j) := by
    intro r' ks q j hq hj hne
    refine hother _ (word_ne (hf.aligned hq) (hf.aligned ht) hj hi (by tauto)) (outside_page (hf.aligned hq) hc hj ?_)
    rintro rfl
    exact hf.apart hq List.mem_cons_self
  have hchange : SlotChange m.mem m'.mem {r} t i := ⟨hold⟩
  refine ⟨⟨⟨hforest, ?_, h.root, ?_⟩, ?_, fun hs => hstands.mpr (Or.inl hs), ⟨[c], ?_, ?_⟩, ?_, ?_⟩,
    hstands.mpr (Or.inr ⟨rfl, rfl, rfl⟩)⟩
  · intro p hp
    exact h.pool p (by rw [hpool, ← hpool']; exact List.mem_cons_of_mem _ hp)
  · intro ks q j hq hks hwj
    have hj : j < 512 := hwj.lt (by simp)
    obtain hq | ⟨-, rfl, rfl⟩ := hstands.mp hq
    · by_cases hslot : q = t ∧ j = i
      · obtain ⟨rfl, rfl⟩ := hslot
        rw [hlink]
        exact Or.inr (Or.inl ⟨c, rfl, hpos, hc, hbound⟩)
      · rw [hold hq hj hslot]
        exact h.plain hq hks hwj
    · rw [List.length_append, List.length_singleton] at hks
      have hplain := (hparts hks j hj).2
      simpa using hplain
  · intro va
    by_cases hpre : js ++ [i] <+: indices 3 va
    · obtain ⟨h1, h2⟩ := hchange.inside hf ht hpre
      exact h2.trans ((hsame va).trans h1.symm)
    · exact hchange.outside hf ht hpre
  · rw [hpool, hpool']
    rfl
  · intro p hp
    obtain rfl := List.mem_singleton.mp hp
    exact ⟨js ++ [i], hstands.mpr (Or.inr ⟨rfl, rfl, rfl⟩)⟩
  · intro p hp a h1 h2
    have hp' : p ∈ rest ++ held := by rwa [← hpool']
    have hpa := hf.freeAligned (List.mem_cons_of_mem _ hp')
    refine hother a ?_ ?_
    · rintro rfl
      -- the slot lies in a table, and no table is free
      have heq : t = p := by
        have := hf.aligned ht
        omega
      exact hf.apart ht (heq ▸ List.mem_cons_of_mem _ hp')
    · have hne : p ≠ c := by
        rintro rfl
        exact (List.nodup_cons.mp hf.nodup).1 hp'
      omega
  · intro a ha
    have hpage : a < c ∨ c + 4096 ≤ a := ha.pages c (by simp [hpool])
    refine ⟨⟨fun p hp => ha.pages p ?_, ?_⟩, hother a (ha.tables ht hw) hpage⟩
    · rw [hpool, ← hpool']
      exact List.mem_cons_of_mem _ hp
    · intro ks q j hq hwj
      have hj : j < 512 := hwj.lt (by simp)
      obtain hq | ⟨-, -, rfl⟩ := hstands.mp hq
      · exact ha.tables hq hwj
      · omega

/-- The slot of a table does not lie in a free page. -/
lemma Paged.freeOf (h : Paged m r held) (ht : Stands hwTable 3 m.mem {r} r js t) (hi : i < 512) : FreeOf m (t + 8*i) := by
  intro p hp
  have hin : p ∈ m.pool ++ held := List.mem_append_left _ hp
  have hpa := h.forest.freeAligned hin
  refine ⟨hpa, (h.pool p hp).2, ?_⟩
  refine outside_page (h.forest.aligned ht) hpa hi ?_
  rintro rfl
  exact h.forest.apart ht hin

/-- The page goes back. -/
lemma Paged.give (h : Paged m r [page]) (hpos : 0 < page) (hb : page < 2^48) : Paged (freePage page m) r [] where
  forest := h.forest.perm (by rw [List.append_nil]; exact (List.perm_append_singleton page m.pool).symm)
  pool p hp := by
    obtain rfl | hp := List.mem_cons.mp hp
    · exact ⟨hpos, hb⟩
    · exact h.pool p hp
  root := h.root
  plain := h.plain

end Step

section Fresh

variable {pf : Platform} {m m' : Memory} {l0 l1 l2 : ℕ}

/-- The kernel's part of a root: blocks under 16 TiB in the user's range, and above it tables of the kernel's own that
hold nothing but blocks. -/
structure SharedTables (pf : Platform) (m : Memory) : Prop where
  blocks : ∀ i ≤ 64, pf.l1Low i &&& 0xF00000000000 = 0
  aligned : ∀ {i c}, i < 512 → hwTable (pf.l1Low i) = some c → c % 4096 = 0 ∧ c ∉ m.pool
  unique : ∀ {i j c}, i < 512 → j < 512 → hwTable (pf.l1Low i) = some c → hwTable (pf.l1Low j) = some c → i = j
  flat : ∀ {i c j}, i < 512 → hwTable (pf.l1Low i) = some c → j < 512 → hwTable (m.mem (c + 8*j)) = none

/-- The user's range is under the first 65 slots of the L1 table. -/
lemma InWindow.slot_le {i : ℕ} (h : InWindow [0, i]) : i ≤ 64 := by
  obtain ⟨va, hva, hpre⟩ := h
  have hmax : maxVAddr = 0x1000000000 := rfl
  simp only [indices, List.cons_prefix_cons] at hpre
  obtain ⟨-, rfl, -⟩ := hpre
  unfold indexAt
  omega

lemma block_of_l1Low {i : ℕ} (hi : i ≤ 64) (hne : pf.l1Low i ≠ 0) : pf.l1Low i &&& 3 = 1 := by
  obtain ⟨h1, h2⟩ := pf.blocks i hi hne
  refine block_and_three ((bit_and_one _).mpr h1) ?_
  by_contra hne
  rw [(bit_and_two _).mp hne] at h2
  cases h2

/-- A root that was just made of the first three free pages. -/
structure NewRoot (pf : Platform) (m m' : Memory) (l0 l1 l2 : ℕ) : Prop where
  words : CreatedWords pf m m' l0 l1 l2
  shared : SharedTables pf m
  pool : m.pool = l0 :: l1 :: l2 :: m'.pool
  nodup : m.pool.Nodup
  pages : ∀ p ∈ m.pool, 0 < p ∧ p < 2^48 ∧ p % 4096 = 0

lemma allocPageMap_newRoot {r : ℕ} (hk : SharedTables pf m) (hnodup : m.pool.Nodup)
    (hpages : ∀ p ∈ m.pool, 0 < p ∧ p < 2^48 ∧ p % 4096 = 0) (hsome : (allocPageMap pf m).1 = some r) :
    ∃ l1 l2, NewRoot pf m (allocPageMap pf m).2 r l1 l2 := by
  obtain ⟨l0, l1, l2, rest, hpool⟩ | hnone := allocPageMap_pool pf m
  · rw [allocPageMap_eq hpool] at hsome ⊢
    obtain rfl := Option.some.inj hsome
    have hdistinct := hnodup
    rw [hpool] at hdistinct
    simp only [List.nodup_cons, List.mem_cons, not_or] at hdistinct
    obtain ⟨⟨h01, h02, -⟩, ⟨h12, -⟩, -⟩ := hdistinct
    obtain ⟨-, -, ha0⟩ := hpages l0 (by simp [hpool])
    obtain ⟨-, -, ha1⟩ := hpages l1 (by simp [hpool])
    obtain ⟨-, -, ha2⟩ := hpages l2 (by simp [hpool])
    exact ⟨l1, l2, created_words ha0 ha1 ha2 h01 h02 h12, hk, hpool, hnodup, hpages⟩
  · rw [hnone] at hsome
    cases hsome

namespace NewRoot

lemma page0 (h : NewRoot pf m m' l0 l1 l2) : 0 < l0 ∧ l0 < 2^48 ∧ l0 % 4096 = 0 := h.pages l0 (by simp [h.pool])

lemma page1 (h : NewRoot pf m m' l0 l1 l2) : 0 < l1 ∧ l1 < 2^48 ∧ l1 % 4096 = 0 := h.pages l1 (by simp [h.pool])

lemma page2 (h : NewRoot pf m m' l0 l1 l2) : 0 < l2 ∧ l2 < 2^48 ∧ l2 % 4096 = 0 := h.pages l2 (by simp [h.pool])

/-- The three pages differ, and none of them is free any more. -/
lemma distinct (h : NewRoot pf m m' l0 l1 l2) :
    ((l0 ≠ l1 ∧ l0 ≠ l2 ∧ l0 ∉ m'.pool) ∧ (l1 ≠ l2 ∧ l1 ∉ m'.pool) ∧ l2 ∉ m'.pool) ∧ m'.pool.Nodup := by
  have hnodup := h.nodup
  rw [h.pool] at hnodup
  simp only [List.nodup_cons, List.mem_cons, not_or] at hnodup
  obtain ⟨h0, h1, h2, hrest⟩ := hnodup
  exact ⟨⟨h0, h1, h2⟩, hrest⟩

/-- The kernel's tables are not among the pages that were free. -/
lemma kernel {i c : ℕ} (h : NewRoot pf m m' l0 l1 l2) (hi : i < 512) (hc : hwTable (pf.l1Low i) = some c) :
    c ≠ l0 ∧ c ≠ l1 ∧ c ≠ l2 ∧ c ∉ m'.pool := by
  have hnot := (h.shared.aligned hi hc).2
  rw [h.pool] at hnot
  simpa only [List.mem_cons, not_or] using hnot

lemma kernel_word {i c j : ℕ} (h : NewRoot pf m m' l0 l1 l2) (hi : i < 512) (hc : hwTable (pf.l1Low i) = some c) (hj : j < 512) :
    m'.mem (c + 8*j) = m.mem (c + 8*j) := by
  have hal := (h.shared.aligned hi hc).1
  obtain ⟨h0, h1, h2, -⟩ := h.kernel hi hc
  exact h.words.other _ (outside_page hal h.page0.2.2 hj h0) (outside_page hal h.page1.2.2 hj h1)
    (outside_page hal h.page2.2.2 hj h2)

/-- The tables that a new root has. -/
lemma stands {js : List ℕ} {t : ℕ} (h : NewRoot pf m m' l0 l1 l2) (ht : Stands hwTable 3 m'.mem {l0} l0 js t) :
    (js = [] ∧ t = l0) ∨ (js = [0] ∧ t = l1) ∨ (js = [0, 0] ∧ t = l2) ∨
      ∃ i, i ≠ 0 ∧ i < 512 ∧ js = [0, i] ∧ hwTable (pf.l1Low i) = some t := by
  induction js using List.reverseRecOn generalizing t with
  | nil =>
    obtain ⟨-, rfl⟩ := stands_nil.mp ht
    exact Or.inl ⟨rfl, rfl⟩
  | append_singleton js j ih =>
    have hj : j < 512 := ht.index j (by simp)
    obtain ⟨q, hq, hc⟩ := ht.parent
    obtain ⟨rfl, rfl⟩ | ⟨rfl, rfl⟩ | ⟨rfl, rfl⟩ | ⟨i, -, hi, rfl, hi'⟩ := ih hq
    · rw [h.words.root j hj] at hc
      split_ifs at hc with hzero
      · rw [hwTable_descFromTable h.page1.2.2 h.page1.2.1] at hc
        exact Or.inr (Or.inl ⟨by rw [hzero]; rfl, (Option.some.inj hc).symm⟩)
      · cases hc
    · rw [h.words.mid j hj] at hc
      split_ifs at hc with hzero
      · rw [hwTable_descFromTable h.page2.2.2 h.page2.2.1] at hc
        exact Or.inr (Or.inr (Or.inl ⟨by rw [hzero]; rfl, (Option.some.inj hc).symm⟩))
      · exact Or.inr (Or.inr (Or.inr ⟨j, hzero, hj, rfl, hc⟩))
    · rw [h.words.low j hj] at hc
      split_ifs at hc <;> cases hc
    · rw [h.kernel_word hi hi' hj, h.shared.flat hi hi' hj] at hc
      cases hc

lemma unique {js js' : List ℕ} {t : ℕ} (h : NewRoot pf m m' l0 l1 l2) (ht : Stands hwTable 3 m'.mem {l0} l0 js t)
    (ht' : Stands hwTable 3 m'.mem {l0} l0 js' t) : js = js' := by
  obtain ⟨⟨⟨h01, h02, -⟩, ⟨h12, -⟩, -⟩, -⟩ := h.distinct
  obtain ⟨rfl, rfl⟩ | ⟨rfl, rfl⟩ | ⟨rfl, rfl⟩ | ⟨i, -, hi, rfl, hc⟩ := h.stands ht
  · obtain ⟨rfl, -⟩ | ⟨-, rfl⟩ | ⟨-, rfl⟩ | ⟨i, -, hi, -, hc⟩ := h.stands ht'
    · rfl
    · exact absurd rfl h01
    · exact absurd rfl h02
    · exact absurd rfl (h.kernel hi hc).1
  · obtain ⟨-, rfl⟩ | ⟨rfl, -⟩ | ⟨-, rfl⟩ | ⟨i, -, hi, -, hc⟩ := h.stands ht'
    · exact absurd rfl h01
    · rfl
    · exact absurd rfl h12
    · exact absurd rfl (h.kernel hi hc).2.1
  · obtain ⟨-, rfl⟩ | ⟨-, rfl⟩ | ⟨rfl, -⟩ | ⟨i, -, hi, -, hc⟩ := h.stands ht'
    · exact absurd rfl h02
    · exact absurd rfl h12
    · rfl
    · exact absurd rfl (h.kernel hi hc).2.2.1
  · obtain ⟨-, rfl⟩ | ⟨-, rfl⟩ | ⟨-, rfl⟩ | ⟨i', -, hi', rfl, hc'⟩ := h.stands ht'
    · exact absurd rfl (h.kernel hi hc).1
    · exact absurd rfl (h.kernel hi hc).2.1
    · exact absurd rfl (h.kernel hi hc).2.2.1
    · rw [h.shared.unique hi hi' hc hc']

lemma forest (h : NewRoot pf m m' l0 l1 l2) : Forest hwTable 3 m'.mem {l0} (m'.pool ++ []) := by
  obtain ⟨⟨⟨-, -, h0⟩, ⟨-, h1⟩, h2⟩, hrest⟩ := h.distinct
  have hroot : ∀ {r js t}, Stands hwTable 3 m'.mem {l0} r js t → r = l0 := fun ht => ht.root
  rw [List.append_nil]
  refine ⟨?_, ?_, ?_, fun {p} hp => (h.pages p (by simp [h.pool, hp])).2.2, hrest⟩
  · intro r js t ht
    obtain rfl := hroot ht
    obtain ⟨-, rfl⟩ | ⟨-, rfl⟩ | ⟨-, rfl⟩ | ⟨i, -, hi, -, hc⟩ := h.stands ht
    · exact h.page0.2.2
    · exact h.page1.2.2
    · exact h.page2.2.2
    · exact (h.shared.aligned hi hc).1
  · intro r r' js js' t ht ht'
    obtain rfl := hroot ht
    obtain rfl := hroot ht'
    exact ⟨rfl, h.unique ht ht'⟩
  · intro r js t ht
    obtain rfl := hroot ht
    obtain ⟨-, rfl⟩ | ⟨-, rfl⟩ | ⟨-, rfl⟩ | ⟨i, -, hi, -, hc⟩ := h.stands ht
    · exact h0
    · exact h1
    · exact h2
    · exact (h.kernel hi hc).2.2.2

lemma plain {js : List ℕ} {t j : ℕ} (h : NewRoot pf m m' l0 l1 l2) (ht : Stands hwTable 3 m'.mem {l0} l0 js t)
    (hwin : InWindow (js ++ [j])) : Plain (js = []) (m'.mem (t + 8*j)) := by
  have hj : j < 512 := hwin.lt (by simp)
  obtain ⟨rfl, rfl⟩ | ⟨rfl, rfl⟩ | ⟨rfl, rfl⟩ | ⟨i, hi0, hi, rfl, hc⟩ := h.stands ht
  · rw [h.words.root j hj]
    split_ifs
    · exact Or.inr (Or.inl ⟨l1, rfl, h.page1.1, h.page1.2.2, h.page1.2.1⟩)
    · exact Or.inl (by decide)
  · rw [h.words.mid j hj]
    split_ifs
    · exact Or.inr (Or.inl ⟨l2, rfl, h.page2.1, h.page2.2.2, h.page2.2.1⟩)
    · by_cases hzero : pf.l1Low j = 0
      · rw [hzero]
        exact Or.inl (by decide)
      · exact Or.inr (Or.inr ⟨by simp, block_of_l1Low hwin.slot_le hzero, h.shared.blocks j hwin.slot_le⟩)
  · rw [h.words.low j hj]
    split_ifs
    · exact Or.inr (Or.inr ⟨by simp, by decide, by decide⟩)
    · exact Or.inr (Or.inr ⟨by simp, by decide, by decide⟩)
    · exact Or.inl (by decide)
  · -- the user's range ends below the kernel's tables
    have hle : i ≤ 64 := InWindow.slot_le (InWindow.front hwin)
    have hzero : pf.l1Low i ≠ 0 := by
      rintro hzero
      rw [hzero] at hc
      cases hc
    rw [hwTable_block (block_of_l1Low hle hzero)] at hc
    cases hc

end NewRoot

/-- A new root is one that the pager works on. -/
theorem paged_allocPageMap {r : ℕ} (hk : SharedTables pf m) (hnodup : m.pool.Nodup)
    (hpages : ∀ p ∈ m.pool, 0 < p ∧ p < 2^48 ∧ p % 4096 = 0) (hsome : (allocPageMap pf m).1 = some r) :
    Paged (allocPageMap pf m).2 r [] := by
  obtain ⟨l1, l2, h⟩ := allocPageMap_newRoot hk hnodup hpages hsome
  refine ⟨h.forest, fun p hp => ?_, h.page0.1, fun ht _ hwin => h.plain ht hwin⟩
  obtain ⟨hpos, hb, -⟩ := h.pages p (by simp [h.pool, hp])
  exact ⟨hpos, hb⟩

/-- The tables of the alias window lie in the kernel's image, one after the other. -/
theorem sharedTables_l1Boot {blocks aliases l2Rts : ℕ} (hboot : pf.l1Low = l1Boot blocks aliases l2Rts)
    (ha : l2Rts % 4096 = 0) (hb : l2Rts + 4096*aliases ≤ 2^48)
    (hout : ∀ p ∈ m.pool, p < l2Rts ∨ l2Rts + 4096*aliases ≤ p)
    (hflat : ∀ k < aliases, ∀ j < 512, hwTable (m.mem (l2Rts + 4096*k + 8*j)) = none) : SharedTables pf m := by
  have htable : ∀ {i c}, hwTable (pf.l1Low i) = some c → 264 ≤ i ∧ i - 264 < aliases ∧ c = l2Rts + 4096*(i - 264) := by
    intro i c hc
    rw [hboot, l1Boot] at hc
    split_ifs at hc with h0 hram halias
    · cases hc
    · rw [hwTable_block (block_and_three ((bit_and_one _).mpr (by simp [mapBlock, bValid])) ?_)] at hc
      · cases hc
      · by_contra hne
        have := (bit_and_two _).mp hne
        simp [mapBlock] at this
    · refine ⟨halias.1, by omega, ?_⟩
      have hdesc : (1#64 ||| 1#64 <<< 1 ||| BitVec.ofNat 64 (l2Rts + 4096*(i - 264))) =
          descFromTable (l2Rts + 4096*(i - 264)) := by
        rw [descFromTable, mAddress_ofNat (by omega) (by omega), BitVec.or_comm]
        rfl
      rw [hdesc, hwTable_descFromTable (by omega) (by omega)] at hc
      exact (Option.some.inj hc).symm
    · cases hc
  refine ⟨fun i hi => ?_, fun hi hc => ?_, fun hi hj hc hc' => ?_, fun hi hc hj => ?_⟩
  · have hmap : ∀ i ≤ 64, mapBlock i 0 &&& 0xF00000000000 = 0 := by decide
    rw [hboot, l1Boot]
    split_ifs with h0 hram halias
    · decide
    · exact hmap i hi
    · omega
    · decide
  · obtain ⟨-, hlt, heq⟩ := htable hc
    refine ⟨by omega, fun hmem => ?_⟩
    have := hout _ hmem
    omega
  · obtain ⟨h1, -, heq⟩ := htable hc
    obtain ⟨h2, -, heq'⟩ := htable hc'
    omega
  · obtain ⟨-, hlt, heq⟩ := htable hc
    rw [heq]
    exact hflat _ hlt _ hj

/-- The first root of the sample machine. -/
lemma samplePaged : Paged (allocPageMap samplePlatform sampleBoot).2 0x50000000 [] := by
  have hzero : ∀ a, sampleBoot.mem a = 0 := fun _ => rfl
  have hshared : SharedTables samplePlatform sampleBoot :=
    sharedTables_l1Boot (rfl : samplePlatform.l1Low = l1Boot 4 2 0x40200000) (by norm_num) (by norm_num) (by decide)
      fun k _ j _ => hwTable_invalid (by rw [hzero]; decide)
  exact paged_allocPageMap hshared (by decide +kernel) (by decide +kernel) (by decide +kernel)

end Fresh

end HouseKernel.VirtualMemory
