import HouseKernel.VirtualMemory.AddressSpace

/-! The descriptor stores of the operations on page maps. A store is noted with the indices along
which the code walked from the root to the table, and with the memory in which it found it. -/
namespace HouseKernel.VirtualMemory

open HouseKernel.Lib

structure Store where
  before : Memory
  way : List ℕ
  table : ℕ
  slot : ℕ

/-- The table stands in the tree of the root, where the walk says. -/
structure Store.Own (ram : Ram) (roots : Set ℕ) (r : ℕ) (s : Store) : Prop where
  stands : TableAt ram s.before roots r s.way s.table
  slot : s.slot < 512

/-- The stores of `ensureTable` along a path. -/
def pathStores (m : Memory) (way : List ℕ) (t : ℕ) : List ℕ → List Store
  | [] => []
  | i :: is => match tableFromDesc (m.peek t i), ensureTable m t i with
    | some _, (some c, m') => pathStores m' (way ++ [i]) c is
    | none, (some c, m') => ⟨m, way, t, i⟩ :: pathStores m' (way ++ [i]) c is
    | _, (none, _) => []

lemma pathStores_cons {m : Memory} {way : List ℕ} {t i : ℕ} {is : List ℕ} : pathStores m way t (i :: is) =
    match tableFromDesc (m.peek t i), ensureTable m t i with
    | some _, (some c, m') => pathStores m' (way ++ [i]) c is
    | none, (some c, m') => ⟨m, way, t, i⟩ :: pathStores m' (way ++ [i]) c is
    | _, (none, _) => [] := rfl

def ensureL3Stores (m : Memory) (l0 vaddr : ℕ) : List Store :=
  if validVAddr vaddr then pathStores m [] l0 (path vaddr) else []

lemma ensureL3Stores_eq {m : Memory} {l0 vaddr : ℕ} (h : validVAddr vaddr = true) :
    ensureL3Stores m l0 vaddr = pathStores m [] l0 (path vaddr) := if_pos h

def setDemandPageStores (m : Memory) (l0 vaddr : ℕ) : List Store :=
  if validVAddr vaddr && vaddr % 4096 = 0 then
    match ensureL3 m l0 vaddr with
    | (none, _) => ensureL3Stores m l0 vaddr
    | (some l3, m') => match descToPageInfo (m'.peek l3 (l3Index vaddr)) with
      | some _ => ensureL3Stores m l0 vaddr
      | none => ensureL3Stores m l0 vaddr ++ [⟨m', path vaddr, l3, l3Index vaddr⟩]
  else []

/-- The stores of `setPage` when it sets a page. -/
def setPageStores (m : Memory) (l0 vaddr : ℕ) : List Store :=
  match ensureL3 m l0 vaddr with
  | (none, _) => ensureL3Stores m l0 vaddr
  | (some l3, m') => ensureL3Stores m l0 vaddr ++ [⟨m', path vaddr, l3, l3Index vaddr⟩]

/-- The stores of `setPage` when it removes a page. -/
def clearPageStores (m : Memory) (l0 vaddr : ℕ) : List Store :=
  match getPage m l0 vaddr, walk tableFromDesc m.mem l0 [l0Index vaddr, l1Index vaddr], l3Table m l0 vaddr with
  | some _, some l2, some l3 =>
    let cleared := m.poke l3 (l3Index vaddr) 0
    ⟨m, path vaddr, l3, l3Index vaddr⟩ ::
      if isEmptyTable cleared l3 then [⟨cleared, [l0Index vaddr, l1Index vaddr], l2, l2Index vaddr⟩] else []
  | _, _, _ => []

section Path

variable {ram : Ram} {m : Memory} {t i c : ℕ} {way is : List ℕ}

lemma pathStores_valid (h : tableFromDesc (m.peek t i) = some c) :
    pathStores m way t (i :: is) = pathStores m (way ++ [i]) c is ∧ ensurePath m t (i :: is) = ensurePath m c is := by
  have hens : ensureTable m t i = (some c, m) := by simp only [ensureTable, h]
  constructor
  · simp only [pathStores_cons, h, hens]
  · simp only [ensurePath, hens]

lemma pathStores_full (h : tableFromDesc (m.peek t i) = none) (hpool : m.pool = []) :
    pathStores m way t (i :: is) = [] ∧ ensurePath m t (i :: is) = (none, m) := by
  have hens : ensureTable m t i = (none, m) := by simp only [ensureTable, h, allocPage, hpool]
  constructor
  · simp only [pathStores_cons, h, hens]
  · simp only [ensurePath, hens]

lemma pathStores_hang {rest : List ℕ} (h : tableFromDesc (m.peek t i) = none) (hpool : m.pool = c :: rest) :
    pathStores m way t (i :: is) = ⟨m, way, t, i⟩ :: pathStores (hang m t i c rest) (way ++ [i]) c is ∧
      ensurePath m t (i :: is) = ensurePath (hang m t i c rest) c is := by
  have hens : ensureTable m t i = (some c, hang m t i c rest) := by simp only [ensureTable, h, allocPage, hpool, hang]
  constructor
  · simp only [pathStores_cons, h, hens]
  · simp only [ensurePath, hens]

/-- Outside the stores and the free pages nothing changes. -/
lemma ensurePath_frame {a : ℕ} (hpool : ∀ q ∈ m.pool, a < q ∨ q + 4096 ≤ a)
    (hst : ∀ s ∈ pathStores m way t is, a ≠ s.table + 8*s.slot) :
    (ensurePath m t is).2.mem a = m.mem a ∧ ∀ q ∈ (ensurePath m t is).2.pool, q ∈ m.pool := by
  induction is generalizing m way t with
  | nil => exact ⟨rfl, fun q hq => hq⟩
  | cons i is ih =>
    cases hd : tableFromDesc (m.peek t i) with
    | some c =>
      obtain ⟨hs, he⟩ := @pathStores_valid m t i c way is hd
      rw [hs] at hst
      rw [he]
      exact ih hpool hst
    | none =>
      rcases hp : m.pool with _ | ⟨c, rest⟩
      · obtain ⟨-, he⟩ := @pathStores_full m t i way is hd hp
        rw [he]
        exact ⟨rfl, fun q hq => hp ▸ hq⟩
      · obtain ⟨hs, he⟩ := @pathStores_hang m t i c way is rest hd hp
        rw [hs, List.forall_mem_cons] at hst
        rw [hp, List.forall_mem_cons] at hpool
        obtain ⟨hmem, hsub⟩ := @ih (hang m t i c rest) c (way ++ [i]) hpool.2 hst.2
        rw [he]
        refine ⟨hmem.trans (hang_of_outside hpool.1 hst.1), ?_⟩
        intro q hq
        exact List.mem_cons_of_mem c (hsub q hq)

/-- Before the first store the memory is as it was; without one it stays so. -/
lemma pathStores_head : (∃ s rest, pathStores m way t is = s :: rest ∧ s.before = m ∧ way <+: s.way) ∨
    pathStores m way t is = [] ∧ ∀ c, (ensurePath m t is).1 = some c → (ensurePath m t is).2 = m := by
  induction is generalizing way t with
  | nil => exact .inr ⟨rfl, fun _ _ => rfl⟩
  | cons i is ih =>
    cases hd : tableFromDesc (m.peek t i) with
    | some c =>
      obtain ⟨hs, he⟩ := @pathStores_valid m t i c way is hd
      rw [hs, he]
      obtain ⟨s, rest, hcons, hbefore, hway⟩ | hnil := @ih c (way ++ [i])
      · exact .inl ⟨s, rest, hcons, hbefore, (List.prefix_append way [i]).trans hway⟩
      · exact .inr hnil
    | none =>
      rcases hp : m.pool with _ | ⟨c, rest⟩
      · obtain ⟨hs, he⟩ := @pathStores_full m t i way is hd hp
        rw [hs, he]
        exact .inr ⟨rfl, fun _ _ => rfl⟩
      · obtain ⟨hs, -⟩ := @pathStores_hang m t i c way is rest hd hp
        rw [hs]
        exact .inl ⟨_, _, rfl, rfl, List.prefix_rfl⟩

/-- On a clear path every store goes to a table of the root: an old one, or a page that was free. -/
lemma pathStores_own {roots : Set ℕ} {r : ℕ} (hf : Forest (userTable ram) 3 m.mem roots m.pool)
    (hvalid : ∀ p ∈ m.pool, validPage ram p = true) (ht : TableAt ram m roots r way t) (hidx : ∀ i ∈ is, i < 512)
    (hlen : way.length + is.length ≤ 3) (hclear : ClearPath ram m r (way ++ is)) :
    ∀ s ∈ pathStores m way t is, s.Own ram roots r ∧ (TableAt ram m roots r s.way s.table ∨ s.table ∈ m.pool) := by
  induction is generalizing m way t with
  | nil =>
    rintro s ⟨⟩
  | cons i is ih =>
    have hi : i < 512 := hidx i List.mem_cons_self
    have hidx' : ∀ k ∈ is, k < 512 := fun k hk => hidx k (List.mem_cons_of_mem _ hk)
    have hlen' : (way ++ [i]).length + is.length ≤ 3 := by
      simp only [List.length_append, List.length_cons, List.length_nil] at hlen ⊢
      omega
    have hway : way.length < 3 := by
      simp only [List.length_append, List.length_singleton] at hlen'
      omega
    rw [List.append_cons] at hclear
    have hslot := hclear way i t (List.prefix_append _ _) ht.reach
    cases hd : tableFromDesc (m.peek t i) with
    | some c =>
      rw [(@pathStores_valid m t i c way is hd).1]
      exact ih hf hvalid (ht.child hway hi (hslot.symm.trans hd)) hidx' hlen' hclear
    | none =>
      rcases hp : m.pool with _ | ⟨c, rest⟩
      · rw [(@pathStores_full m t i way is hd hp).1]
        rintro s ⟨⟩
      · rw [(@pathStores_hang m t i c way is rest hd hp).1, List.forall_mem_cons]
        refine ⟨⟨⟨ht, hi⟩, .inl ht⟩, ?_⟩
        have hgrow := grows_hang hf hp (hvalid c (by simp [hp])) ht hway hi (hslot.symm.trans hd) hd
        have hin : ∀ k ∈ (way ++ [i]) ++ is, k < 512 := by
          intro k hk
          obtain hk | hk := List.mem_append.mp hk
          · obtain hk | hk := List.mem_append.mp hk
            · exact ht.index k hk
            · exact (List.mem_singleton.mp hk) ▸ hi
          · exact hidx' k hk
        have hclear' := hgrow.clear ht.root hin (by rw [List.length_append]; exact hlen') hclear
        have hvalid' : ∀ p ∈ (hang m t i c rest).pool, validPage ram p = true := by
          intro p hpp
          exact hvalid p (hp ▸ List.mem_cons_of_mem c hpp)
        intro s hs
        obtain ⟨hown, hwhere⟩ := ih hgrow.forest hvalid' (hgrow.tables.mpr (by simp)) hidx' hlen' hclear' s hs
        refine ⟨hown, ?_⟩
        obtain hold | hfree := hwhere
        · obtain hold | ⟨-, hnew⟩ := hgrow.tables.mp hold
          · exact .inl hold
          · obtain ⟨-, hc⟩ := Prod.mk.inj (List.mem_singleton.mp hnew)
            exact .inr (hc ▸ List.mem_cons_self)
        · exact .inr (List.mem_cons_of_mem c hfree)

/-- Where every descriptor is valid nothing is stored. -/
lemma pathStores_follow {js : List ℕ} {q : ℕ} (h : walk tableFromDesc m.mem t js = some q) :
    pathStores m way t (js ++ is) = pathStores m (way ++ js) q is ∧ ensurePath m t (js ++ is) = ensurePath m q is := by
  induction js generalizing way t with
  | nil =>
    obtain rfl := Option.some.inj h
    rw [List.append_nil, List.nil_append]
    exact ⟨rfl, rfl⟩
  | cons j js ih =>
    obtain ⟨c, hc, hrest⟩ := Option.bind_eq_some_iff.mp h
    obtain ⟨hs, he⟩ := @pathStores_valid m t j c way (js ++ is) hc
    obtain ⟨hs', he'⟩ := @ih c (way ++ [j]) hrest
    rw [List.cons_append, hs, he, hs', he', List.append_assoc, List.singleton_append]
    exact ⟨rfl, rfl⟩

end Path

section Leaf

variable {ram : Ram} {m : Memory} {r va l3 : ℕ}

lemma ensureL3_of_walk (hva : validVAddr va = true) (h : walk (userTable ram) m.mem r (path va) = some l3) :
    ensureL3 m r va = (some l3, m) ∧ ensureL3Stores m r va = [] := by
  obtain ⟨hs, he⟩ := @pathStores_follow m r [] [] (path va) _ (walk_of_userTable h)
  rw [List.append_nil] at hs he
  refine ⟨(ensureL3_eq hva).trans he, ?_⟩
  rw [ensureL3Stores_eq hva, hs]
  rfl

/-- Where its table stands, a page is set with one store. -/
lemma setPageStores_of_walk (hva : validVAddr va = true) (h : walk (userTable ram) m.mem r (path va) = some l3) :
    setPageStores m r va = [⟨m, path va, l3, l3Index va⟩] := by
  obtain ⟨hens, hstores⟩ := ensureL3_of_walk hva h
  simp only [setPageStores, hens, hstores, List.nil_append]

/-- And so is a marker. -/
lemma setDemandPage_of_walk (hva : validVAddr va = true) (hpage : va % 4096 = 0)
    (h : walk (userTable ram) m.mem r (path va) = some l3) (hnone : descToPageInfo (m.peek l3 (l3Index va)) = none) (w : Bool) :
    setDemandPage m r va w = (true, m.poke l3 (l3Index va) (demandDesc w)) ∧
      setDemandPageStores m r va = [⟨m, path va, l3, l3Index va⟩] := by
  obtain ⟨hens, hstores⟩ := ensureL3_of_walk hva h
  have hguard : (validVAddr va && decide (va % 4096 = 0)) = true := by simp [hva, hpage]
  constructor
  · simp only [setDemandPage, if_pos hguard, hens, hnone]
  · simp only [setDemandPageStores, if_pos hguard, hens, hnone, hstores, List.nil_append]

end Leaf

section Demand

variable {ram : Ram} {m : Memory} {r va : ℕ}

/-- Outside the stores and the free pages `setDemandPage` changes nothing. -/
lemma setDemandPage_frame (w : Bool) {a : ℕ} (hpool : ∀ q ∈ m.pool, a < q ∨ q + 4096 ≤ a)
    (hst : ∀ s ∈ setDemandPageStores m r va, a ≠ s.table + 8*s.slot) : (setDemandPage m r va w).2.mem a = m.mem a := by
  unfold setDemandPageStores at hst
  unfold setDemandPage
  by_cases hva : (validVAddr va && decide (va % 4096 = 0)) = true
  · rw [if_pos hva] at hst ⊢
    have hv : validVAddr va = true := (Bool.and_eq_true _ _ ▸ hva).1
    have hpath : (∀ s ∈ pathStores m [] r (path va), a ≠ s.table + 8*s.slot) → (ensureL3 m r va).2.mem a = m.mem a := by
      intro h
      rw [ensureL3_eq hv]
      exact (ensurePath_frame hpool h).1
    rw [ensureL3Stores_eq hv] at hst
    rcases hens : ensureL3 m r va with ⟨_ | l3, m'⟩
    · rw [hens] at hst hpath
      exact hpath hst
    · rw [hens] at hst hpath
      cases hd : descToPageInfo (m'.peek l3 (l3Index va)) with
      | some info =>
        simp only [hd] at hst ⊢
        exact hpath hst
      | none =>
        simp only [hd, List.mem_append, List.mem_singleton] at hst ⊢
        refine (Function.update_of_ne (hst _ (.inr rfl)) _ _).trans (hpath ?_)
        intro s hs
        exact hst s (.inl hs)
  · rw [if_neg hva]

/-- On a clear path every store goes to a table of the root. -/
lemma setDemandPageStores_own {roots : Set ℕ} (hf : Forest (userTable ram) 3 m.mem roots m.pool)
    (hvalid : ∀ p ∈ m.pool, validPage ram p = true) (hr : r ∈ roots) (hclear : ClearPath ram m r (path va)) :
    ∀ s ∈ setDemandPageStores m r va, s.Own ram roots r ∧ (TableAt ram m roots r s.way s.table ∨ s.table ∈ m.pool) := by
  unfold setDemandPageStores
  split_ifs with hva
  · have hv : validVAddr va = true := (Bool.and_eq_true _ _ ▸ hva).1
    have hpath := pathStores_own hf hvalid (stands_nil.mpr ⟨hr, rfl⟩) (index_lt va) (by simp [path]) hclear
    rw [ensureL3Stores_eq hv]
    obtain ⟨l3, m', new, hens, hgrow, htab, -, -⟩ | ⟨m', new, hens, -, -⟩ := ensureL3_cases hf hvalid hr hv hclear
    · rw [hens]
      cases hd : descToPageInfo (m'.peek l3 (l3Index va)) with
      | some info =>
        simp only [hd]
        exact hpath
      | none =>
        simp only [hd, List.mem_append, List.mem_singleton]
        rintro s (hs | rfl)
        · exact hpath s hs
        · refine ⟨⟨htab, l3Index_lt va⟩, ?_⟩
          obtain hold | ⟨-, hnew⟩ := hgrow.tables.mp htab
          · exact .inl hold
          · right
            rw [hgrow.pool]
            exact List.mem_append_left _ (List.mem_map.mpr ⟨_, hnew, rfl⟩)
    · rw [hens]
      exact hpath
  · rintro s ⟨⟩

/-- Behind a block no table of the root stands. -/
lemma not_own_of_block {roots : Set ℕ} {js : List ℕ} {i q : ℕ} {s : Store} (hq : TableAt ram m roots r js q)
    (hb : userTable ram (m.mem (q + 8*i)) = none) (hbefore : s.before = m) (hway : js ++ [i] <+: s.way) :
    ¬ s.Own ram roots r := by
  intro hown
  have hreach := hown.stands.reach
  obtain ⟨ks, hks⟩ := hway
  rw [hbefore, ← hks, walk_append, walk_concat, hq.reach] at hreach
  simp only [Option.bind_some, hb, Option.bind_none] at hreach
  cases hreach

/-- A page behind a block is set with a store to something that is no table of the root. -/
lemma setDemandPageStores_foreign {roots : Set ℕ} {w : Bool} (hb : BlockOn ram m roots r va)
    (hset : (setDemandPage m r va w).1 = true) : ∃ s ∈ setDemandPageStores m r va, ¬ s.Own ram roots r := by
  obtain ⟨js, i, q, -, ⟨rest, hrest⟩, hq, hblock⟩ := hb
  have hnone : userTable ram (m.mem (q + 8*i)) = none := userTable_of_bit hblock.2
  have hwalk : walk tableFromDesc m.mem r (js ++ [i]) = some (m.mem (q + 8*i) &&& mAddress).toNat := by
    rw [walk_concat, walk_of_userTable hq.reach, Option.bind_some, tableFromDesc, bValid, if_pos hblock.1]
  unfold setDemandPage at hset
  unfold setDemandPageStores
  by_cases hva : (validVAddr va && decide (va % 4096 = 0)) = true
  · rw [if_pos hva] at hset ⊢
    have hv : validVAddr va = true := (Bool.and_eq_true _ _ ▸ hva).1
    obtain ⟨hs, he⟩ := @pathStores_follow m r [] rest (js ++ [i]) _ hwalk
    rw [hrest, List.nil_append] at hs
    rw [hrest] at he
    rw [ensureL3Stores_eq hv, hs]
    rcases hens : ensureL3 m r va with ⟨_ | l3, m'⟩
    · rw [hens] at hset
      cases hset
    · rw [hens] at hset
      cases hd : descToPageInfo (m'.peek l3 (l3Index va)) with
      | some info =>
        simp only [hd] at hset
        cases hset
      | none =>
        simp only [hd]
        obtain ⟨s, stores, hcons, hbefore, hway⟩ | ⟨hnil, hsame⟩ :=
          @pathStores_head m (m.mem (q + 8*i) &&& mAddress).toNat (js ++ [i]) rest
        · refine ⟨s, ?_, not_own_of_block hq hnone hbefore hway⟩
          rw [hcons]
          exact List.mem_append_left _ List.mem_cons_self
        · rw [ensureL3_eq hv, he] at hens
          have hm' : m' = m := by
            have := hsame l3 (by rw [hens])
            rwa [hens] at this
          refine ⟨⟨m', path va, l3, l3Index va⟩, by simp, not_own_of_block hq hnone hm' ?_⟩
          exact ⟨rest, hrest⟩
  · rw [if_neg hva] at hset
    cases hset

end Demand

end HouseKernel.VirtualMemory
