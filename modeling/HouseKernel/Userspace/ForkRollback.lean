import HouseKernel.Userspace.AddressShare
import HouseKernel.VirtualMemory.Creation

/-! A fork that fails. The rollback tears the child down, which gives one reference back for
each page that the child maps, and then restores the parent's pages, which gives one more back
for each. Private pages come out as they went in; pages that were already shared lose a count. -/
namespace HouseKernel.Userspace

open HouseKernel.Lib HouseKernel.VirtualMemory

/-- The steps of a teardown in order: a page to release, or a table to free. -/
def teardown (ram : Ram) (mem : ℕ → Desc) (l0 : ℕ) : List (ℕ ⊕ ℕ) :=
  match userTable ram (mem (l0 + 8*l0Index minVAddr)) with
  | none => [.inr l0]
  | some l1 => ((List.range 512).flatMap fun i1 => match userTable ram (mem (l1 + 8*i1)) with
      | none => []
      | some l2 => ((List.range 512).flatMap fun i2 => match userTable ram (mem (l2 + 8*i2)) with
        | none => []
        | some l3 => ((List.range 512).flatMap fun i3 =>
            if (mem (l3 + 8*i3) &&& 1) ≠ 0 ∧ !isDeviceDesc (mem (l3 + 8*i3)) then
              [.inl (mem (l3 + 8*i3) &&& mAddress).toNat] else []) ++ [.inr l3]) ++ [.inr l2]) ++ [.inr l1, .inr l0]

theorem freeUserTables_eq {σ : Type*} (ram : Ram) (mem : ℕ → Desc) (free release : ℕ → σ → σ) (l0 : ℕ) (s : σ) :
    freeUserTables ram mem free release l0 s =
      (teardown ram mem l0).foldl (fun s op => op.elim (release · s) (free · s)) s := by
  unfold freeUserTables teardown
  generalize List.range 512 = indices
  cases userTable ram (mem (l0 + 8*l0Index minVAddr)) with
  | none => rfl
  | some l1 =>
    simp only [List.foldl_append, List.foldl_cons, List.foldl_nil, List.foldl_flatMap, Sum.elim_inr]
    congr 2
    refine congrArg (fun f => List.foldl f s indices) ?_
    funext s i1
    cases userTable ram (mem (l1 + 8*i1)) with
    | none => rfl
    | some l2 =>
      simp only [List.foldl_append, List.foldl_cons, List.foldl_nil, List.foldl_flatMap, Sum.elim_inr]
      congr 1
      refine congrArg (fun f => List.foldl f s indices) ?_
      funext s i2
      cases userTable ram (mem (l2 + 8*i2)) with
      | none => rfl
      | some l3 =>
        simp only [List.foldl_append, List.foldl_cons, List.foldl_nil, List.foldl_flatMap, Sum.elim_inr]
        congr 1
        refine congrArg (fun f => List.foldl f s indices) ?_
        funext s i3
        split_ifs <;> rfl

/-- The host pages that a teardown releases, in order. -/
def released (ram : Ram) (mem : ℕ → Desc) (l0 : ℕ) : List ℕ := (teardown ram mem l0).filterMap Sum.getLeft?

/-- The tables that it frees. -/
def freed (ram : Ram) (mem : ℕ → Desc) (l0 : ℕ) : List ℕ := (teardown ram mem l0).filterMap Sum.getRight?

/-- The address that three table indices name. -/
def vaOf (i1 i2 i3 : ℕ) : ℕ := i1*2^30 + i2*2^21 + i3*2^12

/-- The host page behind an address, if any. -/
def pageKey (ram : Ram) (m : Memory) (l0 va : ℕ) : Option ℕ := (descToPageInfo (leaf ram m l0 va)).map keyOf

section Teardown

variable {ram : Ram} {m : Memory} {l0 : ℕ}

lemma path_vaOf {i1 i2 i3 : ℕ} (h1 : i1 < 512) (h2 : i2 < 512) (h3 : i3 < 512) :
    path (vaOf i1 i2 i3) = [0, i1, i2] ∧ l3Index (vaOf i1 i2 i3) = i3 := by
  simp only [path, vaOf, l0Index, l1Index, l2Index, l3Index, List.cons.injEq, and_true]
  omega

lemma leaf_step (d : Desc) : (if (d &&& 1) ≠ 0 ∧ !isDeviceDesc d then
      [(Sum.inl (d &&& mAddress).toNat : ℕ ⊕ ℕ)] else []).filterMap Sum.getLeft? =
    ((descToPageInfo d).map keyOf).toList := by
  simp only [bit_and_one]
  unfold descToPageInfo
  by_cases hv : d.getLsbD bValid = true
  · cases hdev : isDeviceDesc d <;> simp [hv, keyOf]
  · simp [hv]

/-- What a teardown releases is what the root maps, page by page. -/
theorem released_eq (ram : Ram) (m : Memory) (l0 : ℕ) : released ram m.mem l0 =
    (List.range 512).flatMap fun i1 => (List.range 512).flatMap fun i2 => (List.range 512).flatMap fun i3 =>
      (pageKey ram m l0 (vaOf i1 i2 i3)).toList := by
  have hl0 : l0Index minVAddr = 0 := by decide
  have hempty : ∀ {i1 i2 i3}, i1 < 512 → i2 < 512 → i3 < 512 →
      walk (userTable ram) m.mem l0 [0, i1, i2] = none → (pageKey ram m l0 (vaOf i1 i2 i3)).toList = [] := by
    intro i1 i2 i3 h1 h2 h3 hw
    simp [pageKey, leaf, (path_vaOf h1 h2 h3).1, hw]
  unfold released teardown
  rw [hl0]
  cases hd0 : userTable ram (m.mem (l0 + 8*0)) with
  | none =>
    symm
    simp only [List.filterMap_cons, Sum.getLeft?, List.filterMap_nil, List.flatMap_eq_nil_iff, List.mem_range]
    intro i1 h1 i2 h2 i3 h3
    exact hempty h1 h2 h3 (by simp only [walk, hd0, Option.bind_none])
  | some l1 =>
    simp only [List.filterMap_append, List.filterMap_flatMap, List.filterMap_cons, Sum.getLeft?, List.filterMap_nil,
      List.append_nil]
    refine List.flatMap_congr fun i1 h1 => ?_
    rw [List.mem_range] at h1
    cases hd1 : userTable ram (m.mem (l1 + 8*i1)) with
    | none =>
      symm
      simp only [List.filterMap_nil, List.flatMap_eq_nil_iff, List.mem_range]
      intro i2 h2 i3 h3
      exact hempty h1 h2 h3 (by simp only [walk, hd0, hd1, Option.bind_some, Option.bind_none])
    | some l2 =>
      simp only [List.filterMap_append, List.filterMap_flatMap, List.filterMap_cons, Sum.getLeft?, List.filterMap_nil,
        List.append_nil]
      refine List.flatMap_congr fun i2 h2 => ?_
      rw [List.mem_range] at h2
      cases hd2 : userTable ram (m.mem (l2 + 8*i2)) with
      | none =>
        symm
        simp only [List.filterMap_nil, List.flatMap_eq_nil_iff, List.mem_range]
        intro i3 h3
        exact hempty h1 h2 h3 (by simp only [walk, hd0, hd1, hd2, Option.bind_some, Option.bind_none])
      | some l3 =>
        simp only [List.filterMap_append, List.filterMap_flatMap, List.filterMap_cons, Sum.getLeft?,
          List.filterMap_nil, List.append_nil]
        refine List.flatMap_congr fun i3 h3 => ?_
        rw [List.mem_range] at h3
        obtain ⟨hpath, hidx⟩ := path_vaOf h1 h2 h3
        have hwalk : walk (userTable ram) m.mem l0 [0, i1, i2] = some l3 := by
          simp only [walk, hd0, hd1, hd2, Option.bind_some]
        rw [leaf_step, pageKey, leaf, hpath, hidx, hwalk]
        rfl

/-- The page numbers of the window that a teardown walks. -/
def allPages : List ℕ :=
  (List.range 512).flatMap fun i1 => (List.range 512).flatMap fun i2 => (List.range 512).map fun i3 => vaOf i1 i2 i3

lemma mem_allPages {va : ℕ} : va ∈ allPages ↔ va % 4096 = 0 ∧ va < 2^39 := by
  simp only [allPages, List.mem_flatMap, List.mem_map, List.mem_range]
  constructor
  · rintro ⟨i1, h1, i2, h2, i3, h3, rfl⟩
    simp only [vaOf]
    omega
  · rintro ⟨h1, h2⟩
    refine ⟨va/2^30, by omega, va/2^21 % 512, by omega, va/2^12 % 512, by omega, ?_⟩
    simp only [vaOf]
    omega

lemma nodup_allPages : allPages.Nodup := by
  have hrange : (List.range 512).Nodup := List.nodup_range
  refine List.nodup_flatMap.mpr ⟨fun i1 _ => List.nodup_flatMap.mpr ⟨fun i2 _ => ?_, ?_⟩, ?_⟩
  · refine hrange.map fun a b hab => ?_
    simp only [vaOf] at hab
    omega
  · refine List.Pairwise.imp_of_mem ?_ hrange
    intro a b ha hb hab x hxa hxb
    simp only [List.mem_map, List.mem_range] at hxa hxb
    obtain ⟨i3, h3, rfl⟩ := hxa
    obtain ⟨j3, hj3, heq⟩ := hxb
    simp only [vaOf] at heq
    omega
  · refine List.Pairwise.imp_of_mem ?_ hrange
    intro a b ha hb hab x hxa hxb
    simp only [List.mem_flatMap, List.mem_map, List.mem_range] at hxa hxb
    obtain ⟨i2, h2, i3, h3, rfl⟩ := hxa
    obtain ⟨j2, hj2, j3, hj3, heq⟩ := hxb
    simp only [vaOf] at heq
    omega

lemma released_eq_filterMap (ram : Ram) (m : Memory) (l0 : ℕ) :
    released ram m.mem l0 = allPages.filterMap (pageKey ram m l0) := by
  simp only [released_eq, allPages, List.filterMap_eq_flatMap_toList, List.flatMap_assoc, List.flatMap_map]

/-- Only tables of the root are freed as tables. -/
lemma freed_tables {roots : Set ℕ} (hroot : l0 ∈ roots) {t : ℕ} (ht : t ∈ freed ram m.mem l0) :
    ∃ js, TableAt ram m roots l0 js t := by
  have h0 : TableAt ram m roots l0 [] l0 := stands_nil.mpr ⟨hroot, rfl⟩
  have hl0 : l0Index minVAddr = 0 := by decide
  unfold freed teardown at ht
  rw [hl0] at ht
  cases hd0 : userTable ram (m.mem (l0 + 8*0)) with
  | none =>
    rw [hd0] at ht
    obtain rfl : t = l0 := by simpa using ht
    exact ⟨[], h0⟩
  | some l1 =>
    have h1 := h0.child (by simp) (by norm_num) hd0
    simp only [hd0, List.filterMap_append, List.filterMap_flatMap, List.mem_append, List.mem_flatMap,
      List.mem_range] at ht
    obtain ⟨i1, hi1, ht⟩ | ht := ht
    · cases hd1 : userTable ram (m.mem (l1 + 8*i1)) with
      | none => simp [hd1] at ht
      | some l2 =>
        have h2 := h1.child (by simp) hi1 hd1
        simp only [hd1, List.filterMap_append, List.filterMap_flatMap, List.mem_append, List.mem_flatMap,
          List.mem_range] at ht
        obtain ⟨i2, hi2, ht⟩ | ht := ht
        · cases hd2 : userTable ram (m.mem (l2 + 8*i2)) with
          | none => simp [hd2] at ht
          | some l3 =>
            have h3 := h2.child (by simp) hi2 hd2
            simp only [hd2, List.filterMap_append, List.filterMap_flatMap, List.mem_append, List.mem_flatMap] at ht
            obtain ⟨i3, -, ht⟩ | ht := ht
            · split_ifs at ht <;> simp at ht
            · obtain rfl : t = l3 := by simpa using ht
              exact ⟨_, h3⟩
        · obtain rfl : t = l2 := by simpa using ht
          exact ⟨_, h2⟩
    · obtain rfl | rfl : t = l1 ∨ t = l0 := by simpa using ht
      · exact ⟨_, h1⟩
      · exact ⟨[], h0⟩

/-- A teardown that releases no last reference frees only tables. -/
lemma foldl_teardown (ops : List (ℕ ⊕ ℕ)) (s : VmState)
    (h : ∀ k ∈ ops.filterMap Sum.getLeft?, ∃ n, s.refs k = some n ∧ (ops.filterMap Sum.getLeft?).count k < n) :
    ops.foldl (fun s op => op.elim (VmState.releaseBacking · s) fun t => { s with vm := freePage t s.vm }) s =
      { vm := { s.vm with pool := (ops.filterMap Sum.getRight?).reverse ++ s.vm.pool }
        refs := (ops.filterMap Sum.getLeft?).foldl (fun m k => Function.update m k (Ledger.dropEntry (m k))) s.refs
        ttbr0 := s.ttbr0 } := by
  induction ops generalizing s with
  | nil => rfl
  | cons op ops ih =>
    cases op with
    | inl k =>
      simp only [List.filterMap_cons, Sum.getLeft?, Sum.getRight?, List.foldl_cons, Sum.elim_inl] at h ⊢
      obtain ⟨n, hn, hlt⟩ := h k List.mem_cons_self
      rw [List.count_cons_self] at hlt
      have hstep : s.releaseBacking k = { s with refs := Function.update s.refs k (Ledger.dropEntry (s.refs k)) } := by
        have hflag : (dropShare s.refs k).1 = false := by
          simp [dropShare, Ledger.release, hn, show ¬ n ≤ 1 by omega]
        simp only [VmState.releaseBacking, hflag, Bool.false_eq_true, if_false, ← Ledger.release_eq]
        rfl
      rw [hstep, ih]
      intro j hj
      by_cases hjk : j = k
      · subst hjk
        refine ⟨n-1, ?_, by omega⟩
        simp [hn, Ledger.dropEntry, show ¬ n ≤ 1 by omega]
      · obtain ⟨n', hn', hlt'⟩ := h j (List.mem_cons_of_mem _ hj)
        rw [List.count_cons_of_ne (Ne.symm hjk)] at hlt'
        exact ⟨n', by simpa [hjk] using hn', hlt'⟩
    | inr t =>
      simp only [List.filterMap_cons, Sum.getLeft?, Sum.getRight?, List.foldl_cons, Sum.elim_inr] at h ⊢
      rw [ih { s with vm := freePage t s.vm } h]
      simp [freePage]

end Teardown

lemma keyOf_sharedInfo (info : PageInfo) : keyOf (sharedInfo info) = keyOf info := rfl

/-- The entries of page maps that name a host page. -/
def mappings (ram : Ram) (roots : Set ℕ) (m : Memory) (k : ℕ) : Set (ℕ × ℕ) :=
  { x | x.1 ∈ roots ∧ x.2 % 4096 = 0 ∧ ∃ info, userPage ram m x.1 x.2 = some info ∧ keyOf info = k }

/-- `cowRefs` counts the live mappings of every shared page. -/
def Counted (ram : Ram) (roots : Set ℕ) (s : VmState) : Prop :=
  ∃ c : ℕ → ℕ, (∀ k, (mappings ram roots s.vm k).encard = c k) ∧ Ledger.Counts s.refs c

/-- The pages that were flipped, as the loop leaves them. -/
structure Flipped (ram : Ram) (src : ℕ) (m : Memory) (fl : List (ℕ × PageInfo)) : Prop where
  mapped : ∀ p ∈ fl, p.1 % 4096 = 0 ∧ userPage ram m src p.1 = some p.2
  apart : fl.Pairwise fun p q => ¬ SamePage p.1 q.1

lemma Stopped.flipped {ram : Ram} {src dst hi : ℕ} {m : Memory} {fl : List (ℕ × PageInfo)}
    (h : Stopped ram src dst hi m fl) : Flipped ram src m fl := by
  have hmem : ∀ p ∈ fl, p ∈ scan ram m src hi := fun p hp => h.before.subset (List.mem_reverse.mpr hp)
  refine ⟨fun p hp => ⟨(mem_scan.mp (hmem p hp)).1, (mem_scan.mp (hmem p hp)).2.2⟩, ?_⟩
  have hsorted := List.pairwise_reverse.mp ((scan_pairwise ram m src hi).sublist h.before.sublist)
  refine List.Pairwise.imp_of_mem ?_ hsorted
  intro p q hp hq hlt hsame
  obtain ⟨hp1, -, hp2⟩ := mem_scan.mp (hmem p hp)
  obtain ⟨hq1, -, hq2⟩ := mem_scan.mp (hmem q hq)
  have := (samePage_iff (userPage_valid hp2) (userPage_valid hq2)).mp hsame
  omega

/-- Restoring the flipped pages puts every one of them back and touches no other leaf; the pool
stays, and each restored page gives one reference back. -/
theorem foldl_restorePage {ram : Ram} {roots : Set ℕ} {src : ℕ} (hsrc : src ∈ roots) (fl : List (ℕ × PageInfo))
    (s : VmState) (hf : Forest (userTable ram) 3 s.vm.mem roots [])
    (hfl : ∀ p ∈ fl, validVAddr p.1 = true ∧ p.2.physPage &&& mAddress = p.2.physPage ∧
      leaf ram s.vm src p.1 = pageInfoToDesc (sharedInfo p.2))
    (hapart : fl.Pairwise fun p q => ¬ SamePage p.1 q.1) :
    (fl.foldl (restorePage src) s).vm.pool = s.vm.pool ∧
    (fl.foldl (restorePage src) s).refs =
      (fl.map fun p => keyOf p.2).foldl (fun m k => Function.update m k (Ledger.dropEntry (m k))) s.refs ∧
    (∀ p ∈ fl, leaf ram (fl.foldl (restorePage src) s).vm src p.1 = pageInfoToDesc p.2) ∧
    ∀ {r va}, r ∈ roots → ¬ (r = src ∧ ∃ p ∈ fl, SamePage va p.1) →
      leaf ram (fl.foldl (restorePage src) s).vm r va = leaf ram s.vm r va := by
  induction fl generalizing s with
  | nil => exact ⟨rfl, rfl, by simp, fun _ _ => rfl⟩
  | cons p fl ih =>
    obtain ⟨hvalid, hphys, hleaf⟩ := hfl p List.mem_cons_self
    obtain ⟨hhead, htail⟩ := List.pairwise_cons.mp hapart
    have hround : descToPageInfo (pageInfoToDesc (sharedInfo p.2)) = some (sharedInfo p.2) :=
      descToPageInfo_pageInfoToDesc hphys
    have hpage : userPage ram s.vm src p.1 = some (sharedInfo p.2) := by rw [userPage, if_pos hvalid, hleaf, hround]
    obtain ⟨l3, hwalk, -⟩ := userPage_table hpage
    have htab : TableAt ram { s.vm with pool := [] } roots src (path p.1) l3 := ⟨hsrc, index_lt _, by simp [path], hwalk⟩
    -- the write goes to a table that is there, whatever the pool holds
    have hsets := sets_poke hf htab (pageInfoToDesc p.2)
    have hstep : restorePage src s p = { s with
        vm := s.vm.poke l3 (l3Index p.1) (pageInfoToDesc p.2), refs := unshareBump s.refs (keyOf p.2) } := by
      rw [restorePage, getPage_of_walk hwalk, hpage]
      simp only [setPage_of_walk hvalid hwalk, keyOf_sharedInfo]
    have hself : leaf ram (s.vm.poke l3 (l3Index p.1) (pageInfoToDesc p.2)) src p.1 = pageInfoToDesc p.2 := hsets.leaf_self
    have hother : ∀ {r va}, r ∈ roots → ¬ (r = src ∧ SamePage va p.1) →
        leaf ram (s.vm.poke l3 (l3Index p.1) (pageInfoToDesc p.2)) r va = leaf ram s.vm r va := hsets.leaf_other
    rw [List.foldl_cons, hstep]
    obtain ⟨h1, h2, h3, h4⟩ := ih { s with
        vm := s.vm.poke l3 (l3Index p.1) (pageInfoToDesc p.2), refs := unshareBump s.refs (keyOf p.2) } hsets.forest
      (fun q hq => by
        obtain ⟨hv, hp, hl⟩ := hfl q (List.mem_cons_of_mem _ hq)
        exact ⟨hv, hp, (hother hsrc fun h => hhead q hq h.2.symm).trans hl⟩) htail
    refine ⟨h1, ?_, ?_, ?_⟩
    · rw [h2, List.map_cons, List.foldl_cons, ← Ledger.unshare_eq]
      rfl
    · intro q hq
      obtain rfl | hq := List.mem_cons.mp hq
      · refine (h4 hsrc ?_).trans hself
        rintro ⟨-, q', hq', hsame⟩
        exact hhead q' hq' hsame
      · exact h3 q hq
    · intro r va hr hne
      refine (h4 hr ?_).trans (hother hr ?_)
      · rintro ⟨rfl, q, hq, hsame⟩
        exact hne ⟨rfl, q, List.mem_cons_of_mem _ hq, hsame⟩
      · rintro ⟨rfl, hsame⟩
        exact hne ⟨rfl, p, List.mem_cons_self, hsame⟩

section Rollback

variable {pf : Platform} {roots : Set ℕ} {src dst : ℕ} {s0 s : VmState} {fl : List (ℕ × PageInfo)}
  {new : List (List ℕ × ℕ)}

/-- A page without an entry is flipped at most once. -/
lemma Counted.count_le_one (h : Counted pf.toRam roots s0) (hsrc : src ∈ roots)
    (hfl : Flipped pf.toRam src s0.vm fl) {k : ℕ} (hk : s0.refs k = none) :
    (fl.map fun p => keyOf p.2).count k ≤ 1 := by
  obtain ⟨c, hc, hcounts⟩ := h
  have hle : (mappings pf.toRam roots s0.vm k).encard ≤ 1 := by
    have := hcounts k
    rw [hk, Ledger.fits_none] at this
    rw [hc]
    exact_mod_cast this
  have hsub := Set.encard_le_one_iff.mp hle
  have hin : ∀ p ∈ fl, keyOf p.2 = k → (src, p.1) ∈ mappings pf.toRam roots s0.vm k :=
    fun p hp hkey => ⟨hsrc, (hfl.mapped p hp).1, p.2, (hfl.mapped p hp).2, hkey⟩
  have hcount : (fl.map fun p => keyOf p.2).count k = (fl.filter fun p => keyOf p.2 == k).length := by
    rw [List.count, List.countP_map, List.countP_eq_length_filter]
    rfl
  rw [hcount]
  rcases hl : fl.filter (fun p => keyOf p.2 == k) with _ | ⟨p, _ | ⟨q, l⟩⟩
  · simp [hl]
  · simp [hl]
  exfalso
  have hpair := hfl.apart.sublist (List.filter_sublist (p := fun p => keyOf p.2 == k))
  rw [hl] at hpair
  have hmem : ∀ x, x ∈ p :: q :: l → x ∈ fl ∧ keyOf x.2 = k := by
    intro x hx
    rw [← hl] at hx
    simpa using hx
  obtain ⟨hp, hpk⟩ := hmem p (by simp)
  obtain ⟨hq, hqk⟩ := hmem q (by simp)
  have heq := hsub _ _ (hin p hp hpk) (hin q hq hqk)
  simp only [Prod.mk.injEq, true_and] at heq
  exact (List.pairwise_cons.mp hpair).1 q (by simp) ⟨by rw [heq], by rw [heq]⟩

/-- The child maps exactly the flipped pages, so its teardown releases each of them once. -/
lemma Shared.released_perm (h : Shared pf roots src dst s0 s fl new) (hdst : dst ∈ roots)
    (hblank : ∀ va, descToPageInfo (leaf pf.toRam s0.vm dst va) = none) (hfl : Flipped pf.toRam src s0.vm fl) :
    (released pf.toRam s.vm.mem dst).Perm (fl.map fun p => keyOf p.2) := by
  have hkey : ∀ p ∈ fl, pageKey pf.toRam s.vm dst p.1 = some (keyOf p.2) := by
    intro p hp
    obtain ⟨l3, -, hdesc⟩ := userPage_table (hfl.mapped p hp).2
    have hround : descToPageInfo (pageInfoToDesc (sharedInfo p.2)) = some (sharedInfo p.2) :=
      descToPageInfo_pageInfoToDesc (descToPageInfo_physPage hdesc).2.2.2
    rw [pageKey, (h.flipped p hp).2.2, hround]
    rfl
  have hnodup : (fl.map Prod.fst).Nodup := by
    refine List.Nodup.of_map id ?_
    rw [List.map_id]
    exact List.pairwise_map.mpr (hfl.apart.imp fun hne heq => hne ⟨by rw [heq], by rw [heq]⟩)
  have hperm : (allPages.filter fun va => (pageKey pf.toRam s.vm dst va).isSome).Perm (fl.map Prod.fst) := by
    rw [List.perm_ext_iff_of_nodup (nodup_allPages.filter _) hnodup]
    intro va
    simp only [List.mem_filter, mem_allPages, List.mem_map]
    constructor
    · rintro ⟨⟨haligned, hlt⟩, hsome⟩
      by_contra hnot
      have hout : ∀ p ∈ fl, ¬ SamePage va p.1 := by
        intro p hp hsame
        have hvalid := validVAddr_iff.mp (userPage_valid (hfl.mapped p hp).2)
        have hp1 := (hfl.mapped p hp).1
        simp only [SamePage, path, l0Index, l1Index, l2Index, l3Index, List.cons.injEq, and_true] at hsame
        exact hnot ⟨p, hp, by omega⟩
      rw [pageKey, h.rest hdst hout, hblank] at hsome
      simp at hsome
    · rintro ⟨p, hp, rfl⟩
      have hvalid := validVAddr_iff.mp (userPage_valid (hfl.mapped p hp).2)
      exact ⟨⟨(hfl.mapped p hp).1, by omega⟩, by rw [hkey p hp]; rfl⟩
  have hfilter : allPages.filterMap (pageKey pf.toRam s.vm dst) =
      (allPages.filter fun va => (pageKey pf.toRam s.vm dst va).isSome).filterMap (pageKey pf.toRam s.vm dst) := by
    rw [List.filterMap_filter]
    refine List.filterMap_congr fun va _ => ?_
    cases pageKey pf.toRam s.vm dst va <;> rfl
  have hmap : (fl.map Prod.fst).filterMap (pageKey pf.toRam s.vm dst) = fl.map fun p => keyOf p.2 := by
    rw [List.filterMap_map, ← List.filterMap_eq_map]
    exact List.filterMap_congr fun p hp => hkey p hp
  rw [released_eq_filterMap, hfilter, ← hmap]
  exact hperm.filterMap _

/-- The counts after the shares. -/
lemma Shared.refs_apply (h : Shared pf roots src dst s0 s fl new) (k : ℕ) :
    s.refs k = Ledger.shareEntry^[(fl.map fun p => keyOf p.2).count k] (s0.refs k) := by
  have hfold : s.refs = (fl.map fun p => keyOf p.2).reverse.foldl
      (fun m k => Function.update m k (Ledger.shareEntry (m k))) s0.refs := by
    rw [h.refs, List.foldl_reverse, List.foldr_map]
    simp only [shareBump, Ledger.share_eq]
  rw [hfold, Ledger.foldl_update, List.count_reverse]

/-- The rollback: every page map is as it was, only tables of the child are freed, and each
count went up once and down twice for each flipped mapping of its page. -/
theorem Shared.rolled_back (h : Shared pf roots src dst s0 s fl new) (hsrc : src ∈ roots) (hdst : dst ∈ roots)
    (hne : src ≠ dst) (hblank : ∀ va, descToPageInfo (leaf pf.toRam s0.vm dst va) = none) (hlive : s0.ttbr0 ≠ dst)
    (hcounted : Counted pf.toRam roots s0) (hfl : Flipped pf.toRam src s0.vm fl) :
    (∀ r ∈ roots, r ≠ dst → ∀ va,
      userPage pf.toRam (rollback pf.toRam src dst s fl).vm r va = userPage pf.toRam s0.vm r va ∧
      userMarker pf.toRam (rollback pf.toRam src dst s fl).vm r va = userMarker pf.toRam s0.vm r va) ∧
    (∀ p ∈ (rollback pf.toRam src dst s fl).vm.pool, p ∈ s.vm.pool ∨ ∃ js, TableAt pf.toRam s.vm roots dst js p) ∧
    ∀ k, (rollback pf.toRam src dst s fl).refs k =
      Ledger.dropEntry^[(fl.map fun p => keyOf p.2).count k] (Ledger.dropEntry^[(fl.map fun p => keyOf p.2).count k]
        (Ledger.shareEntry^[(fl.map fun p => keyOf p.2).count k] (s0.refs k))) := by
  have hperm := h.released_perm hdst hblank hfl
  have hlast : ∀ k ∈ released pf.toRam s.vm.mem dst,
      ∃ n, s.refs k = some n ∧ (released pf.toRam s.vm.mem dst).count k < n := by
    intro k hk
    rw [hperm.mem_iff] at hk
    have hpos := List.count_pos_iff.mpr hk
    rw [hperm.count_eq, h.refs_apply]
    cases hr : s0.refs k with
    | none =>
      have hone : (fl.map fun p => keyOf p.2).count k = 1 := by
        have := hcounted.count_le_one hsrc hfl hr
        omega
      exact ⟨2, by rw [hone]; rfl, by omega⟩
    | some n =>
      obtain ⟨c, -, hcounts⟩ := hcounted
      have hfit := hcounts k
      rw [hr, Ledger.fits_some] at hfit
      exact ⟨n + (fl.map fun p => keyOf p.2).count k, Ledger.shareEntry_iterate _ _, by omega⟩
  have hfree : freePDir pf.toRam dst s =
      { vm := { s.vm with pool := (freed pf.toRam s.vm.mem dst).reverse ++ s.vm.pool }
        refs := (released pf.toRam s.vm.mem dst).foldl (fun m k => Function.update m k (Ledger.dropEntry (m k))) s.refs
        ttbr0 := s.ttbr0 } := by
    rw [freePDir, if_neg (h.ttbr0 ▸ hlive), freeUserTables_eq]
    exact foldl_teardown _ _ hlast
  have hcanon : ∀ p ∈ fl, p.2.physPage &&& mAddress = p.2.physPage := by
    intro p hp
    obtain ⟨l3, -, hdesc⟩ := userPage_table (hfl.mapped p hp).2
    exact (descToPageInfo_physPage hdesc).2.2.2
  obtain ⟨h1, h2, h3, h4⟩ := foldl_restorePage hsrc fl (freePDir pf.toRam dst s)
    (by rw [hfree]; exact h.spaces.forest.subset (Set.Subset.refl _) (List.nil_sublist _))
    (fun p hp => ⟨userPage_valid (hfl.mapped p hp).2, hcanon p hp, by rw [hfree]; exact (h.flipped p hp).2.1⟩) hfl.apart
  have hmem : ∀ r va, leaf pf.toRam (freePDir pf.toRam dst s).vm r va = leaf pf.toRam s.vm r va := by
    intro r va
    rw [hfree]
    rfl
  refine ⟨fun r hr hrd va => ?_, fun p hp => ?_, fun k => ?_⟩
  · by_cases hsame : r = src ∧ ∃ p ∈ fl, SamePage va p.1
    · obtain ⟨rfl, p, hp, hsame⟩ := hsame
      have hnew : descToPageInfo (leaf pf.toRam (rollback pf.toRam r dst s fl).vm r va) = some p.2 := by
        rw [hsame.leaf_eq]
        exact (congrArg descToPageInfo (h3 p hp)).trans (descToPageInfo_pageInfoToDesc (hcanon p hp))
      have hold : descToPageInfo (leaf pf.toRam s0.vm r va) = some p.2 := by
        have := (hfl.mapped p hp).2
        rw [userPage, if_pos (userPage_valid this)] at this
        rwa [hsame.leaf_eq]
      have hpages : userPage pf.toRam (rollback pf.toRam r dst s fl).vm r va = userPage pf.toRam s0.vm r va := by
        rw [userPage, userPage, hnew, hold]
      refine ⟨hpages, ?_⟩
      by_cases hva : (validVAddr va && decide (va % 4096 = 0)) = true
      · have hv : validVAddr va = true := (Bool.and_eq_true _ _ ▸ hva).1
        have hsome : userPage pf.toRam s0.vm r va = some p.2 := by rw [userPage, if_pos hv, hold]
        rw [userMarker, userMarker, if_pos hva, if_pos hva, hpages, hsome]
      · rw [userMarker, userMarker, if_neg hva, if_neg hva]
    · have hleaf : leaf pf.toRam (rollback pf.toRam src dst s fl).vm r va = leaf pf.toRam s0.vm r va := by
        refine (h4 hr hsame).trans ((hmem r va).trans ?_)
        by_cases hrs : r = src
        · exact h.rest hr fun p hp hs => hsame ⟨hrs, p, hp, hs⟩
        · exact h.other hr hrs hrd
      exact ⟨userPage_congr hleaf, userMarker_congr hleaf⟩
  · have hpool : (rollback pf.toRam src dst s fl).vm.pool = (freed pf.toRam s.vm.mem dst).reverse ++ s.vm.pool :=
      h1.trans (by rw [hfree])
    rw [hpool, List.mem_append, List.mem_reverse] at hp
    obtain hp | hp := hp
    · exact Or.inr (freed_tables hdst hp)
    · exact Or.inl hp
  · have hrefs : (rollback pf.toRam src dst s fl).refs = _ := h2
    rw [hrefs, Ledger.foldl_update, hfree]
    simp only
    rw [Ledger.foldl_update, hperm.count_eq, h.refs_apply]

/-- What a failed fork must leave as it was: the parent's page map and the counts; and nothing
that some process still maps is free. -/
structure ForkInvisible (ram : Ram) (roots : Set ℕ) (src dst : ℕ) (s0 s' : VmState) : Prop where
  pages : ∀ va, userPage ram s'.vm src va = userPage ram s0.vm src va ∧
    userMarker ram s'.vm src va = userMarker ram s0.vm src va
  refs : s'.refs = s0.refs
  mapped : ∀ p ∈ s'.vm.pool, ∀ r ∈ roots, r ≠ dst → ∀ va info, userPage ram s'.vm r va = some info → keyOf info ≠ p

/-- The fork gets as far as the page of `va`: it is among the first 8193 pages, and for it and the
pages below the child lacks no more tables than there are free pages. -/
structure Reached (ram : Ram) (src dst hi : ℕ) (s0 : VmState) (va : ℕ) (info : PageInfo) : Prop where
  aligned : va % 4096 = 0
  below : va < hi
  mapped : userPage ram s0.vm src va = some info
  cap : (scan ram s0.vm src (va+1)).length ≤ 8193
  room : needed ram s0.vm dst ((scan ram s0.vm src (va+1)).map Prod.fst) ≤ s0.vm.pool.length

/-- The pages that the loop flipped are those that it could reach. -/
lemma Stopped.mem_iff {ram : Ram} {hi : ℕ} {m : Memory} (h : Stopped ram src dst hi m fl) {p : ℕ × PageInfo}
    (hp : p ∈ scan ram m src hi) : p ∈ fl ↔ (scan ram m src (p.1+1)).length ≤ 8193 ∧
      needed ram m dst ((scan ram m src (p.1+1)).map Prod.fst) ≤ m.pool.length := by
  obtain ⟨rest, hrest⟩ := h.before
  have hsorted := scan_pairwise ram m src hi
  rw [← hrest, List.pairwise_append] at hsorted
  obtain ⟨-, hrestSorted, hacross⟩ := hsorted
  have hall : ∀ q, q ∈ scan ram m src hi ↔ q ∈ fl ∨ q ∈ rest := by
    intro q
    rw [← hrest, List.mem_append, List.mem_reverse]
  have hupto : ∀ q, q ∈ scan ram m src (p.1+1) ↔ q ∈ scan ram m src hi ∧ q.1 ≤ p.1 := by
    intro q
    have := (mem_scan.mp hp).2.1
    rw [mem_scan, mem_scan]
    constructor
    · rintro ⟨h1, h2, h3⟩
      exact ⟨⟨h1, by omega, h3⟩, by omega⟩
    · rintro ⟨⟨h1, -, h3⟩, h2⟩
      exact ⟨h1, by omega, h3⟩
  constructor
  · -- what lies at or below a flipped page was flipped
    intro hpfl
    have hsub : scan ram m src (p.1+1) ⊆ fl := by
      intro q hq
      obtain ⟨hq, hle⟩ := (hupto q).mp hq
      refine ((hall q).mp hq).resolve_right fun hqr => ?_
      have := hacross p (List.mem_reverse.mpr hpfl) q hqr
      omega
    have hnodup : (scan ram m src (p.1+1)).Nodup :=
      (scan_pairwise ram m src (p.1+1)).imp fun hlt heq => by rw [heq] at hlt; omega
    exact ⟨(List.subperm_of_subset hnodup hsub).length_le.trans h.cap,
      (needed_mono (List.map_subset _ hsub)).trans h.room⟩
  · rintro ⟨hcap, hroom⟩
    by_contra hpfl
    have hprest : p ∈ rest := ((hall p).mp hp).resolve_left hpfl
    have hbelow : ∀ q ∈ fl, q ∈ scan ram m src (p.1+1) := by
      intro q hq
      have := hacross q (List.mem_reverse.mpr hq) p hprest
      exact (hupto q).mpr ⟨(hall q).mpr (Or.inl hq), by omega⟩
    have hnodup : (p :: fl).Nodup := by
      refine List.nodup_cons.mpr ⟨hpfl, ?_⟩
      exact h.flipped.apart.imp fun hne heq => hne ⟨by rw [heq], by rw [heq]⟩
    obtain hfull | ⟨p', hp', hshort⟩ := h.reason
    · have hsub : p :: fl ⊆ scan ram m src (p.1+1) :=
        List.cons_subset.mpr ⟨(hupto p).mpr ⟨hp, le_rfl⟩, hbelow⟩
      have := (List.subperm_of_subset hnodup hsub).length_le
      rw [List.length_cons] at this
      omega
    · -- the page at which the pool was short lies at or below `p`
      have hfirst : p'.1 ≤ p.1 := by
        rw [← hrest, List.prefix_append_right_inj] at hp'
        obtain ⟨rest', rfl⟩ := hp'
        obtain hsame | hlater := List.mem_append.mp hprest
        · rw [List.mem_singleton.mp hsame]
        · exact ((List.pairwise_append.mp hrestSorted).2.2 p' (by simp) p hlater).le
      have hp'scan : p' ∈ scan ram m src hi := hp'.subset (by simp)
      have hsub : p'.1 :: fl.map Prod.fst ⊆ (scan ram m src (p.1+1)).map Prod.fst := by
        refine List.cons_subset.mpr ⟨List.mem_map.mpr ⟨p', (hupto p').mpr ⟨hp'scan, hfirst⟩, rfl⟩, ?_⟩
        exact List.map_subset _ hbelow
      have hle : needed ram m dst (p'.1 :: fl.map Prod.fst) ≤
          needed ram m dst ((scan ram m src (p.1+1)).map Prod.fst) := needed_mono hsub
      omega

/-- What a failed fork leaves behind. -/
theorem failed_fork {hi : ℕ} {s' : VmState} (h0 : Spaces pf roots s0.vm) (hsrc : src ∈ roots) (hdst : dst ∈ roots)
    (hne : src ≠ dst) (hblank : ∀ va, descToPageInfo (leaf pf.toRam s0.vm dst va) = none) (hlive : s0.ttbr0 ≠ dst)
    (hcounted : Counted pf.toRam roots s0) (hfail : shareAddrSpace pf.toRam src dst hi s0 = (false, s')) :
    (∀ r ∈ roots, r ≠ dst → ∀ va, userPage pf.toRam s'.vm r va = userPage pf.toRam s0.vm r va ∧
      userMarker pf.toRam s'.vm r va = userMarker pf.toRam s0.vm r va) ∧
    (∀ p ∈ s'.vm.pool, ∀ r ∈ roots, r ≠ dst → ∀ va info, userPage pf.toRam s'.vm r va = some info → keyOf info ≠ p) ∧
    ∀ k, s'.refs k = s0.refs k ↔
      s0.refs k = none ∨ ∀ va info, Reached pf.toRam src dst hi s0 va info → keyOf info ≠ k := by
  obtain ⟨s₁, new, hrun, -⟩ | ⟨s₁, fl, new, hrun, hshared, hstop⟩ :=
    shareAddrSpace_cases hi h0 hsrc hdst hne
  · rw [hrun] at hfail
    cases hfail
  obtain rfl : rollback pf.toRam src dst s₁ fl = s' := by
    rw [hrun] at hfail
    exact (Prod.mk.injEq _ _ _ _ ▸ hfail).2
  obtain ⟨hpages, hpool, hrefs⟩ := hshared.rolled_back hsrc hdst hne hblank hlive hcounted hstop.flipped
  refine ⟨hpages, ?_, fun k => ?_⟩
  · intro p hp r hr hrd va info hinfo
    rw [(hpages r hr hrd va).1] at hinfo
    obtain ⟨hfree, htab⟩ := h0.data hr hinfo
    obtain ⟨hfree', htab'⟩ := hshared.ext.data hfree htab
    rintro rfl
    obtain hp | ⟨js, hjs⟩ := hpool _ hp
    · exact hfree' hp
    · exact htab' _ _ _ hjs rfl
  · have hreached : (fl.map fun p => keyOf p.2).count k = 0 ↔
        ∀ va info, Reached pf.toRam src dst hi s0 va info → keyOf info ≠ k := by
      rw [List.count_eq_zero, List.mem_map, not_exists]
      constructor
      · intro hnot va info hr hkey
        have hscan : (va, info) ∈ scan pf.toRam s0.vm src hi := mem_scan.mpr ⟨hr.aligned, hr.below, hr.mapped⟩
        exact hnot (va, info) ⟨(hstop.mem_iff hscan).mpr ⟨hr.cap, hr.room⟩, hkey⟩
      · rintro hall p ⟨hp, hkey⟩
        have hscan := hstop.before.subset (List.mem_reverse.mpr hp)
        obtain ⟨h1, h2, h3⟩ := mem_scan.mp hscan
        obtain ⟨hcap, hroom⟩ := (hstop.mem_iff hscan).mp hp
        exact hall p.1 p.2 ⟨h1, h2, h3, hcap, hroom⟩ hkey
    rw [hrefs, or_comm, ← hreached]
    refine Ledger.share_drop_drop (fun hk => hcounted.count_le_one hsrc hstop.flipped hk) fun n hn => ?_
    obtain ⟨c, -, hcounts⟩ := hcounted
    have := hcounts k
    rw [hn, Ledger.fits_some] at this
    exact this.2

/-- A fork that fails is invisible if and only if no page that it reached was already counted. -/
theorem fork_failure_invisible_iff {hi : ℕ} {s' : VmState} (h0 : Spaces pf roots s0.vm) (hsrc : src ∈ roots)
    (hdst : dst ∈ roots) (hne : src ≠ dst) (hblank : ∀ va, descToPageInfo (leaf pf.toRam s0.vm dst va) = none)
    (hlive : s0.ttbr0 ≠ dst) (hcounted : Counted pf.toRam roots s0)
    (hfail : shareAddrSpace pf.toRam src dst hi s0 = (false, s')) :
    ForkInvisible pf.toRam roots src dst s0 s' ↔
      ∀ va info, Reached pf.toRam src dst hi s0 va info → s0.refs (keyOf info) = none := by
  obtain ⟨hpages, hmapped, hrefs⟩ := failed_fork h0 hsrc hdst hne hblank hlive hcounted hfail
  constructor
  · intro hinv va info hr
    obtain hnone | hnot := (hrefs (keyOf info)).mp (by rw [hinv.refs])
    · exact hnone
    · exact absurd rfl (hnot va info hr)
  · intro hpriv
    refine ⟨hpages src hsrc hne, funext fun k => (hrefs k).mpr ?_, hmapped⟩
    by_cases hk : s0.refs k = none
    · exact Or.inl hk
    · right
      rintro va info hr rfl
      exact hk (hpriv va info hr)

end Rollback

section Mappings

variable {pf : Platform} {roots : Set ℕ} {m m' : Memory}

/-- A new address space maps nothing. -/
lemma mappings_creates {l0 : ℕ} (h : Creates pf roots m m' l0) (k : ℕ) :
    mappings pf.toRam (insert l0 roots) m' k = mappings pf.toRam roots m k := by
  ext ⟨r, va⟩
  simp only [mappings, Set.mem_ofPred_eq, Set.mem_insert_iff]
  constructor
  · rintro ⟨rfl | hr, ha, info, hinfo, hkey⟩
    · rw [userPage, h.blank] at hinfo
      simp at hinfo
    · exact ⟨hr, ha, info, userPage_congr (h.leaves hr) ▸ hinfo, hkey⟩
  · rintro ⟨hr, ha, info, hinfo, hkey⟩
    exact ⟨Or.inr hr, ha, info, (userPage_congr (h.leaves hr)).trans hinfo, hkey⟩

/-- Setting a page that was not mapped adds one mapping of its host page. -/
lemma mappings_sets {r va : ℕ} {info : PageInfo} {new : List (List ℕ × ℕ)}
    (h : Sets pf.toRam roots r va (pageInfoToDesc info) m m' new) (hr : r ∈ roots) (hva : validVAddr va = true)
    (haligned : va % 4096 = 0) (hphys : info.physPage &&& mAddress = info.physPage)
    (hnone : userPage pf.toRam m r va = none) (k : ℕ) :
    mappings pf.toRam roots m' k =
      if keyOf info = k then insert (r, va) (mappings pf.toRam roots m k) else mappings pf.toRam roots m k := by
  have hself : userPage pf.toRam m' r va = some info := by
    rw [userPage, if_pos hva, h.leaf_self, descToPageInfo_pageInfoToDesc hphys]
  have hother : ∀ {r' va'}, r' ∈ roots → va' % 4096 = 0 → ¬ (r' = r ∧ va' = va) →
      userPage pf.toRam m' r' va' = userPage pf.toRam m r' va' := by
    intro r' va' hr' ha' hne
    by_cases hva' : validVAddr va' = true
    · refine userPage_congr (h.leaf_other hr' fun hsame => hne ⟨hsame.1, ?_⟩)
      have := (samePage_iff hva' hva).mp hsame.2
      omega
    · rw [userPage, userPage, if_neg hva', if_neg hva']
  ext ⟨r', va'⟩
  by_cases hsame : r' = r ∧ va' = va
  · obtain ⟨rfl, rfl⟩ := hsame
    by_cases hk : keyOf info = k
    · simp only [if_pos hk, mappings, Set.mem_ofPred_eq, Set.mem_insert_iff, true_or, iff_true]
      exact ⟨hr, haligned, info, hself, hk⟩
    · simp [mappings, hself, hnone, hk]
  · have hsplit : (r', va') ∈ (if keyOf info = k then insert (r, va) (mappings pf.toRam roots m k)
        else mappings pf.toRam roots m k) ↔ (r', va') ∈ mappings pf.toRam roots m k := by
      split_ifs
      · rw [Set.mem_insert_iff, Prod.mk.injEq]
        tauto
      · rfl
    rw [hsplit]
    simp only [mappings, Set.mem_ofPred_eq]
    constructor
    · rintro ⟨hr', ha', info', hinfo', hkey⟩
      exact ⟨hr', ha', info', (hother hr' ha' hsame) ▸ hinfo', hkey⟩
    · rintro ⟨hr', ha', info', hinfo', hkey⟩
      exact ⟨hr', ha', info', (hother hr' ha' hsame).trans hinfo', hkey⟩

end Mappings

section Sample

/-- Three address spaces: a parent, a sibling and a child that a fork is about to fill. Two
pages are set aside for data. -/
def sampleSpaces : Memory :=
  let m := (allocPageMap samplePlatform (allocPageMap samplePlatform (allocPageMap samplePlatform sampleBoot).2).2).2
  { m with pool := m.pool.take 20 }

def sampleRoots : Set ℕ := {0x50006000, 0x50003000, 0x50000000}

/-- A page that the parent holds copy-on-write, and one of its own. -/
def sampleCow : PageInfo := ⟨0x5001D000#64, false, false, false, true⟩
def sampleOwn : PageInfo := ⟨0x5001E000#64, true, false, false, false⟩

/-- The parent maps both pages, in different 2 MiB regions. -/
def sampleParent : Memory :=
  (setPage (setPage sampleSpaces 0x50000000 0x1000000 (some sampleCow)).2 0x50000000 0x1200000 (some sampleOwn)).2

/-- The sibling maps the first page as well. -/
def sampleSibling : Memory := (setPage sampleParent 0x50003000 0x1000000 (some sampleCow)).2

/-- A fork with one free page: enough for the child's first L3 table, not for its second. -/
def tight (m : Memory) (refs : CowRefs) : VmState := ⟨{ m with pool := [0x50010000] }, refs, 0x40300000⟩

/-- The counts when the first page is mapped twice. -/
def twoWays : CowRefs := fun k => if k = 0x5001D000 then some 2 else none

/-- Three creations from nothing. -/
lemma creates_three {pf : Platform} {m₀ m₁ m₂ m₃ : Memory} {r₁ r₂ r₃ : ℕ} (h1 : Creates pf ∅ m₀ m₁ r₁)
    (h2 : Creates pf (insert r₁ ∅) m₁ m₂ r₂) (h3 : Creates pf (insert r₂ (insert r₁ ∅)) m₂ m₃ r₃) (n : ℕ) :
    Spaces pf {r₃, r₂, r₁} { m₃ with pool := m₃.pool.take n } ∧
    (∀ r ∈ ({r₃, r₂, r₁} : Set ℕ), ∀ va, leaf pf.toRam { m₃ with pool := m₃.pool.take n } r va = 0#64) ∧
    (∀ k, mappings pf.toRam {r₃, r₂, r₁} { m₃ with pool := m₃.pool.take n } k = ∅) ∧
    ∀ r js q, TableAt pf.toRam { m₃ with pool := m₃.pool.take n } {r₃, r₂, r₁} r js q → q ∉ m₃.pool := by
  have hroots : insert r₃ (insert r₂ (insert r₁ (∅ : Set ℕ))) = {r₃, r₂, r₁} := by simp
  have hspaces := h3.spaces
  rw [hroots] at hspaces
  refine ⟨hspaces.take (List.take_sublist _ _), ?_, fun k => ?_, fun r js q hq => hspaces.forest.apart hq⟩
  · rintro r (rfl | rfl | rfl) va
    · exact h3.blank va
    · exact (h3.leaves (Set.mem_insert _ _)).trans (h2.blank va)
    · exact (h3.leaves (by simp)).trans ((h2.leaves (by simp)).trans (h1.blank va))
  · have hk := mappings_creates h3 k
    rw [mappings_creates h2, mappings_creates h1, hroots] at hk
    refine hk.trans (Set.eq_empty_of_forall_notMem ?_)
    rintro x ⟨hx, -⟩
    exact hx

lemma sampleSpaces_spaces : Spaces samplePlatform sampleRoots sampleSpaces ∧
    (∀ r ∈ sampleRoots, ∀ va, leaf samplePlatform.toRam sampleSpaces r va = 0#64) ∧
    (∀ k, mappings samplePlatform.toRam sampleRoots sampleSpaces k = ∅) ∧
    ∀ k ∈ [0x5001D000, 0x5001E000], k ∉ sampleSpaces.pool ∧
      ∀ r js q, TableAt samplePlatform.toRam sampleSpaces sampleRoots r js q → q ≠ k := by
  have h1 := @Spaces.allocPageMap _ _ _ 0x50000000 sampleBoot_spaces (by decide +kernel)
  have h2 := @Spaces.allocPageMap _ _ _ 0x50003000 h1.spaces (by decide +kernel)
  have h3 := @Spaces.allocPageMap _ _ _ 0x50006000 h2.spaces (by decide +kernel)
  obtain ⟨hspaces, hblank, hmaps, htab⟩ := creates_three h1 h2 h3 20
  refine ⟨hspaces, hblank, hmaps, fun k hk => ⟨?_, fun r js q hq heq => htab r js q hq ?_⟩⟩
  · have hnot : ∀ k ∈ [0x5001D000, 0x5001E000], k ∉ sampleSpaces.pool := by decide +kernel
    exact hnot k hk
  · have hin : ∀ k ∈ [0x5001D000, 0x5001E000], k ∈ (allocPageMap samplePlatform
        (allocPageMap samplePlatform (allocPageMap samplePlatform sampleBoot).2).2).2.pool := by decide +kernel
    exact heq ▸ hin k hk

/-- A sample state and what is known of it. -/
structure SampleState (m : Memory) (maps : ℕ → Set (ℕ × ℕ)) : Prop where
  spaces : Spaces samplePlatform sampleRoots m
  child : ∀ va, leaf samplePlatform.toRam m 0x50006000 va = 0#64
  maps : ∀ k, mappings samplePlatform.toRam sampleRoots m k = maps k
  apart : ∀ k ∈ [0x5001D000, 0x5001E000], k ∉ m.pool ∧
    ∀ r js q, TableAt samplePlatform.toRam m sampleRoots r js q → q ≠ k

/-- Mapping one of the data pages. -/
lemma SampleState.setPage {m : Memory} {maps : ℕ → Set (ℕ × ℕ)} (h : SampleState m maps) {r va : ℕ} {info : PageInfo}
    (hr : r ∈ sampleRoots) (hchild : r ≠ 0x50006000) (hva : validVAddr va = true) (haligned : va % 4096 = 0)
    (hk : ¬ samplePlatform.kernelWindow va) (hroom : 3 ≤ m.pool.length)
    (hinfo : keyOf info ∈ [0x5001D000, 0x5001E000]) (hphys : info.physPage &&& mAddress = info.physPage)
    (hnone : userPage samplePlatform.toRam m r va = none) :
    SampleState (VirtualMemory.setPage m r va (some info)).2
      fun k => if keyOf info = k then insert (r, va) (maps k) else maps k := by
  obtain ⟨hfree, htab⟩ := h.apart _ hinfo
  obtain ⟨⟨new, hs, -⟩, hspaces⟩ := h.spaces.setPage hr hva hk hroom hphys hfree htab
  refine ⟨hspaces, fun va' => ?_, fun k => ?_, fun k hk' => ?_⟩
  · exact (hs.leaf_other (by simp [sampleRoots]) fun hsame => hchild hsame.1.symm).trans (h.child va')
  · rw [mappings_sets hs hr hva haligned hphys hnone, h.maps]
  · exact hs.data (h.apart k hk').1 (h.apart k hk').2

lemma sampleSpaces_state : SampleState sampleSpaces fun _ => ∅ := by
  obtain ⟨h1, h2, h3, h4⟩ := sampleSpaces_spaces
  exact ⟨h1, h2 _ (by simp [sampleRoots]), h3, h4⟩

lemma sampleParent_state : SampleState sampleParent fun k => if keyOf sampleOwn = k then insert (0x50000000, 0x1200000)
    (if keyOf sampleCow = k then insert (0x50000000, 0x1000000) ∅ else ∅)
    else if keyOf sampleCow = k then insert (0x50000000, 0x1000000) ∅ else ∅ := by
  have h1 := @SampleState.setPage _ _ sampleSpaces_state 0x50000000 0x1000000 sampleCow (by simp [sampleRoots])
    (by decide) (by decide) (by decide) (by decide +kernel) (by decide +kernel) (by decide) (by decide)
    (by decide +kernel)
  exact @SampleState.setPage _ _ h1 0x50000000 0x1200000 sampleOwn (by simp [sampleRoots]) (by decide) (by decide)
    (by decide) (by decide +kernel) (by decide +kernel) (by decide) (by decide) (by decide +kernel)

lemma sampleSibling_state : SampleState sampleSibling fun k =>
    if keyOf sampleCow = k then insert (0x50003000, 0x1000000) (if keyOf sampleOwn = k then insert (0x50000000, 0x1200000)
      (if keyOf sampleCow = k then insert (0x50000000, 0x1000000) ∅ else ∅)
      else if keyOf sampleCow = k then insert (0x50000000, 0x1000000) ∅ else ∅)
    else if keyOf sampleOwn = k then insert (0x50000000, 0x1200000)
      (if keyOf sampleCow = k then insert (0x50000000, 0x1000000) ∅ else ∅)
      else if keyOf sampleCow = k then insert (0x50000000, 0x1000000) ∅ else ∅ :=
  @SampleState.setPage _ _ sampleParent_state 0x50003000 0x1000000 sampleCow (by simp [sampleRoots]) (by decide)
    (by decide) (by decide) (by decide +kernel) (by decide +kernel) (by decide) (by decide) (by decide +kernel)

lemma tight_spaces {m : Memory} {maps : ℕ → Set (ℕ × ℕ)} (h : SampleState m maps) (refs : CowRefs)
    (hpool : 0x50010000 ∈ m.pool) : Spaces samplePlatform sampleRoots (tight m refs).vm :=
  h.spaces.take (List.singleton_sublist.mpr hpool)

/-- The counts do not look at the pool. -/
lemma tight_counted {m : Memory} {maps : ℕ → Set (ℕ × ℕ)} (h : SampleState m maps) {refs : CowRefs} (c : ℕ → ℕ)
    (hc : ∀ k, (maps k).encard = c k) (hcounts : Ledger.Counts refs c) :
    Counted samplePlatform.toRam sampleRoots (tight m refs) :=
  ⟨c, fun k => (congrArg Set.encard (h.maps k)).trans (hc k), hcounts⟩

lemma tight_blank {m : Memory} {maps : ℕ → Set (ℕ × ℕ)} (h : SampleState m maps) (refs : CowRefs) (va : ℕ) :
    descToPageInfo (leaf samplePlatform.toRam (tight m refs).vm 0x50006000 va) = none :=
  (congrArg descToPageInfo (h.child va)).trans descToPageInfo_zero

/-- One page short, the fork fails. -/
lemma tight_fails {m : Memory} {maps : ℕ → Set (ℕ × ℕ)} (h : SampleState m maps) (refs : CowRefs)
    (hpool : 0x50010000 ∈ m.pool)
    (hpages : ∀ va ∈ [0x1000000, 0x1200000], (userPage samplePlatform.toRam m 0x50000000 va).isSome)
    (hneeded : 1 < needed samplePlatform.toRam (tight m refs).vm 0x50006000 [0x1000000, 0x1200000]) :
    ∃ s', shareAddrSpace samplePlatform.toRam 0x50000000 0x50006000 0x3FFFE000 (tight m refs) = (false, s') := by
  obtain ⟨s', new, -, hshared, hbill⟩ | ⟨s', fl, new, hrun, -⟩ :=
    @shareAddrSpace_cases samplePlatform sampleRoots 0x50000000 0x50006000 (tight m refs) 0x3FFFE000
      (tight_spaces h refs hpool) (by simp [sampleRoots]) (by simp [sampleRoots]) (by decide)
  · have hsub : [0x1000000, 0x1200000] ⊆
        (scan samplePlatform.toRam (tight m refs).vm 0x50000000 0x3FFFE000).map Prod.fst := by
      intro va hva
      have hbounds : ∀ va ∈ [0x1000000, 0x1200000], va % 4096 = 0 ∧ va < 0x3FFFE000 := by decide
      obtain ⟨info, hinfo⟩ := Option.isSome_iff_exists.mp (hpages va hva)
      exact List.mem_map.mpr ⟨(va, info), mem_scan.mpr ⟨(hbounds va hva).1, (hbounds va hva).2, hinfo⟩, rfl⟩
    have hlen : (tight m refs).vm.pool.length = 1 := rfl
    have hroom := hshared.room hbill
    have := hneeded.trans_le ((needed_mono hsub).trans hroom)
    omega
  · exact ⟨_, hrun⟩

/-- The first page is the first that the window holds, so the fork reaches it. -/
lemma tight_reached {m : Memory} {refs : CowRefs}
    (hpage : userPage samplePlatform.toRam m 0x50000000 0x1000000 = some sampleCow)
    (hneeded : needed samplePlatform.toRam (tight m refs).vm 0x50006000 [0x1000000] ≤ 1) :
    Reached samplePlatform.toRam 0x50000000 0x50006000 0x3FFFE000 (tight m refs) 0x1000000 sampleCow := by
  have hpage' : userPage samplePlatform.toRam (tight m refs).vm 0x50000000 0x1000000 = some sampleCow := hpage
  have hscan : scan samplePlatform.toRam (tight m refs).vm 0x50000000 (0x1000000 + 1) = [(0x1000000, sampleCow)] := by
    have hnil : scan samplePlatform.toRam (tight m refs).vm 0x50000000 0x1000000 = [] := by
      apply scan_eq_nil
      intro va hva
      rw [userPage, if_neg]
      rw [validVAddr_iff]
      omega
    have hstep := @scan_step samplePlatform.toRam (tight m refs).vm 0x50000000 0x1000000 (0x1000000 + 1)
      (by decide) (by decide)
    rw [show min (0x1000000 + 4096) (0x1000000 + 1) = 0x1000000 + 1 by decide, hpage', hnil] at hstep
    exact hstep
  refine ⟨by decide, by decide, hpage', ?_, ?_⟩
  · rw [hscan]
    decide
  · rw [hscan]
    exact hneeded

/-- No page of the parent is counted, so the failed fork leaves no trace. -/
theorem fork_failure_invisible_private : ∃ s', shareAddrSpace samplePlatform.toRam 0x50000000 0x50006000 0x3FFFE000
      (tight sampleParent fun _ => none) = (false, s') ∧
    ForkInvisible samplePlatform.toRam sampleRoots 0x50000000 0x50006000 (tight sampleParent fun _ => none) s' := by
  have hpool : 0x50010000 ∈ sampleParent.pool := by decide +kernel
  have hcounted : Counted samplePlatform.toRam sampleRoots (tight sampleParent fun _ => none) := by
    refine tight_counted sampleParent_state (fun k => if k = 0x5001D000 ∨ k = 0x5001E000 then 1 else 0) ?_ ?_
    · intro k
      by_cases h1 : k = 0x5001D000
      · subst h1
        simp [keyOf, sampleOwn, sampleCow]
      · by_cases h2 : k = 0x5001E000
        · subst h2
          simp [keyOf, sampleOwn, sampleCow]
        · simp [keyOf, sampleOwn, sampleCow, h1, h2, Ne.symm h1, Ne.symm h2]
    · intro k
      rw [Ledger.fits_none]
      dsimp only
      split_ifs <;> omega
  obtain ⟨s', hfail⟩ := tight_fails sampleParent_state (fun _ => none) hpool (by decide +kernel) (by decide +kernel)
  refine ⟨s', hfail, ?_⟩
  apply (fork_failure_invisible_iff (tight_spaces sampleParent_state _ hpool) (by simp [sampleRoots])
    (by simp [sampleRoots]) (by decide) (tight_blank sampleParent_state _) (by decide) hcounted hfail).mpr
  intro va info _
  rfl

/-- The parent and its sibling share a page, so its count is 2. The failed fork deletes it. -/
theorem fork_failure_loses_count : ∃ s', Counted samplePlatform.toRam sampleRoots (tight sampleSibling twoWays) ∧
    shareAddrSpace samplePlatform.toRam 0x50000000 0x50006000 0x3FFFE000 (tight sampleSibling twoWays) = (false, s') ∧
    ¬ ForkInvisible samplePlatform.toRam sampleRoots 0x50000000 0x50006000 (tight sampleSibling twoWays) s' := by
  have hpool : 0x50010000 ∈ sampleSibling.pool := by decide +kernel
  have hcounted : Counted samplePlatform.toRam sampleRoots (tight sampleSibling twoWays) := by
    refine tight_counted sampleSibling_state
      (fun k => if k = 0x5001D000 then 2 else if k = 0x5001E000 then 1 else 0) ?_ ?_
    · intro k
      by_cases h1 : k = 0x5001D000
      · subst h1
        have hpair := @Set.encard_pair _ (0x50003000, 0x1000000) (0x50000000, 0x1000000) (by simp)
        simpa [keyOf, sampleOwn, sampleCow] using hpair
      · by_cases h2 : k = 0x5001E000
        · subst h2
          simp [keyOf, sampleOwn, sampleCow]
        · simp [keyOf, sampleOwn, sampleCow, h1, h2, Ne.symm h1, Ne.symm h2]
    · intro k
      by_cases h1 : k = 0x5001D000
      · simp [twoWays, h1, Ledger.fits_some]
      · simp only [twoWays, if_neg h1, Ledger.fits_none]
        split_ifs <;> omega
  obtain ⟨s', hfail⟩ := tight_fails sampleSibling_state twoWays hpool (by decide +kernel) (by decide +kernel)
  refine ⟨s', hcounted, hfail, fun hinv => ?_⟩
  obtain ⟨-, -, hrefs⟩ := failed_fork (tight_spaces sampleSibling_state _ hpool) (by simp [sampleRoots])
    (by simp [sampleRoots]) (by decide) (tight_blank sampleSibling_state _) (by decide) hcounted hfail
  obtain hnone | hnot := (hrefs 0x5001D000).mp (by rw [hinv.refs])
  · cases hnone
  · exact hnot 0x1000000 sampleCow (tight_reached (by decide +kernel) (by decide +kernel)) rfl

end Sample

end HouseKernel.Userspace
