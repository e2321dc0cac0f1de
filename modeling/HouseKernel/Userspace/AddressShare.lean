import HouseKernel.Userspace.CowRefs
import HouseKernel.VirtualMemory.AddressSpace

/-! `shareAddrSpace`: fork shares the parent's pages with the child, page by page, and unwinds
when a child table cannot be allocated or the page cap is hit. The loop is related to the list
of pages that the parent maps below `hi`. -/
namespace HouseKernel.Userspace

open HouseKernel.Lib HouseKernel.VirtualMemory

/-- The part of the supervisor that fork and teardown touch. -/
structure VmState where
  vm : Memory
  refs : CowRefs
  /-- The root on which the hardware runs. -/
  ttbr0 : ℕ

def keyOf (info : PageInfo) : ℕ := info.physPage.toNat

/-- Drop one mapping of a host page, and free the page with its last mapping. -/
def VmState.releaseBacking (raw : ℕ) (s : VmState) : VmState :=
  let r := dropShare s.refs raw
  if r.1 then { s with refs := r.2, vm := freePage raw s.vm } else { s with refs := r.2 }

/-- A root on which a session is live is not freed. -/
def freePDir (ram : Ram) (pdir : ℕ) (s : VmState) : VmState :=
  if s.ttbr0 = pdir then s
  else freeUserTables ram s.vm.mem (fun t s => { s with vm := freePage t s.vm }) VmState.releaseBacking pdir s

/-- Restore one flipped page of the parent. -/
def restorePage (src : ℕ) (s : VmState) (p : ℕ × PageInfo) : VmState :=
  match getPage s.vm src p.1 with
  | none => s
  | some cur => { s with vm := (setPage s.vm src p.1 (some p.2)).2, refs := unshareBump s.refs (keyOf cur) }

def rollback (ram : Ram) (src dst : ℕ) (s : VmState) (flipped : List (ℕ × PageInfo)) : VmState :=
  flipped.foldl (restorePage src) (freePDir ram dst s)

/-- The shape in which both sides hold a shared page. -/
def sharedInfo (info : PageInfo) : PageInfo := { info with writable := false, cow := info.writable }

def nextL1 (va : ℕ) : ℕ := va - va % 2^30 + 2^30
def nextL2 (va : ℕ) : ℕ := va - va % 2^21 + 2^21

/-- The loop over [va, hi); `false` after a rollback. -/
def shareGo (ram : Ram) (src dst hi l1 : ℕ) (s : VmState) (va n : ℕ) (flipped : List (ℕ × PageInfo)) :
    Bool × VmState :=
  if hi ≤ va then (true, s)
  else if n > 8192 then (false, rollback ram src dst s flipped)
  else match userTable ram (s.vm.peek l1 (l1Index va)) with
    | none => shareGo ram src dst hi l1 s (nextL1 va) n flipped
    | some l2 => match userTable ram (s.vm.peek l2 (l2Index va)) with
      | none => shareGo ram src dst hi l1 s (nextL2 va) n flipped
      | some _ => match getPage s.vm src va with
        | none => shareGo ram src dst hi l1 s (va + 4096) n flipped
        | some info => match setPage s.vm dst va (some (sharedInfo info)) with
          | (false, vm) => (false, rollback ram src dst { s with vm := vm } flipped)
          | (true, vm) => match setPage vm src va (some (sharedInfo info)) with
            | (false, vm) => (false, rollback ram src dst { s with vm := (setPage vm dst va none).2 } flipped)
            | (true, vm) => shareGo ram src dst hi l1 { s with vm := vm, refs := shareBump s.refs (keyOf info) }
                (va + 4096) (n + 1) ((va, info) :: flipped)
  termination_by hi - va
  decreasing_by all_goals first | omega | (unfold nextL1; omega) | (unfold nextL2; omega)

def shareAddrSpace (ram : Ram) (src dst hi : ℕ) (s : VmState) : Bool × VmState :=
  match userTable ram (s.vm.peek src 0) with
  | none => (true, s)
  | some l1 => shareGo ram src dst hi l1 s minVAddr 0 []

/-- The pages that a root maps below `hi`, in ascending order. -/
def scan (ram : Ram) (m : Memory) (src hi : ℕ) : List (ℕ × PageInfo) :=
  (List.range ((hi + 4095) / 4096)).filterMap fun k => (userPage ram m src (4096*k)).map fun info => (4096*k, info)

section Scan

variable {ram : Ram} {m : Memory} {src : ℕ}

lemma mem_scan {hi : ℕ} {p : ℕ × PageInfo} : p ∈ scan ram m src hi ↔
    p.1 % 4096 = 0 ∧ p.1 < hi ∧ userPage ram m src p.1 = some p.2 := by
  simp only [scan, List.mem_filterMap, List.mem_range, Option.map_eq_some_iff]
  constructor
  · rintro ⟨k, hk, info, hinfo, rfl⟩
    exact ⟨by simp, by simp only; omega, hinfo⟩
  · rintro ⟨h1, h2, h3⟩
    refine ⟨p.1/4096, by omega, p.2, ?_, ?_⟩
    · rw [show 4096*(p.1/4096) = p.1 by omega]
      exact h3
    · rw [show 4096*(p.1/4096) = p.1 by omega]

/-- Nothing is mapped between two bounds. -/
lemma scan_skip {va hi : ℕ} (hva : va % 4096 = 0) (hle : va ≤ hi)
    (h : ∀ va', va ≤ va' → va' < hi → va' % 4096 = 0 → userPage ram m src va' = none) :
    scan ram m src hi = scan ram m src va := by
  obtain ⟨d, hd⟩ : ∃ d, (hi + 4095)/4096 = (va + 4095)/4096 + d := ⟨_, (Nat.add_sub_of_le (by omega)).symm⟩
  rw [scan, scan, hd, List.range_add, List.filterMap_append, List.append_right_eq_self]
  simp only [List.filterMap_eq_nil_iff, List.mem_map, List.mem_range]
  rintro _ ⟨j, hj, rfl⟩
  rw [h _ (by omega) (by omega) (by omega)]
  rfl

lemma scan_step {va hi : ℕ} (hva : va % 4096 = 0) (hlt : va < hi) :
    scan ram m src (min (va + 4096) hi) =
      scan ram m src va ++ ((userPage ram m src va).map fun info => (va, info)).toList := by
  have h1 : (min (va + 4096) hi + 4095)/4096 = va/4096 + 1 := by omega
  have h2 : (va + 4095)/4096 = va/4096 := by omega
  rw [scan, scan, h1, h2, List.range_succ, List.filterMap_append]
  congr 1
  rw [List.filterMap_cons, show 4096*(va/4096) = va by omega]
  cases userPage ram m src va <;> rfl

lemma scan_pairwise (ram : Ram) (m : Memory) (src hi : ℕ) : (scan ram m src hi).Pairwise fun p q => p.1 < q.1 := by
  refine List.Pairwise.filterMap _ ?_ (List.pairwise_lt_range)
  intro a b hab p hp q hq
  simp only [Option.map_eq_some_iff] at hp hq
  obtain ⟨_, -, rfl⟩ := hp
  obtain ⟨_, -, rfl⟩ := hq
  simp only
  omega

/-- The pages of a root depend on its leaves only. -/
lemma scan_congr {m' : Memory} {hi : ℕ} (h : ∀ va, userPage ram m' src va = userPage ram m src va) :
    scan ram m' src hi = scan ram m src hi := by
  simp only [scan, h]

end Scan

/-- The state `s` after the pages `fl` were shared: both sides hold them in the shared shape, every
other leaf is as in `s0`, and each share is counted. -/
structure Shared (pf : Platform) (roots : Set ℕ) (src dst : ℕ) (s0 s : VmState) (fl : List (ℕ × PageInfo))
    (new : List (List ℕ × ℕ)) : Prop where
  spaces : Spaces pf roots s.vm
  ext : Extends pf.toRam roots dst s0.vm s.vm new
  flipped : ∀ p ∈ fl, userPage pf.toRam s0.vm src p.1 = some p.2 ∧
    leaf pf.toRam s.vm src p.1 = pageInfoToDesc (sharedInfo p.2) ∧
    leaf pf.toRam s.vm dst p.1 = pageInfoToDesc (sharedInfo p.2)
  rest : ∀ {r va}, r ∈ roots → (∀ p ∈ fl, ¬ SamePage va p.1) → leaf pf.toRam s.vm r va = leaf pf.toRam s0.vm r va
  other : ∀ {r va}, r ∈ roots → r ≠ src → r ≠ dst → leaf pf.toRam s.vm r va = leaf pf.toRam s0.vm r va
  refs : s.refs = fl.foldr (fun p refs => shareBump refs (keyOf p.2)) s0.refs
  ttbr0 : s.ttbr0 = s0.ttbr0

section Shared

variable {pf : Platform} {roots : Set ℕ} {src dst : ℕ} {s0 s : VmState} {fl : List (ℕ × PageInfo)}
  {new new' : List (List ℕ × ℕ)} {va : ℕ} {info : PageInfo}

lemma Shared.refl (h : Spaces pf roots s0.vm) : Shared pf roots src dst s0 s0 [] [] :=
  ⟨h, (Grows.refl h.forest).toExtends, by simp, fun _ _ => rfl, fun _ _ _ => rfl, rfl, rfl⟩

/-- Tables that a failed `setPage` left in the child. -/
lemma Shared.grow {vm : Memory} (h : Shared pf roots src dst s0 s fl new) (hsrc : src ∈ roots) (hdst : dst ∈ roots)
    (hg : Grows pf.toRam roots dst s.vm vm new') :
    Shared pf roots src dst s0 { s with vm := vm } fl (new ++ new') where
  spaces := h.spaces.grows hg
  ext := h.ext.trans hg.toExtends
  flipped p hp := by
    obtain ⟨h1, h2, h3⟩ := h.flipped p hp
    exact ⟨h1, (hg.leaves hsrc).trans h2, (hg.leaves hdst).trans h3⟩
  rest hr hne := (hg.leaves hr).trans (h.rest hr hne)
  other hr hs hd := (hg.leaves hr).trans (h.other hr hs hd)
  refs := h.refs
  ttbr0 := h.ttbr0

/-- A page that was written to the child is then flipped in the parent, which cannot fail. -/
lemma Shared.push {vm : Memory} (h : Shared pf roots src dst s0 s fl new) (hsrc : src ∈ roots) (hdst : dst ∈ roots)
    (hne : src ≠ dst) (hpage : userPage pf.toRam s.vm src va = some info) (hfar : ∀ p ∈ fl, ¬ SamePage va p.1)
    (hd : Sets pf.toRam roots dst va (pageInfoToDesc (sharedInfo info)) s.vm vm new') :
    ∃ vm', setPage vm src va (some (sharedInfo info)) = (true, vm') ∧
      Shared pf roots src dst s0 { s with vm := vm', refs := shareBump s.refs (keyOf info) } ((va, info) :: fl)
        (new ++ new') := by
  obtain ⟨l3, hwalk, hdesc⟩ := userPage_table hpage
  have hvalid := userPage_valid hpage
  have htab : TableAt pf.toRam vm roots src (path va) l3 :=
    hd.tables.mpr (Or.inl ⟨hsrc, index_lt va, by simp [path], hwalk⟩)
  have hs := sets_poke hd.forest htab (pageInfoToDesc (sharedInfo info))
  have hround : descToPageInfo (pageInfoToDesc (sharedInfo info)) = some (sharedInfo info) :=
    descToPageInfo_pageInfoToDesc (descToPageInfo_physPage hdesc).2.2.2
  obtain ⟨hfree, htabs⟩ := h.spaces.data hsrc hpage
  have huser := h.spaces.user hsrc hpage
  have hnd : ∀ {va'}, ¬ (dst = src ∧ SamePage va' va) := fun hsame => hne hsame.1.symm
  have hns : ∀ {va'}, ¬ (src = dst ∧ SamePage va' va) := fun hsame => hne hsame.1
  refine ⟨_, setPage_of_walk hvalid htab.reach _, ?_, ?_, ?_, ?_, ?_, ?_, h.ttbr0⟩
  · refine (h.spaces.sets hd ?_).sets hs ?_
    · intro info' hinfo'
      obtain rfl := Option.some.inj (hinfo'.symm.trans hround)
      exact ⟨huser, hfree, htabs⟩
    · intro info' hinfo'
      obtain rfl := Option.some.inj (hinfo'.symm.trans hround)
      exact ⟨huser, hd.data hfree htabs⟩
  · simpa using h.ext.trans (hd.toExtends.trans hs.toExtends.of_nil)
  · intro p hp
    obtain rfl | hp := List.mem_cons.mp hp
    · refine ⟨?_, hs.leaf_self, (hs.leaf_other hdst hnd).trans hd.leaf_self⟩
      rw [← userPage_congr (h.rest hsrc hfar)]
      exact hpage
    · obtain ⟨h1, h2, h3⟩ := h.flipped p hp
      have hapart : ¬ SamePage p.1 va := fun hsame => hfar p hp hsame.symm
      refine ⟨h1, ?_, ?_⟩
      · rw [hs.leaf_other hsrc fun hsame => hapart hsame.2, hd.leaf_other hsrc hns, h2]
      · rw [hs.leaf_other hdst hnd, hd.leaf_other hdst fun hsame => hapart hsame.2, h3]
  · intro r va' hr hout
    have hva' : ¬ SamePage va' va := hout (va, info) List.mem_cons_self
    rw [hs.leaf_other hr fun hsame => hva' hsame.2, hd.leaf_other hr fun hsame => hva' hsame.2]
    exact h.rest hr fun p hp => hout p (List.mem_cons_of_mem _ hp)
  · intro r va' hr hrs hrd
    rw [hs.leaf_other hr fun hsame => hrs hsame.1, hd.leaf_other hr fun hsame => hrd hsame.1]
    exact h.other hr hrs hrd
  · rw [List.foldr_cons, ← h.refs]

/-- What the sharing took from the pool was there. -/
lemma Shared.room {n : ℕ} (h : Shared pf roots src dst s0 s fl new) (hn : new.length = n) : n ≤ s0.vm.pool.length := by
  rw [h.ext.pool, List.length_append, List.length_map]
  omega

/-- The number of tables that a root lacks for the pages `vas`. -/
def needed (ram : Ram) (m : Memory) (dst : ℕ) (vas : List ℕ) : ℕ :=
  ((vas.flatMap fun va => extensions [] (path va)).filter fun ks =>
    (walk (userTable ram) m.mem dst ks).isNone).dedup.length

/-- The paths `ps` are those of the tables that `dst` lacks for the pages `vas`, once each. -/
def Charged (ram : Ram) (m : Memory) (dst : ℕ) (vas : List ℕ) (ps : List (List ℕ)) : Prop :=
  ps.Nodup ∧ ∀ ks, ks ∈ ps ↔ (∃ va ∈ vas, ks ∈ extensions [] (path va)) ∧ walk (userTable ram) m.mem dst ks = none

lemma Charged.length_eq {ram : Ram} {m : Memory} {vas : List ℕ} {ps : List (List ℕ)}
    (h : Charged ram m dst vas ps) : ps.length = needed ram m dst vas := by
  have hperm : ps.Perm ((vas.flatMap fun va => extensions [] (path va)).filter fun ks =>
      (walk (userTable ram) m.mem dst ks).isNone).dedup := by
    rw [List.perm_ext_iff_of_nodup h.1 (List.nodup_dedup _)]
    intro ks
    rw [h.2]
    simp
  exact hperm.length_eq

/-- More pages need more tables. -/
lemma needed_mono {ram : Ram} {m : Memory} {vas vas' : List ℕ} (h : vas ⊆ vas') :
    needed ram m dst vas ≤ needed ram m dst vas' := by
  apply List.Subperm.length_le
  apply List.subperm_of_subset (List.nodup_dedup _)
  intro ks hks
  simp only [List.mem_dedup, List.mem_filter, List.mem_flatMap] at hks ⊢
  obtain ⟨⟨va, hva, hmem⟩, hnone⟩ := hks
  exact ⟨⟨va, h hva, hmem⟩, hnone⟩

lemma needed_reverse (ram : Ram) (m : Memory) (dst : ℕ) (vas : List ℕ) :
    needed ram m dst vas.reverse = needed ram m dst vas :=
  le_antisymm (needed_mono (List.reverse_subset.mpr (List.Subset.refl _)))
    (needed_mono (List.subset_reverse.mpr (List.Subset.refl _)))

/-- Three tables at most for each page. -/
lemma needed_le (ram : Ram) (m : Memory) (dst : ℕ) (vas : List ℕ) : needed ram m dst vas ≤ 3 * vas.length := by
  have hlen : (vas.flatMap fun va => extensions [] (path va)).length = 3 * vas.length := by
    rw [List.length_flatMap]
    simp [path, extensions, mul_comm]
  rw [← hlen]
  exact (List.dedup_sublist _).length_le.trans (List.length_filter_le _ _)

lemma nodup_extensions (js is : List ℕ) : (extensions js is).Nodup := by
  induction is generalizing js with
  | nil => simp [extensions]
  | cons i is ih =>
    refine List.nodup_cons.mpr ⟨fun h => ?_, ih _⟩
    have := (mem_extensions h).2
    omega

/-- The tables that are missing now are exactly those that one more page adds to the bill. -/
lemma Charged.step {m m' : Memory} {vas : List ℕ} (h : Charged pf.toRam m dst vas (new.map Prod.fst))
    (hext : Extends pf.toRam roots dst m m' new) (hdst : dst ∈ roots) (va : ℕ) :
    Charged pf.toRam m dst (va :: vas) (new.map Prod.fst ++ missing pf.toRam m' dst [] (path va)) := by
  have hstand : ∀ {m : Memory} {va ks q}, ks ∈ extensions [] (path va) →
      walk (userTable pf.toRam) m.mem dst ks = some q → TableAt pf.toRam m roots dst ks q := by
    intro m va ks q hks hq
    obtain ⟨hpre, -⟩ := mem_extensions hks
    exact ⟨hdst, fun i hi => index_lt va i (hpre.subset hi), hpre.length_le, hq⟩
  have hkeep : ∀ {va ks}, ks ∈ extensions [] (path va) → walk (userTable pf.toRam) m'.mem dst ks = none →
      walk (userTable pf.toRam) m.mem dst ks = none := by
    intro va ks hks hnone
    cases hq : walk (userTable pf.toRam) m.mem dst ks with
    | none => rfl
    | some q =>
      have := (hext.tables.mpr (Or.inl (hstand hks hq))).reach
      rw [hnone] at this
      cases this
  refine ⟨List.nodup_append.mpr ⟨h.1, (nodup_extensions _ _).filter _, ?_⟩, fun ks => ?_⟩
  · rintro ks hks _ hmiss rfl
    obtain ⟨⟨ks, q⟩, hmem, rfl⟩ := List.mem_map.mp hks
    have hreach := (hext.tables.mpr (Or.inr ⟨rfl, hmem⟩)).reach
    simp [missing, hreach] at hmiss
  · simp only [List.mem_append, h.2, missing, List.mem_filter, Option.isNone_iff_eq_none, List.mem_cons,
      exists_eq_or_imp]
    constructor
    · rintro (⟨hold, hnone⟩ | ⟨hks, hnone⟩)
      · exact ⟨Or.inr hold, hnone⟩
      · exact ⟨Or.inl hks, hkeep hks hnone⟩
    · rintro ⟨hks | hold, hnone⟩
      · cases hq : walk (userTable pf.toRam) m'.mem dst ks with
        | none => exact Or.inr ⟨hks, rfl⟩
        | some q =>
          left
          obtain hold | ⟨-, hmem⟩ := hext.tables.mp (hstand hks hq)
          · rw [hold.reach] at hnone
            cases hnone
          · exact (h.2 ks).mp (List.mem_map.mpr ⟨_, hmem, rfl⟩)
      · exact Or.inl ⟨hold, hnone⟩

/-- The loop gave up after the pages `fl`: at the cap, or at a page for which the pool has too few
pages left. -/
structure Stopped (ram : Ram) (src dst hi : ℕ) (m : Memory) (fl : List (ℕ × PageInfo)) : Prop where
  before : fl.reverse <+: scan ram m src hi
  cap : fl.length ≤ 8193
  room : needed ram m dst (fl.map Prod.fst) ≤ m.pool.length
  reason : fl.length = 8193 ∨ ∃ p, fl.reverse ++ [p] <+: scan ram m src hi ∧
    m.pool.length < needed ram m dst (p.1 :: fl.map Prod.fst)

/-- Where the loop stands at `va`: the pages below it are shared. -/
structure Sharing (pf : Platform) (roots : Set ℕ) (src dst hi : ℕ) (s0 s : VmState) (va : ℕ)
    (fl : List (ℕ × PageInfo)) (new : List (List ℕ × ℕ)) : Prop extends Shared pf roots src dst s0 s fl new where
  aligned : va % 4096 = 0
  done : fl.reverse = scan pf.toRam s0.vm src (min va hi)
  charged : Charged pf.toRam s0.vm dst (fl.map Prod.fst) (new.map Prod.fst)
  cap : fl.length ≤ 8193

lemma scan_prefix {ram : Ram} {m : Memory} {a b : ℕ} (h : a ≤ b) : scan ram m src a <+: scan ram m src b := by
  obtain ⟨d, hd⟩ : ∃ d, (b + 4095)/4096 = (a + 4095)/4096 + d := ⟨_, (Nat.add_sub_of_le (by omega)).symm⟩
  rw [scan, scan, hd, List.range_add, List.filterMap_append]
  exact List.prefix_append _ _

lemma Sharing.mem_fl {hi : ℕ} (h : Sharing pf roots src dst hi s0 s va fl new) {p : ℕ × PageInfo} (hp : p ∈ fl) :
    p.1 % 4096 = 0 ∧ p.1 < va ∧ validVAddr p.1 = true := by
  have hmem : p ∈ scan pf.toRam s0.vm src (min va hi) := h.done ▸ List.mem_reverse.mpr hp
  obtain ⟨h1, h2, h3⟩ := mem_scan.mp hmem
  exact ⟨h1, by omega, userPage_valid h3⟩

/-- Pages at or above `va` are not among the shared ones, so the parent still reads as before. -/
lemma Sharing.ahead {hi : ℕ} (h : Sharing pf roots src dst hi s0 s va fl new) {va' : ℕ}
    (hle : va ≤ va') (hvalid : validVAddr va' = true) : ∀ p ∈ fl, ¬ SamePage va' p.1 := by
  intro p hp hsame
  obtain ⟨h1, h2, h3⟩ := h.mem_fl hp
  have := (samePage_iff hvalid h3).mp hsame
  have := h.aligned
  omega

lemma Sharing.page {hi : ℕ} (h : Sharing pf roots src dst hi s0 s va fl new) (hsrc : src ∈ roots) {va' : ℕ}
    (hle : va ≤ va') : userPage pf.toRam s.vm src va' = userPage pf.toRam s0.vm src va' := by
  by_cases hvalid : validVAddr va' = true
  · exact userPage_congr (h.rest hsrc (h.ahead hle hvalid))
  · rw [userPage, userPage, if_neg hvalid, if_neg hvalid]

/-- The loop may jump over addresses at which the parent maps nothing. -/
lemma Sharing.skip {hi va₂ : ℕ} (h : Sharing pf roots src dst hi s0 s va fl new) (hsrc : src ∈ roots) (hlt : va < hi)
    (hle : va ≤ va₂) (haligned : va₂ % 4096 = 0)
    (hnone : ∀ va', va ≤ va' → va' < va₂ → userPage pf.toRam s.vm src va' = none) :
    Sharing pf roots src dst hi s0 s va₂ fl new := by
  refine ⟨h.toShared, haligned, ?_, h.charged, h.cap⟩
  rw [h.done, show min va hi = va by omega]
  refine (scan_skip h.aligned (by omega) fun va' h1 h2 _ => ?_).symm
  rw [← h.page hsrc h1]
  exact hnone va' h1 (by omega)

/-- An address has a leaf only below its L1 and L2 entries. -/
lemma leaf_of_l1 {ram : Ram} {m : Memory} {l1 : ℕ} (hl1 : walk (userTable ram) m.mem src [0] = some l1)
    (h : userTable ram (m.peek l1 (l1Index va)) = none) (hvalid : validVAddr va = true) : leaf ram m src va = 0#64 := by
  have hl0 : l0Index va = 0 := by
    rw [validVAddr_iff] at hvalid
    simp only [l0Index]
    omega
  have hwalk : walk (userTable ram) m.mem src (path va) = none := by
    rw [show path va = [0] ++ [l1Index va, l2Index va] by simp [path, hl0], walk_append, hl1]
    simp only [Option.bind_some, walk]
    rw [show m.mem (l1 + 8*l1Index va) = m.peek l1 (l1Index va) from rfl, h]
    rfl
  rw [leaf, hwalk]

lemma walk_path {ram : Ram} {m : Memory} {l1 l2 : ℕ} (hl1 : walk (userTable ram) m.mem src [0] = some l1)
    (hl2 : userTable ram (m.peek l1 (l1Index va)) = some l2) (hvalid : validVAddr va = true) :
    walk (userTable ram) m.mem src (path va) = userTable ram (m.peek l2 (l2Index va)) := by
  have hl0 : l0Index va = 0 := by
    rw [validVAddr_iff] at hvalid
    simp only [l0Index]
    omega
  rw [show path va = [0] ++ [l1Index va, l2Index va] by simp [path, hl0], walk_append, hl1]
  simp only [Option.bind_some, walk]
  rw [show m.mem (l1 + 8*l1Index va) = m.peek l1 (l1Index va) from rfl, hl2]
  simp [Memory.peek]

lemma leaf_of_l2 {ram : Ram} {m : Memory} {l1 l2 : ℕ} (hl1 : walk (userTable ram) m.mem src [0] = some l1)
    (hl2 : userTable ram (m.peek l1 (l1Index va)) = some l2) (h : userTable ram (m.peek l2 (l2Index va)) = none)
    (hvalid : validVAddr va = true) : leaf ram m src va = 0#64 := by
  rw [leaf, walk_path hl1 hl2 hvalid, h]

lemma userPage_of_leaf_zero {ram : Ram} {m : Memory} (h : validVAddr va = true → leaf ram m src va = 0#64) :
    userPage ram m src va = none := by
  rw [userPage]
  split_ifs with hvalid
  · rw [h hvalid]
    exact descToPageInfo_zero
  · rfl

/-- At the end the pages of the whole range are shared, and their tables are the ones needed. -/
lemma Sharing.finished {hi : ℕ} (h : Sharing pf roots src dst hi s0 s va fl new) (hend : hi ≤ va) :
    Shared pf roots src dst s0 s (scan pf.toRam s0.vm src hi).reverse new ∧
      new.length = needed pf.toRam s0.vm dst ((scan pf.toRam s0.vm src hi).map Prod.fst) := by
  have hdone := h.done
  rw [show min va hi = hi by omega] at hdone
  rw [← hdone, List.reverse_reverse, List.map_reverse, needed_reverse, ← h.charged.length_eq, List.length_map]
  exact ⟨h.toShared, rfl⟩

/-- Nothing is mapped up to the next L1 entry. -/
lemma Sharing.skip_l1 {hi l1 : ℕ} (h : Sharing pf roots src dst hi s0 s va fl new) (hsrc : src ∈ roots) (hlt : va < hi)
    (hwalk : walk (userTable pf.toRam) s.vm.mem src [0] = some l1)
    (hd1 : userTable pf.toRam (s.vm.peek l1 (l1Index va)) = none) :
    Sharing pf roots src dst hi s0 s (nextL1 va) fl new := by
  refine h.skip hsrc hlt ?_ ?_ fun va' h1 h2 => ?_
  · simp only [nextL1]
    omega
  · simp only [nextL1]
    omega
  · refine userPage_of_leaf_zero (leaf_of_l1 hwalk ?_)
    rw [show l1Index va' = l1Index va by simp only [nextL1, l1Index] at h2 ⊢; omega]
    exact hd1

/-- Nothing is mapped up to the next L2 entry. -/
lemma Sharing.skip_l2 {hi l1 l2 : ℕ} (h : Sharing pf roots src dst hi s0 s va fl new) (hsrc : src ∈ roots) (hlt : va < hi)
    (hwalk : walk (userTable pf.toRam) s.vm.mem src [0] = some l1)
    (hd1 : userTable pf.toRam (s.vm.peek l1 (l1Index va)) = some l2)
    (hd2 : userTable pf.toRam (s.vm.peek l2 (l2Index va)) = none) :
    Sharing pf roots src dst hi s0 s (nextL2 va) fl new := by
  refine h.skip hsrc hlt ?_ ?_ fun va' h1 h2 => ?_
  · simp only [nextL2]
    omega
  · simp only [nextL2]
    omega
  · have hi1 : l1Index va' = l1Index va := by
      simp only [nextL2, l1Index] at h2 ⊢
      omega
    have hi2 : l2Index va' = l2Index va := by
      simp only [nextL2, l2Index] at h2 ⊢
      omega
    exact userPage_of_leaf_zero (leaf_of_l2 hwalk (hi1 ▸ hd1) (hi2 ▸ hd2))

/-- The page at `va` is not mapped. -/
lemma Sharing.skip_page {hi : ℕ} (h : Sharing pf roots src dst hi s0 s va fl new) (hsrc : src ∈ roots) (hlt : va < hi)
    (hpage : userPage pf.toRam s.vm src va = none) : Sharing pf roots src dst hi s0 s (va + 4096) fl new := by
  have haligned := h.aligned
  refine h.skip hsrc hlt (by omega) (by omega) fun va' h1 h2 => ?_
  -- the same page, by the same leaf
  have hsame : SamePage va' va := by
    simp only [SamePage, path, l0Index, l1Index, l2Index, l3Index, List.cons.injEq, and_true]
    omega
  by_cases hvalid : validVAddr va' = true
  · have hva : validVAddr va = true := by
      rw [validVAddr_iff] at hvalid ⊢
      omega
    rw [userPage, if_pos hva] at hpage
    rw [userPage, if_pos hvalid, hsame.leaf_eq, hpage]
  · rw [userPage, if_neg hvalid]

/-- The page at `va` is the next one that the scan finds. -/
lemma Sharing.scan_next {hi : ℕ} {info : PageInfo} (h : Sharing pf roots src dst hi s0 s va fl new) (hsrc : src ∈ roots)
    (hlt : va < hi) (hpage : userPage pf.toRam s.vm src va = some info) :
    scan pf.toRam s0.vm src (min (va + 4096) hi) = fl.reverse ++ [(va, info)] := by
  rw [scan_step h.aligned hlt, h.done, show min va hi = va by omega, ← h.page hsrc le_rfl, hpage]
  rfl

lemma Sharing.stopped {hi : ℕ} (h : Sharing pf roots src dst hi s0 s va fl new)
    (hreason : fl.length = 8193 ∨ ∃ p, fl.reverse ++ [p] <+: scan pf.toRam s0.vm src hi ∧
      s0.vm.pool.length < needed pf.toRam s0.vm dst (p.1 :: fl.map Prod.fst)) : Stopped pf.toRam src dst hi s0.vm fl := by
  refine ⟨h.done ▸ scan_prefix (Nat.min_le_right _ _), h.cap, ?_, hreason⟩
  rw [← h.charged.length_eq, h.ext.pool]
  simp

/-- The page at `va` is shared next, or the pool has too few pages left for its tables. -/
lemma Sharing.share_page {hi : ℕ} {info : PageInfo} (h : Sharing pf roots src dst hi s0 s va fl new) (hsrc : src ∈ roots)
    (hdst : dst ∈ roots) (hne : src ≠ dst) (hlt : va < hi) (hcap : fl.length ≤ 8192)
    (hpage : userPage pf.toRam s.vm src va = some info) :
    (∃ vm vm' new', setPage s.vm dst va (some (sharedInfo info)) = (true, vm) ∧
      setPage vm src va (some (sharedInfo info)) = (true, vm') ∧
      Sharing pf roots src dst hi s0 { s with vm := vm', refs := shareBump s.refs (keyOf info) } (va + 4096)
        ((va, info) :: fl) new') ∨
    (∃ vm new', setPage s.vm dst va (some (sharedInfo info)) = (false, vm) ∧
      Shared pf roots src dst s0 { s with vm := vm } fl new' ∧ Stopped pf.toRam src dst hi s0.vm fl) := by
  have hvalid := userPage_valid hpage
  have hclear := h.spaces.clear hdst (h.spaces.user hsrc hpage)
  have hnext := h.scan_next hsrc hlt hpage
  have haligned := h.aligned
  have hcharged := h.charged.step h.ext hdst va
  obtain ⟨vm, new₁, hset, hsets, hnew₁, -⟩ | ⟨vm, new₁, hset, hgrow, hfull⟩ :=
    setPage_cases h.spaces.forest h.spaces.pool hdst hvalid hclear (sharedInfo info)
  · obtain ⟨vm', hset', hshared⟩ := h.push hsrc hdst hne hpage (h.ahead le_rfl hvalid) hsets
    refine .inl ⟨vm, vm', _, hset, hset', hshared, by omega, ?_, ?_, ?_⟩
    · rw [List.reverse_cons, hnext]
    · simpa [hnew₁] using hcharged
    · simp only [List.length_cons]
      omega
  · have hpool := congrArg List.length h.ext.pool
    have hbill := hcharged.length_eq
    simp only [List.length_append, List.length_map] at hpool hbill
    refine .inr ⟨vm, _, hset, h.grow hsrc hdst hgrow, h.stopped (.inr ⟨(va, info), ?_, ?_⟩)⟩
    · rw [← hnext]
      exact scan_prefix (Nat.min_le_right _ _)
    · rw [← hbill]
      omega

/-- How the loop ends: every page below `hi` is shared, or the pages before some point are and
the rollback starts from there. -/
theorem shareGo_cases {hi l1 : ℕ} (hsrc : src ∈ roots) (hdst : dst ∈ roots) (hne : src ≠ dst)
    (hl1 : TableAt pf.toRam s0.vm roots src [0] l1) (h : Sharing pf roots src dst hi s0 s va fl new) :
    (∃ s' new', shareGo pf.toRam src dst hi l1 s va fl.length fl = (true, s') ∧
      Shared pf roots src dst s0 s' (scan pf.toRam s0.vm src hi).reverse new' ∧
      new'.length = needed pf.toRam s0.vm dst ((scan pf.toRam s0.vm src hi).map Prod.fst)) ∨
    (∃ s' fl' new', shareGo pf.toRam src dst hi l1 s va fl.length fl = (false, rollback pf.toRam src dst s' fl') ∧
      Shared pf roots src dst s0 s' fl' new' ∧ Stopped pf.toRam src dst hi s0.vm fl') := by
  induction hk : hi - va using Nat.strong_induction_on generalizing s va fl new with
  | _ k ih =>
  have hwalk : walk (userTable pf.toRam) s.vm.mem src [0] = some l1 := (h.ext.tables.mpr (Or.inl hl1)).reach
  rw [shareGo]
  by_cases hend : hi ≤ va
  · exact Or.inl ⟨s, new, by rw [if_pos hend], h.finished hend⟩
  rw [if_neg hend]
  by_cases hcap : fl.length > 8192
  · refine Or.inr ⟨s, fl, new, by rw [if_pos hcap], h.toShared, h.stopped (Or.inl ?_)⟩
    have := h.cap
    omega
  rw [if_neg hcap]
  cases hd1 : userTable pf.toRam (s.vm.peek l1 (l1Index va)) with
  | none => exact ih (hi - nextL1 va) (by simp only [nextL1]; omega) (h.skip_l1 hsrc (by omega) hwalk hd1) rfl
  | some l2 =>
    dsimp only
    cases hd2 : userTable pf.toRam (s.vm.peek l2 (l2Index va)) with
    | none => exact ih (hi - nextL2 va) (by simp only [nextL2]; omega) (h.skip_l2 hsrc (by omega) hwalk hd1 hd2) rfl
    | some l3 =>
      have hget : getPage s.vm src va = userPage pf.toRam s.vm src va := by
        by_cases hvalid : validVAddr va = true
        · exact getPage_of_walk ((walk_path hwalk hd1 hvalid).trans hd2)
        · rw [getPage, userPage, if_neg hvalid, if_neg hvalid]
      simp only [hget]
      cases hpage : userPage pf.toRam s.vm src va with
      | none => exact ih (hi - (va + 4096)) (by omega) (h.skip_page hsrc (by omega) hpage) rfl
      | some info =>
        obtain ⟨vm, vm', new', hset, hset', hnext⟩ | ⟨vm, new', hset, hshared, hstop⟩ :=
          h.share_page hsrc hdst hne (by omega) (by omega) hpage
        · simp only [hset, hset']
          exact ih (hi - (va + 4096)) (by omega) hnext rfl
        · simp only [hset]
          exact Or.inr ⟨_, fl, new', rfl, hshared, hstop⟩

lemma scan_eq_nil {ram : Ram} {m : Memory} {hi : ℕ} (h : ∀ va < hi, userPage ram m src va = none) :
    scan ram m src hi = [] := by
  rw [@scan_skip ram m src 0 hi (by simp) (by omega) fun va' _ h2 _ => h va' h2]
  rfl

theorem shareAddrSpace_cases (hi : ℕ) (h0 : Spaces pf roots s0.vm) (hsrc : src ∈ roots) (hdst : dst ∈ roots)
    (hne : src ≠ dst) :
    (∃ s' new', shareAddrSpace pf.toRam src dst hi s0 = (true, s') ∧
      Shared pf roots src dst s0 s' (scan pf.toRam s0.vm src hi).reverse new' ∧
      new'.length = needed pf.toRam s0.vm dst ((scan pf.toRam s0.vm src hi).map Prod.fst)) ∨
    (∃ s' fl' new', shareAddrSpace pf.toRam src dst hi s0 = (false, rollback pf.toRam src dst s' fl') ∧
      Shared pf roots src dst s0 s' fl' new' ∧ Stopped pf.toRam src dst hi s0.vm fl') := by
  unfold shareAddrSpace
  cases hl1 : userTable pf.toRam (s0.vm.peek src 0) with
  | none =>
    refine Or.inl ⟨s0, [], rfl, ?_⟩
    have hnone : ∀ va < hi, userPage pf.toRam s0.vm src va = none := by
      intro va _
      by_contra hsome
      obtain ⟨info, hinfo⟩ := Option.ne_none_iff_exists'.mp hsome
      obtain ⟨l3, hwalk, -⟩ := userPage_table hinfo
      have hvalid := validVAddr_iff.mp (userPage_valid hinfo)
      have hl0 : l0Index va = 0 := by
        simp only [l0Index]
        omega
      have hd0 : userTable pf.toRam (s0.vm.mem (src + 8*0)) = none := hl1
      simp only [path, walk, hl0, hd0] at hwalk
      cases hwalk
    rw [scan_eq_nil hnone]
    exact ⟨Shared.refl h0, rfl⟩
  | some l1 =>
    have hroot : TableAt pf.toRam s0.vm roots src [] src := stands_nil.mpr ⟨hsrc, rfl⟩
    refine shareGo_cases hsrc hdst hne (hroot.child (by simp) (by norm_num) hl1)
      ⟨Shared.refl h0, by decide, ?_, ⟨by simp, by simp⟩, by simp⟩
    rw [scan_eq_nil fun va hva => ?_, List.reverse_nil]
    rw [userPage, if_neg]
    rw [validVAddr_iff]
    simp only [minVAddr] at hva
    omega

/-- With few enough pages and a free page for each table that the child lacks, the sharing goes
through. -/
theorem shareAddrSpace_succeeds (hi : ℕ) (h0 : Spaces pf roots s0.vm) (hsrc : src ∈ roots) (hdst : dst ∈ roots)
    (hne : src ≠ dst) (hcap : (scan pf.toRam s0.vm src hi).length ≤ 8192)
    (hroom : needed pf.toRam s0.vm dst ((scan pf.toRam s0.vm src hi).map Prod.fst) ≤ s0.vm.pool.length) :
    ∃ s' new', shareAddrSpace pf.toRam src dst hi s0 = (true, s') ∧
      Shared pf roots src dst s0 s' (scan pf.toRam s0.vm src hi).reverse new' ∧
      new'.length = needed pf.toRam s0.vm dst ((scan pf.toRam s0.vm src hi).map Prod.fst) := by
  obtain hdone | ⟨s', fl, new', -, -, hstop⟩ := shareAddrSpace_cases hi h0 hsrc hdst hne
  · exact hdone
  exfalso
  obtain hfull | ⟨p, hp, hshort⟩ := hstop.reason
  · have := hstop.before.length_le
    rw [List.length_reverse] at this
    omega
  · have hsub : p.1 :: fl.map Prod.fst ⊆ (scan pf.toRam s0.vm src hi).map Prod.fst := by
      refine List.cons_subset.mpr ⟨List.mem_map.mpr ⟨p, hp.subset (by simp), rfl⟩, List.map_subset _ ?_⟩
      exact fun q hq => hp.subset (by simp [hq])
    have := @needed_mono dst pf.toRam s0.vm _ _ hsub
    omega

end Shared

end HouseKernel.Userspace
