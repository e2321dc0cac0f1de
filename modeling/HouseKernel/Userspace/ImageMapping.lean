import HouseKernel.Loader.Admission
import HouseKernel.Userspace.AddressShare
import HouseKernel.VirtualMemory.Creation
import HouseKernel.VirtualMemory.Stores

/-! An image is mapped into a new root: a demand marker for every page of its segments. The walk to a
page takes any valid descriptor for a table, also the blocks that the root shares with the kernel. -/
namespace HouseKernel.Userspace

open HouseKernel.Lib HouseKernel.Loader HouseKernel.VirtualMemory

/-- The supervisor's memory, with the descriptor stores since the mapping began. -/
structure MapState where
  vs : VmState
  stores : List Store

inductive MapMode where
  | finalFlags
  | temporaryRW
  deriving DecidableEq, Repr

def cleanupOne (pdir : ℕ) (t : MapState) (address : ℕ) : MapState :=
  match getPage t.vs.vm pdir address with
  | none => t
  | some info =>
    let stores := t.stores ++ clearPageStores t.vs.vm pdir address
    match setPage t.vs.vm pdir address none with
    | (false, vm) => ⟨{ t.vs with vm := vm }, stores⟩
    | (true, vm) => ⟨VmState.releaseBacking (keyOf info) { t.vs with vm := vm }, stores⟩

/-- The addresses in ascending order, each once. -/
def cleanupPages (pdir : ℕ) (addresses : List ℕ) (t : MapState) : MapState :=
  (addresses.dedup.insertionSort (· ≤ ·)).foldl (cleanupOne pdir) t

def MapState.setDemandPage (pdir va : ℕ) (writable : Bool) (t : MapState) : Bool × MapState :=
  let r := VirtualMemory.setDemandPage t.vs.vm pdir va writable
  (r.1, ⟨{ t.vs with vm := r.2 }, t.stores ++ setDemandPageStores t.vs.vm pdir va⟩)

/-- Map one thing after another; a failure removes what the others have mapped. -/
def mapEach {α : Type} (pdir : ℕ) (f : α → MapState → Except LoadError (List ℕ) × MapState) :
    List α → List ℕ → MapState → Except LoadError (List ℕ) × MapState
  | [], acc, t => (.ok acc, t)
  | a :: rest, acc, t => match f a t with
    | (.error e, t) => (.error e, cleanupPages pdir acc t)
    | (.ok pages, t) => mapEach pdir f rest (acc ++ pages) t

lemma mapEach_cons {α : Type} {pdir : ℕ} {f : α → MapState → Except LoadError (List ℕ) × MapState} {a : α} {rest : List α}
    {acc : List ℕ} {t : MapState} : mapEach pdir f (a :: rest) acc t =
      match f a t with
      | (.error e, t) => (.error e, cleanupPages pdir acc t)
      | (.ok pages, t) => mapEach pdir f rest (acc ++ pages) t := rfl

/-- One page of a segment. -/
def mapPage (pdir pageBase : ℕ) (writable : Bool) (idx : ℕ) (t : MapState) : Except LoadError (List ℕ) × MapState :=
  match checkedAddWord "segment virtual address" pageBase (idx*4096) with
  | .error e => (.error e, t)
  | .ok curVa =>
    if (getPage t.vs.vm pdir curVa).isSome ∨ (getDemandPage t.vs.vm pdir curVa).isSome then
      (.error (.badSegment "overlapping LOAD page"), t)
    else match t.setDemandPage pdir curVa writable with
      | (false, t) => (.error .noSpace, t)
      | (true, t) => (.ok [curVa], t)

def mapOneSegment (pdir base : ℕ) (mode : MapMode) (segment : Segment) (t : MapState) : Except LoadError (List ℕ) × MapState :=
  match segmentMappingLayout base segment with
  | .error e => (.error e, t)
  | .ok l =>
    let writable := match mode with
      | .finalFlags => decide (segment.flags &&& pfW ≠ 0)
      | .temporaryRW => true
    mapEach pdir (mapPage pdir l.pageBase writable) (List.range l.pages) [] t

def mapSegmentsAt (pdir base : ℕ) (elf : Elf) (mode : MapMode) (t : MapState) : Except LoadError (List ℕ) × MapState :=
  mapEach pdir (mapOneSegment pdir base mode) elf.segs [] t

/-- The pages of a segment, each of which gets a marker. -/
def placedPages (base : ℕ) (segment : Segment) : List ℕ :=
  match segmentMappingLayout base segment with
  | .error _ => []
  | .ok l => (List.range l.pages).flatMap fun idx => [l.pageBase + idx*4096]

def elfPages (base : ℕ) (elf : Elf) : List ℕ := elf.segs.flatMap (placedPages base)

/-- Every descriptor store went to a table of the root, and no other word changed but of pages that were
free. -/
structure Confined (ram : Ram) (roots : Set ℕ) (r : ℕ) (m : Memory) (t : MapState) : Prop where
  own : ∀ s ∈ t.stores, s.Own ram roots r
  frame : ∀ a, t.vs.vm.mem a ≠ m.mem a → (∃ p ∈ m.pool, p ≤ a ∧ a < p + 4096) ∨
    ∃ js q, TableAt ram m roots r js q ∧ q ≤ a ∧ a < q + 4096

/-- A mapping that has been confined so far, into a root that maps no page yet. -/
structure Laid (pf : Platform) (roots : Set ℕ) (r : ℕ) (m : Memory) (t : MapState) : Prop
    extends Confined pf.toRam roots r m t where
  root : r ∈ roots
  spaces : Spaces pf roots t.vs.vm
  blank : ∀ va, userPage pf.toRam t.vs.vm r va = none
  pool : ∀ p ∈ t.vs.vm.pool, p ∈ m.pool
  tables : ∀ js q, TableAt pf.toRam t.vs.vm roots r js q → TableAt pf.toRam m roots r js q ∨ q ∈ m.pool

section Steps

variable {pf : Platform} {roots : Set ℕ} {r : ℕ} {m : Memory} {t : MapState}

/-- Nothing is mapped yet, so that there is nothing to clean up. -/
lemma Laid.cleanupPages (h : Laid pf roots r m t) {addresses : List ℕ} (hk : ∀ va ∈ addresses, ¬ pf.kernelWindow va) :
    cleanupPages r addresses t = t := by
  have hone : ∀ va ∈ addresses.dedup.insertionSort (· ≤ ·), cleanupOne r t va = t := by
    intro va hva
    rw [List.mem_insertionSort, List.mem_dedup] at hva
    rw [cleanupOne, h.spaces.getPage_eq h.root (hk va hva), h.blank]
  unfold Userspace.cleanupPages
  generalize addresses.dedup.insertionSort (· ≤ ·) = as at hone
  induction as with
  | nil => rfl
  | cons a as ih =>
    rw [List.foldl_cons, hone a List.mem_cons_self]
    apply ih
    intro va hva
    exact hone va (List.mem_cons_of_mem a hva)

/-- One more marker outside the kernel's slots. -/
lemma Laid.setDemandPage (h : Laid pf roots r m t) {va : ℕ} (hk : ¬ pf.kernelWindow va) (w : Bool) :
    Laid pf roots r m (t.setDemandPage r va w).2 := by
  have hclear := h.spaces.clear h.root hk
  have hstores := setDemandPageStores_own h.spaces.forest h.spaces.pool h.root hclear
  have hplace : ∃ new, Extends pf.toRam roots r t.vs.vm (VirtualMemory.setDemandPage t.vs.vm r va w).2 new ∧
      Spaces pf roots (VirtualMemory.setDemandPage t.vs.vm r va w).2 ∧
      ∀ va', userPage pf.toRam (VirtualMemory.setDemandPage t.vs.vm r va w).2 r va' = none := by
    obtain ⟨m', new, heq, hsets, -⟩ | ⟨m', new, heq, hgrows⟩ :=
      setDemandPage_cases h.spaces.forest h.spaces.pool h.root hclear w
    · rw [heq]
      refine ⟨new, hsets.toExtends, h.spaces.sets hsets ?_, ?_⟩
      · intro info hinfo
        rw [descToPageInfo_demandDesc] at hinfo
        cases hinfo
      · intro va'
        by_cases hsame : SamePage va' va
        · rw [userPage, hsame.leaf_eq, hsets.leaf_self, descToPageInfo_demandDesc, ite_self]
        · rw [userPage_congr (hsets.leaf_other h.root fun hb => hsame hb.2)]
          exact h.blank va'
    · rw [heq]
      refine ⟨new, hgrows.toExtends, h.spaces.grows hgrows, ?_⟩
      intro va'
      rw [userPage_congr (hgrows.leaves h.root)]
      exact h.blank va'
  obtain ⟨new, hext, hspaces, hblank⟩ := hplace
  refine ⟨⟨?_, ?_⟩, h.root, hspaces, hblank, ?_, ?_⟩
  · intro s hs
    obtain hs | hs := List.mem_append.mp hs
    · exact h.own s hs
    · exact (hstores s hs).1
  · intro a ha
    by_cases hin : (∀ q ∈ t.vs.vm.pool, a < q ∨ q + 4096 ≤ a) ∧
        ∀ s ∈ setDemandPageStores t.vs.vm r va, a ≠ s.table + 8*s.slot
    · apply h.frame a
      intro heq
      exact ha ((setDemandPage_frame w hin.1 hin.2).trans heq)
    · obtain hfree | hstore := not_and_or.mp hin
      · push Not at hfree
        obtain ⟨q, hq, h1, h2⟩ := hfree
        exact .inl ⟨q, h.pool q hq, h1, h2⟩
      · push Not at hstore
        obtain ⟨s, hs, rfl⟩ := hstore
        obtain ⟨hown, hwhere⟩ := hstores s hs
        have hslot := hown.slot
        have hold : TableAt pf.toRam m roots r s.way s.table ∨ s.table ∈ m.pool := by
          obtain hold | hfree := hwhere
          · exact h.tables _ _ hold
          · exact .inr (h.pool _ hfree)
        obtain hold | hfree := hold
        · exact .inr ⟨s.way, s.table, hold, by omega, by omega⟩
        · exact .inl ⟨s.table, hfree, by omega, by omega⟩
  · intro p hp
    apply h.pool
    rw [hext.pool]
    exact List.mem_append_right _ hp
  · intro js q hq
    obtain hold | ⟨-, hnew⟩ := hext.tables.mp hq
    · exact h.tables js q hold
    · right
      apply h.pool
      rw [hext.pool]
      exact List.mem_append_left _ (List.mem_map.mpr ⟨_, hnew, rfl⟩)

/-- A marker in a slot of the kernel's is set through a block. -/
lemma Laid.foreign (h : Laid pf roots r m t) {va : ℕ} (hk : pf.kernelWindow va) {w : Bool}
    (hset : (t.setDemandPage r va w).1 = true) : ∃ s ∈ (t.setDemandPage r va w).2.stores, ¬ s.Own pf.toRam roots r := by
  have hva : validVAddr va = true := by
    by_contra hno
    simp [MapState.setDemandPage, VirtualMemory.setDemandPage, hno] at hset
  obtain ⟨s, hs, hown⟩ := setDemandPageStores_foreign (h.spaces.slots h.root hva hk) hset
  exact ⟨s, List.mem_append_right _ hs, hown⟩

/-- A part of the mapping that sets up these pages: it stays confined when they avoid the kernel's slots,
and otherwise does not succeed in confinement. -/
structure Maps (pf : Platform) (roots : Set ℕ) (r : ℕ) (m : Memory) (pages : List ℕ)
    (f : MapState → Except LoadError (List ℕ) × MapState) : Prop where
  laid : ∀ {t}, Laid pf roots r m t → (∀ va ∈ pages, ¬ pf.kernelWindow va) → Laid pf roots r m (f t).2
  result : ∀ {t ps}, (f t).1 = .ok ps → ∀ va ∈ ps, va ∈ pages
  grows : ∀ {t ps}, (f t).1 = .ok ps → ∀ s ∈ t.stores, s ∈ (f t).2.stores
  user : ∀ {t ps}, Laid pf roots r m t → (f t).1 = .ok ps → (∀ s ∈ (f t).2.stores, s.Own pf.toRam roots r) →
    ∀ va ∈ pages, ¬ pf.kernelWindow va

lemma Maps.refused (e : LoadError) : Maps pf roots r m [] fun t => (.error e, t) where
  laid h _ := h
  result := by
    rintro t ps ⟨⟩
  grows := by
    rintro t ps ⟨⟩
  user _ _ _ := by
    rintro va ⟨⟩

lemma mapPage_maps (pageBase : ℕ) (w : Bool) (idx : ℕ) :
    Maps pf roots r m [pageBase + idx*4096] (mapPage r pageBase w idx) := by
  unfold mapPage checkedAddWord
  by_cases hover : idx*4096 > 2^64 - 1 - pageBase
  · simp only [if_pos hover]
    refine ⟨fun h _ => h, ?_, ?_, ?_⟩
    · rintro t ps ⟨⟩
    · rintro t ps ⟨⟩
    · rintro t ps - ⟨⟩
  simp only [if_neg hover]
  constructor
  · intro t h hk
    have hlaid := h.setDemandPage (hk _ List.mem_cons_self) w
    split_ifs with hin
    · exact h
    · rcases hset : t.setDemandPage r (pageBase + idx*4096) w with ⟨_ | _, t'⟩
      · rw [hset] at hlaid
        exact hlaid
      · rw [hset] at hlaid
        exact hlaid
  · intro t ps hok
    split_ifs at hok
    rcases hset : t.setDemandPage r (pageBase + idx*4096) w with ⟨_ | _, t'⟩
    · rw [hset] at hok
      cases hok
    · rw [hset] at hok
      obtain rfl := Except.ok.inj hok
      exact fun va hva => hva
  · intro t ps hok s hs
    split_ifs at hok ⊢ with hin
    have hmem : s ∈ (t.setDemandPage r (pageBase + idx*4096) w).2.stores := List.mem_append_left _ hs
    rcases hset : t.setDemandPage r (pageBase + idx*4096) w with ⟨_ | _, t'⟩
    · rw [hset] at hmem
      exact hmem
    · rw [hset] at hmem
      exact hmem
  · intro t ps h hok hown va hva hk
    obtain rfl := List.mem_singleton.mp hva
    split_ifs at hok hown
    rcases hset : t.setDemandPage r (pageBase + idx*4096) w with ⟨_ | _, t'⟩
    · rw [hset] at hok
      cases hok
    · obtain ⟨s, hs, hforeign⟩ := h.foreign hk (w := w) (by rw [hset])
      rw [hset] at hs hown
      exact hforeign (hown s hs)

section Each

variable {α : Type} {f : α → MapState → Except LoadError (List ℕ) × MapState} {pages : α → List ℕ} {as : List α}

lemma mapEach_laid (h : ∀ a ∈ as, Maps pf roots r m (pages a) (f a)) {acc : List ℕ} (hacc : ∀ va ∈ acc, ¬ pf.kernelWindow va)
    (hk : ∀ va ∈ as.flatMap pages, ¬ pf.kernelWindow va) (ht : Laid pf roots r m t) :
    Laid pf roots r m (mapEach r f as acc t).2 := by
  induction as generalizing acc t with
  | nil => exact ht
  | cons a as ih =>
    have ha := h a List.mem_cons_self
    have hk1 : ∀ va ∈ pages a, ¬ pf.kernelWindow va := fun va hva => hk va (List.mem_append_left _ hva)
    have hlaid := ha.laid ht hk1
    rw [mapEach_cons]
    rcases hf : f a t with ⟨e | ps, t'⟩
    · rw [hf] at hlaid
      change Laid pf roots r m (cleanupPages r acc t')
      rw [hlaid.cleanupPages hacc]
      exact hlaid
    · have hfst : (f a t).1 = .ok ps := by rw [hf]
      have hps := ha.result hfst
      rw [hf] at hlaid
      refine ih (fun b hb => h b (List.mem_cons_of_mem a hb)) ?_ (fun va hva => hk va (List.mem_append_right _ hva)) hlaid
      intro va hva
      obtain hva | hva := List.mem_append.mp hva
      · exact hacc va hva
      · exact hk1 va (hps va hva)

lemma mapEach_grows (h : ∀ a ∈ as, Maps pf roots r m (pages a) (f a)) {acc ps : List ℕ}
    (hok : (mapEach r f as acc t).1 = .ok ps) :
    (∀ va ∈ ps, va ∈ acc ++ as.flatMap pages) ∧ ∀ s ∈ t.stores, s ∈ (mapEach r f as acc t).2.stores := by
  induction as generalizing acc t with
  | nil =>
    obtain rfl := Except.ok.inj hok
    exact ⟨fun va hva => List.mem_append_left _ hva, fun s hs => hs⟩
  | cons a as ih =>
    have ha := h a List.mem_cons_self
    rw [mapEach_cons] at hok ⊢
    rcases hf : f a t with ⟨e | ps', t'⟩
    · rw [hf] at hok
      cases hok
    · have hfst : (f a t).1 = .ok ps' := by rw [hf]
      have hps := ha.result hfst
      have hgrow := ha.grows hfst
      rw [hf] at hok hgrow
      obtain ⟨h1, h2⟩ := ih (fun b hb => h b (List.mem_cons_of_mem a hb)) hok
      refine ⟨?_, fun s hs => h2 s (hgrow s hs)⟩
      intro va hva
      rw [List.flatMap_cons, ← List.append_assoc]
      obtain hva | hva := List.mem_append.mp (h1 va hva)
      · obtain hva | hva := List.mem_append.mp hva
        · exact List.mem_append_left _ (List.mem_append_left _ hva)
        · exact List.mem_append_left _ (List.mem_append_right _ (hps va hva))
      · exact List.mem_append_right _ hva

lemma mapEach_user (h : ∀ a ∈ as, Maps pf roots r m (pages a) (f a)) {acc ps : List ℕ} (ht : Laid pf roots r m t)
    (hok : (mapEach r f as acc t).1 = .ok ps) (hown : ∀ s ∈ (mapEach r f as acc t).2.stores, s.Own pf.toRam roots r) :
    ∀ va ∈ as.flatMap pages, ¬ pf.kernelWindow va := by
  induction as generalizing acc t with
  | nil =>
    rintro va ⟨⟩
  | cons a as ih =>
    have ha := h a List.mem_cons_self
    have hrest : ∀ b ∈ as, Maps pf roots r m (pages b) (f b) := fun b hb => h b (List.mem_cons_of_mem a hb)
    rw [mapEach_cons] at hok hown
    rcases hf : f a t with ⟨e | ps', t'⟩
    · rw [hf] at hok
      cases hok
    · have hfst : (f a t).1 = .ok ps' := by rw [hf]
      rw [hf] at hok hown
      have hgrow := (mapEach_grows hrest hok).2
      have hk := ha.user ht hfst fun s hs => hown s (hgrow s (by rwa [hf] at hs))
      have hlaid := ha.laid ht hk
      rw [hf] at hlaid
      intro va hva
      obtain hva | hva := List.mem_append.mp hva
      · exact hk va hva
      · exact ih hrest hlaid hok hown va hva

/-- The parts in turn. -/
lemma Maps.each (h : ∀ a ∈ as, Maps pf roots r m (pages a) (f a)) : Maps pf roots r m (as.flatMap pages) (mapEach r f as []) where
  laid ht hk := mapEach_laid h (fun _ hva => absurd hva List.not_mem_nil) hk ht
  result hok := (mapEach_grows h hok).1
  grows hok := (mapEach_grows h hok).2
  user ht hok hown := mapEach_user h ht hok hown

end Each

lemma mapOneSegment_maps (base : ℕ) (mode : MapMode) (segment : Segment) :
    Maps pf roots r m (placedPages base segment) (mapOneSegment r base mode segment) := by
  unfold placedPages mapOneSegment
  cases segmentMappingLayout base segment with
  | error e => exact Maps.refused e
  | ok l => exact Maps.each fun idx _ => mapPage_maps l.pageBase _ idx

lemma mapSegmentsAt_maps (base : ℕ) (elf : Elf) (mode : MapMode) :
    Maps pf roots r m (elfPages base elf) (mapSegmentsAt r base elf mode) :=
  Maps.each fun segment _ => mapOneSegment_maps base mode segment

/-- A new root is laid out. -/
lemma Laid.start {m₀ : Memory} (h : Creates pf roots m₀ m r) (vs : VmState) (hvm : vs.vm = m) :
    Laid pf (insert r roots) r m ⟨vs, []⟩ := by
  subst hvm
  refine ⟨⟨?_, fun a ha => absurd rfl ha⟩, Set.mem_insert r roots, h.spaces, ?_, fun p hp => hp, fun js q hq => .inl hq⟩
  · rintro s ⟨⟩
  · intro va
    rw [userPage, h.blank, descToPageInfo_zero, ite_self]

end Steps

section Sample

/-- A static image of one page, entered at its start. -/
def pageImage (vaddr : ℕ) : Bytes := fileHeader 2 vaddr 1 ++ RawPhdr.bytes ⟨ptLoad, 5, 0, vaddr, 120, 120, 4096⟩

def pageElf (vaddr : ℕ) : Elf :=
  ⟨vaddr, [⟨vaddr, 0, 120, 120, 5⟩], pageImage vaddr, false, none, emptyDynInfo, none⟩

def sampleRoot : ℕ := 0x50000000

def sampleCreated : Memory := (allocPageMap samplePlatform sampleBoot).2

lemma allocPageMap_sample : allocPageMap samplePlatform sampleBoot = (some sampleRoot, sampleCreated) := by
  have hroot : (allocPageMap samplePlatform sampleBoot).1 = some sampleRoot := by decide +kernel
  rw [sampleCreated, ← hroot]

end Sample

end HouseKernel.Userspace
