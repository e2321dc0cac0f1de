import HouseKernel.Userspace.DemandPaging
import HouseKernel.Userspace.DynamicPages
import HouseKernel.Userspace.ImageSteps
import HouseKernel.VirtualMemory.MapRefinement

/-! What the loader does to a dynamic image once its pages have their markers. It fills in the pages that relocations
write to, sets the final access of every page, and takes the read-only pages of a library from a process that has the
same ones. After the patches no table is made any more. -/
namespace HouseKernel.Userspace

open HouseKernel.Lib HouseKernel.Linker HouseKernel.Loader HouseKernel.VirtualMemory

structure SharedObject where
  name : String
  base : ℕ
  pages : List (ℕ × BitVec 64)
  deriving DecidableEq

/-- What sharing looks at in a process, in the order of the process ids. -/
structure SharingProcess where
  pdir : ℕ
  sharedObjects : List SharedObject

def MapState.setPage (pdir va : ℕ) (info : PageInfo) (t : MapState) : Bool × MapState :=
  let r := VirtualMemory.setPage t.vs.vm pdir va (some info)
  (r.1, ⟨{ t.vs with vm := r.2 }, t.stores ++ setPageStores t.vs.vm pdir va⟩)

/-- The stores of `demandServe`. -/
def demandServeStores (allowed : Bool) (pdir : ℕ) (table : DemandTable) (va : ℕ) (m : Memory) : List Store :=
  let page := va - va % 4096
  match getPage m pdir page, getDemandPage m pdir page, table.filter fun object => (coveringSegment object page).isSome with
  | none, some _, object :: _ => match coveringSegment object page, allowed, allocPage m with
    | some (segment, pageBase, delta), true, (some pg, m) =>
      match copyDemandBytes object.bytes pg segment page pageBase delta (zeroPage pg m) with
      | .error _ => []
      | .ok m => setPageStores m pdir page
    | _, _, _ => []
  | _, _, _ => []

def ensureMaterialized (allowed : Bool) (pdir : ℕ) (table : DemandTable) (va : ℕ) (t : MapState) : DemandResult × MapState :=
  let r := demandServe allowed pdir table va t.vs.vm
  (r.1, ⟨{ t.vs with vm := r.2 }, t.stores ++ demandServeStores allowed pdir table va t.vs.vm⟩)

/-- The offset is a multiple of eight. -/
def pokeWord64LE (dest offset value : ℕ) (t : MapState) : MapState :=
  { t with vs := { t.vs with vm := { t.vs.vm with mem := Function.update t.vs.vm.mem (dest + offset) (BitVec.ofNat 64 value) } } }

/-- One thing after another, up to the first failure. -/
def inTurn {α : Type} (f : α → MapState → Except LoadError Unit × MapState) : List α → MapState → Except LoadError Unit × MapState
  | [], t => (.ok (), t)
  | a :: rest, t => match f a t with
    | (.error e, t) => (.error e, t)
    | (.ok (), t) => inTurn f rest t

section Patches

variable (allowed : ℕ → Bool) (pdir : ℕ) (table : DemandTable) (objects : List PlannedObject)
  (accesses : List (String × List (ℕ × PageAccess)))

/-- One relocation. `allowed` is what the page budget answers for a page. -/
def applyPatch (patch : RelocationPatch) (t : MapState) : Except LoadError Unit × MapState :=
  let pageBase := patch.target - patch.target % 4096
  if patch.target % 8 ≠ 0 then (.error (.badDyn "dynamic relocation target is unaligned"), t)
  else if patch.object ∉ objects.map fun o => o.name then (.error (.badDyn "dynamic relocation object missing"), t)
  -- of two plans under one name, the map of the source keeps the later one
  else match accesses.reverse.lookup patch.object with
    | none => (.error (.badDyn "dynamic relocation page plan missing"), t)
    | some pages =>
      if pageBase ∉ pages.map Prod.fst then (.error (.badDyn "dynamic relocation page outside object"), t)
      else match ensureMaterialized (allowed pageBase) pdir table pageBase t with
        | (.noMem, t) => (.error .noSpace, t)
        | (.miss, t) => (.error (.badDyn "dynamic relocation page unmapped"), t)
        | (.served, t) => match getPage t.vs.vm pdir pageBase with
          | none => (.error (.badDyn "dynamic relocation page unmapped"), t)
          | some info =>
            if !info.writable then (.error (.badDyn "dynamic relocation page is read-only"), t)
            else if info.cow then (.error (.badDyn "dynamic relocation page is copy-on-write"), t)
            else if patch.target - pageBase > 4088 then (.error (.badDyn "dynamic relocation crosses page"), t)
            else (.ok (), pokeWord64LE (keyOf info) (patch.target - pageBase) patch.value t)

def applyPatches (plan : LinkPlan) : MapState → Except LoadError Unit × MapState :=
  inTurn (applyPatch allowed pdir table objects accesses) plan.patches

end Patches

/-- The final access of one page. A page that was never touched keeps its marker. -/
def setAccess (pdir : ℕ) (e : ℕ × PageAccess) (t : MapState) : Except LoadError Unit × MapState :=
  let writable := decide (e.2 = .pageRW)
  match getPage t.vs.vm pdir e.1 with
  | some info => match t.setPage pdir e.1 { info with writable := writable, cow := false } with
    | (true, t) => (.ok (), t)
    | (false, t) => (.error (.badDyn "dynamic final permission update failed"), t)
  | none => match getDemandPage t.vs.vm pdir e.1 with
    | none => (.error (.badDyn "dynamic final page unmapped"), t)
    | some _ => match t.setDemandPage pdir e.1 writable with
      | (true, t) => (.ok (), t)
      | (false, t) => (.error (.badDyn "dynamic final permission update failed"), t)

def finalizeDynamic (pdir : ℕ) (accesses : List (String × List (ℕ × PageAccess))) (mapped : List (String × List ℕ))
    (t : MapState) : Except LoadError Unit × MapState :=
  match verifyDynamicPages accesses mapped with
  | .error e => (.error e, t)
  | .ok () => inTurn (fun a => inTurn (setAccess pdir) a.2) accesses t

/-- The pages to be read only that are filled in, with what they are mapped to. -/
def collectDynamicRO (m : Memory) (pdir : ℕ) (accesses : List (ℕ × PageAccess)) : List (ℕ × PageInfo) :=
  accesses.filterMap fun e => match e.2, getPage m pdir e.1 with
    | .pageRO, some info => if !info.writable && !info.cow then some (e.1, info) else none
    | _, _ => none

def sameDynamicPage (m : Memory) (current source : PageInfo) : Bool :=
  (List.range 512).all fun i => m.peek (keyOf current) i = m.peek (keyOf source) i

/-- The page of an object that a process still holds as it was listed. -/
def readSourcePage (m : Memory) (sourcePdir : ℕ) (e : ℕ × BitVec 64) : Option (ℕ × PageInfo) :=
  match getPage m sourcePdir e.1 with
  | none => none
  | some info => if info.physPage = e.2 ∧ !info.writable ∧ !info.cow then some (e.1, info) else none

def sourceMatches (m : Memory) (sourcePdir : ℕ) (shared : SharedObject) (current : List (ℕ × PageInfo)) : Bool :=
  let currentVas := current.map Prod.fst
  let expectedVas := shared.pages.map Prod.fst
  decide (currentVas.insertionSort (· ≤ ·) = expectedVas.insertionSort (· ≤ ·) ∧ currentVas.Nodup ∧ expectedVas.Nodup) &&
    shared.pages.all fun e => match current.lookup e.1, readSourcePage m sourcePdir e with
      | some info, some source => sameDynamicPage m info source.2
      | _, _ => false

/-- The first process that has the same pages of the object. -/
def findDynamicSource (processes : List SharingProcess) (m : Memory) (target : ℕ) (name : String) (base : ℕ)
    (current : List (ℕ × PageInfo)) : Option (SharingProcess × SharedObject) :=
  ((processes.filter fun pr => pr.pdir ≠ target).filterMap fun pr =>
    match pr.sharedObjects.filter fun shared => shared.name = name ∧ shared.base = base with
    | [] => none
    | shared :: _ => if sourceMatches m pr.pdir shared current then some (pr, shared) else none).head?

section Rewire

variable (pdir : ℕ)

/-- Map a page back to what it was mapped to. -/
def restoreOld (t : MapState) (e : ℕ × PageInfo × PageInfo) : MapState :=
  let t := (t.setPage pdir e.1 e.2.1).2
  { t with vs := { t.vs with refs := unshareBump t.vs.refs (keyOf e.2.2) } }

def releaseOld (t : MapState) (e : ℕ × PageInfo × PageInfo) : MapState :=
  { t with vs := VmState.releaseBacking (keyOf e.2.1) t.vs }

/-- Map the pages to those of the source, and give their own ones back; or none of them. -/
def rewireDynamicPages : List (ℕ × PageInfo) → List (ℕ × PageInfo) → List (ℕ × PageInfo × PageInfo) → MapState →
    Except LoadError Unit × MapState
  | [], [], replaced, t => (.ok (), replaced.foldl releaseOld t)
  | (address, oldInfo) :: currentRest, (sourceVa, sourceInfo) :: sourceRest, replaced, t =>
    if address ≠ sourceVa then
      (.error (.badDyn "dynamic shared page address mismatch"), replaced.foldl (restoreOld pdir) t)
    else if oldInfo.physPage = sourceInfo.physPage then
      (.error (.badDyn "dynamic shared page aliases current page"), replaced.foldl (restoreOld pdir) t)
    else match t.setPage pdir address { sourceInfo with writable := false, cow := false } with
      | (false, t) => (.error (.badDyn "dynamic shared remap failed"), replaced.foldl (restoreOld pdir) t)
      | (true, t) => rewireDynamicPages currentRest sourceRest ((address, oldInfo, sourceInfo) :: replaced)
          { t with vs := { t.vs with refs := shareBump t.vs.refs (keyOf sourceInfo) } }
  | _, _, replaced, t => (.error (.badDyn "dynamic shared page count mismatch"), replaced.foldl (restoreOld pdir) t)

variable (processes : List SharingProcess)

def shareDependency (object : PlannedObject) (accesses : List (ℕ × PageAccess)) (t : MapState) :
    Except LoadError (Option SharedObject) × MapState :=
  if object.name = mainObjectName then (.ok none, t)
  else match collectDynamicRO t.vs.vm pdir accesses with
    | [] => (.ok none, t)
    | current =>
      let candidate : SharedObject := ⟨object.name, object.base, current.map fun page => (page.1, page.2.physPage)⟩
      match findDynamicSource processes t.vs.vm pdir object.name object.base current with
      | none => (.ok (some candidate), t)
      | some (pr, shared) => match shared.pages.mapM (readSourcePage t.vs.vm pr.pdir) with
        | none => (.ok (some candidate), t)
        | some pages => match rewireDynamicPages pdir current pages [] t with
          | (.error e, t) => (.error e, t)
          | (.ok (), t) => (.ok (some shared), t)

variable (accesses : List (String × List (ℕ × PageAccess)))

def shareOne (object : PlannedObject) (t : MapState) : Except LoadError (Option SharedObject) × MapState :=
  match accesses.reverse.lookup object.name with
  | none => (.error (.badDyn "dynamic shared object metadata missing"), t)
  | some objectAccesses => shareDependency pdir processes object objectAccesses t

/-- Every object in turn, also behind one that fails. -/
def shareAll : List PlannedObject → MapState → List (Except LoadError (Option SharedObject)) × MapState
  | [], t => ([], t)
  | object :: rest, t =>
    let first := shareOne pdir processes accesses object t
    let others := shareAll rest first.2
    (first.1 :: others.1, others.2)

def shareDynamicObjects (objects : List PlannedObject) (t : MapState) : Except LoadError (List SharedObject) × MapState :=
  let results := shareAll pdir processes accesses objects t
  ((mapAll id results.1).map List.reduceOption, results.2)

end Rewire

/-- Nothing is mapped into a root but pages that were free. -/
structure Loading (pf : Platform) (roots : Set ℕ) (r : ℕ) (m : Memory) (t : MapState) : Prop
    extends Confined pf.toRam roots r m t where
  root : r ∈ roots
  spaces : Spaces pf roots t.vs.vm
  fresh : ∀ {va info}, userPage pf.toRam t.vs.vm r va = some info → keyOf info ∈ m.pool
  pool : ∀ p ∈ t.vs.vm.pool, p ∈ m.pool
  tables : ∀ js q, TableAt pf.toRam t.vs.vm roots r js q → TableAt pf.toRam m roots r js q ∨ q ∈ m.pool

/-- The tables of a root stand, whatever it maps and whatever is free. -/
structure Standing (pf : Platform) (roots : Set ℕ) (r : ℕ) (m : Memory) (t : MapState) : Prop
    extends Confined pf.toRam roots r m t where
  root : r ∈ roots
  trees : UserTrees pf.toRam roots { t.vs.vm with pool := [] }
  clear : ∀ {va}, ¬ pf.kernelWindow va → ClearPath pf.toRam t.vs.vm r (path va)
  tables : ∀ js q, TableAt pf.toRam t.vs.vm roots r js q → TableAt pf.toRam m roots r js q ∨ q ∈ m.pool

/-- A memory that differs only on pages that were free and on the tables of the root. -/
def KeepsOthers (pf : Platform) (roots : Set ℕ) (r : ℕ) (m m₁ : Memory) : Prop :=
  ∀ a, m₁.mem a ≠ m.mem a → (∃ p ∈ m.pool, p ≤ a ∧ a < p + 4096) ∨
    ∃ js q, TableAt pf.toRam m roots r js q ∧ q ≤ a ∧ a < q + 4096

/-- A page for which no table is missing. -/
def WalkedTo (pf : Platform) (r : ℕ) (t : MapState) (va : ℕ) : Prop :=
  validVAddr va = true ∧ ∃ l3, walk (userTable pf.toRam) t.vs.vm.mem r (path va) = some l3

section Invariants

variable {pf : Platform} {roots : Set ℕ} {r : ℕ} {m : Memory} {t t' : MapState} {va : ℕ}

lemma Laid.loading (h : Laid pf roots r m t) : Loading pf roots r m t where
  toConfined := h.toConfined
  root := h.root
  spaces := h.spaces
  fresh := by
    intro va info hp
    rw [h.blank] at hp
    cases hp
  pool := h.pool
  tables := h.tables

lemma Loading.standing (h : Loading pf roots r m t) : Standing pf roots r m t where
  toConfined := h.toConfined
  root := h.root
  trees := (h.spaces.take (List.nil_sublist _)).userTrees
  clear := h.spaces.clear h.root
  tables := h.tables

/-- A word is written into a table, one that was there or one on a page that was free. -/
lemma KeepsOthers.poke {m₁ : Memory} {js : List ℕ} {q i : ℕ} (h : KeepsOthers pf roots r m m₁)
    (hq : TableAt pf.toRam m roots r js q ∨ q ∈ m.pool) (hi : i < 512) (d : Desc) :
    KeepsOthers pf roots r m (m₁.poke q i d) := by
  intro a ha
  by_cases hword : a = q + 8*i
  · obtain hold | hfree := hq
    · exact .inr ⟨js, q, hold, by omega, by omega⟩
    · exact .inl ⟨q, hfree, by omega, by omega⟩
  · apply h a
    rwa [← show (m₁.poke q i d).mem a = m₁.mem a from Function.update_of_ne hword _ _]

/-- Words of a page that was free are written. -/
lemma KeepsOthers.page {m₁ m₂ : Memory} {p : ℕ} (h : KeepsOthers pf roots r m m₁) (hp : p ∈ m.pool)
    (hout : ∀ {x}, x < p ∨ p + 4096 ≤ x → m₂.mem x = m₁.mem x) : KeepsOthers pf roots r m m₂ := by
  intro a ha
  by_cases hin : p ≤ a ∧ a < p + 4096
  · exact .inl ⟨p, hp, hin⟩
  · apply h a
    rwa [← hout (by omega)]

lemma Standing.keeps (h : Standing pf roots r m t) : KeepsOthers pf roots r m t.vs.vm := h.frame

/-- Only the tables and the stores matter. -/
lemma Standing.congr (h : Standing pf roots r m t) (hmem : t'.vs.vm.mem = t.vs.vm.mem) (hstores : t'.stores = t.stores) :
    Standing pf roots r m t' := by
  obtain ⟨⟨⟨mem', pool'⟩, refs', ttbr0'⟩, stores'⟩ := t'
  obtain rfl : mem' = t.vs.vm.mem := hmem
  obtain rfl : stores' = t.stores := hstores
  exact ⟨⟨h.own, h.frame⟩, h.root, h.trees, h.clear, h.tables⟩

/-- A leaf is written. -/
lemma Standing.poke (h : Standing pf roots r m t) {l3 : ℕ} (htab : TableAt pf.toRam t.vs.vm roots r (path va) l3) (d : Desc) :
    Standing pf roots r m
        ⟨{ t.vs with vm := t.vs.vm.poke l3 (l3Index va) d }, t.stores ++ [⟨t.vs.vm, path va, l3, l3Index va⟩]⟩ ∧
      ∀ js q, TableAt pf.toRam (t.vs.vm.poke l3 (l3Index va) d) roots r js q ↔ TableAt pf.toRam t.vs.vm roots r js q := by
  have hsets := sets_poke h.trees.forest htab d
  have htables : ∀ js q, TableAt pf.toRam (t.vs.vm.poke l3 (l3Index va) d) roots r js q ↔
      TableAt pf.toRam t.vs.vm roots r js q := by
    intro js q
    refine Iff.trans hsets.tables ?_
    simp
  have hidx := l3Index_lt va
  refine ⟨⟨⟨?_, h.keeps.poke (h.tables _ _ htab) hidx d⟩, h.root, h.trees.extends hsets.toExtends, ?_, ?_⟩, htables⟩
  · rw [List.forall_mem_append]
    exact ⟨h.own, List.forall_mem_singleton.mpr ⟨htab, hidx⟩⟩
  · intro va' hk
    exact hsets.clear h.root (index_lt va') (by simp [path]) (h.clear hk)
  · intro js q hq
    exact h.tables js q ((htables js q).mp hq)

lemma Standing.table (h : Standing pf roots r m t) {l3 : ℕ} (hw : walk (userTable pf.toRam) t.vs.vm.mem r (path va) = some l3) :
    TableAt pf.toRam t.vs.vm roots r (path va) l3 := ⟨h.root, index_lt va, by simp [path], hw⟩

/-- A page that is read is reached. -/
lemma Standing.reached (h : Standing pf roots r m t) (hk : ¬ pf.kernelWindow va) {info : PageInfo}
    (hp : getPage t.vs.vm r va = some info) : WalkedTo pf r t va := by
  rw [getPage_of_clear (h.clear hk)] at hp
  obtain ⟨l3, hw, -⟩ := userPage_table hp
  exact ⟨userPage_valid hp, l3, hw⟩

/-- A page that is reached is set, and no table goes. -/
lemma Standing.setPage (h : Standing pf roots r m t) (hva : WalkedTo pf r t va) (info : PageInfo) :
    ∃ t', t.setPage r va info = (true, t') ∧ Standing pf roots r m t' ∧ t.stores <+: t'.stores ∧
      ∀ a, WalkedTo pf r t a → WalkedTo pf r t' a := by
  obtain ⟨hvalid, l3, hw⟩ := hva
  obtain ⟨hstanding, htables⟩ := h.poke (h.table hw) (pageInfoToDesc info)
  refine ⟨_, ?_, hstanding, List.prefix_append _ _, ?_⟩
  · simp only [MapState.setPage, setPage_of_walk hvalid hw, setPageStores_of_walk hvalid hw]
  · rintro a ⟨ha, q, hq⟩
    exact ⟨ha, q, ((htables _ _).mpr (h.table hq)).reach⟩

/-- An empty table is taken out of its slot. -/
lemma Standing.prune (h : Standing pf roots r m t) {is : List ℕ} {l2 l3 i : ℕ} (hl2 : TableAt pf.toRam t.vs.vm roots r is l2)
    (hlen : is.length = 2) (hi : i < 512) (hl3 : userTable pf.toRam (t.vs.vm.peek l2 i) = some l3)
    (hempty : isEmptyTable t.vs.vm l3 = true) :
    Standing pf roots r m
      ⟨{ t.vs with vm := freePage l3 (t.vs.vm.poke l2 i 0) }, t.stores ++ [⟨t.vs.vm, is, l2, i⟩]⟩ := by
  obtain ⟨hforest, -, hwalks⟩ := (h.trees.prune hl2 hlen hi hl3 hempty).trees
  refine ⟨⟨?_, h.keeps.poke (h.tables _ _ hl2) hi 0⟩, h.root,
    ⟨hforest.subset (Set.Subset.refl _) (List.nil_sublist _), ?_, hwalks⟩, ?_, ?_⟩
  · rw [List.forall_mem_append]
    exact ⟨h.own, List.forall_mem_singleton.mpr ⟨hl2, hi⟩⟩
  · rintro p ⟨⟩
  · intro va hk
    exact prune_clear h.trees hl2 hlen hi hl3 h.root (h.clear hk)
  · intro js q hq
    exact h.tables js q ((prune_stands h.trees hl2 hlen hi hl3).mp hq).1

lemma releaseBacking_mem (raw : ℕ) (s : VmState) : (VmState.releaseBacking raw s).vm.mem = s.vm.mem := by
  unfold VmState.releaseBacking
  dsimp only
  split_ifs <;> rfl

/-- A page is removed, and its L3 table with the last page in it. -/
lemma Standing.cleanupOne (h : Standing pf roots r m t) (hk : ¬ pf.kernelWindow va) :
    Standing pf roots r m (cleanupOne r t va) := by
  unfold Userspace.cleanupOne
  cases hp : getPage t.vs.vm r va with
  | none => exact h
  | some info =>
    have huser := hp
    rw [getPage_of_clear (h.clear hk)] at huser
    have hva := userPage_valid huser
    obtain ⟨l3, hw, hd⟩ := userPage_table huser
    obtain ⟨l1, l2, h0, h1, hl2, h2⟩ := VirtualMemory.walk_path hw
    have htab := h.table hw
    obtain ⟨hcleared, htables⟩ := h.poke htab 0
    have hstores : clearPageStores t.vs.vm r va = ⟨t.vs.vm, path va, l3, l3Index va⟩ ::
        if isEmptyTable (t.vs.vm.poke l3 (l3Index va) 0) l3 then
          [⟨t.vs.vm.poke l3 (l3Index va) 0, [l0Index va, l1Index va], l2, l2Index va⟩] else [] := by
      simp only [clearPageStores, hp, walk_of_userTable hl2, l3Table_of_walk hw]
    simp only [setPage_none_of_page hva h0 h1 (tableFromDesc_of_userTable h2) hd, hstores]
    by_cases hempty : isEmptyTable (t.vs.vm.poke l3 (l3Index va) 0) l3 = true
    · have hstand : TableAt pf.toRam t.vs.vm roots r [l0Index va, l1Index va] l2 :=
        ⟨h.root, fun i hi => index_lt va i (List.mem_append_left [l2Index va] hi), by simp, hl2⟩
      have hidx : l2Index va < 512 := index_lt va _ (by simp [path])
      have hslot := h.trees.forest.leaf_write htab (by simp [path]) (l3Index_lt va) 0 hstand (by simp) hidx
      have hpruned := hcleared.prune ((htables _ _).mpr hstand) rfl hidx (hslot.trans h2) hempty
      refine hpruned.congr ?_ ?_
      · rw [releaseBacking_mem, if_pos hempty]
      · dsimp only
        rw [if_pos hempty, List.append_assoc, List.singleton_append]
    · refine hcleared.congr ?_ ?_
      · rw [releaseBacking_mem, if_neg hempty]
      · dsimp only
        rw [if_neg hempty]

lemma Standing.cleanupPages (h : Standing pf roots r m t) {addresses : List ℕ} (hk : ∀ a ∈ addresses, ¬ pf.kernelWindow a) :
    Standing pf roots r m (cleanupPages r addresses t) := by
  have hall : ∀ a ∈ addresses.dedup.insertionSort (· ≤ ·), ¬ pf.kernelWindow a := by
    intro a ha
    rw [List.mem_insertionSort, List.mem_dedup] at ha
    exact hk a ha
  unfold Userspace.cleanupPages
  generalize addresses.dedup.insertionSort (· ≤ ·) = as at hall
  induction as generalizing t with
  | nil => exact h
  | cons a as ih =>
    obtain ⟨ha, has⟩ := List.forall_mem_cons.mp hall
    exact ih (h.cleanupOne ha) has

end Invariants

section Runs

variable {α : Type} {f : α → MapState → Except LoadError Unit × MapState} {as : List α} {P : MapState → Prop} {t : MapState}

/-- What each of the parts keeps, all of them keep. -/
lemma inTurn_keeps (h : ∀ a ∈ as, ∀ t, P t → P (f a t).2) (ht : P t) : P (inTurn f as t).2 := by
  induction as generalizing t with
  | nil => exact ht
  | cons a as ih =>
    obtain ⟨ha, has⟩ := List.forall_mem_cons.mp h
    have hone := ha t ht
    rw [inTurn]
    rcases hf : f a t with ⟨e | ⟨⟩, t'⟩
    · rwa [hf] at hone
    · rw [hf] at hone
      exact ih has hone

end Runs

section Served

variable {pf : Platform} {roots : Set ℕ} {r : ℕ} {m : Memory} {page : ℕ}

/-- Serving a page writes to one page that was free, and then to a leaf whose table is there. -/
lemma demandServe_effects (h : Spaces pf roots m) (hr : r ∈ roots) (ha : page % 4096 = 0) (hk : ¬ pf.kernelWindow page)
    (allowed : Bool) (table : DemandTable) :
    ((demandServe allowed r table page m).2.mem = m.mem ∧ demandServeStores allowed r table page m = []) ∨
    ∃ pg ∈ m.pool, ∃ m₁ : Memory, (∀ x, x < pg ∨ pg + 4096 ≤ x → m₁.mem x = m.mem x) ∧
      ((demandServe allowed r table page m).2.mem = m₁.mem ∧ demandServeStores allowed r table page m = [] ∨
        ∃ l3 d, TableAt pf.toRam m₁ roots r (path page) l3 ∧
          (demandServe allowed r table page m).2.mem = (m₁.poke l3 (l3Index page) d).mem ∧
          demandServeStores allowed r table page m = [⟨m₁, path page, l3, l3Index page⟩]) := by
  have hclear := h.clear hr hk
  unfold demandServe demandServeStores
  simp only [ha, Nat.sub_zero]
  cases hpage : getPage m r page with
  | some info =>
    left
    dsimp only
    split_ifs <;> exact ⟨rfl, rfl⟩
  | none =>
    cases hmark : getDemandPage m r page with
    | none => exact .inl ⟨rfl, rfl⟩
    | some w =>
      rcases table.filter (fun object => (coveringSegment object page).isSome) with _ | ⟨object, objects⟩
      · exact .inl ⟨rfl, rfl⟩
      simp only [serveOne]
      rcases coveringSegment object page with _ | ⟨segment, pageBase, delta⟩
      · exact .inl ⟨rfl, rfl⟩
      cases allowed with
      | false => exact .inl ⟨rfl, rfl⟩
      | true =>
        simp only [Bool.not_true, Bool.false_eq_true, if_false]
        rcases hpool : m.pool with _ | ⟨pg, rest⟩
        · left
          simp only [allocPage, hpool]
          exact ⟨trivial, trivial⟩
        right
        have hpg : pg ∈ m.pool := by simp [hpool]
        have hal := h.forest.freeAligned hpg
        have halloc : allocPage m = (some pg, { m with pool := rest }) := by simp only [allocPage, hpool]
        have hzero : ∀ x, x < pg ∨ pg + 4096 ≤ x → (zeroPage pg { m with pool := rest }).mem x = m.mem x := by
          intro x hx
          exact if_neg (by omega)
        rw [getDemandPage_of_clear hclear] at hmark
        obtain ⟨hva, -, l3, hw, -⟩ := userMarker_table hmark
        refine ⟨pg, List.mem_cons_self, ?_⟩
        simp only [halloc]
        cases hcopy : copyDemandBytes object.bytes pg segment page pageBase delta (zeroPage pg { m with pool := rest }) with
        | error e => exact ⟨_, hzero, .inl ⟨rfl, rfl⟩⟩
        | ok m₁ =>
          have hmem : ∀ x, x < pg ∨ pg + 4096 ≤ x → m₁.mem x = m.mem x :=
            fun x hx => ((copyDemandBytes_spec hal hcopy).2 x hx).trans (hzero x hx)
          obtain ⟨-, htables, -⟩ := @Spaces.write pf roots m { m₁ with pool := m.pool } h rfl fun hq hi =>
            hmem _ (outside_page (h.forest.aligned hq) hal hi fun heq => h.forest.apart hq (heq ▸ hpg))
          have htab : TableAt pf.toRam m₁ roots r (path page) l3 := htables.mpr ⟨hr, index_lt page, by simp [path], hw⟩
          refine ⟨m₁, hmem, .inr ⟨l3, pageInfoToDesc ⟨BitVec.ofNat 64 pg, w, false, false, false⟩, htab, ?_,
            setPageStores_of_walk hva htab.reach⟩⟩
          simp only [setPage_of_walk hva htab.reach]

end Served

section Patching

variable {pf : Platform} {roots : Set ℕ} {r : ℕ} {m : Memory} {t : MapState} {va : ℕ}

/-- The loader touches a page. -/
lemma Loading.ensureMaterialized (h : Loading pf roots r m t) (ha : va % 4096 = 0) (hk : ¬ pf.kernelWindow va) (allowed : Bool)
    (table : DemandTable) : Loading pf roots r m (ensureMaterialized allowed r table va t).2 := by
  obtain ⟨hserves, -⟩ := demandServe_cases h.spaces h.root ha hk allowed table
  have hfresh : ∀ {va' info}, userPage pf.toRam (demandServe allowed r table va t.vs.vm).2 r va' = some info →
      keyOf info ∈ m.pool := by
    intro va' info hp
    obtain hold | hnew := hserves.fresh hp
    · exact h.fresh hold
    · exact h.pool _ hnew
  suffices hmem : (∀ s ∈ demandServeStores allowed r table va t.vs.vm, s.Own pf.toRam roots r) ∧
      KeepsOthers pf roots r m (demandServe allowed r table va t.vs.vm).2 ∧
      ∀ js q, TableAt pf.toRam (demandServe allowed r table va t.vs.vm).2 roots r js q →
        TableAt pf.toRam m roots r js q ∨ q ∈ m.pool by
    have hown : ∀ s ∈ t.stores ++ demandServeStores allowed r table va t.vs.vm, s.Own pf.toRam roots r := by
      rw [List.forall_mem_append]
      exact ⟨h.own, hmem.1⟩
    exact ⟨⟨hown, hmem.2.1⟩, h.root, hserves.spaces, hfresh, fun p hp => h.pool p (hserves.pool hp), hmem.2.2⟩
  obtain ⟨hsame, hnil⟩ | ⟨pg, hpg, m₁, hout, heffect⟩ := demandServe_effects h.spaces h.root ha hk allowed table
  · have htables : ∀ js q, TableAt pf.toRam (demandServe allowed r table va t.vs.vm).2 roots r js q →
        TableAt pf.toRam t.vs.vm roots r js q := fun js q hq => ⟨hq.root, hq.index, hq.short, hsame ▸ hq.reach⟩
    refine ⟨?_, ?_, fun js q hq => h.tables js q (htables js q hq)⟩
    · rw [hnil]
      rintro s ⟨⟩
    · rw [KeepsOthers, hsame]
      exact h.frame
  -- the page that was taken is no table
  have hal := h.spaces.forest.freeAligned hpg
  obtain ⟨hspaces, htables, -⟩ := @Spaces.write pf roots t.vs.vm { m₁ with pool := t.vs.vm.pool } h.spaces rfl fun hq hi =>
    hout _ (outside_page (h.spaces.forest.aligned hq) hal hi fun heq => h.spaces.forest.apart hq (heq ▸ hpg))
  have hkeeps : KeepsOthers pf roots r m m₁ := h.standing.keeps.page (h.pool pg hpg) fun hx => hout _ hx
  obtain ⟨hmem, hnil⟩ | ⟨l3, d, htab, hmem, hstores⟩ := heffect
  · refine ⟨?_, ?_, ?_⟩
    · rw [hnil]
      rintro s ⟨⟩
    · rw [KeepsOthers, hmem]
      exact hkeeps
    · intro js q hq
      exact h.tables js q (htables.mp ⟨hq.root, hq.index, hq.short, hmem ▸ hq.reach⟩)
  · have hidx := l3Index_lt va
    have hsets := sets_poke hspaces.forest htab d
    refine ⟨?_, ?_, ?_⟩
    · rw [hstores]
      intro s hs
      obtain rfl := List.mem_singleton.mp hs
      exact ⟨htab, hidx⟩
    · rw [KeepsOthers, hmem]
      exact hkeeps.poke (h.tables _ _ (htables.mp htab)) hidx d
    · intro js q hq
      obtain hq | ⟨-, ⟨⟩⟩ := hsets.tables.mp ⟨hq.root, hq.index, hq.short, hmem ▸ hq.reach⟩
      exact h.tables js q (htables.mp hq)

/-- A word of a page is written. -/
lemma Loading.pokeWord64LE (h : Loading pf roots r m t) {info : PageInfo} (hp : userPage pf.toRam t.vs.vm r va = some info)
    {offset : ℕ} (hoff : offset < 4096) (value : ℕ) : Loading pf roots r m (pokeWord64LE (keyOf info) offset value t) := by
  obtain ⟨-, hdata⟩ := h.spaces.data h.root hp
  have hfresh := h.fresh hp
  have hal : keyOf info % 4096 = 0 := (userPage_bound hp).1
  have hmem : ∀ {x}, x < keyOf info ∨ keyOf info + 4096 ≤ x →
      (Userspace.pokeWord64LE (keyOf info) offset value t).vs.vm.mem x = t.vs.vm.mem x := by
    intro x hx
    exact Function.update_of_ne (by omega) _ _
  obtain ⟨hspaces, htables, hleaf⟩ := @Spaces.write pf roots t.vs.vm
    (Userspace.pokeWord64LE (keyOf info) offset value t).vs.vm h.spaces rfl fun hq hi =>
      hmem (outside_page (h.spaces.forest.aligned hq) hal hi (hdata _ _ _ hq))
  refine ⟨⟨h.own, h.standing.keeps.page hfresh hmem⟩, h.root, hspaces, ?_, h.pool,
    fun js q hq => h.tables js q (htables.mp hq)⟩
  intro va' info' hp'
  rw [userPage_congr (hleaf h.root)] at hp'
  exact h.fresh hp'

/-- A relocation does nothing, or touches one of the planned pages, and then may write a word of it. -/
lemma applyPatch_cases (allowed : ℕ → Bool) (table : DemandTable) (objects : List PlannedObject)
    (accesses : List (String × List (ℕ × PageAccess))) (patch : RelocationPatch) :
    (applyPatch allowed r table objects accesses patch t).2 = t ∨ ∃ a ∈ accesses, ∃ e ∈ a.2, e.1 % 4096 = 0 ∧
      ∃ served, served = (ensureMaterialized (allowed e.1) r table e.1 t).2 ∧
        ((applyPatch allowed r table objects accesses patch t).2 = served ∨ ∃ info offset,
          getPage served.vs.vm r e.1 = some info ∧ offset < 4096 ∧
            (applyPatch allowed r table objects accesses patch t).2 = pokeWord64LE (keyOf info) offset patch.value served) := by
  unfold applyPatch
  dsimp only
  by_cases halign : patch.target % 8 ≠ 0
  · rw [if_pos halign]
    exact .inl rfl
  rw [if_neg halign]
  by_cases hobject : patch.object ∉ objects.map fun o => o.name
  · rw [if_pos hobject]
    exact .inl rfl
  rw [if_neg hobject]
  cases hplan : accesses.reverse.lookup patch.object with
  | none => exact .inl rfl
  | some pages =>
    dsimp only
    by_cases hin : patch.target - patch.target % 4096 ∉ pages.map Prod.fst
    · rw [if_pos hin]
      exact .inl rfl
    rw [if_neg hin]
    obtain ⟨before, after, hsplit, -⟩ := List.lookup_eq_some_iff.mp hplan
    have hmem : (patch.object, pages) ∈ accesses := by
      rw [← List.mem_reverse, hsplit]
      simp
    obtain ⟨e, he, heq⟩ := List.mem_map.mp (not_not.mp hin)
    refine .inr ⟨_, hmem, e, he, by omega, _, rfl, ?_⟩
    rw [← heq]
    rcases ensureMaterialized (allowed e.1) r table e.1 t with ⟨_ | _ | _, t'⟩
    · dsimp only
      cases hpage : getPage t'.vs.vm r e.1 with
      | none => exact .inl rfl
      | some info =>
        dsimp only
        split_ifs with hro hcow hcross
        · exact .inl rfl
        · exact .inl rfl
        · exact .inl rfl
        · exact .inr ⟨info, patch.target - e.1, rfl, by omega, rfl⟩
    · exact .inl rfl
    · exact .inl rfl

lemma Loading.applyPatch (h : Loading pf roots r m t) {accesses : List (String × List (ℕ × PageAccess))}
    (hk : ∀ a ∈ accesses, ∀ e ∈ a.2, ¬ pf.kernelWindow e.1) (allowed : ℕ → Bool) (table : DemandTable)
    (objects : List PlannedObject) (patch : RelocationPatch) :
    Loading pf roots r m (applyPatch allowed r table objects accesses patch t).2 := by
  obtain hsame | ⟨a, ha, e, he, hpage, served, rfl, hresult⟩ := @applyPatch_cases r t allowed table objects accesses patch
  · rwa [hsame]
  have hserved := h.ensureMaterialized hpage (hk a ha e he) (allowed e.1) table
  obtain hsame | ⟨info, offset, hinfo, hoff, hpoke⟩ := hresult
  · rwa [hsame]
  · rw [hserved.spaces.getPage_eq h.root (hk a ha e he)] at hinfo
    rw [hpoke]
    exact hserved.pokeWord64LE hinfo hoff patch.value

end Patching

section Finalizing

variable {pf : Platform} {roots : Set ℕ} {r : ℕ} {m : Memory} {t : MapState}

lemma Standing.setAccess (h : Standing pf roots r m t) {e : ℕ × PageAccess} (hk : ¬ pf.kernelWindow e.1) :
    Standing pf roots r m (setAccess r e t).2 := by
  unfold Userspace.setAccess
  cases hp : getPage t.vs.vm r e.1 with
  | some info =>
    obtain ⟨t', hset, hstanding, -, -⟩ := h.setPage (h.reached hk hp) { info with writable := decide (e.2 = .pageRW), cow := false }
    simp only [hset]
    exact hstanding
  | none =>
    cases hmark : getDemandPage t.vs.vm r e.1 with
    | none => exact h
    | some w =>
      rw [getDemandPage_of_clear (h.clear hk)] at hmark
      obtain ⟨hva, hpage, l3, hw, hnone⟩ := userMarker_table hmark
      obtain ⟨hset, hstores⟩ := setDemandPage_of_walk hva hpage hw hnone (decide (e.2 = .pageRW))
      simp only [MapState.setDemandPage, hset, hstores]
      exact (h.poke (h.table hw) _).1

lemma Standing.finalizeDynamic (h : Standing pf roots r m t) {accesses : List (String × List (ℕ × PageAccess))}
    (hk : ∀ a ∈ accesses, ∀ e ∈ a.2, ¬ pf.kernelWindow e.1) (mapped : List (String × List ℕ)) :
    Standing pf roots r m (finalizeDynamic r accesses mapped t).2 := by
  unfold Userspace.finalizeDynamic
  cases verifyDynamicPages accesses mapped with
  | error e => exact h
  | ok _ => exact inTurn_keeps (fun a ha t ht => inTurn_keeps (fun e he t ht => ht.setAccess (hk a ha e he)) ht) h

end Finalizing

section Sharing

variable {pf : Platform} {roots : Set ℕ} {r : ℕ} {m : Memory} {t : MapState} {processes : List SharingProcess}

lemma Standing.restore (h : Standing pf roots r m t) {replaced : List (ℕ × PageInfo × PageInfo)}
    (hreached : ∀ e ∈ replaced, WalkedTo pf r t e.1) : Standing pf roots r m (replaced.foldl (restoreOld r) t) := by
  induction replaced generalizing t with
  | nil => exact h
  | cons e replaced ih =>
    obtain ⟨he, hrest⟩ := List.forall_mem_cons.mp hreached
    obtain ⟨t', hset, hstanding, -, hkept⟩ := h.setPage he e.2.1
    rw [List.foldl_cons, restoreOld, hset]
    exact ih (hstanding.congr rfl rfl) fun e' he' => hkept _ (hrest e' he')

lemma Standing.release (h : Standing pf roots r m t) (replaced : List (ℕ × PageInfo × PageInfo)) :
    Standing pf roots r m (replaced.foldl releaseOld t) := by
  induction replaced generalizing t with
  | nil => exact h
  | cons e replaced ih => exact ih (h.congr (releaseBacking_mem _ _) rfl)

/-- Every page that is looked at stays reached, so that the pages can be mapped to those of the source and back. -/
lemma Standing.rewireDynamicPages (h : Standing pf roots r m t) {current source : List (ℕ × PageInfo)}
    {replaced : List (ℕ × PageInfo × PageInfo)} (hcurrent : ∀ e ∈ current, WalkedTo pf r t e.1)
    (hreplaced : ∀ e ∈ replaced, WalkedTo pf r t e.1) :
    Standing pf roots r m (rewireDynamicPages r current source replaced t).2 := by
  induction current generalizing source replaced t with
  | nil =>
    cases source with
    | nil =>
      simp only [Userspace.rewireDynamicPages]
      exact h.release replaced
    | cons e source =>
      simp only [Userspace.rewireDynamicPages]
      exact h.restore hreplaced
  | cons c current ih =>
    cases source with
    | nil =>
      simp only [Userspace.rewireDynamicPages]
      exact h.restore hreplaced
    | cons e source =>
      obtain ⟨hc, hrest⟩ := List.forall_mem_cons.mp hcurrent
      obtain ⟨t', hset, hstanding, -, hkept⟩ := h.setPage hc { e.2 with writable := false, cow := false }
      have hnext : Standing pf roots r m
          { t' with vs := { t'.vs with refs := shareBump t'.vs.refs (keyOf e.2) } } := hstanding.congr rfl rfl
      simp only [Userspace.rewireDynamicPages, hset]
      split_ifs with haddress halias
      · exact h.restore hreplaced
      · exact h.restore hreplaced
      · refine ih hnext (fun e' he' => hkept _ (hrest e' he')) ?_
        rw [List.forall_mem_cons]
        exact ⟨hkept _ hc, fun e' he' => hkept _ (hreplaced e' he')⟩

lemma Standing.shareDependency (h : Standing pf roots r m t) {object : PlannedObject} {accesses : List (ℕ × PageAccess)}
    (hk : ∀ e ∈ accesses, ¬ pf.kernelWindow e.1) :
    Standing pf roots r m (shareDependency r processes object accesses t).2 := by
  have hcurrent : ∀ e ∈ collectDynamicRO t.vs.vm r accesses, WalkedTo pf r t e.1 := by
    intro c hc
    obtain ⟨e, he, hsome⟩ := List.mem_filterMap.mp hc
    split at hsome
    · rename_i info haccess hp
      split_ifs at hsome
      obtain rfl := Option.some.inj hsome
      exact h.reached (hk e he) hp
    · cases hsome
  unfold Userspace.shareDependency
  split_ifs with hmain
  · exact h
  split
  · exact h
  rename_i current hne
  dsimp only
  cases findDynamicSource processes t.vs.vm r object.name object.base (collectDynamicRO t.vs.vm r accesses) with
  | none => exact h
  | some found =>
    obtain ⟨pr, shared⟩ := found
    dsimp only
    cases shared.pages.mapM (readSourcePage t.vs.vm pr.pdir) with
    | none => exact h
    | some pages =>
      have hrewired : Standing pf roots r m
          (Userspace.rewireDynamicPages r (collectDynamicRO t.vs.vm r accesses) pages [] t).2 :=
        h.rewireDynamicPages hcurrent fun _ he => absurd he List.not_mem_nil
      dsimp only
      rcases hresult : Userspace.rewireDynamicPages r (collectDynamicRO t.vs.vm r accesses) pages [] t with ⟨e | ⟨⟩, t'⟩
      · rwa [hresult] at hrewired
      · rwa [hresult] at hrewired

lemma Standing.shareDynamicObjects (h : Standing pf roots r m t) {accesses : List (String × List (ℕ × PageAccess))}
    (hk : ∀ a ∈ accesses, ∀ e ∈ a.2, ¬ pf.kernelWindow e.1) (objects : List PlannedObject) :
    Standing pf roots r m (shareDynamicObjects r processes accesses objects t).2 := by
  unfold Userspace.shareDynamicObjects
  dsimp only
  induction objects generalizing t with
  | nil => exact h
  | cons object objects ih =>
    refine ih ?_
    unfold shareOne
    cases hplan : accesses.reverse.lookup object.name with
    | none => exact h
    | some objectAccesses =>
      obtain ⟨before, after, hsplit, -⟩ := List.lookup_eq_some_iff.mp hplan
      refine h.shareDependency (hk (object.name, objectAccesses) ?_)
      rw [← List.mem_reverse, hsplit]
      simp

end Sharing

section Stores

variable {r : ℕ} {t : MapState} {processes : List SharingProcess} {accesses : List (String × List (ℕ × PageAccess))}

lemma applyPatch_stores (allowed : ℕ → Bool) (table : DemandTable) (objects : List PlannedObject) (patch : RelocationPatch) :
    t.stores <+: (applyPatch allowed r table objects accesses patch t).2.stores := by
  obtain hsame | ⟨a, -, e, -, -, served, rfl, hresult⟩ := @applyPatch_cases r t allowed table objects accesses patch
  · rw [hsame]
  obtain hsame | ⟨info, offset, -, -, hpoke⟩ := hresult
  · rw [hsame]
    exact List.prefix_append _ _
  · rw [hpoke]
    exact List.prefix_append _ _

lemma setAccess_stores (e : ℕ × PageAccess) : t.stores <+: (setAccess r e t).2.stores := by
  have hset : ∀ info, t.stores <+: (t.setPage r e.1 info).2.stores := fun _ => List.prefix_append _ _
  have hmark : t.stores <+: (t.setDemandPage r e.1 (decide (e.2 = .pageRW))).2.stores := List.prefix_append _ _
  unfold setAccess
  dsimp only
  cases getPage t.vs.vm r e.1 with
  | some info =>
    have hinfo := hset { info with writable := decide (e.2 = .pageRW), cow := false }
    dsimp only
    rcases hrun : t.setPage r e.1 { info with writable := decide (e.2 = .pageRW), cow := false } with ⟨_ | _, t'⟩
    · rwa [hrun] at hinfo
    · rwa [hrun] at hinfo
  | none =>
    cases getDemandPage t.vs.vm r e.1 with
    | none => exact List.prefix_rfl
    | some w =>
      dsimp only
      rcases hrun : t.setDemandPage r e.1 (decide (e.2 = .pageRW)) with ⟨_ | _, t'⟩
      · rwa [hrun] at hmark
      · rwa [hrun] at hmark

lemma finalizeDynamic_stores (mapped : List (String × List ℕ)) : t.stores <+: (finalizeDynamic r accesses mapped t).2.stores := by
  unfold finalizeDynamic
  cases verifyDynamicPages accesses mapped with
  | error e => exact List.prefix_rfl
  | ok _ =>
    refine @inTurn_keeps _ _ _ (fun t' => t.stores <+: t'.stores) t (fun a _ t' ht' => ?_) List.prefix_rfl
    exact @inTurn_keeps _ _ _ (fun t' => t.stores <+: t'.stores) t' (fun e _ t' ht' => ht'.trans (setAccess_stores e)) ht'

lemma restore_stores (replaced : List (ℕ × PageInfo × PageInfo)) : t.stores <+: (replaced.foldl (restoreOld r) t).stores := by
  induction replaced generalizing t with
  | nil => exact List.prefix_rfl
  | cons e replaced ih =>
    have hone : t.stores <+: (restoreOld r t e).stores := List.prefix_append _ _
    exact hone.trans ih

lemma release_stores (replaced : List (ℕ × PageInfo × PageInfo)) : (replaced.foldl releaseOld t).stores = t.stores := by
  induction replaced generalizing t with
  | nil => rfl
  | cons e replaced ih => exact ih

lemma rewireDynamicPages_stores (current source : List (ℕ × PageInfo)) (replaced : List (ℕ × PageInfo × PageInfo)) :
    t.stores <+: (rewireDynamicPages r current source replaced t).2.stores := by
  induction current generalizing source replaced t with
  | nil =>
    cases source with
    | nil =>
      simp only [rewireDynamicPages, release_stores]
      exact List.prefix_rfl
    | cons e source =>
      simp only [rewireDynamicPages]
      exact restore_stores replaced
  | cons c current ih =>
    cases source with
    | nil =>
      simp only [rewireDynamicPages]
      exact restore_stores replaced
    | cons e source =>
      have hset : t.stores <+: (t.setPage r c.1 { e.2 with writable := false, cow := false }).2.stores := List.prefix_append _ _
      simp only [rewireDynamicPages]
      split_ifs with haddress halias
      · exact restore_stores replaced
      · exact restore_stores replaced
      · rcases hrun : t.setPage r c.1 { e.2 with writable := false, cow := false } with ⟨_ | _, t'⟩
        · rw [hrun] at hset
          exact hset.trans (restore_stores replaced)
        · rw [hrun] at hset
          have hnext : t.stores <+: MapState.stores { t' with vs := { t'.vs with refs := shareBump t'.vs.refs (keyOf e.2) } } := hset
          exact hnext.trans (ih _ _)

lemma shareOne_stores (object : PlannedObject) : t.stores <+: (shareOne r processes accesses object t).2.stores := by
  unfold shareOne
  cases accesses.reverse.lookup object.name with
  | none => exact List.prefix_rfl
  | some objectAccesses =>
    dsimp only
    unfold shareDependency
    split_ifs with hmain
    · exact List.prefix_rfl
    split
    · exact List.prefix_rfl
    dsimp only
    cases findDynamicSource processes t.vs.vm r object.name object.base (collectDynamicRO t.vs.vm r objectAccesses) with
    | none => exact List.prefix_rfl
    | some found =>
      dsimp only
      cases found.2.pages.mapM (readSourcePage t.vs.vm found.1.pdir) with
      | none => exact List.prefix_rfl
      | some pages =>
        have hrewired := @rewireDynamicPages_stores r t (collectDynamicRO t.vs.vm r objectAccesses) pages []
        dsimp only
        rcases hrun : rewireDynamicPages r (collectDynamicRO t.vs.vm r objectAccesses) pages [] t with ⟨e | ⟨⟩, t'⟩
        · rwa [hrun] at hrewired
        · rwa [hrun] at hrewired

lemma shareDynamicObjects_stores (objects : List PlannedObject) :
    t.stores <+: (shareDynamicObjects r processes accesses objects t).2.stores := by
  unfold shareDynamicObjects
  dsimp only
  induction objects generalizing t with
  | nil => exact List.prefix_rfl
  | cons object objects ih => exact (shareOne_stores object).trans ih

end Stores

end HouseKernel.Userspace
