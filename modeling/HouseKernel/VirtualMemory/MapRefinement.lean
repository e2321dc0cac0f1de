import HouseKernel.Lib.Run
import HouseKernel.VirtualMemory.Creation

/-! Page maps as maps. What the calls on page maps do to three levels of tables, made on demand and
taken out when empty, is what they do to a map from pages to nothing, a page or a marker. A call that
needs a table and finds no free page does nothing to the map. -/
namespace HouseKernel.VirtualMemory

open HouseKernel.Lib

/-- What a root has at a page. -/
inductive Entry where
  | unmapped
  | mapped (info : PageInfo)
  | marker (writable : Bool)
  deriving DecidableEq, Repr

namespace Entry

def page : Entry → Option PageInfo
  | mapped info => some info
  | _ => none

def demand : Entry → Option Bool
  | marker writable => some writable
  | _ => none

/-- Unmapping leaves a marker alone, and clearing a marker leaves a page alone. -/
def unmap : Entry → Entry
  | mapped _ => unmapped
  | e => e

def clear : Entry → Entry
  | marker _ => unmapped
  | e => e

end Entry

/-- The entries of all roots, by page number. -/
abbrev PageMaps := ℕ → ℕ → Entry

def PageMaps.put (f : PageMaps) (r va : ℕ) (e : Entry) : PageMaps :=
  Function.update f r (Function.update (f r) (va / 4096) e)

/-- The page that a mapping names: a page address of at most 48 bits. -/
abbrev UserPage := { info : PageInfo // info.physPage &&& mAddress = info.physPage }

inductive MapOp where
  | getPage (r va : ℕ)
  | setPage (r va : ℕ) (info : Option UserPage)
  | getDemandPage (r va : ℕ)
  | setDemandPage (r va : ℕ) (writable : Bool)
  | clearDemandPage (r va : ℕ)

inductive MapAnswer where
  | page (info : Option PageInfo)
  | demand (writable : Option Bool)
  | done (ok : Bool)
  deriving DecidableEq

/-- The calls over the map. `room` says whether there are free pages for the tables of the call. -/
def mapExec (room : Bool) (f : PageMaps) : MapOp → MapAnswer × PageMaps
  | .getPage r va => (.page (if validVAddr va then (f r (va / 4096)).page else none), f)
  | .setPage r va none =>
    if validVAddr va then (.done true, f.put r va (f r (va / 4096)).unmap) else (.done false, f)
  | .setPage r va (some info) =>
    if validVAddr va ∧ room then (.done true, f.put r va (.mapped info)) else (.done false, f)
  | .getDemandPage r va =>
    (.demand (if validVAddr va ∧ va % 4096 = 0 then (f r (va / 4096)).demand else none), f)
  | .setDemandPage r va writable =>
    if validVAddr va ∧ va % 4096 = 0 ∧ room ∧ (f r (va / 4096)).page = none then
      (.done true, f.put r va (.marker writable))
    else (.done false, f)
  | .clearDemandPage r va =>
    if validVAddr va ∧ va % 4096 = 0 then (.done true, f.put r va (f r (va / 4096)).clear) else (.done false, f)

/-- The calls over the tables. -/
def pageExec (m : Memory) : MapOp → MapAnswer × Memory
  | .getPage r va => (.page (getPage m r va), m)
  | .setPage r va info => (.done (setPage m r va (info.map (·.1))).1, (setPage m r va (info.map (·.1))).2)
  | .getDemandPage r va => (.demand (getDemandPage m r va), m)
  | .setDemandPage r va writable => (.done (setDemandPage m r va writable).1, (setDemandPage m r va writable).2)
  | .clearDemandPage r va => (.done (clearDemandPage m r va).1, (clearDemandPage m r va).2)

def MapOp.root : MapOp → ℕ
  | getPage r _ | setPage r _ _ | getDemandPage r _ | setDemandPage r _ _ | clearDemandPage r _ => r

def MapOp.address : MapOp → ℕ
  | getPage _ va | setPage _ va _ | getDemandPage _ va | setDemandPage _ va _ | clearDemandPage _ va => va

/-- The walk of the code from `t` along the indices reads a block descriptor. -/
def readsBlock (m : Memory) : ℕ → List ℕ → Bool
  | _, [] => false
  | t, i :: is =>
    ((m.peek t i).getLsbD 0 && !(m.peek t i).getLsbD 1) ||
      match tableFromDesc (m.peek t i) with
      | none => false
      | some c => readsBlock m c is

/-- There are free pages for all tables that the path of the call lacks. -/
def roomFor (ram : Ram) (m : Memory) (op : MapOp) : Bool :=
  (missing ram m op.root [] (path op.address)).length ≤ m.pool.length

/-- The memory and the calls so far, the last one first, with what was free for them and their answers. -/
structure MapWorld where
  memory : Memory
  calls : List (MapOp × Bool × MapAnswer)

/-- A call on one of the roots, at an address on whose walk there is no block. -/
def mapStep (ram : Ram) (roots : Finset ℕ) (w : MapWorld) (op : MapOp) : Option MapWorld :=
  if op.root ∈ roots ∧ (validVAddr op.address → readsBlock w.memory op.root (path op.address) = false) then
    some ⟨(pageExec w.memory op).2, (op, roomFor ram w.memory op, (pageExec w.memory op).1) :: w.calls⟩
  else none

/-- Over the map `f` the calls would have been answered the same way, and made it `g`. -/
inductive Explains (f : PageMaps) : List (MapOp × Bool × MapAnswer) → PageMaps → Prop
  | start : Explains f [] f
  | call {calls : List (MapOp × Bool × MapAnswer)} {g : PageMaps} (op : MapOp) (room : Bool) (h : Explains f calls g) :
    Explains f ((op, room, (mapExec room g op).1) :: calls) (mapExec room g op).2

def entryOf (d : Desc) : Entry :=
  match descToPageInfo d with
  | some info => .mapped info
  | none => if isDemandDesc d then .marker (demandWritable d) else .unmapped

/-- The map that the tables of the roots make up. -/
def viewOf (ram : Ram) (roots : Finset ℕ) (m : Memory) : PageMaps := fun r page =>
  if r ∈ roots ∧ validVAddr (4096*page) then entryOf (leaf ram m r (4096*page)) else .unmapped

/-- Tables in a forest beside valid free pages. On its way to a user address a root has its own
tables up to an invalid descriptor, or to a block. -/
structure UserTrees (ram : Ram) (roots : Set ℕ) (m : Memory) : Prop where
  forest : Forest (userTable ram) 3 m.mem roots m.pool
  pool : ∀ p ∈ m.pool, validPage ram p = true
  walks : ∀ {r va}, r ∈ roots → validVAddr va = true → ClearPath ram m r (path va) ∨ BlockOn ram m roots r va

theorem Spaces.userTrees {pf : Platform} {roots : Set ℕ} {m : Memory} (h : Spaces pf roots m) :
    UserTrees pf.toRam roots m where
  forest := h.forest
  pool := h.pool
  walks := by
    intro r va hr hva
    by_cases hk : pf.kernelWindow va
    · exact .inr (h.slots hr hva hk)
    · exact .inl (h.clear hr hk)

section Entries

theorem page_entryOf (d : Desc) : (entryOf d).page = descToPageInfo d := by
  unfold entryOf
  cases descToPageInfo d with
  | some info => rfl
  | none => cases isDemandDesc d <;> rfl

theorem demand_entryOf (d : Desc) : (entryOf d).demand =
    match descToPageInfo d with
    | some _ => none
    | none => if isDemandDesc d then some (demandWritable d) else none := by
  unfold entryOf
  cases descToPageInfo d with
  | some info => rfl
  | none => cases isDemandDesc d <;> rfl

theorem entryOf_zero : entryOf 0#64 = .unmapped := by decide

theorem entryOf_demandDesc (writable : Bool) : entryOf (demandDesc writable) = .marker writable := by
  cases writable <;> decide

theorem entryOf_pageInfoToDesc (info : UserPage) : entryOf (pageInfoToDesc info) = .mapped info := by
  rw [entryOf, descToPageInfo_pageInfoToDesc info.2]

theorem unmap_of_page_none {e : Entry} (h : e.page = none) : e.unmap = e := by
  cases e with
  | mapped info => cases h
  | unmapped | marker => rfl

theorem unmap_of_page {e : Entry} {info : PageInfo} (h : e.page = some info) : e.unmap = .unmapped := by
  cases e with
  | mapped info => rfl
  | unmapped | marker => cases h

theorem clear_of_demand_none {e : Entry} (h : e.demand = none) : e.clear = e := by
  cases e with
  | marker writable => cases h
  | unmapped | mapped => rfl

theorem clear_of_demand {e : Entry} {writable : Bool} (h : e.demand = some writable) : e.clear = .unmapped := by
  cases e with
  | marker writable => rfl
  | unmapped | mapped => cases h

theorem PageMaps.put_self (f : PageMaps) (r va : ℕ) : f.put r va (f r (va / 4096)) = f := by
  rw [PageMaps.put, Function.update_eq_self, Function.update_eq_self]

end Entries

section Walks

variable {ram : Ram} {m : Memory}

/-- A block behind user tables is read by the code's walk. -/
theorem readsBlock_of_walk {t q i : ℕ} {js is : List ℕ} (hq : walk (userTable ram) m.mem t js = some q)
    (hpre : js ++ [i] <+: is) (hb : isBlock (m.peek q i)) : readsBlock m t is = true := by
  induction js generalizing t is with
  | nil =>
    obtain rfl : t = q := Option.some.inj hq
    obtain ⟨rest, rfl⟩ := hpre
    simp only [List.nil_append, List.cons_append, readsBlock, hb.1, hb.2, Bool.not_false, Bool.and_self, Bool.true_or]
  | cons j js ih =>
    obtain ⟨c, hc, hrest⟩ := Option.bind_eq_some_iff.mp hq
    obtain ⟨rest, rfl⟩ := hpre
    have hnext : readsBlock m c (js ++ [i] ++ rest) = true := ih hrest (List.prefix_append _ _)
    have hc' : tableFromDesc (m.peek t j) = some c := tableFromDesc_of_userTable hc
    simp only [List.cons_append, readsBlock, hc', hnext, Bool.or_true]

theorem UserTrees.clear {roots : Set ℕ} {r va : ℕ} (h : UserTrees ram roots m) (hr : r ∈ roots)
    (hva : validVAddr va = true) (hno : readsBlock m r (path va) = false) : ClearPath ram m r (path va) := by
  obtain hclear | ⟨js, i, q, -, hpre, hq, hb⟩ := h.walks hr hva
  · exact hclear
  · rw [readsBlock_of_walk hq.reach hpre hb] at hno
    cases hno

end Walks

/-- Tables changed, no leaf did. -/
structure Keeps (ram : Ram) (roots : Set ℕ) (m m' : Memory) : Prop where
  trees : UserTrees ram roots m'
  leaves : ∀ {r va}, r ∈ roots → leaf ram m' r va = leaf ram m r va

/-- The leaf of one page was written. -/
structure Writes (ram : Ram) (roots : Set ℕ) (r va : ℕ) (d : Desc) (m m' : Memory) : Prop where
  trees : UserTrees ram roots m'
  leaf_self : leaf ram m' r va = d
  leaf_other : ∀ {r' va'}, r' ∈ roots → ¬ (r' = r ∧ SamePage va' va) → leaf ram m' r' va' = leaf ram m r' va'

section Effects

variable {pf : Platform} {roots : Set ℕ} {m m' : Memory} {r va : ℕ} {new : List (List ℕ × ℕ)}

theorem UserTrees.extends (h : UserTrees pf.toRam roots m) (he : Extends pf.toRam roots r m m' new) :
    UserTrees pf.toRam roots m' where
  forest := he.forest
  pool := he.pool_valid h.pool
  walks := by
    intro r' va' hr' hva'
    obtain hclear | hblock := h.walks hr' hva'
    · exact .inl (he.clear hr' (index_lt va') (by simp [path]) hclear)
    · exact .inr (he.slot hblock)

theorem UserTrees.grows (h : UserTrees pf.toRam roots m) (hg : Grows pf.toRam roots r m m' new) :
    Keeps pf.toRam roots m m' := ⟨h.extends hg.toExtends, hg.leaves⟩

theorem UserTrees.sets {d : Desc} (h : UserTrees pf.toRam roots m) (hs : Sets pf.toRam roots r va d m m' new) :
    Writes pf.toRam roots r va d m m' := ⟨h.extends hs.toExtends, hs.leaf_self, hs.leaf_other⟩

end Effects

section View

variable {ram : Ram} {roots : Finset ℕ} {m m' : Memory} {r va : ℕ}

/-- An address and the address of its page have the same leaf. -/
theorem viewOf_eq (hr : r ∈ roots) (hva : validVAddr va = true) :
    viewOf ram roots m r (va / 4096) = entryOf (leaf ram m r va) := by
  have hpage : validVAddr (4096*(va / 4096)) = true := by
    rw [validVAddr_iff] at hva ⊢
    omega
  have hsame : SamePage (4096*(va / 4096)) va := by
    rw [samePage_iff hpage hva]
    omega
  rw [viewOf, if_pos ⟨hr, hpage⟩, hsame.leaf_eq]

theorem Keeps.view (h : Keeps ram roots m m') : viewOf ram roots m' = viewOf ram roots m := by
  funext r page
  unfold viewOf
  split_ifs with hr
  · rw [h.leaves hr.1]
  · rfl

theorem Writes.view {d : Desc} (h : Writes ram roots r va d m m') (hr : r ∈ roots) (hva : validVAddr va = true) :
    viewOf ram roots m' = (viewOf ram roots m).put r va (entryOf d) := by
  funext r' page
  by_cases hsame : r' = r ∧ page = va / 4096
  · obtain ⟨rfl, rfl⟩ := hsame
    rw [viewOf_eq hr hva, h.leaf_self, PageMaps.put, Function.update_self, Function.update_self]
  · have hput : (viewOf ram roots m).put r va (entryOf d) r' page = viewOf ram roots m r' page := by
      unfold PageMaps.put
      by_cases hroot : r' = r
      · subst hroot
        rw [Function.update_self, Function.update_of_ne (fun hpage => hsame ⟨rfl, hpage⟩)]
      · rw [Function.update_of_ne hroot]
    rw [hput]
    unfold viewOf
    split_ifs with hvalid
    · refine congrArg entryOf (h.leaf_other hvalid.1 ?_)
      rintro ⟨hroot, hpage⟩
      rw [samePage_iff hvalid.2 hva] at hpage
      exact hsame ⟨hroot, by omega⟩
    · rfl

end View

section Prune

variable {ram : Ram} {roots : Set ℕ} {m m₁ m₂ : Memory} {r va : ℕ}

theorem Writes.keeps {d : Desc} (h : Writes ram roots r va d m m₁) (hk : Keeps ram roots m₁ m₂) (hr : r ∈ roots) :
    Writes ram roots r va d m m₂ where
  trees := hk.trees
  leaf_self := (hk.leaves hr).trans h.leaf_self
  leaf_other hr' hne := (hk.leaves hr').trans (h.leaf_other hr' hne)

lemma isEmptyTable_peek {t i : ℕ} (h : isEmptyTable m t = true) (hi : i < 512) : m.peek t i = 0#64 :=
  of_decide_eq_true (List.all_eq_true.mp h i (List.mem_range.mpr hi))

variable {is : List ℕ} {l2 l3 i : ℕ}

/-- Only the slot changes when a table is taken out of it. -/
lemma prune_word (h : UserTrees ram roots m) (hl2 : TableAt ram m roots r is l2) (hi : i < 512) {r' q j : ℕ}
    {js : List ℕ} (hq : TableAt ram m roots r' js q) (hj : j < 512) (hne : ¬ (q = l2 ∧ j = i)) :
    (freePage l3 (m.poke l2 i 0)).mem (q + 8*j) = m.mem (q + 8*j) :=
  Function.update_of_ne (word_ne (h.forest.aligned hq) (h.forest.aligned hl2) hj hi (by tauto)) _ _

lemma prune_stands (h : UserTrees ram roots m) (hl2 : TableAt ram m roots r is l2) (hlen : is.length = 2)
    (hi : i < 512) (hl3 : userTable ram (m.peek l2 i) = some l3) {r' q : ℕ} {js : List ℕ} :
    TableAt ram (freePage l3 (m.poke l2 i 0)) roots r' js q ↔ TableAt ram m roots r' js q ∧ q ≠ l3 := by
  refine h.forest.stands_prune hl2 (by omega) hi hl3 ?_ fun hq _ hj hne => ?_
  · simp [freePage, Memory.poke]
  · rw [prune_word h hl2 hi hq hj hne]

/-- The way to a user address stays clear. -/
lemma prune_clear (h : UserTrees ram roots m) (hl2 : TableAt ram m roots r is l2) (hlen : is.length = 2) (hi : i < 512)
    (hl3 : userTable ram (m.peek l2 i) = some l3) {r' va' : ℕ} (hr' : r' ∈ roots) (hclear : ClearPath ram m r' (path va')) :
    ClearPath ram (freePage l3 (m.poke l2 i 0)) r' (path va') := by
  intro js j q hpre hq
  have hmem : ∀ k ∈ js ++ [j], k < 512 := fun k hk => index_lt va' k (hpre.subset hk)
  have hlen' := hpre.length_le
  simp only [List.length_append, path, List.length_cons, List.length_nil] at hlen'
  have hold := ((prune_stands h hl2 hlen hi hl3).mp ⟨hr', fun k hk => hmem k (List.mem_append_left _ hk), by omega, hq⟩).1
  by_cases hslot : q = l2 ∧ j = i
  · obtain ⟨rfl, rfl⟩ := hslot
    simp [Memory.peek, freePage, Memory.poke]
  · rw [Memory.peek, prune_word h hl2 hi hold (hmem j (by simp)) hslot]
    exact hclear js j q hpre hold.reach

/-- A block stays where it is. -/
lemma prune_block (h : UserTrees ram roots m) (hl2 : TableAt ram m roots r is l2) (hlen : is.length = 2) (hi : i < 512)
    (hl3 : userTable ram (m.peek l2 i) = some l3) (hempty : isEmptyTable m l3 = true) {r' va' : ℕ}
    (hblock : BlockOn ram m roots r' va') : BlockOn ram (freePage l3 (m.poke l2 i 0)) roots r' va' := by
  obtain ⟨js, j, q, hne, hpre, hq, hb⟩ := hblock
  have hj : j < 512 := index_lt va' j (hpre.subset (by simp))
  have hslot : ¬ (q = l2 ∧ j = i) := by
    rintro ⟨rfl, rfl⟩
    rw [Memory.peek, userTable_of_bit hb.2] at hl3
    cases hl3
  refine ⟨js, j, q, hne, hpre, (prune_stands h hl2 hlen hi hl3).mpr ⟨hq, ?_⟩, by rwa [prune_word h hl2 hi hq hj hslot]⟩
  rintro rfl
  have hzero : m.mem (q + 8*j) = 0#64 := isEmptyTable_peek hempty hj
  rw [hzero] at hb
  exact absurd hb.1 (by decide)

/-- An empty table may be taken out and freed. -/
theorem UserTrees.prune (h : UserTrees ram roots m) (hl2 : TableAt ram m roots r is l2) (hlen : is.length = 2)
    (hi : i < 512) (hl3 : userTable ram (m.peek l2 i) = some l3) (hempty : isEmptyTable m l3 = true) :
    Keeps ram roots m (freePage l3 (m.poke l2 i 0)) := by
  have hstands : ∀ {r' js q}, TableAt ram (freePage l3 (m.poke l2 i 0)) roots r' js q ↔
      TableAt ram m roots r' js q ∧ q ≠ l3 := prune_stands h hl2 hlen hi hl3
  have hword : ∀ {r' js q j}, TableAt ram m roots r' js q → j < 512 → ¬ (q = l2 ∧ j = i) →
      (freePage l3 (m.poke l2 i 0)).mem (q + 8*j) = m.mem (q + 8*j) := prune_word h hl2 hi
  refine ⟨⟨?_, ?_, ?_⟩, ?_⟩
  · refine h.forest.prune hl2 (by omega) hi hl3 ?_ fun hq _ hj hne => ?_
    · simp [freePage, Memory.poke]
    · rw [hword hq hj hne]
  · intro p hp
    obtain rfl | hp := List.mem_cons.mp hp
    · exact userTable_valid hl3
    · exact h.pool p hp
  · intro r' va' hr' hva'
    obtain hclear | hblock := h.walks hr' hva'
    · exact .inl (prune_clear h hl2 hlen hi hl3 hr' hclear)
    · exact .inr (prune_block h hl2 hlen hi hl3 hempty hblock)
  · intro r' va' hr'
    unfold leaf
    cases hq : walk (userTable ram) m.mem r' (path va') with
    | none =>
      cases hq' : walk (userTable ram) (freePage l3 (m.poke l2 i 0)).mem r' (path va') with
      | none => rfl
      | some q =>
        have hold := (hstands.mp ⟨hr', index_lt va', by simp [path], hq'⟩).1.reach
        rw [hq] at hold
        cases hold
    | some q =>
      have hold : TableAt ram m roots r' (path va') q := ⟨hr', index_lt va', by simp [path], hq⟩
      by_cases hl : q = l3
      · subst hl
        cases hq' : walk (userTable ram) (freePage q (m.poke l2 i 0)).mem r' (path va') with
        | none => exact (isEmptyTable_peek hempty (l3Index_lt va')).symm
        | some q' =>
          -- the walk would end where it did before, but that table is gone
          obtain ⟨hsame, hgone⟩ := hstands.mp ⟨hr', index_lt va', by simp [path], hq'⟩
          exact absurd (Option.some.inj (hsame.reach.symm.trans hq)) hgone
      · rw [(hstands.mpr ⟨hold, hl⟩).reach]
        refine hword hold (l3Index_lt va') ?_
        rintro ⟨rfl, -⟩
        have := (h.forest.unique hold hl2).2
        rw [← this] at hlen
        simp [path] at hlen

/-- The same for address spaces as the supervisor keeps them. -/
theorem Spaces.prune {pf : Platform} (h : Spaces pf roots m) (hl2 : TableAt pf.toRam m roots r is l2) (hlen : is.length = 2)
    (hi : i < 512) (hl3 : userTable pf.toRam (m.peek l2 i) = some l3) (hempty : isEmptyTable m l3 = true) :
    Spaces pf roots (freePage l3 (m.poke l2 i 0)) := by
  have htrees := h.userTrees
  obtain ⟨⟨hforest, hpool, -⟩, hleaves⟩ := htrees.prune hl2 hlen hi hl3 hempty
  have hchild : TableAt pf.toRam m roots r (is ++ [i]) l3 := hl2.child (by omega) hi hl3
  have hstands : ∀ {r' js q}, TableAt pf.toRam (freePage l3 (m.poke l2 i 0)) roots r' js q ↔
      TableAt pf.toRam m roots r' js q ∧ q ≠ l3 := prune_stands htrees hl2 hlen hi hl3
  refine ⟨hforest, hpool, fun hr hk => prune_clear htrees hl2 hlen hi hl3 hr (h.clear hr hk), ?_, ?_, ?_, ?_⟩
  · intro r' va' info hr' hp
    exact h.user hr' (userPage_congr (hleaves hr') ▸ hp)
  · intro r' va' info hr' hp
    obtain ⟨hfree, htab⟩ := h.data hr' (userPage_congr (hleaves hr') ▸ hp)
    refine ⟨fun hmem => ?_, fun r'' js q hq => htab r'' js q (hstands.mp hq).1⟩
    obtain heq | hmem := List.mem_cons.mp hmem
    · exact htab _ _ _ hchild heq.symm
    · exact hfree hmem
  · intro r' js q j c hq hlt hj hc
    by_cases hslot : q = l2 ∧ j = i
    · obtain ⟨rfl, rfl⟩ := hslot
      simp [freePage, Memory.poke] at hc
    · rw [prune_word htrees hl2 hi (hstands.mp hq).1 hj hslot] at hc ⊢
      exact h.tidy (hstands.mp hq).1 hlt hj hc
  · intro r' va' hr' hva' hk
    exact prune_block htrees hl2 hlen hi hl3 hempty (h.slots hr' hva' hk)

end Prune

/-- The call does to the tables of the roots what it does to their map. -/
structure Refines (ram : Ram) (roots : Finset ℕ) (m : Memory) (op : MapOp) : Prop where
  trees : UserTrees ram roots (pageExec m op).2
  exec : mapExec (roomFor ram m op) (viewOf ram roots m) op = ((pageExec m op).1, viewOf ram roots (pageExec m op).2)

section Calls

variable {pf : Platform} {roots : Finset ℕ} {m : Memory} {r va : ℕ}

theorem view_page (hr : r ∈ roots) (hva : validVAddr va = true) :
    (viewOf pf.toRam roots m r (va / 4096)).page = userPage pf.toRam m r va := by
  rw [viewOf_eq hr hva, page_entryOf, userPage, if_pos hva]

theorem view_demand (hr : r ∈ roots) (hva : validVAddr va = true) (hpage : va % 4096 = 0) :
    (viewOf pf.toRam roots m r (va / 4096)).demand = userMarker pf.toRam m r va := by
  have hguard : (validVAddr va && decide (va % 4096 = 0)) = true := by simp [hva, hpage]
  cases hd : descToPageInfo (leaf pf.toRam m r va) with
  | some info => rw [viewOf_eq hr hva, demand_entryOf, userMarker, userPage, if_pos hva, if_pos hguard, hd]
  | none => rw [viewOf_eq hr hva, demand_entryOf, userMarker, userPage, if_pos hva, if_pos hguard, hd]

theorem getPage_refines (h : UserTrees pf.toRam roots m) (hr : r ∈ roots)
    (hclear : validVAddr va = true → ClearPath pf.toRam m r (path va)) : Refines pf.toRam roots m (.getPage r va) := by
  refine ⟨h, ?_⟩
  simp only [mapExec, pageExec]
  by_cases hva : validVAddr va = true
  · rw [if_pos hva, view_page hr hva, getPage_of_clear (hclear hva)]
  · rw [if_neg hva, getPage, if_neg hva]

theorem getDemandPage_refines (h : UserTrees pf.toRam roots m) (hr : r ∈ roots)
    (hclear : validVAddr va = true → ClearPath pf.toRam m r (path va)) :
    Refines pf.toRam roots m (.getDemandPage r va) := by
  refine ⟨h, ?_⟩
  simp only [mapExec, pageExec]
  by_cases hva : validVAddr va = true ∧ va % 4096 = 0
  · rw [if_pos hva, view_demand hr hva.1 hva.2, getDemandPage_of_clear (hclear hva.1)]
  · rw [if_neg hva, getDemandPage, if_neg (by simpa using hva)]

theorem setPage_refines (h : UserTrees pf.toRam roots m) (hr : r ∈ roots)
    (hclear : validVAddr va = true → ClearPath pf.toRam m r (path va)) (info : UserPage) :
    Refines pf.toRam roots m (.setPage r va (some info)) := by
  by_cases hva : validVAddr va = true
  · obtain ⟨m', new, hset, hs, -, hroom⟩ | ⟨m', new, hset, hg, hfull⟩ :=
      setPage_cases h.forest h.pool hr hva (hclear hva) info
    · have hw := h.sets hs
      have hfree : roomFor pf.toRam m (.setPage r va (some info)) = true := decide_eq_true hroom
      refine ⟨by simpa only [pageExec, Option.map_some, hset] using hw.trees, ?_⟩
      simp only [mapExec, pageExec, Option.map_some, hset, hfree, hva, and_self, if_true, hw.view hr hva,
        entryOf_pageInfoToDesc]
    · have hk := h.grows hg
      have hfree : roomFor pf.toRam m (.setPage r va (some info)) = false := decide_eq_false (not_le.mpr hfull)
      refine ⟨by simpa only [pageExec, Option.map_some, hset] using hk.trees, ?_⟩
      simp [mapExec, pageExec, hset, hfree, hk.view]
  · have hset : setPage m r va (some info) = (false, m) := by simp [setPage, ensureL3, hva]
    exact ⟨by simpa only [pageExec, Option.map_some, hset] using h, by simp [mapExec, pageExec, hset, hva]⟩

theorem setDemandPage_refines (h : UserTrees pf.toRam roots m) (hr : r ∈ roots)
    (hclear : validVAddr va = true → ClearPath pf.toRam m r (path va)) (writable : Bool) :
    Refines pf.toRam roots m (.setDemandPage r va writable) := by
  by_cases hva : validVAddr va = true ∧ va % 4096 = 0
  · have hguard : (validVAddr va && decide (va % 4096 = 0)) = true := by simpa using hva
    obtain ⟨l3, m', new, hens, hgrow, htab, -, hroom⟩ | ⟨m', new, hens, hgrow, hfull⟩ :=
      ensureL3_cases h.forest h.pool hr hva.1 (hclear hva.1)
    · have hk := h.grows hgrow
      have hfree : roomFor pf.toRam m (.setDemandPage r va writable) = true := decide_eq_true hroom
      have hpage : (viewOf pf.toRam roots m r (va / 4096)).page = descToPageInfo (m'.peek l3 (l3Index va)) := by
        rw [view_page hr hva.1, ← userPage_congr (hgrow.leaves hr), userPage, if_pos hva.1, leaf, htab.reach]
      cases hd : descToPageInfo (m'.peek l3 (l3Index va)) with
      | some info =>
        have hset : setDemandPage m r va writable = (false, m') := by simp [setDemandPage, hguard, hens, hd]
        refine ⟨by simpa only [pageExec, hset] using hk.trees, ?_⟩
        simp [mapExec, pageExec, hset, hpage, hd, hk.view]
      | none =>
        have hw := h.sets (hgrow.sets (sets_poke hgrow.forest htab (demandDesc writable)))
        have hset : setDemandPage m r va writable = (true, m'.poke l3 (l3Index va) (demandDesc writable)) := by
          simp [setDemandPage, hguard, hens, hd]
        refine ⟨by simpa only [pageExec, hset] using hw.trees, ?_⟩
        simp only [mapExec, pageExec, hset, hfree, hva.1, hva.2, hpage, hd, and_self, if_true, hw.view hr hva.1,
          entryOf_demandDesc]
    · have hk := h.grows hgrow
      have hfree : roomFor pf.toRam m (.setDemandPage r va writable) = false := decide_eq_false (not_le.mpr hfull)
      have hset : setDemandPage m r va writable = (false, m') := by simp [setDemandPage, hguard, hens]
      refine ⟨by simpa only [pageExec, hset] using hk.trees, ?_⟩
      simp [mapExec, pageExec, hset, hfree, hk.view]
  · have hguard : ¬ (validVAddr va && decide (va % 4096 = 0)) = true := by simpa using hva
    have hset : setDemandPage m r va writable = (false, m) := by rw [setDemandPage, if_neg hguard]
    refine ⟨by simpa only [pageExec, hset] using h, ?_⟩
    rw [mapExec, if_neg fun hall => hva ⟨hall.1, hall.2.1⟩, pageExec, hset]

/-- Where the L3 table is missing, the page has no entry. -/
theorem view_of_missing (hr : r ∈ roots) (hva : validVAddr va = true)
    (hw : walk (userTable pf.toRam) m.mem r (path va) = none) :
    viewOf pf.toRam roots m r (va / 4096) = .unmapped := by
  rw [viewOf_eq hr hva, leaf, hw, entryOf_zero]

theorem view_of_table {l3 : ℕ} (hr : r ∈ roots) (hva : validVAddr va = true)
    (hw : walk (userTable pf.toRam) m.mem r (path va) = some l3) :
    viewOf pf.toRam roots m r (va / 4096) = entryOf (m.peek l3 (l3Index va)) := by
  rw [viewOf_eq hr hva, leaf, hw]

theorem clearDemandPage_refines (h : UserTrees pf.toRam roots m) (hr : r ∈ roots)
    (hclear : validVAddr va = true → ClearPath pf.toRam m r (path va)) :
    Refines pf.toRam roots m (.clearDemandPage r va) := by
  by_cases hva : validVAddr va = true ∧ va % 4096 = 0
  · have hguard : (validVAddr va && decide (va % 4096 = 0)) = true := by simpa using hva
    have hl3 := l3Table_of_clear (hclear hva.1)
    -- a page without a marker stays as it is
    have hsame : clearDemandPage m r va = (true, m) → (viewOf pf.toRam roots m r (va / 4096)).demand = none →
        Refines pf.toRam roots m (.clearDemandPage r va) := by
      intro hset hno
      refine ⟨by simpa only [pageExec, hset] using h, ?_⟩
      rw [mapExec, if_pos hva, clear_of_demand_none hno, PageMaps.put_self, pageExec, hset]
    cases hw : walk (userTable pf.toRam) m.mem r (path va) with
    | none =>
      refine hsame (by simp [clearDemandPage, hguard, hl3, hw]) ?_
      rw [view_of_missing hr hva.1 hw]
      rfl
    | some l3 =>
      have hview := view_of_table hr hva.1 hw
      have hdemand := demand_entryOf (m.peek l3 (l3Index va))
      rw [← hview] at hdemand
      cases hd : descToPageInfo (m.peek l3 (l3Index va)) with
      | some info => exact hsame (by simp [clearDemandPage, hguard, hl3, hw, hd]) (by rw [hdemand, hd])
      | none =>
        by_cases hm : isDemandDesc (m.peek l3 (l3Index va)) = true
        · have hset : clearDemandPage m r va = (true, m.poke l3 (l3Index va) 0) := by
            simp [clearDemandPage, hguard, hl3, hw, hd, hm]
          have hwrite := h.sets (sets_poke h.forest ⟨hr, index_lt va, by simp [path], hw⟩ 0)
          simp only [hd, hm, if_true] at hdemand
          refine ⟨by simpa only [pageExec, hset] using hwrite.trees, ?_⟩
          rw [mapExec, if_pos hva, clear_of_demand hdemand, pageExec, hset, hwrite.view hr hva.1]
          rfl
        · exact hsame (by simp [clearDemandPage, hguard, hl3, hw, hd, hm]) (by rw [hdemand, hd, if_neg hm])
  · have hguard : ¬ (validVAddr va && decide (va % 4096 = 0)) = true := by simpa using hva
    have hset : clearDemandPage m r va = (false, m) := by rw [clearDemandPage, if_neg hguard]
    refine ⟨by simpa only [pageExec, hset] using h, ?_⟩
    rw [mapExec, if_neg hva, pageExec, hset]

theorem setPage_none_of_missing (hva : validVAddr va = true) (h : l3Table m r va = none) :
    setPage m r va none = (true, m) := by
  unfold l3Table at h
  simp only [setPage, hva, if_true]
  cases h0 : tableFromDesc (m.peek r (l0Index va)) with
  | none => rfl
  | some l1 =>
    dsimp only
    cases h1 : tableFromDesc (m.peek l1 (l1Index va)) with
    | none => rfl
    | some l2 =>
      simp only [h0, h1] at h
      simp only [h]

/-- The walk to an L3 table passes the L2 table. -/
theorem walk_path {ram : Ram} {l3 : ℕ} (h : walk (userTable ram) m.mem r (path va) = some l3) :
    ∃ l1 l2, tableFromDesc (m.peek r (l0Index va)) = some l1 ∧ tableFromDesc (m.peek l1 (l1Index va)) = some l2 ∧
      walk (userTable ram) m.mem r [l0Index va, l1Index va] = some l2 ∧
      userTable ram (m.peek l2 (l2Index va)) = some l3 := by
  obtain ⟨l1, h0, h⟩ := Option.bind_eq_some_iff.mp h
  obtain ⟨l2, h1, h⟩ := Option.bind_eq_some_iff.mp h
  obtain ⟨l3', h2, h⟩ := Option.bind_eq_some_iff.mp h
  obtain rfl : l3' = l3 := Option.some.inj h
  refine ⟨l1, l2, tableFromDesc_of_userTable h0, tableFromDesc_of_userTable h1, ?_, h2⟩
  simp only [walk, h0, h1, Option.bind_some]

/-- Unmapping a page writes its leaf, and takes the L3 table out when no entry is left in it. -/
lemma setPage_none_of_page {info : PageInfo} {l1 l2 l3 : ℕ} (hva : validVAddr va = true)
    (h0 : tableFromDesc (m.peek r (l0Index va)) = some l1) (h1 : tableFromDesc (m.peek l1 (l1Index va)) = some l2)
    (h2 : tableFromDesc (m.peek l2 (l2Index va)) = some l3) (hd : descToPageInfo (m.peek l3 (l3Index va)) = some info) :
    setPage m r va none = (true, if isEmptyTable (m.poke l3 (l3Index va) 0) l3 = true then
      freePage l3 ((m.poke l3 (l3Index va) 0).poke l2 (l2Index va) 0) else m.poke l3 (l3Index va) 0) := by
  simp only [setPage, hva, h0, h1, h2, hd, if_true]
  split_ifs <;> rfl

/-- A page of an address space was unmapped. -/
structure Unmaps (pf : Platform) (roots : Set ℕ) (r va : ℕ) (m m' : Memory) : Prop where
  spaces : Spaces pf roots m'
  leaf_self : leaf pf.toRam m' r va = 0
  leaf_other : ∀ {r' va'}, r' ∈ roots → ¬ (r' = r ∧ SamePage va' va) → leaf pf.toRam m' r' va' = leaf pf.toRam m r' va'
  pool : ∀ p ∈ m'.pool, p ∈ m.pool ∨ ∃ r' js, TableAt pf.toRam m roots r' js p
  tables : ∀ {r' js q}, TableAt pf.toRam m' roots r' js q → TableAt pf.toRam m roots r' js q
  upper : ∀ {r' js q}, js.length < 3 → TableAt pf.toRam m roots r' js q → TableAt pf.toRam m' roots r' js q

theorem Spaces.unmap {roots : Set ℕ} (h : Spaces pf roots m) (hr : r ∈ roots) {info : PageInfo}
    (hp : userPage pf.toRam m r va = some info) :
    ∃ m', VirtualMemory.setPage m r va none = (true, m') ∧ Unmaps pf roots r va m m' := by
  have hva := userPage_valid hp
  obtain ⟨l3, hw, hd⟩ := userPage_table hp
  obtain ⟨l1, l2, h0, h1, hl2, h2⟩ := walk_path hw
  have htab : TableAt pf.toRam m roots r (path va) l3 := ⟨hr, index_lt va, by simp [path], hw⟩
  have hsets := sets_poke h.forest htab 0
  have htables : ∀ {r' js q}, TableAt pf.toRam (m.poke l3 (l3Index va) 0) roots r' js q ↔ TableAt pf.toRam m roots r' js q := by
    intro r' js q
    rw [hsets.tables]
    simp
  have hspaces : Spaces pf roots (m.poke l3 (l3Index va) 0) := by
    refine h.sets hsets fun info hinfo => ?_
    rw [show (0 : Desc) = 0#64 from rfl, descToPageInfo_zero] at hinfo
    cases hinfo
  refine ⟨_, setPage_none_of_page hva h0 h1 (tableFromDesc_of_userTable h2) hd, ?_⟩
  split_ifs with hempty
  · have hstand : TableAt pf.toRam m roots r [l0Index va, l1Index va] l2 :=
      ⟨hr, fun i hi => index_lt va i (List.mem_append_left [l2Index va] hi), by simp, hl2⟩
    have hstand' := htables.mpr hstand
    have hl2' : l2Index va < 512 := index_lt va _ (by simp [path])
    have hslot : userTable pf.toRam ((m.poke l3 (l3Index va) 0).peek l2 (l2Index va)) = some l3 :=
      (h.forest.leaf_write htab (by simp [path]) (l3Index_lt va) 0 hstand (by simp) hl2').trans h2
    obtain ⟨-, hleaves⟩ := hspaces.userTrees.prune hstand' rfl hl2' hslot hempty
    have hstands : ∀ {r' js q}, TableAt pf.toRam (freePage l3 ((m.poke l3 (l3Index va) 0).poke l2 (l2Index va) 0)) roots r' js q ↔
        TableAt pf.toRam (m.poke l3 (l3Index va) 0) roots r' js q ∧ q ≠ l3 :=
          prune_stands hspaces.userTrees hstand' rfl hl2' hslot
    refine ⟨hspaces.prune hstand' rfl hl2' hslot hempty, (hleaves hr).trans hsets.leaf_self,
      fun hr' hne => (hleaves hr').trans (hsets.leaf_other hr' hne), ?_, fun hq => htables.mp (hstands.mp hq).1, ?_⟩
    · intro p hp
      obtain rfl | hp := List.mem_cons.mp hp
      · exact .inr ⟨r, _, htab⟩
      · exact .inl hp
    · intro r' js q hlt hq
      refine hstands.mpr ⟨htables.mpr hq, ?_⟩
      rintro rfl
      have := (h.forest.unique hq htab).2
      simp [this, path] at hlt
  · exact ⟨hspaces, hsets.leaf_self, hsets.leaf_other, fun p hp => .inl hp, fun hq => htables.mp hq,
      fun _ hq => htables.mpr hq⟩

/-- Unmapping a page unmaps it in the map. -/
theorem unmap_refines (h : UserTrees pf.toRam roots m) (hr : r ∈ roots)
    (hclear : validVAddr va = true → ClearPath pf.toRam m r (path va)) :
    Refines pf.toRam roots m (.setPage r va none) := by
  by_cases hva : validVAddr va = true
  · have hl3 := l3Table_of_clear (hclear hva)
    have hsame : setPage m r va none = (true, m) → (viewOf pf.toRam roots m r (va / 4096)).page = none →
        Refines pf.toRam roots m (.setPage r va none) := by
      intro hset hno
      refine ⟨by simpa only [pageExec, Option.map_none, hset] using h, ?_⟩
      rw [mapExec, if_pos hva, unmap_of_page_none hno, PageMaps.put_self, pageExec, Option.map_none, hset]
    cases hw : walk (userTable pf.toRam) m.mem r (path va) with
    | none =>
      refine hsame (setPage_none_of_missing hva (hl3.trans hw)) ?_
      rw [view_of_missing hr hva hw]
      rfl
    | some l3 =>
      obtain ⟨l1, l2, h0, h1, hl2, h2⟩ := walk_path hw
      have h2' := tableFromDesc_of_userTable h2
      have hpage := page_entryOf (m.peek l3 (l3Index va))
      rw [← view_of_table hr hva hw] at hpage
      cases hd : descToPageInfo (m.peek l3 (l3Index va)) with
      | none => exact hsame (by simp only [setPage, hva, h0, h1, h2', hd, if_true]) (hpage.trans hd)
      | some info =>
        have htab : TableAt pf.toRam m roots r (path va) l3 := ⟨hr, index_lt va, by simp [path], hw⟩
        have hsets := sets_poke h.forest htab 0
        have hpoke := h.sets hsets
        -- what the call leaves is a memory with this leaf cleared
        have hwrite : ∃ m', setPage m r va none = (true, m') ∧ Writes pf.toRam roots r va 0 m m' := by
          refine ⟨_, setPage_none_of_page hva h0 h1 h2' hd, ?_⟩
          split_ifs with hempty
          · have hstand : TableAt pf.toRam m roots r [l0Index va, l1Index va] l2 :=
              ⟨hr, fun i hi => index_lt va i (List.mem_append_left [l2Index va] hi), by simp, hl2⟩
            have hstand' := hsets.tables.mpr (.inl hstand)
            have hl2' : l2Index va < 512 := index_lt va _ (by simp [path])
            refine hpoke.keeps (hpoke.trees.prune hstand' rfl hl2' ?_ hempty) hr
            exact (h.forest.leaf_write htab (by simp [path]) (l3Index_lt va) 0 hstand (by simp) hl2').trans h2
          · exact hpoke
        obtain ⟨m', hset, hw'⟩ := hwrite
        refine ⟨by simpa only [pageExec, Option.map_none, hset] using hw'.trees, ?_⟩
        rw [mapExec, if_pos hva, unmap_of_page (hpage.trans hd), pageExec, Option.map_none, hset, hw'.view hr hva]
        rfl
  · have hset : setPage m r va none = (false, m) := by simp [setPage, hva]
    exact ⟨by simpa only [pageExec, Option.map_none, hset] using h, by simp [mapExec, pageExec, hset, hva]⟩

end Calls

section Runs

variable {pf : Platform} {roots : Finset ℕ} {m : Memory}

theorem op_refines {op : MapOp} (h : UserTrees pf.toRam roots m) (hr : op.root ∈ roots)
    (hno : validVAddr op.address = true → readsBlock m op.root (path op.address) = false) :
    Refines pf.toRam roots m op := by
  have hclear : validVAddr op.address = true → ClearPath pf.toRam m op.root (path op.address) :=
    fun hva => h.clear hr hva (hno hva)
  cases op with
  | getPage r va => exact getPage_refines h hr hclear
  | setPage r va info =>
    cases info with
    | none => exact unmap_refines h hr hclear
    | some info => exact setPage_refines h hr hclear info
  | getDemandPage r va => exact getDemandPage_refines h hr hclear
  | setDemandPage r va writable => exact setDemandPage_refines h hr hclear writable
  | clearDemandPage r va => exact clearDemandPage_refines h hr hclear

theorem mapStep_refines {w w' : MapWorld} {op : MapOp} (h : UserTrees pf.toRam roots w.memory)
    (hcalls : Explains (viewOf pf.toRam roots m) w.calls (viewOf pf.toRam roots w.memory))
    (hstep : mapStep pf.toRam roots w op = some w') : UserTrees pf.toRam roots w'.memory ∧
      Explains (viewOf pf.toRam roots m) w'.calls (viewOf pf.toRam roots w'.memory) := by
  unfold mapStep at hstep
  split_ifs at hstep with hguard
  obtain rfl := Option.some.inj hstep
  obtain ⟨htrees, hexec⟩ := op_refines h hguard.1 hguard.2
  have hcall := hcalls.call op (roomFor pf.toRam w.memory op)
  rw [hexec] at hcall
  exact ⟨htrees, hcall⟩

/-- Every history of calls is one of the map. -/
theorem page_maps_refine {ops : List MapOp} {w : MapWorld} (h : UserTrees pf.toRam roots m)
    (hrun : run (mapStep pf.toRam roots) ⟨m, []⟩ ops = some w) :
    Explains (viewOf pf.toRam roots m) w.calls (viewOf pf.toRam roots w.memory) := by
  have hinv := run_invariant (G := fun _ _ => True)
    (I := fun w => UserTrees pf.toRam roots w.memory ∧
      Explains (viewOf pf.toRam roots m) w.calls (viewOf pf.toRam roots w.memory))
    (fun _ _ _ hw _ hstep => mapStep_refines hw.1 hw.2 hstep) ⟨h, .start⟩ (along_of_forall (fun _ _ => trivial) _ ops) hrun
  exact hinv.2

end Runs

/-- One root and three free pages. -/
def tightMemory : Memory := (allocPageMap samplePlatform { sampleBoot with pool := sampleBoot.pool.take 6 }).2

lemma tightMemory_trees : UserTrees samplePlatform.toRam ({0x50000000} : Finset ℕ) tightMemory := by
  have hboot : Spaces samplePlatform ∅ { sampleBoot with pool := sampleBoot.pool.take 6 } :=
    sampleBoot_spaces.take (List.take_sublist 6 _)
  have hroot : (allocPageMap samplePlatform { sampleBoot with pool := sampleBoot.pool.take 6 }).1 = some 0x50000000 := by
    decide +kernel
  have htrees := (hboot.allocPageMap hroot).spaces.userTrees
  rwa [insert_empty_eq, ← Finset.coe_singleton] at htrees

def tightPage : UserPage := ⟨⟨0x58000000#64, true, false, true, false⟩, by decide⟩

/-- A page is set and read back, a marker far from it takes the last two pages, and then there is none for a
page elsewhere until the first one is unmapped. -/
theorem page_maps_refine_tight : ∃ w, run (mapStep samplePlatform.toRam {0x50000000}) ⟨tightMemory, []⟩
      [.setPage 0x50000000 0x01000000 (some tightPage), .getPage 0x50000000 0x01000abc,
        .setDemandPage 0x50000000 (7*2^30) true, .setDemandPage 0x50000000 0x01000000 false,
        .setPage 0x50000000 0x02000000 (some tightPage), .setPage 0x50000000 0x01000000 none,
        .setPage 0x50000000 0x02000000 (some tightPage), .getDemandPage 0x50000000 (7*2^30)] = some w ∧
    w.calls.map (·.2.2) = [.demand (some true), .done true, .done true, .done false, .done false, .done true,
      .page (some tightPage), .done true] ∧
    Explains (viewOf samplePlatform.toRam {0x50000000} tightMemory) w.calls
      (viewOf samplePlatform.toRam {0x50000000} w.memory) := by
  have hsome : ((run (mapStep samplePlatform.toRam {0x50000000}) ⟨tightMemory, []⟩
      [.setPage 0x50000000 0x01000000 (some tightPage), .getPage 0x50000000 0x01000abc,
        .setDemandPage 0x50000000 (7*2^30) true, .setDemandPage 0x50000000 0x01000000 false,
        .setPage 0x50000000 0x02000000 (some tightPage), .setPage 0x50000000 0x01000000 none,
        .setPage 0x50000000 0x02000000 (some tightPage), .getDemandPage 0x50000000 (7*2^30)]).map
          fun w => w.calls.map (·.2.2)) = some [.demand (some true), .done true, .done true, .done false, .done false,
            .done true, .page (some tightPage), .done true] := by decide +kernel
  obtain ⟨w, hw, hanswers⟩ := Option.map_eq_some_iff.mp hsome
  exact ⟨w, hw, hanswers, page_maps_refine tightMemory_trees hw⟩

end HouseKernel.VirtualMemory
