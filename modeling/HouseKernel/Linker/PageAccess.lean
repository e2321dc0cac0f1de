import Mathlib.Data.List.ReduceOption
import HouseKernel.Linker.Dependencies
import HouseKernel.Linker.Placement

/-! The access that the planner gives to the pages of an object once it is relocated. A page of the
read-only-after-relocation range is read-only; every other page is as its segment has it. -/
namespace HouseKernel.Linker

open HouseKernel.Lib HouseKernel.Loader

inductive PageAccess where
  | pageRO
  | pageRW
  deriving DecidableEq, Repr

def alignUpPageChecked (label : String) (value : ℕ) : Link ℕ := alignUpChecked label value pageSize

/-- The pages of a range. The pages from `relroStart` up to `relroEnd` are read-only in any case. -/
def pageEntriesFor (relroStart relroEnd : ℕ) (range : ℕ × ℕ × Bool) : List (ℕ × PageAccess) :=
  (List.range ((range.2.1 - range.1) / pageSize)).map fun i =>
    let address := range.1 + i*pageSize
    (address, if address ≥ relroStart ∧ address < relroEnd then .pageRO else if range.2.2 then .pageRW else .pageRO)

def validateUniquePages (name : String) : List (ℕ × PageAccess) → Link Unit
  | [] => pure ()
  | [_] => pure ()
  | first :: second :: rest =>
    if first.1 ≥ second.1 then badLink (name ++ " mapped pages overlap") else validateUniquePages name (second :: rest)

def addPageCount (total : ℕ) (range : ℕ × ℕ × Bool) : Link ℕ :=
  checkedAdd "planned page count" total ((range.2.1 - range.1) / pageSize)

def sortEntries (entries : List (ℕ × PageAccess)) : List (ℕ × PageAccess) := entries.insertionSort fun a b => a.1 ≤ b.1

/-- The final access of every page of an object. -/
def plannedPageAccess (placed : PlacedObject) (elf : Elf) : Link (List (ℕ × PageAccess)) := do
  let name := placed.name
  require (elf.segs ≠ []) (name ++ " has no PT_LOAD")
  require (placed.pages ≤ maxObjectPages) (name ++ " exceeds object page cap")
  let ranges ← mapAll (segmentPageRange name placed.base) elf.segs
  let mappedRanges := ranges.reduceOption
  require (mappedRanges ≠ []) (name ++ " has no mapped pages")
  let totalPages ← foldAll addPageCount 0 mappedRanges
  require (totalPages = placed.pages) (name ++ " page count mismatch")
  let relro ← match elf.relro with
    | none => badLink (name ++ " has no RELRO")
    | some range => pure range
  require (relro.stop > relro.start) (name ++ " has empty RELRO")
  require (elf.segs.any (containsRelro relro)) (name ++ " RELRO outside LOAD")
  let relroStart ← checkedAdd (name ++ " RELRO start") placed.base relro.start
  let relroEnd ← checkedAdd (name ++ " RELRO end") placed.base relro.stop
  require (relroEnd ≤ maxUserEnd) (name ++ " RELRO exceeds 4GiB user window")
  let relroFirstPage := floorPage relroStart
  let relroEndPage ← alignUpPageChecked (name ++ " RELRO end") relroEnd
  let sortedEntries := sortEntries (mappedRanges.flatMap (pageEntriesFor relroFirstPage relroEndPage))
  validateUniquePages name sortedEntries
  match sortedEntries with
  | [] => badLink (name ++ " has no mapped pages")
  | (firstPage, _) :: _ => require (firstPage = placed.base) (name ++ " does not start at object base")
  pure sortedEntries

/-- The entries are those of the ranges of the segments, sorted. -/
lemma plannedPageAccess_entries {placed : PlacedObject} {elf : Elf} {acc : List (ℕ × PageAccess)}
    (h : plannedPageAccess placed elf = .ok acc) : ∃ ranges start stop,
      mapAll (segmentPageRange placed.name placed.base) elf.segs = .ok ranges ∧
        acc = sortEntries (ranges.reduceOption.flatMap (pageEntriesFor start stop)) := by
  simp only [plannedPageAccess, bind_ok] at h
  obtain ⟨_, -, _, -, ranges, hranges, _, -, _, -, _, -, h⟩ := h
  cases hrelro : elf.relro with
  | none =>
    rw [hrelro] at h
    cases h
  | some relro =>
    rw [hrelro] at h
    simp only [pure_ok, bind_ok] at h
    obtain ⟨_, rfl, _, -, _, -, start, -, last, -, _, -, stop, -, _, -, h⟩ := h
    refine ⟨ranges, floorPage start, stop, hranges, ?_⟩
    split at h
    · cases h
    · obtain ⟨_, -, h⟩ := bind_ok.mp h
      exact (Except.ok.inj h).symm

/-- The first page of a segment that has memory, the end of its last one, and whether it is writable. -/
def coveredRange (base : ℕ) (s : Segment) : Option (ℕ × ℕ × Bool) :=
  if s.memSz = 0 then none
  else some (floorPage (base + s.vaddr), floorPage (base + s.vaddr + wordOfInt s.memSz - 1) + pageSize, s.flags &&& pfWrite ≠ 0)

/-- A segment whose sizes agree and that ends in the user window. The size in memory is an `Int`. -/
structure FitsAt (base : ℕ) (s : Segment) : Prop where
  file : 0 ≤ s.fileSz ∧ s.fileSz ≤ s.memSz
  size : s.memSz < 2^63
  stop : base + s.vaddr + wordOfInt s.memSz ≤ maxUserEnd

/-- The first page boundary from `value` on. -/
def roundPage (value : ℕ) : ℕ := (value + (pageSize - 1)) / pageSize * pageSize

/-- The entries of one segment. -/
def segmentEntries (base : ℕ) (relro : RelroRange) (s : Segment) : List (ℕ × PageAccess) :=
  (coveredRange base s).toList.flatMap (pageEntriesFor (floorPage (base + relro.start)) (roundPage (base + relro.stop)))

section Segments

variable {base : ℕ} {s : Segment} {name label : String} {relro : RelroRange}

lemma checkedAdd_eq {a b : ℕ} (h : a + b < 2^64) : checkedAdd label a b = .ok (a + b) := by
  rw [checkedAdd, if_neg (by omega)]

lemma require_eq {p : Prop} [Decidable p] (h : p) (msg : String) : require p msg = .ok () := by
  rw [require, check, if_pos h]

lemma floorPage_le (n : ℕ) : floorPage n ≤ n := Nat.sub_le _ _

lemma FitsAt.memSz (h : FitsAt base s) : wordOfInt s.memSz = s.memSz.toNat := by
  have h1 := h.file
  have h2 := h.size
  rw [wordOfInt, Int.emod_eq_of_lt (by omega) (by omega)]

theorem segmentPageRange_eq (h : FitsAt base s) : segmentPageRange name base s = .ok (coveredRange base s) := by
  have hfile := h.file
  have hstop := h.stop
  have hfloor := floorPage_le (base + s.vaddr + wordOfInt s.memSz - 1)
  have hwindow : maxUserEnd = 2^32 := rfl
  rw [segmentPageRange, require_eq (by omega), require_eq hfile.2, checkedAdd_eq (by omega), coveredRange]
  change (checkedAdd _ (base + s.vaddr) (wordOfInt s.memSz) >>= _) = _
  rw [checkedAdd_eq (by omega)]
  change (require _ _ >>= _) = _
  rw [require_eq hstop]
  change (if s.memSz = 0 then _ else _) = _
  split_ifs with hzero
  · rfl
  · rw [checkedAdd_eq (by unfold pageSize; omega)]
    rfl

/-- A segment with memory, its range and its pages. -/
lemma coveredRange_cases (h : FitsAt base s) : (coveredRange base s = none ∧ segmentPages base s = []) ∨
    ∃ first count, segmentPages base s = List.range' first count ∧ 0 < count ∧ base + s.vaddr < (first + 1) * pageSize ∧
      coveredRange base s = some (first * pageSize, (first + count) * pageSize, decide (s.flags &&& pfWrite ≠ 0)) := by
  have hfile := h.file
  have hmem := h.memSz
  by_cases hzero : s.memSz = 0
  · left
    rw [coveredRange, if_pos hzero, segmentPages, if_pos (by rw [hmem, hzero]; rfl)]
    exact ⟨rfl, rfl⟩
  · right
    have hpos : 0 < wordOfInt s.memSz := by omega
    rw [coveredRange, if_neg hzero, segmentPages, if_neg hpos.ne']
    refine ⟨_, _, rfl, Nat.succ_pos _, ?_, ?_⟩
    · unfold pageSize
      omega
    · unfold floorPage pageSize
      congr 2
      · omega
      · congr 1
        omega

/-- The pages of the entries are the pages under the segment. -/
lemma segmentEntries_pages (h : FitsAt base s) :
    (segmentEntries base relro s).map Prod.fst = (segmentPages base s).map (· * pageSize) := by
  obtain ⟨hnone, hpages⟩ | ⟨first, count, hpages, -, -, hsome⟩ := coveredRange_cases h
  · rw [segmentEntries, hnone, hpages]
    rfl
  · rw [segmentEntries, hsome, hpages, Option.toList_some, List.flatMap_singleton, pageEntriesFor, List.range'_eq_map_range,
      List.map_map, List.map_map]
    have hcount : ((first + count) * pageSize - first * pageSize) / pageSize = count := by
      rw [← Nat.sub_mul, Nat.add_sub_cancel_left, Nat.mul_div_cancel _ (by decide)]
    rw [hcount]
    refine List.map_congr_left fun i _ => ?_
    simp only [Function.comp_apply, Nat.add_mul]

/-- An entry is writable where the segment is and the page does not meet the range. -/
lemma segmentEntries_access (h : FitsAt base s) {e : ℕ × PageAccess} (he : e ∈ segmentEntries base relro s) :
    e.2 = .pageRW ↔ s.flags &&& pfWrite ≠ 0 ∧ ¬ (floorPage (base + relro.start) ≤ e.1 ∧ e.1 < roundPage (base + relro.stop)) := by
  obtain ⟨hnone, -⟩ | ⟨first, count, -, -, -, hsome⟩ := coveredRange_cases h
  · rw [segmentEntries, hnone] at he
    cases he
  · rw [segmentEntries, hsome, Option.toList_some, List.flatMap_singleton, pageEntriesFor] at he
    obtain ⟨i, -, rfl⟩ := List.mem_map.mp he
    dsimp only
    split_ifs with h1 h2
    · simp [h1]
    · simpa [h1] using h2
    · simpa [h1] using h2

lemma reduceOption_flatMap {α β γ : Type} (f : α → Option β) (g : β → List γ) (as : List α) :
    (as.map f).reduceOption.flatMap g = as.flatMap fun a => (f a).toList.flatMap g := by
  induction as with
  | nil => rfl
  | cons a as ih =>
    rw [List.map_cons, List.flatMap_cons, ← ih]
    cases f a with
    | none => rfl
    | some b => rw [List.reduceOption_cons_of_some, List.flatMap_cons, Option.toList_some, List.flatMap_singleton]

lemma foldAll_checkedAdd {α : Type} {f : α → ℕ} {as : List α} {start : ℕ} (h : start + (as.map f).sum < 2^64) :
    foldAll (fun total a => checkedAdd label total (f a)) start as = .ok (start + (as.map f).sum) := by
  induction as generalizing start with
  | nil => rfl
  | cons a as ih =>
    rw [List.map_cons, List.sum_cons] at h ⊢
    rw [foldAll, checkedAdd_eq (by omega)]
    change foldAll _ (start + f a) as = _
    rw [ih (by omega), Nat.add_assoc]

lemma validateUniquePages_ok {entries : List (ℕ × PageAccess)} :
    validateUniquePages name entries = .ok () ↔ entries.Pairwise fun a b => a.1 < b.1 := by
  induction entries using validateUniquePages.induct with
  | case1 => simp [validateUniquePages, pure, Except.pure]
  | case2 => simp [validateUniquePages, pure, Except.pure]
  | case3 first second rest hle =>
    rw [validateUniquePages, if_pos hle]
    refine iff_of_false (fun h => by cases h) fun h => ?_
    exact absurd (List.rel_of_pairwise_cons h List.mem_cons_self) (Nat.not_lt.mpr hle)
  | case4 first second rest hlt ih =>
    rw [validateUniquePages, if_neg hlt, ih, List.pairwise_cons (a := first)]
    refine ⟨fun h => ⟨fun e he => ?_, h⟩, fun h => h.2⟩
    have hfirst : first.1 < second.1 := Nat.not_le.mp hlt
    obtain rfl | he := List.mem_cons.mp he
    · exact hfirst
    · exact hfirst.trans (List.rel_of_pairwise_cons h he)

end Segments

/-- A sorted list is strictly ascending where the list had nothing twice. -/
lemma sorted_nodup {as : List ℕ} : (as.insertionSort (· ≤ ·)).Pairwise (· < ·) ↔ as.Nodup := by
  have hperm := List.perm_insertionSort (· ≤ ·) as
  constructor
  · intro h
    exact hperm.nodup_iff.mp (h.imp fun hlt => hlt.ne)
  · intro h
    have hsorted := List.pairwise_insertionSort (· ≤ ·) as
    exact (hsorted.and (hperm.nodup_iff.mpr h)).imp fun hab => lt_of_le_of_ne hab.1 hab.2

/-- What the plan has checked of an object that it places. -/
structure Admitted (p : PlannedObject) (relro : RelroRange) : Prop where
  aligned : p.base % pageSize = 0
  fits : ∀ s ∈ p.elf.segs, FitsAt p.base s
  counted : p.pages = (objectPages p).length
  cap : p.pages ≤ maxObjectPages
  present : p.elf.relro = some relro
  range : relro.start < relro.stop
  inside : p.elf.segs.any (containsRelro relro) = true

/-- The entries of an object, in the order of its segments. -/
def objectEntries (p : PlannedObject) (relro : RelroRange) : List (ℕ × PageAccess) :=
  p.elf.segs.flatMap (segmentEntries p.base relro)

section Object

variable {p : PlannedObject} {relro : RelroRange} {acc : List (ℕ × PageAccess)}

lemma Admitted.entries_pages (h : Admitted p relro) :
    (objectEntries p relro).map Prod.fst = (objectPages p).map (· * pageSize) := by
  rw [objectEntries, objectPages, List.map_flatMap, List.map_flatMap]
  exact List.flatMap_congr fun s hs => segmentEntries_pages (h.fits s hs)

/-- Sorting leaves the pages sorted. -/
lemma sortEntries_pages (entries : List (ℕ × PageAccess)) :
    (sortEntries entries).map Prod.fst = (entries.map Prod.fst).insertionSort (· ≤ ·) :=
  List.map_insertionSort _ _ _ _ fun _ _ _ _ => Iff.rfl

/-- The planner counts the same pages as when it placed the object. -/
lemma Admitted.totalPages (h : Admitted p relro) :
    foldAll addPageCount 0 (p.elf.segs.map (coveredRange p.base)).reduceOption = .ok p.pages := by
  have hsum : ((p.elf.segs.map (coveredRange p.base)).reduceOption.map fun r => (r.2.1 - r.1) / pageSize).sum =
      (objectPages p).length := by
    have hfits := h.fits
    unfold objectPages
    generalize p.elf.segs = segs at hfits
    induction segs with
    | nil => rfl
    | cons s segs ih =>
      rw [List.flatMap_cons, List.length_append, ← ih fun t ht => hfits t (List.mem_cons_of_mem _ ht), List.map_cons]
      obtain ⟨hnone, hpages⟩ | ⟨first, count, hpages, -, -, hsome⟩ := coveredRange_cases (hfits s List.mem_cons_self)
      · rw [hnone, hpages, List.reduceOption_cons_of_none, List.length_nil, Nat.zero_add]
      · rw [hsome, hpages, List.reduceOption_cons_of_some, List.map_cons, List.sum_cons, List.length_range', ← Nat.sub_mul,
          Nat.add_sub_cancel_left, Nat.mul_div_cancel _ (by decide)]
  have hcap := h.cap
  have hcounted := h.counted
  unfold maxObjectPages at hcap
  have hfold := @foldAll_checkedAdd "planned page count" _ (fun r : ℕ × ℕ × Bool => (r.2.1 - r.1) / pageSize)
    (p.elf.segs.map (coveredRange p.base)).reduceOption 0 (by omega)
  rw [hsum, Nat.zero_add, ← hcounted] at hfold
  exact hfold

lemma alignUpPage_eq {label : String} {value : ℕ} (h : value ≤ maxUserEnd) :
    alignUpPageChecked label value = .ok (roundPage value) := by
  unfold maxUserEnd at h
  unfold alignUpPageChecked alignUpChecked roundPage pageSize
  split_ifs with hmod
  · congr 1
    omega
  · rw [checkedAdd_eq (by omega)]
    congr 1
    omega

/-- The range ends in the user window, as the segment does that it is part of. -/
lemma Admitted.relro_stop (h : Admitted p relro) : p.base + relro.stop ≤ maxUserEnd := by
  obtain ⟨s, hs, hin⟩ := List.any_eq_true.mp h.inside
  have hstop := (h.fits s hs).stop
  rw [containsRelro, Bool.and_eq_true] at hin
  have hend : relro.stop ≤ segEnd s := of_decide_eq_true hin.2
  have hle : segEnd s ≤ s.vaddr + wordOfInt s.memSz := Nat.mod_le _ _
  omega

/-- No page of the object lies below its base. -/
lemma objectPages_ge {page : ℕ} (hpage : page ∈ objectPages p) : p.base / pageSize ≤ page := by
  obtain ⟨s, -, hin⟩ := List.mem_flatMap.mp hpage
  exact (Nat.div_le_div_right (Nat.le_add_right _ _)).trans (mem_segmentPages.mp hin).2.1

/-- The planner gives access to the pages of an object where no two segments share a page and one of them
begins in the first page of the object. -/
theorem Admitted.plannedPageAccess_ok (h : Admitted p relro) : plannedPageAccess p.toPlacedObject p.elf = .ok acc ↔
    acc = sortEntries (objectEntries p relro) ∧ (objectPages p).Nodup ∧ p.base / pageSize ∈ objectPages p := by
  have hranges : mapAll (segmentPageRange p.name p.base) p.elf.segs = .ok (p.elf.segs.map (coveredRange p.base)) := by
    rw [mapAll_ok, List.forall₂_map_right_iff, List.forall₂_same]
    exact fun s hs => segmentPageRange_eq (h.fits s hs)
  have hstop := h.relro_stop
  have hrange := h.range
  have hwindow : maxUserEnd = 2^32 := rfl
  have hentries : (p.elf.segs.map (coveredRange p.base)).reduceOption.flatMap
      (pageEntriesFor (floorPage (p.base + relro.start)) (roundPage (p.base + relro.stop))) = objectEntries p relro :=
    reduceOption_flatMap _ _ _
  -- all checks before the last ones are those of the plan
  have hreduce : plannedPageAccess p.toPlacedObject p.elf = (do
      require (p.elf.segs ≠ []) (p.name ++ " has no PT_LOAD")
      require ((p.elf.segs.map (coveredRange p.base)).reduceOption ≠ []) (p.name ++ " has no mapped pages")
      validateUniquePages p.name (sortEntries (objectEntries p relro))
      match sortEntries (objectEntries p relro) with
      | [] => badLink (p.name ++ " has no mapped pages")
      | (firstPage, _) :: _ => require (firstPage = p.base) (p.name ++ " does not start at object base")
      pure (sortEntries (objectEntries p relro))) := by
    simp only [plannedPageAccess, require_eq h.cap, hranges, h.totalPages, h.present, require_eq hrange, require_eq h.inside,
      @checkedAdd_eq _ p.base relro.start (by omega), @checkedAdd_eq _ p.base relro.stop (by omega), require_eq hstop,
      alignUpPage_eq hstop, hentries, ok_bind, pure, Except.pure, require_eq trivial]
  rw [hreduce]
  have hpages : (sortEntries (objectEntries p relro)).map Prod.fst =
      ((objectPages p).map (· * pageSize)).insertionSort (· ≤ ·) := by
    rw [sortEntries_pages, h.entries_pages]
  have hmem : ∀ a, a ∈ (sortEntries (objectEntries p relro)).map Prod.fst ↔ ∃ page ∈ objectPages p, page * pageSize = a := by
    intro a
    rw [hpages, List.mem_insertionSort, List.mem_map]
  have hbase : p.base / pageSize * pageSize = p.base := Nat.div_mul_cancel (Nat.dvd_of_mod_eq_zero h.aligned)
  have hunique : (sortEntries (objectEntries p relro)).Pairwise (fun a b => a.1 < b.1) ↔ (objectPages p).Nodup := by
    rw [← List.pairwise_map (f := Prod.fst) (R := (· < ·)), hpages, sorted_nodup]
    exact List.nodup_map_iff fun a b hab => Nat.eq_of_mul_eq_mul_right (by decide) hab
  have hsorted : ((sortEntries (objectEntries p relro)).map Prod.fst).Pairwise (· ≤ ·) := by
    rw [hpages]
    exact List.pairwise_insertionSort _ _
  generalize sortEntries (objectEntries p relro) = sorted at *
  simp only [bind_ok]
  constructor
  · rintro ⟨_, -, _, -, _, hvalid, hfirst⟩
    refine ⟨?_, hunique.mp (validateUniquePages_ok.mp hvalid), ?_⟩
    · cases sorted with
      | nil => cases hfirst
      | cons e rest =>
        obtain ⟨_, -, hacc⟩ := bind_ok.mp hfirst
        exact (Except.ok.inj hacc).symm
    · cases sorted with
      | nil => cases hfirst
      | cons e rest =>
        obtain ⟨_, he, -⟩ := bind_ok.mp hfirst
        obtain ⟨page, hpage, heq⟩ := (hmem e.1).mp List.mem_cons_self
        rw [require_ok he, ← hbase] at heq
        rwa [← Nat.eq_of_mul_eq_mul_right (by decide) heq]
  · rintro ⟨rfl, hnodup, hin⟩
    have hsegs : p.elf.segs ≠ [] := by
      intro hnil
      simp [objectPages, hnil] at hin
    have hne : (p.elf.segs.map (coveredRange p.base)).reduceOption ≠ [] := by
      intro hnil
      rw [hnil] at hentries
      have hnone := h.entries_pages
      rw [← hentries] at hnone
      have hmap := List.mem_map_of_mem (f := (· * pageSize)) hin
      rw [← hnone] at hmap
      cases hmap
    refine ⟨(), require_eq hsegs _, (), require_eq hne _, (), validateUniquePages_ok.mpr (hunique.mpr hnodup), ?_⟩
    have hfirst := (hmem p.base).mpr ⟨_, hin, hbase⟩
    cases acc with
    | nil => cases hfirst
    | cons e rest =>
      -- the base is the lowest of all pages
      obtain ⟨page, hpage, heq⟩ := (hmem e.1).mp List.mem_cons_self
      have hge := Nat.mul_le_mul_right pageSize (objectPages_ge hpage)
      have hle : e.1 ≤ p.base := by
        obtain heq | hlater := List.mem_cons.mp hfirst
        · exact heq.ge
        · exact List.rel_of_pairwise_cons hsorted hlater
      exact bind_ok.mpr ⟨(), require_eq (by omega) _, rfl⟩

/-- An entry is writable where a writable segment covers its page and the page does not meet the range. -/
theorem Admitted.access_iff (h : Admitted p relro) (hnodup : (objectPages p).Nodup) {e : ℕ × PageAccess}
    (he : e ∈ objectEntries p relro) : e.2 = .pageRW ↔
      (∃ s ∈ p.elf.segs, s.flags &&& pfWrite ≠ 0 ∧ e.1 ∈ (segmentPages p.base s).map (· * pageSize)) ∧
        ¬ (p.base + relro.start < e.1 + pageSize ∧ e.1 < p.base + relro.stop) := by
  obtain ⟨s, hs, hin⟩ := List.mem_flatMap.mp he
  have hpage : e.1 ∈ (segmentPages p.base s).map (· * pageSize) := by
    rw [← @segmentEntries_pages _ _ relro (h.fits s hs)]
    exact List.mem_map_of_mem hin
  have hmeets : (floorPage (p.base + relro.start) ≤ e.1 ∧ e.1 < roundPage (p.base + relro.stop)) ↔
      (p.base + relro.start < e.1 + pageSize ∧ e.1 < p.base + relro.stop) := by
    obtain ⟨page, -, hpage⟩ := List.mem_map.mp hpage
    unfold floorPage roundPage pageSize at *
    omega
  rw [segmentEntries_access (h.fits s hs) hin, hmeets]
  refine and_congr_left fun _ => ⟨fun hw => ⟨s, hs, hw, hpage⟩, ?_⟩
  rintro ⟨t, ht, hw, hpage'⟩
  -- no other segment covers the page
  have hst : s = t := by
    by_contra hne
    obtain ⟨page, hpage, heq⟩ := List.mem_map.mp hpage
    obtain ⟨page', hpage', heq'⟩ := List.mem_map.mp hpage'
    obtain rfl := Nat.eq_of_mul_eq_mul_right (by decide) (heq.trans heq'.symm)
    have hpair := (List.nodup_flatMap.mp hnodup).2
    have : Std.Symm (Function.onFun List.Disjoint (segmentPages p.base)) := ⟨fun _ _ hd => hd.symm⟩
    exact hpair.forall hs ht hne hpage hpage'
  rwa [hst]

end Object

section Plan

variable {name : String} {elf main : Elf} {deps : ObjectMap} {objs : List (String × Elf)} {cursor total : ℕ}
  {placed : List PlannedObject} {p : PlannedObject}

/-- The sizes of the segments are `Int`s. -/
def Sized (elf : Elf) : Prop := ∀ s ∈ elf.segs, s.memSz < 2^63

/-- The planner counts every page under a segment. -/
lemma objectPageCount_eq {pages : ℕ} (hsized : Sized elf) (h : objectPageCount name elf = .ok pages) :
    pages = (elf.segs.flatMap (segmentPages 0)).length := by
  have hsegs := (objectPageCount_ok h).1
  simp only [objectPageCount, bind_ok] at h
  obtain ⟨-, -, h⟩ := h
  suffices hgo : ∀ (segs : List Segment) (start : ℕ), (∀ s ∈ segs, FitsAt 0 s) →
      foldAll (countPages name) start segs = .ok pages →
      pages = start + (segs.flatMap (segmentPages 0)).length by
    have := hgo _ 0 (fun s hs => ⟨(hsegs s hs).2, hsized s hs, by have := (hsegs s hs).1; omega⟩) h
    rwa [Nat.zero_add] at this
  intro segs
  induction segs with
  | nil =>
    intro start _ h
    obtain rfl := Except.ok.inj h
    simp
  | cons s segs ih =>
    intro start hfits h
    have hs := hfits s List.mem_cons_self
    obtain ⟨next, hnext, hrest⟩ := bind_ok.mp h
    have hlater := ih next (fun t ht => hfits t (List.mem_cons_of_mem _ ht)) hrest
    rw [countPages, segmentPageRange_eq hs, ok_bind] at hnext
    have hadd : next = start + (segmentPages 0 s).length := by
      obtain ⟨hnone, hpages⟩ | ⟨first, count, hpages, -, -, hsome⟩ := coveredRange_cases hs
      · rw [hnone] at hnext
        rw [hpages, ← Except.ok.inj hnext]
        rfl
      · rw [hsome] at hnext
        rw [checkedAdd_ok hnext, hpages, List.length_range', ← Nat.sub_mul, Nat.add_sub_cancel_left,
          Nat.mul_div_cancel _ (by decide)]
    rw [hlater, hadd, List.flatMap_cons, List.length_append, Nat.add_assoc]

lemma validateRuntimeObject_relro {u : Unit} (h : validateRuntimeObject name elf = .ok u) :
    ∃ relro, elf.relro = some relro ∧ relro.start < relro.stop ∧ elf.segs.any (containsRelro relro) = true := by
  simp only [validateRuntimeObject, bind_ok] at h
  obtain ⟨-, -, -, -, -, -, -, -, -, -, -, -, _, hrelro, -⟩ := h
  unfold validateRelro at hrelro
  split at hrelro
  · cases hrelro
  · rename_i relro hsome
    obtain ⟨_, hrange, hinside⟩ := bind_ok.mp hrelro
    exact ⟨relro, hsome, require_ok hrange, require_ok hinside⟩

lemma placeObjects_counted (h : placeObjects objs cursor total = .ok placed) (haligned : cursor % objectAlignment = 0) :
    ∀ p ∈ placed, Sized p.elf → p.pages = (objectPages p).length ∧ p.pages ≤ maxObjectPages := by
  induction objs generalizing cursor total placed with
  | nil =>
    obtain rfl := Except.ok.inj h
    simp
  | cons obj objs ih =>
    obtain ⟨name, elf⟩ := obj
    obtain ⟨pages, rest, rfl, hrest, hpages, hcap, -, -⟩ := placeObjects_cons h
    intro p hp hsized
    obtain rfl | hp := List.mem_cons.mp hp
    · refine ⟨?_, (Nat.le_add_left _ _).trans hcap⟩
      rw [objectPages_length haligned]
      exact objectPageCount_eq hsized hpages
    · exact ih hrest (roundUp_mod _) p hp hsized

/-- Every object of a plan meets what its access is planned from. -/
theorem linkPlaced_admitted (h : linkPlaced main deps = .ok placed) (hp : p ∈ placed) (hsized : Sized p.elf) :
    ∃ relro, Admitted p relro := by
  have hfits := (linkPlaced_fits h).1 p hp
  simp only [linkPlaced, bind_ok] at h
  obtain ⟨_, -, ⟨⟩, hmain, objs, horder, hplace⟩ := h
  obtain ⟨hcounted, hcap⟩ := placeObjects_counted hplace (by decide) p hp hsized
  have hrelro : ∃ relro, p.elf.relro = some relro ∧ relro.start < relro.stop ∧ p.elf.segs.any (containsRelro relro) = true := by
    have hin : (p.name, p.elf) ∈ (mainObjectName, main) :: objs :=
      placeObjects_objects hplace ▸ List.mem_map_of_mem (f := fun p : PlannedObject => (p.name, p.elf)) hp
    obtain heq | hin := List.mem_cons.mp hin
    · obtain ⟨-, rfl⟩ := Prod.mk.inj heq
      simp only [validateMain, bind_ok] at hmain
      obtain ⟨-, -, -, -, hobj⟩ := hmain
      exact validateRuntimeObject_relro hobj
    · obtain ⟨htaken, hlookup⟩ := (dependencyOrder_lists horder).2.2 _ hin
      obtain ⟨elf, helf, hvalid⟩ := refusal_none htaken
      obtain rfl := Option.some.inj (hlookup.symm.trans helf)
      simp only [validateDependency, bind_ok] at hvalid
      obtain ⟨-, -, -, -, -, -, hobj⟩ := hvalid
      exact validateRuntimeObject_relro hobj
  obtain ⟨relro, hpresent, hrange, hinside⟩ := hrelro
  have haligned := hfits.aligned
  refine ⟨relro, ?_, fun s hs => ⟨hfits.sizes s hs, hsized s hs, ?_⟩, hcounted, hcap, hpresent, hrange, hinside⟩
  · unfold objectAlignment at haligned
    unfold pageSize
    omega
  · have hspan := le_span hs
    have hstop := hfits.stop
    omega

end Plan

end HouseKernel.Linker
