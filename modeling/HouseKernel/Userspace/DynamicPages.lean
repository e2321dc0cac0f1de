import HouseKernel.Linker.PageAccess
import HouseKernel.Userspace.ImageMapping

/-! The pages of a dynamic image, as the loader maps them and as the planner gives access to them. The two
come from different computations, and the loader compares them before it sets the final access. -/
namespace HouseKernel.Userspace

open HouseKernel.Lib HouseKernel.Loader HouseKernel.Linker

/-- The plan of a dynamic image, with each object that it places. -/
def prepareDynamicImage (main : Elf) (deps : ObjectMap) : Except LoadError (LinkPlan × List PlannedObject) := do
  check (deps.lookup mainObjectName = none) (.badDyn "dependency name main reserved")
  let plan ← linkDynamic main deps
  let objects ← mapAll (fun placed => match objectOf main deps placed.name with
    | none => .error (.badDyn "prepared dynamic object missing")
    | some elf => .ok (⟨placed, elf⟩ : PlannedObject)) plan.objects
  check (objects.map fun o => o.name).Nodup (.badDyn "duplicate dynamic object name")
  pure (plan, objects)

def plannedAccessFor (o : PlannedObject) : Except LoadError (String × List (ℕ × PageAccess)) := do
  let pages ← plannedPageAccess o.toPlacedObject o.elf
  pure (o.name, pages)

/-- `mapDynamicObjects`: the objects in turn, each with its name and its pages in ascending order. -/
def mapRuntimeObjects (pdir : ℕ) : List PlannedObject → List (String × List ℕ) → MapState →
    Except LoadError (List (String × List ℕ)) × MapState
  | [], mapped, t => (.ok mapped.reverse, t)
  | o :: rest, mapped, t => match mapSegmentsAt pdir o.base o.elf .temporaryRW t with
    | (.error e, t) => (.error e, cleanupPages pdir (mapped.flatMap Prod.snd) t)
    | (.ok pages, t) => mapRuntimeObjects pdir rest ((o.name, pages.insertionSort (· ≤ ·)) :: mapped) t

/-- The objects that are mapped are those that access was planned for, each with the same pages. -/
def verifyDynamicPages (accesses : List (String × List (ℕ × PageAccess))) (mapped : List (String × List ℕ)) :
    Except LoadError Unit := do
  let expectedNames := accesses.map Prod.fst
  let actualNames := mapped.map Prod.fst
  let sameNames := expectedNames.insertionSort (· ≤ ·) = actualNames.insertionSort (· ≤ ·)
  let uniqueNames (names : List String) := names.length = names.dedup.length
  -- of two pages lists of one name, the map of the source keeps the later one
  let sameObjects := ∀ a ∈ accesses, mapped.reverse.lookup a.1 = some (a.2.map Prod.fst)
  let expectedPages := accesses.flatMap fun a => a.2.map Prod.fst
  let actualPages := mapped.flatMap Prod.snd
  check (uniqueNames expectedNames ∧ uniqueNames actualNames ∧ sameNames) (.badDyn "dynamic mapped object set mismatch")
  check sameObjects (.badDyn "dynamic mapped object set mismatch")
  check (expectedPages.insertionSort (· ≤ ·) = actualPages.insertionSort (· ≤ ·)) (.badDyn "dynamic mapped page set mismatch")
  check (expectedPages.length = actualPages.length) (.badDyn "dynamic mapped page count mismatch")

section Mapped

variable {pdir : ℕ} {t : MapState}

/-- A mapping that succeeds has the pages of all parts. -/
lemma mapEach_ok {α : Type} {f : α → MapState → Except LoadError (List ℕ) × MapState} {pages : α → List ℕ} {as : List α}
    (h : ∀ a ∈ as, ∀ t ps, (f a t).1 = .ok ps → ps = pages a) {acc ps : List ℕ} (hok : (mapEach pdir f as acc t).1 = .ok ps) :
    ps = acc ++ as.flatMap pages := by
  induction as generalizing acc t with
  | nil =>
    obtain rfl := Except.ok.inj hok
    simp
  | cons a as ih =>
    rw [mapEach] at hok
    rcases hf : f a t with ⟨e | ps', t'⟩
    · rw [hf] at hok
      cases hok
    · obtain rfl := h a List.mem_cons_self t ps' (by rw [hf])
      rw [hf] at hok
      rw [ih (fun b hb => h b (List.mem_cons_of_mem _ hb)) hok, List.flatMap_cons, List.append_assoc]

lemma mapPage_ok {pageBase idx : ℕ} {w : Bool} {ps : List ℕ} (h : (mapPage pdir pageBase w idx t).1 = .ok ps) :
    ps = [pageBase + idx*4096] := by
  unfold mapPage checkedAddWord at h
  by_cases hover : idx*4096 > 2^64 - 1 - pageBase
  · simp only [if_pos hover] at h
    cases h
  simp only [if_neg hover] at h
  split_ifs at h
  rcases hset : t.setDemandPage pdir (pageBase + idx*4096) w with ⟨_ | _, t'⟩
  · rw [hset] at h
    cases h
  · rw [hset] at h
    exact (Except.ok.inj h).symm

/-- The segments of an image that is mapped have their pages, in order. -/
theorem mapSegmentsAt_ok {base : ℕ} {elf : Elf} {mode : MapMode} {ps : List ℕ}
    (h : (mapSegmentsAt pdir base elf mode t).1 = .ok ps) : ps = elfPages base elf := by
  have hmaps := @mapEach_ok pdir t _ (mapOneSegment pdir base mode) (placedPages base) elf.segs (fun s _ t ps hs => ?_) [] ps h
  · exact hmaps
  unfold mapOneSegment at hs
  unfold placedPages
  cases hl : segmentMappingLayout base s with
  | error e =>
    rw [hl] at hs
    cases hs
  | ok l =>
    rw [hl] at hs
    have hpages := mapEach_ok (fun idx _ t ps hps => mapPage_ok hps) hs
    exact hpages

/-- The objects that are mapped, each with its sorted pages. -/
theorem mapRuntimeObjects_ok {objects : List PlannedObject} {acc mapped : List (String × List ℕ)}
    (h : (mapRuntimeObjects pdir objects acc t).1 = .ok mapped) :
    mapped = acc.reverse ++ objects.map fun o => (o.name, (elfPages o.base o.elf).insertionSort (· ≤ ·)) := by
  induction objects generalizing acc t with
  | nil =>
    obtain rfl := Except.ok.inj h
    simp
  | cons o rest ih =>
    rw [mapRuntimeObjects] at h
    rcases hmap : mapSegmentsAt pdir o.base o.elf .temporaryRW t with ⟨e | ps, t'⟩
    · rw [hmap] at h
      cases h
    · obtain rfl := @mapSegmentsAt_ok pdir t o.base o.elf .temporaryRW ps (by rw [hmap])
      rw [hmap] at h
      rw [ih h, List.reverse_cons, List.append_assoc, List.map_cons, List.singleton_append]

/-- The order of the addresses does not matter to the cleanup. -/
lemma cleanupPages_perm {as bs : List ℕ} (h : as.Perm bs) : cleanupPages pdir as t = cleanupPages pdir bs t := by
  have hsame : as.dedup.insertionSort (· ≤ ·) = bs.dedup.insertionSort (· ≤ ·) :=
    List.Perm.eq_of_pairwise' (List.pairwise_insertionSort _ _) (List.pairwise_insertionSort _ _)
      ((List.perm_insertionSort _ _).trans (h.dedup.trans (List.perm_insertionSort _ _).symm))
  rw [cleanupPages, cleanupPages, hsame]

/-- The names do not change what is mapped. -/
theorem mapRuntimeObjects_each {objects : List PlannedObject} {mapped : List (String × List ℕ)} {acc : List ℕ}
    (h : (mapped.flatMap Prod.snd).Perm acc) :
    (mapRuntimeObjects pdir objects mapped t).2 =
        (mapEach pdir (fun o : PlannedObject => mapSegmentsAt pdir o.base o.elf .temporaryRW) objects acc t).2 ∧
      ∀ out, (mapRuntimeObjects pdir objects mapped t).1 = .ok out →
        ∃ ps, (mapEach pdir (fun o : PlannedObject => mapSegmentsAt pdir o.base o.elf .temporaryRW) objects acc t).1 = .ok ps := by
  induction objects generalizing mapped acc t with
  | nil => exact ⟨rfl, fun _ _ => ⟨acc, rfl⟩⟩
  | cons o rest ih =>
    rw [mapRuntimeObjects, mapEach]
    rcases mapSegmentsAt pdir o.base o.elf .temporaryRW t with ⟨e | ps, t'⟩
    · refine ⟨cleanupPages_perm h, ?_⟩
      rintro out ⟨⟩
    · refine ih ?_
      rw [List.flatMap_cons]
      exact ((List.perm_insertionSort _ _).append h).trans List.perm_append_comm

end Mapped

section Placed

variable {base : ℕ} {s : Segment}

/-- The loader and the planner put a segment on the same pages. -/
theorem placedPages_eq (h : FitsAt base s) : placedPages base s = (Linker.segmentPages base s).map (· * pageSize) := by
  have hfile := h.file
  have hmem := h.memSz
  have hstop := h.stop
  have hwindow : maxUserEnd = 2^32 := rfl
  have hstart : checkedAddWord "segment start" base s.vaddr = .ok (base + s.vaddr) := by
    rw [checkedAddWord, if_neg (by omega)]
  have hspan : checkedAddWord "segment span" (base + s.vaddr - (base + s.vaddr - (base + s.vaddr) % 4096)) s.memSz.toNat =
      .ok ((base + s.vaddr) % 4096 + s.memSz.toNat) := by
    rw [checkedAddWord, if_neg (by omega)]
    congr 1
    omega
  rw [placedPages, segmentMappingLayout, if_neg (by omega), hstart]
  simp only [hspan]
  rw [Linker.segmentPages, hmem]
  by_cases hzero : s.memSz = 0
  · rw [if_pos hzero, if_pos (by rw [hzero]; rfl)]
    rfl
  · rw [if_neg hzero, if_neg (by omega), List.range'_eq_map_range, List.map_map, ← List.map_eq_flatMap]
    have hcount : ((base + s.vaddr) % 4096 + s.memSz.toNat - 1) / 4096 + 1 =
        (base + s.vaddr + s.memSz.toNat - 1) / pageSize - (base + s.vaddr) / pageSize + 1 := by
      unfold pageSize
      omega
    rw [hcount]
    refine List.map_congr_left fun i _ => ?_
    unfold pageSize
    simp only [Function.comp_apply]
    omega

/-- A segment that the loader can lay out and the planner has pages for. -/
lemma fitsAt_of_ok {name : String} {l : Layout} {range : Option (ℕ × ℕ × Bool)} (hl : segmentMappingLayout base s = .ok l)
    (hr : segmentPageRange name base s = .ok range) : FitsAt base s := by
  simp only [segmentPageRange, bind_ok] at hr
  obtain ⟨_, hneg, _, hle, start, hstart, stop, hstop, _, hwindow, -⟩ := hr
  have hneg := require_ok hneg
  have hle := require_ok hle
  have hwindow := require_ok hwindow
  have hstart := checkedAdd_ok hstart
  have hstop := checkedAdd_ok hstop
  have hword : s.memSz.toNat < 2^64 := by
    unfold segmentMappingLayout at hl
    rw [if_neg (by omega)] at hl
    rcases hfirst : checkedAddWord "segment start" base s.vaddr with e | first
    · rw [hfirst] at hl
      cases hl
    · rw [hfirst] at hl
      dsimp only at hl
      rcases hspan : checkedAddWord "segment span" (first - (first - first % 4096)) s.memSz.toNat with e | span
      · rw [hspan] at hl
        cases hl
      · unfold checkedAddWord at hspan
        split_ifs at hspan
        omega
  have hmem : wordOfInt s.memSz = s.memSz.toNat := by
    rw [wordOfInt, Int.emod_eq_of_lt (by omega) (by omega)]
  have hbound : maxUserEnd = 2^32 := rfl
  exact ⟨by omega, by omega, by omega⟩

/-- The planner gives access to pages of the segments only. -/
lemma planned_mem {placed : PlacedObject} {elf : Elf} {acc : List (ℕ × PageAccess)}
    (h : plannedPageAccess placed elf = .ok acc) (hl : ∀ s ∈ elf.segs, ∃ l, segmentMappingLayout placed.base s = .ok l)
    {e : ℕ × PageAccess} (he : e ∈ acc) : e.1 ∈ elfPages placed.base elf := by
  obtain ⟨ranges, start, stop, hranges, rfl⟩ := plannedPageAccess_entries h
  rw [sortEntries, List.mem_insertionSort] at he
  obtain ⟨range, hrange, hentry⟩ := List.mem_flatMap.mp he
  rw [List.reduceOption_mem_iff] at hrange
  rw [mapAll_ok] at hranges
  obtain ⟨s, hs, hok⟩ := forall₂_right hranges hrange
  obtain ⟨l, hl⟩ := hl s hs
  have hfits := fitsAt_of_ok hl hok
  rw [segmentPageRange_eq hfits, Except.ok.injEq] at hok
  obtain ⟨i, hi, rfl⟩ := List.mem_map.mp hentry
  have hpages : (segmentEntries placed.base ⟨0, 0⟩ s).map Prod.fst = (Linker.segmentPages placed.base s).map (· * pageSize) :=
    segmentEntries_pages hfits
  rw [← placedPages_eq hfits, segmentEntries, hok, Option.toList_some, List.flatMap_singleton, pageEntriesFor, List.map_map] at hpages
  refine List.mem_flatMap.mpr ⟨s, hs, ?_⟩
  rw [← hpages]
  exact List.mem_map.mpr ⟨i, hi, rfl⟩

variable {p : PlannedObject} {relro : RelroRange}

lemma page_mul_injective : Function.Injective fun page : ℕ => page * pageSize :=
  fun _ _ hab => Nat.eq_of_mul_eq_mul_right (by decide) hab

lemma elfPages_eq (h : Admitted p relro) : elfPages p.base p.elf = (objectPages p).map (· * pageSize) := by
  rw [elfPages, objectPages, List.map_flatMap]
  exact List.flatMap_congr fun s hs => placedPages_eq (h.fits s hs)

lemma elfPages_nodup (h : Admitted p relro) : (elfPages p.base p.elf).Nodup ↔ (objectPages p).Nodup := by
  rw [elfPages_eq h, List.nodup_map_iff page_mul_injective]

lemma base_mem_elfPages (h : Admitted p relro) : p.base ∈ elfPages p.base p.elf ↔ p.base / pageSize ∈ objectPages p := by
  have hbase : p.base / pageSize * pageSize = p.base := Nat.div_mul_cancel (Nat.dvd_of_mod_eq_zero h.aligned)
  have hmem := List.mem_map_of_injective page_mul_injective (a := p.base / pageSize) (l := objectPages p)
  rwa [← elfPages_eq h, hbase] at hmem

/-- The planned pages are the mapped ones, sorted. -/
lemma planned_pages (h : Admitted p relro) {acc : List (ℕ × PageAccess)}
    (hacc : plannedPageAccess p.toPlacedObject p.elf = .ok acc) :
    acc.map Prod.fst = (elfPages p.base p.elf).insertionSort (· ≤ ·) := by
  obtain ⟨rfl, -, -⟩ := h.plannedPageAccess_ok.mp hacc
  rw [sortEntries_pages, h.entries_pages, elfPages_eq h]

/-- A map looks up what is listed under a name that is listed once. -/
lemma lookup_reverse {β : Type} {as : List (String × β)} (hnodup : (as.map Prod.fst).Nodup) {a : String × β}
    (ha : a ∈ as) : as.reverse.lookup a.1 = some a.2 := by
  obtain ⟨before, after, hsplit⟩ := List.append_of_mem (List.mem_reverse.mpr ha)
  rw [← List.nodup_reverse, ← List.map_reverse, hsplit, List.map_append, List.nodup_append] at hnodup
  refine List.lookup_eq_some_iff.mpr ⟨before, after, hsplit, fun b hb => ?_⟩
  have hne := hnodup.2.2 b.1 (List.mem_map_of_mem hb) a.1 (by simp)
  simpa using hne.symm

end Placed

/-- The object set of a plan is mapped as it was planned. -/
theorem verifyDynamicPages_ok {placed : List PlannedObject} (hnodup : (placed.map fun p => p.name).Nodup)
    (hadmitted : ∀ p ∈ placed, ∃ relro, Admitted p relro) {accesses : List (String × List (ℕ × PageAccess))}
    (hacc : mapAll plannedAccessFor placed = .ok accesses) : verifyDynamicPages accesses
      (placed.map fun p => (p.name, (elfPages p.base p.elf).insertionSort (· ≤ ·))) = .ok () := by
  have hsame : accesses.map (fun a => (a.1, a.2.map Prod.fst)) =
      placed.map fun p => (p.name, (elfPages p.base p.elf).insertionSort (· ≤ ·)) := by
    rw [mapAll_ok] at hacc
    induction hacc with
    | nil => rfl
    | @cons p a placed accesses hpa _ ih =>
      rw [List.map_cons, List.nodup_cons] at hnodup
      obtain ⟨relro, hp⟩ := hadmitted p List.mem_cons_self
      obtain ⟨acc, hok, hname⟩ := bind_ok.mp hpa
      obtain rfl := Except.ok.inj hname
      rw [List.map_cons, List.map_cons, ih hnodup.2 fun q hq => hadmitted q (List.mem_cons_of_mem _ hq), planned_pages hp hok]
  have hnames : accesses.map Prod.fst = placed.map fun p => p.name := by
    have := congrArg (List.map Prod.fst) hsame
    simpa [Function.comp_def] using this
  have hpages : (accesses.flatMap fun a => a.2.map Prod.fst) =
      (placed.map fun p => (p.name, (elfPages p.base p.elf).insertionSort (· ≤ ·))).flatMap Prod.snd := by
    rw [← hsame, List.flatMap_map]
  have hunique : (placed.map fun p => p.name).length = (placed.map fun p => p.name).dedup.length := by
    rw [hnodup.dedup]
  have hactual : (placed.map fun p => (p.name, (elfPages p.base p.elf).insertionSort (· ≤ ·))).map Prod.fst =
      placed.map fun p => p.name := by
    rw [List.map_map]
    rfl
  have hlookup : ∀ a ∈ accesses, ((placed.map fun p =>
      (p.name, (elfPages p.base p.elf).insertionSort (· ≤ ·))).reverse.lookup a.1) = some (a.2.map Prod.fst) := by
    intro a ha
    have hin := List.mem_map_of_mem (f := fun a : String × List (ℕ × PageAccess) => (a.1, a.2.map Prod.fst)) ha
    rw [hsame] at hin
    exact lookup_reverse (by rwa [hactual]) hin
  simp only [verifyDynamicPages, hnames, hactual, hpages]
  rw [check_eq ⟨hunique, hunique, trivial⟩, ok_bind, check_eq hlookup, ok_bind, check_eq trivial, ok_bind, check_eq trivial]

section Plan

variable {main : Elf} {deps : ObjectMap} {plan : LinkPlan} {placed : List PlannedObject}

/-- The image of a plan has the objects that the plan placed. -/
theorem prepareDynamicImage_ok (hmain : deps.lookup mainObjectName = none) (hplan : linkDynamic main deps = .ok plan)
    (hplaced : linkPlaced main deps = .ok placed) (hobjects : plan.objects = placed.map PlannedObject.toPlacedObject) :
    prepareDynamicImage main deps = .ok (plan, placed) := by
  obtain ⟨hvisits, hobj⟩ := linkPlaced_visits hplaced
  have hruntime : mapAll (fun placed : PlacedObject => match objectOf main deps placed.name with
      | none => .error (LoadError.badDyn "prepared dynamic object missing")
      | some elf => .ok (⟨placed, elf⟩ : PlannedObject)) (placed.map PlannedObject.toPlacedObject) = .ok placed := by
    rw [mapAll_ok, List.forall₂_map_left_iff, List.forall₂_same]
    intro p hp
    rw [hobj p hp]
  rw [prepareDynamicImage, check_eq hmain, ok_bind, hplan, ok_bind, hobjects, hruntime, ok_bind, check_eq hvisits.nodup]
  rfl

/-- Every object of a plan is given access to its pages, and only to them, exactly where none of them comes
twice and the base of the object is one of them. What was given matches what was mapped. -/
theorem planned_access_covers (h : linkDynamic main deps = .ok plan) (hmain : Sized main)
    (hdeps : ∀ name elf, deps.lookup name = some elf → Sized elf) :
    ∃ placed, linkPlaced main deps = .ok placed ∧ plan.objects = placed.map PlannedObject.toPlacedObject ∧
      (∀ p ∈ placed,
        ((∃ acc, plannedPageAccess p.toPlacedObject p.elf = .ok acc) ↔
          (elfPages p.base p.elf).Nodup ∧ p.base ∈ elfPages p.base p.elf) ∧
        (∀ acc, plannedPageAccess p.toPlacedObject p.elf = .ok acc → (acc.map Prod.fst).Pairwise (· < ·) ∧
          (∀ va, va ∈ acc.map Prod.fst ↔ va ∈ elfPages p.base p.elf) ∧
          ∃ relro, p.elf.relro = some relro ∧ ∀ e ∈ acc, e.2 = .pageRW ↔
            (∃ s ∈ p.elf.segs, s.flags &&& pfW ≠ 0 ∧ e.1 ∈ placedPages p.base s) ∧
              ¬ (p.base + relro.start < e.1 + 4096 ∧ e.1 < p.base + relro.stop)) ∧
        ∀ pdir t pages, (mapSegmentsAt pdir p.base p.elf .temporaryRW t).1 = .ok pages → pages = elfPages p.base p.elf) ∧
      ∀ accesses, mapAll plannedAccessFor placed = .ok accesses → ∀ pdir t mapped,
        (mapRuntimeObjects pdir placed [] t).1 = .ok mapped → verifyDynamicPages accesses mapped = .ok () := by
  simp only [linkDynamic, bind_ok, pure_ok] at h
  obtain ⟨placed, hplaced, _, -, _, -, rfl⟩ := h
  obtain ⟨hvisits, hobj⟩ := linkPlaced_visits hplaced
  have hadmitted : ∀ p ∈ placed, ∃ relro, Admitted p relro := by
    intro p hp
    refine linkPlaced_admitted hplaced hp ?_
    have helf := hobj p hp
    unfold objectOf at helf
    split_ifs at helf
    · obtain rfl := Option.some.inj helf
      exact hmain
    · exact hdeps _ _ helf
  refine ⟨placed, hplaced, rfl, fun p hp => ⟨?_, ?_, fun pdir t pages => mapSegmentsAt_ok⟩, ?_⟩
  · obtain ⟨relro, hrelro⟩ := hadmitted p hp
    rw [elfPages_nodup hrelro, base_mem_elfPages hrelro]
    refine ⟨?_, fun hgood => ⟨_, hrelro.plannedPageAccess_ok.mpr ⟨rfl, hgood⟩⟩⟩
    rintro ⟨acc, hacc⟩
    exact (hrelro.plannedPageAccess_ok.mp hacc).2
  · intro acc hacc
    obtain ⟨relro, hrelro⟩ := hadmitted p hp
    have hpages := planned_pages hrelro hacc
    obtain ⟨rfl, hnodup, -⟩ := hrelro.plannedPageAccess_ok.mp hacc
    refine ⟨?_, ?_, relro, hrelro.present, ?_⟩
    · rw [hpages, sorted_nodup, elfPages_nodup hrelro]
      exact hnodup
    · intro va
      rw [hpages, List.mem_insertionSort]
    · intro e he
      rw [sortEntries, List.mem_insertionSort] at he
      rw [hrelro.access_iff hnodup he]
      refine and_congr_left fun _ => exists_congr fun s => and_congr_right fun hs => ?_
      rw [placedPages_eq (hrelro.fits s hs)]
      rfl
  · intro accesses hacc pdir t mapped hmapped
    rw [mapRuntimeObjects_ok hmapped]
    exact verifyDynamicPages_ok hvisits.nodup hadmitted hacc

end Plan

section Sample

theorem planned_access_covers_small : ∃ placed, linkPlaced (sampleMain []) emptyDeps = .ok placed ∧
    ∀ accesses, mapAll plannedAccessFor placed = .ok accesses → ∀ pdir t mapped,
      (mapRuntimeObjects pdir placed [] t).1 = .ok mapped → verifyDynamicPages accesses mapped = .ok () := by
  have hdeps : ∀ name elf, emptyDeps.lookup name = some elf → Sized elf := by
    rintro name elf ⟨⟩
  obtain ⟨placed, hplaced, -, -, hverify⟩ := planned_access_covers linkDynamic_small (by unfold Sized; decide) hdeps
  exact ⟨placed, hplaced, hverify⟩

/-- A main object whose only segment starts above its base. -/
def raisedMain : Elf :=
  { sampleMain [] with entry := 0x10100, segs := [⟨0x10000, 0, 0x1000, 0x1000, 6⟩], relro := some ⟨0x10000, 0x11000⟩ }

def raisedPlaced : PlacedObject := ⟨mainObjectName, mainBase, mainBase + 0x10100, 1⟩

/-- The planner places the object and the loader maps its page, but no access is planned for it. -/
theorem planned_access_raised : linkDynamic raisedMain emptyDeps = .ok ⟨[raisedPlaced], [], [.call (mainBase + 0x200)], []⟩ ∧
    (mapSegmentsAt sampleRoot mainBase raisedMain .temporaryRW ⟨⟨sampleCreated, fun _ => none, 0⟩, []⟩).1 = .ok [0x01010000] ∧
    plannedPageAccess raisedPlaced raisedMain = .error (.badDyn "link: main does not start at object base") := by
  refine ⟨?_, by decide +kernel, by decide +kernel⟩
  rw [linkDynamic, linkPlaced_of_order (by decide) (by rfl) emptyDeps_order]
  rfl

end Sample

end HouseKernel.Userspace
