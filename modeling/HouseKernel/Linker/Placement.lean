import HouseKernel.Linker.Plan

/-! Where the planner puts the objects. Each one starts at the end of the one before it, rounded
up, so they cannot meet; only the page of the constructor stub is not kept free. -/
namespace HouseKernel.Linker

open HouseKernel.Lib HouseKernel.Loader

/-- The page that the loader writes the constructor stub to. -/
def trampolinePage : ℕ := 0x3FFFC000

/-- The numbers of the pages under a segment. -/
def segmentPages (base : ℕ) (s : Segment) : List ℕ :=
  if wordOfInt s.memSz = 0 then []
  else
    let first := (base + s.vaddr) / pageSize
    let last := (base + s.vaddr + wordOfInt s.memSz - 1) / pageSize
    List.range' first (last - first + 1)

def objectPages (p : PlannedObject) : List ℕ := p.elf.segs.flatMap (segmentPages p.base)

/-- The end of the last segment. -/
def span (elf : Elf) : ℕ := elf.segs.foldr (fun s stop => max (s.vaddr + wordOfInt s.memSz) stop) 0

def roundUp (n : ℕ) : ℕ := (n + (objectAlignment - 1)) / objectAlignment * objectAlignment

/-- Each object at the end of the one before it, rounded up. -/
def layout : ℕ → List Elf → List (ℕ × Elf)
  | _, [] => []
  | base, elf :: rest => (base, elf) :: layout (roundUp (base + span elf)) rest

/-- No segment lies on the page of the stub. -/
def ClearOfTrampoline (main : Elf) (deps : ObjectMap) : Prop :=
  ∀ objs, dependencyOrder deps main.dyn.needed = .ok objs → ∀ o ∈ layout mainBase (main :: objs.map Prod.snd),
    ∀ s ∈ o.2.segs, trampolinePage / pageSize ∉ segmentPages o.1 s

structure PlacementSound (placed : List PlannedObject) : Prop where
  aligned : ∀ p ∈ placed, p.base % objectAlignment = 0
  disjoint : placed.Pairwise fun p q => (objectPages p).Disjoint (objectPages q)
  window : ∀ p ∈ placed, ∀ page ∈ objectPages p, mainBase ≤ page * pageSize ∧ (page + 1) * pageSize ≤ maxUserEnd
  stack : ∀ p ∈ placed, stackPageStart / pageSize ∉ objectPages p
  trampoline : ∀ p ∈ placed, trampolinePage / pageSize ∉ objectPages p
  counted : ∀ p ∈ placed, (objectPages p).length ≤ p.pages
  total : (placed.map fun p => p.pages).sum ≤ maxTotalPages

lemma checkedAdd_ok {label : String} {a b c : ℕ} (h : checkedAdd label a b = .ok c) : c = a + b := by
  unfold checkedAdd at h
  split_ifs at h
  · cases h
  · exact (Except.ok.inj h).symm

lemma require_ok {p : Prop} [Decidable p] {msg : String} {u : Unit} (h : require p msg = .ok u) : p := check_ok.mp h

lemma alignUpChecked_ok {label : String} {value next : ℕ} (h : alignUpChecked label value objectAlignment = .ok next) :
    next = roundUp value := by
  unfold alignUpChecked at h
  unfold roundUp objectAlignment at *
  split_ifs at h with hmod
  · obtain rfl := Except.ok.inj h
    omega
  · have := checkedAdd_ok h
    omega

lemma le_roundUp (n : ℕ) : n ≤ roundUp n := by
  unfold roundUp objectAlignment
  omega

lemma roundUp_mod (n : ℕ) : roundUp n % objectAlignment = 0 := by
  unfold roundUp
  exact Nat.mul_mod_left _ _

section Segments

variable {base page : ℕ} {s : Segment} {elf : Elf} {name : String}

lemma mem_segmentPages : page ∈ segmentPages base s ↔ 0 < wordOfInt s.memSz ∧
    (base + s.vaddr) / pageSize ≤ page ∧ page ≤ (base + s.vaddr + wordOfInt s.memSz - 1) / pageSize := by
  unfold segmentPages pageSize
  split_ifs with hzero
  · simp [hzero]
  · simp only [List.mem_range'_1]
    omega

/-- A segment moved by whole pages covers as many. -/
lemma segmentPages_length (haligned : base % pageSize = 0) : (segmentPages base s).length = (segmentPages 0 s).length := by
  unfold segmentPages pageSize at *
  split_ifs with hzero
  · rfl
  · simp only [List.length_range']
    omega

lemma le_span (hs : s ∈ elf.segs) : s.vaddr + wordOfInt s.memSz ≤ span elf := by
  unfold span
  generalize elf.segs = segs at hs
  induction segs with
  | nil => cases hs
  | cons t segs ih =>
    obtain rfl | hs := List.mem_cons.mp hs
    · exact le_max_left _ _
    · exact le_max_of_le_right (ih hs)

lemma objectEndOffset_ok {stop : ℕ} (h : objectEndOffset name elf = .ok stop) : stop = span elf := by
  suffices hgo : ∀ (segs : List Segment) (start stop : ℕ), foldAll (fun current s => do
      let stop ← checkedAdd (name ++ " segment end") s.vaddr (wordOfInt s.memSz)
      pure (max current stop)) start segs = .ok stop →
      stop = max start (segs.foldr (fun s stop => max (s.vaddr + wordOfInt s.memSz) stop) 0) by
    have := hgo elf.segs 0 stop h
    rwa [Nat.zero_max] at this
  clear h
  intro segs
  induction segs with
  | nil =>
    intro start stop h
    obtain rfl := Except.ok.inj h
    simp
  | cons s segs ih =>
    intro start stop h
    simp only [foldAll, bind_ok, pure_ok] at h
    obtain ⟨_, ⟨stop', hstop', rfl⟩, hrest⟩ := h
    obtain rfl := checkedAdd_ok hstop'
    rw [ih _ _ hrest, List.foldr_cons, max_assoc]

/-- What a segment that passes the check has, and the pages counted for it. -/
lemma segmentPageRange_ok {range : Option (ℕ × ℕ × Bool)} (h : segmentPageRange name 0 s = .ok range) :
    s.vaddr + wordOfInt s.memSz ≤ maxUserEnd ∧ 0 ≤ s.fileSz ∧ s.fileSz ≤ s.memSz ∧
      (segmentPages 0 s).length ≤ (range.map fun r => (r.2.1 - r.1) / pageSize).getD 0 := by
  simp only [segmentPageRange, bind_ok] at h
  obtain ⟨_, hneg, _, hle, start, hstart, stop, hstop, _, hwindow, h⟩ := h
  have hneg := require_ok hneg
  have hle := require_ok hle
  have hwindow := require_ok hwindow
  have hstart := checkedAdd_ok hstart
  have hstop := checkedAdd_ok hstop
  rw [not_or, not_lt, not_lt] at hneg
  refine ⟨by omega, hneg.1, hle, ?_⟩
  split_ifs at h with hzero
  · obtain rfl := Except.ok.inj h
    simp [segmentPages, hzero, wordOfInt]
  · simp only [bind_ok, pure_ok] at h
    obtain ⟨endPage, hend, rfl⟩ := h
    have hend := checkedAdd_ok hend
    simp only [Option.map_some, Option.getD_some, segmentPages]
    unfold floorPage pageSize at *
    split_ifs
    · simp
    · simp only [List.length_range']
      omega

lemma objectPageCount_ok {pages : ℕ} (h : objectPageCount name elf = .ok pages) :
    (∀ s ∈ elf.segs, s.vaddr + wordOfInt s.memSz ≤ maxUserEnd ∧ 0 ≤ s.fileSz ∧ s.fileSz ≤ s.memSz) ∧
      (elf.segs.flatMap (segmentPages 0)).length ≤ pages := by
  simp only [objectPageCount, bind_ok] at h
  obtain ⟨-, -, h⟩ := h
  constructor
  · intro s hs
    obtain ⟨u, v, hstep⟩ := foldAll_mem h hs
    obtain ⟨range, hrange, -⟩ := bind_ok.mp hstep
    obtain ⟨h1, h2, h3, -⟩ := segmentPageRange_ok hrange
    exact ⟨h1, h2, h3⟩
  · suffices hgo : ∀ (segs : List Segment) (start stop : ℕ), foldAll (countPages name) start segs = .ok stop →
        start + (segs.flatMap (segmentPages 0)).length ≤ stop by
      have := hgo _ _ _ h
      omega
    clear h
    intro segs
    induction segs with
    | nil =>
      intro start stop h
      obtain rfl := Except.ok.inj h
      simp
    | cons s segs ih =>
      intro start stop h
      simp only [foldAll, countPages, bind_ok] at h
      obtain ⟨next, ⟨range, hrange, hnext⟩, hrest⟩ := h
      have hpages := (segmentPageRange_ok hrange).2.2.2
      have hrest := ih _ _ hrest
      have hadd : next = start + (range.map fun r => (r.2.1 - r.1) / pageSize).getD 0 := by
        cases range with
        | none => exact (Except.ok.inj hnext).symm
        | some r => exact checkedAdd_ok hnext
      simp only [List.flatMap_cons, List.length_append]
      omega

end Segments

section Objects

variable {name : String} {elf : Elf} {objs : List (String × Elf)} {cursor total : ℕ} {placed : List PlannedObject}

/-- A segment that does not touch the stack, once it is moved, has no page there. -/
lemma stack_notMem {base : ℕ} {s : Segment} (hend : base + s.vaddr + wordOfInt s.memSz ≤ maxUserEnd)
    (h : ¬ rangeTouchesStack (relocateSegment base s)) : stackPageStart / pageSize ∉ segmentPages base s := by
  intro hin
  rw [mem_segmentPages] at hin
  obtain ⟨hpos, hfirst, hlast⟩ := hin
  have hmem : s.memSz ≠ 0 := by
    intro hzero
    simp [hzero, wordOfInt] at hpos
  apply h
  have hv : (base + s.vaddr) % 2^64 = base + s.vaddr := Nat.mod_eq_of_lt (by unfold maxUserEnd at hend; omega)
  have hl : (base + s.vaddr + wordOfInt s.memSz + (2^64 - 1)) % 2^64 = base + s.vaddr + wordOfInt s.memSz - 1 := by
    unfold maxUserEnd at hend
    omega
  simp only [rangeTouchesStack, relocateSegment, hmem, if_false, hv, hl, Bool.and_eq_true, decide_eq_true_eq]
  exact ⟨hfirst, hlast⟩

/-- What one object that is placed has passed. -/
lemma placeObjects_cons (h : placeObjects ((name, elf) :: objs) cursor total = .ok placed) :
    ∃ pages rest, placed = ⟨⟨name, cursor, cursor + elf.entry, pages⟩, elf⟩ :: rest ∧
      placeObjects objs (roundUp (cursor + span elf)) (total + pages) = .ok rest ∧
      objectPageCount name elf = .ok pages ∧ total + pages ≤ maxTotalPages ∧ cursor + span elf ≤ maxUserEnd ∧
      ∀ s ∈ elf.segs, stackPageStart / pageSize ∉ segmentPages cursor s := by
  simp only [placeObjects, bind_ok, pure_ok] at h
  obtain ⟨pages, hpages, total', htotal, _, hcap, objectEnd, hend, absoluteEnd, habs, _, hwindow, entry, hentry, _, hranges,
    next, hnext, rest, hrest, rfl⟩ := h
  obtain rfl := checkedAdd_ok htotal
  obtain rfl := objectEndOffset_ok hend
  obtain rfl := checkedAdd_ok habs
  obtain rfl := checkedAdd_ok hentry
  obtain rfl := alignUpChecked_ok hnext
  have hwindow := require_ok hwindow
  refine ⟨pages, rest, rfl, hrest, hpages, require_ok hcap, hwindow, ?_⟩
  intro s hs
  simp only [validatePlacedRanges, bind_ok] at hranges
  obtain ⟨_, hstack, _⟩ := hranges
  have hend := le_span hs
  exact stack_notMem (by omega) (require_ok (forAll_ok.mp hstack s hs))

/-- Where an object lies and what it covers. -/
structure Fits (cursor : ℕ) (p : PlannedObject) : Prop where
  aligned : p.base % objectAlignment = 0
  start : cursor ≤ p.base
  stop : p.base + span p.elf ≤ maxUserEnd
  sizes : ∀ s ∈ p.elf.segs, 0 ≤ s.fileSz ∧ s.fileSz ≤ s.memSz
  stack : ∀ s ∈ p.elf.segs, stackPageStart / pageSize ∉ segmentPages p.base s
  counted : (objectPages p).length ≤ p.pages

lemma Fits.mono {cursor' : ℕ} {p : PlannedObject} (h : Fits cursor' p) (hle : cursor ≤ cursor') : Fits cursor p :=
  { h with start := hle.trans h.start }

lemma objectPages_length {p : PlannedObject} (haligned : p.base % objectAlignment = 0) :
    (objectPages p).length = (p.elf.segs.flatMap (segmentPages 0)).length := by
  have hpage : p.base % pageSize = 0 := by
    unfold objectAlignment at haligned
    unfold pageSize
    omega
  unfold objectPages
  induction p.elf.segs with
  | nil => rfl
  | cons s segs ih =>
    rw [List.flatMap_cons, List.flatMap_cons, List.length_append, List.length_append, ih, segmentPages_length hpage]

/-- The objects are placed in turn, each one past the end of those before it. -/
theorem placeObjects_fits (h : placeObjects objs cursor total = .ok placed) (haligned : cursor % objectAlignment = 0) :
    (∀ p ∈ placed, Fits cursor p) ∧ (placed.Pairwise fun p q => p.base + span p.elf ≤ q.base) ∧
      placed.map (fun p => (p.base, p.elf)) = layout cursor (objs.map Prod.snd) ∧
      (total ≤ maxTotalPages → total + (placed.map fun p => p.pages).sum ≤ maxTotalPages) := by
  induction objs generalizing cursor total placed with
  | nil =>
    obtain rfl := Except.ok.inj h
    simp [layout]
  | cons obj objs ih =>
    obtain ⟨name, elf⟩ := obj
    obtain ⟨pages, rest, rfl, hrest, hpages, hcap, hwindow, hstack⟩ := placeObjects_cons h
    obtain ⟨hfits, hpair, hlayout, htotal⟩ := ih hrest (roundUp_mod _)
    have hnext : cursor + span elf ≤ roundUp (cursor + span elf) := le_roundUp _
    obtain ⟨hsegs, hcount⟩ := objectPageCount_ok hpages
    refine ⟨?_, ?_, ?_, ?_⟩
    · intro p hp
      obtain rfl | hp := List.mem_cons.mp hp
      · exact {
          aligned := haligned
          start := le_refl _
          stop := hwindow
          sizes := fun s hs => (hsegs s hs).2
          stack := hstack
          counted := by rwa [objectPages_length haligned] }
      · exact (hfits p hp).mono (by omega)
    · refine List.pairwise_cons.mpr ⟨fun q hq => ?_, hpair⟩
      exact hnext.trans (hfits q hq).start
    · rw [List.map_cons, List.map_cons, layout, hlayout]
    · intro _
      have := htotal hcap
      rw [List.map_cons, List.sum_cons]
      change total + (pages + _) ≤ maxTotalPages
      omega

/-- The pages of an object that fits lie between its base and its end. -/
lemma Fits.page {p : PlannedObject} (h : Fits cursor p) {page : ℕ} (hpage : page ∈ objectPages p) :
    p.base ≤ page * pageSize ∧ page * pageSize < p.base + span p.elf := by
  obtain ⟨s, hs, hin⟩ := List.mem_flatMap.mp hpage
  obtain ⟨hpos, hfirst, hlast⟩ := mem_segmentPages.mp hin
  have hend := le_span hs
  have haligned := h.aligned
  unfold objectAlignment pageSize at *
  omega

/-- The objects of a plan, as they are placed. -/
theorem linkPlaced_fits {main : Elf} {deps : ObjectMap} (h : linkPlaced main deps = .ok placed) :
    (∀ p ∈ placed, Fits mainBase p) ∧ (placed.Pairwise fun p q => p.base + span p.elf ≤ q.base) ∧
      (placed.map fun p => p.pages).sum ≤ maxTotalPages ∧ ∃ objs, dependencyOrder deps main.dyn.needed = .ok objs ∧
        placed.map (fun p => (p.base, p.elf)) = layout mainBase (main :: objs.map Prod.snd) := by
  simp only [linkPlaced, bind_ok] at h
  obtain ⟨_, -, _, -, objs, hobjs, hplace⟩ := h
  obtain ⟨hfits, hpair, hlayout, htotal⟩ := placeObjects_fits hplace (by decide)
  have htotal := htotal (Nat.zero_le _)
  rw [Nat.zero_add] at htotal
  exact ⟨hfits, hpair, htotal, objs, hobjs, hlayout⟩

end Objects

/-- A plan's placement is sound exactly when no segment falls on the page of the stub. -/
theorem placement_sound_iff {main : Elf} {deps : ObjectMap} {plan : LinkPlan} (h : linkDynamic main deps = .ok plan) :
    ∃ placed, linkPlaced main deps = .ok placed ∧ plan.objects = placed.map PlannedObject.toPlacedObject ∧
      (PlacementSound placed ↔ ClearOfTrampoline main deps) := by
  simp only [linkDynamic, bind_ok, pure_ok] at h
  obtain ⟨placed, hplaced, _, -, _, -, rfl⟩ := h
  obtain ⟨hfits, hpair, htotal, objs, hobjs, hlayout⟩ := linkPlaced_fits hplaced
  refine ⟨placed, hplaced, rfl, ?_, ?_⟩
  · intro hsound objs' hobjs' o ho s hs hin
    obtain rfl := Except.ok.inj (hobjs.symm.trans hobjs')
    rw [← hlayout] at ho
    obtain ⟨p, hp, rfl⟩ := List.mem_map.mp ho
    exact hsound.trampoline p hp (List.mem_flatMap.mpr ⟨s, hs, hin⟩)
  · intro hclear
    exact {
      aligned := fun p hp => (hfits p hp).aligned
      disjoint := by
        refine hpair.imp_of_mem fun {p q} hp hq hpq page hin hin' => ?_
        have := ((hfits p hp).page hin).2
        have := ((hfits q hq).page hin').1
        omega
      window := by
        intro p hp page hin
        obtain ⟨hstart, hstop⟩ := (hfits p hp).page hin
        have h1 := (hfits p hp).start
        have h2 := (hfits p hp).stop
        unfold pageSize maxUserEnd at *
        omega
      stack := by
        intro p hp hin
        obtain ⟨s, hs, hin⟩ := List.mem_flatMap.mp hin
        exact (hfits p hp).stack s hs hin
      trampoline := by
        intro p hp hin
        obtain ⟨s, hs, hin⟩ := List.mem_flatMap.mp hin
        have hmem : (p.base, p.elf) ∈ placed.map fun p => (p.base, p.elf) := List.mem_map_of_mem hp
        rw [hlayout] at hmem
        exact hclear objs hobjs _ hmem s hs hin
      counted := fun p hp => (hfits p hp).counted
      total := htotal }

section Sample

/-- A main object with a segment that reaches the page of the stub. -/
def wideMain : Elf :=
  { sampleMain [] with segs := [⟨0, 0, 0x1000, 0x1000, 6⟩, ⟨0x3EFFC000, 0, 0x1000, 0x1000, 6⟩] }

def widePlaced : List PlannedObject := [⟨⟨mainObjectName, mainBase, mainBase + 0x100, 2⟩, wideMain⟩]

def emptyDeps : ObjectMap := ⟨[], by decide⟩

lemma emptyDeps_order : dependencyOrder emptyDeps [] = .ok [] := by
  rw [dependencyOrder, dependencyGo_nil]
  rfl

lemma linkPlaced_wide : linkPlaced wideMain emptyDeps = .ok widePlaced := by
  rw [linkPlaced_of_order (by decide) (by rfl) emptyDeps_order]
  rfl

lemma linkDynamic_small : linkDynamic (sampleMain []) emptyDeps = .ok ⟨[⟨mainObjectName, mainBase, mainBase + 0x100, 1⟩], [],
    [.call (mainBase + 0x200)], []⟩ := by
  rw [linkDynamic, linkPlaced_of_order (by decide) (by rfl) emptyDeps_order]
  rfl

/-- An object that ends below the page of the stub. -/
theorem placement_sound_iff_small : ∃ placed, linkPlaced (sampleMain []) emptyDeps = .ok placed ∧
    (PlacementSound placed ↔ ClearOfTrampoline (sampleMain []) emptyDeps) := by
  obtain ⟨placed, hplaced, -, hiff⟩ := placement_sound_iff linkDynamic_small
  exact ⟨placed, hplaced, hiff⟩

/-- The planner accepts an object with a segment on the page of the stub. -/
theorem placement_on_trampoline : ∃ plan, linkDynamic wideMain emptyDeps = .ok plan ∧
    linkPlaced wideMain emptyDeps = .ok widePlaced ∧ plan.objects = widePlaced.map PlannedObject.toPlacedObject ∧
    ¬ PlacementSound widePlaced := by
  refine ⟨⟨widePlaced.map PlannedObject.toPlacedObject, [], [.call (mainBase + 0x200)], []⟩, ?_, linkPlaced_wide, rfl, ?_⟩
  · rw [linkDynamic, linkPlaced_wide]
    rfl
  · intro hsound
    exact hsound.trampoline _ List.mem_cons_self (by decide)

end Sample

end HouseKernel.Linker
