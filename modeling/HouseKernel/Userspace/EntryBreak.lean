import HouseKernel.Linker.InitOrder
import HouseKernel.Linker.Placement
import HouseKernel.Userspace.BrkGrow

/-! The break at which a dynamic process starts. It is folded over the segments of the placed objects, with the base of
the object and the end so far handed to `segmentEnd` in each other's place: the end so far is moved by the segment, and
the base only bounds it from below. -/
namespace HouseKernel.Userspace

open HouseKernel.Lib HouseKernel.Linker HouseKernel.Loader HouseKernel.VirtualMemory

/-- The objects of a plan with their images. -/
def runtimeObject (main : Elf) (deps : ObjectMap) (placed : PlacedObject) : Except LoadError PlannedObject :=
  match objectOf main deps placed.name with
  | none => .error (.badDyn "prepared dynamic object missing")
  | some elf => .ok { placed with elf := elf }

def segmentEnd (high base : ℕ) (segment : Segment) : Except LoadError ℕ :=
  if segment.memSz < 0 then .error (.badDyn "dynamic negative segment size")
  else do
    let relativeEnd ← checkedAddWord "dynamic segment end" segment.vaddr (wordOfInt segment.memSz)
    let absoluteEnd ← checkedAddWord "dynamic object end" base relativeEnd
    .ok (max high absoluteEnd)

-- The fold hands over the base first and the end so far second.
def objectEnd (high : ℕ) (object : PlannedObject) : Except LoadError ℕ :=
  foldAll (segmentEnd object.base) high object.elf.segs

def dynamicEntryBreak (objects : List PlannedObject) : Except LoadError (ℕ × ℕ) := do
  let mainPlaced ← match objects.filter fun o => o.name = mainObjectName with
    | [placed] => .ok placed
    | _ => .error (.badDyn "dynamic main object missing")
  let stop ← foldAll objectEnd 0 objects
  let brk ← if stop > 2^64 - 1 - 15 then .error (.badDyn "dynamic break overflow") else .ok ((stop + 15) / 16 * 16)
  if brk ≥ stackPageStart ∨ brk > 0x100000000 then .error (.badDyn "dynamic break outside user window")
  else .ok (mainPlaced.entry, brk)

/-- The base of every segment, and where the segment ends from there. -/
def extents (objects : List PlannedObject) : List (ℕ × ℕ) :=
  objects.flatMap fun o => o.elf.segs.map fun s => (o.base, s.vaddr + wordOfInt s.memSz)

/-- The least multiple of 16 at or above all ends. -/
def trueBreak (objects : List PlannedObject) : ℕ :=
  (((extents objects).map fun e => e.1 + e.2).foldr max 0 + 15) / 16 * 16

/-- The ends of the segments, added up from the first on, and from behind each segment on with its base. -/
def sums (es : List (ℕ × ℕ)) : List ℕ :=
  (es.map Prod.snd).sum :: es.tails.filterMap fun
    | [] => none
    | e :: rest => some (e.1 + (rest.map Prod.snd).sum)

/-- No sum of ends passes `top`, and one comes within 16 bytes of it. -/
def SumsMeet (es : List (ℕ × ℕ)) (top : ℕ) : Prop := (∀ c ∈ sums es, c ≤ top) ∧ ∃ c ∈ sums es, top < c + 16

/-- What the break of a process is for: it clears every object, by less than 16 bytes, and no growth from there on maps
a page of an object. -/
structure ClearsObjects (objects : List PlannedObject) (brk : ℕ) : Prop where
  least : IsLeast { a | a % 16 = 0 ∧ ∀ e ∈ extents objects, e.1 + e.2 ≤ a } brk
  growth : ∀ oldBrk newBrk, brk ≤ oldBrk → ∀ va ∈ brkPages oldBrk newBrk, ∀ o ∈ objects, va / pageSize ∉ objectPages o

section Fold

variable {es : List (ℕ × ℕ)} {acc stop : ℕ}

def turn (acc : ℕ) (e : ℕ × ℕ) : ℕ := max e.1 (acc + e.2)

theorem le_foldl_turn : acc ≤ es.foldl turn acc := by
  induction es generalizing acc with
  | nil => exact le_rfl
  | cons e es ih =>
    have hturn : acc ≤ turn acc e := le_max_of_le_right (Nat.le_add_right _ _)
    exact hturn.trans ih

/-- The fold is the largest of the sums, the first of them on top of what it starts from. -/
theorem foldl_turn_le_iff {top : ℕ} :
    es.foldl turn acc ≤ top ↔ acc + (es.map Prod.snd).sum ≤ top ∧ ∀ c ∈ (sums es).tail, c ≤ top := by
  induction es generalizing acc with
  | nil => simp [sums]
  | cons e es ih =>
    rw [List.foldl_cons, ih, turn]
    simp only [sums, List.tails_cons, List.filterMap_cons, List.tail_cons, List.map_cons, List.sum_cons, List.forall_mem_cons]
    constructor
    · rintro ⟨hsum, hrest⟩
      exact ⟨by omega, by omega, hrest⟩
    · rintro ⟨hsum, hbase, hrest⟩
      exact ⟨by omega, hrest⟩

theorem foldl_turn_le {top : ℕ} : es.foldl turn 0 ≤ top ↔ ∀ c ∈ sums es, c ≤ top := by
  rw [foldl_turn_le_iff, Nat.zero_add, sums, List.tail_cons, List.forall_mem_cons]

/-- Folds of checked turns: the result is that of the fold without checks, as long as that fits a word. -/
theorem foldAll_turn {γ : Type} {f : ℕ → γ → Except LoadError ℕ} {g : γ → List (ℕ × ℕ)} {as : List γ}
    (hf : ∀ a ∈ as, ∀ acc < 2^64, ∀ t, f acc a = .ok t ↔ t = (g a).foldl turn acc ∧ t < 2^64) (hacc : acc < 2^64) :
    foldAll f acc as = .ok stop ↔ stop = (as.flatMap g).foldl turn acc ∧ stop < 2^64 := by
  induction as generalizing acc with
  | nil =>
    rw [foldAll, Except.ok.injEq, List.flatMap_nil, List.foldl_nil]
    exact ⟨fun h => ⟨h.symm, h ▸ hacc⟩, fun h => h.1.symm⟩
  | cons a as ih =>
    obtain ⟨ha, has⟩ := List.forall_mem_cons.mp hf
    rw [foldAll, bind_ok, List.flatMap_cons, List.foldl_append]
    constructor
    · rintro ⟨t, ht, hrest⟩
      obtain ⟨rfl, hlt⟩ := (ha acc hacc t).mp ht
      exact (ih has hlt).mp hrest
    · rintro ⟨hstop, hlt⟩
      have hle : (g a).foldl turn acc ≤ stop := hstop ▸ le_foldl_turn
      exact ⟨_, (ha acc hacc _).mpr ⟨rfl, hle.trans_lt hlt⟩, (ih has (hle.trans_lt hlt)).mpr ⟨hstop, hlt⟩⟩

theorem checkedAddWord_ok {label : String} {left right sum : ℕ} (hleft : left < 2^64) :
    checkedAddWord label left right = .ok sum ↔ sum = left + right ∧ sum < 2^64 := by
  unfold checkedAddWord
  split_ifs with hover
  · exact iff_of_false (by simp) (by omega)
  · rw [Except.ok.injEq]
    omega

theorem segmentEnd_ok {base t : ℕ} {s : Segment} (hbase : base < 2^64) (hsize : 0 ≤ s.memSz)
    (hend : s.vaddr + wordOfInt s.memSz < 2^64) (hacc : acc < 2^64) :
    segmentEnd base acc s = .ok t ↔ t = turn acc (base, s.vaddr + wordOfInt s.memSz) ∧ t < 2^64 := by
  have hvaddr : s.vaddr < 2^64 := by omega
  rw [segmentEnd, if_neg (not_lt.mpr hsize)]
  simp only [bind_ok, checkedAddWord_ok hvaddr, checkedAddWord_ok hacc, Except.ok.injEq, turn]
  constructor
  · rintro ⟨_, ⟨rfl, -⟩, _, ⟨rfl, hlt⟩, rfl⟩
    exact ⟨rfl, max_lt hbase hlt⟩
  · rintro ⟨rfl, hlt⟩
    exact ⟨_, ⟨rfl, hend⟩, _, ⟨rfl, (le_max_right _ _).trans_lt hlt⟩, rfl⟩

end Fold

section Main

variable {objects placed : List PlannedObject} {main : Elf} {deps : ObjectMap} {plan : LinkPlan} {entry brk : ℕ}

theorem foldr_max_le {l : List ℕ} {a : ℕ} : l.foldr max 0 ≤ a ↔ ∀ x ∈ l, x ≤ a := by
  induction l with
  | nil => simp
  | cons x l ih => rw [List.foldr_cons, max_le_iff, ih, List.forall_mem_cons]

theorem isLeast_trueBreak : IsLeast { a | a % 16 = 0 ∧ ∀ e ∈ extents objects, e.1 + e.2 ≤ a } (trueBreak objects) := by
  have hends : ∀ a, ((extents objects).map fun e => e.1 + e.2).foldr max 0 ≤ a ↔ ∀ e ∈ extents objects, e.1 + e.2 ≤ a := by
    intro a
    rw [foldr_max_le, List.forall_mem_map]
  unfold trueBreak
  constructor
  · refine ⟨Nat.mul_mod_left _ _, (hends _).mp ?_⟩
    omega
  · rintro a ⟨hmod, hall⟩
    have hle := (hends a).mpr hall
    omega

/-- What the fold computes is the true break where its sums meet it. -/
theorem foldl_turn_eq_iff {es : List (ℕ × ℕ)} {top : ℕ} (htop : top % 16 = 0) :
    (es.foldl turn 0 + 15) / 16 * 16 = top ↔ SumsMeet es top := by
  have hbelow : es.foldl turn 0 + 16 ≤ top ↔ ∀ c ∈ sums es, c + 16 ≤ top := by
    by_cases hsmall : 16 ≤ top
    · have hle : es.foldl turn 0 ≤ top - 16 ↔ ∀ c ∈ sums es, c ≤ top - 16 := foldl_turn_le
      rw [← Nat.le_sub_iff_add_le hsmall, hle]
      exact forall₂_congr fun c _ => Nat.le_sub_iff_add_le hsmall
    · refine iff_of_false (by omega) fun hall => ?_
      have hfirst := hall _ List.mem_cons_self
      omega
  rw [SumsMeet, ← foldl_turn_le]
  constructor
  · intro heq
    refine ⟨by omega, ?_⟩
    by_contra hnone
    push Not at hnone
    have := hbelow.mpr hnone
    omega
  · rintro ⟨hle, c, hc, hlt⟩
    have hnot : ¬ es.foldl turn 0 + 16 ≤ top := fun hge => absurd (hbelow.mp hge c hc) (by omega)
    omega

/-- The objects of a plan: one is called main, and all of them fit a word. -/
theorem linkPlaced_main (h : linkPlaced main deps = .ok placed) :
    ∃ p, (placed.filter fun o => o.name = mainObjectName) = [p] := by
  obtain ⟨hvisits, -⟩ := linkPlaced_visits h
  have hnodup := hvisits.nodup
  have hmem : mainObjectName ∈ placed.map fun p => p.name := by
    generalize (placed.map fun p => p.name) = out at hvisits
    cases hvisits with
    | seen hin _ => cases hin
    | new _ _ _ _ => exact List.mem_cons_self
  have hsub : ((placed.filter fun o => o.name = mainObjectName).map fun p => p.name).Nodup :=
    (List.filter_sublist.map _).nodup hnodup
  obtain ⟨p, hp, hname⟩ := List.mem_map.mp hmem
  have hfound : p ∈ placed.filter fun o => o.name = mainObjectName := List.mem_filter.mpr ⟨hp, decide_eq_true hname⟩
  have hall : ∀ q ∈ placed.filter fun o => o.name = mainObjectName, q.name = mainObjectName :=
    fun q hq => of_decide_eq_true (List.mem_filter.mp hq).2
  cases hfilter : placed.filter fun o => o.name = mainObjectName with
  | nil => simp [hfilter] at hfound
  | cons q rest =>
    cases rest with
    | nil => exact ⟨q, rfl⟩
    | cons r rest =>
      rw [hfilter] at hsub hall
      have hne := (List.nodup_cons.mp hsub).1
      have hsame : q.name = r.name := (hall q (by simp)).trans (hall r (by simp)).symm
      exact absurd (List.mem_map.mpr ⟨r, List.mem_cons_self, hsame.symm⟩) hne

theorem objectEnds_ok {cursor stop : ℕ} (hfits : ∀ p ∈ placed, Fits cursor p) :
    foldAll objectEnd 0 placed = .ok stop ↔ stop = (extents placed).foldl turn 0 ∧ stop < 2^64 := by
  refine foldAll_turn (fun p hp acc hacc t => ?_) (by norm_num)
  have hstop := (hfits p hp).stop
  unfold maxUserEnd at hstop
  have hsegs : foldAll (segmentEnd p.base) acc p.elf.segs = .ok t ↔
      t = (p.elf.segs.flatMap fun s => [(p.base, s.vaddr + wordOfInt s.memSz)]).foldl turn acc ∧ t < 2^64 :=
    foldAll_turn (fun s hs acc hacc t => ?_) hacc
  · rw [objectEnd, hsegs, ← List.map_eq_flatMap]
  · have hspan := le_span hs
    have hsizes := (hfits p hp).sizes s hs
    exact segmentEnd_ok (by omega) (by omega) (by omega) hacc

theorem dynamicEntryBreak_ok {cursor : ℕ} (hfits : ∀ p ∈ placed, Fits cursor p)
    (hmain : ∃ p, (placed.filter fun o => o.name = mainObjectName) = [p]) :
    (∃ entry, dynamicEntryBreak placed = .ok (entry, brk)) ↔
      brk = ((extents placed).foldl turn 0 + 15) / 16 * 16 ∧ brk < stackPageStart := by
  obtain ⟨p, hp⟩ := hmain
  have hstack : stackPageStart = 0x3FFFD000 := rfl
  set stop := (extents placed).foldl turn 0
  have hrun : ∀ end', foldAll objectEnd 0 placed = .ok end' ↔ end' = stop ∧ stop < 2^64 := by
    intro end'
    rw [objectEnds_ok hfits]
    exact and_congr_right fun h => by rw [h]
  rw [dynamicEntryBreak, hp]
  simp only [bind_ok, hrun, Except.ok.injEq, exists_eq_left']
  by_cases hover : stop > 2^64 - 1 - 15
  · refine iff_of_false ?_ (by omega)
    rintro ⟨entry, _, ⟨rfl, -⟩, hout⟩
    rw [if_pos hover, bind_ok] at hout
    exact absurd hout (by simp)
  by_cases hwindow : (stop + 15) / 16 * 16 ≥ stackPageStart
  · refine iff_of_false ?_ (by omega)
    rintro ⟨entry, _, ⟨rfl, -⟩, hout⟩
    rw [if_neg hover, bind_ok] at hout
    obtain ⟨_, hbrk, hout⟩ := hout
    cases hbrk
    exact absurd hout (by simp [hwindow])
  constructor
  · rintro ⟨entry, _, ⟨rfl, -⟩, hout⟩
    rw [if_neg hover, bind_ok] at hout
    obtain ⟨_, hbrk, hout⟩ := hout
    cases hbrk
    rw [if_neg (by omega)] at hout
    cases hout
    exact ⟨rfl, by omega⟩
  · rintro ⟨rfl, -⟩
    refine ⟨p.entry, stop, ⟨rfl, by omega⟩, ?_⟩
    rw [if_neg hover]
    exact bind_ok.mpr ⟨_, rfl, if_neg (by omega)⟩

/-- No page of an object lies above the ends of the objects. -/
theorem growth_clear (hends : ∀ e ∈ extents placed, e.1 + e.2 ≤ brk)
    {oldBrk newBrk va : ℕ} (hbrk : brk ≤ oldBrk) (hva : va ∈ brkPages oldBrk newBrk) {o : PlannedObject} (ho : o ∈ placed) :
    va / pageSize ∉ objectPages o := by
  intro hin
  obtain ⟨s, hs, hpage⟩ := List.mem_flatMap.mp hin
  obtain ⟨hpos, -, hlast⟩ := mem_segmentPages.mp hpage
  have hend : o.base + (s.vaddr + wordOfInt s.memSz) ≤ brk :=
    hends _ (List.mem_flatMap.mpr ⟨o, ho, List.mem_map_of_mem hs⟩)
  obtain ⟨i, -, rfl⟩ := List.mem_map.mp hva
  unfold pageSize at hlast
  omega

/-- The break of a dynamic process is right exactly when it lies below the stack page and the ends of the segments, added
up, meet it. -/
theorem entry_break_iff (h : linkDynamic main deps = .ok plan) :
    ∃ objects, mapAll (runtimeObject main deps) plan.objects = .ok objects ∧
      ((∃ entry brk, dynamicEntryBreak objects = .ok (entry, brk) ∧ ClearsObjects objects brk) ↔
        trueBreak objects < stackPageStart ∧ SumsMeet (extents objects) (trueBreak objects)) := by
  simp only [linkDynamic, bind_ok, pure_ok] at h
  obtain ⟨placed, hplaced, _, -, _, -, rfl⟩ := h
  obtain ⟨hfits, -⟩ := linkPlaced_fits hplaced
  have hmain := linkPlaced_main hplaced
  have hobjects : mapAll (runtimeObject main deps) (placed.map PlannedObject.toPlacedObject) = .ok placed := by
    rw [mapAll_ok, List.forall₂_map_left_iff, List.forall₂_same]
    intro p hp
    have helf := (linkPlaced_visits hplaced).2 p hp
    simp only [runtimeObject, helf]
  refine ⟨placed, hobjects, ?_⟩
  have hmod : trueBreak placed % 16 = 0 := isLeast_trueBreak.1.1
  rw [← foldl_turn_eq_iff hmod]
  constructor
  · rintro ⟨entry, brk, hbrk, hclear⟩
    obtain ⟨hfold, hwindow⟩ := (dynamicEntryBreak_ok hfits hmain).mp ⟨entry, hbrk⟩
    obtain rfl : brk = trueBreak placed := hclear.least.unique isLeast_trueBreak
    exact ⟨hwindow, hfold.symm⟩
  · rintro ⟨hwindow, hfold⟩
    obtain ⟨entry, hbrk⟩ := (dynamicEntryBreak_ok hfits hmain).mpr ⟨hfold.symm, hwindow⟩
    exact ⟨entry, _, hbrk, isLeast_trueBreak, fun _ _ hle _ hva _ ho => growth_clear isLeast_trueBreak.1.2 hle hva ho⟩

end Main

section Sample

/-- A main object with two segments. -/
def pairMain : Elf := { sampleMain [] with segs := [⟨0, 0, 0x1000, 0x1000, 6⟩, ⟨0x2000, 0, 0x1000, 0x1000, 6⟩] }

def mainPlaced (elf : Elf) : List PlannedObject := [⟨⟨mainObjectName, mainBase, mainBase + 0x100, elf.segs.length⟩, elf⟩]

def mainPlan (elf : Elf) : LinkPlan :=
  ⟨(mainPlaced elf).map PlannedObject.toPlacedObject, [], [.call (mainBase + 0x200)], []⟩

lemma linkDynamic_pair : linkDynamic pairMain emptyDeps = .ok (mainPlan pairMain) := by
  rw [linkDynamic, linkPlaced_of_order (by decide) (by rfl) emptyDeps_order]
  rfl

lemma linkDynamic_single : linkDynamic (sampleMain []) emptyDeps = .ok (mainPlan (sampleMain [])) := by
  rw [linkDynamic, linkPlaced_of_order (by decide) (by rfl) emptyDeps_order]
  rfl

/-- Of two segments the first only lifts the end to the base, and the second then ends where it does. -/
theorem entry_break_iff_pair : ∃ entry brk, dynamicEntryBreak (mainPlaced pairMain) = .ok (entry, brk) ∧
    ClearsObjects (mainPlaced pairMain) brk := by
  obtain ⟨objects, hobjects, hiff⟩ := entry_break_iff linkDynamic_pair
  obtain rfl : mainPlaced pairMain = objects := Except.ok.inj (Eq.trans (by rfl) hobjects)
  have htop : trueBreak (mainPlaced pairMain) = mainBase + 0x3000 := by rfl
  refine hiff.mpr ⟨htop ▸ by decide, ?_⟩
  rw [htop]
  exact ⟨by decide, mainBase + 0x3000, by decide, by decide⟩

/-- The process of `brkSample` with the demand marker of the segment of the object. -/
def markedSample : BrkWorld :=
  let w := brkSample [0x50003000, 0x50004000, 0x50005000, 0x50006000]
  { w with vm := (setDemandPage w.vm 0x50000000 mainBase true).2 }

/-- A main object of one segment gets its own base for its break, and the growth by a page from there maps it over the
demand marker of the segment. -/
theorem entry_break_inside : linkDynamic (sampleMain []) emptyDeps = .ok (mainPlan (sampleMain [])) ∧
    mapAll (runtimeObject (sampleMain []) emptyDeps) (mainPlan (sampleMain [])).objects = .ok (mainPlaced (sampleMain [])) ∧
    dynamicEntryBreak (mainPlaced (sampleMain [])) = .ok (mainBase + 0x100, mainBase) ∧
    ¬ ClearsObjects (mainPlaced (sampleMain [])) mainBase ∧
    (markedSample.procs 1).map Process.brk = some mainBase ∧ getDemandPage markedSample.vm 0x50000000 mainBase = some true ∧
    (markedSample.procBrkGrow 1 (mainBase + 0x1000)).1 = .ok (mainBase + 0x1000) ∧
    (getPage (markedSample.procBrkGrow 1 (mainBase + 0x1000)).2.vm 0x50000000 mainBase).isSome := by
  refine ⟨linkDynamic_single, by decide +kernel, by decide +kernel, fun hclear => ?_, by decide +kernel, by decide +kernel,
    by decide +kernel, by decide +kernel⟩
  have hend := hclear.least.1.2 (mainBase, 0x1000) (by decide)
  exact absurd hend (by decide)

end Sample

end HouseKernel.Userspace
