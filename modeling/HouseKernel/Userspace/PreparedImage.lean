import HouseKernel.Userspace.DynamicPhases

/-! A prepared image is mapped into a new root. A static one gets its markers, and that is all; a dynamic one is then
relocated, given its final access and shared, and on any failure taken out again. -/
namespace HouseKernel.Userspace

open HouseKernel.Lib HouseKernel.Linker HouseKernel.Loader HouseKernel.VirtualMemory

inductive PreparedImage where
  | staticImage (elf : Elf)
  | dynamicImage (plan : LinkPlan) (objects : List PlannedObject)

/-- `MappedImage`, with what only its pages need. -/
structure MappedPages extends MappedImage where
  brk : ℕ
  objects : List (String × List ℕ)
  sharedObjects : List SharedObject
  deriving DecidableEq

def initBreak (elf : Elf) : ℕ :=
  if elf.segs = [] then minVAddr
  else ((elf.segs.map fun s => (s.vaddr + wordOfInt s.memSz) % 2^64).foldr max 0 + 15) % 2^64 / 16 * 16

/-- `allowed` is what the page budget answers for a page, `processes` the other processes. -/
def mapPreparedImage (allowed : ℕ → Bool) (processes : List SharingProcess) (pdir : ℕ) (image : PreparedImage)
    (t : MapState) : Except LoadError MappedPages × MapState :=
  match image with
  | .staticImage elf => match mapSegmentsAt pdir 0 elf .finalFlags t with
    | (.error e, t) => (.error e, t)
    | (.ok pages, t) => (.ok ⟨mappedStatic elf, initBreak elf, [("static", pages.insertionSort (· ≤ ·))], []⟩, t)
  | .dynamicImage plan objects => match mapAll plannedAccessFor objects with
    | .error e => (.error e, t)
    | .ok accesses => match mapRuntimeObjects pdir objects [] t with
      | (.error e, t) => (.error e, t)
      | (.ok objectPages, t) =>
        match applyPatches allowed pdir (demandFromObjects objects) objects accesses plan t with
        | (.error e, t) => (.error e, cleanupPages pdir (objectPages.flatMap Prod.snd) t)
        | (.ok (), t) => match finalizeDynamic pdir accesses objectPages t with
          | (.error e, t) => (.error e, cleanupPages pdir (objectPages.flatMap Prod.snd) t)
          | (.ok (), t) => match dynamicEntryBreak objects with
            | .error e => (.error e, cleanupPages pdir (objectPages.flatMap Prod.snd) t)
            | .ok (entry, brk) => match shareDynamicObjects pdir processes accesses objects t with
              | (.error e, t) => (.error e, cleanupPages pdir (objectPages.flatMap Prod.snd) t)
              | (.ok shared, t) =>
                (.ok ⟨⟨entry, plan.initSteps, plan.finiSteps, objects.map fun o => (o.base, o.elf.segs),
                  demandFromObjects objects⟩, brk, objectPages, shared⟩, t)

def PreparedImage.pages : PreparedImage → List ℕ
  | .staticImage elf => elfPages 0 elf
  | .dynamicImage _ objects => objects.flatMap fun o => elfPages o.base o.elf

section Mapping

variable {pf : Platform} {roots : Set ℕ} {r : ℕ} {m : Memory} {t : MapState} {objects : List PlannedObject}
  {accesses : List (String × List (ℕ × PageAccess))} {objectPages : List (String × List ℕ)}

/-- What ran in turn ran for each part. -/
lemma mapEach_mem {α : Type} {f : α → MapState → Except LoadError (List ℕ) × MapState} {as : List α} {acc ps : List ℕ}
    (h : (mapEach r f as acc t).1 = .ok ps) {a : α} (ha : a ∈ as) : ∃ t' ps', (f a t').1 = .ok ps' := by
  induction as generalizing acc t with
  | nil => cases ha
  | cons b as ih =>
    rw [mapEach] at h
    rcases hf : f b t with ⟨e | ps', t'⟩
    · rw [hf] at h
      cases h
    · rw [hf] at h
      obtain rfl | ha := List.mem_cons.mp ha
      · exact ⟨t, ps', by rw [hf]⟩
      · exact ih h ha

/-- The segments of the objects that were mapped could be laid out. -/
lemma mapRuntimeObjects_layout (h : (mapRuntimeObjects r objects [] t).1 = .ok objectPages) {o : PlannedObject}
    (ho : o ∈ objects) {s : Segment} (hs : s ∈ o.elf.segs) : ∃ l, segmentMappingLayout o.base s = .ok l := by
  obtain ⟨ps, hps⟩ := (mapRuntimeObjects_each (List.Perm.refl _)).2 _ h
  obtain ⟨t₁, ps₁, hobject⟩ := mapEach_mem hps ho
  obtain ⟨t₂, ps₂, hsegment⟩ := mapEach_mem hobject hs
  unfold mapOneSegment at hsegment
  cases hl : segmentMappingLayout o.base s with
  | error e =>
    rw [hl] at hsegment
    cases hsegment
  | ok l => exact ⟨l, rfl⟩

/-- Access is planned for pages of the image, and these are what is mapped. -/
lemma planned_pages_mem (hacc : mapAll plannedAccessFor objects = .ok accesses)
    (h : (mapRuntimeObjects r objects [] t).1 = .ok objectPages) :
    (∀ a ∈ accesses, ∀ e ∈ a.2, e.1 ∈ objects.flatMap fun o => elfPages o.base o.elf) ∧
      ∀ va ∈ objectPages.flatMap Prod.snd, va ∈ objects.flatMap fun o => elfPages o.base o.elf := by
  constructor
  · intro a ha e he
    rw [mapAll_ok] at hacc
    obtain ⟨o, ho, hplan⟩ := forall₂_right hacc ha
    obtain ⟨acc, hok, hname⟩ := bind_ok.mp hplan
    obtain rfl := Except.ok.inj hname
    exact List.mem_flatMap.mpr ⟨o, ho, planned_mem hok (fun s hs => mapRuntimeObjects_layout h ho hs) he⟩
  · intro va hva
    obtain rfl := mapRuntimeObjects_ok h
    simpa using hva

/-- The markers of the objects stay confined, when they avoid the kernel's slots. -/
lemma mapRuntimeObjects_maps : (Laid pf roots r m t →
      (∀ va ∈ objects.flatMap fun o => elfPages o.base o.elf, ¬ pf.kernelWindow va) →
        Laid pf roots r m (mapRuntimeObjects r objects [] t).2) ∧
    (Laid pf roots r m t → (mapRuntimeObjects r objects [] t).1 = .ok objectPages →
      (∀ s ∈ (mapRuntimeObjects r objects [] t).2.stores, s.Own pf.toRam roots r) →
        ∀ va ∈ objects.flatMap fun o => elfPages o.base o.elf, ¬ pf.kernelWindow va) := by
  have hmaps : Maps pf roots r m (objects.flatMap fun o => elfPages o.base o.elf) _ :=
    Maps.each fun o _ => mapSegmentsAt_maps o.base o.elf .temporaryRW
  obtain ⟨hstate, hok⟩ := @mapRuntimeObjects_each r t objects [] [] (List.Perm.refl _)
  rw [hstate]
  refine ⟨fun h hk => hmaps.laid h hk, fun h hout hown => ?_⟩
  obtain ⟨ps, hps⟩ := hok _ hout
  exact hmaps.user h hps hown

/-- Whatever becomes of the image, its mapping stays confined when its pages avoid the kernel's slots. -/
lemma mapPreparedImage_standing (h : Laid pf roots r m t) {image : PreparedImage} (hk : ∀ va ∈ image.pages, ¬ pf.kernelWindow va)
    (allowed : ℕ → Bool) (processes : List SharingProcess) :
    Standing pf roots r m (mapPreparedImage allowed processes r image t).2 := by
  cases image with
  | staticImage elf =>
    have hlaid := (mapSegmentsAt_maps 0 elf .finalFlags).laid h hk
    unfold mapPreparedImage
    dsimp only
    rcases hmap : mapSegmentsAt r 0 elf .finalFlags t with ⟨e | pages, t'⟩
    · rw [hmap] at hlaid
      exact hlaid.loading.standing
    · rw [hmap] at hlaid
      exact hlaid.loading.standing
  | dynamicImage plan objects =>
    have hlaid := (@mapRuntimeObjects_maps pf roots r m t objects []).1 h hk
    unfold mapPreparedImage
    dsimp only
    cases hacc : mapAll plannedAccessFor objects with
    | error e => exact h.loading.standing
    | ok accesses =>
      dsimp only
      rcases hmap : mapRuntimeObjects r objects [] t with ⟨e | objectPages, t₁⟩
      · rw [hmap] at hlaid
        exact hlaid.loading.standing
      obtain ⟨hplanned, hmapped⟩ := planned_pages_mem hacc (show (mapRuntimeObjects r objects [] t).1 = _ by rw [hmap])
      have haccess : ∀ a ∈ accesses, ∀ e ∈ a.2, ¬ pf.kernelWindow e.1 := fun a ha e he => hk _ (hplanned a ha e he)
      have hclean : ∀ va ∈ objectPages.flatMap Prod.snd, ¬ pf.kernelWindow va := fun va hva => hk va (hmapped va hva)
      rw [hmap] at hlaid
      -- the relocations
      have hpatched : Loading pf roots r m
          (applyPatches allowed r (demandFromObjects objects) objects accesses plan t₁).2 :=
        inTurn_keeps (fun patch _ t ht => ht.applyPatch haccess allowed _ objects patch) hlaid.loading
      dsimp only
      rcases hpatch : applyPatches allowed r (demandFromObjects objects) objects accesses plan t₁ with ⟨e | ⟨⟩, t₂⟩
      · rw [hpatch] at hpatched
        exact hpatched.standing.cleanupPages hclean
      rw [hpatch] at hpatched
      -- the final access
      have hfinal := hpatched.standing.finalizeDynamic haccess objectPages
      dsimp only
      rcases hfinalize : finalizeDynamic r accesses objectPages t₂ with ⟨e | ⟨⟩, t₃⟩
      · rw [hfinalize] at hfinal
        exact hfinal.cleanupPages hclean
      rw [hfinalize] at hfinal
      cases dynamicEntryBreak objects with
      | error e => exact hfinal.cleanupPages hclean
      | ok entryBreak =>
        have hshared : Standing pf roots r m (shareDynamicObjects r processes accesses objects t₃).2 :=
          hfinal.shareDynamicObjects haccess objects
        dsimp only
        rcases hshare : shareDynamicObjects r processes accesses objects t₃ with ⟨e | shared, t₄⟩
        · rw [hshare] at hshared
          exact hshared.cleanupPages hclean
        · rw [hshare] at hshared
          exact hshared

/-- A dynamic image that is mapped has been through all phases. -/
lemma mapPreparedImage_ok {plan : LinkPlan} {allowed : ℕ → Bool} {processes : List SharingProcess} {mapped : MappedPages}
    (h : (mapPreparedImage allowed processes r (.dynamicImage plan objects) t).1 = .ok mapped) :
    ∃ accesses objectPages t₁ t₂ t₃ entry brk shared, mapAll plannedAccessFor objects = .ok accesses ∧
      mapRuntimeObjects r objects [] t = (.ok objectPages, t₁) ∧
      applyPatches allowed r (demandFromObjects objects) objects accesses plan t₁ = (.ok (), t₂) ∧
      finalizeDynamic r accesses objectPages t₂ = (.ok (), t₃) ∧ dynamicEntryBreak objects = .ok (entry, brk) ∧
      shareDynamicObjects r processes accesses objects t₃ =
        (.ok shared, (mapPreparedImage allowed processes r (.dynamicImage plan objects) t).2) ∧
      mapped = ⟨⟨entry, plan.initSteps, plan.finiSteps, objects.map fun o => (o.base, o.elf.segs),
        demandFromObjects objects⟩, brk, objectPages, shared⟩ := by
  unfold mapPreparedImage at h ⊢
  dsimp only at h ⊢
  cases hacc : mapAll plannedAccessFor objects with
  | error e =>
    rw [hacc] at h
    cases h
  | ok accesses =>
    rw [hacc] at h
    dsimp only at h ⊢
    rcases hmap : mapRuntimeObjects r objects [] t with ⟨e | objectPages, t₁⟩
    · rw [hmap] at h
      cases h
    rw [hmap] at h
    dsimp only at h ⊢
    rcases hpatch : applyPatches allowed r (demandFromObjects objects) objects accesses plan t₁ with ⟨e | ⟨⟩, t₂⟩
    · rw [hpatch] at h
      cases h
    rw [hpatch] at h
    dsimp only at h ⊢
    rcases hfinalize : finalizeDynamic r accesses objectPages t₂ with ⟨e | ⟨⟩, t₃⟩
    · rw [hfinalize] at h
      cases h
    rw [hfinalize] at h
    dsimp only at h ⊢
    rcases hbreak : dynamicEntryBreak objects with e | ⟨entry, brk⟩
    · rw [hbreak] at h
      cases h
    rw [hbreak] at h
    dsimp only at h ⊢
    rcases hshare : shareDynamicObjects r processes accesses objects t₃ with ⟨e | shared, t₄⟩
    · rw [hshare] at h
      cases h
    rw [hshare] at h
    exact ⟨accesses, objectPages, t₁, t₂, t₃, entry, brk, shared, rfl, rfl, hpatch, hfinalize, rfl, hshare,
      (Except.ok.inj h).symm⟩

/-- An image that was mapped with all stores in its root's tables has no page in a slot of the kernel's. -/
lemma mapPreparedImage_user (h : Laid pf roots r m t) {image : PreparedImage} {allowed : ℕ → Bool}
    {processes : List SharingProcess} {mapped : MappedPages} (hok : (mapPreparedImage allowed processes r image t).1 = .ok mapped)
    (hown : ∀ s ∈ (mapPreparedImage allowed processes r image t).2.stores, s.Own pf.toRam roots r) :
    ∀ va ∈ image.pages, ¬ pf.kernelWindow va := by
  cases image with
  | staticImage elf =>
    unfold mapPreparedImage at hok hown
    dsimp only at hok hown
    rcases hmap : mapSegmentsAt r 0 elf .finalFlags t with ⟨e | pages, t'⟩
    · rw [hmap] at hok
      cases hok
    · rw [hmap] at hown
      refine (mapSegmentsAt_maps 0 elf .finalFlags).user h (by rw [hmap]) ?_
      rwa [hmap]
  | dynamicImage plan objects =>
    obtain ⟨accesses, objectPages, t₁, t₂, t₃, entry, brk, shared, -, hmap, hpatch, hfinalize, -, hshare, -⟩ :=
      mapPreparedImage_ok hok
    have hpatched : t₁.stores <+: (applyPatches allowed r (demandFromObjects objects) objects accesses plan t₁).2.stores :=
      @inTurn_keeps _ _ _ (fun t' => t₁.stores <+: t'.stores) t₁
        (fun patch _ t' ht' => ht'.trans (applyPatch_stores allowed _ objects patch)) List.prefix_rfl
    have hfinal := @finalizeDynamic_stores r t₂ accesses objectPages
    have hshared := @shareDynamicObjects_stores r t₃ processes accesses objects
    rw [hpatch] at hpatched
    rw [hfinalize] at hfinal
    rw [hshare] at hshared
    have hlast := (hpatched.trans hfinal).trans hshared
    refine (@mapRuntimeObjects_maps pf roots r m t objects objectPages).2 h (by rw [hmap]) ?_
    rw [hmap]
    exact fun s hs => hown s (hlast.subset hs)

/-- What a session is handed of the image is what its constructors and destructors are run from. -/
theorem mapPreparedImage_steps {plan : LinkPlan} {allowed : ℕ → Bool} {processes : List SharingProcess} {mapped : MappedPages}
    (h : (mapPreparedImage allowed processes r (.dynamicImage plan objects) t).1 = .ok mapped) :
    mappedDynamic plan objects = .ok mapped.toMappedImage := by
  obtain ⟨_, _, _, _, _, entry, brk, _, -, -, -, -, hbreak, -, rfl⟩ := mapPreparedImage_ok h
  rw [mappedDynamic, hbreak]
  rfl

end Mapping

section Sample

def sampleMapping (image : PreparedImage) : Except LoadError MappedPages × MapState :=
  mapPreparedImage (fun _ => true) [] sampleRoot image ⟨⟨sampleCreated, fun _ => none, 0⟩, []⟩

/-- A main object and a library, each of one page with a relocation in it. -/
def patchedObjects : List PlannedObject :=
  let image (o : Elf) : Elf := { o with segs := [⟨0, 0, 8, 0x1000, 6⟩], bytes := List.replicate 8 7 }
  [⟨⟨mainObjectName, mainBase, mainBase + 0x100, 1⟩, image (sampleMain ["libx"])⟩,
    ⟨⟨"libx", 0x01010000, 0x01010100, 1⟩, image (sampleLib "libx" [])⟩]

def patchedImage : PreparedImage :=
  .dynamicImage ⟨patchedObjects.map PlannedObject.toPlacedObject,
    [⟨mainObjectName, "libx", some "f", .globDat, 0x01000018, 0x01010038⟩,
      ⟨"libx", "libx", none, .relative, 0x01010020, 0x01010040⟩], [.call 0x01010200, .call 0x01000200], []⟩ patchedObjects

end Sample

end HouseKernel.Userspace
