import HouseKernel.Linker.Placement

/-! The patches of a plan. Each relocation of each object gives one patch, in order, inside its
own object, and each symbol comes from the only object that exports it. -/
namespace HouseKernel.Linker

open HouseKernel.Lib HouseKernel.Loader

/-- A symbol that its object exports. -/
def exported (symbol : DynamicSymbol) : Bool := symbol.name ≠ "" && symbol.sectionIndex ≠ shnUndef

def exportsOf (p : PlannedObject) (symbols : List DynamicSymbol) : List (PlannedObject × DynamicSymbol) :=
  (symbols.filter exported).map fun symbol => (p, symbol)

def objectSymbols (p : PlannedObject) : List DynamicSymbol := (p.elf.dyn.symbols.map fun table => table.entries).getD []

def allExports (placed : List PlannedObject) : List (PlannedObject × DynamicSymbol) :=
  placed.flatMap fun p => exportsOf p (objectSymbols p)

/-- The objects that export `name`, with the symbol. -/
def exporters (placed : List PlannedObject) (name : String) : List (PlannedObject × DynamicSymbol) :=
  (allExports placed).filter fun e => e.2.name = name

/-- `value` is `address` plus the addend, read as signed, in 64 bits. -/
def Displaced (address addend value : ℕ) : Prop :=
  (value : ℤ) = address + signedWord addend ∧ value = (address + addend) % 2^64

/-- The value that a relocation asks for. -/
def Binds (placed : List PlannedObject) (p : PlannedObject) (patch : RelocationPatch) : Relocation → Prop
  | .relativeBinding r =>
    patch.relocation = .relative ∧ patch.symbol = none ∧ patch.provider = p.name ∧ Displaced p.base r.addend patch.value
  | .eagerSymbolBinding r =>
    relocationKind r.type = .ok patch.relocation ∧ patch.symbol = some r.symbolName ∧
      ∃ q symbol, exporters placed r.symbolName = [(q, symbol)] ∧ patch.provider = q.name ∧
        Displaced (q.base + symbol.value) r.addend patch.value

structure Relocates (placed : List PlannedObject) (p : PlannedObject) (r : Relocation) (patch : RelocationPatch) : Prop where
  object : patch.object = p.name
  target : patch.target = p.base + relocationOffset r
  aligned : patch.target % 8 = 0
  inside : ∃ s ∈ p.elf.segs, p.base + s.vaddr ≤ patch.target ∧ patch.target + 8 ≤ p.base + s.vaddr + wordOfInt s.memSz
  value : Binds placed p patch r

def Apart (a b : RelocationPatch) : Prop := a.target + 8 ≤ b.target ∨ b.target + 8 ≤ a.target

/-- All relocations, with the object that each belongs to. -/
def relocationsOf (placed : List PlannedObject) : List (PlannedObject × Relocation) :=
  placed.flatMap fun p => (objectRelocations p).map fun r => (p, r)

structure PatchesExact (placed : List PlannedObject) (patches : List RelocationPatch) : Prop where
  each : List.Forall₂ (fun o patch => Relocates placed o.1 o.2 patch) (relocationsOf placed) patches
  apart : patches.Pairwise Apart

section Scope

variable {p : PlannedObject} {scope scope' : Scope} {placed : List PlannedObject}

/-- What the scope has for an export. -/
def scopeEntry (e : PlannedObject × DynamicSymbol) : String × ExportedSymbol := (e.2.name, ⟨e.1.name, e.1.base + e.2.value⟩)

lemma addSymbol_ok {symbol : DynamicSymbol} (h : addSymbol p scope symbol = .ok scope') :
    scope' = ((exportsOf p [symbol]).map scopeEntry) ++ scope ∧
      ((scope.map Prod.fst).Nodup → (scope'.map Prod.fst).Nodup) := by
  unfold addSymbol at h
  by_cases hname : symbol.name = ""
  · rw [if_pos hname] at h
    obtain rfl := Except.ok.inj h
    simp [exportsOf, exported, hname]
  rw [if_neg hname] at h
  simp only [bind_ok] at h
  obtain ⟨_, -, _, -, _, -, h⟩ := h
  by_cases hdef : symbol.sectionIndex = shnUndef
  · rw [if_pos (not_not.mpr hdef)] at h
    obtain rfl := Except.ok.inj h
    simp [exportsOf, exported, hdef]
  rw [if_neg (not_not.mpr hdef)] at h
  split_ifs at h with hreserved
  · cases h
  · simp only [exportedAddress, bind_ok, pure_ok] at h
    obtain ⟨address, ⟨stop, -, _, -, haddress⟩, _, hfresh, rfl⟩ := h
    obtain rfl := checkedAdd_ok haddress
    have hfresh := require_ok hfresh
    refine ⟨by simp [exportsOf, exported, hname, hdef, scopeEntry], fun hnodup => ?_⟩
    rw [List.map_cons, List.nodup_cons]
    refine ⟨?_, hnodup⟩
    intro hin
    obtain ⟨e, he, heq⟩ := List.mem_map.mp hin
    rw [List.lookup_eq_none_iff] at hfresh
    have := hfresh e he
    simp [heq] at this

lemma addSymbols_ok {symbols : List DynamicSymbol} (h : foldAll (addSymbol p) scope symbols = .ok scope') :
    scope' = ((exportsOf p symbols).map scopeEntry).reverse ++ scope ∧
      ((scope.map Prod.fst).Nodup → (scope'.map Prod.fst).Nodup) := by
  induction symbols generalizing scope with
  | nil =>
    obtain rfl := Except.ok.inj h
    simp [exportsOf]
  | cons symbol symbols ih =>
    obtain ⟨mid, hmid, hrest⟩ := bind_ok.mp h
    obtain ⟨rfl, hnodup⟩ := addSymbol_ok hmid
    obtain ⟨rfl, hnodup'⟩ := ih hrest
    refine ⟨?_, hnodup' ∘ hnodup⟩
    unfold exportsOf
    cases hexp : exported symbol <;> simp [hexp]

/-- The scope has every export once. -/
theorem buildExportScope_ok (h : buildExportScope placed = .ok scope) :
    scope = ((allExports placed).map scopeEntry).reverse ∧ (scope.map Prod.fst).Nodup := by
  suffices hgo : ∀ (placed : List PlannedObject) (start : Scope), foldAll addObject start placed = .ok scope →
      scope = ((allExports placed).map scopeEntry).reverse ++ start ∧
        ((start.map Prod.fst).Nodup → (scope.map Prod.fst).Nodup) by
    obtain ⟨h1, h2⟩ := hgo _ _ h
    rw [List.append_nil] at h1
    exact ⟨h1, h2 List.nodup_nil⟩
  clear h
  intro placed
  induction placed with
  | nil =>
    intro start h
    obtain rfl := Except.ok.inj h
    simp [allExports]
  | cons p placed ih =>
    intro start h
    obtain ⟨mid, hmid, hrest⟩ := bind_ok.mp h
    cases hsymbols : p.elf.dyn.symbols with
    | none =>
      simp only [addObject, hsymbols] at hmid
      cases hmid
    | some symbols =>
      simp only [addObject, hsymbols] at hmid
      obtain ⟨rfl, hnodup⟩ := addSymbols_ok hmid
      obtain ⟨hscope, hnodup'⟩ := ih _ hrest
      refine ⟨?_, hnodup' ∘ hnodup⟩
      rw [hscope]
      simp [allExports, objectSymbols, hsymbols]

/-- No name has two exporters. -/
lemma exporters_length_le (h : buildExportScope placed = .ok scope) (name : String) : (exporters placed name).length ≤ 1 := by
  obtain ⟨rfl, hnodup⟩ := buildExportScope_ok h
  rw [List.map_reverse, List.nodup_reverse, List.map_map] at hnodup
  have hcount := List.nodup_iff_count_le_one.mp hnodup name
  rw [List.count_eq_countP, List.countP_map, List.countP_eq_length_filter] at hcount
  exact hcount

/-- What the scope finds for a name is its only exporter. -/
lemma lookup_exporter {name : String} {found : ExportedSymbol} (h : buildExportScope placed = .ok scope)
    (hfound : scope.lookup name = some found) :
    ∃ q symbol, exporters placed name = [(q, symbol)] ∧ found = ⟨q.name, q.base + symbol.value⟩ := by
  have hle := exporters_length_le h name
  obtain ⟨rfl, -⟩ := buildExportScope_ok h
  obtain ⟨l₁, l₂, heq, -⟩ := List.lookup_eq_some_iff.mp hfound
  have hin : (name, found) ∈ (allExports placed).map scopeEntry := by
    rw [← List.mem_reverse, heq]
    simp
  obtain ⟨⟨q, symbol⟩, he, hentry⟩ := List.mem_map.mp hin
  obtain ⟨hname, hfound⟩ := Prod.mk.inj hentry
  have hmem : (q, symbol) ∈ exporters placed name := List.mem_filter.mpr ⟨he, by simpa using hname⟩
  refine ⟨q, symbol, ?_, hfound.symm⟩
  cases hexp : exporters placed name with
  | nil => simp [hexp] at hmem
  | cons e rest =>
    rw [hexp] at hle hmem
    obtain rfl : rest = [] := by simpa using hle
    rw [List.mem_singleton] at hmem
    rw [hmem]

end Scope

section Plan

variable {p : PlannedObject} {placed : List PlannedObject} {scope : Scope} {r : Relocation} {patch : RelocationPatch}

lemma checkedRelocationValue_ok {label : String} {address addend value : ℕ}
    (h : checkedRelocationValue label address addend = .ok value) : Displaced address addend value := by
  unfold checkedRelocationValue at h
  dsimp only at h
  split_ifs at h with hrange
  · cases h
  · obtain rfl := Except.ok.inj h
    rw [not_or, not_lt, not_le] at hrange
    have hvalue : (((address : ℤ) + signedWord addend).toNat : ℤ) = address + signedWord addend := Int.toNat_of_nonneg hrange.1
    refine ⟨hvalue, ?_⟩
    have hcap := hrange.2
    unfold maxUserEnd at hcap
    unfold signedWord at *
    split_ifs at * <;> omega

lemma relocationTarget_ok {target : ℕ} (hfits : Fits mainBase p) (h : relocationTarget p r = .ok target) :
    target = p.base + relocationOffset r ∧ target % 8 = 0 ∧
      ∃ s ∈ p.elf.segs, p.base + s.vaddr ≤ target ∧ target + 8 ≤ p.base + s.vaddr + wordOfInt s.memSz := by
  simp only [relocationTarget, bind_ok, pure_ok] at h
  obtain ⟨_, haligned, target', htarget, _, hinside, rfl⟩ := h
  have haligned := require_ok haligned
  obtain rfl := checkedAdd_ok htarget
  refine ⟨rfl, ?_, ?_⟩
  · have := hfits.aligned
    unfold objectAlignment at this
    omega
  · have hinside := require_ok hinside
    simp only [relocationTargetInObject, List.any_eq_true, Bool.and_eq_true, decide_eq_true_eq] at hinside
    obtain ⟨s, hs, ⟨⟨-, hstart⟩, hstop⟩, -⟩ := hinside
    have hend := le_span hs
    have hwindow := hfits.stop
    have hbase := hfits.start
    refine ⟨s, hs, ?_⟩
    simp only [relocateSegment, segEnd] at hstart hstop
    unfold maxUserEnd at hwindow
    unfold mainBase at hbase
    have hv : (p.base + s.vaddr) % 2^64 = p.base + s.vaddr := Nat.mod_eq_of_lt (by omega)
    rw [hv] at hstart hstop
    omega

/-- A relocation that is planned gives the patch that it asks for. -/
lemma planRelocation_ok {target : ℕ} (hscope : buildExportScope placed = .ok scope) (hfits : Fits mainBase p)
    (htarget : relocationTarget p r = .ok target) (h : planRelocation p scope target r = .ok patch) :
    patch.target = target ∧ Relocates placed p r patch := by
  obtain ⟨heq, haligned, hinside⟩ := relocationTarget_ok hfits htarget
  cases r with
  | relativeBinding r =>
    simp only [planRelocation, bind_ok, pure_ok] at h
    obtain ⟨value, hvalue, rfl⟩ := h
    exact ⟨rfl, rfl, heq, haligned, hinside, rfl, rfl, rfl, checkedRelocationValue_ok hvalue⟩
  | eagerSymbolBinding r =>
    simp only [planRelocation, bind_ok] at h
    obtain ⟨kind, hkind, _, -, h⟩ := h
    cases hlookup : scope.lookup r.symbolName with
    | none =>
      rw [hlookup] at h
      cases h
    | some found =>
      rw [hlookup] at h
      simp only [bind_ok, pure_ok] at h
      obtain ⟨_, rfl, value, hvalue, rfl⟩ := h
      obtain ⟨q, symbol, hexp, rfl⟩ := lookup_exporter hscope hlookup
      exact ⟨rfl, rfl, heq, haligned, hinside, hkind, rfl, q, symbol, hexp, rfl, checkedRelocationValue_ok hvalue⟩

/-- The relocations of one object give one patch each, with distinct targets. -/
lemma planObjectGo_ok {seen : List ℕ} {acc patches : List RelocationPatch} {rs : List Relocation}
    (hscope : buildExportScope placed = .ok scope) (hfits : Fits mainBase p)
    (h : planObjectGo p scope seen acc rs = .ok patches) :
    ∃ new, patches = acc.reverse ++ new ∧ List.Forall₂ (Relocates placed p) rs new ∧
      (∀ patch ∈ new, patch.target ∉ seen) ∧ new.Pairwise fun a b => a.target ≠ b.target := by
  induction rs generalizing seen acc with
  | nil =>
    obtain rfl := Except.ok.inj h
    exact ⟨[], by simp, .nil, by simp, .nil⟩
  | cons r rs ih =>
    simp only [planObjectGo, bind_ok] at h
    obtain ⟨target, htarget, _, -, _, hfresh, patch, hpatch, h⟩ := h
    obtain ⟨new, rfl, hall, hseen, hpair⟩ := ih h
    obtain ⟨rfl, hrel⟩ := planRelocation_ok hscope hfits htarget hpatch
    refine ⟨patch :: new, by simp, .cons hrel hall, ?_, ?_⟩
    · intro other hother
      obtain rfl | hother := List.mem_cons.mp hother
      · exact require_ok hfresh
      · exact fun hin => hseen other hother (List.mem_cons_of_mem _ hin)
    · refine List.pairwise_cons.mpr ⟨fun other hother heq => ?_, hpair⟩
      exact hseen other hother (heq ▸ List.mem_cons_self)

lemma Relocates.bounds (h : Relocates placed p r patch) :
    p.base ≤ patch.target ∧ patch.target + 8 ≤ p.base + span p.elf := by
  obtain ⟨s, hs, hstart, hstop⟩ := h.inside
  have := le_span hs
  omega

/-- The patches of the objects one after another, from those of each object. -/
lemma planned_flatten {objects : List PlannedObject} {lists : List (List RelocationPatch)}
    (hpair : objects.Pairwise fun p q => p.base + span p.elf ≤ q.base)
    (h : List.Forall₂ (fun p new => List.Forall₂ (Relocates placed p) (objectRelocations p) new ∧
      new.Pairwise fun a b => a.target ≠ b.target) objects lists) :
    List.Forall₂ (fun o patch => Relocates placed o.1 o.2 patch) (relocationsOf objects) lists.flatten ∧
      lists.flatten.Pairwise Apart := by
  induction h with
  | nil => exact ⟨.nil, .nil⟩
  | @cons p new objects lists hp hrest ih =>
    obtain ⟨heach, hapart⟩ := ih hpair.of_cons
    have hown : List.Forall₂ (fun o patch => Relocates placed o.1 o.2 patch)
        ((objectRelocations p).map fun r => (p, r)) new := List.forall₂_map_left_iff.mpr hp.1
    refine ⟨List.rel_append hown heach, List.pairwise_append.mpr ⟨?_, hapart, ?_⟩⟩
    · -- two targets of one object are distinct multiples of eight
      refine hp.2.imp_of_mem fun {a b} ha hb hne => ?_
      obtain ⟨_, _, hra⟩ := forall₂_right hp.1 ha
      obtain ⟨_, _, hrb⟩ := forall₂_right hp.1 hb
      have h1 := hra.aligned
      have h2 := hrb.aligned
      unfold Apart
      omega
    · -- the targets of another object lie past the end of this one
      intro a ha b hb
      obtain ⟨_, _, hra⟩ := forall₂_right hp.1 ha
      obtain ⟨⟨q, r⟩, ho, hrb⟩ := forall₂_right heach hb
      have hq : q ∈ objects := by
        obtain ⟨q', hq', hin⟩ := List.mem_flatMap.mp ho
        obtain ⟨_, _, heq⟩ := List.mem_map.mp hin
        obtain ⟨rfl, -⟩ := Prod.mk.inj heq
        exact hq'
      have h1 := hra.bounds.2
      have h2 : q.base ≤ b.target := (Relocates.bounds hrb).1
      have h3 := (List.pairwise_cons.mp hpair).1 q hq
      left
      omega

theorem planPatches_exact {patches : List RelocationPatch} (hfits : ∀ p ∈ placed, Fits mainBase p)
    (hpair : placed.Pairwise fun p q => p.base + span p.elf ≤ q.base) (hscope : buildExportScope placed = .ok scope)
    (h : planPatches placed scope = .ok patches) : PatchesExact placed patches := by
  simp only [planPatches, bind_ok, pure_ok] at h
  obtain ⟨lists, hlists, rfl⟩ := h
  have hall := mapAll_ok.mp hlists
  have hplanned : List.Forall₂ (fun p new => List.Forall₂ (Relocates placed p) (objectRelocations p) new ∧
      new.Pairwise fun a b => a.target ≠ b.target) placed lists := by
    refine ((List.forall₂_and_left _ _).mpr ⟨hfits, hall⟩).imp fun p new ⟨hfit, hnew⟩ => ?_
    obtain ⟨_, rfl, hrel, -, hne⟩ := planObjectGo_ok hscope hfit hnew
    exact ⟨hrel, hne⟩
  obtain ⟨heach, hapart⟩ := planned_flatten hpair hplanned
  exact ⟨heach, hapart⟩

end Plan

/-- Every link that succeeds has exactly the patches that the relocations ask for, and a symbol
that is exported twice, or used and not exported, makes it fail. -/
theorem relocation_plan_exact (main : Elf) (deps : ObjectMap) :
    (∀ plan, linkDynamic main deps = .ok plan → ∃ placed, linkPlaced main deps = .ok placed ∧
      plan.objects = placed.map PlannedObject.toPlacedObject ∧ PatchesExact placed plan.patches) ∧
    (∀ placed name, linkPlaced main deps = .ok placed → 2 ≤ (exporters placed name).length →
      ∃ e, linkDynamic main deps = .error e) ∧
    ∀ placed r, ∀ p ∈ placed, linkPlaced main deps = .ok placed → .eagerSymbolBinding r ∈ objectRelocations p →
      exporters placed r.symbolName = [] → ∃ e, linkDynamic main deps = .error e := by
  have hexact : ∀ plan, linkDynamic main deps = .ok plan → ∃ placed scope, linkPlaced main deps = .ok placed ∧
      plan.objects = placed.map PlannedObject.toPlacedObject ∧ buildExportScope placed = .ok scope ∧
      PatchesExact placed plan.patches := by
    intro plan h
    simp only [linkDynamic, bind_ok, pure_ok] at h
    obtain ⟨placed, hplaced, scope, hscope, patches, hpatches, rfl⟩ := h
    obtain ⟨hfits, hpair, -⟩ := linkPlaced_fits hplaced
    exact ⟨placed, scope, hplaced, rfl, hscope, planPatches_exact hfits hpair hscope hpatches⟩
  refine ⟨?_, ?_, ?_⟩
  · intro plan h
    obtain ⟨placed, _, hplaced, hobjects, -, hpatches⟩ := hexact plan h
    exact ⟨placed, hplaced, hobjects, hpatches⟩
  · intro placed name hplaced htwo
    cases hlink : linkDynamic main deps with
    | error e => exact ⟨e, rfl⟩
    | ok plan =>
      obtain ⟨placed', scope, hplaced', -, hscope, -⟩ := hexact plan hlink
      obtain rfl := Except.ok.inj (hplaced.symm.trans hplaced')
      have := exporters_length_le hscope name
      omega
  · intro placed r p hp hplaced hr hnone
    cases hlink : linkDynamic main deps with
    | error e => exact ⟨e, rfl⟩
    | ok plan =>
      obtain ⟨placed', scope, hplaced', -, -, hpatches⟩ := hexact plan hlink
      obtain rfl := Except.ok.inj (hplaced.symm.trans hplaced')
      have hin : (p, Relocation.eagerSymbolBinding r) ∈ relocationsOf placed :=
        List.mem_flatMap.mpr ⟨p, hp, List.mem_map_of_mem hr⟩
      obtain ⟨patch, -, hrel⟩ := forall₂_right hpatches.each.flip hin
      obtain ⟨-, -, q, symbol, hexp, -⟩ := hrel.value
      rw [hnone] at hexp
      cases hexp

section Sample

/-- A main object with a relative relocation and one to a symbol of its dependency. -/
def importerMain : Elf :=
  let object := sampleMain ["libx"]
  { object with dyn := { object.dyn with
      hashStyle := .sysVHash ⟨0, 16, 1, 2⟩
      symbols := some ⟨16, 24, [⟨"", 0, 0, 0, 0, 0, 1⟩, ⟨"f", 0x12, 0, 0, 0, 0, 1⟩]⟩
      relocations := [⟨.dynamicRelocations, 0, 48, 24,
        [.relativeBinding ⟨0x10, 0x20⟩, .eagerSymbolBinding ⟨0x18, rAarch64GlobDat, 1, "f", 2^64 - 8, 1⟩]⟩] } }

def exporterLib : Elf :=
  let object := sampleLib "libx" []
  { object with dyn := { object.dyn with
      hashStyle := .sysVHash ⟨0, 16, 1, 2⟩
      symbols := some ⟨16, 24, [⟨"", 0, 0, 0, 0, 0, 1⟩, ⟨"f", 0x12, 0, 1, 0x40, 8, 1⟩]⟩ } }

def exporterDeps : ObjectMap := ⟨[("libx", exporterLib)], by decide⟩

def importerPatches : List RelocationPatch :=
  [⟨"main", "main", none, .relative, 0x01000010, 0x01000020⟩, ⟨"main", "libx", some "f", .globDat, 0x01000018, 0x01010038⟩]

lemma linkDynamic_importer : ∃ plan, linkDynamic importerMain exporterDeps = .ok plan ∧ plan.patches = importerPatches := by
  have horder : dependencyOrder exporterDeps importerMain.dyn.needed = .ok [("libx", exporterLib)] := by
    have hx : exporterDeps.lookup "libx" = some exporterLib := by rfl
    have hneeded : importerMain.dyn.needed = ["libx"] := rfl
    have hnone : exporterLib.dyn.needed = [] := rfl
    rw [dependencyOrder, hneeded, dependencyGo_enter (by decide) hx (by rfl), hnone]
    simp only [dependencyGo_nil, Except.bind]
    rfl
  refine ⟨⟨[⟨"main", mainBase, mainBase + 0x100, 1⟩, ⟨"libx", 0x01010000, 0x01010100, 1⟩], importerPatches,
    [.call 0x01010200, .call 0x01000200], []⟩, ?_, rfl⟩
  rw [linkDynamic, linkPlaced_of_order (by decide) (by rfl) horder]
  rfl

/-- The patches of the sample are those that its relocations ask for. -/
theorem relocation_plan_exact_importer : ∃ placed, linkPlaced importerMain exporterDeps = .ok placed ∧
    PatchesExact placed importerPatches := by
  obtain ⟨plan, hlink, hpatches⟩ := linkDynamic_importer
  obtain ⟨placed, hplaced, -, hexact⟩ := (relocation_plan_exact importerMain exporterDeps).1 plan hlink
  exact ⟨placed, hplaced, hpatches ▸ hexact⟩

end Sample

end HouseKernel.Linker
