import HouseKernel.Lib.Checks
import HouseKernel.Loader.Elf

/-! The planner for dynamic objects: it validates the dependency graph, places the objects one
after another, collects their exports and plans every relocation. -/
namespace HouseKernel.Linker

open HouseKernel.Lib HouseKernel.Loader

def mainObjectName : String := "main"
def mainBase : ℕ := 0x01000000
def maxUserEnd : ℕ := 0x100000000
def pageSize : ℕ := 4096
def objectAlignment : ℕ := 64 * 1024
def maxDependencies : ℕ := 16
def maxObjectPages : ℕ := 8192
def maxTotalPages : ℕ := 8192
def pfWrite : BitVec 32 := 2

inductive LinkRelocation where
  | relative
  | globDat
  | jumpSlot
  | abs64
  deriving DecidableEq, Repr

structure PlacedObject where
  name : String
  base : ℕ
  entry : ℕ
  pages : ℕ
  deriving DecidableEq, Repr

structure RelocationPatch where
  object : String
  provider : String
  symbol : Option String
  relocation : LinkRelocation
  target : ℕ
  value : ℕ
  deriving DecidableEq, Repr

/-- Call one address, or the relocated pointers of an array. -/
inductive LinkStep where
  | call (address : ℕ)
  | arrayAt (address entries : ℕ)
  deriving DecidableEq, Repr

structure LinkPlan where
  objects : List PlacedObject
  patches : List RelocationPatch
  initSteps : List LinkStep
  finiSteps : List LinkStep
  deriving DecidableEq, Repr

structure PlannedObject extends PlacedObject where
  elf : Elf
  deriving DecidableEq, Repr

structure ExportedSymbol where
  provider : String
  address : ℕ
  deriving DecidableEq, Repr

/-- A map with string keys. -/
structure ObjectMap where
  entries : List (String × Elf)
  keys : (entries.map Prod.fst).Nodup

def ObjectMap.lookup (deps : ObjectMap) (name : String) : Option Elf := deps.entries.lookup name

abbrev Link := Except LoadError

def badLink {α : Type} (msg : String) : Link α := .error (.badDyn ("link: " ++ msg))

/-- Fail with a message unless `p`. -/
def require (p : Prop) [Decidable p] (msg : String) : Link Unit := check p (.badDyn ("link: " ++ msg))

def checkedAdd (label : String) (left right : ℕ) : Link ℕ :=
  if right > 2^64 - 1 - left then badLink (label ++ " overflows") else .ok (left + right)

def alignUpChecked (label : String) (value alignment : ℕ) : Link ℕ :=
  if value % alignment = 0 then .ok value else checkedAdd label value (alignment - value % alignment)

def floorPage (value : ℕ) : ℕ := value - value % pageSize

/-- The end of a segment, in `Word64`. -/
def segEnd (s : Segment) : ℕ := (s.vaddr + wordOfInt s.memSz) % 2^64

def relocateSegment (base : ℕ) (s : Segment) : Segment := { s with vaddr := (base + s.vaddr) % 2^64 }

def containsEntry (entry : ℕ) (s : Segment) : Bool := s.vaddr ≤ entry && entry < segEnd s

def containsRelro (relro : RelroRange) (s : Segment) : Bool :=
  s.vaddr ≤ relro.start && relro.start < segEnd s && s.vaddr < relro.stop && relro.stop ≤ segEnd s

def containsSymbol (start stop : ℕ) (s : Segment) : Bool :=
  s.vaddr ≤ start && start < segEnd s && start ≤ stop && stop ≤ segEnd s

def rangeTouchesStack (s : Segment) : Bool :=
  if s.memSz = 0 then false
  else
    let firstPage := s.vaddr / pageSize
    let lastPage := (s.vaddr + wordOfInt s.memSz + (2^64 - 1)) % 2^64 / pageSize
    let stackPage := stackPageStart / pageSize
    firstPage ≤ stackPage && stackPage ≤ lastPage

/-- The whole pages of a segment with memory, and whether it is writable. -/
def segmentPageRange (name : String) (base : ℕ) (s : Segment) : Link (Option (ℕ × ℕ × Bool)) := do
  require (¬ (s.fileSz < 0 ∨ s.memSz < 0)) (name ++ " has negative segment size")
  require (s.fileSz ≤ s.memSz) (name ++ " has filesz above memsz")
  let start ← checkedAdd (name ++ " segment start") base s.vaddr
  let stop ← checkedAdd (name ++ " segment end") start (wordOfInt s.memSz)
  require (stop ≤ maxUserEnd) (name ++ " segment exceeds 4GiB user window")
  if s.memSz = 0 then pure none
  else
    let firstPage := floorPage start
    let lastPage := floorPage (stop - 1)
    let endPage ← checkedAdd (name ++ " segment page end") lastPage pageSize
    pure (some (firstPage, endPage, s.flags &&& pfWrite ≠ 0))

/-- Add the pages of one segment to the count. -/
def countPages (name : String) (total : ℕ) (s : Segment) : Link ℕ := do
  match ← segmentPageRange name 0 s with
  | none => pure total
  | some (start, stop, _) => checkedAdd (name ++ " page count") total ((stop - start) / pageSize)

def objectPageCount (name : String) (elf : Elf) : Link ℕ := do
  require (elf.segs ≠ []) (name ++ " has no PT_LOAD")
  foldAll (countPages name) 0 elf.segs

def objectEndOffset (name : String) (elf : Elf) : Link ℕ :=
  foldAll (fun current s => do
    let stop ← checkedAdd (name ++ " segment end") s.vaddr (wordOfInt s.memSz)
    pure (max current stop)) 0 elf.segs

def validateRelro (name : String) (elf : Elf) : Link Unit :=
  match elf.relro with
  | none => badLink (name ++ " has no RELRO")
  | some relro => do
    require (relro.stop > relro.start) (name ++ " has empty RELRO")
    require (elf.segs.any (containsRelro relro)) (name ++ " RELRO outside LOAD")

def validateSymbolMetadata (name : String) (dyn : DynInfo) : Link Unit :=
  match dyn.hashStyle, dyn.symbols with
  | .sysVHash hash, some symbols => do
    let count := symbols.entries.length
    require (hash.buckets ≠ 0) (name ++ " has no SysV hash buckets")
    require (count = hash.symbols) (name ++ " SysV symbol count mismatch")
    require (count ≤ maxDynSymbols) (name ++ " dynamic symbol count exceeds cap")
    require (symbols.entSize = 24) (name ++ " dynamic symbol entry size unsupported")
  | _, _ => badLink (name ++ " requires SysV symbols")

def validateEntry (name : String) (elf : Elf) : Link Unit :=
  require (elf.segs.any (containsEntry elf.entry)) (name ++ " entry outside LOAD")

def validateRuntimeObject (name : String) (elf : Elf) : Link Unit := do
  require elf.dyn.present (name ++ " has no PT_DYNAMIC")
  require elf.dyn.bindNow (name ++ " is not bind-now")
  require (elf.dyn.needed.length ≤ maxNeeded) (name ++ " NEEDED count exceeds cap")
  require (elf.bytes.length ≤ maxElfBytes) (name ++ " exceeds maxElfBytes")
  let pages ← objectPageCount name elf
  require (pages ≤ maxObjectPages) (name ++ " exceeds object page cap")
  validateRelro name elf
  validateSymbolMetadata name elf.dyn
  validateEntry name elf

def validateMain (elf : Elf) : Link Unit := do
  require elf.isDyn "main is not ET_DYN"
  require (elf.interp = some ldHousePath) "main interpreter mismatch"
  validateRuntimeObject "main" elf

def validateDependency (expected : String) (elf : Elf) : Link Unit := do
  require elf.isDyn ("dependency " ++ expected ++ " is not ET_DYN")
  require (elf.interp = none) ("dependency " ++ expected ++ " has PT_INTERP")
  require (elf.dyn.soname = some expected) ("SONAME mismatch for " ++ expected)
  validateRuntimeObject ("dependency " ++ expected) elf

/-- The objects that the walk is not inside of. -/
def ObjectMap.idle (deps : ObjectMap) (active : List String) : ℕ := (deps.entries.filter fun p => p.1 ∉ active).length

lemma ObjectMap.idle_lt (deps : ObjectMap) {active : List String} {name : String} {elf : Elf} (ha : name ∉ active)
    (h : deps.lookup name = some elf) : deps.idle (name :: active) < deps.idle active := by
  have hin : (name, elf) ∈ deps.entries := by
    rw [lookup, List.lookup_eq_some_iff] at h
    obtain ⟨l₁, l₂, heq, -⟩ := h
    simp [heq]
  have hsub : (deps.entries.filter fun p => p.1 ∉ name :: active).Sublist (deps.entries.filter fun p => p.1 ∉ active) := by
    refine List.monotone_filter_right _ fun p hp => ?_
    simp only [List.mem_cons, not_or, decide_eq_true_eq] at hp ⊢
    exact hp.2
  refine lt_of_le_of_ne hsub.length_le fun heq => ?_
  have hmem : (name, elf) ∈ deps.entries.filter fun p => p.1 ∉ active := List.mem_filter.mpr ⟨hin, by simpa using ha⟩
  rw [← hsub.eq_of_length heq] at hmem
  simp at hmem

/-- The objects that `names` need, each before what it needs itself, in reverse. -/
def dependencyGo (deps : ObjectMap) (active done : List String) (orderedRev : List (String × Elf)) :
    List String → Link (List (String × Elf) × List String)
  | [] => .ok (orderedRev, done)
  | name :: rest =>
    if name ∈ done then dependencyGo deps active done orderedRev rest
    else if _ha : name ∈ active then .error .neededCycle
    else if name = mainObjectName then badLink "dependency name main reserved"
    else match _h : deps.lookup name with
      | none => .error (.dependencyMissing name)
      | some elf => do
        validateDependency name elf
        let child ← dependencyGo deps (name :: active) done ((name, elf) :: orderedRev) elf.dyn.needed
        dependencyGo deps active (name :: child.2) child.1 rest
  termination_by names => (deps.idle active, names.length)
  decreasing_by
    · exact Prod.Lex.right _ (Nat.lt_succ_self _)
    · exact Prod.Lex.left _ _ (deps.idle_lt _ha _h)
    · exact Prod.Lex.right _ (Nat.lt_succ_self _)

def dependencyOrder (deps : ObjectMap) (roots : List String) : Link (List (String × Elf)) := do
  let ordered ← dependencyGo deps [] [] [] roots
  pure ordered.1.reverse

def validatePlacedRanges (name : String) (base entry : ℕ) (elf : Elf) : Link Unit := do
  forAll (fun s => require (¬ rangeTouchesStack (relocateSegment base s)) (name ++ " load reaches reserved stack page")) elf.segs
  require (elf.segs.any fun s => containsEntry entry (relocateSegment base s)) (name ++ " relocated entry outside LOAD")

/-- Place one object after the other, from `cursor` on. -/
def placeObjects : List (String × Elf) → ℕ → ℕ → Link (List PlannedObject)
  | [], _, _ => .ok []
  | (name, elf) :: rest, cursor, totalPages => do
    let pages ← objectPageCount name elf
    let totalPages' ← checkedAdd "total mapped pages" totalPages pages
    require (totalPages' ≤ maxTotalPages) "total mapped page cap exceeded"
    let objectEnd ← objectEndOffset name elf
    let absoluteEnd ← checkedAdd (name ++ " load end") cursor objectEnd
    require (absoluteEnd ≤ maxUserEnd) (name ++ " load exceeds 4GiB user window")
    let entry ← checkedAdd (name ++ " entry") cursor elf.entry
    validatePlacedRanges name cursor entry elf
    let next ← alignUpChecked (name ++ " next base") absoluteEnd objectAlignment
    let tailPlaced ← placeObjects rest next totalPages'
    pure (⟨⟨name, cursor, entry, pages⟩, elf⟩ :: tailPlaced)

def symbolBinding (symbol : DynamicSymbol) : ℕ := symbol.info / 16
def symbolVisibility (symbol : DynamicSymbol) : ℕ := symbol.other % 4
def symbolType (symbol : DynamicSymbol) : ℕ := symbol.info % 16

def shnUndef : ℕ := 0
def shnReservedStart : ℕ := 0xFF00
def stbGlobal : ℕ := 1
def stbWeak : ℕ := 2
def stvDefault : ℕ := 0
def stvProtected : ℕ := 3

def admissibleBinding (defined : Bool) (symbol : DynamicSymbol) : Bool :=
  if defined then symbolBinding symbol ∈ [stbGlobal, stbWeak] else symbolBinding symbol = stbGlobal

def admissibleVisibility (defined : Bool) (symbol : DynamicSymbol) : Bool :=
  if defined then symbolVisibility symbol ∈ [stvDefault, stvProtected] else symbolVisibility symbol = stvDefault

def exportedAddress (planned : PlannedObject) (symbol : DynamicSymbol) : Link ℕ := do
  let stop ← checkedAdd (symbol.name ++ " symbol end") symbol.value symbol.size
  require (planned.elf.segs.any (containsSymbol symbol.value stop)) ("symbol outside LOAD: " ++ symbol.name)
  checkedAdd (symbol.name ++ " provider") planned.base symbol.value

/-- The exports by name; the map of the source as a list with distinct names. -/
abbrev Scope := List (String × ExportedSymbol)

def addSymbol (planned : PlannedObject) (scope : Scope) (symbol : DynamicSymbol) : Link Scope :=
  if symbol.name = "" then pure scope
  else do
    let defined := symbol.sectionIndex ≠ shnUndef
    require (admissibleBinding defined symbol) ("unsupported symbol binding for " ++ symbol.name)
    require (admissibleVisibility defined symbol) ("unsupported symbol visibility for " ++ symbol.name)
    require (symbolType symbol ∈ [0, 1, 2]) ("unsupported symbol type for " ++ symbol.name)
    if ¬ defined then pure scope
    else if symbol.sectionIndex ≥ shnReservedStart then badLink ("unsupported symbol section for " ++ symbol.name)
    else do
      let address ← exportedAddress planned symbol
      require (scope.lookup symbol.name = none) ("duplicate export " ++ symbol.name)
      pure ((symbol.name, ⟨planned.name, address⟩) :: scope)

def addObject (scope : Scope) (planned : PlannedObject) : Link Scope :=
  match planned.elf.dyn.symbols with
  | none => badLink (planned.name ++ " has no dynamic symbols")
  | some symbols => foldAll (addSymbol planned) scope symbols.entries

def buildExportScope (planned : List PlannedObject) : Link Scope := foldAll addObject [] planned

def relocationTargetInObject (planned : PlannedObject) (target : ℕ) (relocation : Relocation) : Bool :=
  let writable := match relocation with
    | .eagerSymbolBinding _ => true
    | .relativeBinding _ => false
  planned.elf.segs.any fun segment =>
    let s := relocateSegment planned.base segment
    s.memSz ≥ 8 && s.vaddr ≤ target && target ≤ (segEnd s + (2^64 - 8)) % 2^64 && (!writable || s.flags &&& pfWrite ≠ 0)

def relocationOffset : Relocation → ℕ
  | .relativeBinding r => r.offset
  | .eagerSymbolBinding r => r.offset

def relocationTarget (planned : PlannedObject) (relocation : Relocation) : Link ℕ := do
  let offset := relocationOffset relocation
  require (offset % 8 = 0) (planned.name ++ " relocation target is unaligned")
  let target ← checkedAdd (planned.name ++ " relocation target") planned.base offset
  require (relocationTargetInObject planned target relocation) (planned.name ++ " relocation target outside LOAD")
  pure target

def rAarch64Abs64 : ℕ := 257
def rAarch64GlobDat : ℕ := 1025
def rAarch64JumpSlot : ℕ := 1026

def relocationKind (relocationType : ℕ) : Link LinkRelocation :=
  if relocationType = rAarch64GlobDat then .ok .globDat
  else if relocationType = rAarch64JumpSlot then .ok .jumpSlot
  else if relocationType = rAarch64Abs64 then .ok .abs64
  else .error (.unsupportedReloc relocationType)

/-- `fromIntegral` from `Word64` to `Int64`. -/
def signedWord (w : ℕ) : ℤ := if w % 2^64 < 2^63 then (w % 2^64 : ℕ) else (w % 2^64 : ℕ) - 2^64

def checkedRelocationValue (label : String) (base addend : ℕ) : Link ℕ :=
  let value := (base : ℤ) + signedWord addend
  if value < 0 ∨ value ≥ maxUserEnd then badLink (label ++ " outside 4GiB user window") else .ok value.toNat

def validateEagerSymbol (planned : PlannedObject) (eager : EagerSymbolRelocation) : Link Unit :=
  match planned.elf.dyn.symbols with
  | none => badLink (planned.name ++ " eager relocation has no symbols")
  | some symbols => match symbols.entries.drop eager.symbolIndex with
    | [] => badLink (planned.name ++ " eager relocation symbol mismatch")
    | symbol :: _ => require (symbol.name = eager.symbolName) (planned.name ++ " eager relocation symbol mismatch")

def planRelocation (planned : PlannedObject) (scope : Scope) (target : ℕ) : Relocation → Link RelocationPatch
  | .relativeBinding r => do
    let value ← checkedRelocationValue (planned.name ++ " RELATIVE value") planned.base r.addend
    pure ⟨planned.name, planned.name, none, .relative, target, value⟩
  | .eagerSymbolBinding r => do
    let kind ← relocationKind r.type
    validateEagerSymbol planned r
    let provider ← match scope.lookup r.symbolName with
      | none => badLink ("unresolved relocation symbol " ++ r.symbolName)
      | some found => pure found
    let value ← checkedRelocationValue (r.symbolName ++ " relocation value") provider.address r.addend
    pure ⟨planned.name, provider.provider, some r.symbolName, kind, target, value⟩

/-- The relocations of one object in turn; `seen` has the targets so far. -/
def planObjectGo (object : PlannedObject) (scope : Scope) (seen : List ℕ) (acc : List RelocationPatch) :
    List Relocation → Link (List RelocationPatch)
  | [] => .ok acc.reverse
  | relocation :: rest => do
    let target ← relocationTarget object relocation
    require (target ≤ 2^64 - 1 - 7) (object.name ++ " relocation target overflows patch")
    require (target ∉ seen) (object.name ++ " duplicate relocation target")
    let patch ← planRelocation object scope target relocation
    planObjectGo object scope (target :: seen) (patch :: acc) rest

def objectRelocations (object : PlannedObject) : List Relocation := object.elf.dyn.relocations.flatMap RelocationTable.entries

def planPatches (planned : List PlannedObject) (scope : Scope) : Link (List RelocationPatch) := do
  let patches ← mapAll (fun object => planObjectGo object scope [] [] (objectRelocations object)) planned
  pure patches.flatten

/-- The constructors of one object, in its own order. -/
def callSteps (single : Option ℕ) (array : Option InitArray) (planned : PlannedObject) : List LinkStep :=
  (single.toList.map fun va => .call ((planned.base + va) % 2^64)) ++
    array.toList.map fun table => .arrayAt ((planned.base + table.vaddr) % 2^64) table.entries

def initStepsOf (planned : PlannedObject) : List LinkStep :=
  callSteps planned.elf.dyn.initFn planned.elf.dyn.initArray planned

def finiStepsOf (planned : PlannedObject) : List LinkStep :=
  (callSteps planned.elf.dyn.finiFn planned.elf.dyn.finiArray planned).reverse

def initOrder (placed : List PlannedObject) : List PlannedObject := (placed.drop 1).reverse ++ placed.take 1

/-- The objects of a plan, in the order of their placement. -/
def linkPlaced (main : Elf) (deps : ObjectMap) : Link (List PlannedObject) := do
  require (deps.entries.length ≤ maxDependencies) "dependency object cap exceeded"
  validateMain main
  let orderedDeps ← dependencyOrder deps main.dyn.needed
  placeObjects ((mainObjectName, main) :: orderedDeps) mainBase 0

def linkDynamic (main : Elf) (deps : ObjectMap) : Link LinkPlan := do
  let placed ← linkPlaced main deps
  let scope ← buildExportScope placed
  let patches ← planPatches placed scope
  pure ⟨placed.map PlannedObject.toPlacedObject, patches, (initOrder placed).flatMap initStepsOf,
    (initOrder placed).reverse.flatMap finiStepsOf⟩

section Walk

variable {main : Elf} {deps : ObjectMap}

/-- One step of the walk, at an object that it enters. -/
lemma dependencyGo_enter {active done : List String} {rev : List (String × Elf)} {name : String} {rest : List String}
    {elf : Elf} (hnew : name ∉ done ∧ name ∉ active ∧ name ≠ mainObjectName)
    (helf : deps.lookup name = some elf) (hvalid : validateDependency name elf = .ok ()) :
    dependencyGo deps active done rev (name :: rest) =
      (dependencyGo deps (name :: active) done ((name, elf) :: rev) elf.dyn.needed).bind fun child =>
        dependencyGo deps active (name :: child.2) child.1 rest := by
  obtain ⟨hdone, hactive, hmain⟩ := hnew
  rw [dependencyGo, if_neg hdone, dif_neg hactive, if_neg hmain]
  split
  case h_1 hnone => simp [hnone] at helf
  case h_2 elf' helf' =>
    obtain rfl : elf = elf' := Option.some.inj (helf.symm.trans helf')
    rw [hvalid]
    rfl

lemma dependencyGo_nil {active done : List String} {rev : List (String × Elf)} :
    dependencyGo deps active done rev [] = .ok (rev, done) := by rw [dependencyGo]

lemma dependencyGo_seen {active done : List String} {rev : List (String × Elf)} {name : String} {rest : List String}
    (h : name ∈ done) : dependencyGo deps active done rev (name :: rest) = dependencyGo deps active done rev rest := by
  rw [dependencyGo, if_pos h]

lemma linkPlaced_of_order {objs : List (String × Elf)} (hsize : deps.entries.length ≤ maxDependencies)
    (hmain : validateMain main = .ok ()) (h : dependencyOrder deps main.dyn.needed = .ok objs) :
    linkPlaced main deps = placeObjects ((mainObjectName, main) :: objs) mainBase 0 := by
  rw [linkPlaced, require, check, if_pos hsize, hmain, h]
  rfl

end Walk

/-- A small object with one segment of `size` bytes and a constructor. -/
def sampleObject (soname interp : Option String) (needed : List String) (size : ℕ) : Elf where
  entry := 0x100
  segs := [⟨0, 0, 0x1000, size, 6⟩]
  bytes := []
  isDyn := true
  interp := interp
  dyn := { emptyDynInfo with
    present := true
    needed := needed
    soname := soname
    hashStyle := .sysVHash ⟨0, 16, 1, 1⟩
    bindNow := true
    symbols := some ⟨16, 24, [⟨"", 0, 0, 0, 0, 0, 1⟩]⟩
    initFn := some 0x200 }
  relro := some ⟨0, 0x1000⟩

def sampleMain (needed : List String) : Elf := sampleObject none (some ldHousePath) needed 0x1000

def sampleLib (name : String) (needed : List String) : Elf := sampleObject (some name) none needed 0x1000

end HouseKernel.Linker
