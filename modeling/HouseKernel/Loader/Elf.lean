import HouseKernel.Loader.Image

/-! An accepted ELF image: its segments and the tables of its dynamic section. File offsets and
sizes are `Int` in the source, addresses `Word64`. -/
namespace HouseKernel.Loader

def maxElfBytes : ℕ := 2^25
def maxPhnum : ℕ := 16
def maxSegments : ℕ := 8
def maxSegMemSz : ℕ := 32 * 1024 * 1024
def maxTotalPages : ℕ := 8192
def minExecVAddr : ℕ := 0x01000000
def maxVAddr : ℕ := 0xFFFFFFFF
def maxInterpLen : ℕ := 256
def maxDynStrSz : ℕ := 4 * 1024 * 1024
def maxNeeded : ℕ := 16
def maxRelaCount : ℕ := 262144
def maxDynEnt : ℕ := 64
def maxNeededNameLen : ℕ := 128
def maxDynHashBuckets : ℕ := 131072
def maxDynSymbols : ℕ := 131072
def maxSymbolNameLen : ℕ := 256
def maxInitArrayEntries : ℕ := 64
def ldHousePath : String := "/lib/ld-house.so.0"
def stackPageStart : ℕ := 0x3FFFD000

structure SysvHash where
  offset : ℤ
  size : ℤ
  buckets : ℕ
  symbols : ℕ
  deriving DecidableEq, Repr

inductive HashStyle where
  | noHash
  | sysVHash (hash : SysvHash)
  deriving DecidableEq, Repr

structure DynamicSymbol where
  name : String
  info : ℕ
  other : ℕ
  sectionIndex : ℕ
  value : ℕ
  size : ℕ
  version : ℕ
  deriving DecidableEq, Repr

/-- The source also keeps the entries in a map by their index. -/
structure DynamicSymbols where
  offset : ℤ
  entSize : ℕ
  entries : List DynamicSymbol
  deriving DecidableEq, Repr

inductive RelocationTableKind where
  | dynamicRelocations
  | pltRelocations
  deriving DecidableEq, Repr

structure RelativeRelocation where
  offset : ℕ
  addend : ℕ
  deriving DecidableEq, Repr

structure EagerSymbolRelocation where
  offset : ℕ
  type : ℕ
  symbolIndex : ℕ
  symbolName : String
  addend : ℕ
  symbolVersion : ℕ
  deriving DecidableEq, Repr

inductive Relocation where
  | relativeBinding (r : RelativeRelocation)
  | eagerSymbolBinding (r : EagerSymbolRelocation)
  deriving DecidableEq, Repr

structure RelocationTable where
  kind : RelocationTableKind
  offset : ℤ
  size : ℤ
  entSize : ℕ
  entries : List Relocation
  deriving DecidableEq, Repr

inductive SkipReason where
  | versionedResolution
  | runPath
  | relocationHint
  | extendedSymbolIndex
  deriving DecidableEq, Repr

structure DynSkip where
  tag : ℕ
  reason : SkipReason
  deriving DecidableEq, Repr

/-- A table of constructors: its address and the number of its pointers. -/
structure InitArray where
  vaddr : ℕ
  entries : ℕ
  deriving DecidableEq, Repr

structure RelroRange where
  start : ℕ
  stop : ℕ
  deriving DecidableEq, Repr

structure DynInfo where
  present : Bool
  needed : List String
  soname : Option String
  hashStyle : HashStyle
  bindNow : Bool
  flags1 : ℕ
  pltGot : Option ℕ
  strOff : ℤ
  strSz : ℤ
  symbols : Option DynamicSymbols
  relocations : List RelocationTable
  skipped : List DynSkip
  initFn : Option ℕ
  finiFn : Option ℕ
  initArray : Option InitArray
  finiArray : Option InitArray
  deriving DecidableEq, Repr

def emptyDynInfo : DynInfo :=
  ⟨false, [], none, .noHash, false, 0, none, 0, 0, none, [], [], none, none, none, none⟩

structure Elf where
  entry : ℕ
  segs : List Segment
  bytes : Bytes
  isDyn : Bool
  interp : Option String
  dyn : DynInfo
  relro : Option RelroRange
  deriving DecidableEq, Repr

/-- `fromIntegral` from `Int` to `Word64`. -/
def wordOfInt (z : ℤ) : ℕ := (z % 2^64).toNat

end HouseKernel.Loader
