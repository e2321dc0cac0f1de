import HouseKernel.Loader.Parse

/-! The parser of ELF images, continued: the dynamic section with its tables of strings, symbols
and relocations, and the whole of `loadElf`. -/
namespace HouseKernel.Loader

open HouseKernel.Lib

def dtNull : ℕ := 0
def dtNeeded : ℕ := 1
def dtPltRelsz : ℕ := 2
def dtPltGot : ℕ := 3
def dtHash : ℕ := 4
def dtStrtab : ℕ := 5
def dtSymtab : ℕ := 6
def dtRela : ℕ := 7
def dtRelasz : ℕ := 8
def dtRelaent : ℕ := 9
def dtStrsz : ℕ := 10
def dtSyment : ℕ := 11
def dtInit : ℕ := 12
def dtFini : ℕ := 13
def dtSoname : ℕ := 14
def dtRel : ℕ := 17
def dtRelsz : ℕ := 18
def dtRelent : ℕ := 19
def dtPltRel : ℕ := 20
def dtDebug : ℕ := 21
def dtTextrel : ℕ := 22
def dtJmpRel : ℕ := 23
def dtBindNow : ℕ := 24
def dtInitArray : ℕ := 25
def dtFiniArray : ℕ := 26
def dtInitArraySz : ℕ := 27
def dtFiniArraySz : ℕ := 28
def dtRunPath : ℕ := 29
def dtFlags : ℕ := 30
def dtPreinitArray : ℕ := 32
def dtPreinitArraySz : ℕ := 33
def dtSymtabShndx : ℕ := 34
def dtRelrSz : ℕ := 35
def dtRelr : ℕ := 36
def dtRelrEnt : ℕ := 37
def dtGnuHash : ℕ := 0x6FFFFEF5
def dtTlsDescPlt : ℕ := 0x6FFFFEF6
def dtTlsDescGot : ℕ := 0x6FFFFEF7
def dtTlsMod : ℕ := 0x6FFFFEF9
def dtTlsLo : ℕ := 0x6FFFFEFA
def dtTlsHi : ℕ := 0x6FFFFEFB
def dtVerSym : ℕ := 0x6FFFFFF0
def dtRelaCount : ℕ := 0x6FFFFFF9
def dtFlags1 : ℕ := 0x6FFFFFFB
def dtVerDef : ℕ := 0x6FFFFFFC
def dtVerDefNum : ℕ := 0x6FFFFFFD
def dtVerNeed : ℕ := 0x6FFFFFFE
def dtVerNeedNum : ℕ := 0x6FFFFFFF

def rAarch64Abs64 : ℕ := 257
def rAarch64GlobDat : ℕ := 1025
def rAarch64JumpSlot : ℕ := 1026
def rAarch64Relative : ℕ := 1027
def rAarch64TlsFirst : ℕ := 1028
def rAarch64IRelative : ℕ := 1037

def dfTextrel : ℕ := 0x4
def dfBindNow : ℕ := 0x8
def df1Now : ℕ := 0x1
def sttTls : ℕ := 6
def verNdxGlobal : ℕ := 1

/-- The tags that are known not to matter. -/
def skipDynTag (tag : ℕ) : Option SkipReason :=
  if tag ∈ [dtVerNeed, dtVerNeedNum, dtVerDef, dtVerDefNum] then some .versionedResolution
  else if tag = dtRunPath then some .runPath
  else if tag = dtRelaCount then some .relocationHint
  else if tag = dtSymtabShndx then some .extendedSymbolIndex
  else none

/-- What the entries of the dynamic section have said so far. -/
structure DynAcc where
  needed : List ℕ
  soname : Option ℕ
  strtab : Option ℕ
  strsz : Option ℕ
  symtab : Option ℕ
  syment : Option ℕ
  verSym : Option ℕ
  hash : Option ℕ
  rela : Option ℕ
  relasz : Option ℕ
  relaent : Option ℕ
  jmpRel : Option ℕ
  pltRelsz : Option ℕ
  pltRel : Option ℕ
  pltGot : Option ℕ
  flags : Option ℕ
  flags1 : Option ℕ
  bindNowTag : Bool
  debugTag : Bool
  skipped : List DynSkip
  initFn : Option ℕ
  finiFn : Option ℕ
  initArray : Option ℕ
  initArraySz : Option ℕ
  finiArray : Option ℕ
  finiArraySz : Option ℕ
  done : Bool
  deriving DecidableEq, Repr

def emptyDynAcc : DynAcc :=
  ⟨[], none, none, none, none, none, none, none, none, none, none, none, none, none, none, none, none, false, false, [],
    none, none, none, none, none, none, false⟩

def setOnce (name : String) (field : Option ℕ) (set : Option ℕ → DynAcc) (val : ℕ) : Load DynAcc :=
  match field with
  | some _ => .error (.badDyn ("duplicate " ++ name))
  | none => .ok (set (some val))

def stepDyn (tag val : ℕ) (a : DynAcc) : Load DynAcc :=
  if tag = dtNull then .ok { a with done := true }
  else if tag = dtNeeded then .ok { a with needed := a.needed ++ [val] }
  else if tag = dtSoname then setOnce "SONAME" a.soname (fun v => { a with soname := v }) val
  else if tag = dtStrtab then setOnce "STRTAB" a.strtab (fun v => { a with strtab := v }) val
  else if tag = dtStrsz then setOnce "STRSZ" a.strsz (fun v => { a with strsz := v }) val
  else if tag = dtSymtab then setOnce "SYMTAB" a.symtab (fun v => { a with symtab := v }) val
  else if tag = dtSyment then setOnce "SYMENT" a.syment (fun v => { a with syment := v }) val
  else if tag = dtVerSym then setOnce "VERSYM" a.verSym (fun v => { a with verSym := v }) val
  else if tag = dtHash then setOnce "HASH" a.hash (fun v => { a with hash := v }) val
  else if tag = dtRela then setOnce "RELA" a.rela (fun v => { a with rela := v }) val
  else if tag = dtRelasz then setOnce "RELASZ" a.relasz (fun v => { a with relasz := v }) val
  else if tag = dtRelaent then setOnce "RELAENT" a.relaent (fun v => { a with relaent := v }) val
  else if tag = dtJmpRel then setOnce "JMPREL" a.jmpRel (fun v => { a with jmpRel := v }) val
  else if tag = dtPltRelsz then setOnce "PLTRELSZ" a.pltRelsz (fun v => { a with pltRelsz := v }) val
  else if tag = dtPltRel then setOnce "PLTREL" a.pltRel (fun v => { a with pltRel := v }) val
  else if tag = dtPltGot then setOnce "PLTGOT" a.pltGot (fun v => { a with pltGot := v }) val
  else if tag = dtFlags then setOnce "FLAGS" a.flags (fun v => { a with flags := v }) val
  else if tag = dtFlags1 then setOnce "FLAGS_1" a.flags1 (fun v => { a with flags1 := v }) val
  else if tag = dtBindNow then
    if a.bindNowTag then .error (.badDyn "duplicate BIND_NOW") else .ok { a with bindNowTag := true }
  else if tag = dtDebug then if a.debugTag then .error (.badDyn "duplicate DEBUG") else .ok { a with debugTag := true }
  else if tag = dtGnuHash then .error (.badDyn "GNU hash unsupported")
  else if tag = dtTextrel then .error (.badDyn "TEXTREL unsupported")
  else if tag ∈ [dtRel, dtRelsz, dtRelent] then .error (.badDyn "S REL unsupported")
  else if tag = dtInit then setOnce "INIT" a.initFn (fun v => { a with initFn := v }) val
  else if tag = dtFini then setOnce "FINI" a.finiFn (fun v => { a with finiFn := v }) val
  else if tag = dtInitArray then setOnce "INIT_ARRAY" a.initArray (fun v => { a with initArray := v }) val
  else if tag = dtInitArraySz then setOnce "INIT_ARRAYSZ" a.initArraySz (fun v => { a with initArraySz := v }) val
  else if tag = dtFiniArray then setOnce "FINI_ARRAY" a.finiArray (fun v => { a with finiArray := v }) val
  else if tag = dtFiniArraySz then setOnce "FINI_ARRAYSZ" a.finiArraySz (fun v => { a with finiArraySz := v }) val
  else if tag ∈ [dtPreinitArray, dtPreinitArraySz] then .error (.badDyn "preinit array unsupported")
  else if tag ∈ [dtRelr, dtRelrSz, dtRelrEnt] then .error (.badDyn "RELR unsupported")
  else if tag ∈ [dtTlsDescPlt, dtTlsDescGot, dtTlsMod, dtTlsLo, dtTlsHi] then .error .tlsUnsupported
  else match skipDynTag tag with
    | some reason => .ok { a with skipped := a.skipped ++ [⟨tag, reason⟩] }
    | none => .error (.badDyn ("unsupported DT_" ++ toString tag))

/-- The entries are read in turn, up to the first `DT_NULL`. -/
def walkDyn (bytes : Bytes) (off : ℤ) : List ℕ → DynAcc → Load DynAcc
  | [], a => .ok a
  | i :: rest, a =>
    if a.done then .ok a
    else do
      let tag ← getU64 bytes (off + i*16)
      let val ← getU64 bytes (off + i*16 + 8)
      let a' ← stepDyn tag val a
      walkDyn bytes off rest a'

def resolvePrintable (label : String) (limit : ℕ) (strSlice : Bytes) (strSz off : ℤ) : Load String :=
  if off < 0 ∨ off ≥ strSz then .error (.badDyn (label ++ " offset"))
  else match (strSlice.drop off.toNat).idxOf? 0 with
    | none => .error (.badDyn (label ++ " not NUL"))
    | some stop => do
      let name := (strSlice.drop off.toNat).take stop
      check (name.length ≤ limit) (.badDyn (label ++ " too long"))
      check (printable name) (.badDyn (label ++ " non-printable"))
      return asString name

def resolveMaybeSymbolName (strSlice : Bytes) (strSz : ℤ) (nameOff : ℕ) : Load String := do
  check (¬ nameOff ≥ strSz) (.badDyn "symbol name offset")
  resolvePrintable "symbol" maxSymbolNameLen strSlice strSz nameOff

def resolveNeeded (strSlice : Bytes) (strSz : ℤ) (off : ℕ) : Load String := do
  check (off < wordOfInt strSz) (.badDyn "needed off")
  let name ← resolvePrintable "needed" maxNeededNameLen strSlice strSz (intOfWord off)
  check (name ≠ "") (.badDyn "needed empty")
  check ('/' ∉ name.toList) (.badDyn "needed slash")
  return name

def resolveString (label : String) (limit : ℕ) (strSlice : Bytes) (strSz : ℤ) (off : ℕ) : Load String := do
  let name ← resolvePrintable label limit strSlice strSz (intOfWord off)
  check (name ≠ "") (.badDyn (label ++ " empty"))
  return name

def parseSysvHash (bytes : Bytes) (hashVa : ℕ) (loads : List Segment) : Load SysvHash := do
  let (off, _) ← vaTableOff loads hashVa 8
  let buckets ← getU32 bytes off
  let symbols ← getU32 bytes (off + 4)
  check (buckets ≠ 0) (.badDyn "hash buckets")
  check (buckets ≤ maxDynHashBuckets) (.badDyn "hash buckets")
  check (¬ (symbols = 0 ∨ symbols > maxDynSymbols)) (.badDyn "symbol count")
  let total : ℤ := 8 + 4*(buckets + symbols)
  let (tableOff, tableSize) ← vaTableOff loads hashVa total
  check (tableSize = total) (.badDyn "hash bounds")
  forAll (fun (i : ℕ) => do
    let bucketIndex ← getU32 bytes (off + 8 + 4*i)
    check (bucketIndex < symbols) (.badDyn "hash bucket index")) (List.range buckets)
  forAll (fun (i : ℕ) => do
    let chainIndex ← getU32 bytes (off + 8 + 4*buckets + 4*i)
    check (¬ (chainIndex ≠ 0 ∧ chainIndex ≥ symbols)) (.badDyn "hash chain index")) (List.range symbols)
  return ⟨tableOff, tableSize, buckets, symbols⟩

/-- The version of every symbol, if the image has versions. -/
def parseSymbolVersions (bytes : Bytes) (verSym : Option ℕ) (count : ℕ) (loads : List Segment) : Load (List ℕ) :=
  match verSym with
  | none => .ok []
  | some va => do
    let total : ℤ := count*2
    let (off, tableSize) ← vaTableOff loads va total
    check (tableSize = total) (.badDyn "versym bounds")
    mapAll (fun (i : ℕ) => getU16 bytes (off + 2*i)) (List.range count)

def parseDynamicSymbol (bytes : Bytes) (tableOff : ℤ) (versions : List ℕ) (strSlice : Bytes) (strSz : ℤ) (i : ℕ) :
    Load DynamicSymbol := do
  let base := tableOff + i*24
  let nameOff ← getU32 bytes base
  let info ← getU8 bytes (base + 4)
  let other ← getU8 bytes (base + 5)
  let shndx ← getU16 bytes (base + 6)
  let value ← getU64 bytes (base + 8)
  let symbolSize ← getU64 bytes (base + 16)
  let name ← resolveMaybeSymbolName strSlice strSz nameOff
  check (info &&& 0x0F ≠ sttTls) (.badDyn "TLS symbol unsupported")
  return ⟨name, info, other, shndx, value, symbolSize, versions.getD i verNdxGlobal⟩

def parseDynamicSymbols (bytes : Bytes) (symVa count syment : ℕ) (versions : List ℕ) (strSlice : Bytes) (strSz : ℤ)
    (loads : List Segment) : Load DynamicSymbols := do
  let total : ℤ := count*24
  let (off, tableSize) ← vaTableOff loads symVa total
  check (tableSize = total) (.badDyn "symtab bounds")
  let entries ← mapAll (parseDynamicSymbol bytes off versions strSlice strSz) (List.range count)
  return ⟨off, syment, entries⟩

def parseHashAndSymbols (bytes : Bytes) (acc : DynAcc) (strSlice : Bytes) (strSz : ℤ) (loads : List Segment) :
    Load (HashStyle × Option DynamicSymbols) :=
  match acc.hash, acc.symtab with
  | none, none => do
    check (acc.syment = none) (.badDyn "SYMENT without symbol metadata")
    check (acc.verSym = none) (.badDyn "VERSYM without symbol metadata")
    return (.noHash, none)
  | some hashVa, some symVa => do
    let hash ← parseSysvHash bytes hashVa loads
    check (acc.syment = none ∨ acc.syment = some 24) (.badDyn "syment")
    let versions ← parseSymbolVersions bytes acc.verSym hash.symbols loads
    let symbols ← parseDynamicSymbols bytes symVa hash.symbols 24 versions strSlice strSz loads
    return (.sysVHash hash, some symbols)
  | _, _ => .error (.badDyn "incomplete symbol metadata")

def dynamicBindNow (acc : DynAcc) : Load Bool := do
  let flags := acc.flags.getD 0
  let flags1 := acc.flags1.getD 0
  check (flags &&& dfTextrel = 0) (.badDyn "TEXTREL unsupported")
  return acc.bindNowTag || flags &&& dfBindNow ≠ 0 || flags1 &&& df1Now ≠ 0

def relocTargetIn (loads : List Segment) (target : ℕ) (requireWritable : Bool) : Bool :=
  loads.any fun s => s.memSz ≥ 8 ∧ vaEnd s ≥ s.vaddr ∧ target ≥ s.vaddr ∧ target ≤ (vaEnd s + 2^64 - 8) % 2^64 ∧
    (requireWritable = false ∨ s.flags &&& pfW ≠ 0)

def parseRelocation (typ sym rOff add : ℕ) (loads : List Segment) (symbols : Option DynamicSymbols) (bindNow : Bool) :
    Load (Option Relocation) :=
  if typ = 0 then if sym = 0 then .ok none else .error (.badDyn "R_NONE symbol index")
  else if typ = rAarch64Relative then do
    check (sym = 0) (.unsupportedReloc typ)
    check (relocTargetIn loads rOff false) (.badDyn "rela outside LOAD")
    return some (.relativeBinding ⟨rOff, add⟩)
  else if typ = rAarch64GlobDat ∨ typ = rAarch64JumpSlot ∨ typ = rAarch64Abs64 then do
    check (¬ (typ ≠ rAarch64Abs64 ∧ bindNow = false)) (.badDyn "eager relocation without bind-now")
    check (sym ≠ 0) (.badDyn "eager relocation symbol zero")
    check (relocTargetIn loads rOff true) (.badDyn "rela target not writable")
    let symbol ← match symbols with
      | none => .error (.badDyn "eager relocation without SYMTAB")
      | some table => match table.entries[sym]? with
        | none => .error (.badDyn "eager relocation symbol index")
        | some found => .ok found
    check (symbol.name ≠ "") (.badDyn "eager relocation symbol name")
    return some (.eagerSymbolBinding ⟨rOff, typ, sym, symbol.name, add, symbol.version⟩)
  else if typ ≥ rAarch64TlsFirst ∧ typ ≠ rAarch64IRelative then .error .tlsUnsupported
  else if typ = rAarch64IRelative then .error (.badDyn "IRELATIVE unsupported")
  else .error (.unsupportedReloc typ)

def parseRelaTable (kind : RelocationTableKind) (bytes : Bytes) (va count : ℕ) (loads : List Segment)
    (symbols : Option DynamicSymbols) (bindNow : Bool) : Load RelocationTable := do
  let size : ℤ := count*24
  let (off, tableSize) ← vaTableOff loads va size
  check (tableSize = size) (.badDyn "rela bounds")
  let parsed ← mapAll (fun (i : ℕ) => do
    let base := off + i*24
    let rOff ← getU64 bytes base
    let info ← getU64 bytes (base + 8)
    let add ← getU64 bytes (base + 16)
    parseRelocation (info &&& 0xFFFFFFFF) (info >>> 32) rOff add loads symbols bindNow) (List.range count)
  return ⟨kind, off, size, 24, parsed.filterMap id⟩

def tableCount (label : String) (address size entry : Option ℕ) : Load ℕ :=
  match address, size, entry with
  | none, none, none => .ok 0
  | some _, some sizeN, some entryN =>
    if entryN = 24 ∧ sizeN % 24 = 0 then
      if sizeN / 24 > maxRelaCount then .error (.badDyn "rela count") else .ok (sizeN / 24)
    else .error (.badDyn ("incomplete " ++ label ++ " metadata"))
  | _, _, _ => .error (.badDyn ("incomplete " ++ label ++ " metadata"))

def parseMainRelocations (bytes : Bytes) (acc : DynAcc) (loads : List Segment) (symbols : Option DynamicSymbols)
    (bindNow : Bool) :
    Load (Option RelocationTable) := do
  let count ← tableCount "RELA" acc.rela acc.relasz acc.relaent
  if count = 0 then return none
  else match acc.rela with
    | none => .error (.badDyn "missing RELA")
    | some va => some <$> parseRelaTable .dynamicRelocations bytes va count loads symbols bindNow

def parsePltRelocations (bytes : Bytes) (acc : DynAcc) (loads : List Segment) (symbols : Option DynamicSymbols) (bindNow : Bool) :
    Load (Option RelocationTable) :=
  match acc.jmpRel, acc.pltRelsz, acc.pltRel with
  | none, none, none => .ok none
  | some va, some size, some kind => do
    check (kind = dtRela) (.badDyn "PLTREL unsupported")
    let count ← tableCount "PLT" (some va) (some size) (some 24)
    if count = 0 then return none
    else some <$> parseRelaTable .pltRelocations bytes va count loads symbols bindNow
  | _, _, _ => .error (.badDyn "incomplete PLT relocation metadata")

def validatePltGot (loads : List Segment) (va : ℕ) : Load ℕ := do
  check (loads.any fun s => va ≥ s.vaddr ∧ va < vaEnd s) (.badDyn "PLTGOT outside LOAD")
  return va

/-- The address, moved by `base`, is code of one of the segments. -/
def constructorInLoads (base : ℕ) (loads : List Segment) (va : ℕ) : Bool :=
  loads.any fun s =>
    let start := (base + s.vaddr) % 2^64
    va ≥ start ∧ va < (start + wordOfInt s.memSz) % 2^64

def validateConstructorFn (label : String) (loads : List Segment) (va : ℕ) : Load ℕ := do
  check (constructorInLoads 0 loads va) (.badDyn (label ++ " outside LOAD"))
  return va

/-- `f` for the value, if there is one. -/
def traverseOption {α β : Type} (f : α → Load β) : Option α → Load (Option β)
  | none => .ok none
  | some a => some <$> f a

def validateMaybeConstructor (label : String) (loads : List Segment) (va : Option ℕ) : Load (Option ℕ) :=
  traverseOption (validateConstructorFn label loads) va

/-- The sum of address and size is a `Word64` and may wrap. -/
def validateConstructorArray (label : String) (loads : List Segment) (va size : Option ℕ) : Load (Option InitArray) :=
  match va, size with
  | none, none => .ok none
  | some va, some size => do
    check (size % 8 = 0) (.badDyn (label ++ " array size"))
    check (size / 8 ≤ maxInitArrayEntries) (.badDyn (label ++ " array entries exceed cap"))
    check (loads.any fun s => va ≥ s.vaddr ∧ (va + size) % 2^64 ≤ (s.vaddr + wordOfInt s.fileSz) % 2^64)
      (.badDyn (label ++ " array outside LOAD"))
    return some ⟨va, size / 8⟩
  | _, _ => .error (.badDyn ("incomplete " ++ label ++ " array metadata"))

/-- The size of the string table. -/
def stringSize (acc : DynAcc) : Load ℤ :=
  match acc.strsz with
  | none => .ok 0
  | some n => if n > maxDynStrSz then .error (.badDyn "strsz overrun") else .ok n

/-- Where the string table is in the file. -/
def stringOffset (acc : DynAcc) (strSz : ℤ) (loads : List Segment) (len : ℕ) : Load ℤ :=
  match acc.strtab with
  | none =>
    if acc.needed ≠ [] ∨ acc.soname.isSome ∨ acc.hash.isSome ∨ acc.symtab.isSome ∨ strSz ≠ 0 then
      .error (.badDyn "missing STRTAB")
    else .ok 0
  | some va => do
    let (off, _) ← vaTableOff loads va strSz
    check (¬ (off < 0 ∨ off > len ∨ strSz > len - off)) (.badDyn "strtab bounds")
    return off

def finishDyn (bytes : Bytes) (acc : DynAcc) (loads : List Segment) (len : ℕ) : Load DynInfo := do
  let strSz ← stringSize acc
  let strOff ← stringOffset acc strSz loads len
  let strSlice ← sliceBytes bytes strOff strSz
  let needed ← mapAll (resolveNeeded strSlice strSz) acc.needed
  let soname ← traverseOption (resolveString "soname" maxSymbolNameLen strSlice strSz) acc.soname
  let (hashStyle, symbols) ← parseHashAndSymbols bytes acc strSlice strSz loads
  let bindNow ← dynamicBindNow acc
  let mainTable ← parseMainRelocations bytes acc loads symbols bindNow
  let pltTable ← parsePltRelocations bytes acc loads symbols bindNow
  let pltGot ← traverseOption (validatePltGot loads) acc.pltGot
  let tables := mainTable.toList ++ pltTable.toList
  check ((tables.map fun t => t.size / (t.entSize : ℤ)).sum ≤ maxRelaCount) (.badDyn "rela count")
  let initFn ← validateMaybeConstructor "DT_INIT" loads acc.initFn
  let finiFn ← validateMaybeConstructor "DT_FINI" loads acc.finiFn
  let initArray ← validateConstructorArray "init" loads acc.initArray acc.initArraySz
  let finiArray ← validateConstructorArray "fini" loads acc.finiArray acc.finiArraySz
  return ⟨true, needed, soname, hashStyle, bindNow, acc.flags1.getD 0, pltGot, strOff, strSz, symbols, tables, acc.skipped,
    initFn, finiFn, initArray, finiArray⟩

def parseOneDynamic (pOff pFilesz : ℕ) (bytes : Bytes) (loads : List Segment) : Load DynInfo := do
  let off := intOfWord pOff
  let sz := intOfWord pFilesz
  check (¬ (off < 0 ∨ off > bytes.length)) .truncated
  check (¬ (sz < 0 ∨ sz > bytes.length - off)) .truncated
  check (sz % 16 = 0) (.badDyn "dynamic size")
  check (sz / 16 ≤ maxDynEnt) (.badDyn "dynamic too many")
  let acc ← walkDyn bytes off (List.range (sz / 16).toNat) emptyDynAcc
  check acc.done (.badDyn "missing DT_NULL")
  finishDyn bytes acc loads bytes.length

def parseDynamic (raws : List RawPhdr) (bytes : Bytes) (loads : List Segment) : Load DynInfo :=
  match raws.filter fun r => r.type = ptDynamic with
  | [] => .ok emptyDynInfo
  | [r] => parseOneDynamic r.off r.filesz bytes loads
  | _ => .error (.badDyn "double-dynamic")

def loadElf (bytes : Bytes) : Load Elf := do
  check (bytes.length ≤ maxElfBytes) .overlapSize
  check (bytes.length ≥ 64) .truncated
  checkIdent bytes
  let h ← parseHeader bytes
  validatePhnum h.phnum
  checkPhoff h.phoff h.phnum h.phentsz bytes
  let segs ← parseSegments bytes h.phoff h.phnum h.phentsz
  let validSegs ← validateSegments segs bytes h.entry h.isDyn
  let raws ← collectRawPhdrs bytes h.phoff h.phnum h.phentsz
  let interp ← parseInterp raws bytes
  let relro ← parseRelro raws validSegs
  let dyn ← parseDynamic raws bytes validSegs
  return ⟨h.entry, validSegs, bytes, h.isDyn, interp, dyn, relro⟩

end HouseKernel.Loader
