import HouseKernel.Lib.Checks
import HouseKernel.Loader.Elf

/-! The parser of ELF images: the file header, the program headers and the checks of the segments.
An `Int` of the source has 64 bits; its sums are wrapped where the image chooses the operands. -/
namespace HouseKernel.Loader

open HouseKernel.Lib

abbrev Load := Except LoadError

/-- `fromIntegral` from `Word64` to `Int`. -/
def intOfWord (w : ℕ) : ℤ := if w < 2^63 then w else w - 2^64

/-- A sum of `Int`s, wrapped. -/
def wrapInt (z : ℤ) : ℤ := intOfWord (wordOfInt z)

def byteAt (bs : Bytes) (off : ℤ) : Load (BitVec 8) :=
  if off < 0 ∨ off ≥ bs.length then .error .truncated else .ok (bs.getD off.toNat 0)

def getU8 (bs : Bytes) (off : ℤ) : Load ℕ := BitVec.toNat <$> byteAt bs off

def getU16 (bs : Bytes) (off : ℤ) : Load ℕ := do
  let b0 ← byteAt bs off
  let b1 ← byteAt bs (off + 1)
  return b0.toNat ||| b1.toNat <<< 8

def getU32 (bs : Bytes) (off : ℤ) : Load ℕ := do
  let b0 ← getU16 bs off
  let b1 ← getU16 bs (off + 2)
  return b0 ||| b1 <<< 16

def getU64 (bs : Bytes) (off : ℤ) : Load ℕ := do
  let b0 ← getU32 bs off
  let b1 ← getU32 bs (off + 4)
  return b0 ||| b1 <<< 32

def getWord16LE (bs : Bytes) (off : ℤ) : Load ℕ := do
  check (¬ (off < 0 ∨ off > bs.length - 2)) .truncated
  let b0 ← byteAt bs off
  let b1 ← byteAt bs (off + 1)
  return b0.toNat + b1.toNat*256

def getWord32LE (bs : Bytes) (off : ℤ) : Load ℕ := do
  check (¬ (off < 0 ∨ off > bs.length - 4)) .truncated
  let b0 ← byteAt bs off
  let b1 ← byteAt bs (off + 1)
  let b2 ← byteAt bs (off + 2)
  let b3 ← byteAt bs (off + 3)
  return b0.toNat ||| b1.toNat <<< 8 ||| b2.toNat <<< 16 ||| b3.toNat <<< 24

def getWord64LE (bs : Bytes) (off : ℤ) : Load ℕ := do
  let low ← getU32 bs off
  let high ← getU32 bs (off + 4)
  return low ||| high <<< 32

def sliceBytes (bs : Bytes) (off size : ℤ) : Load Bytes :=
  if off < 0 ∨ size < 0 ∨ off > bs.length - size then .error .truncated
  else .ok ((bs.drop off.toNat).take size.toNat)

/-- Magic, ELF64, little-endian and version. -/
def elfIdent : Bytes := [0x7F, 0x45, 0x4C, 0x46, 2, 1, 1]

def checkIdent (bs : Bytes) : Load Unit := check (bs.take 7 = elfIdent) .badMagic

structure Header where
  isDyn : Bool
  entry : ℕ
  phoff : ℕ
  phnum : ℕ
  phentsz : ℕ
  deriving DecidableEq, Repr

def parseHeader (bs : Bytes) : Load Header := do
  let eType ← getWord16LE bs 16
  let eMach ← getWord16LE bs 18
  check (eMach = 183) .badArch
  let isDyn ← if eType = 2 then .ok false else if eType = 3 then .ok true else .error .badType
  let entry ← getWord64LE bs 24
  let phoff ← getWord64LE bs 32
  let phentsz ← getWord16LE bs 54
  let phnum ← getWord16LE bs 56
  return ⟨isDyn, entry, phoff, phnum, phentsz⟩

def validatePhnum (n : ℕ) : Load Unit := check (n ≤ maxPhnum) .tooManyPhdrs

def headerSize (phentsz : ℕ) : ℕ := if phentsz = 0 then 56 else phentsz

/-- The sum may wrap; then the first read at `phoff` fails. -/
def checkPhoff (phoff phnum phentsz : ℕ) (bs : Bytes) : Load Unit := do
  check (phoff ≤ 2^63 - 1) .overlapSize
  check (wrapInt (intOfWord phoff + phnum * headerSize phentsz) ≤ bs.length) .truncated
  check (¬ (headerSize phentsz ≠ 56 ∧ phnum > 0)) (.badSegment "phentsz !=56")

structure RawPhdr where
  type : ℕ
  flags : BitVec 32
  off : ℕ
  vaddr : ℕ
  filesz : ℕ
  memsz : ℕ
  align : ℕ
  deriving DecidableEq, Repr

def ptLoad : ℕ := 1
def ptDynamic : ℕ := 2
def ptInterp : ℕ := 3
def ptTls : ℕ := 7
def ptGnuRelro : ℕ := 0x6474E552

def parseOneRaw (bs : Bytes) (off : ℤ) : Load RawPhdr := do
  let pType ← getWord32LE bs off
  let pFlags ← getWord32LE bs (off + 4)
  let pOff ← getWord64LE bs (off + 8)
  let pVaddr ← getWord64LE bs (off + 16)
  let _pPaddr ← getWord64LE bs (off + 24)
  let pFilesz ← getWord64LE bs (off + 32)
  let pMemsz ← getWord64LE bs (off + 40)
  let pAlign ← getWord64LE bs (off + 48)
  return ⟨pType, BitVec.ofNat 32 pFlags, pOff, pVaddr, pFilesz, pMemsz, pAlign⟩

/-- Where the program header `i` is. -/
def phdrOff (phoff phentsz i : ℕ) : ℤ := wrapInt (intOfWord phoff + i * headerSize phentsz)

def collectRawPhdrs (bs : Bytes) (phoff phnum phentsz : ℕ) : Load (List RawPhdr) :=
  mapAll (fun i => parseOneRaw bs (phdrOff phoff phentsz i)) (List.range phnum)

def isPowerOfTwo (x : ℕ) : Bool := x ≠ 0 ∧ x &&& (x - 1) = 0

def validAlign (a : ℕ) : Bool := a = 0 ∨ a ≥ 4096 ∧ a ≤ 65536 ∧ isPowerOfTwo a

/-- The checks of one program header, and the segment that it describes. -/
def parseOneSegment (bs : Bytes) (off : ℤ) : Load Segment := do
  let p ← parseOneRaw bs off
  if p.type = ptTls then .error .tlsUnsupported
  else if p.type ≠ ptLoad then return ⟨p.vaddr, intOfWord p.off, 0, 0, p.flags⟩
  else do
    check (¬ (p.filesz > maxSegMemSz ∨ p.memsz > maxSegMemSz)) .noSpace
    check (p.filesz ≤ p.memsz) (.badSegment "filesz > memsz")
    check (validAlign p.align) .misaligned
    check (¬ (p.align ≠ 0 ∧ (p.vaddr + 2^64 - p.off) % 2^64 &&& (p.align - 1) ≠ 0)) .misaligned
    return ⟨p.vaddr, intOfWord p.off, intOfWord p.filesz, intOfWord p.memsz, p.flags⟩

def parseSegments (bs : Bytes) (phoff phnum phentsz : ℕ) : Load (List Segment) :=
  mapAll (fun i => parseOneSegment bs (phdrOff phoff phentsz i)) (List.range phnum)

/-- The end of a segment, as a `Word64`. -/
def vaEnd (s : Segment) : ℕ := (s.vaddr + wordOfInt s.memSz) % 2^64

def checkVaddr (isDyn : Bool) (v : ℕ) : Load Unit :=
  if isDyn then check (v ≤ maxVAddr) (.outOfWindow v)
  else check (¬ (v < minExecVAddr ∨ v > maxVAddr)) (.outOfWindow v)

def entryInSeg (e : ℕ) (s : Segment) : Bool := vaEnd s ≥ s.vaddr ∧ e ≥ s.vaddr ∧ e < vaEnd s

def checkSeg (isDyn : Bool) (len : ℕ) (s : Segment) : Load Unit := do
  checkVaddr isDyn s.vaddr
  check (vaEnd s ≥ s.vaddr) .overlapSize
  check (vaEnd s ≤ maxVAddr + 1) (.outOfWindow (vaEnd s))
  check (¬ (s.fileOff < 0 ∨ s.fileSz < 0 ∨ s.fileOff > len ∨ s.fileSz > len - s.fileOff)) .overlapSize

/-- The first and the last page of a segment. -/
def pageBounds (s : Segment) : ℕ × ℕ := (s.vaddr / 4096, (vaEnd s + (2^64 - 1)) % 2^64 / 4096)

def checkPair (a b : Segment) : Load Unit :=
  check (¬ ((pageBounds a).1 ≤ (pageBounds b).2 ∧ (pageBounds b).1 ≤ (pageBounds a).2)) (.badSegment "overlapping LOAD pages")

def checkPageOverlap : List Segment → Load Unit
  | [] => .ok ()
  | s :: rest => do
    forAll (checkPair s) rest
    checkPageOverlap rest

def checkStack (s : Segment) : Load Unit :=
  check (¬ ((pageBounds s).1 ≤ stackPageStart / 4096 ∧ stackPageStart / 4096 ≤ (pageBounds s).2))
    (.badSegment "stack page collision")

def checkStackCollision (loads : List Segment) : Load Unit := forAll checkStack loads

/-- How many pages the segments cover, as a `Word64`. -/
def pageCount (loads : List Segment) : ℕ :=
  (loads.map fun s => ((pageBounds s).2 + 2^64 - (pageBounds s).1 + 1) % 2^64).sum % 2^64

/-- The segments with a size, by address. -/
def sizeBearing (segs : List Segment) : List Segment :=
  (segs.filter fun s => s.memSz > 0 ∨ s.fileSz > 0).insertionSort fun a b => a.vaddr ≤ b.vaddr

def validateSegments (segs : List Segment) (bytes : Bytes) (entry : ℕ) (isDyn : Bool) : Load (List Segment) := do
  let loads := sizeBearing segs
  checkVaddr isDyn entry
  check (¬ (isDyn = false ∧ loads.any fun s => s.fileSz < s.memSz)) (.badSegment "static BSS unsupported")
  check (loads.length ≤ maxSegments) .tooManySegments
  forAll (checkSeg isDyn bytes.length) loads
  checkPageOverlap loads
  checkStackCollision loads
  check (pageCount loads ≤ maxTotalPages) .noSpace
  check (loads.any (entryInSeg entry)) (.badSegment "entry not in LOAD")
  return loads

def printable (name : Bytes) : Bool := name.all fun b => 32 ≤ b.toNat ∧ b.toNat ≤ 126

def asString (name : Bytes) : String := String.ofList (name.map fun b => Char.ofNat b.toNat)

def parseOneInterp (r : RawPhdr) (bytes : Bytes) : Load (Option String) := do
  let fsz := intOfWord r.filesz
  let off := intOfWord r.off
  check (r.filesz ≤ maxInterpLen) (.badDyn "interp too long")
  check (fsz > 0) (.badDyn "interp empty")
  check (¬ (off < 0 ∨ off > bytes.length)) .truncated
  check (fsz ≤ bytes.length - off) .truncated
  let raw := (bytes.drop off.toNat).take fsz.toNat
  match raw.idxOf? 0 with
  | none => .error (.badDyn "interp not NUL-terminated")
  | some stop => do
    let name := raw.take stop
    check ((raw.drop (stop + 1)).all fun b => b = 0) (.badDyn "interp trailing bytes")
    check (name ≠ []) (.badDyn "interp empty")
    check (printable name) (.badDyn "interp non-printable")
    check (asString name = ldHousePath) (.badDyn ("interp path " ++ asString name))
    return some (asString name)

def parseInterp (raws : List RawPhdr) (bytes : Bytes) : Load (Option String) :=
  match raws.filter fun r => r.type = ptInterp with
  | [] => .ok none
  | [r] => parseOneInterp r bytes
  | _ => .error (.badDyn "double-interp")

def relroInside (start stop : ℕ) (s : Segment) : Bool :=
  vaEnd s ≥ s.vaddr ∧ start ≥ s.vaddr ∧ start < vaEnd s ∧ stop > s.vaddr ∧ stop ≤ vaEnd s

def parseOneRelro (vaddr memsz : ℕ) (loads : List Segment) : Load (Option RelroRange) :=
  if memsz = 0 then .ok none
  else do
    let stop := (vaddr + memsz) % 2^64
    check (stop ≥ vaddr) .overlapSize
    check (loads.any (relroInside vaddr stop)) (.badDyn "relro outside LOAD")
    return some ⟨vaddr, stop⟩

def parseRelro (raws : List RawPhdr) (loads : List Segment) : Load (Option RelroRange) :=
  match raws.filter fun r => r.type = ptGnuRelro with
  | [] => .ok none
  | [r] => parseOneRelro r.vaddr r.memsz loads
  | _ => .error (.badDyn "double-relro")

/-- The first segment that has the address in its file part, and how far into it. -/
def findFileSegment (size : ℤ) : List Segment → ℕ → Option (Segment × ℕ)
  | [], _ => none
  | s :: rest, address =>
    if address < s.vaddr then none
    else
      let delta := address - s.vaddr
      if delta < wordOfInt s.fileSz ∨ size = 0 ∧ delta = wordOfInt s.fileSz then some (s, delta)
      else findFileSegment size rest address

def vaTableFileRange (loads : List Segment) (va : ℕ) (size : ℤ) : Load (ℤ × ℤ) :=
  if size < 0 ∨ size > maxElfBytes then .error .overlapSize
  else match findFileSegment size loads va with
    | none => .error (.badDyn "table outside LOAD")
    | some (s, delta) => .ok (s.fileOff + intOfWord delta, s.fileSz - intOfWord delta)

def vaTableOff (loads : List Segment) (va : ℕ) (size : ℤ) : Load (ℤ × ℤ) := do
  let (off, available) ← vaTableFileRange loads va size
  check (¬ available < size) (.badDyn "table outside LOAD")
  return (off, size)

end HouseKernel.Loader
