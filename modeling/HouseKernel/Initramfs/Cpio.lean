import HouseKernel.FileSystem.Path

/-! The cpio newc archives of the initramfs: the parser with its caps and typed errors, and the
encoder. Every entry is a header of 110 bytes, a NUL-terminated name and a payload; the name and
the payload are each padded to four bytes, counted from the start of the entry. -/
namespace HouseKernel.Initramfs

open HouseKernel.Lib
open HouseKernel.FileSystem (slash)

/-- Path and raw payload, empty for directories. -/
structure CpioEntry where
  entryName : Text
  entryMode : BitVec 32
  entryData : Octets
  deriving DecidableEq, Repr

inductive CpioError where
  | badMagic
  | truncated (what : String)
  | badHeader (what : String)
  | badName (what : String)
  | tooBig (what : String)
  | tooManyFiles
  | missingTrailer
  deriving DecidableEq, Repr

def maxArchiveBytes : ℕ := 8 * 1024 * 1024
def maxFiles : ℕ := 512
def maxNameLen : ℕ := 255
def maxFileBytes : ℕ := 1024 * 1024

def magicNewc : Octets := [48, 55, 48, 55, 48, 49]

def trailerName : Text := text "TRAILER!!!"

/-- Names begin here, and entries start 4-aligned. -/
def headerSize : ℕ := 110

/-- The padding behind a field that ends at this offset of its entry. -/
def padEntry (offInEntry : ℕ) : ℕ := (4 - offInEntry % 4) % 4

def hexVal (b : BitVec 8) : Option (BitVec 32) :=
  if 48 ≤ b.toNat ∧ b.toNat ≤ 57 then some (BitVec.ofNat 32 (b.toNat - 48))
  else if 97 ≤ b.toNat ∧ b.toNat ≤ 102 then some (BitVec.ofNat 32 (b.toNat - 87))
  else if 65 ≤ b.toNat ∧ b.toNat ≤ 70 then some (BitVec.ofNat 32 (b.toNat - 55))
  else none

def parseHexDigits : Octets → BitVec 32 → Option (BitVec 32)
  | [], acc => some acc
  | b :: rest, acc => (hexVal b).bind fun v => parseHexDigits rest (acc <<< 4 ||| v)

/-- Eight ASCII hex digits, the highest first. -/
def parseHex8 (bs : Octets) : Option (BitVec 32) :=
  if bs.length ≠ 8 then none else parseHexDigits bs 0

def note {ε α : Type*} (e : ε) : Option α → Except ε α
  | none => .error e
  | some a => .ok a

structure CpioFields where
  mode : BitVec 32
  filesize : ℕ
  namesize : ℕ
  deriving DecidableEq, Repr

def parseFields (f : Octets) : Except CpioError CpioFields := do
  let mode ← note (.badHeader "bad hex field") (parseHex8 ((f.drop 8).take 8))
  let filesize ← note (.badHeader "bad hex field") (parseHex8 ((f.drop 48).take 8))
  let namesize ← note (.badHeader "bad hex field") (parseHex8 ((f.drop 88).take 8))
  return ⟨mode, filesize.toNat, namesize.toNat⟩

/-- No empty, absolute or escaping names and no NUL; prefixes `./` pass. -/
def decodeName (bs : Octets) : Except CpioError Text :=
  if bs = [] then .error (.badName "empty name")
  else if bs.contains 0 then .error (.badName "NUL in name")
  else if bs.head? = some 47 then .error (.badName "absolute path")
  else
    let s := bs.map ofByte
    if text ".." ∈ splitOn slash s then .error (.badName "dotdot escape") else .ok s

/-- What stands behind the name of an entry: its payload and the padding. -/
def parsePayload (name : Text) (f : CpioFields) (afterName : Octets) :
    Except CpioError (Option (CpioEntry × Octets)) :=
  let payload := afterName.take f.filesize
  let namePad := padEntry (headerSize + f.namesize)
  if payload.length < f.filesize then .error (.truncated "payload")
  else
    let dataPad := padEntry (headerSize + f.namesize + namePad + f.filesize)
    .ok (some (⟨name, f.mode, payload⟩, (afterName.drop f.filesize).drop dataPad))

/-- What stands behind the header of an entry. -/
def parseBody (f : CpioFields) (rest2 : Octets) : Except CpioError (Option (CpioEntry × Octets)) :=
  if f.namesize ≤ 0 then .error (.badHeader "namesize is zero")
  else if maxNameLen < f.namesize - 1 then .error (.tooBig "name over 255")
  else if maxFileBytes < f.filesize then .error (.tooBig "file over 1M")
  else
    let nameBs := rest2.take f.namesize
    if nameBs.length < f.namesize then .error (.truncated "name")
    else if nameBs.getLast? ≠ some 0 then .error (.badHeader "name not NUL-terminated")
    else do
      let name ← decodeName (nameBs.take (f.namesize - 1))
      if name = trailerName then
        if f.filesize ≠ 0 then .error (.badHeader "trailer has payload") else .ok none
      else
        parsePayload name f ((rest2.drop f.namesize).drop (padEntry (headerSize + f.namesize)))

/-- One entry and what follows it; `none` is the trailer. -/
def parseOne (bs : Octets) : Except CpioError (Option (CpioEntry × Octets)) :=
  let magic := bs.take 6
  let rest := bs.drop 6
  if magic.length < 6 then .error .missingTrailer
  else if magic ≠ magicNewc then .error .badMagic
  else
    let fields := rest.take 104
    if fields.length < 104 then .error (.truncated "header")
    else do
      let f ← parseFields fields
      parseBody f (rest.drop 104)

/-- The entries up to the trailer; `left` is `maxFiles + 1` less the entries parsed. -/
def parseEntries : ℕ → Octets → List CpioEntry → Except CpioError (List CpioEntry)
  | 0, _, _ => .error .tooManyFiles
  | left + 1, rest, acc => do
    match ← parseOne rest with
    | none => .ok acc.reverse
    | some (e, rest') =>
      if maxFiles < acc.length + 1 then .error .tooManyFiles else parseEntries left rest' (e :: acc)

def parseCpio (bs : Octets) : Except CpioError (List CpioEntry) :=
  if maxArchiveBytes < bs.length then .error (.tooBig "archive over 8M")
  else parseEntries (maxFiles + 1) bs []

def hexChar (n : ℕ) : BitVec 8 := if n < 10 then BitVec.ofNat 8 (n + 48) else BitVec.ofNat 8 (n + 87)

def hex8 (w : BitVec 32) : Octets :=
  [7, 6, 5, 4, 3, 2, 1, 0].map fun i => hexChar (w.toNat / 16^i % 16)

def nameBytes (s : Text) : Octets := s.map toByte ++ [0]

def encodeOne (e : CpioEntry) : Octets :=
  let nameLen := e.entryName.length + 1
  let dataLen := e.entryData.length
  let namePad := padEntry (headerSize + nameLen)
  let dataPad := padEntry (headerSize + nameLen + namePad + dataLen)
  magicNewc ++ hex8 0 ++ hex8 e.entryMode ++ hex8 0 ++ hex8 0 ++ hex8 1 ++ hex8 0 ++
    hex8 (BitVec.ofNat 32 dataLen) ++ hex8 0 ++ hex8 0 ++ hex8 0 ++ hex8 0 ++
    hex8 (BitVec.ofNat 32 nameLen) ++ hex8 0 ++ nameBytes e.entryName ++ List.replicate namePad 0 ++
    e.entryData ++ List.replicate dataPad 0

/-- The entries and the trailer. -/
def encodeCpio (es : List CpioEntry) : Octets := es.flatMap encodeOne ++ encodeOne ⟨trailerName, 0, []⟩

end HouseKernel.Initramfs
