import HouseKernel.FileSystem.Path

/-! The codec of file-system images on a block device: a header of magic, version, capability
word, total length and file count, and behind it every file with its path. Legacy images have no
capability word. Lengths and counts are little-endian. -/
namespace HouseKernel.FileSystem

open HouseKernel.Lib

/-- The files of an image with their full paths. -/
abbrev Image := List (Text × Octets)

def maxImageBytes : ℕ := 2 * 1024 * 1024
def maxFiles : ℕ := 4096
def maxPathLen : ℕ := 1024

def magic : Octets := [0x48, 0x46, 0x53, 0x31]

def versionLegacy : BitVec 8 := 0x01
def versionCurrent : BitVec 8 := 0x02

/-- No capability bit is defined yet. -/
def allowedCaps : BitVec 64 := 0

def word32LE (w : BitVec 32) : Octets :=
  [w.setWidth 8, (w >>> 8).setWidth 8, (w >>> 16).setWidth 8, (w >>> 24).setWidth 8]

def word16LE (n : ℕ) : Octets := [BitVec.ofNat 8 n, BitVec.ofNat 8 (n >>> 8)]

def pathToBytes (p : Text) : Octets := p.map toByte

def bytesToPath (bs : Octets) : Text := bs.map ofByte

def badPath (f : Text × Octets) : Bool :=
  f.1 = [] ∨ maxPathLen < f.1.length ∨ f.1.head? ≠ some slash

def encodeFile (f : Text × Octets) : Octets :=
  let pb := pathToBytes f.1
  word16LE pb.length ++ pb ++ word32LE (BitVec.ofNat 32 f.2.length) ++ f.2

/-- The bytes of an image in the current version. -/
def encodeImage (files : Image) : Except String Octets :=
  if maxFiles < files.length then .error "too many files"
  else if files.any badPath then .error "bad path"
  else if files.any fun f => maxImageBytes < f.2.length then .error "file too large"
  else
    let body := files.flatMap encodeFile
    let total := 4 + 1 + 4 + 4 + 4 + body.length
    if maxImageBytes < total then .error "image too large"
    else .ok (magic ++ [versionCurrent] ++ word32LE (allowedCaps.setWidth 32) ++ word32LE (BitVec.ofNat 32 total) ++
      word32LE (BitVec.ofNat 32 files.length) ++ body)

def getU32 (off : ℕ) (bs : Octets) : Option ℕ := do
  let b0 ← bs[off]?
  let b1 ← bs[off+1]?
  let b2 ← bs[off+2]?
  let b3 ← bs[off+3]?
  return b0.toNat + b1.toNat <<< 8 + b2.toNat <<< 16 + b3.toNat <<< 24

def getU16 (off : ℕ) (bs : Octets) : Option ℕ := do
  let b0 ← bs[off]?
  let b1 ← bs[off+1]?
  return b0.toNat + b1.toNat <<< 8

structure ImageHeader where
  caps : ℕ
  total : ℕ
  count : ℕ
  hdrLen : ℕ
  deriving DecidableEq, Repr

def checkHeader (h : ImageHeader) : Except String ImageHeader :=
  if h.total < h.hdrLen ∨ maxImageBytes < h.total then .error "bad total"
  else if maxFiles < h.count then .error "bad count"
  else .ok h

def headerV1 (bs : Octets) : Except String ImageHeader :=
  match getU32 5 bs, getU32 9 bs with
  | some total, some count => checkHeader ⟨0, total, count, 13⟩
  | _, _ => .error "truncated header"

def headerV2 (bs : Octets) : Except String ImageHeader :=
  if bs.length < 17 then .error "truncated header"
  else
    match getU32 5 bs, getU32 9 bs, getU32 13 bs with
    | some caps, some total, some count =>
      if BitVec.ofNat 64 caps &&& ~~~allowedCaps ≠ 0 then .error "bad caps"
      else checkHeader ⟨caps, total, count, 17⟩
    | _, _, _ => .error "truncated header"

def decodeHeader (bs : Octets) : Except String ImageHeader :=
  if bs.length < 13 then .error "truncated header"
  else if bs.take 4 ≠ magic then .error "bad magic"
  else if bs[4]? = some versionLegacy then headerV1 bs
  else if bs[4]? = some versionCurrent then headerV2 bs
  else .error "bad version"

/-- The length that the header declares. -/
def headerTotal (bs : Octets) : Except String ℕ := ImageHeader.total <$> decodeHeader bs

/-- The files from an offset on. -/
def parseFiles (img : Octets) : ℕ → ℕ → Image → Except String Image
  | _, 0, acc => .ok acc.reverse
  | off, n + 1, acc =>
    match getU16 off img with
    | none => .error "truncated entry"
    | some plen =>
      if plen ≤ 0 ∨ maxPathLen < plen then .error "bad path len"
      else if img.length < off + 2 + plen + 4 then .error "truncated entry"
      else
        let pbs := (img.drop (off + 2)).take plen
        let path := bytesToPath pbs
        if path = [] ∨ path.head? ≠ some slash ∨ 0 ∈ pbs then .error "bad path"
        else
          match getU32 (off + 2 + plen) img with
          | none => .error "truncated entry"
          | some flen =>
            if maxImageBytes < flen then .error "bad file len"
            else if img.length < off + 2 + plen + 4 + flen then .error "truncated body"
            else
              let bs := (img.drop (off + 2 + plen + 4)).take flen
              parseFiles img (off + 2 + plen + 4 + flen) n ((path, bs) :: acc)

def decodeImage (bs : Octets) : Except String Image :=
  match decodeHeader bs with
  | .error e => .error e
  | .ok h =>
    if bs.length < h.total then .error "truncated body"
    else parseFiles (bs.take h.total) h.hdrLen h.count []

end HouseKernel.FileSystem
