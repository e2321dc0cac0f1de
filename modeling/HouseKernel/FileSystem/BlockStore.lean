import HouseKernel.FileSystem.ImageRoundTrip

/-! Loading and storing an image on a block device. An image fills blocks of 4096 bytes, the last
one padded with zeros; the data blocks are written before the superblock. A device answers with
an error outside its capacity, and one of its writes may fail without an effect. -/
namespace HouseKernel.FileSystem

open HouseKernel.Lib

def blockBytes : ℕ := 4096

/-- The bytes of one block. -/
abbrev Block := {b : Octets // b.length = blockBytes}

/-- A device: its capacity in sectors, its blocks, and which of the writes to come fails. -/
structure Disk where
  capSectors : ℕ
  block : ℕ → Block
  failAt : Option ℕ

/-- The capacity in blocks. -/
def Disk.blkBlocks (d : Disk) : ℕ := d.capSectors / 8

def ioError : FsError := .einval "blk I/O error"

def bdRead (d : Disk) (lba : ℕ) : Except FsError Block :=
  if lba < d.blkBlocks then .ok (d.block lba) else .error ioError

def bdWrite (d : Disk) (lba : ℕ) (b : Block) : Except FsError Unit × Disk :=
  if d.failAt = some 0 then (.error ioError, { d with failAt := none })
  else if lba < d.blkBlocks then
    (.ok (), { d with block := Function.update d.block lba b, failAt := d.failAt.map (· - 1) })
  else (.error ioError, d)

def isZeroBlock (bs : Octets) : Bool := bs.all (· = 0)

def readBlocks (d : Disk) : ℕ → ℕ → Except FsError (List Block)
  | _, 0 => .ok []
  | lba, n + 1 => do
    let b ← bdRead d lba
    let rest ← readBlocks d (lba + 1) n
    return b :: rest

/-- The number of blocks for so many bytes. -/
def blocksFor (n : ℕ) : ℕ := (n + 4095) / 4096

def badImage {α : Type*} : Except String α → Except FsError α
  | .error e => .error (.einval ("bad image: " ++ e))
  | .ok a => .ok a

/-- Load and decode the image. Block 0 of zeros reads as empty; the declared length is checked
against the capacity before any further block is read. -/
def loadFiles (d : Disk) : Except FsError Image := do
  let b0 ← bdRead d 0
  if isZeroBlock (b0.val.take 4096) then return []
  else
    let total ← badImage (headerTotal b0.val)
    let need := blocksFor total
    if need ≤ 0 ∨ d.blkBlocks < need then .error (.einval "bad image: capacity")
    else
      let rest ← readBlocks d 1 (need - 1)
      badImage (decodeImage ((b0.val ++ rest.flatMap Subtype.val).take total))

/-- The first block of these bytes, padded with zeros. -/
def padBlock (bs : Octets) : Block := ⟨(bs ++ List.replicate blockBytes 0).take blockBytes, by simp⟩

/-- Chunks until the bytes run out; every chunk takes one byte at least. -/
def chunks : ℕ → Octets → List Block
  | 0, _ => []
  | fuel + 1, bs => if bs = [] then [] else padBlock bs :: chunks fuel (bs.drop blockBytes)

def chunk4096 (bs : Octets) : List Block := chunks bs.length bs

def writeBlocks (d : Disk) : ℕ → List Block → Except FsError Unit × Disk
  | _, [] => (.ok (), d)
  | lba, b :: rest =>
    match bdWrite d lba b with
    | (.error e, d') => (.error e, d')
    | (.ok _, d') => writeBlocks d' (lba + 1) rest

/-- Data blocks first, superblock last. -/
def writeImage (d : Disk) (img : Octets) : Except FsError Unit × Disk :=
  match writeBlocks d 1 ((chunk4096 img).drop 1) with
  | (.error e, d') => (.error e, d')
  | (.ok _, d') =>
    match chunk4096 img with
    | [] => (.error (.einval "empty"), d')
    | b0 :: _ => bdWrite d' 0 b0

def storeFiles (d : Disk) (files : Image) : Except FsError Unit × Disk :=
  match encodeImage files with
  | .error e => (.error (.einval e), d)
  | .ok img =>
    let need := blocksFor img.length
    if d.blkBlocks < need ∨ need = 0 then (.error (.einval "capacity"), d) else writeImage d img

end HouseKernel.FileSystem
