import Mathlib.Algebra.Order.Floor.Div
import HouseKernel.Lib.Slices
import HouseKernel.FileSystem.BlockStore
import HouseKernel.FileSystem.ImageLayout

/-! What loading an image reads. The decoder's slices lie inside its bytes. The loader asks for block 0 before it
knows the capacity, and then for further blocks only when the declared length fits. -/
namespace HouseKernel.FileSystem

open HouseKernel.Lib HouseKernel.Lib.Reads

namespace Sliced

def getU32 (off : ℕ) (bs : Octets) : Reads (Option ℕ) :=
  if bs.length < off + 4 then pure none
  else do
    let b0 ← Decoder.safeIndex bs off
    let b1 ← Decoder.safeIndex bs (off+1)
    let b2 ← Decoder.safeIndex bs (off+2)
    let b3 ← Decoder.safeIndex bs (off+3)
    pure do return (← b0).toNat + (← b1).toNat <<< 8 + (← b2).toNat <<< 16 + (← b3).toNat <<< 24

def getU16 (off : ℕ) (bs : Octets) : Reads (Option ℕ) :=
  if bs.length < off + 2 then pure none
  else do
    let b0 ← Decoder.safeIndex bs off
    let b1 ← Decoder.safeIndex bs (off+1)
    pure do return (← b0).toNat + (← b1).toNat <<< 8

def headerV1 (bs : Octets) : Reads (Except String ImageHeader) := do
  match ← getU32 5 bs, ← getU32 9 bs with
  | some total, some count => pure (checkHeader ⟨0, total, count, 13⟩)
  | _, _ => pure (.error "truncated header")

def headerV2 (bs : Octets) : Reads (Except String ImageHeader) :=
  if bs.length < 17 then pure (.error "truncated header")
  else do
    match ← getU32 5 bs, ← getU32 9 bs, ← getU32 13 bs with
    | some caps, some total, some count =>
      if BitVec.ofNat 64 caps &&& ~~~allowedCaps ≠ 0 then pure (.error "bad caps")
      else pure (checkHeader ⟨caps, total, count, 17⟩)
    | _, _, _ => pure (.error "truncated header")

def decodeHeader (bs : Octets) : Reads (Except String ImageHeader) :=
  if bs.length < 13 then pure (.error "truncated header")
  else do
    let start ← slice bs 0 4
    if start ≠ magic then pure (.error "bad magic")
    else
      let version ← Decoder.safeIndex bs 4
      if version = some versionLegacy then headerV1 bs
      else if version = some versionCurrent then headerV2 bs
      else pure (.error "bad version")

local instance lawfulOctets : LawfulBEq (BitVec 8) := inferInstance

def parseFiles (img : Octets) : ℕ → ℕ → Image → Reads (Except String Image)
  | _, 0, acc => pure (.ok acc.reverse)
  | off, n + 1, acc => do
    match ← getU16 off img with
    | none => pure (.error "truncated entry")
    | some plen =>
      if plen ≤ 0 ∨ maxPathLen < plen then pure (.error "bad path len")
      else if img.length < off + 2 + plen + 4 then pure (.error "truncated entry")
      else
        let pbs ← slice img (off + 2) plen
        let path := bytesToPath pbs
        if path = [] ∨ path.head? ≠ some slash ∨ 0 ∈ pbs then pure (.error "bad path")
        else
          match ← getU32 (off + 2 + plen) img with
          | none => pure (.error "truncated entry")
          | some flen =>
            if maxImageBytes < flen then pure (.error "bad file len")
            else if img.length < off + 2 + plen + 4 + flen then pure (.error "truncated body")
            else
              let bs ← slice img (off + 2 + plen + 4) flen
              parseFiles img (off + 2 + plen + 4 + flen) n ((path, bs) :: acc)

/-- The decoder with its reads. -/
def decodeImage (bs : Octets) : Reads (Except String Image) := do
  match ← decodeHeader bs with
  | .error e => pure (.error e)
  | .ok h =>
    if bs.length < h.total then pure (.error "truncated body")
    else
      let img ← slice bs 0 h.total
      parseFiles img h.hdrLen h.count []

variable {bs img : Octets} {off n : ℕ} {acc : Image}

lemma getU32_gives : Gives bs.length (getU32 off bs) (FileSystem.getU32 off bs) := by
  unfold getU32
  split_ifs with hshort
  · have hnone : FileSystem.getU32 off bs = none := by
      rw [FileSystem.getU32, List.getElem?_eq_none (show bs.length ≤ off + 3 by omega)]
      simp
    rw [hnone]
    exact gives_pure none
  · exact gives_safeIndex.bind (gives_safeIndex.bind (gives_safeIndex.bind (gives_safeIndex.bind (gives_pure _))))

lemma getU16_gives : Gives bs.length (getU16 off bs) (FileSystem.getU16 off bs) := by
  unfold getU16
  split_ifs with hshort
  · have hnone : FileSystem.getU16 off bs = none := by
      rw [FileSystem.getU16, List.getElem?_eq_none (show bs.length ≤ off + 1 by omega)]
      simp
    rw [hnone]
    exact gives_pure none
  · exact gives_safeIndex.bind (gives_safeIndex.bind (gives_pure _))

lemma headerV1_gives : Gives bs.length (headerV1 bs) (FileSystem.headerV1 bs) := by
  unfold headerV1 FileSystem.headerV1
  refine .bind getU32_gives (.bind getU32_gives ?_)
  cases FileSystem.getU32 5 bs with
  | none => exact gives_pure _
  | some total =>
    cases FileSystem.getU32 9 bs with
    | none => exact gives_pure _
    | some count => exact gives_pure _

lemma headerV2_gives : Gives bs.length (headerV2 bs) (FileSystem.headerV2 bs) := by
  unfold headerV2 FileSystem.headerV2
  refine Gives.ite (fun _ => gives_pure _) fun _ => .bind getU32_gives (.bind getU32_gives (.bind getU32_gives ?_))
  cases FileSystem.getU32 5 bs with
  | none => exact gives_pure _
  | some caps =>
    cases FileSystem.getU32 9 bs with
    | none => exact gives_pure _
    | some total =>
      cases FileSystem.getU32 13 bs with
      | none => exact gives_pure _
      | some count => exact Gives.ite (fun _ => gives_pure _) fun _ => gives_pure _

lemma decodeHeader_gives : Gives bs.length (decodeHeader bs) (FileSystem.decodeHeader bs) := by
  unfold decodeHeader FileSystem.decodeHeader
  refine Gives.ite (fun _ => gives_pure _) fun hlen => ?_
  refine (gives_slice (by omega)).bind ?_
  refine Gives.ite (fun _ => gives_pure _) fun _ => gives_safeIndex.bind ?_
  exact Gives.ite (fun _ => headerV1_gives) fun _ => Gives.ite (fun _ => headerV2_gives) fun _ => gives_pure _

lemma parseFiles_gives : Gives img.length (parseFiles img off n acc) (FileSystem.parseFiles img off n acc) := by
  induction n generalizing off acc with
  | zero => exact gives_pure _
  | succ n ih =>
    unfold parseFiles FileSystem.parseFiles
    refine .bind getU16_gives ?_
    cases FileSystem.getU16 off img with
    | none => exact gives_pure _
    | some plen =>
      refine Gives.ite (fun _ => gives_pure _) fun _ => Gives.ite (fun _ => gives_pure _) fun hroom => ?_
      refine (gives_slice (by omega)).bind (Gives.ite (fun _ => gives_pure _) fun _ => .bind getU32_gives ?_)
      cases FileSystem.getU32 (off + 2 + plen) img with
      | none => exact gives_pure _
      | some flen =>
        refine Gives.ite (fun _ => gives_pure _) fun _ => Gives.ite (fun _ => gives_pure _) fun hbody => ?_
        exact (gives_slice (by omega)).bind ih

/-- The decoder comes to its end, and its reads are inside the bytes. -/
theorem decodeImage_gives : Gives bs.length (decodeImage bs) (FileSystem.decodeImage bs) := by
  unfold decodeImage FileSystem.decodeImage
  refine .bind decodeHeader_gives ?_
  cases FileSystem.decodeHeader bs with
  | error e => exact gives_pure _
  | ok h =>
    refine Gives.ite (fun _ => gives_pure _) fun hlen => ?_
    refine (gives_slice (by omega)).bind ?_
    exact .mono parseFiles_gives (by simp)

end Sliced

/-- A device as the loader uses it: its capacity in sectors and its answer for every block. Each is asked for once at
most. -/
structure BlockDev where
  capacity : Except FsError ℕ
  answer : ℕ → Except FsError Octets

namespace BlockDev

/-- A request for a block, which is noted. -/
def bdRead (bd : BlockDev) (lba : ℕ) : Reads (Except FsError Octets) := ⟨some (bd.answer lba), [lba]⟩

def readBlocks (bd : BlockDev) : ℕ → ℕ → Reads (Except FsError (List Octets))
  | _, 0 => pure (.ok [])
  | lba, n + 1 => do
    match ← bd.bdRead lba with
    | .error e => pure (.error e)
    | .ok b =>
      match ← bd.readBlocks (lba + 1) n with
      | .error e => pure (.error e)
      | .ok bs => pure (.ok (b :: bs))

/-- The loader with its requests. -/
def loadFiles (bd : BlockDev) : Reads (Except FsError Image) := do
  match ← bd.bdRead 0 with
  | .error e => pure (.error e)
  | .ok b0 =>
    if isZeroBlock (b0.take 4096) then pure (.ok [])
    else
      match headerTotal b0 with
      | .error e => pure (.error (.einval ("bad image: " ++ e)))
      | .ok total =>
        match bd.capacity with
        | .error e => pure (.error e)
        | .ok capSectors =>
          let need := blocksFor total
          if need ≤ 0 ∨ capSectors / 8 < need then pure (.error (.einval "bad image: capacity"))
          else
            match ← bd.readBlocks 1 (need - 1) with
            | .error e => pure (.error e)
            | .ok rest => pure (badImage (decodeImage ((b0 ++ rest.flatten).take total)))

/-- The blocks that the loader asks for, in order. -/
def requests (bd : BlockDev) : List ℕ := bd.loadFiles.log

/-- The device has these files: block 0 is all zeros and there are none, or all of the declared blocks are there, within
the capacity, and they are a well-formed image. -/
inductive Holds (bd : BlockDev) (files : Image) : Prop
  | fresh (b0 : Octets) (hb0 : bd.answer 0 = .ok b0) (hzero : isZeroBlock (b0.take 4096)) (hnone : files = [])
  | image (b0 : Octets) (rest : List Octets) (total capSectors : ℕ) (hb0 : bd.answer 0 = .ok b0)
    (hzero : ¬isZeroBlock (b0.take 4096)) (htotal : headerTotal b0 = .ok total) (hcap : bd.capacity = .ok capSectors)
    (hfits : total ⌈/⌉ 4096 ≤ capSectors / 8)
    (hrest : rest.map Except.ok = (List.range' 1 (total ⌈/⌉ 4096 - 1)).map bd.answer)
    (hwell : WellFormed ((b0 ++ rest.flatten).take total) files)

lemma blocksFor_eq (n : ℕ) : blocksFor n = n ⌈/⌉ 4096 := by
  rw [Nat.ceilDiv_eq_add_pred_div]
  rfl

lemma badImage_eq_ok {α : Type*} {x : Except String α} {a : α} : badImage x = .ok a ↔ x = .ok a := by
  cases x with
  | error e => simp [badImage]
  | ok b => simp [badImage]

lemma bdRead_bind {α : Type} (bd : BlockDev) (lba : ℕ) (f : Except FsError Octets → Reads α) :
    bd.bdRead lba >>= f = ⟨(f (bd.answer lba)).val, lba :: (f (bd.answer lba)).log⟩ := rfl

/-- The blocks are asked for in order, up to the first one that is not answered. -/
lemma readBlocks_spec (bd : BlockDev) (lba n : ℕ) :
    ∃ r k, bd.readBlocks lba n = ⟨some r, List.range' lba k⟩ ∧ k ≤ n ∧
      ∀ rest, r = .ok rest ↔ rest.map Except.ok = (List.range' lba n).map bd.answer := by
  induction n generalizing lba with
  | zero =>
    refine ⟨.ok [], 0, rfl, le_rfl, fun rest => ?_⟩
    simp [eq_comm]
  | succ n ih =>
    rw [List.range'_succ, List.map_cons, readBlocks, bdRead_bind]
    cases hb : bd.answer lba with
    | error e =>
      refine ⟨.error e, 1, rfl, by omega, fun rest => ?_⟩
      cases rest with
      | nil => simp
      | cons b rest => simp
    | ok b =>
      obtain ⟨r, k, hr, hk, hiff⟩ := ih (lba + 1)
      dsimp only
      rw [hr, bind_mk]
      cases r with
      | error e =>
        refine ⟨.error e, k + 1, ?_, by omega, fun rest => ?_⟩
        · rw [List.range'_succ]
          exact congrArg (Reads.mk _) (congrArg (List.cons lba) (List.append_nil _))
        · cases rest with
          | nil => simp
          | cons c rest => simp [← hiff]
      | ok bs =>
        refine ⟨.ok (b :: bs), k + 1, ?_, by omega, fun rest => ?_⟩
        · rw [List.range'_succ]
          exact congrArg (Reads.mk _) (congrArg (List.cons lba) (List.append_nil _))
        · cases rest with
          | nil => simp
          | cons c rest =>
            simp only [List.map_cons, List.cons.injEq, ← hiff, Except.ok.injEq]
            exact and_congr_left' eq_comm

lemma loadFiles_fresh {bd : BlockDev} {b0 : Octets} (hb0 : bd.answer 0 = .ok b0)
    (hzero : isZeroBlock (b0.take 4096)) : bd.loadFiles = ⟨some (.ok []), [0]⟩ := by
  rw [loadFiles, bdRead_bind, hb0]
  simp only [hzero, if_true]
  rfl

lemma holds_fresh {bd : BlockDev} {b0 : Octets} {files : Image} (hb0 : bd.answer 0 = .ok b0)
    (hzero : isZeroBlock (b0.take 4096)) : bd.Holds files ↔ files = [] := by
  constructor
  · rintro (⟨b, -, -, hnone⟩ | ⟨b, rest, total, capSectors, hb, hnonzero, -⟩)
    · exact hnone
    · obtain rfl := Except.ok.inj (hb0.symm.trans hb)
      exact absurd hzero hnonzero
  · exact .fresh b0 hb0 hzero

lemma holds_image {bd : BlockDev} {b0 : Octets} {files : Image} (hb0 : bd.answer 0 = .ok b0)
    (hzero : ¬isZeroBlock (b0.take 4096)) : bd.Holds files ↔ ∃ total capSectors, headerTotal b0 = .ok total ∧
      bd.capacity = .ok capSectors ∧ total ⌈/⌉ 4096 ≤ capSectors / 8 ∧ ∃ rest : List Octets,
      rest.map Except.ok = (List.range' 1 (total ⌈/⌉ 4096 - 1)).map bd.answer ∧
      decodeImage ((b0 ++ rest.flatten).take total) = .ok files := by
  constructor
  · rintro (⟨b, hb, hfresh, -⟩ | ⟨b, rest, total, capSectors, hb, -, htotal, hcap, hfits, hrest, hwell⟩)
    · obtain rfl := Except.ok.inj (hb0.symm.trans hb)
      exact absurd hfresh hzero
    · obtain rfl := Except.ok.inj (hb0.symm.trans hb)
      exact ⟨total, capSectors, htotal, hcap, hfits, rest, hrest, decodeImage_iff.mpr hwell⟩
  · rintro ⟨total, capSectors, htotal, hcap, hfits, rest, hrest, hok⟩
    exact .image b0 rest total capSectors hb0 hzero htotal hcap hfits hrest (decodeImage_iff.mp hok)

/-- A declared length takes one block at least. -/
lemma headerTotal_pos {bs : Octets} {total : ℕ} (h : headerTotal bs = .ok total) : 0 < total ⌈/⌉ 4096 := by
  obtain ⟨head, hhead, rfl⟩ : ∃ head, decodeHeader bs = .ok head ∧ head.total = total := by
    rw [headerTotal] at h
    cases hhead : decodeHeader bs with
    | error e =>
      rw [hhead] at h
      cases h
    | ok head =>
      rw [hhead] at h
      exact ⟨head, rfl, Except.ok.inj h⟩
  obtain ⟨⟨header, hd, -⟩, hlow, -⟩ := decodeHeader_iff.mp hhead
  have hpos : 0 < head.hdrLen := by
    cases hd with
    | legacy total count => exact Nat.succ_pos 12
    | current total count => exact Nat.succ_pos 16
  rw [← blocksFor_eq, blocksFor]
  omega

/-- What is loaded when block 0 declares a length. -/
lemma loadFiles_declared {bd : BlockDev} {b0 : Octets} {total capSectors : ℕ} (hb0 : bd.answer 0 = .ok b0)
    (hzero : ¬isZeroBlock (b0.take 4096)) (htotal : headerTotal b0 = .ok total) (hcap : bd.capacity = .ok capSectors) :
    ∃ r k, bd.loadFiles = ⟨some r, 0 :: List.range' 1 k⟩ ∧
      (0 < k → k < total ⌈/⌉ 4096 ∧ total ⌈/⌉ 4096 ≤ capSectors / 8) ∧ ∀ files, r = .ok files ↔ bd.Holds files := by
  have hpos := headerTotal_pos htotal
  have hholds : ∀ files, bd.Holds files ↔ total ⌈/⌉ 4096 ≤ capSectors / 8 ∧ ∃ rest : List Octets,
      rest.map Except.ok = (List.range' 1 (total ⌈/⌉ 4096 - 1)).map bd.answer ∧
      decodeImage ((b0 ++ rest.flatten).take total) = .ok files := by
    intro files
    simp only [holds_image hb0 hzero, htotal, hcap, Except.ok.injEq, exists_and_left, exists_eq_left']
  rw [loadFiles, bdRead_bind]
  simp only [hb0, hzero, Bool.false_eq_true, if_false, htotal, hcap, hholds, blocksFor_eq]
  split_ifs with hfits
  · refine ⟨_, 0, rfl, fun h => absurd h (Nat.lt_irrefl 0), fun files => ⟨nofun, ?_⟩⟩
    rintro ⟨hle, -⟩
    omega
  · obtain ⟨r, k, hr, hk, hiff⟩ := bd.readBlocks_spec 1 (total ⌈/⌉ 4096 - 1)
    have hasked : 0 < k → k < total ⌈/⌉ 4096 ∧ total ⌈/⌉ 4096 ≤ capSectors / 8 := by omega
    have hle : total ⌈/⌉ 4096 ≤ capSectors / 8 := by omega
    have hlog : 0 :: (List.range' 1 k ++ []) = 0 :: List.range' 1 k := by rw [List.append_nil]
    rw [hr, bind_mk]
    cases r with
    | error e =>
      refine ⟨.error e, k, congrArg (Reads.mk _) hlog, hasked, fun files => ?_⟩
      simp [← hiff]
    | ok rest =>
      refine ⟨_, k, congrArg (Reads.mk _) hlog, hasked, fun files => ?_⟩
      simp only [badImage_eq_ok, hle, ← hiff, Except.ok.injEq, exists_eq_left', true_and]

/-- What the loader comes to, and how far its requests go. -/
theorem loadFiles_spec (bd : BlockDev) : ∃ r k, bd.loadFiles = ⟨some r, 0 :: List.range' 1 k⟩ ∧
    (0 < k → ∃ b0 total capSectors, bd.answer 0 = .ok b0 ∧ headerTotal b0 = .ok total ∧
      bd.capacity = .ok capSectors ∧ k < total ⌈/⌉ 4096 ∧ total ⌈/⌉ 4096 ≤ capSectors / 8) ∧
    ∀ files, r = .ok files ↔ bd.Holds files := by
  have hone : ¬0 < 0 := Nat.lt_irrefl 0
  cases hb0 : bd.answer 0 with
  | error e =>
    refine ⟨.error e, 0, ?_, fun h => absurd h hone, fun files => ⟨nofun, ?_⟩⟩
    · rw [loadFiles, bdRead_bind, hb0]
      rfl
    · rintro (⟨b, hb, -⟩ | ⟨b, rest, total, capSectors, hb, -⟩)
      · cases hb0.symm.trans hb
      · cases hb0.symm.trans hb
  | ok b0 =>
    by_cases hzero : isZeroBlock (b0.take 4096)
    · refine ⟨.ok [], 0, loadFiles_fresh hb0 hzero, fun h => absurd h hone, fun files => ?_⟩
      rw [holds_fresh hb0 hzero, Except.ok.injEq, eq_comm]
    · cases htotal : headerTotal b0 with
      | error e =>
        refine ⟨.error (.einval ("bad image: " ++ e)), 0, ?_, fun h => absurd h hone,
          fun files => ⟨nofun, fun h => ?_⟩⟩
        · rw [loadFiles, bdRead_bind]
          simp only [hb0, hzero, htotal]
          rfl
        · obtain ⟨total, capSectors, ht, -⟩ := (holds_image hb0 hzero).mp h
          cases htotal.symm.trans ht
      | ok total =>
        cases hcap : bd.capacity with
        | error e =>
          refine ⟨.error e, 0, ?_, fun h => absurd h hone, fun files => ⟨nofun, fun h => ?_⟩⟩
          · rw [loadFiles, bdRead_bind]
            simp only [hb0, hzero, htotal, hcap]
            rfl
          · obtain ⟨total, capSectors, -, hc, -⟩ := (holds_image hb0 hzero).mp h
            cases hcap.symm.trans hc
        | ok capSectors =>
          obtain ⟨r, k, hload, hasked, hiff⟩ := loadFiles_declared hb0 hzero htotal hcap
          refine ⟨r, k, hload, fun hk => ?_, hiff⟩
          obtain ⟨hlt, hle⟩ := hasked hk
          exact ⟨b0, total, capSectors, rfl, htotal, rfl, hlt, hle⟩

end BlockDev

/-- A disk answers for the blocks inside its capacity. -/
def Disk.dev (d : Disk) : BlockDev := ⟨.ok d.capSectors, fun lba => Subtype.val <$> bdRead d lba⟩

lemma Disk.dev_readBlocks (d : Disk) (lba n : ℕ) :
    (d.dev.readBlocks lba n).val = some (List.map Subtype.val <$> readBlocks d lba n) := by
  induction n generalizing lba with
  | zero => rfl
  | succ n ih =>
    have hanswer : d.dev.answer lba = Subtype.val <$> bdRead d lba := rfl
    rw [BlockDev.readBlocks, BlockDev.bdRead_bind, hanswer, readBlocks]
    cases bdRead d lba with
    | error e => rfl
    | ok b =>
      change (d.dev.readBlocks (lba + 1) n >>= _).val = _
      rw [val_bind, ih]
      cases readBlocks d (lba + 1) n with
      | error e => rfl
      | ok rest => rfl

/-- On a disk the loader is the one that the file system has. -/
theorem Disk.dev_loadFiles (d : Disk) : d.dev.loadFiles.val = some (loadFiles d) := by
  have hanswer : d.dev.answer 0 = Subtype.val <$> bdRead d 0 := rfl
  rw [BlockDev.loadFiles, BlockDev.bdRead_bind, hanswer, loadFiles]
  cases bdRead d 0 with
  | error e => rfl
  | ok b0 =>
    change (if isZeroBlock (b0.val.take 4096) then _ else _ : Reads _).val = some (if _ then _ else _)
    split_ifs with hzero
    · rfl
    · cases headerTotal b0.val with
      | error e => rfl
      | ok total =>
        change (if blocksFor total ≤ 0 ∨ d.blkBlocks < blocksFor total then _ else _ : Reads _).val =
          some (if _ then _ else _)
        split_ifs with hfits
        · rfl
        · rw [val_bind, d.dev_readBlocks]
          cases readBlocks d 1 (blocksFor total - 1) with
          | error e => rfl
          | ok rest => rfl

/-- Loading comes to its end. Block 0 is asked for first, before the capacity is known, and every further block is below
the capacity; there are no more requests than the declared length needs, and only one when block 0 declares none. The
decoder's reads are inside its bytes. What it accepts is a well-formed image with these files, and the loader returns
files only when the device has them: a block 0 of zeros, or a well-formed image in full. -/
theorem images_load_within (bd : BlockDev) :
    (∃ r, bd.loadFiles.val = some r) ∧
    (bd.requests.Nodup ∧ 0 ∈ bd.requests ∧
      ∀ lba ∈ bd.requests, lba ≠ 0 → ∃ capSectors, bd.capacity = .ok capSectors ∧ lba < capSectors / 8) ∧
    (∀ b0 total, bd.answer 0 = .ok b0 → headerTotal b0 = .ok total → bd.requests.length ≤ total ⌈/⌉ 4096) ∧
    ((¬∃ b0 total, bd.answer 0 = .ok b0 ∧ headerTotal b0 = .ok total) → bd.requests = [0]) ∧
    (∀ bs, Gives bs.length (Sliced.decodeImage bs) (decodeImage bs)) ∧
    (∀ bs files, decodeImage bs = .ok files ↔ WellFormed bs files) ∧
    ∀ files, bd.loadFiles.val = some (.ok files) ↔ bd.Holds files := by
  obtain ⟨r, k, hload, hasked, hholds⟩ := bd.loadFiles_spec
  have hreq : bd.requests = 0 :: List.range' 1 k := by rw [BlockDev.requests, hload]
  have hval : bd.loadFiles.val = some r := by rw [hload]
  refine ⟨⟨r, hval⟩, ⟨?_, ?_, ?_⟩, ?_, ?_, fun bs => Sliced.decodeImage_gives, fun bs files => decodeImage_iff,
    fun files => ?_⟩
  · rw [hreq]
    exact (List.nodup_range' : (List.range' 0 (k + 1)).Nodup)
  · rw [hreq]
    exact List.mem_cons_self
  · intro lba hmem hne
    rw [hreq, List.mem_cons, List.mem_range'_1] at hmem
    obtain ⟨hlow, hhigh⟩ := hmem.resolve_left hne
    obtain ⟨b0, total, capSectors, -, -, hcap, hlt, hle⟩ := hasked (by omega)
    exact ⟨capSectors, hcap, by omega⟩
  · intro b0 total hb0 htotal
    have hpos := BlockDev.headerTotal_pos htotal
    rw [hreq, List.length_cons, List.length_range']
    by_cases hk : 0 < k
    · obtain ⟨b, t, capSectors, hb, ht, -, hlt, -⟩ := hasked hk
      obtain rfl := Except.ok.inj (hb0.symm.trans hb)
      obtain rfl := Except.ok.inj (htotal.symm.trans ht)
      exact hlt
    · omega
  · intro hnone
    have hk : k = 0 := by
      by_contra hk
      obtain ⟨b0, total, capSectors, hb0, htotal, -⟩ := hasked (Nat.pos_of_ne_zero hk)
      exact hnone ⟨b0, total, hb0, htotal⟩
    rw [hreq, hk]
    rfl
  · rw [hval, Option.some.injEq]
    exact hholds files

lemma isZeroBlock_zeros (n : ℕ) : isZeroBlock (List.replicate n 0) := by simp [isZeroBlock]

/-- Zeros have no magic. -/
lemma zeros_not_wellFormed (n : ℕ) (files : Image) : ¬WellFormed (List.replicate n 0) files := by
  rintro ⟨header, h, hl⟩
  have hfirst : 0x48 ∈ header := by
    cases hl.declares with
    | legacy total count => exact List.mem_cons_self
    | current total count => exact List.mem_cons_self
  have hmem := List.mem_of_mem_take (hl.stands.subset (List.mem_append_left _ hfirst))
  exact absurd (List.eq_of_mem_replicate hmem) (by decide)

/-- A device without a capacity that answers with zeros. -/
def zeroDev : BlockDev := ⟨.ok 0, fun _ => .ok (List.replicate 4096 0)⟩

/-- Block 0 is read beyond the capacity, and what is loaded is no image. -/
theorem zeroDev_loads :
    ¬(∀ lba ∈ zeroDev.requests, ∃ capSectors, zeroDev.capacity = .ok capSectors ∧ lba < capSectors / 8) ∧
    zeroDev.answer 0 = .ok (List.replicate 4096 0) ∧ (∀ files, ¬WellFormed (List.replicate 4096 0) files) ∧
    zeroDev.loadFiles.val = some (.ok []) := by
  have hzero : isZeroBlock ((List.replicate 4096 (0 : BitVec 8)).take 4096) := by
    rw [List.take_replicate]
    exact isZeroBlock_zeros _
  have hload : zeroDev.loadFiles = ⟨some (.ok []), [0]⟩ := BlockDev.loadFiles_fresh rfl hzero
  refine ⟨fun hall => ?_, rfl, zeros_not_wellFormed 4096, ?_⟩
  · have hasked : 0 ∈ zeroDev.requests := by
      rw [BlockDev.requests, hload]
      exact List.mem_cons_self
    obtain ⟨capSectors, hcap, hlt⟩ := hall 0 hasked
    obtain rfl : 0 = capSectors := Except.ok.inj hcap
    exact absurd hlt (Nat.not_lt_zero 0)
  · rw [hload]

end HouseKernel.FileSystem
