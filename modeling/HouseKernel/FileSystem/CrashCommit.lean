import HouseKernel.FileSystem.StoreRoundTrip

/-! A store that stops at a failing write. The superblock is written last, but the data blocks
go over the data blocks of the image that the old superblock still describes: what a load then
returns depends on the bytes that were there before. -/
namespace HouseKernel.FileSystem

open HouseKernel.Lib

/-- The byte lies in one of the data blocks that the first `k` writes replace. -/
def Rewritten (k j : ℕ) : Prop := 1 ≤ j / blockBytes ∧ j / blockBytes ≤ k

instance (k j : ℕ) : Decidable (Rewritten k j) := inferInstanceAs (Decidable (_ ∧ _))

/-- The rewritten blocks hold the old bytes as far as the old image reaches. -/
def KeepsOld (old new : Octets) (k : ℕ) : Prop :=
  ∀ j, 17 ≤ j → j < old.length → Rewritten k j → new.getD j 0 = old.getD j 0

/-- The old image reaches as far as the new one, and holds its bytes wherever no block has been
rewritten. -/
def MakesNew (old new : Octets) (k : ℕ) : Prop :=
  new.length ≤ old.length ∧ ∀ j, 17 ≤ j → j < new.length → ¬ Rewritten k j → old.getD j 0 = new.getD j 0

/-- The device after the write number `k` of an image has failed. -/
def Disk.crashed (d : Disk) (img : Octets) (k : ℕ) : Disk :=
  { d with block := putBlocks d.block 1 (((chunk4096 img).drop 1).take k), failAt := none }

theorem storeFiles_fail {d : Disk} {files : Image} {img : Octets} {k : ℕ} (hfail : d.failAt = some k)
    (henc : encodeImage files = .ok img) (hk : k < blocksFor img.length) (hcap : blocksFor img.length ≤ d.blkBlocks) :
    storeFiles d files = (.error ioError, d.crashed img k) := by
  have hneed : ¬ (d.blkBlocks < blocksFor img.length ∨ blocksFor img.length = 0) := by omega
  simp only [storeFiles, henc, if_neg hneed]
  exact writeImage_fail hfail hk (encodeImage_ne_nil henc) hcap

lemma crashed_block {d : Disk} {img : Octets} {k : ℕ} (hk : k < blocksFor img.length) (q : ℕ) :
    (d.crashed img k).block q =
      if 1 ≤ q ∧ q ≤ k then padBlock (img.drop (blockBytes*q)) else d.block q := by
  simp only [Disk.crashed, putBlocks_apply]
  by_cases hq : 1 ≤ q
  · rw [if_pos hq, List.getElem?_take, List.getElem?_drop, show 1 + (q - 1) = q by omega, chunk4096_eq]
    by_cases hle : q ≤ k
    · rw [if_pos (by omega), if_pos ⟨hq, hle⟩, List.getElem?_map, List.getElem?_range (by omega)]
      rfl
    · rw [if_neg (by omega), if_neg (fun h => hle h.2)]
      rfl
  · rw [if_neg hq, if_neg (fun h => hq h.1)]

/-- The bytes of the device after the failure. -/
lemma byteOf_crashed {d : Disk} {img : Octets} {k : ℕ} (hk : k < blocksFor img.length) (j : ℕ) :
    byteOf (d.crashed img k).block j = if Rewritten k j then img.getD j 0 else byteOf d.block j := by
  by_cases h : Rewritten k j
  · have hblock : (d.crashed img k).block (j / blockBytes) = padBlock (img.drop (blockBytes * (j / blockBytes))) :=
      (crashed_block hk _).trans (if_pos h)
    rw [if_pos h, byteOf, hblock, padBlock_getD _ (Nat.mod_lt _ (by decide)), List.getD_eq_getElem?_getD,
      List.getElem?_drop, Nat.div_add_mod, List.getD_eq_getElem?_getD]
  · have hblock : (d.crashed img k).block (j / blockBytes) = d.block (j / blockBytes) :=
      (crashed_block hk _).trans (if_neg h)
    rw [if_neg h, byteOf, hblock, byteOf]

lemma imageOf_getD (f : ℕ → Block) {total j : ℕ} (hj : j < total) : (imageOf f total).getD j 0 = byteOf f j := by
  simp [imageOf, hj]

/-- Behind the header, one image begins with another. -/
lemma drop_prefix_iff {a b : Octets} (ha : 17 ≤ a.length) (hb : 17 ≤ b.length) :
    a.drop 17 <+: b.drop 17 ↔ a.length ≤ b.length ∧ ∀ j, 17 ≤ j → j < a.length → b.getD j 0 = a.getD j 0 := by
  constructor
  · intro h
    have hlen := h.length_le
    simp only [List.length_drop] at hlen
    refine ⟨by omega, fun j hlow hj => ?_⟩
    have hget := List.prefix_iff_getElem?.mp h (j - 17) (by rw [List.length_drop]; omega)
    rw [List.getElem?_drop, List.getElem_drop] at hget
    simp only [show 17 + (j - 17) = j by omega] at hget
    simp [List.getD_eq_getElem?_getD, hget, hj]
  · rintro ⟨hlen, hall⟩
    refine List.prefix_iff_getElem?.mpr fun i hi => ?_
    rw [List.length_drop] at hi
    have hget := hall (17 + i) (by omega) (by omega)
    rw [List.getElem?_drop, List.getElem_drop, List.getElem?_eq_getElem (by omega)]
    simpa [List.getD_eq_getElem?_getD, show 17 + i < a.length by omega, show 17 + i < b.length by omega] using hget

/-- What a load returns when a store over an image stopped at the write number `k`. -/
theorem load_crashed {d : Disk} {old files : Image} {oldImg newImg : Octets} {k : ℕ} (hold : d.Holds old oldImg)
    (hk : k < blocksFor newImg.length) {img : Octets}
    (hfiles : encodeImage files = .ok img) :
    loadFiles (d.crashed newImg k) = .ok files ↔
      files.length = old.length ∧ files.Spelled ∧ img.length ≤ oldImg.length ∧
        ∀ j, 17 ≤ j → j < img.length →
          (if Rewritten k j then newImg.getD j 0 else oldImg.getD j 0) = img.getD j 0 := by
  obtain ⟨hlow, hhigh⟩ := encodeImage_length hold.encoded
  obtain ⟨-, hcount, -, -⟩ := encodeImage_ok hold.encoded
  obtain ⟨hstorable, -, -, himg⟩ := encodeImage_ok hfiles
  obtain ⟨rest, hrest⟩ := hold.header
  set m := imageOf (d.crashed newImg k).block oldImg.length with hm
  have hlen : m.length = oldImg.length := imageOf_length _ _
  have hzero : (d.crashed newImg k).block 0 = d.block 0 := (crashed_block hk 0).trans (if_neg (by omega))
  have hload : loadFiles (d.crashed newImg k) = badImage (decodeImage m) :=
    loadFiles_of_header (by rw [hzero]; exact hrest) ⟨hlow, hhigh⟩ hcount hold.fits
  have hhead : m = imageHeader m.length old.length ++ m.drop 17 := by
    have htake : m.take 17 = imageHeader m.length old.length := by
      rw [hm, imageOf_take _ hlow, ← block_zero_take _ (by decide), hzero, hrest, imageOf_length]
      exact List.take_left' rfl
    rw [← htake, List.take_append_drop]
  have hbody : files.flatMap encodeFile = img.drop 17 := by
    rw [himg]
    exact (List.drop_left' (imageHeader_length _ _)).symm
  have hdec : loadFiles (d.crashed newImg k) = .ok files ↔ decodeImage m = .ok files := by
    rw [hload]
    cases decodeImage m <;> simp [badImage]
  have hbyte : ∀ j < oldImg.length, m.getD j 0 = if Rewritten k j then newImg.getD j 0 else oldImg.getD j 0 := by
    intro j hj
    have hkept := imageOf_getD d.block hj
    rw [hold.bytes] at hkept
    rw [hm, imageOf_getD _ hj, byteOf_crashed hk, ← hkept]
  rw [hdec, decodeImage_header_iff hhead (hlen ▸ hhigh) hcount hstorable, hbody,
    drop_prefix_iff (encodeImage_length hfiles).1 (hlen ▸ hlow), hlen]
  refine and_congr_right fun _ => and_congr_right fun _ => and_congr_right fun hle => ?_
  refine forall_congr' fun j => forall₂_congr fun _ hj => ?_
  rw [hbyte j (by omega)]

/-- When the write number `k` over an image fails, a load returns the old files or the new ones
in exactly two cases: the rewritten blocks already held the old bytes, or, for as many files, the
old image already held the new bytes everywhere else. -/
theorem crash_atomic_of_holds {d : Disk} {old new : Image} {oldImg newImg : Octets} {k : ℕ}
    (hold : d.Holds old oldImg) (hnew : encodeImage new = .ok newImg) (hk : k < blocksFor newImg.length) :
    (loadFiles (d.crashed newImg k) = .ok old ∨ loadFiles (d.crashed newImg k) = .ok new) ↔
      (old.Spelled ∧ KeepsOld oldImg newImg k) ∨
      (new.length = old.length ∧ new.Spelled ∧ MakesNew oldImg newImg k) := by
  refine or_congr ?_ ?_
  · rw [load_crashed hold hk hold.encoded]
    simp only [true_and, le_refl, KeepsOld]
    refine and_congr_right fun _ => forall_congr' fun j => forall₂_congr fun _ _ => ?_
    by_cases h : Rewritten k j <;> simp [h]
  · rw [load_crashed hold hk hnew, MakesNew]
    refine and_congr_right fun _ => and_congr_right fun _ => and_congr_right fun _ => ?_
    refine forall_congr' fun j => forall₂_congr fun _ _ => ?_
    by_cases h : Rewritten k j <;> simp [h]

/-- A device that a file list was stored on, and a store that stops because the write number `k`
from then on fails: when a later load returns the old files or the new ones. -/
theorem crash_atomic_iff {d₀ d : Disk} {old new : Image} {oldImg newImg : Octets} {k : ℕ}
    (hstored : storeFiles d₀ old = (.ok (), d)) (hold : encodeImage old = .ok oldImg)
    (hnew : encodeImage new = .ok newImg) (hfail : d.failAt = some k) (hk : k < blocksFor newImg.length)
    (hcap : blocksFor newImg.length ≤ d.blkBlocks) :
    ∃ d', storeFiles d new = (.error ioError, d') ∧
      ((loadFiles d' = .ok old ∨ loadFiles d' = .ok new) ↔
        (old.Spelled ∧ KeepsOld oldImg newImg k) ∨
        (new.length = old.length ∧ new.Spelled ∧ MakesNew oldImg newImg k)) := by
  obtain ⟨img, hholds⟩ := storeFiles_ok hstored
  obtain rfl : oldImg = img := Except.ok.inj (hold.symm.trans hholds.encoded)
  exact ⟨_, storeFiles_fail hfail hnew hk hcap, crash_atomic_of_holds hholds hnew hk⟩

/-- A device of zeros whose write number `k` fails. -/
def failingDisk (k : ℕ) : Disk := ⟨32, fun _ => padBlock [], some k⟩

/-- An image of one file of 5000 octets, which fills two blocks. -/
def oneFileImage (data : Octets) : Octets := imageHeader 5025 1 ++ ([2, 0, 47, 97, 0x88, 0x13, 0, 0] ++ data)

lemma encodeImage_oneFile {data : Octets} (hdata : data.length = 5000) :
    encodeImage [(text "/a", data)] = .ok (oneFileImage data) := by
  have hcount : ¬ maxFiles < [(text "/a", data)].length := by
    rw [List.length_singleton]
    decide
  have hpath : [(text "/a", data)].any badPath = false := rfl
  have hlong : ([(text "/a", data)].any fun f => maxImageBytes < f.2.length) = false := by
    simp only [List.any_cons, List.any_nil, hdata]
    rfl
  have hbody : [(text "/a", data)].flatMap encodeFile = [2, 0, 47, 97, 0x88, 0x13, 0, 0] ++ data := by
    simp only [List.flatMap_singleton, encodeFile, hdata]
    rfl
  simp only [encodeImage, if_neg hcount, hpath, hlong, hbody, Bool.false_eq_true, if_false, List.length_append, hdata]
  rfl

lemma oneFileImage_length {data : Octets} (hdata : data.length = 5000) : (oneFileImage data).length = 5025 := by
  simp only [oneFileImage, List.length_append, imageHeader_length, hdata]
  rfl

/-- An octet of the file's data. -/
lemma oneFileImage_getD (data : Octets) {j : ℕ} (hj : 25 ≤ j) : (oneFileImage data).getD j 0 = data.getD (j-25) 0 := by
  simp only [oneFileImage, List.getD_eq_getElem?_getD]
  rw [List.getElem?_append_right (by rw [imageHeader_length]; omega), List.getElem?_append_right (by simp; omega)]
  simp [imageHeader_length, Nat.sub_sub]

/-- A file that fills two blocks. -/
def longFile (b : BitVec 8) : Image := [(text "/a", List.replicate 5000 b)]

def longImage (b : BitVec 8) : Octets := oneFileImage (List.replicate 5000 b)

lemma encodeImage_longFile (b : BitVec 8) : encodeImage (longFile b) = .ok (longImage b) :=
  encodeImage_oneFile List.length_replicate

lemma longImage_length (b : BitVec 8) : (longImage b).length = 5025 := oneFileImage_length List.length_replicate

lemma longImage_getD (b : BitVec 8) {j : ℕ} (hlow : 25 ≤ j) (hj : j < 5025) : (longImage b).getD j 0 = b := by
  rw [longImage, oneFileImage_getD _ hlow, List.getD_eq_getElem?_getD, List.getElem?_replicate, if_pos (by omega)]
  rfl

/-- A file of two blocks is stored over another one, and the superblock write fails: a load
returns neither the old contents nor the new ones. -/
theorem crash_mixes_files :
    ∃ d d', storeFiles (failingDisk 3) (longFile 1) = (.ok (), d) ∧
      storeFiles d (longFile 2) = (.error ioError, d') ∧
      loadFiles d' ≠ .ok (longFile 1) ∧ loadFiles d' ≠ .ok (longFile 2) := by
  have hone := encodeImage_longFile 1
  have htwo := encodeImage_longFile 2
  have hblocks : ∀ b, blocksFor (longImage b).length = 2 := fun b => by rw [longImage_length]; rfl
  obtain ⟨d, hstored, hcap, hwrote⟩ := storeFiles_fits (d := failingDisk 3)
    (by rintro k ⟨⟩; rw [hblocks]; omega) hone (by rw [hblocks]; decide)
  obtain ⟨img, hholds⟩ := storeFiles_ok hstored
  obtain rfl : longImage 1 = img := Except.ok.inj (hone.symm.trans hholds.encoded)
  have hfail : d.failAt = some 1 := by rw [hwrote, hblocks]; rfl
  have hblk : d.blkBlocks = 4 := by rw [Disk.blkBlocks, hcap]; rfl
  have hk : 1 < blocksFor (longImage 2).length := by rw [hblocks]; omega
  have hcond : ¬ ((loadFiles (d.crashed (longImage 2) 1) = .ok (longFile 1)) ∨
      loadFiles (d.crashed (longImage 2) 1) = .ok (longFile 2)) := by
    rw [crash_atomic_of_holds hholds htwo hk]
    rintro (⟨-, hkeeps⟩ | ⟨-, -, -, hmakes⟩)
    · have hbyte := hkeeps 5000 (by omega) (by rw [longImage_length]; omega) (by decide)
      rw [longImage_getD 2 (by omega) (by omega), longImage_getD 1 (by omega) (by omega)] at hbyte
      exact absurd hbyte (by decide)
    · have hbyte := hmakes 100 (by omega) (by rw [longImage_length]; omega) (by decide)
      rw [longImage_getD 2 (by omega) (by omega), longImage_getD 1 (by omega) (by omega)] at hbyte
      exact absurd hbyte (by decide)
  refine ⟨d, _, hstored, storeFiles_fail hfail htwo hk (by rw [hblocks, hblk]; omega), ?_, ?_⟩
  · exact fun h => hcond (.inl h)
  · exact fun h => hcond (.inr h)

/-- The file of ones with its first 4000 octets written over. -/
def editedData : Octets := List.replicate 4000 2 ++ List.replicate 1000 1

lemma editedData_length : editedData.length = 5000 := by
  simp only [editedData, List.length_append, List.length_replicate]

/-- The block that was written before the failure is the one that the edit has left alone, so the old
file is still there. -/
theorem crash_at_superblock :
    ∃ d d', storeFiles (failingDisk 3) (longFile 1) = (.ok (), d) ∧
      storeFiles d [(text "/a", editedData)] = (.error ioError, d') ∧
      (loadFiles d' = .ok (longFile 1) ∨ loadFiles d' = .ok [(text "/a", editedData)]) := by
  have hone := encodeImage_longFile 1
  have hblocks : blocksFor (longImage 1).length = 2 := by rw [longImage_length]; rfl
  have hedited : blocksFor (oneFileImage editedData).length = 2 := by
    rw [oneFileImage_length editedData_length]
    rfl
  obtain ⟨d, hstored, hcap, hwrote⟩ := storeFiles_fits (d := failingDisk 3)
    (by rintro k ⟨⟩; rw [hblocks]; omega) hone (by rw [hblocks]; decide)
  have hfail : d.failAt = some 1 := by rw [hwrote, hblocks]; rfl
  have hblk : d.blkBlocks = 4 := by rw [Disk.blkBlocks, hcap]; rfl
  obtain ⟨d', hcrash, hiff⟩ := crash_atomic_iff hstored hone (encodeImage_oneFile editedData_length) hfail
    (by rw [hedited]; omega) (by rw [hedited, hblk]; omega)
  refine ⟨d, d', hstored, hcrash, hiff.mpr (.inl ⟨?_, ?_⟩)⟩
  · intro f hf
    obtain rfl := List.mem_singleton.mp hf
    exact forall_of_all (by decide)
  · rintro j - hj ⟨hlow, -⟩
    have hpast : 4096 ≤ j := (Nat.one_le_div_iff (by decide)).mp hlow
    rw [longImage_length] at hj
    rw [longImage_getD 1 (by omega) hj, oneFileImage_getD _ (by omega), editedData, List.getD_eq_getElem?_getD,
      List.getElem?_append_right (by rw [List.length_replicate]; omega), List.getElem?_replicate,
      if_pos (by rw [List.length_replicate]; omega)]
    rfl

end HouseKernel.FileSystem
