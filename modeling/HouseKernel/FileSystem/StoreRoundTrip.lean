import HouseKernel.FileSystem.BlockStore

/-! Which bytes a device holds after a store, and what a load makes of them. A run of blocks is
looked at as a function from byte positions to bytes. -/
namespace HouseKernel.FileSystem

open HouseKernel.Lib

/-- Byte `j` of the device. -/
def byteOf (f : ℕ → Block) (j : ℕ) : BitVec 8 := (f (j / blockBytes)).val.getD (j % blockBytes) 0

/-- The first bytes of the device. -/
def imageOf (f : ℕ → Block) (total : ℕ) : Octets := (List.range total).map (byteOf f)

@[simp] lemma imageOf_length (f : ℕ → Block) (total : ℕ) : (imageOf f total).length = total := by simp [imageOf]

lemma imageOf_take (f : ℕ → Block) {m n : ℕ} (h : m ≤ n) : (imageOf f n).take m = imageOf f m := by
  rw [imageOf, ← List.map_take, List.take_range, Nat.min_eq_left h, imageOf]

lemma block_eq_map (b : Block) : (List.range blockBytes).map (fun i => b.val.getD i 0) = b.val := by
  apply List.ext_getElem
  · simp [b.property]
  · intro i hi hi'
    simp [hi']

lemma imageOf_succ (f : ℕ → Block) (n : ℕ) :
    imageOf f (blockBytes*(n+1)) = imageOf f (blockBytes*n) ++ (f n).val := by
  have hbyte : ∀ i ∈ List.range blockBytes, byteOf f (blockBytes*n + i) = (f n).val.getD i 0 := by
    intro i hi
    have hlt : i < blockBytes := List.mem_range.mp hi
    rw [byteOf, Nat.mul_add_div (by decide), Nat.div_eq_of_lt hlt, Nat.add_zero, Nat.mul_add_mod,
      Nat.mod_eq_of_lt hlt]
  rw [imageOf, Nat.mul_succ, List.range_add, List.map_append, List.map_map, ← block_eq_map (f n)]
  exact congrArg _ (List.map_congr_left hbyte)

lemma readBlocks_ok {d : Disk} {lba n : ℕ} (h : lba + n ≤ d.blkBlocks) :
    readBlocks d lba n = .ok ((List.range' lba n).map d.block) := by
  induction n generalizing lba with
  | zero => rfl
  | succ n ih =>
    have hread : bdRead d lba = .ok (d.block lba) := if_pos (by omega)
    have hrest : readBlocks d (lba + 1) n = .ok ((List.range' (lba + 1) n).map d.block) := ih (by omega)
    simp only [readBlocks, hread, hrest, List.range'_succ, List.map_cons]
    rfl

lemma blocks_flatMap (f : ℕ → Block) (n : ℕ) :
    ((List.range' 0 n).map f).flatMap Subtype.val = imageOf f (blockBytes*n) := by
  induction n with
  | zero => rfl
  | succ n ih =>
    rw [imageOf_succ, ← ih, List.range'_concat, List.map_append, List.flatMap_append]
    simp

/-- What a load decodes, as a function of the blocks. -/
def decoded (d : Disk) (total : ℕ) : Except FsError Image :=
  if blocksFor total ≤ 0 ∨ d.blkBlocks < blocksFor total then .error (.einval "bad image: capacity")
  else badImage (decodeImage (imageOf d.block total))

/-- A load reads block 0 and as many bytes as its header declares. -/
theorem loadFiles_eq {d : Disk} (hcap : 0 < d.blkBlocks) :
    loadFiles d = if isZeroBlock (d.block 0).val then .ok []
      else badImage (headerTotal (d.block 0).val) >>= decoded d := by
  have hread : bdRead d 0 = .ok (d.block 0) := if_pos hcap
  have htake : (d.block 0).val.take 4096 = (d.block 0).val :=
    List.take_of_length_le (by rw [(d.block 0).property]; rfl)
  have hrest : ∀ total, ¬ (blocksFor total ≤ 0 ∨ d.blkBlocks < blocksFor total) →
      readBlocks d 1 (blocksFor total - 1) = .ok ((List.range' 1 (blocksFor total - 1)).map d.block) :=
    fun total h => readBlocks_ok (by omega)
  have hbytes : ∀ total, ¬ blocksFor total ≤ 0 →
      ((d.block 0).val ++ ((List.range' 1 (blocksFor total - 1)).map d.block).flatMap Subtype.val).take total =
        imageOf d.block total := by
    intro total h
    obtain ⟨n, hn⟩ : ∃ n, blocksFor total = n + 1 := ⟨blocksFor total - 1, by omega⟩
    have hall := blocks_flatMap d.block (n+1)
    rw [List.range'_succ, List.map_cons, List.flatMap_cons] at hall
    rw [hn, Nat.add_sub_cancel, hall]
    refine imageOf_take _ ?_
    simp only [blocksFor, blockBytes] at hn ⊢
    omega
  have hrest' : ∀ total, (if blocksFor total ≤ 0 ∨ d.blkBlocks < blocksFor total then
      .error (.einval "bad image: capacity")
    else do
      let rest ← readBlocks d 1 (blocksFor total - 1)
      badImage (decodeImage (((d.block 0).val ++ rest.flatMap Subtype.val).take total))) = decoded d total := by
    intro total
    rw [decoded]
    split_ifs with hneed
    · rfl
    · rw [hrest total hneed, ← hbytes total fun h => hneed (.inl h)]
      rfl
  rw [loadFiles, hread]
  simp only [bind, Except.bind, htake]
  split_ifs with hzero
  · rfl
  · exact congrArg (Except.bind (badImage (headerTotal (d.block 0).val))) (funext hrest')

/-- The blocks after these have been written one after the other. -/
def putBlocks (f : ℕ → Block) : ℕ → List Block → ℕ → Block
  | _, [] => f
  | lba, b :: bs => putBlocks (Function.update f lba b) (lba + 1) bs

lemma putBlocks_apply (f : ℕ → Block) (lba : ℕ) (bs : List Block) (j : ℕ) :
    putBlocks f lba bs j = if lba ≤ j then bs[j - lba]?.getD (f j) else f j := by
  induction bs generalizing f lba with
  | nil => simp [putBlocks]
  | cons b bs ih =>
    rw [putBlocks, ih]
    obtain hlt | rfl | hgt := Nat.lt_trichotomy j lba
    · rw [if_neg (by omega), if_neg (by omega), Function.update_of_ne hlt.ne]
    · simp
    · obtain ⟨k, rfl⟩ : ∃ k, j = lba + 1 + k := ⟨j - (lba + 1), by omega⟩
      rw [if_pos (by omega), if_pos (by omega), Function.update_of_ne (by omega),
        show lba + 1 + k - (lba + 1) = k by omega, show lba + 1 + k - lba = k + 1 by omega,
        List.getElem?_cons_succ]

/-- The superblock last is the whole run of blocks. -/
lemma update_putBlocks (f : ℕ → Block) (lba : ℕ) (b : Block) (bs : List Block) :
    Function.update (putBlocks f (lba + 1) bs) lba b = putBlocks f lba (b :: bs) := by
  funext j
  rw [putBlocks, putBlocks_apply]
  obtain rfl | hj := eq_or_ne j lba
  · rw [Function.update_self, if_neg (by omega), Function.update_self]
  · rw [Function.update_of_ne hj, putBlocks_apply, Function.update_of_ne hj]

/-- The failure that is due after so many more writes. -/
def Disk.wrote (d : Disk) (n : ℕ) : Option ℕ := d.failAt.map (· - n)

lemma bdWrite_ok {d : Disk} {lba : ℕ} {b : Block} (hfail : d.failAt ≠ some 0) (hcap : lba < d.blkBlocks) :
    bdWrite d lba b = (.ok (), { d with block := Function.update d.block lba b, failAt := d.wrote 1 }) := by
  rw [bdWrite, if_neg hfail, if_pos hcap, Disk.wrote]

lemma writeBlocks_ok {d : Disk} {lba : ℕ} {bs : List Block} (hfail : ∀ k ∈ d.failAt, bs.length ≤ k)
    (hcap : lba + bs.length ≤ d.blkBlocks) :
    writeBlocks d lba bs =
      (.ok (), { d with block := putBlocks d.block lba bs, failAt := d.wrote bs.length }) := by
  induction bs generalizing d lba with
  | nil => simp [writeBlocks, putBlocks, Disk.wrote]
  | cons b bs ih =>
    rw [List.length_cons] at hcap
    have hne : d.failAt ≠ some 0 := by
      intro hzero
      have hlen := hfail 0 hzero
      simp at hlen
    have hlater : ∀ k ∈ d.wrote 1, bs.length ≤ k := by
      intro k hk
      obtain ⟨m, hm, rfl⟩ := Option.map_eq_some_iff.mp hk
      have hlen := hfail m hm
      rw [List.length_cons] at hlen
      omega
    have hcap' : lba + 1 + bs.length ≤
        ({ d with block := Function.update d.block lba b, failAt := d.wrote 1 } : Disk).blkBlocks := by
      simp only [Disk.blkBlocks] at hcap ⊢
      omega
    simp only [writeBlocks, bdWrite_ok hne (by omega : lba < d.blkBlocks), putBlocks]
    rw [ih hlater hcap']
    simp only [Disk.wrote, Option.map_map, List.length_cons, Prod.mk.injEq, true_and, Disk.mk.injEq]
    congr 1
    funext k
    simp only [Function.comp_apply]
    omega

/-- The write that fails stops the run, and the writes before it have taken effect. -/
lemma writeBlocks_fail {d : Disk} {lba k : ℕ} {bs : List Block} (hfail : d.failAt = some k) (hk : k < bs.length)
    (hcap : lba + bs.length ≤ d.blkBlocks) :
    writeBlocks d lba bs =
      (.error ioError, { d with block := putBlocks d.block lba (bs.take k), failAt := none }) := by
  induction bs generalizing d lba k with
  | nil => simp at hk
  | cons b bs ih =>
    rw [List.length_cons] at hcap hk
    cases k with
    | zero => simp [writeBlocks, bdWrite, hfail, putBlocks]
    | succ k =>
      have hwrite := bdWrite_ok (b := b) (by simp [hfail] : d.failAt ≠ some 0) (by omega : lba < d.blkBlocks)
      have hlater : d.wrote 1 = some k := by simp [Disk.wrote, hfail]
      have hcap' : lba + 1 + bs.length ≤
          ({ d with block := Function.update d.block lba b, failAt := some k } : Disk).blkBlocks := by
        simp only [Disk.blkBlocks] at hcap ⊢
        omega
      rw [hlater] at hwrite
      simp only [writeBlocks, hwrite, List.take_succ_cons, putBlocks]
      exact ih rfl (by omega) hcap'

/-- The chunks in order, with fuel for all of them. -/
lemma chunks_eq {fuel : ℕ} {bs : Octets} (hfuel : bs.length ≤ fuel) :
    chunks fuel bs = (List.range (blocksFor bs.length)).map fun i => padBlock (bs.drop (blockBytes*i)) := by
  induction fuel generalizing bs with
  | zero =>
    obtain rfl : bs = [] := List.length_eq_zero_iff.mp (by omega)
    rfl
  | succ fuel ih =>
    rw [chunks]
    split_ifs with hnil
    · rw [hnil]
      rfl
    · have hpos : 0 < bs.length := List.length_pos_iff.mpr hnil
      have hcount : blocksFor bs.length = blocksFor (bs.drop blockBytes).length + 1 := by
        simp only [blocksFor, blockBytes, List.length_drop]
        omega
      have hfew : (bs.drop blockBytes).length ≤ fuel := by
        simp only [List.length_drop, blockBytes]
        omega
      have hrest := ih hfew
      rw [hrest, hcount, List.range_succ_eq_map, List.map_cons, List.map_map]
      refine congrArg₂ List.cons (by simp) (List.map_congr_left fun i _ => ?_)
      rw [Function.comp_apply, List.drop_drop, Nat.succ_eq_add_one, Nat.mul_succ, Nat.add_comm]

lemma chunk4096_eq (bs : Octets) :
    chunk4096 bs = (List.range (blocksFor bs.length)).map fun i => padBlock (bs.drop (blockBytes*i)) :=
  chunks_eq le_rfl

@[simp] lemma chunk4096_length (bs : Octets) : (chunk4096 bs).length = blocksFor bs.length := by
  simp [chunk4096_eq]

lemma padBlock_getD (bs : Octets) {i : ℕ} (hi : i < blockBytes) : (padBlock bs).val.getD i 0 = bs.getD i 0 := by
  simp only [padBlock, List.getD_eq_getElem?_getD, List.getElem?_take, if_pos hi, List.getElem?_append]
  by_cases hlt : i < bs.length
  · rw [if_pos hlt]
  · rw [if_neg hlt, List.getElem?_eq_none (Nat.not_lt.mp hlt), List.getElem?_replicate]
    split_ifs <;> rfl

/-- The bytes of the chunks are the bytes of the image and zeros behind it. -/
lemma byteOf_chunks {f : ℕ → Block} {bs : Octets} {j : ℕ}
    (hj : (chunk4096 bs)[j / blockBytes]? = some (f (j / blockBytes))) : byteOf f j = bs.getD j 0 := by
  rw [chunk4096_eq, List.getElem?_map, Option.map_eq_some_iff] at hj
  obtain ⟨i, hi, hpad⟩ := hj
  obtain rfl : j / blockBytes = i := by
    obtain ⟨_, heq⟩ := List.getElem?_eq_some_iff.mp hi
    simpa using heq
  rw [byteOf, ← hpad, padBlock_getD _ (Nat.mod_lt _ (by decide)), List.getD_eq_getElem?_getD,
    List.getElem?_drop, Nat.div_add_mod, List.getD_eq_getElem?_getD]

lemma chunk4096_cons {img : Octets} (hpos : img ≠ []) :
    ∃ b0 rest, chunk4096 img = b0 :: rest ∧ rest.length + 1 = blocksFor img.length := by
  obtain ⟨b0, rest, hchunks⟩ : ∃ b0 rest, chunk4096 img = b0 :: rest := by
    refine List.exists_cons_of_length_pos ?_
    have hlen := List.length_pos_iff.mpr hpos
    simp only [chunk4096_length, blocksFor]
    omega
  refine ⟨b0, rest, hchunks, ?_⟩
  rw [← chunk4096_length, hchunks, List.length_cons]

/-- When no write fails, the whole image goes to the device. -/
theorem writeImage_ok {d : Disk} {img : Octets} (hfail : ∀ k ∈ d.failAt, blocksFor img.length ≤ k) (hpos : img ≠ [])
    (hcap : blocksFor img.length ≤ d.blkBlocks) :
    writeImage d img = (.ok (), { d with
      block := putBlocks d.block 0 (chunk4096 img), failAt := d.wrote (blocksFor img.length) }) := by
  obtain ⟨b0, rest, hchunks, hcount⟩ := chunk4096_cons hpos
  have hdata : writeBlocks d 1 rest =
      (.ok (), { d with block := putBlocks d.block 1 rest, failAt := d.wrote rest.length }) := by
    refine writeBlocks_ok (fun k hk => ?_) (by omega)
    have hle := hfail k hk
    omega
  have hne : d.wrote rest.length ≠ some 0 := by
    intro hzero
    obtain ⟨k, hk, hdue⟩ := Option.map_eq_some_iff.mp hzero
    have hle := hfail k hk
    omega
  have hsuper := bdWrite_ok (d := { d with block := putBlocks d.block 1 rest, failAt := d.wrote rest.length })
    (b := b0) hne (by simp only [Disk.blkBlocks] at hcap ⊢; omega : 0 < Disk.blkBlocks _)
  simp only [writeImage, hchunks, List.drop_succ_cons, List.drop_zero, hdata, hsuper, update_putBlocks, ← hcount]
  simp only [Disk.wrote, Option.map_map, Prod.mk.injEq, true_and, Disk.mk.injEq]
  congr 1

/-- When the write number `k` fails, exactly the first `k` data blocks have been written. -/
theorem writeImage_fail {d : Disk} {img : Octets} {k : ℕ} (hfail : d.failAt = some k) (hk : k < blocksFor img.length)
    (hpos : img ≠ []) (hcap : blocksFor img.length ≤ d.blkBlocks) :
    writeImage d img = (.error ioError, { d with
      block := putBlocks d.block 1 (((chunk4096 img).drop 1).take k), failAt := none }) := by
  obtain ⟨b0, rest, hchunks, hcount⟩ := chunk4096_cons hpos
  simp only [writeImage, hchunks, List.drop_succ_cons, List.drop_zero]
  obtain hlt | rfl := Nat.lt_or_eq_of_le (by omega : k ≤ rest.length)
  · rw [writeBlocks_fail hfail hlt (by omega)]
  · have hdata : writeBlocks d 1 rest =
        (.ok (), { d with block := putBlocks d.block 1 rest, failAt := some 0 }) := by
      have hok := writeBlocks_ok (by simp [hfail] : ∀ k ∈ d.failAt, rest.length ≤ k)
        (by omega : 1 + rest.length ≤ d.blkBlocks)
      simpa [Disk.wrote, hfail] using hok
    simp [hdata, bdWrite]

/-- The bytes of an image that is on the device from block 0 on. -/
lemma imageOf_putBlocks (f : ℕ → Block) (img : Octets) :
    imageOf (putBlocks f 0 (chunk4096 img)) img.length = img := by
  apply List.ext_getElem
  · simp
  · intro j hj hj'
    have hlt : j / blockBytes < (chunk4096 img).length := by
      simp only [chunk4096_length, blocksFor, blockBytes]
      omega
    have hblock : (chunk4096 img)[j / blockBytes]? =
        some (putBlocks f 0 (chunk4096 img) (j / blockBytes)) := by
      rw [putBlocks_apply, if_pos (Nat.zero_le _), Nat.sub_zero, List.getElem?_eq_getElem hlt]
      rfl
    simp [imageOf, byteOf_chunks hblock, hj']

/-- A block that starts with the header of an image is not a block of zeros, and the header
can be read from it. -/
lemma header_of_block {b : Octets} {total count : ℕ} {rest : Octets} (hb : b = imageHeader total count ++ rest)
    (htotal : 17 ≤ total ∧ total ≤ maxImageBytes) (hcount : count ≤ maxFiles) :
    isZeroBlock b = false ∧ headerTotal b = .ok total := by
  subst hb
  constructor
  · rfl
  · rw [headerTotal, decodeHeader_imageHeader htotal hcount]
    rfl

lemma encodeImage_length {files : Image} {img : Octets} (h : encodeImage files = .ok img) :
    17 ≤ img.length ∧ img.length ≤ maxImageBytes := by
  obtain ⟨-, -, hsize, himg⟩ := encodeImage_ok h
  refine ⟨?_, hsize⟩
  rw [himg, List.length_append, imageHeader_length]
  omega

/-- A device whose block 0 starts with the header of an image and that holds so many bytes is
decoded as these bytes. -/
theorem loadFiles_of_header {d : Disk} {total count : ℕ} {rest : Octets}
    (hb : (d.block 0).val = imageHeader total count ++ rest) (htotal : 17 ≤ total ∧ total ≤ maxImageBytes)
    (hcount : count ≤ maxFiles) (hcap : blocksFor total ≤ d.blkBlocks) :
    loadFiles d = badImage (decodeImage (imageOf d.block total)) := by
  obtain ⟨hzero, hhead⟩ := header_of_block hb htotal hcount
  have hneed : 0 < blocksFor total := by
    simp only [blocksFor]
    omega
  rw [loadFiles_eq (by omega), if_neg (by simp [hzero]), hhead, badImage]
  exact if_neg (by omega)

lemma encodeImage_ne_nil {files : Image} {img : Octets} (h : encodeImage files = .ok img) : img ≠ [] := by
  rintro rfl
  have hlen := (encodeImage_length h).1
  simp at hlen

/-- Block 0 starts with the first bytes of the device. -/
lemma block_zero_take (f : ℕ → Block) {n : ℕ} (hn : n ≤ blockBytes) : (f 0).val.take n = imageOf f n := by
  have hblock := imageOf_succ f 0
  rw [Nat.mul_zero, Nat.zero_add, Nat.mul_one] at hblock
  rw [← imageOf_take f hn, hblock]
  rfl

/-- The device holds the image of a file list from block 0 on. -/
structure Disk.Holds (d : Disk) (files : Image) (img : Octets) : Prop where
  encoded : encodeImage files = .ok img
  fits : blocksFor img.length ≤ d.blkBlocks
  bytes : imageOf d.block img.length = img

/-- The header of the image that a device holds can be read from block 0. -/
lemma Disk.Holds.header {d : Disk} {files : Image} {img : Octets} (h : d.Holds files img) :
    ∃ rest, (d.block 0).val = imageHeader img.length files.length ++ rest := by
  obtain ⟨hlow, -⟩ := encodeImage_length h.encoded
  obtain ⟨-, -, -, himg⟩ := encodeImage_ok h.encoded
  have htake : (d.block 0).val.take 17 = imageHeader img.length files.length := by
    have hhead := congrArg (List.take 17) h.bytes
    rw [imageOf_take _ hlow, ← block_zero_take _ (by decide)] at hhead
    have hpre : imageHeader img.length files.length <+: img := ⟨_, himg.symm⟩
    rw [hhead]
    exact (List.prefix_iff_eq_take.mp hpre).symm
  exact ⟨(d.block 0).val.drop 17, by rw [← htake, List.take_append_drop]⟩

theorem Disk.Holds.load {d : Disk} {files : Image} {img : Octets} (h : d.Holds files img) :
    loadFiles d = badImage (decodeImage img) := by
  obtain ⟨rest, hrest⟩ := h.header
  obtain ⟨-, hcount, -, -⟩ := encodeImage_ok h.encoded
  have hload := loadFiles_of_header hrest (encodeImage_length h.encoded) hcount h.fits
  rwa [h.bytes] at hload

/-- A store that succeeds leaves the whole image on the device. -/
theorem storeFiles_ok {d d' : Disk} {files : Image} (h : storeFiles d files = (.ok (), d')) :
    ∃ img, d'.Holds files img := by
  unfold storeFiles at h
  cases henc : encodeImage files with
  | error e => simp [henc] at h
  | ok img =>
    rw [henc] at h
    dsimp only at h
    by_cases hneed : d.blkBlocks < blocksFor img.length ∨ blocksFor img.length = 0
    · simp [hneed] at h
    · rw [if_neg hneed] at h
      have hcap : blocksFor img.length ≤ d.blkBlocks := by omega
      by_cases hfail : ∀ k ∈ d.failAt, blocksFor img.length ≤ k
      · rw [writeImage_ok hfail (encodeImage_ne_nil henc) hcap] at h
        obtain rfl := congrArg Prod.snd h
        exact ⟨img, henc, hcap, imageOf_putBlocks _ _⟩
      · simp only [not_forall, Nat.not_le] at hfail
        obtain ⟨k, hdue, hk⟩ := hfail
        rw [writeImage_fail hdue hk (encodeImage_ne_nil henc) hcap] at h
        cases congrArg Prod.fst h

/-- On a device of sufficient capacity an accepted file list is stored, unless a write fails. -/
theorem storeFiles_fits {d : Disk} {files : Image} {img : Octets} (hfail : ∀ k ∈ d.failAt, blocksFor img.length ≤ k)
    (henc : encodeImage files = .ok img) (hcap : blocksFor img.length ≤ d.blkBlocks) :
    ∃ d', storeFiles d files = (.ok (), d') ∧ d'.capSectors = d.capSectors ∧
      d'.failAt = d.wrote (blocksFor img.length) := by
  have hlow := (encodeImage_length henc).1
  have hneed : ¬ (d.blkBlocks < blocksFor img.length ∨ blocksFor img.length = 0) := by
    simp only [blocksFor] at hcap ⊢
    omega
  simp only [storeFiles, henc, if_neg hneed]
  exact ⟨_, writeImage_ok hfail (encodeImage_ne_nil henc) hcap, rfl, rfl⟩

/-- The decoder, and a load after a store that succeeded, give the accepted file list back
exactly when every path is spelled in the characters 1..255; a device of sufficient capacity
stores it. -/
theorem image_round_trip_iff {files : Image} {img : Octets} (henc : encodeImage files = .ok img) :
    (decodeImage img = .ok files ↔ files.Spelled) ∧
    (∀ d d', storeFiles d files = (.ok (), d') → (loadFiles d' = .ok files ↔ files.Spelled)) ∧
    ∀ d : Disk, d.failAt = none → blocksFor img.length ≤ d.blkBlocks →
      ∃ d', storeFiles d files = (.ok (), d') := by
  have hdec := decodeImage_encodeImage_iff henc
  refine ⟨hdec, ?_, ?_⟩
  · intro d d' hstore
    obtain ⟨img', hholds⟩ := storeFiles_ok hstore
    obtain rfl : img = img' := Except.ok.inj (henc.symm.trans hholds.encoded)
    rw [hholds.load, ← hdec]
    cases decodeImage img with
    | error e => simp [badImage]
    | ok fs => simp [badImage]
  · intro d hfail hcap
    obtain ⟨d', hstore, -, -⟩ := storeFiles_fits (by simp [hfail]) henc hcap
    exact ⟨d', hstore⟩

/-- A device of four blocks of zeros. -/
def zeroDisk : Disk := ⟨32, fun _ => padBlock [], none⟩

/-- An image with one file of one byte. -/
theorem image_round_trip_one :
    ∃ img, encodeImage [(text "/a", [7])] = .ok img ∧ decodeImage img = .ok [(text "/a", [7])] ∧
      ∃ d', storeFiles zeroDisk [(text "/a", [7])] = (.ok (), d') ∧ loadFiles d' = .ok [(text "/a", [7])] := by
  have henc : encodeImage [(text "/a", [7])] = .ok (imageHeader 26 1 ++ [2, 0, 47, 97, 1, 0, 0, 0, 7]) := by
    rfl
  have hspelled : Image.Spelled [(text "/a", [7])] := by
    intro f hf
    obtain rfl := List.mem_singleton.mp hf
    exact forall_of_all (by decide)
  obtain ⟨hdec, hload, hfits⟩ := image_round_trip_iff henc
  obtain ⟨d', hd⟩ := hfits zeroDisk rfl (by decide)
  exact ⟨_, henc, hdec.mpr hspelled, d', hd, (hload zeroDisk d' hd).mpr hspelled⟩

/-- The encoder accepts a path with a NUL character that the decoder then refuses: the stored
image can no longer be loaded. -/
theorem image_with_nul_is_lost :
    ∃ img, encodeImage [([slash, ⟨0, by decide⟩], [7])] = .ok img ∧ decodeImage img = .error "bad path" ∧
      ∃ d', storeFiles zeroDisk [([slash, ⟨0, by decide⟩], [7])] = (.ok (), d') ∧
        loadFiles d' = .error (.einval "bad image: bad path") := by
  have henc : encodeImage [([slash, ⟨0, by decide⟩], [7])] =
      .ok (imageHeader 26 1 ++ [2, 0, 47, 0, 1, 0, 0, 0, 7]) := by rfl
  have hdec : decodeImage (imageHeader 26 1 ++ [2, 0, 47, 0, 1, 0, 0, 0, 7]) = .error "bad path" := by
    rfl
  obtain ⟨d', hstore, -, -⟩ := storeFiles_fits (d := zeroDisk) (by simp [zeroDisk]) henc (by decide)
  obtain ⟨img', hholds⟩ := storeFiles_ok hstore
  obtain rfl := Except.ok.inj (henc.symm.trans hholds.encoded)
  refine ⟨_, henc, hdec, d', hstore, ?_⟩
  rw [hholds.load, hdec]
  rfl

end HouseKernel.FileSystem
