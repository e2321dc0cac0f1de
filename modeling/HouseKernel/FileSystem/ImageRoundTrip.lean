import HouseKernel.FileSystem.Image
import HouseKernel.Lib.Checks

/-! What the decoder makes of an encoded image: the same files under the paths that their bytes
spell, unless a path has a NUL byte, which the decoder refuses and the encoder does not. -/
namespace HouseKernel.FileSystem

open HouseKernel.Lib

/-- Only the position relative to the part that is read matters. -/
lemma getU16_append (pre rest : Octets) (k : ℕ) : getU16 (pre.length + k) (pre ++ rest) = getU16 k rest := by
  simp only [getU16, Nat.add_assoc, List.getElem?_append_right (Nat.le_add_right _ _), Nat.add_sub_cancel_left]

lemma getU32_append (pre rest : Octets) (k : ℕ) : getU32 (pre.length + k) (pre ++ rest) = getU32 k rest := by
  simp only [getU32, Nat.add_assoc, List.getElem?_append_right (Nat.le_add_right _ _), Nat.add_sub_cancel_left]

lemma getU16_word16LE {n : ℕ} (hn : n < 65536) (rest : Octets) : getU16 0 (word16LE n ++ rest) = some n := by
  simp only [getU16, word16LE, List.cons_append, List.getElem?_cons_zero, List.getElem?_cons_succ,
    Option.bind_eq_bind, Option.bind_some, Option.pure_def, Option.some.injEq, BitVec.toNat_ofNat,
    Nat.shiftLeft_eq, Nat.shiftRight_eq_div_pow]
  omega

lemma getU32_word32LE (w : BitVec 32) (rest : Octets) : getU32 0 (word32LE w ++ rest) = some w.toNat := by
  have hw := w.isLt
  simp only [getU32, word32LE, List.cons_append, List.getElem?_cons_zero, List.getElem?_cons_succ,
    Option.bind_eq_bind, Option.bind_some, Option.pure_def, Option.some.injEq, BitVec.toNat_setWidth,
    BitVec.toNat_ushiftRight, Nat.shiftLeft_eq, Nat.shiftRight_eq_div_pow]
  omega

/-- The header that the encoder writes. -/
def imageHeader (total count : ℕ) : Octets :=
  magic ++ [versionCurrent] ++ word32LE (allowedCaps.setWidth 32) ++ word32LE (BitVec.ofNat 32 total) ++
    word32LE (BitVec.ofNat 32 count)

@[simp] lemma imageHeader_length (total count : ℕ) : (imageHeader total count).length = 17 := rfl

lemma checkHeader_ok {h : ImageHeader} (hlow : h.hdrLen ≤ h.total) (hhigh : h.total ≤ maxImageBytes)
    (hcount : h.count ≤ maxFiles) : checkHeader h = .ok h := by
  rw [checkHeader, if_neg (by omega), if_neg (by omega)]

lemma decodeHeader_imageHeader {total count : ℕ} (htotal : 17 ≤ total ∧ total ≤ maxImageBytes)
    (hcount : count ≤ maxFiles) (rest : Octets) :
    decodeHeader (imageHeader total count ++ rest) = .ok ⟨0, total, count, 17⟩ := by
  obtain ⟨hlow, hhigh⟩ := htotal
  have hcaps : getU32 5 (imageHeader total count ++ rest) = some 0 := rfl
  have htot : getU32 9 (imageHeader total count ++ rest) = some (BitVec.ofNat 32 total).toNat := by
    have hsplit : imageHeader total count ++ rest =
        (magic ++ [versionCurrent] ++ word32LE (allowedCaps.setWidth 32)) ++
          (word32LE (BitVec.ofNat 32 total) ++ (word32LE (BitVec.ofNat 32 count) ++ rest)) := by
      simp [imageHeader]
    rw [hsplit]
    exact (getU32_append _ _ 0).trans (getU32_word32LE _ _)
  have hcnt : getU32 13 (imageHeader total count ++ rest) = some (BitVec.ofNat 32 count).toNat := by
    have hsplit : imageHeader total count ++ rest =
        (magic ++ [versionCurrent] ++ word32LE (allowedCaps.setWidth 32) ++ word32LE (BitVec.ofNat 32 total)) ++
          (word32LE (BitVec.ofNat 32 count) ++ rest) := by
      simp [imageHeader]
    rw [hsplit]
    exact (getU32_append _ _ 0).trans (getU32_word32LE _ _)
  have hlen : (imageHeader total count ++ rest).length = 17 + rest.length := by
    rw [List.length_append, imageHeader_length]
  have htake : (imageHeader total count ++ rest).take 4 = magic := rfl
  have hver : (imageHeader total count ++ rest)[4]? = some versionCurrent := rfl
  have htotal : total < 2^32 := lt_of_le_of_lt hhigh (by decide)
  have hfiles : count < 2^32 := lt_of_le_of_lt hcount (by decide)
  rw [BitVec.toNat_ofNat, Nat.mod_eq_of_lt htotal] at htot
  rw [BitVec.toNat_ofNat, Nat.mod_eq_of_lt hfiles] at hcnt
  have hne : versionCurrent ≠ versionLegacy := by decide
  have hallowed : ¬ (BitVec.ofNat 64 0 &&& ~~~allowedCaps ≠ 0) := by decide
  simp only [decodeHeader, hlen, htake, hver, Option.some.injEq, if_neg hne, headerV2, hcaps, htot, hcnt,
    if_neg hallowed]
  rw [if_neg (by omega), if_neg (by simp), if_pos trivial, if_neg (by omega)]
  exact checkHeader_ok hlow hhigh hcount

/-- What a file reads back as. -/
def stored (f : Text × Octets) : Text × Octets := (bytesToPath (pathToBytes f.1), f.2)

/-- The encoder's checks of one file. -/
structure Storable (f : Text × Octets) : Prop where
  path : badPath f = false
  data : f.2.length ≤ maxImageBytes

lemma Storable.head {f : Text × Octets} (hf : Storable f) : f.1.head? = some slash ∧ f.1.length ≤ maxPathLen := by
  have hpath := hf.path
  simp only [badPath, decide_eq_false_iff_not, not_or, not_not, Nat.not_lt] at hpath
  exact ⟨hpath.2.2, hpath.2.1⟩

lemma stored_head {p : Text} (h : p.head? = some slash) : (bytesToPath (pathToBytes p)).head? = some slash := by
  rw [bytesToPath, pathToBytes, List.head?_map, List.head?_map, h]
  rfl

/-- One file is read off, at any place of an image. -/
lemma parseFiles_cons {f : Text × Octets} (hf : Storable f) (pre rest : Octets) (n : ℕ) (acc : Image) :
    parseFiles (pre ++ (encodeFile f ++ rest)) pre.length (n + 1) acc =
      if 0 ∈ pathToBytes f.1 then .error "bad path"
      else parseFiles (pre ++ (encodeFile f ++ rest)) (pre.length + (encodeFile f).length) n (stored f :: acc) := by
  obtain ⟨hhead, hlen⟩ := hf.head
  have hdata := hf.data
  have hne : f.1 ≠ [] := by
    rintro hnil
    simp [hnil] at hhead
  have hpos : 0 < f.1.length := List.length_pos_iff.mpr hne
  have hpb : (pathToBytes f.1).length = f.1.length := List.length_map _
  have hshort : f.1.length < 65536 := lt_of_le_of_lt hlen (by decide)
  have hsmall : f.2.length < 2^32 := lt_of_le_of_lt hdata (by decide)
  have hsize : (encodeFile f).length = 2 + f.1.length + 4 + f.2.length := by
    simp [encodeFile, hpb, word16LE, word32LE]
    omega
  have htail : encodeFile f ++ rest = word16LE f.1.length ++
      (pathToBytes f.1 ++ (word32LE (BitVec.ofNat 32 f.2.length) ++ (f.2 ++ rest))) := by
    simp [encodeFile, hpb]
  have hplen : getU16 pre.length (pre ++ (encodeFile f ++ rest)) = some f.1.length := by
    rw [htail]
    exact (getU16_append pre _ 0).trans (getU16_word16LE hshort _)
  have hpath : ((pre ++ (encodeFile f ++ rest)).drop (pre.length + 2)).take f.1.length = pathToBytes f.1 := by
    rw [List.drop_length_add_append, htail]
    exact List.take_left' hpb
  have hflen : getU32 (pre.length + 2 + f.1.length) (pre ++ (encodeFile f ++ rest)) = some f.2.length := by
    have hword : getU32 (2 + f.1.length) (encodeFile f ++ rest) = some (BitVec.ofNat 32 f.2.length).toNat := by
      rw [htail, ← List.append_assoc]
      have hoff : (word16LE f.1.length ++ pathToBytes f.1).length = 2 + f.1.length := by
        simp [word16LE, hpb]
        omega
      rw [← hoff]
      exact (getU32_append _ _ 0).trans (getU32_word32LE _ _)
    rw [Nat.add_assoc, getU32_append, hword, BitVec.toNat_ofNat, Nat.mod_eq_of_lt hsmall]
  have hbody : ((pre ++ (encodeFile f ++ rest)).drop (pre.length + 2 + f.1.length + 4)).take f.2.length = f.2 := by
    have hdrop : (encodeFile f ++ rest).drop (2 + f.1.length + 4) = f.2 ++ rest := by
      rw [htail, ← List.append_assoc, ← List.append_assoc]
      refine List.drop_left' ?_
      simp [word16LE, word32LE, hpb]
      omega
    rw [show pre.length + 2 + f.1.length + 4 = pre.length + (2 + f.1.length + 4) by omega,
      List.drop_length_add_append, hdrop, List.take_left' rfl]
  have htotal : (pre ++ (encodeFile f ++ rest)).length = pre.length + (2 + f.1.length + 4 + f.2.length + rest.length) := by
    rw [List.length_append, List.length_append, hsize]
  have hspell : bytesToPath (pathToBytes f.1) ≠ [] := by simpa [bytesToPath, pathToBytes] using hne
  have hnext : pre.length + 2 + f.1.length + 4 + f.2.length = pre.length + (encodeFile f).length := by omega
  have hplenOk : ¬ (f.1.length ≤ 0 ∨ maxPathLen < f.1.length) := by omega
  have hentry : ¬ (pre ++ (encodeFile f ++ rest)).length < pre.length + 2 + f.1.length + 4 := by omega
  have hbodyOk : ¬ (pre ++ (encodeFile f ++ rest)).length < pre.length + (encodeFile f).length := by omega
  simp only [parseFiles, hplen, hpath, hflen, hbody, hnext, stored_head hhead, hspell, ne_eq, not_true_eq_false,
    false_or, if_neg hplenOk, if_neg hentry, if_neg hbodyOk, if_neg (Nat.not_lt.mpr hdata)]
  rfl

/-- The whole body, read from behind whatever stands before it and up to whatever follows. -/
theorem parseFiles_encode {files : Image} (hf : ∀ f ∈ files, Storable f) (pre tail : Octets) (acc : Image) :
    parseFiles (pre ++ (files.flatMap encodeFile ++ tail)) pre.length files.length acc =
      if ∃ f ∈ files, 0 ∈ pathToBytes f.1 then .error "bad path" else .ok (acc.reverse ++ files.map stored) := by
  induction files generalizing pre acc with
  | nil => simp [parseFiles]
  | cons f files ih =>
    have hrest := ih (fun g hg => hf g (List.mem_cons_of_mem _ hg)) (pre ++ encodeFile f) (stored f :: acc)
    rw [List.append_assoc, List.length_append] at hrest
    rw [List.flatMap_cons, List.append_assoc, List.length_cons, parseFiles_cons (hf f List.mem_cons_self), hrest]
    by_cases hnul : 0 ∈ pathToBytes f.1
    · rw [if_pos hnul, if_pos ⟨f, List.mem_cons_self, hnul⟩]
    · rw [if_neg hnul]
      simp only [List.exists_mem_cons_iff, hnul, false_or, List.reverse_cons, List.append_assoc,
        List.singleton_append, List.map_cons]

/-- Every character of every path fits into one byte and is not NUL. -/
def Image.Spelled (files : Image) : Prop := ∀ f ∈ files, ∀ c ∈ f.1, 0 < c.val ∧ c.val < 256

/-- An accepted file list passed every check, and the image is its header and its files. -/
theorem encodeImage_ok {files : Image} {img : Octets} (h : encodeImage files = .ok img) :
    (∀ f ∈ files, Storable f) ∧ files.length ≤ maxFiles ∧ img.length ≤ maxImageBytes ∧
      img = imageHeader img.length files.length ++ files.flatMap encodeFile := by
  unfold encodeImage at h
  split_ifs at h with hcount hpath hdata
  dsimp only at h
  split_ifs at h with hsize
  have himg : img = imageHeader (4 + 1 + 4 + 4 + 4 + (files.flatMap encodeFile).length) files.length ++
      files.flatMap encodeFile := (Except.ok.inj h).symm
  have hlen : img.length = 4 + 1 + 4 + 4 + 4 + (files.flatMap encodeFile).length := by
    rw [himg, List.length_append, imageHeader_length]
  simp only [List.any_eq_true, not_exists, not_and, Bool.not_eq_true, decide_eq_true_eq, Nat.not_lt]
    at hpath hdata
  refine ⟨fun f hf => ⟨hpath f hf, hdata f hf⟩, Nat.not_lt.mp hcount, by omega, ?_⟩
  rw [hlen]
  exact himg

/-- The decoder on an encoded image. -/
theorem decodeImage_encodeImage {files : Image} {img : Octets} (h : encodeImage files = .ok img) :
    decodeImage img =
      if ∃ f ∈ files, 0 ∈ pathToBytes f.1 then .error "bad path" else .ok (files.map stored) := by
  obtain ⟨hfiles, hcount, hsize, himg⟩ := encodeImage_ok h
  have hlow : 17 ≤ img.length := by
    rw [himg, List.length_append, imageHeader_length]
    omega
  have hheader : decodeHeader img = .ok ⟨0, img.length, files.length, 17⟩ := by
    have hdec := decodeHeader_imageHeader ⟨hlow, hsize⟩ hcount (files.flatMap encodeFile)
    rwa [← himg] at hdec
  have hparse := parseFiles_encode hfiles (imageHeader img.length files.length) [] []
  rw [List.append_nil, ← himg, imageHeader_length] at hparse
  simp only [decodeImage, hheader, Nat.lt_irrefl, if_false, List.take_length]
  simpa using hparse

lemma toByte_eq_zero_iff {c : CodePoint} : toByte c = 0 ↔ c.val % 256 = 0 := by
  rw [← BitVec.toNat_inj, toNat_toByte]
  rfl

lemma zero_mem_pathToBytes {p : Text} : 0 ∈ pathToBytes p ↔ ∃ c ∈ p, c.val % 256 = 0 := by
  simp only [pathToBytes, List.mem_map, toByte_eq_zero_iff]

lemma stored_eq_self_iff {f : Text × Octets} : stored f = f ↔ ∀ c ∈ f.1, c.val < 256 := by
  rw [Prod.ext_iff]
  simp only [stored, and_true]
  exact map_ofByte_toByte_iff

/-- Well-spelled paths have no NUL byte and read back as they were. -/
theorem Image.Spelled.stored {files : Image} (h : files.Spelled) :
    (¬ ∃ f ∈ files, 0 ∈ pathToBytes f.1) ∧ files.map stored = files := by
  constructor
  · rintro ⟨f, hf, hmem⟩
    obtain ⟨c, hc, hz⟩ := zero_mem_pathToBytes.mp hmem
    have hrange := h f hf c hc
    omega
  · refine (List.map_congr_left fun f hf => ?_).trans (List.map_id files)
    exact stored_eq_self_iff.mpr fun c hc => (h f hf c hc).2

/-- Files that read back as they were are well spelled. -/
theorem spelled_of_stored {files : Image}
    (h : (if ∃ f ∈ files, 0 ∈ pathToBytes f.1 then .error "bad path" else .ok (files.map stored)) =
      (.ok files : Except String Image)) : files.Spelled := by
  intro f hf c hc
  split_ifs at h with hbad
  have hmap : files.map stored = files.map id := by rw [Except.ok.inj h, List.map_id]
  have hself : stored f = f := List.map_inj_left.mp hmap f hf
  have hlt := stored_eq_self_iff.mp hself c hc
  refine ⟨?_, hlt⟩
  by_contra hz
  exact hbad ⟨f, hf, zero_mem_pathToBytes.mpr ⟨c, hc, by omega⟩⟩

/-- The decoder gives the same files back exactly when every path is spelled in characters that
a byte other than NUL can hold. -/
theorem decodeImage_encodeImage_iff {files : Image} {img : Octets} (h : encodeImage files = .ok img) :
    decodeImage img = .ok files ↔ files.Spelled := by
  rw [decodeImage_encodeImage h]
  refine ⟨spelled_of_stored, fun hspelled => ?_⟩
  rw [if_neg hspelled.stored.1, hspelled.stored.2]

lemma getU16_some {off n : ℕ} {bs : Octets} (h : getU16 off bs = some n) :
    bs.drop off = word16LE n ++ bs.drop (off + 2) := by
  simp only [getU16, Option.bind_eq_bind, Option.bind_eq_some_iff, Option.pure_def, Option.some.injEq] at h
  obtain ⟨b0, h0, b1, h1, rfl⟩ := h
  obtain ⟨hlt0, rfl⟩ := List.getElem?_eq_some_iff.mp h0
  obtain ⟨hlt1, rfl⟩ := List.getElem?_eq_some_iff.mp h1
  rw [List.drop_eq_getElem_cons hlt0, List.drop_eq_getElem_cons hlt1]
  have hlow := bs[off].isLt
  have hhigh := bs[off+1].isLt
  simp only [word16LE, List.cons_append, List.nil_append, List.cons.injEq, and_true, ← BitVec.toNat_inj,
    BitVec.toNat_ofNat, Nat.shiftLeft_eq, Nat.shiftRight_eq_div_pow]
  omega

lemma getU32_some {off n : ℕ} {bs : Octets} (h : getU32 off bs = some n) :
    bs.drop off = word32LE (BitVec.ofNat 32 n) ++ bs.drop (off + 4) := by
  simp only [getU32, Option.bind_eq_bind, Option.bind_eq_some_iff, Option.pure_def, Option.some.injEq] at h
  obtain ⟨b0, h0, b1, h1, b2, h2, b3, h3, rfl⟩ := h
  obtain ⟨hlt0, rfl⟩ := List.getElem?_eq_some_iff.mp h0
  obtain ⟨hlt1, rfl⟩ := List.getElem?_eq_some_iff.mp h1
  obtain ⟨hlt2, rfl⟩ := List.getElem?_eq_some_iff.mp h2
  obtain ⟨hlt3, rfl⟩ := List.getElem?_eq_some_iff.mp h3
  rw [List.drop_eq_getElem_cons hlt0, List.drop_eq_getElem_cons hlt1, List.drop_eq_getElem_cons hlt2,
    List.drop_eq_getElem_cons hlt3]
  have hb0 := bs[off].isLt
  have hb1 := bs[off+1].isLt
  have hb2 := bs[off+2].isLt
  have hb3 := bs[off+3].isLt
  simp only [word32LE, List.cons_append, List.nil_append, List.cons.injEq, and_true, ← BitVec.toNat_inj,
    BitVec.toNat_setWidth, BitVec.toNat_ushiftRight, BitVec.toNat_ofNat, Nat.shiftLeft_eq,
    Nat.shiftRight_eq_div_pow]
  omega

lemma drop_eq_take_append (bs : Octets) (off k : ℕ) : bs.drop off = (bs.drop off).take k ++ bs.drop (off + k) := by
  rw [← List.drop_drop, List.take_append_drop]

lemma bytesToPath_spelled {bs : Octets} (h : ¬ 0 ∈ bs) : ∀ c ∈ bytesToPath bs, 0 < c.val ∧ c.val < 256 := by
  intro c hc
  obtain ⟨b, hb, rfl⟩ := List.mem_map.mp hc
  refine ⟨Nat.pos_of_ne_zero fun hzero => h ?_, b.isLt⟩
  have hb0 : b = 0 := BitVec.eq_of_toNat_eq hzero
  exact hb0 ▸ hb

/-- What the decoder reads is the encoding of what it returns, and that is well spelled. -/
theorem parseFiles_ok {img : Octets} {off n : ℕ} {acc out : Image} (h : parseFiles img off n acc = .ok out) :
    ∃ files, out = acc.reverse ++ files ∧ files.length = n ∧ Image.Spelled files ∧
      files.flatMap encodeFile <+: img.drop off := by
  induction n generalizing off acc with
  | zero =>
    refine ⟨[], ?_, rfl, by simp [Image.Spelled], List.nil_prefix⟩
    simpa [parseFiles] using (Except.ok.inj h).symm
  | succ n ih =>
    unfold parseFiles at h
    split at h
    · cases h
    · rename_i plen hplen
      dsimp only at h
      split_ifs at h with hlen hroom hpath
      split at h
      · cases h
      · rename_i flen hflen
        split_ifs at h with hbig hshort
        obtain ⟨files, rfl, hcount, hspelled, hprefix⟩ := ih h
        refine ⟨(bytesToPath ((img.drop (off + 2)).take plen), (img.drop (off + 2 + plen + 4)).take flen) :: files,
          by simp, by simp [hcount], ?_, ?_⟩
        · intro f hf
          obtain rfl | hf := List.mem_cons.mp hf
          · exact bytesToPath_spelled fun hzero => hpath (.inr (.inr hzero))
          · exact hspelled f hf
        have hbytes : pathToBytes (bytesToPath ((img.drop (off + 2)).take plen)) = (img.drop (off + 2)).take plen := by
          simp [pathToBytes, bytesToPath, Function.comp_def]
        have hplenEq : ((img.drop (off + 2)).take plen).length = plen := by
          simp only [List.length_take, List.length_drop]
          omega
        have hflenEq : ((img.drop (off + 2 + plen + 4)).take flen).length = flen := by
          simp only [List.length_take, List.length_drop]
          omega
        have hsplit : img.drop off =
            encodeFile (bytesToPath ((img.drop (off + 2)).take plen), (img.drop (off + 2 + plen + 4)).take flen) ++
              img.drop (off + 2 + plen + 4 + flen) := by
          simp only [encodeFile, hbytes, hplenEq, hflenEq, List.append_assoc]
          rw [← drop_eq_take_append img (off + 2 + plen + 4) flen, ← getU32_some hflen,
            ← drop_eq_take_append img (off + 2) plen, ← getU16_some hplen]
        rw [List.flatMap_cons, hsplit]
        exact (List.prefix_append_right_inj _).mpr hprefix

/-- An image with this header decodes to the well-spelled files whose encoding is its body. -/
theorem decodeImage_header_iff {m body : Octets} {count : ℕ} (hm : m = imageHeader m.length count ++ body)
    (hsize : m.length ≤ maxImageBytes) (hcount : count ≤ maxFiles) {files : Image} (hf : ∀ f ∈ files, Storable f) :
    decodeImage m = .ok files ↔ files.length = count ∧ files.Spelled ∧ files.flatMap encodeFile <+: body := by
  have hlow : 17 ≤ m.length := by
    rw [hm, List.length_append, imageHeader_length]
    omega
  have hheader : decodeHeader m = .ok ⟨0, m.length, count, 17⟩ := by
    have hdec := decodeHeader_imageHeader ⟨hlow, hsize⟩ hcount body
    rwa [← hm] at hdec
  have hparse : decodeImage m = parseFiles m 17 count [] := by
    simp only [decodeImage, hheader, Nat.lt_irrefl, if_false, List.take_length]
  have hdrop : m.drop 17 = body := by
    rw [hm]
    exact List.drop_left' rfl
  have hforward : ∀ tail, body = files.flatMap encodeFile ++ tail → files.length = count →
      parseFiles m 17 count [] =
        if ∃ f ∈ files, 0 ∈ pathToBytes f.1 then .error "bad path" else .ok (files.map stored) := by
    intro tail hbody hlen
    have henc := parseFiles_encode hf (imageHeader m.length count) tail []
    rw [← hbody, ← hm, hlen, imageHeader_length] at henc
    simpa using henc
  rw [hparse]
  constructor
  · intro h
    obtain ⟨out, hout, hlen, hspelled, hprefix⟩ := parseFiles_ok h
    obtain rfl : files = out := by simpa using hout
    rw [hdrop] at hprefix
    exact ⟨hlen, hspelled, hprefix⟩
  · rintro ⟨hlen, hspelled, tail, htail⟩
    rw [hforward tail htail.symm hlen, if_neg hspelled.stored.1, hspelled.stored.2]

/-- Whatever an image decodes to is well spelled. -/
theorem decodeImage_spelled {bs : Octets} {files : Image} (h : decodeImage bs = .ok files) : files.Spelled := by
  unfold decodeImage at h
  split at h
  · cases h
  · split_ifs at h
    obtain ⟨out, hout, -, hspelled, -⟩ := parseFiles_ok h
    obtain rfl : files = out := by simpa using hout
    exact hspelled

end HouseKernel.FileSystem
