import HouseKernel.FileSystem.ImageRoundTrip

/-! The images that are accepted. Their header declares a length, within which all of the declared files stand in
full; everything else is refused. -/
namespace HouseKernel.FileSystem

open HouseKernel.Lib

/-- The header of an image without a capability word. -/
def legacyHeader (total count : ℕ) : Octets :=
  magic ++ [versionLegacy] ++ word32LE (BitVec.ofNat 32 total) ++ word32LE (BitVec.ofNat 32 count)

inductive Declares : Octets → ImageHeader → Prop
  | legacy (total count : ℕ) : Declares (legacyHeader total count) ⟨0, total, count, 13⟩
  | current (total count : ℕ) : Declares (imageHeader total count) ⟨0, total, count, 17⟩

/-- Bytes with this header and these files, all of them within the length that it declares. -/
structure Layout (bs header : Octets) (h : ImageHeader) (files : Image) : Prop where
  declares : Declares header h
  total : h.total ≤ maxImageBytes ∧ h.total ≤ bs.length
  count : files.length = h.count ∧ h.count ≤ maxFiles
  storable : ∀ f ∈ files, Storable f
  spelled : files.Spelled
  stands : header ++ files.flatMap encodeFile <+: bs.take h.total

def WellFormed (bs : Octets) (files : Image) : Prop := ∃ header h, Layout bs header h files

lemma Declares.length {header : Octets} {h : ImageHeader} (hd : Declares header h) : header.length = h.hdrLen := by
  cases hd with
  | legacy total count => rfl
  | current total count => rfl

lemma getU32_lt {off n : ℕ} {bs : Octets} (h : getU32 off bs = some n) : n < 2 ^ 32 := by
  simp only [getU32, Option.bind_eq_bind, Option.bind_eq_some_iff, Option.pure_def, Option.some.injEq] at h
  obtain ⟨b0, -, b1, -, b2, -, b3, -, rfl⟩ := h
  have hb0 := b0.isLt
  have hb1 := b1.isLt
  have hb2 := b2.isLt
  have hb3 := b3.isLt
  simp only [Nat.shiftLeft_eq]
  omega

lemma checkHeader_eq_ok {h h' : ImageHeader} : checkHeader h = .ok h' ↔
    h = h' ∧ h.hdrLen ≤ h.total ∧ h.total ≤ maxImageBytes ∧ h.count ≤ maxFiles := by
  constructor
  · intro hok
    unfold checkHeader at hok
    split_ifs at hok with htotal hcount
    exact ⟨Except.ok.inj hok, by omega⟩
  · rintro ⟨rfl, hlow, hhigh, hcount⟩
    exact checkHeader_ok hlow hhigh hcount

/-- The magic and the version stand before the words. -/
lemma version_split {bs : Octets} {v : BitVec 8} (hmagic : bs.take 4 = magic) (hv : bs[4]? = some v) :
    bs = magic ++ [v] ++ bs.drop 5 := by
  obtain ⟨hlt, rfl⟩ := List.getElem?_eq_some_iff.mp hv
  rw [List.append_assoc, List.singleton_append, ← List.drop_eq_getElem_cons hlt, ← hmagic, List.take_append_drop]

lemma headerV1_ok {bs : Octets} {h : ImageHeader} (hmagic : bs.take 4 = magic) (hv : bs[4]? = some versionLegacy)
    (hok : headerV1 bs = .ok h) : (∃ header, Declares header h ∧ header <+: bs) ∧
      h.hdrLen ≤ h.total ∧ h.total ≤ maxImageBytes ∧ h.count ≤ maxFiles := by
  unfold headerV1 at hok
  split at hok
  · rename_i total count htotal hcount
    obtain ⟨rfl, hbounds⟩ := checkHeader_eq_ok.mp hok
    refine ⟨⟨legacyHeader total count, .legacy total count, bs.drop 13, ?_⟩, hbounds⟩
    rw [legacyHeader, List.append_assoc, ← getU32_some hcount, List.append_assoc, ← getU32_some htotal]
    exact (version_split hmagic hv).symm
  · cases hok

lemma headerV2_ok {bs : Octets} {h : ImageHeader} (hmagic : bs.take 4 = magic) (hv : bs[4]? = some versionCurrent)
    (hok : headerV2 bs = .ok h) : (∃ header, Declares header h ∧ header <+: bs) ∧
      h.hdrLen ≤ h.total ∧ h.total ≤ maxImageBytes ∧ h.count ≤ maxFiles := by
  unfold headerV2 at hok
  split_ifs at hok
  split at hok
  · rename_i caps total count hcaps htotal hcount
    split_ifs at hok with hbad
    obtain ⟨rfl, hbounds⟩ := checkHeader_eq_ok.mp hok
    -- no capability bit is allowed: the word is zero
    obtain rfl : caps = 0 := by
      have hlt := getU32_lt hcaps
      have hall : ~~~allowedCaps = BitVec.allOnes 64 := rfl
      rw [not_not, hall, BitVec.and_allOnes] at hbad
      have hnat : caps % 2 ^ 64 = 0 := congrArg BitVec.toNat hbad
      omega
    refine ⟨⟨imageHeader total count, .current total count, bs.drop 17, ?_⟩, hbounds⟩
    rw [imageHeader, List.append_assoc, ← getU32_some hcount, List.append_assoc, ← getU32_some htotal,
      List.append_assoc]
    have hword : word32LE (allowedCaps.setWidth 32) ++ bs.drop 9 = bs.drop 5 := (getU32_some hcaps).symm
    rw [hword]
    exact (version_split hmagic hv).symm
  · cases hok

lemma decodeHeader_legacyHeader {total count : ℕ} (htotal : 13 ≤ total ∧ total ≤ maxImageBytes)
    (hcount : count ≤ maxFiles) (rest : Octets) :
    decodeHeader (legacyHeader total count ++ rest) = .ok ⟨0, total, count, 13⟩ := by
  obtain ⟨hlow, hhigh⟩ := htotal
  have htot : getU32 5 (legacyHeader total count ++ rest) = some (BitVec.ofNat 32 total).toNat := by
    have hsplit : legacyHeader total count ++ rest =
        (magic ++ [versionLegacy]) ++ (word32LE (BitVec.ofNat 32 total) ++ (word32LE (BitVec.ofNat 32 count) ++ rest)) := by
      simp [legacyHeader]
    rw [hsplit]
    exact (getU32_append _ _ 0).trans (getU32_word32LE _ _)
  have hcnt : getU32 9 (legacyHeader total count ++ rest) = some (BitVec.ofNat 32 count).toNat := by
    have hsplit : legacyHeader total count ++ rest =
        (magic ++ [versionLegacy] ++ word32LE (BitVec.ofNat 32 total)) ++ (word32LE (BitVec.ofNat 32 count) ++ rest) := by
      simp [legacyHeader]
    rw [hsplit]
    exact (getU32_append _ _ 0).trans (getU32_word32LE _ _)
  have hlen : (legacyHeader total count ++ rest).length = 13 + rest.length := by
    rw [List.length_append]
    rfl
  have htake : (legacyHeader total count ++ rest).take 4 = magic := rfl
  have hver : (legacyHeader total count ++ rest)[4]? = some versionLegacy := rfl
  have htotal : total < 2^32 := lt_of_le_of_lt hhigh (by decide)
  have hfiles : count < 2^32 := lt_of_le_of_lt hcount (by decide)
  rw [BitVec.toNat_ofNat, Nat.mod_eq_of_lt htotal] at htot
  rw [BitVec.toNat_ofNat, Nat.mod_eq_of_lt hfiles] at hcnt
  simp only [decodeHeader, hlen, htake, hver, headerV1, htot, hcnt]
  rw [if_neg (by omega), if_neg (by simp), if_pos trivial]
  exact checkHeader_ok hlow hhigh hcount

/-- A header is accepted if it is one of the two and its numbers are in bounds. -/
theorem decodeHeader_iff {bs : Octets} {h : ImageHeader} : decodeHeader bs = .ok h ↔
    (∃ header, Declares header h ∧ header <+: bs) ∧
      h.hdrLen ≤ h.total ∧ h.total ≤ maxImageBytes ∧ h.count ≤ maxFiles := by
  constructor
  · intro hok
    unfold decodeHeader at hok
    split_ifs at hok with hlen hmagic hv1 hv2
    · exact headerV1_ok (not_not.mp hmagic) hv1 hok
    · exact headerV2_ok (not_not.mp hmagic) hv2 hok
  · rintro ⟨⟨header, hd, rest, rfl⟩, hlow, hhigh, hcount⟩
    cases hd with
    | legacy total count => exact decodeHeader_legacyHeader ⟨hlow, hhigh⟩ hcount rest
    | current total count => exact decodeHeader_imageHeader ⟨hlow, hhigh⟩ hcount rest

/-- Every file that is read off passes the checks of the encoder. -/
lemma parseFiles_storable {img : Octets} {off n : ℕ} {acc out : Image} (h : parseFiles img off n acc = .ok out)
    (hacc : ∀ f ∈ acc, Storable f) : ∀ f ∈ out, Storable f := by
  induction n generalizing off acc with
  | zero =>
    obtain rfl : acc.reverse = out := Except.ok.inj h
    exact fun f hf => hacc f (List.mem_reverse.mp hf)
  | succ n ih =>
    unfold parseFiles at h
    split at h
    · cases h
    · rename_i plen hplen
      dsimp only at h
      split_ifs at h with hlen hroom hpath
      split at h
      · cases h
      · rename_i flen hflen
        split_ifs at h with hbig hshort
        refine ih h fun f hf => ?_
        obtain rfl | hf := List.mem_cons.mp hf
        · constructor
          · obtain ⟨hnil, hhead, -⟩ := by simpa only [not_or, not_not] using hpath
            simp only [badPath, decide_eq_false_iff_not, not_or, not_not]
            refine ⟨hnil, ?_, hhead⟩
            simp only [bytesToPath, List.length_map, List.length_take]
            omega
          · simp only [List.length_take]
            omega
        · exact hacc f hf

/-- The decoder accepts the bytes of an image of these files, and no other ones. -/
theorem decodeImage_iff {bs : Octets} {files : Image} : decodeImage bs = .ok files ↔ WellFormed bs files := by
  constructor
  · intro hok
    unfold decodeImage at hok
    split at hok
    · cases hok
    · rename_i h hheader
      split_ifs at hok with hshort
      obtain ⟨⟨header, hd, rest, rfl⟩, hlow, hhigh, hcount⟩ := decodeHeader_iff.mp hheader
      obtain ⟨out, hout, hlen, hspelled, hparsed⟩ := parseFiles_ok hok
      obtain rfl : files = out := by simpa using hout
      refine ⟨header, h, hd, ⟨hhigh, Nat.not_lt.mp hshort⟩, ⟨hlen, hcount⟩,
        parseFiles_storable hok fun f hf => absurd hf List.not_mem_nil, hspelled, ?_⟩
      have hprefix : header <+: (header ++ rest).take h.total :=
        List.prefix_take_iff.mpr ⟨List.prefix_append _ _, hd.length ▸ hlow⟩
      obtain ⟨body, hbody⟩ := hprefix
      rw [← hbody, ← hd.length, List.drop_left] at hparsed
      rw [← hbody]
      exact (List.prefix_append_right_inj _).mpr hparsed
  · rintro ⟨header, h, hl⟩
    obtain ⟨tail, htail⟩ := hl.stands
    have hlow : h.hdrLen ≤ h.total := by
      have hle := congrArg List.length htail
      simp only [List.length_append, hl.declares.length, List.length_take] at hle
      omega
    have hprefix : header <+: bs := (List.prefix_append _ _).trans (hl.stands.trans (List.take_prefix _ _))
    have hheader : decodeHeader bs = .ok h :=
      decodeHeader_iff.mpr ⟨⟨header, hl.declares, hprefix⟩, hlow, hl.total.1, hl.count.2⟩
    have hparse := parseFiles_encode hl.storable header tail []
    rw [← List.append_assoc, htail, hl.declares.length, hl.count.1, if_neg hl.spelled.stored.1, hl.spelled.stored.2] at hparse
    rw [decodeImage, hheader]
    dsimp only
    rw [if_neg (Nat.not_lt.mpr hl.total.2), hparse]
    rfl

end HouseKernel.FileSystem
