import HouseKernel.Lib.Splice
import HouseKernel.Loader.Admission

/-! Relocations written into the bytes of an image. The patches are sorted by their offsets and the image is built
in one pass. Where two patches overlap without being at one offset, the pass copies too much; and of a target only
its first byte has to be in the file part of its segment, so that a patch can run over the end of that part. -/
namespace HouseKernel.Loader

open HouseKernel.Lib

def vaToFileOff (loads : List Segment) (va : ℕ) : Option ℤ :=
  match vaTableFileRange loads va 8 with
  | .ok (off, _) => some off
  | .error _ => none

def checkedAdd (base add : ℕ) : Load ℕ := if add > 2^64 - 1 - base then .error .overlapSize else .ok (base + add)

/-- The patches as places and words; no place is negative once they are checked. -/
def patchWords (patches : List (ℤ × ℕ)) : List (ℕ × Bytes) := patches.map fun p => (p.1.toNat, leBytes 8 p.2)

def patchBytes (bytes : Bytes) (patches : List (ℤ × ℕ)) : Load Bytes :=
  if patches.any fun p => p.1 < 0 ∨ p.1 > bytes.length - 8 then .error (.badDyn "rela outside image")
  else .ok (splice bytes 0 (ascending (patchWords patches)))

def imagePatch (base len : ℕ) : Relocation → Load (ℤ × ℕ)
  | .relativeBinding r => do
    let val ← checkedAdd base r.addend
    if r.offset < base then .error (.badDyn "rela below base")
    else if r.offset - base > len then .error (.badDyn "rela outside image")
    else return (((r.offset - base : ℕ) : ℤ), val)
  | .eagerSymbolBinding r => .error (.unsupportedReloc r.type)

def applyRelativeRelocs (base : ℕ) (relocs : List Relocation) (bytes : Bytes) : Load Bytes := do
  let patches ← mapAll (imagePatch base bytes.length) relocs
  patchBytes bytes patches

def filePatch (segs : List Segment) (base len : ℕ) : Relocation → Load (ℤ × ℕ)
  | .relativeBinding r => do
    let val ← checkedAdd base r.addend
    match vaToFileOff segs r.offset with
    | none => .error (.badDyn "rela outside LOAD")
    | some off => if off < 0 ∨ off > len - 8 then .error (.badDyn "rela outside LOAD") else return (off, val)
  | .eagerSymbolBinding r => .error (.unsupportedReloc r.type)

def applyRelocsToFile (segs : List Segment) (base : ℕ) (relocs : List Relocation) (bytes : Bytes) : Load Bytes := do
  let patches ← mapAll (filePatch segs base bytes.length) relocs
  patchBytes bytes patches

namespace Relocation

def target : Relocation → ℕ
  | .relativeBinding r => r.offset
  | .eagerSymbolBinding r => r.offset

def addend : Relocation → ℕ
  | .relativeBinding r => r.addend
  | .eagerSymbolBinding r => r.addend

def IsRelative : Relocation → Prop
  | .relativeBinding _ => True
  | .eagerSymbolBinding _ => False

instance : ∀ r : Relocation, Decidable r.IsRelative
  | .relativeBinding _ => isTrue trivial
  | .eagerSymbolBinding _ => isFalse id

end Relocation

/-- The address is in the segment. -/
def Segment.Holds (s : Segment) (va : ℕ) : Prop := s.vaddr ≤ va ∧ (va : ℤ) < s.vaddr + s.memSz

instance (s : Segment) (va : ℕ) : Decidable (s.Holds va) := inferInstanceAs (Decidable (_ ∧ _))

/-- `out` is the image with the value of each relocation written at its offset, one after the other, and each in the
file part of the segment that holds its target. -/
structure PatchedInPlace (segs : List Segment) (base : ℕ) (offset : Relocation → ℤ) (relocs : List Relocation)
    (bytes out : Bytes) : Prop where
  length : out.length = bytes.length
  written : out = overwrite bytes (patchWords (relocs.map fun r => (offset r, base + r.addend)))
  inside : ∀ r ∈ relocs, ∀ s ∈ segs, s.Holds r.target → s.fileOff ≤ offset r ∧ offset r + 8 ≤ s.fileOff + s.fileSz

/-- No two relocations are written over a part of each other. -/
def OffsetsApart (offset : Relocation → ℤ) (relocs : List Relocation) : Prop :=
  ∀ r ∈ relocs, ∀ q ∈ relocs, offset r = offset q ∨ offset r + 8 ≤ offset q ∨ offset q + 8 ≤ offset r

section Patch

variable {bytes out : Bytes} {patches : List (ℤ × ℕ)} {segs : List Segment} {base : ℕ} {offset : Relocation → ℤ}
  {relocs : List Relocation} {r : Relocation}

theorem length_leBytes (n v : ℕ) : (leBytes n v).length = n := by simp [leBytes]

theorem patchBytes_ok : patchBytes bytes patches = .ok out ↔
    (∀ p ∈ patches, 0 ≤ p.1 ∧ p.1 + 8 ≤ bytes.length) ∧ out = splice bytes 0 (ascending (patchWords patches)) := by
  unfold patchBytes
  split_ifs with hrange
  · obtain ⟨p, hp, hout⟩ := List.any_eq_true.mp hrange
    have hout := of_decide_eq_true hout
    constructor
    · intro h
      cases h
    · rintro ⟨hin, -⟩
      have hp := hin p hp
      omega
  · have hin : ∀ p ∈ patches, 0 ≤ p.1 ∧ p.1 + 8 ≤ bytes.length := by
      intro p hp
      by_contra hno
      refine hrange (List.any_eq_true.mpr ⟨p, hp, decide_eq_true ?_⟩)
      omega
    rw [Except.ok.injEq]
    exact ⟨fun h => ⟨hin, h.symm⟩, fun h => h.2.symm⟩

theorem fit_patchWords (h : ∀ p ∈ patches, 0 ≤ p.1 ∧ p.1 + 8 ≤ bytes.length) : Fit bytes 8 (patchWords patches) := by
  intro w hw
  obtain ⟨p, hp, rfl⟩ := List.mem_map.mp hw
  have hp := h p hp
  refine ⟨length_leBytes 8 p.2, ?_⟩
  dsimp only
  omega

/-- What is patched at checked offsets is written in place exactly if the offsets are apart. -/
theorem patchBytes_inPlace (hin : ∀ r ∈ relocs, 0 ≤ offset r ∧ offset r + 8 ≤ bytes.length) :
    (∃ out, patchBytes bytes (relocs.map fun r => (offset r, base + r.addend)) = .ok out ∧ out.length = bytes.length ∧
      out = overwrite bytes (patchWords (relocs.map fun r => (offset r, base + r.addend)))) ↔ OffsetsApart offset relocs := by
  have hrange : ∀ p ∈ relocs.map fun r => (offset r, base + r.addend), 0 ≤ p.1 ∧ p.1 + 8 ≤ bytes.length := by
    intro p hp
    obtain ⟨r, hr, rfl⟩ := List.mem_map.mp hp
    exact hin r hr
  have hwords : (∀ p ∈ patchWords (relocs.map fun r => (offset r, base + r.addend)),
      ∀ q ∈ patchWords (relocs.map fun r => (offset r, base + r.addend)), SameOrApart 8 p.1 q.1) ↔
          OffsetsApart offset relocs := by
    simp only [patchWords, List.forall_mem_map, SameOrApart]
    refine forall₂_congr fun r hr => forall₂_congr fun q hq => ?_
    have hr' := hin r hr
    have hq' := hin q hq
    omega
  rw [← hwords, ← splice_ascending_iff (fit_patchWords hrange)]
  constructor
  · rintro ⟨out, hout, hlen, heq⟩
    obtain ⟨-, rfl⟩ := patchBytes_ok.mp hout
    exact ⟨hlen, heq⟩
  · rintro ⟨hlen, heq⟩
    exact ⟨_, patchBytes_ok.mpr ⟨hrange, rfl⟩, hlen, heq⟩

theorem checkedAdd_ok {add val : ℕ} (hbase : base < 2^64) :
    checkedAdd base add = .ok val ↔ base + add < 2^64 ∧ val = base + add := by
  unfold checkedAdd
  split_ifs with h
  · constructor
    · intro hok
      cases hok
    · rintro ⟨hlt, -⟩
      omega
  · rw [Except.ok.injEq]
    exact ⟨fun hval => ⟨by omega, hval.symm⟩, fun hval => hval.2.symm⟩

theorem imagePatch_ok (hbase : base < 2^64) (r : Relocation) (p : ℤ × ℕ) : imagePatch base bytes.length r = .ok p ↔
    (r.IsRelative ∧ base + r.addend < 2^64 ∧ base ≤ r.target ∧ r.target - base ≤ bytes.length) ∧
      p = ((r.target : ℤ) - base, base + r.addend) := by
  cases r with
  | eagerSymbolBinding e => simp [imagePatch, Relocation.IsRelative]
  | relativeBinding e =>
    simp only [imagePatch, bind_ok, checkedAdd_ok hbase, Relocation.IsRelative, Relocation.target, Relocation.addend, true_and]
    constructor
    · rintro ⟨_, ⟨hlt, rfl⟩, hp⟩
      split_ifs at hp with hlow hhigh
      rw [pure_ok] at hp
      subst hp
      refine ⟨⟨hlt, by omega, by omega⟩, ?_⟩
      rw [Nat.cast_sub (by omega)]
    · rintro ⟨⟨hlt, hlow, hhigh⟩, rfl⟩
      refine ⟨_, ⟨hlt, rfl⟩, ?_⟩
      rw [if_neg (by omega), if_neg (by omega), pure_ok, Nat.cast_sub hlow]

theorem filePatch_ok (hbase : base < 2^64) (r : Relocation) (p : ℤ × ℕ) : filePatch segs base bytes.length r = .ok p ↔
    (r.IsRelative ∧ base + r.addend < 2^64 ∧
      ∃ off, vaToFileOff segs r.target = some off ∧ 0 ≤ off ∧ off + 8 ≤ bytes.length) ∧
      p = ((vaToFileOff segs r.target).getD 0, base + r.addend) := by
  cases r with
  | eagerSymbolBinding e => simp [filePatch, Relocation.IsRelative]
  | relativeBinding e =>
    simp only [filePatch, bind_ok, checkedAdd_ok hbase, Relocation.IsRelative, Relocation.target, Relocation.addend, true_and]
    constructor
    · rintro ⟨_, ⟨hlt, rfl⟩, hp⟩
      cases hoff : vaToFileOff segs e.offset with
      | none =>
        rw [hoff] at hp
        cases hp
      | some off =>
        simp only [hoff] at hp
        split_ifs at hp with hrange
        rw [pure_ok] at hp
        exact ⟨⟨hlt, off, rfl, by omega, by omega⟩, hp.symm⟩
    · rintro ⟨⟨hlt, off, hoff, hlow, hhigh⟩, rfl⟩
      refine ⟨_, ⟨hlt, rfl⟩, ?_⟩
      simp only [hoff]
      rw [if_neg (by omega), pure_ok]
      rfl

/-- Patching the flat image that starts at `base`. -/
theorem applyRelativeRelocs_iff (hbase : base < 2^64) :
    (∃ out, applyRelativeRelocs base relocs bytes = .ok out ∧
      PatchedInPlace segs base (fun r => r.target - base) relocs bytes out) ↔
    (∀ r ∈ relocs, r.IsRelative ∧ base + r.addend < 2^64 ∧ base ≤ r.target ∧ r.target - base + 8 ≤ bytes.length ∧
      ∀ s ∈ segs, s.Holds r.target → s.fileOff ≤ r.target - base ∧ (r.target : ℤ) - base + 8 ≤ s.fileOff + s.fileSz) ∧
      OffsetsApart (fun r => r.target - base) relocs := by
  constructor
  · rintro ⟨out, hout, hexact⟩
    obtain ⟨patches, hpatches, hpatch⟩ := bind_ok.mp hout
    obtain ⟨hgood, rfl⟩ := (mapAll_eq_map (imagePatch_ok hbase)).mp hpatches
    have hin : ∀ r ∈ relocs, 0 ≤ (r.target : ℤ) - base ∧ (r.target : ℤ) - base + 8 ≤ bytes.length := fun r hr =>
      (patchBytes_ok.mp hpatch).1 _ (List.mem_map_of_mem hr)
    refine ⟨fun r hr => ?_, (patchBytes_inPlace hin).mp ⟨out, hpatch, hexact.length, hexact.written⟩⟩
    obtain ⟨hrel, hlt, hlow, -⟩ := hgood r hr
    have hr' := hin r hr
    exact ⟨hrel, hlt, hlow, by omega, hexact.inside r hr⟩
  · rintro ⟨hgood, hapart⟩
    have hin : ∀ r ∈ relocs, 0 ≤ (r.target : ℤ) - base ∧ (r.target : ℤ) - base + 8 ≤ bytes.length := by
      intro r hr
      obtain ⟨-, -, hlow, hhigh, -⟩ := hgood r hr
      omega
    obtain ⟨out, hout, hlen, heq⟩ := (patchBytes_inPlace hin).mpr hapart
    refine ⟨out, bind_ok.mpr ⟨_, (mapAll_eq_map (imagePatch_ok hbase)).mpr ⟨fun r hr => ?_, rfl⟩, hout⟩, hlen, heq, ?_⟩
    · obtain ⟨hrel, hlt, hlow, hhigh, -⟩ := hgood r hr
      exact ⟨hrel, hlt, hlow, by omega⟩
    · exact fun r hr => (hgood r hr).2.2.2.2

end Patch

section Found

variable {raws : List RawPhdr} {isDyn : Bool} {len entry : ℕ} {segs : List Segment} {s t : Segment} {va : ℕ} {off : ℤ}

/-- Of two segments, one ends before the other starts. -/
lemma Admissible.ends_before (h : Admissible raws isDyn len entry segs) :
    segs.Pairwise fun a b => (a.vaddr : ℤ) + a.memSz ≤ b.vaddr := by
  refine (h.sorted.and h.apart).imp_of_mem fun {a b} ha hb hab => ?_
  obtain ⟨hle, hdisj⟩ := hab
  by_contra hover
  have hmema := (h.mappable a ha).mem
  have hmemb := (h.mappable b hb).mem
  have hina : b.vaddr / 4096 ∈ a.pages := by
    rw [Segment.pages, Finset.mem_Icc]
    omega
  have hinb : b.vaddr / 4096 ∈ b.pages := by
    rw [Segment.pages, Finset.mem_Icc]
    omega
  exact Finset.disjoint_left.mp hdisj hina hinb

/-- At most one segment holds an address. -/
lemma Admissible.holds_unique (h : Admissible raws isDyn len entry segs) (hs : s ∈ segs) (ht : t ∈ segs) (hsv : s.Holds va)
    (htv : t.Holds va) : s = t := by
  by_contra hne
  have hsym : segs.Pairwise fun a b => (a.vaddr : ℤ) + a.memSz ≤ b.vaddr ∨ (b.vaddr : ℤ) + b.memSz ≤ a.vaddr :=
    h.ends_before.imp .inl
  have hs' : Std.Symm fun a b : Segment => (a.vaddr : ℤ) + a.memSz ≤ b.vaddr ∨ (b.vaddr : ℤ) + b.memSz ≤ a.vaddr :=
    ⟨fun _ _ => Or.symm⟩
  have hapart := hsym.forall hs ht hne
  obtain ⟨h1, h2⟩ := hsv
  obtain ⟨h3, h4⟩ := htv
  omega

lemma Segment.Mappable.wordOfInt_fileSz (h : s.Mappable isDyn len) : (wordOfInt s.fileSz : ℤ) = s.fileSz := by
  have hfits := h.fits
  have hhigh := h.high
  refine wordOfInt_of_lt h.file.extent ?_
  omega

/-- The search finds the segment that has the address in its file part. -/
lemma findFileSegment_of_mem (hmap : ∀ s ∈ segs, s.Mappable isDyn len) (hsorted : segs.Pairwise fun a b => a.vaddr ≤ b.vaddr)
    (hends : segs.Pairwise fun a b => (a.vaddr : ℤ) + a.memSz ≤ b.vaddr) (hs : s ∈ segs) (hlow : s.vaddr ≤ va)
    (hhigh : (va : ℤ) < s.vaddr + s.fileSz) : findFileSegment 8 segs va = some (s, va - s.vaddr) := by
  induction segs with
  | nil => cases hs
  | cons t rest ih =>
    obtain ⟨ht, hrest⟩ := List.pairwise_cons.mp hsorted
    obtain ⟨hta, hends⟩ := List.pairwise_cons.mp hends
    have htmap := hmap t List.mem_cons_self
    have htsize := htmap.wordOfInt_fileSz
    rw [findFileSegment]
    obtain rfl | hs := List.mem_cons.mp hs
    · rw [if_neg (by omega), if_pos (.inl (by omega))]
    · have hle := ht s hs
      have hsep := hta s hs
      have hfits := htmap.fits
      have hout : ¬ (va - t.vaddr < wordOfInt t.fileSz ∨ (8 : ℤ) = 0 ∧ va - t.vaddr = wordOfInt t.fileSz) := by omega
      rw [if_neg (by omega), if_neg hout]
      exact ih (fun s hs => hmap s (List.mem_cons_of_mem _ hs)) hrest hends hs

lemma findFileSegment_place {delta : ℕ} (h : findFileSegment 8 segs va = some (s, delta)) :
    s ∈ segs ∧ s.vaddr ≤ va ∧ delta = va - s.vaddr ∧ delta < wordOfInt s.fileSz := by
  induction segs with
  | nil => cases h
  | cons t rest ih =>
    simp only [findFileSegment] at h
    split_ifs at h with hlow hin
    · obtain ⟨rfl, rfl⟩ := Prod.mk.inj (Option.some.inj h)
      exact ⟨List.mem_cons_self, Nat.le_of_not_lt hlow, rfl, hin.resolve_right fun h8 => by cases h8.1⟩
    · obtain ⟨hs, hrest⟩ := ih h
      exact ⟨List.mem_cons_of_mem _ hs, hrest⟩

/-- A place in the file is the place of the target in the file part of its segment. -/
lemma Admissible.vaToFileOff_eq_some (h : Admissible raws isDyn len entry segs) : vaToFileOff segs va = some off ↔
    ∃ s ∈ segs, s.vaddr ≤ va ∧ (va : ℤ) < s.vaddr + s.fileSz ∧ off = s.fileOff + (va - s.vaddr) := by
  have hsize : ¬ ((8 : ℤ) < 0 ∨ (8 : ℤ) > maxElfBytes) := by decide
  rw [vaToFileOff, vaTableFileRange, if_neg hsize]
  constructor
  · intro hoff
    cases hfind : findFileSegment 8 segs va with
    | none =>
      rw [hfind] at hoff
      cases hoff
    | some r =>
      obtain ⟨s, delta⟩ := r
      simp only [hfind, Option.some.injEq] at hoff
      obtain ⟨hs, hlow, hdelta, hlt⟩ := findFileSegment_place hfind
      have hsize := (h.mappable s hs).wordOfInt_fileSz
      have hfits := (h.mappable s hs).fits
      have hhigh := (h.mappable s hs).high
      rw [intOfWord_of_lt (by omega)] at hoff
      exact ⟨s, hs, hlow, by omega, by omega⟩
  · rintro ⟨s, hs, hlow, hin, rfl⟩
    have hfits := (h.mappable s hs).fits
    have hhigh := (h.mappable s hs).high
    rw [findFileSegment_of_mem h.mappable h.sorted h.ends_before hs hlow hin]
    simp only [Option.some.injEq]
    rw [intOfWord_of_lt (by omega)]
    omega

/-- Patching the file of an image with these segments. -/
theorem applyRelocsToFile_iff {base : ℕ} {relocs : List Relocation} {bytes : Bytes} (hbase : base < 2^64)
    (h : Admissible raws isDyn bytes.length entry segs) :
    (∃ out, applyRelocsToFile segs base relocs bytes = .ok out ∧
      PatchedInPlace segs base (fun r => (vaToFileOff segs r.target).getD 0) relocs bytes out) ↔
    (∀ r ∈ relocs, r.IsRelative ∧ base + r.addend < 2^64 ∧
      ∃ s ∈ segs, s.vaddr ≤ r.target ∧ (r.target : ℤ) + 8 ≤ s.vaddr + s.fileSz) ∧
      OffsetsApart (fun r => (vaToFileOff segs r.target).getD 0) relocs := by
  constructor
  · rintro ⟨out, hout, hexact⟩
    obtain ⟨patches, hpatches, hpatch⟩ := bind_ok.mp hout
    obtain ⟨hgood, rfl⟩ := (mapAll_eq_map (filePatch_ok hbase)).mp hpatches
    have hin := fun r hr => (patchBytes_ok.mp hpatch).1 _ (List.mem_map_of_mem (f := fun r : Relocation =>
      ((vaToFileOff segs r.target).getD 0, base + r.addend)) (a := r) hr)
    refine ⟨fun r hr => ?_, (patchBytes_inPlace hin).mp ⟨out, hpatch, hexact.length, hexact.written⟩⟩
    obtain ⟨hrel, hlt, off, hoff, -, -⟩ := hgood r hr
    obtain ⟨s, hs, hlow, hfile, rfl⟩ := h.vaToFileOff_eq_some.mp hoff
    have hfits := (h.mappable s hs).fits
    obtain ⟨-, hend⟩ := hexact.inside r hr s hs ⟨hlow, by omega⟩
    simp only [hoff, Option.getD_some] at hend
    exact ⟨hrel, hlt, s, hs, hlow, by omega⟩
  · rintro ⟨hgood, hapart⟩
    have hplace : ∀ r ∈ relocs, ∀ s ∈ segs, s.vaddr ≤ r.target → (r.target : ℤ) + 8 ≤ s.vaddr + s.fileSz →
        vaToFileOff segs r.target = some (s.fileOff + (r.target - s.vaddr)) := by
      intro r hr s hs hlow hend
      exact h.vaToFileOff_eq_some.mpr ⟨s, hs, hlow, by omega, rfl⟩
    have hin : ∀ r ∈ relocs, 0 ≤ (vaToFileOff segs r.target).getD 0 ∧ (vaToFileOff segs r.target).getD 0 + 8 ≤ bytes.length := by
      intro r hr
      obtain ⟨-, -, s, hs, hlow, hend⟩ := hgood r hr
      have hfile := (h.mappable s hs).file
      have hstart := hfile.start
      have hstop := hfile.stop
      rw [hplace r hr s hs hlow hend, Option.getD_some]
      omega
    obtain ⟨out, hout, hlen, heq⟩ := (patchBytes_inPlace hin).mpr hapart
    refine ⟨out, bind_ok.mpr ⟨_, (mapAll_eq_map (filePatch_ok hbase)).mpr ⟨fun r hr => ?_, rfl⟩, hout⟩, hlen, heq, ?_⟩
    · obtain ⟨hrel, hlt, s, hs, hlow, hend⟩ := hgood r hr
      have hr' := hin r hr
      rw [hplace r hr s hs hlow hend, Option.getD_some] at hr'
      exact ⟨hrel, hlt, _, hplace r hr s hs hlow hend, hr'⟩
    · intro r hr t ht hheld
      obtain ⟨-, -, s, hs, hlow, hend⟩ := hgood r hr
      have hfits := (h.mappable s hs).fits
      obtain rfl := h.holds_unique hs ht ⟨hlow, by omega⟩ hheld
      rw [hplace r hr s hs hlow hend, Option.getD_some]
      omega

end Found

/-- For an accepted image, both ways of patching give bytes of the same length with the values written in place and in
the file parts of the targets' segments, exactly if every relocation is relative with a value that is a word, its eight
bytes are in that file part, and no two relocations are written over a part of each other. -/
theorem patching_in_place {image : Bytes} {elf : Elf} (h : loadElf image = .ok elf) {base : ℕ} (hbase : base < 2^64)
    (relocs : List Relocation) :
    ((∃ out, applyRelativeRelocs base relocs image = .ok out ∧
        PatchedInPlace elf.segs base (fun r => r.target - base) relocs image out) ↔
      (∀ r ∈ relocs, r.IsRelative ∧ base + r.addend < 2^64 ∧ base ≤ r.target ∧ r.target - base + 8 ≤ image.length ∧
        ∀ s ∈ elf.segs, s.Holds r.target → s.fileOff ≤ r.target - base ∧ (r.target : ℤ) - base + 8 ≤ s.fileOff + s.fileSz) ∧
        OffsetsApart (fun r => r.target - base) relocs) ∧
    ((∃ out, applyRelocsToFile elf.segs base relocs image = .ok out ∧
        PatchedInPlace elf.segs base (fun r => (vaToFileOff elf.segs r.target).getD 0) relocs image out) ↔
      (∀ r ∈ relocs, r.IsRelative ∧ base + r.addend < 2^64 ∧
        ∃ s ∈ elf.segs, s.vaddr ≤ r.target ∧ (r.target : ℤ) + 8 ≤ s.vaddr + s.fileSz) ∧
        OffsetsApart (fun r => (vaToFileOff elf.segs r.target).getD 0) relocs) := by
  obtain ⟨-, -, raws, -, hlayout, -⟩ := loadElf_parts h
  exact ⟨applyRelativeRelocs_iff hbase, applyRelocsToFile_iff hbase hlayout⟩

section Sample

def relocBytes (offset addend : ℕ) : Bytes := leBytes 8 offset ++ leBytes 8 rAarch64Relative ++ leBytes 8 addend

/-- A shared object with three relative relocations: two that overlap, and one whose first bytes are the last of the file
part of the segment. -/
def patchedImage : Bytes :=
  fileHeader 3 0 2 ++ RawPhdr.bytes ⟨ptLoad, 6, 0, 0, 328, 336, 4096⟩ ++ RawPhdr.bytes ⟨ptDynamic, 4, 176, 176, 64, 64, 8⟩ ++
    leBytes 8 dtRela ++ leBytes 8 240 ++ leBytes 8 dtRelasz ++ leBytes 8 72 ++ leBytes 8 dtRelaent ++ leBytes 8 24 ++
      leBytes 16 dtNull ++
    relocBytes 312 1 ++ relocBytes 316 2 ++ relocBytes 324 3 ++ List.replicate 28 0

def patchedTable : RelocationTable :=
  ⟨.dynamicRelocations, 240, 72, 24, [.relativeBinding ⟨312, 1⟩, .relativeBinding ⟨316, 2⟩, .relativeBinding ⟨324, 3⟩]⟩

def patchedElf : Elf :=
  ⟨0, [⟨0, 0, 328, 336, 6⟩], patchedImage, true, none, { emptyDynInfo with present := true, relocations := [patchedTable] }, none⟩

lemma loadElf_patched : loadElf patchedImage = .ok patchedElf := by decide +kernel

theorem patching_in_place_patched : (0 : ℕ) < 2^64 ∧ loadElf patchedImage = .ok patchedElf ∧
    ((∃ out, applyRelativeRelocs 0 [.relativeBinding ⟨312, 1⟩] patchedImage = .ok out ∧
        PatchedInPlace patchedElf.segs 0 (fun r => r.target - (0 : ℕ)) [.relativeBinding ⟨312, 1⟩] patchedImage out) ↔
      (∀ r ∈ [Relocation.relativeBinding ⟨312, 1⟩], r.IsRelative ∧ 0 + r.addend < 2^64 ∧ 0 ≤ r.target ∧
        r.target - 0 + 8 ≤ patchedImage.length ∧ ∀ s ∈ patchedElf.segs, s.Holds r.target →
          s.fileOff ≤ r.target - (0 : ℕ) ∧ (r.target : ℤ) - (0 : ℕ) + 8 ≤ s.fileOff + s.fileSz) ∧
        OffsetsApart (fun r => r.target - (0 : ℕ)) [.relativeBinding ⟨312, 1⟩]) ∧
    ((∃ out, applyRelocsToFile patchedElf.segs 0 [.relativeBinding ⟨312, 1⟩] patchedImage = .ok out ∧
        PatchedInPlace patchedElf.segs 0 (fun r => (vaToFileOff patchedElf.segs r.target).getD 0) [.relativeBinding ⟨312, 1⟩]
          patchedImage out) ↔
      (∀ r ∈ [Relocation.relativeBinding ⟨312, 1⟩], r.IsRelative ∧ 0 + r.addend < 2^64 ∧
        ∃ s ∈ patchedElf.segs, s.vaddr ≤ r.target ∧ (r.target : ℤ) + 8 ≤ s.vaddr + s.fileSz) ∧
        OffsetsApart (fun r => (vaToFileOff patchedElf.segs r.target).getD 0) [.relativeBinding ⟨312, 1⟩]) :=
  ⟨by norm_num, loadElf_patched, patching_in_place loadElf_patched (by norm_num) [.relativeBinding ⟨312, 1⟩]⟩

/-- With relocations that the image itself asks for, the result can be longer than the image, and a value can be written
over the end of the file part of its segment. -/
theorem patching_not_in_place :
    (¬ ∀ image elf base relocs out, loadElf image = .ok elf → (∀ r ∈ relocs, ∃ t ∈ elf.dyn.relocations, r ∈ t.entries) →
      applyRelocsToFile elf.segs base relocs image = .ok out → out.length = image.length) ∧
    ¬ ∀ image elf base relocs out, loadElf image = .ok elf → (∀ r ∈ relocs, ∃ t ∈ elf.dyn.relocations, r ∈ t.entries) →
      applyRelocsToFile elf.segs base relocs image = .ok out →
      PatchedInPlace elf.segs base (fun r => (vaToFileOff elf.segs r.target).getD 0) relocs image out := by
  have htable : ∀ {rs : List Relocation}, rs ⊆ patchedTable.entries → ∀ r ∈ rs, ∃ t ∈ patchedElf.dyn.relocations, r ∈ t.entries :=
    fun hsub r hr => ⟨patchedTable, List.mem_singleton.mpr rfl, hsub hr⟩
  constructor
  · intro h
    have hlen : (applyRelocsToFile patchedElf.segs 0
        [.relativeBinding ⟨312, 1⟩, .relativeBinding ⟨316, 2⟩] patchedImage).toOption.any
        (fun out => out.length ≠ patchedImage.length) = true := by decide +kernel
    obtain ⟨out, hout, hne⟩ := (Option.any_eq_true _ _).mp hlen
    exact of_decide_eq_true hne (h _ _ 0 _ out loadElf_patched (htable (by decide)) (toOption_ok.mp hout))
  · intro h
    have hok : (applyRelocsToFile patchedElf.segs 0 [.relativeBinding ⟨324, 3⟩] patchedImage).toOption.isSome = true := by
      decide +kernel
    obtain ⟨out, hout⟩ := Option.isSome_iff_exists.mp hok
    have hall := h _ _ 0 _ out loadElf_patched (htable (by decide)) (toOption_ok.mp hout)
    exact absurd (hall.inside _ List.mem_cons_self _ List.mem_cons_self) (by decide)

end Sample

end HouseKernel.Loader
