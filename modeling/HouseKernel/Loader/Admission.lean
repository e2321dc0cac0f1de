import HouseKernel.Loader.Dynamic

/-! An accepted image can be mapped: its segments are apart and inside the address window, and its
tables are inside the file. -/
namespace HouseKernel.Loader

open HouseKernel.Lib

/-- The range lies inside a file of `len` bytes. -/
structure InFile (len : ℕ) (off size : ℤ) : Prop where
  start : 0 ≤ off
  extent : 0 ≤ size
  stop : off + size ≤ len

/-- The pages that the segment covers. -/
def Segment.pages (s : Segment) : Finset ℕ := Finset.Icc (s.vaddr / 4096) ((s.vaddr + s.memSz.toNat - 1) / 4096)

structure Segment.Mappable (isDyn : Bool) (len : ℕ) (s : Segment) : Prop where
  mem : 0 < s.memSz
  fits : s.fileSz ≤ s.memSz
  file : InFile len s.fileOff s.fileSz
  low : isDyn = false → minExecVAddr ≤ s.vaddr
  high : s.vaddr + s.memSz ≤ 2^32
  stack : stackPageStart / 4096 ∉ s.pages

/-- The segment is a `PT_LOAD` header with every field at its own value. -/
def Segment.Describes (r : RawPhdr) (s : Segment) : Prop :=
  r.type = ptLoad ∧ s.vaddr = r.vaddr ∧ s.fileOff = r.off ∧ s.fileSz = r.filesz ∧ s.memSz = r.memsz

/-- The tables of a dynamic section are inside the file. -/
structure DynInfo.Located (len : ℕ) (d : DynInfo) : Prop where
  strings : InFile len d.strOff d.strSz
  hash : ∀ h, d.hashStyle = .sysVHash h → h.size = 8 + 4*(h.buckets + h.symbols) ∧ InFile len h.offset h.size
  symbols : ∀ t, d.symbols = some t → InFile len t.offset (t.entSize * t.entries.length)
  relocations : ∀ t ∈ d.relocations, t.entSize * t.entries.length ≤ t.size ∧ InFile len t.offset t.size

/-- Segments that the headers `raws` describe, in the order of their addresses and on pages of their own. -/
structure Admissible (raws : List RawPhdr) (isDyn : Bool) (len entry : ℕ) (segs : List Segment) : Prop where
  mappable : ∀ s ∈ segs, s.Mappable isDyn len
  headers : ∀ s ∈ segs, ∃ r ∈ raws, s.Describes r
  sorted : segs.Pairwise fun a b => a.vaddr ≤ b.vaddr
  apart : segs.Pairwise fun a b => Disjoint a.pages b.pages
  count : segs.length ≤ maxSegments
  total : (segs.map fun s => s.pages.card).sum ≤ maxTotalPages
  entry : ∃ s ∈ segs, s.vaddr ≤ entry ∧ (entry : ℤ) < s.vaddr + s.memSz

/-- What `loadElf` promises of an image with the program headers `raws`. -/
structure Elf.Mappable (raws : List RawPhdr) (elf : Elf) : Prop where
  segments : Admissible raws elf.isDyn elf.bytes.length elf.entry elf.segs
  dynamic : elf.dyn.present = true → ∃ r ∈ raws, r.type = ptDynamic ∧ InFile elf.bytes.length r.off r.filesz
  tables : elf.dyn.Located elf.bytes.length

/-- The program headers that the header of the file announces. -/
def programHeaders (bytes : Bytes) : Load (List RawPhdr) := do
  let h ← parseHeader bytes
  collectRawPhdrs bytes h.phoff h.phnum h.phentsz

section Words

variable {bs : Bytes} {off : ℤ} {n : ℕ}

lemma getU16_lt (h : getU16 bs off = .ok n) : n < 2^16 := by
  obtain ⟨b0, -, h⟩ := bind_ok.mp h
  obtain ⟨b1, -, h⟩ := bind_ok.mp h
  obtain rfl := pure_ok.mp h
  apply Nat.or_lt_two_pow
  · have := b0.isLt
    omega
  · rw [Nat.shiftLeft_eq]
    have := b1.isLt
    omega

lemma getU32_lt (h : getU32 bs off = .ok n) : n < 2^32 := by
  obtain ⟨b0, h0, h⟩ := bind_ok.mp h
  obtain ⟨b1, h1, h⟩ := bind_ok.mp h
  obtain rfl := pure_ok.mp h
  apply Nat.or_lt_two_pow
  · have := getU16_lt h0
    omega
  · rw [Nat.shiftLeft_eq]
    have := getU16_lt h1
    omega

lemma getWord64LE_lt (h : getWord64LE bs off = .ok n) : n < 2^64 := by
  obtain ⟨low, h0, h⟩ := bind_ok.mp h
  obtain ⟨high, h1, h⟩ := bind_ok.mp h
  obtain rfl := pure_ok.mp h
  apply Nat.or_lt_two_pow
  · have := getU32_lt h0
    omega
  · rw [Nat.shiftLeft_eq]
    have := getU32_lt h1
    omega

/-- A word is its own value as an `Int` when that is not negative. -/
lemma intOfWord_of_nonneg (hn : n < 2^64) (h : 0 ≤ intOfWord n) : intOfWord n = n := by
  unfold intOfWord at h ⊢
  split_ifs at h ⊢ with hlt
  · rfl
  · omega

lemma intOfWord_of_lt (hn : n < 2^63) : intOfWord n = n := if_pos hn

lemma wordOfInt_of_lt {z : ℤ} (h0 : 0 ≤ z) (h : z < 2^64) : (wordOfInt z : ℤ) = z := by
  unfold wordOfInt
  rw [Int.toNat_of_nonneg (Int.emod_nonneg z (by norm_num)), Int.emod_eq_of_lt h0 h]

end Words

section Segments

variable {bs : Bytes} {off : ℤ} {s : Segment}

/-- What the parser knows of a segment before it is placed. -/
structure Segment.Read (r : RawPhdr) (s : Segment) : Prop where
  type : r.type = ptLoad
  vaddr : s.vaddr = r.vaddr
  word : r.off < 2^64
  fileOff : s.fileOff = intOfWord r.off
  fileSz : s.fileSz = r.filesz
  memSz : s.memSz = r.memsz
  fits : r.filesz ≤ r.memsz
  bound : r.memsz ≤ maxSegMemSz

lemma parseOneRaw_lt {r : RawPhdr} (h : parseOneRaw bs off = .ok r) : r.off < 2^64 ∧ r.filesz < 2^64 := by
  simp only [parseOneRaw, bind_ok, pure_ok] at h
  obtain ⟨_, -, _, -, pOff, hOff, _, -, _, -, pFilesz, hFilesz, _, -, _, -, rfl⟩ := h
  exact ⟨getWord64LE_lt hOff, getWord64LE_lt hFilesz⟩

/-- A header other than `PT_LOAD` gives a segment without a size. -/
lemma parseOneSegment_ok (h : parseOneSegment bs off = .ok s) :
    ∃ r, parseOneRaw bs off = .ok r ∧ (s.Read r ∨ s.memSz = 0 ∧ s.fileSz = 0) := by
  obtain ⟨r, hr, h⟩ := bind_ok.mp h
  refine ⟨r, hr, ?_⟩
  split_ifs at h with htls hload
  · obtain rfl := pure_ok.mp h
    exact .inr ⟨rfl, rfl⟩
  · simp only [bind_ok, check_ok, pure_ok, exists_const] at h
    obtain ⟨hcap, hfits, -, -, rfl⟩ := h
    obtain ⟨hf, hm⟩ := not_or.mp hcap
    have hb : maxSegMemSz < 2^63 := by decide
    refine .inl ⟨not_not.mp hload, rfl, (parseOneRaw_lt hr).1, rfl, ?_, ?_, hfits, not_lt.mp hm⟩
    · exact intOfWord_of_lt (by omega)
    · exact intOfWord_of_lt (by omega)

lemma parseSegments_ok {phoff phnum phentsz : ℕ} {segs : List Segment} {raws : List RawPhdr}
    (h : parseSegments bs phoff phnum phentsz = .ok segs) (hr : collectRawPhdrs bs phoff phnum phentsz = .ok raws)
    (hs : s ∈ segs) : (∃ r ∈ raws, s.Read r) ∨ s.memSz = 0 ∧ s.fileSz = 0 := by
  obtain ⟨i, hi, hseg⟩ := forall₂_right (mapAll_ok.mp h) hs
  obtain ⟨r, hraw, hread | hzero⟩ := parseOneSegment_ok hseg
  · refine .inl ⟨r, ?_, hread⟩
    obtain ⟨r', hmem, hr'⟩ := forall₂_left (mapAll_ok.mp hr) hi
    rw [hraw] at hr'
    obtain rfl := Except.ok.inj hr'
    exact hmem
  · exact .inr hzero

/-- The end of a read segment does not wrap when it starts inside the window. -/
lemma vaEnd_of_read {r : RawPhdr} (h : s.Read r) (hv : s.vaddr ≤ maxVAddr) : (vaEnd s : ℤ) = s.vaddr + s.memSz := by
  have hcap := h.bound
  have hmem := h.memSz
  have hw : (wordOfInt s.memSz : ℤ) = s.memSz := by
    apply wordOfInt_of_lt
    · omega
    · unfold maxSegMemSz at hcap
      omega
  unfold vaEnd
  unfold maxVAddr at hv
  unfold maxSegMemSz at hcap
  rw [Nat.mod_eq_of_lt]
  · omega
  · omega

/-- A placed segment: read from a header, with a size, and starting inside the window. -/
structure Segment.Placed (r : RawPhdr) (s : Segment) : Prop where
  read : s.Read r
  mem : 0 < s.memSz
  window : s.vaddr ≤ maxVAddr

lemma Segment.Placed.pageBounds {r : RawPhdr} (h : s.Placed r) :
    pageBounds s = (s.vaddr / 4096, (s.vaddr + s.memSz.toNat - 1) / 4096) := by
  have hend := vaEnd_of_read h.read h.window
  have hcap := h.read.bound
  have hmem := h.read.memSz
  have hpos := h.mem
  have hwin := h.window
  have hlast : (vaEnd s + (2^64 - 1)) % 2^64 = s.vaddr + s.memSz.toNat - 1 := by
    unfold maxVAddr at hwin
    unfold maxSegMemSz at hcap
    omega
  unfold Loader.pageBounds
  rw [hlast]

lemma Segment.Placed.first_le_last {r : RawPhdr} (h : s.Placed r) : (Loader.pageBounds s).1 ≤ (Loader.pageBounds s).2 := by
  have hpos := h.mem
  rw [h.pageBounds]
  apply Nat.div_le_div_right
  omega

lemma Segment.Placed.mem_pages {r : RawPhdr} (h : s.Placed r) {p : ℕ} :
    p ∈ s.pages ↔ (Loader.pageBounds s).1 ≤ p ∧ p ≤ (Loader.pageBounds s).2 := by
  rw [h.pageBounds]
  exact Finset.mem_Icc

lemma Segment.Placed.pages_card {r : RawPhdr} (h : s.Placed r) :
    ((Loader.pageBounds s).2 + 2^64 - (Loader.pageBounds s).1 + 1) % 2^64 = s.pages.card ∧ s.pages.card ≤ 2^21 := by
  have hle := h.first_le_last
  have hcap := h.read.bound
  have hmem := h.read.memSz
  have hwin := h.window
  have hcard : s.pages.card = (Loader.pageBounds s).2 + 1 - (Loader.pageBounds s).1 := by
    rw [h.pageBounds]
    exact Nat.card_Icc _ _
  have hlast : (Loader.pageBounds s).2 < 2^21 := by
    rw [h.pageBounds]
    unfold maxVAddr at hwin
    unfold maxSegMemSz at hcap
    change (s.vaddr + s.memSz.toNat - 1) / 4096 < 2^21
    omega
  constructor
  · omega
  · omega

/-- Neither of two segments starts after the other ends, so a page of both would fail the check. -/
lemma checkPair_ok {a b : Segment} {ra rb : RawPhdr} (ha : a.Placed ra) (hb : b.Placed rb) (h : checkPair a b = .ok ()) :
    Disjoint a.pages b.pages := by
  have hno := check_ok.mp h
  rw [Finset.disjoint_left]
  intro p hpa hpb
  obtain ⟨h1, h2⟩ := ha.mem_pages.mp hpa
  obtain ⟨h3, h4⟩ := hb.mem_pages.mp hpb
  exact hno ⟨h1.trans h4, h3.trans h2⟩

lemma checkPageOverlap_ok {loads : List Segment} (hp : ∀ s ∈ loads, ∃ r, s.Placed r) (h : checkPageOverlap loads = .ok ()) :
    loads.Pairwise fun a b => Disjoint a.pages b.pages := by
  induction loads with
  | nil => exact List.Pairwise.nil
  | cons a rest ih =>
    obtain ⟨u, hfirst, hrest⟩ := bind_ok.mp h
    refine List.pairwise_cons.mpr ⟨?_, ?_⟩
    · intro b hb
      obtain ⟨ra, hra⟩ := hp a List.mem_cons_self
      obtain ⟨rb, hrb⟩ := hp b (List.mem_cons_of_mem a hb)
      exact checkPair_ok hra hrb (forAll_ok.mp hfirst b hb)
    · apply ih _ hrest
      intro s hs
      exact hp s (List.mem_cons_of_mem a hs)

/-- The count of the pages does not wrap. -/
lemma pageCount_eq {loads : List Segment} (hp : ∀ s ∈ loads, ∃ r, s.Placed r) (hlen : loads.length ≤ maxSegments) :
    pageCount loads = (loads.map fun s => s.pages.card).sum := by
  unfold pageCount
  rw [List.map_congr_left (g := fun s => s.pages.card)]
  · apply Nat.mod_eq_of_lt
    have hsum : (loads.map fun s => s.pages.card).sum ≤ loads.length * 2^21 := by
      have hcard : ∀ n ∈ loads.map fun s => s.pages.card, n ≤ 2^21 := by
        intro n hn
        obtain ⟨s, hs, rfl⟩ := List.mem_map.mp hn
        obtain ⟨r, hr⟩ := hp s hs
        exact hr.pages_card.2
      simpa using List.sum_le_card_nsmul _ _ hcard
    unfold maxSegments at hlen
    omega
  · intro s hs
    obtain ⟨r, hr⟩ := hp s hs
    exact hr.pages_card.1

lemma checkVaddr_ok {isDyn : Bool} {v : ℕ} (h : checkVaddr isDyn v = .ok ()) :
    v ≤ maxVAddr ∧ (isDyn = false → minExecVAddr ≤ v) := by
  unfold checkVaddr at h
  split_ifs at h with hd
  · exact ⟨check_ok.mp h, fun hf => absurd (hf.symm.trans hd) (by decide)⟩
  · obtain ⟨h1, h2⟩ := not_or.mp (check_ok.mp h)
    exact ⟨not_lt.mp h2, fun _ => not_lt.mp h1⟩

lemma checkStack_ok {r : RawPhdr} (hp : s.Placed r) (h : checkStack s = .ok ()) : stackPageStart / 4096 ∉ s.pages := by
  intro hmem
  exact check_ok.mp h (hp.mem_pages.mp hmem)

lemma checkSeg_ok {isDyn : Bool} {len : ℕ} {r : RawPhdr} (hr : s.Read r) (h : checkSeg isDyn len s = .ok ()) :
    s.vaddr ≤ maxVAddr ∧ (isDyn = false → minExecVAddr ≤ s.vaddr) ∧ s.vaddr + s.memSz ≤ 2^32 ∧
      InFile len s.fileOff s.fileSz := by
  simp only [checkSeg, bind_ok, check_ok, exists_const] at h
  obtain ⟨⟨⟩, hv, -, hend, hfile⟩ := h
  obtain ⟨hwin, hlow⟩ := checkVaddr_ok hv
  have hva := vaEnd_of_read hr hwin
  refine ⟨hwin, hlow, ?_, ?_, ?_, ?_⟩
  · unfold maxVAddr at hend
    omega
  · omega
  · omega
  · omega

instance : Std.Total fun a b : Segment => a.vaddr ≤ b.vaddr := ⟨fun a b => le_total a.vaddr b.vaddr⟩

instance : IsTrans Segment fun a b => a.vaddr ≤ b.vaddr := ⟨fun _ _ _ => le_trans⟩

lemma mem_sizeBearing {segs : List Segment} : s ∈ sizeBearing segs ↔ s ∈ segs ∧ (s.memSz > 0 ∨ s.fileSz > 0) := by
  unfold sizeBearing
  rw [List.mem_insertionSort, List.mem_filter, decide_eq_true_iff]

lemma sizeBearing_sorted (segs : List Segment) : (sizeBearing segs).Pairwise fun a b => a.vaddr ≤ b.vaddr :=
  List.pairwise_insertionSort _ _

lemma read_of_sizeBearing {segs : List Segment} {raws : List RawPhdr}
    (hread : ∀ s ∈ segs, (∃ r ∈ raws, s.Read r) ∨ s.memSz = 0 ∧ s.fileSz = 0) (hs : s ∈ sizeBearing segs) :
    0 < s.memSz ∧ ∃ r ∈ raws, s.Read r := by
  obtain ⟨hmem, hsize⟩ := mem_sizeBearing.mp hs
  obtain ⟨r, hr, h⟩ | ⟨h1, h2⟩ := hread s hmem
  · refine ⟨?_, r, hr, h⟩
    have hm := h.memSz
    have hf := h.fileSz
    have hfits := h.fits
    omega
  · omega

lemma validateSegments_ok {bytes : Bytes} {segs loads : List Segment} {raws : List RawPhdr} {entry : ℕ} {isDyn : Bool}
    (hread : ∀ s ∈ segs, (∃ r ∈ raws, s.Read r) ∨ s.memSz = 0 ∧ s.fileSz = 0)
    (h : validateSegments segs bytes entry isDyn = .ok loads) : Admissible raws isDyn bytes.length entry loads := by
  simp only [validateSegments, bind_ok, check_ok, pure_ok, exists_const] at h
  obtain ⟨⟨⟩, -, -, hlen, ⟨⟩, hseg, ⟨⟩, hover, ⟨⟩, hstack, hpages, hentry, rfl⟩ := h
  have hloads : ∀ s ∈ sizeBearing segs, ∃ r ∈ raws, s.Placed r ∧ InFile bytes.length s.fileOff s.fileSz := by
    intro s hs
    obtain ⟨hpos, r, hr, hrd⟩ := read_of_sizeBearing hread hs
    obtain ⟨hwin, -, -, hfile⟩ := checkSeg_ok hrd (forAll_ok.mp hseg s hs)
    exact ⟨r, hr, ⟨hrd, hpos, hwin⟩, hfile⟩
  have hplaced : ∀ s ∈ sizeBearing segs, ∃ r, s.Placed r := by
    intro s hs
    obtain ⟨r, -, hp, -⟩ := hloads s hs
    exact ⟨r, hp⟩
  refine ⟨?_, ?_, sizeBearing_sorted segs, checkPageOverlap_ok hplaced hover, hlen, ?_, ?_⟩
  · intro s hs
    obtain ⟨r, hr, hp, hfile⟩ := hloads s hs
    obtain ⟨-, hlow, hhigh, -⟩ := checkSeg_ok hp.read (forAll_ok.mp hseg s hs)
    refine ⟨hp.mem, ?_, hfile, hlow, hhigh, checkStack_ok hp (forAll_ok.mp hstack s hs)⟩
    rw [hp.read.fileSz, hp.read.memSz]
    exact_mod_cast hp.read.fits
  · intro s hs
    obtain ⟨r, hr, hp, hfile⟩ := hloads s hs
    have hoff : s.fileOff = r.off := by
      rw [hp.read.fileOff]
      apply intOfWord_of_nonneg hp.read.word
      rw [← hp.read.fileOff]
      exact hfile.start
    exact ⟨r, hr, hp.read.type, hp.read.vaddr, hoff, hp.read.fileSz, hp.read.memSz⟩
  · rw [← pageCount_eq hplaced hlen]
    exact hpages
  · obtain ⟨s, hs, hin⟩ := List.any_eq_true.mp hentry
    obtain ⟨r, hp⟩ := hplaced s hs
    have hend := vaEnd_of_read hp.read hp.window
    obtain ⟨-, h1, h2⟩ := of_decide_eq_true hin
    refine ⟨s, hs, h1, ?_⟩
    omega

end Segments

section Tables

variable {loads : List Segment} {len : ℕ}

lemma findFileSegment_some {size : ℤ} {va delta : ℕ} {s : Segment} (h : findFileSegment size loads va = some (s, delta)) :
    s ∈ loads ∧ delta ≤ wordOfInt s.fileSz := by
  induction loads with
  | nil => cases h
  | cons t rest ih =>
    simp only [findFileSegment] at h
    split_ifs at h with hlow hin
    · obtain ⟨rfl, rfl⟩ := Prod.mk.inj (Option.some.inj h)
      refine ⟨List.mem_cons_self, ?_⟩
      omega
    · obtain ⟨hs, hd⟩ := ih h
      exact ⟨List.mem_cons_of_mem t hs, hd⟩

/-- A table found by its address is inside the file, because the file part of its segment is. -/
lemma vaTableOff_ok (hfile : ∀ s ∈ loads, InFile len s.fileOff s.fileSz) (hlen : len ≤ maxElfBytes) {va : ℕ} {size : ℤ}
    {table : ℤ × ℤ} (h : vaTableOff loads va size = .ok table) : table.2 = size ∧ InFile len table.1 size := by
  obtain ⟨⟨off, available⟩, hrange, h⟩ := bind_ok.mp h
  obtain ⟨u, hroom, h⟩ := bind_ok.mp h
  obtain rfl := pure_ok.mp h
  have hroom := check_ok.mp hroom
  unfold vaTableFileRange at hrange
  split_ifs at hrange with hsize
  split at hrange
  · cases hrange
  case h_2 s delta hfind =>
    obtain ⟨hs, hdelta⟩ := findFileSegment_some hfind
    obtain ⟨hoff, hext, hstop⟩ := hfile s hs
    obtain ⟨rfl, rfl⟩ := Prod.mk.inj (Except.ok.inj hrange)
    unfold maxElfBytes at hlen
    have hw : (wordOfInt s.fileSz : ℤ) = s.fileSz := by
      apply wordOfInt_of_lt hext
      omega
    have hd : intOfWord delta = delta := by
      apply intOfWord_of_lt
      omega
    rw [hd] at hroom ⊢
    refine ⟨rfl, ?_, ?_, ?_⟩
    · change 0 ≤ s.fileOff + (delta : ℤ)
      omega
    · omega
    · change s.fileOff + (delta : ℤ) + size ≤ len
      omega

variable {bytes : Bytes}

/-- Without a string table the size is zero. -/
lemma stringOffset_ok (hfile : ∀ s ∈ loads, InFile len s.fileOff s.fileSz) (hlen : len ≤ maxElfBytes) {acc : DynAcc}
    {strOff strSz : ℤ} (h : stringOffset acc strSz loads len = .ok strOff) : InFile len strOff strSz := by
  unfold stringOffset at h
  split at h
  · split_ifs at h with hneed
    obtain rfl := Except.ok.inj h
    have hzero : strSz = 0 := by
      by_contra hne
      exact hneed (.inr (.inr (.inr (.inr hne))))
    subst hzero
    exact ⟨le_rfl, le_rfl, by simp⟩
  · obtain ⟨table, htable, h⟩ := bind_ok.mp h
    obtain ⟨u, -, h⟩ := bind_ok.mp h
    obtain rfl := pure_ok.mp h
    exact (vaTableOff_ok hfile hlen htable).2

lemma parseSysvHash_ok (hfile : ∀ s ∈ loads, InFile len s.fileOff s.fileSz) (hlen : len ≤ maxElfBytes) {va : ℕ}
    {hash : SysvHash} (h : parseSysvHash bytes va loads = .ok hash) :
    hash.size = 8 + 4*(hash.buckets + hash.symbols) ∧ InFile len hash.offset hash.size := by
  simp only [parseSysvHash, bind_ok, check_ok, pure_ok, exists_const] at h
  obtain ⟨head, -, buckets, -, symbols, -, -, -, -, table, htable, hsize, -, -, -, -, rfl⟩ := h
  obtain ⟨-, hin⟩ := vaTableOff_ok hfile hlen htable
  rw [← hsize] at hin
  exact ⟨hsize, hin⟩

lemma parseDynamicSymbols_ok (hfile : ∀ s ∈ loads, InFile len s.fileOff s.fileSz) (hlen : len ≤ maxElfBytes)
    {va count : ℕ} {versions : List ℕ} {strSlice : Bytes} {strSz : ℤ} {symbols : DynamicSymbols}
    (h : parseDynamicSymbols bytes va count 24 versions strSlice strSz loads = .ok symbols) :
    InFile len symbols.offset (symbols.entSize * symbols.entries.length) := by
  simp only [parseDynamicSymbols, bind_ok, check_ok, pure_ok, exists_const] at h
  obtain ⟨table, htable, hsize, entries, hentries, rfl⟩ := h
  have hcount : entries.length = count := by
    rw [← (mapAll_ok.mp hentries).length_eq, List.length_range]
  have hin := (vaTableOff_ok hfile hlen htable).2
  rw [hcount, mul_comm]
  exact hin

lemma parseRelaTable_ok (hfile : ∀ s ∈ loads, InFile len s.fileOff s.fileSz) (hlen : len ≤ maxElfBytes)
    {kind : RelocationTableKind} {va count : ℕ} {symbols : Option DynamicSymbols} {bindNow : Bool} {t : RelocationTable}
    (h : parseRelaTable kind bytes va count loads symbols bindNow = .ok t) :
    t.entSize * t.entries.length ≤ t.size ∧ InFile len t.offset t.size := by
  simp only [parseRelaTable, bind_ok, check_ok, pure_ok, exists_const] at h
  obtain ⟨table, htable, hsize, parsed, hparsed, rfl⟩ := h
  refine ⟨?_, (vaTableOff_ok hfile hlen htable).2⟩
  have hcount : parsed.length = count := by
    rw [← (mapAll_ok.mp hparsed).length_eq, List.length_range]
  have hle : (parsed.filterMap id).length ≤ parsed.length := List.length_filterMap_le id parsed
  change (24 : ℤ) * ((parsed.filterMap id).length : ℕ) ≤ count * 24
  omega

lemma parseHashAndSymbols_ok (hfile : ∀ s ∈ loads, InFile len s.fileOff s.fileSz) (hlen : len ≤ maxElfBytes) {acc : DynAcc}
    {strSlice : Bytes} {strSz : ℤ} {found : HashStyle × Option DynamicSymbols}
    (h : parseHashAndSymbols bytes acc strSlice strSz loads = .ok found) :
    (∀ hash, found.1 = .sysVHash hash → hash.size = 8 + 4*(hash.buckets + hash.symbols) ∧ InFile len hash.offset hash.size) ∧
      ∀ t, found.2 = some t → InFile len t.offset (t.entSize * t.entries.length) := by
  unfold parseHashAndSymbols at h
  split at h
  · simp only [bind_ok, check_ok, pure_ok, exists_const] at h
    obtain ⟨-, -, rfl⟩ := h
    constructor
    · rintro hash ⟨⟩
    · rintro t ⟨⟩
  · simp only [bind_ok, check_ok, pure_ok, exists_const] at h
    obtain ⟨hash, hhash, -, versions, -, symbols, hsymbols, rfl⟩ := h
    constructor
    · rintro _ ⟨⟩
      exact parseSysvHash_ok hfile hlen hhash
    · rintro _ ⟨⟩
      exact parseDynamicSymbols_ok hfile hlen hsymbols
  · cases h

/-- A table that was asked for, if there is one. -/
lemma parseMainRelocations_ok (hfile : ∀ s ∈ loads, InFile len s.fileOff s.fileSz) (hlen : len ≤ maxElfBytes) {acc : DynAcc}
    {symbols : Option DynamicSymbols} {bindNow : Bool} {t : RelocationTable}
    (h : parseMainRelocations bytes acc loads symbols bindNow = .ok (some t)) :
    t.entSize * t.entries.length ≤ t.size ∧ InFile len t.offset t.size := by
  obtain ⟨count, -, h⟩ := bind_ok.mp h
  split_ifs at h
  · cases h
  · split at h
    · cases h
    · obtain ⟨table, htable, ht⟩ := map_ok.mp h
      obtain rfl := Option.some.inj ht
      exact parseRelaTable_ok hfile hlen htable

lemma parsePltRelocations_ok (hfile : ∀ s ∈ loads, InFile len s.fileOff s.fileSz) (hlen : len ≤ maxElfBytes) {acc : DynAcc}
    {symbols : Option DynamicSymbols} {bindNow : Bool} {t : RelocationTable}
    (h : parsePltRelocations bytes acc loads symbols bindNow = .ok (some t)) :
    t.entSize * t.entries.length ≤ t.size ∧ InFile len t.offset t.size := by
  unfold parsePltRelocations at h
  split at h
  · cases h
  · obtain ⟨u, -, h⟩ := bind_ok.mp h
    obtain ⟨count, -, h⟩ := bind_ok.mp h
    split_ifs at h
    · cases h
    · obtain ⟨table, htable, ht⟩ := map_ok.mp h
      obtain rfl := Option.some.inj ht
      exact parseRelaTable_ok hfile hlen htable
  · cases h

lemma finishDyn_ok (hfile : ∀ s ∈ loads, InFile len s.fileOff s.fileSz) (hlen : len ≤ maxElfBytes) {acc : DynAcc}
    {d : DynInfo} (h : finishDyn bytes acc loads len = .ok d) : d.Located len := by
  simp only [finishDyn, bind_ok, check_ok, pure_ok, exists_const] at h
  obtain ⟨strSz, -, strOff, hstr, strSlice, -, needed, -, soname, -, found, hfound, bindNow, -, mainTable, hmain, pltTable, hplt,
    pltGot, -, -, initFn, -, finiFn, -, initArray, -, finiArray, -, rfl⟩ := h
  obtain ⟨hhash, hsymbols⟩ := parseHashAndSymbols_ok hfile hlen hfound
  refine ⟨stringOffset_ok hfile hlen hstr, hhash, hsymbols, ?_⟩
  intro t ht
  obtain ht | ht := List.mem_append.mp ht
  · obtain rfl := Option.mem_toList.mp ht
    exact parseMainRelocations_ok hfile hlen hmain
  · obtain rfl := Option.mem_toList.mp ht
    exact parsePltRelocations_ok hfile hlen hplt

lemma emptyDynInfo_located (len : ℕ) : emptyDynInfo.Located len := by
  refine ⟨⟨le_rfl, le_rfl, ?_⟩, ?_, ?_, ?_⟩
  · exact Int.natCast_nonneg len
  · rintro hash ⟨⟩
  · rintro t ⟨⟩
  · rintro t ⟨⟩

end Tables

/-- The range of the dynamic section is inside the file, and so are its tables. -/
lemma parseDynamic_ok {raws : List RawPhdr} {bytes : Bytes} {loads : List Segment} {d : DynInfo}
    (hfile : ∀ s ∈ loads, InFile bytes.length s.fileOff s.fileSz) (hlen : bytes.length ≤ maxElfBytes)
    (hraws : ∀ r ∈ raws, r.off < 2^64 ∧ r.filesz < 2^64) (h : parseDynamic raws bytes loads = .ok d) :
    (d.present = true → ∃ r ∈ raws, r.type = ptDynamic ∧ InFile bytes.length r.off r.filesz) ∧ d.Located bytes.length := by
  unfold parseDynamic at h
  split at h
  · obtain rfl := Except.ok.inj h
    exact ⟨fun hp => absurd hp (by decide), emptyDynInfo_located _⟩
  case h_2 r hr =>
    have hmem : r ∈ raws.filter fun r => r.type = ptDynamic := by
      rw [hr]
      exact List.mem_singleton_self r
    obtain ⟨hmem, htype⟩ := List.mem_filter.mp hmem
    obtain ⟨hw1, hw2⟩ := hraws r hmem
    simp only [parseOneDynamic, bind_ok, check_ok, exists_const] at h
    obtain ⟨hoff, hsz, -, -, acc, -, -, hd⟩ := h
    refine ⟨fun _ => ⟨r, hmem, of_decide_eq_true htype, ?_⟩, finishDyn_ok hfile hlen hd⟩
    have h1 : intOfWord r.off = r.off := intOfWord_of_nonneg hw1 (by omega)
    have h2 : intOfWord r.filesz = r.filesz := intOfWord_of_nonneg hw2 (by omega)
    refine ⟨?_, ?_, ?_⟩
    · omega
    · omega
    · omega
  · cases h

/-- What the steps of `loadElf` have made of an accepted image. -/
lemma loadElf_parts {bytes : Bytes} {elf : Elf} (h : loadElf bytes = .ok elf) :
    elf.bytes = bytes ∧ bytes.length ≤ maxElfBytes ∧ ∃ raws, programHeaders bytes = .ok raws ∧
      Admissible raws elf.isDyn bytes.length elf.entry elf.segs ∧ parseDynamic raws bytes elf.segs = .ok elf.dyn := by
  simp only [loadElf, bind_ok, check_ok, pure_ok, exists_const] at h
  obtain ⟨hlen, -, -, -, hd, hhead, -, -, -, -, segs, hsegs, loads, hloads, raws, hraws, interp, -, relro, -, dyn, hdyn, rfl⟩ := h
  refine ⟨rfl, hlen, raws, ?_, validateSegments_ok (fun s hs => parseSegments_ok hsegs hraws hs) hloads, hdyn⟩
  rw [programHeaders, bind_ok]
  exact ⟨hd, hhead, hraws⟩

/-- Every accepted image can be mapped as its headers say: a static one inside the window of executables, a
relocatable one below 4 GiB. -/
theorem loadElf_mappable {bytes : Bytes} {elf : Elf} (h : loadElf bytes = .ok elf) :
    elf.bytes = bytes ∧ ∃ raws, programHeaders bytes = .ok raws ∧ elf.Mappable raws := by
  obtain ⟨rfl, hlen, raws, hraws, hlayout, hdyn⟩ := loadElf_parts h
  have hwords : ∀ r ∈ raws, r.off < 2^64 ∧ r.filesz < 2^64 := by
    intro r hr
    obtain ⟨hd, -, hcollect⟩ := bind_ok.mp hraws
    obtain ⟨i, -, hi⟩ := forall₂_right (mapAll_ok.mp hcollect) hr
    exact parseOneRaw_lt hi
  obtain ⟨hpresent, hlocated⟩ := parseDynamic_ok (fun s hs => (hlayout.mappable s hs).file) hlen hwords hdyn
  exact ⟨rfl, raws, hraws, hlayout, hpresent, hlocated⟩

section Sample

def leBytes (n v : ℕ) : Bytes := (List.range n).map fun i => BitVec.ofNat 8 (v / 256^i)

/-- A header of type `type` with its program headers right behind. -/
def fileHeader (type entry phnum : ℕ) : Bytes :=
  elfIdent ++ List.replicate 9 0 ++ leBytes 2 type ++ leBytes 2 183 ++ leBytes 4 1 ++ leBytes 8 entry ++ leBytes 8 64 ++
    leBytes 12 0 ++ leBytes 2 64 ++ leBytes 2 56 ++ leBytes 2 phnum ++ leBytes 6 0

def RawPhdr.bytes (r : RawPhdr) : Bytes :=
  leBytes 4 r.type ++ leBytes 4 r.flags.toNat ++ leBytes 8 r.off ++ leBytes 8 r.vaddr ++ leBytes 8 r.vaddr ++
    leBytes 8 r.filesz ++
    leBytes 8 r.memsz ++ leBytes 8 r.align

/-- A shared object of one segment, at address zero, with an empty string table in its dynamic section. -/
def sharedImage : Bytes :=
  fileHeader 3 0 2 ++ RawPhdr.bytes ⟨ptLoad, 5, 0, 0, 225, 225, 4096⟩ ++ RawPhdr.bytes ⟨ptDynamic, 4, 176, 176, 48, 48, 8⟩ ++
    leBytes 8 dtStrtab ++ leBytes 8 224 ++ leBytes 8 dtStrsz ++ leBytes 8 1 ++ leBytes 16 dtNull ++ [0]

def sharedElf : Elf :=
  ⟨0, [⟨0, 0, 225, 225, 5⟩], sharedImage, true, none, { emptyDynInfo with present := true, strOff := 224, strSz := 1 }, none⟩

lemma loadElf_shared : loadElf sharedImage = .ok sharedElf := by decide +kernel

theorem loadElf_mappable_shared : sharedElf.bytes = sharedImage ∧
    ∃ raws, programHeaders sharedImage = .ok raws ∧ sharedElf.Mappable raws :=
  loadElf_mappable loadElf_shared

/-- A shared object may have a segment below the window of executables. -/
theorem shared_below_window : ¬ ∀ bytes elf, loadElf bytes = .ok elf → ∀ s ∈ elf.segs, minExecVAddr ≤ s.vaddr := by
  intro h
  exact absurd (h _ _ loadElf_shared _ List.mem_cons_self) (by decide)

end Sample

end HouseKernel.Loader
