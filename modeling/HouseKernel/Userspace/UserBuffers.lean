import HouseKernel.Userspace.PagerAtomicity
import HouseKernel.Userspace.UserReads
import HouseKernel.VirtualMemory.FormedRoot

/-! The translation in software over the tables that the kernel's writers build, and the check of a user's buffer that
rests on it. -/
namespace HouseKernel.Userspace

open HouseKernel.Lib HouseKernel.VirtualMemory

/-- Whether the page of the address is one that the loader has still to fill. -/
def houseIsDemandVa (m : Memory) (pdir va : ℕ) : Bool :=
  let vap := va - va % 4096
  if pdir = 0 ∨ pdir % 4096 ≠ 0 then false
  else match rawTable (m.peek pdir (l0Index vap)) with
    | none => false
    | some l1 => match rawTable (m.peek l1 (l1Index vap)) with
      | none => false
      | some l2 => match rawTable (m.peek l2 (l2Index vap)) with
        | none => false
        | some l3 => isDemandDesc (m.peek l3 (l3Index vap))

/-- The pages from `p` on, with `n` more behind it. The window ends far below where the sums would wrap. -/
def validatePages (m : Memory) (pdir : ℕ) : ℕ → ℕ → ℤ
  | 0, p => if translateVaPdir m pdir p = 0 ∧ houseIsDemandVa m pdir p = false then -1 else 0
  | n+1, p =>
    if translateVaPdir m pdir p = 0 ∧ houseIsDemandVa m pdir p = false then -1 else validatePages m pdir n (p + 4096)

def validateUserBuffer (m : Memory) (pdir va len : ℕ) : ℤ :=
  if len = 0 then 0
  else if len > 65536 then -1
  else if va + len ≥ 2^64 then -1
  else if va < 0x01000000 ∨ va + len > 0x100000000 then -1
  else
    let startPage := va / 4096 * 4096
    let endPage := (va + len - 1) / 4096 * 4096
    validatePages m pdir ((endPage - startPage) / 4096) startPage

/-- The tables lead to this page. -/
def PageAt (m : Memory) (r va : ℕ) (d : Desc) : Prop :=
  ∃ l3, walk hwTable m.mem r (path va) = some l3 ∧ m.peek l3 (l3Index va) = d ∧ d &&& 3 = 3

/-- A root with all that its writers do to its tables. In between, whatever leaves the tables alone and frees no page of
theirs may happen. -/
inductive Built (pf : Platform) (r : ℕ) : Memory → Prop
  | alloc {m : Memory} (hk : KernelTables pf m) (hnodup : m.pool.Nodup) (hpages : ∀ p ∈ m.pool, 0 < p ∧ p < 2^48 ∧ p % 4096 = 0)
    (hsome : (allocPageMap pf m).1 = some r) : Built pf r (allocPageMap pf m).2
  | setPage {m : Memory} {va : ℕ} (h : Built pf r m) (hb : TablesOnly m.mem r (path va)) (info : Option PageInfo) :
    Built pf r (setPage m r va info).2
  | setDemandPage {m : Memory} {va : ℕ} (h : Built pf r m) (hb : TablesOnly m.mem r (path va)) (writable : Bool) :
    Built pf r (setDemandPage m r va writable).2
  | fault {m : Memory} (h : Built pf r m) (driver : ℕ → Bool) (spent : Bool) (far : ℕ) :
    Built pf r (Pager.houseHandleUserFault pf.toRam driver spent r far m).2
  | other {m m' : Memory} (h : Built pf r m)
    (hread : ∀ {js t i}, Stands hwTable 3 m.mem {r} r js t → i < 512 → m'.mem (t + 8*i) = m.mem (t + 8*i))
    (hfree : ∀ p ∈ m'.pool, 0 < p ∧ p < 2^48 ∧ p % 4096 = 0 ∧ ∀ js, ¬ Stands hwTable 3 m.mem {r} r js p)
    (hnodup : m'.pool.Nodup) : Built pf r m'

section Pager

variable {m : Memory} {r t i page : ℕ} {held : List ℕ} {js : List ℕ} {d : Desc}

lemma ownOpen_congr {d' : Desc} (h : d' &&& attrMask = d &&& attrMask) : OwnOpen d' ↔ OwnOpen d := by
  have hbit : ∀ k ∈ [6, bNG], d'.getLsbD k = d.getLsbD k := by
    intro k hk
    have hmask : attrMask.getLsbD k = true := by
      revert k
      decide
    have heq := congrArg (fun x : Desc => x.getLsbD k) h
    simpa [BitVec.getLsbD_and, hmask] using heq
  rw [OwnOpen, OwnOpen, hbit 6 (by simp), hbit bNG (by simp)]

lemma lowest_faultDesc (ha : page % 4096 = 0) (hb : page < 2^48) : Lowest (faultDesc page) := by
  have hdesc := faultDesc_eq ha hb
  refine Or.inr ⟨?_, ?_⟩
  · have hfield := field_flagBits (BitVec.ofNat 64 page) faultFlags 0 3 (by decide)
    simp only [BitVec.ushiftRight_zero] at hfield
    rw [hdesc, hfield]
    decide
  · rw [OwnOpen, hdesc, bit_flagBits _ _ _ (by decide), bit_flagBits _ _ _ (by decide)]
    decide

/-- One step of the pager's way down. -/
lemma stepTable_formed (h : Formed m r held) (ht : Stands hwTable 3 m.mem {r} r js t) (hjs : js.length < 3) (hi : i < 512) :
    Formed (Pager.stepTable js.length m t i).2 r held ∧ ∀ c, (Pager.stepTable js.length m t i).1 = .ok c →
      Stands hwTable 3 (Pager.stepTable js.length m t i).2.mem {r} r (js ++ [i]) c := by
  obtain hzero | ⟨c, hdesc, -, ha, hb⟩ | ⟨htop, hblock, hown⟩ := h.inner ht hjs hi
  · have hempty : m.peek t i &&& 1 = 0 := hzero
    cases hpool : m.pool with
    | nil =>
      have hrun : Pager.stepTable js.length m t i = (.error (-12), m) := by
        simp only [Pager.stepTable, hempty, allocPage, hpool, if_true]
      rw [hrun]
      exact ⟨h, fun c hc => by cases hc⟩
    | cons c rest =>
      have hin : c ∈ m.pool ++ held := by simp [hpool]
      have ha := h.forest.freeAligned hin
      obtain ⟨-, hb⟩ := h.pool c (by simp [hpool])
      obtain ⟨-, -, hout⟩ := h.freeOf ht hi c (by simp [hpool])
      have hrun : Pager.stepTable js.length m t i =
          (.ok c, (zeroPage c { m with pool := rest }).poke t i (descFromTable c)) := by
        simp only [Pager.stepTable, hempty, allocPage, hpool, if_true, tableDesc_eq ha hb]
        simp only [Memory.peek, Memory.poke, Function.update_self, descFromTable_raw ha hb]
      have hword : ∀ j < 512, ((zeroPage c { m with pool := rest }).poke t i (descFromTable c)).mem (c + 8*j) = 0 := by
        intro j hj
        simp only [Memory.poke, zeroPage]
        rw [Function.update_of_ne (by omega), if_pos (by omega)]
      have hlink : ((zeroPage c { m with pool := rest }).poke t i (descFromTable c)).mem (t + 8*i) = descFromTable c :=
        Function.update_self _ _ _
      obtain ⟨hformed, hstands⟩ := h.hang ht hjs hi (hwTable_invalid hzero) hpool rfl hlink (fun a hne ha' => by
        simp only [Memory.poke, zeroPage]
        rw [Function.update_of_ne hne, if_neg (by omega)]) (fun _ j hj => by
        rw [hword j hj]
        exact ⟨hwTable_invalid (by decide), Or.inl (by decide)⟩) (fun _ j hj => by
        rw [hword j hj]
        exact lowest_zero)
      rw [hrun]
      refine ⟨hformed, fun c' hc' => ?_⟩
      cases hc'
      exact hstands.mpr (Or.inr ⟨rfl, rfl⟩)
  · obtain ⟨h1, h2⟩ := descFromTable_bits c
    have hrun : Pager.stepTable js.length m t i = (.ok c, m) := by
      have hpeek : m.peek t i = descFromTable c := hdesc
      simp only [Pager.stepTable, hpeek, h1, h2, and_false, if_false, descFromTable_raw ha hb]
    rw [hrun]
    refine ⟨h, fun c' hc' => ?_⟩
    cases hc'
    refine ht.child hjs hi ?_
    rw [hdesc]
    exact hwTable_descFromTable ha hb
  · obtain ⟨h1, h2⟩ := and_three_block hblock
    have hne : js.length ≠ 0 := fun hnil => htop (List.length_eq_zero_iff.mp hnil)
    have hlevel : js.length = 1 ∨ js.length = 2 := by omega
    have hpos := h.table_pos ht
    have hslot : t + 8*i ≠ 0 := by omega
    have hpeek : m.peek t i = m.mem (t + 8*i) := rfl
    obtain ⟨-, hsplit⟩ | ⟨c, rest, m', hsplit, hs⟩ := vmSplitSlot_cases hlevel hslot hblock (h.freeOf ht hi)
    · have hrun : Pager.stepTable js.length m t i = (.error (-12), m) := by
        simp only [Pager.stepTable, hpeek, h1, h2, hne, hsplit, if_false, ne_eq, not_false_eq_true, true_and, if_true]
      rw [hrun]
      exact ⟨h, fun c hc => by cases hc⟩
    · have hin : c ∈ m.pool ++ held := by simp [hs.taken]
      have ha := h.forest.freeAligned hin
      obtain ⟨-, hb⟩ := h.pool c (by simp [hs.taken])
      have hrun : Pager.stepTable js.length m t i = (.ok c, m') := by
        have hpeek' : m'.peek t i = descFromTable c := hs.link
        simp only [Pager.stepTable, hpeek, h1, h2, hne, hsplit, if_false, ne_eq, not_false_eq_true, true_and, if_true, hpeek',
          descFromTable_raw ha hb]
      -- the parts of a block are open to the process exactly when the block is
      have hpart : ∀ j < 512, m'.mem (c + 8*j) &&& 3 = (if js.length = 2 then 3 else 1) ∧ OwnOpen (m'.mem (c + 8*j)) := by
        intro j hj
        obtain ⟨htype, hattrs, -⟩ := splitEntry_spec hlevel hblock hj
        rw [hs.parts j hj]
        exact ⟨htype, (ownOpen_congr hattrs).mpr hown⟩
      obtain ⟨hformed, hstands⟩ := h.hang ht hjs hi (hwTable_block hblock) hs.taken hs.pool hs.link hs.other (fun hlt j hj => by
        obtain ⟨htype, hopen⟩ := hpart j hj
        rw [if_neg (by omega)] at htype
        exact ⟨hwTable_block htype, Or.inr (Or.inr ⟨not_false, htype, hopen⟩)⟩) (fun hlast j hj => by
        obtain ⟨htype, hopen⟩ := hpart j hj
        rw [if_pos (by omega)] at htype
        exact Or.inr ⟨htype, hopen⟩)
      rw [hrun]
      refine ⟨hformed, fun c' hc' => ?_⟩
      cases hc'
      exact hstands.mpr (Or.inr ⟨rfl, rfl⟩)

lemma stepTables_formed {is : List (ℕ × ℕ)} (h : Formed m r held) (ht : Stands hwTable 3 m.mem {r} r js t)
    (hlevels : is.map Prod.fst = List.range' js.length is.length) (hlen : js.length + is.length ≤ 3)
    (hi : ∀ k ∈ is.map Prod.snd, k < 512) :
    Formed (Pager.stepTables m t is).2 r held ∧ ∀ c, (Pager.stepTables m t is).1 = .ok c →
      Stands hwTable 3 (Pager.stepTables m t is).2.mem {r} r (js ++ is.map Prod.snd) c := by
  induction is generalizing m t js with
  | nil =>
    refine ⟨h, fun c hc => ?_⟩
    cases hc
    rwa [List.map_nil, List.append_nil]
  | cons step is ih =>
    obtain ⟨level, i⟩ := step
    rw [List.map_cons, List.length_cons, List.range'_succ, List.cons.injEq] at hlevels
    obtain ⟨rfl, hlevels⟩ := hlevels
    rw [List.length_cons] at hlen
    rw [List.map_cons] at hi
    obtain ⟨hlt, hi⟩ := List.forall_mem_cons.mp hi
    rw [List.map_cons, List.append_cons]
    obtain ⟨hformed, hstep⟩ := stepTable_formed h ht (by omega) hlt
    rw [Pager.stepTables]
    generalize Pager.stepTable js.length m t i = out at hformed hstep
    obtain ⟨_ | c, m'⟩ := out
    · exact ⟨hformed, fun c hc => by cases hc⟩
    · exact ih hformed (hstep c rfl) (by rwa [List.length_append, List.length_singleton])
        (by rw [List.length_append, List.length_singleton]; omega) hi

/-- A fault, handled or not. -/
theorem fault_formed (h : Formed m r []) (ram : Ram) (driver : ℕ → Bool) (spent : Bool) (far : ℕ) :
    Formed (Pager.houseHandleUserFault ram driver spent r far m).2 r [] := by
  rw [Pager.houseHandleUserFault]
  split_ifs
  · rw [Pager.faultLocked]
    simp only
    split_ifs
    · exact h
    · cases hpool : m.pool with
      | nil =>
        simp only [allocPage, hpool]
        exact h
      | cons page rest =>
        simp only [allocPage, hpool]
        obtain ⟨hpos, hb⟩ := h.pool page (by simp [hpool])
        have ha := h.forest.freeAligned (show page ∈ m.pool ++ [] by simp [hpool])
        obtain ⟨htake, -⟩ := h.take hpool
        obtain ⟨hformed, hl3⟩ := stepTables_formed htake (stands_nil.mpr ⟨rfl, rfl⟩)
          (show [(0, l0Index (far - far % 4096)), (1, l1Index (far - far % 4096)), (2, l2Index (far - far % 4096))].map Prod.fst =
            List.range' 0 3 from rfl) le_rfl (index_lt (far - far % 4096))
        generalize Pager.stepTables (zeroPage page { m with pool := rest }) r
          [(0, l0Index (far - far % 4096)), (1, l1Index (far - far % 4096)), (2, l2Index (far - far % 4096))] = out at hformed hl3
        obtain ⟨_ | l3, m'⟩ := out
        · exact hformed.give hpos hb
        · simp only
          split_ifs
          · exact hformed.give hpos hb
          · exact hformed.give hpos hb
          · exact (hformed.poke (hl3 l3 rfl) rfl (l3Index_lt _) (lowest_faultDesc ha hb)).1.keep
  · exact h

end Pager

/-- What the writers leave behind. -/
theorem Built.formed {pf : Platform} {r : ℕ} {m : Memory} (h : Built pf r m) : Formed m r [] := by
  induction h with
  | alloc hk hnodup hpages hsome => exact formed_allocPageMap hk hnodup hpages hsome
  | setPage _ hb info ih => exact setPage_formed ih hb info
  | setDemandPage _ hb writable ih => exact setDemandPage_formed ih hb writable
  | fault _ driver spent far ih => exact fault_formed ih _ driver spent far
  | other _ hread hfree hnodup ih =>
    refine (ih.same hread ?_ ?_ fun p hp => ⟨(hfree p hp).1, (hfree p hp).2.1⟩).1
    · intro p hp
      rw [List.append_nil] at hp
      exact (hfree p hp).2.2
    · rwa [List.append_nil]

section Walks

variable {m : Memory} {r va len : ℕ} {held : List ℕ} {d : Desc}

/-- Without blocks on the way both walks of the trap paths end where the tables lead. -/
lemma walk_formed (h : Formed m r held) (hb : TablesOnly m.mem r (path va)) {α : Type} (z : α) (f : ℕ → α) :
    (match rawTable (m.peek r (l0Index va)) with
    | none => z
    | some l1 => match rawTable (m.peek l1 (l1Index va)) with
      | none => z
      | some l2 => match rawTable (m.peek l2 (l2Index va)) with
        | none => z
        | some l3 => f l3) = (walk hwTable m.mem r (path va)).elim z f := by
  have hlt := index_lt va
  simp only [path, List.mem_cons, List.not_mem_nil, or_false, forall_eq_or_imp, forall_eq] at hlt
  obtain ⟨hb0, hb⟩ := hb
  have h0 : Stands hwTable 3 m.mem {r} r [] r := stands_nil.mpr ⟨rfl, rfl⟩
  simp only [path, walk, Memory.peek, ((h.inner h0 (by simp) hlt.1).table_eq hb0).2]
  cases hc1 : hwTable (m.mem (r + 8*l0Index va)) with
  | none => rfl
  | some l1 =>
    obtain ⟨hb1, hb⟩ := hb l1 hc1
    have h1 := h0.child (by simp) hlt.1 hc1
    simp only [Option.bind_some, ((h.inner h1 (by simp) hlt.2.1).table_eq hb1).2]
    cases hc2 : hwTable (m.mem (l1 + 8*l1Index va)) with
    | none => rfl
    | some l2 =>
      obtain ⟨hb2, -⟩ := hb l2 hc2
      have h2 := h1.child (by simp) hlt.2.1 hc2
      simp only [Option.bind_some, ((h.inner h2 (by simp) hlt.2.2).table_eq hb2).2]
      cases hwTable (m.mem (l2 + 8*l2Index va)) with
      | none => rfl
      | some l3 => rfl

/-- The hardware translates a page as its descriptor says. -/
lemma PageAt.translate (h : PageAt m r va d) :
    translate m r va = some ⟨outputAddress 0 d + va % 4096, d &&& attrMask⟩ := by
  obtain ⟨l3, hwalk, rfl, htype⟩ := h
  have hpath : path va ++ [l3Index va] <+: indices 3 va := List.prefix_rfl
  rw [VirtualMemory.translate, translateSlot_descend hwalk hpath]
  exact if_pos ⟨by norm_num, htype⟩

/-- Where the software finds a page, the tables lead to one. -/
theorem translate_page (h : Formed m r held) (hb : TablesOnly m.mem r (path va)) (hne : translateVaPdir m r va ≠ 0) :
    ∃ d, PageAt m r va d ∧ OwnOpen d ∧ (d >>> 48 = 0#64 → translateVaPdir m r va = outputAddress 0 d + va % 4096) := by
  have h0 : Stands hwTable 3 m.mem {r} r [] r := stands_nil.mpr ⟨rfl, rfl⟩
  have hroot : ¬ (r = 0 ∨ r % 4096 ≠ 0) := by
    have := h.root
    have := h.forest.aligned h0
    omega
  have hrun : translateVaPdir m r va = (walk hwTable m.mem r (path va)).elim 0 fun l3 =>
      if m.peek l3 (l3Index va) &&& 1 = 0 then 0
      else ((m.peek l3 (l3Index va) &&& ~~~0xFFF#64) ||| (BitVec.ofNat 64 va &&& 0xFFF#64)).toNat := by
    rw [translateVaPdir, if_neg hroot]
    exact walk_formed h hb _ _
  rw [hrun] at hne ⊢
  cases hwalk : walk hwTable m.mem r (path va) with
  | none => exact absurd (by rw [hwalk]; rfl) hne
  | some l3 =>
    rw [hwalk] at hne
    simp only [Option.elim_some] at hne ⊢
    have hstands : Stands hwTable 3 m.mem {r} r (path va) l3 := ⟨rfl, index_lt va, le_rfl, hwalk⟩
    have hvalid : m.peek l3 (l3Index va) &&& 1 ≠ 0 := fun hzero => hne (if_pos hzero)
    obtain hzero | ⟨htype, hopen⟩ := h.lowest hstands rfl (l3Index_lt va)
    · exact absurd hzero hvalid
    · refine ⟨m.peek l3 (l3Index va), ⟨l3, hwalk, rfl, htype⟩, hopen, fun hplain => ?_⟩
      have hzero : (0#64 : Desc) <<< 48 = 0#64 := by decide
      obtain ⟨k, hk⟩ : ∃ k, (m.peek l3 (l3Index va) &&& mAddress).toNat = 2^12 * k := by
        have := mAddress_bound (show (m.peek l3 (l3Index va) &&& mAddress) &&& mAddress = m.peek l3 (l3Index va) &&& mAddress by
          rw [BitVec.and_assoc, BitVec.and_self])
        exact ⟨(m.peek l3 (l3Index va) &&& mAddress).toNat / 4096, by omega⟩
      rw [if_neg hvalid, raw_address, hplain, hzero, BitVec.or_zero, BitVec.toNat_or, low_offset, outputAddress, hk]
      have hor := Nat.two_pow_add_eq_or_of_lt (Nat.mod_lt va (show 0 < 2^12 by norm_num)) k
      rw [show (4096 : ℕ) = 2^12 by norm_num, ← hor]
      omega

lemma validatePages_zero {n p : ℕ} (h : validatePages m r n p = 0) {k : ℕ} (hk : k ≤ n) :
    translateVaPdir m r (p + 4096*k) ≠ 0 ∨ houseIsDemandVa m r (p + 4096*k) = true := by
  have hcheck : ∀ {q : ℕ}, ¬ (translateVaPdir m r q = 0 ∧ houseIsDemandVa m r q = false) →
      translateVaPdir m r q ≠ 0 ∨ houseIsDemandVa m r q = true := by
    intro q hq
    rw [not_and_or, Bool.not_eq_false] at hq
    exact hq
  induction n generalizing p k with
  | zero =>
    obtain rfl : k = 0 := by omega
    rw [validatePages] at h
    split_ifs at h with hbad
    exact hcheck hbad
  | succ n ih =>
    rw [validatePages] at h
    split_ifs at h with hbad
    cases k with
    | zero => exact hcheck hbad
    | succ k =>
      have hrest := ih h (show k ≤ n by omega)
      rwa [show p + 4096 + 4096*k = p + 4096*(k + 1) by ring] at hrest

/-- A buffer that is accepted has at each of its pages a page that the software finds, or a marker. -/
theorem validateUserBuffer_pages (h : validateUserBuffer m r va len = 0) {a : ℕ} (hlo : va ≤ a) (hhi : a < va + len) :
    translateVaPdir m r (a / 4096 * 4096) ≠ 0 ∨ houseIsDemandVa m r (a / 4096 * 4096) = true := by
  unfold validateUserBuffer at h
  split_ifs at h with h0
  · omega
  · have hk : a / 4096 * 4096 = va / 4096 * 4096 + 4096*((a / 4096 * 4096 - va / 4096 * 4096) / 4096) := by omega
    rw [hk]
    exact validatePages_zero h (by omega)

end Walks

/-- Over every root that the writers build: where no block lies on the way, an address that the software translates is one of
a page of level 3, and if the page's descriptor has nothing above the address, it is translated as the hardware does it. A
buffer is accepted only if each of its pages, where no block lies on the way, is such a page or holds a marker. -/
theorem translation_agrees {pf : Platform} {r : ℕ} {m : Memory} (h : Built pf r m) :
    (∀ va, TablesOnly m.mem r (path va) → translateVaPdir m r va ≠ 0 → ∃ d, PageAt m r va d ∧
      translate m r va = some ⟨outputAddress 0 d + va % 4096, d &&& attrMask⟩ ∧
      (d >>> 48 = 0#64 → translateVaPdir m r va = outputAddress 0 d + va % 4096)) ∧
    ∀ va len, validateUserBuffer m r va len = 0 → ∀ a, va ≤ a → a < va + len → TablesOnly m.mem r (path (a / 4096 * 4096)) →
      houseIsDemandVa m r (a / 4096 * 4096) = true ∨
        ∃ d, PageAt m r (a / 4096 * 4096) d ∧ (d.getLsbD 6 = true ↔ d.getLsbD bNG = true) := by
  refine ⟨fun va hb hne => ?_, fun va len hok a hlo hhi hb => ?_⟩
  · obtain ⟨d, hpage, -, haddr⟩ := translate_page h.formed hb hne
    exact ⟨d, hpage, hpage.translate, haddr⟩
  · obtain hne | hmark := validateUserBuffer_pages hok hlo hhi
    · obtain ⟨d, hpage, hopen, -⟩ := translate_page h.formed hb hne
      rw [OwnOpen] at hopen
      exact Or.inr ⟨d, hpage, by rw [hopen]⟩
    · exact Or.inl hmark

section Sample

/-- The sample machine with something in its RAM that reads like tables. -/
def crowdedBoot : Memory :=
  ⟨fun a => if a = 0x40000400 then 0x40001003 else if a = 0x40001000 then 0x40002003 else 0, sampleBoot.pool⟩

def crowdedRoot : Memory := (allocPageMap samplePlatform crowdedBoot).2

/-- Its first root with a page, with one from the pager, and with a marker. -/
def crowdedPage : Memory := (setPage crowdedRoot 0x50000000 0x10000000 (some ⟨0x50010000, true, false, false, false⟩)).2

def crowdedFault : Memory :=
  (Pager.houseHandleUserFault samplePlatform.toRam (fun _ => false) false 0x50000000 0x10000123 crowdedRoot).2

def crowdedMarker : Memory := (setDemandPage crowdedRoot 0x50000000 0x10000000 true).2

lemma crowdedRoot_built : Built samplePlatform 0x50000000 crowdedRoot := by
  have hzero : ∀ k < 2, ∀ j < 512, crowdedBoot.mem (0x40200000 + 4096*k + 8*j) = 0 := by
    intro k hk j hj
    simp only [crowdedBoot]
    rw [if_neg (by omega), if_neg (by omega)]
  refine .alloc (kernelTables_l1Boot (rfl : samplePlatform.l1Low = l1Boot 4 2 0x40200000) (by norm_num) (by norm_num)
    (by norm_num)
    (by decide +kernel) fun k hk j hj => ?_) (by decide +kernel) (by decide +kernel) (by decide +kernel)
  rw [hzero k hk j hj]
  exact ⟨hwTable_invalid (by decide), Or.inl (by decide)⟩

lemma crowdedPage_built : Built samplePlatform 0x50000000 crowdedPage := crowdedRoot_built.setPage (by decide +kernel) _

theorem translation_agrees_sample :
    (∃ d, PageAt crowdedPage 0x50000000 0x10000123 d ∧
      translate crowdedPage 0x50000000 0x10000123 = some ⟨outputAddress 0 d + 0x123, d &&& attrMask⟩) ∧
    translateVaPdir crowdedPage 0x50000000 0x10000123 = 0x50010123 ∧
    (houseIsDemandVa crowdedPage 0x50000000 0x10000000 = true ∨
      ∃ d, PageAt crowdedPage 0x50000000 0x10000000 d ∧ (d.getLsbD 6 = true ↔ d.getLsbD bNG = true)) := by
  obtain ⟨hpage, hbuffer⟩ := translation_agrees crowdedPage_built
  obtain ⟨d, hd, htranslate, -⟩ := hpage 0x10000123 (by decide +kernel) (by decide +kernel)
  exact ⟨⟨d, hd, htranslate⟩, by decide +kernel, hbuffer 0x10000123 100 (by decide +kernel) 0x10000130 (by norm_num) (by norm_num)
    (by decide +kernel)⟩

/-- A page of the pager's is translated to an address with the bits above it, a block is taken for a table, and a buffer
with a marker is accepted though nothing is mapped there. -/
theorem translation_disagrees :
    (Built samplePlatform 0x50000000 crowdedFault ∧ translateVaPdir crowdedFault 0x50000000 0x10000123 = 0x60000050003123 ∧
      (translate crowdedFault 0x50000000 0x10000123).map (·.pa) = some 0x50003123) ∧
    (Built samplePlatform 0x50000000 crowdedRoot ∧ translateVaPdir crowdedRoot 0x50000000 0x50000000 = 0x40002000 ∧
      walk hwTable crowdedRoot.mem 0x50000000 (path 0x50000000) = none) ∧
    (Built samplePlatform 0x50000000 crowdedMarker ∧ validateUserBuffer crowdedMarker 0x50000000 0x10000000 8 = 0 ∧
      translate crowdedMarker 0x50000000 0x10000000 = none) :=
  ⟨⟨crowdedRoot_built.fault _ _ _, by decide +kernel, by decide +kernel⟩,
    ⟨crowdedRoot_built, by decide +kernel, by decide +kernel⟩,
    crowdedRoot_built.setDemandPage (by decide +kernel) _, by decide +kernel, by decide +kernel⟩

end Sample

end HouseKernel.Userspace
