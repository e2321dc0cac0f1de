import HouseKernel.Userspace.DemandPaging
import HouseKernel.VirtualMemory.PagedRoot

/-! The demand pager with the blocks that it meets: it splits them on its way down, and adds tables where there are
none. Whatever it leaves behind when it stops does not show in the translation. -/
namespace HouseKernel.Userspace

open HouseKernel.Lib HouseKernel.VirtualMemory

/-- A page of the user's, writable and never executed. -/
def faultDesc (page : ℕ) : Desc :=
  BitVec.ofNat 64 page &&& ~~~0xFFF#64 ||| 0x3#64 ||| 1#64 <<< 10 ||| 3#64 <<< 8 ||| 1#64 <<< 11 ||| 1#64 <<< 54 |||
    1#64 <<< 53 |||
    0#64 <<< 2 ||| 1#64 <<< 6

/-- The bits of the pager's page descriptor outside its address. -/
def faultFlags : Desc :=
  0x3#64 ||| 1#64 <<< 10 ||| 3#64 <<< 8 ||| 1#64 <<< 11 ||| 1#64 <<< 54 ||| 1#64 <<< 53 ||| 0#64 <<< 2 ||| 1#64 <<< 6

lemma faultDesc_eq {c : ℕ} (ha : c % 4096 = 0) (hb : c < 2^48) : faultDesc c = BitVec.ofNat 64 c &&& mAddress ||| faultFlags := by
  rw [mAddress_ofNat ha hb, faultDesc, ofNat_and_pageMask ha hb]
  simp only [faultFlags, BitVec.or_assoc]

/-- Whether a fault is one for the pager: not on the allocator's heap, in the window, and under the root of a process. -/
def pageable (ram : Ram) (driver : ℕ → Bool) (pdir far : ℕ) : Bool :=
  !(ram.buddyStart ≤ far - far % 4096 && far - far % 4096 < ram.buddyEnd) && (minVAddr ≤ far && far ≤ VirtualMemory.maxVAddr) &&
    (pdir ≠ 0 && pdir % 4096 = 0) && !driver pdir

/-- The memory after a page was taken for a fault. -/
def faultTaken (page : ℕ) (rest : List ℕ) (m : Memory) : Memory := zeroPage page { m with pool := rest }

namespace Pager

/-- The table behind slot `i` of `t`, a table of the given level. Below the root there may be a block. -/
def stepTable (level : ℕ) (m : Memory) (t i : ℕ) : Except ℤ ℕ × Memory :=
  let d := m.peek t i
  if d &&& 1 = 0 then
    match allocPage m with
    | (none, m) => (.error (-12), m)
    | (some c, m) =>
      let m := (zeroPage c m).poke t i (BitVec.ofNat 64 c &&& ~~~0xFFF#64 ||| 0x3#64)
      (.ok (m.peek t i &&& ~~~0xFFF#64).toNat, m)
  else if level ≠ 0 ∧ d &&& 2 = 0 then
    match vmSplitSlot m (t + 8*i) level with
    | (false, m) => (.error (-12), m)
    | (true, m) => (.ok (m.peek t i &&& ~~~0xFFF#64).toNat, m)
  else (.ok (d &&& ~~~0xFFF#64).toNat, m)

def stepTables (m : Memory) (t : ℕ) : List (ℕ × ℕ) → Except ℤ ℕ × Memory
  | [] => (.ok t, m)
  | (level, i) :: rest => match stepTable level m t i with
    | (.error code, m) => (.error code, m)
    | (.ok c, m) => stepTables m c rest

/-- `spent` is the answer of the page budget. -/
def faultLocked (spent : Bool) (pdir far : ℕ) (m : Memory) : ℤ × Memory :=
  let va := far - far % 4096
  if spent then (-28, m)
  else match allocPage m with
    | (none, m) => (-12, m)
    -- the allocator hands out zeroed pages
    | (some page, m) => match stepTables (zeroPage page m) pdir [(0, l0Index va), (1, l1Index va), (2, l2Index va)] with
      | (.error code, m) => (code, freePage page m)
      | (.ok l3, m) =>
        let d3 := m.peek l3 (l3Index va)
        if d3 &&& 1 ≠ 0 then (0, freePage page m)
        else if isDemandDesc d3 then (2, freePage page m)
        else (1, m.poke l3 (l3Index va) (faultDesc page))

def houseHandleUserFault (ram : Ram) (driver : ℕ → Bool) (spent : Bool) (pdir far : ℕ) (m : Memory) : ℤ × Memory :=
  if pageable ram driver pdir far then faultLocked spent pdir far m else (0, m)

section Step

variable {m : Memory} {r t i c : ℕ} {held : List ℕ} {js : List ℕ}

/-- One step down. -/
theorem stepTable_neutral (h : Paged m r held) (ht : Stands hwTable 3 m.mem {r} r js t) (hjs : js.length < 3)
    (hw : InWindow (js ++ [i])) :
    Neutral m (stepTable js.length m t i).2 r held ∧ ((stepTable js.length m t i).1 = .error (-12) ∨
      ∃ c, (stepTable js.length m t i).1 = .ok c ∧
        Stands hwTable 3 (stepTable js.length m t i).2.mem {r} r (js ++ [i]) c) := by
  have hi : i < 512 := hw.lt (by simp)
  obtain hzero | ⟨c, hdesc, -, ha, hb⟩ | ⟨htop, hblock, hhigh⟩ := h.plain ht hjs hw
  · -- nothing there: a table of zeros
    have hempty : m.peek t i &&& 1 = 0 := hzero
    cases hpool : m.pool with
    | nil =>
      have hrun : stepTable js.length m t i = (.error (-12), m) := by
        simp only [stepTable, hempty, allocPage, hpool, if_true]
      rw [hrun]
      exact ⟨.refl h, Or.inl rfl⟩
    | cons c rest =>
      have hin : c ∈ m.pool ++ held := by simp [hpool]
      have ha := h.forest.freeAligned hin
      obtain ⟨-, hb⟩ := h.pool c (by simp [hpool])
      obtain ⟨-, -, hout⟩ := h.freeOf ht hi c (by simp [hpool])
      have hrun : stepTable js.length m t i =
          (.ok c, (zeroPage c { m with pool := rest }).poke t i (descFromTable c)) := by
        simp only [stepTable, hempty, allocPage, hpool, if_true, tableDesc_eq ha hb]
        simp only [Memory.peek, Memory.poke, Function.update_self, descFromTable_raw ha hb]
      have hword : ∀ j < 512, ((zeroPage c { m with pool := rest }).poke t i (descFromTable c)).mem (c + 8*j) = 0 := by
        intro j hj
        simp only [Memory.poke, zeroPage]
        rw [Function.update_of_ne (by omega), if_pos (by omega)]
      have hlink : ((zeroPage c { m with pool := rest }).poke t i (descFromTable c)).mem (t + 8*i) = descFromTable c :=
        Function.update_self _ _ _
      obtain ⟨hneutral, hstands⟩ := h.hang ht hjs hw (hwTable_invalid hzero) hpool rfl hlink (fun a hne ha' => by
        simp only [Memory.poke, zeroPage]
        rw [Function.update_of_ne hne, if_neg (by omega)]) (fun _ j hj => by
        rw [hword j hj]
        exact ⟨by decide, Or.inl (by decide)⟩) (fun va => by
        rw [translateSlot_invalid hzero]
        obtain ⟨k, hk⟩ : ∃ k, 3 - js.length = k + 1 := ⟨2 - js.length, by omega⟩
        rw [hk, translateSlot, hlink, hwTable_descFromTable ha hb]
        exact translateSlot_invalid (by rw [hword _ (indexAt_lt k va)]; decide))
      rw [hrun]
      exact ⟨hneutral, Or.inr ⟨c, rfl, hstands⟩⟩
  · obtain ⟨h1, h2⟩ := descFromTable_bits c
    have hrun : stepTable js.length m t i = (.ok c, m) := by
      have hpeek : m.peek t i = descFromTable c := hdesc
      simp only [stepTable, hpeek, h1, h2, and_false, if_false, descFromTable_raw ha hb]
    rw [hrun]
    refine ⟨.refl h, Or.inr ⟨c, rfl, ht.child hjs hi ?_⟩⟩
    rw [hdesc]
    exact hwTable_descFromTable ha hb
  · obtain ⟨h1, h2⟩ := and_three_block hblock
    have hne : js.length ≠ 0 := fun hnil => htop (List.length_eq_zero_iff.mp hnil)
    have hlevel : js.length = 1 ∨ js.length = 2 := by omega
    have hpos := h.table_pos ht hw.front
    have hslot : t + 8*i ≠ 0 := by omega
    have hpeek : m.peek t i = m.mem (t + 8*i) := rfl
    obtain ⟨-, hsplit⟩ | ⟨c, rest, m', hsplit, hs⟩ := vmSplitSlot_cases hlevel hslot hblock (h.freeOf ht hi)
    · have hrun : stepTable js.length m t i = (.error (-12), m) := by
        simp only [stepTable, hpeek, h1, h2, hne, hsplit, if_false, ne_eq, not_false_eq_true, true_and, if_true]
      rw [hrun]
      exact ⟨.refl h, Or.inl rfl⟩
    · have hin : c ∈ m.pool ++ held := by simp [hs.taken]
      have ha := h.forest.freeAligned hin
      obtain ⟨-, hb⟩ := h.pool c (by simp [hs.taken])
      have hrun : stepTable js.length m t i = (.ok c, m') := by
        have hpeek' : m'.peek t i = descFromTable c := hs.link
        simp only [stepTable, hpeek, h1, h2, hne, hsplit, if_false, ne_eq, not_false_eq_true, true_and, if_true, hpeek',
          descFromTable_raw ha hb]
      obtain ⟨hneutral, hstands⟩ := h.hang ht hjs hw (hwTable_block hblock) hs.taken hs.pool hs.link hs.other (fun hlt j hj => by
        obtain ⟨htype, -, haddr⟩ := splitEntry_spec hlevel hblock hj
        have hone : js.length = 1 := by omega
        rw [hs.parts j hj]
        rw [hone] at htype haddr ⊢
        refine ⟨hwTable_block htype, Or.inr (Or.inr ⟨not_false, htype, ?_⟩)⟩
        rw [high_bits_iff, haddr]
        exact Nat.mod_lt _ (by norm_num)) (fun va => (hs.translate_iff hlevel hblock (h.freeOf ht hi)).mpr hhigh)
      rw [hrun]
      exact ⟨hneutral, Or.inr ⟨c, rfl, hstands⟩⟩

/-- The way down. What it did before it stops does not show. -/
theorem stepTables_neutral {is : List (ℕ × ℕ)} (h : Paged m r held) (ht : Stands hwTable 3 m.mem {r} r js t)
    (hlevels : is.map Prod.fst = List.range' js.length is.length) (hlen : js.length + is.length ≤ 3)
    (hw : InWindow (js ++ is.map Prod.snd)) :
    Neutral m (stepTables m t is).2 r held ∧ ((stepTables m t is).1 = .error (-12) ∨
      ∃ c, (stepTables m t is).1 = .ok c ∧
        Stands hwTable 3 (stepTables m t is).2.mem {r} r (js ++ is.map Prod.snd) c) := by
  induction is generalizing m t js with
  | nil =>
    refine ⟨.refl h, Or.inr ⟨t, rfl, ?_⟩⟩
    rwa [List.map_nil, List.append_nil]
  | cons step is ih =>
    obtain ⟨level, i⟩ := step
    rw [List.map_cons, List.length_cons, List.range'_succ, List.cons.injEq] at hlevels
    obtain ⟨rfl, hlevels⟩ := hlevels
    rw [List.length_cons] at hlen
    rw [List.map_cons, List.append_cons] at hw ⊢
    obtain ⟨hneutral, hstep⟩ := stepTable_neutral h ht (by omega) hw.front
    rw [stepTables]
    generalize stepTable js.length m t i = out at hneutral hstep
    obtain ⟨_ | c, m'⟩ := out
    · obtain hcode | ⟨c, hok, -⟩ := hstep
      · cases hcode
        exact ⟨hneutral, Or.inl rfl⟩
      · cases hok
    · obtain hcode | ⟨c', hok, hc⟩ := hstep
      · cases hcode
      · cases hok
        obtain ⟨hrest, hout⟩ := ih hneutral.paged hc (by rwa [List.length_append, List.length_singleton])
          (by rw [List.length_append, List.length_singleton]; omega) hw
        exact ⟨hneutral.trans hrest, hout⟩

end Step

section Fault

variable {m m' : Memory} {r page l3 far va va' : ℕ} {rest : List ℕ}

/-- The bits of the pager's page besides its type and address. -/
def userAttrs : Desc := faultFlags &&& attrMask

lemma indices_eq_iff (h : va < 2^48) (h' : va' < 2^48) : indices 3 va = indices 3 va' ↔ va / 4096 = va' / 4096 := by
  simp only [indices, indexAt, List.cons.injEq, and_true]
  norm_num
  omega

lemma output_faultDesc (ha : page % 4096 = 0) (hb : page < 2^48) :
    output 0 (faultDesc page) va = some ⟨page + va % 4096, userAttrs⟩ := by
  have hdesc := faultDesc_eq ha hb
  have haddr : (faultDesc page &&& mAddress).toNat = page := by
    rw [hdesc, address_flagBits _ _ (by decide), mAddress_ofNat ha hb, BitVec.toNat_ofNat, Nat.mod_eq_of_lt (by omega)]
  have htype : faultDesc page &&& 3 = 3 := by
    have := field_flagBits (BitVec.ofNat 64 page) faultFlags 0 3 (by decide)
    rw [hdesc]
    simpa [faultFlags] using this
  have hattrs : faultDesc page &&& attrMask = userAttrs := by
    have := field_flagBits (BitVec.ofNat 64 page) faultFlags 0 attrMask (by decide)
    rw [hdesc, userAttrs]
    simpa using this
  rw [output, if_pos ⟨by norm_num, htype⟩, outputAddress, haddr, hattrs]
  simp only [Option.some.injEq, Translation.mk.injEq, and_true]
  norm_num
  omega

/-- The page that is taken for the fault is no table, so that clearing it does not show. -/
lemma faultTaken_paged (h : Paged m r []) (hpool : m.pool = page :: rest) :
    Paged (faultTaken page rest m) r [page] ∧ (∀ va, translate (faultTaken page rest m) r va = translate m r va) ∧
      ∀ {a}, Apart m r a → Apart (faultTaken page rest m) r a ∧ (faultTaken page rest m).mem a = m.mem a := by
  have hf : Forest hwTable 3 m.mem {r} (page :: rest) := by
    have := h.forest
    rwa [List.append_nil, hpool] at this
  have hout : ∀ {a}, a < page ∨ page + 4096 ≤ a → (faultTaken page rest m).mem a = m.mem a := fun ha => if_neg (by omega)
  have hread : ∀ {r' js t i}, Stands hwTable 3 m.mem {r} r' js t → i < 512 →
      (faultTaken page rest m).mem (t + 8*i) = m.mem (t + 8*i) := by
    intro r' js t i ht hi
    refine hout (outside_page (hf.aligned ht) (hf.freeAligned List.mem_cons_self) hi ?_)
    rintro rfl
    exact hf.apart ht List.mem_cons_self
  have hstands : ∀ {r' js t}, Stands hwTable 3 (faultTaken page rest m).mem {r} r' js t ↔ Stands hwTable 3 m.mem {r} r' js t :=
    stands_congr fun ht _ hi => congrArg hwTable (hread ht hi)
  refine ⟨⟨?_, ?_, h.root, ?_⟩, ?_, ?_⟩
  · exact (hf.congr fun ht _ hi => congrArg hwTable (hread ht hi)).perm List.perm_append_comm
  · intro p hp
    exact h.pool p (by rw [hpool]; exact List.mem_cons_of_mem _ hp)
  · intro js t i ht hjs hw
    rw [hread (hstands.mp ht) (hw.lt (by simp))]
    exact h.plain (hstands.mp ht) hjs hw
  · intro va
    refine translateSlot_congr fun js q j hpre hq => ?_
    have hlen := hpre.length_le
    rw [List.length_append, List.length_singleton, indices_length] at hlen
    have hin : ∀ x ∈ js ++ [j], x < 512 := fun x hx => indices_lt (hpre.subset hx)
    exact hread ⟨rfl, fun x hx => hin x (by simp [hx]), by omega, hq⟩ (hin j (by simp))
  · intro a ha
    refine ⟨⟨fun p hp => ha.pages p ?_, fun ht hw => ha.tables (hstands.mp ht) hw⟩, hout (ha.pages page (by simp [hpool]))⟩
    rw [hpool]
    exact List.mem_cons_of_mem _ hp

/-- A page is mapped: one slot of a lowest table is written. -/
lemma paged_map (h : Paged m r [page]) (ht : Stands hwTable 3 m.mem {r} r (path va) l3) (hb : page < 2^48) (hva : va < 2^48) :
    Paged (m.poke l3 (l3Index va) (faultDesc page)) r [] ∧ ∀ va' < 2^48,
      translate (m.poke l3 (l3Index va) (faultDesc page)) r va' =
        if va' / 4096 = va / 4096 then some ⟨page + va' % 4096, userAttrs⟩ else translate m r va' := by
  have hi := l3Index_lt va
  have hfull : (path va).length = 3 := rfl
  have ha := h.forest.freeAligned (List.mem_append_right _ List.mem_cons_self)
  have hother : ∀ {r' js q i}, Stands hwTable 3 m.mem {r} r' js q → i < 512 → ¬ (q = l3 ∧ i = l3Index va) →
      (m.poke l3 (l3Index va) (faultDesc page)).mem (q + 8*i) = m.mem (q + 8*i) := by
    intro r' js q i hq hi' hne
    exact Function.update_of_ne (word_ne (h.forest.aligned hq) (h.forest.aligned ht) hi' hi (by tauto)) _ _
  have hinner : ∀ {r' js q i}, Stands hwTable 3 m.mem {r} r' js q → js.length < 3 → i < 512 →
      (m.poke l3 (l3Index va) (faultDesc page)).mem (q + 8*i) = m.mem (q + 8*i) := by
    intro r' js q i hq hlt hi'
    refine hother hq hi' ?_
    rintro ⟨rfl, -⟩
    have := (h.forest.unique hq ht).2
    rw [this, hfull] at hlt
    omega
  have hstands : ∀ {r' js q}, Stands hwTable 3 (m.poke l3 (l3Index va) (faultDesc page)).mem {r} r' js q ↔
      Stands hwTable 3 m.mem {r} r' js q := stands_congr fun hq hlt hi' => congrArg hwTable (hinner hq hlt hi')
  refine ⟨⟨?_, h.pool, h.root, ?_⟩, fun va' hva' => ?_⟩
  · rw [List.append_nil]
    exact (h.forest.subset subset_rfl (List.sublist_append_left _ _)).congr
      fun hq hlt hi' => congrArg hwTable (hinner hq hlt hi')
  · intro js q i hq hlt hw
    rw [hinner (hstands.mp hq) hlt (hw.lt (by simp))]
    exact h.plain (hstands.mp hq) hlt hw
  · have hchange : SlotChange m.mem (m.poke l3 (l3Index va) (faultDesc page)).mem {r} l3 (l3Index va) := ⟨hother⟩
    have hpath : path va ++ [l3Index va] = indices 3 va := rfl
    split_ifs with hsame
    · have hpre : path va ++ [l3Index va] <+: indices 3 va' := by
        rw [hpath, (indices_eq_iff hva' hva).mpr hsame]
      have hnew : (m.poke l3 (l3Index va) (faultDesc page)).mem (l3 + 8*l3Index va) = faultDesc page := Function.update_self _ _ _
      rw [VirtualMemory.translate, (hchange.inside h.forest ht hpre).2, hfull]
      change output 0 _ va' = _
      rw [hnew, output_faultDesc ha hb]
    · refine hchange.outside h.forest ht fun hpre => hsame ?_
      rw [hpath] at hpre
      exact (indices_eq_iff hva' hva).mp (hpre.eq_of_length (by simp)).symm

/-- Every page that was free is free, except for tables of the root. The page that the pager takes for the data is
the first one. -/
def Returned (m m' : Memory) (r : ℕ) : Prop :=
  m'.pool = m.pool ∨ ∃ page used rest, m.pool = page :: (used ++ rest) ∧ m'.pool = page :: rest ∧
    ∀ p ∈ used, ∃ js, Stands hwTable 3 m'.mem {r} r js p

/-- The page of `far` is mapped, on a page that was free and is zeroed. -/
structure Mapped (m m' : Memory) (r far page : ℕ) : Prop where
  fresh : page ∈ m.pool ∧ page ∉ m'.pool ∧ ∀ js, ¬ Stands hwTable 3 m'.mem {r} r js page
  zeroed : ∀ a, page ≤ a → a < page + 4096 → m'.mem a = 0
  before : translate m r far = none
  after : ∀ va < 2^48, translate m' r va =
    if va / 4096 = far / 4096 then some ⟨page + va % 4096, userAttrs⟩ else translate m r va

/-- All or nothing. -/
structure Atomic (m : Memory) (r far : ℕ) (out : ℤ × Memory) : Prop where
  paged : Paged out.2 r []
  frame : ∀ {a}, Apart m r a → out.2.mem a = m.mem a
  stopped : out.1 ≠ 1 → Returned m out.2 r ∧ ∀ va, translate out.2 r va = translate m r va
  mapped : out.1 = 1 → ∃ page, Mapped m out.2 r far page

lemma Atomic.of_same {code : ℤ} (h : Paged m r []) (hcode : code ≠ 1) : Atomic m r far (code, m) where
  paged := h
  frame _ := rfl
  stopped _ := ⟨Or.inl rfl, fun _ => rfl⟩
  mapped h1 := absurd h1 hcode

/-- The page went back. -/
lemma Atomic.of_neutral {code : ℤ} (h : Paged m r []) (hpool : m.pool = page :: rest)
    (hn : Neutral (faultTaken page rest m) m' r [page]) (hcode : code ≠ 1) : Atomic m r far (code, freePage page m') := by
  obtain ⟨-, hsame, hframe⟩ := faultTaken_paged h hpool
  obtain ⟨hpos, hb⟩ := h.pool page (by simp [hpool])
  obtain ⟨used, hused, htables⟩ := hn.taken
  refine ⟨hn.paged.give hpos hb, fun ha => ?_, fun _ => ⟨Or.inr ⟨page, used, m'.pool, ?_, rfl, htables⟩, fun va => ?_⟩,
    fun h1 => absurd h1 hcode⟩
  · obtain ⟨ha', heq⟩ := hframe ha
    exact (hn.frame ha').2.trans heq
  · rw [hpool, ← hused]
    rfl
  · exact (hn.same va).trans (hsame va)

/-- The page was mapped. -/
lemma Atomic.of_map (h : Paged m r []) (hpool : m.pool = page :: rest) (hn : Neutral (faultTaken page rest m) m' r [page])
    (hfar : far ≤ maxVAddr) (ht : Stands hwTable 3 m'.mem {r} r (path far) l3) (hnone : m'.peek l3 (l3Index far) &&& 1 = 0) :
    Atomic m r far (1, m'.poke l3 (l3Index far) (faultDesc page)) := by
  have hmax : maxVAddr = 0x1000000000 := rfl
  have hin : page ∈ m.pool := by simp [hpool]
  have hheld : page ∈ m'.pool ++ [page] := by simp
  obtain ⟨-, hsame, hframe⟩ := faultTaken_paged h hpool
  obtain ⟨-, hb⟩ := h.pool page hin
  obtain ⟨hpaged, hafter⟩ := paged_map hn.paged ht hb (by omega : far < 2^48)
  have hal := hn.paged.forest.aligned ht
  have hpa := hn.paged.forest.freeAligned hheld
  have hi := l3Index_lt far
  have hout := outside_page hal hpa hi fun heq => hn.paged.forest.apart ht (heq ▸ hheld)
  have hw : InWindow (path far ++ [l3Index far]) := ⟨far, hfar, List.prefix_rfl⟩
  have hlen : (path far).length = 3 := rfl
  refine ⟨hpaged, fun ha => ?_, fun h1 => absurd rfl h1, fun _ => ⟨page, ⟨hin, ?_, ?_⟩, fun a h1 h2 => ?_, ?_, fun va hva => ?_⟩⟩
  · obtain ⟨ha', heq⟩ := hframe ha
    obtain ⟨ha'', heq'⟩ := hn.frame ha'
    exact (Function.update_of_ne (ha''.tables ht hw) _ _).trans (heq'.trans heq)
  · have hnodup := hn.paged.forest.nodup
    rw [List.nodup_append] at hnodup
    exact fun hmem => hnodup.2.2 page hmem page (by simp) rfl
  · intro js hjs
    have hinner : ∀ {r' js q i}, Stands hwTable 3 m'.mem {r} r' js q → js.length < 3 → i < 512 →
        hwTable ((m'.poke l3 (l3Index far) (faultDesc page)).mem (q + 8*i)) = hwTable (m'.mem (q + 8*i)) :=
      fun hq hlt hi' => hn.paged.forest.leaf_write ht hlen hi _ hq hlt hi'
    exact hn.paged.forest.apart ((stands_congr hinner).mp hjs) hheld
  · have hne : a ≠ l3 + 8*l3Index far := by omega
    exact (Function.update_of_ne hne _ _).trans ((hn.free page hheld a h1 h2).trans (if_pos ⟨h1, h2⟩))
  · rw [← hsame, ← hn.same, VirtualMemory.translate,
      translateSlot_descend ht.reach (List.prefix_rfl : path far ++ [l3Index far] <+: indices 3 far)]
    exact translateSlot_invalid hnone
  · rw [hafter va hva, hn.same, hsame]

theorem faultLocked_atomic (h : Paged m r []) (hfar : far ≤ maxVAddr) (spent : Bool) :
    Atomic m r far (faultLocked spent r far m) := by
  have hmax : maxVAddr = 0x1000000000 := rfl
  have hindex : l0Index (far - far % 4096) = l0Index far ∧ l1Index (far - far % 4096) = l1Index far ∧
      l2Index (far - far % 4096) = l2Index far ∧ l3Index (far - far % 4096) = l3Index far := by
    unfold l0Index l1Index l2Index l3Index
    omega
  obtain ⟨h0, h1, h2, h3⟩ := hindex
  unfold faultLocked
  simp only [h0, h1, h2, h3]
  cases spent with
  | true => exact .of_same h (by decide)
  | false =>
    rw [if_neg Bool.false_ne_true]
    rcases hpool : m.pool with _ | ⟨page, rest⟩
    · simp only [allocPage, hpool]
      exact .of_same h (by decide)
    · simp only [allocPage, hpool]
      obtain ⟨hpaged, -, -⟩ := faultTaken_paged h hpool
      obtain ⟨hn, hwalk⟩ := @stepTables_neutral _ r r [page] [] [(0, l0Index far), (1, l1Index far), (2, l2Index far)] hpaged
        (stands_nil.mpr ⟨rfl, rfl⟩) rfl (by norm_num) ⟨far, hfar, List.prefix_append (path far) [l3Index far]⟩
      rw [faultTaken] at hn hwalk
      generalize stepTables (zeroPage page { m with pool := rest }) r _ = out at hn hwalk
      obtain ⟨code | l3, m'⟩ := out
      · obtain hcode | ⟨c, hok, -⟩ := hwalk
        · cases hcode
          exact .of_neutral h hpool hn (by decide)
        · cases hok
      · obtain hcode | ⟨c, hok, ht⟩ := hwalk
        · cases hcode
        · cases hok
          dsimp only
          split_ifs with hvalid hmark
          · exact .of_neutral h hpool hn (by decide)
          · exact .of_neutral h hpool hn (by decide)
          · exact .of_map h hpool hn hfar ht (by simpa using hvalid)

end Fault

/-- A fault maps the faulting page, on a fresh page of zeros, and changes no other translation. Or it is not handled
and changes none at all, and the page that was taken for it is free. -/
theorem fault_atomic {m : Memory} {r : ℕ} (h : Paged m r []) (ram : Ram) (driver : ℕ → Bool) (spent : Bool) (far : ℕ) :
    Atomic m r far (houseHandleUserFault ram driver spent r far m) := by
  unfold houseHandleUserFault
  split_ifs with hpg
  · refine faultLocked_atomic h ?_ spent
    simp only [pageable, Bool.and_eq_true, decide_eq_true_eq] at hpg
    exact hpg.1.1.2.2
  · exact .of_same h (by decide)

/-- An address space whose walks do not meet this root's tables translates as before. -/
theorem Atomic.other {m : Memory} {r far r' va : ℕ} {out : ℤ × Memory} (h : Atomic m r far out)
    (hapart : ∀ js q j, js ++ [j] <+: indices 3 va → walk hwTable m.mem r' js = some q → Apart m r (q + 8*j)) :
    translate out.2 r' va = translate m r' va :=
  translateSlot_congr fun js q j hpre hq => h.frame (hapart js q j hpre hq)

section Sample

/-- A fault under the sample machine's first root. -/
def sampleFault (far : ℕ) : ℤ × Memory :=
  houseHandleUserFault samplePlatform.toRam (fun _ => false) false 0x50000000 far (allocPageMap samplePlatform sampleBoot).2

/-- At a free address the page is mapped. In the kernel's RAM a block is split twice and the fault is not handled. -/
theorem fault_atomic_sample : (sampleFault 0x10000123).1 = 1 ∧
    (∃ page, Mapped (allocPageMap samplePlatform sampleBoot).2 (sampleFault 0x10000123).2 0x50000000 0x10000123 page) ∧
    (sampleFault 0x40000000).1 = 0 ∧
    (sampleFault 0x40000000).2.pool.length + 2 = (allocPageMap samplePlatform sampleBoot).2.pool.length ∧
    translate (sampleFault 0x40000000).2 0x50000000 0x40201234 =
      translate (allocPageMap samplePlatform sampleBoot).2 0x50000000 0x40201234 := by
  have hmapped : (sampleFault 0x10000123).1 = 1 := by decide +kernel
  have hsplit : (sampleFault 0x40000000).1 = 0 := by decide +kernel
  refine ⟨hmapped, (fault_atomic samplePaged _ _ _ _).mapped hmapped, hsplit, by decide +kernel, ?_⟩
  have hstop : (sampleFault 0x40000000).1 ≠ 1 := by
    rw [hsplit]
    decide
  exact ((fault_atomic samplePaged _ _ _ _).stopped hstop).2 0x40201234

end Sample

end Pager

end HouseKernel.Userspace
