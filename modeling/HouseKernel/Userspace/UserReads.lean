import HouseKernel.Userspace.ForkBreak
import HouseKernel.Userspace.RangeServing

/-! The supervisor reads a process's memory: the pages of the range are served first, and then each byte or word is
loaded through a walk that takes the whole leaf above the page offset for the address. -/
namespace HouseKernel.Userspace

open HouseKernel.Lib HouseKernel.Loader HouseKernel.VirtualMemory

/-- What a copy out of a process comes to: the data, an errno, or a data abort of the kernel. -/
inductive Copied (α : Type) where
  | data (a : α)
  | errno (rc : ℤ)
  | abort
  deriving DecidableEq, Repr

/-- The host address of a user address; zero stands for none. -/
def translateVaPdir (m : Memory) (pdir va : ℕ) : ℕ :=
  if pdir = 0 ∨ pdir % 4096 ≠ 0 then 0
  else match rawTable (m.peek pdir (l0Index va)) with
    | none => 0
    | some l1 => match rawTable (m.peek l1 (l1Index va)) with
      | none => 0
      | some l2 => match rawTable (m.peek l2 (l2Index va)) with
        | none => 0
        | some l3 =>
          let d3 := m.peek l3 (l3Index va)
          if d3 &&& 1 = 0 then 0 else ((d3 &&& ~~~0xFFF#64) ||| (BitVec.ofNat 64 va &&& 0xFFF#64)).toNat

-- The kernel runs on 48-bit addresses without tags, so that a load from above them aborts.
def hostByte (m : Memory) (pa : ℕ) : Option (BitVec 8) := if pa < 2^48 then some (loadByte m.mem pa) else none

def hostWord (m : Memory) (pa : ℕ) : Option Desc := if pa < 2^48 then some (m.mem pa) else none

/-- `n` units of `size` bytes from `va` on, each translated anew. -/
def copyUnits {α : Type} (load : Memory → ℕ → Option α) (m : Memory) (pdir size : ℕ) : ℕ → ℕ → Copied (List α)
  | _, 0 => .data []
  | va, n + 1 =>
    let pa := translateVaPdir m pdir va
    if pa = 0 then .errno (-14)
    else match load m pa with
      | none => .abort
      | some a => match copyUnits load m pdir size (va + size) n with
        | .data rest => .data (a :: rest)
        | failed => failed

/-- The window of the copy helpers. -/
def inUserWindow (va len : ℕ) : Bool := 0x01000000 ≤ va && va + len ≤ 0x100000000

def houseUserReadBytes (m : Memory) (pdir va len : ℕ) : Copied Bytes :=
  if pdir = 0 then .errno (-14)
  else if len > 65536 then .errno (-22)
  else if len = 0 then .data []
  else if va + len ≥ 2^64 ∨ !inUserWindow va len then .errno (-14)
  else copyUnits hostByte m pdir 1 va len

def houseUserRead (m : Memory) (pdir va nwords : ℕ) : Copied (List Desc) :=
  if pdir = 0 then .errno (-14)
  else if nwords > 8 then .errno (-22)
  else if va % 8 ≠ 0 then .errno (-22)
  else if va + nwords*8 ≥ 2^64 ∨ !inUserWindow va (nwords*8) then .errno (-14)
  else copyUnits hostWord m pdir 8 va nwords

/-- `n` bytes are left to scan, and `i` were scanned. -/
def strlenGo (m : Memory) (pdir va : ℕ) : ℕ → ℕ → Copied ℕ
  | 0, _ => .errno (-22)
  | n + 1, i =>
    let pa := translateVaPdir m pdir (va + i)
    if pa = 0 then .errno (-14)
    else match hostByte m pa with
      | none => .abort
      | some b => if b = 0 then .data i else strlenGo m pdir va n (i + 1)

def houseUserStrlen (m : Memory) (pdir va max : ℕ) : Copied ℕ :=
  if pdir = 0 then .errno (-14)
  else if max = 0 ∨ max > 4096 then .errno (-22)
  else if va + max ≥ 2^64 ∨ !inUserWindow va max then .errno (-14)
  else strlenGo m pdir va max 0

/-- Serve the pages of a string up to the first that holds its end; `none` when the kernel aborts. -/
def serveCString (allowed : ℕ → Bool) (pdir : ℕ) (table : DemandTable) (pd cur remaining : ℕ) (m : Memory) :
    Option DemandResult × Memory :=
  if remaining = 0 then (some .served, m)
  else match demandServe (allowed (cur - cur % 4096)) pdir table cur m with
    | (.served, m) => match houseUserStrlen m pd cur remaining with
      | .abort => (none, m)
      | .data _ => (some .served, m)
      | .errno rc =>
        if rc = -22 then (some .served, m)
        else
          let pageEnd := (cur - cur % 4096 + 4096) % 2^64
          let step := min remaining (pageEnd - cur)
          if step = 0 ∨ pageEnd ≤ cur then (some .miss, m)
          else serveCString allowed pdir table pd pageEnd (remaining - step) m
    | (other, m) => (some other, m)
  termination_by remaining
  decreasing_by omega

def demandErrno : DemandResult → ℤ
  | .noMem => -12
  | _ => -14

/-- The three readers answer `none` for a process that is gone. `allowed` gives the budget's answer for each page. -/
def World.readUserBytes (w : World) (allowed : ℕ → Bool) (p pd va ln : ℕ) : Option (Copied Bytes) × World :=
  match w.procs p with
  | none => (none, w)
  | some pr =>
    if ln > 65536 then (some (.errno (-22)), w)
    else if ln = 0 then (some (.data []), w)
    else match ensureRange allowed pr.pdir pr.demand va ln w.vm with
      | (.served, vm) => (some (houseUserReadBytes vm pd va ln), { w with vm := vm })
      | (failed, vm) => (some (.errno (demandErrno failed)), { w with vm := vm })

def World.readUser (w : World) (allowed : ℕ → Bool) (p pd va nw : ℕ) : Option (Copied (List Desc)) × World :=
  match w.procs p with
  | none => (none, w)
  | some pr =>
    if nw > 8 then (some (.errno (-22)), w)
    else if nw = 0 then (some (.data []), w)
    else match ensureRange allowed pr.pdir pr.demand va (nw*8) w.vm with
      | (.served, vm) => (some (houseUserRead vm pd va nw), { w with vm := vm })
      | (failed, vm) => (some (.errno (demandErrno failed)), { w with vm := vm })

/-- The characters of a path are its bytes. -/
def World.readUserCString (w : World) (allowed : ℕ → Bool) (p pd va mx : ℕ) : Option (Copied (List Char)) × World :=
  match w.procs p with
  | none => (none, w)
  | some pr =>
    if mx = 0 ∨ mx > 4096 then (some (.errno (-22)), w)
    else match serveCString allowed pr.pdir pr.demand pd va mx w.vm with
      | (none, vm) => (some .abort, { w with vm := vm })
      | (some .served, vm) => match houseUserStrlen vm pd va mx with
        | .abort => (some .abort, { w with vm := vm })
        | .errno rc => (some (.errno rc), { w with vm := vm })
        | .data ln =>
          if ln > mx then (some (.errno (-22)), { w with vm := vm })
          else match houseUserReadBytes vm pd va ln with
            | .abort => (some .abort, { w with vm := vm })
            | .errno rc => (some (.errno rc), { w with vm := vm })
            | .data bs => (some (.data (bs.map fun b => Char.ofNat b.toNat)), { w with vm := vm })
      | (some failed, vm) => (some (.errno (demandErrno failed)), { w with vm := vm })

/-- Where the process's own access to an address goes, with the memory after the fault that it may take. -/
def ownAccess (allowed : ℕ → Bool) (pdir : ℕ) (table : DemandTable) (m : Memory) (a : ℕ) : Option (ℕ × Memory) :=
  let page := a - a % 4096
  match getPage m pdir page with
  | some info => some (keyOf info + a % 4096, m)
  | none => match demandServe (allowed page) pdir table page m with
    | (.served, m) => (getPage m pdir page).map fun info => (keyOf info + a % 4096, m)
    | _ => none

def ownByte (allowed : ℕ → Bool) (pdir : ℕ) (table : DemandTable) (m : Memory) (a : ℕ) : Option (BitVec 8) :=
  (ownAccess allowed pdir table m a).map fun p => loadByte p.2.mem p.1

def ownWord (allowed : ℕ → Bool) (pdir : ℕ) (table : DemandTable) (m : Memory) (a : ℕ) : Option Desc :=
  (ownAccess allowed pdir table m a).map fun p => p.2.mem p.1

/-- A page from which the process can load: mapped on a page of RAM, which does not begin at zero, or marked and servable. -/
def Loadable (ram : Ram) (allowed : ℕ → Bool) (table : DemandTable) (m : Memory) (r page : ℕ) : Prop :=
  (∃ info, userPage ram m r page = some info ∧ keyOf info ≠ 0) ∨
    ((userMarker ram m r page).isSome ∧ (demandServe (allowed page) r table page m).1 = .served)

/-- All pages of a range in the window are loadable, and there is a free page for each that is not mapped yet. -/
structure LoadableRange (ram : Ram) (allowed : ℕ → Bool) (table : DemandTable) (m : Memory) (r va stop : ℕ) : Prop where
  low : 0x01000000 ≤ va
  high : stop ≤ 0x100000000
  pages : ∀ page ∈ pagesUpTo va stop, Loadable ram allowed table m r page
  room : ((pagesUpTo va stop).filter fun page => (userPage ram m r page).isNone).length ≤ m.pool.length
  ram : r ≠ 0 ∧ 0 ∉ m.pool

/-- No page of the range is mapped with a mark above its address: copy-on-write, or the execute-never bits that the EL1
pager sets. -/
def PlainRange (ram : Ram) (m : Memory) (r va stop : ℕ) : Prop :=
  ∀ page ∈ pagesUpTo va stop, ∀ info, userPage ram m r page = some info → leaf ram m r page >>> 48 = 0#64

section Translate

variable {pf : Platform} {roots : Set ℕ} {m : Memory} {r a : ℕ} {info : PageInfo}

lemma path_page (a : ℕ) : path (a - a % 4096) = path a ∧ l3Index (a - a % 4096) = l3Index a := by
  simp only [path, l0Index, l1Index, l2Index, l3Index, List.cons.injEq, and_true]
  omega

/-- Where a root has a table, the walk of the copy helpers finds its leaf. -/
lemma translate_of_walk (h : Spaces pf roots m) (hr : r ∈ roots) (h0 : r ≠ 0) {l3 : ℕ}
    (hwalk : walk (userTable pf.toRam) m.mem r (path (a - a % 4096)) = some l3) :
    translateVaPdir m r a = if leaf pf.toRam m r (a - a % 4096) &&& 1 = 0 then 0
      else ((leaf pf.toRam m r (a - a % 4096) &&& ~~~0xFFF#64) ||| (BitVec.ofNat 64 a &&& 0xFFF#64)).toNat := by
  rw [leaf, hwalk, (path_page a).2]
  rw [(path_page a).1] at hwalk
  have ht : TableAt pf.toRam m roots r [] r := stands_nil.mpr ⟨hr, rfl⟩
  have hlt := index_lt a
  simp only [path, List.mem_cons, List.not_mem_nil, or_false, forall_eq_or_imp, forall_eq] at hlt
  obtain ⟨l1, hl1, hwalk⟩ := Option.bind_eq_some_iff.mp hwalk
  obtain ⟨l2, hl2, hwalk⟩ := Option.bind_eq_some_iff.mp hwalk
  obtain ⟨l3', hl3, hwalk⟩ := Option.bind_eq_some_iff.mp hwalk
  obtain rfl : l3' = l3 := Option.some.inj hwalk
  have h1 := ht.child (by simp) hlt.1 hl1
  have h2 := h1.child (by simp) hlt.2.1 hl2
  have e1 := rawTable_of_pageTable (h.pageTable_eq ht (by simp) hlt.1 hl1)
  have e2 := rawTable_of_pageTable (h.pageTable_eq h1 (by simp) hlt.2.1 hl2)
  have e3 := rawTable_of_pageTable (h.pageTable_eq h2 (by simp) hlt.2.2 hl3)
  have hroot : ¬ (r = 0 ∨ r % 4096 ≠ 0) := not_or.mpr ⟨h0, not_not.mpr (h.forest.aligned ht)⟩
  simp only [translateVaPdir, if_neg hroot, Memory.peek, e1, e2, e3]

/-- What the copy helpers take for the address: the address of the descriptor, and what stands above it. -/
lemma raw_address (d : Desc) : d &&& ~~~0xFFF#64 = (d &&& mAddress) ||| (d >>> 48) <<< 48 := by
  have hmask : ∀ i < 64, mAddress.getLsbD i = (decide (12 ≤ i) && decide (i < 48)) := by decide
  have hpage : ∀ i < 64, (~~~0xFFF#64).getLsbD i = decide (12 ≤ i) := by decide
  apply BitVec.eq_of_getLsbD_eq
  intro i hi
  rw [BitVec.getLsbD_and, BitVec.getLsbD_or, BitVec.getLsbD_and, BitVec.getLsbD_shiftLeft, BitVec.getLsbD_ushiftRight,
    hmask i hi, hpage i hi]
  by_cases hhigh : 48 ≤ i
  · simp [hi, hhigh, show 12 ≤ i by omega, show ¬ i < 48 by omega]
  · simp [hi, show i < 48 by omega]

lemma low_offset (a : ℕ) : (BitVec.ofNat 64 a &&& 0xFFF#64).toNat = a % 4096 := by
  rw [BitVec.toNat_and, BitVec.toNat_ofNat, show (0xFFF#64).toNat = 2^12 - 1 by rfl, Nat.and_two_pow_sub_one_eq_mod]
  omega

/-- A leaf without marks above its address names its page. -/
lemma plain_address {d : Desc} (hd : descToPageInfo d = some info) (hplain : d >>> 48 = 0#64) (a : ℕ) :
    ((d &&& ~~~0xFFF#64) ||| (BitVec.ofNat 64 a &&& 0xFFF#64)).toNat = keyOf info + a % 4096 := by
  obtain ⟨-, -, hphys, hcanonical⟩ := descToPageInfo_physPage hd
  obtain ⟨hal, -⟩ := mAddress_bound hcanonical
  have hzero : (0#64 : Desc) <<< 48 = 0#64 := by decide
  rw [raw_address, hplain, hzero, BitVec.or_zero, ← hphys, BitVec.toNat_or, low_offset]
  obtain ⟨k, hk⟩ : ∃ k, info.physPage.toNat = 2^12 * k := ⟨info.physPage.toNat / 4096, by omega⟩
  rw [keyOf, hk]
  exact (Nat.two_pow_add_eq_or_of_lt (Nat.mod_lt _ (by norm_num)) k).symm

/-- A mark above the address takes the copy helpers out of the kernel's addresses. -/
lemma marked_address {d : Desc} (hmark : d >>> 48 ≠ 0#64) (a : ℕ) :
    2^48 ≤ ((d &&& ~~~0xFFF#64) ||| (BitVec.ofNat 64 a &&& 0xFFF#64)).toNat := by
  by_contra hlt
  apply hmark
  have hsmall : ((d &&& ~~~0xFFF#64) ||| (BitVec.ofNat 64 a &&& 0xFFF#64)) >>> 48 = 0#64 := by
    apply BitVec.eq_of_toNat_eq
    rw [BitVec.toNat_ushiftRight, Nat.shiftRight_eq_div_pow, Nat.div_eq_of_lt (by omega)]
    rfl
  have hmasks : (~~~0xFFF#64 : Desc) >>> 48 = (0xFFFF#64) ∧ ((0xFFF#64 : Desc) >>> 48) = 0#64 := by decide
  rw [BitVec.ushiftRight_or_distrib, BitVec.ushiftRight_and_distrib, BitVec.ushiftRight_and_distrib, hmasks.1, hmasks.2,
    BitVec.and_zero, BitVec.or_zero] at hsmall
  rw [← hsmall]
  apply BitVec.eq_of_getLsbD_eq
  intro i hi
  have hones : ∀ i < 64, (0xFFFF#64 : Desc).getLsbD i = decide (i < 16) := by decide
  rw [BitVec.getLsbD_and, hones i hi, BitVec.getLsbD_ushiftRight]
  by_cases h16 : i < 16
  · simp [h16]
  · rw [BitVec.getLsbD_of_ge _ _ (by omega)]
    rfl

/-- The load of one unit. -/
def fetch {α : Type} (load : Memory → ℕ → Option α) (m : Memory) (pdir va : ℕ) : Option α :=
  if translateVaPdir m pdir va = 0 then none else load m (translateVaPdir m pdir va)

/-- A copy yields data when every unit can be loaded. -/
theorem copyUnits_data {α : Type} {load : Memory → ℕ → Option α} {size va n : ℕ} {as : List α} :
    copyUnits load m r size va n = .data as ↔ as.map some = (List.range n).map fun i => fetch load m r (va + size*i) := by
  induction n generalizing va as with
  | zero => rw [copyUnits, Copied.data.injEq, List.range_zero, List.map_nil, List.map_eq_nil_iff, eq_comm]
  | succ n ih =>
    have hshift : ((List.range n).map fun i => fetch load m r (va + size*(i + 1))) =
        (List.range n).map fun i => fetch load m r (va + size + size*i) := by
      refine List.map_congr_left fun i _ => ?_
      congr 1
      ring
    rw [List.range_succ_eq_map, List.map_cons, List.map_map, Function.comp_def, hshift, copyUnits, Nat.mul_zero, Nat.add_zero]
    by_cases hpa : translateVaPdir m r va = 0
    · rw [if_pos hpa, fetch, if_pos hpa]
      refine iff_of_false (by simp) fun heq => ?_
      obtain ⟨_, _, -, hnone, -⟩ := List.map_eq_cons_iff.mp heq
      cases hnone
    · rw [if_neg hpa, fetch, if_neg hpa]
      cases hload : load m (translateVaPdir m r va) with
      | none =>
        refine iff_of_false (by simp) fun heq => ?_
        obtain ⟨_, _, -, hnone, -⟩ := List.map_eq_cons_iff.mp heq
        cases hnone
      | some a =>
        cases hrest : copyUnits load m r size (va + size) n with
        | data rest =>
          have hmap := ih.mp hrest
          rw [← hmap, Copied.data.injEq]
          constructor
          · rintro rfl
            rfl
          · intro heq
            cases as with
            | nil => cases heq
            | cons a' as =>
              rw [List.map_cons, List.cons.injEq] at heq
              rw [Option.some.inj heq.1, (Option.some_injective _).list_map heq.2]
        | errno rc =>
          refine iff_of_false (by simp) fun heq => ?_
          obtain ⟨_, rest, rfl, -, hmap⟩ := List.map_eq_cons_iff.mp heq
          rw [ih.mpr hmap] at hrest
          cases hrest
        | abort =>
          refine iff_of_false (by simp) fun heq => ?_
          obtain ⟨_, rest, rfl, -, hmap⟩ := List.map_eq_cons_iff.mp heq
          rw [ih.mpr hmap] at hrest
          cases hrest

lemma Ready.address (h : Spaces pf roots m) (hr : r ∈ roots) (h0 : r ≠ 0) {words : ℕ → Desc}
    (hready : Ready pf.toRam m r (a - a % 4096) words) :
    ∃ info, userPage pf.toRam m r (a - a % 4096) = some info ∧ translateVaPdir m r a = keyOf info + a % 4096 ∧
      keyOf info + a % 4096 ≠ 0 ∧ keyOf info + a % 4096 < 2^48 ∧ keyOf info % 4096 = 0 ∧
      ∀ o < 4096, m.mem (keyOf info + o) = words o := by
  obtain ⟨info, hpage, hkey, hplain, hwords⟩ := hready
  obtain ⟨l3, hwalk, hdesc⟩ := userPage_table hpage
  obtain ⟨hal, hlt⟩ := userPage_bound hpage
  have hleaf : descToPageInfo (leaf pf.toRam m r (a - a % 4096)) = some info := by rwa [leaf, hwalk]
  have hvalid : leaf pf.toRam m r (a - a % 4096) &&& 1 ≠ 0 := (bit_and_one _).mpr (descToPageInfo_physPage hleaf).1
  refine ⟨info, hpage, ?_, by omega, ?_, hal, hwords⟩
  · rw [translate_of_walk h hr h0 hwalk, if_neg hvalid, plain_address hleaf hplain]
  · unfold keyOf at hkey ⊢
    omega

lemma Ready.fetch_word (h : Spaces pf roots m) (hr : r ∈ roots) (h0 : r ≠ 0) {words : ℕ → Desc}
    (hready : Ready pf.toRam m r (a - a % 4096) words) : fetch hostWord m r a = some (words (a % 4096)) := by
  obtain ⟨info, -, haddr, hne, hlt, -, hwords⟩ := hready.address h hr h0
  rw [fetch, haddr, if_neg hne, hostWord, if_pos hlt, hwords _ (Nat.mod_lt _ (by norm_num))]

lemma loadByte_page {mem words : ℕ → Desc} {key : ℕ} (hkey : key % 4096 = 0) (h : ∀ o < 4096, mem (key + o) = words o)
    {o : ℕ} (ho : o < 4096) : loadByte mem (key + o) = loadByte words o := by
  have hword : key + o - (key + o) % 8 = key + (o - o % 8) := by omega
  have hplace : (key + o) % 8 = o % 8 := by omega
  rw [loadByte, loadByte, hword, hplace, h _ (by omega)]

lemma Ready.fetch_byte (h : Spaces pf roots m) (hr : r ∈ roots) (h0 : r ≠ 0) {words : ℕ → Desc}
    (hready : Ready pf.toRam m r (a - a % 4096) words) : fetch hostByte m r a = some (loadByte words (a % 4096)) := by
  obtain ⟨info, -, haddr, hne, hlt, hal, hwords⟩ := hready.address h hr h0
  rw [fetch, haddr, if_neg hne, hostByte, if_pos hlt, loadByte_page hal hwords (Nat.mod_lt _ (by norm_num))]

/-- What can be loaded from a mapped page shows that its leaf has no marks above the address. -/
lemma plain_of_fetch {α : Type} {load : Memory → ℕ → Option α} {x : α} (hload : ∀ pa, 2^48 ≤ pa → load m pa = none)
    (h : Spaces pf roots m) (hr : r ∈ roots) (h0 : r ≠ 0) (hpage : userPage pf.toRam m r (a - a % 4096) = some info)
    (hfetch : fetch load m r a = some x) : leaf pf.toRam m r (a - a % 4096) >>> 48 = 0#64 := by
  obtain ⟨l3, hwalk, hdesc⟩ := userPage_table hpage
  have hleaf : descToPageInfo (leaf pf.toRam m r (a - a % 4096)) = some info := by rwa [leaf, hwalk]
  have hvalid : leaf pf.toRam m r (a - a % 4096) &&& 1 ≠ 0 := (bit_and_one _).mpr (descToPageInfo_physPage hleaf).1
  by_contra hmark
  have haway := marked_address hmark a
  rw [fetch, translate_of_walk h hr h0 hwalk, if_neg hvalid, if_neg (by omega), hload _ haway] at hfetch
  cases hfetch

/-- A marked page has no host address yet. -/
lemma translate_marked (h : Spaces pf roots m) (hr : r ∈ roots) (h0 : r ≠ 0)
    (hmark : (userMarker pf.toRam m r (a - a % 4096)).isSome) : translateVaPdir m r a = 0 := by
  obtain ⟨w, hw⟩ := Option.isSome_iff_exists.mp hmark
  obtain ⟨hva, -, l3, hwalk, -⟩ := userMarker_table hw
  rw [translate_of_walk h hr h0 hwalk, if_pos]
  have hdemand : isDemandDesc (leaf pf.toRam m r (a - a % 4096)) = true := by
    by_contra hno
    rw [userMarker, userMarker_page hw] at hw
    simp [hno] at hw
  exact of_decide_eq_true (Bool.and_eq_true _ _ ▸ hdemand).1

end Translate

section Range

variable {pf : Platform} {roots : Set ℕ} {m : Memory} {r va stop : ℕ} {table : DemandTable} {allowed : ℕ → Bool}

lemma LoadableRange.pending (h : LoadableRange pf.toRam allowed table m r va stop) (hs : Spaces pf roots m) (hr : r ∈ roots) :
    Pending pf roots allowed table r (pagesUpTo va stop) m where
  spaces := hs
  aligned page hpage := (mem_pagesUpTo.mp hpage).1
  nodup := nodup_pagesUpTo va stop
  loadable page hpage := by
    obtain hmapped | ⟨hmark, hserved⟩ := h.pages page hpage
    · exact .inl hmapped
    · obtain ⟨w, hw⟩ := Option.isSome_iff_exists.mp hmark
      obtain ⟨_, fill, -, hallowed, hfill, -⟩ := (demandServe_marked hs hr (mem_pagesUpTo.mp hpage).1
        (Spaces.marker_user hs hr hmark) (userMarker_page hw) (allowed page) table).1 hserved
      exact .inr ⟨hmark, hallowed, by rw [hfill]; rfl⟩
  room := h.room
  zero := h.ram.2

/-- The process's own load, in terms of the words of the page. -/
lemma ownAccess_loadable (hs : Spaces pf roots m) (hr : r ∈ roots) {a : ℕ}
    (h : Loadable pf.toRam allowed table m r (a - a % 4096)) :
    ∃ key m', ownAccess allowed r table m a = some (key + a % 4096, m') ∧ key % 4096 = 0 ∧
      ∀ o < 4096, m'.mem (key + o) = pageWords pf.toRam table m r (a - a % 4096) o := by
  obtain ⟨info, hpage, -⟩ | ⟨hmark, hserved⟩ := h
  · obtain ⟨l3, hwalk, -⟩ := userPage_table hpage
    refine ⟨keyOf info, m, ?_, (userPage_bound hpage).1, fun o _ => by rw [pageWords, hpage]⟩
    simp only [ownAccess, getPage_of_walk hwalk, hpage]
  · obtain ⟨w, hw⟩ := Option.isSome_iff_exists.mp hmark
    have hnone := userMarker_page hw
    obtain ⟨hva, -, l3, hwalk, -⟩ := userMarker_table hw
    have ha : (a - a % 4096) % 4096 = 0 := by omega
    obtain ⟨_, fill, -, -, hfill, -, hfilled⟩ := (demandServe_marked hs hr ha (Spaces.marker_user hs hr hmark) hnone
      (allowed _) table).1 hserved
    have hwords := hfilled.words hs hr hfill ha hnone ha
    obtain ⟨pg, b, -, -, hself, -⟩ := hfilled.taken
    rcases hrun : demandServe (allowed (a - a % 4096)) r table (a - a % 4096) m with ⟨res, m'⟩
    rw [hrun] at hserved hself hwords
    obtain rfl : res = .served := hserved
    obtain ⟨l3', hwalk', -⟩ := userPage_table hself
    refine ⟨_, m', ?_, (userPage_bound hself).1, fun o ho => ?_⟩
    · simp only [ownAccess, getPage_of_walk hwalk, hnone, hrun, getPage_of_walk hwalk', hself, Option.map_some]
      rfl
    · have := hwords o ho
      rwa [pageWords, hself] at this

lemma ownByte_loadable (hs : Spaces pf roots m) (hr : r ∈ roots) {a : ℕ}
    (h : Loadable pf.toRam allowed table m r (a - a % 4096)) :
    ownByte allowed r table m a = some (loadByte (pageWords pf.toRam table m r (a - a % 4096)) (a % 4096)) := by
  obtain ⟨key, m', hown, hkey, hwords⟩ := ownAccess_loadable hs hr h
  rw [ownByte, hown, Option.map_some, loadByte_page hkey hwords (Nat.mod_lt _ (by norm_num))]

lemma ownWord_loadable (hs : Spaces pf roots m) (hr : r ∈ roots) {a : ℕ}
    (h : Loadable pf.toRam allowed table m r (a - a % 4096)) :
    ownWord allowed r table m a = some (pageWords pf.toRam table m r (a - a % 4096) (a % 4096)) := by
  obtain ⟨key, m', hown, hkey, hwords⟩ := ownAccess_loadable hs hr h
  rw [ownWord, hown, Option.map_some, hwords _ (Nat.mod_lt _ (by norm_num))]

lemma Loadable.user {page : ℕ} (hs : Spaces pf roots m) (hr : r ∈ roots) (h : Loadable pf.toRam allowed table m r page) :
    ¬ pf.kernelWindow page := by
  obtain ⟨info, hpage, -⟩ | ⟨hmark, -⟩ := h
  · exact hs.user hr hpage
  · exact Spaces.marker_user hs hr hmark

/-- A copy of `n` units after the range was served: it is what the process would load exactly when no mapped page of
the range carries a mark. -/
theorem copy_iff {α : Type} {load : Memory → ℕ → Option α} {own : ℕ → Option α} {value : (ℕ → Desc) → ℕ → α} {size n : ℕ}
    (h : LoadableRange pf.toRam allowed table m r va (va + size*n)) (hs : Spaces pf roots m) (hr : r ∈ roots) (hsize : 0 < size)
    (hfetch : ∀ {m' a words}, Spaces pf roots m' → Ready pf.toRam m' r (a - a % 4096) words →
      fetch load m' r a = some (value words (a % 4096)))
    (hown : ∀ {a}, Loadable pf.toRam allowed table m r (a - a % 4096) →
      own a = some (value (pageWords pf.toRam table m r (a - a % 4096)) (a % 4096)))
    (hhigh : ∀ m' pa, 2^48 ≤ pa → load m' pa = none)
    (hunits : ∀ page ∈ pagesUpTo va (va + size*n), ∃ i < n, va + size*i - (va + size*i) % 4096 = page) :
    (∃ m' as, serveEach allowed r table (pagesUpTo va (va + size*n)) m = (.served, m') ∧
      copyUnits load m' r size va n = .data as ∧ as.map some = (List.range n).map fun i => own (va + size*i)) ↔
    PlainRange pf.toRam m r va (va + size*n) := by
  constructor
  · rintro ⟨m', as, hserve, hcopy, -⟩ page hpage info hinfo
    have hserves := @serveEach_serves pf roots m r table allowed _ hs hr fun q hq =>
      ⟨(mem_pagesUpTo.mp hq).1, (h.pages q hq).user hs hr⟩
    rw [hserve] at hserves
    obtain ⟨i, hi, rfl⟩ := hunits page hpage
    have hmem : fetch load m' r (va + size*i) ∈ as.map some := by
      rw [copyUnits_data.mp hcopy]
      exact List.mem_map.mpr ⟨i, List.mem_range.mpr hi, rfl⟩
    obtain ⟨x, -, hx⟩ := List.mem_map.mp hmem
    rw [← hserves.kept hinfo]
    exact plain_of_fetch (hhigh m') hserves.spaces hr h.ram.1 (hserves.mapped hr hinfo) hx.symm
  · intro hplain
    obtain ⟨m', hserve, hserved, hready⟩ := (Serveable.mk (h.pending hs hr) hplain).all hr
    have hpages : ∀ i < n, va + size*i - (va + size*i) % 4096 ∈ pagesUpTo va (va + size*n) := by
      intro i hi
      have hlt : size*i < size*n := Nat.mul_lt_mul_of_pos_left hi hsize
      rw [mem_pagesUpTo]
      omega
    have hunit : ∀ i < n, fetch load m' r (va + size*i) = own (va + size*i) := by
      intro i hi
      rw [hfetch hserved.spaces (hready _ (hpages i hi)), hown (h.pages _ (hpages i hi))]
    refine ⟨m', (List.range n).map fun i => value (pageWords pf.toRam table m r (va + size*i - (va + size*i) % 4096))
      ((va + size*i) % 4096), hserve, ?_, ?_⟩
    · rw [copyUnits_data, List.map_map]
      refine List.map_congr_left fun i hi => ?_
      rw [hunit i (List.mem_range.mp hi), hown (h.pages _ (hpages i (List.mem_range.mp hi)))]
      rfl
    · rw [List.map_map]
      refine List.map_congr_left fun i hi => ?_
      rw [hown (h.pages _ (hpages i (List.mem_range.mp hi)))]
      rfl

end Range

section Scan

variable {pf : Platform} {roots : Set ℕ} {m m' : Memory} {r va cur last : ℕ} {table : DemandTable} {allowed : ℕ → Bool}

/-- The byte that a page holds at an address, or will hold once it is served. -/
def pageByte (ram : Ram) (table : DemandTable) (m : Memory) (r a : ℕ) : BitVec 8 :=
  loadByte (pageWords ram table m r (a - a % 4096)) (a % 4096)

/-- The string from `cur` on ends at `last`. -/
structure EndsAt (ram : Ram) (table : DemandTable) (m : Memory) (r cur last : ℕ) : Prop where
  before : ∀ a, cur ≤ a → a < last → pageByte ram table m r a ≠ 0
  stop : pageByte ram table m r last = 0

lemma ServedFrom.byte (h : ServedFrom pf roots table r m m') (a : ℕ) :
    pageByte pf.toRam table m' r a = pageByte pf.toRam table m r a := by
  have hwords := h.words (show (a - a % 4096) % 4096 = 0 by omega)
  rw [pageByte, pageByte, loadByte, loadByte, hwords _ (by omega)]

lemma EndsAt.served (hends : EndsAt pf.toRam table m r cur last) (h : ServedFrom pf roots table r m m') :
    EndsAt pf.toRam table m' r cur last :=
  ⟨fun a hlow hhigh => h.byte a ▸ hends.before a hlow hhigh, h.byte last ▸ hends.stop⟩

/-- A scan stops at a page that is not served yet, or at a marked one, or finds the end of the string. -/
theorem strlenGo_cases {n i : ℕ} (h : Pending pf roots allowed table r (pagesUpTo cur (last + 1)) m) (hr : r ∈ roots) (h0 : r ≠ 0)
    (hends : EndsAt pf.toRam table m r cur last) (hcur : cur ≤ va + i) (hlast : va + i ≤ last) (hn : last < va + i + n) :
    (strlenGo m r va n i = .errno (-14) ∧ ∃ a, va + i ≤ a ∧ a ≤ last ∧ userPage pf.toRam m r (a - a % 4096) = none) ∨
    (strlenGo m r va n i = .abort ∧ ∃ a info, va + i ≤ a ∧ a ≤ last ∧ userPage pf.toRam m r (a - a % 4096) = some info ∧
      leaf pf.toRam m r (a - a % 4096) >>> 48 ≠ 0#64) ∨
    (strlenGo m r va n i = .data (last - va) ∧ ∀ a, va + i ≤ a → a ≤ last →
      Ready pf.toRam m r (a - a % 4096) (pageWords pf.toRam table m r (a - a % 4096))) := by
  induction n generalizing i with
  | zero => omega
  | succ n ih =>
    have hmem : va + i - (va + i) % 4096 ∈ pagesUpTo cur (last + 1) := mem_pagesUpTo.mpr ⟨by omega, by omega, by omega, by omega⟩
    rw [strlenGo]
    cases hpage : userPage pf.toRam m r (va + i - (va + i) % 4096) with
    | none =>
      obtain ⟨info, hinfo, -⟩ | ⟨hmark, -⟩ := h.loadable _ hmem
      · rw [hpage] at hinfo
        cases hinfo
      · rw [translate_marked h.spaces hr h0 hmark]
        exact .inl ⟨rfl, va + i, le_rfl, hlast, hpage⟩
    | some info =>
      by_cases hplain : leaf pf.toRam m r (va + i - (va + i) % 4096) >>> 48 = 0#64
      · have hready : Ready pf.toRam m r (va + i - (va + i) % 4096) (pageWords pf.toRam table m r (va + i - (va + i) % 4096)) :=
          ⟨info, hpage, h.mapped hmem hpage, hplain, fun o _ => by rw [pageWords, hpage]⟩
        have hfetch := hready.fetch_byte h.spaces hr h0
        rw [fetch] at hfetch
        split_ifs at hfetch with hpa
        rw [if_neg hpa, hfetch]
        by_cases hnul : va + i = last
        · have hzero : loadByte (pageWords pf.toRam table m r (va + i - (va + i) % 4096)) ((va + i) % 4096) = 0 := by
            rw [hnul]
            exact hends.stop
          simp only [hzero, if_true]
          refine .inr (.inr ⟨by rw [← hnul, Nat.add_sub_cancel_left], fun a hlow hhigh => ?_⟩)
          rwa [show a = va + i by omega]
        · have hne : loadByte (pageWords pf.toRam table m r (va + i - (va + i) % 4096)) ((va + i) % 4096) ≠ 0 :=
            hends.before (va + i) hcur (by omega)
          simp only [if_neg hne]
          obtain ⟨hrun, a, h1, h2, h3⟩ | ⟨hrun, a, info', h1, h2, h3⟩ | ⟨hrun, hall⟩ :=
            @ih (i + 1) (by omega) (by omega) (by omega)
          · exact .inl ⟨hrun, a, by omega, h2, h3⟩
          · exact .inr (.inl ⟨hrun, a, info', by omega, h2, h3⟩)
          · refine .inr (.inr ⟨hrun, fun a hlow hhigh => ?_⟩)
            obtain rfl | hlater := Nat.eq_or_lt_of_le hlow
            · exact hready
            · exact hall a (by omega) hhigh
      · obtain ⟨l3, hwalk, hdesc⟩ := userPage_table hpage
        have hleaf : descToPageInfo (leaf pf.toRam m r (va + i - (va + i) % 4096)) = some info := by rwa [leaf, hwalk]
        have hvalid : leaf pf.toRam m r (va + i - (va + i) % 4096) &&& 1 ≠ 0 :=
          (bit_and_one _).mpr (descToPageInfo_physPage hleaf).1
        have haway := marked_address hplain (va + i)
        rw [translate_of_walk h.spaces hr h0 hwalk, if_neg hvalid, if_neg (by omega), hostByte, if_neg (by omega)]
        exact .inr (.inl ⟨rfl, va + i, info, le_rfl, hlast, hpage, hplain⟩)

lemma houseUserStrlen_eq {max : ℕ} (h0 : r ≠ 0) (hpos : 0 < max) (hmax : max ≤ 4096) (hlow : 0x01000000 ≤ va)
    (hhigh : va + max ≤ 0x100000000) : houseUserStrlen m r va max = strlenGo m r va max 0 := by
  have hwindow : ¬ (va + max ≥ 2^64 ∨ (!inUserWindow va max) = true) := by
    simp only [inUserWindow, not_or, Bool.not_eq_true', Bool.and_eq_false_iff, decide_eq_false_iff_not]
    omega
  rw [houseUserStrlen, if_neg h0, if_neg (by omega), if_neg hwindow]

lemma pagesUpTo_head (hlast : cur ≤ last) : pagesUpTo cur (last + 1) =
    (cur - cur % 4096) :: pagesUpTo (cur - cur % 4096 + 4096) (last + 1) := by
  rw [pagesUpTo_base (by omega), pagesUpTo_cons (by omega) (by omega)]

/-- The pages of a string are served up to its end. Without marks on the way there all of them are ready afterwards. -/
theorem serveCString_spec {remaining : ℕ} (h : Pending pf roots allowed table r (pagesUpTo cur (last + 1)) m) (hr : r ∈ roots)
    (h0 : r ≠ 0) (hends : EndsAt pf.toRam table m r cur last) (hlast : cur ≤ last) (hn : last < cur + remaining)
    (hmax : remaining ≤ 4096) (hlow : 0x01000000 ≤ cur) (hhigh : cur + remaining ≤ 0x100000000) :
    ∃ res m', serveCString allowed r table r cur remaining m = (res, m') ∧ ServedFrom pf roots table r m m' ∧
      Pending pf roots allowed table r (pagesUpTo cur (last + 1)) m' ∧
      (PlainRange pf.toRam m r cur (last + 1) → res = some .served ∧
        ∀ page ∈ pagesUpTo cur (last + 1), Ready pf.toRam m' r page (pageWords pf.toRam table m r page)) := by
  induction hk : remaining using Nat.strong_induction_on generalizing cur remaining m with
  | _ k ih =>
    subst hk
    have hhead := pagesUpTo_head hlast
    obtain ⟨res, m₁, hrun, hserved, hpending, hmapped, hother, hplain⟩ := Pending.step (hhead ▸ h) hr
    obtain ⟨info, hinfo⟩ := Option.isSome_iff_exists.mp hmapped
    have hkey := hpending.mapped List.mem_cons_self hinfo
    have hpage := hpending.aligned _ List.mem_cons_self
    have hnew := (List.nodup_cons.mp hpending.nodup).1
    have htail := hpending.tail hinfo
    rw [← hhead] at hpending
    rw [serveCString, if_neg (by omega), demandServe_page, hrun]
    -- what the marks of the range say of the first page and of the rest
    have hfirst : PlainRange pf.toRam m r cur (last + 1) → res = .served ∧
        Ready pf.toRam m₁ r (cur - cur % 4096) (pageWords pf.toRam table m r (cur - cur % 4096)) :=
      fun hall => hplain fun info hinfo => hall _ (hhead ▸ List.mem_cons_self) info hinfo
    have hrest : PlainRange pf.toRam m r cur (last + 1) → PlainRange pf.toRam m₁ r (cur - cur % 4096 + 4096) (last + 1) := by
      intro hall q hq info' hinfo'
      rw [userPage_congr (hother q hq)] at hinfo'
      rw [hother q hq]
      exact hall q (hhead ▸ List.mem_cons_of_mem _ hq) info' hinfo'
    cases res with
    | miss => exact ⟨_, m₁, rfl, hserved, hpending, fun hall => absurd (hfirst hall).1 (by simp)⟩
    | noMem => exact ⟨_, m₁, rfl, hserved, hpending, fun hall => absurd (hfirst hall).1 (by simp)⟩
    | served =>
      have hends₁ := hends.served hserved
      simp only [houseUserStrlen_eq h0 (show 0 < remaining by omega) hmax hlow hhigh]
      obtain ⟨hscan, a, ha1, ha2, hnone⟩ | ⟨hscan, a, info', ha1, ha2, hinfo', hmark⟩ | ⟨hscan, hall⟩ :=
        @strlenGo_cases pf roots m₁ r cur cur last table allowed remaining 0 hpending hr h0 hends₁ le_rfl hlast hn
      · -- a later page is not there yet
        have hlater : cur - cur % 4096 + 4096 ≤ a := by
          by_contra hnot
          rw [show a - a % 4096 = cur - cur % 4096 by omega, hinfo] at hnone
          cases hnone
        have hend : (cur - cur % 4096 + 4096) % 2^64 = cur - cur % 4096 + 4096 := Nat.mod_eq_of_lt (by omega)
        have hstep : min remaining (cur - cur % 4096 + 4096 - cur) = cur - cur % 4096 + 4096 - cur := by omega
        have hgo : ¬ (cur - cur % 4096 + 4096 - cur = 0 ∨ cur - cur % 4096 + 4096 ≤ cur) := by omega
        simp only [hscan, hend, hstep, if_neg hgo, show ¬ (-14 : ℤ) = -22 by norm_num, if_false]
        obtain ⟨res₂, m₂, hrun₂, hserved₂, hpending₂, hplain₂⟩ := @ih (remaining - (cur - cur % 4096 + 4096 - cur)) (by omega) m₁
          (cur - cur % 4096 + 4096) (remaining - (cur - cur % 4096 + 4096 - cur)) htail
          ⟨fun a hlow' hhigh' => hends₁.before a (by omega) hhigh', hends₁.stop⟩ (by omega) (by omega) (by omega) (by omega)
          (by omega) rfl
        refine ⟨res₂, m₂, hrun₂, hserved.trans hserved₂ hr, ?_, fun hall => ?_⟩
        · rw [hhead]
          exact hpending₂.cons (hserved₂.mapped hr hinfo) hkey hpage hnew
        · obtain ⟨rfl, hready₂⟩ := hplain₂ (hrest hall)
          refine ⟨rfl, fun q hq => ?_⟩
          obtain rfl | hq := List.mem_cons.mp (hhead ▸ hq)
          · exact (hfirst hall).2.served hserved₂ hr
          · obtain ⟨info', hinfo', hkey', hplain', hwords⟩ := hready₂ q hq
            exact ⟨info', hinfo', hkey', hplain', fun o ho => (hwords o ho).trans (hserved.words (htail.aligned q hq) o ho)⟩
      · -- a mark on a later page
        rw [Nat.add_zero] at ha1
        simp only [hscan]
        refine ⟨none, m₁, rfl, hserved, hpending, fun hall => absurd ?_ hmark⟩
        have hin : a - a % 4096 ∈ pagesUpTo cur (last + 1) := mem_pagesUpTo.mpr ⟨by omega, by omega, by omega, by omega⟩
        obtain heq | hin := List.mem_cons.mp (hhead ▸ hin)
        · obtain ⟨-, info'', -, -, hzero, -⟩ := hfirst hall
          rw [heq]
          exact hzero
        · exact hrest hall _ hin info' hinfo'
      · simp only [hscan]
        refine ⟨_, m₁, rfl, hserved, hpending, fun _ => ⟨rfl, fun q hq => ?_⟩⟩
        obtain ⟨hqa, hqlow, hqhigh, -⟩ := mem_pagesUpTo.mp hq
        have hready := hall (max cur q) (by omega) (by omega)
        rw [show max cur q - max cur q % 4096 = q by omega] at hready
        obtain ⟨info', hinfo', hkey', hplain', hwords⟩ := hready
        exact ⟨info', hinfo', hkey', hplain', fun o ho => (hwords o ho).trans (hserved.words hqa o ho)⟩

end Scan

section Readers

/-- The reader returns the bytes that the process itself would load. The page map that a caller passes on is the process's. -/
def World.ReadsBytes (w : World) (allowed : ℕ → Bool) (p : ℕ) (pr : Process) (va ln : ℕ) : Prop :=
  ∃ bs, (w.readUserBytes allowed p pr.pdir va ln).1 = some (.data bs) ∧
    bs.map some = (List.range ln).map fun i => ownByte allowed pr.pdir pr.demand w.vm (va + i)

/-- The same for words. -/
def World.ReadsWords (w : World) (allowed : ℕ → Bool) (p : ℕ) (pr : Process) (va nw : ℕ) : Prop :=
  ∃ ws, (w.readUser allowed p pr.pdir va nw).1 = some (.data ws) ∧
    ws.map some = (List.range nw).map fun i => ownWord allowed pr.pdir pr.demand w.vm (va + 8*i)

/-- The same for a path of `k` bytes. -/
def World.ReadsPath (w : World) (allowed : ℕ → Bool) (p : ℕ) (pr : Process) (va mx k : ℕ) : Prop :=
  ∃ bs : Bytes, (w.readUserCString allowed p pr.pdir va mx).1 = some (.data (bs.map fun b => Char.ofNat b.toNat)) ∧
    bs.map some = (List.range k).map fun i => ownByte allowed pr.pdir pr.demand w.vm (va + i)

variable {pf : Platform} {w : World} {allowed : ℕ → Bool} {p va : ℕ} {pr : Process}

theorem readUserBytes_iff {ln : ℕ} (hs : Spaces pf w.roots w.vm) (hpr : w.procs p = some pr) (hln : ln ≤ 65536)
    (h : LoadableRange pf.toRam allowed pr.demand w.vm pr.pdir va (va + ln)) :
    w.ReadsBytes allowed p pr va ln ↔ PlainRange pf.toRam w.vm pr.pdir va (va + ln) := by
  have hr := World.mem_roots hpr
  rw [World.ReadsBytes, World.readUserBytes, hpr]
  rcases Nat.eq_zero_or_pos ln with rfl | hpos
  · refine iff_of_true ⟨[], rfl, rfl⟩ fun page hpage => ?_
    have := (mem_pagesUpTo.mp hpage).2.2.2
    omega
  have hcopy := @copy_iff pf w.roots w.vm pr.pdir va pr.demand allowed _ hostByte
    (ownByte allowed pr.pdir pr.demand w.vm) loadByte 1 ln (by rwa [Nat.one_mul]) hs hr Nat.one_pos
    (fun hs' hready => hready.fetch_byte hs' hr h.ram.1) (fun hload => ownByte_loadable hs hr hload)
    (fun _ _ hpa => if_neg (by omega)) fun page hpage => by
      obtain ⟨ha, hlow, hhigh, -⟩ := mem_pagesUpTo.mp hpage
      exact ⟨max va page - va, by omega, by omega⟩
  simp only [Nat.one_mul] at hcopy
  rw [← hcopy, ← ensureRange_eq hpos hln h.high]
  simp only [if_neg (show ¬ ln > 65536 by omega), if_neg (show ¬ ln = 0 by omega)]
  have hread : ∀ m', houseUserReadBytes m' pr.pdir va ln = copyUnits hostByte m' pr.pdir 1 va ln := by
    intro m'
    have hlow := h.low
    have hhigh := h.high
    have hwindow : ¬ (va + ln ≥ 2^64 ∨ (!inUserWindow va ln) = true) := by
      simp only [inUserWindow, not_or, Bool.not_eq_true', Bool.and_eq_false_iff, decide_eq_false_iff_not]
      omega
    rw [houseUserReadBytes, if_neg h.ram.1, if_neg (by omega), if_neg (by omega), if_neg hwindow]
  rcases hrun : ensureRange allowed pr.pdir pr.demand va ln w.vm with ⟨_ | _ | _, m'⟩
  · simp only [hread]
    constructor
    · rintro ⟨bs, hbs, hown⟩
      exact ⟨m', bs, rfl, Option.some.inj hbs, hown⟩
    · rintro ⟨_, bs, heq, hbs, hown⟩
      obtain ⟨-, rfl⟩ := Prod.ext_iff.mp heq
      exact ⟨bs, congrArg some hbs, hown⟩
  · refine iff_of_false (by simp) ?_
    rintro ⟨_, _, heq, -⟩
    cases heq
  · refine iff_of_false (by simp) ?_
    rintro ⟨_, _, heq, -⟩
    cases heq

theorem readUser_iff {nw : ℕ} (hs : Spaces pf w.roots w.vm) (hpr : w.procs p = some pr) (hnw : nw ≤ 8) (hva : va % 8 = 0)
    (h : LoadableRange pf.toRam allowed pr.demand w.vm pr.pdir va (va + 8*nw)) :
    w.ReadsWords allowed p pr va nw ↔ PlainRange pf.toRam w.vm pr.pdir va (va + 8*nw) := by
  have hr := World.mem_roots hpr
  rw [World.ReadsWords, World.readUser, hpr]
  rcases Nat.eq_zero_or_pos nw with rfl | hpos
  · refine iff_of_true ⟨[], rfl, rfl⟩ fun page hpage => ?_
    have := (mem_pagesUpTo.mp hpage).2.2.2
    omega
  have hcopy := @copy_iff pf w.roots w.vm pr.pdir va pr.demand allowed _ hostWord
    (ownWord allowed pr.pdir pr.demand w.vm) (fun words o => words o) 8 nw h hs hr (by norm_num)
    (fun hs' hready => hready.fetch_word hs' hr h.ram.1) (fun hload => ownWord_loadable hs hr hload)
    (fun _ _ hpa => if_neg (by omega)) fun page hpage => by
      obtain ⟨ha, hlow, hhigh, -⟩ := mem_pagesUpTo.mp hpage
      exact ⟨(max va page - va) / 8, by omega, by omega⟩
  rw [← hcopy, ← ensureRange_eq (by omega) (by omega) h.high, Nat.mul_comm 8 nw]
  simp only [if_neg (show ¬ nw > 8 by omega), if_neg (show ¬ nw = 0 by omega)]
  have hread : ∀ m', houseUserRead m' pr.pdir va nw = copyUnits hostWord m' pr.pdir 8 va nw := by
    intro m'
    have hlow := h.low
    have hhigh := h.high
    have hwindow : ¬ (va + nw*8 ≥ 2^64 ∨ (!inUserWindow va (nw*8)) = true) := by
      simp only [inUserWindow, not_or, Bool.not_eq_true', Bool.and_eq_false_iff, decide_eq_false_iff_not]
      omega
    rw [houseUserRead, if_neg h.ram.1, if_neg (by omega), if_neg (by omega), if_neg hwindow]
  rcases hrun : ensureRange allowed pr.pdir pr.demand va (nw*8) w.vm with ⟨_ | _ | _, m'⟩
  · simp only [hread]
    constructor
    · rintro ⟨ws, hws, hown⟩
      exact ⟨m', ws, rfl, Option.some.inj hws, hown⟩
    · rintro ⟨_, ws, heq, hws, hown⟩
      obtain ⟨-, rfl⟩ := Prod.ext_iff.mp heq
      exact ⟨ws, congrArg some hws, hown⟩
  · refine iff_of_false (by simp) ?_
    rintro ⟨_, _, heq, -⟩
    cases heq
  · refine iff_of_false (by simp) ?_
    rintro ⟨_, _, heq, -⟩
    cases heq

/-- A path that ends within its bound: its pages are read up to its end. -/
theorem readUserCString_iff {mx k : ℕ} (hs : Spaces pf w.roots w.vm) (hpr : w.procs p = some pr) (hmx : mx ≤ 4096) (hk : k < mx)
    (hwindow : va + mx ≤ 0x100000000)
    (hbytes : ∀ i < k, ownByte allowed pr.pdir pr.demand w.vm (va + i) ≠ some 0)
    (hnul : ownByte allowed pr.pdir pr.demand w.vm (va + k) = some 0)
    (h : LoadableRange pf.toRam allowed pr.demand w.vm pr.pdir va (va + k + 1)) :
    w.ReadsPath allowed p pr va mx k ↔ PlainRange pf.toRam w.vm pr.pdir va (va + k + 1) := by
  have hr := World.mem_roots hpr
  have hlow := h.low
  have hown : ∀ a, va ≤ a → a ≤ va + k →
      ownByte allowed pr.pdir pr.demand w.vm a = some (pageByte pf.toRam pr.demand w.vm pr.pdir a) := by
    intro a ha1 ha2
    exact ownByte_loadable hs hr (h.pages _ (mem_pagesUpTo.mpr ⟨by omega, by omega, by omega, by omega⟩))
  have hends : EndsAt pf.toRam pr.demand w.vm pr.pdir va (va + k) := by
    refine ⟨fun a ha1 ha2 hzero => ?_, ?_⟩
    · have hbyte := hbytes (a - va) (by omega)
      rw [Nat.add_sub_cancel' ha1, hown a ha1 (by omega), hzero] at hbyte
      exact hbyte rfl
    · rw [hown _ (Nat.le_add_right _ _) le_rfl] at hnul
      exact Option.some.inj hnul
  obtain ⟨res, m', hserve, hserved, hpending, hplain⟩ :=
    @serveCString_spec pf w.roots w.vm pr.pdir va (va + k) pr.demand allowed mx
    (h.pending hs hr) hr h.ram.1 hends (by omega) (by omega) hmx hlow hwindow
  have hscan := @strlenGo_cases pf w.roots m' pr.pdir va va (va + k) pr.demand allowed mx 0 hpending hr h.ram.1
    (hends.served hserved) le_rfl (by omega) (by omega)
  rw [World.ReadsPath, World.readUserCString, hpr]
  simp only [if_neg (show ¬ (mx = 0 ∨ mx > 4096) by omega), hserve,
    houseUserStrlen_eq h.ram.1 (show 0 < mx by omega) hmx hlow hwindow]
  constructor
  · rintro ⟨bs, hbs, -⟩
    obtain ⟨hrun, -⟩ | ⟨hrun, -⟩ | ⟨-, hall⟩ := hscan
    · rcases res with _ | _ | _ | _ <;> simp [hrun] at hbs
    · rcases res with _ | _ | _ | _ <;> simp [hrun] at hbs
    · intro page hpage info hinfo
      obtain ⟨ha, hqlow, hqhigh, -⟩ := mem_pagesUpTo.mp hpage
      obtain ⟨-, -, -, hzero, -⟩ := hall (max va page) (by omega) (by omega)
      rw [show max va page - max va page % 4096 = page by omega, hserved.kept hinfo] at hzero
      exact hzero
  · intro hall
    obtain ⟨rfl, hready⟩ := hplain hall
    obtain ⟨-, a, ha1, ha2, hnone⟩ | ⟨-, a, info, ha1, ha2, hinfo, hmark⟩ | ⟨hrun, hpages⟩ := hscan
    · obtain ⟨info, hinfo, -⟩ := hready (a - a % 4096) (mem_pagesUpTo.mpr ⟨by omega, by omega, by omega, by omega⟩)
      rw [hnone] at hinfo
      cases hinfo
    · obtain ⟨info', -, -, hzero, -⟩ := hready (a - a % 4096) (mem_pagesUpTo.mpr ⟨by omega, by omega, by omega, by omega⟩)
      exact absurd hzero hmark
    · have hbyte : ∀ i < k, fetch hostByte m' pr.pdir (va + 1*i) = ownByte allowed pr.pdir pr.demand w.vm (va + i) := by
        intro i hi
        have hreadyAt := hpages (va + i) (by omega) (by omega)
        rw [Nat.one_mul, hreadyAt.fetch_byte hserved.spaces hr h.ram.1, hown _ (by omega) (by omega)]
        exact congrArg some (hserved.byte (va + i))
      have hvalues : ((List.range k).map fun i => pageByte pf.toRam pr.demand w.vm pr.pdir (va + i)).map some =
          (List.range k).map fun i => ownByte allowed pr.pdir pr.demand w.vm (va + i) := by
        rw [List.map_map]
        refine List.map_congr_left fun i hi => ?_
        have hik := List.mem_range.mp hi
        rw [hown _ (by omega) (by omega)]
        rfl
      refine ⟨(List.range k).map fun i => pageByte pf.toRam pr.demand w.vm pr.pdir (va + i), ?_, hvalues⟩
      have hcopy : copyUnits hostByte m' pr.pdir 1 va k = .data ((List.range k).map fun i =>
          pageByte pf.toRam pr.demand w.vm pr.pdir (va + i)) := by
        rw [copyUnits_data, hvalues]
        exact List.map_congr_left fun i hi => (hbyte i (List.mem_range.mp hi)).symm
      have hread : houseUserReadBytes m' pr.pdir va k = .data ((List.range k).map fun i =>
          pageByte pf.toRam pr.demand w.vm pr.pdir (va + i)) := by
        rcases Nat.eq_zero_or_pos k with rfl | hpos
        · rw [houseUserReadBytes, if_neg h.ram.1, if_neg (by omega), if_pos rfl]
          rfl
        · have hhigh := h.high
          have hin : ¬ (va + k ≥ 2^64 ∨ (!inUserWindow va k) = true) := by
            simp only [inUserWindow, not_or, Bool.not_eq_true', Bool.and_eq_false_iff, decide_eq_false_iff_not]
            omega
          rw [houseUserReadBytes, if_neg h.ram.1, if_neg (by omega), if_neg (by omega), if_neg hin, hcopy]
      simp only [hrun, Nat.add_sub_cancel_left, hread, if_neg (show ¬ k > mx by omega)]

/-- Within the bounds that the readers take and the trap gates check, a range from which the process can load is read as
the process would read it, exactly when no mapped page of it carries a mark above its address. -/
theorem user_reads_iff (hs : Spaces pf w.roots w.vm) (hpr : w.procs p = some pr) :
    (∀ ln ≤ 65536, LoadableRange pf.toRam allowed pr.demand w.vm pr.pdir va (va + ln) →
      (w.ReadsBytes allowed p pr va ln ↔ PlainRange pf.toRam w.vm pr.pdir va (va + ln))) ∧
    (∀ nw ≤ 8, va % 8 = 0 → LoadableRange pf.toRam allowed pr.demand w.vm pr.pdir va (va + 8*nw) →
      (w.ReadsWords allowed p pr va nw ↔ PlainRange pf.toRam w.vm pr.pdir va (va + 8*nw))) ∧
    ∀ mx ≤ 4096, ∀ k < mx, va + mx ≤ 0x100000000 →
      (∀ i < k, ownByte allowed pr.pdir pr.demand w.vm (va + i) ≠ some 0) →
      ownByte allowed pr.pdir pr.demand w.vm (va + k) = some 0 →
      LoadableRange pf.toRam allowed pr.demand w.vm pr.pdir va (va + k + 1) →
      (w.ReadsPath allowed p pr va mx k ↔ PlainRange pf.toRam w.vm pr.pdir va (va + k + 1)) :=
  ⟨fun _ hln h => readUserBytes_iff hs hpr hln h, fun _ hnw hva h => readUser_iff hs hpr hnw hva h,
    fun _ hmx _ hk hwindow hbytes hnul h => readUserCString_iff hs hpr hmx hk hwindow hbytes hnul h⟩

end Readers

section Sample

/-- Before a fork the page can be read. -/
theorem user_reads_iff_before :
    (lone sampleOne 0x50000000).ReadsBytes (fun _ => true) 1 ⟨0x50000000, 0x1001000, []⟩ 0x1000000 16 := by
  obtain ⟨hgood, honly⟩ := sampleOne_good
  have hpages : pagesUpTo 0x1000000 (0x1000000 + 16) = [0x1000000] := by decide
  have hpage := honly.1
  rw [World.page, lone_procs, Option.bind_some] at hpage
  have hload : LoadableRange samplePlatform.toRam (fun _ => true) [] (lone sampleOne 0x50000000).vm 0x50000000 0x1000000
      (0x1000000 + 16) := by
    refine ⟨by decide, by decide, ?_, ?_, by decide, by decide +kernel⟩
    · rw [hpages]
      exact List.forall_mem_singleton.mpr (.inl ⟨_, hpage, by decide⟩)
    · rw [hpages, List.filter_cons_of_neg (by simp [hpage])]
      exact Nat.zero_le _
  refine ((user_reads_iff hgood.spaces (lone_procs _ _)).1 16 (by decide) hload).mpr ?_
  rw [PlainRange, hpages]
  exact List.forall_mem_singleton.mpr fun _ _ => by decide +kernel

/-- After a fork the same page is refused, in a process that can load from it as before. -/
theorem user_reads_refused_after_fork : ∃ t, forkStep samplePlatform (lone sampleOne 0x50000000) (.fork 1) = some t ∧
    t.procs 1 = some ⟨0x50000000, 0x1001000, []⟩ ∧
    (t.page samplePlatform 1 0x1000000).isSome ∧ (ownByte (fun _ => true) 0x50000000 [] t.vm 0x1000000).isSome ∧
    (t.readUserBytes (fun _ => true) 1 0x50000000 0x1000000 16).1 = some (.errno (-14)) := by
  obtain ⟨hgood, honly⟩ := sampleOne_good
  have hroom : 6 ≤ (lone sampleOne 0x50000000).vm.pool.length := by decide +kernel
  obtain ⟨t, hfork, -, hprocs, hpage, -⟩ := fork_only hgood (lone_procs _ _) rfl hroom (by decide) (by decide) honly
  have hcow := hpage
  rw [World.page, hprocs, Option.bind_some] at hcow
  obtain ⟨l3, hwalk, -⟩ := userPage_table hcow
  have hget : getPage t.vm 0x50000000 0x1000000 = some (sharedInfo ⟨0x5001E000#64, true, false, false, false⟩) :=
    (getPage_of_walk hwalk).trans hcow
  have hmiss : demandServe true 0x50000000 [] 0x1000000 t.vm = (.miss, t.vm) := by
    simp only [demandServe, show 0x1000000 - 0x1000000 % 4096 = 0x1000000 by rfl, hget]
    rfl
  refine ⟨t, hfork, hprocs, by rw [hpage]; rfl, ?_, ?_⟩
  · simp only [ownByte, ownAccess, show 0x1000000 - 0x1000000 % 4096 = 0x1000000 by rfl, hget]
    rfl
  · have hpages : pagesUpTo 0x1000000 (0x1000000 + 16) = [0x1000000] := by decide
    rw [World.readUserBytes, hprocs]
    simp only [ensureRange_eq (show 0 < 16 by decide) (by decide) (show 0x1000000 + 16 ≤ 0x100000000 by decide),
      hpages, serveEach,
      hmiss]
    rfl

end Sample

end HouseKernel.Userspace
