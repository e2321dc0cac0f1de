import HouseKernel.DeviceTree.Scan

/-! The two scans for the RAM: one adds up the sizes of the banks, the other finds a bank by its number. They differ in
what they read of a bank and in what they keep. -/
namespace HouseKernel.DeviceTree

open HouseKernel.Lib HouseKernel.Lib.Reads

variable {α ε : Type}

structure MemNodes where
  depth : ℕ
  isMemory : ℕ → Bool
  addrCells : ℕ
  sizeCells : ℕ

/-- Whether a node is `memory` or `memory@...`. All seven bytes are read. -/
def isMemName (mem : ByteMem) (name : ℕ) : Reads Bool := do
  let n0 ← byte mem name
  let n1 ← byte mem (name+1)
  let n2 ← byte mem (name+2)
  let n3 ← byte mem (name+3)
  let n4 ← byte mem (name+4)
  let n5 ← byte mem (name+5)
  let n6 ← byte mem (name+6)
  pure (n0 = 0x6d ∧ n1 = 0x65 ∧ n2 = 0x6d ∧ n3 = 0x6f ∧ n4 = 0x72 ∧ n5 = 0x79 ∧ (n6 = 0 ∨ n6 = 0x40))

/-- A number of at most two cells. -/
def cellsAt (mem : ByteMem) (p cells : ℕ) : Reads ℕ := do
  if cells = 2 then
    let hi ← be32 mem p
    let lo ← be32 mem (p+4)
    pure (2^32*hi + lo)
  else if cells = 1 then be32 mem p
  else pure 0

/-- The size of the bank at `e`. -/
def sizeEntry (mem : ByteMem) (addrCells sizeCells e : ℕ) : Reads ℕ := cellsAt mem (e + addrCells*4) sizeCells

/-- The address and the size of the bank at `e`. -/
def bankEntry (mem : ByteMem) (addrCells sizeCells e : ℕ) : Reads (ℕ × ℕ) := do
  let addr ← cellsAt mem e addrCells
  let size ← cellsAt mem (e + addrCells*4) sizeCells
  pure (addr, size)

def entryTurn (read : ℕ → Reads ε) (add : α → ε → Option α) (entryBytes len : ℕ) (x : ℕ × α) :
    Reads ((ℕ × α) ⊕ Option α) := do
  if checkedAdd x.1 entryBytes ≤ len then
    match add x.2 (← read x.1) with
    | none => pure (.inr none)
    | some a => pure (.inl (x.1 + entryBytes, a))
  else pure (.inr (some x.2))

/-- Two cells at most are used of an address or a size. -/
def clampCells (v : ℕ) : ℕ := if v > 2 then 2 else v

/-- The cells that a property of the root sets. Both names are compared. -/
def readCells (mem : ByteMem) (s value : ℕ) (st : MemNodes) : Reads MemNodes := do
  let isAc ← startsWith mem s (cString "#address-cells")
  let isSc ← startsWith mem s (cString "#size-cells")
  if isAc then
    let v ← be32 mem value
    pure { st with addrCells := clampCells v }
  else if isSc then
    let v ← be32 mem value
    pure { st with sizeCells := clampCells v }
  else pure st

/-- Only properties of the root with one cell are looked at. -/
def readRootProp (mem : ByteMem) (sizeStrings s value len nameoff : ℕ) (st : MemNodes) : Reads MemNodes :=
  if st.depth = 1 ∧ nameoff < sizeStrings ∧ len = 4 then readCells mem s value st else pure st

/-- The banks of a `reg` property. -/
def readReg (read : ℕ → ℕ → ℕ → Reads ε) (add : α → ε → Option α) (value len : ℕ) (st : MemNodes) (acc : α) :
    Reads (Option α) := do
  let cells := st.addrCells + st.sizeCells
  if cells ≠ 0 ∧ cells ≤ 4 then
    loop (entryTurn (fun off => read st.addrCells st.sizeCells (value + off)) add (cells*4) len) (len + 1) (0, acc)
  else pure (some acc)

/-- `read` reads a bank with these cells, and `add` takes it in. -/
def memWalker (mem : ByteMem) (offStrings sizeStrings : ℕ) (read : ℕ → ℕ → ℕ → Reads ε) (add : α → ε → Option α) :
    Walker (MemNodes × α) where
  beginNode name x := do
    let (st, acc) := x
    let isMem ← isMemName mem name
    pure ({ st with depth := pushDepth st.depth, isMemory := pushFlag st.isMemory st.depth isMem }, acc)
  endNode x := ({ x.1 with depth := x.1.depth - 1 }, x.2)
  prop value len nameoff x := do
    let (st, acc) := x
    -- the sum wraps
    let s := (offStrings + nameoff) % 2^32
    let st ← readRootProp mem sizeStrings s value len nameoff st
    if topFlag st.isMemory st.depth ∧ nameoff < sizeStrings then
      if ← startsWith mem s (cString "reg") then
        match ← readReg read add value len st acc with
        | none => pure none
        | some acc => pure (some (st, acc))
      else pure (some (st, acc))
    else pure (some (st, acc))

def memNodes : MemNodes := ⟨0, fun _ => false, 2, 2⟩

/-- The banks of a blob, taken in one after the other. -/
def foldBanks (mem : ByteMem) (read : ℕ → ℕ → ℕ → Reads ε) (add : α → ε → Option α) (acc : α) : Reads (Option α) := do
  let totalsize ← be32 mem 4
  let offStruct ← be32 mem 8
  let offStrings ← be32 mem 12
  let sizeStrings ← be32 mem 32
  let sizeStruct ← be32 mem 36
  match ← scan (memWalker mem offStrings sizeStrings read add) mem totalsize (structEnd totalsize offStruct sizeStruct)
      offStruct (memNodes, acc) with
  | none => pure none
  | some (_, _, acc) => pure (some acc)

/-- The sum has 64 bits. -/
def addSize (total size : ℕ) : Option ℕ := if total + size < 2^64 then some (total + size) else none

def fdtGetRamBytes (mem : ByteMem) : Reads ℕ := do
  if ← fdtValid mem then
    match ← foldBanks mem (sizeEntry mem) addSize 0 with
    | none => pure 0
    | some total => pure total
  else pure 0

/-- The banks so far, and the one that is wanted. -/
structure BankAcc where
  count : ℕ
  found : Option (ℕ × ℕ)
  deriving DecidableEq, Repr

/-- The count saturates at the greatest number of 32 bits with a sign. -/
def addBank (want : ℤ) (acc : BankAcc) (bank : ℕ × ℕ) : Option BankAcc :=
  some ⟨if acc.count < 2^31 - 1 then acc.count + 1 else acc.count,
    if acc.count = want ∧ acc.found = none then some bank else acc.found⟩

def ramBankAt (mem : ByteMem) (want : ℤ) : Reads BankAcc := do
  match ← foldBanks mem (bankEntry mem) (addBank want) ⟨0, none⟩ with
  | none => pure ⟨0, none⟩
  | some acc => pure acc

def fdtRamBankCount (mem : ByteMem) : Reads ℕ := do
  if ← fdtValid mem then
    let acc ← ramBankAt mem (-1)
    pure acc.count
  else pure 0

/-- The base and the size of a bank, if there is one with this number. -/
def fdtGetRamBank (mem : ByteMem) (idx : ℤ) : Reads (Option (ℕ × ℕ)) := do
  if ← fdtValid mem then
    if idx < 0 then pure none
    else
      let acc ← ramBankAt mem idx
      pure acc.found
  else pure none

/-- Take in everything of a list; the first failure is the result. -/
def foldAll {β : Type} (add : α → ε → Option α) (f : β → ε) (acc : α) (l : List β) : Option α :=
  l.foldlM (fun a x => add a (f x)) acc

/-- Keep all banks. -/
def collect {β : Type} (l : List β) (x : β) : Option (List β) := some (l ++ [x])

section Fold

variable {β : Type} {add : α → ε → Option α} {f : β → ε} {acc a : α} {l l' : List β} {x : β}

@[simp] lemma foldAll_nil : foldAll add f acc [] = some acc := rfl

lemma foldAll_concat : foldAll add f acc (l ++ [x]) = (foldAll add f acc l).bind fun a => add a (f x) := by
  unfold foldAll
  rw [List.foldlM_append]
  cases List.foldlM (fun a x => add a (f x)) acc l with
  | none => rfl
  | some a => simp

/-- After a failure nothing is taken in. -/
lemma foldAll_front (h : foldAll add f acc l = none) (hpre : l <+: l') : foldAll add f acc l' = none := by
  obtain ⟨rest, rfl⟩ := hpre
  unfold foldAll at h ⊢
  rw [List.foldlM_append, h]
  rfl

end Fold

section Entries

variable {β : Type} {read : ℕ → Reads β} {read' : ℕ → Reads ε} {add : α → ε → Option α} {f : β → ε} {acc a : α} {l : List β}
  {entryBytes len : ℕ}

/-- The banks of a property are collected behind those before it. Each has at least four bytes. -/
lemma entries_collect (hread : ∀ off, ∃ x, (read off).val = some x) (hlen : len < 2^32 - 1) (hbytes : 4 ≤ entryBytes) :
    (loop (entryTurn read collect entryBytes len) (len + 1) (0, l)).Returns fun r =>
      ∃ l', r = some l' ∧ l <+: l' ∧ 4*l'.length ≤ 4*l.length + len := by
  have hturn : ∀ x : ℕ × List β, (l <+: x.2 ∧ 4*x.2.length ≤ 4*l.length + x.1 ∧ x.1 ≤ len) →
      (entryTurn read collect entryBytes len x).Returns fun r => r.elim
        (fun y => (l <+: y.2 ∧ 4*y.2.length ≤ 4*l.length + y.1 ∧ y.1 ≤ len) ∧ len - y.1 < len - x.1)
        fun r => ∃ l', r = some l' ∧ l <+: l' ∧ 4*l'.length ≤ 4*l.length + len := by
    rintro ⟨off, m⟩ ⟨hpre, hbound, hoff⟩
    obtain ⟨v, hv⟩ := hread off
    dsimp only at hpre hbound hoff
    simp only [entryTurn, checkedAdd_le hlen]
    split_ifs with hle
    · rw [Returns, val_bind_of hv]
      refine ⟨_, rfl, ⟨hpre.trans (List.prefix_append _ _), ?_, by dsimp only; omega⟩, by dsimp only; omega⟩
      rw [List.length_append, List.length_singleton]
      dsimp only
      omega
    · exact returns_pure ⟨m, rfl, hpre, by omega⟩
  exact loop_returns (fun x => len - x.1) hturn ⟨List.prefix_rfl, le_rfl, Nat.zero_le _⟩ (Nat.lt_succ_self len)

/-- What a turn of the collecting loop does. -/
lemma entryTurn_collect {off : ℕ} {r : (ℕ × List β) ⊕ Option (List β)}
    (h : (entryTurn read collect entryBytes len (off, l)).val = some r) :
    (checkedAdd off entryBytes ≤ len ∧ ∃ x, (read off).val = some x ∧ r = .inl (off + entryBytes, l ++ [x])) ∨
      (¬ checkedAdd off entryBytes ≤ len ∧ r = .inr (some l)) := by
  simp only [entryTurn] at h
  split_ifs at h with hle
  · obtain ⟨x, hx, h⟩ := val_bind_some.mp h
    exact Or.inl ⟨hle, x, hx, (Option.some.inj h).symm⟩
  · exact Or.inr ⟨hle, (Option.some.inj h).symm⟩

/-- Collecting banks next to taking them in at once. -/
lemma entries_sim (hread : ∀ off x, (read off).val = some x → (read' off).val = some (f x)) {n : ℕ} {l₀ : List β}
    {r : Option (List β)} (hl : foldAll add f acc l₀ = some a)
    (h : (loop (entryTurn read collect entryBytes len) n (0, l₀)).val = some r) :
    (loop (entryTurn read' add entryBytes len) n (0, a)).Returns fun r' => ∃ l, r = some l ∧ r' = foldAll add f acc l := by
  refine loop_sim (fun x y => x.1 = y.1 ∧ foldAll add f acc x.2 = some y.2) (fun x d => d = none ∧ foldAll add f acc x.2 = none)
    (fun r r' => ∃ l, r = some l ∧ r' = foldAll add f acc l) ?_ ?_ ⟨rfl, hl⟩ h
  · rintro ⟨off, l⟩ ⟨_, c⟩ r ⟨rfl, hc⟩ hr
    obtain ⟨hle, x, hx, rfl⟩ | ⟨hle, rfl⟩ := entryTurn_collect hr
    · have hadd : foldAll add f acc (l ++ [x]) = add c (f x) := by rw [foldAll_concat, hc, Option.bind_some]
      simp only [entryTurn, if_pos hle]
      rw [Returns, val_bind_of (hread _ _ hx)]
      cases hstep : add c (f x) with
      | none => exact ⟨_, rfl, rfl, hadd.trans hstep⟩
      | some c' => exact ⟨_, rfl, rfl, hadd.trans hstep⟩
    · simp only [entryTurn, if_neg hle]
      exact returns_pure ⟨l, rfl, hc.symm⟩
  · rintro ⟨off, l⟩ d r ⟨rfl, hnone⟩ hr
    obtain ⟨-, x, -, rfl⟩ | ⟨-, rfl⟩ := entryTurn_collect hr
    · exact ⟨rfl, foldAll_front hnone (List.prefix_append _ _)⟩
    · exact ⟨l, rfl, hnone.symm⟩

end Entries

section Scans

variable {mem : ByteMem} {offStrings sizeStrings : ℕ}

lemma val_cellsAt (mem : ByteMem) (p cells : ℕ) : ∃ v, (cellsAt mem p cells).val = some v := by
  unfold cellsAt
  split_ifs
  · exact ⟨_, rfl⟩
  · exact ⟨_, rfl⟩
  · exact ⟨_, rfl⟩

lemma val_bankEntry (mem : ByteMem) (addrCells sizeCells e : ℕ) : ∃ x, (bankEntry mem addrCells sizeCells e).val = some x := by
  obtain ⟨addr, haddr⟩ := val_cellsAt mem e addrCells
  obtain ⟨size, hsize⟩ := val_cellsAt mem (e + addrCells*4) sizeCells
  rw [bankEntry, val_bind_of haddr, val_bind_of hsize]
  exact ⟨_, rfl⟩

lemma val_sizeEntry {addrCells sizeCells e : ℕ} {x : ℕ × ℕ} (h : (bankEntry mem addrCells sizeCells e).val = some x) :
    (sizeEntry mem addrCells sizeCells e).val = some x.2 := by
  obtain ⟨addr, -, h⟩ := val_bind_some.mp h
  obtain ⟨size, hsize, h⟩ := val_bind_some.mp h
  obtain rfl := Option.some.inj h
  exact hsize

lemma val_readCells (mem : ByteMem) (s value : ℕ) (st : MemNodes) : ∃ st', (readCells mem s value st).val = some st' := by
  rw [readCells, val_bind_of val_startsWith, val_bind_of val_startsWith]
  split_ifs
  · exact ⟨_, rfl⟩
  · exact ⟨_, rfl⟩
  · exact ⟨_, rfl⟩

lemma val_readRootProp (mem : ByteMem) (sizeStrings s value len nameoff : ℕ) (st : MemNodes) :
    ∃ st', (readRootProp mem sizeStrings s value len nameoff st).val = some st' := by
  unfold readRootProp
  split_ifs
  · exact val_readCells mem s value st
  · exact ⟨st, rfl⟩

variable {read : ℕ → ℕ → ℕ → Reads ε} {add : α → ε → Option α} {f : ℕ × ℕ → ε} {acc a : α} {l : List (ℕ × ℕ)}
  {value len nameoff : ℕ} {st : MemNodes}

/-- The banks of a property, collected. -/
lemma readReg_collect (hlen : len < 2^32 - 1) : (readReg (bankEntry mem) collect value len st l).Returns fun r =>
    ∃ l', r = some l' ∧ l <+: l' ∧ 4*l'.length ≤ 4*l.length + len := by
  simp only [readReg]
  split_ifs with hcells
  · exact entries_collect (fun off => val_bankEntry mem _ _ _) hlen (by omega)
  · exact returns_pure ⟨l, rfl, List.prefix_rfl, by omega⟩

lemma readReg_sim (hread : ∀ {a s e x}, (bankEntry mem a s e).val = some x → (read a s e).val = some (f x))
    {r : Option (List (ℕ × ℕ))} (hl : foldAll add f acc l = some a)
    (h : (readReg (bankEntry mem) collect value len st l).val = some r) :
    (readReg read add value len st a).Returns fun r' => ∃ l, r = some l ∧ r' = foldAll add f acc l := by
  simp only [readReg] at h ⊢
  split_ifs at h ⊢ with hcells
  · exact entries_sim (fun off x hx => hread hx) hl h
  · obtain rfl := Option.some.inj h
    exact returns_pure ⟨l, rfl, hl.symm⟩

/-- A property, collected. -/
lemma prop_collect (hlen : len < 2^32 - 1) :
    ((memWalker mem offStrings sizeStrings (bankEntry mem) collect).prop value len nameoff (st, l)).Returns fun r =>
      ∃ st' l', r = some (st', l') ∧ l <+: l' ∧ 4*l'.length ≤ 4*l.length + len := by
  obtain ⟨st', hst⟩ := val_readRootProp mem sizeStrings ((offStrings + nameoff) % 2^32) value len nameoff st
  simp only [memWalker]
  rw [Returns, val_bind_of hst]
  have hsame : ∃ st'' l', some (st', l) = some (st'', l') ∧ l <+: l' ∧ 4*l'.length ≤ 4*l.length + len :=
    ⟨st', l, rfl, List.prefix_rfl, by omega⟩
  split_ifs with hmem
  · rw [val_bind_of val_startsWith]
    split_ifs
    · obtain ⟨r, hr, l', rfl, hpre, hbound⟩ := @readReg_collect mem l value len st' hlen
      rw [val_bind_of hr]
      exact ⟨_, rfl, st', l', rfl, hpre, hbound⟩
    · exact ⟨_, rfl, hsame⟩
  · exact ⟨_, rfl, hsame⟩

lemma prop_sim (hread : ∀ {a s e x}, (bankEntry mem a s e).val = some x → (read a s e).val = some (f x))
    {r : Option (MemNodes × List (ℕ × ℕ))} (hl : foldAll add f acc l = some a)
    (h : ((memWalker mem offStrings sizeStrings (bankEntry mem) collect).prop value len nameoff (st, l)).val = some r) :
    ((memWalker mem offStrings sizeStrings read add).prop value len nameoff (st, a)).Returns fun r' =>
      ∃ st' l', r = some (st', l') ∧ r' = (foldAll add f acc l').map fun a => (st', a) := by
  obtain ⟨st', hst⟩ := val_readRootProp mem sizeStrings ((offStrings + nameoff) % 2^32) value len nameoff st
  simp only [memWalker] at h ⊢
  rw [val_bind_of hst] at h
  rw [Returns, val_bind_of hst]
  have hsame : some (st', a) = (foldAll add f acc l).map fun a => (st', a) := by rw [hl, Option.map_some]
  split_ifs at h ⊢ with hmem
  · rw [val_bind_of val_startsWith] at h ⊢
    split_ifs at h ⊢ with hreg
    · obtain ⟨r₁, hr₁, h⟩ := val_bind_some.mp h
      obtain ⟨r₂, hr₂, l', rfl, rfl⟩ := readReg_sim hread hl hr₁
      obtain rfl := Option.some.inj h
      rw [val_bind_of hr₂]
      refine ⟨_, ?_, st', l', rfl, rfl⟩
      cases foldAll add f acc l' with
      | none => rfl
      | some a' => rfl
    · obtain rfl := Option.some.inj h
      exact ⟨_, rfl, st', l, rfl, hsame⟩
  · obtain rfl := Option.some.inj h
    exact ⟨_, rfl, st', l, rfl, hsame⟩

lemma val_isMemName (mem : ByteMem) (name : ℕ) : ∃ b, (isMemName mem name).val = some b := ⟨_, rfl⟩

variable {t e p : ℕ} {l₀ : List (ℕ × ℕ)}

/-- The collecting scan only adds to its list, and four bytes of the blob give at most one bank. -/
lemma collect_keeps (ht : t ≤ fdtMaxSize) (he : e ≤ t) (c : ℕ) :
    Keeps (memWalker mem offStrings sizeStrings (bankEntry mem) collect) mem t e
      (fun p x => l₀ <+: x.2 ∧ 4*x.2.length ≤ p + c ∧ p ≤ t + 4 + c)
      (fun r => ∃ ok x, r = some (ok, x) ∧ l₀ <+: x.2 ∧ 4*x.2.length ≤ t + 4 + 2*c) where
  beginNode {p x n} h hp hname hin := by
    obtain ⟨st, l⟩ := x
    obtain ⟨hpre, hbound, -⟩ := h
    obtain ⟨b, hb⟩ := val_isMemName mem (p+4)
    obtain ⟨hle, hlt, -⟩ := le_align4 (p + 4 + (n + 1))
    simp only [memWalker]
    rw [Returns, val_bind_of hb]
    refine ⟨_, rfl, hpre, ?_, by omega⟩
    dsimp only at hbound ⊢
    omega
  endNode {p x} h hp := by
    obtain ⟨hpre, hbound, -⟩ := h
    refine ⟨hpre, ?_, by omega⟩
    dsimp only [memWalker]
    omega
  prop {p x len nameoff} h hp hoff := by
    obtain ⟨st, l⟩ := x
    obtain ⟨hpre, hbound, -⟩ := h
    have hmax : fdtMaxSize < 2^32 - 1 := by decide
    obtain ⟨hle, hlt, -⟩ := le_align4 (p + 12 + len)
    obtain ⟨r, hr, st', l', rfl, hpre', hbound'⟩ :=
      @prop_collect mem offStrings sizeStrings l (p+12) len nameoff st (by omega)
    refine ⟨_, hr, hpre.trans hpre', ?_, by omega⟩
    dsimp only at hbound ⊢
    omega
  nop {p x} h hp := ⟨h.1, by omega, by omega⟩
  halt {p x} ok h := ⟨ok, x, rfl, h.1, by omega⟩

/-- A turn that collects next to one that takes in at once. -/
lemma turn_sim (hread : ∀ {a s e x}, (bankEntry mem a s e).val = some x → (read a s e).val = some (f x))
    {r : (ℕ × MemNodes × List (ℕ × ℕ)) ⊕ Option (Bool × MemNodes × List (ℕ × ℕ))} (hl : foldAll add f acc l = some a)
    (h : (turn (memWalker mem offStrings sizeStrings (bankEntry mem) collect) mem t e (p, st, l)).val = some r) :
    (turn (memWalker mem offStrings sizeStrings read add) mem t e (p, st, a)).Returns fun r' => r.elim
      (fun x => r'.elim (fun y => x.1 = y.1 ∧ x.2.1 = y.2.1 ∧ foldAll add f acc x.2.2 = some y.2.2)
        fun d => d = none ∧ foldAll add f acc x.2.2 = none)
      fun b => r'.elim (fun _ => False) fun d => ∃ ok st l, b = some (ok, st, l) ∧
        d = (foldAll add f acc l).map fun a => (ok, st, a) := by
  obtain ⟨tok, htok, h⟩ := val_bind_some.mp h
  simp only [turn]
  rw [Returns, val_bind_of htok]
  cases tok with
  | beginNode next =>
    obtain ⟨b, hb⟩ := val_isMemName mem (p+4)
    simp only [memWalker, val_bind, hb, Option.bind_some, val_pure, Option.some.injEq] at h ⊢
    subst h
    exact ⟨_, rfl, rfl, rfl, hl⟩
  | endNode =>
    obtain rfl := Option.some.inj h
    exact ⟨_, rfl, rfl, rfl, hl⟩
  | prop value len nameoff =>
    obtain ⟨r₁, hr₁, h⟩ := val_bind_some.mp h
    obtain ⟨r₂, hr₂, st', l', rfl, rfl⟩ := prop_sim hread hl hr₁
    obtain rfl := Option.some.inj h
    dsimp only
    rw [val_bind_of hr₂]
    cases hfold : foldAll add f acc l' with
    | none => exact ⟨_, rfl, rfl, hfold⟩
    | some a' => exact ⟨_, rfl, rfl, rfl, hfold⟩
  | nop =>
    obtain rfl := Option.some.inj h
    exact ⟨_, rfl, rfl, rfl, hl⟩
  | halt ok =>
    obtain rfl := Option.some.inj h
    refine ⟨_, rfl, ok, st, l, rfl, ?_⟩
    rw [hl, Option.map_some]

/-- A scan that takes the banks in at once gives what they give one after the other. -/
theorem scan_sim (ht : t ≤ fdtMaxSize) (he : e ≤ t)
    (hread : ∀ {a s e x}, (bankEntry mem a s e).val = some x → (read a s e).val = some (f x))
    {b : Option (Bool × MemNodes × List (ℕ × ℕ))}
    (h : (scan (memWalker mem offStrings sizeStrings (bankEntry mem) collect) mem t e p (st, [])).val = some b) :
    (scan (memWalker mem offStrings sizeStrings read add) mem t e p (st, acc)).Returns fun d =>
      ∃ ok st l, b = some (ok, st, l) ∧ d = (foldAll add f acc l).map fun a => (ok, st, a) := by
  refine loop_sim (fun x y => x.1 = y.1 ∧ x.2.1 = y.2.1 ∧ foldAll add f acc x.2.2 = some y.2.2)
    (fun x d => d = none ∧ foldAll add f acc x.2.2 = none)
    (fun b d => ∃ ok st l, b = some (ok, st, l) ∧ d = (foldAll add f acc l).map fun a => (ok, st, a)) ?_ ?_ ⟨rfl, rfl, rfl⟩ h
  · rintro ⟨p, st, l⟩ ⟨_, _, a⟩ r ⟨rfl, rfl, hl⟩ hr
    exact turn_sim hread hl hr
  · rintro ⟨p, st, l⟩ d r ⟨rfl, hnone⟩ hr
    -- the list only grows
    have hpre := ((@collect_keeps mem offStrings sizeStrings t e l ht he (4*l.length + p)).turn ht he
      ⟨List.prefix_rfl, by dsimp only; omega, by omega⟩).of_val hr
    cases r with
    | inl x => exact ⟨rfl, foldAll_front hnone hpre.1.1⟩
    | inr b =>
      obtain ⟨ok, x, rfl, hx, -⟩ := hpre
      refine ⟨ok, x.1, x.2, rfl, ?_⟩
      rw [foldAll_front hnone hx]
      rfl

/-- The banks of a blob. -/
theorem foldBanks_collect (h : Accepted mem) :
    (foldBanks mem (bankEntry mem) collect []).Returns fun r => ∃ l, r = some l ∧ l.length < 2^31 - 1 := by
  obtain ⟨-, hmax, hstruct, -⟩ := h.header
  have hsize : fdtMaxSize = 8 * 2^20 := rfl
  simp only [foldBanks, Returns, val_bind_of val_be32]
  obtain ⟨b, hb, ok, x, rfl, -, hlen⟩ := (@collect_keeps mem (be32At mem 12) (be32At mem 32) (be32At mem 4)
    (structEnd (be32At mem 4) (be32At mem 8) (be32At mem 36)) [] hmax (structEnd_le _ _ _) 0).scan hmax (structEnd_le _ _ _)
    (⟨List.prefix_rfl, Nat.zero_le _, by omega⟩ : [] <+: (memNodes, ([] : List (ℕ × ℕ))).2 ∧ _ ∧ be32At mem 8 ≤ _)
  rw [val_bind_of hb]
  exact ⟨_, rfl, x.2, rfl, by omega⟩

/-- What both scans do, in terms of the banks. -/
theorem foldBanks_eq (h : Accepted mem) (hl : (foldBanks mem (bankEntry mem) collect []).val = some (some l))
    (hread : ∀ {a s e x}, (bankEntry mem a s e).val = some x → (read a s e).val = some (f x)) :
    (foldBanks mem read add acc).val = some (foldAll add f acc l) := by
  obtain ⟨-, hmax, -, -⟩ := h.header
  simp only [foldBanks, val_bind_of val_be32] at hl ⊢
  obtain ⟨b, hb, hl⟩ := val_bind_some.mp hl
  obtain ⟨d, hd, ok, st, l', rfl, rfl⟩ := @scan_sim _ _ mem _ _ read add f acc memNodes _ _ _ hmax (structEnd_le _ _ _) hread _ hb
  obtain rfl : l' = l := by simpa using hl
  rw [val_bind_of hd]
  cases foldAll add f acc l' with
  | none => rfl
  | some a => rfl

lemma foldAll_addSize {total : ℕ} (h : total < 2^64) : foldAll addSize Prod.snd total l =
    if total + (l.map Prod.snd).sum < 2^64 then some (total + (l.map Prod.snd).sum) else none := by
  induction l generalizing total with
  | nil => exact (if_pos h).symm
  | cons x l ih =>
    rw [foldAll, List.foldlM_cons, addSize, List.map_cons, List.sum_cons, ← Nat.add_assoc]
    by_cases hx : total + x.2 < 2^64
    · rw [if_pos hx]
      exact ih hx
    · rw [if_neg hx, if_neg (by omega)]
      rfl

/-- The count does not saturate, and the bank is found by its place. -/
lemma foldAll_addBank {want : ℤ} (h : l.length ≤ 2^31 - 1) : foldAll (addBank want) id ⟨0, none⟩ l =
    some ⟨l.length, if 0 ≤ want then l[want.toNat]? else none⟩ := by
  induction l using List.reverseRecOn with
  | nil => simp
  | append_singleton l x ih =>
    rw [List.length_append, List.length_singleton] at h
    rw [foldAll_concat, ih (by omega), Option.bind_some, addBank, List.length_append, List.length_singleton]
    simp only [id, if_pos (show l.length < 2^31 - 1 by omega), Option.some.injEq, BankAcc.mk.injEq, true_and]
    by_cases hneg : 0 ≤ want
    · obtain ⟨k, rfl⟩ := Int.eq_ofNat_of_zero_le hneg
      simp only [if_pos hneg, Int.toNat_natCast, Nat.cast_inj]
      obtain hk | rfl | hk := Nat.lt_trichotomy k l.length
      · have hsome : l[k]? ≠ none := by simpa using hk
        rw [if_neg (by tauto), List.getElem?_append_left hk]
      · simp
      · rw [if_neg (by omega), List.getElem?_eq_none (by omega), List.getElem?_eq_none (by simp; omega)]
    · have hne : (l.length : ℤ) ≠ want := by omega
      rw [if_neg (by tauto), if_neg hneg, if_neg hneg]

end Scans

/-- A node with a `reg` of two banks, 1 GiB and 2 GiB, each with an address of two cells and a size of one. -/
def sampleMemory : ByteMem := blobOf
  (bytes32 1 ++ padded [0] ++ bytes32 3 ++ bytes32 4 ++ bytes32 4 ++ bytes32 1 ++
    bytes32 1 ++ padded (cString "memory@40000000") ++ bytes32 3 ++ bytes32 24 ++ bytes32 0 ++
    bytes32 0 ++ bytes32 0x40000000 ++ bytes32 0x40000000 ++ bytes32 1 ++ bytes32 0 ++ bytes32 0x80000000 ++
    bytes32 2 ++ bytes32 2 ++ bytes32 9)
  (cString "reg" ++ cString "#size-cells")

end HouseKernel.DeviceTree
