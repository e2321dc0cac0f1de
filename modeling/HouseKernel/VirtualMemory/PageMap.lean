import HouseKernel.VirtualMemory.Descriptor

/-! Page maps: the walks of `H.VirtualMemory` over tables in physical memory. Memory is
addressed by the byte address of a word; an address space is named by the page of its L0
table. Index arithmetic on addresses is written with division and remainder. TLB maintenance
is left out. -/
namespace HouseKernel.VirtualMemory

def l0Index (v : ℕ) : ℕ := v / 2^39 % 512
def l1Index (v : ℕ) : ℕ := v / 2^30 % 512
def l2Index (v : ℕ) : ℕ := v / 2^21 % 512
def l3Index (v : ℕ) : ℕ := v / 2^12 % 512

def validVAddr (v : ℕ) : Bool := minVAddr ≤ v && v ≤ maxVAddr

/-- Physical memory and the free pages in the order in which they are handed out. -/
structure Memory where
  mem : ℕ → Desc
  pool : List ℕ

def Memory.peek (m : Memory) (t i : ℕ) : Desc := m.mem (t + 8*i)

def Memory.poke (m : Memory) (t i : ℕ) (d : Desc) : Memory := { m with mem := Function.update m.mem (t + 8*i) d }

def allocPage (m : Memory) : Option ℕ × Memory :=
  match m.pool with
  | [] => (none, m)
  | p :: rest => (some p, { m with pool := rest })

def freePage (p : ℕ) (m : Memory) : Memory := { m with pool := p :: m.pool }

def zeroPage (t : ℕ) (m : Memory) : Memory :=
  { m with mem := fun a => if t ≤ a ∧ a < t + 4096 then 0 else m.mem a }

/-- The L3 table of an address, by a walk that allocates nothing. -/
def l3Table (m : Memory) (l0 vaddr : ℕ) : Option ℕ :=
  match tableFromDesc (m.peek l0 (l0Index vaddr)) with
  | none => none
  | some l1 => match tableFromDesc (m.peek l1 (l1Index vaddr)) with
    | none => none
    | some l2 => tableFromDesc (m.peek l2 (l2Index vaddr))

def getPage (m : Memory) (l0 vaddr : ℕ) : Option PageInfo :=
  if validVAddr vaddr then
    match l3Table m l0 vaddr with
    | none => none
    | some l3 => descToPageInfo (m.peek l3 (l3Index vaddr))
  else none

/-- The table behind slot `i` of `t`, made from a zeroed page when the slot is not valid. -/
def ensureTable (m : Memory) (t i : ℕ) : Option ℕ × Memory :=
  match tableFromDesc (m.peek t i) with
  | some c => (some c, m)
  | none => match allocPage m with
    | (none, m) => (none, m)
    | (some c, m) => (some c, (zeroPage c m).poke t i (descFromTable c))

/-- Walk to the L3 table, allocating what is missing. A failure keeps what it allocated. -/
def ensureL3 (m : Memory) (l0 vaddr : ℕ) : Option ℕ × Memory :=
  if validVAddr vaddr then
    match ensureTable m l0 (l0Index vaddr) with
    | (none, m) => (none, m)
    | (some l1, m) => match ensureTable m l1 (l1Index vaddr) with
      | (none, m) => (none, m)
      | (some l2, m) => ensureTable m l2 (l2Index vaddr)
  else (none, m)

def isEmptyTable (m : Memory) (t : ℕ) : Bool := (List.range 512).all fun i => m.peek t i = 0

def setPage (m : Memory) (l0 vaddr : ℕ) : Option PageInfo → Bool × Memory
  | none =>
    if validVAddr vaddr then
      match tableFromDesc (m.peek l0 (l0Index vaddr)) with
      | none => (true, m)
      | some l1 => match tableFromDesc (m.peek l1 (l1Index vaddr)) with
        | none => (true, m)
        | some l2 => match tableFromDesc (m.peek l2 (l2Index vaddr)) with
          | none => (true, m)
          | some l3 => match descToPageInfo (m.peek l3 (l3Index vaddr)) with
            | none => (true, m)
            | some _ =>
              let m := m.poke l3 (l3Index vaddr) 0
              if isEmptyTable m l3 then (true, freePage l3 (m.poke l2 (l2Index vaddr) 0)) else (true, m)
    else (false, m)
  -- the walk of this case is that of `ensureL3`
  | some pinfo => match ensureL3 m l0 vaddr with
    | (none, m) => (false, m)
    | (some l3, m) => (true, m.poke l3 (l3Index vaddr) (pageInfoToDesc pinfo))

def setDemandPage (m : Memory) (l0 vaddr : ℕ) (writable : Bool) : Bool × Memory :=
  if validVAddr vaddr && vaddr % 4096 = 0 then
    match ensureL3 m l0 vaddr with
    | (none, m) => (false, m)
    | (some l3, m) => match descToPageInfo (m.peek l3 (l3Index vaddr)) with
      | some _ => (false, m)
      | none => (true, m.poke l3 (l3Index vaddr) (demandDesc writable))
  else (false, m)

def getDemandPage (m : Memory) (l0 vaddr : ℕ) : Option Bool :=
  if validVAddr vaddr && vaddr % 4096 = 0 then
    match l3Table m l0 vaddr with
    | none => none
    | some l3 =>
      let d3 := m.peek l3 (l3Index vaddr)
      match descToPageInfo d3 with
      | some _ => none
      | none => if isDemandDesc d3 then some (demandWritable d3) else none
  else none

def clearDemandPage (m : Memory) (l0 vaddr : ℕ) : Bool × Memory :=
  if validVAddr vaddr && vaddr % 4096 = 0 then
    match l3Table m l0 vaddr with
    | none => (true, m)
    | some l3 => match descToPageInfo (m.peek l3 (l3Index vaddr)) with
      | some _ => (true, m)
      | none => if isDemandDesc (m.peek l3 (l3Index vaddr)) then (true, m.poke l3 (l3Index vaddr) 0) else (true, m)
  else (false, m)

/-- Copy the kernel's L1 entries, all but the first. -/
def cloneKernelL1 (pf : Platform) (m : Memory) (l1 : ℕ) : Memory :=
  (List.range 512).foldl (fun m idx =>
    if pf.l1Low idx = 0 then m else if idx = 0 then m else m.poke l1 idx (pf.l1Low idx)) m

/-- The two 2 MiB device blocks. -/
def cloneKernelL2 (m : Memory) (l2 : ℕ) : Memory :=
  (m.poke l2 64 (0x08000000#64 ||| 1#64 <<< 0 ||| 1#64 <<< 10 ||| 3#64 <<< 8 ||| 1#64 <<< 2)).poke l2 72
    (0x09000000#64 ||| 1#64 <<< 0 ||| 1#64 <<< 10 ||| 3#64 <<< 8 ||| 1#64 <<< 2)

def allocPageMap (pf : Platform) (m : Memory) : Option ℕ × Memory :=
  match allocPage m with
  | (none, m) => (none, m)
  | (some l0, m) => match allocPage (zeroPage l0 m) with
    | (none, m) => (none, freePage l0 m)
    | (some l1, m) => match allocPage (cloneKernelL1 pf (zeroPage l1 m) l1) with
      | (none, m) => (none, freePage l0 (freePage l1 m))
      | (some l2, m) =>
        let m := cloneKernelL2 (zeroPage l2 m) l2
        (some l0, (m.poke l0 (l0Index minVAddr) (descFromTable l1)).poke l1 (l1Index minVAddr) (descFromTable l2))

/-- Free the tables of a root. Every RAM page that a leaf maps goes to `release`, every table
to `free`; memory is only read. -/
def freeUserTables {σ : Type*} (ram : Ram) (mem : ℕ → Desc) (free release : ℕ → σ → σ) (l0 : ℕ) (s : σ) : σ :=
  match userTable ram (mem (l0 + 8*l0Index minVAddr)) with
  | none => free l0 s
  | some l1 =>
    let s := (List.range 512).foldl (fun s i1 => match userTable ram (mem (l1 + 8*i1)) with
      | none => s
      | some l2 => free l2 ((List.range 512).foldl (fun s i2 => match userTable ram (mem (l2 + 8*i2)) with
        | none => s
        | some l3 => free l3 ((List.range 512).foldl (fun s i3 =>
          let d3 := mem (l3 + 8*i3)
          if (d3 &&& 1) ≠ 0 ∧ !isDeviceDesc d3 then release (d3 &&& mAddress).toNat s else s) s)) s)) s
    free l0 (free l1 s)

end HouseKernel.VirtualMemory
