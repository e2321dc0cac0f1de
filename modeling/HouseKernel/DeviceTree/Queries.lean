import HouseKernel.DeviceTree.Scan

/-! Two more queries: the number of CPUs, and the window of the initial ramdisk. -/
namespace HouseKernel.DeviceTree

open HouseKernel.Lib HouseKernel.Lib.Reads

structure CpuState where
  depth : ℕ
  /-- The depth of the `cpus` node that is open, if one is. -/
  cpusDepth : Option ℕ
  count : ℕ
  deriving DecidableEq, Repr

/-- `cpu` or `cpu@...`, but not `cpu-map`. -/
def isCpuName (mem : ByteMem) (name : ℕ) : Reads Bool := do
  if ← startsWith mem name ((text "cpu").map toByte) then
    if (← byte mem (name+3)) = 0 then pure true
    else pure ((← byte mem (name+3)) = 0x40)
  else pure false

def cpuNode (mem : ByteMem) (name : ℕ) (st : CpuState) : Reads CpuState := do
  if st.depth < 16 then
    if ← startsWith mem name (cString "cpus") then pure { st with cpusDepth := some st.depth }
    else if st.cpusDepth.map (· + 1) = some st.depth then
      if ← isCpuName mem name then pure { st with count := st.count + 1 } else pure st
    else pure st
  else pure st

def cpuWalker (mem : ByteMem) : Walker CpuState where
  beginNode name st := do
    let st ← cpuNode mem name st
    pure { st with depth := pushDepth st.depth }
  endNode st :=
    if 0 < st.depth then
      { st with depth := st.depth - 1, cpusDepth := if st.cpusDepth = some (st.depth - 1) then none else st.cpusDepth }
    else st
  prop _ _ _ st := pure (some st)

def fdtGetCpuCount (mem : ByteMem) : Reads ℕ := do
  if ← fdtValid mem then
    let totalsize ← be32 mem 4
    let offStruct ← be32 mem 8
    let sizeStruct ← be32 mem 36
    match ← scan (cpuWalker mem) mem totalsize (structEnd totalsize offStruct sizeStruct) offStruct ⟨0, none, 0⟩ with
    | none => pure 0
    | some (_, st) => pure st.count
  else pure 0

structure InitrdState where
  depth : ℕ
  isChosen : ℕ → Bool
  start : Option ℕ
  stop : Option ℕ

/-- A value of one cell or of two. -/
def initrdValue (mem : ByteMem) (value len : ℕ) : Reads ℕ := do
  if len = 8 then
    let hi ← be32 mem value
    let lo ← be32 mem (value+4)
    pure (2^32*hi + lo)
  else be32 mem value

/-- Whether a property has this name, and a value that can be read. -/
def initrdName (mem : ByteMem) (offStrings sizeStrings len nameoff : ℕ) (want : String) : Reads Bool := do
  if (len = 4 ∨ len = 8) ∧ checkedAdd nameoff (cString want).length ≤ sizeStrings then
    startsWith mem (offStrings + nameoff) (cString want)
  else pure false

def initrdProp (mem : ByteMem) (offStrings sizeStrings value len nameoff : ℕ) (st : InitrdState) : Reads InitrdState := do
  if ← initrdName mem offStrings sizeStrings len nameoff "linux,initrd-start" then
    let v ← initrdValue mem value len
    pure { st with start := some v }
  else if ← initrdName mem offStrings sizeStrings len nameoff "linux,initrd-end" then
    let v ← initrdValue mem value len
    pure { st with stop := some v }
  else pure st

/-- Only a child of the root can be `chosen`. -/
def isChosenName (mem : ByteMem) (name depth : ℕ) : Reads Bool :=
  if depth = 1 then startsWith mem name (cString "chosen") else pure false

def initrdWalker (mem : ByteMem) (offStrings sizeStrings : ℕ) : Walker InitrdState where
  beginNode name st := do
    let isChosen ← isChosenName mem name st.depth
    pure { st with depth := pushDepth st.depth, isChosen := pushFlag st.isChosen st.depth isChosen }
  endNode st := { st with depth := st.depth - 1 }
  prop value len nameoff st := do
    if topFlag st.isChosen st.depth ∧ nameoff < sizeStrings then
      let st ← initrdProp mem offStrings sizeStrings value len nameoff st
      pure (some st)
    else pure (some st)

/-- The window, unless it is empty. -/
def initrdWindow : Option (Bool × InitrdState) → Option (ℕ × ℕ)
  | some (true, st) => match st.start, st.stop with
    | some start, some stop => if stop ≤ start then none else some (start, stop)
    | _, _ => none
  | _ => none

def fdtGetInitrd (mem : ByteMem) : Reads (Option (ℕ × ℕ)) := do
  if ← fdtValid mem then
    let totalsize ← be32 mem 4
    let offStruct ← be32 mem 8
    let offStrings ← be32 mem 12
    let sizeStrings ← be32 mem 32
    let sizeStruct ← be32 mem 36
    if checkedAdd offStrings sizeStrings > totalsize then pure none
    else
      let r ← scan (initrdWalker mem offStrings sizeStrings) mem totalsize (structEnd totalsize offStruct sizeStruct)
        offStruct ⟨0, fun _ => false, none, none⟩
      pure (initrdWindow r)
  else pure none

end HouseKernel.DeviceTree
