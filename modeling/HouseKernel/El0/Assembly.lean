import HouseKernel.El0.SlotTable
import HouseKernel.Lib.Updates

/-! The assembly on the way of an EL0 register state through the kernel: the frame save at
the head of the exception vectors, and the resume path that loads a parked frame back. The
instructions are those that the two sequences use; barriers and TLB maintenance have no
effect on registers or on memory words. Kernel addresses are naturals. -/
namespace HouseKernel.El0

open HouseKernel.Lib

instance neZero_xRegs : NeZero 31 := ⟨by decide⟩

instance neZero_qRegs : NeZero 32 := ⟨by decide⟩

/-- The register state that an EL0 program can observe. -/
structure El0State where
  x : Fin 31 → Word
  sp : Word
  pc : Word
  nzcv : BitVec 4
  tpidr : Word
  q : Fin 32 → BitVec 128

inductive XReg where
  | x (n : Fin 31)
  | xzr
  deriving DecidableEq, Repr

inductive SysReg where
  | elrEl1
  | spsrEl1
  | spEl0
  | tpidrEl0
  | ttbr0El1
  | esrEl1
  | farEl1
  deriving DecidableEq, Repr

/-- The machine at EL1, with the words of memory by byte address. -/
structure Cpu where
  x : Fin 31 → Word
  q : Fin 32 → BitVec 128
  sp : ℕ
  sys : SysReg → Word
  mem : ℕ → Word

def Cpu.get (c : Cpu) : XReg → Word
  | .x n => c.x n
  | .xzr => 0

def Cpu.set (c : Cpu) (r : XReg) (v : Word) : Cpu :=
  match r with
  | .x n => { c with x := Function.update c.x n v }
  | .xzr => c

inductive Base where
  | sp
  | x (n : Fin 31)
  deriving DecidableEq, Repr

def Cpu.base (c : Cpu) : Base → ℕ
  | .sp => c.sp
  | .x n => (c.x n).toNat

inductive Insn where
  | subSp (n : ℕ)
  | stp (a b : XReg) (base : Base) (off : ℕ)
  | str (a : XReg) (base : Base) (off : ℕ)
  | stpq (a b : Fin 32) (base : Base) (off : ℕ)
  | ldp (a b : XReg) (base : Base) (off : ℕ)
  | ldr (a : XReg) (base : Base) (off : ℕ)
  | ldpq (a b : Fin 32) (base : Base) (off : ℕ)
  /-- `stp a, b, [sp, #-16]!` -/
  | push (a b : XReg)
  | movSp (d : XReg)
  | addSp (d : XReg) (n : ℕ)
  | mov (d s : XReg)
  | movImm (d : XReg) (n : ℕ)
  | bfi (d s : XReg) (lsb width : ℕ)
  | mrs (d : XReg) (r : SysReg)
  | msr (r : SysReg) (s : XReg)
  | barrier
  deriving DecidableEq, Repr

def lo (v : BitVec 128) : Word := v.extractLsb' 0 64
def hi (v : BitVec 128) : Word := v.extractLsb' 64 64
def join (h l : Word) : BitVec 128 := h ++ l

/-- `bfi`: the low `width` bits of the source at `lsb` of the destination. -/
def bitfieldInsert (d s : Word) (lsb width : ℕ) : Word :=
  let mask : Word := BitVec.ofNat 64 ((2^width - 1) <<< lsb)
  (d &&& ~~~mask) ||| ((s <<< lsb) &&& mask)

/-- What a stored word is taken from. -/
inductive Source where
  | reg (r : XReg)
  | lo (q : Fin 32)
  | hi (q : Fin 32)
  deriving DecidableEq, Repr

def Cpu.read (c : Cpu) : Source → Word
  | .reg r => c.get r
  | .lo q => lo (c.q q)
  | .hi q => hi (c.q q)

/-- The words that a store writes, by their offsets from its base. -/
def Insn.stores : Insn → List (ℕ × Source)
  | .stp a b _ off => [(off, .reg a), (off+8, .reg b)]
  | .str a _ off => [(off, .reg a)]
  | .stpq a b _ off => [(off, .lo a), (off+8, .hi a), (off+16, .lo b), (off+24, .hi b)]
  | _ => []

/-- The general registers that a pair load fills, with the offsets of their words. -/
def Insn.xLoads : Insn → List (Fin 31 × ℕ)
  | .ldp (.x a) (.x b) _ off => [(a, off), (b, off+8)]
  | _ => []

/-- The vector registers that a load fills, with the offsets of their low words. -/
def Insn.qLoads : Insn → List (Fin 32 × ℕ)
  | .ldpq a b _ off => [(a, off), (b, off+16)]
  | _ => []

def Cpu.store (c : Cpu) (p : ℕ) (ws : List (ℕ × Source)) : Cpu :=
  { c with mem := writeAll (ws.map fun w => (p + w.1, c.read w.2)) c.mem }

def Cpu.loadQ (c : Cpu) (p : ℕ) (ls : List (Fin 32 × ℕ)) : Cpu :=
  { c with q := writeAll (ls.map fun l => (l.1, join (c.mem (p + l.2 + 8)) (c.mem (p + l.2)))) c.q }

def Cpu.loadX (c : Cpu) (p : ℕ) (ls : List (Fin 31 × ℕ)) : Cpu :=
  { c with x := writeAll (ls.map fun l => (l.1, c.mem (p + l.2))) c.x }

def exec (c : Cpu) : Insn → Cpu
  | .subSp n => { c with sp := c.sp - n }
  | .stp a b base off => c.store (c.base base) (Insn.stores (.stp a b base off))
  | .str a base off => c.store (c.base base) (Insn.stores (.str a base off))
  | .stpq a b base off => c.store (c.base base) (Insn.stores (.stpq a b base off))
  | .ldp a b base off =>
    (c.set a (c.mem (c.base base + off))).set b (c.mem (c.base base + (off+8)))
  | .ldr a base off => c.set a (c.mem (c.base base + off))
  | .ldpq a b base off => c.loadQ (c.base base) (Insn.qLoads (.ldpq a b base off))
  | .push a b => { c.store (c.sp - 16) [(0, .reg a), (8, .reg b)] with sp := c.sp - 16 }
  | .movSp d => c.set d (BitVec.ofNat 64 c.sp)
  | .addSp d n => c.set d (BitVec.ofNat 64 (c.sp + n))
  | .mov d s => c.set d (c.get s)
  | .movImm d n => c.set d (BitVec.ofNat 64 n)
  | .bfi d s lsb width => c.set d (bitfieldInsert (c.get d) (c.get s) lsb width)
  | .mrs d r => c.set d (c.sys r)
  | .msr r s => { c with sys := Function.update c.sys r (c.get s) }
  | .barrier => c

def execAll (c : Cpu) (is : List Insn) : Cpu := is.foldl exec c

def saveX : List Insn :=
  [.stp (.x 0) (.x 1) .sp 0, .stp (.x 2) (.x 3) .sp 16, .stp (.x 4) (.x 5) .sp 32,
   .stp (.x 6) (.x 7) .sp 48, .stp (.x 8) (.x 9) .sp 64, .stp (.x 10) (.x 11) .sp 80,
   .stp (.x 12) (.x 13) .sp 96, .stp (.x 14) (.x 15) .sp 112, .stp (.x 16) (.x 17) .sp 128,
   .stp (.x 18) (.x 19) .sp 144, .stp (.x 20) (.x 21) .sp 160, .stp (.x 22) (.x 23) .sp 176,
   .stp (.x 24) (.x 25) .sp 192, .stp (.x 26) (.x 27) .sp 208, .stp (.x 28) (.x 29) .sp 224,
   .str (.x 30) .sp 240]

def saveQ : List Insn :=
  [.str (.x 17) .sp 248,
   .stpq 0 1 .sp 256, .stpq 2 3 .sp 288, .stpq 4 5 .sp 320, .stpq 6 7 .sp 352,
   .stpq 8 9 .sp 384, .stpq 10 11 .sp 416, .stpq 12 13 .sp 448, .stpq 14 15 .sp 480,
   .stpq 16 17 .sp 512, .stpq 18 19 .sp 544, .stpq 20 21 .sp 576, .stpq 22 23 .sp 608,
   .stpq 24 25 .sp 640, .stpq 26 27 .sp 672, .stpq 28 29 .sp 704, .stpq 30 31 .sp 736]

/-- The head of both vectors: x0-x30 at 0..240, SP at 248, q0-q31 at 256..767. -/
def saveFrame : List Insn := .subSp 896 :: (saveX ++ (.addSp (.x 17) 896 :: saveQ))

/-- `vec_sync` up to the call of `c_handle_sync`. -/
def vecSync : List Insn :=
  saveFrame ++ [.mrs (.x 0) .esrEl1, .mrs (.x 1) .farEl1, .mrs (.x 2) .elrEl1, .movSp (.x 3),
    .addSp (.x 4) 256]

/-- `vec_irq` up to the call of `c_handle_irq`. -/
def vecIrq : List Insn := saveFrame ++ [.movSp (.x 0), .addSp (.x 1) 256]

/-- `house_resume_asm`: x0 = save_ptr, x1 = elr, x2 = sp_el0, x3 = pdir, x4 = asid. -/
def houseResumeEntry : List Insn :=
  [.push (.x 29) (.x 30), .push (.x 19) (.x 20), .push (.x 21) (.x 22), .push (.x 23) (.x 24),
   .push (.x 25) (.x 26), .push (.x 27) (.x 28), .mrs (.x 9) .tpidrEl0, .push (.x 9) .xzr,
   .msr .tpidrEl0 .xzr, .mov (.x 9) (.x 3), .bfi (.x 9) (.x 4) 48 16, .msr .ttbr0El1 (.x 9),
   .barrier, .barrier, .barrier, .barrier,
   .msr .elrEl1 (.x 1), .msr .spEl0 (.x 2), .movImm (.x 9) 0, .msr .spsrEl1 (.x 9)]

def loadQ : List Insn :=
  [.ldpq 0 1 (.x 0) 256, .ldpq 2 3 (.x 0) 288, .ldpq 4 5 (.x 0) 320, .ldpq 6 7 (.x 0) 352,
   .ldpq 8 9 (.x 0) 384, .ldpq 10 11 (.x 0) 416, .ldpq 12 13 (.x 0) 448, .ldpq 14 15 (.x 0) 480,
   .ldpq 16 17 (.x 0) 512, .ldpq 18 19 (.x 0) 544, .ldpq 20 21 (.x 0) 576, .ldpq 22 23 (.x 0) 608,
   .ldpq 24 25 (.x 0) 640, .ldpq 26 27 (.x 0) 672, .ldpq 28 29 (.x 0) 704, .ldpq 30 31 (.x 0) 736]

def loadX : List Insn :=
  [.ldp (.x 1) (.x 2) (.x 0) 8, .ldp (.x 3) (.x 4) (.x 0) 24, .ldp (.x 5) (.x 6) (.x 0) 40,
   .ldp (.x 7) (.x 8) (.x 0) 56, .ldp (.x 9) (.x 10) (.x 0) 72, .ldp (.x 11) (.x 12) (.x 0) 88,
   .ldp (.x 13) (.x 14) (.x 0) 104, .ldp (.x 15) (.x 16) (.x 0) 120, .ldp (.x 17) (.x 18) (.x 0) 136,
   .ldp (.x 19) (.x 20) (.x 0) 152, .ldp (.x 21) (.x 22) (.x 0) 168, .ldp (.x 23) (.x 24) (.x 0) 184,
   .ldp (.x 25) (.x 26) (.x 0) 200, .ldp (.x 27) (.x 28) (.x 0) 216, .ldp (.x 29) (.x 30) (.x 0) 232]

/-- x0 is loaded last, over its own base. -/
def houseResumeAsm : List Insn := houseResumeEntry ++ (loadQ ++ (loadX ++ [.ldr (.x 0) (.x 0) 0]))

/-- The 112 words from an address on. -/
def frameAt (mem : ℕ → Word) (p : ℕ) : Frame := fun i => mem (p + 8*i)

theorem execAll_append (c : Cpu) (is js : List Insn) :
    execAll c (is ++ js) = execAll (execAll c is) js := by
  simp [execAll]

@[simp] theorem execAll_cons (c : Cpu) (i : Insn) (is : List Insn) :
    execAll c (i :: is) = execAll (exec c i) is := rfl

@[simp] theorem execAll_nil (c : Cpu) : execAll c [] = c := rfl

/-- A store relative to the stack pointer. -/
def Insn.isSpStore : Insn → Bool
  | .stp _ _ .sp _ => true
  | .str _ .sp _ => true
  | .stpq _ _ .sp _ => true
  | _ => false

/-- A vector load relative to x0. -/
def Insn.isQLoad : Insn → Bool
  | .ldpq _ _ (.x 0) _ => true
  | _ => false

/-- A pair load relative to x0 that leaves x0 alone. -/
def Insn.isXLoad : Insn → Bool
  | .ldp (.x a) (.x b) (.x 0) _ => decide (a ≠ 0) && decide (b ≠ 0)
  | _ => false

lemma store_store (c : Cpu) (p : ℕ) (ws ws' : List (ℕ × Source)) :
    (c.store p ws).store p ws' = c.store p (ws ++ ws') := by
  have hread : (c.store p ws).read = c.read := by
    funext r
    cases r <;> rfl
  simp only [Cpu.store, List.map_append, writeAll_append] at hread ⊢
  rw [hread]

lemma exec_of_isSpStore {i : Insn} (h : i.isSpStore = true) (c : Cpu) :
    exec c i = c.store c.sp i.stores := by
  cases i with
  | stp a b base off => cases base <;> simp_all [Insn.isSpStore, exec, Cpu.base]
  | str a base off => cases base <;> simp_all [Insn.isSpStore, exec, Cpu.base]
  | stpq a b base off => cases base <;> simp_all [Insn.isSpStore, exec, Cpu.base]
  | _ => simp [Insn.isSpStore] at h

/-- A run of stores writes all their words. -/
theorem execAll_stores {is : List Insn} (h : ∀ i ∈ is, i.isSpStore = true) (c : Cpu) :
    execAll c is = c.store c.sp (is.flatMap Insn.stores) := by
  induction is generalizing c with
  | nil => simp [Cpu.store]
  | cons i is ih =>
    rw [execAll_cons, exec_of_isSpStore (h i List.mem_cons_self),
      ih fun j hj => h j (List.mem_cons_of_mem i hj)]
    exact store_store c c.sp _ _

lemma loadQ_loadQ (c : Cpu) (p : ℕ) (ls ls' : List (Fin 32 × ℕ)) :
    (c.loadQ p ls).loadQ p ls' = c.loadQ p (ls ++ ls') := by
  simp [Cpu.loadQ, writeAll_append]

theorem execAll_qLoads {is : List Insn} (h : ∀ i ∈ is, i.isQLoad = true) (c : Cpu) :
    execAll c is = c.loadQ (c.x 0).toNat (is.flatMap Insn.qLoads) := by
  induction is generalizing c with
  | nil => simp [Cpu.loadQ]
  | cons i is ih =>
    have hi : exec c i = c.loadQ (c.x 0).toNat i.qLoads := by
      have hload := h i List.mem_cons_self
      unfold Insn.isQLoad at hload
      split at hload
      · rfl
      · simp at hload
    rw [execAll_cons, hi, ih fun j hj => h j (List.mem_cons_of_mem i hj)]
    exact loadQ_loadQ c _ _ _

lemma loadX_loadX (c : Cpu) (p : ℕ) (ls ls' : List (Fin 31 × ℕ)) :
    (c.loadX p ls).loadX p ls' = c.loadX p (ls ++ ls') := by
  simp [Cpu.loadX, writeAll_append]

/-- A run of pair loads fills its registers; the base is x0 throughout. -/
theorem execAll_xLoads {is : List Insn} (h : ∀ i ∈ is, i.isXLoad = true) (c : Cpu) :
    execAll c is = c.loadX (c.x 0).toNat (is.flatMap Insn.xLoads) := by
  induction is generalizing c with
  | nil => simp [Cpu.loadX]
  | cons i is ih =>
    obtain ⟨hi, h0⟩ : exec c i = c.loadX (c.x 0).toNat i.xLoads ∧
        (c.loadX (c.x 0).toNat i.xLoads).x 0 = c.x 0 := by
      have hload := h i List.mem_cons_self
      unfold Insn.isXLoad at hload
      split at hload
      case h_1 a b off =>
        obtain ⟨ha, hb⟩ : a ≠ 0 ∧ b ≠ 0 := by simpa using hload
        exact ⟨rfl, by simp [Cpu.loadX, Insn.xLoads, Function.update_of_ne (Ne.symm ha),
          Function.update_of_ne (Ne.symm hb)]⟩
      case h_2 => simp at hload
    rw [execAll_cons, hi, ih fun j hj => h j (List.mem_cons_of_mem i hj), h0]
    exact loadX_loadX c _ _ _

end HouseKernel.El0
