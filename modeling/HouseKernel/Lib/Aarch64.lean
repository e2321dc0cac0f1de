import HouseKernel.Lib.ByteMemory
import Mathlib.Logic.Relation

/-! A part of the AArch64 instruction set: words are fetched from memory, decoded and executed. Memory that the program
may not write stays as it is. A call runs a callee to its return in one step, and what the callee does may depend on
everything that was called before. -/
namespace HouseKernel.Lib.Aarch64

abbrev Word := BitVec 64

abbrev Reg := BitVec 5

inductive Insn where
  | adrp (d : Reg) (pages : ℤ)
  | addImm (d n : Reg) (imm : BitVec 12)
  | subsImm (d n : Reg) (imm : BitVec 12)
  | addReg (d n m : Reg) (lsl : ℕ)
  | subsReg (d n m : Reg) (lsl : ℕ)
  | orrReg (d n m : Reg) (lsl : ℕ)
  | movz (d : Reg) (imm : BitVec 16)
  | ldr (t n : Reg) (imm : BitVec 12)
  | b (words : ℤ)
  | bCond (cond : BitVec 4) (words : ℤ)
  | br (n : Reg)
  | blr (n : Reg)
  | svc (imm : BitVec 16)
  deriving DecidableEq, Repr

def decode (w : BitVec 32) : Option Insn :=
  let d := w.extractLsb' 0 5
  let n := w.extractLsb' 5 5
  let m := w.extractLsb' 16 5
  let imm12 := w.extractLsb' 10 12
  let imm16 := w.extractLsb' 5 16
  let lsl := (w.extractLsb' 10 6).toNat
  if w.extractLsb' 31 1 = 1 ∧ w.extractLsb' 24 5 = 0b10000 then
    some (.adrp d (w.extractLsb' 5 19 ++ w.extractLsb' 29 2).toInt)
  else if w.extractLsb' 22 10 = 0b1001000100 then some (.addImm d n imm12)
  else if w.extractLsb' 22 10 = 0b1111000100 then some (.subsImm d n imm12)
  else if w.extractLsb' 21 11 = 0b10001011000 then some (.addReg d n m lsl)
  else if w.extractLsb' 21 11 = 0b11101011000 then some (.subsReg d n m lsl)
  else if w.extractLsb' 21 11 = 0b10101010000 then some (.orrReg d n m lsl)
  else if w.extractLsb' 21 11 = 0b11010010100 then some (.movz d imm16)
  else if w.extractLsb' 22 10 = 0b1111100101 then some (.ldr d n imm12)
  else if w.extractLsb' 26 6 = 0b000101 then some (.b (w.extractLsb' 0 26).toInt)
  else if w.extractLsb' 24 8 = 0b01010100 ∧ w.extractLsb' 4 1 = 0 then
    some (.bCond (w.extractLsb' 0 4) (w.extractLsb' 5 19).toInt)
  else if w.extractLsb' 10 22 = 0b1101011000011111000000 ∧ d = 0 then some (.br n)
  else if w.extractLsb' 10 22 = 0b1101011000111111000000 ∧ d = 0 then some (.blr n)
  else if w.extractLsb' 21 11 = 0b11010100000 ∧ d = 1 then some (.svc imm16)
  else none

structure Flags where
  n : Bool
  z : Bool
  c : Bool
  v : Bool
  deriving DecidableEq, Repr

/-- The flags of a subtraction. -/
def subFlags (a b : Word) : Flags where
  n := (a - b).msb
  z := a - b == 0
  c := decide (b ≤ a)
  v := a.msb != b.msb && (a - b).msb != a.msb

def Flags.holds (f : Flags) (cond : BitVec 4) : Bool :=
  let positive := match (cond.extractLsb' 1 3).toNat with
    | 0 => f.z
    | 1 => f.c
    | 2 => f.n
    | 3 => f.v
    | 4 => f.c && !f.z
    | 5 => f.n == f.v
    | 6 => f.n == f.v && !f.z
    | _ => true
  if cond.extractLsb' 0 1 = 1 ∧ cond ≠ 15 then !positive else positive

/-- What a callee sees and changes. -/
structure Cpu where
  x : Reg → Word
  sp : Word
  flags : Flags
  mem : ByteMem

/-- Register 31 is the zero register, or the stack pointer. -/
def Cpu.reg (s : Cpu) (r : Reg) : Word := if r = 31 then 0 else s.x r

def Cpu.regSp (s : Cpu) (r : Reg) : Word := if r = 31 then s.sp else s.x r

def Cpu.setReg (s : Cpu) (r : Reg) (v : Word) : Cpu := if r = 31 then s else { s with x := Function.update s.x r v }

def Cpu.setRegSp (s : Cpu) (r : Reg) (v : Word) : Cpu :=
  if r = 31 then { s with sp := v } else { s with x := Function.update s.x r v }

inductive Event where
  | call (target : Word)
  | svc (imm : BitVec 16) (x0 : Word)
  deriving DecidableEq, Repr

structure Machine extends Cpu where
  pc : Word
  trace : List Event

/-- What a call of an address does to the registers and to the memory, after everything that was called before. -/
abbrev Callee := List Event → Word → Cpu → Cpu

/-- The surroundings of a program: the addresses that it may not write, and what it calls. -/
structure Env where
  readOnly : ℕ → Bool
  callee : Callee

def Machine.next (s : Machine) (cpu : Cpu) : Machine := { s with toCpu := cpu, pc := s.pc + 4 }

def Machine.jump (s : Machine) (words : ℤ) : Machine := { s with pc := s.pc + BitVec.ofInt 64 (4 * words) }

/-- A store to read-only memory faults, so that a callee that returns has left it alone. -/
def Env.call (e : Env) (s : Machine) (target : Word) : Machine :=
  let cpu := e.callee s.trace target (s.setReg 30 (s.pc + 4))
  { toCpu := { cpu with mem := fun a => if e.readOnly a then s.mem a else cpu.mem a }
    pc := s.pc + 4
    trace := s.trace ++ [.call target] }

def Env.exec (e : Env) (s : Machine) : Insn → Machine
  | .adrp d pages => s.next (s.setReg d (BitVec.ofNat 64 (s.pc.toNat / 4096 * 4096) + BitVec.ofInt 64 (4096 * pages)))
  | .addImm d n imm => s.next (s.setRegSp d (s.regSp n + imm.setWidth 64))
  | .subsImm d n imm =>
    s.next { s.setReg d (s.regSp n - imm.setWidth 64) with flags := subFlags (s.regSp n) (imm.setWidth 64) }
  | .addReg d n m lsl => s.next (s.setReg d (s.reg n + s.reg m <<< lsl))
  | .subsReg d n m lsl => s.next { s.setReg d (s.reg n - s.reg m <<< lsl) with flags := subFlags (s.reg n) (s.reg m <<< lsl) }
  | .orrReg d n m lsl => s.next (s.setReg d (s.reg n ||| s.reg m <<< lsl))
  | .movz d imm => s.next (s.setReg d (imm.setWidth 64))
  | .ldr t n imm => s.next (s.setReg t (BitVec.ofNat 64 (readWord s.mem (s.regSp n + BitVec.ofNat 64 (8 * imm.toNat)).toNat)))
  | .b words => s.jump words
  | .bCond cond words => if s.flags.holds cond then s.jump words else s.next s.toCpu
  | .br n => { s with pc := s.reg n }
  | .blr n => e.call s (s.reg n)
  | .svc imm => { s.next s.toCpu with trace := s.trace ++ [.svc imm (s.reg 0)] }

def Machine.fetch (s : Machine) : BitVec 32 := BitVec.ofNat 32 (readLE s.mem 4 s.pc.toNat)

/-- One instruction; a word that is none stops the machine. -/
def Env.step (e : Env) (s : Machine) : Option Machine := (decode s.fetch).map (e.exec s)

def Env.Reaches (e : Env) : Machine → Machine → Prop := Relation.ReflTransGen fun s t => e.step s = some t

section Program

variable {e : Env} {s t : Machine} {base i j : ℕ} {code : List (BitVec 32)} {insn : Insn} {insns : List Insn} {a : ℕ}

/-- The address of instruction `i`. -/
def place (base i : ℕ) : Word := BitVec.ofNat 64 (base + 4 * i)

/-- The program is in memory at `base`, and in memory that it may not write. -/
structure Loaded (e : Env) (mem : ByteMem) (base : ℕ) (code : List (BitVec 32)) : Prop where
  words : ∀ i, (h : i < code.length) → readLE mem 4 (base + 4 * i) = code[i].toNat
  readOnly : ∀ a, base ≤ a → a < base + 4 * code.length → e.readOnly a = true
  fits : base + 4 * code.length ≤ 2 ^ 64

/-- The instruction after this one, if it is not a branch, is the next. -/
def Insn.straight : Insn → Bool
  | .b _ => false
  | .bCond _ _ => false
  | .br _ => false
  | _ => true

theorem place_add (words : ℤ) (h : (i : ℤ) + words = j) : place base i + BitVec.ofInt 64 (4 * words) = place base j := by
  have hj : ((base + 4 * j : ℕ) : ℤ) = ((base + 4 * i : ℕ) : ℤ) + 4 * words := by omega
  rw [place, place, ← BitVec.ofInt_natCast, ← BitVec.ofInt_natCast, hj, BitVec.ofInt_add]

theorem place_succ : place base i + 4 = place base (i + 1) := place_add 1 rfl

theorem Machine.jump_pc {words : ℤ} (hpc : s.pc = place base i) (h : (i : ℤ) + words = j) :
    (s.jump words).pc = place base j := by
  rw [Machine.jump, hpc]
  exact place_add words h

theorem Machine.next_pc {cpu : Cpu} (hpc : s.pc = place base i) : (s.next cpu).pc = place base (i + 1) := by
  rw [Machine.next, hpc]
  exact place_succ

theorem Flags.holds_hs (f : Flags) : f.holds 2 = f.c := rfl

theorem Flags.holds_ne (f : Flags) : f.holds 1 = !f.z := rfl

theorem Env.exec_taken {cond : BitVec 4} {words : ℤ} (h : s.flags.holds cond = true) :
    e.exec s (.bCond cond words) = s.jump words := if_pos h

theorem Env.exec_untaken {cond : BitVec 4} {words : ℤ} (h : s.flags.holds cond = false) :
    e.exec s (.bCond cond words) = s.next s.toCpu := if_neg (by simp [h])

theorem Env.exec_pc (h : insn.straight) : (e.exec s insn).pc = s.pc + 4 := by
  cases insn <;> first | rfl | cases h

theorem Cpu.setReg_mem (c : Cpu) (r : Reg) (v : Word) : (c.setReg r v).mem = c.mem := by
  unfold Cpu.setReg
  split <;> rfl

theorem Cpu.setRegSp_mem (c : Cpu) (r : Reg) (v : Word) : (c.setRegSp r v).mem = c.mem := by
  unfold Cpu.setRegSp
  split <;> rfl

theorem Env.exec_mem (h : e.readOnly a = true) : (e.exec s insn).mem a = s.mem a := by
  cases insn with
  | bCond cond words => by_cases hc : s.flags.holds cond = true <;> simp [Env.exec, hc, Machine.next, Machine.jump]
  | blr n => exact if_pos h
  | _ => simp [Env.exec, Machine.next, Machine.jump, Cpu.setReg_mem, Cpu.setRegSp_mem]

theorem Loaded.exec (h : Loaded e s.mem base code) : Loaded e (e.exec s insn).mem base code := by
  refine ⟨fun i hi => ?_, h.readOnly, h.fits⟩
  rw [← h.words i hi]
  exact readLE_congr fun k hk => Env.exec_mem (h.readOnly _ (by omega) (by omega))

theorem Loaded.step (h : Loaded e s.mem base code) (hpc : s.pc = place base i) (hi : i < code.length)
    (hdec : decode code[i] = some insn) : e.step s = some (e.exec s insn) := by
  have hfits := h.fits
  have haddr : s.pc.toNat = base + 4 * i := by
    rw [hpc, place, BitVec.toNat_ofNat, Nat.mod_eq_of_lt (by omega)]
  have hfetch : s.fetch = code[i] := by
    rw [Machine.fetch, haddr, h.words i hi, BitVec.ofNat_toNat, BitVec.setWidth_eq]
  rw [Env.step, hfetch, hdec, Option.map_some]

/-- The effect of a block. -/
def Env.execs (e : Env) (s : Machine) (insns : List Insn) : Machine := insns.foldl e.exec s

theorem Loaded.execs (h : Loaded e s.mem base code) : Loaded e (e.execs s insns).mem base code := by
  induction insns generalizing s with
  | nil => exact h
  | cons insn insns ih => exact ih h.exec

theorem Env.execs_mem (h : e.readOnly a = true) : (e.execs s insns).mem a = s.mem a := by
  induction insns generalizing s with
  | nil => rfl
  | cons insn insns ih => exact ih.trans (Env.exec_mem h)

theorem Env.execs_pc (hpc : s.pc = place base i) (h : insns.all Insn.straight = true) :
    (e.execs s insns).pc = place base (i + insns.length) := by
  induction insns generalizing s i with
  | nil => exact hpc
  | cons insn insns ih =>
    rw [List.all_cons, Bool.and_eq_true] at h
    have hpc' : (e.exec s insn).pc = place base (i + 1) := by rw [Env.exec_pc h.1, hpc, place_succ]
    have hplace : i + (insn :: insns).length = i + 1 + insns.length := by rw [List.length_cons]; omega
    rw [hplace]
    exact ih hpc' h.2

theorem Env.execs_concat : e.execs s (insns ++ [insn]) = e.exec (e.execs s insns) insn := by
  rw [Env.execs, List.foldl_append]
  rfl

/-- A block runs through when only its last instruction may branch. -/
theorem Loaded.reaches_block (h : Loaded e s.mem base code) (hpc : s.pc = place base i)
    (hdec : insns.map some <+: (code.drop i).map decode) (hstraight : insns.dropLast.all Insn.straight = true) :
    e.Reaches s (e.execs s insns) := by
  induction insns generalizing s i with
  | nil => exact .refl
  | cons insn insns ih =>
    obtain ⟨rest, hrest⟩ := hdec
    have hi : i < code.length := by
      by_contra hge
      rw [List.drop_eq_nil_of_le (by omega)] at hrest
      simp at hrest
    rw [List.drop_eq_getElem_cons hi, List.map_cons, List.map_cons, List.cons_append] at hrest
    obtain ⟨hfirst, htail⟩ := List.cons.inj hrest
    have hstep := h.step hpc hi hfirst.symm
    cases insns with
    | nil => exact .single hstep
    | cons insn' insns =>
      rw [List.dropLast_cons_of_ne_nil (List.cons_ne_nil _ _), List.all_cons, Bool.and_eq_true] at hstraight
      have hpc' : (e.exec s insn).pc = place base (i + 1) := by rw [Env.exec_pc hstraight.1, hpc, place_succ]
      exact .head hstep (ih h.exec hpc' ⟨rest, htail⟩ hstraight.2)

end Program

end HouseKernel.Lib.Aarch64
