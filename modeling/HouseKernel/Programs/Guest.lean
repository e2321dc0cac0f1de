import HouseKernel.Programs.Asm

/-! What a program does at EL0. Every instruction changes the registers, the flags or the memory of the guest; a system
call goes to the kernel, which gives back `x0` and keeps the memory, the stack pointer and `x19` to `x28`. -/
namespace HouseKernel.Programs

open HouseKernel.Lib HouseKernel.Lib.Aarch64

/-- The registers and the memory of a guest, the instruction it is at, what it wrote to the UART, its exit code, and what
the kernel keeps for it. -/
structure Guest (σ : Type) where
  cpu : Cpu
  pc : ℕ
  out : Octets
  exit : Option ℕ
  kernel : σ

/-- What surrounds a guest: where its code and its symbols are, which buffers the kernel accepts, what it leaves in the
registers that it does not keep, and how it serves a call that is parked. -/
structure Host (σ : Type) where
  base : ℕ
  sym : Text → Word
  validateUserBuffer : ℕ → ℕ → Bool
  scratch : Guest σ → Reg → Word
  flags : Guest σ → Flags
  serve : SvcImm → Cpu → σ → Word × ByteMem × σ

/-- A machine gets from one state to another, step by step. -/
def Reaches {σ : Type*} (step : σ → Option σ) : σ → σ → Prop := Relation.ReflTransGen fun s t => step s = some t

/-- The registers that a system call keeps. -/
def Kept (r : Reg) : Prop := 19 ≤ r ∧ r ≤ 28

instance (r : Reg) : Decidable (Kept r) := inferInstanceAs (Decidable (_ ∧ _))

def AsmReg.get (c : Cpu) : AsmReg → Word
  | .x n => c.reg n
  | .w n => ((c.reg n).setWidth 32).setWidth 64
  | .sp => c.sp

def AsmReg.set (c : Cpu) (v : Word) : AsmReg → Cpu
  | .x n => c.setReg n v
  | .w n => c.setReg n ((v.setWidth 32).setWidth 64)
  | .sp => { c with sp := v }

@[simp] theorem get_x {c : Cpu} {n : Reg} (hn : n ≠ 31) : (AsmReg.x n).get c = c.x n := if_neg hn

@[simp] theorem get_w {c : Cpu} {n : Reg} (hn : n ≠ 31) : (AsmReg.w n).get c = ((c.x n).setWidth 32).setWidth 64 := by
  rw [AsmReg.get, Cpu.reg, if_neg hn]

@[simp] theorem get_sp {c : Cpu} : AsmReg.sp.get c = c.sp := rfl

@[simp] theorem set_x {c : Cpu} {n : Reg} {v : Word} (hn : n ≠ 31) :
    (AsmReg.x n).set c v = { c with x := Function.update c.x n v } := if_neg hn

@[simp] theorem set_w {c : Cpu} {n : Reg} {v : Word} (hn : n ≠ 31) :
    (AsmReg.w n).set c v = { c with x := Function.update c.x n ((v.setWidth 32).setWidth 64) } := if_neg hn

@[simp] theorem set_sp {c : Cpu} {v : Word} : AsmReg.sp.set c v = { c with sp := v } := rfl

def AsmCond.holds (f : Flags) : AsmCond → Bool
  | .lo => !f.c
  | .hs => f.c
  | .eq => f.z
  | .ne => !f.z
  | .hi => f.c && !f.z
  | .lt => f.n != f.v

def loadWord (mem : ByteMem) (a : Word) : Word := BitVec.ofNat 64 (readWord mem a.toNat)

def storeWord (mem : ByteMem) (a v : Word) : ByteMem := writeWord mem a.toNat v.toNat

def storeByte (mem : ByteMem) (a v : Word) : ByteMem := fill mem a.toNat 1 fun _ => v.setWidth 8

section Exec

variable {σ : Type} (h : Host σ) (s : Guest σ)

@[simp] def Guest.next (c : Cpu) : Guest σ := { s with cpu := c, pc := s.pc + 1 }

@[simp] def Guest.jump (target : ℕ) : Guest σ := { s with pc := target }

/-- The errno that a call gives back. -/
def errno (code : ℕ) : Word := -BitVec.ofNat 64 code

/-- `svc` 0x01: the value and the octets for the UART. -/
def Host.write (c : Cpu) : Word × Octets :=
  if c.x 0 ≠ 1 then (errno 9, [])
  else if 65536 < (c.x 2).toNat then (errno 22, [])
  else if c.x 2 = 0 then (0, [])
  else if h.validateUserBuffer (c.x 1).toNat (c.x 2).toNat = false then (errno 14, [])
  else (c.x 2, (List.range (c.x 2).toNat).map fun i => c.mem ((c.x 1).toNat + i))

/-- The registers after a call. -/
@[simp] def Host.resume (v : Word) (mem : ByteMem) : Cpu where
  x r := if r = 0 then v else if Kept r then s.cpu.x r else h.scratch s r
  sp := s.cpu.sp
  flags := h.flags s
  mem := mem

@[simp] def Host.svc (imm : SvcImm) : Guest σ :=
  if imm = 1 then
    { s.next (h.resume s (h.write s.cpu).1 s.cpu.mem) with out := s.out ++ (h.write s.cpu).2 }
  else if imm = 2 then { s with exit := some (s.cpu.x 0 &&& 0xff).toNat }
  else
    { s.next (h.resume s (h.serve imm s.cpu s.kernel).1 (h.serve imm s.cpu s.kernel).2.1) with
      kernel := (h.serve imm s.cpu s.kernel).2.2 }

@[simp] def Host.exec : AsmOp ℕ → Guest σ
  | .adrp d sym => s.next (d.set s.cpu (BitVec.ofNat 64 ((h.sym sym).toNat / 4096 * 4096)))
  | .addLo12 d n sym => s.next (d.set s.cpu (n.get s.cpu + BitVec.ofNat 64 ((h.sym sym).toNat % 4096)))
  | .movImm d v => s.next (d.set s.cpu (v.setWidth 64))
  | .movNeg d v => s.next (d.set s.cpu (-v.setWidth 64))
  | .movReg d n => s.next (d.set s.cpu (n.get s.cpu))
  | .addReg d n m => s.next (d.set s.cpu (n.get s.cpu + m.get s.cpu))
  | .subReg d n m => s.next (d.set s.cpu (n.get s.cpu - m.get s.cpu))
  | .addImm d n v => s.next (d.set s.cpu (n.get s.cpu + BitVec.ofNat 64 v))
  | .subImm d n v => s.next (d.set s.cpu (n.get s.cpu - BitVec.ofNat 64 v))
  | .ldrOff d n v => s.next (d.set s.cpu (loadWord s.cpu.mem (n.get s.cpu + BitVec.ofNat 64 v)))
  | .ldrbReg d n m => s.next (d.set s.cpu ((s.cpu.mem (n.get s.cpu + m.get s.cpu).toNat).setWidth 64))
  | .strbOff t n v => s.next { s.cpu with mem := storeByte s.cpu.mem (n.get s.cpu + BitVec.ofNat 64 v) (t.get s.cpu) }
  | .strbPost t n v =>
    s.next (n.set { s.cpu with mem := storeByte s.cpu.mem (n.get s.cpu) (t.get s.cpu) } (n.get s.cpu + BitVec.ofNat 64 v))
  | .stpPush r r' n =>
    let a := n.get s.cpu - 16
    s.next (n.set { s.cpu with mem := storeWord (storeWord s.cpu.mem a (r.get s.cpu)) (a + 8) (r'.get s.cpu) } a)
  | .ldpPop r r' n =>
    let a := n.get s.cpu
    s.next (n.set (r'.set (r.set s.cpu (loadWord s.cpu.mem a)) (loadWord s.cpu.mem (a + 8))) (a + 16))
  | .cmpImm n v => s.next { s.cpu with flags := subFlags (n.get s.cpu) (BitVec.ofNat 64 v) }
  | .cmpShift12 n v => s.next { s.cpu with flags := subFlags (n.get s.cpu) (BitVec.ofNat 64 (4096 * v)) }
  | .cmpReg n m => s.next { s.cpu with flags := subFlags (n.get s.cpu) (m.get s.cpu) }
  | .cbz r t => if r.get s.cpu = 0 then s.jump t else s.next s.cpu
  | .cbnz r t => if r.get s.cpu ≠ 0 then s.jump t else s.next s.cpu
  | .bCond c t => if c.holds s.cpu.flags then s.jump t else s.next s.cpu
  | .b t => s.jump t
  | .bl t => { s with cpu := (AsmReg.x 30).set s.cpu (place h.base (s.pc + 1)), pc := t }
  | .ret => s.jump ((((AsmReg.x 30).get s.cpu).toNat - h.base) / 4)
  | .svc imm => h.svc s imm

end Exec

section Blocks

variable {σ : Type} {h : Host σ} {s : Guest σ} {code ops : List (AsmOp ℕ)} {op : AsmOp ℕ}

/-- One instruction of the code; a guest that exited, or that left its code, stops. -/
def Host.step (h : Host σ) (code : List (AsmOp ℕ)) (s : Guest σ) : Option (Guest σ) :=
  if s.exit.isSome then none else code[s.pc]?.map (h.exec s)

/-- The instruction after this one is the next. -/
def AsmOp.straight : AsmOp ℕ → Bool
  | .cbz _ _ => false
  | .cbnz _ _ => false
  | .bCond _ _ => false
  | .b _ => false
  | .bl _ => false
  | .ret => false
  | .svc imm => imm ≠ 2
  | _ => true

theorem Host.exec_straight (hop : op.straight = true) : (h.exec s op).pc = s.pc + 1 ∧ (h.exec s op).exit = s.exit := by
  cases op with
  | svc imm =>
    have hne : imm ≠ 2 := by simpa [AsmOp.straight] using hop
    rw [Host.exec, Host.svc, if_neg hne]
    split_ifs <;> exact ⟨rfl, rfl⟩
  | _ => first | exact ⟨rfl, rfl⟩ | cases hop

/-- The effect of a block. -/
@[simp] def Host.execs (h : Host σ) (s : Guest σ) (ops : List (AsmOp ℕ)) : Guest σ := ops.foldl h.exec s

/-- A block runs through when only its last instruction may branch. -/
theorem Host.reaches_block (hcode : ops <+: code.drop s.pc) (hexit : s.exit = none)
    (hstraight : ops.dropLast.all AsmOp.straight = true) : Reaches (h.step code) s (h.execs s ops) := by
  induction ops generalizing s with
  | nil => exact .refl
  | cons op ops ih =>
    obtain ⟨rest, hrest⟩ := hcode
    have hget : code[s.pc]? = some op := by
      rw [← List.head?_drop, ← hrest]
      rfl
    have hstep : h.step code s = some (h.exec s op) := by
      rw [Host.step, hexit, hget]
      rfl
    cases ops with
    | nil => exact .single hstep
    | cons op' ops =>
      rw [List.dropLast_cons_of_ne_nil (List.cons_ne_nil _ _), List.all_cons, Bool.and_eq_true] at hstraight
      obtain ⟨hpc, hexit'⟩ := Host.exec_straight (h := h) (s := s) hstraight.1
      refine .head hstep (ih ⟨rest, ?_⟩ (hexit'.trans hexit) hstraight.2)
      rw [hpc, ← List.tail_drop, ← hrest]
      rfl

end Blocks

theorem Kept.ne {i : Reg} (hi : Kept i) :
    i ≠ 0#5 ∧ i ≠ 1#5 ∧ i ≠ 2#5 ∧ i ≠ 3#5 ∧ i ≠ 4#5 ∧ i ≠ 29#5 ∧ i ≠ 30#5 := by
  refine ⟨?_, ?_, ?_, ?_, ?_, ?_, ?_⟩ <;>
  · rintro rfl
    exact absurd hi (by decide)

section Addresses

variable {mem : ByteMem} {a b c r base : ℕ} {v : Word}

theorem ofNat_add (h : a + b = c) : BitVec.ofNat 64 a + BitVec.ofNat 64 b = BitVec.ofNat 64 c := by
  rw [← h, BitVec.ofNat_add]

theorem ofNat_sub (h : c + b = a) : BitVec.ofNat 64 a - BitVec.ofNat 64 b = BitVec.ofNat 64 c := by
  rw [← h, BitVec.ofNat_add, BitVec.add_sub_cancel]

theorem toNat_ofNat (h : a < 2 ^ 64) : (BitVec.ofNat 64 a).toNat = a := by
  rw [BitVec.toNat_ofNat, Nat.mod_eq_of_lt h]

theorem storeWord_ofNat (h : a < 2 ^ 64) : storeWord mem (BitVec.ofNat 64 a) v = writeWord mem a v.toNat := by
  rw [storeWord, toNat_ofNat h]

theorem storeByte_ofNat (h : a < 2 ^ 64) :
    storeByte mem (BitVec.ofNat 64 a) v = fill mem a 1 fun _ => v.setWidth 8 := by
  rw [storeByte, toNat_ofNat h]

theorem loadWord_ofNat (h : a < 2 ^ 64) : loadWord mem (BitVec.ofNat 64 a) = BitVec.ofNat 64 (readWord mem a) := by
  rw [loadWord, toNat_ofNat h]

theorem setWidth_eq_zero {x : BitVec 8} : x.setWidth 64 = 0#64 ↔ x = 0#8 := by
  constructor
  · intro hx
    have hlow := congrArg (BitVec.setWidth 8) hx
    simpa using hlow
  · rintro rfl
    rfl

/-- The instruction at a return address. -/
theorem place_index (h : base + 4 * r < 2 ^ 64) : ((place base r).toNat - base) / 4 = r := by
  rw [place, toNat_ofNat h]
  omega

end Addresses

end HouseKernel.Programs
