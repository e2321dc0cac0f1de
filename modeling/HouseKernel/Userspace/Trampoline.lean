import HouseKernel.Lib.Aarch64

/-! The trampoline page from which a process runs the constructors or the destructors of its image: a stub, the table
of the addresses that it calls, and one word for the argument stack pointer. The page is read-only while the stub
runs. -/
namespace HouseKernel.Userspace

open HouseKernel.Lib HouseKernel.Lib.Aarch64

/-- Branch to the image's entry after the last call, or exit with the target as the code. -/
inductive TrampolineMode where
  | branchToEntry
  | exitProcess
  deriving DecidableEq, Repr

def maxTrampolineCalls : ℕ := 64

def trampolinePage : ℕ := 0x3FFFC000

def trampolineCodeOffset : ℕ := 0

def trampolineDescriptorOffset : ℕ := 0x400

def trampolineScratchOffset : ℕ := 0x780

def trampolineCode : List (BitVec 32) :=
  [ 0x90000014, -- adrp x20, page
    0x91100294, -- add x20, x20, #0x400
    0xF9400293, -- ldr x19, [x20]
    0xD2800015, -- mov x21, #0
    0xEB1302BF, -- cmp x21, x19
    0x540000E2, -- b.hs done
    0x8B150E96, -- add x22, x20, x21, lsl #3
    0x910022D6, -- add x22, x22, #8
    0xF94002D6, -- ldr x22, [x22]
    0xD63F02C0, -- blr x22
    0x910006B5, -- add x21, x21, #1
    0x17FFFFF9, -- b loop
    0x8B130E96, -- add x22, x20, x19, lsl #3
    0x910022D6, -- add x22, x22, #8
    0xF94002C9, -- ldr x9, [x22]
    0xF94006CA, -- ldr x10, [x22, #8]
    0xF100015F, -- cmp x10, #0
    0x54000081, -- b.ne exiting
    0xD2800000, -- mov x0, #0
    0xF941C281, -- ldr x1, [x20, #0x380]
    0xD61F0120, -- br x9
    0xAA0903E0, -- mov x0, x9
    0xD4000041, -- svc #0x02
    0x14000000 ] -- b .

def modeWord : TrampolineMode → Word
  | .branchToEntry => 0
  | .exitProcess => 1

def trampolineDescriptor (calls : List Word) (target : Word) (mode : TrampolineMode) : List Word :=
  [BitVec.ofNat 64 calls.length] ++ calls ++ [target, modeWord mode]

/-- The stores that fill the page at `p`. -/
def fillTrampoline (mem : ByteMem) (p : ℕ) (calls : List Word) (target sp : Word) (mode : TrampolineMode) : ByteMem :=
  let mem := fillAll mem 8 (p + (trampolineCodeOffset + trampolineDescriptorOffset))
    ((trampolineDescriptor calls target mode).map BitVec.toNat)
  let mem := writeWord mem (p + trampolineScratchOffset) sp.toNat
  fillAll mem 4 (p + trampolineCodeOffset) (trampolineCode.map BitVec.toNat)

/-- The memory of a process that has the page at `p` mapped at `page`, and `user` elsewhere. -/
def withPage (page p : ℕ) (mem user : ByteMem) : ByteMem := fun a =>
  if page ≤ a ∧ a < page + 4096 then viewAt p page mem a else user a

def trampolineEnv (page : ℕ) (callee : Callee) : Env where
  readOnly a := decide (page ≤ a ∧ a < page + 4096)
  callee := callee

/-- What the procedure call standard asks of the callees. -/
structure Preserves (callee : Callee) : Prop where
  saved : ∀ trace a c, ∀ r ∈ [(19 : Reg), 20, 21, 22], (callee trace a c).x r = c.x r
  sp : ∀ trace a c, (callee trace a c).sp = c.sp

/-- A process enters the stub with the argument stack pointer as its stack pointer. -/
def enterTrampoline (page p : ℕ) (x : Reg → Word) (flags : Flags) (mem user : ByteMem) (calls : List Word)
    (target sp : Word) (mode : TrampolineMode) : Machine where
  x := x
  sp := sp
  flags := flags
  mem := withPage page p (fillTrampoline mem p calls target sp mode) user
  pc := place page 0
  trace := []

section Page

variable {page p i : ℕ} {mem user : ByteMem} {calls : List Word} {target sp w : Word} {mode : TrampolineMode} {callee : Callee}

theorem length_trampolineDescriptor : (trampolineDescriptor calls target mode).length = calls.length + 3 := by
  simp [trampolineDescriptor]

theorem readLE_withPage {n o : ℕ} (h : o + n ≤ 4096) : readLE (withPage page p mem user) n (page + o) = readLE mem n (p + o) := by
  rw [← @readLE_viewAt mem n p page o]
  exact readLE_congr fun k hk => if_pos (by omega)

/-- The stub lies in the page as it was assembled. -/
theorem loaded_trampoline (hfit : page + 4096 ≤ 2 ^ 64) : Loaded (trampolineEnv page callee)
    (withPage page p (fillTrampoline mem p calls target sp mode) user) page trampolineCode := by
  have hlen : trampolineCode.length = 24 := rfl
  refine ⟨fun i hi => ?_, fun a ha ha' => decide_eq_true (by omega), by omega⟩
  have hi' : i < (trampolineCode.map BitVec.toNat).length := by rwa [List.length_map]
  have hword : (trampolineCode.map BitVec.toNat)[i] < 256 ^ 4 := by
    rw [List.getElem_map]
    exact (trampolineCode[i]).isLt
  rw [readLE_withPage (by omega), fillTrampoline, ← List.getElem_map BitVec.toNat (h := hi')]
  exact readLE_fillAll hi' hword

theorem readWord_descriptor (hcap : calls.length ≤ maxTrampolineCalls)
    (hi : (trampolineDescriptor calls target mode)[i]? = some w) :
    readWord (withPage page p (fillTrampoline mem p calls target sp mode) user) (page + (trampolineDescriptorOffset + 8 * i)) =
      w.toNat := by
  obtain ⟨hlt, rfl⟩ := List.getElem?_eq_some_iff.mp hi
  have hlen := hlt
  rw [length_trampolineDescriptor] at hlen
  set words := (trampolineDescriptor calls target mode).map BitVec.toNat with hwords
  have hi' : i < words.length := by rwa [hwords, List.length_map]
  have hword : words[i] = (trampolineDescriptor calls target mode)[i].toNat := List.getElem_map BitVec.toNat
  have hcode : (trampolineCode.map BitVec.toNat).length = 24 := rfl
  simp only [maxTrampolineCalls] at hcap
  -- The scratch word and the stub are stored later, behind the table and before it.
  have hkept : readWord (fillTrampoline mem p calls target sp mode) (p + (trampolineDescriptorOffset + 8 * i)) =
      readWord (fillAll mem 8 (p + (trampolineCodeOffset + trampolineDescriptorOffset)) words)
        (p + (trampolineDescriptorOffset + 8 * i)) := by
    refine readLE_congr fun k hk => ?_
    simp only [fillTrampoline, trampolineCodeOffset, trampolineDescriptorOffset, trampolineScratchOffset]
    rw [fillAll_of_notMem (by omega), writeWord, fill_of_notMem (by omega)]
  have hplace : p + (trampolineDescriptorOffset + 8 * i) = p + (trampolineCodeOffset + trampolineDescriptorOffset) + 8 * i := by
    simp only [trampolineCodeOffset]
    omega
  have hsmall : words[i] < 256 ^ 8 := hword ▸ (trampolineDescriptor calls target mode)[i].isLt
  rw [readWord, readLE_withPage (by simp only [trampolineDescriptorOffset]; omega), ← hword]
  rw [readWord] at hkept
  rw [hkept, hplace]
  exact readLE_fillAll hi' hsmall

theorem readWord_scratch : readWord (withPage page p (fillTrampoline mem p calls target sp mode) user)
    (page + trampolineScratchOffset) = sp.toNat := by
  have hcode : (trampolineCode.map BitVec.toNat).length = 24 := rfl
  rw [readWord, readLE_withPage (by decide), fillTrampoline]
  have hkept : ∀ m : ByteMem, readWord (fillAll m 4 (p + trampolineCodeOffset) (trampolineCode.map BitVec.toNat))
      (p + trampolineScratchOffset) = readWord m (p + trampolineScratchOffset) := by
    intro m
    refine readLE_congr fun k hk => ?_
    simp only [trampolineCodeOffset, trampolineScratchOffset]
    exact fillAll_of_notMem (by omega)
  exact (hkept _).trans (readWord_writeWord sp.isLt)

end Page

section Blocks

def startBlock : List Insn := [.adrp 20 0, .addImm 20 20 0x400, .ldr 19 20 0, .movz 21 0]

def headBlock : List Insn := [.subsReg 31 21 19 0, .bCond 2 7]

def callBlock : List Insn :=
  [.addReg 22 20 21 3, .addImm 22 22 8, .ldr 22 22 0, .blr 22, .addImm 21 21 1, .b (-7)]

def doneBlock : List Insn :=
  [.addReg 22 20 19 3, .addImm 22 22 8, .ldr 9 22 0, .ldr 10 22 1, .subsImm 31 10 0, .bCond 1 4]

def entryBlock : List Insn := [.movz 0 0, .ldr 1 20 0x70, .br 9]

def exitBlock : List Insn := [.orrReg 0 31 9 0, .svc 2]

def listing : List Insn := startBlock ++ headBlock ++ callBlock ++ doneBlock ++ entryBlock ++ exitBlock ++ [.b 0]

theorem decode_trampolineCode : trampolineCode.map decode = listing.map some := by rfl

variable {e : Env} {s : Machine} {base i : ℕ}

theorem decode_block {insns : List Insn} (h : insns <+: listing.drop i) :
    insns.map some <+: (trampolineCode.drop i).map decode := by
  rw [List.map_drop, decode_trampolineCode, ← List.map_drop]
  exact h.map some

theorem execs_startBlock (hpc : s.pc = place base 0) (hbase : base % 4096 = 0) (hfit : base + 4096 ≤ 2 ^ 64) :
    let t := e.execs s startBlock
    t.x 19 = BitVec.ofNat 64 (readWord s.mem (base + 0x400)) ∧ t.x 20 = BitVec.ofNat 64 (base + 0x400) ∧
    t.x 21 = BitVec.ofNat 64 0 ∧ t.sp = s.sp ∧ t.trace = s.trace := by
  have hpcNat : s.pc.toNat / 4096 * 4096 = base := by
    rw [hpc, place, BitVec.toNat_ofNat, Nat.mod_eq_of_lt (by omega)]
    omega
  have haddr : (base + 1024) % 18446744073709551616 = base + 1024 := Nat.mod_eq_of_lt (by omega)
  have htable : BitVec.ofNat 64 base + 1024#64 = BitVec.ofNat 64 (base + 1024) := (BitVec.ofNat_add _ _).symm
  simp [startBlock, Env.execs, Env.exec, Machine.next, Cpu.setReg, Cpu.setRegSp, Cpu.regSp, hpcNat, haddr, htable]

/-- The loop leaves its head when the index is not below the count. -/
theorem execs_headBlock (hpc : s.pc = place base i) :
    let t := e.execs s headBlock
    t.pc = place base (if s.x 19 ≤ s.x 21 then i + 8 else i + 2) ∧ t.x = s.x ∧ t.sp = s.sp ∧ t.trace = s.trace := by
  have hcmp : (e.exec s (.subsReg 31 21 19 0)).flags.holds 2 = decide (s.x 19 ≤ s.x 21) := by
    rw [Flags.holds_hs]
    simp [Env.exec, Machine.next, Cpu.reg, subFlags]
  have hpc' : (e.exec s (.subsReg 31 21 19 0)).pc = place base (i + 1) := by rw [Env.exec_pc rfl, hpc, place_succ]
  by_cases hle : s.x 19 ≤ s.x 21
  · have hblock : e.execs s headBlock = (e.exec s (.subsReg 31 21 19 0)).jump 7 :=
      Env.exec_taken (e := e) (hcmp.trans (decide_eq_true hle))
    rw [hblock, if_pos hle]
    exact ⟨Machine.jump_pc hpc' (by omega), rfl, rfl, rfl⟩
  · have hblock : e.execs s headBlock = (e.exec s (.subsReg 31 21 19 0)).next (e.exec s (.subsReg 31 21 19 0)).toCpu :=
      Env.exec_untaken (e := e) (hcmp.trans (decide_eq_false hle))
    rw [hblock, if_neg hle]
    exact ⟨Machine.next_pc hpc', rfl, rfl, rfl⟩

/-- One call: the address is read from the table, and the index moves on. -/
theorem execs_callBlock (he : Preserves e.callee) :
    let t := e.execs s callBlock
    t.x 19 = s.x 19 ∧ t.x 20 = s.x 20 ∧ t.x 21 = s.x 21 + 1 ∧ t.sp = s.sp ∧
    t.trace = s.trace ++ [.call (BitVec.ofNat 64 (readWord s.mem (s.x 20 + s.x 21 <<< 3 + 8).toNat))] := by
  have h19 : ∀ trace a c, (e.callee trace a c).x 19#5 = c.x 19#5 := fun trace a c => he.saved trace a c 19 (by decide)
  have h20 : ∀ trace a c, (e.callee trace a c).x 20#5 = c.x 20#5 := fun trace a c => he.saved trace a c 20 (by decide)
  have h21 : ∀ trace a c, (e.callee trace a c).x 21#5 = c.x 21#5 := fun trace a c => he.saved trace a c 21 (by decide)
  simp [callBlock, Env.execs, Env.exec, Env.call, Machine.next, Machine.jump, Cpu.setReg, Cpu.setRegSp, Cpu.reg, Cpu.regSp,
    he.sp, h19, h20, h21]

/-- After the last call the target and the mode are read behind the table. -/
theorem execs_doneBlock (hpc : s.pc = place base i) :
    let t := e.execs s doneBlock
    let a := s.x 20 + s.x 19 <<< 3 + 8
    t.x 9 = BitVec.ofNat 64 (readWord s.mem a.toNat) ∧ t.x 20 = s.x 20 ∧ t.sp = s.sp ∧ t.trace = s.trace ∧
    t.pc = place base (if BitVec.ofNat 64 (readWord s.mem (a + 8).toNat) = 0 then i + 6 else i + 9) := by
  intro t a
  set u := e.execs s doneBlock.dropLast with hu
  have hfields : u.x 9 = BitVec.ofNat 64 (readWord s.mem a.toNat) ∧ u.x 20 = s.x 20 ∧ u.sp = s.sp ∧ u.trace = s.trace := by
    simp [hu, doneBlock, Env.execs, Env.exec, Machine.next, Cpu.setReg, Cpu.setRegSp, Cpu.reg, Cpu.regSp, a]
  have hmode : u.flags.holds 1 = !(BitVec.ofNat 64 (readWord s.mem (a + 8).toNat) == 0) := by
    rw [Flags.holds_ne]
    simp [hu, doneBlock, Env.execs, Env.exec, Machine.next, Cpu.setReg, Cpu.setRegSp, Cpu.reg, Cpu.regSp, subFlags, a]
  have hpc' : u.pc = place base (i + 5) := Env.execs_pc hpc rfl
  have hblock : t = e.exec u (.bCond 1 4) := 
    (Env.execs_concat : e.execs s (doneBlock.dropLast ++ [.bCond 1 4]) = e.exec u (.bCond 1 4))
  by_cases hzero : BitVec.ofNat 64 (readWord s.mem (a + 8).toNat) = 0
  · rw [hzero] at hmode
    have hnext : t = u.next u.toCpu := hblock.trans (Env.exec_untaken hmode)
    rw [hnext, if_pos hzero]
    exact ⟨hfields.1, hfields.2.1, hfields.2.2.1, hfields.2.2.2, Machine.next_pc hpc'⟩
  · rw [beq_false_of_ne hzero] at hmode
    have hjump : t = u.jump 4 := hblock.trans (Env.exec_taken hmode)
    rw [hjump, if_neg hzero]
    exact ⟨hfields.1, hfields.2.1, hfields.2.2.1, hfields.2.2.2, Machine.jump_pc hpc' (by omega)⟩

theorem execs_entryBlock :
    let t := e.execs s entryBlock
    t.pc = s.x 9 ∧ t.x 0 = 0 ∧ t.x 1 = BitVec.ofNat 64 (readWord s.mem (s.x 20 + 0x380).toNat) ∧ t.sp = s.sp ∧
    t.trace = s.trace := by
  simp [entryBlock, Env.execs, Env.exec, Machine.next, Cpu.setReg, Cpu.reg, Cpu.regSp]

theorem execs_exitBlock : (e.execs s exitBlock).trace = s.trace ++ [.svc 2 (s.x 9)] := by
  simp [exitBlock, Env.execs, Env.exec, Machine.next, Cpu.setReg, Cpu.reg]

end Blocks

section Runs

variable {e : Env} {s : Machine} {m : ByteMem} {page i : ℕ} {calls : List Word} {target sp w : Word} {mode : TrampolineMode}

/-- A memory with the filled page in it, which nothing that runs in these surroundings can write. -/
structure Filled (e : Env) (m : ByteMem) (page : ℕ) (calls : List Word) (target sp : Word) (mode : TrampolineMode) : Prop where
  loaded : Loaded e m page trampolineCode
  readOnly : ∀ a, page ≤ a → a < page + 4096 → e.readOnly a = true
  descriptor : ∀ i w, (trampolineDescriptor calls target mode)[i]? = some w → readWord m (page + (0x400 + 8 * i)) = w.toNat
  scratch : readWord m (page + 0x780) = sp.toNat
  cap : calls.length ≤ maxTrampolineCalls
  aligned : page % 4096 = 0
  fits : page + 4096 ≤ 2 ^ 64

/-- The stub at the head of its loop, after `i` calls. -/
structure Looping (e : Env) (m : ByteMem) (page : ℕ) (calls : List Word) (sp : Word) (i : ℕ) (s : Machine) : Prop where
  pc : s.pc = place page 4
  mem : ∀ a, e.readOnly a = true → s.mem a = m a
  count : s.x 19 = BitVec.ofNat 64 calls.length
  table : s.x 20 = BitVec.ofNat 64 (page + 0x400)
  index : s.x 21 = BitVec.ofNat 64 i
  sp : s.sp = sp
  trace : s.trace = (calls.take i).map .call

theorem Filled.loaded_of_kept (h : Filled e m page calls target sp mode) (hmem : ∀ a, e.readOnly a = true → s.mem a = m a) :
    Loaded e s.mem page trampolineCode := by
  refine ⟨fun i hi => ?_, h.loaded.readOnly, h.loaded.fits⟩
  rw [← h.loaded.words i hi]
  exact readLE_congr fun k hk => hmem _ (h.loaded.readOnly _ (by omega) (by omega))

theorem Filled.readWord_of_kept (h : Filled e m page calls target sp mode) (hmem : ∀ a, e.readOnly a = true → s.mem a = m a)
    {o : ℕ} (ho : o + 8 ≤ 4096) : readWord s.mem (page + o) = readWord m (page + o) :=
  readLE_congr fun k hk => hmem _ (h.readOnly _ (by omega) (by omega))

/-- The address of entry `i` of the table, as the stub computes it. -/
theorem Filled.toNat_entry (h : Filled e m page calls target sp mode) (hi : i ≤ calls.length) :
    (BitVec.ofNat 64 (page + 0x400) + BitVec.ofNat 64 i <<< 3 + 8).toNat = page + (0x400 + 8 * (i + 1)) := by
  have hcap := h.cap
  have hfits := h.fits
  have height : (8 : Word).toNat = 8 := rfl
  simp only [maxTrampolineCalls] at hcap
  simp only [BitVec.toNat_add, BitVec.toNat_shiftLeft, BitVec.toNat_ofNat, Nat.shiftLeft_eq]
  omega

/-- What the stub loads from the table. -/
theorem Filled.readWord_table (h : Filled e m page calls target sp mode) (hmem : ∀ a, e.readOnly a = true → s.mem a = m a)
    (hw : (trampolineDescriptor calls target mode)[i]? = some w) {a : Word} (ha : a.toNat = page + (0x400 + 8 * i)) :
    BitVec.ofNat 64 (readWord s.mem a.toNat) = w := by
  obtain ⟨hi, -⟩ := List.getElem?_eq_some_iff.mp hw
  have hcap := h.cap
  rw [length_trampolineDescriptor] at hi
  simp only [maxTrampolineCalls] at hcap
  rw [ha, h.readWord_of_kept hmem (by omega), h.descriptor _ _ hw, BitVec.ofNat_toNat, BitVec.setWidth_eq]

theorem Filled.start (h : Filled e m page calls target sp mode) (hmem : ∀ a, e.readOnly a = true → s.mem a = m a)
    (hpc : s.pc = place page 0) (hsp : s.sp = sp) (htrace : s.trace = []) :
    ∃ t, e.Reaches s t ∧ Looping e m page calls sp 0 t := by
  have hrun : e.Reaches s (e.execs s startBlock) := (h.loaded_of_kept hmem).reaches_block hpc (decode_block (by decide)) rfl
  obtain ⟨hcount, htable, hindex, hsp', htrace'⟩ := execs_startBlock (e := e) hpc h.aligned h.fits
  have hread : readWord s.mem (page + 0x400) = (BitVec.ofNat 64 calls.length).toNat :=
    (h.readWord_of_kept hmem (by norm_num)).trans (h.descriptor 0 _ rfl)
  refine ⟨_, hrun, Env.execs_pc hpc rfl, fun a ha => (Env.execs_mem ha).trans (hmem a ha), ?_, htable, hindex, hsp'.trans hsp,
    htrace'.trans htrace⟩
  rw [hcount, hread, BitVec.ofNat_toNat, BitVec.setWidth_eq]

/-- One turn of the loop calls the next address of the table. -/
theorem Looping.step (h : Looping e m page calls sp i s) (hpage : Filled e m page calls target sp mode)
    (he : Preserves e.callee) (hi : i < calls.length) : ∃ t, e.Reaches s t ∧ Looping e m page calls sp (i + 1) t := by
  have hcap := hpage.cap
  simp only [maxTrampolineCalls] at hcap
  have hhead : e.Reaches s (e.execs s headBlock) := (hpage.loaded_of_kept h.mem).reaches_block h.pc (decode_block (by decide)) rfl
  obtain ⟨hpc, hx, hsp, htrace⟩ := execs_headBlock (e := e) h.pc
  set u := e.execs s headBlock with hu
  have hmem : ∀ a, e.readOnly a = true → u.mem a = m a := fun a ha => (Env.execs_mem ha).trans (h.mem a ha)
  have hbelow : ¬ s.x 19 ≤ s.x 21 := by
    rw [h.count, h.index, BitVec.le_def, BitVec.toNat_ofNat, BitVec.toNat_ofNat]
    omega
  rw [if_neg hbelow] at hpc
  have hcall : e.Reaches u (e.execs u callBlock) := (hpage.loaded_of_kept hmem).reaches_block hpc (decode_block (by decide)) rfl
  obtain ⟨h19, h20, h21, hsp', htrace'⟩ := execs_callBlock (e := e) (s := u) he
  have hword : (trampolineDescriptor calls target mode)[i + 1]? = some calls[i] := by
    rw [trampolineDescriptor, List.append_assoc, List.singleton_append, List.getElem?_cons_succ, List.getElem?_append_left hi,
      List.getElem?_eq_getElem hi]
  have htarget := hpage.readWord_table hmem hword (hpage.toNat_entry hi.le)
  rw [← h.table, ← h.index, ← hx] at htarget
  refine ⟨_, hhead.trans hcall, ?_, fun a ha => (Env.execs_mem ha).trans (hmem a ha), ?_, ?_, ?_, ?_, ?_⟩
  · have hback : (e.execs u (callBlock.dropLast ++ [.b (-7)])).pc = place page 4 := by
      rw [Env.execs_concat]
      exact Machine.jump_pc (Env.execs_pc hpc rfl) rfl
    exact hback
  · rw [h19, hx, h.count]
  · rw [h20, hx, h.table]
  · rw [h21, hx, h.index, BitVec.ofNat_add]
    rfl
  · rw [hsp', hsp, h.sp]
  · rw [htrace', htarget, htrace, h.trace, List.take_succ_eq_append_getElem hi, List.map_append, List.map_singleton]

theorem Looping.run (h : Looping e m page calls sp 0 s) (hpage : Filled e m page calls target sp mode) (he : Preserves e.callee) :
    ∃ t, e.Reaches s t ∧ Looping e m page calls sp calls.length t := by
  have hall : ∀ i ≤ calls.length, ∃ t, e.Reaches s t ∧ Looping e m page calls sp i t := by
    intro i hi
    induction i with
    | zero => exact ⟨s, .refl, h⟩
    | succ i ih =>
      obtain ⟨t, ht, hloop⟩ := ih (Nat.le_of_succ_le hi)
      obtain ⟨u, hu, hnext⟩ := hloop.step hpage he hi
      exact ⟨u, ht.trans hu, hnext⟩
  exact hall _ le_rfl

/-- What the machine has done when the stub is over. -/
def Finished (calls : List Word) (target sp : Word) (t : Machine) : TrampolineMode → Prop
  | .branchToEntry => t.trace = calls.map .call ∧ t.pc = target ∧ t.x 0 = 0 ∧ t.x 1 = sp ∧ t.sp = sp
  | .exitProcess => t.trace = calls.map .call ++ [.svc 2 target]

/-- The stub after its last call, with the target and the mode in hand. -/
structure Decided (e : Env) (m : ByteMem) (page : ℕ) (calls : List Word) (target sp : Word) (i : ℕ) (s : Machine) : Prop where
  pc : s.pc = place page i
  mem : ∀ a, e.readOnly a = true → s.mem a = m a
  table : s.x 20 = BitVec.ofNat 64 (page + 0x400)
  target : s.x 9 = target
  sp : s.sp = sp
  trace : s.trace = calls.map .call

theorem Looping.leave (h : Looping e m page calls sp calls.length s) (hpage : Filled e m page calls target sp mode) :
    ∃ t, e.Reaches s t ∧ Decided e m page calls target sp (if modeWord mode = 0 then 18 else 21) t := by
  have hhead : e.Reaches s (e.execs s headBlock) := (hpage.loaded_of_kept h.mem).reaches_block h.pc (decode_block (by decide)) rfl
  obtain ⟨hpc, hx, hsp, htrace⟩ := execs_headBlock (e := e) h.pc
  set u := e.execs s headBlock with hu
  have hmem : ∀ a, e.readOnly a = true → u.mem a = m a := fun a ha => (Env.execs_mem ha).trans (h.mem a ha)
  rw [if_pos (by rw [h.count, h.index]; exact BitVec.le_refl _)] at hpc
  have hdone : e.Reaches u (e.execs u doneBlock) := (hpage.loaded_of_kept hmem).reaches_block hpc (decode_block (by decide)) rfl
  obtain ⟨h9, h20, hsp', htrace', hpc'⟩ := execs_doneBlock (e := e) hpc
  have htail : ∀ k, (trampolineDescriptor calls target mode)[calls.length + k + 1]? = [target, modeWord mode][k]? := by
    intro k
    rw [trampolineDescriptor, List.append_assoc, List.singleton_append, List.getElem?_cons_succ,
      List.getElem?_append_right (Nat.le_add_right _ _), Nat.add_sub_cancel_left]
  have hentry := hpage.toNat_entry le_rfl
  rw [← h.table, ← h.count, ← hx] at hentry
  set a := u.x 20 + u.x 19 <<< 3 + 8 with ha
  have hnext : (a + 8).toNat = page + (0x400 + 8 * (calls.length + 1 + 1)) := by
    have hcap := hpage.cap
    have hfits := hpage.fits
    have height : (8 : Word).toNat = 8 := rfl
    simp only [maxTrampolineCalls] at hcap
    rw [BitVec.toNat_add, hentry]
    omega
  rw [hpage.readWord_table hmem (htail 0) hentry] at h9
  rw [hpage.readWord_table hmem (htail 1) hnext] at hpc'
  refine ⟨_, hhead.trans hdone, hpc', fun a ha => (Env.execs_mem ha).trans (hmem a ha), ?_, h9, ?_, ?_⟩
  · rw [h20, hx, h.table]
  · rw [hsp', hsp, h.sp]
  · rw [htrace', htrace, h.trace, List.take_length]

theorem Decided.enter (h : Decided e m page calls target sp 18 s) (hpage : Filled e m page calls target sp mode) :
    ∃ t, e.Reaches s t ∧ Finished calls target sp t .branchToEntry := by
  have hrun : e.Reaches s (e.execs s entryBlock) := (hpage.loaded_of_kept h.mem).reaches_block h.pc (decode_block (by decide)) rfl
  obtain ⟨hpc, h0, h1, hsp, htrace⟩ := execs_entryBlock (e := e) (s := s)
  have hscratch : (s.x 20 + 0x380).toNat = page + 0x780 := by
    have hfits := hpage.fits
    have hoff : (0x380 : Word).toNat = 0x380 := rfl
    rw [h.table, BitVec.toNat_add, BitVec.toNat_ofNat]
    omega
  rw [hscratch, hpage.readWord_of_kept h.mem (by norm_num), hpage.scratch, BitVec.ofNat_toNat, BitVec.setWidth_eq] at h1
  exact ⟨_, hrun, htrace.trans h.trace, hpc.trans h.target, h0, h1, hsp.trans h.sp⟩

theorem Decided.exit (h : Decided e m page calls target sp 21 s) (hpage : Filled e m page calls target sp mode) :
    ∃ t, e.Reaches s t ∧ Finished calls target sp t .exitProcess := by
  have hrun : e.Reaches s (e.execs s exitBlock) := (hpage.loaded_of_kept h.mem).reaches_block h.pc (decode_block (by decide)) rfl
  refine ⟨_, hrun, ?_⟩
  rw [Finished, execs_exitBlock, h.trace, h.target]

theorem Filled.run (hpage : Filled e m page calls target sp mode) (he : Preserves e.callee)
    (hmem : ∀ a, e.readOnly a = true → s.mem a = m a) (hpc : s.pc = place page 0) (hsp : s.sp = sp) (htrace : s.trace = []) :
    ∃ t, e.Reaches s t ∧ Finished calls target sp t mode := by
  obtain ⟨t, ht, hloop⟩ := hpage.start hmem hpc hsp htrace
  obtain ⟨u, hu, hend⟩ := hloop.run hpage he
  obtain ⟨v, hv, hdecided⟩ := hend.leave hpage
  cases mode with
  | branchToEntry =>
    obtain ⟨w, hw, hfinished⟩ := hdecided.enter hpage
    exact ⟨w, ((ht.trans hu).trans hv).trans hw, hfinished⟩
  | exitProcess =>
    obtain ⟨w, hw, hfinished⟩ := hdecided.exit hpage
    exact ⟨w, ((ht.trans hu).trans hv).trans hw, hfinished⟩

end Runs

section Main

variable {p : ℕ} {x : Reg → Word} {flags : Flags} {mem user : ByteMem} {calls : List Word} {target sp : Word}
  {mode : TrampolineMode} {callee : Callee}

theorem filled_trampoline {page : ℕ} (hcap : calls.length ≤ maxTrampolineCalls) (haligned : page % 4096 = 0)
    (hfits : page + 4096 ≤ 2 ^ 64) : Filled (trampolineEnv page callee)
      (withPage page p (fillTrampoline mem p calls target sp mode) user) page calls target sp mode where
  loaded := loaded_trampoline hfits
  readOnly _ ha ha' := decide_eq_true ⟨ha, ha'⟩
  descriptor _ _ hw := readWord_descriptor hcap hw
  scratch := readWord_scratch
  cap := hcap
  aligned := haligned
  fits := hfits

/-- Whatever the process has in its registers and elsewhere in its memory, and whatever the page held before it was
filled, the stub calls the addresses of the list in order and then enters the image or exits. -/
theorem trampoline_executes (hcap : calls.length ≤ maxTrampolineCalls) (hcallee : Preserves callee) :
    ∃ t, (trampolineEnv trampolinePage callee).Reaches
      (enterTrampoline trampolinePage p x flags mem user calls target sp mode) t ∧ Finished calls target sp t mode :=
  (filled_trampoline hcap (by decide) (by decide)).run hcallee (fun _ _ => rfl) rfl rfl rfl

/-- Two constructors that return at once. -/
theorem trampoline_executes_two :
    ∃ t, (trampolineEnv trampolinePage fun _ _ c => c).Reaches
      (enterTrampoline trampolinePage 0 (fun _ => 7) ⟨true, false, true, false⟩ (fun _ => 9) (fun _ => 0)
        [0x400000, 0x400100] 0x400200 0x3FFFDFC0 .branchToEntry) t ∧
      Finished [0x400000, 0x400100] 0x400200 0x3FFFDFC0 t .branchToEntry :=
  trampoline_executes (by decide) ⟨fun _ _ _ _ _ => rfl, fun _ _ _ => rfl⟩

end Main

end HouseKernel.Userspace
