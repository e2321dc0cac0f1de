import HouseKernel.El0.Assembly
import HouseKernel.Lib.Run

/-! An EL0 register state through one interruption: the exception saves it in a frame on the
kernel stack, the handler parks the frame in the session's slot, and a later resume loads it
from there. What comes back is compared with what was interrupted, for one interruption and
for programs that are interrupted anywhere. -/
namespace HouseKernel.El0

open HouseKernel.Lib

/-- What the exception finds at EL1: the kernel stack with room for the frame, memory and the
syndrome registers. -/
structure KernelEntry where
  sp : ℕ
  mem : ℕ → Word
  esr : Word
  far : Word
  ttbr0 : Word
  room : 896 ≤ sp
  bound : sp < 2^64

/-- The exception itself: PC, flags and SP_EL0 go to their EL1 registers. -/
def takeException (k : KernelEntry) (s : El0State) : Cpu where
  x := s.x
  q := s.q
  sp := k.sp
  mem := k.mem
  sys
    | .elrEl1 => s.pc
    | .spsrEl1 => s.nzcv.setWidth 64 <<< 28
    | .spEl0 => s.sp
    | .tpidrEl0 => s.tpidr
    | .ttbr0El1 => k.ttbr0
    | .esrEl1 => k.esr
    | .farEl1 => k.far

/-- Return to EL0t: the flags come from SPSR_EL1. -/
def eret (c : Cpu) : El0State where
  x := c.x
  sp := c.sys .spEl0
  pc := c.sys .elrEl1
  nzcv := (c.sys .spsrEl1).extractLsb' 28 4
  tpidr := c.sys .tpidrEl0
  q := c.q

/-- A demand-page or copy-on-write fault of the session with root `cur`: `c_handle_sync` parks
the frame at x3 with the ELR of x2 and the fault address of x1. -/
def parkFault (t : El0Table) (cur : ℕ) (c : Cpu) : ℕ × El0Table :=
  let d := execAll c vecSync
  houseEl0ParkFault t cur (d.x 2) (d.sys .spEl0) (frameAt d.mem (d.x 3).toNat) (d.x 1)

/-- An expired quantum: `c_handle_irq` parks the frame at x0 with the interrupted ELR. -/
def parkTick (t : El0Table) (cur : ℕ) (c : Cpu) : ℕ × El0Table :=
  let d := execAll c vecIrq
  parkPreempt t cur (d.sys .elrEl1) (d.sys .spEl0) (frameAt d.mem (d.x 0).toNat)

/-- The kernel when it resumes a slot: any register values, a stack with room for the entry
frame, and the slot's save area apart from that stack. -/
structure KernelExit where
  cpu : Cpu
  savePtr : Word
  asid : Word
  room : 112 ≤ cpu.sp
  apart : savePtr.toNat + 896 ≤ cpu.sp - 112 ∨ cpu.sp ≤ savePtr.toNat

def frameWords (f : Frame) (p : ℕ) : List (ℕ × Word) :=
  (List.finRange 112).map fun i => (p + 8*i.val, f i)

/-- The call of `house_resume_asm` for a slot: its arguments, and its save area in memory. -/
def resumeCall (k : KernelExit) (slot : El0Slot) : Cpu :=
  { k.cpu with
    x := writeAll [(0, k.savePtr), (1, slot.elr), (2, slot.spEl0), (3, BitVec.ofNat 64 slot.pdir),
      (4, k.asid)] k.cpu.x
    mem := writeAll (frameWords slot.save k.savePtr.toNat) k.cpu.mem }

def resumeSlot (k : KernelExit) (slot : El0Slot) : El0State := eret (execAll (resumeCall k slot) houseResumeAsm)

inductive Cause where
  | preempt
  | fault

/-- One interruption with the kernel around it. -/
structure Interruption where
  cause : Cause
  entry : KernelEntry
  exit : KernelExit

/-- The session parks, the supervisor resumes it with the parked x0; `none` when the session
has no slot. -/
def interrupt (cur : ℕ) (i : Interruption) (s : El0State) (t : El0Table) : Option (El0State × El0Table) :=
  let c := takeException i.entry s
  let parked := match i.cause with
    | .preempt => parkTick t cur c
    | .fault => parkFault t cur c
  if parked.1 = 0 then none
  else match parked.2.find? (keyed cur) with
    | none => none
    | some slot => match houseResumeEl0 parked.2 cur (slot.save 0) with
      | (_, t', some entered) => some (resumeSlot i.exit entered, t')
      | _ => none

/-- A frame that holds the registers of this state. -/
structure FrameOf (f : Frame) (x : Fin 31 → Word) (q : Fin 32 → BitVec 128) : Prop where
  x : ∀ i : Fin 31, f ⟨i, by omega⟩ = x i
  lo : ∀ j : Fin 32, f ⟨32 + 2*j, by omega⟩ = lo (q j)
  hi : ∀ j : Fin 32, f ⟨33 + 2*j, by omega⟩ = hi (q j)

lemma store_read {c : Cpu} {p off : ℕ} {src : Source} {ws : List (ℕ × Source)}
    (hnd : (ws.map Prod.fst).Nodup) (h : (off, src) ∈ ws) : (c.store p ws).mem (p + off) = c.read src := by
  apply writeAll_of_mem
  · rw [List.map_map]
    have : (ws.map fun w => p + w.1) = (ws.map Prod.fst).map (p + ·) := by simp
    rw [show (Prod.fst ∘ fun w : ℕ × Source => (p + w.1, c.read w.2)) = fun w => p + w.1 from rfl, this]
    exact hnd.map (fun a b hab => Nat.add_left_cancel hab)
  · exact List.mem_map.mpr ⟨(off, src), h, rfl⟩

lemma store_of_ne {c : Cpu} {p a : ℕ} {ws : List (ℕ × Source)} (h : ∀ w ∈ ws, a ≠ p + w.1) :
    (c.store p ws).mem a = c.mem a := by
  apply writeAll_of_notMem
  simp only [List.map_map, List.mem_map, not_exists, not_and]
  intro w hw heq
  exact h w hw heq.symm

lemma saveX_stores : (∀ i ∈ saveX, i.isSpStore = true) ∧ ((saveX.flatMap Insn.stores).map Prod.fst).Nodup ∧
    ∀ i : Fin 31, (8*i.val, Source.reg (.x i)) ∈ saveX.flatMap Insn.stores := by
  decide

lemma saveQ_stores : (∀ i ∈ saveQ, i.isSpStore = true) ∧ ((saveQ.flatMap Insn.stores).map Prod.fst).Nodup ∧
    (∀ w ∈ saveQ.flatMap Insn.stores, 248 ≤ w.1) ∧
    ∀ j : Fin 32, (256 + 16*j.val, Source.lo j) ∈ saveQ.flatMap Insn.stores ∧
      (264 + 16*j.val, Source.hi j) ∈ saveQ.flatMap Insn.stores := by
  decide

/-- The head of a vector leaves the interrupted registers in the frame below the stack. -/
theorem execAll_saveFrame (c : Cpu) :
    (execAll c saveFrame).sp = c.sp - 896 ∧ (execAll c saveFrame).sys = c.sys ∧
      FrameOf (frameAt (execAll c saveFrame).mem (c.sp - 896)) c.x c.q := by
  obtain ⟨hx, hxnd, hxmem⟩ := saveX_stores
  obtain ⟨hq, hqnd, hqlow, hqmem⟩ := saveQ_stores
  have hexec : execAll c saveFrame =
      ((Cpu.store { c with sp := c.sp - 896 } (c.sp - 896) (saveX.flatMap Insn.stores)).set (.x 17)
        (BitVec.ofNat 64 (c.sp - 896 + 896))).store (c.sp - 896) (saveQ.flatMap Insn.stores) := by
    rw [saveFrame, execAll_cons, execAll_append, execAll_stores hx, execAll_cons, execAll_stores hq]
    rfl
  rw [hexec]
  refine ⟨by simp only [Cpu.store, Cpu.set], by simp only [Cpu.store, Cpu.set],
    ⟨fun i => ?_, fun j => ?_, fun j => ?_⟩⟩
  · -- the general registers lie below everything the second run of stores writes
    have hbelow : ∀ w ∈ saveQ.flatMap Insn.stores, c.sp - 896 + 8*i.val ≠ c.sp - 896 + w.1 := by
      intro w hw
      have := hqlow w hw
      omega
    exact (store_of_ne hbelow).trans (store_read hxnd (hxmem i))
  · have hread := store_read (c := Cpu.set (Cpu.store { c with sp := c.sp - 896 } (c.sp - 896)
      (saveX.flatMap Insn.stores)) (.x 17) (BitVec.ofNat 64 (c.sp - 896 + 896))) (p := c.sp - 896) hqnd (hqmem j).1
    simp only [frameAt, show 8*(32 + 2*j.val) = 256 + 16*j.val by omega]
    exact hread
  · have hread := store_read (c := Cpu.set (Cpu.store { c with sp := c.sp - 896 } (c.sp - 896)
      (saveX.flatMap Insn.stores)) (.x 17) (BitVec.ofNat 64 (c.sp - 896 + 896))) (p := c.sp - 896) hqnd (hqmem j).2
    simp only [frameAt, show 8*(33 + 2*j.val) = 264 + 16*j.val by omega]
    exact hread

lemma frame_pointer (k : KernelEntry) : (k.sp - 896) % 18446744073709551616 = k.sp - 896 := by
  have := k.bound
  exact Nat.mod_eq_of_lt (by omega)

/-- The frame that the vectors hand to their handlers. -/
def entryFrame (k : KernelEntry) (s : El0State) : Frame :=
  frameAt (execAll (takeException k s) saveFrame).mem (k.sp - 896)

lemma parkFault_eq (t : El0Table) (cur : ℕ) (k : KernelEntry) (s : El0State) :
    parkFault t cur (takeException k s) =
      parkFrame t cur (entryFrame k s) s.pc s.sp reqFault fun _ => k.far &&& ~~~4095 := by
  obtain ⟨hsp, hsys, -⟩ := execAll_saveFrame (takeException k s)
  have hsp' : (execAll (takeException k s) saveFrame).sp = k.sp - 896 := hsp
  simp only [parkFault, vecSync, execAll_append, execAll_cons, execAll_nil, exec, Cpu.set, hsys, hsp',
    houseEl0ParkFault]
  simp [frame_pointer, entryFrame, takeException]

lemma parkTick_eq (t : El0Table) (cur : ℕ) (k : KernelEntry) (s : El0State) :
    parkTick t cur (takeException k s) =
      parkFrame t cur (entryFrame k s) s.pc s.sp reqPreempt fun _ => 0 := by
  obtain ⟨hsp, hsys, -⟩ := execAll_saveFrame (takeException k s)
  have hsp' : (execAll (takeException k s) saveFrame).sp = k.sp - 896 := hsp
  simp only [parkTick, vecIrq, execAll_append, execAll_cons, execAll_nil, exec, Cpu.set, hsys, hsp',
    parkPreempt]
  simp [frame_pointer, entryFrame, takeException]

lemma execAll_resumeEntry (c : Cpu) :
    (execAll c houseResumeEntry).x 0 = c.x 0 ∧
      (execAll c houseResumeEntry).sys .elrEl1 = c.x 1 ∧
      (execAll c houseResumeEntry).sys .spEl0 = c.x 2 ∧
      (execAll c houseResumeEntry).sys .spsrEl1 = 0 ∧
      (execAll c houseResumeEntry).sys .tpidrEl0 = 0 := by
  simp [houseResumeEntry, exec, Cpu.set, Cpu.get, Cpu.store]

/-- The pushes of the resume path stay on the kernel stack. -/
lemma execAll_resumeEntry_mem (c : Cpu) {a : ℕ} (hroom : 112 ≤ c.sp) (ha : a < c.sp - 112 ∨ c.sp ≤ a) :
    (execAll c houseResumeEntry).mem a = c.mem a := by
  simp only [houseResumeEntry, execAll_cons, execAll_nil, exec, Cpu.set, Cpu.store, List.map_cons,
    List.map_nil, writeAll_cons, writeAll_nil]
  simp (disch := omega) only [Function.update_of_ne]

lemma writeAll_frameWords (f : Frame) (p : ℕ) (m : ℕ → Word) (i : Fin 112) :
    writeAll (frameWords f p) m (p + 8*i.val) = f i := by
  apply writeAll_of_mem
  · rw [frameWords, List.map_map]
    refine (List.nodup_finRange 112).map fun i j hij => ?_
    have hij : p + 8*i.val = p + 8*j.val := hij
    omega
  · exact List.mem_map.mpr ⟨i, List.mem_finRange i, rfl⟩

lemma loadQ_loads : (∀ i ∈ loadQ, i.isQLoad = true) ∧ ((loadQ.flatMap Insn.qLoads).map Prod.fst).Nodup ∧
    ∀ j : Fin 32, (j, 256 + 16*j.val) ∈ loadQ.flatMap Insn.qLoads := by
  decide

lemma loadX_loads : (∀ i ∈ loadX, i.isXLoad = true) ∧ ((loadX.flatMap Insn.xLoads).map Prod.fst).Nodup ∧
    (0 ∉ (loadX.flatMap Insn.xLoads).map Prod.fst) ∧
    ∀ i : Fin 31, i ≠ 0 → (i, 8*i.val) ∈ loadX.flatMap Insn.xLoads := by
  decide

lemma loadQ_read {c : Cpu} {p off : ℕ} {j : Fin 32} {ls : List (Fin 32 × ℕ)}
    (hnd : (ls.map Prod.fst).Nodup) (h : (j, off) ∈ ls) :
    (c.loadQ p ls).q j = join (c.mem (p + off + 8)) (c.mem (p + off)) := by
  apply writeAll_of_mem
  · rw [List.map_map]
    exact hnd
  · exact List.mem_map.mpr ⟨(j, off), h, rfl⟩

lemma loadX_read {c : Cpu} {p off : ℕ} {i : Fin 31} {ls : List (Fin 31 × ℕ)}
    (hnd : (ls.map Prod.fst).Nodup) (h : (i, off) ∈ ls) : (c.loadX p ls).x i = c.mem (p + off) := by
  apply writeAll_of_mem
  · rw [List.map_map]
    exact hnd
  · exact List.mem_map.mpr ⟨(i, off), h, rfl⟩

/-- Loading a frame at x0: every general and vector register comes from its word. -/
lemma execAll_loads (c : Cpu) :
    (execAll c (loadQ ++ (loadX ++ [.ldr (.x 0) (.x 0) 0]))).sys = c.sys ∧
    (∀ i : Fin 31, (execAll c (loadQ ++ (loadX ++ [.ldr (.x 0) (.x 0) 0]))).x i =
      c.mem ((c.x 0).toNat + 8*i.val)) ∧
    ∀ j : Fin 32, (execAll c (loadQ ++ (loadX ++ [.ldr (.x 0) (.x 0) 0]))).q j =
      join (c.mem ((c.x 0).toNat + (264 + 16*j.val))) (c.mem ((c.x 0).toNat + (256 + 16*j.val))) := by
  obtain ⟨hq, hqnd, hqmem⟩ := loadQ_loads
  obtain ⟨hx, hxnd, hx0, hxmem⟩ := loadX_loads
  have hkeep : (Cpu.loadX (c.loadQ (c.x 0).toNat (loadQ.flatMap Insn.qLoads)) (c.x 0).toNat
      (loadX.flatMap Insn.xLoads)).x 0 = c.x 0 := by
    apply writeAll_of_notMem
    rw [List.map_map]
    exact hx0
  have hexec : execAll c (loadQ ++ (loadX ++ [.ldr (.x 0) (.x 0) 0])) =
      exec (Cpu.loadX (c.loadQ (c.x 0).toNat (loadQ.flatMap Insn.qLoads)) (c.x 0).toNat
        (loadX.flatMap Insn.xLoads)) (.ldr (.x 0) (.x 0) 0) := by
    rw [execAll_append, execAll_append, execAll_qLoads hq, execAll_xLoads hx]
    rfl
  simp only [hexec, exec, Cpu.set, Cpu.base, hkeep]
  refine ⟨rfl, fun i => ?_, fun j => ?_⟩
  · by_cases hi : i = 0
    · subst hi
      rw [Function.update_self]
      rfl
    · rw [Function.update_of_ne hi]
      exact loadX_read hxnd (hxmem i hi)
  · refine (loadQ_read hqnd (hqmem j)).trans ?_
    rw [show (c.x 0).toNat + (264 + 16*j.val) = (c.x 0).toNat + (256 + 16*j.val) + 8 by omega]

lemma join_hi_lo (v : BitVec 128) : join (hi v) (lo v) = v := by
  apply BitVec.eq_of_getLsbD_eq
  intro i hi'
  simp only [join, hi, lo, BitVec.getLsbD_append, BitVec.getLsbD_extractLsb']
  by_cases h : i < 64
  · simp [h]
  · simp only [h, if_false]
    rw [show 64 + (i - 64) = i by omega]
    simp
    omega

/-- A resume of a slot whose save area is a frame of `x` and `q` brings them back, at the saved
PC and SP, with cleared flags and a zero thread pointer. -/
theorem resumeSlot_eq (k : KernelExit) {slot : El0Slot} {x : Fin 31 → Word} {q : Fin 32 → BitVec 128}
    (h : FrameOf slot.save x q) : resumeSlot k slot = ⟨x, slot.spEl0, slot.elr, 0, 0, q⟩ := by
  obtain ⟨h0, helr, hsp, hspsr, htp⟩ := execAll_resumeEntry (resumeCall k slot)
  obtain ⟨hsys, hx, hq⟩ := execAll_loads (execAll (resumeCall k slot) houseResumeEntry)
  have hptr : (execAll (resumeCall k slot) houseResumeEntry).x 0 = k.savePtr := by
    rw [h0]
    simp [resumeCall]
  have hword : ∀ i : Fin 112, (execAll (resumeCall k slot) houseResumeEntry).mem
      (k.savePtr.toNat + 8*i.val) = slot.save i := by
    intro i
    rw [execAll_resumeEntry_mem]
    · exact writeAll_frameWords _ _ _ i
    · exact k.room
    · have hapart := k.apart
      change _ < k.cpu.sp - 112 ∨ k.cpu.sp ≤ _
      omega
  have hxs : ∀ i : Fin 31, (execAll (resumeCall k slot) houseResumeAsm).x i = x i := by
    intro i
    rw [houseResumeAsm, execAll_append, hx, hptr]
    exact (hword ⟨i, by omega⟩).trans (h.x i)
  have hqs : ∀ j : Fin 32, (execAll (resumeCall k slot) houseResumeAsm).q j = q j := by
    intro j
    rw [houseResumeAsm, execAll_append, hq, hptr]
    have hlo := (hword ⟨32 + 2*j, by omega⟩).trans (h.lo j)
    have hhi := (hword ⟨33 + 2*j, by omega⟩).trans (h.hi j)
    rw [show 8*(32 + 2*j.val) = 256 + 16*j.val by omega] at hlo
    rw [show 8*(33 + 2*j.val) = 264 + 16*j.val by omega] at hhi
    rw [hlo, hhi, join_hi_lo]
  have hsys' : (execAll (resumeCall k slot) houseResumeAsm).sys =
      (execAll (resumeCall k slot) houseResumeEntry).sys := by
    rw [houseResumeAsm, execAll_append, hsys]
  simp only [resumeSlot, eret, hsys', helr, hsp, hspsr, htp, funext hxs, funext hqs]
  simp [resumeCall]

lemma entryFrame_frameOf (k : KernelEntry) (s : El0State) : FrameOf (entryFrame k s) s.x s.q :=
  (execAll_saveFrame (takeException k s)).2.2

/-- One interruption of a session with a slot: the registers come back, the flags and the
thread pointer do not. -/
theorem interrupt_eq {cur : ℕ} {t : El0Table} (hcur : cur ≠ 0) (hslot : 1 ≤ slotCount t cur)
    (i : Interruption) (s : El0State) :
    ∃ t', interrupt cur i s t = some ({ s with nzcv := 0, tpidr := 0 }, t') ∧
      slotCount t' cur = slotCount t cur := by
  obtain ⟨req, far, hpark⟩ : ∃ req far, (match i.cause with
      | .preempt => parkTick t cur (takeException i.entry s)
      | .fault => parkFault t cur (takeException i.entry s)) =
      parkFrame t cur (entryFrame i.entry s) s.pc s.sp req far := by
    cases i.cause with
    | preempt => exact ⟨_, _, parkTick_eq t cur i.entry s⟩
    | fault => exact ⟨_, _, parkFault_eq t cur i.entry s⟩
  obtain ⟨u, slot, hu, hfind, hsave, helr, hsp, hparked⟩ :=
    parkFrame_find hcur hslot (entryFrame i.entry s) s.pc s.sp req far
  obtain ⟨t', ht'⟩ := houseResumeEl0_parked hcur hfind hparked (slot.save 0)
  have henter : (slot.enter (slot.save 0)).save = entryFrame i.entry s := by
    rw [El0Slot.enter, Function.update_eq_self, hsave]
  have hframe : FrameOf (slot.enter (slot.save 0)).save s.x s.q := henter ▸ entryFrame_frameOf i.entry s
  refine ⟨t', ?_, ?_⟩
  · simp only [interrupt, hpark, hu, hfind, ht', resumeSlot_eq i.exit hframe]
    simp [El0Slot.enter, helr, hsp]
  · have hres := slotCount_resume u cur (slot.save 0) cur
    have hcount := slotCount_parkFrame t cur (entryFrame i.entry s) s.pc s.sp req far cur
    rw [ht'] at hres
    rw [hu] at hcount
    exact hres.trans hcount

/-- A program and what happens to it: its own instructions, and interruptions between them. A
faulting instruction has no effect before the resume retries it. -/
inductive Event where
  | insn
  | interrupt (i : Interruption)

def Event.isInsn : Event → Bool
  | .insn => true
  | .interrupt _ => false

section Program

variable {μ : Type*} (program : El0State × μ → El0State × μ) (cur : ℕ)

/-- `program` is one instruction of EL0 on registers and memory. -/
def sessionStep (st : (El0State × μ) × El0Table) : Event → Option ((El0State × μ) × El0Table)
  | .insn => some (program st.1, st.2)
  | .interrupt i => (interrupt cur i st.1.1 st.2).map fun r => ((r.1, st.1.2), r.2)

/-- An interruption finds clear flags and a zero thread pointer. -/
def Quiet (st : (El0State × μ) × El0Table) : Event → Prop
  | .insn => True
  | .interrupt _ => st.1.1.nzcv = 0 ∧ st.1.1.tpidr = 0

variable {program cur}

lemma sessionStep_quiet {s : El0State} {m : μ} {t : El0Table} (hcur : cur ≠ 0)
    (hslot : 1 ≤ slotCount t cur) (i : Interruption) (hq : s.nzcv = 0 ∧ s.tpidr = 0) :
    ∃ t', sessionStep program cur ((s, m), t) (.interrupt i) = some ((s, m), t') ∧
      slotCount t' cur = slotCount t cur := by
  obtain ⟨t', ht', hcount⟩ := interrupt_eq hcur hslot i s
  refine ⟨t', ?_, hcount⟩
  simp only [sessionStep, ht', Option.map_some, ← hq.1, ← hq.2]

/-- A run whose interruptions are all quiet is the uninterrupted run. -/
theorem run_quiet (hcur : cur ≠ 0) (es : List Event) {st : El0State × μ} {t : El0Table}
    (hslot : 1 ≤ slotCount t cur) (hq : Along (sessionStep program cur) Quiet (st, t) es) :
    ∃ t', run (sessionStep program cur) (st, t) es = some (program^[es.countP Event.isInsn] st, t') := by
  induction es generalizing st t with
  | nil => exact ⟨t, rfl⟩
  | cons e es ih =>
    cases e with
    | insn =>
      obtain ⟨t', ht'⟩ := ih hslot (hq.2 _ rfl)
      refine ⟨t', run_cons.mpr ⟨_, rfl, ?_⟩⟩
      rw [ht', List.countP_cons_of_pos rfl, Function.iterate_succ_apply]
    | interrupt i =>
      obtain ⟨u, hu, hcount⟩ := sessionStep_quiet hcur hslot i hq.1
      obtain ⟨t', ht'⟩ := ih (hcount ▸ hslot) (hq.2 _ hu)
      refine ⟨t', run_cons.mpr ⟨_, hu, ?_⟩⟩
      rw [ht', List.countP_cons_of_neg (by simp [Event.isInsn])]

/-- Interruptions alone, one or more: only the flags and the thread pointer change. -/
theorem run_interrupts (hcur : cur ≠ 0) (is : List Interruption) (hne : is ≠ []) (s : El0State) (m : μ)
    {t : El0Table} (hslot : 1 ≤ slotCount t cur) :
    ∃ t', run (sessionStep program cur) ((s, m), t) (is.map .interrupt) =
      some (({ s with nzcv := 0, tpidr := 0 }, m), t') := by
  induction is generalizing s t with
  | nil => exact absurd rfl hne
  | cons i is ih =>
    obtain ⟨u, hu, hcount⟩ := interrupt_eq hcur hslot i s
    have hstep : sessionStep program cur ((s, m), t) (.interrupt i) =
        some (({ s with nzcv := 0, tpidr := 0 }, m), u) := by
      simp [sessionStep, hu]
    by_cases his : is = []
    · exact ⟨u, by simp [his, run, hstep]⟩
    · obtain ⟨t', ht'⟩ := ih his { s with nzcv := 0, tpidr := 0 } (hcount ▸ hslot)
      exact ⟨t', run_cons.mpr ⟨_, hstep, ht'⟩⟩

/-- A session with a slot comes back from any number of interruptions with exactly its
registers if and only if its flags are clear and its thread pointer is zero; and a program that
is only interrupted in such states computes what it computes uninterrupted. -/
theorem interruption_transparent_iff (hcur : cur ≠ 0) {t : El0Table} (hslot : 1 ≤ slotCount t cur)
    (s : El0State) (m : μ) :
    (∀ is : List Interruption, is ≠ [] → ∃ s' t',
      run (sessionStep program cur) ((s, m), t) (is.map .interrupt) = some ((s', m), t') ∧
        (s' = s ↔ s.nzcv = 0 ∧ s.tpidr = 0)) ∧
    (∀ es, Along (sessionStep program cur) Quiet ((s, m), t) es → ∃ t',
      run (sessionStep program cur) ((s, m), t) es =
        some (program^[es.countP Event.isInsn] (s, m), t')) := by
  refine ⟨fun is hne => ?_, fun es hq => run_quiet hcur es hslot hq⟩
  obtain ⟨t', ht'⟩ := run_interrupts hcur is hne s m hslot
  refine ⟨_, t', ht', ?_⟩
  constructor
  · intro heq
    rw [← heq]
    exact ⟨rfl, rfl⟩
  · rintro ⟨h1, h2⟩
    rw [← h1, ← h2]

end Program

/-- A kernel around an interruption: stack at 0x40200000, slot table at 0x40300000. -/
def sampleInterruption (cause : Cause) : Interruption where
  cause := cause
  entry := ⟨0x40200000, fun _ => 0, 0, 0x1000000, 0x50000000, by decide, by decide⟩
  exit :=
    { cpu := ⟨fun _ => 7, fun _ => 7, 0x40200000, fun _ => 7, fun _ => 0⟩
      savePtr := 0x40300000
      asid := 1
      room := by decide
      apart := Or.inr (by decide) }

/-- The table after the registration of one session. -/
def sampleTable : El0Table := (houseEl0Register el0Boot 0x50000000).2

lemma slotCount_sampleTable : 1 ≤ slotCount sampleTable 0x50000000 := by rfl

/-- A taken or untaken `b.eq`: PC moves by 8 when Z is set, by 4 otherwise. -/
def branchEq (st : El0State × Unit) : El0State × Unit :=
  ({ st.1 with pc := st.1.pc + if st.1.nzcv.getLsbD 2 then 8 else 4 }, ())

/-- The state after a compare of equal values, at the branch. -/
def afterCompare : El0State := ⟨fun _ => 0, 0x3FFFE000, 0x1000004, 0b0100, 0, fun _ => 0⟩

/-- A timer park between the compare and the branch sends the program the other way. -/
theorem interruption_flips_branch :
    (branchEq (afterCompare, ())).1.pc = 0x100000C ∧
    ∃ st t', run (sessionStep branchEq 0x50000000) ((afterCompare, ()), sampleTable)
      [.interrupt (sampleInterruption .preempt), .insn] = some (st, t') ∧ st.1.pc = 0x1000008 := by
  refine ⟨by decide, ?_⟩
  obtain ⟨t', ht', -⟩ := interrupt_eq (by decide) slotCount_sampleTable (sampleInterruption .preempt)
    afterCompare
  have hstep : sessionStep branchEq 0x50000000 ((afterCompare, ()), sampleTable)
      (.interrupt (sampleInterruption .preempt)) =
      some (({ afterCompare with nzcv := 0, tpidr := 0 }, ()), t') := by
    simp only [sessionStep, ht', Option.map_some]
  refine ⟨branchEq ({ afterCompare with nzcv := 0, tpidr := 0 }, ()), t',
    run_cons.mpr ⟨_, hstep, rfl⟩, ?_⟩
  decide

/-- A session with clear flags and no thread pointer comes back from a fault as it was. -/
theorem interruption_transparent_clear :
    ∃ s' t', run (sessionStep branchEq 0x50000000) (({ afterCompare with nzcv := 0 }, ()), sampleTable)
      ([sampleInterruption .fault].map .interrupt) = some ((s', ()), t') ∧
      s' = { afterCompare with nzcv := 0 } := by
  obtain ⟨s', t', hrun, hiff⟩ := (interruption_transparent_iff (by decide) slotCount_sampleTable
    { afterCompare with nzcv := 0 } ()).1 [sampleInterruption .fault] (by simp)
  exact ⟨s', t', hrun, hiff.mpr ⟨rfl, rfl⟩⟩

end HouseKernel.El0
