import HouseKernel.Programs.Guest
import HouseKernel.Userspace.ArgStack

/-! `echo`: the arguments after the first, with a space between them and a line feed behind them. -/
namespace HouseKernel.Programs

open HouseKernel.Lib HouseKernel.Lib.Aarch64 HouseKernel.Userspace

def echoInstrs : List AsmLine :=
  let x0 := mustX 0
  let x1 := mustX 1
  let x2 := mustX 2
  let x4 := mustX 4
  let x19 := mustX 19
  let x20 := mustX 20
  let x21 := mustX 21
  let x29 := mustX 29
  let x30 := mustX 30
  let w0 := mustW 0
  let w3 := mustW 3
  let u1 := mustU12 1
  let u2 := mustU12 2
  let u8 := mustU12 8
  let u15 := mustU12 15
  let u16 := mustU12 16
  let u2048 := mustU12 2048
  let svcWrite := mustSvc 0x01
  let svcExit := mustSvc 0x02
  [ .label (text "_start"),
    .op (.ldrOff x19 .sp (mustU12 0)), -- argc
    .op (.cmpImm x19 u2),
    .op (.bCond .lo (text "newline")), -- 0-1 args: just newline
    .op (.addImm x20 .sp u16), -- &argv[1]
    .op (.movImm x21 1), -- index
    .label (text "word_loop"),
    .op (.cmpReg x21 x19),
    .op (.bCond .hs (text "newline")),
    .op (.ldrOff x1 x20 (mustU12 0)), -- argv[i]
    .op (.bl (text "putstr")),
    .op (.addImm x21 x21 u1),
    .op (.addImm x20 x20 u8),
    .op (.cmpReg x21 x19),
    .op (.bCond .hs (text "newline")),
    .op (.movImm w0 0x20),
    .op (.bl (text "putc")),
    .op (.b (text "word_loop")),
    .label (text "newline"),
    .op (.movImm w0 10),
    .op (.bl (text "putc")),
    .op (.movImm x0 0),
    .op (.svc svcExit), -- EXIT(0)
    -- putstr(x1): WRITE(1, x1, strlen_cap(x1, 2048)). Clobbers x0-x4.
    .label (text "putstr"),
    .op (.stpPush x29 x30 .sp),
    .op (.movReg x29 .sp),
    .op (.stpPush x1 x2 .sp),
    .op (.movReg x2 x1),
    .op (.movImm x0 0),
    .localOp (text "1") (.cmpImm x0 u2048),
    .op (.bCond .hs (text "2f")),
    .op (.ldrbReg w3 x2 x0),
    .op (.cbz w3 (text "2f")),
    .op (.addImm x0 x0 u1),
    .op (.b (text "1b")),
    .localOp (text "2") (.movReg x2 x0), -- len
    .op (.ldpPop x1 x4 .sp), -- x1 = ptr (x4 scratch)
    .op (.movImm x0 1),
    .op (.cbz x2 (text "3f")),
    .op (.svc svcWrite),
    .localOp (text "3") (.ldpPop x29 x30 .sp),
    .op .ret,
    -- putc(w0): WRITE(1, &byte, 1) via stack scratch. Clobbers x0-x2.
    .label (text "putc"),
    .op (.stpPush x29 x30 .sp),
    .op (.movReg x29 .sp),
    .op (.subImm .sp .sp u16),
    .op (.strbOff w0 .sp u15),
    .op (.addImm x1 .sp u15),
    .op (.movImm x2 1),
    .op (.movImm x0 1),
    .op (.svc svcWrite),
    .op (.addImm .sp .sp u16),
    .op (.ldpPop x29 x30 .sp),
    .op .ret ]

/-- What the assembler makes of it. -/
def echoCode : List (AsmOp ℕ) :=
  [ .ldrOff (.x 19) .sp 0,
    .cmpImm (.x 19) 2,
    .bCond .lo 16,
    .addImm (.x 20) .sp 16,
    .movImm (.x 21) 1,
    .cmpReg (.x 21) (.x 19), -- 5: word_loop
    .bCond .hs 16,
    .ldrOff (.x 1) (.x 20) 0,
    .bl 20,
    .addImm (.x 21) (.x 21) 1,
    .addImm (.x 20) (.x 20) 8,
    .cmpReg (.x 21) (.x 19),
    .bCond .hs 16,
    .movImm (.w 0) 0x20,
    .bl 38,
    .b 5,
    .movImm (.w 0) 10, -- 16: newline
    .bl 38,
    .movImm (.x 0) 0,
    .svc 2,
    .stpPush (.x 29) (.x 30) .sp, -- 20: putstr
    .movReg (.x 29) .sp,
    .stpPush (.x 1) (.x 2) .sp,
    .movReg (.x 2) (.x 1),
    .movImm (.x 0) 0,
    .cmpImm (.x 0) 2048, -- 25
    .bCond .hs 31,
    .ldrbReg (.w 3) (.x 2) (.x 0),
    .cbz (.w 3) 31,
    .addImm (.x 0) (.x 0) 1,
    .b 25,
    .movReg (.x 2) (.x 0), -- 31
    .ldpPop (.x 1) (.x 4) .sp,
    .movImm (.x 0) 1,
    .cbz (.x 2) 36,
    .svc 1,
    .ldpPop (.x 29) (.x 30) .sp, -- 36
    .ret,
    .stpPush (.x 29) (.x 30) .sp, -- 38: putc
    .movReg (.x 29) .sp,
    .subImm .sp .sp 16,
    .strbOff (.w 0) .sp 15,
    .addImm (.x 1) .sp 15,
    .movImm (.x 2) 1,
    .movImm (.x 0) 1,
    .svc 1,
    .addImm .sp .sp 16,
    .ldpPop (.x 29) (.x 30) .sp,
    .ret ]

theorem echo_assembles : assemble echoInstrs = some echoCode := by
  rfl

section Routines

variable {σ : Type} {h : Host σ} {s : Guest σ} {q r : ℕ}

theorem echo_block (i : ℕ) (ops : List (AsmOp ℕ)) (hpc : s.pc = i) (hcode : ops <+: echoCode.drop i) (hexit : s.exit = none)
    (hstraight : ops.dropLast.all AsmOp.straight = true) : Reaches (h.step echoCode) s (h.execs s ops) := by
  subst hpc
  exact Host.reaches_block hcode hexit hstraight

/-- A routine of the program comes back: with its stack as it was, and with the registers that every call keeps. -/
structure Returned (s t : Guest σ) (q r : ℕ) : Prop where
  pc : t.pc = r
  exit : t.exit = none
  sp : t.cpu.sp = s.cpu.sp
  saved : ∀ i, Kept i → t.cpu.x i = s.cpu.x i
  mem : ∀ a, a < q - 32 ∨ q ≤ a → t.cpu.mem a = s.cpu.mem a

/-- `putc` sends its octet through the stack. -/
theorem putc_returns (hpc : s.pc = 38) (hexit : s.exit = none) (hsp : s.cpu.sp = BitVec.ofNat 64 q) (hlow : 32 ≤ q)
    (hhigh : q < 2 ^ 64) (hlr : s.cpu.x 30 = place h.base r) (hfits : h.base + 4 * r < 2 ^ 64)
    (hvalid : h.validateUserBuffer (q - 17) 1 = true) :
    ∃ t, Reaches (h.step echoCode) s t ∧ Returned s t q r ∧ t.out = s.out ++ [(s.cpu.x 0).setWidth 8] := by
  refine ⟨h.execs s (echoCode.drop 38), echo_block 38 _ hpc (List.prefix_refl _) hexit (by decide), ?_⟩
  obtain ⟨⟨x, sp, flags, mem⟩, pc, out, exit, kernel⟩ := s
  obtain rfl : sp = BitVec.ofNat 64 q := hsp
  obtain rfl : exit = none := hexit
  have hlr : x 30#5 = place h.base r := hlr
  have hpush : BitVec.ofNat 64 q - 16#64 = BitVec.ofNat 64 (q - 16) := ofNat_sub (by omega)
  have hroom : BitVec.ofNat 64 (q - 16) - 16#64 = BitVec.ofNat 64 (q - 32) := ofNat_sub (by omega)
  have hbyte : BitVec.ofNat 64 (q - 32) + 15#64 = BitVec.ofNat 64 (q - 17) := ofNat_add (by omega)
  have hlink : BitVec.ofNat 64 (q - 16) + 8#64 = BitVec.ofNat 64 (q - 8) := ofNat_add (by omega)
  have hback : BitVec.ofNat 64 (q - 32) + 16#64 = BitVec.ofNat 64 (q - 16) := ofNat_add (by omega)
  have hpop : BitVec.ofNat 64 (q - 16) + 16#64 = BitVec.ofNat 64 q := ofNat_add (by omega)
  have hone : (BitVec.ofNat 64 (q - 17)).toNat = q - 17 := toNat_ofNat (by omega)
  obtain ⟨mem', hmem⟩ : ∃ m, storeByte (storeWord (storeWord mem (BitVec.ofNat 64 (q - 16)) (x 29#5))
      (BitVec.ofNat 64 (q - 8)) (x 30#5)) (BitVec.ofNat 64 (q - 17)) (((x 0#5).setWidth 32).setWidth 64) = m := ⟨_, rfl⟩
  have hfill := hmem
  rw [storeWord_ofNat (by omega), storeWord_ofNat (by omega), storeByte_ofNat (by omega)] at hfill
  have hsent : mem' (q - 17) = (x 0#5).setWidth 8 := by
    rw [← hfill, fill_of_mem (by omega) (by omega)]
    simp
  have hloaded : loadWord mem' (BitVec.ofNat 64 (q - 8)) = place h.base r := by
    rw [loadWord_ofNat (by omega), ← hfill, readWord_fill (by omega), readWord_writeWord (x 30#5).isLt, ← hlr]
    simp
  constructor
  · constructor
    · simp [echoCode, hpush, hroom, hbyte, hlink, hback, hpop, hmem, hloaded, place_index hfits]
    · simp [echoCode]
    · simp [echoCode, hpush, hroom, hback, hpop]
    · intro i hi
      obtain ⟨h0, h1, h2, -, -, h29, h30⟩ := hi.ne
      simp [echoCode, hi, h0, h1, h2, h29, h30]
    · intro a ha
      have hframe : mem' a = mem a := by
        rw [← hfill, fill_of_notMem (by omega), writeWord, fill_of_notMem (by omega), writeWord, fill_of_notMem (by omega)]
      simp [echoCode, hpush, hroom, hbyte, hlink, hmem, hframe]
  · simp [echoCode, Host.write, hpush, hroom, hbyte, hlink, hmem, hone, hvalid, hsent]

/-- The first `n` octets at `p` are a string: none of them is zero, and zero or the cap ends them. -/
structure StringAt (mem : ByteMem) (p n : ℕ) : Prop where
  le : n ≤ 2048
  ne : ∀ k < n, mem (p + k) ≠ 0
  ends : n = 2048 ∨ mem (p + n) = 0

/-- `putstr` keeps its caller's frame and its argument on the stack, and starts to count. -/
theorem putstr_enters {p : ℕ} (hpc : s.pc = 20) (hexit : s.exit = none) (hsp : s.cpu.sp = BitVec.ofNat 64 q) (hlow : 32 ≤ q)
    (hhigh : q < 2 ^ 64) (hlr : s.cpu.x 30 = place h.base r) (hp : s.cpu.x 1 = BitVec.ofNat 64 p) :
    ∃ t, Reaches (h.step echoCode) s t ∧ (t.pc = 25 ∧ t.exit = none ∧ t.out = s.out) ∧
      (t.cpu.sp = BitVec.ofNat 64 (q - 32) ∧ t.cpu.x 0 = 0 ∧ t.cpu.x 2 = BitVec.ofNat 64 p) ∧
      (∀ i, Kept i → t.cpu.x i = s.cpu.x i) ∧ (∀ a, a < q - 32 ∨ q ≤ a → t.cpu.mem a = s.cpu.mem a) ∧
      loadWord t.cpu.mem (BitVec.ofNat 64 (q - 32)) = BitVec.ofNat 64 p ∧
      loadWord t.cpu.mem (BitVec.ofNat 64 (q - 8)) = place h.base r := by
  refine ⟨h.execs s ((echoCode.drop 20).take 5), echo_block 20 _ hpc (List.take_prefix _ _) hexit (by decide), ?_⟩
  obtain ⟨⟨x, sp, flags, mem⟩, pc, out, exit, kernel⟩ := s
  obtain rfl : sp = BitVec.ofNat 64 q := hsp
  obtain rfl : exit = none := hexit
  obtain rfl : pc = 20 := hpc
  have hlr : x 30#5 = place h.base r := hlr
  have hp : x 1#5 = BitVec.ofNat 64 p := hp
  have hpush : BitVec.ofNat 64 q - 16#64 = BitVec.ofNat 64 (q - 16) := ofNat_sub (by omega)
  have hpush' : BitVec.ofNat 64 (q - 16) - 16#64 = BitVec.ofNat 64 (q - 32) := ofNat_sub (by omega)
  have hlink : BitVec.ofNat 64 (q - 16) + 8#64 = BitVec.ofNat 64 (q - 8) := ofNat_add (by omega)
  have hlink' : BitVec.ofNat 64 (q - 32) + 8#64 = BitVec.ofNat 64 (q - 24) := ofNat_add (by omega)
  obtain ⟨mem', hmem⟩ : ∃ m, storeWord (storeWord (storeWord (storeWord mem (BitVec.ofNat 64 (q - 16)) (x 29#5))
      (BitVec.ofNat 64 (q - 8)) (x 30#5)) (BitVec.ofNat 64 (q - 32)) (x 1#5)) (BitVec.ofNat 64 (q - 24)) (x 2#5) = m :=
    ⟨_, rfl⟩
  have hfill := hmem
  rw [storeWord_ofNat (by omega), storeWord_ofNat (by omega), storeWord_ofNat (by omega), storeWord_ofNat (by omega)] at hfill
  refine ⟨⟨?_, ?_, ?_⟩, ⟨?_, ?_, ?_⟩, fun i hi => ?_, fun a ha => ?_, ?_, ?_⟩
  · simp [echoCode]
  · simp [echoCode]
  · simp [echoCode]
  · simp [echoCode, hpush, hpush']
  · simp [echoCode]
  · simp [echoCode, hp]
  · obtain ⟨h0, -, h2, -, -, h29, -⟩ := hi.ne
    simp [echoCode, h0, h2, h29]
  · have hframe : mem' a = mem a := by
      rw [← hfill, writeWord, fill_of_notMem (by omega), writeWord, fill_of_notMem (by omega), writeWord,
        fill_of_notMem (by omega), writeWord, fill_of_notMem (by omega)]
    simp [echoCode, hpush, hpush', hlink, hlink', hmem, hframe]
  · have hkept : loadWord mem' (BitVec.ofNat 64 (q - 32)) = BitVec.ofNat 64 p := by
      rw [loadWord_ofNat (by omega), ← hfill, readWord_writeWord_ne (by omega), readWord_writeWord (x 1#5).isLt, ← hp]
      simp
    simp [echoCode, hpush, hpush', hlink, hlink', hmem, hkept]
  · have hkept : loadWord mem' (BitVec.ofNat 64 (q - 8)) = place h.base r := by
      rw [loadWord_ofNat (by omega), ← hfill, readWord_writeWord_ne (by omega), readWord_writeWord_ne (by omega),
        readWord_writeWord (x 30#5).isLt, ← hlr]
      simp
    simp [echoCode, hpush, hpush', hlink, hlink', hmem, hkept]

/-- `putstr` has counted `i` octets, and is at `pc`. -/
def counting (u : Guest σ) (pc i : ℕ) (y : Word) (f : Flags) : Guest σ :=
  { u with
    pc := pc
    cpu := { u.cpu with x := Function.update (Function.update u.cpu.x 3 y) 0 (BitVec.ofNat 64 i), flags := f } }

variable {u : Guest σ} {p n i : ℕ} {y : Word} {f : Flags}

theorem counting_cmp (hi : i < 2 ^ 64) : h.execs (counting u 25 i y f) [.cmpImm (.x 0) 2048, .bCond .hs 31] =
    counting u (if 2048 ≤ i then 31 else 27) i y (subFlags (BitVec.ofNat 64 i) 2048) := by
  have hc : (subFlags (BitVec.ofNat 64 i) 2048#64).c = decide (2048 ≤ i) := by
    simp [subFlags, BitVec.le_def, toNat_ofNat hi]
  by_cases hcap : 2048 ≤ i <;> simp [counting, AsmCond.holds, hc, hcap]

theorem counting_load (hp : u.cpu.x 2 = BitVec.ofNat 64 p) (hpi : p + i < 2 ^ 64) :
    h.execs (counting u 27 i y f) [.ldrbReg (.w 3) (.x 2) (.x 0), .cbz (.w 3) 31] =
      counting u (if u.cpu.mem (p + i) = 0 then 31 else 29) i ((u.cpu.mem (p + i)).setWidth 64) f := by
  have hp : u.cpu.x 2#5 = BitVec.ofNat 64 p := hp
  have haddr : (BitVec.ofNat 64 p + BitVec.ofNat 64 i).toNat = p + i := by
    rw [ofNat_add rfl, toNat_ofNat hpi]
  have hswap : ∀ v y' : Word, Function.update (Function.update (Function.update u.cpu.x 3#5 y) 0#5 v) 3#5 y' =
      Function.update (Function.update u.cpu.x 3#5 y') 0#5 v := by
    intro v y'
    rw [Function.update_comm (by decide), Function.update_idem]
  by_cases hend : u.cpu.mem (p + i) = 0#8 <;> simp [counting, hp, haddr, hend, hswap, setWidth_eq_zero]

theorem counting_next : h.execs (counting u 29 i y f) [.addImm (.x 0) (.x 0) 1, .b 25] = counting u 25 (i + 1) y f := by
  have hnext : BitVec.ofNat 64 i + 1#64 = BitVec.ofNat 64 (i + 1) := ofNat_add rfl
  simp [counting, hnext]

/-- One round of the count. -/
theorem counting_round (hexit : u.exit = none) (hp : u.cpu.x 2 = BitVec.ofNat 64 p)
    (hhigh : p + 2048 < 2 ^ 64) (hstr : StringAt u.cpu.mem p n) (hi : i < n) :
    ∃ y' f', Reaches (h.step echoCode) (counting u 25 i y f) (counting u 25 (i + 1) y' f') := by
  have hle := hstr.le
  have hcmp := echo_block (h := h) (s := counting u 25 i y f) 25 [.cmpImm (.x 0) 2048, .bCond .hs 31] rfl (by decide) hexit
    (by decide)
  rw [counting_cmp (by omega), if_neg (by omega)] at hcmp
  have hload := echo_block (h := h) (s := counting u 27 i y (subFlags (BitVec.ofNat 64 i) 2048)) 27
    [.ldrbReg (.w 3) (.x 2) (.x 0), .cbz (.w 3) 31] rfl (by decide) hexit (by decide)
  rw [counting_load hp (by omega), if_neg (hstr.ne i hi)] at hload
  have hnext := echo_block (h := h)
    (s := counting u 29 i ((u.cpu.mem (p + i)).setWidth 64) (subFlags (BitVec.ofNat 64 i) 2048)) 29
    [.addImm (.x 0) (.x 0) 1, .b 25] rfl (by decide) hexit (by decide)
  rw [counting_next] at hnext
  exact ⟨_, _, (hcmp.trans hload).trans hnext⟩

/-- The count ends behind the string. -/
theorem counting_ends (hexit : u.exit = none) (hp : u.cpu.x 2 = BitVec.ofNat 64 p) (hhigh : p + 2048 < 2 ^ 64)
    (hstr : StringAt u.cpu.mem p n) : ∃ y' f', Reaches (h.step echoCode) (counting u 25 n y f) (counting u 31 n y' f') := by
  have hle := hstr.le
  have hcmp := echo_block (h := h) (s := counting u 25 n y f) 25 [.cmpImm (.x 0) 2048, .bCond .hs 31] rfl (by decide) hexit
    (by decide)
  rw [counting_cmp (by omega)] at hcmp
  by_cases hcap : 2048 ≤ n
  · rw [if_pos hcap] at hcmp
    exact ⟨_, _, hcmp⟩
  · have hzero : u.cpu.mem (p + n) = 0 := hstr.ends.resolve_left (by omega)
    rw [if_neg hcap] at hcmp
    have hload := echo_block (h := h) (s := counting u 27 n y (subFlags (BitVec.ofNat 64 n) 2048)) 27
      [.ldrbReg (.w 3) (.x 2) (.x 0), .cbz (.w 3) 31] rfl (by decide) hexit (by decide)
    rw [counting_load hp (by omega), if_pos hzero] at hload
    exact ⟨_, _, hcmp.trans hload⟩

/-- From the first octet on, `putstr` counts the string. -/
theorem counting_all (hexit : u.exit = none) (hp : u.cpu.x 2 = BitVec.ofNat 64 p) (hhigh : p + 2048 < 2 ^ 64)
    (hstr : StringAt u.cpu.mem p n) : ∃ y' f', Reaches (h.step echoCode) (counting u 25 0 y f) (counting u 31 n y' f') := by
  have hrounds : ∀ i ≤ n, ∃ y' f', Reaches (h.step echoCode) (counting u 25 0 y f) (counting u 25 i y' f') := by
    intro i hi
    induction i with
    | zero => exact ⟨y, f, .refl⟩
    | succ i ih =>
      obtain ⟨y', f', hrun⟩ := ih (by omega)
      obtain ⟨y'', f'', hround⟩ := counting_round hexit hp hhigh hstr hi
      exact ⟨y'', f'', hrun.trans hround⟩
  obtain ⟨y', f', hrun⟩ := hrounds n le_rfl
  obtain ⟨y'', f'', hend⟩ := counting_ends hexit hp hhigh hstr
  exact ⟨y'', f'', hrun.trans hend⟩

/-- The octets from `p` on. -/
def octetsAt (mem : ByteMem) (p n : ℕ) : Octets := (List.range n).map fun i => mem (p + i)

/-- `putstr` hands the string to the kernel, unless it is empty. -/
theorem putstr_sends (hpc : s.pc = 31) (hexit : s.exit = none) (hsp : s.cpu.sp = BitVec.ofNat 64 (q - 32)) (hlow : 32 ≤ q)
    (hhigh : q < 2 ^ 64) (hn : n ≤ 2048) (hcount : s.cpu.x 0 = BitVec.ofNat 64 n) (hp : p < 2 ^ 64)
    (hkept : loadWord s.cpu.mem (BitVec.ofNat 64 (q - 32)) = BitVec.ofNat 64 p)
    (hvalid : 0 < n → h.validateUserBuffer p n = true) :
    ∃ t, Reaches (h.step echoCode) s t ∧ (t.pc = 36 ∧ t.exit = none) ∧ t.out = s.out ++ octetsAt s.cpu.mem p n ∧
      t.cpu.sp = BitVec.ofNat 64 (q - 16) ∧ (∀ i, Kept i → t.cpu.x i = s.cpu.x i) ∧ t.cpu.mem = s.cpu.mem := by
  have hrun := echo_block (h := h) 31 [.movReg (.x 2) (.x 0), .ldpPop (.x 1) (.x 4) .sp, .movImm (.x 0) 1, .cbz (.x 2) 36]
    hpc (by decide) hexit (by decide)
  obtain ⟨⟨x, sp, flags, mem⟩, pc, out, exit, kernel⟩ := s
  obtain rfl : sp = BitVec.ofNat 64 (q - 32) := hsp
  obtain rfl : exit = none := hexit
  obtain rfl : pc = 31 := hpc
  have hcount : x 0#5 = BitVec.ofNat 64 n := hcount
  have hkept : loadWord mem (BitVec.ofNat 64 (q - 32)) = BitVec.ofNat 64 p := hkept
  have hpop : BitVec.ofNat 64 (q - 32) + 16#64 = BitVec.ofNat 64 (q - 16) := ofNat_add (by omega)
  have hlen : (BitVec.ofNat 64 n).toNat = n := toNat_ofNat (by omega)
  have haddr : (BitVec.ofNat 64 p).toNat = p := toNat_ofNat hp
  obtain rfl | hpos := Nat.eq_zero_or_pos n
  · refine ⟨_, hrun, ⟨?_, ?_⟩, ?_, ?_, fun i hi => ?_, ?_⟩
    · simp [hcount]
    · simp [hcount]
    · simp [hcount, octetsAt]
    · simp [hcount, hpop]
    · obtain ⟨h0, h1, h2, -, h4, -, -⟩ := hi.ne
      simp [hcount, h0, h1, h2, h4]
    · simp [hcount]
  · have hne : BitVec.ofNat 64 n ≠ 0#64 := by
      intro hzero
      have hval := congrArg BitVec.toNat hzero
      rw [hlen] at hval
      exact absurd hval (by simpa using hpos.ne')
    obtain ⟨u, hu⟩ : ∃ u, h.execs ⟨⟨x, BitVec.ofNat 64 (q - 32), flags, mem⟩, 31, out, none, kernel⟩
        [.movReg (.x 2) (.x 0), .ldpPop (.x 1) (.x 4) .sp, .movImm (.x 0) 1, .cbz (.x 2) 36] = u := ⟨_, rfl⟩
    have hpc : u.pc = 35 := by simp [← hu, hcount, hne]
    have hexit : u.exit = none := by simp [← hu, hcount, hne]
    have hsend := echo_block (h := h) 35 [.svc 1] hpc (by decide) hexit (by decide)
    rw [hu] at hrun
    refine ⟨_, hrun.trans hsend, ⟨?_, ?_⟩, ?_, ?_, fun i hi => ?_, ?_⟩
    · simp [hpc]
    · simp [hexit]
    · simp [Host.write, ← hu, hcount, hne, hkept, hlen, haddr, hvalid hpos, octetsAt, show ¬ 65536 < n by omega]
    · simp [← hu, hcount, hne, hpop]
    · obtain ⟨h0, h1, h2, -, h4, -, -⟩ := hi.ne
      simp [← hu, hcount, hne, hi, h0, h1, h2, h4]
    · simp [← hu, hcount, hne]

/-- `putstr` goes back to its caller. -/
theorem putstr_leaves (hpc : s.pc = 36) (hexit : s.exit = none) (hsp : s.cpu.sp = BitVec.ofNat 64 (q - 16)) (hlow : 32 ≤ q)
    (hhigh : q < 2 ^ 64) (hkept : loadWord s.cpu.mem (BitVec.ofNat 64 (q - 8)) = place h.base r)
    (hfits : h.base + 4 * r < 2 ^ 64) :
    ∃ t, Reaches (h.step echoCode) s t ∧ (t.pc = r ∧ t.exit = none ∧ t.out = s.out) ∧ t.cpu.sp = BitVec.ofNat 64 q ∧
      (∀ i, Kept i → t.cpu.x i = s.cpu.x i) ∧ t.cpu.mem = s.cpu.mem := by
  refine ⟨_, echo_block (h := h) 36 [.ldpPop (.x 29) (.x 30) .sp, .ret] hpc (by decide) hexit (by decide), ?_⟩
  have hkept : loadWord s.cpu.mem (BitVec.ofNat 64 (q - 8)) = place h.base r := hkept
  have hlink : BitVec.ofNat 64 (q - 16) + 8#64 = BitVec.ofNat 64 (q - 8) := ofNat_add (by omega)
  have hpop : BitVec.ofNat 64 (q - 16) + 16#64 = BitVec.ofNat 64 q := ofNat_add (by omega)
  refine ⟨⟨?_, ?_, ?_⟩, ?_, fun i hi => ?_, ?_⟩
  · simp [hsp, hlink, hkept, place_index hfits]
  · simp [hexit]
  · simp
  · simp [hsp, hpop]
  · obtain ⟨-, -, -, -, -, h29, h30⟩ := hi.ne
    simp [h29, h30]
  · simp

theorem StringAt.congr {mem mem' : ByteMem} (hstr : StringAt mem p n) (hmem : ∀ a, p ≤ a → mem' a = mem a) :
    StringAt mem' p n where
  le := hstr.le
  ne k hk := by
    rw [hmem _ (Nat.le_add_right _ _)]
    exact hstr.ne k hk
  ends := by
    rw [hmem _ (Nat.le_add_right _ _)]
    exact hstr.ends

/-- `putstr` sends the string that lies above its stack. -/
theorem putstr_returns (hpc : s.pc = 20) (hexit : s.exit = none) (hsp : s.cpu.sp = BitVec.ofNat 64 q) (hlow : 32 ≤ q)
    (hhigh : p + 2048 < 2 ^ 64) (habove : q ≤ p) (hlr : s.cpu.x 30 = place h.base r) (hfits : h.base + 4 * r < 2 ^ 64)
    (hp : s.cpu.x 1 = BitVec.ofNat 64 p) (hstr : StringAt s.cpu.mem p n)
    (hvalid : 0 < n → h.validateUserBuffer p n = true) :
    ∃ t, Reaches (h.step echoCode) s t ∧ Returned s t q r ∧ t.out = s.out ++ octetsAt s.cpu.mem p n := by
  obtain ⟨u, hrun, ⟨hpcu, hexitu, houtu⟩, ⟨hspu, hx0, hx2⟩, hsaved, hmem, harg, hlink⟩ :=
    putstr_enters (h := h) hpc hexit hsp hlow (by omega) hlr hp
  have hstru : StringAt u.cpu.mem p n := hstr.congr fun a ha => hmem a (by omega)
  have hstart : u = counting u 25 0 (u.cpu.x 3) u.cpu.flags := by
    have hzero : Function.update u.cpu.x 0 (BitVec.ofNat 64 0) = u.cpu.x := Function.update_eq_self_iff.mpr hx0.symm
    rw [counting, ← hpcu, Function.update_eq_self, hzero]
  obtain ⟨y, f, hcount⟩ := counting_all (h := h) (y := u.cpu.x 3) (f := u.cpu.flags) hexitu hx2 hhigh hstru
  rw [← hstart] at hcount
  obtain ⟨v, hsend, ⟨hpcv, hexitv⟩, houtv, hspv, hsavedv, hmemv⟩ :=
    putstr_sends (h := h) (s := counting u 31 n y f) (q := q) (p := p) (n := n) rfl hexitu hspu hlow (by omega) hstr.le
      (by simp [counting]) (by omega) harg hvalid
  obtain ⟨t, hleave, ⟨hpct, hexitt, houtt⟩, hspt, hsavedt, hmemt⟩ :=
    putstr_leaves (h := h) (s := v) (q := q) hpcv hexitv hspv hlow (by omega) (by rw [hmemv]; exact hlink) hfits
  refine ⟨t, ((hrun.trans hcount).trans hsend).trans hleave, ⟨hpct, hexitt, hspt.trans hsp.symm, ?_, ?_⟩, ?_⟩
  · intro i hi
    obtain ⟨h0, -, -, h3, -, -, -⟩ := hi.ne
    rw [hsavedt i hi, hsavedv i hi, ← hsaved i hi]
    simp [counting, h0, h3]
  · intro a ha
    rw [hmemt, hmemv]
    exact hmem a ha
  · have hsame : octetsAt u.cpu.mem p n = octetsAt s.cpu.mem p n :=
      List.map_congr_left fun i _ => hmem _ (by omega)
    rw [houtt, houtv, ← hsame, ← houtu]
    rfl

end Routines

section Words

variable {σ : Type} {h : Host σ} {s : Guest σ} {q top i va : ℕ} {a : Text} {rest : List Text} {mem mem' : ByteMem}

theorem toByte_ne_zero {c : CodePoint} (hc : 1 ≤ c.val ∧ c.val ≤ 255) : toByte c ≠ 0 := by
  intro hzero
  have hval := congrArg BitVec.toNat hzero
  rw [toNat_toByte, Nat.mod_eq_of_lt (by omega)] at hval
  have hpos : 1 ≤ (0 : BitVec 8).toNat := hval ▸ hc.1
  exact absurd hpos (by decide)

/-- An argument as the loader lays it out. -/
theorem StringAt.of_blob (hlen : a.length ≤ 1024) (hchars : ∀ c ∈ a, 1 ≤ c.val ∧ c.val ≤ 255)
    (hbytes : ∀ k < (toBlob a).length, mem (va + k) = (toBlob a).getD k 0) :
    StringAt mem va a.length ∧ octetsAt mem va a.length = a.map toByte := by
  have hsize : (toBlob a).length = a.length + 1 := by simp [toBlob]
  have hbyte : ∀ k, (hk : k < a.length) → mem (va + k) = toByte a[k] := by
    intro k hk
    rw [hbytes k (by omega), toBlob, List.getD_eq_getElem?_getD, List.getElem?_append_left (by simpa using hk)]
    simp [hk]
  refine ⟨⟨by omega, fun k hk => ?_, .inr ?_⟩, ?_⟩
  · rw [hbyte k hk]
    exact toByte_ne_zero (hchars _ (List.getElem_mem hk))
  · rw [hbytes _ (by omega)]
    simp [toBlob]
  · refine List.ext_getElem (by simp [octetsAt]) fun k hk _ => ?_
    have hk : k < a.length := by simpa [octetsAt] using hk
    simp [octetsAt, hbyte k hk]

/-- The program is at `pc`, and the words from the `i`th on are still to be sent. -/
structure Words (s : Guest σ) (q top pc i : ℕ) (rest : List Text) : Prop where
  pc : s.pc = pc
  exit : s.exit = none
  sp : s.cpu.sp = BitVec.ofNat 64 q
  argc : s.cpu.x 19 = BitVec.ofNat 64 (i + rest.length)
  pointer : s.cpu.x 20 = BitVec.ofNat 64 (q + 8 + 8 * i)
  index : s.cpu.x 21 = BitVec.ofNat 64 i
  points : ∃ va, q + 8 + 8 * (i + rest.length) ≤ va ∧ va + ((rest.map toBlob).map List.length).sum ≤ top ∧
    Points s.cpu.mem (q + 8 + 8 * i) (rest.map toBlob) va

/-- The surroundings: there is room below the stack pointer, the kernel takes the buffers of the stack, and the code has
addresses. -/
structure Room (h : Host σ) (q top : ℕ) : Prop where
  low : 32 ≤ q
  high : top + 2048 < 2 ^ 64
  fits : h.base + 4 * echoCode.length < 2 ^ 64
  valid : ∀ p n, 0 < n → q - 32 ≤ p → p + n ≤ top → h.validateUserBuffer p n = true

theorem Room.place (hroom : Room h q top) {r : ℕ} (hr : r ≤ 49) : h.base + 4 * r < 2 ^ 64 := by
  have hfits := hroom.fits
  have hlen : echoCode.length = 49 := rfl
  omega

/-- The two tests of the loop. -/
theorem words_check {pc : ℕ} (hroom : Room h q top) (hwords : Words s q top pc i rest)
    (hcode : [.cmpReg (.x 21) (.x 19), .bCond .hs 16] <+: echoCode.drop pc) :
    ∃ t, Reaches (h.step echoCode) s t ∧ Words t q top (if rest = [] then 16 else pc + 2) i rest ∧ t.out = s.out := by
  obtain ⟨va, hva, hend, -⟩ := hwords.points
  have hhigh := hroom.high
  have hc : (subFlags (s.cpu.x 21#5) (s.cpu.x 19#5)).c = decide (rest = []) := by
    have hargc : s.cpu.x 19#5 = BitVec.ofNat 64 (i + rest.length) := hwords.argc
    have hindex : s.cpu.x 21#5 = BitVec.ofNat 64 i := hwords.index
    rw [hargc, hindex]
    simp only [subFlags, BitVec.le_def, toNat_ofNat (show i + rest.length < 2 ^ 64 by omega),
      toNat_ofNat (show i < 2 ^ 64 by omega), ← List.length_eq_zero_iff]
    congr 1
    simp
  have heffect : h.execs s [.cmpReg (.x 21) (.x 19), .bCond .hs 16] =
      { s with
        pc := if rest = [] then 16 else pc + 2
        cpu := { s.cpu with flags := subFlags (s.cpu.x 21) (s.cpu.x 19) } } := by
    by_cases hrest : rest = [] <;> simp [AsmCond.holds, hc, hrest, hwords.pc]
  have hrun := echo_block (h := h) pc _ hwords.pc hcode hwords.exit (by decide)
  rw [heffect] at hrun
  exact ⟨_, hrun, ⟨rfl, hwords.exit, hwords.sp, hwords.argc, hwords.pointer, hwords.index, hwords.points⟩, rfl⟩

/-- One argument is sent. -/
theorem words_send (hroom : Room h q top) (hwords : Words s q top 7 i (a :: rest)) (hlen : a.length ≤ 1024)
    (hchars : ∀ c ∈ a, 1 ≤ c.val ∧ c.val ≤ 255) :
    ∃ t, Reaches (h.step echoCode) s t ∧ Words t q top 11 (i + 1) rest ∧ t.out = s.out ++ a.map toByte := by
  obtain ⟨va, hva, hend, hword, hbytes, hrest⟩ := hwords.points
  have hlow := hroom.low
  have hhigh := hroom.high
  have hsize : (toBlob a).length = a.length + 1 := by simp [toBlob]
  simp only [List.length_cons, List.map_cons, List.sum_cons, hsize] at hva hend hrest
  have hcall := echo_block (h := h) 7 [.ldrOff (.x 1) (.x 20) 0, .bl 20] hwords.pc (by decide) hwords.exit (by decide)
  obtain ⟨u, hu⟩ : ∃ u, h.execs s [.ldrOff (.x 1) (.x 20) 0, .bl 20] = u := ⟨_, rfl⟩
  have hload : loadWord s.cpu.mem (s.cpu.x 20#5) = BitVec.ofNat 64 va := by
    have hpointer : s.cpu.x 20#5 = BitVec.ofNat 64 (q + 8 + 8 * i) := hwords.pointer
    rw [hpointer, loadWord_ofNat (by omega), hword]
  obtain ⟨hstr, hocts⟩ := StringAt.of_blob hlen hchars hbytes
  have hmem : u.cpu.mem = s.cpu.mem := by simp [← hu]
  obtain ⟨t, hrun, hback, hout⟩ := putstr_returns (h := h) (s := u) (q := q) (r := 9) (p := va) (n := a.length)
    (by simp [← hu]) (by simp [← hu, hwords.exit]) (by simp [← hu, hwords.sp]) hlow (by omega) (by omega)
    (by simp [← hu, hwords.pc]) (hroom.place (by omega)) (by simp [← hu, hload]) (by rw [hmem]; exact hstr)
    (fun hpos => hroom.valid _ _ hpos (by omega) (by omega))
  rw [hu] at hcall
  have hnext := echo_block (h := h) 9 [.addImm (.x 21) (.x 21) 1, .addImm (.x 20) (.x 20) 8] hback.pc (by decide) hback.exit
    (by decide)
  have hkept : ∀ r, Kept r → t.cpu.x r = s.cpu.x r := by
    intro r hr
    obtain ⟨-, h1, -, -, -, -, h30⟩ := hr.ne
    rw [hback.saved r hr]
    simp [← hu, h1, h30]
  have hargc : t.cpu.x 19#5 = BitVec.ofNat 64 (i + 1 + rest.length) := by
    rw [Nat.add_assoc, Nat.add_comm 1]
    exact (hkept 19 (by decide)).trans hwords.argc
  have hpointer : t.cpu.x 20#5 = BitVec.ofNat 64 (q + 8 + 8 * i) := (hkept 20 (by decide)).trans hwords.pointer
  have hindex : t.cpu.x 21#5 = BitVec.ofNat 64 i := (hkept 21 (by decide)).trans hwords.index
  refine ⟨_, (hcall.trans hrun).trans hnext, ⟨?_, ?_, ?_, ?_, ?_, ?_, ?_⟩, ?_⟩
  · simp [hback.pc]
  · simp [hback.exit]
  · simp [hback.sp, ← hu, hwords.sp]
  · exact hargc
  · simp [hpointer, ofNat_add (show q + 8 + 8 * i + 8 = q + 8 + 8 * (i + 1) by omega)]
  · simp [hindex, ofNat_add (show i + 1 = i + 1 from rfl)]
  · refine ⟨va + (a.length + 1), by omega, by omega, ?_⟩
    have hplace : q + 8 + 8 * (i + 1) = q + 8 + 8 * i + 8 := by omega
    rw [hplace]
    refine hrest.congr (fun x hx _ => ?_) fun x hx _ => ?_
    · rw [← hmem]
      exact hback.mem x (by omega)
    · rw [← hmem]
      exact hback.mem x (by omega)
  · simp [hout, ← hu, hocts]

/-- The space between two arguments. -/
theorem words_space (hroom : Room h q top) (hwords : Words s q top 13 i rest) (hq : q ≤ top) :
    ∃ t, Reaches (h.step echoCode) s t ∧ Words t q top 5 i rest ∧ t.out = s.out ++ [0x20] := by
  have hlow := hroom.low
  have hhigh := hroom.high
  have hcall := echo_block (h := h) 13 [.movImm (.w 0) 0x20, .bl 38] hwords.pc (by decide) hwords.exit (by decide)
  obtain ⟨u, hu⟩ : ∃ u, h.execs s [.movImm (.w 0) 0x20, .bl 38] = u := ⟨_, rfl⟩
  obtain ⟨t, hrun, hback, hout⟩ := putc_returns (h := h) (s := u) (q := q) (r := 15) (by simp [← hu])
    (by simp [← hu, hwords.exit]) (by simp [← hu, hwords.sp]) hlow (by omega) (by simp [← hu, hwords.pc])
    (hroom.place (by omega)) (hroom.valid _ _ (by omega) (by omega) (by omega))
  rw [hu] at hcall
  have hloop := echo_block (h := h) 15 [.b 5] hback.pc (by decide) hback.exit (by decide)
  have hmem : u.cpu.mem = s.cpu.mem := by simp [← hu]
  have hkept : ∀ r, Kept r → t.cpu.x r = s.cpu.x r := by
    intro r hr
    obtain ⟨h0, -, -, -, -, -, h30⟩ := hr.ne
    rw [hback.saved r hr]
    simp [← hu, h0, h30]
  refine ⟨_, (hcall.trans hrun).trans hloop, ⟨?_, ?_, ?_, ?_, ?_, ?_, ?_⟩, ?_⟩
  · simp
  · simp [hback.exit]
  · simp [hback.sp, ← hu, hwords.sp]
  · exact (hkept 19 (by decide)).trans hwords.argc
  · exact (hkept 20 (by decide)).trans hwords.pointer
  · exact (hkept 21 (by decide)).trans hwords.index
  · obtain ⟨va, hva, hend, hpoints⟩ := hwords.points
    refine ⟨va, hva, hend, hpoints.congr (fun x hx _ => ?_) fun x hx _ => ?_⟩
    · rw [← hmem]
      exact hback.mem x (by omega)
    · rw [← hmem]
      exact hback.mem x (by omega)
  · simp [hout, ← hu]

/-- All the arguments are sent, with a space between two of them. -/
theorem words_all (hroom : Room h q top) (hlen : ∀ a ∈ rest, a.length ≤ 1024)
    (hchars : ∀ a ∈ rest, ∀ c ∈ a, 1 ≤ c.val ∧ c.val ≤ 255) (hwords : Words s q top 5 i rest) :
    ∃ t j, Reaches (h.step echoCode) s t ∧ Words t q top 16 j [] ∧
      t.out = s.out ++ [0x20].intercalate (rest.map fun a => a.map toByte) := by
  induction rest generalizing s i with
  | nil =>
    obtain ⟨t, hrun, ht, hout⟩ := words_check hroom hwords (by decide)
    exact ⟨t, i, hrun, ht, by simp [hout]⟩
  | cons a rest ih =>
    obtain ⟨hlena, hlen⟩ := List.forall_mem_cons.mp hlen
    obtain ⟨hcharsa, hchars⟩ := List.forall_mem_cons.mp hchars
    obtain ⟨s₁, hrun₁, hwords₁, hout₁⟩ := words_check hroom hwords (by decide)
    obtain ⟨s₂, hrun₂, hwords₂, hout₂⟩ := words_send hroom hwords₁ hlena hcharsa
    obtain ⟨s₃, hrun₃, hwords₃, hout₃⟩ := words_check hroom hwords₂ (by decide)
    have hrun := (hrun₁.trans hrun₂).trans hrun₃
    cases rest with
    | nil => exact ⟨s₃, i + 1, hrun, hwords₃, by simp [hout₃, hout₂, hout₁]⟩
    | cons b rest =>
      have hq : q ≤ top := by
        obtain ⟨va, hva, hend, -⟩ := hwords₃.points
        omega
      obtain ⟨s₄, hrun₄, hwords₄, hout₄⟩ := words_space hroom hwords₃ hq
      obtain ⟨t, j, hrest, ht, hout⟩ := ih hlen hchars hwords₄
      exact ⟨t, j, (hrun.trans hrun₄).trans hrest, ht, by simp [hout, hout₄, hout₃, hout₂, hout₁]⟩

/-- The line feed, and the end of the program. -/
theorem newline_exits (hroom : Room h q top) (hpc : s.pc = 16) (hexit : s.exit = none) (hsp : s.cpu.sp = BitVec.ofNat 64 q)
    (hq : q ≤ top) :
    ∃ t, Reaches (h.step echoCode) s t ∧ t.exit = some 0 ∧ t.out = s.out ++ [0x0a] := by
  have hlow := hroom.low
  have hhigh := hroom.high
  have hcall := echo_block (h := h) 16 [.movImm (.w 0) 10, .bl 38] hpc (by decide) hexit (by decide)
  obtain ⟨u, hu⟩ : ∃ u, h.execs s [.movImm (.w 0) 10, .bl 38] = u := ⟨_, rfl⟩
  obtain ⟨t, hrun, hback, hout⟩ := putc_returns (h := h) (s := u) (q := q) (r := 18) (by simp [← hu])
    (by simp [← hu, hexit]) (by simp [← hu, hsp]) hlow (by omega) (by simp [← hu, hpc])
    (hroom.place (by omega)) (hroom.valid _ _ (by omega) (by omega) (by omega))
  rw [hu] at hcall
  have hend := echo_block (h := h) 18 [.movImm (.x 0) 0, .svc 2] hback.pc (by decide) hback.exit (by decide)
  refine ⟨_, (hcall.trans hrun).trans hend, ?_, ?_⟩
  · simp
  · simp [hout, ← hu]

end Words

section Main

variable {σ : Type} {h : Host σ} {s : Guest σ} {stk sp : ℕ} {argv envp : List Text} {mem mem' : ByteMem}

theorem setupArgStack_lengths (hargs : setupArgStack stk argv envp mem = (.ok sp, mem')) : ∀ a ∈ argv, a.length ≤ 1024 := by
  intro a ha
  dsimp only [setupArgStack] at hargs
  split_ifs at hargs with hargc henvc harg henv hfit
  · simp at hargs
  · simp at hargs
  · simp at hargs
  · simp at hargs
  · simp at hargs
  · by_contra hlong
    exact harg (List.any_eq_true.mpr ⟨a, ha, by simpa using hlong⟩)

/-- The stack of a program that starts. -/
theorem starts_room (hbase : h.base + 4 * echoInstrs.length < 2 ^ 64)
    (hvalid : ∀ p n, 0 < n → stackTop - 4096 ≤ p → p + n ≤ stackTop → h.validateUserBuffer p n = true)
    (hargs : setupArgStack stk argv envp mem = (.ok sp, mem'))
    (hmem : ∀ a, stackTop - 4096 ≤ a → a < stackTop → s.cpu.mem a = viewAt stk (stackTop - 4096) mem' a) :
    Room h sp stackTop ∧ sp ≤ stackTop ∧ readWord s.cpu.mem sp = argv.length ∧
      ∃ va, sp + 8 + 8 * argv.length ≤ va ∧ va + ((argv.map toBlob).map List.length).sum ≤ stackTop ∧
        Points s.cpu.mem (sp + 8) (argv.map toBlob) va := by
  obtain ⟨aligned, hfit, -, hsp, rfl, htotal⟩ := setupArgStack_ok hargs
  have hlarge : 4096 < stackTop := by decide
  have hword : stackTop + 2048 < 2 ^ 64 := by decide
  have hlen : echoCode.length ≤ echoInstrs.length := by decide
  generalize stackTop = top at *
  obtain ⟨hcount, ⟨hpoints, -⟩, -, -⟩ := writeArgs_spec (by omega) (by omega) (by omega) rfl rfl
    (Eq.refl (viewAt stk (top - 4096) (writeArgs stk (top - 4096) sp argv envp mem)))
  refine ⟨⟨by omega, hword, by omega, fun p n hn hp hend => hvalid p n hn (by omega) hend⟩, by omega, ?_, _, ?_, ?_,
    hpoints.congr (fun x hx hx' => hmem x (by omega) ?_) fun x hx hx' => hmem x (by omega) (by omega)⟩
  · rw [← hcount]
    exact readLE_congr fun k hk => hmem _ (by omega) (by omega)
  · omega
  · omega
  · rw [List.length_map] at hx'
    omega

/-- The count of the arguments is loaded and tested. -/
theorem starts_test {n : ℕ} (hpc : s.pc = 0) (hsp : s.cpu.sp = BitVec.ofNat 64 sp)
    (hload : loadWord s.cpu.mem (BitVec.ofNat 64 sp) = BitVec.ofNat 64 n) (hn : n < 2 ^ 64) :
    h.execs s [.ldrOff (.x 19) .sp 0, .cmpImm (.x 19) 2, .bCond .lo 16] =
      { s with
        pc := if 2 ≤ n then 3 else 16
        cpu := { s.cpu with x := Function.update s.cpu.x 19 (BitVec.ofNat 64 n), flags := subFlags (BitVec.ofNat 64 n) 2 } } := by
  have hc : (subFlags (BitVec.ofNat 64 n) 2#64).c = decide (2 ≤ n) := by
    simp [subFlags, BitVec.le_def, toNat_ofNat hn]
  by_cases hfew : 2 ≤ n <;> simp [AsmCond.holds, hsp, hload, hc, hfew, hpc]

/-- The program starts with its arguments on the stack that the loader set up for it. -/
theorem echo_prints (hbase : h.base + 4 * echoInstrs.length < 2 ^ 64)
    (hvalid : ∀ p n, 0 < n → stackTop - 4096 ≤ p → p + n ≤ stackTop → h.validateUserBuffer p n = true)
    (hchars : ∀ a ∈ argv, ∀ c ∈ a, 1 ≤ c.val ∧ c.val ≤ 255)
    (hargs : setupArgStack stk argv envp mem = (.ok sp, mem'))
    (hmem : ∀ a, stackTop - 4096 ≤ a → a < stackTop → s.cpu.mem a = viewAt stk (stackTop - 4096) mem' a)
    (hpc : s.pc = 0) (hexit : s.exit = none) (hsp : s.cpu.sp = BitVec.ofNat 64 sp) :
    ∃ code, assemble echoInstrs = some code ∧ ∃ t, Reaches (h.step code) s t ∧ t.exit = some 0 ∧
      t.out = s.out ++ [0x20].intercalate ((argv.drop 1).map fun a => a.map toByte) ++ [0x0a] := by
  refine ⟨echoCode, echo_assembles, ?_⟩
  obtain ⟨hroom, hle, hcount, va, hva, hend, hpoints⟩ := starts_room hbase hvalid hargs hmem
  have hhigh := hroom.high
  have hload : loadWord s.cpu.mem (BitVec.ofNat 64 sp) = BitVec.ofNat 64 argv.length := by
    rw [loadWord_ofNat (by omega), hcount]
  have hfirst := echo_block (h := h) 0 [.ldrOff (.x 19) .sp 0, .cmpImm (.x 19) 2, .bCond .lo 16] hpc (by decide) hexit
    (by decide)
  rw [starts_test hpc hsp hload (by omega)] at hfirst
  obtain ⟨u, hu⟩ : ∃ u, { s with
      pc := if 2 ≤ argv.length then 3 else 16
      cpu := { s.cpu with
        x := Function.update s.cpu.x 19 (BitVec.ofNat 64 argv.length)
        flags := subFlags (BitVec.ofNat 64 argv.length) 2 } } = u := ⟨_, rfl⟩
  rw [hu] at hfirst
  have hspu : u.cpu.sp = BitVec.ofNat 64 sp := by rw [← hu, ← hsp]
  have hexitu : u.exit = none := by rw [← hu, ← hexit]
  have houtu : u.out = s.out := by rw [← hu]
  by_cases hfew : 2 ≤ argv.length
  · obtain ⟨a, rest, rfl⟩ := List.exists_cons_of_length_pos (show 0 < argv.length by omega)
    have hpcu : u.pc = 3 := by rw [← hu, if_pos hfew]
    have hinit := echo_block (h := h) 3 [.addImm (.x 20) .sp 16, .movImm (.x 21) 1] hpcu (by decide) hexitu (by decide)
    have hptr : BitVec.ofNat 64 sp + 16#64 = BitVec.ofNat 64 (sp + 8 + 8 * 1) := ofNat_add (by omega)
    obtain ⟨-, -, hrest⟩ := hpoints
    simp only [List.length_cons, List.map_cons, List.sum_cons] at hva hend
    obtain ⟨t, j, hrun, hwords, hout⟩ := words_all (s := h.execs u [.addImm (.x 20) .sp 16, .movImm (.x 21) 1]) (i := 1)
      hroom (fun b hb => setupArgStack_lengths hargs b (List.mem_cons_of_mem _ hb))
      (fun b hb => hchars b (List.mem_cons_of_mem _ hb))
      ⟨by simp [hpcu], by simp [hexitu], by simp [hspu], by simp [← hu, Nat.add_comm], by simp [hspu, hptr], by simp,
        va + (toBlob a).length, by omega, by omega, by simpa [← hu] using hrest⟩
    obtain ⟨v, hlast, hv, houtv⟩ := newline_exits hroom hwords.pc hwords.exit hwords.sp hle
    refine ⟨v, ((hfirst.trans hinit).trans hrun).trans hlast, hv, ?_⟩
    rw [houtv, hout]
    simp [houtu]
  · have hnone : argv.drop 1 = [] := List.drop_eq_nil_of_le (by omega)
    obtain ⟨t, hrun, ht, hout⟩ := newline_exits hroom (by rw [← hu, if_neg hfew]) hexitu hspu hle
    refine ⟨t, hfirst.trans hrun, ht, ?_⟩
    rw [hout, houtu, hnone]
    simp

/-- A machine whose registers hold zero at the start and after each call, with this stack. -/
def idleHost : Host Unit where
  base := 0x400000
  sym _ := 0
  validateUserBuffer _ _ := true
  scratch _ _ := 0
  flags _ := ⟨false, false, false, false⟩
  serve _ c k := (0, c.mem, k)

def startOn (sp : ℕ) (mem : ByteMem) : Guest Unit where
  cpu := ⟨fun _ => 0, BitVec.ofNat 64 sp, ⟨false, false, false, false⟩, mem⟩
  pc := 0
  out := []
  exit := none
  kernel := ()

theorem echo_prints_words :
    ∃ sp mem', setupArgStack 4096 [text "echo", text "a", text "bc"] [] (fun _ => 0) = (.ok sp, mem') ∧
      ∃ code, assemble echoInstrs = some code ∧
        ∃ t, Reaches (idleHost.step code) (startOn sp (viewAt 4096 (stackTop - 4096) mem')) t ∧ t.exit = some 0 ∧
          t.out = [0x61, 0x20, 0x62, 0x63, 0x0a] := by
  have hok : (setupArgStack 4096 [text "echo", text "a", text "bc"] [] fun _ => 0).1 = .ok (stackTop - 64) := by
    rfl
  cases hrun : setupArgStack 4096 [text "echo", text "a", text "bc"] [] fun _ => 0 with
  | mk res mem' =>
    rw [hrun] at hok
    subst hok
    exact ⟨_, mem', rfl, echo_prints (by decide) (fun _ _ _ _ _ => rfl) (by simp [text]) hrun (fun _ _ _ => rfl) rfl
      rfl rfl⟩

end Main

end HouseKernel.Programs
