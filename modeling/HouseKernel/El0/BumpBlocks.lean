import Mathlib
import HouseKernel.El0.BumpHeap

/-! What the allocator of EL0 hands out. A block lies between the cursor before and the break after its call, so that
it is apart from all earlier blocks; but the size of a request within fifteen bytes of the end of the address space
wraps, and the block has no bytes. -/
namespace HouseKernel.El0.BumpHeap

open HouseKernel.Lib
open Heap (checkedAdd clearBits)

variable {n size : ℕ} {w w' : Process} {query extend : BrkAnswer}

/-- Where the next block begins. -/
def Process.cursor (w : Process) : ℕ := if w.brkCur = 0 then w.brk else w.brkCur

/-- The kernel grants these bytes behind the cursor, at an address that is no error. -/
structure Process.Granted (w : Process) (query extend : BrkAnswer) (size : ℕ) : Prop where
  query : w.brkCur = 0 → query = .grants
  extend : extend = .grants
  fits : w.cursor + size < 2 ^ 63

structure Process.Ok (w : Process) : Prop where
  cur : 16 ∣ w.brkCur
  curLt : w.brkCur < 2 ^ 63
  brk : 16 ∣ w.brk
  brkLt : w.brk < 2 ^ 64

lemma clearBits_fifteen (v : ℕ) : clearBits v 15 = v - v % 16 := by
  rw [clearBits, Nat.and_two_pow_sub_one_eq_mod v 4]

lemma checkedAdd_eq_some {a b c : ℕ} : checkedAdd a b = some c ↔ a + b = c ∧ c < 2 ^ 64 := by
  unfold checkedAdd
  split_ifs with hlt
  · rw [Option.some.injEq]
    omega
  · simp only [false_iff]
    omega

lemma bumpSize_dvd (h : bumpSize n = some size) : 16 ∣ size ∧ 16 ≤ size := by
  obtain ⟨rfl, -⟩ := checkedAdd_eq_some.mp h
  rw [clearBits_fifteen, allocHdr]
  omega

/-- The rounded size holds the request. -/
lemma bumpSize_room (hn : n ≤ 2 ^ 64 - 16) (h : bumpSize n = some size) : n + 16 ≤ size ∧ 32 ≤ size := by
  obtain ⟨rfl, -⟩ := checkedAdd_eq_some.mp h
  rw [clearBits_fifteen, allocHdr]
  split_ifs with hzero
  · omega
  · omega

/-- The rounded size wraps. -/
lemma bumpSize_wraps (hlow : 2 ^ 64 - 16 < n) (hhigh : n < 2 ^ 64) : bumpSize n = some 16 := by
  refine checkedAdd_eq_some.mpr ⟨?_, by norm_num⟩
  rw [clearBits_fifteen, allocHdr, if_neg (by omega)]
  omega

lemma asI64_small {v : ℕ} (h : v < 2 ^ 63) : asI64 v = v := if_pos h

lemma asI64_large {v : ℕ} (hlow : ¬v < 2 ^ 63) (hhigh : v < 2 ^ 64) : asI64 v < 0 := by
  rw [asI64, if_neg hlow]
  omega

lemma asU64_small {v : ℕ} (h : v < 2 ^ 64) : asU64 v = v := by
  rw [asU64]
  omega

/-- The kernel answers with the break, and where that reads as an error it may have moved it all the same. -/
lemma houseBrk_cases {addr v : ℕ} (hv : (if addr = 0 then w.brk else addr) = v) (hlt : v < 2 ^ 64) (answer : BrkAnswer) :
    (answer = .grants ∧ v < 2 ^ 63 ∧ houseBrk addr answer w = ((v : ℤ), { w with brk := v })) ∨
    (¬(answer = .grants ∧ v < 2 ^ 63) ∧
      ∃ r brk, houseBrk addr answer w = (r, { w with brk := brk }) ∧ r < 0 ∧ (brk = w.brk ∨ brk = v)) := by
  cases answer with
  | refuses r hneg => exact .inr ⟨nofun, r, w.brk, rfl, hneg, .inl rfl⟩
  | grants =>
    have hset : houseBrk addr .grants w = (asI64 v, { w with brk := v }) := by
      rw [houseBrk, ← hv]
      split_ifs with hzero
      · rfl
      · rfl
    by_cases hsmall : v < 2 ^ 63
    · exact .inl ⟨rfl, hsmall, by rw [hset, asI64_small hsmall]⟩
    · exact .inr ⟨fun h => hsmall h.2, asI64 v, v, hset, asI64_large hsmall hlt, .inr rfl⟩

/-- The cursor is where the next block begins, unless the kernel does not tell. -/
lemma loadCursor_cases (hw : w.Ok) (query : BrkAnswer) :
    (loadCursor query w = (some w.cursor, { w with brkCur := w.cursor }) ∧ (w.brkCur = 0 → query = .grants) ∧
      w.cursor < 2 ^ 63) ∨
    ((∃ e, loadCursor query w = (none, { w with errno := e })) ∧
      ¬((w.brkCur = 0 → query = .grants) ∧ w.cursor < 2 ^ 63)) := by
  unfold loadCursor Process.cursor
  split_ifs with hzero
  · have hask : (if 0 = 0 then w.brk else 0) = w.brk := if_pos rfl
    obtain ⟨hgrants, hsmall, hbrk⟩ | ⟨hno, r, brk, hbrk, hneg, hkept⟩ := houseBrk_cases hask hw.brkLt query
    · refine .inl ⟨?_, fun _ => hgrants, hsmall⟩
      rw [hbrk]
      dsimp only
      rw [if_neg (by omega), asU64_small hw.brkLt]
    · refine .inr ⟨⟨asI32 (-r), ?_⟩, fun h => hno ⟨h.1 hzero, h.2⟩⟩
      obtain rfl : brk = w.brk := by simpa using hkept
      rw [hbrk]
      exact if_pos hneg
  · exact .inl ⟨rfl, fun h => absurd h hzero, hw.curLt⟩

/-- A call that is granted its bytes. -/
lemma bumpAlloc_granted (hw : w.Ok) (hsize : bumpSize n = some size) (hg : w.Granted query extend size) :
    bumpAlloc n query extend w = (w.cursor + 16,
      { w with mem := writeWord w.mem w.cursor (size - 16), brkCur := w.cursor + size, brk := w.cursor + size }) := by
  obtain ⟨-, hpos⟩ := bumpSize_dvd hsize
  have hfits := hg.fits
  have hadd : checkedAdd w.cursor size = some (w.cursor + size) := checkedAdd_eq_some.mpr ⟨rfl, by omega⟩
  obtain ⟨hcur, -⟩ | ⟨-, hno⟩ := loadCursor_cases hw query
  · have hmove : (if w.cursor + size = 0 then w.brk else w.cursor + size) = w.cursor + size := if_neg (by omega)
    obtain ⟨-, -, hbrk⟩ | ⟨hno, -⟩ :=
      @houseBrk_cases { w with brkCur := w.cursor } _ _ hmove (by omega) extend
    · rw [bumpAlloc, hsize]
      dsimp only
      rw [hcur]
      dsimp only
      rw [hadd]
      dsimp only
      rw [hbrk]
      dsimp only
      rw [if_neg (by omega), asU64_small (by omega), if_neg (Nat.lt_irrefl _), allocHdr, Nat.mod_eq_of_lt (by omega)]
    · exact absurd ⟨hg.extend, hg.fits⟩ hno
  · exact absurd ⟨hg.query, by omega⟩ hno

/-- Any other call fails, and leaves the memory and the cursor's blocks as they are. -/
lemma bumpAlloc_refused (hw : w.Ok) (hno : ∀ size, bumpSize n = some size → ¬w.Granted query extend size) :
    ∃ w', bumpAlloc n query extend w = (0, w') ∧ w'.Ok ∧ w'.mem = w.mem ∧ w.brkCur ≤ w'.brkCur := by
  unfold bumpAlloc
  cases hsize : bumpSize n with
  | none => exact ⟨_, rfl, ⟨hw.cur, hw.curLt, hw.brk, hw.brkLt⟩, rfl, le_rfl⟩
  | some size =>
    obtain ⟨hdvd, hpos⟩ := bumpSize_dvd hsize
    dsimp only
    obtain ⟨hcur, hquery, hlt⟩ | ⟨⟨e, hcur⟩, -⟩ := loadCursor_cases hw query
    · rw [hcur]
      dsimp only
      have hcursor : 16 ∣ w.cursor ∧ w.brkCur ≤ w.cursor := by
        unfold Process.cursor
        split_ifs with hzero
        · exact ⟨hw.brk, by omega⟩
        · exact ⟨hw.cur, le_rfl⟩
      cases hadd : checkedAdd w.cursor size with
      | none => exact ⟨_, rfl, ⟨hcursor.1, hlt, hw.brk, hw.brkLt⟩, rfl, hcursor.2⟩
      | some stop =>
        obtain ⟨rfl, hstop⟩ := checkedAdd_eq_some.mp hadd
        have hmove : (if w.cursor + size = 0 then w.brk else w.cursor + size) = w.cursor + size := if_neg (by omega)
        obtain ⟨hextend, hsmall, -⟩ | ⟨-, r, brk, hbrk, hneg, hkept⟩ :=
          @houseBrk_cases { w with brkCur := w.cursor } _ _ hmove hstop extend
        · exact absurd ⟨hquery, hextend, hsmall⟩ (hno size hsize)
        · dsimp only
          rw [hbrk]
          dsimp only
          rw [if_pos hneg]
          have hbrkOk : 16 ∣ brk ∧ brk < 2 ^ 64 := by
            obtain rfl | rfl := hkept
            · exact ⟨hw.brk, hw.brkLt⟩
            · exact ⟨Nat.dvd_add hcursor.1 hdvd, hstop⟩
          exact ⟨_, rfl, ⟨hcursor.1, hlt, hbrkOk.1, hbrkOk.2⟩, rfl, hcursor.2⟩
    · rw [hcur]
      exact ⟨_, rfl, ⟨hw.cur, hw.curLt, hw.brk, hw.brkLt⟩, rfl, le_rfl⟩

lemma memset_apart {mem : ByteMem} {d x : ℕ} {val : BitVec 8} (hd : d + n < 2 ^ 64) (hx : x < d ∨ d + n ≤ x) :
    memset mem d val n x = mem x := by
  induction n generalizing mem d with
  | zero => rfl
  | succ n ih =>
    rw [memset, Nat.mod_eq_of_lt (by omega), ih (by omega) (by omega), Function.update_of_ne (by omega)]

lemma memcpy_apart {mem : ByteMem} {d src x : ℕ} (hd : d + n < 2 ^ 64) (hx : x < d ∨ d + n ≤ x) :
    memcpy mem d src n x = mem x := by
  induction n generalizing mem d src with
  | zero => rfl
  | succ n ih =>
    rw [memcpy, Nat.mod_eq_of_lt (by omega), ih (by omega) (by omega), Function.update_of_ne (by omega)]

/-- A copy upwards to bytes that do not overlap the source. -/
lemma memcpy_copies {mem : ByteMem} {d src i : ℕ} (hd : d + n < 2 ^ 64) (hsrc : src + n ≤ d) (hi : i < n) :
    memcpy mem d src n (d + i) = mem (src + i) := by
  induction n generalizing mem d src i with
  | zero => cases hi
  | succ n ih =>
    have hnext : (d + 1) % 2 ^ 64 = d + 1 ∧ (src + 1) % 2 ^ 64 = src + 1 :=
      ⟨Nat.mod_eq_of_lt (by omega), Nat.mod_eq_of_lt (by omega)⟩
    rw [memcpy, hnext.1, hnext.2]
    cases i with
    | zero =>
      rw [Nat.add_zero, Nat.add_zero, memcpy_apart (by omega) (by omega)]
      exact Function.update_self ..
    | succ i =>
      have hplace : d + (i + 1) = d + 1 + i ∧ src + (i + 1) = src + 1 + i := by omega
      rw [hplace.1, hplace.2, ih (by omega) (by omega) (by omega), Function.update_of_ne (by omega)]

/-- The result of a call that makes a block of `size` bytes for a request of `want`. Where the size does not wrap, what
lies below the cursor is unchanged and the header has the size of the payload. -/
structure Made (w : Process) (want size : ℕ) (r : ℕ × Process) : Prop where
  ret : r.1 = w.cursor + 16
  cur : r.2.brkCur = w.cursor + size
  brk : r.2.brk = w.cursor + size
  below : want ≤ 2 ^ 64 - 16 → ∀ x < w.cursor, r.2.mem x = w.mem x
  header : want ≤ 2 ^ 64 - 16 → readWord r.2.mem w.cursor = size - 16

/-- Stores in the payload. -/
lemma Made.payload {want p : ℕ} {mem : ByteMem} (hm : Made w want size (p, w'))
    (hmem : want ≤ 2 ^ 64 - 16 → ∀ x < w.cursor + 16, mem x = w'.mem x) :
    Made w want size (p, { w' with mem := mem }) where
  ret := hm.ret
  cur := hm.cur
  brk := hm.brk
  below := fun hwant x hx => (hmem hwant x (by omega)).trans (hm.below hwant x hx)
  header := by
    intro hwant
    rw [← hm.header hwant]
    exact readLE_congr fun k hk => hmem hwant _ (by omega)

lemma bumpAlloc_made (hw : w.Ok) (hsize : bumpSize n = some size) (hg : w.Granted query extend size) :
    Made w n size (bumpAlloc n query extend w) := by
  obtain ⟨-, hpos⟩ := bumpSize_dvd hsize
  have hfits := hg.fits
  rw [bumpAlloc_granted hw hsize hg]
  refine ⟨rfl, rfl, rfl, fun _ x hx => fill_of_notMem (by omega), fun _ => ?_⟩
  exact readWord_writeWord (by omega)

/-- The calls that come to the allocation. -/
def Call.Attempts : Call → Prop
  | .malloc _ => True
  | .calloc nmemb size => nmemb.toNat * size.toNat < 2 ^ 64
  | .realloc p n => p = 0 ∨ n.toNat ≠ 0

/-- What a call that comes to the allocation makes of a granted one. -/
lemma Call.exec_made {c : Call} (hw : w.Ok) (hc : c.Attempts) (hsize : bumpSize c.want = some size)
    (hg : w.Granted query extend size) : Made w c.want size (c.exec query extend w) := by
  have hfits := hg.fits
  have hmade := bumpAlloc_made hw hsize hg
  have hroom := fun hwant : c.want ≤ 2 ^ 64 - 16 => bumpSize_room hwant hsize
  cases c with
  | malloc n => exact hmade
  | calloc nmemb count =>
    have hlt : nmemb.toNat * count.toNat < 2 ^ 64 := hc
    rw [Call.want] at hmade hroom
    rw [Call.want, Call.exec, BumpHeap.calloc, checkedMul, if_pos hlt]
    dsimp only
    cases hbump : bumpAlloc (nmemb.toNat * count.toNat) query extend w with
    | mk p w' =>
      rw [hbump] at hmade
      have hret : p = w.cursor + 16 := hmade.ret
      dsimp only
      rw [if_neg (by omega)]
      refine hmade.payload fun hwant x hx => memset_apart ?_ (.inl (by omega))
      have hle := hroom hwant
      omega
  | realloc p n =>
    rw [Call.exec, BumpHeap.realloc]
    rw [Call.want] at hmade hroom
    split_ifs with hnull hzero
    · exact hmade
    · exact absurd hzero (hc.resolve_left hnull)
    · cases hbump : bumpAlloc n.toNat query extend w with
      | mk q w' =>
        rw [hbump] at hmade
        have hret : q = w.cursor + 16 := hmade.ret
        dsimp only
        rw [if_neg (by omega)]
        refine hmade.payload fun hwant x hx => memcpy_apart ?_ (.inl (by omega))
        have hle := hroom hwant
        split_ifs with hold
        · omega
        · omega

/-- Any other call returns the null pointer and changes nothing below the cursor. -/
lemma Call.exec_refused {c : Call} (hw : w.Ok)
    (hno : ¬∃ size, c.Attempts ∧ bumpSize c.want = some size ∧ w.Granted query extend size) :
    (c.exec query extend w).1 = 0 ∧ (c.exec query extend w).2.Ok ∧ (c.exec query extend w).2.mem = w.mem ∧
      w.brkCur ≤ (c.exec query extend w).2.brkCur := by
  have hbump : c.Attempts → ∃ w', bumpAlloc c.want query extend w = (0, w') ∧ w'.Ok ∧ w'.mem = w.mem ∧
      w.brkCur ≤ w'.brkCur := fun hc => bumpAlloc_refused hw fun size hsize hg => hno ⟨size, hc, hsize, hg⟩
  cases c with
  | malloc n =>
    obtain ⟨w', hbump, hw'⟩ := hbump trivial
    have hexec : (Call.malloc n).exec query extend w = (0, w') := hbump
    rw [hexec]
    exact ⟨rfl, hw'⟩
  | calloc nmemb count =>
    rw [Call.exec, BumpHeap.calloc, checkedMul]
    split_ifs with hlt
    · obtain ⟨w', hbump, hw'⟩ := hbump hlt
      rw [Call.want] at hbump
      dsimp only
      rw [hbump]
      exact ⟨rfl, hw'⟩
    · exact ⟨rfl, ⟨hw.cur, hw.curLt, hw.brk, hw.brkLt⟩, rfl, le_rfl⟩
  | realloc p n =>
    rw [Call.exec, BumpHeap.realloc]
    split_ifs with hnull hzero
    · obtain ⟨w', hbump, hw'⟩ := hbump (.inl hnull)
      rw [Call.want] at hbump
      rw [hbump]
      exact ⟨rfl, hw'⟩
    · exact ⟨rfl, hw, rfl, le_rfl⟩
    · obtain ⟨w', hbump, hw'⟩ := hbump (.inr hzero)
      rw [Call.want] at hbump
      rw [hbump]
      exact ⟨rfl, hw'⟩

/-- A block with its header, below the cursor. -/
structure Block.Laid (w : Process) (b : Block) : Prop where
  start : 16 ≤ b.ptr
  room : b.want ≤ readWord w.mem (b.ptr - 16)
  below : b.ptr + readWord w.mem (b.ptr - 16) ≤ w.brkCur

lemma Block.Laid.le_cursor {b : Block} (h : b.Laid w) : b.ptr + readWord w.mem (b.ptr - 16) ≤ w.cursor := by
  have hstart := h.start
  have hbelow := h.below
  rw [Process.cursor, if_neg (by omega)]
  exact hbelow

/-- The bytes of the old block are those of the new one, as far as both go. -/
lemma realloc_copies {b : Block} (hw : w.Ok) (hb : b.Laid w) (hn : n ≠ 0) (hwant : n ≤ 2 ^ 64 - 16)
    (hsize : bumpSize n = some size) (hg : w.Granted query extend size) {i : ℕ} (hi : i < min b.want n) :
    (realloc b.ptr n query extend w).2.mem (w.cursor + 16 + i) = w.mem (b.ptr + i) := by
  have hstart := hb.start
  have hroom := hb.room
  have hle := hb.le_cursor
  have hfits := hg.fits
  have hsizeLe := bumpSize_room hwant hsize
  have hmade := bumpAlloc_made hw hsize hg
  rw [realloc, if_neg (by omega), if_neg hn]
  cases hbump : bumpAlloc n query extend w with
  | mk q w' =>
    rw [hbump] at hmade
    have hret : q = w.cursor + 16 := hmade.ret
    have hheader : readWord w'.mem (b.ptr - 16) = readWord w.mem (b.ptr - 16) :=
      readLE_congr fun k hk => hmade.below hwant _ (by omega)
    dsimp only
    rw [if_neg (by omega), hret, allocHdr, hheader]
    dsimp only
    rw [memcpy_copies]
    · exact hmade.below hwant _ (by omega)
    · split_ifs <;> omega
    · split_ifs <;> omega
    · split_ifs <;> omega

/-- What a call has to give when it returns a block. -/
structure HandedOut (s t : HeapState) (want : ℕ) : Prop where
  aligned : 16 ∣ t.ret
  below : t.ret + want ≤ t.proc.brk
  apart : ∀ b ∈ s.blocks, Disjoint (Set.Ico b.ptr (b.ptr + b.want)) (Set.Ico t.ret (t.ret + want))

/-- The bytes that `realloc` has to keep. -/
def Call.Keeps (s t : HeapState) : Call → Prop
  | .realloc p n => ∀ b ∈ s.blocks, b.ptr = p → ∀ i < min b.want n.toNat, t.proc.mem (t.ret + i) = s.proc.mem (p + i)
  | _ => True

def HandsOut (s : HeapState) : HeapAct → Prop
  | .call c query extend =>
    ∀ t, heapStep s (.call c query extend) = some t → t.ret ≠ 0 → HandedOut s t c.want ∧ c.Keeps s t
  | _ => True

/-- The size of the request does not wrap, or the kernel refuses the sixteen bytes that come out of it. -/
def Fits (s : HeapState) : HeapAct → Prop
  | .call c query extend =>
    c.Allowed s → c.want ≤ 2 ^ 64 - 16 ∨ 2 ^ 64 ≤ c.want ∨ ¬s.proc.Granted query extend 16
  | _ => True

structure HeapState.Ok (s : HeapState) : Prop where
  proc : s.proc.Ok
  blocks : ∀ b ∈ s.blocks, b.Laid s.proc

variable {s t : HeapState}

/-- Blocks stay where they are when the cursor rises and their headers are not written. -/
lemma Block.Laid.mono {b : Block} (h : b.Laid w) (hcur : w.brkCur ≤ w'.brkCur)
    (hmem : readWord w'.mem (b.ptr - 16) = readWord w.mem (b.ptr - 16)) : b.Laid w' where
  start := h.start
  room := by
    rw [hmem]
    exact h.room
  below := by
    rw [hmem]
    exact h.below.trans hcur

lemma Call.want_lt {c : Call} (hc : c.Attempts) : c.want < 2 ^ 64 := by
  cases c with
  | malloc n => exact n.isLt
  | calloc nmemb size => exact hc
  | realloc p n => exact n.isLt

lemma Process.Ok.cursor_dvd (hw : w.Ok) : 16 ∣ w.cursor ∧ w.brkCur ≤ w.cursor := by
  unfold Process.cursor
  split_ifs with hzero
  · exact ⟨hw.brk, by omega⟩
  · exact ⟨hw.cur, le_rfl⟩

/-- A call that fits makes a block for all of its request, or returns the null pointer. -/
lemma call_cases {c : Call} (h : s.Ok) (hallowed : c.Allowed s) (hfits : Fits s (.call c query extend)) :
    (c.exec query extend s.proc).1 = 0 ∧ (c.exec query extend s.proc).2.Ok ∧
      (c.exec query extend s.proc).2.mem = s.proc.mem ∧ s.proc.brkCur ≤ (c.exec query extend s.proc).2.brkCur ∨
    ∃ size, c.Attempts ∧ c.want ≤ 2 ^ 64 - 16 ∧ bumpSize c.want = some size ∧ s.proc.Granted query extend size ∧
      Made s.proc c.want size (c.exec query extend s.proc) := by
  by_cases hgrant : ∃ size, c.Attempts ∧ bumpSize c.want = some size ∧ s.proc.Granted query extend size
  · obtain ⟨size, hc, hsize, hg⟩ := hgrant
    have hlt := Call.want_lt hc
    have hwant : c.want ≤ 2 ^ 64 - 16 := by
      by_contra hlarge
      have hwrap := bumpSize_wraps (Nat.not_le.mp hlarge) hlt
      obtain rfl : size = 16 := Option.some.inj (hsize.symm.trans hwrap)
      obtain hsmall | hhuge | hno := hfits hallowed
      · exact hlarge hsmall
      · omega
      · exact hno hg
    exact .inr ⟨size, hc, hwant, hsize, hg, Call.exec_made h.proc hc hsize hg⟩
  · exact .inl (Call.exec_refused h.proc hgrant)

/-- The new block stands behind the old ones. -/
lemma Made.laid {want p : ℕ} (hm : Made w want size (p, w')) (hwant : want ≤ 2 ^ 64 - 16)
    (hsize : bumpSize want = some size) : Block.Laid w' ⟨p, want⟩ := by
  obtain ⟨hroom, -⟩ := bumpSize_room hwant hsize
  have hret : p = w.cursor + 16 := hm.ret
  have hcur : w'.brkCur = w.cursor + size := hm.cur
  have hheader : readWord w'.mem (p - 16) = size - 16 := by
    rw [hret, Nat.add_sub_cancel]
    exact hm.header hwant
  constructor
  · exact hret ▸ Nat.le_add_left 16 _
  · rw [hheader]
    exact Nat.le_sub_of_add_le hroom
  · rw [hheader, hcur]
    change p + (size - 16) ≤ w.cursor + size
    omega

lemma call_ok {c : Call} (h : s.Ok) (hallowed : c.Allowed s) (hfits : Fits s (.call c query extend)) :
    (s.returned c.want (c.exec query extend s.proc)).Ok := by
  have hcases := call_cases h hallowed hfits
  cases hexec : c.exec query extend s.proc with
  | mk r w' =>
    rw [hexec] at hcases
    obtain ⟨hnull, hw', hmem, hcur⟩ | ⟨size, -, hwant, hsize, hg, hmade⟩ := hcases
    · have hnull : r = 0 := hnull
      refine ⟨hw', fun b hb => ?_⟩
      rw [HeapState.returned, if_pos hnull] at hb
      have hword : readWord w'.mem (b.ptr - 16) = readWord s.proc.mem (b.ptr - 16) := by rw [hmem]
      exact (h.blocks b hb).mono hcur hword
    · obtain ⟨hdvd, hpos⟩ := bumpSize_dvd hsize
      obtain ⟨hcursor, hle⟩ := h.proc.cursor_dvd
      have hfits := hg.fits
      have hret : r = s.proc.cursor + 16 := hmade.ret
      have hcur : w'.brkCur = s.proc.cursor + size := hmade.cur
      have hbrk : w'.brk = s.proc.cursor + size := hmade.brk
      refine ⟨⟨?_, ?_, ?_, ?_⟩, fun b hb => ?_⟩
      · exact hcur ▸ Nat.dvd_add hcursor hdvd
      · exact hcur ▸ hg.fits
      · exact hbrk ▸ Nat.dvd_add hcursor hdvd
      · exact hbrk ▸ hg.fits.trans (by norm_num)
      · rw [HeapState.returned, if_neg (by omega)] at hb
        obtain hb | hb := List.mem_append.mp hb
        · have hold := h.blocks b hb
          have hstart := hold.start
          have hbelow := hold.le_cursor
          refine hold.mono (by change s.proc.brkCur ≤ w'.brkCur; omega) ?_
          exact readLE_congr fun k hk => hmade.below hwant _ (by omega)
        · obtain rfl := List.mem_singleton.mp hb
          exact hmade.laid hwant hsize

/-- Steps that fit keep the blocks in order. -/
lemma heapStep_ok {a : HeapAct} (h : s.Ok) (hfits : Fits s a) (hstep : heapStep s a = some t) : t.Ok := by
  cases a with
  | call c query extend =>
    rw [heapStep] at hstep
    split_ifs at hstep with hallowed
    obtain rfl := Option.some.inj hstep
    exact call_ok h hallowed hfits
  | free p =>
    obtain rfl := Option.some.inj hstep
    exact h
  | store x v =>
    rw [heapStep] at hstep
    split_ifs at hstep with houtside
    obtain rfl := Option.some.inj hstep
    refine ⟨⟨h.proc.cur, h.proc.curLt, h.proc.brk, h.proc.brkLt⟩, fun b hb => (h.blocks b hb).mono le_rfl ?_⟩
    have haway := houtside b hb
    rw [allocHdr] at haway
    exact readLE_congr fun k hk => Function.update_of_ne (by omega) _ _

/-- A block that was made has room for its request, apart from all blocks before it. -/
lemma Made.handedOut {c : Call} (h : s.Ok) (hwant : c.want ≤ 2 ^ 64 - 16) (hsize : bumpSize c.want = some size)
    (hm : Made s.proc c.want size (c.exec query extend s.proc)) :
    HandedOut s (s.returned c.want (c.exec query extend s.proc)) c.want := by
  obtain ⟨hroom, -⟩ := bumpSize_room hwant hsize
  obtain ⟨hcursor, -⟩ := h.proc.cursor_dvd
  have hret := hm.ret
  have hbrk := hm.brk
  constructor
  · change 16 ∣ (c.exec query extend s.proc).1
    rw [hret]
    omega
  · change (c.exec query extend s.proc).1 + c.want ≤ (c.exec query extend s.proc).2.brk
    omega
  · intro b hb
    have hold := h.blocks b hb
    have hbelow := hold.le_cursor
    have hlen := hold.room
    refine Set.disjoint_left.mpr fun x hx hx' => ?_
    have hlow : (c.exec query extend s.proc).1 ≤ x := hx'.1
    have hhigh := hx.2
    omega

/-- A step hands out what it has to exactly when it fits. -/
theorem handsOut_iff {a : HeapAct} (h : s.Ok) : HandsOut s a ↔ Fits s a := by
  cases a with
  | call c query extend =>
    constructor
    · intro hhands hallowed
      by_contra hnot
      rw [not_or, not_or, not_not, Nat.not_le, Nat.not_le] at hnot
      obtain ⟨hlow, hhigh, hg⟩ := hnot
      have hc : c.Attempts := by
        cases c with
        | malloc n => trivial
        | calloc nmemb size => exact hhigh
        | realloc p n => exact .inr (by rw [Call.want] at hlow; omega)
      have hmade := Call.exec_made h.proc hc (bumpSize_wraps hlow hhigh) hg
      have hret := hmade.ret
      have hbrk := hmade.brk
      obtain ⟨hbelow, -⟩ := hhands _ (if_pos hallowed) (by change (c.exec query extend s.proc).1 ≠ 0; omega)
      have hroom : (c.exec query extend s.proc).1 + c.want ≤ (c.exec query extend s.proc).2.brk := hbelow.below
      omega
    · intro hfits t hstep hne
      rw [heapStep] at hstep
      split_ifs at hstep with hallowed
      obtain rfl := Option.some.inj hstep
      obtain ⟨hnull, -⟩ | ⟨size, hc, hwant, hsize, hg, hmade⟩ := call_cases h hallowed hfits
      · exact absurd hnull hne
      · refine ⟨hmade.handedOut h hwant hsize, ?_⟩
        cases c with
        | malloc n => trivial
        | calloc nmemb count => trivial
        | realloc p n =>
          rintro b hb rfl i hi
          have hold := h.blocks b hb
          have hstart := hold.start
          have hn : n.toNat ≠ 0 := hc.resolve_left (by omega)
          have hret : (BumpHeap.realloc b.ptr n.toNat query extend s.proc).1 = s.proc.cursor + 16 := hmade.ret
          change (BumpHeap.realloc b.ptr n.toNat query extend s.proc).2.mem
            ((BumpHeap.realloc b.ptr n.toNat query extend s.proc).1 + i) = _
          rw [hret]
          exact realloc_copies h.proc hold hn hwant hsize hg hi
  | free p => exact Iff.rfl
  | store x v => exact Iff.rfl

/-- Along a run of any length all blocks are real exactly when no request whose size wraps is granted: they are aligned,
below the break, apart from all blocks before them, and start with the bytes of the block that they replace. -/
theorem blocks_real_iff (brk : ℕ) (mem : ByteMem) (acts : List HeapAct) (hbrk : 16 ∣ brk) (hlt : brk < 2 ^ 64) :
    Along heapStep HandsOut (heapBoot brk mem) acts ↔ Along heapStep Fits (heapBoot brk mem) acts := by
  have hboot : (heapBoot brk mem).Ok := by
    refine ⟨⟨Nat.dvd_zero 16, Nat.two_pow_pos 63, hbrk, hlt⟩, ?_⟩
    exact fun b hb => absurd hb List.not_mem_nil
  exact along_iff_of_invariant (fun s a t hs hfits hstep => heapStep_ok hs hfits hstep) (fun s a hs => handsOut_iff hs) hboot

/-- A block is enlarged, and its bytes move. -/
def growBlock : List HeapAct :=
  [.call (.malloc 24) .grants .grants, .store 0x1000010 7, .call (.realloc 0x1000010 100) .grants .grants]

theorem blocks_real_growBlock : Along heapStep HandsOut (heapBoot 0x1000000 fun _ => 0) growBlock := by
  rw [blocks_real_iff 0x1000000 _ _ (by decide) (by decide)]
  exact ⟨fun _ => .inl (by decide), fun _ _ => ⟨trivial, fun _ _ => ⟨fun _ => .inl (by decide), fun _ _ => trivial⟩⟩⟩

/-- A request for all of the address space is given a block without a byte, at the break. -/
theorem malloc_wraps :
    (heapStep (heapBoot 0x1000000 fun _ => 0) (.call (.malloc (2 ^ 64 - 1)) .grants .grants)).map
      (fun t => (t.ret, t.proc.brk)) = some (0x1000010, 0x1000010) ∧
    ¬Along heapStep HandsOut (heapBoot 0x1000000 fun _ => 0) [.call (.malloc (2 ^ 64 - 1)) .grants .grants] := by
  refine ⟨by decide +kernel, ?_⟩
  rintro ⟨hhands, -⟩
  obtain ⟨hbelow, -⟩ := hhands _ rfl (by decide +kernel)
  exact absurd hbelow.below (by decide +kernel)

end HouseKernel.El0.BumpHeap
