import HouseKernel.Heap.Pool
import HouseKernel.Lib.Run

/-! The allocator of the programs in EL0. A block is a header of sixteen bytes with its size, and behind it the payload;
blocks follow each other up to the cursor, which moves with the break, and none is given back. -/
namespace HouseKernel.El0.BumpHeap

open HouseKernel.Lib
open Heap (checkedAdd clearBits)

def allocHdr : ℕ := 16

def eNoMem : ℤ := 12

def asI32 (v : ℤ) : ℤ := v.bmod (2 ^ 32)

def asI64 (v : ℕ) : ℤ := if v < 2 ^ 63 then v else v - 2 ^ 64

def asU64 (v : ℤ) : ℕ := (v % 2 ^ 64).toNat

/-- What the kernel answers: it sets the break to the requested end and returns it, or fails. -/
inductive BrkAnswer where
  | grants
  | refuses (r : ℤ) (hneg : r < 0)

/-- The allocator's variables, the memory, and the kernel's break. -/
structure Process where
  brkCur : ℕ
  errno : ℤ
  mem : ByteMem
  brk : ℕ

/-- `svc #0x03`. The address 0 asks for the break. -/
def houseBrk (addr : ℕ) (answer : BrkAnswer) (w : Process) : ℤ × Process :=
  match answer with
  | .refuses r _ => (r, w)
  | .grants => if addr = 0 then (asI64 w.brk, w) else (asI64 addr, { w with brk := addr })

/-- Store `n` bytes, one after the other. -/
def memset (mem : ByteMem) (d : ℕ) (val : BitVec 8) : ℕ → ByteMem
  | 0 => mem
  | n + 1 => memset (Function.update mem d val) ((d + 1) % 2 ^ 64) val n

/-- Copy `n` bytes, one after the other. -/
def memcpy (mem : ByteMem) (d s : ℕ) : ℕ → ByteMem
  | 0 => mem
  | n + 1 => memcpy (Function.update mem d (mem s)) ((d + 1) % 2 ^ 64) ((s + 1) % 2 ^ 64) n

/-- The bytes of a block with its header. The first sum wraps, the second one is checked. -/
def bumpSize (n : ℕ) : Option ℕ :=
  let base := if n = 0 then 1 else n
  checkedAdd (clearBits ((base + 15) % 2 ^ 64) 15) allocHdr

/-- The cursor, which is asked for when there is none. -/
def loadCursor (query : BrkAnswer) (w : Process) : Option ℕ × Process :=
  if w.brkCur = 0 then
    let (q, w) := houseBrk 0 query w
    if q < 0 then (none, { w with errno := asI32 (-q) })
    else (some (asU64 q), { w with brkCur := asU64 q })
  else (some w.brkCur, w)

def bumpAlloc (n : ℕ) (query extend : BrkAnswer) (w : Process) : ℕ × Process :=
  match bumpSize n with
  | none => (0, { w with errno := eNoMem })
  | some size =>
    match loadCursor query w with
    | (none, w) => (0, w)
    | (some cur, w) =>
      match checkedAdd cur size with
      | none => (0, { w with errno := eNoMem })
      | some stop =>
        let (r, w) := houseBrk stop extend w
        if r < 0 then (0, { w with errno := asI32 (-r) })
        else if asU64 r < stop then (0, { w with errno := eNoMem })
        else
          ((w.brkCur + allocHdr) % 2 ^ 64,
            { w with mem := writeWord w.mem w.brkCur (size - allocHdr), brkCur := asU64 r })

def malloc (n : ℕ) (query extend : BrkAnswer) (w : Process) : ℕ × Process := bumpAlloc n query extend w

def checkedMul (a b : ℕ) : Option ℕ := if a * b < 2 ^ 64 then some (a * b) else none

def calloc (nmemb size : ℕ) (query extend : BrkAnswer) (w : Process) : ℕ × Process :=
  match checkedMul nmemb size with
  | none => (0, { w with errno := eNoMem })
  | some total =>
    let (p, w) := bumpAlloc total query extend w
    if p = 0 then (p, w) else (p, { w with mem := memset w.mem p 0 total })

def realloc (p n : ℕ) (query extend : BrkAnswer) (w : Process) : ℕ × Process :=
  if p = 0 then bumpAlloc n query extend w
  else if n = 0 then (0, w)
  else
    let (q, w) := bumpAlloc n query extend w
    if q = 0 then (0, w)
    else
      let old := readWord w.mem (p - allocHdr)
      let len := if old < n then old else n
      (q, { w with mem := memcpy w.mem q p len })

/-- A block that was returned, and the bytes that were requested. -/
structure Block where
  ptr : ℕ
  want : ℕ

/-- A process, the blocks that it was given, and what the last call returned. -/
structure HeapState where
  proc : Process
  blocks : List Block
  ret : ℕ

inductive Call where
  | malloc (n : BitVec 64)
  | calloc (nmemb size : BitVec 64)
  | realloc (p : ℕ) (n : BitVec 64)

/-- The number of bytes that a call requests. -/
def Call.want : Call → ℕ
  | .malloc n => n.toNat
  | .calloc nmemb size => nmemb.toNat * size.toNat
  | .realloc _ n => n.toNat

def Call.exec (query extend : BrkAnswer) (w : Process) : Call → ℕ × Process
  | .malloc n => BumpHeap.malloc n.toNat query extend w
  | .calloc nmemb size => BumpHeap.calloc nmemb.toNat size.toNat query extend w
  | .realloc p n => BumpHeap.realloc p n.toNat query extend w

/-- The pointers that a call may be given: `realloc` takes the null pointer or that of a block. -/
def Call.Allowed (s : HeapState) : Call → Prop
  | .realloc p _ => p = 0 ∨ ∃ b ∈ s.blocks, b.ptr = p
  | _ => True

instance (s : HeapState) (c : Call) : Decidable (c.Allowed s) :=
  match c with
  | .malloc _ => isTrue trivial
  | .calloc _ _ => isTrue trivial
  | .realloc p _ => inferInstanceAs (Decidable (p = 0 ∨ ∃ b ∈ s.blocks, b.ptr = p))

/-- What the program does: a call, or a store, which leaves the headers alone. -/
inductive HeapAct where
  | call (c : Call) (query extend : BrkAnswer)
  | free (p : ℕ)
  | store (a : ℕ) (v : BitVec 8)

def HeapState.returned (s : HeapState) (want : ℕ) (r : ℕ × Process) : HeapState :=
  ⟨r.2, if r.1 = 0 then s.blocks else s.blocks ++ [⟨r.1, want⟩], r.1⟩

def heapStep (s : HeapState) : HeapAct → Option HeapState
  | .call c query extend => if c.Allowed s then some (s.returned c.want (c.exec query extend s.proc)) else none
  | .free _ => some s
  | .store a v =>
    if ∀ b ∈ s.blocks, a < b.ptr - allocHdr ∨ b.ptr - allocHdr + 8 ≤ a then
      some { s with proc := { s.proc with mem := Function.update s.proc.mem a v } }
    else none

/-- A process that has not allocated, with the break that it was started with. -/
def heapBoot (brk : ℕ) (mem : ByteMem) : HeapState := ⟨⟨0, 0, mem, brk⟩, [], 0⟩

end HouseKernel.El0.BumpHeap
