import HouseKernel.Lib.ByteMemory
import HouseKernel.Lib.Run
import HouseKernel.Lib.Span
import HouseKernel.Pages.Buddy

/-! The pool behind `malloc`. A block is a header of sixteen bytes, the magic word and the size, and behind it
the payload. A block that is freed loses its magic word, and its first payload word links it into the free list;
the list is searched first, and only then the pool is extended. Whether a pointer is one of a block is read off
the word sixteen bytes before it. -/
namespace HouseKernel.Heap

open HouseKernel.Lib
open Pages (pointer)

def heapBase : ℕ := 0x42000000

def mallocPoolBytes : ℕ := 64 * 1024 * 1024

def poolTop : ℕ := heapBase + mallocPoolBytes

/-- `LAMESUOH`, as its bytes lie in the memory. -/
def mallocMagic : ℕ := 0x484F5553454D414C

def mallocMin : ℕ := 8

def eNoMem : ℕ := 12

def eInval : ℕ := 22

/-- A block that was returned and not freed since: the size in its header, and what the caller asked for. -/
structure Block where
  ptr : ℕ
  size : ℕ
  want : ℕ
  align : ℕ
  deriving DecidableEq, Repr

/-- The allocator's variables and the memory. The null pointer is 0; `live` has the blocks that callers hold. -/
structure Pool where
  mem : ByteMem
  mallocCur : ℕ
  freeHead : ℕ
  mallocUsed : ℕ
  mallocHigh : ℕ
  errno : ℕ
  live : List Block

/-- The pool when the system starts, over memory as it is then. -/
def Pool.boot (mem : ByteMem) : Pool := ⟨mem, 0, 0, 0, 0, 0, []⟩

def checkedAdd (a b : ℕ) : Option ℕ := if a + b < 2 ^ 64 then some (a + b) else none

def saturatingAdd (a b : ℕ) : ℕ := min (a + b) (2 ^ 64 - 1)

/-- `v & !mask`. -/
def clearBits (v mask : ℕ) : ℕ := v - (v &&& mask)

/-- The size of the block at `p`, if the word before it says that there is one. -/
def headerFor (mem : ByteMem) (p : ℕ) : Option ℕ :=
  if p = 0 then none
  else if p < heapBase + 16 ∨ p ≥ poolTop then none
  else if readWord mem (p - 16) ≠ mallocMagic then none
  else some (readWord mem (p - 16 + 8))

/-- Search the free list from `cur` for a block of `n` bytes; `link` is the block whose link leads to `cur`, none
for the head of the list. `none` is a search that has not ended. -/
def firstFit (mem : ByteMem) (n : ℕ) : ℕ → Option ℕ → ℕ → Option (Option (Option ℕ × ℕ))
  | 0, _, _ => none
  | fuel + 1, link, cur =>
    if cur = 0 then some none
    else if readWord mem (cur - 16 + 8) ≥ n then some (some (link, cur))
    else firstFit mem n fuel (some cur) (readWord mem cur)

namespace Pool

def countUsed (s : Pool) (size : ℕ) : Pool :=
  let used := saturatingAdd s.mallocUsed size
  { s with mallocUsed := used, mallocHigh := if used > s.mallocHigh then used else s.mallocHigh }

/-- `*link = next`. -/
def relink (s : Pool) (link : Option ℕ) (next : ℕ) : Pool :=
  match link with
  | none => { s with freeHead := next }
  | some prev => { s with mem := writeWord s.mem prev next }

/-- Unlink `cur` and make it a block again. -/
def reuse (s : Pool) (link : Option ℕ) (cur : ℕ) : Pool :=
  let size := readWord s.mem (cur - 16 + 8)
  let s := s.relink link (readWord s.mem cur)
  countUsed { s with mem := writeWord s.mem (cur - 16) mallocMagic } size

def frontier (s : Pool) : ℕ := if s.mallocCur = 0 then heapBase else s.mallocCur

/-- The next block that was never used, and where it ends; none when the pool is exhausted. -/
def bumpBlock (s : Pool) (nEff align : ℕ) : Option (ℕ × ℕ) := do
  let h := clearBits (← checkedAdd s.frontier 15) 15
  let base ← checkedAdd h 16
  let p := clearBits (← checkedAdd base (align - 1)) (align - 1)
  let stop ← checkedAdd p nEff
  if stop > poolTop then none else some (p, stop)

def bump (s : Pool) (nEff align : ℕ) : Pool × ℕ :=
  match s.bumpBlock nEff align with
  | none => ({ s with errno := eNoMem }, 0)
  | some (p, stop) =>
    (countUsed { s with
      mem := writeWord (writeWord s.mem (p - 16) mallocMagic) (p - 16 + 8) nEff
      mallocCur := stop } nEff, p)

/-- The alignment that is served: one that is not a power of two counts as 16. -/
def effAlign (align : ℕ) : ℕ := if align = 0 ∨ align &&& (align - 1) ≠ 0 then 16 else align

/-- The free block that serves the request, with the link to it. Larger alignments always extend the pool. -/
def fit (s : Pool) (n align : ℕ) : Option (Option (Option ℕ × ℕ)) :=
  if effAlign align ≤ 16 then firstFit s.mem (max n mallocMin) mallocPoolBytes none s.freeHead else some none

def poolAllocLocked (s : Pool) (n align : ℕ) : Option (Pool × ℕ) :=
  (s.fit n align).map fun
    | some (link, cur) => (s.reuse link cur, cur)
    | none => s.bump (max n mallocMin) (effAlign align)

/-- The caller of a request that was served holds the block. -/
def hold (n align : ℕ) : Pool × ℕ → Pool × ℕ
  | (s, p) => (if p = 0 then s else { s with live := ⟨p, readWord s.mem (p - 16 + 8), n, align⟩ :: s.live }, p)

def poolAlloc (s : Pool) (n align : ℕ) : Option (Pool × ℕ) := (s.poolAllocLocked n align).map (hold n align)

def malloc (s : Pool) (n : ℕ) : Option (Pool × ℕ) := s.poolAlloc n 16

def free (s : Pool) (p : ℕ) : Pool :=
  if p = 0 then s
  else match headerFor s.mem p with
    | some size =>
      if size ≥ mallocMin then
        { s with
          mem := writeWord (writeWord s.mem (p - 16) 0) p s.freeHead
          freeHead := p
          mallocUsed := s.mallocUsed - size
          live := s.live.filter fun b => b.ptr ≠ p }
      else { s with mem := writeWord s.mem (p - 16) 0, errno := eInval }
    | none => { s with errno := eInval }

def calloc (s : Pool) (a b : ℕ) : Option (Pool × ℕ) :=
  if a * b < 2 ^ 64 then
    (s.malloc (a * b)).map fun (s, p) =>
      (if p ≠ 0 then { s with mem := fill s.mem p (a * b) fun _ => 0 } else s, p)
  else some ({ s with errno := eNoMem }, 0)

/-- How much of the old payload `realloc` copies. -/
def copyLength (oldn n old : ℕ) : ℕ := min (if oldn < n then oldn else n) (poolTop - old)

def realloc (s : Pool) (old n : ℕ) : Option (Pool × ℕ) :=
  if old = 0 then s.malloc n
  else if n > mallocPoolBytes then some ({ s with errno := eNoMem }, 0)
  else match headerFor s.mem old with
    | none => some ({ s with errno := eInval }, 0)
    | some oldn =>
      -- the lock is held from the check to the copy; the old block stays with its holder
      (s.poolAlloc n 16).map fun (s, p) =>
        (if p ≠ 0 then { s with mem := copyBytes s.mem old p (copyLength oldn n old) } else s, p)

/-- The result is the errno; the pointer goes to `out`. -/
def posixMemalign (s : Pool) (out align n : ℕ) : Option (Pool × ℕ) :=
  if out = 0 then some (s, eInval)
  else if align = 0 ∨ align &&& (align - 1) ≠ 0 then some (s, eInval)
  else (s.poolAlloc n align).map fun (s, p) =>
    if p = 0 then (s, eNoMem) else ({ s with mem := writeWord s.mem out p }, 0)

end Pool

/-- What callers do: the five calls, and stores of their own. -/
inductive Call where
  | malloc (n : ℕ)
  | calloc (a b : ℕ)
  | realloc (old n : ℕ)
  | posixMemalign (out align n : ℕ)
  | free (p : ℕ)
  | store (a : ℕ) (bytes : List (BitVec 8))
  deriving DecidableEq, Repr

/-- One call; `none` is a call that does not return. -/
def poolStep (s : Pool) : Call → Option Pool
  | .malloc n => (s.malloc n).map Prod.fst
  | .calloc a b => (s.calloc a b).map Prod.fst
  | .realloc old n => (s.realloc old n).map Prod.fst
  | .posixMemalign out align n => (s.posixMemalign out align n).map Prod.fst
  | .free p => some (s.free p)
  | .store a bytes => some { s with mem := fill s.mem a bytes.length fun k => bytes.getD k 0 }

/-- The span of a block with its header. -/
def Block.span (b : Block) : Span := ⟨b.ptr - 16, b.ptr + b.size⟩

/-- The blocks on the free list, at most `fuel` of them. -/
def Pool.freeList (s : Pool) : List ℕ :=
  follow (fun p => pointer (readWord s.mem p)) mallocPoolBytes (pointer s.freeHead)

end HouseKernel.Heap
