import HouseKernel.Heap.Soundness
import HouseKernel.Threads.Waits

/-! What a thread takes and gives back. Its stack is a block of the pool; its control block is a page, or a block
of the pool when there is no page. Both go to the pool when the thread is joined, detached or exits detached,
and when its creation fails. -/
namespace HouseKernel.Threads

open HouseKernel.Lib HouseKernel.Heap HouseKernel.Pages

def threadStackBytes : ℕ := 512 * 1024

/-- An entry of the table of threads. -/
structure ThreadRecord where
  tid : ℕ
  -- the state is not `HOUSE_THR_UNUSED`
  inUse : Bool
  detached : Bool
  exited : Bool
  stackBase : ℕ
  tcb : ℕ
  deriving DecidableEq, Repr

/-- What became of a thread. -/
inductive ThreadEvent where
  | created (tid : ℕ)
  | exited (tid : ℕ)
  | joined (tid : ℕ)
  | detached (tid : ℕ)
  deriving DecidableEq, Repr

def ThreadEvent.tid : ThreadEvent → ℕ
  | .created tid | .exited tid | .joined tid | .detached tid => tid

/-- Both allocators and the table, with what has happened so far. -/
structure ThreadMemory where
  pool : Pool
  buddy : Buddy
  threads : Slot → ThreadRecord
  nextTid : ℕ
  events : List ThreadEvent

/-- Clear the control block. A page comes cleared. -/
def clearTcb (pool : Pool) (p : ℕ) : Pool := { pool with mem := fill pool.mem p 32 fun _ => 0 }

def houseTlsAlloc (m : ThreadMemory) : Option (ℕ × ThreadMemory) :=
  match buddyAllocPage m.buddy with
  | (p, buddy) =>
    if p ≠ 0 then some (p, { m with buddy := buddy })
    else (m.pool.malloc 32).map fun (pool, p) => (p, { m with pool := if p = 0 then pool else clearTcb pool p })

/-- A byte of the first frame: zeros, but for the link to the trampoline in word 17. -/
def frameByte (trampoline k : ℕ) : BitVec 8 := if 136 ≤ k ∧ k < 144 then byteOf trampoline (k - 136) else 0

def frameTop (stack : ℕ) : ℕ := clearBits (stack + threadStackBytes) 15 - 224

def pushFrame (trampoline stack : ℕ) (pool : Pool) : Pool :=
  { pool with mem := fill pool.mem (frameTop stack) 224 (frameByte trampoline) }

namespace ThreadMemory

/-- The first entry of the table that a test finds. -/
def findThread (m : ThreadMemory) (f : ThreadRecord → Bool) : Option Slot := (List.finRange 64).find? fun t => f (m.threads t)

def setThread (m : ThreadMemory) (t : Slot) (th : ThreadRecord) : ThreadMemory :=
  { m with threads := Function.update m.threads t th }

def log (m : ThreadMemory) (e : ThreadEvent) : ThreadMemory := { m with events := e :: m.events }

def allocThread (m : ThreadMemory) : Option Slot := m.findThread fun th => !th.inUse

def startThread (trampoline : ℕ) (m : ThreadMemory) (t : Slot) (stack tcb : ℕ) : ThreadMemory :=
  { m.log (.created m.nextTid) with
    pool := pushFrame trampoline stack m.pool
    threads := Function.update m.threads t ⟨m.nextTid, true, false, false, stack, tcb⟩
    nextTid := m.nextTid + 1 }

/-- The answer is an errno. There is none when the counter of thread ids overflows. -/
def pthreadCreate (trampoline thr : ℕ) (m : ThreadMemory) : Option (ℕ × ThreadMemory) :=
  if thr = 0 then some (22, m)
  else (m.pool.malloc threadStackBytes).bind fun (pool, stack) =>
    if stack = 0 then some (12, { m with pool := pool })
    else (houseTlsAlloc { m with pool := pool }).bind fun (tcb, m) =>
      if tcb = 0 then some (12, { m with pool := m.pool.free stack })
      else
        match m.allocThread with
        | none => some (11, { m with pool := (m.pool.free stack).free tcb })
        | some t => if m.nextTid + 1 < 2 ^ 31 then some (0, m.startThread trampoline t stack tcb) else none

/-- Stack and control block go to the pool. -/
def release (pool : Pool) (th : ThreadRecord) : Pool :=
  let pool := if th.stackBase ≠ 0 then pool.free th.stackBase else pool
  if th.tcb ≠ 0 then pool.free th.tcb else pool

/-- The entry is given up, with its memory. -/
def reap (m : ThreadMemory) (t : Slot) (th : ThreadRecord) : ThreadMemory :=
  { m with pool := release m.pool th, threads := Function.update m.threads t { th with inUse := false } }

/-- A join of a thread that has not exited does not return. -/
def pthreadJoin (tid : ℕ) (m : ThreadMemory) : Option (ℕ × ThreadMemory) :=
  match m.findThread fun th => th.tid = tid && th.inUse with
  | none => some (3, m)
  | some t =>
    let th := m.threads t
    if th.detached then some (22, m)
    else if th.exited then some (0, (m.reap t { th with tid := 0 }).log (.joined tid))
    else none

def pthreadDetach (tid : ℕ) (m : ThreadMemory) : ThreadMemory :=
  match m.findThread fun th => th.tid = tid with
  | none => m
  | some t =>
    let th := { m.threads t with detached := true }
    if th.exited && th.inUse then (m.reap t th).log (.detached tid) else (m.setThread t th).log (.detached tid)

def pthreadExit (m : ThreadMemory) (t : Slot) : ThreadMemory :=
  let th := { m.threads t with exited := true }
  if th.detached then (m.reap t th).log (.exited th.tid) else (m.setThread t th).log (.exited th.tid)

/-- The thread was created by a call, and its entry is still its own. -/
def Held (m : ThreadMemory) (t : Slot) : Prop := (m.threads t).inUse = true ∧ .created (m.threads t).tid ∈ m.events

instance (m : ThreadMemory) (t : Slot) : Decidable (m.Held t) := inferInstanceAs (Decidable (_ ∧ _))

end ThreadMemory

/-- The calls of threads, and the stores that they make. -/
inductive ThreadCall where
  | create (thr : ℕ)
  | exit (t : Slot)
  | join (tid : ℕ)
  | detach (tid : ℕ)
  | store (a : ℕ) (bytes : List (BitVec 8))
  deriving DecidableEq, Repr

/-- One call, from its start to its end. A thread that was created exits once; stores keep to the blocks of the pool
that are held, and spell no magic word there. -/
def resourceStep (trampoline : ℕ) (m : ThreadMemory) : ThreadCall → Option ThreadMemory
  | .create thr => (m.pthreadCreate trampoline thr).map Prod.snd
  | .exit t => if m.Held t ∧ (m.threads t).exited = false then some (m.pthreadExit t) else none
  | .join tid => (m.pthreadJoin tid).map Prod.snd
  | .detach tid => some (m.pthreadDetach tid)
  | .store a bytes =>
    if Mannered m.pool (.store a bytes) then (poolStep m.pool (.store a bytes)).map fun pool => { m with pool := pool } else none

/-- Where threads start: both allocators in order, the window of the pages behind the pool, and no thread created or
ended yet. -/
structure ThreadMemory.Ready (m : ThreadMemory) : Prop where
  pool : ∃ frees, m.pool.Inv frees
  pages : ∃ free, m.buddy.Stocks free
  window : m.buddy.freePages ≠ 0 → poolTop ≤ m.buddy.buddyStart
  first : 0 < m.nextTid
  tids : ∀ t, (m.threads t).tid < m.nextTid
  running : ∀ t, (m.threads t).inUse = true → (m.threads t).exited = false
  events : m.events = []

/-- A creation finds no room for a stack, or no page. -/
def TakesNoPage (m : ThreadMemory) : ThreadCall → Prop
  | .create thr => thr = 0 ∨ m.pool.place threadStackBytes 16 = none ∨ m.buddy.freePages = 0
  | _ => True

instance (m : ThreadMemory) : ∀ a, Decidable (TakesNoPage m a)
  | .create _ => inferInstanceAs (Decidable (_ ∨ _))
  | .exit _ | .join _ | .detach _ | .store _ _ => isTrue trivial

/-- Every thread that was created has exited and was joined or detached. -/
def AllEnded (events : List ThreadEvent) : Prop :=
  ∀ tid, .created tid ∈ events → .exited tid ∈ events ∧ (.joined tid ∈ events ∨ .detached tid ∈ events)

end HouseKernel.Threads
