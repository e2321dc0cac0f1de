import HouseKernel.Lib.Run
import HouseKernel.Threads.Waits

/-! The threads of all cores. Each step is one critical section, one store outside the lock or
the end of a switch on some core: `house_thread_switch` saves the old context after the lock has
been released, so that other cores act in between. -/
namespace HouseKernel.Threads

open HouseKernel.Lib

abbrev CoreId := Fin 32

instance neZero_cores : NeZero 32 := ⟨by decide⟩

/-- Where the code of a thread is. -/
inductive Point where
  | user
  | exiting
  | exitMarked
  | dead
  | joining (target : Slot)
  | joinLock (target : Slot)
  | joinYield (target : Slot)
  | joinReap (target : Slot)
  | lockLoop (m : ℕ)
  | lockBlock (m : ℕ)
  | lockBlockAgain (m : ℕ)
  | condSpin (c m : ℕ) (timed : Bool)
  | condWfi (c m : ℕ) (timed : Bool)
  | condYield (c m : ℕ) (timed : Bool)
  | reacquire (m : ℕ)
  | reacquireYield (m : ℕ)
  | sleepSpin
  | asleep
  deriving DecidableEq, Repr

/-- The context of a thread: whose it is, the stack and block that it uses, and where it goes on. -/
structure Ctx where
  self : Slot
  tid : ℕ
  stack : Option ℕ
  tcb : Option ℕ
  pc : Point
  deriving DecidableEq, Repr

/-- The table of threads, field by field, and the tables of the cores. `live` is the context that
a core executes and `saving` the switch that it is in. -/
structure Sched extends Waits where
  tid : Slot → ℕ
  exited : Slot → Bool
  detached : Slot → Bool
  joiner : Slot → Option Slot
  next : Slot → Option Slot
  affinity : Slot → BitVec 32
  stack : Slot → Option ℕ
  tcb : Slot → Option ℕ
  saved : Slot → Ctx
  runQ : CoreId → Ends Slot
  current : CoreId → Option Slot
  live : CoreId → Option Ctx
  saving : CoreId → Option (Slot × Slot)
  used : ℕ → Bool
  nextTid : ℕ
  smp : ℕ
  mask : BitVec 32
  gone : Slot → Bool

inductive Op where
  | finishSwitch
  | create (stack tcb : ℕ)
  | malloc (block : ℕ)
  | exit
  | exitMark
  | exitSection
  | join (tid : ℕ)
  | joinLook
  | joinSection
  | joinYield
  | reap
  | detach (tid : ℕ)
  | yield
  | wake (t : Slot)
  | lock (m : ℕ)
  | lockSection
  | block
  | trylock (m : ℕ)
  | unlock (m : ℕ)
  | signal (c : ℕ)
  | broadcast (c : ℕ)
  | condWait (c m : ℕ) (timed : Bool)
  | spinLook
  | spinYield
  | timeout
  | reacquire
  | reacquireYield
  | sleep
  | sleepDone
  | rebalance
  | setAffinity (mask : BitVec 32)
  | coreDown (core : CoreId)
  deriving DecidableEq, Repr

namespace Sched

def setStatus (s : Sched) (t : Slot) (status : Status) : Sched := { s with toWaits := s.toWaits.setStatus t status }

def put (s : Sched) (waits : Waits) : Sched := { s with toWaits := waits }

def runLinks (s : Sched) (core : CoreId) : Links Slot := ⟨s.next, s.runQ core⟩

def relinkRun (s : Sched) (core : CoreId) (l : Links Slot) : Sched :=
  { s with next := l.next, runQ := Function.update s.runQ core l.ends }

/-- The code of the core goes on at `pc`. -/
def goto (s : Sched) (core : CoreId) (pc : Point) : Sched :=
  { s with live := Function.update s.live core ((s.live core).map fun x => { x with pc := pc }) }

def queuedAnywhere (s : Sched) (t : Slot) : Bool :=
  (List.finRange 32).any fun core => t ∈ follow s.next 65 (s.runQ core).head

def enqueueRunCore (s : Sched) (core : CoreId) (t : Slot) : Sched :=
  if s.queuedAnywhere t then s else (s.setStatus t .runnable).relinkRun core ((s.runLinks core).pushBack t)

def dequeueRunCore (s : Sched) (core : CoreId) : Option (Slot × Sched) :=
  (s.runQ core).head.map fun t => (t, s.relinkRun core ((s.runLinks core).popFront t))

/-- The lowest bit of a mask, or core 0. -/
def firstOnline (mask : BitVec 32) : CoreId := ((List.finRange 32).find? fun i : CoreId => mask.getLsbD i.val).getD 0

def coreBit (core : CoreId) : BitVec 32 := 1#32 <<< core.val

/-- A target that is offline is exchanged for the first core that is online. -/
def followMask (s : Sched) (core : CoreId) : CoreId :=
  if s.mask ≠ 0 ∧ s.mask.getLsbD core = false then firstOnline s.mask else core

def runCore (s : Sched) (t : Slot) : CoreId :=
  let smp := if s.smp = 0 then 2 else s.smp
  let core := if s.affinity t ≠ 0 then (firstOnline (s.affinity t)).val else s.tid t % smp
  s.followMask (Fin.ofNat 32 (if core ≥ smp then 0 else core))

def enqueueRun (s : Sched) (t : Slot) : Sched := s.enqueueRunCore (s.runCore t) t

/-- The core that a waker puts a thread on. -/
def wakeCore (s : Sched) (t : Slot) : CoreId :=
  let target := if s.affinity t ≠ 0 then firstOnline (s.affinity t) else 0
  if target.val ≥ s.smp then 0 else target

def wakeWaiter (s : Sched) (t : Slot) : Sched := s.enqueueRunCore (s.wakeCore t) t

/-- Make `new` the thread of the core; the core still has to save `old`. -/
def switchTo (s : Sched) (core : CoreId) (old new : Slot) : Sched :=
  { s.setStatus new .running with
    current := Function.update s.current core (some new)
    saving := Function.update s.saving core (some (old, new)) }

/-- Give the core to the next thread of its queue and come back at `pc`, or go on at `idle`. -/
def leave (s : Sched) (core : CoreId) (old : Slot) (pc idle : Point) : Sched :=
  match s.dequeueRunCore core with
  | none => s.goto core idle
  | some (new, s') => (s'.switchTo core old new).goto core pc

/-- A thread that yields while it is running or runnable goes to the queue of its core. -/
def requeue (s : Sched) (core : CoreId) (old : Slot) : Sched :=
  if s.status old = .running then (s.setStatus old .runnable).enqueueRunCore core old
  else if s.status old = .runnable then if s.queuedAnywhere old then s else s.enqueueRunCore core old
  else s

/-- `house_sched_yield`, to go on at `pc`. -/
def yieldTo (s : Sched) (core : CoreId) (old : Slot) (pc : Point) : Sched :=
  match (s.requeue core old).dequeueRunCore core with
  | none =>
    if s.status old = .runnable then ((s.requeue core old).setStatus old .running).goto core pc
    else (s.requeue core old).goto core pc
  | some (new, s') =>
    if new = old then (s'.setStatus old .running).goto core pc else (s'.switchTo core old new).goto core pc

def allocThread (s : Sched) : Option Slot := (List.finRange 64).find? fun t => s.status t = .unused

/-- Unlink a thread from the queues of the cores in turn. -/
def dequeueSpecific (t : Slot) : List CoreId → Sched → Option Sched
  | [], s => some s
  | core :: cores, s =>
    ((s.runLinks core).unlinkGo false t 65 none (s.runQ core).head).bind fun r =>
      dequeueSpecific t cores (s.relinkRun core r.2)

def createCore (s : Sched) : CoreId :=
  let smp := if s.smp = 0 then 2 else s.smp
  s.followMask (if s.nextTid < 10 then 0 else Fin.ofNat 32 (s.nextTid % smp))

/-- The record of a new thread. -/
def initThread (s : Sched) (t : Slot) (stack tcb : ℕ) : Sched :=
  { s with
    status := Function.update s.status t .runnable
    waitNext := Function.update s.waitNext t none
    tid := Function.update s.tid t s.nextTid
    exited := Function.update s.exited t false
    detached := Function.update s.detached t false
    joiner := Function.update s.joiner t none
    next := Function.update s.next t none
    affinity := Function.update s.affinity t (coreBit s.createCore)
    stack := Function.update s.stack t (some stack)
    tcb := Function.update s.tcb t (some tcb)
    saved := Function.update s.saved t ⟨t, s.nextTid, some stack, some tcb, .user⟩
    used := Function.update (Function.update s.used stack true) tcb true
    nextTid := s.nextTid + 1
    gone := Function.update s.gone t false }

/-- `pthread_create` with the blocks that the allocator gives. -/
def create (s : Sched) (stack tcb : ℕ) : Option Sched :=
  if s.used stack = true ∨ s.used tcb = true ∨ stack = tcb then none
  else match s.allocThread with
    | none => some s
    | some t => (dequeueSpecific t (List.finRange 32) s).map fun s' =>
      (s'.initThread t stack tcb).enqueueRunCore s'.createCore t

def freeBlock (used : ℕ → Bool) : Option ℕ → ℕ → Bool
  | none => used
  | some block => Function.update used block false

/-- Free the stack and the block of a thread and give up its slot. -/
def reapThread (s : Sched) (t : Slot) : Sched :=
  { s.setStatus t .unused with used := freeBlock (freeBlock s.used (s.stack t)) (s.tcb t) }

def wakeJoiner (s : Sched) (cur : Slot) : Sched :=
  match s.joiner cur with
  | none => s
  | some j => { s with joiner := Function.update s.joiner cur none }.enqueueRun j

def exitSection (s : Sched) (core : CoreId) (cur : Slot) : Sched :=
  let s1 := s.wakeJoiner cur
  let s2 := if s1.detached cur then s1.reapThread cur else s1
  { s2 with gone := Function.update s2.gone cur true }.leave core cur .dead .dead

def joinSection (s : Sched) (core : CoreId) (cur target : Slot) : Sched :=
  if s.exited target then s.goto core (.joinReap target)
  else { s.setStatus cur .blocked with joiner := Function.update s.joiner target (some cur) }.leave core cur
    (.joining target) (.joinYield target)

def wakeAll (s : Sched) (ts : List Slot) : Sched := ts.foldl wakeWaiter s

/-- `r` has who was woken and the wait queues afterwards. -/
def putWoken (s : Sched) (r : Option Slot × Waits) : Sched := (s.put r.2).wakeAll r.1.toList

def findTid (s : Sched) (tid : ℕ) : Option Slot := (List.finRange 64).find? fun t => s.tid t = tid

def detach (s : Sched) (tid : ℕ) : Sched :=
  match s.findTid tid with
  | none => s
  | some t =>
    let s' := { s with detached := Function.update s.detached t true }
    if s.exited t ∧ s.status t ≠ .unused then s'.reapThread t else s'

/-- Unlink a thread from the first of the queues that has it. -/
def takeFrom (t : Slot) : List CoreId → Sched → Option (Bool × Sched)
  | [], s => some (false, s)
  | core :: cores, s =>
    ((s.runLinks core).unlinkGo true t 65 none (s.runQ core).head).bind fun r =>
      if r.1 then some (true, s.relinkRun core r.2) else takeFrom t cores s

/-- The core on which rebalancing wants a thread. -/
def homeCore (s : Sched) (t : Slot) : CoreId := Fin.ofNat 32 (s.tid t % s.smp)

def rebalanceOne (s : Sched) (t : Slot) : Option Sched :=
  let home := { s with affinity := Function.update s.affinity t (coreBit (s.homeCore t)) }
  if s.status t = .unused ∨ s.tid t < 2 ∨ s.tid t ≥ 10 ∨ s.affinity t = coreBit (s.homeCore t) then some s
  else if s.status t = .runnable then
    (takeFrom t ((List.finRange 32).filter fun core => core.val < s.smp) s).map fun r =>
      if r.1 then r.2.enqueueRunCore (s.homeCore t) t else home
  else some home

def rebalance : List Slot → Sched → Option Sched
  | [], s => some s
  | t :: ts, s => (s.rebalanceOne t).bind (rebalance ts)

/-- Append the threads that the links lead to from `p` to the queue of `dst`. -/
def migrate (dst : CoreId) : ℕ → Option Slot → Sched → Option Sched
  | 0, _, _ => none
  | _ + 1, none, s => some s
  | fuel + 1, some t, s =>
    migrate dst fuel (s.next t) ({ s.setStatus t .runnable with
      affinity := Function.update s.affinity t (coreBit dst) }.relinkRun dst ((s.runLinks dst).pushBack t))

/-- The firmware reports the core off and its bit is cleared. What it executed is lost; what it had still to save
stays unsaved. -/
def coreOff (s : Sched) (down : CoreId) : Sched :=
  { s with
    mask := s.mask &&& ~~~(coreBit down)
    live := Function.update s.live down none }

/-- `house_threads_on_core_down`. -/
def onCoreDown (s : Sched) (core : CoreId) : Option Sched :=
  migrate (firstOnline s.mask) 65 (s.runQ core).head { s with
    runQ := Function.update s.runQ core ⟨none, none⟩
    current := Function.update s.current core none }

/-- A core is off, and its queue goes to another core. -/
def coreDown (s : Sched) (core : CoreId) : Option Sched := (s.coreOff core).onCoreDown core

end Sched

/-- The steps of code at `x.pc` on a core, in the name of its current thread `cur`. -/
def codeStep (s : Sched) (core : CoreId) (cur : Slot) (x : Ctx) (op : Op) : Option Sched :=
  match op, x.pc with
  | .create stack tcb, .user => s.create stack tcb
  | .malloc block, .user => if s.used block then none else some { s with used := Function.update s.used block true }
  | .exit, .user => some ({ s with exited := Function.update s.exited cur true }.goto core .exiting)
  | .exitMark, .exiting => some ((s.setStatus cur .exited).goto core .exitMarked)
  | .exitSection, .exitMarked => some (s.exitSection core cur)
  | .join tid, .user =>
    match (List.finRange 64).find? fun t => s.tid t = tid ∧ s.status t ≠ .unused with
    | none => some s
    | some target => some (if s.detached target then s else s.goto core (.joining target))
  | .joinLook, .joining target => some (s.goto core (if s.exited target then .joinReap target else .joinLock target))
  | .joinSection, .joinLock target => some (s.joinSection core cur target)
  | .joinYield, .joinYield target => some (s.yieldTo core cur (.joining target))
  | .reap, .joinReap target =>
    some ({ s.reapThread target with tid := Function.update s.tid target 0 }.goto core .user)
  | .detach tid, .user => some (s.detach tid)
  | .yield, .user => some (s.yieldTo core cur .user)
  | .wake t, .user => some (if s.status t = .blocked then s.enqueueRun t else s)
  | .lock m, .user => some (s.goto core (.lockLoop m))
  | .lockSection, .lockLoop m =>
    some (if s.locked m then (s.put (s.toWaits.append (.mutex m) cur)).goto core (.lockBlock m)
      else (s.put (s.toWaits.setLocked m true)).goto core .user)
  | .block, .lockBlock m => some (s.leave core cur (.lockLoop m) (.lockBlockAgain m))
  | .block, .lockBlockAgain m => some (s.leave core cur (.lockLoop m) (.lockLoop m))
  | .trylock m, .user => some (if s.locked m then s else s.put (s.toWaits.setLocked m true))
  | .unlock m, .user => some (s.putWoken (s.toWaits.unlock m))
  | .signal c, .user => some (s.putWoken (s.toWaits.pop (.cond c)))
  | .broadcast c, .user => some ((s.put (s.toWaits.broadcast c).2).wakeAll (s.toWaits.broadcast c).1)
  | .condWait c m timed, .user =>
    some ((s.putWoken (s.toWaits.startWait c m cur)).leave core cur (.reacquire m) (.condSpin c m timed))
  | .spinLook, .condSpin c m timed =>
    some (s.goto core (if s.status x.self = .blocked then .condWfi c m timed else .reacquire m))
  | .spinLook, .condWfi c m timed =>
    some (s.goto core (if s.status x.self = .blocked then .condYield c m timed else .condSpin c m timed))
  | .spinYield, .condYield c m timed => some (s.yieldTo core cur (.condSpin c m timed))
  | .timeout, .condSpin c m true =>
    (s.toWaits.timeout c x.self).map fun waits => (s.put waits).goto core (.reacquire m)
  | .reacquire, .reacquire m =>
    some (if s.locked m then (s.put (s.toWaits.append (.mutex m) x.self)).leave core x.self (.reacquire m) (.reacquireYield m)
      else (s.put (s.toWaits.setLocked m true)).goto core .user)
  | .reacquireYield, .reacquireYield m => some (s.yieldTo core cur (.reacquire m))
  | .sleep, .user => some ((s.setStatus cur .blocked).leave core cur .asleep .sleepSpin)
  | .sleep, .asleep => some ((s.setStatus cur .blocked).leave core cur .asleep .sleepSpin)
  | .sleepDone, .sleepSpin => some ((s.setStatus cur .running).goto core .user)
  | .sleepDone, .asleep => some (s.goto core .user)
  | .rebalance, .user => Sched.rebalance (List.finRange 64) s
  | .setAffinity mask, .user => some { s with affinity := Function.update s.affinity cur mask }
  | .coreDown down, .user => if down = 0 ∨ down = core then none else s.coreDown down
  | _, _ => none

/-- The context of the old thread is saved, and the core goes on with the new one. -/
def finishSwitch (s : Sched) (core : CoreId) : Option Sched :=
  match s.saving core, s.live core with
  | some (old, new), some x =>
    let saved := Function.update s.saved old x
    some { s with
      saved := saved
      live := Function.update s.live core (some (saved new))
      saving := Function.update s.saving core none }
  | _, _ => none

def threadStep (s : Sched) (a : CoreId × Op) : Option Sched :=
  if a.2 = .finishSwitch then finishSwitch s a.1
  else match s.saving a.1, s.current a.1, s.live a.1 with
    | none, some cur, some x => codeStep s a.1 cur x a.2
    | _, _, _ => none

/-- `n` cores are up, each with its first thread. -/
def boot (n : ℕ) : Sched where
  status t := if t.val < n then .running else .unused
  waitNext _ := none
  waitQ _ := ⟨none, none⟩
  locked _ := false
  tid t := if t.val < n then t.val + 1 else 0
  exited _ := false
  detached _ := false
  joiner _ := none
  next _ := none
  affinity t := if t.val < n then 1#32 <<< t.val else 0
  stack _ := none
  tcb t := if t.val < n then some t.val else none
  saved t := ⟨t, if t.val < n then t.val + 1 else 0, none, if t.val < n then some t.val else none, .user⟩
  runQ _ := ⟨none, none⟩
  current core := if core.val < n then some (core.castLE (by decide)) else none
  live core := if core.val < n then some ⟨core.castLE (by decide), core.val + 1, none, some core.val, .user⟩ else none
  saving _ := none
  used block := block < n
  nextTid := n + 1
  smp := n
  mask := BitVec.ofNat 32 (2^n - 1)
  gone _ := false

end HouseKernel.Threads
