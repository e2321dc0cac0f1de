import Mathlib.Tactic
import HouseKernel.Lib.Text
import HouseKernel.Lib.Keyed

/-! The descriptor table of the C library under the runtime: pipes of one kilobyte, event counters, timers and the sets
that are waited on. Every call works on the slot that its descriptor names. -/
namespace HouseKernel.LibC

open HouseKernel.Lib

def fakeFdBase : ℕ := 3

def fakeFdN : ℕ := 256

def pipeCap : ℕ := 1024

def epollCap : ℕ := 16

def epollIn : BitVec 32 := 0x001

inductive FdKind where
  | free
  | timer
  | pipeR
  | pipeW
  | event
  | epoll
  deriving DecidableEq, Repr

/-- What a set holds of a member. -/
structure EpollEvent where
  events : BitVec 32
  data : BitVec 64
  deriving DecidableEq, Repr

/-- A slot: `buf` holds the octets that are in the pipe, and `ep` the members of the set. -/
structure FdEntry where
  kind : FdKind
  peer : ℤ
  lastNs : BitVec 64
  buf : Octets
  evCnt : BitVec 64
  ep : List (ℤ × EpollEvent)
  deriving DecidableEq

def freeEntry : FdEntry := ⟨.free, -1, 0, [], 0, []⟩

structure Fds where
  fdt : ℕ → FdEntry
  errno : ℤ
  tickIntervalNs : BitVec 64
  isrActive : Bool
  isrPending : List (BitVec 64)

/-- The table at boot. -/
def Fds.boot : Fds := ⟨fun _ => freeEntry, 0, 0, false, List.replicate 32 0⟩

def fdSlot (fd : ℤ) : Option ℕ :=
  if fd < fakeFdBase then none
  else if (fd - fakeFdBase).toNat < fakeFdN then some (fd - fakeFdBase).toNat else none

def fdOf (i : ℕ) : ℤ := fakeFdBase + i

def Fds.set (s : Fds) (i : ℕ) (e : FdEntry) : Fds := { s with fdt := Function.update s.fdt i e }

/-- The first slot that is free. -/
def Fds.firstFree (s : Fds) : Option ℕ := (List.range fakeFdN).find? fun i => decide ((s.fdt i).kind = .free)

/-- What a call gives back: its value, what it stored through the caller's pointers, and the octets for the UART. -/
structure Answer where
  ret : ℤ
  out : Octets := []
  fds : List ℤ := []
  count : BitVec 64 := 0
  events : List EpollEvent := []
  uart : Octets := []
  deriving DecidableEq

def Fds.fail (s : Fds) (code : ℤ) : Answer × Fds := ({ ret := -1 }, { s with errno := code })

/-- The number that the first eight octets make up. -/
def wordOf (bytes : Octets) : BitVec 64 :=
  (bytes.take 8).foldr (fun b acc => b.setWidth 64 ||| acc <<< 8) 0

def Fds.write (s : Fds) (fd : ℤ) (bytes : Octets) : Answer × Fds :=
  let other : Answer × Fds := if fd = 1 ∨ fd = 2 then ({ ret := bytes.length, uart := bytes }, s) else s.fail 9
  match fdSlot fd with
  | none => other
  | some i =>
    match (s.fdt i).kind with
    | .pipeW =>
      match fdSlot (s.fdt i).peer with
      | none => ({ ret := -1 }, s)
      | some p =>
        if (s.fdt p).kind ≠ .pipeR then ({ ret := -1 }, s)
        else
          let k := min bytes.length (pipeCap - (s.fdt p).buf.length)
          ({ ret := k }, s.set p { s.fdt p with buf := (s.fdt p).buf ++ bytes.take k })
    | .event =>
      if bytes.length ≥ 8 then
        ({ ret := 8 }, s.set i { s.fdt i with evCnt := (s.fdt i).evCnt + wordOf bytes })
      else ({ ret := 0 }, s)
    | _ => other

/-- Whether a timer is due at this time. -/
def Fds.timerfdDue (s : Fds) (now : BitVec 64) (fd : ℤ) : Bool :=
  match fdSlot fd with
  | none => false
  | some i =>
    if (s.fdt i).kind ≠ .timer then false
    else if s.isrActive then s.isrPending.any (0 < ·)
    else if s.tickIntervalNs = 0 then true
    else decide (s.tickIntervalNs ≤ now - (s.fdt i).lastNs)

/-- `dst` is the room behind the caller's pointer, if that is not null. -/
def Fds.read (s : Fds) (now : BitVec 64) (fd : ℤ) (dst : Option ℕ) : Answer × Fds :=
  match fdSlot fd with
  | none => ({ ret := 0 }, s)
  | some i =>
    match (s.fdt i).kind, dst with
    | .timer, some n =>
      if n < 8 then ({ ret := 0 }, s)
      else if s.timerfdDue now fd = false then s.fail 11
      else if s.isrActive then
        let total := s.isrPending.foldl (· + ·) 0
        ({ ret := 8, count := if total = 0 then 1 else total }, { s with isrPending := s.isrPending.map fun _ => 0 })
      else ({ ret := 8, count := 1 }, s.set i { s.fdt i with lastNs := now })
    | .pipeR, some n =>
      if (s.fdt i).buf = [] then ({ ret := 0 }, s)
      else
        let k := min (s.fdt i).buf.length n
        ({ ret := k, out := (s.fdt i).buf.take k }, s.set i { s.fdt i with buf := (s.fdt i).buf.drop k })
    | .event, some n =>
      if n < 8 then ({ ret := 0 }, s)
      else if (s.fdt i).evCnt = 0 then s.fail 11
      else ({ ret := 8, count := (s.fdt i).evCnt }, s.set i { s.fdt i with evCnt := 0 })
    | _, _ => ({ ret := 0 }, s)

/-- A pipe in the first two free slots, the read end in the first; `dst` tells whether the caller's pointer is not null. -/
def Fds.pipe (s : Fds) (dst : Bool) : Answer × Fds :=
  if dst = false then s.fail 14
  else
    match (List.range fakeFdN).filter fun i => decide ((s.fdt i).kind = .free) with
    | r :: w :: _ =>
      let s := s.set r { s.fdt r with kind := .pipeR, buf := [], peer := fdOf w }
      let s := s.set w { s.fdt w with kind := .pipeW, buf := [], peer := fdOf r }
      ({ ret := 0, fds := [fdOf r, fdOf w] }, s)
    | _ => s.fail 23

def Fds.close (s : Fds) (fd : ℤ) : Answer × Fds :=
  match fdSlot fd with
  | none => ({ ret := 0 }, s)
  | some i =>
    if (s.fdt i).kind = .free then ({ ret := 0 }, s)
    else ({ ret := 0 }, s.set i { s.fdt i with kind := .free, buf := [], evCnt := 0, ep := [] })

/-- Take the first free slot. -/
def Fds.create (s : Fds) (f : FdEntry → FdEntry) : Answer × Fds :=
  match s.firstFree with
  | some i => ({ ret := fdOf i }, s.set i (f (s.fdt i)))
  | none => s.fail 23

def Fds.eventfd (s : Fds) (initval : BitVec 32) : Answer × Fds :=
  s.create fun e => { e with kind := .event, evCnt := initval.setWidth 64, buf := [] }

def Fds.eventfdWrite (s : Fds) (fd : ℤ) (value : BitVec 64) : Answer × Fds :=
  match fdSlot fd with
  | none => s.fail 9
  | some i =>
    if (s.fdt i).kind ≠ .event then s.fail 9
    else ({ ret := 0 }, s.set i { s.fdt i with evCnt := (s.fdt i).evCnt + value })

def Fds.eventfdRead (s : Fds) (fd : ℤ) (dst : Bool) : Answer × Fds :=
  if dst = false then s.fail 14
  else
    match fdSlot fd with
    | none => s.fail 9
    | some i =>
      if (s.fdt i).kind ≠ .event then s.fail 9
      else if (s.fdt i).evCnt = 0 then s.fail 11
      else ({ ret := 0, count := (s.fdt i).evCnt }, s.set i { s.fdt i with evCnt := 0 })

def Fds.epollCreate (s : Fds) : Answer × Fds := s.create fun e => { e with kind := .epoll, ep := [] }

def Fds.timerfdCreate (s : Fds) (now : BitVec 64) : Answer × Fds := s.create fun e => { e with kind := .timer, lastNs := now }

/-- `ev` is what the caller's pointer leads to, if it is not null. -/
def Fds.epollCtl (s : Fds) (epfd op fd : ℤ) (ev : Option EpollEvent) : Answer × Fds :=
  match fdSlot epfd with
  | none => s.fail 9
  | some i =>
    if (s.fdt i).kind ≠ .epoll then s.fail 9
    else
      let ep := (s.fdt i).ep
      let event := ev.getD ⟨0, 0⟩
      if op = 1 then
        if epollCap ≤ ep.length then s.fail 28
        else if fd ∈ keysOf ep then s.fail 17
        else ({ ret := 0 }, s.set i { s.fdt i with ep := ep ++ [(fd, event)] })
      else if op = 2 then
        match ep.findIdx? (·.1 == fd) with
        | some j => ({ ret := 0 }, s.set i { s.fdt i with ep := swapRemove ep j })
        | none => s.fail 2
      else if op = 3 then
        match updateFirst (·.1 == fd) (fun m => (m.1, event)) ep with
        | some ep' => ({ ret := 0 }, s.set i { s.fdt i with ep := ep' })
        | none => s.fail 2
      else ({ ret := 0 }, s)

def Fds.fdReady (s : Fds) (now : BitVec 64) (fd : ℤ) : Bool :=
  match fdSlot fd with
  | none => false
  | some i =>
    match (s.fdt i).kind with
    | .timer => s.timerfdDue now fd
    | .pipeR => (s.fdt i).buf ≠ []
    | .event => (s.fdt i).evCnt ≠ 0
    | _ => false

/-- One pass over the set: the members that are ready, in their order, as many as the caller has room for. -/
def Fds.epollScan (s : Fds) (now : BitVec 64) (ep : List (ℤ × EpollEvent)) (maxevents : ℕ) : List EpollEvent :=
  ((ep.filter fun m => decide (m.2.events &&& epollIn ≠ 0) && s.fdReady now m.1).take maxevents).map
    fun m => ⟨epollIn, m.2.data⟩

/-- One pass of `epoll_wait`; a pass that finds nothing is repeated after the other threads have run. -/
def Fds.epollWait (s : Fds) (now : BitVec 64) (epfd : ℤ) (dst : Bool) (maxevents : ℤ) : Answer × Fds :=
  if dst = false ∨ maxevents ≤ 0 then ({ ret := 0 }, s)
  else
    match fdSlot epfd with
    | none => s.fail 9
    | some i =>
      if (s.fdt i).kind ≠ .epoll then s.fail 9
      else
        let found := s.epollScan now (s.fdt i).ep maxevents.toNat
        ({ ret := found.length, events := found }, s)

def Fds.timerfdSettime (s : Fds) (spec : Option (BitVec 64 × BitVec 64)) : Answer × Fds :=
  match spec with
  | some (secs, nsec) => ({ ret := 0 }, { s with tickIntervalNs := secs * 1000000000 + nsec })
  | none => ({ ret := 0 }, s)

/-- The timer interrupt counts its ticks by core once the timer runs. -/
def Fds.tick (s : Fds) (core : ℕ) : Fds :=
  if s.isrActive then { s with isrPending := s.isrPending.modify core (· + 1) } else s

/-- A call with the time at which it is made, the start of the timer, or an interrupt of it. -/
inductive Call where
  | write (fd : ℤ) (bytes : Octets)
  | read (now : BitVec 64) (fd : ℤ) (dst : Option ℕ)
  | pipe (dst : Bool)
  | close (fd : ℤ)
  | eventfd (initval : BitVec 32)
  | eventfdWrite (fd : ℤ) (value : BitVec 64)
  | eventfdRead (fd : ℤ) (dst : Bool)
  | epollCreate
  | epollCtl (epfd op fd : ℤ) (ev : Option EpollEvent)
  | epollWait (now : BitVec 64) (epfd : ℤ) (dst : Bool) (maxevents : ℤ)
  | timerfdCreate (now : BitVec 64)
  | timerfdSettime (spec : Option (BitVec 64 × BitVec 64))
  | timerInit
  | tick (core : ℕ)
  deriving DecidableEq

/-- The descriptor whose slot a call works on. -/
def Call.fd? : Call → Option ℤ
  | .write fd _ => some fd
  | .read _ fd _ => some fd
  | .close fd => some fd
  | .eventfdWrite fd _ => some fd
  | .eventfdRead fd _ => some fd
  | .epollCtl epfd _ _ _ => some epfd
  | .epollWait _ epfd _ _ => some epfd
  | _ => none

def Fds.call (s : Fds) : Call → Answer × Fds
  | .write fd bytes => s.write fd bytes
  | .read now fd dst => s.read now fd dst
  | .pipe dst => s.pipe dst
  | .close fd => s.close fd
  | .eventfd initval => s.eventfd initval
  | .eventfdWrite fd value => s.eventfdWrite fd value
  | .eventfdRead fd dst => s.eventfdRead fd dst
  | .epollCreate => s.epollCreate
  | .epollCtl epfd op fd ev => s.epollCtl epfd op fd ev
  | .epollWait now epfd dst maxevents => s.epollWait now epfd dst maxevents
  | .timerfdCreate now => s.timerfdCreate now
  | .timerfdSettime spec => s.timerfdSettime spec
  | .timerInit => ({ ret := 0 }, { s with isrActive := true })
  | .tick core => ({ ret := 0 }, s.tick core)

/-- The calls of a run with their answers, and the table after it. -/
def Fds.trace (s : Fds) : List Call → List (Call × Answer) × Fds
  | [] => ([], s)
  | c :: cs => ((c, (s.call c).1) :: ((s.call c).2.trace cs).1, ((s.call c).2.trace cs).2)

end HouseKernel.LibC
