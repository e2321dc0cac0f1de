import HouseKernel.Ipc.Endpoint
import HouseKernel.Loader.Image

/-! The requests that a parked EL0 session hands to its supervisor thread, the errors of the
services behind them and the errno values with which a session is resumed. Registers are
64-bit words; a negative errno is resumed as its two's complement. -/
namespace HouseKernel.Userspace

open HouseKernel.Ipc HouseKernel.Loader

/-- A signed result as the 64-bit word that EL0 sees in x0. -/
def word64 (i : ℤ) : ℕ := (i % 2^64).toNat

/-- A 64-bit word read back as a signed `Int`. -/
def int64 (w : ℕ) : ℤ := if w < 2^63 then w else w - 2^64

inductive FsError where
  | enoent
  | eexist
  | enotdir
  | eisdir
  | enospc
  | einval (what : String)
  deriving DecidableEq, Repr

inductive FdError where
  | badFd
  | inval (what : String)
  | noSpace
  | fs (e : FsError)
  deriving DecidableEq, Repr

inductive NetError where
  | badSlot
  | notNet
  | notReady
  | noSpace
  | ioError (code : ℤ)
  | invalidArg (what : String)
  | arpTimeout
  | dhcpFailed
  deriving DecidableEq, Repr

inductive WaitError where
  | noSuch
  | notChild
  deriving DecidableEq, Repr

inductive CowBreak where
  | ok
  | notCow
  | noMem
  deriving DecidableEq, Repr

inductive DemandResult where
  | served
  | miss
  | noMem
  deriving DecidableEq, Repr

structure FsStat where
  isDir : Bool
  size : ℤ
  blocks : ℤ
  deriving DecidableEq, Repr

def negENOSYS : ℕ := word64 (-38)
def negENOENT : ℕ := word64 (-2)
def negECHILD : ℕ := word64 (-10)
def negAGAIN : ℕ := word64 (-11)
def negINVAL : ℕ := word64 (-22)
def negNOMEM : ℕ := word64 (-12)
def negEPERM : ℕ := word64 (-1)

def sendErrno : IpcError → ℕ
  | .queueFull => negAGAIN
  | .wouldBlock => negAGAIN
  | .noSuchEndpoint => negENOENT
  | .notOwner => negEPERM
  | _ => negINVAL

def brkErrno : LoadError → ℕ
  | .noSpace => negNOMEM
  | _ => negINVAL

def execErrno : LoadError → ℕ
  | .badSegment what => if what = "enoent" then negENOENT else negINVAL
  | .dependencyMissing _ => negENOENT
  | .noSpace => negNOMEM
  | _ => negINVAL

def fsErrno : FsError → ℕ
  | .enoent => negENOENT
  | .eexist => word64 (-17)
  | .enotdir => word64 (-20)
  | .eisdir => word64 (-21)
  | .enospc => word64 (-28)
  | .einval _ => negINVAL

def fdErrorToErrno : FdError → ℤ
  | .badFd => -9
  | .inval _ => -22
  | .noSpace => -28
  | .fs .enoent => -2
  | .fs .eexist => -17
  | .fs .enotdir => -20
  | .fs .eisdir => -21
  | .fs .enospc => -28
  | .fs (.einval _) => -22

def sockErrno : NetError → ℕ
  | .arpTimeout => negAGAIN
  | .dhcpFailed => negAGAIN
  | .noSpace => negNOMEM
  | _ => negINVAL

inductive ParkRequest where
  | yield
  | brk (newBrk : ℕ)
  | open (va flags : ℕ)
  | read (fd va len : ℕ)
  | writeFd (fd va len : ℕ)
  | close (fd : ℕ)
  | seek (fd off whence : ℕ)
  | fork
  | wait (child : ℕ)
  | exec (va : ℕ)
  | mkdir (va : ℕ)
  | unlink (va : ℕ)
  | stat (va buf len : ℕ)
  | getdents (va buf len : ℕ)
  | ipcSend (ep va nwords tag : ℕ)
  | ipcRecv (ep va nwords : ℕ)
  | ipcCall (ep va nwords tag : ℕ)
  | ipcReply (ep va nwords tag : ℕ)
  | sockOpen (ip port : ℕ)
  | sockSend (va len : ℕ)
  | sockRecv (va len : ℕ)
  | sockClose
  | fault (x0 va : ℕ)
  | faultKill (x0 va : ℕ)
  | preempt (x0 : ℕ)
  | unknown (w : ℕ)
  deriving DecidableEq, Repr

/-- What `house_el0_take_parked` hands over: the request number, the trapped x0..x3, and the
fault address of the slot. -/
structure Parked where
  req : ℕ
  a0 : ℕ
  a1 : ℕ
  a2 : ℕ
  a3 : ℕ
  faultVa : ℕ
  deriving DecidableEq, Repr

/-- The two fault numbers carry the fault address, every other one only registers. -/
def classify (p : Parked) : ParkRequest :=
  match p.req with
  | 0x1F => .fault p.a0 p.faultVa
  | 0x1D => .faultKill p.a0 p.faultVa
  | 0 => .yield
  | 0x03 => .brk p.a0
  | 0x04 => .open p.a0 p.a1
  | 0x05 => .read p.a0 p.a1 p.a2
  | 0x06 => .writeFd p.a0 p.a1 p.a2
  | 0x07 => .close p.a0
  | 0x08 => .fork
  | 0x09 => .wait p.a0
  | 0x0B => .exec p.a0
  | 0x0C => .mkdir p.a0
  | 0x0D => .unlink p.a0
  | 0x0E => .stat p.a0 p.a1 p.a2
  | 0x0F => .getdents p.a0 p.a1 p.a2
  | 0x0A => .seek p.a0 p.a1 p.a2
  | 0x10 => .ipcSend p.a0 p.a1 p.a2 p.a3
  | 0x1E => .preempt p.a0
  | 0x11 => .ipcRecv p.a0 p.a1 p.a2
  | 0x12 => .ipcCall p.a0 p.a1 p.a2 p.a3
  | 0x13 => .ipcReply p.a0 p.a1 p.a2 p.a3
  | 0x15 => .sockOpen p.a0 p.a1
  | 0x16 => .sockSend p.a0 p.a1
  | 0x17 => .sockRecv p.a0 p.a1
  | 0x18 => .sockClose
  | w => .unknown w

end HouseKernel.Userspace
