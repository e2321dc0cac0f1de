import Mathlib.Logic.Function.Iterate
import HouseKernel.FileSystem.Namespaces

/-! Descriptor tables over the mount namespaces. An entry keeps the path, the offset and the
namespace of the process that opened it, and every call goes through them again. A read or a
write is a sequence of separate steps: look at the entry, resolve the path, call the backend,
commit the offset. -/
namespace HouseKernel.Descriptors

open HouseKernel.FileSystem HouseKernel.Lib

inductive FdError where
  | badFd
  | inval (what : String)
  | noSpace
  | fs (e : FsError)
  deriving DecidableEq, Repr

structure FsStat where
  isDir : Bool
  size : ℕ
  blocks : ℕ
  deriving DecidableEq, Repr

/-- The backends that can be mounted, and the console driver, over the state behind them. -/
structure FdEnv (ι β : Type*) where
  opsCreate : ι → Text → β → Except FsError Unit × β
  opsWrite : ι → Text → Octets → β → Except FsError Unit × β
  opsRead : ι → Text → β → Except FsError Octets × β
  opsStat : ι → Text → β → Except FsError FsStat × β
  findConsoleSlot : β → Option ℕ
  conReadBytes : ℕ → β → Option Octets × β
  conWriteBytes : ℕ → Octets → β → Option Unit × β

structure Entry where
  path : Text
  off : ℕ
  acc : ℕ
  ns : ℕ
  deriving DecidableEq, Repr

abbrev FdTable := Dict ℕ (Dict ℤ Entry)

/-- What the descriptor calls change besides the namespaces. -/
structure Io (β : Type*) where
  table : FdTable
  store : β

def maxFdCount : ℕ := 32

def maxFdBytes : ℕ := 65536

def oRdonly : ℕ := 0

def oWronly : ℕ := 1

def oCreat : BitVec 64 := 0x40

def oTrunc : BitVec 64 := 0x200

def consolePath : Text := text "/dev/console"

/-- The lowest free descriptor. -/
def allocFd (per : Dict ℤ Entry) : Option ℤ :=
  ((List.range maxFdCount).map fun i => (3 + i : ℤ)).find? fun fd => (per.lookup fd).isNone

def validFlags (flags : BitVec 64) : Bool := (flags &&& 3).toNat ≤ 2 ∧ flags &&& ~~~0x243 = 0

def lookupEntry (t : FdTable) (pid : ℕ) (fd : ℤ) : Option Entry := (t.lookup pid).bind fun per => per.lookup fd

def setEntry (t : FdTable) (pid : ℕ) (fd : ℤ) (e : Entry) : FdTable :=
  t.insert pid (((t.lookup pid).getD ∅).insert fd e)

/-- A failure of a backend as a failure of a descriptor call. -/
def ofFsError : FsError → FdError
  | .enospc => .noSpace
  | e => .fs e

section calls

variable {ι β : Type*} (env : FdEnv ι β)

/-- Poll for a completion, at most so many times. -/
def consoleReadFrom (slot n : ℕ) : ℕ → β → Except FdError Octets × β
  | 0, b => (.ok [], b)
  | tries + 1, b =>
    match env.conReadBytes slot b with
    | (none, b) => (.error (.fs .enoent), b)
    | (some [], b) => consoleReadFrom slot n tries b
    | (some bytes, b) => (.ok (bytes.take n), b)

def consoleRead (n : ℤ) (b : β) : Except FdError Octets × β :=
  if n ≤ 0 then (.ok [], b)
  else
    match env.findConsoleSlot b with
    | none => (.error (.fs .enoent), b)
    | some slot => consoleReadFrom env slot n.toNat 500 b

/-- Write chunks that fit the grant page. -/
def consoleWriteFrom (slot : ℕ) : Octets → ℤ → β → Except FdError ℤ × β
  | [], k, b => (.ok k, b)
  | c :: cs, k, b =>
    match env.conWriteBytes slot ((c :: cs).take 4095) b with
    | (none, b) => (.error (.inval "con write"), b)
    | (some (), b) =>
      consoleWriteFrom slot ((c :: cs).drop 4095) (k + ((c :: cs).take 4095).length) b
termination_by rest => rest.length
decreasing_by
  simp only [List.length_drop, List.length_cons]
  omega

def consoleWrite (content : Octets) (b : β) : Except FdError ℤ × β :=
  match env.findConsoleSlot b with
  | none => (.error (.fs .enoent), b)
  | some slot => consoleWriteFrom env slot content 0 b

/-- File the new entry under the lowest free descriptor. -/
def insertEntry (io : Io β) (pid : ℕ) (e : Entry) : Except FdError ℤ × Io β :=
  match allocFd ((io.table.lookup pid).getD ∅) with
  | none => (.error (.inval "fd table full"), io)
  | some fd => (.ok fd, { io with table := setEntry io.table pid fd e })

/-- Open a path that resolves in the namespace of the pid. -/
def openResolved (ops : ι) (rel path : Text) (flags : BitVec 64) (pid ns : ℕ) (io : Io β) :
    Except FdError ℤ × Io β :=
  let e : Entry := ⟨path, 0, (flags &&& 3).toNat, ns⟩
  match env.opsStat ops rel io.store with
  | (.ok s, b) =>
    if s.isDir then (.error (.fs .eisdir), { io with store := b })
    else if flags &&& oTrunc ≠ 0 ∧ e.acc ≠ oRdonly then
      match env.opsWrite ops rel [] b with
      | (.error e, b) => (.error (ofFsError e), { io with store := b })
      | (.ok (), b) => insertEntry { io with store := b } pid e
    else insertEntry { io with store := b } pid e
  | (.error .enoent, b) =>
    if flags &&& oCreat ≠ 0 then
      match env.opsCreate ops rel b with
      | (.error e, b) => (.error (.fs e), { io with store := b })
      | (.ok (), b) => insertEntry { io with store := b } pid e
    else (.error (.fs .enoent), { io with store := b })
  | (.error e, b) => (.error (.fs e), { io with store := b })

def fdOpen (r : Registry ι) (pid : ℕ) (path : Text) (flags : BitVec 64) (io : Io β) :
    Except FdError ℤ × Registry ι × Io β :=
  if validFlags flags = false then (.error (.inval "bad flags"), r, io)
  else if path = consolePath then
    match env.findConsoleSlot io.store with
    | none => (.error (.fs .enoent), r, io)
    | some _ =>
      let (ns, r) := vfsEnsurePid r pid
      let (res, io) := insertEntry io pid ⟨path, 0, (flags &&& 3).toNat, ns⟩
      (res, r, io)
  else
    match splitPath path with
    | .error e => (.error (.fs e), r, io)
    | .ok _ =>
      let (ns, r) := vfsEnsurePid r pid
      match vfsLookup r ns path with
      | .error e => (.error (.fs e), r, io)
      | .ok (ops, rel) =>
        -- a missing file is looked up once more before it is created, with the same result
        let (res, io) := openResolved env ops rel path flags pid ns io
        (res, r, io)

/-- Commit the offset of an entry that is still there. -/
def commitOff {γ : Type*} (io : Io β) (pid : ℕ) (fd : ℤ) (off : ℕ) (res : γ) : Except FdError γ × Io β :=
  match lookupEntry io.table pid fd with
  | none => (.error .badFd, io)
  | some e => (.ok res, { io with table := setEntry io.table pid fd { e with off := off } })

def fdRead (r : Registry ι) (pid : ℕ) (fd n : ℤ) (io : Io β) : Except FdError Octets × Io β :=
  if n < 0 ∨ maxFdBytes < n then (.error (.inval "bad length"), io)
  else
    match lookupEntry io.table pid fd with
    | none => (.error .badFd, io)
    | some ent =>
      if ent.acc = oWronly then (.error (.inval "not readable"), io)
      else if ent.path = consolePath then
        let (res, b) := consoleRead env n io.store
        (res, { io with store := b })
      else
        match vfsLookup r ent.ns ent.path with
        | .error e => (.error (.fs e), io)
        | .ok (ops, rel) =>
          match env.opsRead ops rel io.store with
          | (.error e, b) => (.error (ofFsError e), { io with store := b })
          | (.ok content, b) =>
            let chunk := (content.drop ent.off).take n.toNat
            commitOff { io with store := b } pid fd (ent.off + chunk.length) chunk

/-- Where a write call stands. -/
inductive WritePhase (ι : Type*) where
  | start
  | opened (ent : Entry)
  | resolved (ent : Entry) (ops : ι) (rel : Text)
  | spliced (ent : Entry) (ops : ι) (rel : Text) (new : Octets)
  | written (ent : Entry)
  | done (r : Except FdError ℤ)
  deriving DecidableEq

/-- Put the bytes over those at an offset. -/
def splice (off : ℕ) (content old : Octets) : Octets := old.take off ++ content ++ old.drop (off + content.length)

/-- What a write takes for the content of the file: a missing one is empty. -/
def oldContent : Except FsError Octets → Except FdError Octets
  | .ok s => .ok s
  | .error .enoent => .ok []
  | .error e => .error (ofFsError e)

/-- The next step of a write call. No lock is held between two steps. -/
def fdWriteStep (r : Registry ι) (pid : ℕ) (fd : ℤ) (content : Octets) : WritePhase ι × Io β → WritePhase ι × Io β
  | (.start, io) =>
    if maxFdBytes < content.length then (.done (.error (.inval "bad length")), io)
    else
      match lookupEntry io.table pid fd with
      | none => (.done (.error .badFd), io)
      | some ent =>
        if ent.acc = oRdonly then (.done (.error (.inval "not writable")), io)
        else if ent.path = consolePath then
          let (res, b) := consoleWrite env content io.store
          (.done res, { io with store := b })
        else (.opened ent, io)
  | (.opened ent, io) =>
    match vfsLookup r ent.ns ent.path with
    | .error e => (.done (.error (.fs e)), io)
    | .ok (ops, rel) => (.resolved ent ops rel, io)
  | (.resolved ent ops rel, io) =>
    let (res, b) := env.opsRead ops rel io.store
    match oldContent res with
    | .error e => (.done (.error e), { io with store := b })
    | .ok old =>
      if old.length < ent.off then (.done (.error (.inval "offset past EOF")), { io with store := b })
      else (.spliced ent ops rel (splice ent.off content old), { io with store := b })
  | (.spliced ent ops rel new, io) =>
    match env.opsWrite ops rel new io.store with
    | (.error e, b) => (.done (.error (ofFsError e)), { io with store := b })
    | (.ok (), b) => (.written ent, { io with store := b })
  | (.written ent, io) =>
    let (res, io) := commitOff io pid fd (ent.off + content.length) (content.length : ℤ)
    (.done res, io)
  | (.done res, io) => (.done res, io)

def WritePhase.answer : WritePhase ι → Option (Except FdError ℤ)
  | .done r => some r
  | _ => none

/-- A write call that nothing comes between takes at most five steps. -/
def fdWrite (r : Registry ι) (pid : ℕ) (fd : ℤ) (content : Octets) (io : Io β) :
    Option (Except FdError ℤ) × Io β :=
  let s := (fdWriteStep env r pid fd content)^[5] (.start, io)
  (s.1.answer, s.2)

def fdClose (pid : ℕ) (fd : ℤ) (io : Io β) : Except FdError Unit × Io β :=
  match lookupEntry io.table pid fd with
  | none => (.error .badFd, io)
  | some _ =>
    let per := ((io.table.lookup pid).getD ∅).erase fd
    (.ok (), { io with table := if per.entries = [] then io.table.erase pid else io.table.insert pid per })

/-- The position that a seek counts from. -/
def seekBase (r : Registry ι) (ent : Entry) (whence : ℤ) (b : β) : Except FdError ℕ × β :=
  if whence = 0 then (.ok 0, b)
  else if whence = 1 then (.ok ent.off, b)
  else if whence = 2 then
    match vfsLookup r ent.ns ent.path with
    | .error e => (.error (.fs e), b)
    | .ok (ops, rel) =>
      match env.opsStat ops rel b with
      | (.ok s, b) => (.ok s.size, b)
      | (.error .enoent, b) => (.ok 0, b)
      | (.error e, b) => (.error (ofFsError e), b)
  else (.error (.inval "bad whence"), b)

def fdSeek (r : Registry ι) (pid : ℕ) (fd off whence : ℤ) (io : Io β) : Except FdError ℤ × Io β :=
  match lookupEntry io.table pid fd with
  | none => (.error .badFd, io)
  | some ent =>
    if ent.path = consolePath then (.error (.inval "not seekable"), io)
    else
      match seekBase env r ent whence io.store with
      | (.error e, b) => (.error e, { io with store := b })
      | (.ok base, b) =>
        let newOff := Int.bmod (base + off) (2 ^ 64)
        if newOff < 0 then (.error (.inval "negative offset"), { io with store := b })
        else commitOff { io with store := b } pid fd newOff.toNat newOff

end calls

/-- The child starts with the entries and offsets of the parent. -/
def fdFork (t : FdTable) (parent child : ℕ) : FdTable :=
  match t.lookup parent with
  | none => t
  | some per => t.insert child per

def fdRelease (t : FdTable) (pid : ℕ) : FdTable := t.erase pid

end HouseKernel.Descriptors
