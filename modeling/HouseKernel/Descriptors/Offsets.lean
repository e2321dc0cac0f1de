import HouseKernel.Descriptors.FailedOpen
import HouseKernel.Lib.Answering

/-! Descriptors as offsets into files. The reference model has a table of what stands at each path
and, for each descriptor, an access mode and an offset; a call on it names no page, no tree and no
mount. The calls of one process answer as the model does. -/
namespace HouseKernel.Descriptors

open HouseKernel.FileSystem HouseKernel.FileSystem.RamFs HouseKernel.Lib

variable {κ : Type*}

deriving instance DecidableEq for Answer

/-- The calls on descriptors. -/
inductive FileCall where
  | open (path : Text) (flags : BitVec 64)
  | read (fd n : ℤ)
  | write (fd : ℤ) (content : Octets)
  | seek (fd off whence : ℤ)
  | close (fd : ℤ)

/-- The console alone. -/
def consoleEnv (con : Console κ) : FdEnv Unit κ where
  opsCreate _ _ b := (.error .enoent, b)
  opsWrite _ _ _ b := (.error .enoent, b)
  opsRead _ _ b := (.error .enoent, b)
  opsStat _ _ b := (.error .enoent, b)
  findConsoleSlot := con.findSlot
  conReadBytes := con.readBytes
  conWriteBytes := con.writeBytes

/-- An open descriptor: its file, or the console, its access mode and its offset. -/
structure Desc where
  target : Option (List Text)
  acc : ℕ
  off : ℕ

structure Model (κ : Type*) where
  fs : Fs
  fds : ℤ → Option Desc
  con : κ

namespace Model

/-- The bytes of a file. -/
def content (m : Model κ) (cs : List Text) : Octets :=
  match m.fs.files cs with
  | some (.file content) => content
  | _ => []

def lowestFree (m : Model κ) : Option ℤ :=
  ((List.range 32).find? fun i : ℕ => (m.fds (3 + (i : ℤ))).isNone).map fun i : ℕ => 3 + (i : ℤ)

/-- A new descriptor at the start of its file. -/
def give (m : Model κ) (fs : Fs) (target : Option (List Text)) (acc : ℕ) : Except FdError ℤ × Model κ :=
  match m.lowestFree with
  | none => (.error (.inval "fd table full"), m)
  | some fd => (.ok fd, { m with fs := fs, fds := Function.update m.fds fd (some ⟨target, acc, 0⟩) })

def setOff (m : Model κ) (fd : ℤ) (d : Desc) (off : ℕ) : Model κ :=
  { m with fds := Function.update m.fds fd (some { d with off := off }) }

variable (con : Console κ) (place : Text → Except FsError (List Text))

/-- `place` says where a path leads. -/
def opn (path : Text) (flags : BitVec 64) (m : Model κ) : Except FdError ℤ × Model κ :=
  if validFlags flags = false then (.error (.inval "bad flags"), m)
  else if path = consolePath then
    match con.findSlot m.con with
    | none => (.error (.fs .enoent), m)
    | some _ => m.give m.fs none (flags &&& 3).toNat
  else
    match place path with
    | .error e => (.error (.fs e), m)
    | .ok cs =>
      match opened cs flags m.fs with
      | .error e => (.error e, m)
      | .ok fs => m.give fs (some cs) (flags &&& 3).toNat

def read (fd n : ℤ) (m : Model κ) : Except FdError Octets × Model κ :=
  if n < 0 ∨ maxFdBytes < n then (.error (.inval "bad length"), m)
  else
    match m.fds fd with
    | none => (.error .badFd, m)
    | some d =>
      if d.acc = oWronly then (.error (.inval "not readable"), m)
      else
        match d.target with
        | none =>
          let (res, b) := consoleRead (consoleEnv con) n m.con
          (res, { m with con := b })
        | some cs =>
          let chunk := ((m.content cs).drop d.off).take n.toNat
          (.ok chunk, m.setOff fd d (d.off + chunk.length))

/-- The bytes over those at an offset; what lies between the end and the offset is zero. -/
def overwrite (off : ℕ) (content old : Octets) : Octets :=
  (old ++ List.replicate (off - old.length) 0).take off ++ content ++ old.drop (off + content.length)

/-- With `holes`, a write may begin past the end of the file. -/
def write (holes : Bool) (fd : ℤ) (content : Octets) (m : Model κ) : Except FdError ℤ × Model κ :=
  if maxFdBytes < content.length then (.error (.inval "bad length"), m)
  else
    match m.fds fd with
    | none => (.error .badFd, m)
    | some d =>
      if d.acc = oRdonly then (.error (.inval "not writable"), m)
      else
        match d.target with
        | none =>
          let (res, b) := consoleWrite (consoleEnv con) content m.con
          (res, { m with con := b })
        | some cs =>
          if holes = false ∧ (m.content cs).length < d.off then (.error (.inval "offset past EOF"), m)
          else
            match m.fs.write cs (overwrite d.off content (m.content cs)) with
            | .error e => (.error (ofFsError e), m)
            | .ok fs => (.ok content.length, { m with fs := fs }.setOff fd d (d.off + content.length))

/-- Offsets are 64-bit integers that are not negative. -/
def seek (fd off whence : ℤ) (m : Model κ) : Except FdError ℤ × Model κ :=
  match m.fds fd with
  | none => (.error .badFd, m)
  | some d =>
    match d.target with
    | none => (.error (.inval "not seekable"), m)
    | some cs =>
      let base : Option ℕ :=
        if whence = 0 then some 0
        else if whence = 1 then some d.off
        else if whence = 2 then some (m.content cs).length
        else none
      match base with
      | none => (.error (.inval "bad whence"), m)
      | some base =>
        let newOff := Int.bmod (base + off) (2 ^ 64)
        if newOff < 0 then (.error (.inval "negative offset"), m) else (.ok newOff, m.setOff fd d newOff.toNat)

def close (fd : ℤ) (m : Model κ) : Except FdError Unit × Model κ :=
  match m.fds fd with
  | none => (.error .badFd, m)
  | some _ => (.ok (), { m with fds := Function.update m.fds fd none })

def call (holes : Bool) (m : Model κ) : FileCall → Answer × Model κ
  | .open path flags => ((.descriptor (m.opn con place path flags).1), (m.opn con place path flags).2)
  | .read fd n => ((.data (m.read con fd n).1), (m.read con fd n).2)
  | .write fd content => ((.count (some (m.write con holes fd content).1)), (m.write con holes fd content).2)
  | .seek fd off whence => ((.descriptor (m.seek fd off whence).1), (m.seek fd off whence).2)
  | .close fd => ((.closed (m.close fd).1), (m.close fd).2)

end Model

/-- The registry and the descriptors, over the RAM file system and the console. -/
structure Kernel (κ : Type*) where
  reg : Registry Unit
  io : Io (SoundRam × κ)

/-- The calls of one process. -/
def Kernel.call (con : Console κ) (pid : ℕ) (s : Kernel κ) : FileCall → Answer × Kernel κ
  | .open path flags =>
    let res := fdOpen (ramEnv con) s.reg pid path flags s.io
    (.descriptor res.1, ⟨res.2.1, res.2.2⟩)
  | .read fd n =>
    let res := fdRead (ramEnv con) s.reg pid fd n s.io
    (.data res.1, { s with io := res.2 })
  | .write fd content =>
    let res := fdWrite (ramEnv con) s.reg pid fd content s.io
    (.count res.1, { s with io := res.2 })
  | .seek fd off whence =>
    let res := fdSeek (ramEnv con) s.reg pid fd off whence s.io
    (.descriptor res.1, { s with io := res.2 })
  | .close fd =>
    let res := fdClose pid fd s.io
    (.closed res.1, { s with io := res.2 })

/-- The open descriptor of an entry. -/
def Entry.desc (place : Text → Except FsError (List Text)) (e : Entry) : Desc :=
  ⟨if e.path = consolePath then none else (place e.path).toOption, e.acc, e.off⟩

/-- The model shows the descriptors of the process, its files and the console. `r₀` has the mounts that
nobody changes. -/
structure Agrees (r₀ : Registry Unit) (pid : ℕ) (s : Kernel κ) (m : Model κ) : Prop where
  mounts : SameMounts s.reg r₀ (nsOf r₀ pid)
  ns : nsOf s.reg pid = nsOf r₀ pid
  fs : s.io.store.1.fs = m.fs
  con : s.io.store.2 = m.con
  fds : ∀ fd, m.fds fd = (lookupEntry s.io.table pid fd).map (Entry.desc (locate r₀ (nsOf r₀ pid)))
  entries : ∀ fd e, lookupEntry s.io.table pid fd = some e → e.ns = nsOf r₀ pid ∧ (e.path = consolePath ∨
    ∃ cs content, locate r₀ (nsOf r₀ pid) e.path = .ok cs ∧ m.fs.files cs = some (.file content))

theorem locate_congr {r r' : Registry Unit} {ns : ℕ} (h : SameMounts r r' ns) (path : Text) :
    locate r ns path = locate r' ns path := by
  rw [locate, locate, vfsLookup_congr h]

theorem vfsLookup_of_locate {r : Registry Unit} {ns : ℕ} {path : Text} {cs : List Text} (h : locate r ns path = .ok cs) :
    ∃ rel, vfsLookup r ns path = .ok ((), rel) ∧ splitPath rel = .ok cs := by
  cases hlookup : vfsLookup r ns path with
  | error e =>
    rw [locate_error hlookup] at h
    cases h
  | ok place =>
    obtain ⟨ds, hrel, hds⟩ := vfsLookup_rel hlookup
    obtain rfl : ds = cs := Except.ok.inj (hds.symm.trans h)
    exact ⟨place.2, rfl, hrel⟩

theorem consoleRead_ramEnv (con : Console κ) (n : ℤ) (b : SoundRam × κ) : consoleRead (ramEnv con) n b =
    ((consoleRead (consoleEnv con) n b.2).1, b.1, (consoleRead (consoleEnv con) n b.2).2) := by
  have hfrom : ∀ (tries slot n : ℕ) (b : SoundRam × κ), consoleReadFrom (ramEnv con) slot n tries b =
      ((consoleReadFrom (consoleEnv con) slot n tries b.2).1, b.1,
        (consoleReadFrom (consoleEnv con) slot n tries b.2).2) := by
    intro tries slot n
    induction tries with
    | zero => exact fun b => rfl
    | succ tries ih =>
      intro b
      rw [consoleReadFrom, consoleReadFrom]
      simp only [ramEnv, consoleEnv]
      cases con.readBytes slot b.2 with
      | mk res k =>
        cases res with
        | none => rfl
        | some bytes =>
          cases bytes with
          | nil => exact ih (b.1, k)
          | cons c cs => rfl
  rw [consoleRead, consoleRead]
  split_ifs
  · rfl
  · simp only [ramEnv, consoleEnv]
    cases con.findSlot b.2 with
    | none => rfl
    | some slot => exact hfrom 500 slot n.toNat b

theorem consoleWrite_ramEnv (con : Console κ) (content : Octets) (b : SoundRam × κ) :
    consoleWrite (ramEnv con) content b =
      ((consoleWrite (consoleEnv con) content b.2).1, b.1, (consoleWrite (consoleEnv con) content b.2).2) := by
  have hfrom : ∀ (slot fuel : ℕ) (content : Octets) (k : ℤ) (b : SoundRam × κ), content.length ≤ fuel →
      consoleWriteFrom (ramEnv con) slot content k b =
        ((consoleWriteFrom (consoleEnv con) slot content k b.2).1, b.1,
          (consoleWriteFrom (consoleEnv con) slot content k b.2).2) := by
    intro slot fuel
    induction fuel with
    | zero =>
      intro content k b hfuel
      obtain rfl : content = [] := List.length_eq_zero_iff.mp (Nat.le_zero.mp hfuel)
      simp only [consoleWriteFrom]
    | succ fuel ih =>
      intro content k b hfuel
      cases content with
      | nil => simp only [consoleWriteFrom]
      | cons c cs =>
        rw [consoleWriteFrom, consoleWriteFrom]
        simp only [ramEnv, consoleEnv]
        cases con.writeBytes slot ((c :: cs).take 4095) b.2 with
        | mk res k' =>
          cases res with
          | none => rfl
          | some u =>
            refine ih _ _ (b.1, k') ?_
            rw [List.length_drop, List.length_cons]
            rw [List.length_cons] at hfuel
            omega
  rw [consoleWrite, consoleWrite]
  simp only [ramEnv, consoleEnv]
  cases con.findSlot b.2 with
  | none => rfl
  | some slot => exact hfrom slot _ content 0 b le_rfl

section Write

variable (con : Console κ) {r : Registry Unit} {pid : ℕ} {fd : ℤ} {content : Octets} {io io' : Io (SoundRam × κ)}

/-- A write that its first step decides. -/
theorem fdWrite_of_start {res : Except FdError ℤ}
    (h : fdWriteStep (ramEnv con) r pid fd content (.start, io) = (.done res, io')) :
    fdWrite (ramEnv con) r pid fd content io = (some res, io') := by
  have hdone : fdWriteStep (ramEnv con) r pid fd content (.done res, io') = (.done res, io') := rfl
  have hfive : (fdWriteStep (ramEnv con) r pid fd content)^[4] (.done res, io') = (.done res, io') :=
    Function.iterate_fixed hdone 4
  rw [fdWrite, Function.iterate_succ_apply, h, hfive]
  rfl

/-- A write to a file, from its start to its end. -/
theorem fdWrite_file {e : Entry} {rel : Text} {old : Octets} (hlen : ¬ maxFdBytes < content.length)
    (he : lookupEntry io.table pid fd = some e) (hacc : e.acc ≠ oRdonly) (hpath : e.path ≠ consolePath)
    (hlookup : vfsLookup r e.ns e.path = .ok ((), rel)) (hread : io.store.1.ram.opsRead rel = .ok old) :
    fdWrite (ramEnv con) r pid fd content io =
      if old.length < e.off then (some (.error (.inval "offset past EOF")), io)
      else
        match (io.store.1.opsWrite rel (splice e.off content old)).1 with
        | .error err => (some (.error (ofFsError err)),
            { io with store := ((io.store.1.opsWrite rel (splice e.off content old)).2, io.store.2) })
        | .ok () => (some (.ok content.length), ⟨setEntry io.table pid fd { e with off := e.off + content.length },
            (io.store.1.opsWrite rel (splice e.off content old)).2, io.store.2⟩) := by
  have hdone : ∀ (res : Except FdError ℤ) (io : Io (SoundRam × κ)),
      fdWriteStep (ramEnv con) r pid fd content (.done res, io) = (.done res, io) := fun _ _ => rfl
  have hstart : fdWriteStep (ramEnv con) r pid fd content (.start, io) = (.opened e, io) := by
    simp only [fdWriteStep, if_neg hlen, he, if_neg hacc, if_neg hpath]
  have hopened : fdWriteStep (ramEnv con) r pid fd content (.opened e, io) = (.resolved e () rel, io) := by
    simp only [fdWriteStep, hlookup]
  have hresolved : fdWriteStep (ramEnv con) r pid fd content (.resolved e () rel, io) =
      if old.length < e.off then (.done (.error (.inval "offset past EOF")), io)
      else (.spliced e () rel (splice e.off content old), io) := by
    simp only [fdWriteStep, ramEnv, hread, oldContent]
  rw [fdWrite]
  simp only [Function.iterate_succ_apply, Function.iterate_zero_apply, hstart, hopened, hresolved]
  split_ifs
  · simp only [hdone]
    rfl
  · cases hwrite : (io.store.1.opsWrite rel (splice e.off content old)).1 with
    | error err =>
      have hspliced : fdWriteStep (ramEnv con) r pid fd content (.spliced e () rel (splice e.off content old), io) =
          (.done (.error (ofFsError err)),
            { io with store := ((io.store.1.opsWrite rel (splice e.off content old)).2, io.store.2) }) := by
        simp only [fdWriteStep, ramEnv, hwrite]
      simp only [hspliced, hdone]
      rfl
    | ok u =>
      have hspliced : fdWriteStep (ramEnv con) r pid fd content (.spliced e () rel (splice e.off content old), io) =
          (.written e, { io with store := ((io.store.1.opsWrite rel (splice e.off content old)).2, io.store.2) }) := by
        simp only [fdWriteStep, ramEnv, hwrite]
      have hwritten : fdWriteStep (ramEnv con) r pid fd content (.written e,
            { io with store := ((io.store.1.opsWrite rel (splice e.off content old)).2, io.store.2) }) =
          (.done (.ok content.length), ⟨setEntry io.table pid fd { e with off := e.off + content.length },
            (io.store.1.opsWrite rel (splice e.off content old)).2, io.store.2⟩) := by
        simp only [fdWriteStep, commitOff, he]
      simp only [hspliced, hwritten]
      rfl

end Write

namespace Agrees

variable {r₀ : Registry Unit} {pid : ℕ} {s : Kernel κ} {m : Model κ}

theorem fds_none (h : Agrees r₀ pid s m) {fd : ℤ} (he : lookupEntry s.io.table pid fd = none) : m.fds fd = none := by
  rw [h.fds, he]
  rfl

theorem fds_some (h : Agrees r₀ pid s m) {fd : ℤ} {e : Entry} (he : lookupEntry s.io.table pid fd = some e) :
    m.fds fd = some (e.desc (locate r₀ (nsOf r₀ pid))) := by
  rw [h.fds, he]
  rfl

/-- A descriptor of a file leads to it through the mounts. -/
theorem file (h : Agrees r₀ pid s m) {fd : ℤ} {e : Entry} (he : lookupEntry s.io.table pid fd = some e)
    (hpath : e.path ≠ consolePath) :
    ∃ rel cs, vfsLookup s.reg e.ns e.path = .ok ((), rel) ∧ splitPath rel = .ok cs ∧
      e.desc (locate r₀ (nsOf r₀ pid)) = ⟨some cs, e.acc, e.off⟩ ∧
      s.io.store.1.fs.files cs = some (.file (m.content cs)) := by
  obtain ⟨hns, hfile⟩ := h.entries fd e he
  obtain ⟨cs, content, hcs, hcontent⟩ := hfile.resolve_left hpath
  obtain ⟨rel, hlookup, hrel⟩ := vfsLookup_of_locate hcs
  refine ⟨rel, cs, ?_, hrel, ?_, ?_⟩
  · rw [hns, vfsLookup_congr h.mounts, hlookup]
  · rw [Entry.desc, if_neg hpath, hcs]
    rfl
  · rw [h.fs, hcontent, Model.content, hcontent]

theorem setOff (h : Agrees r₀ pid s m) {fd : ℤ} {e : Entry} (he : lookupEntry s.io.table pid fd = some e) (off : ℕ) :
    Agrees r₀ pid { s with io := { s.io with table := setEntry s.io.table pid fd { e with off := off } } }
      (m.setOff fd (e.desc (locate r₀ (nsOf r₀ pid))) off) where
  mounts := h.mounts
  ns := h.ns
  fs := h.fs
  con := h.con
  fds := by
    intro g
    rw [lookupEntry_setEntry, Model.setOff]
    by_cases hg : g = fd
    · subst hg
      rw [if_pos ⟨rfl, rfl⟩]
      exact Function.update_self _ _ _
    · rw [if_neg fun hand => hg hand.2, ← h.fds]
      exact Function.update_of_ne hg _ _
  entries := by
    intro g e' he'
    rw [lookupEntry_setEntry] at he'
    split_ifs at he'
    · obtain rfl := Option.some.inj he'
      exact h.entries fd e he
    · exact h.entries g e' he'

theorem console (h : Agrees r₀ pid s m) (k : κ) :
    Agrees r₀ pid { s with io := { s.io with store := (s.io.store.1, k) } } { m with con := k } :=
  ⟨h.mounts, h.ns, h.fs, rfl, h.fds, h.entries⟩

theorem read (h : Agrees r₀ pid s m) (con : Console κ) (fd n : ℤ) :
    (fdRead (ramEnv con) s.reg pid fd n s.io).1 = (m.read con fd n).1 ∧
      Agrees r₀ pid { s with io := (fdRead (ramEnv con) s.reg pid fd n s.io).2 } (m.read con fd n).2 := by
  rw [fdRead, Model.read]
  split_ifs
  · exact ⟨rfl, h⟩
  · cases he : lookupEntry s.io.table pid fd with
    | none =>
      rw [h.fds_none he]
      exact ⟨rfl, h⟩
    | some e =>
      rw [h.fds_some he]
      simp only
      by_cases hacc : e.acc = oWronly
      · rw [if_pos hacc, if_pos (show (e.desc _).acc = _ from hacc)]
        exact ⟨rfl, h⟩
      · rw [if_neg hacc, if_neg (show ¬ (e.desc _).acc = _ from hacc)]
        by_cases hpath : e.path = consolePath
        · have htarget : (e.desc (locate r₀ (nsOf r₀ pid))).target = none := if_pos hpath
          rw [if_pos hpath, htarget, consoleRead_ramEnv, h.con]
          exact ⟨rfl, h.console _⟩
        · obtain ⟨rel, cs, hlookup, hrel, hdesc, hfile⟩ := h.file he hpath
          have hread : s.io.store.1.ram.opsRead rel = .ok (m.content cs) := by
            rw [Ram.opsRead_eq, hrel]
            change Fs.read cs s.io.store.1.fs = _
            rw [Fs.read, hfile]
          have hset := h.setOff he (e.off + (((m.content cs).drop e.off).take n.toNat).length)
          rw [hdesc] at hset ⊢
          rw [if_neg hpath, hlookup]
          simp only [ramEnv, hread, commitOff, he]
          exact ⟨trivial, hset⟩

theorem seek (h : Agrees r₀ pid s m) (con : Console κ) (fd off whence : ℤ) :
    (fdSeek (ramEnv con) s.reg pid fd off whence s.io).1 = (m.seek fd off whence).1 ∧
      Agrees r₀ pid { s with io := (fdSeek (ramEnv con) s.reg pid fd off whence s.io).2 } (m.seek fd off whence).2 := by
  rw [fdSeek, Model.seek]
  cases he : lookupEntry s.io.table pid fd with
  | none =>
    rw [h.fds_none he]
    exact ⟨rfl, h⟩
  | some e =>
    rw [h.fds_some he]
    simp only
    by_cases hpath : e.path = consolePath
    · have htarget : (e.desc (locate r₀ (nsOf r₀ pid))).target = none := if_pos hpath
      rw [if_pos hpath, htarget]
      exact ⟨rfl, h⟩
    · obtain ⟨rel, cs, hlookup, hrel, hdesc, hfile⟩ := h.file he hpath
      have hstat := opsStat_file s.io.store.1 hrel hfile
      have hbase : seekBase (ramEnv con) s.reg e whence s.io.store =
          ((if whence = 0 then some 0 else if whence = 1 then some e.off
            else if whence = 2 then some (m.content cs).length else none).elim (.error (.inval "bad whence")) .ok,
            s.io.store) := by
        rw [seekBase]
        split_ifs
        · rfl
        · rfl
        · simp only [hlookup, ramEnv, hstat]
          rfl
        · rfl
      have hset := fun off => h.setOff he off
      rw [hdesc] at hset ⊢
      rw [if_neg hpath, hbase]
      simp only
      cases (if whence = 0 then some 0 else if whence = 1 then some e.off
          else if whence = 2 then some (m.content cs).length else none : Option ℕ) with
      | none => exact ⟨rfl, h⟩
      | some base =>
        simp only [Option.elim_some]
        split_ifs
        · exact ⟨rfl, h⟩
        · simp only [commitOff, he]
          exact ⟨trivial, hset _⟩

theorem close (h : Agrees r₀ pid s m) (fd : ℤ) :
    (fdClose pid fd s.io).1 = (m.close fd).1 ∧ Agrees r₀ pid { s with io := (fdClose pid fd s.io).2 } (m.close fd).2 := by
  rw [fdClose, Model.close]
  cases he : lookupEntry s.io.table pid fd with
  | none =>
    rw [h.fds_none he]
    exact ⟨rfl, h⟩
  | some e =>
    rw [h.fds_some he]
    refine ⟨rfl, ?_⟩
    have hlookup : ∀ g, lookupEntry (if (((s.io.table.lookup pid).getD ∅).erase fd).entries = [] then s.io.table.erase pid
        else s.io.table.insert pid (((s.io.table.lookup pid).getD ∅).erase fd)) pid g =
          if g = fd then none else lookupEntry s.io.table pid g := by
      intro g
      have hper : (((s.io.table.lookup pid).getD ∅).erase fd).lookup g =
          if g = fd then none else lookupEntry s.io.table pid g := by
        rw [lookup_erase_eq, lookup_getD]
      split_ifs with hempty hg hg
      · rw [lookupEntry_erase, if_pos rfl]
      · rw [if_neg hg] at hper
        rw [lookupEntry_erase, if_pos rfl, ← hper]
        have hnot : g ∉ ((s.io.table.lookup pid).getD ∅).erase fd := by
          rw [AList.mem_keys, AList.keys, hempty]
          exact List.not_mem_nil
        exact (AList.lookup_eq_none.mpr hnot).symm
      · rw [lookupEntry_insert, if_pos rfl, hper, if_pos hg]
      · rw [lookupEntry_insert, if_pos rfl, hper, if_neg hg]
    exact {
      mounts := h.mounts
      ns := h.ns
      fs := h.fs
      con := h.con
      fds := by
        intro g
        simp only [hlookup]
        by_cases hg : g = fd
        · rw [hg, Function.update_self, if_pos rfl]
          rfl
        · rw [Function.update_of_ne hg, if_neg hg, h.fds]
      entries := by
        intro g e' he'
        simp only [hlookup] at he'
        split_ifs at he'
        exact h.entries g e' he' }

theorem overwrite_eq {off : ℕ} {content old : Octets} (h : off ≤ old.length) :
    Model.overwrite off content old = splice off content old := by
  rw [Model.overwrite, splice, Nat.sub_eq_zero_of_le h, List.replicate_zero, List.append_nil]

/-- New content of a file that is there keeps what the entries lead to. -/
theorem write_files (h : Agrees r₀ pid s m) {cs : List Text} {new : Octets} {fs : Fs} {ram : SoundRam}
    (hwrite : m.fs.write cs new = .ok fs) (hram : ram.fs = fs) :
    Agrees r₀ pid { s with io := { s.io with store := (ram, s.io.store.2) } } { m with fs := fs } where
  mounts := h.mounts
  ns := h.ns
  fs := hram
  con := h.con
  fds := h.fds
  entries := by
    intro fd e he
    obtain ⟨hns, hpath | ⟨ds, content, hds, hfile⟩⟩ := h.entries fd e he
    · exact ⟨hns, .inl hpath⟩
    · obtain ⟨-, -, rfl⟩ := Fs.write_eq_ok.mp hwrite
      simp only [Fs.put]
      refine ⟨hns, .inr ⟨ds, ?_⟩⟩
      by_cases heq : ds = cs
      · exact ⟨new, hds, by rw [heq, Function.update_self]⟩
      · exact ⟨content, hds, by rw [Function.update_of_ne heq, hfile]⟩

theorem write (h : Agrees r₀ pid s m) (con : Console κ) (fd : ℤ) (content : Octets) :
    (fdWrite (ramEnv con) s.reg pid fd content s.io).1 = some (m.write con false fd content).1 ∧
      Agrees r₀ pid { s with io := (fdWrite (ramEnv con) s.reg pid fd content s.io).2 }
        (m.write con false fd content).2 := by
  rw [Model.write]
  split_ifs with hlen
  · rw [fdWrite_of_start con (by rw [fdWriteStep, if_pos hlen])]
    exact ⟨rfl, h⟩
  · cases he : lookupEntry s.io.table pid fd with
    | none =>
      have hstart : fdWriteStep (ramEnv con) s.reg pid fd content (.start, s.io) = (.done (.error .badFd), s.io) := by
        simp only [fdWriteStep, if_neg hlen, he]
      rw [fdWrite_of_start con hstart, h.fds_none he]
      exact ⟨rfl, h⟩
    | some e =>
      rw [h.fds_some he]
      simp only
      by_cases hacc : e.acc = oRdonly
      · have hstart : fdWriteStep (ramEnv con) s.reg pid fd content (.start, s.io) =
            (.done (.error (.inval "not writable")), s.io) := by
          simp only [fdWriteStep, if_neg hlen, he, if_pos hacc]
        rw [fdWrite_of_start con hstart, if_pos (show (e.desc _).acc = _ from hacc)]
        exact ⟨rfl, h⟩
      · rw [if_neg (show ¬ (e.desc _).acc = _ from hacc)]
        by_cases hpath : e.path = consolePath
        · have htarget : (e.desc (locate r₀ (nsOf r₀ pid))).target = none := if_pos hpath
          have hstart : fdWriteStep (ramEnv con) s.reg pid fd content (.start, s.io) =
              (.done (consoleWrite (consoleEnv con) content m.con).1,
                { s.io with store := (s.io.store.1, (consoleWrite (consoleEnv con) content m.con).2) }) := by
            simp only [fdWriteStep, if_neg hlen, he, if_neg hacc, if_pos hpath, consoleWrite_ramEnv, h.con]
          rw [fdWrite_of_start con hstart, htarget]
          exact ⟨rfl, h.console _⟩
        · obtain ⟨rel, cs, hlookup, hrel, hdesc, hfile⟩ := h.file he hpath
          have hread : s.io.store.1.ram.opsRead rel = .ok (m.content cs) := by
            rw [Ram.opsRead_eq, hrel]
            change Fs.read cs s.io.store.1.fs = _
            rw [Fs.read, hfile]
          rw [hdesc, fdWrite_file con hlen he hacc hpath hlookup hread]
          simp only [true_and]
          split_ifs with hoff
          · exact ⟨rfl, h⟩
          · obtain ⟨hanswer, hfs⟩ := s.io.store.1.opsWrite_does rel (splice e.off content (m.content cs))
            rw [hrel, h.fs] at hanswer hfs
            change _ = (m.fs.write cs _).map _ at hanswer
            change _ = (m.fs.write cs _).toOption.getD _ at hfs
            rw [hanswer, overwrite_eq (Nat.not_lt.mp hoff)]
            cases hwrite : m.fs.write cs (splice e.off content (m.content cs)) with
            | error err =>
              rw [hwrite] at hfs
              exact ⟨rfl, h.mounts, h.ns, hfs, h.con, h.fds, h.entries⟩
            | ok fs =>
              rw [hwrite] at hfs
              have hwritten := (h.write_files hwrite hfs).setOff he (e.off + content.length)
              rw [hdesc] at hwritten
              exact ⟨rfl, hwritten⟩

theorem lowestFree (h : Agrees r₀ pid s m) : m.lowestFree = allocFd ((s.io.table.lookup pid).getD ∅) := by
  have hnone : ∀ fd, (m.fds fd).isNone = (((s.io.table.lookup pid).getD ∅).lookup fd).isNone := by
    intro fd
    rw [h.fds, lookup_getD, Option.isNone_map]
  rw [Model.lowestFree, allocFd_eq]
  simp only [hnone]

/-- A descriptor is given out, when the files are the new ones and have kept what they had. -/
theorem give (h : Agrees r₀ pid s m) {reg : Registry Unit} (hmounts : SameMounts reg r₀ (nsOf r₀ pid))
    (hns : nsOf reg pid = nsOf r₀ pid) {io : Io (SoundRam × κ)} (htable : io.table = s.io.table)
    (hcon : io.store.2 = m.con) (hkeep : ∀ ds content, m.fs.files ds = some (.file content) →
      ∃ content, io.store.1.fs.files ds = some (.file content)) (hfull : HasRoom s.io pid ∨ io.store.1.fs = m.fs)
    {path : Text} (acc : ℕ) (hfile : path = consolePath ∨ ∃ cs content,
      locate r₀ (nsOf r₀ pid) path = .ok cs ∧ io.store.1.fs.files cs = some (.file content)) {target : Option (List Text)}
    (htarget : (Entry.desc (locate r₀ (nsOf r₀ pid)) ⟨path, 0, acc, nsOf r₀ pid⟩).target = target) :
    (insertEntry io pid ⟨path, 0, acc, nsOf r₀ pid⟩).1 = (m.give io.store.1.fs target acc).1 ∧
      Agrees r₀ pid ⟨reg, (insertEntry io pid ⟨path, 0, acc, nsOf r₀ pid⟩).2⟩
        (m.give io.store.1.fs target acc).2 := by
  have hentries : ∀ fd e', lookupEntry io.table pid fd = some e' → e'.ns = nsOf r₀ pid ∧ (e'.path = consolePath ∨
      ∃ cs content, locate r₀ (nsOf r₀ pid) e'.path = .ok cs ∧ io.store.1.fs.files cs = some (.file content)) := by
    intro fd e' he'
    obtain ⟨hns', hpath | ⟨cs, content, hcs, hcontent⟩⟩ := h.entries fd e' (htable ▸ he')
    · exact ⟨hns', .inl hpath⟩
    · obtain ⟨content', hcontent'⟩ := hkeep cs content hcontent
      exact ⟨hns', .inr ⟨cs, content', hcs, hcontent'⟩⟩
  rw [insertEntry, Model.give, h.lowestFree, ← htable, ← htarget]
  cases halloc : allocFd ((io.table.lookup pid).getD ∅) with
  | none =>
    refine ⟨rfl, hmounts, hns, ?_, hcon, fun fd => by rw [h.fds, htable], ?_⟩
    · refine hfull.resolve_left ?_
      rintro ⟨fd, h3, h35, hfree⟩
      apply allocFd_eq_none.mp halloc fd h3 h35
      rw [lookup_getD, htable, hfree]
    · intro fd e' he'
      obtain ⟨hns', hpath | ⟨cs, content, hcs, hcontent⟩⟩ := h.entries fd e' (htable ▸ he')
      · exact ⟨hns', .inl hpath⟩
      · exact ⟨hns', .inr ⟨cs, content, hcs, hcontent⟩⟩
  | some fd =>
    refine ⟨rfl, hmounts, hns, rfl, hcon, fun g => ?_, fun g e' he' => ?_⟩
    · simp only [lookupEntry_setEntry]
      by_cases hg : g = fd
      · simp only [hg, Function.update_self, and_self, if_true]
        rfl
      · simp only [Function.update_of_ne hg, hg, and_false, if_false, htable, h.fds]
    · simp only [lookupEntry_setEntry] at he'
      split_ifs at he'
      · obtain rfl := Option.some.inj he'
        exact ⟨rfl, hfile⟩
      · exact hentries g e' he'

end Agrees

/-- What stands at the paths after an open has had its effect. -/
theorem opened_eq_ok {cs : List Text} {flags : BitVec 64} {fs fs' : Fs} (h : opened cs flags fs = .ok fs') :
    (∃ content, fs.files cs = some (.file content) ∧ (fs' = fs ∨ fs' = fs.put cs [])) ∨
      fs.files cs = none ∧ fs' = { fs with files := Function.update fs.files cs (some (.file [])) } := by
  rw [opened] at h
  cases hfile : fs.files cs with
  | none =>
    simp only [hfile] at h
    split_ifs at h
    rw [Fs.create] at h
    split_ifs at h
    · cases h
    · rw [Fs.add] at h
      cases hparent : fs.checkParent cs with
      | error e =>
        rw [hparent] at h
        cases h
      | ok u =>
        rw [hparent, hfile] at h
        exact .inr ⟨rfl, (Except.ok.inj h).symm⟩
  | some obj =>
    cases obj with
    | dir =>
      rw [hfile] at h
      cases h
    | file content =>
      simp only [hfile] at h
      refine .inl ⟨content, rfl, ?_⟩
      split_ifs at h
      · cases hwrite : fs.write cs [] with
        | error e =>
          rw [hwrite] at h
          cases h
        | ok fs'' =>
          rw [hwrite] at h
          obtain ⟨-, -, rfl⟩ := Fs.write_eq_ok.mp hwrite
          exact .inr (Except.ok.inj h).symm
      · exact .inl (Except.ok.inj h).symm

theorem opened_file {cs : List Text} {flags : BitVec 64} {fs fs' : Fs} (h : opened cs flags fs = .ok fs') :
    (∃ content, fs'.files cs = some (.file content)) ∧
      ∀ ds content, fs.files ds = some (.file content) → ∃ content, fs'.files ds = some (.file content) := by
  have hupdate : ∀ ds content, fs.files ds = some (.file content) →
      ∃ content, Function.update fs.files cs (some (.file [])) ds = some (.file content) := by
    intro ds content hds
    by_cases heq : ds = cs
    · exact ⟨[], by rw [heq, Function.update_self]⟩
    · exact ⟨content, by rw [Function.update_of_ne heq, hds]⟩
  obtain ⟨content, hcontent, rfl | rfl⟩ | ⟨-, rfl⟩ := opened_eq_ok h
  · exact ⟨⟨content, hcontent⟩, fun ds content hds => ⟨content, hds⟩⟩
  · exact ⟨⟨[], Function.update_self _ _ _⟩, hupdate⟩
  · exact ⟨⟨[], Function.update_self _ _ _⟩, hupdate⟩

/-- Where the paths show what they showed, the pages are counted as they were, too. -/
theorem opened_same {cs : List Text} {flags : BitVec 64} {fs fs' : Fs} (h : opened cs flags fs = .ok fs')
    (hsame : fs'.files = fs.files) : fs' = fs := by
  obtain ⟨content, hcontent, rfl | rfl⟩ | ⟨hnone, rfl⟩ := opened_eq_ok h
  · rfl
  · have hself : Function.update fs.files cs (some (.file [])) cs = fs.files cs := congrFun hsame cs
    rw [Function.update_self, hcontent] at hself
    obtain rfl := Obj.file.inj (Option.some.inj hself)
    have hpages : fs.pagesAt cs = 0 := by
      rw [Fs.pagesAt, hcontent]
      rfl
    have hblocks : blocks ([] : Octets).length = 0 := rfl
    simp only [Fs.put, hpages, hblocks, Nat.cast_zero, add_zero, sub_zero, Nat.sub_zero, ← hcontent,
      Function.update_eq_self]
  · exact absurd hsame (update_ne (by rw [hnone]; exact (Option.some_ne_none _).symm))

/-- When all descriptors are in use, an open does not get as far as to create or empty a file. -/
def OpensWithRoom (pid : ℕ) (s : Kernel κ) : FileCall → Prop
  | .open path flags => HasRoom s.io pid ∨ ¬ Affects s.reg pid path flags s.io.store.1.fs
  | _ => True

theorem fdOpen_reg {ι β : Type*} (env : FdEnv ι β) (r : Registry ι) (pid : ℕ) (path : Text) (flags : BitVec 64) (io : Io β) :
    (fdOpen env r pid path flags io).2.1 = r ∨ (fdOpen env r pid path flags io).2.1 = (vfsEnsurePid r pid).2 := by
  unfold fdOpen
  cases vfsEnsurePid r pid with
  | mk ns r' =>
    dsimp only
    repeat' split
    all_goals first | exact .inl rfl | exact .inr rfl

theorem nsOf_ensured {ι : Type*} (r : Registry ι) (pid : ℕ) : nsOf (vfsEnsurePid r pid).2 pid = nsOf r pid := by
  rw [nsOf, vfsEnsurePid_fst, vfsEnsurePid_lookup, if_pos rfl]
  rfl

theorem Agrees.opn {r₀ : Registry Unit} {pid : ℕ} {s : Kernel κ} {m : Model κ} (h : Agrees r₀ pid s m) (con : Console κ)
    (path : Text) (flags : BitVec 64) (hroom : OpensWithRoom pid s (.open path flags)) :
    (fdOpen (ramEnv con) s.reg pid path flags s.io).1 = (m.opn con (locate r₀ (nsOf r₀ pid)) path flags).1 ∧
      Agrees r₀ pid ⟨(fdOpen (ramEnv con) s.reg pid path flags s.io).2.1,
        (fdOpen (ramEnv con) s.reg pid path flags s.io).2.2⟩ (m.opn con (locate r₀ (nsOf r₀ pid)) path flags).2 := by
  have hreg : SameMounts (fdOpen (ramEnv con) s.reg pid path flags s.io).2.1 r₀ (nsOf r₀ pid) ∧
      nsOf (fdOpen (ramEnv con) s.reg pid path flags s.io).2.1 pid = nsOf r₀ pid := by
    obtain heq | heq := fdOpen_reg (ramEnv con) s.reg pid path flags s.io
    · rw [heq]
      exact ⟨h.mounts, h.ns⟩
    · rw [heq, nsOf_ensured, h.ns, SameMounts, (vfsEnsurePid_mounts _ _).1]
      exact ⟨h.mounts, rfl⟩
  obtain ⟨hmounts, hns⟩ := hreg
  generalize (fdOpen (ramEnv con) s.reg pid path flags s.io).2.1 = reg at hmounts hns ⊢
  suffices hpair : (openPair con s.reg pid path s.io flags).1 = (m.opn con (locate r₀ (nsOf r₀ pid)) path flags).1 ∧
      Agrees r₀ pid ⟨reg, (openPair con s.reg pid path s.io flags).2⟩ (m.opn con (locate r₀ (nsOf r₀ pid)) path flags).2
    from hpair
  have hstay : Agrees r₀ pid ⟨reg, s.io⟩ m := ⟨hmounts, hns, h.fs, h.con, h.fds, h.entries⟩
  have hloc : locate s.reg (nsOf s.reg pid) path = locate r₀ (nsOf r₀ pid) path := by
    rw [h.ns, locate_congr h.mounts]
  rw [Model.opn]
  cases hflags : validFlags flags with
  | false =>
    rw [openPair_flags _ _ _ _ _ hflags, if_pos rfl]
    exact ⟨rfl, hstay⟩
  | true =>
    rw [if_neg (Bool.false_ne_true ∘ Eq.symm)]
    by_cases hpath : path = consolePath
    · rw [openPair_console _ _ _ _ _ hflags hpath, if_pos hpath, h.con]
      cases con.findSlot m.con with
      | none => exact ⟨rfl, hstay⟩
      | some slot =>
        have hgive := h.give hmounts hns rfl h.con (fun ds content hds => ⟨content, by rw [h.fs, hds]⟩) (.inr h.fs)
          (flags &&& 3).toNat (.inl hpath) (if_pos hpath)
        rw [h.fs] at hgive
        rw [h.ns]
        exact hgive
    · rw [if_neg hpath]
      cases hplace : locate r₀ (nsOf r₀ pid) path with
      | error e =>
        rw [openPair_lost _ _ _ _ _ hflags hpath (hloc.trans hplace)]
        exact ⟨rfl, hstay⟩
      | ok cs =>
        obtain ⟨io, hopened, heq⟩ := openPair_located con s.reg pid path s.io hflags hpath (hloc.trans hplace)
        rw [heq, h.fs]
        have hfs := hopened.fs
        rw [h.fs] at hfs
        cases hres : opened cs flags m.fs with
        | error e =>
          rw [hres] at hfs
          simp only [hres]
          refine ⟨trivial, hmounts, hns, hfs, hopened.console.trans h.con, fun fd => ?_, fun fd e he => ?_⟩
          · rw [h.fds, hopened.table]
          · exact h.entries fd e (hopened.table ▸ he)
        | ok fs =>
          rw [hres] at hfs
          obtain rfl : io.store.1.fs = fs := hfs
          simp only [hres]
          obtain ⟨⟨content, hcontent⟩, hkeep⟩ := opened_file hres
          have hfull : HasRoom s.io pid ∨ io.store.1.fs = m.fs := by
            refine hroom.imp_right fun hquiet => opened_same hres ?_
            by_contra hne
            apply hquiet
            refine ⟨hflags, hpath, cs, hloc.trans hplace, (opened_changes_iff s.io.store.1 cs flags).mp ?_⟩
            rw [h.fs]
            exact ⟨_, hres, hne⟩
          have htarget : (Entry.desc (locate r₀ (nsOf r₀ pid)) ⟨path, 0, (flags &&& 3).toNat, nsOf r₀ pid⟩).target =
              some cs := by
            rw [Entry.desc, if_neg hpath, hplace]
            rfl
          have hgive := h.give hmounts hns hopened.table (hopened.console.trans h.con) hkeep hfull (flags &&& 3).toNat
            (.inr ⟨cs, content, hplace, hcontent⟩) htarget
          rw [h.ns]
          exact hgive

/-- Kernel and model answer a call alike and go on agreeing. -/
theorem Agrees.call {r₀ : Registry Unit} {pid : ℕ} {s : Kernel κ} {m : Model κ} (h : Agrees r₀ pid s m) (con : Console κ)
    (c : FileCall) (hroom : OpensWithRoom pid s c) :
    (s.call con pid c).1 = (m.call con (locate r₀ (nsOf r₀ pid)) false c).1 ∧
      Agrees r₀ pid (s.call con pid c).2 (m.call con (locate r₀ (nsOf r₀ pid)) false c).2 := by
  cases c with
  | «open» path flags => exact (h.opn con path flags hroom).imp_left (congrArg Answer.descriptor)
  | read fd n => exact (h.read con fd n).imp_left (congrArg Answer.data)
  | write fd content => exact (h.write con fd content).imp_left (congrArg Answer.count)
  | seek fd off whence => exact (h.seek con fd off whence).imp_left (congrArg Answer.descriptor)
  | close fd => exact (h.close fd).imp_left (congrArg Answer.closed)

/-- The model before the first open. -/
def Model.start (io : Io (SoundRam × κ)) : Model κ := ⟨io.store.1.fs, fun _ => none, io.store.2⟩

/-- The calls of a process that starts without descriptors answer as those of the model without holes
do, and leave what it leaves at the paths. -/
theorem descriptors_are_offsets (con : Console κ) (r : Registry Unit) (pid : ℕ) (io : Io (SoundRam × κ))
    (hnone : ∀ fd, lookupEntry io.table pid fd = none) (calls : List FileCall)
    (hroom : Served (Kernel.call con pid) (OpensWithRoom pid) ⟨r, io⟩ calls) :
    (serve (Kernel.call con pid) ⟨r, io⟩ calls).1 =
        (serve (Model.call con (locate r (nsOf r pid)) false) (.start io) calls).1 ∧
      (serve (Kernel.call con pid) ⟨r, io⟩ calls).2.io.store.1.fs.files =
        (serve (Model.call con (locate r (nsOf r pid)) false) (.start io) calls).2.fs.files := by
  have hstart : Agrees r pid ⟨r, io⟩ (Model.start io) := by
    refine ⟨rfl, rfl, rfl, rfl, fun fd => ?_, fun fd e he => ?_⟩
    · rw [hnone fd]
      rfl
    · rw [hnone fd] at he
      cases he
  obtain ⟨hanswers, hend⟩ := serve_simulation (fun s m c h hc => Agrees.call h con c hc) hstart hroom
  exact ⟨hanswers, congrArg Fs.files hend.fs⟩

/-- A file is created, and a byte is written five bytes behind its end. -/
def writeBehind : List FileCall := [.open (text "/f") 0x42, .seek 3 5 0, .write 3 [1], .seek 3 0 0, .read 3 9]

def pagedRam : SoundRam := .boot [1, 2] (fun _ => []) (by decide)

theorem descriptors_are_offsets_behind :
    (serve (Kernel.call noConsole 1) ⟨rootRegistry, ∅, pagedRam, ()⟩ writeBehind).1 =
      (serve (Model.call noConsole (locate rootRegistry 0) false) (.start ⟨∅, pagedRam, ()⟩) writeBehind).1 :=
  (descriptors_are_offsets noConsole rootRegistry 1 ⟨∅, pagedRam, ()⟩ (fun _ => rfl) writeBehind
    ⟨.inl ⟨3, by decide, by decide, rfl⟩, trivial, trivial, trivial, trivial, trivial⟩).1

/-- A write behind the end of the file does not fill the hole with zeros. -/
theorem holes_not_filled : (serve (Kernel.call noConsole 1) ⟨rootRegistry, ∅, pagedRam, ()⟩ writeBehind).1 ≠
    (serve (Model.call noConsole (locate rootRegistry 0) true) (.start ⟨∅, pagedRam, ()⟩) writeBehind).1 := by
  decide

end HouseKernel.Descriptors
