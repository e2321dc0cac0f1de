import HouseKernel.Descriptors.Inherited
import HouseKernel.FileSystem.RamFiles

/-! Descriptor calls over the RAM file system, which the kernel mounts at the root of every
namespace. What a call does to the backend is what it does to the table of the paths. -/
namespace HouseKernel.Descriptors

open HouseKernel.FileSystem HouseKernel.FileSystem.RamFs HouseKernel.Lib

variable {κ : Type*}

/-- The console driver, over its own state. -/
structure Console (κ : Type*) where
  findSlot : κ → Option ℕ
  readBytes : ℕ → κ → Option Octets × κ
  writeBytes : ℕ → Octets → κ → Option Unit × κ

/-- Every mount is the RAM file system. -/
def ramEnv (con : Console κ) : FdEnv Unit (SoundRam × κ) where
  opsCreate _ path b := ((b.1.opsCreate path).1, (b.1.opsCreate path).2, b.2)
  opsWrite _ path content b := ((b.1.opsWrite path content).1, (b.1.opsWrite path content).2, b.2)
  opsRead _ path b := (b.1.ram.opsRead path, b)
  opsStat _ path b := (b.1.ram.opsStat path, b)
  findConsoleSlot b := con.findSlot b.2
  conReadBytes slot b := ((con.readBytes slot b.2).1, b.1, (con.readBytes slot b.2).2)
  conWriteBytes slot content b := ((con.writeBytes slot content b.2).1, b.1, (con.writeBytes slot content b.2).2)

/-- The components of the place that a path names in a namespace. -/
def locate {ι : Type*} (r : Registry ι) (ns : ℕ) (path : Text) : Except FsError (List Text) :=
  match vfsLookup r ns path with
  | .error e => .error e
  | .ok (_, rel) => splitPath rel

theorem vfsLookup_rel {ι : Type*} {r : Registry ι} {ns : ℕ} {path rel : Text} {ops : ι}
    (h : vfsLookup r ns path = .ok (ops, rel)) : ∃ cs, splitPath rel = .ok cs ∧ locate r ns path = .ok cs := by
  suffices hrel : ∃ cs, splitPath rel = .ok cs by
    obtain ⟨cs, hcs⟩ := hrel
    exact ⟨cs, hcs, by simp only [locate, h, hcs]⟩
  rw [vfsLookup] at h
  cases hsplit : splitPath path with
  | error e => rw [hsplit] at h; cases h
  | ok comps =>
    simp only [hsplit, resolveIn] at h
    cases htable : r.nsTable.lookup ns with
    | none => rw [htable] at h; cases h
    | some table =>
      simp only [htable] at h
      cases hpre : resolvePrefix (table.map fun m => (m.comps, m.ops)) comps with
      | none => rw [hpre] at h; cases h
      | some place =>
        simp only [hpre] at h
        obtain ⟨-, rfl⟩ := Prod.mk.inj (Except.ok.inj h)
        obtain ⟨m, -, rfl⟩ := Option.map_eq_some_iff.mp hpre
        refine ⟨_, splitPath_joinRel fun c hc => ?_⟩
        exact (splitPath_ok hsplit c (List.mem_of_mem_drop hc)).1

theorem locate_error {ι : Type*} {r : Registry ι} {ns : ℕ} {path : Text} {e : FsError}
    (h : vfsLookup r ns path = .error e) : locate r ns path = .error e := by
  rw [locate, h]

section stat

variable (s : SoundRam) {rel : Text} {cs : List Text}

/-- What stands above a path at which something stands. -/
theorem files_parent (hcs : cs ≠ []) (h : s.fs.files cs ≠ none) : s.fs.files (FileSystem.RamFs.parentComps cs) = some .dir := by
  have hlook : ∀ ds, s.fs.files ds = (RamFs.resolve ds s.ram.store.root).map (objOf s.ram.mem) := fun _ => rfl
  rw [hlook, ← parent_last hcs, RamFs.resolve_append] at h
  rw [hlook]
  cases hdir : RamFs.resolve (RamFs.parentComps cs) s.ram.store.root with
  | none => rw [hdir] at h; exact absurd rfl h
  | some m =>
    cases m with
    | file ps size mtime => rw [hdir] at h; exact absurd rfl h
    | dir kids => rfl

theorem opsStat_none (hrel : splitPath rel = .ok cs) (h : s.fs.files cs = none) :
    s.ram.opsStat rel = .error .enoent := by
  have hnone : RamFs.resolve cs s.ram.store.root = none := Option.map_eq_none_iff.mp h
  simp only [Ram.opsStat, hrel, hnone]

theorem opsStat_dir (hrel : splitPath rel = .ok cs) (h : s.fs.files cs = some .dir) :
    ∃ st : FsStat, s.ram.opsStat rel = .ok st ∧ st.isDir = true ∧ st.size = 0 := by
  obtain ⟨m, hm, hobj⟩ := Option.map_eq_some_iff.mp (show (RamFs.resolve cs s.ram.store.root).map _ = _ from h)
  cases m with
  | file ps size mtime => cases hobj
  | dir kids => exact ⟨⟨true, 0, kids.length⟩, by simp only [Ram.opsStat, hrel, hm], rfl, rfl⟩

theorem opsStat_file (hrel : splitPath rel = .ok cs) {content : Octets} (h : s.fs.files cs = some (.file content)) :
    s.ram.opsStat rel = .ok ⟨false, content.length, blocks content.length⟩ := by
  obtain ⟨m, hm, hobj⟩ := Option.map_eq_some_iff.mp (show (RamFs.resolve cs s.ram.store.root).map _ = _ from h)
  cases m with
  | dir kids => cases hobj
  | file ps size mtime =>
    obtain rfl := Obj.file.inj hobj
    rw [(s.sound.length_file hm).2]
    simp only [Ram.opsStat, hrel, hm]

end stat

/-- What an open does to the files before it gives out a descriptor. -/
def opened (cs : List Text) (flags : BitVec 64) (fs : Fs) : Except FdError Fs :=
  match fs.files cs with
  | some .dir => .error (.fs .eisdir)
  | some (.file _) =>
    if flags &&& oTrunc ≠ 0 ∧ (flags &&& 3).toNat ≠ oRdonly then (fs.write cs []).mapError ofFsError else .ok fs
  | none => if flags &&& oCreat ≠ 0 then (fs.create cs).mapError .fs else .error (.fs .enoent)

/-- The state after an open has had its effect on the files. -/
structure Opened (io io' : Io (SoundRam × κ)) (a : Except FdError Fs) : Prop where
  table : io'.table = io.table
  console : io'.store.2 = io.store.2
  fs : io'.store.1.fs = a.toOption.getD io.store.1.fs

theorem openResolved_eq (con : Console κ) {rel : Text} {cs : List Text} (hrel : splitPath rel = .ok cs) (path : Text)
    (flags : BitVec 64) (pid ns : ℕ) (io : Io (SoundRam × κ)) :
    ∃ io', Opened io io' (opened cs flags io.store.1.fs) ∧
      openResolved (ramEnv con) () rel path flags pid ns io =
        match opened cs flags io.store.1.fs with
        | .error e => (.error e, io')
        | .ok _ => insertEntry io' pid ⟨path, 0, (flags &&& 3).toNat, ns⟩ := by
  have hsame : ∀ a : Except FdError Fs, a.toOption.getD io.store.1.fs = io.store.1.fs → Opened io io a :=
    fun a ha => ⟨rfl, rfl, ha.symm⟩
  rw [opened]
  cases hfile : io.store.1.fs.files cs with
  | none =>
    have hstat := opsStat_none io.store.1 hrel hfile
    simp only [openResolved, ramEnv, hstat]
    by_cases hcreat : flags &&& oCreat ≠ 0
    · obtain ⟨hanswer, hfs⟩ := io.store.1.opsCreate_does rel
      rw [hrel] at hanswer hfs
      change _ = (io.store.1.fs.create cs).map _ at hanswer
      change _ = (io.store.1.fs.create cs).toOption.getD _ at hfs
      simp only [if_pos hcreat, hanswer]
      refine ⟨{ io with store := ((io.store.1.opsCreate rel).2, io.store.2) }, ⟨rfl, rfl, ?_⟩, ?_⟩
      · rw [hfs]
        cases io.store.1.fs.create cs <;> rfl
      · cases io.store.1.fs.create cs <;> rfl
    · simp only [if_neg hcreat]
      exact ⟨io, hsame _ rfl, rfl⟩
  | some obj =>
    cases obj with
    | dir =>
      obtain ⟨st, hstat, hdir, -⟩ := opsStat_dir io.store.1 hrel hfile
      simp only [openResolved, ramEnv, hstat, hdir, if_true]
      exact ⟨io, hsame _ rfl, rfl⟩
    | file content =>
      have hstat := opsStat_file io.store.1 hrel hfile
      simp only [openResolved, ramEnv, hstat, Bool.false_eq_true, if_false]
      by_cases htrunc : flags &&& oTrunc ≠ 0 ∧ (flags &&& 3).toNat ≠ oRdonly
      · obtain ⟨hanswer, hfs⟩ := io.store.1.opsWrite_does rel []
        rw [hrel] at hanswer hfs
        change _ = (io.store.1.fs.write cs []).map _ at hanswer
        change _ = (io.store.1.fs.write cs []).toOption.getD _ at hfs
        simp only [if_pos htrunc, hanswer]
        refine ⟨{ io with store := ((io.store.1.opsWrite rel []).2, io.store.2) }, ⟨rfl, rfl, ?_⟩, ?_⟩
        · rw [hfs]
          cases io.store.1.fs.write cs [] <;> rfl
        · cases io.store.1.fs.write cs [] <;> rfl
      · simp only [if_neg htrunc]
        exact ⟨io, hsame _ rfl, rfl⟩

section fdOpen

variable (con : Console κ) (r : Registry Unit) (pid : ℕ) (path : Text) {flags : BitVec 64} (io : Io (SoundRam × κ))

/-- The namespace that the paths of a process are looked up in. -/
def nsOf {ι : Type*} (r : Registry ι) (pid : ℕ) : ℕ := (vfsEnsurePid r pid).1

theorem vfsLookup_ensured {ι : Type*} (r : Registry ι) (pid ns : ℕ) (path : Text) :
    vfsLookup (vfsEnsurePid r pid).2 ns path = vfsLookup r ns path :=
  vfsLookup_congr (by rw [SameMounts, (vfsEnsurePid_mounts r pid).1]) path

/-- The answer of an open and the state after it. -/
def openPair (flags : BitVec 64) : Except FdError ℤ × Io (SoundRam × κ) :=
  ((fdOpen (ramEnv con) r pid path flags io).1, (fdOpen (ramEnv con) r pid path flags io).2.2)

theorem openPair_flags (h : validFlags flags = false) :
    openPair con r pid path io flags = (.error (.inval "bad flags"), io) := by
  simp only [openPair, fdOpen, if_pos h]

theorem openPair_console (h : validFlags flags = true) (hpath : path = consolePath) :
    openPair con r pid path io flags =
      match con.findSlot io.store.2 with
      | none => (.error (.fs .enoent), io)
      | some _ => insertEntry io pid ⟨path, 0, (flags &&& 3).toNat, nsOf r pid⟩ := by
  simp only [openPair, fdOpen, h, Bool.true_eq_false, if_false, if_pos hpath, ramEnv]
  cases con.findSlot io.store.2 with
  | none => rfl
  | some slot => simp only [hpath, nsOf]

theorem openPair_lost (h : validFlags flags = true) (hpath : path ≠ consolePath) {e : FsError}
    (hloc : locate r (nsOf r pid) path = .error e) : openPair con r pid path io flags = (.error (.fs e), io) := by
  simp only [openPair, fdOpen, h, Bool.true_eq_false, if_false, if_neg hpath]
  cases hsplit : splitPath path with
  | error e' =>
    rw [locate_error (e := e') (by rw [vfsLookup, hsplit])] at hloc
    obtain rfl := Except.error.inj hloc
    rfl
  | ok comps =>
    cases hlookup : vfsLookup r (nsOf r pid) path with
    | error e' =>
      rw [locate_error hlookup] at hloc
      obtain rfl := Except.error.inj hloc
      rw [nsOf] at hlookup
      simp only [vfsLookup_ensured, hlookup]
    | ok place =>
      obtain ⟨cs, -, hcs⟩ := vfsLookup_rel hlookup
      rw [hcs] at hloc
      cases hloc

theorem openPair_located (h : validFlags flags = true) (hpath : path ≠ consolePath) {cs : List Text}
    (hloc : locate r (nsOf r pid) path = .ok cs) :
    ∃ io', Opened io io' (opened cs flags io.store.1.fs) ∧
      openPair con r pid path io flags =
        match opened cs flags io.store.1.fs with
        | .error e => (.error e, io')
        | .ok _ => insertEntry io' pid ⟨path, 0, (flags &&& 3).toNat, nsOf r pid⟩ := by
  cases hlookup : vfsLookup r (nsOf r pid) path with
  | error e =>
    rw [locate_error hlookup] at hloc
    cases hloc
  | ok place =>
    obtain ⟨ds, hrel, hds⟩ := vfsLookup_rel hlookup
    obtain rfl : ds = cs := Except.ok.inj (hds.symm.trans hloc)
    obtain ⟨comps, hsplit⟩ : ∃ comps, splitPath path = .ok comps := by
      cases hsplit : splitPath path with
      | ok comps => exact ⟨comps, rfl⟩
      | error e =>
        rw [vfsLookup, hsplit] at hlookup
        cases hlookup
    obtain ⟨io', hopened, heq⟩ := openResolved_eq con hrel path flags pid (nsOf r pid) io
    refine ⟨io', hopened, ?_⟩
    rw [← heq]
    rw [nsOf] at hlookup
    simp only [openPair, fdOpen, h, Bool.true_eq_false, if_false, if_neg hpath, hsplit, vfsLookup_ensured, hlookup, nsOf]

end fdOpen

end HouseKernel.Descriptors
