import HouseKernel.Descriptors.RamEnv

/-! Opens that fail. A file is created or emptied before a descriptor is looked for, so an open
that finds none has already had its effect; every other failure comes before. -/
namespace HouseKernel.Descriptors

open HouseKernel.FileSystem HouseKernel.FileSystem.RamFs HouseKernel.Lib

variable {κ : Type*}

theorem allocFd_eq (per : Dict ℤ Entry) : allocFd per =
    ((List.range 32).find? fun i : ℕ => (per.lookup (3 + (i : ℤ))).isNone).map fun i : ℕ => 3 + (i : ℤ) := by
  have hlist : allocFd per =
      ((List.range 32).map fun i : ℕ => 3 + (i : ℤ)).find? fun fd => (per.lookup fd).isNone := rfl
  rw [hlist, List.find?_map]
  rfl

theorem allocFd_eq_none {per : Dict ℤ Entry} : allocFd per = none ↔ ∀ fd, 3 ≤ fd → fd < 35 → per.lookup fd ≠ none := by
  simp only [allocFd_eq, Option.map_eq_none_iff, List.find?_eq_none, List.mem_range, Option.isNone_iff_eq_none]
  constructor
  · intro h fd h3 h35
    obtain ⟨i, rfl⟩ : ∃ i : ℕ, fd = 3 + i := ⟨(fd - 3).toNat, by omega⟩
    exact h i (by omega)
  · intro h i hi
    exact h _ (by omega) (by omega)

/-- A descriptor of the process is free. -/
def HasRoom (io : Io (SoundRam × κ)) (pid : ℕ) : Prop := ∃ fd, 3 ≤ fd ∧ fd < 35 ∧ lookupEntry io.table pid fd = none

theorem insertEntry_full {io : Io (SoundRam × κ)} {pid : ℕ} (h : ¬ HasRoom io pid) (e : Entry) :
    insertEntry io pid e = (.error (.inval "fd table full"), io) := by
  have hnone : allocFd ((io.table.lookup pid).getD ∅) = none := by
    refine allocFd_eq_none.mpr fun fd h3 h35 hfree => h ⟨fd, h3, h35, ?_⟩
    rwa [← lookup_getD]
  rw [insertEntry, hnone]

theorem insertEntry_room {io : Io (SoundRam × κ)} {pid : ℕ} (h : HasRoom io pid) (e : Entry) :
    ∃ fd, insertEntry io pid e = (.ok fd, { io with table := setEntry io.table pid fd e }) := by
  obtain ⟨fd, h3, h35, hfree⟩ := h
  rw [insertEntry]
  cases halloc : allocFd ((io.table.lookup pid).getD ∅) with
  | none => exact absurd ((lookup_getD _ _ _).trans hfree) (allocFd_eq_none.mp halloc fd h3 h35)
  | some g => exact ⟨g, rfl⟩

/-- Only a full table refuses an entry, and nothing is changed then. -/
theorem insertEntry_error {io io' : Io (SoundRam × κ)} {pid : ℕ} {ent : Entry} {e : FdError}
    (h : insertEntry io pid ent = (.error e, io')) : ¬ HasRoom io pid ∧ io' = io := by
  by_cases hroom : HasRoom io pid
  · obtain ⟨fd, hfd⟩ := insertEntry_room hroom ent
    rw [hfd] at h
    cases (Prod.mk.inj h).1
  · rw [insertEntry_full hroom] at h
    exact ⟨hroom, (Prod.mk.inj h).2.symm⟩

/-- The open finds no file and a directory to create one in. -/
def Creates (fs : Fs) (cs : List Text) (flags : BitVec 64) : Prop :=
  flags &&& oCreat ≠ 0 ∧ fs.files cs = none ∧ fs.files (FileSystem.RamFs.parentComps cs) = some .dir

/-- The open finds a file with content to empty, and the quota allows it. -/
def Truncates (fs : Fs) (cs : List Text) (flags : BitVec 64) : Prop :=
  flags &&& oTrunc ≠ 0 ∧ (flags &&& 3).toNat ≠ oRdonly ∧ (∃ content, fs.files cs = some (.file content) ∧ content ≠ []) ∧
    fs.used - fs.pagesAt cs ≤ fs.quota

theorem update_ne {f : List Text → Option Obj} {cs : List Text} {obj : Option Obj} (h : f cs ≠ obj) :
    Function.update f cs obj ≠ f := by
  intro heq
  apply h
  rw [← heq, Function.update_self]

theorem truncates_file {fs : Fs} {cs : List Text} {flags : BitVec 64} {content : Octets} (hfile : fs.files cs = some (.file content)) :
    Truncates fs cs flags ↔ (flags &&& oTrunc ≠ 0 ∧ (flags &&& 3).toNat ≠ oRdonly) ∧ content ≠ [] ∧
      fs.used - fs.pagesAt cs ≤ fs.quota := by
  constructor
  · rintro ⟨htrunc, hacc, ⟨content', hcontent', hne⟩, hquota⟩
    obtain rfl := Obj.file.inj (Option.some.inj (hcontent'.symm.trans hfile))
    exact ⟨⟨htrunc, hacc⟩, hne, hquota⟩
  · rintro ⟨⟨htrunc, hacc⟩, hne, hquota⟩
    exact ⟨htrunc, hacc, ⟨content, hfile, hne⟩, hquota⟩

/-- Emptying a file of a directory is refused by the quota alone. -/
theorem write_nil {fs : Fs} {cs : List Text} {content : Octets} (hcs : cs ≠ []) (hparent : fs.files (RamFs.parentComps cs) = some .dir)
    (hfile : fs.files cs = some (.file content)) :
    fs.write cs [] = if fs.quota < fs.used - fs.pagesAt cs then .error .enospc
      else .ok (fs.put cs []) := by
  have hblocks : fs.used + (blocks ([] : Octets).length : ℤ) - fs.pagesAt cs = fs.used - fs.pagesAt cs :=
    congrArg (· - _) (add_zero _)
  rw [Fs.write, if_neg hcs, Fs.checkParent, hparent, hfile, hblocks]
  rfl

/-- Exactly an open that creates or empties a file changes what stands at the paths. -/
theorem opened_changes_iff (s : SoundRam) (cs : List Text) (flags : BitVec 64) :
    (∃ fs, opened cs flags s.fs = .ok fs ∧ fs.files ≠ s.fs.files) ↔ Creates s.fs cs flags ∨ Truncates s.fs cs flags := by
  have hbelow : ∀ obj, obj ≠ some .dir → s.fs.files cs = obj → cs ≠ [] := by
    rintro obj hne hobj rfl
    exact hne (hobj.symm.trans s.sound.files_nil)
  have hnot : ∀ {e : FdError} {P : Prop}, ¬ P →
      ((∃ fs : Fs, (.error e : Except FdError Fs) = .ok fs ∧ fs.files ≠ s.fs.files) ↔ P) := by
    intro e P hP
    refine ⟨?_, fun h => absurd h hP⟩
    rintro ⟨fs, hfs, -⟩
    cases hfs
  rw [opened]
  cases hfile : s.fs.files cs with
  | none =>
    have hcs : cs ≠ [] := hbelow none (by simp) hfile
    have hadd : Function.update s.fs.files cs (some (.file [])) ≠ s.fs.files := update_ne (by simp [hfile])
    have htrunc : ¬ Truncates s.fs cs flags := by
      rintro ⟨-, -, ⟨content, hcontent, -⟩, -⟩
      exact Option.some_ne_none _ (hcontent.symm.trans hfile)
    rw [or_iff_left htrunc, Fs.create, if_neg hcs, Fs.add, Fs.checkParent, hfile]
    by_cases hcreat : flags &&& oCreat ≠ 0
    · simp only [if_pos hcreat]
      have hdir : Creates s.fs cs flags ↔ s.fs.files (RamFs.parentComps cs) = some .dir :=
        ⟨fun h => h.2.2, fun h => ⟨hcreat, hfile, h⟩⟩
      rw [hdir]
      cases s.fs.files (RamFs.parentComps cs) with
      | none => exact hnot (by simp)
      | some obj =>
        cases obj with
        | file content => exact hnot (by simp)
        | dir => exact ⟨fun _ => rfl, fun _ => ⟨_, rfl, hadd⟩⟩
    · simp only [if_neg hcreat]
      exact hnot fun h => hcreat h.1
  | some obj =>
    have hcreat : ¬ Creates s.fs cs flags := by
      rintro ⟨-, hnone, -⟩
      exact Option.some_ne_none _ (hfile.symm.trans hnone)
    rw [or_iff_right hcreat]
    cases obj with
    | dir =>
      apply hnot
      rintro ⟨-, -, ⟨content, hcontent, -⟩, -⟩
      exact Obj.noConfusion (Option.some.inj (hcontent.symm.trans hfile))
    | file content =>
      have hcs : cs ≠ [] := hbelow (some (.file content)) (by simp) hfile
      have hparent := files_parent s hcs (by simp [hfile])
      have hput : (s.fs.put cs []).files ≠ s.fs.files ↔ content ≠ [] := by
        constructor
        · rintro hne rfl
          exact hne (by rw [Fs.put, ← hfile, Function.update_eq_self])
        · intro hne
          exact update_ne (by simpa [hfile] using hne)
      simp only [truncates_file hfile]
      by_cases htrunc : flags &&& oTrunc ≠ 0 ∧ (flags &&& 3).toNat ≠ oRdonly
      · rw [if_pos htrunc, and_iff_right htrunc, write_nil hcs hparent hfile]
        by_cases hquota : s.fs.quota < s.fs.used - s.fs.pagesAt cs
        · rw [if_pos hquota]
          exact hnot fun h => absurd h.2 (not_le.mpr hquota)
        · rw [if_neg hquota, and_iff_left (not_lt.mp hquota), ← hput]
          constructor
          · rintro ⟨fs, hfs, hne⟩
            obtain rfl := Except.ok.inj hfs
            exact hne
          · exact fun hne => ⟨_, rfl, hne⟩
      · rw [if_neg htrunc]
        constructor
        · rintro ⟨fs, hfs, hne⟩
          obtain rfl := Except.ok.inj hfs
          exact absurd rfl hne
        · exact fun h => absurd h.1 htrunc

/-- The open, if it fails, leaves the contents of the files and the descriptors alone. -/
def FailsCleanly (con : Console κ) (r : Registry Unit) (pid : ℕ) (path : Text) (flags : BitVec 64)
    (io : Io (SoundRam × κ)) : Prop :=
  ∀ e r' io', fdOpen (ramEnv con) r pid path flags io = (.error e, r', io') →
    io'.store.1.fs.files = io.store.1.fs.files ∧ io'.table = io.table

/-- The open gets as far as to create a file or to empty one. -/
def Affects (r : Registry Unit) (pid : ℕ) (path : Text) (flags : BitVec 64) (fs : Fs) : Prop :=
  validFlags flags = true ∧ path ≠ consolePath ∧
    ∃ cs, locate r (nsOf r pid) path = .ok cs ∧ (Creates fs cs flags ∨ Truncates fs cs flags)

theorem failsCleanly_iff (con : Console κ) (r : Registry Unit) (pid : ℕ) (path : Text) (flags : BitVec 64)
    (io : Io (SoundRam × κ)) : FailsCleanly con r pid path flags io ↔
      ∀ e io', openPair con r pid path io flags = (.error e, io') →
        io'.store.1.fs.files = io.store.1.fs.files ∧ io'.table = io.table := by
  constructor
  · intro h e io' heq
    obtain ⟨hres, hio⟩ := Prod.mk.inj heq
    exact h e (fdOpen (ramEnv con) r pid path flags io).2.1 io' (by rw [← hres, ← hio])
  · intro h e r' io' heq
    exact h e io' (by rw [openPair, heq])

theorem affects_iff (r : Registry Unit) (pid : ℕ) {path : Text} {flags : BitVec 64} (s : SoundRam) {cs : List Text}
    (hflags : validFlags flags = true) (hpath : path ≠ consolePath) (hloc : locate r (nsOf r pid) path = .ok cs) :
    Affects r pid path flags s.fs ↔ ∃ fs, opened cs flags s.fs = .ok fs ∧ fs.files ≠ s.fs.files := by
  rw [opened_changes_iff, Affects, hloc]
  constructor
  · rintro ⟨-, -, ds, hds, h⟩
    obtain rfl := Except.ok.inj hds
    exact h
  · exact fun h => ⟨hflags, hpath, cs, rfl, h⟩

/-- Once the file is there, only a full table makes the open fail, and what it did to the file stays. -/
theorem insert_cleanly_iff {io io' : Io (SoundRam × κ)} {pid : ℕ} {ent : Entry} {fs : Fs} (hopened : Opened io io' (.ok fs)) :
    (∀ e io'', insertEntry io' pid ent = (.error e, io'') →
      io''.store.1.fs.files = io.store.1.fs.files ∧ io''.table = io.table) ↔
        HasRoom io pid ∨ fs.files = io.store.1.fs.files := by
  have hfs : io'.store.1.fs = fs := hopened.fs
  have hroom : HasRoom io' pid ↔ HasRoom io pid := by rw [HasRoom, HasRoom, hopened.table]
  constructor
  · intro h
    by_cases hfree : HasRoom io pid
    · exact .inl hfree
    · rw [insertEntry_full (mt hroom.mp hfree)] at h
      exact .inr (hfs ▸ (h _ io' rfl).1)
  · rintro h e io'' heq
    obtain ⟨hfull, rfl⟩ := insertEntry_error heq
    refine ⟨?_, hopened.table⟩
    rw [hfs]
    exact h.resolve_left (mt hroom.mpr hfull)

/-- A failed open has no effect exactly when the process has a descriptor left or the open does not get
as far as to create or empty a file. -/
theorem failed_open_iff (con : Console κ) (r : Registry Unit) (pid : ℕ) (path : Text) (flags : BitVec 64)
    (io : Io (SoundRam × κ)) :
    FailsCleanly con r pid path flags io ↔ HasRoom io pid ∨ ¬ Affects r pid path flags io.store.1.fs := by
  rw [failsCleanly_iff]
  have hquiet : ∀ {res : Except FdError ℤ × Io (SoundRam × κ)} {e' : FdError}, res = (.error e', io) →
      ∀ e io', res = (.error e, io') → io'.store.1.fs.files = io.store.1.fs.files ∧ io'.table = io.table := by
    rintro res e' rfl e io' heq
    obtain ⟨-, rfl⟩ := Prod.mk.inj heq
    exact ⟨rfl, rfl⟩
  cases hflags : validFlags flags with
  | false =>
    have hnot : ¬ Affects r pid path flags io.store.1.fs := fun h => by
      rw [Affects, hflags] at h
      exact Bool.false_ne_true h.1
    exact ⟨fun _ => .inr hnot, fun _ => hquiet (openPair_flags con r pid path io hflags)⟩
  | true =>
    by_cases hpath : path = consolePath
    · refine ⟨fun _ => .inr fun h => h.2.1 hpath, fun _ => ?_⟩
      rw [openPair_console con r pid path io hflags hpath]
      cases con.findSlot io.store.2 with
      | none => exact hquiet rfl
      | some slot =>
        intro e io' heq
        obtain ⟨-, rfl⟩ := insertEntry_error heq
        exact ⟨rfl, rfl⟩
    · cases hloc : locate r (nsOf r pid) path with
      | error e =>
        have hnot : ¬ Affects r pid path flags io.store.1.fs := by
          rintro ⟨-, -, cs, hcs, -⟩
          rw [hloc] at hcs
          cases hcs
        exact ⟨fun _ => .inr hnot, fun _ => hquiet (openPair_lost con r pid path io hflags hpath hloc)⟩
      | ok cs =>
        obtain ⟨io', hopened, heq⟩ := openPair_located con r pid path io hflags hpath hloc
        rw [heq, affects_iff r pid io.store.1 hflags hpath hloc]
        cases hres : opened cs flags io.store.1.fs with
        | error e =>
          rw [hres] at hopened
          refine ⟨fun _ => .inr fun ⟨fs, h, _⟩ => (nomatch h), fun _ e' io'' h => ?_⟩
          obtain ⟨-, rfl⟩ := Prod.mk.inj h
          exact ⟨congrArg Fs.files hopened.fs, hopened.table⟩
        | ok fs =>
          rw [hres] at hopened
          refine (insert_cleanly_iff hopened).trans (or_congr_right ?_)
          rw [not_exists]
          constructor
          · rintro h fs' ⟨hfs', hne⟩
            obtain rfl := Except.ok.inj hfs'
            exact hne h
          · exact fun h => by_contra fun hne => h fs ⟨rfl, hne⟩

/-- RAM file systems at the root of the default namespace. -/
def rootRegistry : Registry Unit := ⟨AList.singleton 0 [⟨[], ()⟩], 1, ∅⟩

/-- No console. -/
def noConsole : Console Unit := ⟨fun _ => none, fun _ b => (none, b), fun _ _ b => (none, b)⟩

/-- Process 1 has the first `n` descriptors open. -/
def openTable (n : ℕ) : FdTable :=
  (List.range n).foldl (fun t i => setEntry t 1 (3 + i) ⟨text "/d", 0, 0, 0⟩) ∅

def emptyRam : SoundRam := .boot [] (fun _ => []) List.nodup_nil

/-- With all descriptors in use, an open that fails has created its file. -/
theorem full_table_creates : ¬ FailsCleanly noConsole rootRegistry 1 (text "/f") oCreat ⟨openTable 32, emptyRam, ()⟩ := by
  intro h
  obtain ⟨e, r', io', hopen, hfile⟩ : ∃ e r' io',
      fdOpen (ramEnv noConsole) rootRegistry 1 (text "/f") oCreat ⟨openTable 32, emptyRam, ()⟩ = (.error e, r', io') ∧
        io'.store.1.fs.files [text "f"] = some (.file []) := by
    refine ⟨.inval "fd table full", _, _, Prod.ext ?_ rfl, ?_⟩
    · rfl
    · rfl
  have hnone : emptyRam.fs.files [text "f"] = none := by rfl
  rw [← (h e r' io' hopen).1] at hnone
  exact Option.some_ne_none _ (hfile.symm.trans hnone)

end HouseKernel.Descriptors
