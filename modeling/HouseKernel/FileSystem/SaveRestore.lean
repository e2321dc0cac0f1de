import HouseKernel.FileSystem.Restore
import HouseKernel.FileSystem.SavedTree

/-! Saving the RAM file system to a block device and restoring it from there. What was saved can always be
created again, if its paths can be spelled on the device and there are pages for it. -/
namespace HouseKernel.FileSystem.RamFs

open HouseKernel.Lib

/-- Save into a device. The walk takes a round for every directory. -/
def blkfsSave (r : Registry Unit) (ns : ℕ) (d : Disk) (s : SoundRam) : Except FsError Unit × Disk :=
  match collectVfs r ns s (countDirs s.ram.store.root) [[slash]] [] with
  | .error e => (.error e, d)
  | .ok files => storeFiles d files

/-- The states that the calls lead to. -/
inductive Reachable : SoundRam → Prop
  | boot (free : List ℕ) (mem : ℕ → Octets) (h : free.Nodup) : Reachable (.boot free mem h)
  | init {s : SoundRam} (h : Reachable s) (ram : ℕ) : Reachable (s.opsInit ram)
  | create {s : SoundRam} (h : Reachable s) (path : Text) : Reachable (s.opsCreate path).2
  | mkdir {s : SoundRam} (h : Reachable s) (path : Text) : Reachable (s.opsMkdir path).2
  | write {s : SoundRam} (h : Reachable s) (path : Text) (content : Octets) : Reachable (s.opsWrite path content).2
  | rm {s : SoundRam} (h : Reachable s) (path : Text) : Reachable (s.opsRm path).2

/-- The used pages are within the quota. -/
def Fs.Within (fs : Fs) : Prop := 0 ≤ fs.quota ∧ fs.used ≤ fs.quota

theorem Fs.add_within {fs fs' : Fs} {cs : List Text} {obj : Obj} (h : fs.Within) (hadd : fs.add cs obj = .ok fs') :
    fs'.Within := by
  rw [add] at hadd
  cases hparent : fs.checkParent cs with
  | error e =>
    rw [hparent] at hadd
    cases hadd
  | ok u =>
    rw [hparent] at hadd
    change (if _ then _ else _ : Except FsError Fs) = _ at hadd
    split_ifs at hadd
    obtain rfl := Except.ok.inj hadd
    exact h

theorem Fs.create_within {fs fs' : Fs} {cs : List Text} (h : fs.Within) (hc : fs.create cs = .ok fs') : fs'.Within := by
  rw [create] at hc
  split_ifs at hc
  exact add_within h hc

theorem Fs.mkdir_within {fs fs' : Fs} {cs : List Text} (h : fs.Within) (hm : fs.mkdir cs = .ok fs') : fs'.Within := by
  rw [mkdir] at hm
  split_ifs at hm
  exact add_within h hm

theorem Fs.write_within {fs fs' : Fs} {cs : List Text} {content : Octets} (h : fs.Within)
    (hw : fs.write cs content = .ok fs') : fs'.Within := by
  obtain ⟨-, ⟨hquota, -⟩, rfl⟩ := Fs.write_eq_ok.mp hw
  exact ⟨h.1, hquota⟩

theorem Fs.rm_within {fs fs' : Fs} {cs : List Text} (h : fs.Within) (hrm : fs.rm cs = .ok fs') : fs'.Within := by
  rw [rm] at hrm
  cases hparent : fs.checkParent cs with
  | error e =>
    rw [hparent] at hrm
    simp only [bind, Except.bind] at hrm
    split_ifs at hrm
  | ok u =>
    rw [hparent] at hrm
    simp only [bind, Except.bind] at hrm
    split_ifs at hrm
    obtain rfl := Except.ok.inj hrm
    obtain ⟨hquota, hused⟩ := h
    exact ⟨hquota, max_le hquota ((sub_le_self _ (Int.natCast_nonneg _)).trans hused)⟩

/-- A call that keeps the pages within the quota on the table keeps them so. -/
theorem SoundRam.Does.within {s : SoundRam} {result : Except FsError Unit × SoundRam} {path : Text}
    {call : List Text → Except FsError Fs} (hdoes : s.Does result (splitPath path >>= call)) (h : s.fs.Within)
    (hcall : ∀ cs fs, call cs = .ok fs → fs.Within) : result.2.fs.Within := by
  rw [hdoes.fs]
  cases splitPath path with
  | error e => exact h
  | ok cs =>
    change ((call cs).toOption.getD s.fs).Within
    cases hcs : call cs with
    | error e => exact h
    | ok fs => exact hcall cs fs hcs

theorem Reachable.within {s : SoundRam} (h : Reachable s) : s.fs.Within := by
  induction h with
  | boot free mem h => exact ⟨Int.natCast_nonneg _, Int.natCast_nonneg _⟩
  | init h ram ih =>
    rw [SoundRam.fs_opsInit]
    exact ⟨Int.natCast_nonneg _, Int.natCast_nonneg _⟩
  | create h path ih => exact (SoundRam.opsCreate_does _ path).within ih fun cs fs => Fs.create_within ih
  | mkdir h path ih => exact (SoundRam.opsMkdir_does _ path).within ih fun cs fs => Fs.mkdir_within ih
  | write h path content ih => exact (SoundRam.opsWrite_does _ path content).within ih fun cs fs => Fs.write_within ih
  | rm h path ih => exact (SoundRam.opsRm_does _ path).within ih fun cs fs => Fs.rm_within ih

theorem resolve_normalNames {n m : Node} (h : n.Proper) {q : List Text} (hq : resolve q n = some m) :
    ∀ c ∈ q, NormalName c := by
  induction q generalizing n with
  | nil => simp
  | cons c q ih =>
    cases n with
    | file ps size mtime => cases hq
    | dir kids =>
      rw [resolve] at hq
      cases hkid : lookupKid c kids with
      | none =>
        rw [hkid] at hq
        cases hq
      | some child =>
        rw [hkid] at hq
        obtain ⟨hc, hchild⟩ := KidsProper.lookup h hkid
        exact List.forall_mem_cons.mpr ⟨hc, ih hchild hq⟩

theorem normalNames (s : SoundRam) {q : List Text} (hq : s.fs.files q ≠ none) : ∀ c ∈ q, NormalName c := by
  obtain ⟨obj, hobj⟩ := Option.ne_none_iff_exists'.mp hq
  obtain ⟨m, hm, -⟩ := Option.map_eq_some_iff.mp hobj
  exact resolve_normalNames s.sound.proper hm

/-- The file list that a save stores: the regular files under their paths, with as many pages as are used. -/
structure Saves (s : SoundRam) (files : Image) : Prop where
  mem : ∀ p bs, (p, bs) ∈ files ↔ ∃ q, p = joinRel q ∧ s.fs.files q = some (.file bs)
  pages : ((files.map fun f => blocks f.2.length).sum : ℤ) = s.fs.used

variable {r : Registry Unit} {ns : ℕ}

theorem collectVfs_saves (hr : Rooted r ns) (s : SoundRam) :
    ∃ files, collectVfs r ns s (countDirs s.ram.store.root) [[slash]] [] = .ok files ∧ Saves s files := by
  obtain ⟨kids, hroot⟩ := s.sound.dir
  have hdir : IsDir s [] := ⟨by simp, kids, by rw [hroot]; rfl⟩
  have hself : resolve [] s.ram.store.root = some s.ram.store.root := by
    cases s.ram.store.root <;> rfl
  have hrounds : ([[]].map (roundsAt s)).sum ≤ countDirs s.ram.store.root := by
    simp [roundsAt, atPath, hself]
  obtain ⟨files, hcollect, hfiles⟩ := collectVfs_ok hr (by simpa using hdir) hrounds []
  have hbag : (files : Multiset (Text × Octets)) =
      ↑((entries s.ram.mem [] s.ram.store.root).map fun e => (joinRel e.1, e.2)) := by
    rw [hfiles]
    simp [savedAt, atPath, hself]
  have hperm := Multiset.coe_eq_coe.mp hbag
  refine ⟨files, hcollect, fun p bs => ?_, ?_⟩
  · rw [hperm.mem_iff, List.mem_map]
    constructor
    · rintro ⟨⟨q, bs'⟩, hmem, heq⟩
      obtain ⟨rfl, rfl⟩ := Prod.mk.inj heq
      obtain ⟨ds, rfl, hlook⟩ := (mem_entries s.sound.proper).mp hmem
      exact ⟨_, rfl, hlook⟩
    · rintro ⟨q, rfl, hq⟩
      exact ⟨(q, bs), (mem_entries s.sound.proper).mpr ⟨q, rfl, hq⟩, rfl⟩
  · rw [(hperm.map _).sum_eq, List.map_map]
    change (((entries s.ram.mem [] s.ram.store.root).map fun e => blocks e.2.length).sum : ℤ) = s.ram.store.used
    rw [blocks_entries s.sound.sized s.sound.full, s.sound.used]

/-- The directories on the way to the path of components are those above it. -/
theorem waypoints_joinRel {q u : List Text} (hq : ∀ c ∈ q, NormalName c) (hu : u ∈ waypoints (joinRel q)) :
    u <+: q ∧ u ≠ q := by
  by_cases hnil : q = []
  · subst hnil
    cases hu
  have hparts : pathParts (joinRel q) = q := by
    rw [pathParts, joinRel, if_neg hnil, splitOn_cons_self, splitOn_joinWith hnil fun c hc => (hq c hc).noSlash,
      List.filter_cons_of_neg (by simp), List.filter_eq_self]
    exact fun c hc => by simpa using (hq c hc).nonempty
  obtain ⟨d, hd, hsplit⟩ := List.mem_filterMap.mp hu
  rw [parentDirs, hparts] at hd
  obtain ⟨i, hi, rfl⟩ := List.mem_map.mp hd
  rw [List.mem_range] at hi
  have htake : ∀ c ∈ q.take (i + 1), NormalName c := fun c hc => hq c (List.mem_of_mem_take hc)
  have hne : q.take (i + 1) ≠ [] := by
    rw [ne_eq, List.take_eq_nil_iff]
    simp [hnil]
  rw [splitPath_pieces hne fun c hc => (htake c hc).noSlash, resolve_normal htake] at hsplit
  obtain rfl : q.take (i + 1) = u := by simpa [Except.toOption] using hsplit
  refine ⟨List.take_prefix _ _, fun heq => ?_⟩
  have hlen := congrArg List.length heq
  rw [List.length_take] at hlen
  omega

/-- One content for each path takes no more pages than all files. -/
theorem totalPages_le {files : Image} (h : ∀ f ∈ files, ∃ cs, splitPath f.1 = .ok cs) :
    totalPages files ≤ (files.map fun f => blocks f.2.length).sum := by
  induction files using List.reverseRecOn with
  | nil => exact le_rfl
  | append_singleton files f ih =>
    obtain ⟨cs, hcs⟩ := h f (by simp)
    have hall := ih fun g hg => h g (List.mem_append_left _ hg)
    have hconcat : totalPages (files ++ [f]) + imagePages files cs = totalPages files + blocks f.2.length :=
      totalPages_concat hcs
    rw [List.map_append, List.sum_append, List.map_singleton, List.sum_singleton]
    omega

namespace Saves

variable {s : SoundRam} {files : Image}

theorem path (h : Saves s files) {f : Text × Octets} (hf : f ∈ files) :
    ∃ q, f.1 = joinRel q ∧ splitPath f.1 = .ok q ∧ (∀ c ∈ q, NormalName c) ∧ s.fs.files q = some (.file f.2) := by
  obtain ⟨q, hq, hfile⟩ := (h.mem f.1 f.2).mp hf
  have hnames := normalNames s (by rw [hfile]; simp)
  exact ⟨q, hq, by rw [hq, splitPath_joinRel hnames], hnames, hfile⟩

/-- What was saved can be created again where there are pages for it. -/
theorem restorable (h : Saves s files) {quota : ℤ} {pool : ℕ} (hquota : s.fs.used ≤ quota) (hpool : s.fs.used ≤ pool) :
    Restorable quota pool files := by
  intro earlier f later heq
  have hsub : ∀ g ∈ earlier ++ [f], g ∈ files := by
    intro g hg
    rw [heq]
    simp only [List.mem_append, List.mem_cons] at hg ⊢
    tauto
  have hold : ∀ g ∈ earlier, g ∈ files := fun g hg => hsub g (List.mem_append_left _ hg)
  have hsplits : ∀ g ∈ files, ∃ cs, splitPath g.1 = .ok cs := fun g hg =>
    let ⟨q, _, hq, _⟩ := h.path hg
    ⟨q, hq⟩
  have hsum : ((earlier ++ [f]).map fun g => blocks g.2.length).sum ≤ (files.map fun g => blocks g.2.length).sum := by
    rw [heq]
    simp only [List.map_append, List.sum_append, List.map_cons, List.sum_cons, List.map_nil, List.sum_nil]
    omega
  have hpages := h.pages
  have hnew := totalPages_le fun g hg => hsplits g (hsub g hg)
  have hbefore := totalPages_le fun g hg => hsplits g (hold g hg)
  obtain ⟨q, -, hsplit, -, hfile⟩ := h.path (hsub f (by simp))
  refine ⟨q, hsplit, ?_, ?_, .inr ?_, by omega, ?_⟩
  · rintro rfl
    exact absurd (s.sound.files_nil.symm.trans hfile) (by simp)
  · intro g hg ds hds hpre
    by_contra hne
    obtain ⟨ds', -, hds', -, hfile'⟩ := h.path (hold g hg)
    obtain rfl : ds = ds' := Except.ok.inj (hds.symm.trans hds')
    exact absurd ((above_dir s hpre hne (by rw [hfile]; simp)).symm.trans hfile') (by simp)
  · intro g hg hway
    obtain ⟨q', hq', -, hnames, hfile'⟩ := h.path (hsub g hg)
    rw [hq'] at hway
    obtain ⟨hpre, hne⟩ := waypoints_joinRel hnames hway
    exact absurd ((above_dir s hpre hne (by rw [hfile']; simp)).symm.trans hfile) (by simp)
  · rw [List.map_append, List.sum_append, List.map_singleton, List.sum_singleton] at hsum
    omega

/-- The last content of a path is the content that was saved. -/
theorem contentAt_iff (h : Saves s files) (q : List Text) (bs : Octets) :
    contentAt files q = some bs ↔ s.fs.files q = some (.file bs) := by
  have hsaved : ∀ bs, contentAt files q = some bs → s.fs.files q = some (.file bs) := by
    intro bs hbs
    obtain ⟨f, hlast, rfl⟩ := Option.map_eq_some_iff.mp hbs
    obtain ⟨hf, hkey⟩ := lastWith_mem hlast
    obtain ⟨q', -, hsplit, -, hfile⟩ := h.path hf
    obtain rfl : q = q' := Except.ok.inj ((imageComps_eq.mp hkey).symm.trans hsplit)
    exact hfile
  refine ⟨hsaved bs, fun hfile => ?_⟩
  have hmem : (joinRel q, bs) ∈ files := (h.mem _ _).mpr ⟨q, rfl, hfile⟩
  have hsplit : splitPath (joinRel q) = .ok q := splitPath_joinRel (normalNames s (by rw [hfile]; simp))
  obtain ⟨bs', hbs'⟩ := contentAt_ne_none hmem hsplit
  have hsame := (hsaved bs' hbs').symm.trans hfile
  rw [hbs', Obj.file.inj (Option.some.inj hsame)]

/-- The saved paths are spelled in the characters of a disk when the names of the files are. -/
theorem spelled_iff (h : Saves s files) : files.Spelled ↔
    ∀ q bs, s.fs.files q = some (.file bs) → ∀ c ∈ q, ∀ x ∈ c, 0 < x.val ∧ x.val < 256 := by
  constructor
  · intro hspelled q bs hfile c hc x hx
    have hsplit : splitPath (joinRel q) = .ok q := splitPath_joinRel (normalNames s (by rw [hfile]; simp))
    exact hspelled _ ((h.mem _ _).mpr ⟨q, rfl, hfile⟩) x ((splitPath_ok hsplit c hc).2 hx)
  · intro hchars f hf x hx
    obtain ⟨q, hq, -, -, hfile⟩ := h.path hf
    rw [hq] at hx
    obtain rfl | ⟨c, hc, hxc⟩ := mem_joinRel hx
    · decide
    · exact hchars q _ hfile c hc x hxc

end Saves

/-- The tree that is restored has the regular files of the one that was saved, and no others. -/
structure RestoresAll (s : SoundRam) (result : Except FsError Unit × SoundRam) : Prop where
  answer : result.1 = .ok ()
  files : ∀ q bs, result.2.fs.files q = some (.file bs) ↔ s.fs.files q = some (.file bs)

/-- After a save that succeeds, a restore brings all regular files back, if their paths can be spelled in the
characters of a disk and there are pages for them. -/
theorem save_restore (hr : Rooted r ns) {s t : SoundRam} (hs : Reachable s) {ram : ℕ} (hquota : s.fs.quota = quotaPagesFor ram)
    {d d' : Disk} (hsave : blkfsSave r ns d s = (.ok (), d'))
    (hchars : ∀ q bs, s.fs.files q = some (.file bs) → ∀ c ∈ q, ∀ x ∈ c, 0 < x.val ∧ x.val < 256)
    (hpool : s.fs.used ≤ t.pool) : RestoresAll s (blkfsRestore r ns ram d' t) := by
  obtain ⟨files, hcollect, hsaves⟩ := collectVfs_saves hr s
  rw [blkfsSave, hcollect] at hsave
  obtain ⟨img, hholds⟩ := storeFiles_ok hsave
  obtain ⟨-, hload, -⟩ := image_round_trip_iff hholds.encoded
  have hloaded : loadFiles d' = .ok files := (hload d d' hsave).mpr (hsaves.spelled_iff.mpr hchars)
  obtain ⟨hiff, hrestored⟩ := restoreFiles_iff hr ram files t
  have hok := hiff.mpr (hsaves.restorable (hquota ▸ hs.within.2) hpool)
  rw [blkfsRestore, hloaded]
  exact ⟨hok, fun q bs => ((hrestored hok).file q bs).trans (hsaves.contentAt_iff q bs)⟩

lemma twoPages_nodup : ([1, 2] : List ℕ).Nodup := by decide

/-- A tree with one file of one byte. -/
def oneFile (path : Text) : SoundRam := (((SoundRam.boot [1, 2] (fun _ => []) twoPages_nodup).opsInit 0).opsWrite path [7]).2

def noPages : SoundRam := .boot [] (fun _ => []) (by decide)

theorem oneFile_reachable (path : Text) : Reachable (oneFile path) := ((Reachable.boot _ _ _).init 0).write path [7]

theorem oneFile_saved {path : Text} {d' : Disk}
    (hcollect : collectVfs bootRegistry 0 (oneFile path) (countDirs (oneFile path).ram.store.root) [[slash]] [] =
      .ok [(path, [7])]) (h : storeFiles zeroDisk [(path, [7])] = (.ok (), d')) :
    blkfsSave bootRegistry 0 zeroDisk (oneFile path) = (.ok (), d') := by
  rw [blkfsSave, hcollect]
  exact h

theorem oneFile_chars : ∀ q bs, (oneFile (text "/a")).fs.files q = some (.file bs) →
    ∀ c ∈ q, ∀ x ∈ c, 0 < x.val ∧ x.val < 256 := by
  obtain ⟨files, hcollect, hsaves⟩ := collectVfs_saves bootRegistry_rooted (oneFile (text "/a"))
  obtain rfl : [(text "/a", [7])] = files := Except.ok.inj (hcollect.symm.trans (by rfl)).symm
  refine hsaves.spelled_iff.mp fun f hf => ?_
  obtain rfl := List.mem_singleton.mp hf
  exact forall_of_all (by decide)

theorem save_restore_one : ∃ d', blkfsSave bootRegistry 0 zeroDisk (oneFile (text "/a")) = (.ok (), d') ∧
    RestoresAll (oneFile (text "/a")) (blkfsRestore bootRegistry 0 0 d' (oneFile (text "/b"))) := by
  obtain ⟨-, -, -, d', hstore, -⟩ := image_round_trip_one
  have hsave := oneFile_saved (by rfl) hstore
  exact ⟨d', hsave, save_restore bootRegistry_rooted (oneFile_reachable _) (by rfl) hsave
    oneFile_chars (by decide)⟩

/-- A path with a NUL character is saved but not restored, and nothing is restored into a pool without pages. -/
theorem save_restore_loses :
    (∃ s t : SoundRam, Reachable s ∧ s.fs.quota = quotaPagesFor 0 ∧ s.fs.used ≤ t.pool ∧
      ∃ d', blkfsSave bootRegistry 0 zeroDisk s = (.ok (), d') ∧ ¬ RestoresAll s (blkfsRestore bootRegistry 0 0 d' t)) ∧
    ∃ s t : SoundRam, Reachable s ∧ s.fs.quota = quotaPagesFor 0 ∧
      (∀ q bs, s.fs.files q = some (.file bs) → ∀ c ∈ q, ∀ x ∈ c, 0 < x.val ∧ x.val < 256) ∧
      ∃ d', blkfsSave bootRegistry 0 zeroDisk s = (.ok (), d') ∧ ¬ RestoresAll s (blkfsRestore bootRegistry 0 0 d' t) := by
  constructor
  · obtain ⟨-, -, -, d', hstore, hload⟩ := image_with_nul_is_lost
    refine ⟨_, oneFile (text "/b"), oneFile_reachable _, by decide, by decide, d',
      oneFile_saved (by rfl) hstore, fun h => ?_⟩
    have hanswer := h.answer
    rw [blkfsRestore, hload] at hanswer
    cases hanswer
  · obtain ⟨-, -, -, d', hstore, hload⟩ := image_round_trip_one
    refine ⟨_, noPages, oneFile_reachable _, by rfl, oneFile_chars, d',
      oneFile_saved (by rfl) hstore, fun h => ?_⟩
    have hanswer := h.answer
    rw [blkfsRestore, hload] at hanswer
    exact absurd hanswer (by decide)

end HouseKernel.FileSystem.RamFs
