import HouseKernel.FileSystem.ParentDirs
import HouseKernel.FileSystem.RamVfs
import HouseKernel.FileSystem.StoreRoundTrip
import HouseKernel.Lib.LastWith

/-! Restoring an image into the RAM file system: the image is decoded, the tree is cleared, and the
files are created one by one. A file that cannot be created ends the restore where it is. -/
namespace HouseKernel.FileSystem.RamFs

open HouseKernel.Lib

inductive PersistError where
  | blk (e : FsError)
  | fs (e : FsError)
  | format (what : String)
  deriving DecidableEq, Repr

section restore

variable (r : Registry Unit) (ns : ℕ)

def ensureDir (s : SoundRam) (d : Text) : SoundRam := (vfsMkdir r ns d s).2

/-- The loop of the two restores. -/
def createFiles : Image → SoundRam → Except FsError Unit × SoundRam
  | [], s => (.ok (), s)
  | (p, bs) :: rest, s =>
    match vfsWrite r ns p bs ((parentDirs p).foldl (ensureDir r ns) s) with
    | (.error e, s) => (.error e, s)
    | (.ok (), s) => createFiles rest s

def restoreFiles (ram : ℕ) (files : Image) (s : SoundRam) : Except FsError Unit × SoundRam :=
  createFiles r ns files (vfsInit r ns ram s)

def blkfsRestore (ram : ℕ) (d : Disk) (s : SoundRam) : Except FsError Unit × SoundRam :=
  match loadFiles d with
  | .error e => (.error e, s)
  | .ok files => restoreFiles r ns ram files s

/-- What `persistRestore` does before it clears the tree: block 0 of zeros is no image here. -/
def persistLoad (d : Disk) : Except PersistError Image := do
  let b0 ← (bdRead d 0).mapError .blk
  let h ← (decodeHeader b0.val).mapError .format
  let need := blocksFor h.total
  if need ≤ 0 ∨ d.blkBlocks < need then .error (.format "capacity")
  else
    let rest ← (readBlocks d 1 (need - 1)).mapError .blk
    (decodeImage ((b0.val ++ rest.flatMap Subtype.val).take h.total)).mapError .format

def persistRestore (ram : ℕ) (d : Disk) (s : SoundRam) : Except PersistError Unit × SoundRam :=
  match persistLoad d with
  | .error e => (.error e, s)
  | .ok files =>
    match restoreFiles r ns ram files s with
    | (.error e, s) => (.error (.fs e), s)
    | (.ok (), s) => (.ok (), s)

end restore

def imageComps (f : Text × Octets) : Option (List Text) := (splitPath f.1).toOption

/-- The content of the last file with the path. -/
def contentAt (files : Image) (q : List Text) : Option Octets := (lastWith imageComps files q).map Prod.snd

def imagePages (files : Image) (q : List Text) : ℕ := ((contentAt files q).map fun bs => blocks bs.length).getD 0

/-- The pages of all files, one content for every path. -/
def totalPages (files : Image) : ℕ := ∑ q ∈ (files.filterMap imageComps).toFinset, imagePages files q

/-- What it takes to create a file after the earlier ones of an image: a path that does not lead through one of their
files, and is one of their files or on the way to none of them and not to itself; and the pages for it. -/
structure Creatable (quota : ℤ) (pool : ℕ) (earlier : Image) (f : Text × Octets) (cs : List Text) : Prop where
  path : splitPath f.1 = .ok cs
  notRoot : cs ≠ []
  through : ∀ g ∈ earlier, ∀ ds, splitPath g.1 = .ok ds → ds <+: cs → ds = cs
  place : (∃ g ∈ earlier, splitPath g.1 = .ok cs) ∨ ∀ g ∈ earlier ++ [f], cs ∉ waypoints g.1
  quota : (totalPages (earlier ++ [f]) : ℤ) ≤ quota
  pool : totalPages earlier + blocks f.2.length ≤ pool

/-- Every file of an image can be created after those before it. -/
def Restorable (quota : ℤ) (pool : ℕ) (files : Image) : Prop :=
  ∀ earlier f later, files = earlier ++ f :: later → ∃ cs, Creatable quota pool earlier f cs

theorem imageComps_eq {f : Text × Octets} {cs : List Text} : imageComps f = some cs ↔ splitPath f.1 = .ok cs := by
  rw [imageComps]
  cases splitPath f.1 with
  | error e => simp [Except.toOption]
  | ok ds => simp [Except.toOption]

theorem contentAt_concat {files : Image} {f : Text × Octets} {cs : List Text} (h : splitPath f.1 = .ok cs)
    (q : List Text) : contentAt (files ++ [f]) q = if cs = q then some f.2 else contentAt files q := by
  rw [contentAt, lastWith_concat, imageComps_eq.mpr h]
  by_cases hq : cs = q
  · rw [if_pos (congrArg some hq), if_pos hq]
    rfl
  · rw [if_neg (fun heq => hq (Option.some.inj heq)), if_neg hq]
    rfl

theorem contentAt_eq_none {files : Image} {q : List Text} :
    contentAt files q = none ↔ ∀ g ∈ files, splitPath g.1 ≠ .ok q := by
  rw [contentAt, Option.map_eq_none_iff, lastWith_eq_none]
  exact forall₂_congr fun g _ => not_congr imageComps_eq

theorem imagePages_of_notMem {files : Image} {q : List Text} (h : q ∉ (files.filterMap imageComps).toFinset) :
    imagePages files q = 0 := by
  have hnone : contentAt files q = none := by
    rw [contentAt_eq_none]
    intro g hg hsplit
    exact h (List.mem_toFinset.mpr (List.mem_filterMap.mpr ⟨g, hg, imageComps_eq.mpr hsplit⟩))
  rw [imagePages, hnone]
  rfl

/-- One more file gives its pages for those of the file that it replaces. -/
theorem totalPages_concat {files : Image} {f : Text × Octets} {cs : List Text} (h : splitPath f.1 = .ok cs) :
    totalPages (files ++ [f]) + imagePages files cs = totalPages files + blocks f.2.length := by
  have hpages : imagePages (files ++ [f]) = Function.update (imagePages files) cs (blocks f.2.length) := by
    funext q
    rw [imagePages, contentAt_concat h]
    by_cases hq : cs = q
    · rw [if_pos hq, hq, Function.update_self]
      rfl
    · rw [if_neg hq, Function.update_of_ne (Ne.symm hq)]
      rfl
  have hpaths : ((files ++ [f]).filterMap imageComps).toFinset = insert cs (files.filterMap imageComps).toFinset := by
    rw [List.filterMap_append, List.toFinset_append, List.filterMap_cons_some (imageComps_eq.mpr h)]
    simp
  have hold : totalPages files = ∑ q ∈ insert cs (files.filterMap imageComps).toFinset, imagePages files q :=
    (Finset.sum_insert_of_eq_zero_if_notMem imagePages_of_notMem).symm
  rw [hold, totalPages, hpaths, hpages, Finset.sum_update_of_mem (Finset.mem_insert_self _ _),
    ← Finset.add_sum_erase _ _ (Finset.mem_insert_self cs _), Finset.sdiff_singleton_eq_erase]
  omega

variable {r : Registry Unit} {ns : ℕ}

/-- No file stands at the path or above it. -/
def Open (fs : Fs) (q : List Text) : Prop := ∀ u, u <+: q → ∀ bs, fs.files u ≠ some (.file bs)

theorem Open.prefix {fs : Fs} {q u : List Text} (h : Open fs q) (hu : u <+: q) : Open fs u := fun v hv => h v (hv.trans hu)

/-- The table with directories at more paths, where nothing is in the way. -/
structure Paved (L : List Text → Prop) (fs fs' : Fs) : Prop where
  file : ∀ q bs, fs'.files q = some (.file bs) ↔ fs.files q = some (.file bs)
  dir : ∀ q, fs'.files q = some .dir ↔ fs.files q = some .dir ∨ L q ∧ Open fs q
  used : fs'.used = fs.used
  quota : fs'.quota = fs.quota
  free : fs'.free = fs.free

theorem Paved.none {fs fs' : Fs} {L : List Text → Prop} (h : Paved L fs fs') {q : List Text} (hL : ¬ L q)
    (hq : fs.files q = none) : fs'.files q = none := by
  cases hq' : fs'.files q with
  | none => rfl
  | some obj =>
    cases obj with
    | file bs => exact absurd ((h.file q bs).mp hq') (by simp [hq])
    | dir =>
      obtain hdir | ⟨hl, -⟩ := (h.dir q).mp hq'
      · exact absurd hdir (by simp [hq])
      · exact absurd hl hL

theorem ensureDir_fs (hr : Rooted r ns) {d : Text} {v : List Text} (hd : splitPath d = .ok v) (s : SoundRam) :
    (ensureDir r ns s d).fs = (s.fs.mkdir v).toOption.getD s.fs := by
  have hdoes := vfsMkdir_does hr d s
  rw [hd] at hdoes
  exact hdoes.fs

/-- A directory that was tried before, that cannot be or that is there needs nothing. -/
theorem Paved.same {fs fs' : Fs} {L : List Text → Prop} (h : Paved L fs fs') {v : List Text}
    (hv : L v ∨ ¬ Open fs v ∨ fs'.files v = some .dir) : Paved (fun q => L q ∨ q = v) fs fs' := by
  refine ⟨h.file, fun q => ?_, h.used, h.quota, h.free⟩
  rw [h.dir]
  refine or_congr_right' fun hold => ⟨fun ⟨hl, ho⟩ => ⟨.inl hl, ho⟩, ?_⟩
  rintro ⟨hl | rfl, ho⟩
  · exact ⟨hl, ho⟩
  · obtain hl | hv | hdir := hv
    · exact ⟨hl, ho⟩
    · exact absurd ho hv
    · exact ((h.dir q).mp hdir).resolve_left hold

/-- A directory where nothing was. -/
theorem Paved.new {fs fs' : Fs} {L : List Text → Prop} (h : Paved L fs fs') {v : List Text} (hopen : Open fs v)
    (hnone : fs'.files v = .none) :
    Paved (fun q => L q ∨ q = v) fs { fs' with files := Function.update fs'.files v (some .dir) } where
  file q bs := by
    simp only
    by_cases hq : q = v
    · subst hq
      rw [Function.update_self, ← h.file, hnone]
      simp
    · rw [Function.update_of_ne hq, h.file]
  dir q := by
    simp only
    by_cases hq : q = v
    · subst hq
      rw [Function.update_self]
      simp [hopen]
    · rw [Function.update_of_ne hq, h.dir]
      simp [hq]
  used := h.used
  quota := h.quota
  free := h.free

/-- Below a file no directory is made: something is in its place, or there is no directory above it. -/
theorem mkdir_closed {t : SoundRam} {fs : Fs} {L : List Text → Prop} (h : Paved L fs t.fs) {v : List Text} (hopen : ¬ Open fs v) :
    (t.fs.add v .dir).toOption.getD t.fs = t.fs := by
  rw [Fs.add]
  cases hparent : t.fs.checkParent v with
  | error e => rfl
  | ok u =>
    have hdir := Fs.checkParent_eq_ok.mp hparent
    have hsome : (t.fs.files v).isSome = true := by
      by_contra hnone
      apply hopen
      intro u hu bs hfile
      have hfile' := (h.file u bs).mpr hfile
      by_cases huv : u = v
      · subst huv
        simp [hfile'] at hnone
      · exact absurd (hfile'.symm.trans (dirs_above t (prefix_dropLast hu huv) hdir)) (by simp)
    simp only [bind, Except.bind, if_pos hsome]
    rfl

/-- One more directory, above which all others were tried before. -/
theorem Paved.ensureDir (hr : Rooted r ns) {L : List Text → Prop} {s t : SoundRam} (h : Paved L s.fs t.fs) {d : Text}
    {v : List Text} (hd : splitPath d = .ok v) (hup : ∀ u, u <+: v → u ≠ v → u = [] ∨ L u) :
    Paved (fun q => L q ∨ q = v) s.fs (ensureDir r ns t d).fs := by
  rw [ensureDir_fs hr hd, Fs.mkdir]
  by_cases hv : v = []
  · rw [if_pos hv]
    exact h.same (.inr (.inr (hv ▸ t.sound.files_nil)))
  rw [if_neg hv]
  by_cases hopen : Open s.fs v
  · have hparent : t.fs.files (parentComps v) = some .dir := by
      obtain hnil | hl := hup v.dropLast (List.dropLast_prefix v) (dropLast_ne hv)
      · rw [parentComps, hnil]
        exact t.sound.files_nil
      · exact (h.dir _).mpr (.inr ⟨hl, hopen.prefix (List.dropLast_prefix v)⟩)
    rw [Fs.add, Fs.checkParent_eq_ok.mpr hparent]
    change Paved _ s.fs ((if _ then _ else _ : Except FsError Fs).toOption.getD t.fs)
    cases hself : t.fs.files v with
    | some obj =>
      rw [if_pos Option.isSome_some]
      refine h.same (.inr ?_)
      cases obj with
      | file bs => exact absurd ((h.file v bs).mp hself) (hopen v (List.prefix_refl v) bs)
      | dir => exact .inr hself
    | none =>
      rw [if_neg (by simp)]
      exact h.new hopen hself
  · rw [mkdir_closed h hopen]
    exact h.same (.inr (.inl hopen))

/-- All directories on the way to a path. -/
theorem ensureDirs_paved (hr : Rooted r ns) {p : Text} {cs : List Text} (hp : splitPath p = .ok cs) (hcs : cs ≠ [])
    (s : SoundRam) : Paved (· ∈ waypoints p) s.fs ((parentDirs p).foldl (ensureDir r ns) s).fs := by
  obtain ⟨n, pos, hway⟩ := exists_way hp hcs
  have hlen : (parentDirs p).length = n := by simpa using congrArg List.length hway.dirs
  have hdir : ∀ i (hi : i < (parentDirs p).length), splitPath (parentDirs p)[i] = .ok (pos (i + 1)) := by
    intro i hi
    have hget := congrArg (·[i]?) hway.dirs
    simpa [hi, hlen ▸ hi] using hget
  have hrun : ∀ m ≤ (parentDirs p).length, Paved (fun q => ∃ i < m, pos (i + 1) = q) s.fs
      (((parentDirs p).take m).foldl (ensureDir r ns) s).fs := by
    intro m hm
    induction m with
    | zero => exact ⟨fun _ _ => .rfl, by simp, rfl, rfl, rfl⟩
    | succ m ih =>
      have hup : ∀ u, u <+: pos (m + 1) → u ≠ pos (m + 1) → u = [] ∨ ∃ i < m, pos (i + 1) = u :=
        fun u hu hne => hway.above (by omega) hu hne
      have hone := (ih (by omega)).ensureDir hr (hdir m hm) hup
      rw [List.take_add_one, List.getElem?_eq_getElem hm, List.foldl_append]
      simp only [Nat.lt_succ_iff_lt_or_eq, or_and_right, exists_or, exists_eq_left, eq_comm (a := pos (m + 1))]
      exact hone
  have hall := hrun _ le_rfl
  rw [List.take_length] at hall
  simp only [hway.mem_waypoints, ← hlen]
  exact hall

/-- The table after these files of an image. -/
structure Restored (quota : ℤ) (pool : ℕ) (earlier : Image) (fs : Fs) : Prop where
  file : ∀ q bs, fs.files q = some (.file bs) ↔ contentAt earlier q = some bs
  dir : ∀ q, fs.files q = some .dir ↔ q = [] ∨ (∃ g ∈ earlier, q ∈ waypoints g.1) ∧ Open fs q
  used : fs.used = totalPages earlier
  quota : fs.quota = quota
  free : fs.free + totalPages earlier = pool

theorem Restored.pagesAt {quota : ℤ} {pool : ℕ} {earlier : Image} {fs fs' : Fs} {L : List Text → Prop}
    (h : Restored quota pool earlier fs) (hp : Paved L fs fs') (q : List Text) : fs'.pagesAt q = imagePages earlier q := by
  have hfile : ∀ bs, fs'.files q = some (.file bs) ↔ contentAt earlier q = some bs := fun bs => (hp.file q bs).trans (h.file q bs)
  rw [Fs.pagesAt, imagePages]
  cases hq : contentAt earlier q with
  | some bs =>
    rw [(hfile bs).mpr hq]
    rfl
  | none =>
    cases hobj : fs'.files q with
    | none => rfl
    | some obj =>
      cases obj with
      | dir => rfl
      | file bs => exact absurd (hq.symm.trans ((hfile bs).mp hobj)) (by simp)

theorem contentAt_ne_none {files : Image} {g : Text × Octets} {q : List Text} (hg : g ∈ files)
    (hsplit : splitPath g.1 = .ok q) : ∃ bs, contentAt files q = some bs :=
  Option.ne_none_iff_exists'.mp fun hnone => contentAt_eq_none.mp hnone g hg hsplit

section step

variable {quota : ℤ} {pool : ℕ} {earlier : Image} {s t : SoundRam} {p : Text} {bs : Octets} {cs : List Text}

/-- No earlier file is above the path exactly when the directories on its way lead to it. -/
theorem through_iff (h : Restored quota pool earlier s.fs) (hp : splitPath p = .ok cs) (hcs : cs ≠ [])
    (hpaved : Paved (· ∈ waypoints p) s.fs t.fs) :
    (∀ g ∈ earlier, ∀ ds, splitPath g.1 = .ok ds → ds <+: cs → ds = cs) ↔ t.fs.files (parentComps cs) = some .dir := by
  constructor
  · intro hclear
    rw [hpaved.dir, h.dir]
    by_cases hnil : cs.dropLast = []
    · exact .inl (.inl hnil)
    · obtain ⟨n, pos, hway⟩ := exists_way hp hcs
      refine .inr ⟨hway.parents (List.dropLast_prefix cs) (dropLast_ne hcs) hnil, ?_⟩
      intro u hu bs' hfile
      have hnone : contentAt earlier u = none := by
        rw [contentAt_eq_none]
        intro g hg hsplit
        obtain rfl := hclear g hg u hsplit (hu.trans (List.dropLast_prefix cs))
        exact dropLast_ne hcs (hu.eq_of_length_le (by rw [parentComps, List.length_dropLast]; omega)).symm
      exact absurd (hnone.symm.trans ((h.file u bs').mp hfile)) (by simp)
  · intro hdir g hg ds hsplit hds
    by_contra hne
    obtain ⟨bs', hbs'⟩ := contentAt_ne_none hg hsplit
    have habove := dirs_above t (prefix_dropLast hds hne) hdir
    exact absurd (habove.symm.trans ((hpaved.file ds bs').mpr ((h.file ds bs').mpr hbs'))) (by simp)

/-- A path that the directories on its way lead to is itself one of them, or was one before, unless it is a file. -/
theorem place_iff (h : Restored quota pool earlier s.fs) (hcs : cs ≠ []) (hpaved : Paved (· ∈ waypoints p) s.fs t.fs)
    (hdir : t.fs.files (parentComps cs) = some .dir) :
    ((∃ g ∈ earlier, splitPath g.1 = .ok cs) ∨ ∀ g ∈ earlier ++ [(p, bs)], cs ∉ waypoints g.1) ↔
      t.fs.files cs ≠ some .dir := by
  constructor
  · rintro (⟨g, hg, hsplit⟩ | hclear) hself
    · obtain ⟨bs', hbs'⟩ := contentAt_ne_none hg hsplit
      exact absurd (hself.symm.trans ((hpaved.file cs bs').mpr ((h.file cs bs').mpr hbs'))) (by simp)
    · rw [hpaved.dir, h.dir] at hself
      obtain (hnil | ⟨⟨g, hg, hmem⟩, -⟩) | ⟨hmem, -⟩ := hself
      · exact hcs hnil
      · exact hclear g (List.mem_append_left _ hg) hmem
      · exact hclear (p, bs) (by simp) hmem
  · intro hself
    by_contra hnot
    obtain ⟨hnew, hsome⟩ := not_or.mp hnot
    apply hself
    have hopen : Open s.fs cs := by
      intro u hu bs' hfile
      by_cases hne : u = cs
      · subst hne
        obtain ⟨f, hlast, -⟩ := Option.map_eq_some_iff.mp ((h.file u bs').mp hfile)
        obtain ⟨hmem, hkey⟩ := lastWith_mem hlast
        exact hnew ⟨f, hmem, imageComps_eq.mp hkey⟩
      · have habove := dirs_above t (prefix_dropLast hu hne) hdir
        exact absurd (habove.symm.trans ((hpaved.file u bs').mpr hfile)) (by simp)
    simp only [not_forall, not_not] at hsome
    obtain ⟨g, hg, hmem⟩ := hsome
    rw [hpaved.dir, h.dir]
    obtain hg | hg := List.mem_append.mp hg
    · exact .inl (.inr ⟨⟨g, hg, hmem⟩, hopen⟩)
    · obtain rfl := List.mem_singleton.mp hg
      exact .inr ⟨hmem, hopen⟩

/-- A file can be created exactly when the table takes it behind the directories on its way. -/
theorem creatable_iff (h : Restored quota pool earlier s.fs) (hp : splitPath p = .ok cs) (hcs : cs ≠ [])
    (hpaved : Paved (· ∈ waypoints p) s.fs t.fs) :
    Creatable quota pool earlier (p, bs) cs ↔ ∃ fs, t.fs.write cs bs = .ok fs := by
  have hpages : totalPages (earlier ++ [(p, bs)]) + imagePages earlier cs = totalPages earlier + blocks bs.length :=
    totalPages_concat hp
  have hthrough := through_iff h hp hcs hpaved
  have hfree := h.free
  constructor
  · intro hc
    have hdir := hthrough.mp hc.through
    have hquota := hc.quota
    have hpool : totalPages earlier + blocks bs.length ≤ pool := hc.pool
    refine ⟨_, Fs.write_eq_ok.mpr ⟨⟨hcs, hdir, (place_iff h hcs hpaved hdir).mp hc.place⟩, ⟨?_, ?_⟩, rfl⟩⟩
    · rw [h.pagesAt hpaved, hpaved.used, hpaved.quota, h.used, h.quota]
      omega
    · rw [hpaved.free]
      omega
  · rintro ⟨fs, hfs⟩
    obtain ⟨⟨-, hdir, hself⟩, ⟨hquota, hroom⟩, -⟩ := Fs.write_eq_ok.mp hfs
    rw [h.pagesAt hpaved, hpaved.used, hpaved.quota, h.used, h.quota] at hquota
    rw [hpaved.free] at hroom
    exact {
      path := hp
      notRoot := hcs
      through := hthrough.mpr hdir
      place := (place_iff h hcs hpaved hdir).mpr hself
      quota := by omega
      pool := by simp only; omega }

/-- A file that is put closes what is below it. -/
theorem open_put {fs : Fs} {L : List Text → Prop} (hpaved : Paved L fs t.fs) (q : List Text) :
    Open (t.fs.put cs bs) q ↔ Open fs q ∧ ¬ cs <+: q := by
  have hfiles : (t.fs.put cs bs).files = Function.update t.fs.files cs (some (.file bs)) := rfl
  have hself : (t.fs.put cs bs).files cs = some (.file bs) := by rw [hfiles, Function.update_self]
  constructor
  · refine fun ho => ⟨fun u hu bs' hold => ?_, fun hu => ho cs hu bs hself⟩
    by_cases hne : u = cs
    · subst hne
      exact ho u hu bs hself
    · exact ho u hu bs' (by rw [hfiles, Function.update_of_ne hne, hpaved.file, hold])
  · rintro ⟨ho, hbelow⟩ u hu bs' hnew
    have hne : u ≠ cs := by
      rintro rfl
      exact hbelow hu
    rw [hfiles, Function.update_of_ne hne, hpaved.file] at hnew
    exact ho u hu bs' hnew

/-- The table with one more file. -/
theorem Restored.concat {fs : Fs} (h : Restored quota pool earlier s.fs) (hp : splitPath p = .ok cs) (hcs : cs ≠ [])
    (hpaved : Paved (· ∈ waypoints p) s.fs t.fs) (hwrite : t.fs.write cs bs = .ok fs) :
    Restored quota pool (earlier ++ [(p, bs)]) fs := by
  obtain ⟨⟨-, hdir, hself⟩, ⟨-, hroom⟩, rfl⟩ := Fs.write_eq_ok.mp hwrite
  have hpages : totalPages (earlier ++ [(p, bs)]) + imagePages earlier cs = totalPages earlier + blocks bs.length :=
    totalPages_concat hp
  have hfiles : (t.fs.put cs bs).files = Function.update t.fs.files cs (some (.file bs)) := rfl
  have hfile : ∀ q bs', (t.fs.put cs bs).files q = some (.file bs') ↔ contentAt (earlier ++ [(p, bs)]) q = some bs' := by
    intro q bs'
    rw [hfiles, contentAt_concat hp]
    by_cases hq : cs = q
    · subst hq
      rw [Function.update_self, if_pos rfl]
      simp
    · rw [Function.update_of_ne (Ne.symm hq), if_neg hq, hpaved.file, h.file]
  have hself' : (t.fs.put cs bs).files cs = some (.file bs) := by rw [hfiles, Function.update_self]
  have hopen : ∀ q, Open (t.fs.put cs bs) q ↔ Open s.fs q ∧ ¬ cs <+: q := open_put hpaved
  refine ⟨hfile, fun q => ?_, ?_, hpaved.quota.trans h.quota, ?_⟩
  · by_cases hq : q = cs
    · subst hq
      rw [hself', hopen]
      simp [hcs]
    · rw [hfiles, Function.update_of_ne hq]
      constructor
      · intro hqdir
        have hbelow : ¬ cs <+: q := fun hu => hself (dirs_above t hu hqdir)
        rw [hpaved.dir, h.dir] at hqdir
        obtain (hnil | ⟨⟨g, hg, hmem⟩, ho⟩) | ⟨hmem, ho⟩ := hqdir
        · exact .inl hnil
        · exact .inr ⟨⟨g, List.mem_append_left _ hg, hmem⟩, (hopen q).mpr ⟨ho, hbelow⟩⟩
        · exact .inr ⟨⟨(p, bs), by simp, hmem⟩, (hopen q).mpr ⟨ho, hbelow⟩⟩
      · rintro (rfl | ⟨⟨g, hg, hmem⟩, ho⟩)
        · exact t.sound.files_nil
        · have hold := ((hopen q).mp ho).1
          rw [hpaved.dir, h.dir]
          obtain hg | hg := List.mem_append.mp hg
          · exact .inl (.inr ⟨⟨g, hg, hmem⟩, hold⟩)
          · obtain rfl := List.mem_singleton.mp hg
            exact .inr ⟨hmem, hold⟩
  · change t.fs.used + blocks bs.length - t.fs.pagesAt cs = _
    rw [h.pagesAt hpaved, hpaved.used, h.used]
    omega
  · change t.fs.free - blocks bs.length + t.fs.pagesAt cs + _ = pool
    have hfree := h.free
    rw [hpaved.free] at hroom
    rw [h.pagesAt hpaved, hpaved.free]
    omega

end step

theorem createFiles_error {p : Text} {bs : Octets} {rest : Image} {s : SoundRam} {e : FsError}
    (h : (vfsWrite r ns p bs ((parentDirs p).foldl (ensureDir r ns) s)).1 = .error e) :
    (createFiles r ns ((p, bs) :: rest) s).1 = .error e := by
  rw [createFiles]
  split
  · next e' s' hw =>
    rw [hw] at h
    exact h
  · next s' hw =>
    rw [hw] at h
    cases h

theorem createFiles_ok {p : Text} {bs : Octets} {rest : Image} {s : SoundRam}
    (h : (vfsWrite r ns p bs ((parentDirs p).foldl (ensureDir r ns) s)).1 = .ok ()) :
    createFiles r ns ((p, bs) :: rest) s =
      createFiles r ns rest (vfsWrite r ns p bs ((parentDirs p).foldl (ensureDir r ns) s)).2 := by
  rw [createFiles]
  split
  · next e' s' hw =>
    rw [hw] at h
    cases h
  · next s' hw => rw [hw]

theorem Creatable.unique {quota : ℤ} {pool : ℕ} {earlier : Image} {f : Text × Octets} {cs : List Text}
    (hp : splitPath f.1 = .ok cs) : (∃ ds, Creatable quota pool earlier f ds) ↔ Creatable quota pool earlier f cs := by
  refine ⟨?_, fun h => ⟨cs, h⟩⟩
  rintro ⟨ds, h⟩
  obtain rfl : cs = ds := Except.ok.inj (hp.symm.trans h.path)
  exact h

/-- One step of the loop. -/
theorem createFile (hr : Rooted r ns) {quota : ℤ} {pool : ℕ} {earlier : Image} {s : SoundRam}
    (h : Restored quota pool earlier s.fs) (p : Text) (bs : Octets) :
    (∃ cs, Creatable quota pool earlier (p, bs) cs) ∧
        (vfsWrite r ns p bs ((parentDirs p).foldl (ensureDir r ns) s)).1 = .ok () ∧
        Restored quota pool (earlier ++ [(p, bs)]) (vfsWrite r ns p bs ((parentDirs p).foldl (ensureDir r ns) s)).2.fs ∨
      (¬ ∃ cs, Creatable quota pool earlier (p, bs) cs) ∧
        ∃ e, (vfsWrite r ns p bs ((parentDirs p).foldl (ensureDir r ns) s)).1 = .error e := by
  have hdoes := vfsWrite_does hr p bs ((parentDirs p).foldl (ensureDir r ns) s)
  cases hp : splitPath p with
  | error e =>
    rw [hp] at hdoes
    refine .inr ⟨?_, e, hdoes.answer⟩
    rintro ⟨cs, hc⟩
    cases hp.symm.trans hc.path
  | ok cs =>
    rw [hp] at hdoes
    obtain ⟨hanswer, hfs⟩ := hdoes
    change _ = (Fs.write cs bs _).map _ at hanswer
    change _ = (Fs.write cs bs _).toOption.getD _ at hfs
    rw [Creatable.unique hp]
    by_cases hcs : cs = []
    · refine .inr ⟨fun hc => hc.notRoot hcs, .eisdir, ?_⟩
      rw [hanswer, Fs.write, if_pos hcs]
      rfl
    have hpaved := ensureDirs_paved hr hp hcs s
    rw [creatable_iff h hp hcs hpaved]
    cases hwrite : ((parentDirs p).foldl (ensureDir r ns) s).fs.write cs bs with
    | error e =>
      rw [hwrite] at hanswer
      exact .inr ⟨by simp, e, hanswer⟩
    | ok fs =>
      rw [hwrite] at hanswer hfs
      refine .inl ⟨⟨fs, rfl⟩, hanswer, ?_⟩
      rw [hfs]
      exact h.concat hp hcs hpaved hwrite

/-- The loop runs to its end exactly when every file can be created, and leaves the table of all files. -/
theorem createFiles_iff (hr : Rooted r ns) {quota : ℤ} {pool : ℕ} {earlier files : Image} {s : SoundRam}
    (h : Restored quota pool earlier s.fs) :
    ((createFiles r ns files s).1 = .ok () ↔
      ∀ before f later, files = before ++ f :: later → ∃ cs, Creatable quota pool (earlier ++ before) f cs) ∧
    ((createFiles r ns files s).1 = .ok () → Restored quota pool (earlier ++ files) (createFiles r ns files s).2.fs) := by
  induction files generalizing earlier s with
  | nil => exact ⟨by simp [createFiles], fun _ => by simpa [createFiles] using h⟩
  | cons f rest ih =>
    obtain ⟨p, bs⟩ := f
    have hall : (∀ before f later, (p, bs) :: rest = before ++ f :: later → ∃ cs, Creatable quota pool (earlier ++ before) f cs) ↔
        (∃ cs, Creatable quota pool earlier (p, bs) cs) ∧ ∀ before f later, rest = before ++ f :: later →
          ∃ cs, Creatable quota pool (earlier ++ [(p, bs)] ++ before) f cs := by
      constructor
      · intro hc
        refine ⟨by simpa using hc [] _ _ rfl, fun before f later heq => ?_⟩
        simpa using hc ((p, bs) :: before) f later (by rw [heq]; rfl)
      · rintro ⟨hfirst, hc⟩ before f later heq
        cases before with
        | nil =>
          obtain ⟨rfl, rfl⟩ := List.cons_eq_cons.mp heq
          simpa using hfirst
        | cons g before =>
          obtain ⟨rfl, rfl⟩ := List.cons_eq_cons.mp heq
          simpa using hc before f later rfl
    rw [hall]
    obtain ⟨hc, hok, hrestored⟩ | ⟨hnot, e, herror⟩ := createFile hr h p bs
    · obtain ⟨hiff, hend⟩ := ih hrestored
      rw [createFiles_ok hok]
      refine ⟨by rw [hiff, and_iff_right hc], fun hrun => ?_⟩
      have hresult := hend hrun
      rwa [List.append_assoc, List.singleton_append] at hresult
    · rw [createFiles_error herror]
      exact ⟨⟨fun h => (by cases h), fun h => absurd h.1 hnot⟩, fun h => (by cases h)⟩

/-- The pages of the files and the free ones. -/
def SoundRam.pool (s : SoundRam) : ℕ := s.fs.free + s.fs.used.toNat

theorem restored_init (s : SoundRam) (ram : ℕ) : Restored (quotaPagesFor ram) s.pool [] (s.opsInit ram).fs := by
  rw [SoundRam.fs_opsInit]
  refine ⟨fun q bs => ?_, fun q => ?_, rfl, rfl, rfl⟩
  · change (if q = [] then some Obj.dir else none) = _ ↔ (none : Option Octets) = some bs
    split <;> simp
  · change (if q = [] then some Obj.dir else none) = _ ↔ _
    split <;> simp [*]

theorem restoreFiles_iff (hr : Rooted r ns) (ram : ℕ) (files : Image) (s : SoundRam) :
    ((restoreFiles r ns ram files s).1 = .ok () ↔ Restorable (quotaPagesFor ram) s.pool files) ∧
      ((restoreFiles r ns ram files s).1 = .ok () →
        Restored (quotaPagesFor ram) s.pool files (restoreFiles r ns ram files s).2.fs) := by
  rw [restoreFiles, vfsInit_rooted hr]
  simpa [Restorable] using createFiles_iff hr (restored_init s ram)

theorem ensureDirs_congr (hr : Rooted r ns) (ds : List Text) {s t : SoundRam} (h : s.fs = t.fs) :
    (ds.foldl (ensureDir r ns) s).fs = (ds.foldl (ensureDir r ns) t).fs := by
  induction ds generalizing s t with
  | nil => exact h
  | cons d ds ih =>
    refine ih ?_
    rw [ensureDir, ensureDir, (vfsMkdir_does hr d s).fs, (vfsMkdir_does hr d t).fs, h]

/-- The loop looks at nothing but the table. -/
theorem createFiles_congr (hr : Rooted r ns) (files : Image) {s t : SoundRam} (h : s.fs = t.fs) :
    (createFiles r ns files s).1 = (createFiles r ns files t).1 ∧
      (createFiles r ns files s).2.fs = (createFiles r ns files t).2.fs := by
  induction files generalizing s t with
  | nil => exact ⟨rfl, h⟩
  | cons f rest ih =>
    obtain ⟨p, bs⟩ := f
    have hs := vfsWrite_does hr p bs ((parentDirs p).foldl (ensureDir r ns) s)
    have ht := vfsWrite_does hr p bs ((parentDirs p).foldl (ensureDir r ns) t)
    have hdirs := ensureDirs_congr hr (parentDirs p) h
    have hanswer := (hs.answer.trans (by rw [hdirs])).trans ht.answer.symm
    have hfs := (hs.fs.trans (by rw [hdirs])).trans ht.fs.symm
    rw [createFiles, createFiles]
    revert hanswer hfs
    generalize vfsWrite r ns p bs ((parentDirs p).foldl (ensureDir r ns) s) = a
    generalize vfsWrite r ns p bs ((parentDirs p).foldl (ensureDir r ns) t) = b
    obtain ⟨x, a⟩ := a
    obtain ⟨y, b⟩ := b
    rintro rfl hfs
    cases x with
    | error e => exact ⟨rfl, hfs⟩
    | ok u => exact ih hfs

/-- If the call fails, tree and page accounting are as before. -/
def FailsCleanly {ε : Type} (s : SoundRam) (result : Except ε Unit × SoundRam) : Prop :=
  ∀ e, result.1 = .error e → result.2.fs = s.fs

/-- A restore that fails once the tree is cleared leaves the same table over every tree with as many pages; one of
two trees is not left as it was. -/
theorem exists_unclean (hr : Rooted r ns) {ram pool : ℕ} {files : Image}
    (h : ¬ Restorable (quotaPagesFor ram) pool files) :
    ∃ s : SoundRam, s.pool = pool ∧ ¬ FailsCleanly s (restoreFiles r ns ram files s) := by
  let empty : SoundRam := .boot (List.range pool) (fun _ => []) List.nodup_range
  let other : SoundRam := (empty.opsMkdir (text "/x")).2
  have hempty : empty.pool = pool := by
    change (List.range pool).length + (0 : ℤ).toNat = pool
    simp
  have hother : other.fs = { empty.fs with files := Function.update empty.fs.files [text "x"] (some .dir) } :=
    (empty.opsMkdir_does (text "/x")).fs
  have hsame : other.pool = empty.pool := by rw [SoundRam.pool, SoundRam.pool, hother]
  have hne : other.fs.files [text "x"] ≠ empty.fs.files [text "x"] := by
    rw [hother]
    change Function.update empty.fs.files [text "x"] (some .dir) [text "x"] ≠ none
    simp
  have hinit : (other.opsInit ram).fs = (empty.opsInit ram).fs := by
    rw [SoundRam.fs_opsInit, SoundRam.fs_opsInit, Fs.init, Fs.init]
    exact congrArg (Fs.mk _ _ _) hsame
  have hfail : ∀ s : SoundRam, s.pool = pool → ∃ e, (restoreFiles r ns ram files s).1 = .error e := by
    intro s hs
    cases hrun : (restoreFiles r ns ram files s).1 with
    | error e => exact ⟨e, rfl⟩
    | ok u => exact absurd (hs ▸ (restoreFiles_iff hr ram files s).1.mp hrun) h
  by_contra hclean
  simp only [not_exists, not_and, not_not] at hclean
  obtain ⟨e, he⟩ := hfail empty hempty
  obtain ⟨e', he'⟩ := hfail other (hsame.trans hempty)
  have hleft := hclean empty hempty e he
  have hright := hclean other (hsame.trans hempty) e' he'
  have hresult : (restoreFiles r ns ram files other).2.fs = (restoreFiles r ns ram files empty).2.fs := by
    rw [restoreFiles, restoreFiles, vfsInit_rooted hr, vfsInit_rooted hr]
    exact (createFiles_congr hr files hinit).2
  rw [← hright, ← hleft, hresult] at hne
  exact hne rfl

theorem not_zero_of_header {bs : Octets} {h : ImageHeader} (hd : decodeHeader bs = .ok h) :
    isZeroBlock (bs.take 4096) = false := by
  rw [decodeHeader] at hd
  split_ifs at hd with hlen hmagic
  all_goals
    have hfirst : bs[0]? = some 0x48 := by
      have hget := congrArg (·[0]?) (not_ne_iff.mp hmagic)
      simpa [magic] using hget
    cases bs with
    | nil => cases hfirst
    | cons b bs =>
      obtain rfl : b = 0x48 := by simpa using hfirst
      rfl

/-- `persistRestore` loads what `blkfsRestore` loads, but refuses block 0 of zeros. -/
theorem persistLoad_ok_iff {d : Disk} {files : Image} :
    persistLoad d = .ok files ↔ loadFiles d = .ok files ∧ isZeroBlock ((d.block 0).val.take 4096) = false := by
  rw [persistLoad, loadFiles, bdRead]
  by_cases hcap : 0 < d.blkBlocks
  case neg =>
    rw [if_neg hcap]
    exact ⟨fun h => (by cases h), fun h => (by cases h.1)⟩
  rw [if_pos hcap]
  simp only [Except.mapError, bind, Except.bind, headerTotal]
  cases hheader : decodeHeader (d.block 0).val with
  | error e =>
    constructor
    · exact fun h => (by cases h)
    · rintro ⟨hload, hzero⟩
      simp only [hzero] at hload
      cases hload
  | ok h =>
    have hzero := not_zero_of_header hheader
    simp only [hzero, and_true, Bool.false_eq_true, if_false, Functor.map, Except.map, badImage]
    split_ifs with hneed
    · exact ⟨fun h => (by cases h), fun h => (by cases h)⟩
    · cases readBlocks d 1 (blocksFor h.total - 1) with
      | error e => exact ⟨fun h => (by cases h), fun h => (by cases h)⟩
      | ok rest =>
        simp only
        cases decodeImage (((d.block 0).val ++ rest.flatMap Subtype.val).take h.total) with
        | error e => exact ⟨fun h => (by cases h), fun h => (by cases h)⟩
        | ok fs => simp

theorem loadFiles_zero {d : Disk} {files : Image} (h : loadFiles d = .ok files)
    (hzero : isZeroBlock ((d.block 0).val.take 4096) = true) : files = [] := by
  rw [loadFiles, bdRead] at h
  split_ifs at h
  · simp only [bind, Except.bind, hzero, if_true] at h
    exact (Except.ok.inj h).symm
  · cases h

theorem restorable_nil (quota : ℤ) (pool : ℕ) : Restorable quota pool [] := by
  intro earlier f later h
  simp at h

theorem persistRestore_loaded {d : Disk} {files : Image} (h : persistLoad d = .ok files) (ram : ℕ) (s : SoundRam) :
    persistRestore r ns ram d s = ((restoreFiles r ns ram files s).1.mapError .fs, (restoreFiles r ns ram files s).2) := by
  rw [persistRestore, h]
  simp only
  split
  · next e t heq => rw [heq]; rfl
  · next t heq => rw [heq]; rfl

/-- A restore that fails leaves tree and page accounting alone, over every tree with so many pages, exactly when every
file of the image, if it decodes, can be created after those before it. -/
theorem restore_clean_iff (hr : Rooted r ns) (ram pool : ℕ) (d : Disk) :
    ((∀ s : SoundRam, s.pool = pool → FailsCleanly s (blkfsRestore r ns ram d s)) ↔
      ∀ files, loadFiles d = .ok files → Restorable (quotaPagesFor ram) pool files) ∧
    ((∀ s : SoundRam, s.pool = pool → FailsCleanly s (persistRestore r ns ram d s)) ↔
      ∀ files, loadFiles d = .ok files → Restorable (quotaPagesFor ram) pool files) := by
  refine ⟨⟨?_, ?_⟩, ⟨?_, ?_⟩⟩
  · intro hclean files hload
    by_contra hnot
    obtain ⟨s, hs, hunclean⟩ := exists_unclean hr hnot
    apply hunclean
    have hs := hclean s hs
    rwa [blkfsRestore, hload] at hs
  · intro hall s hs e he
    rw [blkfsRestore] at he ⊢
    cases hload : loadFiles d with
    | error e => rfl
    | ok files =>
      rw [hload] at he
      have hok := (restoreFiles_iff hr ram files s).1.mpr (hs.symm ▸ hall files hload)
      cases hok.symm.trans he
  · intro hclean files hload
    cases hzero : isZeroBlock ((d.block 0).val.take 4096) with
    | true => exact loadFiles_zero hload hzero ▸ restorable_nil _ _
    | false =>
      by_contra hnot
      obtain ⟨s, hs, hunclean⟩ := exists_unclean hr hnot
      apply hunclean
      intro e he
      have hs := hclean s hs
      rw [persistRestore_loaded (persistLoad_ok_iff.mpr ⟨hload, hzero⟩)] at hs
      exact hs (.fs e) (by rw [he]; rfl)
  · intro hall s hs e he
    cases hload : persistLoad d with
    | error e =>
      rw [persistRestore, hload]
    | ok files =>
      have hok := (restoreFiles_iff hr ram files s).1.mpr (hs.symm ▸ hall files (persistLoad_ok_iff.mp hload).1)
      rw [persistRestore_loaded hload, hok] at he
      cases he

/-- An image that fits a device can be stored on it and is loaded again. -/
lemma exists_stored {files : Image} {img : Octets} (henc : encodeImage files = .ok img) (hspelled : files.Spelled)
    (hfiles : files ≠ []) (hlen : blocksFor img.length ≤ zeroDisk.blkBlocks) :
    ∃ d, loadFiles d = .ok files ∧ persistLoad d = .ok files := by
  obtain ⟨-, hload, hfits⟩ := image_round_trip_iff henc
  obtain ⟨d, hd⟩ := hfits zeroDisk rfl hlen
  have hload := (hload zeroDisk d hd).mpr hspelled
  refine ⟨d, hload, persistLoad_ok_iff.mpr ⟨hload, ?_⟩⟩
  by_contra hzero
  exact hfiles (loadFiles_zero hload (Bool.not_eq_false _ ▸ hzero))

def occupied : SoundRam := ((SoundRam.boot [1, 2, 3] (fun _ => []) (by decide)).opsMkdir (text "/keep")).2

/-- Two files of one directory, one of them empty, and one that a later entry writes over. -/
def severalFiles : Image := [(text "/a", [1]), (text "/d/b", [2, 3]), (text "/d/c", []), (text "/a", [4])]

/-- Every file of the image can be created, so no restore of it from a device that holds it fails and
changes the tree. -/
theorem restore_clean_several : ∃ d, loadFiles d = .ok severalFiles ∧
    (∀ s : SoundRam, s.pool = 3 → FailsCleanly s (blkfsRestore bootRegistry 0 0 d s)) ∧
    (∀ s : SoundRam, s.pool = 3 → FailsCleanly s (persistRestore bootRegistry 0 0 d s)) := by
  have henc : encodeImage severalFiles =
      .ok (imageHeader 57 4 ++ [2, 0, 47, 97, 1, 0, 0, 0, 1] ++ [4, 0, 47, 100, 47, 98, 2, 0, 0, 0, 2, 3] ++
        [4, 0, 47, 100, 47, 99, 0, 0, 0, 0] ++ [2, 0, 47, 97, 1, 0, 0, 0, 4]) := by
    rfl
  have hspelled : Image.Spelled severalFiles := by
    intro f hf
    simp only [severalFiles, List.mem_cons, List.not_mem_nil, or_false] at hf
    obtain rfl | rfl | rfl | rfl := hf <;> exact forall_of_all (by decide)
  obtain ⟨d, hload, -⟩ := exists_stored henc hspelled (by decide) (by decide)
  have hpool : occupied.pool = 3 := by rfl
  have hok : (restoreFiles bootRegistry 0 0 severalFiles occupied).1 = .ok () := by rfl
  have hall : ∀ files, loadFiles d = .ok files → Restorable (quotaPagesFor 0) 3 files := by
    intro files hfiles
    obtain rfl := Except.ok.inj (hload.symm.trans hfiles)
    exact hpool ▸ (restoreFiles_iff bootRegistry_rooted 0 severalFiles occupied).1.mp hok
  have hclean := restore_clean_iff bootRegistry_rooted 0 3 d
  exact ⟨d, hload, hclean.1.mpr hall, hclean.2.mpr hall⟩

/-- A file, and a file below it. -/
def conflicting : Image := [(text "/a", [1]), (text "/a/b", [2])]

/-- An image that decodes, but whose second file cannot be created, takes the tree with it. -/
theorem conflict_clears_tree : ∃ d, loadFiles d = .ok conflicting ∧
    ¬ FailsCleanly occupied (blkfsRestore bootRegistry 0 0 d occupied) ∧
    ¬ FailsCleanly occupied (persistRestore bootRegistry 0 0 d occupied) := by
  have henc : encodeImage conflicting =
      .ok (imageHeader 37 2 ++ [2, 0, 47, 97, 1, 0, 0, 0, 1] ++ [4, 0, 47, 97, 47, 98, 1, 0, 0, 0, 2]) := by
    rfl
  have hspelled : Image.Spelled conflicting := by
    intro f hf
    simp only [conflicting, List.mem_cons, List.not_mem_nil, or_false] at hf
    obtain rfl | rfl := hf <;> exact forall_of_all (by decide)
  obtain ⟨d, hload, hpersist⟩ := exists_stored henc hspelled (by decide) (by decide)
  have herror : (restoreFiles bootRegistry 0 0 conflicting occupied).1 = .error .enotdir := by rfl
  have hgone : (restoreFiles bootRegistry 0 0 conflicting occupied).2.fs.files [text "keep"] = none := by rfl
  have hthere : occupied.fs.files [text "keep"] = some .dir := by rfl
  have hchanged : (restoreFiles bootRegistry 0 0 conflicting occupied).2.fs ≠ occupied.fs := by
    intro heq
    rw [heq, hthere] at hgone
    cases hgone
  refine ⟨d, hload, fun hclean => ?_, fun hclean => ?_⟩
  · rw [blkfsRestore, hload] at hclean
    exact hchanged (hclean _ herror)
  · rw [persistRestore_loaded hpersist] at hclean
    exact hchanged (hclean (.fs .enotdir) (by rw [herror]; rfl))

end HouseKernel.FileSystem.RamFs
