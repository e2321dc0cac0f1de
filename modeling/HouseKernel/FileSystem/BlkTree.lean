import HouseKernel.FileSystem.BlkFs
import HouseKernel.FileSystem.StoreRoundTrip
import HouseKernel.Lib.Run

/-! Whether the files of a block-device slot and its directories form a tree. A directory is
cached, or implied by a file below it; `create`, `write` and `mkdir` look at one of the two and
`rm` at neither. -/
namespace HouseKernel.FileSystem

open HouseKernel.Lib

/-- The second path lies strictly below the first. -/
def Below (cs pcs : List Text) : Prop := cs <+: pcs ∧ cs ≠ pcs

/-- No path is a file and a directory. -/
structure NoConflict (files : Image) (cached : List (List Text)) : Prop where
  cached : ∀ cs ∈ filesComps files, cs ∉ cached
  below : ∀ cs ∈ filesComps files, ∀ pcs ∈ filesComps files, ¬ Below cs pcs

/-- A new file at this path stands below no file and has none below it. -/
def Clear (files : Image) (cs : List Text) : Prop := ∀ pcs ∈ filesComps files, ¬ Below cs pcs ∧ ¬ Below pcs cs

lemma filesComps_cons (f : Text × Octets) (files : Image) :
    filesComps (f :: files) = (splitPath f.1).toOption.toList ++ filesComps files := by
  unfold filesComps
  cases h : (splitPath f.1).toOption with
  | none => simp [h]
  | some cs => simp [h]

lemma mem_filesComps {files : Image} {cs : List Text} :
    cs ∈ filesComps files ↔ ∃ f ∈ files, splitPath f.1 = .ok cs := by
  simp only [filesComps, List.mem_filterMap]
  refine exists_congr fun f => and_congr_right fun _ => ?_
  cases splitPath f.1 <;> simp [Except.toOption]

lemma not_below_self (cs : List Text) : ¬ Below cs cs := fun h => h.2 rfl

/-- Only files at the path itself are taken out. -/
lemma mem_filesComps_without {files : Image} {cs pcs : List Text} (hcs : splitPath (joinRel cs) = .ok cs) :
    (pcs ∈ filesComps (without files cs) → pcs ∈ filesComps files) ∧
    (pcs ∈ filesComps files → pcs = cs ∨ pcs ∈ filesComps (without files cs)) := by
  constructor
  · intro h
    obtain ⟨f, hf, hp⟩ := mem_filesComps.mp h
    exact mem_filesComps.mpr ⟨f, List.mem_of_mem_filter hf, hp⟩
  · intro h
    obtain ⟨f, hf, hp⟩ := mem_filesComps.mp h
    by_cases hpath : f.1 = joinRel cs
    · rw [hpath, hcs] at hp
      exact .inl (Except.ok.inj hp).symm
    · exact .inr (mem_filesComps.mpr ⟨f, List.mem_filter.mpr ⟨hf, by simpa using hpath⟩, hp⟩)

lemma NoConflict.without {files : Image} {cached : List (List Text)} {cs : List Text}
    (hcs : splitPath (joinRel cs) = .ok cs) (h : NoConflict files cached) : NoConflict (without files cs) cached :=
  ⟨fun pcs hp => h.cached pcs ((mem_filesComps_without hcs).1 hp),
    fun pcs hp qcs hq => h.below pcs ((mem_filesComps_without hcs).1 hp) qcs ((mem_filesComps_without hcs).1 hq)⟩

lemma clear_without {files : Image} {cs : List Text} (hcs : splitPath (joinRel cs) = .ok cs) :
    Clear (without files cs) cs ↔ Clear files cs := by
  constructor
  · intro h pcs hp
    obtain rfl | hp := (mem_filesComps_without hcs).2 hp
    · exact ⟨not_below_self _, not_below_self _⟩
    · exact h pcs hp
  · exact fun h pcs hp => h pcs ((mem_filesComps_without hcs).1 hp)

/-- Adding a file keeps the tree exactly when its path is clear and no cached directory. -/
theorem noConflict_cons {files : Image} {cached : List (List Text)} {cs : List Text} {data : Octets}
    (hcs : splitPath (joinRel cs) = .ok cs) (h : NoConflict files cached) :
    NoConflict ((joinRel cs, data) :: files) cached ↔ cs ∉ cached ∧ Clear files cs := by
  have hmem : ∀ pcs, pcs ∈ filesComps ((joinRel cs, data) :: files) ↔ pcs = cs ∨ pcs ∈ filesComps files := by
    intro pcs
    simp [filesComps_cons, hcs, Except.toOption]
  constructor
  · intro hc
    have hself : cs ∈ filesComps ((joinRel cs, data) :: files) := (hmem cs).mpr (.inl rfl)
    refine ⟨hc.cached cs hself, fun pcs hp => ?_⟩
    have hp' := (hmem pcs).mpr (.inr hp)
    exact ⟨hc.below cs hself pcs hp', hc.below pcs hp' cs hself⟩
  · rintro ⟨hcached, hclear⟩
    constructor
    · intro pcs hp
      obtain rfl | hp := (hmem pcs).mp hp
      · exact hcached
      · exact h.cached pcs hp
    · intro pcs hp qcs hq
      obtain hp' | hp' := (hmem pcs).mp hp <;> obtain hq' | hq' := (hmem qcs).mp hq
      · rw [hp', hq']
        exact not_below_self cs
      · rw [hp']
        exact (hclear qcs hq').1
      · rw [hq']
        exact (hclear pcs hp').2
      · exact h.below pcs hp' qcs hq'

/-- The image of these files is accepted and fits on the device. -/
def Fits (d : Disk) (files : Image) : Prop :=
  ∃ img, encodeImage files = .ok img ∧ blocksFor img.length ≤ d.blkBlocks

theorem loadFiles_spelled {d : Disk} {files : Image} (h : loadFiles d = .ok files) : files.Spelled := by
  have hcap : 0 < d.blkBlocks := by
    by_contra hzero
    simp [loadFiles, bdRead, hzero, bind, Except.bind] at h
  rw [loadFiles_eq hcap] at h
  split_ifs at h with hz
  · obtain rfl : [] = files := Except.ok.inj h
    simp [Image.Spelled]
  · obtain ⟨total, -, hdec⟩ := bind_ok.mp h
    unfold decoded at hdec
    split_ifs at hdec
    cases himg : decodeImage (imageOf d.block total) with
    | error e => simp [himg, badImage] at hdec
    | ok fs =>
      obtain rfl : fs = files := by simpa [himg, badImage] using hdec
      exact decodeImage_spelled himg

/-- On a device whose writes succeed, a store either fits and is what the next load returns, or
changes nothing. -/
theorem storeFiles_cases {d : Disk} (hfail : d.failAt = none) {files : Image} (hspelled : files.Spelled) :
    (Fits d files ∧ ∃ d', storeFiles d files = (.ok (), d') ∧ d'.failAt = none ∧ loadFiles d' = .ok files) ∨
    (¬ Fits d files ∧ ∃ e, storeFiles d files = (.error e, d)) := by
  by_cases hfits : Fits d files
  · obtain ⟨img, henc, hcap⟩ := hfits
    obtain ⟨d', hstore, -, hwrote⟩ := storeFiles_fits (by simp [hfail]) henc hcap
    obtain ⟨img', hholds⟩ := storeFiles_ok hstore
    refine .inl ⟨⟨img, henc, hcap⟩, d', hstore, by simp [hwrote, Disk.wrote, hfail], ?_⟩
    rw [hholds.load, (decodeImage_encodeImage_iff hholds.encoded).mpr hspelled]
    rfl
  · refine .inr ⟨hfits, ?_⟩
    unfold storeFiles
    cases henc : encodeImage files with
    | error e => exact ⟨_, rfl⟩
    | ok img =>
      have hcap : ¬ blocksFor img.length ≤ d.blkBlocks := fun h => hfits ⟨img, henc, h⟩
      exact ⟨.einval "capacity", if_pos (.inl (by omega))⟩

inductive BlkCall where
  | create (path : Text)
  | write (path : Text) (content : Octets)
  | mkdir (path : Text)
  | rm (path : Text)
  | ls (path : Text)
  | load
  deriving DecidableEq, Repr

def BlkCall.path : BlkCall → Text
  | .create path => path
  | .write path _ => path
  | .mkdir path => path
  | .rm path => path
  | .ls path => path
  | .load => []

/-- The slot after a call, whatever the call answers. -/
def blkStep (s : BlkSlot) : BlkCall → Option BlkSlot
  | .create path => some (blkCreate s path).2
  | .write path content => some (blkWrite s path content).2
  | .mkdir path => some (blkMkdir s path).2
  | .rm path => some (blkRm s path).2
  | .ls _ => some s
  | .load => some s

/-- The files that a load returns and the cached directories form a tree. -/
def BlkSlot.Tree (s : BlkSlot) : Prop := ∀ files, loadFiles s.disk = .ok files → NoConflict files s.dirs

/-- The writes of the device succeed, and its image loads. -/
def BlkSlot.Works (s : BlkSlot) : Prop := s.disk.failAt = none ∧ ∃ files, loadFiles s.disk = .ok files

/-- Every character of the path fits into one byte and is not NUL. -/
def BlkCall.Spelled (c : BlkCall) : Prop := ∀ x ∈ c.path, 0 < x.val ∧ x.val < 256

/-- `check` lets a call on the path through, down to these components. -/
def Admitted (s : BlkSlot) (path : Text) (check : Image → List (List Text) → List Text → Except FsError Unit)
    (files : Image) (cs : List Text) : Prop :=
  splitPath path = .ok cs ∧ cs ≠ [] ∧ loadFiles s.disk = .ok files ∧ check files s.dirs cs = .ok ()

/-- A file list that the call stores, or a directory that it caches, keeps the tree. -/
def KeepsTree (s : BlkSlot) : BlkCall → Prop
  | .create path => ∀ files cs, Admitted s path checkNew files cs →
      Fits s.disk ((joinRel cs, []) :: files) → cs ∉ s.dirs ∧ Clear files cs
  | .write path content => ∀ files cs, Admitted s path checkWrite files cs →
      Fits s.disk ((joinRel cs, content) :: without files cs) → cs ∉ s.dirs ∧ Clear files cs
  | .mkdir path => ∀ files cs, Admitted s path checkNew files cs → cs ∉ filesComps files
  | _ => True

/-- The path of a removal has no file below it. -/
def RemovesLeaf (s : BlkSlot) : BlkCall → Prop
  | .rm path => ∀ files cs, splitPath path = .ok cs → loadFiles s.disk = .ok files →
      ∀ pcs ∈ filesComps files, ¬ Below cs pcs
  | _ => True

/-- The removal of a path that has files below it is refused and changes nothing. -/
def KeepsNonEmpty (s : BlkSlot) : BlkCall → Prop
  | .rm path => ∀ files cs, splitPath path = .ok cs → loadFiles s.disk = .ok files →
      (∃ pcs ∈ filesComps files, Below cs pcs) → blkRm s path = (.error notEmpty, s)
  | _ => True

/-- A call is turned away before it changes anything, or it acts on what the load returned. -/
theorem withFiles_cases {s : BlkSlot} (hw : s.Works) (path : Text) (root : FsError)
    (check : Image → List (List Text) → List Text → Except FsError Unit)
    (act : Image → List Text → Except FsError Unit × BlkSlot) :
    (∃ e, withFiles s path root check act = (.error e, s) ∧ ∀ files cs, ¬ Admitted s path check files cs) ∨
    ∃ files cs, Admitted s path check files cs ∧ withFiles s path root check act = act files cs := by
  obtain ⟨-, files, hload⟩ := hw
  unfold withFiles
  cases hsplit : splitPath path with
  | error e => exact .inl ⟨e, rfl, fun files cs h => by simp [Admitted, hsplit] at h⟩
  | ok cs =>
    cases cs with
    | nil =>
      refine .inl ⟨root, rfl, fun files cs h => ?_⟩
      obtain ⟨hcs, hne, -, -⟩ := h
      rw [hsplit] at hcs
      exact hne (Except.ok.inj hcs).symm
    | cons c cs =>
      simp only [hload]
      cases hcheck : check files s.dirs (c :: cs) with
      | error e =>
        refine .inl ⟨e, rfl, fun files' cs' h => ?_⟩
        obtain ⟨hcs, -, hfiles, hok⟩ := h
        rw [hsplit, Except.ok.injEq] at hcs
        rw [hload, Except.ok.injEq] at hfiles
        rw [← hcs, ← hfiles, hcheck] at hok
        cases hok
      | ok u => exact .inr ⟨files, c :: cs, ⟨hsplit, by simp, hload, hcheck⟩, rfl⟩

lemma Admitted.unique {s : BlkSlot} {path : Text}
    {check : Image → List (List Text) → List Text → Except FsError Unit} {files files' : Image} {cs cs' : List Text}
    (h : Admitted s path check files cs) (h' : Admitted s path check files' cs') : files' = files ∧ cs' = cs := by
  obtain ⟨hcs, -, hfiles, -⟩ := h
  obtain ⟨hcs', -, hfiles', -⟩ := h'
  exact ⟨Except.ok.inj (hfiles'.symm.trans hfiles), Except.ok.inj (hcs'.symm.trans hcs)⟩

/-- The path that is stored is spelled in the characters of the path that was given. -/
lemma joinRel_spelled {path : Text} {cs : List Text} (hcs : splitPath path = .ok cs)
    (h : ∀ x ∈ path, 0 < x.val ∧ x.val < 256) : ∀ x ∈ joinRel cs, 0 < x.val ∧ x.val < 256 := by
  intro x hx
  obtain rfl | ⟨c, hc, hxc⟩ := mem_joinRel hx
  · decide
  · exact h x ((splitPath_ok hcs c hc).2 hxc)

lemma splitPath_joinRel_self {path : Text} {cs : List Text} (hcs : splitPath path = .ok cs) :
    splitPath (joinRel cs) = .ok cs := splitPath_joinRel fun c hc => (splitPath_ok hcs c hc).1

lemma spelled_cons {f : Text × Octets} {files : Image} (hf : ∀ x ∈ f.1, 0 < x.val ∧ x.val < 256)
    (h : files.Spelled) : Image.Spelled (f :: files) := List.forall_mem_cons.mpr ⟨hf, h⟩

lemma spelled_without {files : Image} (cs : List Text) (h : files.Spelled) : (without files cs).Spelled :=
  fun f hf => h f (List.mem_of_mem_filter hf)

/-- A store of a slot that works: the new list is loaded from then on, or nothing has changed. -/
theorem store_step {s : BlkSlot} (hw : s.Works) {files : Image} (hspelled : files.Spelled) :
    (s.store files).2.Works ∧ (s.store files).2.dirs = s.dirs ∧
      ((Fits s.disk files ∧ loadFiles (s.store files).2.disk = .ok files) ∨
        (¬ Fits s.disk files ∧ (s.store files).2 = s)) := by
  obtain ⟨hfits, d', hstore, hfail, hload⟩ | ⟨hfits, e, hstore⟩ := storeFiles_cases hw.1 hspelled
  · have ht : (s.store files).2 = { s with disk := d' } := by rw [BlkSlot.store, hstore]
    rw [ht]
    exact ⟨⟨hfail, files, hload⟩, rfl, .inl ⟨hfits, hload⟩⟩
  · have ht : (s.store files).2 = s := by rw [BlkSlot.store, hstore]
    rw [ht]
    exact ⟨hw, rfl, .inr ⟨hfits, rfl⟩⟩

/-- A call leaves the slot working when its action does. -/
lemma withFiles_works {s : BlkSlot} {path : Text} {root : FsError}
    {check : Image → List (List Text) → List Text → Except FsError Unit}
    {act : Image → List Text → Except FsError Unit × BlkSlot} (hw : s.Works)
    (hact : ∀ files cs, Admitted s path check files cs → (act files cs).2.Works) :
    (withFiles s path root check act).2.Works := by
  obtain ⟨e, heq, -⟩ | ⟨files, cs, hadm, heq⟩ := withFiles_cases hw path root check act
  · rw [heq]
    exact hw
  · rw [heq]
    exact hact files cs hadm

lemma rememberDir_disk (s : BlkSlot) (cs : List Text) : (rememberDir s cs).disk = s.disk := by
  unfold rememberDir
  split_ifs <;> rfl

lemma mem_rememberDir {s : BlkSlot} {cs pcs : List Text} :
    pcs ∈ (rememberDir s cs).dirs ↔ pcs = cs ∨ pcs ∈ s.dirs := by
  unfold rememberDir
  split_ifs with hmem
  · exact ⟨.inr, fun h => h.elim (fun he => he ▸ hmem) id⟩
  · exact List.mem_cons

theorem blkStep_works {s t : BlkSlot} {c : BlkCall} (hspelled : c.Spelled) (hw : s.Works)
    (h : blkStep s c = some t) : t.Works := by
  cases c with
  | create path =>
    obtain rfl := Option.some.inj h
    refine withFiles_works hw fun files cs hadm => (store_step hw ?_).1
    exact spelled_cons (joinRel_spelled hadm.1 hspelled) (loadFiles_spelled hadm.2.2.1)
  | write path content =>
    obtain rfl := Option.some.inj h
    refine withFiles_works hw fun files cs hadm => (store_step hw ?_).1
    exact spelled_cons (joinRel_spelled hadm.1 hspelled) (spelled_without cs (loadFiles_spelled hadm.2.2.1))
  | mkdir path =>
    obtain rfl := Option.some.inj h
    refine withFiles_works hw fun files cs _ => ?_
    simp only [BlkSlot.Works, rememberDir_disk]
    exact hw
  | rm path =>
    obtain rfl := Option.some.inj h
    refine withFiles_works hw fun files cs hadm => ?_
    rw [rmEntry]
    split_ifs
    · exact (store_step hw (spelled_without cs (loadFiles_spelled hadm.2.2.1))).1
    · exact hw
    · exact hw
    · exact hw
  | ls path =>
    obtain rfl := Option.some.inj h
    exact hw
  | load =>
    obtain rfl := Option.some.inj h
    exact hw

/-- A tree that is read off the files a load returns. -/
lemma tree_iff_of_load {s : BlkSlot} {files : Image} (h : loadFiles s.disk = .ok files) :
    s.Tree ↔ NoConflict files s.dirs := by
  constructor
  · exact fun ht => ht files h
  · intro hn files' h'
    obtain rfl := Except.ok.inj (h'.symm.trans h)
    exact hn

/-- Storing one more file at an admitted path. -/
theorem addFile_tree {s : BlkSlot} (hw : s.Works) (ht : s.Tree) {path : Text} {root : FsError} {data : Octets}
    {check : Image → List (List Text) → List Text → Except FsError Unit} (rest : Image → List Text → Image)
    (hspelled : ∀ x ∈ path, 0 < x.val ∧ x.val < 256)
    (hrest : ∀ files cs, files.Spelled → (rest files cs).Spelled)
    (htree : ∀ files cs, splitPath (joinRel cs) = .ok cs → NoConflict files s.dirs → NoConflict (rest files cs) s.dirs ∧
      (Clear (rest files cs) cs ↔ Clear files cs)) :
    (withFiles s path root check fun files cs => s.store ((joinRel cs, data) :: rest files cs)).2.Tree ↔
      ∀ files cs, Admitted s path check files cs → Fits s.disk ((joinRel cs, data) :: rest files cs) →
        cs ∉ s.dirs ∧ Clear files cs := by
  obtain ⟨e, heq, hno⟩ | ⟨files, cs, hadm, heq⟩ := withFiles_cases hw path root check
    fun files cs => s.store ((joinRel cs, data) :: rest files cs)
  · rw [heq]
    exact ⟨fun _ files cs hadm => absurd hadm (hno files cs), fun _ => ht⟩
  · rw [heq]
    obtain ⟨hsplit, -, hload, -⟩ := id hadm
    have hself := splitPath_joinRel_self hsplit
    have hsp : Image.Spelled ((joinRel cs, data) :: rest files cs) :=
      spelled_cons (joinRel_spelled hsplit hspelled) (hrest files cs (loadFiles_spelled hload))
    obtain ⟨hnc, hclear⟩ := htree files cs hself (ht files hload)
    obtain ⟨-, hdirs, ⟨hfits, hload'⟩ | ⟨hfits, hsame⟩⟩ := store_step hw hsp
    · rw [tree_iff_of_load hload', hdirs, noConflict_cons hself hnc, hclear]
      constructor
      · intro h files' cs' hadm' _
        obtain ⟨rfl, rfl⟩ := hadm.unique hadm'
        exact h
      · exact fun h => h files cs hadm hfits
    · rw [hsame]
      refine ⟨fun _ files' cs' hadm' hfits' => ?_, fun _ => ht⟩
      obtain ⟨rfl, rfl⟩ := hadm.unique hadm'
      exact absurd hfits' hfits

/-- Caching a directory keeps the tree exactly when no file has its path. -/
theorem mkdir_tree {s : BlkSlot} (hw : s.Works) (ht : s.Tree) (path : Text) :
    (blkMkdir s path).2.Tree ↔ KeepsTree s (.mkdir path) := by
  obtain ⟨e, heq, hno⟩ | ⟨files, cs, hadm, heq⟩ := withFiles_cases hw path .eexist checkNew
    fun _ cs => (.ok (), rememberDir s cs)
  · rw [blkMkdir, heq]
    exact ⟨fun _ files cs hadm => absurd hadm (hno files cs), fun _ => ht⟩
  · have hload : loadFiles s.disk = .ok files := hadm.2.2.1
    have hload' : loadFiles (rememberDir s cs).disk = .ok files := by rw [rememberDir_disk, hload]
    have hnc := ht files hload
    rw [blkMkdir, heq, tree_iff_of_load hload']
    constructor
    · intro h files' cs' hadm' hmem
      obtain ⟨rfl, rfl⟩ := hadm.unique hadm'
      exact h.cached _ hmem (mem_rememberDir.mpr (.inl rfl))
    · intro h
      refine ⟨fun pcs hp hmem => ?_, hnc.below⟩
      obtain rfl | hmem := mem_rememberDir.mp hmem
      · exact h files _ hadm hp
      · exact hnc.cached pcs hp hmem

/-- A removal always keeps the tree. -/
theorem rm_tree {s : BlkSlot} (hw : s.Works) (ht : s.Tree) (path : Text) : (blkRm s path).2.Tree := by
  obtain ⟨e, heq, -⟩ | ⟨files, cs, hadm, heq⟩ := withFiles_cases hw path
    (.einval "cannot remove root") (fun _ _ _ => .ok ()) fun files cs => rmEntry s files cs
  · rw [blkRm, heq]
    exact ht
  · obtain ⟨hsplit, -, hload, -⟩ := hadm
    have hnc := ht files hload
    rw [blkRm, heq, rmEntry]
    split_ifs
    · obtain ⟨-, hdirs, ⟨-, hload'⟩ | ⟨-, hsame⟩⟩ :=
        store_step hw (spelled_without cs (loadFiles_spelled hload))
      · rw [tree_iff_of_load hload', hdirs]
        exact hnc.without (splitPath_joinRel_self hsplit)
      · rw [hsame]
        exact ht
    · exact ht
    · intro files' hload'
      have hnc' := ht files' hload'
      exact ⟨fun pcs hp hmem => hnc'.cached pcs hp (List.mem_of_mem_filter hmem), hnc'.below⟩
    · exact ht

/-- One call keeps the tree exactly under its condition. -/
theorem blkStep_tree {s t : BlkSlot} {c : BlkCall} (hspelled : c.Spelled) (hw : s.Works) (ht : s.Tree)
    (h : blkStep s c = some t) : t.Tree ↔ KeepsTree s c := by
  cases c with
  | create path =>
    obtain rfl := Option.some.inj h
    exact addFile_tree hw ht (fun files _ => files) hspelled (fun _ _ hs => hs)
      fun _ _ _ hn => ⟨hn, Iff.rfl⟩
  | write path content =>
    obtain rfl := Option.some.inj h
    exact addFile_tree hw ht without hspelled (fun _ cs hs => spelled_without cs hs)
      fun _ _ hcs hn => ⟨hn.without hcs, clear_without hcs⟩
  | mkdir path =>
    obtain rfl := Option.some.inj h
    exact mkdir_tree hw ht path
  | rm path =>
    obtain rfl := Option.some.inj h
    exact ⟨fun _ => trivial, fun _ => rm_tree hw ht path⟩
  | ls path =>
    obtain rfl := Option.some.inj h
    exact ⟨fun _ => trivial, fun _ => ht⟩
  | load =>
    obtain rfl := Option.some.inj h
    exact ⟨fun _ => trivial, fun _ => ht⟩

/-- `rm` never finds that a directory below the root is not empty. -/
lemma not_isStrictPrefixOf {cs : List Text} (hne : cs ≠ []) (pcs : List Text) : isStrictPrefixOf cs pcs = false := by
  cases cs with
  | nil => exact absurd rfl hne
  | cons c cs => rfl

lemma encodeImage_error {files : Image} {e : String} (h : encodeImage files = .error e) :
    e = "too many files" ∨ e = "bad path" ∨ e = "file too large" ∨ e = "image too large" := by
  unfold encodeImage at h
  split_ifs at h
  · exact .inl (Except.error.inj h).symm
  · exact .inr (.inl (Except.error.inj h).symm)
  · exact .inr (.inr (.inl (Except.error.inj h).symm))
  · dsimp only at h
    split_ifs at h
    exact .inr (.inr (.inr (Except.error.inj h).symm))

/-- A store has other reasons to fail. -/
lemma store_ne_notEmpty {s : BlkSlot} (hw : s.Works) (files : Image) : (s.store files).1 ≠ .error notEmpty := by
  rw [BlkSlot.store, storeFiles]
  cases henc : encodeImage files with
  | error e =>
    obtain rfl | rfl | rfl | rfl := encodeImage_error henc <;> simp [notEmpty]
  | ok img =>
    by_cases hneed : s.disk.blkBlocks < blocksFor img.length ∨ blocksFor img.length = 0
    · simp [hneed, notEmpty]
    · simp only [if_neg hneed]
      rw [writeImage_ok (by simp [hw.1]) (encodeImage_ne_nil henc) (by omega)]
      simp

/-- The removal of a path with files below it is never refused as not empty. -/
theorem blkRm_ne_notEmpty {s : BlkSlot} (hw : s.Works) {path : Text} {cs : List Text} {files : Image}
    (hsplit : splitPath path = .ok cs) (hload : loadFiles s.disk = .ok files) :
    (blkRm s path).1 ≠ .error notEmpty := by
  unfold blkRm withFiles
  cases cs with
  | nil => simp [hsplit, notEmpty]
  | cons c cs =>
    have hkids : (filesComps files).any (isStrictPrefixOf (c :: cs)) = false := by
      simp [not_isStrictPrefixOf (List.cons_ne_nil c cs)]
    simp only [hsplit, hload, rmEntry, hkids, Bool.false_eq_true, if_false]
    split_ifs
    · exact store_ne_notEmpty hw _
    · simp
    · simp [notEmpty]

theorem keepsNonEmpty_iff {s : BlkSlot} (hw : s.Works) (c : BlkCall) : KeepsNonEmpty s c ↔ RemovesLeaf s c := by
  cases c with
  | rm path =>
    constructor
    · intro h files cs hsplit hload pcs hp hbelow
      have hrefused := h files cs hsplit hload ⟨pcs, hp, hbelow⟩
      exact blkRm_ne_notEmpty hw hsplit hload (by rw [hrefused])
    · rintro h files cs hsplit hload ⟨pcs, hp, hbelow⟩
      exact absurd hbelow (h files cs hsplit hload pcs hp)
  | _ => exact Iff.rfl

/-- From a loaded file list without conflicts, a sequence of calls keeps the tree in every state
and refuses every removal of a path with files below it, exactly when no call stores a file at a
directory or below a file, none caches a directory at a file, and none removes such a path. -/
theorem blk_tree_iff {s₀ t : BlkSlot} {calls : List BlkCall} {files : Image} (hfail : s₀.disk.failAt = none)
    (hload : loadFiles s₀.disk = .ok files) (htree : NoConflict files s₀.dirs) (hspelled : ∀ c ∈ calls, c.Spelled)
    (hrun : run blkStep s₀ calls = some t) :
    (Throughout blkStep BlkSlot.Tree s₀ calls ∧ Along blkStep KeepsNonEmpty s₀ calls) ↔
      Along blkStep (fun s c => KeepsTree s c ∧ RemovesLeaf s c) s₀ calls := by
  have hw : s₀.Works := ⟨hfail, files, hload⟩
  have hrm := along_congr (fun _ _ _ hc hs hstep => blkStep_works hc hs hstep)
    (fun _ c _ hs => keepsNonEmpty_iff hs c) hspelled hw
  have htree' := throughout_iff_along (fun _ _ _ hc hs hstep => blkStep_works hc hs hstep)
    (fun _ _ _ hc hs ht hstep => blkStep_tree hc hs ht hstep) hspelled hw ((tree_iff_of_load hload).mpr htree) hrun
  rw [along_and, htree', hrm]

/-- A device of zeros and nothing cached. -/
def freshSlot : BlkSlot := ⟨zeroDisk, []⟩

lemma freshSlot_load : loadFiles freshSlot.disk = .ok [] := by decide +kernel

/-- A file is written over a cached directory; and a directory is removed with a file in it. -/
theorem blk_tree_broken :
    loadFiles freshSlot.disk = .ok [] ∧
    (∃ t, run blkStep freshSlot [.mkdir (text "/d"), .write (text "/d") [7]] = some t ∧ ¬ t.Tree) ∧
    ∃ t, run blkStep freshSlot [.mkdir (text "/d"), .write (text "/d/f") [7]] = some t ∧
      ¬ KeepsNonEmpty t (.rm (text "/d")) := by
  refine ⟨freshSlot_load, ⟨_, rfl, fun htree => ?_⟩, _, rfl, fun hkeeps => ?_⟩
  · have hload : loadFiles (blkWrite (blkMkdir freshSlot (text "/d")).2 (text "/d") [7]).2.disk =
        .ok [(text "/d", [7])] := by decide +kernel
    have hdirs : (blkWrite (blkMkdir freshSlot (text "/d")).2 (text "/d") [7]).2.dirs = [[text "d"]] := by
      decide +kernel
    have hfile : [text "d"] ∈ filesComps [(text "/d", [7])] := by decide
    exact (htree _ hload).cached _ hfile (by rw [hdirs]; exact List.mem_singleton.mpr rfl)
  · have hload : loadFiles (blkWrite (blkMkdir freshSlot (text "/d")).2 (text "/d/f") [7]).2.disk =
        .ok [(text "/d/f", [7])] := by decide +kernel
    have hrm : (blkRm (blkWrite (blkMkdir freshSlot (text "/d")).2 (text "/d/f") [7]).2 (text "/d")).1 =
        .ok () := by decide +kernel
    have hfile : [text "d", text "f"] ∈ filesComps [(text "/d/f", [7])] := by decide
    have hrefused := hkeeps _ [text "d"] (by rfl) hload ⟨_, hfile, by decide, by decide⟩
    rw [hrefused] at hrm
    cases hrm

/-- A file is created and removed again. -/
theorem blk_tree_create_rm :
    ∃ t, run blkStep freshSlot [.create (text "/g"), .rm (text "/g")] = some t ∧
      Throughout blkStep BlkSlot.Tree freshSlot [.create (text "/g"), .rm (text "/g")] ∧
      Along blkStep KeepsNonEmpty freshSlot [.create (text "/g"), .rm (text "/g")] := by
  have hspelled : ∀ c ∈ [BlkCall.create (text "/g"), .rm (text "/g")], c.Spelled := by
    intro c hc
    rw [List.mem_cons, List.mem_singleton] at hc
    obtain rfl | rfl := hc <;> exact forall_of_all (by decide)
  have hempty : NoConflict [] freshSlot.dirs := ⟨by simp [filesComps], by simp [filesComps]⟩
  have hload : loadFiles (blkCreate freshSlot (text "/g")).2.disk = .ok [(text "/g", [])] := by decide +kernel
  have hfiles : filesComps [(text "/g", [])] = [[text "g"]] := by rfl
  have hsplit : splitPath (text "/g") = .ok [text "g"] := by rfl
  refine ⟨_, rfl, (blk_tree_iff rfl freshSlot_load hempty hspelled rfl).mpr ⟨⟨?_, trivial⟩, fun t ht => ?_⟩⟩
  · intro files cs hadm _
    obtain rfl : files = [] := Except.ok.inj (hadm.2.2.1.symm.trans freshSlot_load)
    exact ⟨by simp [freshSlot], by simp [Clear, filesComps]⟩
  · obtain rfl := Option.some.inj ht
    refine ⟨⟨trivial, fun files cs hcs hload' pcs hp hbelow => ?_⟩, fun _ _ => trivial⟩
    obtain rfl := Except.ok.inj (hload'.symm.trans hload)
    obtain rfl := Except.ok.inj (hcs.symm.trans hsplit)
    rw [hfiles, List.mem_singleton] at hp
    exact not_below_self _ (hp ▸ hbelow)

end HouseKernel.FileSystem
