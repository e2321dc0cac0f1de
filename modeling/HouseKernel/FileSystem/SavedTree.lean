import HouseKernel.FileSystem.Image
import HouseKernel.FileSystem.RamVfs

/-! Saving the RAM file system: a walk with a stack of directories lists, stats and reads every path. It
meets every regular file once. -/
namespace HouseKernel.FileSystem.RamFs

open HouseKernel.Lib

section walk

variable (r : Registry Unit) (ns : ℕ)

/-- The path of an entry of a directory. -/
def entryPath (dir n : Text) : Text := if dir = [slash] then slash :: n else dir ++ slash :: n

/-- The files among these entries of a directory, with their content, and the directories. -/
def walkNames (s : SoundRam) (dir : Text) : List Text → Except FsError (Image × List Text)
  | [] => .ok ([], [])
  | n :: names =>
    match vfsStat r ns (entryPath dir n) s with
    | .error e => .error e
    | .ok st =>
      if st.isDir then
        match walkNames s dir names with
        | .error e => .error e
        | .ok (fs, ds) => .ok (fs, entryPath dir n :: ds)
      else
        match vfsRead r ns (entryPath dir n) s with
        | .error e => .error e
        | .ok bs =>
          match walkNames s dir names with
          | .error e => .error e
          | .ok (fs, ds) => .ok ((entryPath dir n, bs) :: fs, ds)

/-- The loop over the stack of directories, with a bound on its rounds. -/
def collectVfs (s : SoundRam) : ℕ → List Text → Image → Except FsError Image
  | _, [], acc => .ok acc
  | 0, _ :: _, _ => .error (.einval "rounds")
  | k + 1, dir :: stack, acc =>
    match vfsLs r ns dir s with
    | .error e => .error e
    | .ok names =>
      match walkNames r ns s dir names with
      | .error e => .error e
      | .ok (files, dirs) => collectVfs s k (dirs ++ stack) (acc ++ files)

end walk

mutual

/-- The number of directories. -/
def countDirs : Node → ℕ
  | .file _ _ _ => 0
  | .dir kids => countDirsIn kids + 1

def countDirsIn : List (Text × Node) → ℕ
  | [] => 0
  | (_, n) :: kids => countDirs n + countDirsIn kids

end

mutual

/-- The files below a path, with their content. -/
def entries (mem : ℕ → Octets) : List Text → Node → List (List Text × Octets)
  | cs, .file ps size _ => [(cs, readBytesFromPages mem ps size)]
  | cs, .dir kids => entriesIn mem cs kids

def entriesIn (mem : ℕ → Octets) : List Text → List (Text × Node) → List (List Text × Octets)
  | _, [] => []
  | cs, (c, n) :: kids => entries mem (cs ++ [c]) n ++ entriesIn mem cs kids

end

theorem KidsProper.lookup_of_mem {kids : List (Text × Node)} (h : KidsProper kids) {kid : Text × Node} (hkid : kid ∈ kids) :
    lookupKid kid.1 kids = some kid.2 := by
  induction kids with
  | nil => cases hkid
  | cons k kids ih =>
    obtain ⟨-, hnone, -, hkids⟩ := h
    obtain rfl | hkid := List.mem_cons.mp hkid
    · exact if_pos rfl
    · have hlook := ih hkids hkid
      have hne : k.1 ≠ kid.1 := by
        intro heq
        rw [heq, hlook] at hnone
        cases hnone
      rw [lookupKid, if_neg hne, hlook]

variable {mem : ℕ → Octets}

theorem look_dir_cons (kids : List (Text × Node)) (c : Text) (ds : List Text) :
    look mem (.dir kids) (c :: ds) = (lookupKid c kids).bind fun n => look mem n ds := by
  rw [look, resolve]
  cases lookupKid c kids <;> rfl

mutual

/-- The entries of a tree are the files that its paths show. -/
theorem mem_entries : ∀ {cs : List Text} {n : Node}, n.Proper → ∀ {q : List Text} {bs : Octets},
    ((q, bs) ∈ entries mem cs n ↔ ∃ ds, q = cs ++ ds ∧ look mem n ds = some (.file bs))
  | cs, .file ps size mtime, _, q, bs => by
    rw [entries, List.mem_singleton, Prod.mk.injEq]
    constructor
    · rintro ⟨rfl, rfl⟩
      exact ⟨[], (List.append_nil q).symm, rfl⟩
    · rintro ⟨ds, rfl, hlook⟩
      cases ds with
      | nil => exact ⟨List.append_nil cs, (Obj.file.inj (Option.some.inj hlook)).symm⟩
      | cons d ds => cases hlook
  | cs, .dir kids, h, q, bs => by
    rw [entries, mem_entriesIn h]
    constructor
    · rintro ⟨c, ds, rfl, hlook⟩
      exact ⟨c :: ds, rfl, by rw [look_dir_cons, hlook]⟩
    · rintro ⟨ds, rfl, hlook⟩
      cases ds with
      | nil => cases hlook
      | cons c ds => exact ⟨c, ds, rfl, by rw [← look_dir_cons, hlook]⟩

theorem mem_entriesIn : ∀ {cs : List Text} {kids : List (Text × Node)}, KidsProper kids → ∀ {q : List Text} {bs : Octets},
    ((q, bs) ∈ entriesIn mem cs kids ↔
      ∃ c ds, q = cs ++ c :: ds ∧ ((lookupKid c kids).bind fun n => look mem n ds) = some (.file bs))
  | cs, [], _, q, bs => by simp [entriesIn, lookupKid]
  | cs, (c, n) :: kids, ⟨_, hnone, hn, hkids⟩, q, bs => by
    rw [entriesIn, List.mem_append, mem_entries hn, mem_entriesIn hkids]
    constructor
    · rintro (⟨ds, rfl, hlook⟩ | ⟨d, ds, rfl, hlook⟩)
      · refine ⟨c, ds, by rw [List.append_assoc, List.singleton_append], ?_⟩
        rw [lookupKid, if_pos rfl]
        exact hlook
      · have hne : c ≠ d := by
          rintro rfl
          rw [hnone] at hlook
          cases hlook
        exact ⟨d, ds, rfl, by rw [lookupKid, if_neg hne, hlook]⟩
    · rintro ⟨d, ds, rfl, hlook⟩
      rw [lookupKid] at hlook
      split_ifs at hlook with heq
      · exact .inl ⟨ds, by rw [← heq, List.append_assoc, List.singleton_append], hlook⟩
      · exact .inr ⟨d, ds, rfl, hlook⟩

end

mutual

/-- The entries of a tree need the pages that it owns. -/
theorem blocks_entries : ∀ {cs : List Text} {n : Node}, (∀ f ∈ files n, Sized f) →
    (∀ p ∈ collectPages n, (mem p).length = 4096) →
    ((entries mem cs n).map fun e => blocks e.2.length).sum = (collectPages n).length
  | cs, .file ps size mtime, hsized, hfull => by
    have hlen : ps.length = blocks size := hsized (ps, size) (List.mem_singleton.mpr rfl)
    rw [entries, List.map_singleton, List.sum_singleton, length_readBytesFromPages hlen hfull, ← hlen]
    rfl
  | cs, .dir kids, hsized, hfull => blocks_entriesIn hsized hfull

theorem blocks_entriesIn : ∀ {cs : List Text} {kids : List (Text × Node)}, (∀ f ∈ filesIn kids, Sized f) →
    (∀ p ∈ collectPagesIn kids, (mem p).length = 4096) →
    ((entriesIn mem cs kids).map fun e => blocks e.2.length).sum = (collectPagesIn kids).length
  | cs, [], _, _ => rfl
  | cs, (c, n) :: kids, hsized, hfull => by
    rw [filesIn] at hsized
    rw [collectPagesIn] at hfull
    rw [entriesIn, collectPagesIn, List.map_append, List.sum_append, List.length_append,
      blocks_entries (fun f hf => hsized f (List.mem_append_left _ hf)) fun p hp => hfull p (List.mem_append_left _ hp),
      blocks_entriesIn (fun f hf => hsized f (List.mem_append_right _ hf)) fun p hp => hfull p (List.mem_append_right _ hp)]

end

theorem joinWith_concat (sep : Text) {cs : List Text} (hcs : cs ≠ []) (c : Text) :
    joinWith sep (cs ++ [c]) = joinWith sep cs ++ sep ++ c := by
  induction cs with
  | nil => exact absurd rfl hcs
  | cons d cs ih =>
    cases cs with
    | nil => rfl
    | cons e cs =>
      rw [List.cons_append, List.cons_append, joinWith, joinWith, ← List.cons_append, ih (List.cons_ne_nil _ _)]
      simp only [List.append_assoc]

theorem joinRel_ne_slash {cs : List Text} (hcs : cs ≠ []) (hnames : ∀ c ∈ cs, NormalName c) : joinRel cs ≠ [slash] := by
  intro heq
  have hsplit := splitPath_joinRel hnames
  rw [heq] at hsplit
  exact hcs (Except.ok.inj hsplit).symm

theorem entryPath_joinRel {cs : List Text} (hnames : ∀ c ∈ cs, NormalName c) (c : Text) :
    entryPath (joinRel cs) c = joinRel (cs ++ [c]) := by
  rw [entryPath]
  by_cases hcs : cs = []
  · subst hcs
    rfl
  · rw [if_neg (joinRel_ne_slash hcs hnames), joinRel, joinRel, if_neg hcs, if_neg (by simp), joinWith_concat _ hcs,
      List.append_assoc]
    rfl

variable {r : Registry Unit} {ns : ℕ}

section calls

variable {s : SoundRam} {q : List Text} {n : Node}

theorem vfsStat_at (hr : Rooted r ns) (hnames : ∀ c ∈ q, NormalName c) (hq : resolve q s.ram.store.root = some n) :
    ∃ st, vfsStat r ns (joinRel q) s = .ok st ∧ (st.isDir = true ↔ ∃ kids, n = .dir kids) := by
  rw [vfsStat, vfsLookup_rooted hr, splitPath_joinRel hnames]
  change ∃ st, s.ram.opsStat (joinRel q) = .ok st ∧ _
  rw [Ram.opsStat, splitPath_joinRel hnames]
  simp only [hq]
  cases n with
  | file ps size mtime => exact ⟨_, rfl, by simp⟩
  | dir kids => exact ⟨_, rfl, by simp⟩

theorem vfsRead_at (hr : Rooted r ns) (hnames : ∀ c ∈ q, NormalName c) {ps : List ℕ} {size mtime : ℕ}
    (hq : resolve q s.ram.store.root = some (.file ps size mtime)) :
    vfsRead r ns (joinRel q) s = .ok (readBytesFromPages s.ram.mem ps size) := by
  rw [vfsRead, vfsLookup_rooted hr, splitPath_joinRel hnames]
  change s.ram.opsRead (joinRel q) = _
  rw [Ram.opsRead_eq, splitPath_joinRel hnames]
  change s.ram.abs.read q = _
  simp only [Fs.read, Ram.abs, look, hq, Option.map_some, objOf]

theorem vfsLs_at (hr : Rooted r ns) (hnames : ∀ c ∈ q, NormalName c) {kids : List (Text × Node)}
    (hq : resolve q s.ram.store.root = some (.dir kids)) :
    vfsLs r ns (joinRel q) s = .ok ((kids.map Prod.fst).insertionSort (· ≤ ·)) := by
  rw [vfsLs, vfsLookup_rooted hr, splitPath_joinRel hnames]
  change s.ram.opsLs (joinRel q) = _
  rw [Ram.opsLs, splitPath_joinRel hnames]
  simp only [hq]

end calls

/-- A value of the node at a path, nothing where there is none. -/
def atPath {M : Type*} [Zero M] (root : Node) (F : List Text → Node → M) (q : List Text) : M :=
  match resolve q root with
  | none => 0
  | some n => F q n

theorem resolve_kid {root : Node} {q : List Text} {kids : List (Text × Node)} (hq : resolve q root = some (.dir kids))
    (c : Text) : resolve (q ++ [c]) root = lookupKid c kids := by
  rw [resolve_append, hq, Option.bind_some, resolve]
  cases lookupKid c kids <;> rfl

/-- The entries of a directory in any order. -/
theorem sum_kids {M : Type*} [AddCommMonoid M] {root : Node} (F : List Text → Node → M) {q : List Text}
    {kids : List (Text × Node)} (hq : resolve q root = some (.dir kids)) (hkids : KidsProper kids) {names : List Text}
    (hnames : names.Perm (kids.map Prod.fst)) :
    (names.map fun c => atPath root F (q ++ [c])).sum = (kids.map fun k => F (q ++ [k.1]) k.2).sum := by
  rw [(hnames.map _).sum_eq, List.map_map]
  congr 1
  refine List.map_congr_left fun k hk => ?_
  rw [Function.comp_apply, atPath, resolve_kid hq, hkids.lookup_of_mem hk]

/-- The files below a path of the tree, by their names on the disk. -/
def savedAt (s : SoundRam) : List Text → Multiset (Text × Octets) :=
  atPath s.ram.store.root fun q n => ((entries s.ram.mem q n).map fun e => (joinRel e.1, e.2) : List (Text × Octets))

def roundsAt (s : SoundRam) : List Text → ℕ := atPath s.ram.store.root fun _ n => countDirs n

theorem entriesIn_eq (mem : ℕ → Octets) (q : List Text) (kids : List (Text × Node)) :
    entriesIn mem q kids = kids.flatMap fun k => entries mem (q ++ [k.1]) k.2 := by
  induction kids with
  | nil => rfl
  | cons k kids ih => rw [entriesIn, ih, List.flatMap_cons]

theorem countDirsIn_eq (kids : List (Text × Node)) : countDirsIn kids = (kids.map fun k => countDirs k.2).sum := by
  induction kids with
  | nil => rfl
  | cons k kids ih => rw [countDirsIn, ih, List.map_cons, List.sum_cons]

theorem coe_flatMap {α β : Type*} (f : α → List β) (l : List α) :
    (↑(l.flatMap f) : Multiset β) = (l.map fun a => (↑(f a) : Multiset β)).sum := by
  induction l with
  | nil => rfl
  | cons a l ih => rw [List.flatMap_cons, ← Multiset.coe_add, ih, List.map_cons, List.sum_cons]

section step

variable {s : SoundRam} {q : List Text} {kids : List (Text × Node)} {names : List Text}

theorem savedAt_dir (hq : resolve q s.ram.store.root = some (.dir kids)) (hnames : names.Perm (kids.map Prod.fst)) :
    savedAt s q = (names.map fun c => savedAt s (q ++ [c])).sum := by
  have hproper : KidsProper kids := s.sound.proper.resolve hq
  rw [savedAt, sum_kids _ hq hproper hnames, atPath, hq]
  simp only [entries, entriesIn_eq, List.map_flatMap, coe_flatMap]

theorem roundsAt_dir (hq : resolve q s.ram.store.root = some (.dir kids)) (hnames : names.Perm (kids.map Prod.fst)) :
    roundsAt s q = (names.map fun c => roundsAt s (q ++ [c])).sum + 1 := by
  have hproper : KidsProper kids := s.sound.proper.resolve hq
  rw [roundsAt, sum_kids _ hq hproper hnames, atPath, hq]
  simp only [countDirs, countDirsIn_eq]

theorem savedAt_file {ps : List ℕ} {size mtime : ℕ} (hq : resolve q s.ram.store.root = some (.file ps size mtime)) :
    savedAt s q = {(joinRel q, readBytesFromPages s.ram.mem ps size)} := by
  simp only [savedAt, atPath, hq, entries]
  rfl

theorem roundsAt_file {ps : List ℕ} {size mtime : ℕ} (hq : resolve q s.ram.store.root = some (.file ps size mtime)) :
    roundsAt s q = 0 := by
  simp only [roundsAt, atPath, hq, countDirs]

/-- A directory with a path that can be given to the calls. -/
def IsDir (s : SoundRam) (q : List Text) : Prop :=
  (∀ c ∈ q, NormalName c) ∧ ∃ kids, resolve q s.ram.store.root = some (.dir kids)

/-- The entries of a directory are taken apart into files and directories. -/
theorem walkNames_ok (hr : Rooted r ns) (hnormal : ∀ c ∈ q, NormalName c) (hq : resolve q s.ram.store.root = some (.dir kids))
    (hnames : ∀ c ∈ names, lookupKid c kids ≠ none) :
    ∃ (fs : Image) (ds : List (List Text)), walkNames r ns s (joinRel q) names = .ok (fs, ds.map joinRel) ∧
      (∀ d ∈ ds, IsDir s d) ∧
      (fs : Multiset (Text × Octets)) + (ds.map (savedAt s)).sum = (names.map fun c => savedAt s (q ++ [c])).sum ∧
      (ds.map (roundsAt s)).sum = (names.map fun c => roundsAt s (q ++ [c])).sum := by
  have hproper : KidsProper kids := s.sound.proper.resolve hq
  induction names with
  | nil => exact ⟨[], [], rfl, by simp, rfl, rfl⟩
  | cons c names ih =>
    obtain ⟨hc, hrest⟩ := List.forall_mem_cons.mp hnames
    obtain ⟨n, hn⟩ := Option.ne_none_iff_exists'.mp hc
    have hat : resolve (q ++ [c]) s.ram.store.root = some n := (resolve_kid hq c).trans hn
    have hcname : ∀ d ∈ q ++ [c], NormalName d := by
      intro d hd
      obtain hd | hd := List.mem_append.mp hd
      · exact hnormal d hd
      · exact List.mem_singleton.mp hd ▸ (hproper.lookup hn).1
    obtain ⟨fs, ds, hwalk, hdirs, hsaved, hrounds⟩ := ih hrest
    obtain ⟨st, hst, hisDir⟩ := vfsStat_at hr hcname hat
    rw [walkNames, entryPath_joinRel hnormal, hst]
    simp only [List.map_cons, List.sum_cons, ← hsaved, ← hrounds]
    cases n with
    | file ps size mtime =>
      have hno : ¬ st.isDir = true := fun h => by simpa using hisDir.mp h
      rw [if_neg hno, vfsRead_at hr hcname hat, hwalk, savedAt_file hat, roundsAt_file hat]
      refine ⟨_, ds, rfl, hdirs, ?_, by omega⟩
      rw [← Multiset.cons_coe, ← Multiset.singleton_add, add_assoc]
    | dir kids' =>
      rw [if_pos (hisDir.mpr ⟨kids', rfl⟩), hwalk]
      refine ⟨fs, (q ++ [c]) :: ds, rfl, List.forall_mem_cons.mpr ⟨⟨hcname, kids', hat⟩, hdirs⟩, ?_, by simp⟩
      rw [List.map_cons, List.sum_cons]
      abel

end step

/-- Given a round for every directory, the walk meets all files below the stack once. -/
theorem collectVfs_ok (hr : Rooted r ns) {s : SoundRam} {k : ℕ} {stack : List (List Text)} (hstack : ∀ q ∈ stack, IsDir s q)
    (hk : (stack.map (roundsAt s)).sum ≤ k) (acc : Image) :
    ∃ files : Image, collectVfs r ns s k (stack.map joinRel) acc = .ok (acc ++ files) ∧
      (files : Multiset (Text × Octets)) = (stack.map (savedAt s)).sum := by
  induction k generalizing stack acc with
  | zero =>
    cases stack with
    | nil => exact ⟨[], by rw [List.append_nil]; rfl, rfl⟩
    | cons q stack =>
      obtain ⟨⟨-, kids, hq⟩, -⟩ := List.forall_mem_cons.mp hstack
      rw [List.map_cons, List.sum_cons, roundsAt_dir hq (.refl _)] at hk
      omega
  | succ k ih =>
    cases stack with
    | nil => exact ⟨[], by rw [List.append_nil]; rfl, rfl⟩
    | cons q stack =>
      obtain ⟨⟨hnormal, kids, hq⟩, hrest⟩ := List.forall_mem_cons.mp hstack
      have hperm := List.perm_insertionSort (· ≤ ·) (kids.map Prod.fst)
      have hproper : KidsProper kids := s.sound.proper.resolve hq
      have hnames : ∀ c ∈ (kids.map Prod.fst).insertionSort (· ≤ ·), lookupKid c kids ≠ none := by
        intro c hc
        obtain ⟨kid, hkid, rfl⟩ := List.mem_map.mp (hperm.mem_iff.mp hc)
        rw [hproper.lookup_of_mem hkid]
        simp
      obtain ⟨fs, ds, hwalk, hdirs, hsaved, hrounds⟩ := walkNames_ok hr hnormal hq hnames
      rw [List.map_cons, List.sum_cons, roundsAt_dir hq hperm] at hk
      have hfewer : ((ds ++ stack).map (roundsAt s)).sum ≤ k := by
        rw [List.map_append, List.sum_append, hrounds]
        omega
      obtain ⟨files, hcollect, hfiles⟩ := ih (List.forall_mem_append.mpr ⟨hdirs, hrest⟩) hfewer (acc ++ fs)
      refine ⟨fs ++ files, ?_, ?_⟩
      · rw [List.map_cons, collectVfs, vfsLs_at hr hnormal hq]
        simp only [hwalk, ← List.map_append, hcollect, List.append_assoc]
      · rw [← Multiset.coe_add, hfiles, List.map_append, List.sum_append, ← add_assoc, hsaved, ← savedAt_dir hq hperm,
          List.map_cons, List.sum_cons]

end HouseKernel.FileSystem.RamFs
