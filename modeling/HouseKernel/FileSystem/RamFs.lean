import Mathlib.Tactic
import HouseKernel.FileSystem.Path

/-! The tree of the RAM file system: files that own pages, in directories. Every operation looks
a path up, changes one node and puts the changed directories back; what a change does to the
pages of the tree is what it does to those of the node. -/
namespace HouseKernel.FileSystem.RamFs

open HouseKernel.Lib

/-- A file with its pages, its size and a time stamp, or a directory. -/
inductive Node where
  | file (pages : List ℕ) (size : ℕ) (mtime : ℕ)
  | dir (kids : List (Text × Node))

def blocks (size : ℕ) : ℕ := (size + 4095) / 4096

def lookupKid (c : Text) : List (Text × Node) → Option Node
  | [] => none
  | (d, n) :: kids => if d = c then some n else lookupKid c kids

/-- Replace the entry of a name, or add one. -/
def insertKid (c : Text) (n : Node) : List (Text × Node) → List (Text × Node)
  | [] => [(c, n)]
  | (d, m) :: kids => if d = c then (c, n) :: kids else (d, m) :: insertKid c n kids

def deleteKid (c : Text) : List (Text × Node) → List (Text × Node)
  | [] => []
  | (d, m) :: kids => if d = c then kids else (d, m) :: deleteKid c kids

def resolve : List Text → Node → Option Node
  | [], n => some n
  | _ :: _, .file _ _ _ => none
  | c :: cs, .dir kids =>
    match lookupKid c kids with
    | none => none
    | some child => resolve cs child

def updateAt : List Text → (Node → Except FsError Node) → Node → Except FsError Node
  | [], f, n => f n
  | _ :: _, _, .file _ _ _ => .error .enotdir
  | c :: cs, f, .dir kids =>
    match lookupKid c kids with
    | none => .error .enoent
    | some child =>
      match updateAt cs f child with
      | .error e => .error e
      | .ok child' => .ok (.dir (insertKid c child' kids))

mutual

/-- The files of a tree: their pages and sizes. -/
def files : Node → List (List ℕ × ℕ)
  | .file ps size _ => [(ps, size)]
  | .dir kids => filesIn kids

def filesIn : List (Text × Node) → List (List ℕ × ℕ)
  | [] => []
  | (_, n) :: kids => files n ++ filesIn kids

end

mutual

def collectPages : Node → List ℕ
  | .file ps _ _ => ps
  | .dir kids => collectPagesIn kids

def collectPagesIn : List (Text × Node) → List ℕ
  | [] => []
  | (_, n) :: kids => collectPages n ++ collectPagesIn kids

end

mutual

def countNodePages : Node → ℕ
  | .file ps _ _ => ps.length
  | .dir kids => countNodePagesIn kids

def countNodePagesIn : List (Text × Node) → ℕ
  | [] => 0
  | (_, n) :: kids => countNodePages n + countNodePagesIn kids

end

/-- Change the entries of a directory. -/
def inDir (f : List (Text × Node) → List (Text × Node)) : Node → Except FsError Node
  | .dir ks => .ok (.dir (f ks))
  | .file _ _ _ => .error .enotdir

/-- The directory and the name that a path of at least one component ends in. -/
def parentComps (cs : List Text) : List Text := cs.dropLast

def lastName (cs : List Text) : Text := cs.getLast?.getD []

/-- Page count of the file that an overwrite would replace. -/
def replacedPages (cs : List Text) (root : Node) : ℕ :=
  if cs = [] then 0
  else
    match resolve (parentComps cs) root with
    | some (.dir kids) =>
      match lookupKid (lastName cs) kids with
      | some (.file ps _ _) => ps.length
      | _ => 0
    | _ => 0

/-- A new node at a path where there is none. -/
def addNode (cs : List Text) (node : Node) (root : Node) : Except FsError Node :=
  match resolve (parentComps cs) root with
  | none => .error .enoent
  | some (.file _ _ _) => .error .enotdir
  | some (.dir kids) =>
    match lookupKid (lastName cs) kids with
    | some _ => .error .eexist
    | none => updateAt (parentComps cs) (inDir (insertKid (lastName cs) node)) root

def ramfsCreate (path : Text) (root : Node) : Except FsError Node :=
  match splitPath path with
  | .error e => .error e
  | .ok [] => .error (.einval "cannot create root")
  | .ok (c :: cs) => addNode (c :: cs) (.file [] 0 0) root

def ramfsMkdir (path : Text) (root : Node) : Except FsError Node :=
  match splitPath path with
  | .error e => .error e
  | .ok [] => .error .eexist
  | .ok (c :: cs) => addNode (c :: cs) (.dir []) root

/-- `ramfsRoot`, `ramfsUsedRef` and `ramfsQuotaRef`. -/
structure Store where
  root : Node
  used : ℤ
  quota : ℤ

/-- The first section of a write under the lock: whether the quota refuses it. -/
def refusedEarly (s : Store) (cs : List Text) (content : Octets) : Bool :=
  s.quota < s.used + blocks content.length - replacedPages cs s.root

/-- The second section of a write under the lock: the store with the new file, and the pages of the
file that it replaces. -/
def commitWrite (s : Store) (cs : List Text) (content : Octets) (newPages : List ℕ) : Except FsError (Store × List ℕ) :=
  let node := Node.file newPages content.length 0
  match resolve (parentComps cs) s.root with
  | none => .error .enoent
  | some (.file _ _ _) => .error .enotdir
  | some (.dir kids) =>
    match lookupKid (lastName cs) kids with
    | some (.dir _) => .error .eisdir
    | some (.file oldPages _ _) =>
      let used := s.used + blocks content.length - oldPages.length
      if s.quota < used then .error .enospc
      else
        match updateAt (parentComps cs) (inDir (insertKid (lastName cs) node)) s.root with
        | .error e => .error e
        | .ok root => .ok ({ s with root := root, used := used }, oldPages)
    | none =>
      let used := s.used + blocks content.length
      if s.quota < used then .error .enospc
      else
        match updateAt (parentComps cs) (inDir (insertKid (lastName cs) node)) s.root with
        | .error e => .error e
        | .ok root => .ok ({ s with root := root, used := used }, [])

/-- The store without the node at a path, and the node. -/
def ramfsRm (path : Text) (s : Store) : Except FsError (Store × Node) :=
  match splitPath path with
  | .error e => .error e
  | .ok [] => .error (.einval "cannot remove root")
  | .ok (c :: cs) =>
    let remove := updateAt (parentComps (c :: cs)) (inDir (deleteKid (lastName (c :: cs)))) s.root
    match resolve (parentComps (c :: cs)) s.root with
    | none => .error .enoent
    | some (.file _ _ _) => .error .enotdir
    | some (.dir kids) =>
      match lookupKid (lastName (c :: cs)) kids with
      | none => .error .enoent
      | some (.dir (_ :: _)) => .error (.einval "directory not empty")
      | some (.dir []) =>
        match remove with
        | .error e => .error e
        | .ok root => .ok ({ s with root := root }, .dir [])
      | some (.file ps size mtime) =>
        match remove with
        | .error e => .error e
        | .ok root =>
          .ok ({ s with root := root, used := max 0 (s.used - countNodePages (.file ps size mtime)) }, .file ps size mtime)

def floorQuotaPages : ℕ := 16 * 1024 * 1024 / 4096

def quotaPagesFor (ram : ℕ) : ℕ := max floorQuotaPages (ram / 10 / 4096)

/-! What an operation does to the files of the tree. The files are counted as a bag, so that a
file that stands twice would count twice. -/

def fileBag (n : Node) : Multiset (List ℕ × ℕ) := ↑(files n)

def fileBagIn (kids : List (Text × Node)) : Multiset (List ℕ × ℕ) := ↑(filesIn kids)

/-- The pages of a bag of files. -/
def pagesOf (fs : Multiset (List ℕ × ℕ)) : Multiset ℕ := fs.bind fun f => ↑f.1

@[simp] theorem pagesOf_zero : pagesOf 0 = 0 := rfl

@[simp] theorem pagesOf_add (fs gs : Multiset (List ℕ × ℕ)) : pagesOf (fs + gs) = pagesOf fs + pagesOf gs :=
  Multiset.add_bind _ _ _

@[simp] theorem pagesOf_singleton (f : List ℕ × ℕ) : pagesOf {f} = ↑f.1 := Multiset.singleton_bind _ _

@[simp] theorem fileBag_file (ps : List ℕ) (size mtime : ℕ) : fileBag (.file ps size mtime) = {(ps, size)} := rfl

@[simp] theorem fileBag_dir (kids : List (Text × Node)) : fileBag (.dir kids) = fileBagIn kids := rfl

@[simp] theorem fileBagIn_nil : fileBagIn [] = 0 := rfl

@[simp] theorem fileBagIn_cons (c : Text) (n : Node) (kids : List (Text × Node)) :
    fileBagIn ((c, n) :: kids) = fileBag n + fileBagIn kids := by
  simp [fileBagIn, fileBag, filesIn]

mutual

theorem coe_collectPages : ∀ n : Node, (↑(collectPages n) : Multiset ℕ) = pagesOf (fileBag n)
  | .file ps size mtime => by simp [collectPages]
  | .dir kids => coe_collectPagesIn kids

theorem coe_collectPagesIn : ∀ kids, (↑(collectPagesIn kids) : Multiset ℕ) = pagesOf (fileBagIn kids)
  | [] => rfl
  | (c, n) :: kids => by
    rw [collectPagesIn, ← Multiset.coe_add, coe_collectPages n, coe_collectPagesIn kids, fileBagIn_cons, pagesOf_add]

end

mutual

theorem countNodePages_eq : ∀ n : Node, countNodePages n = (collectPages n).length
  | .file _ _ _ => rfl
  | .dir kids => countNodePagesIn_eq kids

theorem countNodePagesIn_eq : ∀ kids, countNodePagesIn kids = (collectPagesIn kids).length
  | [] => rfl
  | (c, n) :: kids => by
    rw [countNodePagesIn, collectPagesIn, List.length_append, countNodePages_eq n, countNodePagesIn_eq kids]

end

theorem insertKid_some {c : Text} {n : Node} {kids : List (Text × Node)} (h : lookupKid c kids = some n) (m : Node) :
    fileBagIn (insertKid c m kids) + fileBag n = fileBagIn kids + fileBag m := by
  induction kids with
  | nil => cases h
  | cons kid kids ih =>
    rw [lookupKid] at h
    rw [insertKid]
    split_ifs at h ⊢ with hc
    · obtain rfl : kid.2 = n := Option.some.inj h
      rw [fileBagIn_cons, fileBagIn_cons]
      abel
    · rw [fileBagIn_cons, fileBagIn_cons, add_assoc, ih h, add_assoc]

theorem insertKid_none {c : Text} {kids : List (Text × Node)} (h : lookupKid c kids = none) (m : Node) :
    fileBagIn (insertKid c m kids) = fileBagIn kids + fileBag m := by
  induction kids with
  | nil => simp [insertKid]
  | cons kid kids ih =>
    rw [lookupKid] at h
    rw [insertKid]
    split_ifs at h ⊢ with hc
    rw [fileBagIn_cons, fileBagIn_cons, ih h, add_assoc]

theorem deleteKid_some {c : Text} {n : Node} {kids : List (Text × Node)} (h : lookupKid c kids = some n) :
    fileBagIn (deleteKid c kids) + fileBag n = fileBagIn kids := by
  induction kids with
  | nil => cases h
  | cons kid kids ih =>
    rw [lookupKid] at h
    rw [deleteKid]
    split_ifs at h ⊢ with hc
    · obtain rfl : kid.2 = n := Option.some.inj h
      rw [fileBagIn_cons, add_comm]
    · rw [fileBagIn_cons, fileBagIn_cons, add_assoc, ih h]

/-- An update changes the files of the tree by what it does to those of the node. -/
theorem updateAt_ok {cs : List Text} {f : Node → Except FsError Node} {n n' : Node} (h : updateAt cs f n = .ok n') :
    ∃ m m', resolve cs n = some m ∧ f m = .ok m' ∧ fileBag n' + fileBag m = fileBag n + fileBag m' := by
  induction cs generalizing n n' with
  | nil => exact ⟨n, n', rfl, h, add_comm _ _⟩
  | cons c cs ih =>
    cases n with
    | file ps size mtime => cases h
    | dir kids =>
      rw [updateAt] at h
      cases hkid : lookupKid c kids with
      | none =>
        rw [hkid] at h
        cases h
      | some child =>
        simp only [hkid] at h
        cases hchild : updateAt cs f child with
        | error e =>
          rw [hchild] at h
          cases h
        | ok child' =>
          rw [hchild] at h
          obtain rfl := Except.ok.inj h
          obtain ⟨m, m', hm, hf, hbag⟩ := ih hchild
          refine ⟨m, m', ?_, hf, ?_⟩
          · rw [resolve, hkid]
            exact hm
          · have hkids := insertKid_some hkid child'
            rw [fileBag_dir, fileBag_dir]
            apply add_right_cancel (b := fileBag child)
            calc fileBagIn (insertKid c child' kids) + fileBag m + fileBag child
                = fileBagIn (insertKid c child' kids) + fileBag child + fileBag m := by abel
              _ = fileBagIn kids + (fileBag child' + fileBag m) := by rw [hkids, add_assoc]
              _ = fileBagIn kids + fileBag m' + fileBag child := by rw [hbag]; abel

/-- Changing the entries of a directory of the tree. -/
theorem updateAt_inDir {cs : List Text} {g : List (Text × Node) → List (Text × Node)} {kids : List (Text × Node)}
    {root root' : Node} (hdir : resolve cs root = some (.dir kids)) (h : updateAt cs (inDir g) root = .ok root') :
    fileBag root' + fileBagIn kids = fileBag root + fileBagIn (g kids) := by
  obtain ⟨m, m', hm, hg, hbag⟩ := updateAt_ok h
  obtain rfl : m = .dir kids := Option.some.inj (hm.symm.trans hdir)
  obtain rfl := Except.ok.inj hg
  exact hbag

/-- A new entry of a directory adds the files of the node. -/
theorem updateAt_insert {cs : List Text} {c : Text} {kids : List (Text × Node)} {node root root' : Node}
    (hdir : resolve cs root = some (.dir kids)) (hkid : lookupKid c kids = none)
    (h : updateAt cs (inDir (insertKid c node)) root = .ok root') : fileBag root' = fileBag root + fileBag node := by
  have hbag := updateAt_inDir hdir h
  rw [insertKid_none hkid, ← add_assoc, add_right_comm] at hbag
  exact add_right_cancel hbag

/-- An entry that is replaced takes the files of the old node away. -/
theorem updateAt_replace {cs : List Text} {c : Text} {kids : List (Text × Node)} {old node root root' : Node}
    (hdir : resolve cs root = some (.dir kids)) (hkid : lookupKid c kids = some old)
    (h : updateAt cs (inDir (insertKid c node)) root = .ok root') :
    fileBag root' + fileBag old = fileBag root + fileBag node := by
  have hbag := updateAt_inDir hdir h
  apply add_right_cancel (b := fileBagIn kids)
  rw [add_right_comm, hbag, add_assoc, insertKid_some hkid, add_right_comm, add_assoc]

/-- An entry that is deleted takes its files away. -/
theorem updateAt_delete {cs : List Text} {c : Text} {kids : List (Text × Node)} {old root root' : Node}
    (hdir : resolve cs root = some (.dir kids)) (hkid : lookupKid c kids = some old)
    (h : updateAt cs (inDir (deleteKid c)) root = .ok root') : fileBag root' + fileBag old = fileBag root := by
  have hbag := updateAt_inDir hdir h
  apply add_right_cancel (b := fileBagIn kids)
  rw [add_right_comm, hbag, add_assoc, deleteKid_some hkid]

theorem addNode_ok {cs : List Text} {node root root' : Node} (h : addNode cs node root = .ok root') :
    fileBag root' = fileBag root + fileBag node := by
  rw [addNode] at h
  split at h
  · cases h
  · cases h
  · next kids hdir =>
    split at h
    · cases h
    · next hkid => exact updateAt_insert hdir hkid h

theorem ramfsCreate_ok {path : Text} {root root' : Node} (h : ramfsCreate path root = .ok root') :
    fileBag root' = fileBag root + {([], 0)} := by
  rw [ramfsCreate] at h
  split at h
  · cases h
  · cases h
  · exact addNode_ok h

theorem ramfsMkdir_ok {path : Text} {root root' : Node} (h : ramfsMkdir path root = .ok root') :
    fileBag root' = fileBag root := by
  rw [ramfsMkdir] at h
  split at h
  · cases h
  · cases h
  · exact (addNode_ok h).trans (add_zero _)

/-- A commit puts the new file in the place of the files `old`, within the quota. -/
structure Committed (s s' : Store) (content : Octets) (newPages oldPages : List ℕ) (old : Multiset (List ℕ × ℕ)) :
    Prop where
  tree : fileBag s'.root + old = fileBag s.root + {(newPages, content.length)}
  pages : pagesOf old = ↑oldPages
  used : s'.used = s.used + blocks content.length - oldPages.length
  quota : s'.quota = s.quota
  within : s'.used ≤ s'.quota

theorem commitWrite_ok {s s' : Store} {cs : List Text} {content : Octets} {newPages oldPages : List ℕ}
    (h : commitWrite s cs content newPages = .ok (s', oldPages)) :
    ∃ old, Committed s s' content newPages oldPages old := by
  rw [commitWrite] at h
  split at h
  · cases h
  · cases h
  · next kids hdir =>
    split at h
    · cases h
    · next ps size mtime hkid =>
      simp only at h
      split_ifs at h with hquota
      split at h
      · cases h
      · next root hroot =>
        obtain ⟨rfl, rfl⟩ := Prod.mk.inj (Except.ok.inj h)
        exact ⟨{(ps, size)}, {
          tree := updateAt_replace hdir hkid hroot
          pages := pagesOf_singleton _
          used := rfl
          quota := rfl
          within := not_lt.mp hquota }⟩
    · next hkid =>
      simp only at h
      split_ifs at h with hquota
      split at h
      · cases h
      · next root hroot =>
        obtain ⟨rfl, rfl⟩ := Prod.mk.inj (Except.ok.inj h)
        exact ⟨0, {
          tree := (add_zero _).trans (updateAt_insert hdir hkid hroot)
          pages := rfl
          used := (sub_zero _).symm
          quota := rfl
          within := not_lt.mp hquota }⟩

/-- A removal takes the node out of the tree and its pages out of the account. -/
structure Removed (s s' : Store) (node : Node) : Prop where
  tree : fileBag s'.root + fileBag node = fileBag s.root
  used : 0 ≤ s.used → s'.used = max 0 (s.used - (collectPages node).length)
  quota : s'.quota = s.quota

theorem ramfsRm_ok {path : Text} {s s' : Store} {node : Node} (h : ramfsRm path s = .ok (s', node)) :
    Removed s s' node := by
  rw [ramfsRm] at h
  split at h
  · cases h
  · cases h
  · simp only at h
    split at h
    · cases h
    · cases h
    · next kids hdir =>
      split at h
      · cases h
      · cases h
      · next hkid =>
        split at h
        · cases h
        · next root hroot =>
          obtain ⟨rfl, rfl⟩ := Prod.mk.inj (Except.ok.inj h)
          exact {
            tree := updateAt_delete hdir hkid hroot
            used := fun h0 => by simp [collectPages, collectPagesIn, h0]
            quota := rfl }
      · next ps size mtime hkid =>
        split at h
        · cases h
        · next root hroot =>
          obtain ⟨rfl, rfl⟩ := Prod.mk.inj (Except.ok.inj h)
          exact {
            tree := updateAt_delete hdir hkid hroot
            used := fun _ => by rw [countNodePages_eq]
            quota := rfl }

end HouseKernel.FileSystem.RamFs
