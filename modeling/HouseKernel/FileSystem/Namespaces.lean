import Mathlib.Data.List.AList
import Mathlib.Data.List.Sort
import HouseKernel.FileSystem.Path

/-! Mount namespaces. A namespace is a table of mounts, a pid is bound to one, and a path means
what it means in a namespace. A namespace goes when the last pid bound to it is released, except
the default one. -/
namespace HouseKernel.FileSystem

open HouseKernel.Lib

/-- `Map` of the source: one value for a key, searched by key. -/
abbrev Dict (κ α : Type*) := AList fun _ : κ => α

def elems {κ α : Type*} (m : Dict κ α) : List α := m.entries.map Sigma.snd

variable {ι : Type*}

/-- A mounted backend with the components of the place where it is mounted. -/
structure Mount (ι : Type*) where
  comps : List Text
  ops : ι
  deriving DecidableEq

/-- `nsTable`, `nsNext` and `pidNs`. -/
structure Registry (ι : Type*) where
  nsTable : Dict ℕ (List (Mount ι))
  nsNext : ℕ
  pidNs : Dict ℕ ℕ

def defaultNamespace : ℕ := 0

/-- The mount with the longest components that start a path, and the rest of the path. -/
def resolvePrefix (mounts : List (List Text × ι)) (comps : List Text) : Option (ι × List Text) :=
  let sorted := mounts.insertionSort fun m n => n.1.length ≤ m.1.length
  (sorted.find? fun m => m.1.isPrefixOf comps).map fun m => (m.2, comps.drop m.1.length)

/-- A path in a mount table: the backend and the path there. -/
def resolveIn (table : Option (List (Mount ι))) (comps : List Text) : Except FsError (ι × Text) :=
  match table with
  | none => .error .enoent
  | some table =>
    match resolvePrefix (table.map fun m => (m.comps, m.ops)) comps with
    | none => .error .enoent
    | some (ops, rel) => .ok (ops, joinRel rel)

def vfsLookup (r : Registry ι) (ns : ℕ) (path : Text) : Except FsError (ι × Text) :=
  match splitPath path with
  | .error e => .error e
  | .ok comps => resolveIn (r.nsTable.lookup ns) comps

/-- Copy the mounts of a namespace into a new one. -/
def nsFork (r : Registry ι) (parent : ℕ) : ℕ × Registry ι :=
  let table := (r.nsTable.lookup parent).getD []
  (r.nsNext, { r with nsTable := r.nsTable.insert r.nsNext table, nsNext := r.nsNext + 1 })

/-- A pid without a namespace gets the default one. -/
def vfsEnsurePid (r : Registry ι) (pid : ℕ) : ℕ × Registry ι :=
  match r.pidNs.lookup pid with
  | some ns => (ns, r)
  | none => (defaultNamespace, { r with pidNs := r.pidNs.insert pid defaultNamespace })

def vfsBindPid (r : Registry ι) (pid ns : ℕ) : Bool × Registry ι :=
  if (r.nsTable.lookup ns).isNone then (false, r)
  else if ∃ existing ∈ r.pidNs.lookup pid, existing ≠ ns then (false, r)
  else (true, { r with pidNs := r.pidNs.insert pid ns })

def vfsForkPid (r : Registry ι) (parentPid childPid : ℕ) : Registry ι :=
  let (parentNs, r) := vfsEnsurePid r parentPid
  let (childNs, r) := nsFork r parentNs
  { r with pidNs := r.pidNs.insert childPid childNs }

def vfsReleasePid (r : Registry ι) (pid : ℕ) : Registry ι :=
  match r.pidNs.lookup pid with
  | none => r
  | some ns =>
    let pidNs := r.pidNs.erase pid
    if ns = defaultNamespace ∨ ns ∈ elems pidNs then { r with pidNs := pidNs }
    else { r with pidNs := pidNs, nsTable := r.nsTable.erase ns }

theorem mem_elems {κ α : Type*} [DecidableEq κ] {m : Dict κ α} {a : α} : a ∈ elems m ↔ ∃ k, m.lookup k = some a := by
  simp only [elems, List.mem_map]
  constructor
  · rintro ⟨⟨k, b⟩, hmem, rfl⟩
    exact ⟨k, AList.mem_lookup_iff.mpr hmem⟩
  · rintro ⟨k, hk⟩
    exact ⟨⟨k, a⟩, AList.mem_lookup_iff.mp hk, rfl⟩

theorem lookup_insert_eq {κ α : Type*} [DecidableEq κ] (m : Dict κ α) (k q : κ) (a : α) :
    (m.insert k a).lookup q = if q = k then some a else m.lookup q := by
  split_ifs with h
  · rw [h, AList.lookup_insert]
  · exact AList.lookup_insert_ne h

theorem lookup_erase_eq {κ α : Type*} [DecidableEq κ] (m : Dict κ α) (k q : κ) :
    (m.erase k).lookup q = if q = k then none else m.lookup q := by
  split_ifs with h
  · rw [h, AList.lookup_erase]
  · exact AList.lookup_erase_ne h

/-- Two registries have the same mounts in a namespace. -/
def SameMounts (r r' : Registry ι) (ns : ℕ) : Prop := r.nsTable.lookup ns = r'.nsTable.lookup ns

theorem vfsLookup_congr {r r' : Registry ι} {ns : ℕ} (h : SameMounts r r' ns) (path : Text) :
    vfsLookup r ns path = vfsLookup r' ns path := by
  unfold vfsLookup
  rw [h]

theorem vfsEnsurePid_mounts (r : Registry ι) (pid : ℕ) :
    (vfsEnsurePid r pid).2.nsTable = r.nsTable ∧ (vfsEnsurePid r pid).2.nsNext = r.nsNext := by
  unfold vfsEnsurePid
  split <;> exact ⟨rfl, rfl⟩

theorem vfsEnsurePid_fst (r : Registry ι) (pid : ℕ) :
    (vfsEnsurePid r pid).1 = (r.pidNs.lookup pid).getD defaultNamespace := by
  unfold vfsEnsurePid
  split
  · next h => simp [h]
  · next h => simp [h]

theorem vfsEnsurePid_lookup (r : Registry ι) (pid q : ℕ) : (vfsEnsurePid r pid).2.pidNs.lookup q =
    if q = pid then some (vfsEnsurePid r pid).1 else r.pidNs.lookup q := by
  unfold vfsEnsurePid
  split
  · next ns h =>
    split_ifs with hq
    · rw [hq, h]
    · rfl
  · exact lookup_insert_eq _ _ _ _

theorem vfsForkPid_mounts (r : Registry ι) (parent child n : ℕ) :
    (vfsForkPid r parent child).nsTable.lookup n =
      if n = r.nsNext then some ((r.nsTable.lookup (vfsEnsurePid r parent).1).getD []) else r.nsTable.lookup n := by
  obtain ⟨htable, hnext⟩ := vfsEnsurePid_mounts r parent
  simp only [vfsForkPid, nsFork, htable, hnext]
  exact lookup_insert_eq _ _ _ _

theorem vfsForkPid_lookup (r : Registry ι) (parent child q : ℕ) : (vfsForkPid r parent child).pidNs.lookup q =
    if q = child then some r.nsNext else (vfsEnsurePid r parent).2.pidNs.lookup q := by
  obtain ⟨-, hnext⟩ := vfsEnsurePid_mounts r parent
  simp only [vfsForkPid, nsFork, hnext]
  exact lookup_insert_eq _ _ _ _

theorem vfsForkPid_next (r : Registry ι) (parent child : ℕ) :
    (vfsForkPid r parent child).nsNext = r.nsNext + 1 := by
  obtain ⟨-, hnext⟩ := vfsEnsurePid_mounts r parent
  simp only [vfsForkPid, nsFork, hnext]

theorem vfsReleasePid_lookup (r : Registry ι) (pid q : ℕ) :
    (vfsReleasePid r pid).pidNs.lookup q = if q = pid then none else r.pidNs.lookup q := by
  unfold vfsReleasePid
  split
  · next h =>
    split_ifs with hq
    · rw [hq, h]
    · rfl
  · dsimp only
    split <;> exact lookup_erase_eq _ _ _

/-- A release takes away the namespace of the pid, unless it is the default one or still bound. -/
theorem vfsReleasePid_mounts {r : Registry ι} {pid n : ℕ} (h : ∀ ns ∈ r.pidNs.lookup pid,
      ns = n → ns = defaultNamespace ∨ ns ∈ elems (r.pidNs.erase pid)) :
    SameMounts (vfsReleasePid r pid) r n := by
  unfold SameMounts vfsReleasePid
  split
  · rfl
  · next ns hns =>
    dsimp only
    split_ifs with hkeep
    · rfl
    · rw [lookup_erase_eq, if_neg]
      rintro rfl
      exact hkeep (h n hns rfl)

theorem vfsReleasePid_next (r : Registry ι) (pid : ℕ) : (vfsReleasePid r pid).nsNext = r.nsNext := by
  unfold vfsReleasePid
  split
  · rfl
  · dsimp only
    split_ifs <;> rfl

end HouseKernel.FileSystem
