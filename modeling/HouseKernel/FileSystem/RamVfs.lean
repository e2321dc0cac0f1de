import HouseKernel.FileSystem.Namespaces
import HouseKernel.FileSystem.RamFiles

/-! The calls of the virtual file system in a namespace whose mounts are the RAM file system. Where
it stands at the root and nowhere else, a path is looked up as it is. -/
namespace HouseKernel.FileSystem.RamFs

open HouseKernel.Descriptors (FsStat)
open HouseKernel.Lib

/-- Boot mounts the RAM file system at the root. Other backends are layers below it, which these calls
do not use. -/
def Rooted (r : Registry Unit) (ns : ℕ) : Prop := r.nsTable.lookup ns = some [⟨[], ()⟩]

/-- The mounts of boot. -/
def bootRegistry : Registry Unit := ⟨AList.singleton 0 [⟨[], ()⟩], 1, ∅⟩

theorem bootRegistry_rooted : Rooted bootRegistry 0 := rfl

section calls

variable (r : Registry Unit) (ns : ℕ)

def vfsInit (ram : ℕ) (s : SoundRam) : SoundRam :=
  ((r.nsTable.lookup ns).getD []).foldl (fun s _ => s.opsInit ram) s

def vfsMkdir (path : Text) (s : SoundRam) : Except FsError Unit × SoundRam :=
  match vfsLookup r ns path with
  | .error e => (.error e, s)
  | .ok (_, rel) => s.opsMkdir rel

def vfsWrite (path : Text) (content : Octets) (s : SoundRam) : Except FsError Unit × SoundRam :=
  match vfsLookup r ns path with
  | .error e => (.error e, s)
  | .ok (_, rel) => s.opsWrite rel content

def vfsRead (path : Text) (s : SoundRam) : Except FsError Octets :=
  match vfsLookup r ns path with
  | .error e => .error e
  | .ok (_, rel) => s.ram.opsRead rel

def vfsLs (path : Text) (s : SoundRam) : Except FsError (List Text) :=
  match vfsLookup r ns path with
  | .error e => .error e
  | .ok (_, rel) => s.ram.opsLs rel

def vfsStat (path : Text) (s : SoundRam) : Except FsError FsStat :=
  match vfsLookup r ns path with
  | .error e => .error e
  | .ok (_, rel) => s.ram.opsStat rel

end calls

variable {r : Registry Unit} {ns : ℕ}

theorem vfsInit_rooted (hr : Rooted r ns) (ram : ℕ) (s : SoundRam) : vfsInit r ns ram s = s.opsInit ram := by
  rw [vfsInit, hr]
  rfl

theorem vfsLookup_rooted (hr : Rooted r ns) (path : Text) :
    vfsLookup r ns path = (splitPath path).map fun cs => ((), joinRel cs) := by
  rw [vfsLookup]
  cases splitPath path with
  | error e => rfl
  | ok comps =>
    rw [hr]
    rfl

/-- The path behind a lookup leads to the components of the path before it. -/
theorem split_rel {path : Text} {cs : List Text} (h : splitPath path = .ok cs) : splitPath (joinRel cs) = .ok cs :=
  splitPath_joinRel fun c hc => (splitPath_ok h c hc).1

theorem vfsMkdir_does (hr : Rooted r ns) (path : Text) (s : SoundRam) :
    s.Does (vfsMkdir r ns path s) (splitPath path >>= fun cs => s.fs.mkdir cs) := by
  rw [vfsMkdir, vfsLookup_rooted hr]
  cases hsplit : splitPath path with
  | error e => exact ⟨rfl, rfl⟩
  | ok cs =>
    have hdoes := s.opsMkdir_does (joinRel cs)
    rw [split_rel hsplit] at hdoes
    exact hdoes

theorem vfsWrite_does (hr : Rooted r ns) (path : Text) (content : Octets) (s : SoundRam) :
    s.Does (vfsWrite r ns path content s) (splitPath path >>= fun cs => s.fs.write cs content) := by
  rw [vfsWrite, vfsLookup_rooted hr]
  cases hsplit : splitPath path with
  | error e => exact ⟨rfl, rfl⟩
  | ok cs =>
    have hdoes := s.opsWrite_does (joinRel cs) content
    rw [split_rel hsplit] at hdoes
    exact hdoes

/-- Where something stands, a directory stands above it. -/
theorem above_dir (s : SoundRam) {p q : List Text} (hpq : p <+: q) (hne : p ≠ q) (hq : s.fs.files q ≠ none) :
    s.fs.files p = some .dir := by
  obtain ⟨rest, rfl⟩ := hpq
  have hlook : ∀ cs, s.fs.files cs = (resolve cs s.ram.store.root).map (objOf s.ram.mem) := fun _ => rfl
  rw [hlook, RamFs.resolve_append] at hq
  rw [hlook]
  cases hp : resolve p s.ram.store.root with
  | none =>
    rw [hp] at hq
    exact absurd rfl hq
  | some node =>
    cases node with
    | dir kids => rfl
    | file ps size mtime =>
      rw [hp] at hq
      cases rest with
      | nil => exact absurd (List.append_nil p).symm hne
      | cons c cs => exact absurd rfl hq

theorem dirs_above (s : SoundRam) {p q : List Text} (hpq : p <+: q) (hq : s.fs.files q = some .dir) :
    s.fs.files p = some .dir := by
  by_cases hne : p = q
  · rwa [hne]
  · exact above_dir s hpq hne (by rw [hq]; simp)

end HouseKernel.FileSystem.RamFs
