import HouseKernel.Descriptors.Fd
import HouseKernel.FileSystem.RamTree

/-! The calls of the RAM file system one after the other, with the pool of pages behind them, and
what they are for the callers: a table of what stands at each path, with a count of pages. -/
namespace HouseKernel.FileSystem.RamFs

open HouseKernel.Descriptors (FsStat)
open HouseKernel.Lib

/-- The store and the pages behind it, with no call under way. -/
structure Ram where
  store : Store
  free : List ℕ
  mem : ℕ → Octets

/-- The first list of pages in front of the second, the last page first. -/
def freePages (ps free : List ℕ) : List ℕ := ps.foldl (fun free p => p :: free) free

/-- Take pages off the free ones, or give back what was taken. -/
def allocatePages : ℕ → List ℕ → List ℕ → Option (List ℕ) × List ℕ
  | 0, acc, free => (some acc.reverse, free)
  | _ + 1, acc, [] => (none, freePages acc [])
  | n + 1, acc, p :: free => allocatePages n (p :: acc) free

def writeBytesToPages (mem : ℕ → Octets) : List ℕ → Octets → ℕ → Octets
  | [], _ => mem
  | p :: ps, bs => writeBytesToPages (Function.update mem p (pageOf (bs.take 4096))) ps (bs.drop 4096)

namespace Ram

/-- The state among the calls that interleave. -/
def world (s : Ram) : World := { store := s.store, free := s.free, others := [], mem := s.mem, ops := [] }

def opsInit (ram : ℕ) (s : Ram) : Ram :=
  { s with
    store := { root := .dir [], used := 0, quota := quotaPagesFor ram }
    free := freePages (collectPages s.store.root) s.free }

/-- A call that is done in one section under the lock. -/
def setRoot (s : Ram) : Except FsError Node → Except FsError Unit × Ram
  | .error e => (.error e, s)
  | .ok root => (.ok (), { s with store := { s.store with root := root } })

def opsCreate (path : Text) (s : Ram) : Except FsError Unit × Ram := s.setRoot (ramfsCreate path s.store.root)

def opsMkdir (path : Text) (s : Ram) : Except FsError Unit × Ram := s.setRoot (ramfsMkdir path s.store.root)

def opsWrite (path : Text) (content : Octets) (s : Ram) : Except FsError Unit × Ram :=
  match splitPath path with
  | .error e => (.error e, s)
  | .ok [] => (.error .eisdir, s)
  | .ok (c :: cs) =>
    if refusedEarly s.store (c :: cs) content then (.error .enospc, s)
    else
      match allocatePages (blocks content.length) [] s.free with
      | (none, free) => (.error .enospc, { s with free := free })
      | (some newPages, free) =>
        let mem := writeBytesToPages s.mem newPages content
        match commitWrite s.store (c :: cs) content newPages with
        | .error e => (.error e, { s with free := freePages newPages free, mem := mem })
        | .ok (store, oldPages) => (.ok (), { store := store, free := freePages oldPages free, mem := mem })

def opsRead (path : Text) (s : Ram) : Except FsError Octets := ramfsRead s.world path

/-- The names of a directory, in the order of `Map.keys`. -/
def opsLs (path : Text) (s : Ram) : Except FsError (List Text) :=
  match splitPath path with
  | .error e => .error e
  | .ok cs =>
    match resolve cs s.store.root with
    | none => .error .enoent
    | some (.file _ _ _) => .error .enotdir
    | some (.dir kids) => .ok ((kids.map Prod.fst).insertionSort (· ≤ ·))

def opsRm (path : Text) (s : Ram) : Except FsError Unit × Ram :=
  match ramfsRm path s.store with
  | .error e => (.error e, s)
  | .ok (store, node) => (.ok (), { s with store := store, free := freePages (collectPages node) s.free })

def opsStat (path : Text) (s : Ram) : Except FsError FsStat :=
  match splitPath path with
  | .error e => .error e
  | .ok cs =>
    match resolve cs s.store.root with
    | none => .error .enoent
    | some (.dir kids) => .ok ⟨true, 0, kids.length⟩
    | some (.file _ size _) => .ok ⟨false, size, blocks size⟩

/-- What the calls rely on: names and pages are in order, and a page of a file is a whole page. -/
structure Sound (s : Ram) : Prop where
  proper : s.store.root.Proper
  dir : ∃ kids, s.store.root = .dir kids
  apart : (s.free ++ collectPages s.store.root).Nodup
  sized : ∀ f ∈ files s.store.root, Sized f
  full : ∀ p ∈ collectPages s.store.root, (s.mem p).length = 4096
  used : s.store.used = (collectPages s.store.root).length

end Ram

/-- What a file system is for its callers: what stands at each path, and how many pages are used,
allowed and free. -/
structure Fs where
  files : List Text → Option Obj
  used : ℤ
  quota : ℤ
  free : ℕ

namespace Fs

/-- The pages of the file at a path. -/
def pagesAt (fs : Fs) (cs : List Text) : ℕ :=
  match fs.files cs with
  | some (.file content) => blocks content.length
  | _ => 0

def checkParent (fs : Fs) (cs : List Text) : Except FsError Unit :=
  match fs.files (parentComps cs) with
  | none => .error .enoent
  | some (.file _) => .error .enotdir
  | some .dir => .ok ()

/-- An empty file or directory at a path where there is nothing. -/
def add (cs : List Text) (obj : Obj) (fs : Fs) : Except FsError Fs := do
  fs.checkParent cs
  if (fs.files cs).isSome then .error .eexist
  else .ok { fs with files := Function.update fs.files cs (some obj) }

def create (cs : List Text) (fs : Fs) : Except FsError Fs :=
  if cs = [] then .error (.einval "cannot create root") else fs.add cs (.file [])

def mkdir (cs : List Text) (fs : Fs) : Except FsError Fs := if cs = [] then .error .eexist else fs.add cs .dir

/-- The content in the place of what stood at the path. -/
def put (cs : List Text) (content : Octets) (fs : Fs) : Fs :=
  { fs with
    files := Function.update fs.files cs (some (.file content))
    used := fs.used + blocks content.length - fs.pagesAt cs
    free := fs.free - blocks content.length + fs.pagesAt cs }

/-- A write needs the new pages while the old ones are still in use. -/
def write (cs : List Text) (content : Octets) (fs : Fs) : Except FsError Fs :=
  if cs = [] then .error .eisdir
  else if fs.quota < fs.used + blocks content.length - fs.pagesAt cs then .error .enospc
  else if fs.free < blocks content.length then .error .enospc
  else do
    fs.checkParent cs
    if fs.files cs = some .dir then .error .eisdir else .ok (fs.put cs content)

open Classical in
/-- A file, or a directory with nothing in it, goes from its path. -/
noncomputable def rm (cs : List Text) (fs : Fs) : Except FsError Fs :=
  if cs = [] then .error (.einval "cannot remove root")
  else do
    fs.checkParent cs
    if fs.files cs = none then .error .enoent
    else if ∃ c, fs.files (cs ++ [c]) ≠ none then .error (.einval "directory not empty")
    else
      .ok { fs with
        files := Function.update fs.files cs none
        used := max 0 (fs.used - fs.pagesAt cs)
        free := fs.free + fs.pagesAt cs }

def init (ram : ℕ) (fs : Fs) : Fs :=
  { files := fun cs => if cs = [] then some .dir else none, used := 0, quota := quotaPagesFor ram,
    free := fs.free + fs.used.toNat }

def read (cs : List Text) (fs : Fs) : Except FsError Octets :=
  match fs.files cs with
  | none => .error .enoent
  | some .dir => .error .eisdir
  | some (.file content) => .ok content

end Fs

/-- The table of what stands at each path of a state. -/
def Ram.abs (s : Ram) : Fs := ⟨look s.mem s.store.root, s.store.used, s.store.quota, s.free.length⟩

/-- A call answers as the one on the table does, and does to the state what that does to the table. -/
structure Refines (s : Ram) (r : Except FsError Unit × Ram) (a : Except FsError Fs) : Prop where
  answer : r.1 = a.map fun _ => ()
  files : r.2.abs = a.toOption.getD s.abs
  sound : r.2.Sound

theorem freePages_eq (ps free : List ℕ) : freePages ps free = ps.reverse ++ free := by
  rw [freePages]
  induction ps generalizing free with
  | nil => rfl
  | cons p ps ih => rw [List.foldl_cons, ih, List.reverse_cons, List.append_assoc, List.singleton_append]

theorem allocatePages_eq (n : ℕ) (acc free : List ℕ) : allocatePages n acc free =
    if n ≤ free.length then (some (acc.reverse ++ free.take n), free.drop n) else (none, acc.reverse ++ free) := by
  induction n generalizing acc free with
  | zero => simp [allocatePages]
  | succ n ih =>
    cases free with
    | nil => simp [allocatePages, freePages_eq]
    | cons p free =>
      rw [allocatePages, ih]
      simp only [List.length_cons, Nat.add_le_add_iff_right, List.reverse_cons, List.append_assoc,
        List.singleton_append, List.take_succ_cons, List.drop_succ_cons]

theorem writeBytesToPages_of_notMem {mem : ℕ → Octets} {ps : List ℕ} {p : ℕ} (h : p ∉ ps) (bs : Octets) :
    writeBytesToPages mem ps bs p = mem p := by
  induction ps generalizing mem bs with
  | nil => rfl
  | cons q ps ih =>
    obtain ⟨hne, hps⟩ := List.ne_and_not_mem_of_not_mem_cons h
    rw [writeBytesToPages, ih hps, Function.update_of_ne hne]

theorem length_pageOf {bs : Octets} (h : bs.length ≤ 4096) : (pageOf bs).length = 4096 := by
  rw [pageOf, List.length_append, List.length_replicate]
  omega

theorem writeBytesToPages_full (mem : ℕ → Octets) (ps : List ℕ) (bs : Octets) :
    ∀ p ∈ ps, (writeBytesToPages mem ps bs p).length = 4096 := by
  induction ps generalizing mem bs with
  | nil => simp
  | cons q ps ih =>
    intro p hp
    rw [writeBytesToPages]
    by_cases hmem : p ∈ ps
    · exact ih _ _ p hmem
    · obtain rfl | hp := List.mem_cons.mp hp
      · rw [writeBytesToPages_of_notMem hmem, Function.update_self, length_pageOf]
        exact (List.length_take_le _ _)
      · exact absurd hp hmem

/-- What is written to new pages is read from them. -/
theorem readBytesFromPages_write (mem : ℕ → Octets) {ps : List ℕ} {bs : Octets} (hnodup : ps.Nodup)
    (hlen : ps.length = blocks bs.length) :
    readBytesFromPages (writeBytesToPages mem ps bs) ps bs.length = bs := by
  induction ps generalizing mem bs with
  | nil =>
    simp only [blocks, List.length_nil] at hlen
    exact (List.length_eq_zero_iff.mp (by omega : bs.length = 0)).symm
  | cons p ps ih =>
    obtain ⟨hp, hps⟩ := List.nodup_cons.mp hnodup
    simp only [blocks, List.length_cons] at hlen
    obtain ⟨n, hn⟩ : ∃ n, bs.length = n + 1 := ⟨bs.length - 1, by omega⟩
    have hrest : readBytesFromPages (writeBytesToPages (Function.update mem p (pageOf (bs.take 4096))) ps (bs.drop 4096))
        ps (bs.length - 4096) = bs.drop 4096 := by
      rw [← List.length_drop]
      refine ih _ hps ?_
      simp only [blocks, List.length_drop]
      omega
    have hhead : (pageOf (bs.take 4096)).take (min (n + 1) 4096) = bs.take 4096 := by
      apply List.take_left'
      rw [List.length_take, hn, min_comm]
    rw [hn, writeBytesToPages, readBytesFromPages, writeBytesToPages_of_notMem hp, Function.update_self, hhead,
      show n + 1 - min (n + 1) 4096 = bs.length - 4096 by omega, hrest, List.take_append_drop]

theorem parent_last {cs : List Text} (h : cs ≠ []) : parentComps cs ++ [lastName cs] = cs := by
  rw [parentComps, lastName, List.getLast?_eq_getLast_of_ne_nil h, Option.getD_some, List.dropLast_append_getLast]

theorem lastName_mem {cs : List Text} (h : cs ≠ []) : lastName cs ∈ cs := by
  rw [lastName, List.getLast?_eq_getLast_of_ne_nil h, Option.getD_some]
  exact List.getLast_mem h

/-- In a directory, the entry of its name is what a path shows. -/
theorem resolve_last {cs : List Text} (h : cs ≠ []) {n : Node} {kids : List (Text × Node)}
    (hdir : resolve (parentComps cs) n = some (.dir kids)) : resolve cs n = lookupKid (lastName cs) kids := by
  conv_lhs => rw [← parent_last h, resolve_append, hdir]
  change resolve [lastName cs] (.dir kids) = _
  rw [resolve]
  cases lookupKid (lastName cs) kids <;> rfl

end HouseKernel.FileSystem.RamFs
