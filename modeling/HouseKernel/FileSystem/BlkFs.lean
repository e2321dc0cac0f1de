import HouseKernel.FileSystem.BlockStore

/-! The file system of one block-device slot. Every operation loads the whole image, works on the
list of its files and stores it again; directories are implied by the paths of the files, and an
empty directory lives in a cache beside the image for as long as the session lasts. -/
namespace HouseKernel.FileSystem

open HouseKernel.Lib

/-- The device of the slot and the directories cached for it. -/
structure BlkSlot where
  disk : Disk
  dirs : List (List Text)

def rememberDir (s : BlkSlot) (comps : List Text) : BlkSlot :=
  if comps ∈ s.dirs then s else { s with dirs := comps :: s.dirs }

def fileAt (files : Image) (comps : List Text) : Option Octets := files.lookup (joinRel comps)

/-- The components of the files; a path that does not split is left out. -/
def filesComps (files : Image) : List (List Text) := files.filterMap fun f => (splitPath f.1).toOption

def dirExists (files : Image) (cached : List (List Text)) (comps : List Text) : Bool :=
  comps = [] ∨ comps ∈ cached ∨ (filesComps files).any (comps.isPrefixOf ·)

def parentComps (cs : List Text) : List Text := cs.dropLast

/-- The checks on the way to a path below the root: its parent is a directory. -/
def checkParent (files : Image) (cached : List (List Text)) (cs : List Text) : Except FsError Unit :=
  if (fileAt files (parentComps cs)).isSome then .error .enotdir
  else if ¬ dirExists files cached (parentComps cs) then .error .enoent
  else .ok ()

/-- The checks of `create` and `mkdir`. -/
def checkNew (files : Image) (cached : List (List Text)) (cs : List Text) : Except FsError Unit := do
  checkParent files cached cs
  if (fileAt files cs).isSome ∨ cs ∈ cached then .error .eexist else .ok ()

def checkWrite (files : Image) (cached : List (List Text)) (cs : List Text) : Except FsError Unit := do
  checkParent files cached cs
  if (fileAt files cs).isSome ∧ cs ∈ cached then .error .eisdir else .ok ()

def without (files : Image) (cs : List Text) : Image := files.filter fun f => f.1 ≠ joinRel cs

/-- Store a file list; the cache stays. -/
def BlkSlot.store (s : BlkSlot) (files : Image) : Except FsError Unit × BlkSlot :=
  let r := storeFiles s.disk files
  (r.1, { s with disk := r.2 })

/-- An operation on a path: split, load, check, and then a change of the slot. `root` is the
answer for the root. -/
def withFiles (s : BlkSlot) (path : Text) (root : FsError)
    (check : Image → List (List Text) → List Text → Except FsError Unit)
    (act : Image → List Text → Except FsError Unit × BlkSlot) : Except FsError Unit × BlkSlot :=
  match splitPath path with
  | .error e => (.error e, s)
  | .ok [] => (.error root, s)
  | .ok cs =>
    match loadFiles s.disk with
    | .error e => (.error e, s)
    | .ok files =>
      match check files s.dirs cs with
      | .error e => (.error e, s)
      | .ok _ => act files cs

def blkCreate (s : BlkSlot) (path : Text) : Except FsError Unit × BlkSlot :=
  withFiles s path (.einval "cannot create root") checkNew fun files cs => s.store ((joinRel cs, []) :: files)

def blkMkdir (s : BlkSlot) (path : Text) : Except FsError Unit × BlkSlot :=
  withFiles s path .eexist checkNew fun _ cs => (.ok (), rememberDir s cs)

def blkWrite (s : BlkSlot) (path : Text) (content : Octets) : Except FsError Unit × BlkSlot :=
  withFiles s path .eisdir checkWrite fun files cs => s.store ((joinRel cs, content) :: without files cs)

/-- As in the code: only the empty prefix is strict. -/
def isStrictPrefixOf : List Text → List Text → Bool
  | [], _ :: _ => true
  | _, _ => false

def notEmpty : FsError := .einval "directory not empty"

/-- What `rm` does with the path: a file is dropped from the image, an empty directory from the
cache. -/
def rmEntry (s : BlkSlot) (files : Image) (cs : List Text) : Except FsError Unit × BlkSlot :=
  let hasKids := (filesComps files).any (isStrictPrefixOf cs)
  if (fileAt files cs).isSome then s.store (without files cs)
  else if cs ∈ s.dirs ∨ hasKids then
    if hasKids then (.error notEmpty, s) else (.ok (), { s with dirs := s.dirs.filter (· ≠ cs) })
  else (.error .enoent, s)

def blkRm (s : BlkSlot) (path : Text) : Except FsError Unit × BlkSlot :=
  withFiles s path (.einval "cannot remove root") (fun _ _ _ => .ok ()) fun files cs => rmEntry s files cs

/-- The first component below a directory. -/
def childOf (cs pcs : List Text) : Option Text :=
  if cs.isPrefixOf pcs then (pcs.drop cs.length).head? else none

/-- The names in a directory, each once. -/
def children (files : Image) (cached : List (List Text)) (cs : List Text) : List Text :=
  (filesComps files ++ cached).filterMap (childOf cs) |>.foldr (fun x xs => x :: xs.filter (· ≠ x)) []

def blkLs (s : BlkSlot) (path : Text) : Except FsError (List Text) := do
  let cs ← splitPath path
  let files ← loadFiles s.disk
  if (fileAt files cs).isSome then .error .enotdir
  else if ¬ dirExists files s.dirs cs then .error .enoent
  else .ok (children files s.dirs cs)

end HouseKernel.FileSystem
