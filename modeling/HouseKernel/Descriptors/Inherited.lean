import Mathlib.Tactic
import HouseKernel.Lib.Run
import HouseKernel.Descriptors.Fd

/-! Descriptors that outlive the process that opened them. The processes run twice: once as the
kernel runs them, and once with the namespace of every reaped process kept, as if it were still
alive. A descriptor answers the same in both as long as no namespace goes that one still names. -/
namespace HouseKernel.Descriptors

open HouseKernel.FileSystem HouseKernel.Lib

variable {ι β : Type*}

/-- The processes with their namespaces and descriptors. -/
structure FdWorld (ι β : Type*) where
  reg : Registry ι
  io : Io β
  procs : List ℕ
  pidNext : ℕ

inductive FdCall where
  | spawn
  | fork (parent : ℕ)
  | reap (pid : ℕ)
  | exec (pid : ℕ) (path : Text)
  | open (pid : ℕ) (path : Text) (flags : BitVec 64)
  | close (pid : ℕ) (fd : ℤ)
  | read (pid : ℕ) (fd n : ℤ)
  | write (pid : ℕ) (fd : ℤ) (content : Octets)
  | seek (pid : ℕ) (fd off whence : ℤ)

/-- What a call answers. -/
inductive Answer where
  | process (pid : Option ℕ)
  | image (r : Except FsError Octets)
  | descriptor (r : Except FdError ℤ)
  | closed (r : Except FdError Unit)
  | data (r : Except FdError Octets)
  | count (r : Option (Except FdError ℤ))

def vfsRead (env : FdEnv ι β) (r : Registry ι) (ns : ℕ) (path : Text) (b : β) : Except FsError Octets × β :=
  match vfsLookup r ns path with
  | .error e => (.error e, b)
  | .ok (ops, rel) => env.opsRead ops rel b

/-- A process that is started has the default namespace. -/
def runElf (w : FdWorld ι β) : Answer × FdWorld ι β :=
  let (bound, reg) := vfsBindPid w.reg w.pidNext defaultNamespace
  if bound then (.process (some w.pidNext), { w with reg := reg, procs := w.pidNext :: w.procs, pidNext := w.pidNext + 1 })
  else (.process none, { w with reg := reg })

def forkProc (w : FdWorld ι β) (parent : ℕ) : Answer × FdWorld ι β :=
  let child := w.pidNext
  (.process (some child),
    ⟨vfsForkPid w.reg parent child, { w.io with table := fdFork w.io.table parent child }, child :: w.procs,
      w.pidNext + 1⟩)

/-- The end of `waitPid` and of `killPid`; `kept` leaves the namespace of the process bound. -/
def reapPid (kept : Bool) (w : FdWorld ι β) (pid : ℕ) : Answer × FdWorld ι β :=
  (.process (some pid),
    { w with
      reg := if kept then w.reg else vfsReleasePid w.reg pid
      io := { w.io with table := fdRelease w.io.table pid }
      procs := w.procs.filter (· ≠ pid) })

/-- The file that replaces the image; the descriptors and the namespace stay. -/
def execReplace (env : FdEnv ι β) (w : FdWorld ι β) (pid : ℕ) (path : Text) : Answer × FdWorld ι β :=
  let (ns, reg) := vfsEnsurePid w.reg pid
  let (res, b) := vfsRead env reg ns path w.io.store
  (.image res, { w with reg := reg, io := { w.io with store := b } })

/-- The process that a call is made by, or is about. -/
def FdCall.pid? : FdCall → Option ℕ
  | .spawn => none
  | .fork pid | .reap pid | .exec pid _ | .open pid _ _ | .close pid _ | .read pid _ _ | .write pid _ _
  | .seek pid _ _ _ => some pid

def fdCall (env : FdEnv ι β) (kept : Bool) (w : FdWorld ι β) : FdCall → Answer × FdWorld ι β
  | .spawn => runElf w
  | .fork parent => forkProc w parent
  | .reap pid => reapPid kept w pid
  | .exec pid path => execReplace env w pid path
  | .open pid path flags =>
    let (res, reg, io) := fdOpen env w.reg pid path flags w.io
    (.descriptor res, { w with reg := reg, io := io })
  | .close pid fd =>
    let (res, io) := fdClose pid fd w.io
    (.closed res, { w with io := io })
  | .read pid fd n =>
    let (res, io) := fdRead env w.reg pid fd n w.io
    (.data res, { w with io := io })
  | .write pid fd content =>
    let (res, io) := fdWrite env w.reg pid fd content w.io
    (.count res, { w with io := io })
  | .seek pid fd off whence =>
    let (res, io) := fdSeek env w.reg pid fd off whence w.io
    (.descriptor res, { w with io := io })

/-- The kernel, and the kernel in which a reaped process still holds its namespace. -/
structure Twin (ι β : Type*) where
  real : FdWorld ι β
  kept : FdWorld ι β

/-- A live process makes a call, or is reaped, in both. -/
def twinStep (env : FdEnv ι β) (s : Twin ι β) (c : FdCall) : Option (Twin ι β) :=
  if ∀ pid ∈ c.pid?, pid ∈ s.real.procs then
    some ⟨(fdCall env false s.real c).2, (fdCall env true s.kept c).2⟩
  else none

/-- The call answers as it would with every opener still alive. -/
def SameAnswer (env : FdEnv ι β) (s : Twin ι β) (c : FdCall) : Prop :=
  (∀ pid ∈ c.pid?, pid ∈ s.real.procs) → (fdCall env false s.real c).1 = (fdCall env true s.kept c).1

/-- Some descriptor of a file names the namespace. -/
def Named (t : FdTable) (ns : ℕ) : Prop :=
  ∃ per ∈ elems t, ∃ e ∈ elems per, e.path ≠ consolePath ∧ e.ns = ns

/-- A process is reaped only when its namespace is the default one, another process is bound to
it, or no descriptor of a file that another process holds names it. -/
def NamespaceUnused (s : Twin ι β) : FdCall → Prop
  | .reap pid =>
    ∀ ns ∈ s.real.reg.pidNs.lookup pid, ns = defaultNamespace ∨ ns ∈ elems (s.real.reg.pidNs.erase pid) ∨
      ¬ Named (fdRelease s.real.io.table pid) ns
  | _ => True

theorem lookupEntry_erase (t : FdTable) (pid q : ℕ) (f : ℤ) :
    lookupEntry (t.erase pid) q f = if q = pid then none else lookupEntry t q f := by
  simp only [lookupEntry, lookup_erase_eq]
  split_ifs <;> rfl

theorem lookupEntry_insert (t : FdTable) (pid q : ℕ) (per : Dict ℤ Entry) (f : ℤ) :
    lookupEntry (t.insert pid per) q f = if q = pid then per.lookup f else lookupEntry t q f := by
  simp only [lookupEntry, lookup_insert_eq]
  split_ifs <;> rfl

/-- A process without a table has an empty one. -/
theorem lookup_getD (t : FdTable) (pid : ℕ) (f : ℤ) :
    ((t.lookup pid).getD ∅).lookup f = lookupEntry t pid f := by
  rw [lookupEntry]
  cases t.lookup pid <;> rfl

theorem lookupEntry_setEntry (t : FdTable) (pid q : ℕ) (fd f : ℤ) (e : Entry) :
    lookupEntry (setEntry t pid fd e) q f = if q = pid ∧ f = fd then some e else lookupEntry t q f := by
  rw [setEntry, lookupEntry_insert, lookup_insert_eq, lookup_getD]
  by_cases hq : q = pid
  · subst hq
    simp only [if_true, true_and]
  · simp only [hq, if_false, false_and]

theorem named_iff {t : FdTable} {ns : ℕ} :
    Named t ns ↔ ∃ pid fd e, lookupEntry t pid fd = some e ∧ e.path ≠ consolePath ∧ e.ns = ns := by
  simp only [Named, mem_elems, lookupEntry, Option.bind_eq_some_iff]
  constructor
  · rintro ⟨per, ⟨pid, hper⟩, e, ⟨fd, he⟩, hfile⟩
    exact ⟨pid, fd, e, ⟨per, hper, he⟩, hfile⟩
  · rintro ⟨pid, fd, e, ⟨per, hper, he⟩, hfile⟩
    exact ⟨per, ⟨pid, hper⟩, e, ⟨fd, he⟩, hfile⟩

/-- Every file that the second table names is named by the first one. -/
def Descends (t t' : FdTable) : Prop := ∀ ns, Named t' ns → Named t ns

theorem Descends.refl (t : FdTable) : Descends t t := fun _ h => h

theorem Descends.trans {t t' t'' : FdTable} (h : Descends t t') (h' : Descends t' t'') : Descends t t'' :=
  fun ns hns => h ns (h' ns hns)

theorem named_setEntry {t : FdTable} {pid ns : ℕ} {fd : ℤ} {e : Entry} (h : Named (setEntry t pid fd e) ns) :
    Named t ns ∨ e.path ≠ consolePath ∧ e.ns = ns := by
  obtain ⟨q, f, e', he', hfile⟩ := named_iff.mp h
  rw [lookupEntry_setEntry] at he'
  split_ifs at he'
  · obtain rfl := Option.some.inj he'
    exact .inr hfile
  · exact .inl (named_iff.mpr ⟨q, f, e', he', hfile⟩)

theorem commitOff_descends {γ : Type*} (io : Io β) (pid : ℕ) (fd : ℤ) (off : ℕ) (res : γ) :
    Descends io.table (commitOff io pid fd off res).2.table := by
  unfold commitOff
  split
  · exact Descends.refl _
  · next e he =>
    intro ns hns
    obtain h | h := named_setEntry hns
    · exact h
    · exact named_iff.mpr ⟨pid, fd, e, he, h⟩

theorem fdRead_descends (env : FdEnv ι β) (r : Registry ι) (pid : ℕ) (fd n : ℤ) (io : Io β) :
    Descends io.table (fdRead env r pid fd n io).2.table := by
  unfold fdRead
  split
  · exact Descends.refl _
  · split
    · exact Descends.refl _
    · split_ifs
      · exact Descends.refl _
      · exact Descends.refl _
      · split
        · exact Descends.refl _
        · split
          · exact Descends.refl _
          · exact commitOff_descends _ _ _ _ _

theorem fdSeek_descends (env : FdEnv ι β) (r : Registry ι) (pid : ℕ) (fd off whence : ℤ) (io : Io β) :
    Descends io.table (fdSeek env r pid fd off whence io).2.table := by
  unfold fdSeek
  split
  · exact Descends.refl _
  · split
    · exact Descends.refl _
    · split
      · exact Descends.refl _
      · dsimp only
        split
        · exact Descends.refl _
        · exact commitOff_descends _ _ _ _ _

theorem fdWriteStep_descends (env : FdEnv ι β) (r : Registry ι) (pid : ℕ) (fd : ℤ) (content : Octets)
    (s : WritePhase ι × Io β) : Descends s.2.table (fdWriteStep env r pid fd content s).2.table := by
  obtain ⟨phase, io⟩ := s
  cases phase with
  | written ent => exact commitOff_descends _ _ _ _ _
  | done res => exact Descends.refl _
  | _ =>
    unfold fdWriteStep
    dsimp only
    repeat' split
    all_goals exact Descends.refl _

theorem fdWrite_descends (env : FdEnv ι β) (r : Registry ι) (pid : ℕ) (fd : ℤ) (content : Octets) (io : Io β) :
    Descends io.table (fdWrite env r pid fd content io).2.table := by
  have hrun : ∀ n (s : WritePhase ι × Io β),
      Descends s.2.table ((fdWriteStep env r pid fd content)^[n] s).2.table := by
    intro n
    induction n with
    | zero => exact fun s => Descends.refl _
    | succ n ih => exact fun s => (fdWriteStep_descends env r pid fd content s).trans (ih _)
  exact hrun 5 (.start, io)

theorem fdClose_descends (pid : ℕ) (fd : ℤ) (io : Io β) : Descends io.table (fdClose pid fd io).2.table := by
  unfold fdClose
  split
  · exact Descends.refl _
  · next e he =>
    intro ns hns
    obtain ⟨q, f, e', he', hfile⟩ := named_iff.mp hns
    refine named_iff.mpr ⟨q, f, e', ?_, hfile⟩
    dsimp only at he'
    split_ifs at he'
    · rw [lookupEntry_erase] at he'
      split_ifs at he'
      exact he'
    · rw [lookupEntry_insert, lookup_erase_eq, lookup_getD] at he'
      split_ifs at he' with hq
      · rwa [hq]
      · exact he'

theorem fdFork_descends (t : FdTable) (parent child : ℕ) : Descends t (fdFork t parent child) := by
  unfold fdFork
  split
  · exact Descends.refl _
  · next per hper =>
    intro ns hns
    obtain ⟨q, f, e, he, hfile⟩ := named_iff.mp hns
    rw [lookupEntry_insert] at he
    split_ifs at he
    · refine named_iff.mpr ⟨parent, f, e, ?_, hfile⟩
      rw [lookupEntry, hper]
      exact he
    · exact named_iff.mpr ⟨q, f, e, he, hfile⟩

theorem fdRelease_descends (t : FdTable) (pid : ℕ) : Descends t (fdRelease t pid) := by
  intro ns hns
  obtain ⟨q, f, e, he, hfile⟩ := named_iff.mp hns
  rw [fdRelease, lookupEntry_erase] at he
  split_ifs at he
  exact named_iff.mpr ⟨q, f, e, he, hfile⟩

/-- The registries have the same mounts wherever a descriptor of a file points. -/
def SameFiles (r r' : Registry ι) (t : FdTable) : Prop := ∀ ns, Named t ns → SameMounts r r' ns

theorem SameFiles.vfsLookup {r r' : Registry ι} {t : FdTable} (h : SameFiles r r' t) {pid : ℕ} {fd : ℤ} {e : Entry}
    (he : lookupEntry t pid fd = some e) (hfile : e.path ≠ consolePath) :
    vfsLookup r e.ns e.path = vfsLookup r' e.ns e.path :=
  vfsLookup_congr (h e.ns (named_iff.mpr ⟨pid, fd, e, he, hfile, rfl⟩)) _

theorem fdRead_congr (env : FdEnv ι β) {r r' : Registry ι} {io : Io β} (h : SameFiles r r' io.table)
    (pid : ℕ) (fd n : ℤ) : fdRead env r pid fd n io = fdRead env r' pid fd n io := by
  unfold fdRead
  cases he : lookupEntry io.table pid fd with
  | none => rfl
  | some e =>
    by_cases hfile : e.path = consolePath
    · simp only [if_pos hfile]
    · simp only [if_neg hfile, h.vfsLookup he hfile]

theorem fdSeek_congr (env : FdEnv ι β) {r r' : Registry ι} {io : Io β} (h : SameFiles r r' io.table)
    (pid : ℕ) (fd off whence : ℤ) : fdSeek env r pid fd off whence io = fdSeek env r' pid fd off whence io := by
  unfold fdSeek
  cases he : lookupEntry io.table pid fd with
  | none => rfl
  | some e =>
    by_cases hfile : e.path = consolePath
    · simp only [if_pos hfile]
    · simp only [if_neg hfile, seekBase, h.vfsLookup he hfile]

/-- The path has been resolved, or the call is over. -/
def Late : WritePhase ι → Prop
  | .start => False
  | .opened _ => False
  | _ => True

theorem fdWriteStep_late (env : FdEnv ι β) (r r' : Registry ι) (pid : ℕ) (fd : ℤ) (content : Octets)
    {s : WritePhase ι × Io β} (h : Late s.1) :
    fdWriteStep env r pid fd content s = fdWriteStep env r' pid fd content s ∧
      Late (fdWriteStep env r pid fd content s).1 := by
  obtain ⟨phase, io⟩ := s
  refine ⟨?_, ?_⟩
  · cases phase with
    | start => exact h.elim
    | opened e => exact h.elim
    | _ => rfl
  · cases phase with
    | start => exact h.elim
    | opened e => exact h.elim
    | written e => trivial
    | done res => trivial
    | _ =>
      unfold fdWriteStep
      dsimp only
      repeat' split
      all_goals trivial

theorem fdWriteStep_opened (env : FdEnv ι β) (r : Registry ι) (pid : ℕ) (fd : ℤ) (content : Octets) (e : Entry)
    (io : Io β) : Late (fdWriteStep env r pid fd content (.opened e, io)).1 := by
  unfold fdWriteStep
  dsimp only
  split <;> trivial

/-- The first step takes the entry from the table, or is the last one. -/
theorem fdWriteStep_start (env : FdEnv ι β) (r : Registry ι) (pid : ℕ) (fd : ℤ) (content : Octets) (io : Io β) :
    (∃ e, lookupEntry io.table pid fd = some e ∧ e.path ≠ consolePath ∧
      fdWriteStep env r pid fd content (.start, io) = (.opened e, io)) ∨
    Late (fdWriteStep env r pid fd content (.start, io)).1 := by
  unfold fdWriteStep
  dsimp only
  split_ifs
  · exact .inr trivial
  · cases he : lookupEntry io.table pid fd with
    | none => exact .inr trivial
    | some e =>
      dsimp only
      split_ifs with _ hfile
      · exact .inr trivial
      · exact .inr trivial
      · exact .inl ⟨e, rfl, hfile, rfl⟩

theorem fdWrite_congr (env : FdEnv ι β) {r r' : Registry ι} {io : Io β} (h : SameFiles r r' io.table)
    (pid : ℕ) (fd : ℤ) (content : Octets) : fdWrite env r pid fd content io = fdWrite env r' pid fd content io := by
  have hlate : ∀ n (s : WritePhase ι × Io β), Late s.1 →
      (fdWriteStep env r pid fd content)^[n] s = (fdWriteStep env r' pid fd content)^[n] s := by
    intro n
    induction n with
    | zero => exact fun s _ => rfl
    | succ n ih =>
      intro s hs
      obtain ⟨heq, hnext⟩ := fdWriteStep_late env r r' pid fd content hs
      rw [Function.iterate_succ_apply, Function.iterate_succ_apply, ← heq]
      exact ih _ hnext
  have hsame : fdWriteStep env r pid fd content (.start, io) = fdWriteStep env r' pid fd content (.start, io) := rfl
  have hunroll : ∀ (r : Registry ι) n (s : WritePhase ι × Io β), (fdWriteStep env r pid fd content)^[n + 1] s =
      (fdWriteStep env r pid fd content)^[n] (fdWriteStep env r pid fd content s) :=
    fun r n s => Function.iterate_succ_apply _ _ _
  have hall : (fdWriteStep env r pid fd content)^[5] (.start, io) =
      (fdWriteStep env r' pid fd content)^[5] (.start, io) := by
    rw [hunroll r 4, hunroll r' 4, ← hsame]
    obtain ⟨e, he, hfile, hopen⟩ | hdone := fdWriteStep_start env r pid fd content io
    · have hresolve : fdWriteStep env r pid fd content (.opened e, io) =
          fdWriteStep env r' pid fd content (.opened e, io) := by
        simp only [fdWriteStep, h.vfsLookup he hfile]
      rw [hopen, hunroll r 3, hunroll r' 3, ← hresolve]
      exact hlate 3 _ (fdWriteStep_opened env r pid fd content e io)
    · exact hlate 4 _ hdone
  unfold fdWrite
  rw [hall]

/-- The kernel and the one that keeps every namespace differ in nothing that a live process or one
of its descriptors can reach. -/
structure Twin.Agree (s : Twin ι β) : Prop where
  io : s.real.io = s.kept.io
  procs : s.real.procs = s.kept.procs
  pidNext : s.real.pidNext = s.kept.pidNext
  nsNext : s.real.reg.nsNext = s.kept.reg.nsNext
  below : ∀ p ∈ s.real.procs, p < s.real.pidNext
  fresh : ∀ p, s.real.pidNext ≤ p → s.real.reg.pidNs.lookup p = none ∧ s.kept.reg.pidNs.lookup p = none
  bound : ∀ p ∈ s.real.procs, s.real.reg.pidNs.lookup p = s.kept.reg.pidNs.lookup p
  default : SameMounts s.real.reg s.kept.reg defaultNamespace
  own : ∀ p ∈ s.real.procs, ∀ ns ∈ s.real.reg.pidNs.lookup p, SameMounts s.real.reg s.kept.reg ns
  files : SameFiles s.real.reg s.kept.reg s.real.io.table

/-- What a live process resolves its paths in is the same in both. -/
theorem Twin.Agree.ensure {s : Twin ι β} (h : s.Agree) {p : ℕ} (hp : p ∈ s.real.procs) :
    (vfsEnsurePid s.real.reg p).1 = (vfsEnsurePid s.kept.reg p).1 ∧
      SameMounts s.real.reg s.kept.reg (vfsEnsurePid s.real.reg p).1 := by
  rw [vfsEnsurePid_fst, vfsEnsurePid_fst, h.bound p hp]
  refine ⟨rfl, ?_⟩
  cases hns : s.kept.reg.pidNs.lookup p with
  | none => exact h.default
  | some ns => exact h.own p hp ns (by rw [h.bound p hp, hns]; rfl)

/-- Both give a live process the namespace that it has by default. -/
theorem Twin.Agree.ensured {s : Twin ι β} (h : s.Agree) {p : ℕ} (hp : p ∈ s.real.procs) :
    Twin.Agree ⟨{ s.real with reg := (vfsEnsurePid s.real.reg p).2 },
      { s.kept with reg := (vfsEnsurePid s.kept.reg p).2 }⟩ := by
  obtain ⟨hns, hmounts⟩ := h.ensure hp
  obtain ⟨hreal, hrealNext⟩ := vfsEnsurePid_mounts s.real.reg p
  obtain ⟨hkept, hkeptNext⟩ := vfsEnsurePid_mounts s.kept.reg p
  have hsame : ∀ ns, SameMounts s.real.reg s.kept.reg ns →
      SameMounts (vfsEnsurePid s.real.reg p).2 (vfsEnsurePid s.kept.reg p).2 ns := by
    intro ns hns
    rwa [SameMounts, hreal, hkept]
  constructor
  case io => exact h.io
  case procs => exact h.procs
  case pidNext => exact h.pidNext
  case nsNext => exact hrealNext.trans (h.nsNext.trans hkeptNext.symm)
  case below => exact h.below
  case fresh =>
    intro q hq
    have hne : q ≠ p := (h.below p hp).trans_le hq |>.ne'
    simp only [vfsEnsurePid_lookup, if_neg hne]
    exact h.fresh q hq
  case bound =>
    intro q hq
    simp only [vfsEnsurePid_lookup, hns, h.bound q hq]
  case default => exact hsame _ h.default
  case own =>
    intro q hq ns hmem
    apply hsame
    simp only [vfsEnsurePid_lookup] at hmem
    split_ifs at hmem
    · obtain rfl := Option.some.inj hmem
      exact hmounts
    · exact h.own q hq ns hmem
  case files => exact fun ns hnamed => hsame ns (h.files ns hnamed)

/-- Calls that only use the descriptors change both in the same way. -/
theorem Twin.Agree.withIo {s : Twin ι β} (h : s.Agree) {io io' : Io β} (heq : io = io')
    (hdesc : ∀ ns, Named io.table ns → SameMounts s.real.reg s.kept.reg ns) :
    Twin.Agree ⟨{ s.real with io := io }, { s.kept with io := io' }⟩ where
  io := heq
  procs := h.procs
  pidNext := h.pidNext
  nsNext := h.nsNext
  below := h.below
  fresh := h.fresh
  bound := h.bound
  default := h.default
  own := h.own
  files := hdesc

/-- Both answer the call alike, and agree afterwards. -/
def Twin.Alike (env : FdEnv ι β) (s : Twin ι β) (c : FdCall) : Prop :=
  (fdCall env false s.real c).1 = (fdCall env true s.kept c).1 ∧
    Twin.Agree ⟨(fdCall env false s.real c).2, (fdCall env true s.kept c).2⟩

theorem alike_spawn (env : FdEnv ι β) {s : Twin ι β} (h : s.Agree) : s.Alike env .spawn := by
  obtain ⟨hfresh, hfresh'⟩ := h.fresh s.real.pidNext (Nat.le_refl _)
  have hpid := h.pidNext
  have hdefault := h.default
  unfold SameMounts at hdefault
  by_cases hmount : (s.real.reg.nsTable.lookup defaultNamespace).isNone
  · have hmount' : (s.kept.reg.nsTable.lookup defaultNamespace).isNone := hdefault ▸ hmount
    simp only [Twin.Alike, fdCall, runElf, vfsBindPid, hmount, hmount', if_true, Bool.false_eq_true, if_false,
      true_and]
    exact h
  · have hmount' : ¬ (s.kept.reg.nsTable.lookup defaultNamespace).isNone := hdefault ▸ hmount
    rw [hpid] at hfresh'
    simp only [Twin.Alike, fdCall, runElf, vfsBindPid, if_neg hmount, if_neg hmount', hfresh, hfresh', Option.mem_def,
      reduceCtorEq, false_and, exists_false, if_false, if_true, hpid, true_and]
    constructor
    case io => exact h.io
    case procs => exact congrArg (s.kept.pidNext :: ·) h.procs
    case pidNext => rfl
    case nsNext => exact h.nsNext
    case below =>
      intro p hp
      obtain rfl | hp := List.mem_cons.mp hp
      · exact Nat.lt_succ_self _
      · exact (h.below p hp).trans_le (by rw [hpid]; exact Nat.le_succ _)
    case fresh =>
      intro p hp
      have hne : p ≠ s.kept.pidNext := Nat.ne_of_gt hp
      simp only [lookup_insert_eq, if_neg hne]
      exact h.fresh p (by rw [hpid]; exact Nat.le_of_succ_le hp)
    case bound =>
      intro p hp
      simp only [lookup_insert_eq]
      split_ifs with heq
      · rfl
      · obtain rfl | hp := List.mem_cons.mp hp
        · exact absurd rfl heq
        · exact h.bound p hp
    case default => exact h.default
    case own =>
      intro p hp ns hns
      simp only [lookup_insert_eq] at hns
      split_ifs at hns with heq
      · obtain rfl := Option.some.inj hns
        exact h.default
      · obtain rfl | hp := List.mem_cons.mp hp
        · exact absurd rfl heq
        · exact h.own p hp ns hns
    case files => exact h.files

theorem alike_fork (env : FdEnv ι β) {s : Twin ι β} (h : s.Agree) {parent : ℕ} (hparent : parent ∈ s.real.procs) :
    s.Alike env (.fork parent) := by
  obtain ⟨hns, hmounts⟩ := h.ensure hparent
  have hpid := h.pidNext
  have hsame : ∀ n, n = s.real.reg.nsNext ∨ SameMounts s.real.reg s.kept.reg n →
      SameMounts (vfsForkPid s.real.reg parent s.real.pidNext) (vfsForkPid s.kept.reg parent s.kept.pidNext) n := by
    intro n hn
    unfold SameMounts
    rw [vfsForkPid_mounts, vfsForkPid_mounts, ← hns, ← h.nsNext, hmounts]
    split_ifs with heq
    · rfl
    · exact hn.resolve_left heq
  have hlookup : ∀ p, p ∈ s.real.pidNext :: s.real.procs →
      (vfsForkPid s.real.reg parent s.real.pidNext).pidNs.lookup p =
        (vfsForkPid s.kept.reg parent s.kept.pidNext).pidNs.lookup p := by
    intro p hp
    simp only [vfsForkPid_lookup, vfsEnsurePid_lookup, ← hns, ← h.nsNext, ← hpid]
    split_ifs with hchild
    · rfl
    · rfl
    · obtain rfl | hp := List.mem_cons.mp hp
      · exact absurd rfl hchild
      · exact h.bound p hp
  refine ⟨congrArg (fun n => Answer.process (some n)) hpid, ?_⟩
  constructor
  case io =>
    simp only [fdCall, forkProc, h.io, hpid]
  case procs =>
    simp only [fdCall, forkProc, h.procs, hpid]
  case pidNext => exact congrArg (· + 1) hpid
  case nsNext =>
    simp only [fdCall, forkProc, vfsForkPid_next, h.nsNext]
  case below =>
    intro p hp
    obtain rfl | hp := List.mem_cons.mp hp
    · exact Nat.lt_succ_self _
    · exact (h.below p hp).trans (Nat.lt_succ_self _)
  case fresh =>
    intro p hp
    have hp' : s.real.pidNext + 1 ≤ p := hp
    have hchild : p ≠ s.real.pidNext := by omega
    have hchild' : p ≠ s.kept.pidNext := hpid ▸ hchild
    have hne : p ≠ parent := by
      have := h.below parent hparent
      omega
    simp only [fdCall, forkProc, vfsForkPid_lookup, vfsEnsurePid_lookup, if_neg hchild, if_neg hchild', if_neg hne]
    exact h.fresh p (by omega)
  case bound => exact hlookup
  case default => exact hsame _ (.inr h.default)
  case own =>
    intro p hp ns hmem
    simp only [fdCall, forkProc, vfsForkPid_lookup, vfsEnsurePid_lookup] at hmem
    apply hsame
    split_ifs at hmem with hchild
    · obtain rfl := Option.some.inj hmem
      exact .inl rfl
    · obtain rfl := Option.some.inj hmem
      exact .inr hmounts
    · obtain rfl | hp := List.mem_cons.mp hp
      · exact absurd rfl hchild
      · exact .inr (h.own p hp ns hmem)
  case files =>
    intro ns hnamed
    exact hsame ns (.inr (h.files ns (fdFork_descends _ _ _ ns hnamed)))

theorem alike_reap (env : FdEnv ι β) {s : Twin ι β} (h : s.Agree) {pid : ℕ}
    (hunused : NamespaceUnused s (.reap pid)) : s.Alike env (.reap pid) := by
  have hreal : ∀ n, (∀ ns ∈ s.real.reg.pidNs.lookup pid, ns = n → ns = defaultNamespace ∨
      ns ∈ elems (s.real.reg.pidNs.erase pid)) → SameMounts s.real.reg s.kept.reg n →
      SameMounts (vfsReleasePid s.real.reg pid) s.kept.reg n :=
    fun n hn hsame => (vfsReleasePid_mounts hn).trans hsame
  refine ⟨rfl, ?_⟩
  constructor
  case io => simp only [fdCall, reapPid, h.io]
  case procs => simp only [fdCall, reapPid, h.procs]
  case pidNext => exact h.pidNext
  case nsNext => exact (vfsReleasePid_next _ _).trans h.nsNext
  case below => exact fun p hp => h.below p (List.mem_filter.mp hp).1
  case fresh =>
    intro p hp
    simp only [fdCall, reapPid, if_true, Bool.false_eq_true, if_false, vfsReleasePid_lookup]
    obtain ⟨hr, hk⟩ := h.fresh p hp
    exact ⟨by rw [hr, ite_self], hk⟩
  case bound =>
    intro p hp
    obtain ⟨hmem, hne⟩ : p ∈ s.real.procs ∧ p ≠ pid := by
      simpa [fdCall, reapPid] using hp
    simp only [fdCall, reapPid, if_true, Bool.false_eq_true, if_false, vfsReleasePid_lookup, if_neg hne]
    exact h.bound p hmem
  case default => exact hreal _ (fun ns _ heq => .inl heq) h.default
  case own =>
    intro p hp ns hns
    obtain ⟨hmem, hne⟩ : p ∈ s.real.procs ∧ p ≠ pid := by
      simpa [fdCall, reapPid] using hp
    simp only [fdCall, reapPid, Bool.false_eq_true, if_false, vfsReleasePid_lookup, if_neg hne] at hns
    refine hreal ns (fun ns' _ heq => .inr (mem_elems.mpr ⟨p, ?_⟩)) (h.own p hmem ns hns)
    rw [lookup_erase_eq, if_neg hne, heq]
    exact hns
  case files =>
    intro ns hnamed
    refine hreal ns (fun ns' hns' heq => ?_) (h.files ns (fdRelease_descends _ _ ns hnamed))
    obtain hdef | hbound | hnot := hunused ns' hns'
    · exact .inl hdef
    · exact .inr hbound
    · exact absurd (heq ▸ hnamed) hnot

theorem alike_exec (env : FdEnv ι β) {s : Twin ι β} (h : s.Agree) {pid : ℕ} (hpid : pid ∈ s.real.procs) (path : Text) :
    s.Alike env (.exec pid path) := by
  obtain ⟨hns, hmounts⟩ := h.ensure hpid
  have hens := h.ensured hpid
  have hmounts' : SameMounts (vfsEnsurePid s.real.reg pid).2 (vfsEnsurePid s.kept.reg pid).2
      (vfsEnsurePid s.real.reg pid).1 := by
    rw [SameMounts, (vfsEnsurePid_mounts _ _).1, (vfsEnsurePid_mounts _ _).1]
    exact hmounts
  have hread : vfsRead env (vfsEnsurePid s.real.reg pid).2 (vfsEnsurePid s.real.reg pid).1 path s.real.io.store =
      vfsRead env (vfsEnsurePid s.kept.reg pid).2 (vfsEnsurePid s.kept.reg pid).1 path s.kept.io.store := by
    rw [vfsRead, vfsRead, vfsLookup_congr hmounts', hns, h.io]
  refine ⟨?_, ?_⟩
  · simp only [fdCall, execReplace, hread]
  · simp only [fdCall, execReplace, hread]
    refine hens.withIo (by rw [h.io]) fun ns hnamed => ?_
    exact hens.files ns hnamed

theorem insertEntry_descends {io : Io β} {pid : ℕ} {e : Entry} {ns : ℕ}
    (h : Named (insertEntry io pid e).2.table ns) : Named io.table ns ∨ e.ns = ns := by
  unfold insertEntry at h
  split at h
  · exact .inl h
  · exact (named_setEntry h).imp_right And.right

theorem openResolved_descends {env : FdEnv ι β} {ops : ι} {rel path : Text} {flags : BitVec 64} {pid n : ℕ} {io : Io β}
    {ns : ℕ} (h : Named (openResolved env ops rel path flags pid n io).2.table ns) : Named io.table ns ∨ n = ns := by
  unfold openResolved at h
  dsimp only at h
  split at h
  · split_ifs at h
    · exact .inl h
    · split at h
      · exact .inl h
      · exact insertEntry_descends h
    · exact insertEntry_descends h
  · split_ifs at h
    · split at h
      · exact .inl h
      · exact insertEntry_descends h
    · exact .inl h
  · exact .inl h

theorem alike_open (env : FdEnv ι β) {s : Twin ι β} (h : s.Agree) {pid : ℕ} (hpid : pid ∈ s.real.procs) (path : Text)
    (flags : BitVec 64) : s.Alike env (.open pid path flags) := by
  obtain ⟨hns, hmounts⟩ := h.ensure hpid
  have hens := h.ensured hpid
  have hmounts' : SameMounts (vfsEnsurePid s.real.reg pid).2 (vfsEnsurePid s.kept.reg pid).2
      (vfsEnsurePid s.real.reg pid).1 := by
    rw [SameMounts, (vfsEnsurePid_mounts _ _).1, (vfsEnsurePid_mounts _ _).1]
    exact hmounts
  have hlookup := vfsLookup_congr hmounts' path
  have hopened : ∀ io : Io β, (∀ ns, Named io.table ns → Named s.real.io.table ns ∨ (vfsEnsurePid s.real.reg pid).1 = ns) →
      Twin.Agree ⟨{ s.real with reg := (vfsEnsurePid s.real.reg pid).2, io := io },
        { s.kept with reg := (vfsEnsurePid s.kept.reg pid).2, io := io }⟩ := by
    intro io hio
    refine hens.withIo rfl fun ns hnamed => ?_
    obtain hold | rfl := hio ns hnamed
    · exact hens.files ns hold
    · exact hmounts'
  unfold Twin.Alike
  simp only [fdCall, fdOpen, ← h.io]
  by_cases hflags : validFlags flags = false
  · simp only [if_pos hflags]
    exact ⟨trivial, h.withIo rfl h.files⟩
  simp only [if_neg hflags]
  by_cases hcon : path = consolePath
  · simp only [if_pos hcon]
    cases env.findConsoleSlot s.real.io.store with
    | none => exact ⟨rfl, h.withIo rfl h.files⟩
    | some slot =>
      simp only [← hns]
      exact ⟨trivial, hopened _ fun ns hnamed => insertEntry_descends hnamed⟩
  simp only [if_neg hcon]
  cases splitPath path with
  | error e => exact ⟨rfl, h.withIo rfl h.files⟩
  | ok comps =>
    simp only [← hns, ← hlookup]
    cases vfsLookup (vfsEnsurePid s.real.reg pid).2 (vfsEnsurePid s.real.reg pid).1 path with
    | error e => exact ⟨rfl, hopened _ fun ns hnamed => .inl hnamed⟩
    | ok found => exact ⟨rfl, hopened _ fun ns hnamed => openResolved_descends hnamed⟩

/-- Every call answers as it would with every opener still alive. -/
theorem alike_of_unused (env : FdEnv ι β) {s : Twin ι β} {c : FdCall} (h : s.Agree)
    (hlive : ∀ pid ∈ c.pid?, pid ∈ s.real.procs) (hunused : NamespaceUnused s c) : s.Alike env c := by
  cases c with
  | spawn => exact alike_spawn env h
  | fork parent => exact alike_fork env h (hlive parent rfl)
  | reap pid => exact alike_reap env h hunused
  | exec pid path => exact alike_exec env h (hlive pid rfl) path
  | «open» pid path flags => exact alike_open env h (hlive pid rfl) path flags
  | close pid fd =>
    have hsame : fdClose pid fd s.real.io = fdClose pid fd s.kept.io := by rw [h.io]
    have hnext := h.withIo (congrArg Prod.snd hsame) fun ns hnamed => h.files ns (fdClose_descends _ _ _ ns hnamed)
    exact ⟨by simp only [fdCall, hsame], hnext⟩
  | read pid fd n =>
    have hsame : fdRead env s.real.reg pid fd n s.real.io = fdRead env s.kept.reg pid fd n s.kept.io := by
      rw [fdRead_congr env h.files, h.io]
    have hnext := h.withIo (congrArg Prod.snd hsame) fun ns hnamed => h.files ns (fdRead_descends _ _ _ _ _ _ ns hnamed)
    exact ⟨by simp only [fdCall, hsame], hnext⟩
  | write pid fd content =>
    have hsame : fdWrite env s.real.reg pid fd content s.real.io = fdWrite env s.kept.reg pid fd content s.kept.io := by
      rw [fdWrite_congr env h.files, h.io]
    have hnext := h.withIo (congrArg Prod.snd hsame) fun ns hnamed => h.files ns (fdWrite_descends _ _ _ _ _ _ ns hnamed)
    exact ⟨by simp only [fdCall, hsame], hnext⟩
  | seek pid fd off whence =>
    have hsame : fdSeek env s.real.reg pid fd off whence s.real.io =
        fdSeek env s.kept.reg pid fd off whence s.kept.io := by
      rw [fdSeek_congr env h.files, h.io]
    have hnext := h.withIo (congrArg Prod.snd hsame) fun ns hnamed => h.files ns (fdSeek_descends _ _ _ _ _ _ _ ns hnamed)
    exact ⟨by simp only [fdCall, hsame], hnext⟩

/-- Boot: the default namespace has its mounts, and the shell is process 0. -/
def fdBoot (mounts : List (Mount ι)) (store : β) : FdWorld ι β :=
  ⟨⟨AList.singleton defaultNamespace mounts, 1, ∅⟩, ⟨∅, store⟩, [0], 1⟩

theorem fdBoot_agree (mounts : List (Mount ι)) (store : β) : Twin.Agree ⟨fdBoot mounts store, fdBoot mounts store⟩ where
  io := rfl
  procs := rfl
  pidNext := rfl
  nsNext := rfl
  below := by
    intro p hp
    obtain rfl := List.mem_singleton.mp hp
    exact Nat.one_pos
  fresh := fun _ _ => ⟨rfl, rfl⟩
  bound := fun _ _ => rfl
  default := rfl
  own := nofun
  files := fun _ _ => rfl

/-- In every run in which no namespace goes that a descriptor of another process still names,
every call of a live process answers as it would with every opener still alive. -/
theorem inherited_descriptors_kept (env : FdEnv ι β) (mounts : List (Mount ι)) (store : β) (cs : List FdCall)
    (h : Along (twinStep env) NamespaceUnused ⟨fdBoot mounts store, fdBoot mounts store⟩ cs) :
    Along (twinStep env) (SameAnswer env) ⟨fdBoot mounts store, fdBoot mounts store⟩ cs := by
  refine along_of_invariant (A := fun _ => True) (I := Twin.Agree) ?_ ?_ (fun _ _ => trivial) (fdBoot_agree mounts store) h
  · intro s c t _ hs hunused hstep
    unfold twinStep at hstep
    split_ifs at hstep with hlive
    obtain rfl := Option.some.inj hstep
    exact (alike_of_unused env hs hlive hunused).2
  · intro s c _ hs hunused hlive
    exact (alike_of_unused env hs hlive hunused).1

/-- One backend that keeps its files in memory, and no console. -/
def memEnv : FdEnv Unit (List (Text × Octets)) where
  opsCreate _ path files :=
    if (files.find? fun f => f.1 == path).isSome then (.error .eexist, files) else (.ok (), (path, []) :: files)
  opsWrite _ path content files := (.ok (), (path, content) :: files.filter fun f => f.1 != path)
  opsRead _ path files :=
    match files.find? fun f => f.1 == path with
    | none => (.error .enoent, files)
    | some f => (.ok f.2, files)
  opsStat _ path files :=
    match files.find? fun f => f.1 == path with
    | none => (.error .enoent, files)
    | some f => (.ok ⟨false, f.2.length, (f.2.length + 4095) / 4096⟩, files)
  findConsoleSlot _ := none
  conReadBytes _ files := (none, files)
  conWriteBytes _ _ files := (none, files)

def memTwin : Twin Unit (List (Text × Octets)) := ⟨fdBoot [⟨[], ()⟩] [], fdBoot [⟨[], ()⟩] []⟩

instance (t : FdTable) (ns : ℕ) : Decidable (Named t ns) :=
  inferInstanceAs (Decidable (∃ per ∈ elems t, ∃ e ∈ elems per, e.path ≠ consolePath ∧ e.ns = ns))

instance (s : Twin ι β) : ∀ c : FdCall, Decidable (NamespaceUnused s c)
  | .reap pid => inferInstanceAs (Decidable (∀ ns ∈ s.real.reg.pidNs.lookup pid, _))
  | .spawn | .fork _ | .exec _ _ | .open _ _ _ | .close _ _ | .read _ _ _ | .write _ _ _ | .seek _ _ _ _ =>
    isTrue trivial

/-- The opener is reaped, and its child goes on with what was opened in the default namespace. -/
theorem inherited_descriptors_kept_default : Along (twinStep memEnv) (SameAnswer memEnv) memTwin
    [.spawn, .open 1 (text "/f") 0x42, .fork 1, .reap 1, .write 2 3 [1, 2], .seek 2 3 0 0, .read 2 3 4] :=
  inherited_descriptors_kept memEnv _ _ _ (by decide)

def Answer.bytes? : Answer → Option Octets
  | .data r => r.toOption
  | _ => none

/-- The opener is reaped while its child still holds the descriptor, and the child cannot read. -/
theorem inherited_descriptor_lost : ¬ Along (twinStep memEnv) (SameAnswer memEnv) memTwin
    [.spawn, .fork 1, .open 2 (text "/f") 0x42, .fork 2, .reap 2, .read 3 3 4] := by
  obtain ⟨s, hs, hlive, hdiffer⟩ : ∃ s ∈ run (twinStep memEnv) memTwin
      [.spawn, .fork 1, .open 2 (text "/f") 0x42, .fork 2, .reap 2], 3 ∈ s.real.procs ∧
        (fdCall memEnv false s.real (.read 3 3 4)).1.bytes? ≠ (fdCall memEnv true s.kept (.read 3 3 4)).1.bytes? := by
    decide
  refine not_along_concat hs fun hsame => hdiffer ?_
  rw [hsame fun pid hpid => ?_]
  obtain rfl := Option.some.inj hpid
  exact hlive

end HouseKernel.Descriptors
