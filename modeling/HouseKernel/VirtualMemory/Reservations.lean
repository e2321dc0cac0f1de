import Mathlib.Tactic
import HouseKernel.Lib.Checks
import HouseKernel.Lib.Run
import HouseKernel.Lib.Span
import HouseKernel.Lib.Table

/-! The reservation table behind mmap and munmap. A call without a fixed address takes a range
that no entry meets and records it; munmap drops the entries inside the range that it is given.
The table has 32 places and forgets what does not fit, and munmap rounds to pages inside the
user window where mmap has rounded to 1 MiB blocks. -/
namespace HouseKernel.VirtualMemory

open HouseKernel.Lib

def mblock : ℕ := 1048576

def vmPageSize : ℕ := 4096

def houseUserVaMin : ℕ := 0x01000000

def houseUserVaMax : ℕ := 0x1000000000

def rtsAliasBase : ℕ := 0x4200000000

def anonBase : ℕ := 0x44000000

def vmResvCap : ℕ := 32

def mapFixed : BitVec 32 := 0x10#32

def protRead : BitVec 32 := 1#32

def protWrite : BitVec 32 := 2#32

def protExec : BitVec 32 := 4#32

inductive Errno where
  | enosys
  | notsup
  | einval
  | enomem
  deriving DecidableEq, Repr

/-- What the machine was booted with. -/
structure VmEnv where
  heapBase : ℕ
  ramBytes : ℕ
  smpN : ℕ
  deriving DecidableEq, Repr

/-- The first `VM_N_RESV` entries of `VM_RESV`, and `VM_MMAP_CUR`. -/
structure VmTable where
  resv : List Span
  mmapCur : ℕ
  deriving DecidableEq, Repr

structure MmapArgs where
  addr : ℕ
  len : ℕ
  prot : BitVec 32
  flags : BitVec 32
  fd : BitVec 32
  off : BitVec 64
  deriving DecidableEq, Repr

def checkedAdd (a b : ℕ) : Option ℕ := if a + b < 2 ^ 64 then some (a + b) else none

def addOr (e : Errno) (a b : ℕ) : Except Errno ℕ := if a + b < 2 ^ 64 then .ok (a + b) else .error e

def vmInRam (env : VmEnv) (lo n : ℕ) : Bool :=
  let lim := 0x40000000 + if env.ramBytes = 0 then 512 * mblock else env.ramBytes
  env.heapBase ≤ lo ∧ lo ≤ lim ∧ n ≤ lim - lo

def vmInUserWindow (lo n : ℕ) : Bool :=
  let hi := (lo + n) % 2 ^ 64
  houseUserVaMin ≤ lo ∧ n ≤ (houseUserVaMax + 1 + 2 ^ 64 - lo) % 2 ^ 64 ∧ lo ≤ hi ∧ hi ≤ houseUserVaMax + 1

def vmCommittable (env : VmEnv) (lo n : ℕ) : Bool :=
  let smpN := if env.smpN = 0 then 2 else env.smpN
  let half := (if env.ramBytes = 0 then 512 * mblock else env.ramBytes) / 2
  let span := min (half - (0x200000 + smpN * 65536)) (8 * 2 ^ 30)
  let hi := (lo + n) % 2 ^ 64
  vmInUserWindow lo n ∨ vmInRam env lo n ∨
    rtsAliasBase ≤ lo ∧ n ≤ span ∧ lo ≤ hi ∧ hi ≤ rtsAliasBase + span

def vmOverlap (r : Span) (resv : List Span) : Bool := resv.any fun e => decide (r.Meets e)

/-- A full table drops the entry. -/
def vmRecord (r : Span) (resv : List Span) : List Span :=
  if resv.length < vmResvCap then resv ++ [r] else resv

/-- The loop of `vm_release` from index `i`, with at most `fuel` rounds to go. -/
def vmReleaseFrom (r : Span) : ℕ → ℕ → List Span → List Span
  | 0, _, resv => resv
  | fuel + 1, i, resv =>
    match resv[i]? with
    | none => resv
    | some e =>
      -- the index stays where an entry was removed, except at the front, where it moves on
      if e.Within r then vmReleaseFrom r fuel (if 0 < i then i else 1) (swapRemove resv i)
      else vmReleaseFrom r fuel (i + 1) resv

def vmRelease (r : Span) (resv : List Span) : List Span := vmReleaseFrom r resv.length 0 resv

/-- The checks that come before a reservation is looked for: the length in whole blocks. -/
def mmapChecks (a : MmapArgs) : Except Errno ℕ := do
  check (a.fd = -1#32) .enosys
  check (a.off = 0) .einval
  check (a.prot &&& ~~~(protRead ||| protWrite ||| protExec) = 0) .einval
  check (a.prot &&& protExec = 0) .notsup
  check (a.len ≠ 0) .einval
  let tmp ← addOr .einval a.len (mblock - 1)
  pure (tmp / mblock * mblock)

/-- Where a call without an address looks. -/
def VmTable.anonStart (s : VmTable) : ℕ :=
  if s.mmapCur ≠ 0 then (s.mmapCur + mblock - 1) / mblock * mblock else anonBase

/-- The address that the call returns. A call that fails has changed nothing. -/
def houseVmMmap (env : VmEnv) (s : VmTable) (a : MmapArgs) : Except Errno (ℕ × VmTable) := do
  let rounded ← mmapChecks a
  if a.addr = 0 then do
    let pEnd ← addOr .enomem s.anonStart rounded
    check (pEnd ≤ houseUserVaMax + 1 ∧ vmOverlap ⟨s.anonStart, pEnd⟩ s.resv = false) .enomem
    pure (s.anonStart, ⟨vmRecord ⟨s.anonStart, pEnd⟩ s.resv, pEnd⟩)
  else do
    let hi ← addOr .einval a.addr rounded
    if a.flags &&& mapFixed ≠ 0 then do
      check (vmCommittable env a.addr a.len = true) .enomem
      pure (a.addr, s)
    else do
      check (hi ≤ 0x1000000000000 ∧ vmOverlap ⟨a.addr, hi⟩ s.resv = false) .enomem
      pure (a.addr, { s with resv := vmRecord ⟨a.addr, hi⟩ s.resv })

/-- The addresses that an munmap call unmaps, in whole pages. -/
def unmapped (addr len : ℕ) : Span := ⟨addr, addr + (len + (vmPageSize - 1)) / vmPageSize * vmPageSize⟩

/-- What an munmap call releases, if anything: pages inside the user window, blocks elsewhere. -/
def munmapRange (addr len : ℕ) : Except Errno (Option Span) :=
  if addr = 0 then .ok none
  else do
    check (len ≠ 0) .einval
    let tmp ← addOr .einval len (vmPageSize - 1)
    let hi ← addOr .einval addr (tmp / vmPageSize * vmPageSize)
    if houseUserVaMin ≤ addr ∧ hi ≤ houseUserVaMax + 1 then pure (some ⟨addr, hi⟩)
    else pure ((checkedAdd len (mblock - 1)).bind fun tmp2 =>
      (checkedAdd addr (tmp2 / mblock * mblock)).map fun hi2 => ⟨addr, hi2⟩)

/-- The entries of the table; the page tables are not part of it. -/
def houseVmMunmap (s : VmTable) (addr len : ℕ) : Except Errno VmTable := do
  let r ← munmapRange addr len
  pure { s with resv := r.elim s.resv fun r => vmRelease r s.resv }

/-- The table, the addresses that were returned and not unmapped since, and the calls with an
address of their own that succeeded. -/
structure VmWorld where
  table : VmTable
  live : List Span
  hinted : List MmapArgs
  deriving DecidableEq, Repr

inductive VmCall where
  | mmap (a : MmapArgs)
  | munmap (addr len : ℕ)
  deriving DecidableEq, Repr

def VmCall.NotFixed : VmCall → Prop
  | .mmap a => a.flags &&& mapFixed = 0
  | .munmap _ _ => True

def vmStep (env : VmEnv) (s : VmWorld) : VmCall → Option VmWorld
  | .mmap a =>
    match houseVmMmap env s.table a with
    | .error _ => some s
    | .ok (p, table) =>
      some ⟨table, ⟨p, p + a.len⟩ :: s.live, if a.addr = 0 then s.hinted else a :: s.hinted⟩
  | .munmap addr len =>
    match houseVmMunmap s.table addr len with
    | .error _ => some s
    | .ok table =>
      -- the null address is accepted and nothing is unmapped
      some { s with table := table, live := if addr = 0 then s.live else cut (unmapped addr len) s.live }

def vmBoot : VmWorld := ⟨⟨[], 0⟩, [], []⟩

/-- A range that is returned holds no address in use, and after a range is unmapped the call
that had reserved it succeeds again. -/
def Tracked (env : VmEnv) (s : VmWorld) : VmCall → Prop
  | .mmap a =>
    ∀ p t, houseVmMmap env s.table a = .ok (p, t) → ∀ x ∈ (⟨p, p + a.len⟩ : Span), ¬ Covers s.live x
  | .munmap addr len =>
    ∀ a ∈ s.hinted, a.addr = addr → a.len = len →
      ∃ t u, houseVmMunmap s.table addr len = .ok t ∧ houseVmMmap env t a = .ok (addr, u)

/-- The range that a call would reserve: its own, or the next one of the anonymous window. -/
def VmTable.range (s : VmTable) (a : MmapArgs) (rounded : ℕ) : Span :=
  if a.addr = 0 then ⟨s.anonStart, s.anonStart + rounded⟩ else ⟨a.addr, a.addr + rounded⟩

/-- Where the range of a call has to end. -/
def MmapArgs.limit (a : MmapArgs) : ℕ := if a.addr = 0 then houseUserVaMax + 1 else 0x1000000000000

/-- The entry that takes the place of a released first entry, where the scan has been. -/
def skipped (r : Span) (resv : List Span) : Option Span :=
  if 2 ≤ resv.length ∧ ∃ e ∈ resv.head?, e.Within r then resv.getLast? else none

/-- An entry that a release of the range drops. -/
def Dropped (r : Span) (resv : List Span) (e : Span) : Prop := e.Within r ∧ skipped r resv ≠ some e

instance (r : Span) (resv : List Span) (e : Span) : Decidable (Dropped r resv e) :=
  inferInstanceAs (Decidable (_ ∧ _))

/-- A call that finds its range free finds room in the table; what munmap drops holds no
address that stays in use, and where it undoes a reservation it drops all that meets it. -/
def Accounted (s : VmWorld) : VmCall → Prop
  | .mmap a =>
    ∀ n ∈ (mmapChecks a).toOption, (s.table.range a n).hi ≤ a.limit →
      vmOverlap (s.table.range a n) s.table.resv = false → s.table.resv.length < vmResvCap
  | .munmap addr len =>
    ∀ r ∈ (munmapRange addr len).toOption.join,
      (∀ e ∈ s.table.resv, Dropped r s.table.resv e → ∀ t ∈ cut (unmapped addr len) s.live, ¬ t.Meets e) ∧
      ∀ a ∈ s.hinted, a.addr = addr → a.len = len → ∀ n ∈ (mmapChecks a).toOption,
        ∀ e ∈ s.table.resv, (s.table.range a n).Meets e → Dropped r s.table.resv e

theorem vmOverlap_eq_false {r : Span} {resv : List Span} :
    vmOverlap r resv = false ↔ ∀ e ∈ resv, ¬ r.Meets e := by
  simp [vmOverlap]

/-- Behind the first entry the scan drops exactly the entries inside the range. -/
theorem vmReleaseFrom_perm {r : Span} {fuel : ℕ} {pre post : List Span} (hpre : 0 < pre.length)
    (hfuel : post.length ≤ fuel) : (vmReleaseFrom r fuel pre.length (pre ++ post)).Perm
      (pre ++ post.filter fun e => !decide (e.Within r)) := by
  induction fuel generalizing pre post with
  | zero =>
    obtain rfl := List.length_eq_zero_iff.mp (Nat.le_zero.mp hfuel)
    simp [vmReleaseFrom]
  | succ fuel ih =>
    cases post with
    | nil => simp [vmReleaseFrom]
    | cons e post =>
      have hfuel' : post.length ≤ fuel := by simpa using hfuel
      simp only [vmReleaseFrom, List.getElem?_append_right (Nat.le_refl _), Nat.sub_self,
        List.getElem?_cons_zero]
      split
      · next hin =>
        have hperm : (swapRemove (e :: post) 0).Perm post := by
          simpa using swapRemove_perm (l := e :: post) (Nat.succ_pos _)
        rw [swapRemove_append]
        refine (ih hpre (hperm.length_eq.trans_le hfuel')).trans ?_
        rw [List.filter_cons_of_neg (by simpa using hin)]
        exact (hperm.filter _).append_left pre
      · next hout =>
        have hstep := @ih (pre ++ [e]) post (by simp) hfuel'
        rw [List.length_append, List.length_singleton, List.append_assoc, List.singleton_append,
          List.append_assoc, List.singleton_append] at hstep
        rwa [List.filter_cons_of_pos (by simpa using hout)]

theorem mem_filter_within {r e : Span} {l : List Span} :
    e ∈ l.filter (fun e => !decide (e.Within r)) ↔ e ∈ l ∧ ¬ e.Within r := by
  simp [List.mem_filter]

/-- What a release keeps. -/
theorem mem_vmRelease {r : Span} {resv : List Span} {e : Span} :
    e ∈ vmRelease r resv ↔ e ∈ resv ∧ ¬ Dropped r resv e := by
  cases resv with
  | nil => simp [vmRelease, vmReleaseFrom]
  | cons d rest =>
    by_cases hd : d.Within r
    · obtain rfl | ⟨rest, y, rfl⟩ := rest.eq_nil_or_concat'
      · have hgone : vmRelease r [d] = [] := by simp [vmRelease, vmReleaseFrom, hd, swapRemove]
        have hskip : skipped r [d] = none := by simp [skipped]
        rw [hgone]
        simp only [Dropped, hskip, List.not_mem_nil, List.mem_singleton, false_iff]
        rintro ⟨rfl, hkeep⟩
        exact hkeep ⟨hd, by simp⟩
      · have hlast : (d :: (rest ++ [y])).getLast? = some y := by
          rw [← List.cons_append, List.getLast?_concat]
        have hskip : skipped r (d :: (rest ++ [y])) = some y := by
          simp [skipped, hd, hlast]
        have hscan : vmRelease r (d :: (rest ++ [y])) =
            vmReleaseFrom r (rest ++ [y]).length [y].length ([y] ++ rest) := by
          simp only [vmRelease, List.length_cons, vmReleaseFrom, List.getElem?_cons_zero, if_pos hd,
            Nat.lt_irrefl, if_false, swapRemove, hlast, List.set_cons_zero]
          rw [← List.cons_append, List.dropLast_concat]
          simp
        have hkept := @vmReleaseFrom_perm r (rest ++ [y]).length [y] rest (by simp) (by simp)
        rw [hscan, hkept.mem_iff, List.mem_append, mem_filter_within]
        simp only [Dropped, hskip, List.mem_cons, List.mem_append, List.not_mem_nil, or_false,
          Option.some.injEq, ne_eq]
        constructor
        · rintro (rfl | ⟨hrest, hout⟩)
          · exact ⟨.inr (.inr rfl), fun h => h.2 rfl⟩
          · exact ⟨.inr (.inl hrest), fun h => hout h.1⟩
        · rintro ⟨rfl | hrest | rfl, hkeep⟩
          · exact .inl (not_not.mp fun hne => hkeep ⟨hd, fun heq => hne heq.symm⟩)
          · obtain heq | hne := eq_or_ne e y
            · exact .inl heq
            · exact .inr ⟨hrest, fun hin => hkeep ⟨hin, hne.symm⟩⟩
          · exact .inl rfl
    · have hskip : skipped r (d :: rest) = none := by simp [skipped, hd]
      have hscan : vmRelease r (d :: rest) = vmReleaseFrom r rest.length [d].length ([d] ++ rest) := by
        simp [vmRelease, vmReleaseFrom, hd]
      have hkept := @vmReleaseFrom_perm r rest.length [d] rest (by simp) (Nat.le_refl _)
      rw [hscan, hkept.mem_iff, List.mem_append, mem_filter_within]
      simp only [Dropped, hskip, List.mem_cons, List.not_mem_nil, or_false]
      constructor
      · rintro (rfl | ⟨hrest, hout⟩)
        · exact ⟨.inl rfl, fun h => hd h.1⟩
        · exact ⟨.inr hrest, fun h => hout h.1⟩
      · rintro ⟨rfl | hrest, hkeep⟩
        · exact .inl rfl
        · exact .inr ⟨hrest, fun hin => hkeep ⟨hin, by simp⟩⟩

theorem addOr_ok {e : Errno} {a b n : ℕ} : addOr e a b = .ok n ↔ a + b < 2 ^ 64 ∧ n = a + b := by
  unfold addOr
  split_ifs with h
  · simp only [Except.ok.injEq, h, true_and]
    exact eq_comm
  · simp only [h, false_and]

theorem checkedAdd_of_lt {a b : ℕ} (h : a + b < 2 ^ 64) : checkedAdd a b = some (a + b) := if_pos h

theorem mmapChecks_ok {a : MmapArgs} {n : ℕ} (h : mmapChecks a = .ok n) :
    a.len ≠ 0 ∧ a.len + (mblock - 1) < 2 ^ 64 ∧ n = (a.len + (mblock - 1)) / mblock * mblock := by
  simp only [mmapChecks, bind_ok, check_ok, addOr_ok, pure_ok, exists_const] at h
  obtain ⟨-, -, -, -, hlen, _, ⟨hsum, rfl⟩, rfl⟩ := h
  exact ⟨hlen, hsum, rfl⟩

theorem le_blocks (len : ℕ) : len ≤ (len + (mblock - 1)) / mblock * mblock := by
  simp only [mblock]
  omega

theorem pages_le_blocks (len : ℕ) :
    (len + (vmPageSize - 1)) / vmPageSize * vmPageSize ≤ (len + (mblock - 1)) / mblock * mblock := by
  simp only [vmPageSize, mblock]
  omega

/-- A call without a fixed address succeeds exactly when its range ends in bounds and no
entry meets it. -/
theorem mmap_ok {env : VmEnv} {s t : VmTable} {a : MmapArgs} {p : ℕ} (hfix : a.flags &&& mapFixed = 0) :
    houseVmMmap env s a = .ok (p, t) ↔ ∃ n, mmapChecks a = .ok n ∧ (s.range a n).hi ≤ a.limit ∧
      vmOverlap (s.range a n) s.resv = false ∧ p = (s.range a n).lo ∧
      t = ⟨vmRecord (s.range a n) s.resv, if a.addr = 0 then (s.range a n).hi else s.mmapCur⟩ := by
  simp only [houseVmMmap, bind_ok]
  refine exists_congr fun n => and_congr_right fun _ => ?_
  by_cases haddr : a.addr = 0
  · have hlimit : s.anonStart + n ≤ houseUserVaMax + 1 → s.anonStart + n < 2 ^ 64 := by
      simp only [houseUserVaMax]
      omega
    simp only [VmTable.range, MmapArgs.limit, haddr, if_true, bind_ok, addOr_ok, check_ok, pure_ok,
      exists_const, Prod.mk.injEq]
    constructor
    · rintro ⟨_, ⟨-, rfl⟩, ⟨hend, hfree⟩, rfl, rfl⟩
      exact ⟨hend, hfree, rfl, rfl⟩
    · rintro ⟨hend, hfree, rfl, rfl⟩
      exact ⟨_, ⟨hlimit hend, rfl⟩, ⟨hend, hfree⟩, rfl, rfl⟩
  · simp only [VmTable.range, MmapArgs.limit, if_neg haddr, hfix, ne_eq, not_true_eq_false, if_false,
      bind_ok, addOr_ok, check_ok, pure_ok, exists_const, Prod.mk.injEq]
    constructor
    · rintro ⟨_, ⟨-, rfl⟩, ⟨hend, hfree⟩, rfl, rfl⟩
      exact ⟨hend, hfree, rfl, rfl⟩
    · rintro ⟨hend, hfree, rfl, rfl⟩
      exact ⟨_, ⟨by omega, rfl⟩, ⟨hend, hfree⟩, rfl, rfl⟩

/-- What a successful munmap call leaves of the table. -/
theorem munmap_ok {s t : VmTable} {addr len : ℕ} :
    houseVmMunmap s addr len = .ok t ↔ ∃ r, munmapRange addr len = .ok r ∧
      t = { s with resv := r.elim s.resv fun r => vmRelease r s.resv } := by
  simp only [houseVmMunmap, bind_ok, pure_ok, eq_comm (b := t)]

/-- A range that was reserved at an address of its own can be given back. -/
theorem munmapRange_of_hint {a : MmapArgs} {n : ℕ} (hn : mmapChecks a = .ok n) (haddr : a.addr ≠ 0)
    (hend : a.addr + n ≤ 0x1000000000000) : ∃ r, munmapRange a.addr a.len = .ok (some r) := by
  obtain ⟨hlen, hsum, rfl⟩ := mmapChecks_ok hn
  have hpages := pages_le_blocks a.len
  have hsmall : a.len + (vmPageSize - 1) < 2 ^ 64 := by
    simp only [vmPageSize, mblock] at hsum ⊢
    omega
  have hstart : addOr .einval a.len (vmPageSize - 1) = .ok (a.len + (vmPageSize - 1)) :=
    addOr_ok.mpr ⟨hsmall, rfl⟩
  have hstop : addOr .einval a.addr ((a.len + (vmPageSize - 1)) / vmPageSize * vmPageSize) =
      .ok (a.addr + (a.len + (vmPageSize - 1)) / vmPageSize * vmPageSize) :=
    addOr_ok.mpr ⟨by omega, rfl⟩
  rw [munmapRange, if_neg haddr]
  by_cases hwin : houseUserVaMin ≤ a.addr ∧
      a.addr + (a.len + (vmPageSize - 1)) / vmPageSize * vmPageSize ≤ houseUserVaMax + 1
  · refine ⟨⟨a.addr, a.addr + (a.len + (vmPageSize - 1)) / vmPageSize * vmPageSize⟩, ?_⟩
    refine bind_ok.mpr ⟨(), check_ok.mpr hlen, bind_ok.mpr ⟨_, hstart, bind_ok.mpr ⟨_, hstop, ?_⟩⟩⟩
    rw [if_pos hwin]
    rfl
  · refine ⟨⟨a.addr, a.addr + (a.len + (mblock - 1)) / mblock * mblock⟩, ?_⟩
    refine bind_ok.mpr ⟨(), check_ok.mpr hlen, bind_ok.mpr ⟨_, hstart, bind_ok.mpr ⟨_, hstop, ?_⟩⟩⟩
    rw [if_neg hwin, checkedAdd_of_lt hsum, Option.bind_some, checkedAdd_of_lt (by omega), Option.map_some]
    rfl

/-- What is in use is recorded, and the calls that reserved an address of their own could. -/
structure VmWorld.Ok (s : VmWorld) : Prop where
  held : ∀ x, Covers s.live x → Covers s.table.resv x
  hints : ∀ a ∈ s.hinted, a.addr ≠ 0 ∧ a.flags &&& mapFixed = 0 ∧
    ∃ n, mmapChecks a = .ok n ∧ a.addr + n ≤ 0x1000000000000

theorem vmBoot_ok : vmBoot.Ok where
  held := by
    rintro x ⟨e, he, -⟩
    cases he
  hints := nofun

theorem tracked_of_accounted {env : VmEnv} {s : VmWorld} {c : VmCall} (hfix : c.NotFixed) (hs : s.Ok)
    (h : Accounted s c) : Tracked env s c := by
  cases c with
  | mmap a =>
    intro p t hp x hx hlive
    obtain ⟨n, hn, -, hfree, rfl, -⟩ := (mmap_ok hfix).mp hp
    obtain ⟨-, -, hblocks⟩ := mmapChecks_ok hn
    obtain ⟨e, he, hxe⟩ := hs.held x hlive
    have hlen : a.len ≤ n := by
      rw [hblocks]
      exact le_blocks a.len
    have hin : x ∈ s.table.range a n := by
      refine ⟨hx.1, hx.2.trans_le ?_⟩
      simp only [VmTable.range]
      split_ifs <;> exact Nat.add_le_add_left hlen _
    exact vmOverlap_eq_false.mp hfree e he (Span.meets_of_mem hin hxe)
  | munmap addr len =>
    rintro a ha rfl rfl
    obtain ⟨haddr, hflags, n, hn, hend⟩ := hs.hints a ha
    obtain ⟨r, hr⟩ := munmapRange_of_hint hn haddr hend
    have hdrop := (h r (by simp [hr, Except.toOption])).2 a ha rfl rfl n (by simp [hn, Except.toOption])
    have hrange : ∀ t : VmTable, t.range a n = ⟨a.addr, a.addr + n⟩ := fun t => if_neg haddr
    refine ⟨_, _, munmap_ok.mpr ⟨_, hr, rfl⟩, (mmap_ok hflags).mpr ⟨n, hn, ?_, ?_, ?_, rfl⟩⟩
    · rw [hrange, MmapArgs.limit, if_neg haddr]
      exact hend
    · refine vmOverlap_eq_false.mpr fun e he hmeets => ?_
      obtain ⟨hin, hkept⟩ := mem_vmRelease.mp he
      rw [hrange] at hmeets
      exact hkept (hdrop e hin (by rwa [hrange]))
    · rw [hrange]

theorem vmStep_ok {env : VmEnv} {s t : VmWorld} {c : VmCall} (hfix : c.NotFixed) (hs : s.Ok)
    (h : Accounted s c) (hstep : vmStep env s c = some t) : t.Ok := by
  cases c with
  | mmap a =>
    simp only [vmStep] at hstep
    split at hstep
    · obtain rfl := Option.some.inj hstep
      exact hs
    · next p table hp =>
      obtain rfl := Option.some.inj hstep
      obtain ⟨n, hn, hend, hfree, rfl, rfl⟩ := (mmap_ok hfix).mp hp
      have hroom : s.table.resv.length < vmResvCap := h n (by simp [hn, Except.toOption]) hend hfree
      obtain ⟨-, -, hblocks⟩ := mmapChecks_ok hn
      have hlen : a.len ≤ n := hblocks ▸ le_blocks a.len
      constructor
      · intro x hx
        simp only [vmRecord, if_pos hroom]
        obtain hx | hx := covers_cons.mp hx
        · refine ⟨s.table.range a n, by simp, hx.1, hx.2.trans_le ?_⟩
          simp only [VmTable.range]
          split_ifs <;> exact Nat.add_le_add_left hlen _
        · obtain ⟨e, he, hxe⟩ := hs.held x hx
          exact ⟨e, List.mem_append_left _ he, hxe⟩
      · intro b (hb : b ∈ if a.addr = 0 then s.hinted else a :: s.hinted)
        by_cases haddr : a.addr = 0
        · rw [if_pos haddr] at hb
          exact hs.hints b hb
        · rw [if_neg haddr] at hb
          obtain rfl | hb := List.mem_cons.mp hb
          · rw [VmTable.range, MmapArgs.limit, if_neg haddr, if_neg haddr] at hend
            exact ⟨haddr, hfix, n, hn, hend⟩
          · exact hs.hints b hb
  | munmap addr len =>
    simp only [vmStep] at hstep
    split at hstep
    · obtain rfl := Option.some.inj hstep
      exact hs
    · next table htable =>
      obtain rfl := Option.some.inj hstep
      obtain ⟨r, hr, rfl⟩ := munmap_ok.mp htable
      refine ⟨fun x hx => ?_, hs.hints⟩
      cases r with
      | none =>
        apply hs.held
        split_ifs at hx
        · exact hx
        · exact (covers_cut.mp hx).1
      | some r =>
        have haddr : addr ≠ 0 := by
          rintro rfl
          simp [munmapRange] at hr
        rw [if_neg haddr] at hx
        obtain ⟨e, he, hxe⟩ := hs.held x (covers_cut.mp hx).1
        refine ⟨e, mem_vmRelease.mpr ⟨he, fun hdrop => ?_⟩, hxe⟩
        obtain ⟨u, hu, hxu⟩ := hx
        exact (h r (by simp [hr, Except.toOption])).1 e he hdrop u hu (Span.meets_of_mem hxu hxe)

/-- In every run in which the table has room for what is reserved, nothing in use is dropped and
what undoes a reservation drops all of it, the ranges returned are free and can be had again. -/
theorem reservations_tracked (env : VmEnv) (cs : List VmCall) (hfix : ∀ c ∈ cs, c.NotFixed)
    (h : Along (vmStep env) Accounted vmBoot cs) : Along (vmStep env) (Tracked env) vmBoot cs :=
  along_of_invariant (fun _ _ _ hc hs hg hstep => vmStep_ok hc hs hg hstep)
    (fun _ _ hc hs hg => tracked_of_accounted hc hs hg) hfix vmBoot_ok h

/-- A page for reading and writing, wanted at an address or anywhere. -/
def pageAt (addr : ℕ) : MmapArgs := ⟨addr, vmPageSize, protRead ||| protWrite, 2#32, -1#32, 0⟩

def vmQemu : VmEnv := ⟨0x40400000, 512 * mblock, 2⟩

instance : ∀ c : VmCall, Decidable c.NotFixed
  | .mmap _ => inferInstanceAs (Decidable (_ = _))
  | .munmap _ _ => isTrue trivial

instance (s : VmWorld) : ∀ c : VmCall, Decidable (Accounted s c)
  | .mmap a => inferInstanceAs (Decidable (∀ n ∈ (mmapChecks a).toOption, _))
  | .munmap addr len => inferInstanceAs (Decidable (∀ r ∈ (munmapRange addr len).toOption.join, _))

/-- Above the user window a page is mapped, unmapped and mapped again. -/
theorem reservations_tracked_page : Along (vmStep vmQemu) (Tracked vmQemu) vmBoot
    [.mmap (pageAt 0x2000000000), .mmap (pageAt 0), .munmap 0x2000000000 vmPageSize, .mmap (pageAt 0x2000000000)] :=
  reservations_tracked vmQemu _ (by decide) (by decide)

/-- Inside the window munmap of a page keeps the block that mmap had reserved for it, and the
same call fails; and the 33rd reservation is forgotten, so that its range is given out twice. -/
theorem reservations_not_tracked :
    ¬ Along (vmStep vmQemu) (Tracked vmQemu) vmBoot [.mmap (pageAt 0x50000000), .munmap 0x50000000 vmPageSize] ∧
    ¬ Along (vmStep vmQemu) (Tracked vmQemu) vmBoot
      (List.replicate 33 (.mmap (pageAt 0)) ++ [.mmap (pageAt 0x46000000)]) := by
  constructor
  · obtain ⟨s, hs, hargs, hfail⟩ : ∃ s ∈ run (vmStep vmQemu) vmBoot [.mmap (pageAt 0x50000000)],
        pageAt 0x50000000 ∈ s.hinted ∧ ∀ t ∈ (houseVmMunmap s.table 0x50000000 vmPageSize).toOption,
          (houseVmMmap vmQemu t (pageAt 0x50000000)).toOption = none := by
      decide
    refine not_along_concat hs fun htracked => ?_
    obtain ⟨t, u, ht, hu⟩ := htracked _ hargs rfl rfl
    have hnone := hfail t (by simp [ht, Except.toOption])
    simp [hu, Except.toOption] at hnone
  · obtain ⟨s, hs, hlive, hgot⟩ :
        ∃ s ∈ run (vmStep vmQemu) vmBoot (List.replicate 33 (.mmap (pageAt 0))),
          (∃ e ∈ s.live, 0x46000000 ∈ e) ∧
            (houseVmMmap vmQemu s.table (pageAt 0x46000000)).toOption.map Prod.fst = some 0x46000000 := by
      decide
    refine not_along_concat hs fun htracked => ?_
    cases hcall : houseVmMmap vmQemu s.table (pageAt 0x46000000) with
    | error e => simp [hcall, Except.toOption] at hgot
    | ok r =>
      have hp : r.1 = 0x46000000 := by simpa [hcall, Except.toOption] using hgot
      exact htracked r.1 r.2 hcall 0x46000000 ⟨hp.le, by simp [hp, pageAt, vmPageSize]⟩ hlive

end HouseKernel.VirtualMemory
