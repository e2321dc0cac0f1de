import Mathlib.Tactic
import HouseKernel.Lib.Run
import HouseKernel.Lib.Table

/-! The ASID table of the userspace HAL. A page-directory root is bound to an ASID when it is
registered and keeps running with the ASID it was handed until it is released; the table is a
cache of these bindings that a full map throws away. The counter behind it walks through
1..250 and starts over without looking at the bindings. -/
namespace HouseKernel.VirtualMemory

open HouseKernel.Lib

def asidMapCap : ℕ := 64

/-- The last ASID that the counter hands out. -/
def asidLast : ℕ := 250

/-- `NEXT_ASID` and the first `ASID_MAP_LEN` entries of `ASID_MAP`. -/
structure AsidTable where
  nextAsid : ℕ
  asidMap : List (ℕ × ℕ)
  deriving DecidableEq, Repr

/-- What a lookup answers: the ASID, and whether it flushed every translation. -/
structure AsidGrant where
  asid : ℕ
  flushed : Bool
  deriving DecidableEq, Repr

/-- Take a number from the counter: the number, the counter after it, and whether it wrapped. -/
def drawAsid (nextAsid : ℕ) : ℕ × ℕ × Bool :=
  let next := (nextAsid + 1) % 65536
  let wrapped := next = 0 ∨ asidLast < next
  let next := if wrapped then 1 else next
  if nextAsid = 0 then
    let next' := (next + 1) % 65536
    (next, if asidLast < next' then 1 else next', decide (wrapped ∨ asidLast < next'))
  else (nextAsid, next, decide wrapped)

/-- The ASID of a root, allocated on its first lookup. -/
def asidForPdir (s : AsidTable) (pdir : ℕ) : AsidGrant × AsidTable :=
  match s.asidMap.find? fun b => b.1 == pdir with
  | some b => (⟨b.2, false⟩, s)
  | none =>
    let (a, next, wrapped) := drawAsid s.nextAsid
    -- a full map is rebuilt from nothing
    let full := s.asidMap.length = asidMapCap
    (⟨a, wrapped || full⟩, ⟨next, (if full then [] else s.asidMap) ++ [(pdir, a)]⟩)

/-- Remove a root from the table, reporting whether it was there. -/
def evictAsid (s : AsidTable) (pdir : ℕ) : Bool × AsidTable :=
  match s.asidMap.findIdx? fun b => b.1 == pdir with
  | none => (false, s)
  | some i => (true, { s with asidMap := swapRemove s.asidMap i })

def houseAsidForPdir (s : AsidTable) (pdir : ℕ) : ℕ × AsidTable :=
  if pdir = 0 then (0, s) else ((asidForPdir s pdir).1.asid, (asidForPdir s pdir).2)

/-- The root and ASID that go to the translation register, when any do. -/
def initPageDir (s : AsidTable) (pdir : ℕ) : Option (ℕ × ℕ) × AsidTable :=
  if pdir = 0 ∨ pdir % 4096 ≠ 0 then (none, s)
  else (some (pdir, (asidForPdir s pdir).1.asid), (asidForPdir s pdir).2)

/-- The answer says whether a binding was dropped and everything flushed. -/
def houseAsidForgetPdir (s : AsidTable) (pdir : ℕ) : Bool × AsidTable :=
  if pdir = 0 then (false, s) else evictAsid s pdir

def houseReleasePdir (s : AsidTable) (pdir : ℕ) : AsidTable :=
  if pdir = 0 then s else (evictAsid s pdir).2

/-- The table together with the live roots and the ASIDs that were handed out for each. -/
structure AsidWorld where
  table : AsidTable
  running : List (ℕ × ℕ)
  deriving DecidableEq, Repr

inductive AsidCall where
  | register (pdir : ℕ)
  | install (pdir : ℕ)
  | forget (pdir : ℕ)
  | release (pdir : ℕ)
  deriving DecidableEq, Repr

/-- A registered root runs with the ASID it gets until it is given back. -/
def asidStep (s : AsidWorld) : AsidCall → Option AsidWorld
  | .register pdir =>
    let r := houseAsidForPdir s.table pdir
    some ⟨r.2, if pdir = 0 then s.running else (pdir, r.1) :: s.running⟩
  | .install pdir =>
    let r := initPageDir s.table pdir
    some ⟨r.2, r.1.toList ++ s.running⟩
  | .forget pdir =>
    some ⟨(houseAsidForgetPdir s.table pdir).2,
      if pdir = 0 then s.running else s.running.filter fun b => b.1 != pdir⟩
  | .release pdir =>
    some ⟨houseReleasePdir s.table pdir,
      if pdir = 0 then s.running else s.running.filter fun b => b.1 != pdir⟩

def asidBoot : AsidWorld := ⟨⟨1, []⟩, []⟩

/-- The root that a call registers: null is refused, and so is a misaligned root to install. -/
def AsidCall.root? : AsidCall → Option ℕ
  | .register pdir => if pdir = 0 then none else some pdir
  | .install pdir => if pdir = 0 ∨ pdir % 4096 ≠ 0 then none else some pdir
  | .forget _ => none
  | .release _ => none

/-- Bindings are distinct, in the range of the counter and one for a root, and no two live
roots run with one ASID. -/
structure AsidWorld.Separate (s : AsidWorld) : Prop where
  asids : (s.table.asidMap.map Prod.snd).Nodup
  range : ∀ b ∈ s.table.asidMap, 1 ≤ b.2 ∧ b.2 ≤ asidLast
  roots : (s.table.asidMap.map Prod.fst).Nodup
  live : ∀ b ∈ s.running, ∀ c ∈ s.running, b.2 = c.2 → b.1 = c.1

/-- A root that has no binding is registered only while no other live root runs with the
ASID that the counter stands at. -/
def FreshAsid (s : AsidWorld) (c : AsidCall) : Prop :=
  ∀ pdir ∈ c.root?, (∀ b ∈ s.table.asidMap, b.1 ≠ pdir) →
    ∀ b ∈ s.running, b.2 = s.table.nextAsid → b.1 = pdir

instance (s : AsidWorld) (c : AsidCall) : Decidable (FreshAsid s c) :=
  inferInstanceAs (Decidable (∀ pdir ∈ c.root?, (∀ b ∈ s.table.asidMap, b.1 ≠ pdir) →
    ∀ b ∈ s.running, b.2 = s.table.nextAsid → b.1 = pdir))

/-- What every call keeps, whatever the counter does. -/
structure AsidWorld.Ok (s : AsidWorld) : Prop where
  next : 1 ≤ s.table.nextAsid ∧ s.table.nextAsid ≤ asidLast
  range : ∀ b ∈ s.table.asidMap, 1 ≤ b.2 ∧ b.2 ≤ asidLast
  roots : (s.table.asidMap.map Prod.fst).Nodup
  handed : ∀ b ∈ s.table.asidMap, b ∈ s.running

lemma drawAsid_of_pos {n : ℕ} (hn : 1 ≤ n ∧ n ≤ asidLast) :
    (drawAsid n).1 = n ∧ 1 ≤ (drawAsid n).2.1 ∧ (drawAsid n).2.1 ≤ asidLast ∧
      ((drawAsid n).2.2 = false → (drawAsid n).2.1 = n + 1) := by
  obtain ⟨hlow, hhigh⟩ := hn
  have hmod : (n + 1) % 65536 = n + 1 := Nat.mod_eq_of_lt (by unfold asidLast at hhigh; omega)
  simp only [drawAsid, if_neg (by omega : ¬ n = 0), hmod]
  split_ifs with hwrap <;> simp_all [asidLast]

/-- A lookup answers from the table, or allocates: the number the counter stands at is bound
behind all the earlier bindings or, in a full map, behind none. -/
theorem asidForPdir_cases {s : AsidTable} (hn : 1 ≤ s.nextAsid ∧ s.nextAsid ≤ asidLast) (pdir : ℕ) :
    (∃ b ∈ s.asidMap, b.1 = pdir ∧ asidForPdir s pdir = (⟨b.2, false⟩, s)) ∨
    ((∀ b ∈ s.asidMap, b.1 ≠ pdir) ∧ ∃ flushed next kept, (1 ≤ next ∧ next ≤ asidLast) ∧
      (kept = s.asidMap ∨ kept = []) ∧ (flushed = false → next = s.nextAsid + 1 ∧ kept = s.asidMap) ∧
      asidForPdir s pdir = (⟨s.nextAsid, flushed⟩, ⟨next, kept ++ [(pdir, s.nextAsid)]⟩)) := by
  unfold asidForPdir
  cases hfind : s.asidMap.find? fun b => b.1 == pdir with
  | some b =>
    have hb : b.1 = pdir := by simpa using List.find?_some hfind
    exact .inl ⟨b, List.mem_of_find?_eq_some hfind, hb, rfl⟩
  | none =>
    have hdraw := drawAsid_of_pos hn
    rcases hd : drawAsid s.nextAsid with ⟨a, next, wrapped⟩
    simp only [hd] at hdraw
    obtain ⟨rfl, hlow, hhigh, hwrap⟩ := hdraw
    refine .inr ⟨by simpa using List.find?_eq_none.mp hfind, ?_⟩
    by_cases hfull : s.asidMap.length = asidMapCap
    · exact ⟨true, next, [], ⟨hlow, hhigh⟩, .inr rfl, by simp, by simp [hfull]⟩
    · exact ⟨wrapped, next, s.asidMap, ⟨hlow, hhigh⟩, .inl rfl, fun hw => ⟨hwrap hw, rfl⟩, by simp [hfull]⟩

/-- A lookup that flushes nothing has reused no number and dropped no binding. -/
theorem asidForPdir_unflushed {s : AsidTable} (hn : 1 ≤ s.nextAsid ∧ s.nextAsid ≤ asidLast) {pdir : ℕ}
    (h : (asidForPdir s pdir).1.flushed = false) :
    s.nextAsid ≤ (asidForPdir s pdir).2.nextAsid ∧ s.asidMap <+: (asidForPdir s pdir).2.asidMap := by
  obtain ⟨b, -, -, heq⟩ | ⟨-, flushed, next, kept, -, -, hflush, heq⟩ := asidForPdir_cases hn pdir
  · simp [heq]
  · rw [heq] at h ⊢
    obtain ⟨rfl, rfl⟩ := hflush h
    exact ⟨Nat.le_succ _, List.prefix_append _ _⟩

/-- Eviction removes every binding of the root and no other. -/
theorem evictAsid_mem {s : AsidTable} (hroots : (s.asidMap.map Prod.fst).Nodup) (pdir : ℕ) :
    (evictAsid s pdir).2.nextAsid = s.nextAsid ∧
    (evictAsid s pdir).2.asidMap.Perm (s.asidMap.filter fun b => b.1 != pdir) := by
  unfold evictAsid
  cases hfind : s.asidMap.findIdx? fun b => b.1 == pdir with
  | none =>
    refine ⟨rfl, List.Perm.of_eq (List.filter_eq_self.mpr fun b hb => ?_).symm⟩
    simpa using List.findIdx?_eq_none_iff.mp hfind b hb
  | some i =>
    obtain ⟨hi, hp, -⟩ := List.findIdx?_eq_some_iff_getElem.mp hfind
    have hroot : s.asidMap[i].1 = pdir := by simpa using hp
    refine ⟨rfl, (swapRemove_perm hi).trans (List.Perm.of_eq ?_)⟩
    rw [eraseIdx_eq_filter hroots hi, hroot]

/-- A call registers a root, gives one back, or is refused. -/
theorem asidStep_cases {s t : AsidWorld} {c : AsidCall} (h : asidStep s c = some t) :
    (∃ pdir, c.root? = some pdir ∧
      t = ⟨(asidForPdir s.table pdir).2, (pdir, (asidForPdir s.table pdir).1.asid) :: s.running⟩) ∨
    (c.root? = none ∧ ∃ pdir,
      t = ⟨(evictAsid s.table pdir).2, s.running.filter fun b => b.1 != pdir⟩) ∨
    (c.root? = none ∧ t = s) := by
  cases c with
  | register pdir =>
    by_cases hz : pdir = 0
    · exact .inr (.inr ⟨if_pos hz, by simpa [asidStep, houseAsidForPdir, hz] using h.symm⟩)
    · exact .inl ⟨pdir, if_neg hz, by simpa [asidStep, houseAsidForPdir, hz] using h.symm⟩
  | install pdir =>
    by_cases hz : pdir = 0 ∨ pdir % 4096 ≠ 0
    · exact .inr (.inr ⟨if_pos hz, by simpa [asidStep, initPageDir, hz] using h.symm⟩)
    · exact .inl ⟨pdir, if_neg hz, by simpa [asidStep, initPageDir, if_neg hz] using h.symm⟩
  | forget pdir =>
    by_cases hz : pdir = 0
    · exact .inr (.inr ⟨rfl, by simpa [asidStep, houseAsidForgetPdir, hz] using h.symm⟩)
    · exact .inr (.inl ⟨rfl, pdir, by simpa [asidStep, houseAsidForgetPdir, hz] using h.symm⟩)
  | release pdir =>
    by_cases hz : pdir = 0
    · exact .inr (.inr ⟨rfl, by simpa [asidStep, houseReleasePdir, hz] using h.symm⟩)
    · exact .inr (.inl ⟨rfl, pdir, by simpa [asidStep, houseReleasePdir, hz] using h.symm⟩)

theorem AsidWorld.Ok.step {s t : AsidWorld} {c : AsidCall} (hs : s.Ok) (h : asidStep s c = some t) :
    t.Ok := by
  obtain ⟨pdir, -, rfl⟩ | ⟨-, pdir, rfl⟩ | ⟨-, rfl⟩ := asidStep_cases h
  · obtain ⟨b, -, -, heq⟩ | ⟨hnew, flushed, next, kept, hnext, hkept, -, heq⟩ :=
      asidForPdir_cases hs.next pdir
    · rw [heq]
      exact ⟨hs.next, hs.range, hs.roots, fun b hb => List.mem_cons_of_mem _ (hs.handed b hb)⟩
    · rw [heq]
      have hsub : ∀ b ∈ kept, b ∈ s.table.asidMap := by
        rcases hkept with rfl | rfl <;> simp
      have hnodup : (kept.map Prod.fst).Nodup := by
        obtain rfl | rfl := hkept
        · exact hs.roots
        · exact List.nodup_nil
      refine ⟨hnext, ?_, ?_, ?_⟩
      · intro b hb
        obtain hb | hb := List.mem_append.mp hb
        · exact hs.range b (hsub b hb)
        · obtain rfl := List.mem_singleton.mp hb
          exact hs.next
      · rw [List.map_append, List.map_singleton]
        refine List.nodup_append.mpr ⟨hnodup, List.nodup_singleton _, ?_⟩
        rintro _ hk _ hp rfl
        obtain ⟨b, hb, rfl⟩ := List.mem_map.mp hk
        exact hnew b (hsub b hb) (List.mem_singleton.mp hp)
      · intro b hb
        obtain hb | hb := List.mem_append.mp hb
        · exact List.mem_cons_of_mem _ (hs.handed b (hsub b hb))
        · obtain rfl := List.mem_singleton.mp hb
          exact List.mem_cons_self
  · obtain ⟨hnext, hperm⟩ := evictAsid_mem hs.roots pdir
    refine ⟨by rw [hnext]; exact hs.next, ?_, ?_, ?_⟩
    · intro b hb
      exact hs.range b (List.mem_of_mem_filter (hperm.mem_iff.mp hb))
    · refine (hperm.map Prod.fst).nodup_iff.mpr ?_
      exact hs.roots.sublist (List.filter_sublist.map Prod.fst)
    · intro b hb
      obtain ⟨hb, hne⟩ := List.mem_filter.mp (hperm.mem_iff.mp hb)
      exact List.mem_filter.mpr ⟨hs.handed b hb, hne⟩
  · exact hs

/-- The bindings are as separate as the live roots are. -/
theorem AsidWorld.Ok.separate_iff {s : AsidWorld} (hs : s.Ok) :
    s.Separate ↔ ∀ b ∈ s.running, ∀ c ∈ s.running, b.2 = c.2 → b.1 = c.1 := by
  refine ⟨fun h => h.live, fun hlive => ⟨?_, hs.range, hs.roots, hlive⟩⟩
  have hpair : s.table.asidMap.Pairwise fun b c => b.1 ≠ c.1 := List.pairwise_map.mp hs.roots
  refine List.pairwise_map.mpr (hpair.imp_of_mem fun {b c} hb hc hne => ?_)
  exact fun heq => hne (hlive b (hs.handed b hb) c (hs.handed c hc) heq)

/-- One call keeps the roots separate exactly when it does not hand out the ASID of another
live root. -/
theorem AsidWorld.Ok.separate_step {s t : AsidWorld} {c : AsidCall} (hs : s.Ok) (hsep : s.Separate)
    (h : asidStep s c = some t) : t.Separate ↔ FreshAsid s c := by
  rw [(hs.step h).separate_iff]
  have hlive := hsep.live
  obtain ⟨pdir, hroot, rfl⟩ | ⟨hroot, pdir, rfl⟩ | ⟨hroot, rfl⟩ := asidStep_cases h
  · simp only [FreshAsid, hroot, Option.mem_some_iff, forall_eq']
    obtain ⟨b, hb, rfl, heq⟩ | ⟨hnew, flushed, next, kept, -, -, -, heq⟩ := asidForPdir_cases hs.next pdir
    · -- a binding that is already handed out
      rw [heq]
      constructor
      · exact fun _ hnew => absurd rfl (hnew b hb)
      · intro _
        have hmem : ∀ d, d ∈ (b.1, b.2) :: s.running → d ∈ s.running := by
          intro d hd
          obtain rfl | hd := List.mem_cons.mp hd
          · exact hs.handed b hb
          · exact hd
        exact fun d hd e he => hlive d (hmem d hd) e (hmem e he)
    · rw [heq]
      constructor
      · intro hall _ b hb hasid
        exact hall b (List.mem_cons_of_mem _ hb) _ List.mem_cons_self hasid
      · intro hfresh d hd e he hde
        obtain rfl | hd := List.mem_cons.mp hd <;> obtain rfl | he := List.mem_cons.mp he
        · rfl
        · exact (hfresh hnew e he hde.symm).symm
        · exact hfresh hnew d hd hde
        · exact hlive d hd e he hde
  · simp only [FreshAsid, hroot, Option.mem_def, reduceCtorEq, false_imp_iff, implies_true, iff_true]
    exact fun d hd e he => hlive d (List.mem_of_mem_filter hd) e (List.mem_of_mem_filter he)
  · simp only [FreshAsid, hroot, Option.mem_def, reduceCtorEq, false_imp_iff, implies_true, iff_true]
    exact hlive

lemma asidBoot_ok : asidBoot.Ok := ⟨by decide, by simp [asidBoot], by simp [asidBoot], by simp [asidBoot]⟩

lemma asidBoot_separate : asidBoot.Separate := asidBoot_ok.separate_iff.mpr (by simp [asidBoot])

/-- In every sequence of registrations and releases, the bindings and the live roots stay
separate in every state reached exactly when every allocation finds the counter at an ASID
that no other live root runs with. -/
theorem asids_separate_iff {cs : List AsidCall} {t : AsidWorld} (h : run asidStep asidBoot cs = some t) :
    Throughout asidStep AsidWorld.Separate asidBoot cs ↔ Along asidStep FreshAsid asidBoot cs :=
  throughout_iff_along (A := fun _ => True) (fun _ _ _ _ hs hstep => hs.step hstep)
    (fun _ _ _ _ hs hsep hstep => hs.separate_step hsep hstep) (fun _ _ => trivial) asidBoot_ok
    asidBoot_separate h

/-- One process that lives on while 249 others come and go, and then one more. -/
def asidRound : List AsidCall :=
  .register 0x40100000 ::
    ((List.replicate 249 [AsidCall.register 0x40200000, .release 0x40200000]).flatten ++
      [.register 0x40300000])

/-- The counter comes round to the ASID of the long-lived root: two bindings, two live roots
with ASID 1. -/
theorem asids_shared_after_wrap :
    ∃ t, run asidStep asidBoot asidRound = some t ∧
      t.table.asidMap = [(0x40100000, 1), (0x40300000, 1)] ∧
      t.running = [(0x40300000, 1), (0x40100000, 1)] ∧ ¬ t.Separate := by
  have hrun : run asidStep asidBoot asidRound =
      some ⟨⟨2, [(0x40100000, 1), (0x40300000, 1)]⟩, [(0x40300000, 1), (0x40100000, 1)]⟩ := by
    decide +kernel
  refine ⟨_, hrun, rfl, rfl, fun h => ?_⟩
  have hone := h.live (0x40300000, 1) (by simp) (0x40100000, 1) (by simp) rfl
  simp at hone

/-- Two roots, one of them replaced. -/
theorem asids_separate_two :
    Throughout asidStep AsidWorld.Separate asidBoot
      [.register 0x40100000, .install 0x40200000, .release 0x40200000, .register 0x40300000] := by
  have hrun : run asidStep asidBoot
      [.register 0x40100000, .install 0x40200000, .release 0x40200000, .register 0x40300000] =
      some ⟨⟨4, [(0x40100000, 1), (0x40300000, 3)]⟩, [(0x40300000, 3), (0x40100000, 1)]⟩ := by
    rfl
  exact (asids_separate_iff hrun).mpr (by decide)

end HouseKernel.VirtualMemory
