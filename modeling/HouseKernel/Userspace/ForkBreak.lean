import HouseKernel.Loader.Image
import HouseKernel.Userspace.AddressShare
import HouseKernel.Userspace.ParkRequest
import HouseKernel.VirtualMemory.Creation
import HouseKernel.VirtualMemory.Hardware

/-! Forks and copy-on-write breaks over whole runs: which pages of a process can still be
written after its address space was shared. -/
namespace HouseKernel.Userspace

open HouseKernel.Lib HouseKernel.Loader HouseKernel.VirtualMemory

/-- What the supervisor keeps of a process, as far as its memory goes. -/
structure Process where
  pdir : ℕ
  brk : ℕ
  demand : DemandTable

structure World extends VmState where
  procs : ℕ → Option Process
  pidNext : ℕ

def stackTop : ℕ := 0x3FFFE000

/-- Plant the parent's markers in the child. -/
def inheritDemand (src dst : ℕ) : Memory → List ℕ → Bool × Memory
  | m, [] => (true, m)
  | m, va :: rest => match getPage m dst va with
    | some _ => inheritDemand src dst m rest
    | none => match getDemandPage m src va with
      | none => inheritDemand src dst m rest
      | some writable => match setDemandPage m dst va writable with
        | (true, m) => inheritDemand src dst m rest
        | (false, m) => (false, m)

/-- A fork that succeeds; `none` when it does not. -/
def World.forkProc (pf : Platform) (w : World) (parentPid : ℕ) : Option World :=
  match w.procs parentPid with
  | none => none
  | some parent => match allocPageMap pf w.vm with
    | (none, _) => none
    | (some childPdir, vm) => match inheritDemand parent.pdir childPdir vm (parent.demand.flatMap demandObjectPages) with
      | (false, _) => none
      | (true, vm) =>
        match shareAddrSpace pf.toRam parent.pdir childPdir (max parent.brk stackTop) { w.toVmState with vm := vm } with
        | (false, _) => none
        | (true, s) => some
          { toVmState := s
            procs := Function.update w.procs w.pidNext (some { parent with pdir := childPdir })
            pidNext := w.pidNext + 1 }

/-- `allowed` is the answer of the page budget. -/
def World.breakCow (w : World) (pid pdirVa : ℕ) (allowed : Bool) : CowBreak × World :=
  match w.procs pid with
  | none => (.notCow, w)
  | some pr =>
    let va := pdirVa - pdirVa % 4096
    match getPage w.vm pr.pdir va with
    | none => (.notCow, w)
    | some info =>
      if !info.cow then (.notCow, w)
      else
        let key := keyOf info
        let n := (w.refs key).getD 0
        if n ≤ 1 then
          match setPage w.vm pr.pdir va (some { info with writable := true, cow := false }) with
          | (true, vm) => (.ok, { w with vm := vm, refs := Function.update w.refs key none })
          | (false, vm) => (.noMem, { w with vm := vm })
        else if !allowed then (.noMem, w)
        else match allocPage w.vm with
          | (none, vm) => (.noMem, { w with vm := vm })
          | (some raw, vm) =>
            let vm := copyPageBytes key raw vm
            let mine := { info with physPage := BitVec.ofNat 64 raw, writable := true, cow := false }
            match setPage vm pr.pdir va (some mine) with
            | (false, vm) => (.noMem, { w with vm := freePage raw vm })
            | (true, vm) => (.ok, { w with vm := vm, refs := Function.update w.refs key (some (n-1)) })

inductive ForkAction where
  | fork (pid : ℕ)
  | store (pid va : ℕ) (allowed : Bool)
  deriving DecidableEq, Repr

/-- One step: a fork that succeeds, or a store that faults on a copy-on-write page. -/
def forkStep (pf : Platform) (w : World) : ForkAction → Option World
  | .fork pid => w.forkProc pf pid
  | .store pid va allowed => match w.procs pid with
    | none => none
    | some pr => if houseIsCowPage w.vm pr.pdir va then some (w.breakCow pid va allowed).2 else none

/-- The page maps of the live processes. -/
def World.roots (w : World) : Set ℕ := { r | ∃ p pr, w.procs p = some pr ∧ pr.pdir = r }

/-- The page of a process at `va`. -/
def World.page (pf : Platform) (w : World) (pid va : ℕ) : Option PageInfo :=
  (w.procs pid).bind fun pr => userPage pf.toRam w.vm pr.pdir va

/-- A page that its process may write, at once or after a break. -/
def Storable (pf : Platform) (w : World) (pid va : ℕ) : Prop :=
  ∃ info, w.page pf pid va = some info ∧ (info.writable = true ∨ info.cow = true)

/-- What every state of a run has: page maps in order, one for each process; commitments at the
user's addresses; and pages that are not writable are read-only for the user. -/
structure World.Good (pf : Platform) (w : World) : Prop where
  spaces : Spaces pf w.roots w.vm
  pids : ∀ p pr, w.procs p = some pr → p < w.pidNext
  own : ∀ p q pr pr', w.procs p = some pr → w.procs q = some pr' → pr.pdir = pr'.pdir → p = q
  demand : ∀ p pr, w.procs p = some pr → ∀ va ∈ pr.demand.flatMap demandObjectPages, ¬ pf.kernelWindow va
  access : ∀ r ∈ w.roots, ∀ va info, userPage pf.toRam w.vm r va = some info → info.writable = false →
    (leaf pf.toRam w.vm r va >>> 6) &&& 3 = 3

/-- A fork from which nothing is lost: every page that the parent may write is writable at once,
not only after a break, and lies below the end of the shared range. -/
def ForkSafe (pf : Platform) (w : World) : ForkAction → Prop
  | .fork pid => ∀ pr va info, w.procs pid = some pr → va % 4096 = 0 → userPage pf.toRam w.vm pr.pdir va = some info →
      info.writable = true ∨ info.cow = true → info.writable = true ∧ va < max pr.brk stackTop
  | .store _ _ _ => True

section Inherit

variable {pf : Platform} {roots : Set ℕ} {r src dst : ℕ}

/-- What extends the tables writes to no page that is mapped. -/
lemma extends_data {m m' : Memory} {new : List (List ℕ × ℕ)} (h : Spaces pf roots m)
    (he : Extends pf.toRam roots r m m' new) {r' va : ℕ} {info : PageInfo} (hr' : r' ∈ roots)
    (hp : userPage pf.toRam m r' va = some info) {o : ℕ} (ho : o < 4096) :
    m'.mem (keyOf info + o) = m.mem (keyOf info + o) := by
  obtain ⟨hfree, htab⟩ := h.data hr' hp
  have hal : keyOf info % 4096 = 0 := (userPage_bound hp).1
  refine he.outside (fun r' js q hq => ?_) fun q hq => ?_
  · have hne := htab r' js q hq
    have := h.forest.aligned hq
    simp only [keyOf] at hal ⊢
    omega
  · have hne : q ≠ info.physPage.toNat := fun heq => hfree (heq ▸ hq)
    have := h.forest.freeAligned hq
    simp only [keyOf] at hal ⊢
    omega

/-- A new marker is the only one that changed. -/
lemma userMarker_sets {m m' : Memory} {new : List (List ℕ × ℕ)} {va : ℕ} {w : Bool} (hdst : dst ∈ roots)
    (hs : Sets pf.toRam roots dst va (demandDesc w) m m' new) (hva : validVAddr va = true) (ha : va % 4096 = 0) (va' : ℕ) :
    userMarker pf.toRam m' dst va' = if va' = va then some w else userMarker pf.toRam m dst va' := by
  have hmark : isDemandDesc (demandDesc w) = true ∧ demandWritable (demandDesc w) = w := by cases w <;> decide
  split_ifs with hsame
  · subst hsame
    have hguard : (validVAddr va' && decide (va' % 4096 = 0)) = true := by simp [hva, ha]
    have hnone : userPage pf.toRam m' dst va' = none := by
      rw [userPage, if_pos hva, hs.leaf_self]
      exact descToPageInfo_demandDesc w
    rw [userMarker, if_pos hguard, hnone, hs.leaf_self]
    simp [hmark]
  · by_cases hguard : (validVAddr va' && decide (va' % 4096 = 0)) = true
    · refine userMarker_congr (hs.leaf_other hdst fun hboth => hsame ?_)
      simp only [Bool.and_eq_true, decide_eq_true_eq] at hguard
      have := (samePage_iff hguard.1 hva).mp hboth.2
      omega
    · rw [userMarker, userMarker, if_neg hguard, if_neg hguard]

/-- Planting the parent's markers changes the child only, and maps nothing there. -/
structure Planted (pf : Platform) (roots : Set ℕ) (src dst : ℕ) (pages : List ℕ) (m m' : Memory) : Prop where
  spaces : Spaces pf roots m'
  ext : ∃ new, Extends pf.toRam roots dst m m' new
  blank : ∀ va, descToPageInfo (leaf pf.toRam m' dst va) = none
  leaves : ∀ {r va}, r ∈ roots → r ≠ dst → leaf pf.toRam m' r va = leaf pf.toRam m r va
  marks : ∀ va, userMarker pf.toRam m' dst va =
    if va ∈ pages then (userMarker pf.toRam m src va).or (userMarker pf.toRam m dst va) else userMarker pf.toRam m dst va

theorem inheritDemand_cases {m : Memory} {pages : List ℕ} (h : Spaces pf roots m) (hsrc : src ∈ roots) (hdst : dst ∈ roots)
    (hne : src ≠ dst) (hpages : ∀ va ∈ pages, ¬ pf.kernelWindow va)
    (hblank : ∀ va, descToPageInfo (leaf pf.toRam m dst va) = none) {m' : Memory}
    (hrun : inheritDemand src dst m pages = (true, m')) : Planted pf roots src dst pages m m' := by
  induction pages generalizing m with
  | nil =>
    obtain rfl : m = m' := by simpa [inheritDemand] using hrun
    exact ⟨h, ⟨[], (Grows.refl h.forest).toExtends⟩, hblank, fun _ _ => rfl, by simp⟩
  | cons va pages ih =>
    have hva := hpages va List.mem_cons_self
    have hrest : ∀ va ∈ pages, ¬ pf.kernelWindow va := fun va hv => hpages va (List.mem_cons_of_mem _ hv)
    have hget : getPage m dst va = none := by rw [h.getPage_eq hdst hva, userPage, hblank, ite_self]
    rw [inheritDemand, hget] at hrun
    dsimp only at hrun
    rw [getDemandPage_of_clear (h.clear hsrc hva)] at hrun
    cases hmark : userMarker pf.toRam m src va with
    | none =>
      simp only [hmark] at hrun
      obtain ⟨h1, h2, h3, h4, h5⟩ := ih h hrest hblank hrun
      refine ⟨h1, h2, h3, h4, fun va' => ?_⟩
      rw [h5]
      by_cases hsame : va' = va
      · subst hsame
        simp [hmark]
      · simp [hsame]
    | some writable =>
      simp only [hmark] at hrun
      obtain ⟨m₁, new, hset, hs, -⟩ | ⟨m₁, new, hset, -⟩ :=
        setDemandPage_cases h.forest h.pool hdst (h.clear hdst hva) writable
      · rw [hset] at hrun
        have hnone : ∀ info, descToPageInfo (demandDesc writable) ≠ some info := by simp
        have hblank₁ : ∀ va', descToPageInfo (leaf pf.toRam m₁ dst va') = none := by
          intro va'
          by_cases hsame : SamePage va' va
          · rw [hsame.leaf_eq, hs.leaf_self]
            exact descToPageInfo_demandDesc writable
          · rw [hs.leaf_other hdst fun hboth => hsame hboth.2]
            exact hblank va'
        obtain ⟨h1, ⟨new', h2⟩, h3, h4, h5⟩ := ih (h.sets hs fun info hinfo => absurd hinfo (hnone info)) hrest hblank₁ hrun
        have hguard : validVAddr va = true ∧ va % 4096 = 0 := by
          by_contra hno
          rw [userMarker, if_neg (by simpa using hno)] at hmark
          cases hmark
        have hsrcmark : ∀ va', userMarker pf.toRam m₁ src va' = userMarker pf.toRam m src va' :=
          fun va' => userMarker_congr (hs.leaf_other hsrc fun hboth => hne hboth.1)
        refine ⟨h1, ⟨_, hs.toExtends.trans h2⟩, h3, fun hr hne => (h4 hr hne).trans ?_, fun va' => ?_⟩
        · exact hs.leaf_other hr fun hboth => hne hboth.1
        · rw [h5, hsrcmark, userMarker_sets hdst hs hguard.1 hguard.2]
          by_cases hsame : va' = va
          · subst hsame
            simp [hmark]
          · simp [hsame]
      · rw [hset] at hrun
        cases hrun

end Inherit

section Fork

variable {pf : Platform} {w w' : World} {pid : ℕ}

/-- A fork that succeeded, with the state `s₁` in which the sharing starts. -/
structure Forked (pf : Platform) (w w' : World) (parent : Process) (child : ℕ) (s₁ : VmState)
    (new : List (List ℕ × ℕ)) : Prop where
  fresh : child ∉ w.roots
  procs : w'.procs = Function.update w.procs w.pidNext (some { parent with pdir := child })
  pidNext : w'.pidNext = w.pidNext + 1
  leaves : ∀ {r va}, r ∈ w.roots → leaf pf.toRam s₁.vm r va = leaf pf.toRam w.vm r va
  blank : ∀ va, descToPageInfo (leaf pf.toRam s₁.vm child va) = none
  marks : ∀ va, userMarker pf.toRam s₁.vm child va =
    if va ∈ parent.demand.flatMap demandObjectPages then userMarker pf.toRam w.vm parent.pdir va else none
  bytes : ∀ {r va info o}, r ∈ w.roots → userPage pf.toRam w.vm r va = some info → o < 4096 →
    w'.vm.mem (keyOf info + o) = w.vm.mem (keyOf info + o)
  shared : Shared pf (insert child w.roots) parent.pdir child s₁ w'.toVmState
    (scan pf.toRam s₁.vm parent.pdir (max parent.brk stackTop)).reverse new

lemma World.mem_roots {p : ℕ} {pr : Process} (h : w.procs p = some pr) : pr.pdir ∈ w.roots := ⟨p, pr, h, rfl⟩

theorem forkProc_cases (hw : w.Good pf) (hfork : w.forkProc pf pid = some w') :
    ∃ parent child s₁ new, w.procs pid = some parent ∧ Forked pf w w' parent child s₁ new := by
  unfold World.forkProc at hfork
  cases hpr : w.procs pid with
  | none => simp [hpr] at hfork
  | some parent =>
    have hparent := World.mem_roots hpr
    simp only [hpr] at hfork
    obtain ⟨child, vm, halloc, hcreates, -⟩ | hnone := allocPageMap_cases hw.spaces
    · rw [halloc] at hfork
      simp only at hfork
      have hne : parent.pdir ≠ child := fun heq => hcreates.fresh (heq ▸ hparent)
      rcases hinherit : inheritDemand parent.pdir child vm (parent.demand.flatMap demandObjectPages) with ⟨ok, vm₁⟩
      rw [hinherit] at hfork
      cases ok with
      | false => simp at hfork
      | true =>
        simp only at hfork
        obtain ⟨hspaces, ⟨new₀, hext⟩, hblank, hleaves, hmarks⟩ := inheritDemand_cases hcreates.spaces
          (Set.mem_insert_of_mem _ hparent) (Set.mem_insert _ _) hne (hw.demand pid parent hpr)
          (fun va => by rw [hcreates.blank]; exact descToPageInfo_zero) hinherit
        obtain ⟨s, new, hrun, hshared, -⟩ | ⟨s, fl, new, hrun, -⟩ :=
          @shareAddrSpace_cases pf _ parent.pdir child { w.toVmState with vm := vm₁ } (max parent.brk stackTop)
            hspaces (Set.mem_insert_of_mem _ hparent) (Set.mem_insert _ _) hne
        · rw [hrun] at hfork
          simp only [Option.some.injEq] at hfork
          refine ⟨parent, child, { w.toVmState with vm := vm₁ }, new, rfl, ?_⟩
          subst hfork
          have hold : ∀ {r va}, r ∈ w.roots → leaf pf.toRam vm₁ r va = leaf pf.toRam w.vm r va := by
            intro r va hr
            have hrc : r ≠ child := fun heq => hcreates.fresh (heq ▸ hr)
            exact (hleaves (Set.mem_insert_of_mem _ hr) hrc).trans (hcreates.leaves hr)
          refine ⟨hcreates.fresh, rfl, rfl, hold, hblank, fun va => ?_, ?_, hshared⟩
          · have hchild : userMarker pf.toRam vm child va = none := by
              have hzero : isDemandDesc 0#64 = false := by decide
              rw [userMarker, userPage, hcreates.blank]
              simp [hzero]
            rw [hmarks, userMarker_congr (hcreates.leaves hparent), hchild, Option.or_none]
          · intro r va info o hr hp ho
            have hp₁ : userPage pf.toRam vm r va = some info := by rwa [userPage_congr (hcreates.leaves hr)]
            have hp₂ : userPage pf.toRam vm₁ r va = some info := by rwa [userPage_congr (hold hr)]
            have hal : keyOf info % 4096 = 0 := (userPage_bound hp).1
            have hfree := (hw.spaces.data hr hp).1
            calc s.vm.mem (keyOf info + o)
                = vm₁.mem (keyOf info + o) := extends_data hspaces hshared.ext (Set.mem_insert_of_mem _ hr) hp₂ ho
              _ = vm.mem (keyOf info + o) := extends_data hcreates.spaces hext (Set.mem_insert_of_mem _ hr) hp₁ ho
              _ = w.vm.mem (keyOf info + o) := hcreates.outside fun q hq => by
                have hne : q ≠ info.physPage.toNat := fun heq => hfree (heq ▸ hq)
                have := hw.spaces.forest.freeAligned hq
                simp only [keyOf] at hal ⊢
                omega
        · rw [hrun] at hfork
          cases hfork
    · rcases halloc : allocPageMap pf w.vm with ⟨l0, vm⟩
      rw [halloc] at hfork hnone
      subst hnone
      cases hfork

/-- Three free pages for the root and three for each page of the parent are enough for a fork of
a process without commitments. -/
theorem forkProc_succeeds {parent : Process} (hw : w.Good pf) (hpr : w.procs pid = some parent)
    (hdemand : parent.demand = []) {n : ℕ}
    (hscan : (scan pf.toRam w.vm parent.pdir (max parent.brk stackTop)).length = n) (hcap : n ≤ 8192)
    (hroom : 3 + 3*n ≤ w.vm.pool.length) :
    ∃ w', w.forkProc pf pid = some w' ∧ w.vm.pool.length ≤ w'.vm.pool.length + 3 + 3*n := by
  have hparent := World.mem_roots hpr
  obtain ⟨child, vm, halloc, hcreates, hpool⟩ | hnone := allocPageMap_cases hw.spaces
  · have hne : parent.pdir ≠ child := fun heq => hcreates.fresh (heq ▸ hparent)
    have hsame : scan pf.toRam vm parent.pdir (max parent.brk stackTop) =
        scan pf.toRam w.vm parent.pdir (max parent.brk stackTop) :=
      scan_congr fun va => userPage_congr (hcreates.leaves hparent)
    have hbill := needed_le pf.toRam vm child ((scan pf.toRam vm parent.pdir (max parent.brk stackTop)).map Prod.fst)
    rw [List.length_map, hsame, hscan] at hbill
    obtain ⟨s', new, hrun, hshared, hlen⟩ := @shareAddrSpace_succeeds pf _ parent.pdir child { w.toVmState with vm := vm }
      (max parent.brk stackTop) hcreates.spaces (Set.mem_insert_of_mem _ hparent) (Set.mem_insert _ _) hne
      (by simp only [hsame]; omega) (by simp only [hsame]; omega)
    have htook := congrArg List.length hshared.ext.pool
    rw [List.length_append, List.length_map, hlen] at htook
    simp only [hsame] at htook
    have hfork : w.forkProc pf pid = some
        { toVmState := s'
          procs := Function.update w.procs w.pidNext (some { parent with pdir := child })
          pidNext := w.pidNext + 1 } := by
      simp only [World.forkProc, hpr, halloc, hdemand, List.flatMap_nil, inheritDemand, hrun]
    refine ⟨_, hfork, ?_⟩
    simp only
    omega
  · exfalso
    rcases hl : w.vm.pool with _ | ⟨l0, _ | ⟨l1, _ | ⟨l2, rest⟩⟩⟩
    · simp [hl] at hroom
    · simp only [hl, List.length_cons, List.length_nil] at hroom
      omega
    · simp only [hl, List.length_cons, List.length_nil] at hroom
      omega
    · rw [allocPageMap_eq hl] at hnone
      cases hnone

variable {parent : Process} {child : ℕ} {s₁ : VmState} {new : List (List ℕ × ℕ)}

lemma Forked.roots_eq (h : Forked pf w w' parent child s₁ new) (hw : w.Good pf) : w'.roots = insert child w.roots := by
  have hfree : w.procs w.pidNext = none := by
    by_contra hsome
    obtain ⟨pr, hpr⟩ := Option.ne_none_iff_exists'.mp hsome
    have := hw.pids _ _ hpr
    omega
  ext r
  simp only [World.roots, Set.mem_insert_iff, Set.mem_ofPred_eq, h.procs]
  constructor
  · rintro ⟨p, pr, hpr, rfl⟩
    by_cases hp : p = w.pidNext
    · subst hp
      rw [Function.update_self] at hpr
      obtain rfl := Option.some.inj hpr
      exact Or.inl rfl
    · rw [Function.update_of_ne hp] at hpr
      exact Or.inr ⟨p, pr, hpr, rfl⟩
  · rintro (rfl | ⟨p, pr, hpr, rfl⟩)
    · exact ⟨w.pidNext, _, Function.update_self .., rfl⟩
    · refine ⟨p, pr, ?_, rfl⟩
      rw [Function.update_of_ne, hpr]
      rintro rfl
      rw [hfree] at hpr
      cases hpr

/-- A leaf after the fork: as it was, or in the shared shape. -/
lemma Forked.leaf_cases (h : Forked pf w w' parent child s₁ new) {r va : ℕ}
    (hr : r ∈ insert child w.roots) :
    leaf pf.toRam w'.vm r va = leaf pf.toRam s₁.vm r va ∨
      ∃ info, leaf pf.toRam w'.vm r va = pageInfoToDesc (sharedInfo info) ∧
        info.physPage &&& mAddress = info.physPage := by
  by_cases hflip : ∃ p ∈ scan pf.toRam s₁.vm parent.pdir (max parent.brk stackTop), SamePage va p.1
  · obtain ⟨p, hp, hsame⟩ := hflip
    obtain ⟨hpage, hsrc, hdst⟩ := h.shared.flipped p (List.mem_reverse.mpr hp)
    obtain ⟨l3, -, hdesc⟩ := userPage_table hpage
    have hphys := (descToPageInfo_physPage hdesc).2.2.2
    by_cases h1 : r = parent.pdir
    · subst h1
      exact Or.inr ⟨p.2, by rw [hsame.leaf_eq, hsrc], hphys⟩
    · by_cases h2 : r = child
      · subst h2
        exact Or.inr ⟨p.2, by rw [hsame.leaf_eq, hdst], hphys⟩
      · exact Or.inl (h.shared.other hr h1 h2)
  · refine Or.inl (h.shared.rest hr fun p hp hsame => hflip ⟨p, List.mem_reverse.mp hp, hsame⟩)

lemma Forked.scanned (h : Forked pf w w' parent child s₁ new) (hparent : parent.pdir ∈ w.roots) {p : ℕ × PageInfo} :
    p ∈ scan pf.toRam s₁.vm parent.pdir (max parent.brk stackTop) ↔ p.1 % 4096 = 0 ∧ p.1 < max parent.brk stackTop ∧
      userPage pf.toRam w.vm parent.pdir p.1 = some p.2 := by
  rw [mem_scan, userPage_congr (h.leaves hparent)]

lemma userPage_sharedInfo {m : Memory} {r va : ℕ} {info : PageInfo} (hva : validVAddr va = true)
    (hphys : info.physPage &&& mAddress = info.physPage)
    (hleaf : leaf pf.toRam m r va = pageInfoToDesc (sharedInfo info)) :
    userPage pf.toRam m r va = some (sharedInfo info) := by
  rw [userPage, if_pos hva, hleaf]
  exact descToPageInfo_pageInfoToDesc hphys

/-- A shared page of the parent, in both page maps. -/
lemma Forked.page_shared (h : Forked pf w w' parent child s₁ new) (hparent : parent.pdir ∈ w.roots) {va : ℕ}
    {info : PageInfo} (ha : va % 4096 = 0) (hlt : va < max parent.brk stackTop)
    (hp : userPage pf.toRam w.vm parent.pdir va = some info) :
    userPage pf.toRam w'.vm parent.pdir va = some (sharedInfo info) ∧
      userPage pf.toRam w'.vm child va = some (sharedInfo info) := by
  obtain ⟨-, hsrc, hdst⟩ := h.shared.flipped (va, info) (List.mem_reverse.mpr ((h.scanned hparent).mpr ⟨ha, hlt, hp⟩))
  obtain ⟨l3, -, hdesc⟩ := userPage_table hp
  have hphys := (descToPageInfo_physPage hdesc).2.2.2
  exact ⟨userPage_sharedInfo (userPage_valid hp) hphys hsrc, userPage_sharedInfo (userPage_valid hp) hphys hdst⟩

/-- A page above the shared range is not in the child. -/
lemma Forked.page_above (h : Forked pf w w' parent child s₁ new) (hparent : parent.pdir ∈ w.roots) {va : ℕ}
    (ha : va % 4096 = 0) (hle : max parent.brk stackTop ≤ va) : userPage pf.toRam w'.vm child va = none := by
  by_cases hva : validVAddr va = true
  · rw [userPage, if_pos hva, h.shared.rest (Set.mem_insert _ _), h.blank]
    intro p hp hsame
    obtain ⟨ha', hlt, hpage⟩ := (h.scanned hparent).mp (List.mem_reverse.mp hp)
    have := (samePage_iff hva (userPage_valid hpage)).mp hsame
    omega
  · rw [userPage, if_neg hva]

/-- The page maps of the other processes are as they were. -/
lemma Forked.page_other (h : Forked pf w w' parent child s₁ new) {r va : ℕ} (hr : r ∈ w.roots)
    (hne : r ≠ parent.pdir) : userPage pf.toRam w'.vm r va = userPage pf.toRam w.vm r va := by
  have hrc : r ≠ child := fun heq => h.fresh (heq ▸ hr)
  rw [userPage_congr (h.shared.other (Set.mem_insert_of_mem _ hr) hne hrc), userPage_congr (h.leaves hr)]

theorem Forked.good (h : Forked pf w w' parent child s₁ new) (hw : w.Good pf) (hpr : w.procs pid = some parent) :
    w'.Good pf := by
  have hparent := World.mem_roots hpr
  have hroots := h.roots_eq hw
  -- a process of the new state is an old one or the child
  have hprocs : ∀ p pr, w'.procs p = some pr →
      (p = w.pidNext ∧ pr = { parent with pdir := child }) ∨ (p ≠ w.pidNext ∧ w.procs p = some pr) := by
    intro p pr hp
    rw [h.procs] at hp
    by_cases hnext : p = w.pidNext
    · subst hnext
      rw [Function.update_self] at hp
      exact Or.inl ⟨rfl, (Option.some.inj hp).symm⟩
    · rw [Function.update_of_ne hnext] at hp
      exact Or.inr ⟨hnext, hp⟩
  refine ⟨hroots ▸ h.shared.spaces, ?_, ?_, ?_, ?_⟩
  · intro p pr hp
    rw [h.pidNext]
    obtain ⟨rfl, -⟩ | ⟨-, hp⟩ := hprocs p pr hp
    · omega
    · have := hw.pids p pr hp
      omega
  · intro p q pr pr' hp hq heq
    obtain ⟨rfl, rfl⟩ | ⟨-, hp⟩ := hprocs p pr hp
    · obtain ⟨rfl, -⟩ | ⟨-, hq⟩ := hprocs q pr' hq
      · rfl
      · exact absurd ⟨q, pr', hq, heq.symm⟩ h.fresh
    · obtain ⟨rfl, rfl⟩ | ⟨-, hq⟩ := hprocs q pr' hq
      · exact absurd ⟨p, pr, hp, heq⟩ h.fresh
      · exact hw.own p q pr pr' hp hq heq
  · intro p pr hp
    obtain ⟨-, rfl⟩ | ⟨-, hp⟩ := hprocs p pr hp
    · exact hw.demand pid parent hpr
    · exact hw.demand p pr hp
  · intro r hr va info hp hro
    rw [hroots] at hr
    obtain hsame | ⟨info', hleaf, hphys⟩ := @Forked.leaf_cases _ _ _ _ _ _ _ h r va hr
    · rw [userPage_congr hsame] at hp
      rw [hsame]
      obtain rfl | hr := Set.mem_insert_iff.mp hr
      · rw [userPage, h.blank] at hp
        simp at hp
      · rw [userPage_congr (h.leaves hr)] at hp
        rw [h.leaves hr]
        exact hw.access r hr va info hp hro
    · rw [hleaf]
      exact access_pageInfoToDesc rfl

/-- A page that may be written stays one, in the parent, the child and the others. -/
theorem Forked.storable (h : Forked pf w w' parent child s₁ new) (hw : w.Good pf) (hpr : w.procs pid = some parent)
    (hsafe : ForkSafe pf w (.fork pid)) {p va : ℕ} (ha : va % 4096 = 0) (hs : Storable pf w p va) :
    Storable pf w' p va ∧ (p = pid → Storable pf w' w.pidNext va) := by
  obtain ⟨info, hinfo, hbits⟩ := hs
  obtain ⟨pr, hp, hpage⟩ := Option.bind_eq_some_iff.mp hinfo
  have hnext : p ≠ w.pidNext := (hw.pids p pr hp).ne
  have hp' : w'.procs p = some pr := by rw [h.procs, Function.update_of_ne hnext, hp]
  have hchild : w'.procs w.pidNext = some { parent with pdir := child } := by rw [h.procs, Function.update_self]
  by_cases hpid : p = pid
  · subst hpid
    obtain rfl := Option.some.inj (hpr.symm.trans hp)
    obtain ⟨hwr, hlt⟩ := hsafe parent va info hp ha hpage hbits
    obtain ⟨h1, h2⟩ := h.page_shared (World.mem_roots hp) ha hlt hpage
    refine ⟨⟨sharedInfo info, ?_, Or.inr hwr⟩, fun _ => ⟨sharedInfo info, ?_, Or.inr hwr⟩⟩
    · rw [World.page, hp']
      exact h1
    · rw [World.page, hchild]
      exact h2
  · refine ⟨⟨info, ?_, hbits⟩, fun heq => absurd heq hpid⟩
    have hne : pr.pdir ≠ parent.pdir := fun heq => hpid (hw.own p pid pr parent hp hpr heq)
    rw [World.page, hp']
    exact (h.page_other (World.mem_roots hp) hne).trans hpage

/-- The condition on a fork is exact: without it some page is lost, in the parent or in the
child. -/
theorem Forked.storable_iff (h : Forked pf w w' parent child s₁ new) (hw : w.Good pf) (hpr : w.procs pid = some parent) :
    (∀ va, va % 4096 = 0 → Storable pf w pid va → Storable pf w' pid va ∧ Storable pf w' w.pidNext va) ↔
      ForkSafe pf w (.fork pid) := by
  constructor
  · intro hall pr va info hp ha hpage hbits
    obtain rfl := Option.some.inj (hpr.symm.trans hp)
    have hnext : pid ≠ w.pidNext := (hw.pids pid parent hp).ne
    have hs : Storable pf w pid va := ⟨info, by rw [World.page, hp]; exact hpage, hbits⟩
    obtain ⟨⟨info₁, hinfo₁, hbits₁⟩, ⟨info₂, hinfo₂, -⟩⟩ := hall va ha hs
    rw [World.page, h.procs, Function.update_self] at hinfo₂
    rw [World.page, h.procs, Function.update_of_ne hnext, hp] at hinfo₁
    have hlt : va < max parent.brk stackTop := by
      by_contra hle
      have hnone := h.page_above (World.mem_roots hp) ha (by omega)
      rw [Option.bind_some, hnone] at hinfo₂
      cases hinfo₂
    refine ⟨?_, hlt⟩
    obtain ⟨h1, -⟩ := h.page_shared (World.mem_roots hp) ha hlt hpage
    rw [Option.bind_some, h1] at hinfo₁
    obtain rfl := Option.some.inj hinfo₁
    simpa [sharedInfo] using hbits₁
  · intro hsafe va ha hs
    obtain ⟨h1, h2⟩ := h.storable hw hpr hsafe ha hs
    exact ⟨h1, h2 rfl⟩

end Fork

section Break

variable {pf : Platform} {w w' : World} {pid : ℕ} {pr : Process} {va : ℕ}

/-- A break that went through: one page became writable, on its host page or on a copy. -/
structure Broken (pf : Platform) (w w' : World) (pr : Process) (va : ℕ) (mine : PageInfo) : Prop where
  spaces : Spaces pf w.roots w'.vm
  writable : mine.writable = true
  canonical : mine.physPage &&& mAddress = mine.physPage
  host : (∃ info, userPage pf.toRam w.vm pr.pdir va = some info ∧ keyOf mine = keyOf info) ∨ keyOf mine ∈ w.vm.pool
  leaf_self : leaf pf.toRam w'.vm pr.pdir va = pageInfoToDesc mine
  leaf_other : ∀ {r va'}, r ∈ w.roots → ¬ (r = pr.pdir ∧ SamePage va' va) →
    leaf pf.toRam w'.vm r va' = leaf pf.toRam w.vm r va'

/-- Setting a page whose table is there. -/
lemma Broken.of_set {m : Memory} {l3 : ℕ} {mine : PageInfo} {refs : CowRefs} (hm : Spaces pf w.roots m)
    (hleaf : ∀ {r va}, r ∈ w.roots → leaf pf.toRam m r va = leaf pf.toRam w.vm r va)
    (htab : TableAt pf.toRam m w.roots pr.pdir (path va) l3) (hk : ¬ pf.kernelWindow va) (hw : mine.writable = true)
    (hphys : mine.physPage &&& mAddress = mine.physPage) (hfree : mine.physPage.toNat ∉ m.pool)
    (hdata : ∀ r js q, TableAt pf.toRam m w.roots r js q → q ≠ mine.physPage.toNat)
    (hhost : (∃ info, userPage pf.toRam w.vm pr.pdir va = some info ∧ keyOf mine = keyOf info) ∨ keyOf mine ∈ w.vm.pool) :
    Broken pf w { w with vm := m.poke l3 (l3Index va) (pageInfoToDesc mine), refs := refs } pr va mine := by
  have hs := sets_poke hm.forest htab (pageInfoToDesc mine)
  refine ⟨hm.sets hs fun info hinfo => ?_, hw, hphys, hhost, hs.leaf_self, fun hr hne => ?_⟩
  · obtain rfl := Option.some.inj (hinfo.symm.trans (descToPageInfo_pageInfoToDesc hphys))
    exact ⟨hk, hfree, hdata⟩
  · exact (hs.leaf_other hr hne).trans (hleaf hr)

/-- A break of a copy-on-write page goes through or runs out of memory, in which case nothing
changed. -/
theorem breakCow_cases (hw : w.Good pf) (hpr : w.procs pid = some pr) {a : ℕ} (hva : va = a - a % 4096)
    {info : PageInfo} (hpage : userPage pf.toRam w.vm pr.pdir va = some info) (hcow : info.cow = true) (allowed : Bool) :
    ∃ w', w'.procs = w.procs ∧ w'.pidNext = w.pidNext ∧
      ((w.breakCow pid a allowed = (.noMem, w') ∧ w'.vm = w.vm) ∨
        ∃ mine, w.breakCow pid a allowed = (.ok, w') ∧ Broken pf w w' pr va mine) := by
  have hroot := World.mem_roots hpr
  obtain ⟨l3, hwalk, hdesc⟩ := userPage_table hpage
  have hphys := (descToPageInfo_physPage hdesc).2.2.2
  have hvalid := userPage_valid hpage
  have hk := hw.spaces.user hroot hpage
  obtain ⟨hfree, hdata⟩ := hw.spaces.data hroot hpage
  have htab : TableAt pf.toRam w.vm w.roots pr.pdir (path va) l3 := ⟨hroot, index_lt va, by simp [path], hwalk⟩
  have hget : getPage w.vm pr.pdir va = some info := (getPage_of_walk hwalk).trans hpage
  simp only [World.breakCow, hpr, ← hva, hget, hcow, Bool.not_true, Bool.false_eq_true, if_false]
  by_cases hn : (w.refs (keyOf info)).getD 0 ≤ 1
  · -- the last sharer keeps the page
    simp only [if_pos hn, setPage_of_walk hvalid hwalk]
    refine ⟨_, ?_, ?_, Or.inr ⟨{ info with writable := true, cow := false }, rfl, ?_⟩⟩
    · rfl
    · rfl
    exact Broken.of_set hw.spaces (fun _ => rfl) htab hk rfl hphys hfree hdata (Or.inl ⟨info, hpage, rfl⟩)
  rw [if_neg hn]
  cases allowed with
  | false => exact ⟨w, rfl, rfl, Or.inl ⟨rfl, rfl⟩⟩
  | true =>
    simp only [Bool.not_true, Bool.false_eq_true, if_false]
    rcases hpool : w.vm.pool with _ | ⟨raw, rest⟩
    · have halloc : allocPage w.vm = (none, w.vm) := by simp only [allocPage, hpool]
      simp only [halloc]
      exact ⟨_, rfl, rfl, Or.inl ⟨rfl, rfl⟩⟩
    · have halloc : allocPage w.vm = (some raw, { w.vm with pool := rest }) := by simp only [allocPage, hpool]
      have hraw : raw ∈ w.vm.pool := by simp [hpool]
      have hrawTab : ∀ r js q, TableAt pf.toRam w.vm w.roots r js q → q ≠ raw := by
        rintro r js q hq rfl
        exact hw.spaces.forest.apart hq hraw
      obtain ⟨hal, hlt⟩ := validPage_bound (hw.spaces.pool raw hraw)
      have hrawNat : (BitVec.ofNat 64 raw).toNat = raw := by
        rw [BitVec.toNat_ofNat]
        exact Nat.mod_eq_of_lt (by omega)
      have hnodup := hw.spaces.forest.nodup
      rw [hpool, List.nodup_cons] at hnodup
      -- the copy goes to a page that no table stands on
      have htake : Spaces pf w.roots { w.vm with pool := rest } := hw.spaces.take (by rw [hpool]; exact List.sublist_cons_self ..)
      obtain ⟨hspaces, htables, hleaf⟩ := @Spaces.write pf w.roots _ (copyPageBytes (keyOf info) raw { w.vm with pool := rest })
        htake rfl fun hq hi => if_neg (outside_tables htake hal hrawTab hq hi)
      have htab' : TableAt pf.toRam (copyPageBytes (keyOf info) raw { w.vm with pool := rest }) w.roots pr.pdir (path va) l3 :=
        htables.mpr htab
      simp only [halloc, setPage_of_walk hvalid htab'.reach]
      refine ⟨_, ?_, ?_, Or.inr ⟨{ info with physPage := BitVec.ofNat 64 raw, writable := true, cow := false }, rfl, ?_⟩⟩
      · rfl
      · rfl
      refine Broken.of_set hspaces (fun hr => hleaf hr) htab' hk rfl (mAddress_ofNat hal hlt) ?_ ?_ (Or.inr ?_)
      · simp only [hrawNat]
        exact hnodup.1
      · simp only [hrawNat]
        exact fun r js q hq => hrawTab r js q (htables.mp hq)
      · simpa only [keyOf, hrawNat] using hraw

theorem Broken.good {mine : PageInfo} (h : Broken pf w w' pr va mine) (hw : w.Good pf) (hprocs : w'.procs = w.procs)
    (hnext : w'.pidNext = w.pidNext) : w'.Good pf := by
  have hroots : w'.roots = w.roots := by rw [World.roots, World.roots, hprocs]
  refine ⟨hroots ▸ h.spaces, ?_, ?_, ?_, ?_⟩
  · rw [hprocs, hnext]
    exact hw.pids
  · rw [hprocs]
    exact hw.own
  · rw [hprocs]
    exact hw.demand
  · intro r hr va' info hp hro
    rw [hroots] at hr
    by_cases hsame : r = pr.pdir ∧ SamePage va' va
    · exfalso
      obtain ⟨rfl, hsame⟩ := hsame
      unfold userPage at hp
      split_ifs at hp
      rw [hsame.leaf_eq, h.leaf_self, descToPageInfo_pageInfoToDesc h.canonical] at hp
      obtain rfl := Option.some.inj hp
      rw [h.writable] at hro
      cases hro
    · rw [userPage_congr (h.leaf_other hr hsame)] at hp
      rw [h.leaf_other hr hsame]
      exact hw.access r hr va' info hp hro

theorem Broken.storable {mine : PageInfo} (h : Broken pf w w' pr va mine) (hprocs : w'.procs = w.procs)
    {p va' : ℕ} (hs : Storable pf w p va') : Storable pf w' p va' := by
  obtain ⟨info, hinfo, hbits⟩ := hs
  obtain ⟨pr', hp, hpage⟩ := Option.bind_eq_some_iff.mp hinfo
  have hp' : w'.procs p = some pr' := by rw [hprocs, hp]
  by_cases hsame : pr'.pdir = pr.pdir ∧ SamePage va' va
  · obtain ⟨heq, hsame⟩ := hsame
    refine ⟨mine, ?_, Or.inl h.writable⟩
    rw [World.page, hp', Option.bind_some, heq, userPage, if_pos (userPage_valid hpage), hsame.leaf_eq, h.leaf_self]
    exact descToPageInfo_pageInfoToDesc h.canonical
  · refine ⟨info, ?_, hbits⟩
    rw [World.page, hp', Option.bind_some, userPage_congr (h.leaf_other (World.mem_roots hp) hsame)]
    exact hpage

end Break

section Run

variable {pf : Platform} {w t : World} {act : ForkAction}

/-- The trap path reads whole pages. -/
lemma trapLeaf_page (m : Memory) (pdir a : ℕ) : trapLeaf m pdir a = trapLeaf m pdir (a - a % 4096) := by
  have h0 : l0Index (a - a % 4096) = l0Index a := by simp only [l0Index]; omega
  have h1 : l1Index (a - a % 4096) = l1Index a := by simp only [l1Index]; omega
  have h2 : l2Index (a - a % 4096) = l2Index a := by simp only [l2Index]; omega
  have h3 : l3Index (a - a % 4096) = l3Index a := by simp only [l3Index]; omega
  rw [trapLeaf, trapLeaf, h0, h1, h2, h3]

lemma bit_cow {d : Desc} {info : PageInfo} (h : descToPageInfo d = some info) (hcow : info.cow = true) :
    (d >>> 57) &&& 1 = 1 := by
  unfold descToPageInfo at h
  split_ifs at h
  obtain rfl := Option.some.inj h
  have hbit : (d >>> 57).getLsbD 0 = true := by simpa [bSwCow] using hcow
  rw [show (1 : Desc) = BitVec.twoPow 64 0 by decide, BitVec.and_twoPow, if_pos hbit]

/-- A store to a page that may be written goes through, or faults as a copy-on-write store that
the break answers. -/
theorem Storable.resolved (hw : w.Good pf) {p va : ℕ} (hs : Storable pf w p va) :
    ∃ pr info, w.procs p = some pr ∧ userPage pf.toRam w.vm pr.pdir va = some info ∧
      (info.writable = true ∨ ∀ a, va = a - a % 4096 → houseIsCowPage w.vm pr.pdir a = true ∧
        ∀ allowed, (w.breakCow p a allowed).1 = .ok ∨ (w.breakCow p a allowed).1 = .noMem) := by
  obtain ⟨info, hinfo, hbits⟩ := hs
  obtain ⟨pr, hpr, hpage⟩ := Option.bind_eq_some_iff.mp hinfo
  have hroot := World.mem_roots hpr
  refine ⟨pr, info, hpr, hpage, ?_⟩
  by_cases hwr : info.writable = true
  · exact Or.inl hwr
  have hcow := hbits.resolve_left hwr
  refine Or.inr fun a ha => ⟨?_, fun allowed => ?_⟩
  · have hap := hw.access _ hroot va info hpage (by simpa using hwr)
    have hbit : (leaf pf.toRam w.vm pr.pdir va >>> 57) &&& 1 = 1 := by
      have := hpage
      rw [userPage, if_pos (userPage_valid hpage)] at this
      exact bit_cow this hcow
    rw [houseIsCowPage, trapLeaf_page, ← ha, hw.spaces.trapLeaf_eq hroot hpage]
    simp only [Bool.and_eq_true, decide_eq_true_eq]
    exact ⟨hap, hbit⟩
  · obtain ⟨w', -, -, ⟨hrun, -⟩ | ⟨mine, hrun, -⟩⟩ := breakCow_cases hw hpr ha hpage hcow allowed
    · rw [hrun]
      exact Or.inr rfl
    · rw [hrun]
      exact Or.inl rfl

/-- What a step of the second kind does. -/
lemma store_step (hw : w.Good pf) {pid a : ℕ} {allowed : Bool} (h : forkStep pf w (.store pid a allowed) = some t) :
    t.procs = w.procs ∧ t.pidNext = w.pidNext ∧ (t.vm = w.vm ∨ ∃ pr va mine, Broken pf w t pr va mine) := by
  unfold forkStep at h
  cases hpr : w.procs pid with
  | none => simp [hpr] at h
  | some pr =>
    simp only [hpr] at h
    split_ifs at h with hcow
    obtain rfl := Option.some.inj h
    have hroot := World.mem_roots hpr
    -- a break that finds no copy-on-write page changes nothing
    have hnone : (∀ info, getPage w.vm pr.pdir (a - a % 4096) = some info → info.cow = false) →
        w.breakCow pid a allowed = (.notCow, w) := by
      intro hno
      cases hget : getPage w.vm pr.pdir (a - a % 4096) with
      | none => simp [World.breakCow, hpr, hget]
      | some info => simp [World.breakCow, hpr, hget, hno info hget]
    by_cases hva : validVAddr (a - a % 4096) = true
    · have hk : ¬ pf.kernelWindow (a - a % 4096) := by
        intro hk
        rw [houseIsCowPage, trapLeaf_page, hw.spaces.trapLeaf_kernel hroot hva hk] at hcow
        cases hcow
      have hget := hw.spaces.getPage_eq hroot hk
      by_cases hpage : ∃ info, userPage pf.toRam w.vm pr.pdir (a - a % 4096) = some info ∧ info.cow = true
      · obtain ⟨info, hpage, hcow'⟩ := hpage
        obtain ⟨w', h1, h2, ⟨hrun, hvm⟩ | ⟨mine, hrun, hb⟩⟩ := breakCow_cases hw hpr rfl hpage hcow' allowed
        · rw [hrun]
          exact ⟨h1, h2, Or.inl hvm⟩
        · rw [hrun]
          exact ⟨h1, h2, Or.inr ⟨pr, _, mine, hb⟩⟩
      · rw [hnone]
        · exact ⟨rfl, rfl, Or.inl rfl⟩
        · intro info hinfo
          rw [hget] at hinfo
          by_contra hne
          exact hpage ⟨info, hinfo, by simpa using hne⟩
    · rw [hnone]
      · exact ⟨rfl, rfl, Or.inl rfl⟩
      · intro info hinfo
        rw [getPage, if_neg hva] at hinfo
        cases hinfo

theorem World.Good.step (hw : w.Good pf) (h : forkStep pf w act = some t) : t.Good pf := by
  cases act with
  | fork pid =>
    obtain ⟨parent, child, s₁, new, hpr, hf⟩ := forkProc_cases hw h
    exact hf.good hw hpr
  | store pid a allowed =>
    obtain ⟨hprocs, hnext, hvm | ⟨pr, va, mine, hb⟩⟩ := store_step hw h
    · have hroots : t.roots = w.roots := by rw [World.roots, World.roots, hprocs]
      refine ⟨?_, ?_, ?_, ?_, ?_⟩
      · rw [hroots, hvm]
        exact hw.spaces
      · rw [hprocs, hnext]
        exact hw.pids
      · rw [hprocs]
        exact hw.own
      · rw [hprocs]
        exact hw.demand
      · rw [hroots, hvm]
        exact hw.access
    · exact hb.good hw hprocs hnext

theorem Storable.step (hw : w.Good pf) (hsafe : ForkSafe pf w act) (h : forkStep pf w act = some t) {p va : ℕ}
    (ha : va % 4096 = 0) (hs : Storable pf w p va) : Storable pf t p va := by
  cases act with
  | fork pid =>
    obtain ⟨parent, child, s₁, new, hpr, hf⟩ := forkProc_cases hw h
    exact (hf.storable hw hpr hsafe ha hs).1
  | store pid a allowed =>
    obtain ⟨hprocs, -, hvm | ⟨pr, va', mine, hb⟩⟩ := store_step hw h
    · obtain ⟨info, hinfo, hbits⟩ := hs
      refine ⟨info, ?_, hbits⟩
      rwa [World.page, hprocs, hvm]
    · exact hb.storable hprocs hs

/-- In a run whose forks are all safe, what the parent could write before a fork, both sides can
write from then on: at once, or after a break, which is never refused as no copy-on-write page. -/
theorem forks_keep_stores {s u : World} {as bs : List ForkAction} {pid va : ℕ} (hw : w.Good pf)
    (hbefore : run (forkStep pf) w as = some s) (hfork : forkStep pf s (.fork pid) = some t)
    (hafter : run (forkStep pf) t bs = some u) (hsafe : Along (forkStep pf) (ForkSafe pf) w (as ++ .fork pid :: bs))
    (ha : va % 4096 = 0) (hs : Storable pf s pid va) :
    (Storable pf t pid va ∧ Storable pf t s.pidNext va) ∧
    ∀ p, p = pid ∨ p = s.pidNext → ∃ pr info, u.procs p = some pr ∧ userPage pf.toRam u.vm pr.pdir va = some info ∧
      (info.writable = true ∨ ∀ a, va = a - a % 4096 → houseIsCowPage u.vm pr.pdir a = true ∧
        ∀ allowed, (u.breakCow p a allowed).1 = .ok ∨ (u.breakCow p a allowed).1 = .noMem) := by
  obtain ⟨hsafe₁, hsafe₂⟩ := along_append.mp hsafe
  have hgood : s.Good pf := run_invariant (fun _ _ _ hi _ hstep => hi.step hstep) hw hsafe₁ hbefore
  obtain ⟨hnow, hrest⟩ := hsafe₂ s hbefore
  obtain ⟨parent, child, s₁, new, hpr, hf⟩ := forkProc_cases hgood hfork
  obtain ⟨hparent, hchild⟩ := hf.storable hgood hpr hnow ha hs
  refine ⟨⟨hparent, hchild rfl⟩, fun p hp => ?_⟩
  -- from the fork on, the pages stay what they are
  have hkeep : u.Good pf ∧ Storable pf u p va := by
    refine @run_invariant _ _ _ _ (fun x => x.Good pf ∧ Storable pf x p va) ?_ _ _ _ ?_ (hrest t hfork) hafter
    · rintro x act y ⟨hx, hxs⟩ hG hstep
      exact ⟨hx.step hstep, hxs.step hx hG hstep ha⟩
    · refine ⟨hgood.step hfork, ?_⟩
      obtain rfl | rfl := hp
      · exact hparent
      · exact hchild rfl
  exact hkeep.2.resolved hkeep.1

end Run

section Sample

/-- A world with one process, whose page map is `r`. -/
def lone (m : Memory) (r : ℕ) : World :=
  ⟨⟨m, fun _ => none, 0x40300000⟩, fun p => if p = 1 then some ⟨r, 0x1001000, []⟩ else none, 2⟩

lemma lone_procs (m : Memory) (r : ℕ) : (lone m r).procs 1 = some ⟨r, 0x1001000, []⟩ := rfl

/-- The only page that `pid` maps is the one at `va`. -/
def OnlyPage (pf : Platform) (w : World) (pid va : ℕ) (info : PageInfo) : Prop :=
  w.page pf pid va = some info ∧ ∀ va', va' % 4096 = 0 → w.page pf pid va' ≠ none → va' = va

lemma lone_roots (m : Memory) (r : ℕ) : (lone m r).roots = {r} := by
  ext x
  simp only [World.roots, lone, Set.mem_ofPred_eq, Set.mem_singleton_iff]
  constructor
  · rintro ⟨p, pr, hpr, rfl⟩
    split_ifs at hpr
    obtain rfl := Option.some.inj hpr
    rfl
  · rintro rfl
    exact ⟨1, _, if_pos rfl, rfl⟩

/-- One writable page in an otherwise empty page map. -/
lemma lone_good {pf : Platform} {m m' : Memory} {r va : ℕ} {info : PageInfo} {new : List (List ℕ × ℕ)}
    (hspaces : Spaces pf {r} m') (hs : Sets pf.toRam {r} r va (pageInfoToDesc info) m m' new)
    (hblank : ∀ va, leaf pf.toRam m r va = 0#64) (hva : validVAddr va = true) (ha : va % 4096 = 0)
    (hphys : info.physPage &&& mAddress = info.physPage) (hwr : info.writable = true) :
    (lone m' r).Good pf ∧ OnlyPage pf (lone m' r) 1 va info := by
  have hpage : ∀ {va' info'}, userPage pf.toRam m' r va' = some info' → SamePage va' va ∧ info' = info := by
    intro va' info' hp
    by_cases hsame : SamePage va' va
    · refine ⟨hsame, ?_⟩
      rw [userPage, if_pos (userPage_valid hp), hsame.leaf_eq, hs.leaf_self, descToPageInfo_pageInfoToDesc hphys] at hp
      exact (Option.some.inj hp).symm
    · rw [userPage_congr (hs.leaf_other rfl fun h => hsame h.2), userPage, hblank] at hp
      simp at hp
  refine ⟨⟨lone_roots m' r ▸ hspaces, ?_, ?_, ?_, ?_⟩, ?_, ?_⟩
  · intro p pr hp
    simp only [lone] at hp ⊢
    split_ifs at hp
    omega
  · intro p q pr pr' hp hq _
    simp only [lone] at hp hq
    split_ifs at hp hq
    omega
  · intro p pr hp
    simp only [lone] at hp
    split_ifs at hp
    obtain rfl := Option.some.inj hp
    simp
  · intro r' hr' va' info' hp hro
    rw [lone_roots, Set.mem_singleton_iff] at hr'
    subst hr'
    rw [(hpage hp).2, hwr] at hro
    cases hro
  · simp only [World.page, lone, if_true, Option.bind_some]
    rw [userPage, if_pos hva, hs.leaf_self, descToPageInfo_pageInfoToDesc hphys]
  · intro va' ha' hne
    simp only [World.page, lone, if_true, Option.bind_some] at hne
    obtain ⟨info', hinfo'⟩ := Option.ne_none_iff_exists'.mp hne
    have := (samePage_iff (userPage_valid hinfo') hva).mp (hpage hinfo').1
    omega

/-- A process with a single page can be forked, again and again. -/
lemma fork_only {pf : Platform} {w : World} {pr : Process} {pid va : ℕ} {info : PageInfo} (hw : w.Good pf)
    (hpr : w.procs pid = some pr) (hdemand : pr.demand = []) (hroom : 6 ≤ w.vm.pool.length) (ha : va % 4096 = 0)
    (hlt : va < stackTop) (h : OnlyPage pf w pid va info) :
    ∃ w', forkStep pf w (.fork pid) = some w' ∧ w.vm.pool.length ≤ w'.vm.pool.length + 6 ∧ w'.procs pid = some pr ∧
      OnlyPage pf w' pid va (sharedInfo info) := by
  have hpage : ∀ va', w.page pf pid va' = userPage pf.toRam w.vm pr.pdir va' := fun va' => by rw [World.page, hpr]; rfl
  have hlen : (scan pf.toRam w.vm pr.pdir (max pr.brk stackTop)).length ≤ 1 := by
    have hall : ∀ p ∈ scan pf.toRam w.vm pr.pdir (max pr.brk stackTop), p.1 = va := by
      intro p hp
      obtain ⟨hp1, -, hp2⟩ := mem_scan.mp hp
      exact h.2 p.1 hp1 (by rw [hpage, hp2]; simp)
    have hsorted := scan_pairwise pf.toRam w.vm pr.pdir (max pr.brk stackTop)
    rcases hl : scan pf.toRam w.vm pr.pdir (max pr.brk stackTop) with _ | ⟨p, _ | ⟨q, l⟩⟩
    · simp
    · simp
    · rw [hl] at hsorted hall
      have := (List.pairwise_cons.mp hsorted).1 q (by simp)
      rw [hall p (by simp), hall q (by simp)] at this
      omega
  obtain ⟨w', hfork, hpool⟩ := forkProc_succeeds hw hpr hdemand rfl (by omega) (by omega)
  obtain ⟨parent, child, s₁, new, hpr', hf⟩ := forkProc_cases hw hfork
  obtain rfl := Option.some.inj (hpr.symm.trans hpr')
  have hroot := World.mem_roots hpr
  have hnext : pid ≠ w.pidNext := (hw.pids pid pr hpr).ne
  have hprocs : w'.procs pid = some pr := by rw [hf.procs, Function.update_of_ne hnext, hpr]
  have hpage' : ∀ va', w'.page pf pid va' = userPage pf.toRam w'.vm pr.pdir va' := by
    intro va'
    rw [World.page, hprocs]
    rfl
  refine ⟨w', hfork, by omega, hprocs, ?_, ?_⟩
  · rw [hpage']
    exact (hf.page_shared hroot ha (lt_max_of_lt_right hlt) ((hpage va).symm.trans h.1)).1
  · intro va' ha' hne
    rw [hpage'] at hne
    apply h.2 va' ha'
    rw [hpage]
    intro hnone
    apply hne
    rw [userPage_congr (hf.shared.rest (Set.mem_insert_of_mem _ hroot) ?_), userPage_congr (hf.leaves hroot), hnone]
    intro p hp hsame
    obtain ⟨hp1, -, hp2⟩ := (hf.scanned hroot).mp (List.mem_reverse.mp hp)
    obtain ⟨info', hinfo'⟩ := Option.ne_none_iff_exists'.mp hne
    have := (samePage_iff (userPage_valid hinfo') (userPage_valid hp2)).mp hsame
    rw [show va' = p.1 by omega, hp2] at hnone
    cases hnone

/-- The first address space, with one writable page. -/
def sampleOne : Memory :=
  let m := (allocPageMap samplePlatform sampleBoot).2
  (setPage { m with pool := m.pool.take 24 } 0x50000000 0x1000000 (some ⟨0x5001E000#64, true, false, false, false⟩)).2

/-- The first creation, with part of the pool set aside. -/
lemma creates_first {pf : Platform} {m₀ m₁ : Memory} {r : ℕ} (h : Creates pf ∅ m₀ m₁ r) (n : ℕ) :
    Spaces pf {r} { m₁ with pool := m₁.pool.take n } ∧
    (∀ va, leaf pf.toRam { m₁ with pool := m₁.pool.take n } r va = 0#64) ∧
    ∀ r' js q, TableAt pf.toRam { m₁ with pool := m₁.pool.take n } {r} r' js q → q ∉ m₁.pool := by
  have hspaces := h.spaces
  rw [insert_empty_eq] at hspaces
  exact ⟨hspaces.take (List.take_sublist _ _), h.blank, fun r' js q hq => hspaces.forest.apart hq⟩

lemma sampleOne_good : (lone sampleOne 0x50000000).Good samplePlatform ∧
    OnlyPage samplePlatform (lone sampleOne 0x50000000) 1 0x1000000 ⟨0x5001E000#64, true, false, false, false⟩ := by
  have h1 := @Spaces.allocPageMap _ _ _ 0x50000000 sampleBoot_spaces (by decide +kernel)
  have hin : 0x5001E000 ∈ (allocPageMap samplePlatform sampleBoot).2.pool := by decide +kernel
  obtain ⟨hspaces, hblank, htab⟩ := creates_first h1 24
  obtain ⟨⟨new, hs, -⟩, hspaces'⟩ := @Spaces.setPage _ _ _ _ _ hspaces (Set.mem_singleton _)
    (show validVAddr 0x1000000 = true by decide) (by decide +kernel) (by decide +kernel)
    ⟨0x5001E000#64, true, false, false, false⟩ (by decide) (by decide +kernel)
    (fun r js q hq heq => htab r js q hq (heq ▸ hin))
  exact lone_good hspaces' hs hblank (by decide) (by decide) (by decide) rfl

/-- The process forks and then writes its page. -/
theorem forks_keep_stores_once : ∃ t u, forkStep samplePlatform (lone sampleOne 0x50000000) (.fork 1) = some t ∧
    run (forkStep samplePlatform) t [.store 1 0x1000010 true] = some u ∧ Storable samplePlatform t 2 0x1000000 ∧
    ∃ pr info, u.procs 2 = some pr ∧ userPage samplePlatform.toRam u.vm pr.pdir 0x1000000 = some info ∧
      (info.writable = true ∨ ∀ a, 0x1000000 = a - a % 4096 → houseIsCowPage u.vm pr.pdir a = true ∧
        ∀ allowed, (u.breakCow 2 a allowed).1 = .ok ∨ (u.breakCow 2 a allowed).1 = .noMem) := by
  obtain ⟨hgood, honly⟩ := sampleOne_good
  have hroom : 6 ≤ (lone sampleOne 0x50000000).vm.pool.length := by decide +kernel
  obtain ⟨t, hfork, -, hprocs, hpage, -⟩ := fork_only hgood (lone_procs _ _) rfl hroom (by decide)
    (by decide) honly
  -- the page is now read-only, so the store faults
  have hgood' : t.Good samplePlatform := hgood.step hfork
  obtain ⟨pr, info, hpr, hinfo, hres⟩ := Storable.resolved hgood' ⟨_, hpage, Or.inr rfl⟩
  rw [World.page, hpr] at hpage
  obtain rfl := Option.some.inj (hinfo.symm.trans hpage)
  obtain ⟨hcow, -⟩ := (hres.resolve_left (by simp [sharedInfo])) 0x1000010 (by decide)
  have hstore : run (forkStep samplePlatform) t [.store 1 0x1000010 true] = some (t.breakCow 1 0x1000010 true).2 := by
    simp only [run, forkStep, hpr, hcow, if_true, Option.bind_some]
  have hsafe : Along (forkStep samplePlatform) (ForkSafe samplePlatform) (lone sampleOne 0x50000000)
      ([] ++ .fork 1 :: [.store 1 0x1000010 true]) := by
    refine ⟨?_, fun t _ => ⟨trivial, fun _ _ => trivial⟩⟩
    intro pr va info hp ha hpg _
    obtain rfl := Option.some.inj hp
    have hva := honly.2 va ha (by rw [World.page, hp, Option.bind_some, hpg]; simp)
    subst hva
    have hown := honly.1
    rw [World.page, hp, Option.bind_some, hpg] at hown
    obtain rfl := Option.some.inj hown
    exact ⟨rfl, by decide⟩
  have hmain := @forks_keep_stores samplePlatform _ t _ _ [] _ 1 0x1000000 hgood rfl hfork hstore hsafe (by decide)
    ⟨_, honly.1, Or.inl rfl⟩
  exact ⟨t, _, hfork, hstore, hmain.1.2, hmain.2 2 (Or.inr rfl)⟩

/-- Forked twice without a write in between, the page is read-only for good. -/
theorem fork_again_loses_store : ∃ t u, forkStep samplePlatform (lone sampleOne 0x50000000) (.fork 1) = some t ∧
    forkStep samplePlatform t (.fork 1) = some u ∧ Storable samplePlatform t 1 0x1000000 ∧
    ¬ Storable samplePlatform u 1 0x1000000 ∧ ∀ allowed, (u.breakCow 1 0x1000000 allowed).1 = .notCow := by
  obtain ⟨hgood, honly⟩ := sampleOne_good
  have hroom : 12 ≤ (lone sampleOne 0x50000000).vm.pool.length := by decide +kernel
  obtain ⟨t, hfork, hpool, hprocs, hpage⟩ := fork_only hgood (lone_procs _ _) rfl (by omega) (by decide)
    (by decide) honly
  have hgood' : t.Good samplePlatform := hgood.step hfork
  obtain ⟨u, hfork', -, hprocs', hpage', -⟩ := fork_only hgood' hprocs rfl (by omega) (by decide) (by decide) hpage
  have hgood'' : u.Good samplePlatform := hgood'.step hfork'
  refine ⟨t, u, hfork, hfork', ⟨_, hpage.1, Or.inr rfl⟩, ?_, fun allowed => ?_⟩
  · rintro ⟨info, hinfo, hbits⟩
    obtain rfl := Option.some.inj (hinfo.symm.trans hpage')
    simp [sharedInfo] at hbits
  · rw [World.page, hprocs', Option.bind_some] at hpage'
    obtain ⟨l3, hwalk, -⟩ := userPage_table hpage'
    simp [World.breakCow, hprocs', getPage_of_walk hwalk, hpage', sharedInfo]

end Sample

end HouseKernel.Userspace
