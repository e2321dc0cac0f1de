import HouseKernel.Userspace.ForkBreak
import HouseKernel.Userspace.PageBudget

/-! `brk`: a process grows page by page, and each page is charged, allocated and mapped in turn. A refusal in the middle
keeps the pages that were mapped before it, and the charge of the page that it refuses. -/
namespace HouseKernel.Userspace

open HouseKernel.Lib HouseKernel.Loader HouseKernel.VirtualMemory

/-- The supervisor with the table of page budgets; `total` is the number of pages of the machine. -/
structure BrkWorld extends World where
  budget : List (ℕ × ℕ)
  total : ℕ

def growPages (pdir : ℕ) : List ℕ → BrkWorld → Except LoadError Unit × BrkWorld
  | [], w => (.ok (), w)
  | va :: rest, w => match getPage w.vm pdir va with
    | some _ => (.error (.badSegment "occupied brk page"), w)
    | none =>
      let (allowed, budget) := pageBudgetTryAcquire w.total w.budget pdir 1
      if allowed ≠ 1 then (.error .noSpace, { w with budget := budget })
      else match allocPage w.vm with
        | (none, vm) => (.error .noSpace, { w with budget := budget, vm := vm })
        | (some pg, vm) => match setPage (zeroPage pg vm) pdir va (some ⟨BitVec.ofNat 64 pg, true, false, false, false⟩) with
          | (false, vm) => (.error .noSpace, { w with budget := budget, vm := freePage pg vm })
          | (true, vm) => growPages pdir rest { w with budget := budget, vm := vm }

/-- The pages between two breaks. -/
def brkPages (oldBrk newBrk : ℕ) : List ℕ :=
  let lo := (oldBrk + 4095) / 4096 * 4096
  let hi := (newBrk + 4095) / 4096 * 4096
  (List.range ((hi - lo) / 4096)).map fun i => lo + 4096 * i

def BrkWorld.procBrkGrow (w : BrkWorld) (pid newBrk : ℕ) : Except LoadError ℕ × BrkWorld :=
  match w.procs pid with
  | none => (.error (.badSegment "no such pid"), w)
  | some pr =>
    if newBrk ≤ pr.brk then (.ok pr.brk, w)
    else if newBrk > VirtualMemory.maxVAddr ∨ pr.brk < minVAddr then (.error (.outOfWindow newBrk), w)
    else match growPages pr.pdir (brkPages pr.brk newBrk) w with
      | (.error e, w) => (.error e, w)
      | (.ok (), w) => (.ok newBrk, { w with procs := Function.update w.procs pid (some { pr with brk := newBrk }) })

/-- The pages and markers of every process, the charges, the free pages and the processes are as they were. -/
structure AsBefore (pf : Platform) (roots : Set ℕ) (w w' : BrkWorld) : Prop where
  pages : ∀ r ∈ roots, ∀ va, userPage pf.toRam w'.vm r va = userPage pf.toRam w.vm r va
  markers : ∀ r ∈ roots, ∀ va, userMarker pf.toRam w'.vm r va = userMarker pf.toRam w.vm r va
  charges : ∀ r, budgetCount w'.budget r = budgetCount w.budget r
  free : w'.vm.pool.Perm w.vm.pool
  procs : w'.procs = w.procs

/-- A smaller request that would have been granted is granted now. -/
def StillGrants (w w' : BrkWorld) (pid newBrk : ℕ) : Prop :=
  ∀ smaller ≤ newBrk, ∀ b, (w.procBrkGrow pid smaller).1 = .ok b → (w'.procBrkGrow pid smaller).1 = .ok b

/-- The first page cannot be had: it is there already, the budget refuses it, or the budget has no place to count it and
the allocator has no page for it, or none for its tables. -/
def FirstRefused (w : BrkWorld) (pdir va : ℕ) : Prop :=
  getPage w.vm pdir va ≠ none ∨ ¬ Allows w.total w.budget pdir 1 ∨
    ¬ HasPlace w.budget pdir ∧ (w.vm.pool = [] ∨ ∃ pg, w.vm.pool = [pg] ∧ l3Table (zeroPage pg w.vm) pdir va = none)

/-- The request is refused before anything is done about it. -/
def RefusedOutright (w : BrkWorld) (pid newBrk : ℕ) : Prop :=
  ∀ pr, w.procs pid = some pr → newBrk ≤ VirtualMemory.maxVAddr → minVAddr ≤ pr.brk →
    FirstRefused w pr.pdir ((pr.brk + 4095) / 4096 * 4096)

section Tables

variable {m m' : Memory} {l0 va t i : ℕ} {is : List ℕ}

theorem ensureTable_pool : (ensureTable m t i).2.pool.length ≤ m.pool.length ∧
    ((ensureTable m t i).1 = none → (ensureTable m t i).2.pool = []) := by
  unfold ensureTable allocPage
  cases tableFromDesc (m.peek t i) with
  | some c => exact ⟨le_rfl, fun h => by cases h⟩
  | none =>
    cases hpool : m.pool with
    | nil => exact ⟨(congrArg List.length hpool).le, fun _ => hpool⟩
    | cons c rest => exact ⟨Nat.le_succ _, fun h => by cases h⟩

theorem ensureTable_empty (h : m.pool = []) : ensureTable m t i = (tableFromDesc (m.peek t i), m) := by
  unfold ensureTable allocPage
  cases tableFromDesc (m.peek t i) with
  | some c => rfl
  | none => rw [h]

/-- A walk takes pages from the pool, and all of them before it fails. -/
theorem ensurePath_pool : (ensurePath m t is).2.pool.length ≤ m.pool.length ∧
    ((ensurePath m t is).1 = none → (ensurePath m t is).2.pool = []) := by
  induction is generalizing m t with
  | nil => exact ⟨le_rfl, fun h => by cases h⟩
  | cons i is ih =>
    obtain ⟨hlen, hnone⟩ := ensureTable_pool (m := m) (t := t) (i := i)
    rw [ensurePath]
    rcases hrun : ensureTable m t i with ⟨_ | c, m₁⟩ <;> rw [hrun] at hlen hnone
    · exact ⟨hlen, fun _ => hnone rfl⟩
    · exact ⟨ih.1.trans hlen, ih.2⟩

theorem ensurePath_empty (h : m.pool = []) : ensurePath m t is = (walk tableFromDesc m.mem t is, m) := by
  induction is generalizing t with
  | nil => rfl
  | cons i is ih =>
    rw [ensurePath, ensureTable_empty h, walk]
    cases hslot : tableFromDesc (m.peek t i) with
    | none =>
      rw [Memory.peek] at hslot
      rw [hslot]
      rfl
    | some c =>
      rw [Memory.peek] at hslot
      rw [hslot]
      exact ih

/-- Mapping a page takes pages from the pool, and all of them before it fails. -/
theorem setPage_pool (hva : validVAddr va = true) (info : PageInfo) :
    (setPage m l0 va (some info)).2.pool.length ≤ m.pool.length ∧
      ((setPage m l0 va (some info)).1 = false → (setPage m l0 va (some info)).2.pool = []) := by
  obtain ⟨hlen, hnone⟩ := @ensurePath_pool m l0 (path va)
  rw [setPage, ensureL3_eq hva]
  rcases hrun : ensurePath m l0 (path va) with ⟨_ | l3, m₁⟩ <;> rw [hrun] at hlen hnone
  · exact ⟨hlen, fun _ => hnone rfl⟩
  · exact ⟨hlen, fun h => by cases h⟩

/-- With an empty pool a page is mapped where its table is, and nothing changes where it is not. -/
theorem setPage_empty (hva : validVAddr va = true) (h : m.pool = []) (info : PageInfo) :
    ((setPage m l0 va (some info)).1 = false ↔ l3Table m l0 va = none) ∧
      ((setPage m l0 va (some info)).1 = false → (setPage m l0 va (some info)).2 = m) := by
  rw [setPage, ensureL3_eq hva, ensurePath_empty h, l3Table_eq_walk]
  cases walk tableFromDesc m.mem l0 (path va) with
  | none => exact ⟨iff_of_true rfl rfl, fun _ => rfl⟩
  | some l3 => exact ⟨iff_of_false (by simp) (by simp), fun h => by cases h⟩

end Tables

section Charge

variable {total pdir : ℕ} {tab : List (ℕ × ℕ)}

theorem acquire_denied (h : ¬ Allows total tab pdir 1) : (pageBudgetTryAcquire total tab pdir 1).2 = tab := by
  unfold Allows pageBudgetTryAcquire at *
  by_cases hzero : pdir = 0
  · rw [if_pos hzero]
  · rw [if_neg hzero] at h ⊢
    cases hcount : checkedCount (budgetCount tab pdir) 1 with
    | none => rfl
    | some next =>
      simp only [hcount] at h ⊢
      by_cases hcap : next ≤ budgetCap total
      · rw [if_pos hcap] at h
        exact absurd rfl h
      · rw [if_neg hcap]

theorem acquire_granted (h : Allows total tab pdir 1) :
    (pageBudgetTryAcquire total tab pdir 1).2 = putEntry budgetTabCap tab pdir (budgetCount tab pdir + 1) := by
  unfold Allows pageBudgetTryAcquire checkedCount at *
  split_ifs at h ⊢
  · cases h
  · simp only at h ⊢
    split_ifs at h ⊢
    · rfl
    · cases h
  · cases h

/-- A granted page is counted exactly where the table has a place for its root. -/
theorem acquire_same_iff (h : Allows total tab pdir 1) :
    (∀ r, budgetCount (pageBudgetTryAcquire total tab pdir 1).2 r = budgetCount tab r) ↔ ¬ HasPlace tab pdir := by
  rw [acquire_granted h]
  constructor
  · intro hsame hplace
    have hself := hsame pdir
    rw [budgetCount, entryOf_putEntry_self hplace] at hself
    omega
  · intro hplace r
    obtain ⟨hnew, hfull⟩ := not_or.mp hplace
    rw [putEntry_of_full hnew (Nat.le_of_not_lt hfull)]

end Charge

section Growth

variable {w w' : BrkWorld} {pdir va : ℕ} {pages : List ℕ} {e : LoadError}

theorem growPages_pool (hpages : ∀ va ∈ pages, validVAddr va = true) :
    (growPages pdir pages w).2.vm.pool.length ≤ w.vm.pool.length := by
  induction pages generalizing w with
  | nil => exact le_rfl
  | cons va pages ih =>
    obtain ⟨hva, hpages⟩ := List.forall_mem_cons.mp hpages
    rw [growPages]
    cases getPage w.vm pdir va with
    | some info => exact le_rfl
    | none =>
      rcases pageBudgetTryAcquire w.total w.budget pdir 1 with ⟨allowed, budget⟩
      simp only
      split_ifs
      · exact le_rfl
      · cases hpool : w.vm.pool with
        | nil => simp [allocPage, hpool]
        | cons pg free =>
          have hset := @setPage_pool (zeroPage pg { w.vm with pool := free }) pdir _ hva
            ⟨BitVec.ofNat 64 pg, true, false, false, false⟩
          simp only [allocPage, hpool]
          rcases hrun : setPage (zeroPage pg { w.vm with pool := free }) pdir va
            (some ⟨BitVec.ofNat 64 pg, true, false, false, false⟩) with ⟨_ | _, vm⟩ <;> rw [hrun] at hset
          · exact Nat.succ_le_succ hset.1
          · exact ((ih hpages).trans hset.1).trans (Nat.le_succ _)

/-- What is left of a growth that is refused at its first page for one of the reasons of `FirstRefused`. -/
structure Untouched (w w' : BrkWorld) : Prop where
  charges : ∀ r, budgetCount w'.budget r = budgetCount w.budget r
  procs : w'.procs = w.procs
  vm : w'.vm = w.vm ∨ ∃ pg, w.vm.pool = [pg] ∧ w'.vm = freePage pg (zeroPage pg { w.vm with pool := [] })

/-- A growth that fails left nothing behind when its first page was refused in one of these ways; otherwise it kept a
charge or a page. -/
theorem growPages_error (hpages : ∀ a ∈ va :: pages, validVAddr a = true) (h : growPages pdir (va :: pages) w = (.error e, w')) :
    (FirstRefused w pdir va ∧ Untouched w w') ∨ (¬ FirstRefused w pdir va ∧
      ((∃ r, budgetCount w'.budget r ≠ budgetCount w.budget r) ∨ w'.vm.pool.length < w.vm.pool.length)) := by
  obtain ⟨hva, hrest⟩ := List.forall_mem_cons.mp hpages
  rw [growPages] at h
  cases hpage : getPage w.vm pdir va with
  | some info =>
    rw [hpage] at h
    obtain ⟨-, rfl⟩ := Prod.ext_iff.mp h
    exact .inl ⟨.inl (by simp [hpage]), fun _ => rfl, rfl, .inl rfl⟩
  | none =>
    rw [hpage] at h
    by_cases hallowed : Allows w.total w.budget pdir 1
    swap
    · have hdenied := acquire_denied hallowed
      simp only [Allows] at hallowed
      simp only [hallowed, ne_eq, not_false_eq_true, if_true, hdenied] at h
      obtain ⟨-, rfl⟩ := Prod.ext_iff.mp h
      exact .inl ⟨.inr (.inl hallowed), fun _ => rfl, rfl, .inl rfl⟩
    have hsame := acquire_same_iff hallowed
    have hgranted : (pageBudgetTryAcquire w.total w.budget pdir 1).1 = 1 := hallowed
    set budget := (pageBudgetTryAcquire w.total w.budget pdir 1).2
    simp only [hgranted, ne_eq, not_true_eq_false, if_false] at h
    -- The page is charged from here on.
    have hcharged : HasPlace w.budget pdir → ∃ r, budgetCount budget r ≠ budgetCount w.budget r := by
      intro hplace
      by_contra hall
      exact hsame.mp (fun r => not_not.mp (not_exists.mp hall r)) hplace
    cases hpool : w.vm.pool with
    | nil =>
      simp only [allocPage, hpool] at h
      obtain ⟨-, rfl⟩ := Prod.ext_iff.mp h
      by_cases hplace : HasPlace w.budget pdir
      · exact .inr ⟨by simp [FirstRefused, hpage, hallowed, hplace], .inl (hcharged hplace)⟩
      · exact .inl ⟨.inr (.inr ⟨hplace, .inl hpool⟩), hsame.mpr hplace, rfl, .inl rfl⟩
    | cons pg free =>
      have hset := @setPage_pool (zeroPage pg { w.vm with pool := free }) pdir _ hva
        ⟨BitVec.ofNat 64 pg, true, false, false, false⟩
      have hempty := @setPage_empty (zeroPage pg { w.vm with pool := [] }) pdir va hva rfl
        ⟨BitVec.ofNat 64 pg, true, false, false, false⟩
      simp only [allocPage, hpool] at h
      rcases hrun : setPage (zeroPage pg { w.vm with pool := free }) pdir va
        (some ⟨BitVec.ofNat 64 pg, true, false, false, false⟩) with ⟨_ | _, vm⟩ <;> rw [hrun] at h hset
      · obtain ⟨-, rfl⟩ := Prod.ext_iff.mp h
        have hused : vm.pool = [] := hset.2 rfl
        by_cases hplace : HasPlace w.budget pdir
        · exact .inr ⟨by simp [FirstRefused, hpage, hallowed, hplace], .inl (hcharged hplace)⟩
        · cases free with
          | nil =>
            rw [hrun] at hempty
            have hvm : vm = zeroPage pg { w.vm with pool := [] } := hempty.2 rfl
            exact .inl ⟨.inr (.inr ⟨hplace, .inr ⟨pg, hpool, hempty.1.mp rfl⟩⟩), hsame.mpr hplace, rfl,
              .inr ⟨pg, hpool, by rw [hvm]⟩⟩
          | cons p free =>
            refine .inr ⟨by simp [FirstRefused, hpage, hallowed, hpool], .inr ?_⟩
            simp [freePage, hused]
      · have hlength : w'.vm.pool.length ≤ vm.pool.length := by
          have hgrow : growPages pdir pages { w with budget := budget, vm := vm } = (.error e, w') := h
          have hgrown := @growPages_pool { w with budget := budget, vm := vm } pdir pages hrest
          rw [hgrow] at hgrown
          exact hgrown
        have hless : w'.vm.pool.length < (pg :: free).length := Nat.lt_succ_of_le (hlength.trans hset.1)
        refine .inr ⟨?_, .inr (hpool ▸ hless)⟩
        rintro (hoccupied | hdenied | ⟨-, hnil | ⟨pg', hone, hnone⟩⟩)
        · exact hoccupied hpage
        · exact hdenied hallowed
        · simp [hpool] at hnil
        · rw [hpool, List.cons.injEq] at hone
          obtain ⟨rfl, rfl⟩ := hone
          rw [hrun] at hempty
          exact absurd (hempty.1.mpr hnone) (by simp)

theorem growPages_refused (hva : validVAddr va = true) (h : FirstRefused w pdir va) :
    ∃ e w', growPages pdir (va :: pages) w = (.error e, w') := by
  rw [growPages]
  cases hpage : getPage w.vm pdir va with
  | some info => exact ⟨_, _, rfl⟩
  | none =>
    obtain hoccupied | hdenied | ⟨-, hnil | ⟨pg, hone, hnone⟩⟩ := h
    · exact absurd hpage hoccupied
    · simp only [Allows] at hdenied
      simp only [hdenied, ne_eq, not_false_eq_true, if_true]
      exact ⟨_, _, rfl⟩
    · simp only [allocPage, hnil]
      split_ifs
      · exact ⟨_, _, rfl⟩
      · exact ⟨_, _, rfl⟩
    · have hempty := @setPage_empty (zeroPage pg { w.vm with pool := [] }) pdir va hva rfl
        ⟨BitVec.ofNat 64 pg, true, false, false, false⟩
      simp only [allocPage, hone]
      rcases hrun : setPage (zeroPage pg { w.vm with pool := [] }) pdir va
        (some ⟨BitVec.ofNat 64 pg, true, false, false, false⟩) with ⟨_ | _, vm⟩
      · split_ifs
        · exact ⟨_, _, rfl⟩
        · exact ⟨_, _, rfl⟩
      · rw [hrun] at hempty
        exact absurd (hempty.1.mpr hnone) (by simp)

end Growth

section Main

variable {pf : Platform} {roots : Set ℕ} {w w' : BrkWorld} {pid newBrk : ℕ} {pr : Process} {e : LoadError}

/-- The pages of a growth that is not refused as a whole start at the old break, rounded up, and are addresses of a
process. -/
theorem brkPages_cons (hlow : minVAddr ≤ pr.brk) (hhigh : newBrk ≤ VirtualMemory.maxVAddr) :
    (brkPages pr.brk newBrk = [] ∨ ∃ rest, brkPages pr.brk newBrk = (pr.brk + 4095) / 4096 * 4096 :: rest) ∧
      ∀ va ∈ brkPages pr.brk newBrk, validVAddr va = true := by
  refine ⟨?_, fun va hva => ?_⟩
  · simp only [brkPages]
    generalize ((newBrk + 4095) / 4096 * 4096 - (pr.brk + 4095) / 4096 * 4096) / 4096 = n
    cases n with
    | zero => exact .inl rfl
    | succ n =>
      rw [List.range_succ_eq_map, List.map_cons, Nat.mul_zero, Nat.add_zero]
      exact .inr ⟨_, rfl⟩
  · obtain ⟨i, hi, rfl⟩ := List.mem_map.mp hva
    rw [List.mem_range] at hi
    rw [validVAddr_iff]
    simp only [minVAddr, VirtualMemory.maxVAddr] at hlow hhigh
    omega

/-- A free page that is zeroed is seen by nobody. -/
theorem Untouched.asBefore (h : Untouched w w') (hspaces : Spaces pf roots w.vm) : AsBefore pf roots w w' := by
  have hleaf : (∀ r ∈ roots, ∀ va, leaf pf.toRam w'.vm r va = leaf pf.toRam w.vm r va) ∧ w'.vm.pool = w.vm.pool := by
    obtain hvm | ⟨pg, hone, hvm⟩ := h.vm
    · rw [hvm]
      exact ⟨fun _ _ _ => rfl, rfl⟩
    · have hpool : w'.vm.pool = w.vm.pool := by
        rw [hvm, hone]
        rfl
      have hpg : pg ∈ w.vm.pool := by simp [hone]
      refine ⟨fun r hr va => (hspaces.write hpool fun hq hi => ?_).2.2 hr, hpool⟩
      have hout := outside_page (hspaces.forest.aligned hq) (hspaces.forest.freeAligned hpg) hi
        fun heq => hspaces.forest.apart hq (heq ▸ hpg)
      rw [hvm]
      exact if_neg (by omega)
  exact {
    pages := fun r hr va => userPage_congr (hleaf.1 r hr va)
    markers := fun r hr va => userMarker_congr (hleaf.1 r hr va)
    charges := h.charges
    free := .of_eq hleaf.2
    procs := h.procs }

/-- What a request sees of the supervisor when its first page is refused for one of these reasons. -/
theorem Untouched.stillGrants (h : Untouched w w') (hpr : w.procs pid = some pr)
    (hrefused : FirstRefused w pr.pdir ((pr.brk + 4095) / 4096 * 4096)) : StillGrants w w' pid newBrk := by
  intro smaller _ b hb
  have hpr' : w'.procs pid = some pr := h.procs ▸ hpr
  simp only [BrkWorld.procBrkGrow, hpr, hpr'] at hb ⊢
  split_ifs at hb ⊢ with hbelow hwindow
  · exact hb
  · simp only [not_or, not_lt] at hwindow
    obtain ⟨hnil | ⟨rest, hcons⟩, hvalid⟩ := brkPages_cons hwindow.2 hwindow.1
    · rw [hnil] at hb ⊢
      exact hb
    · rw [hcons] at hb hvalid
      obtain ⟨e, w₁, hrun⟩ := @growPages_refused _ _ _ rest (hvalid _ List.mem_cons_self) hrefused
      rw [hrun] at hb
      cases hb

/-- A request that is refused leaves everything as it was exactly when it is refused before anything is done for it. -/
theorem brk_refused_iff (hspaces : Spaces pf roots w.vm) (h : w.procBrkGrow pid newBrk = (.error e, w')) :
    (AsBefore pf roots w w' ∧ StillGrants w w' pid newBrk) ↔ RefusedOutright w pid newBrk := by
  cases hpr : w.procs pid with
  | none =>
    simp only [BrkWorld.procBrkGrow, hpr] at h
    obtain ⟨-, rfl⟩ := Prod.ext_iff.mp h
    exact iff_of_true ⟨⟨fun _ _ _ => rfl, fun _ _ _ => rfl, fun _ => rfl, .refl _, rfl⟩, fun _ _ _ hb => hb⟩
      fun pr hsome => by simp [hpr] at hsome
  | some pr =>
    have hkept : ∀ {w' : BrkWorld}, w' = w → AsBefore pf roots w w' ∧ StillGrants w w' pid newBrk := by
      rintro _ rfl
      exact ⟨⟨fun _ _ _ => rfl, fun _ _ _ => rfl, fun _ => rfl, .refl _, rfl⟩, fun _ _ _ hb => hb⟩
    have hrefused : RefusedOutright w pid newBrk ↔ (newBrk ≤ VirtualMemory.maxVAddr → minVAddr ≤ pr.brk →
        FirstRefused w pr.pdir ((pr.brk + 4095) / 4096 * 4096)) :=
      ⟨fun hall => hall pr hpr, fun hone pr' hpr' => by
        obtain rfl := Option.some.inj (hpr.symm.trans hpr')
        exact hone⟩
    simp only [BrkWorld.procBrkGrow, hpr] at h
    split_ifs at h with hbelow hwindow
    · cases (Prod.ext_iff.mp h).1
    · obtain ⟨-, rfl⟩ := Prod.ext_iff.mp h
      refine iff_of_true (hkept rfl) (hrefused.mpr fun hhigh hlow => ?_)
      omega
    · simp only [not_or, not_lt] at hwindow
      rw [hrefused]
      obtain ⟨hnil | ⟨rest, hcons⟩, hvalid⟩ := brkPages_cons hwindow.2 hwindow.1
      · rw [hnil] at h
        cases (Prod.ext_iff.mp h).1
      · rw [hcons] at h hvalid
        cases hrun : growPages pr.pdir ((pr.brk + 4095) / 4096 * 4096 :: rest) w with
        | mk res w₁ =>
          rw [hrun] at h
          cases res with
          | ok u => cases (Prod.ext_iff.mp h).1
          | error e' =>
            obtain ⟨-, rfl⟩ := Prod.ext_iff.mp h
            obtain ⟨hfirst, huntouched⟩ | ⟨hfirst, hchanged⟩ := growPages_error hvalid hrun
            · exact iff_of_true ⟨huntouched.asBefore hspaces, huntouched.stillGrants hpr hfirst⟩ fun _ _ => hfirst
            · refine iff_of_false ?_ fun hall => hfirst (hall hwindow.1 hwindow.2)
              rintro ⟨hbefore, -⟩
              obtain ⟨r, hr⟩ | hless := hchanged
              · exact hr (hbefore.charges r)
              · exact absurd hbefore.free.length_eq hless.ne

end Main

section Sample

/-- One process that has no pages yet, and these pages to give. -/
def brkSample (free : List ℕ) : BrkWorld where
  vm := { (allocPageMap samplePlatform sampleBoot).2 with pool := free }
  refs _ := none
  ttbr0 := 0
  procs := Function.update (fun _ => none) 1 (some ⟨0x50000000, 0x01000000, []⟩)
  pidNext := 2
  budget := []
  total := 100000

lemma brkSample_spaces {free : List ℕ} (h : free.Sublist (allocPageMap samplePlatform sampleBoot).2.pool) :
    Spaces samplePlatform {0x50000000} (brkSample free).vm := by
  have hroot : (allocPageMap samplePlatform sampleBoot).1 = some 0x50000000 := by decide +kernel
  have hspaces := (sampleBoot_spaces.allocPageMap hroot).spaces
  rw [insert_empty_eq] at hspaces
  exact hspaces.take h

/-- The same process, charged with every page that the budget allows it. -/
def brkSpent (free : List ℕ) : BrkWorld := { brkSample free with budget := [(0x50000000, budgetCap 100000)] }

/-- A request for two pages, which are free, but no longer within the budget. -/
def spentGrowth : Except LoadError ℕ × BrkWorld := (brkSpent [0x50003000, 0x50004000]).procBrkGrow 1 0x01002000

theorem brk_refused_iff_spent : spentGrowth.1 = .error .noSpace ∧
    AsBefore samplePlatform {0x50000000} (brkSpent [0x50003000, 0x50004000]) spentGrowth.2 ∧
    StillGrants (brkSpent [0x50003000, 0x50004000]) spentGrowth.2 1 0x01002000 := by
  have hspaces : Spaces samplePlatform {0x50000000} (brkSpent [0x50003000, 0x50004000]).vm :=
    brkSample_spaces (by decide +kernel)
  have herror : spentGrowth.1 = .error .noSpace := by decide +kernel
  have hrun : (brkSpent [0x50003000, 0x50004000]).procBrkGrow 1 0x01002000 = (.error .noSpace, spentGrowth.2) := by
    rw [← herror]
    exact (Prod.eta spentGrowth).symm
  have hdenied : (pageBudgetTryAcquire 100000 [(0x50000000, budgetCap 100000)] 0x50000000 1).1 = 0 := by
    rfl
  have hrefused : RefusedOutright (brkSpent [0x50003000, 0x50004000]) 1 0x01002000 := by
    intro pr hpr _ _
    obtain rfl : ⟨0x50000000, 0x01000000, []⟩ = pr := Option.some.inj hpr
    refine .inr (.inl fun hallowed => ?_)
    have hgranted : (pageBudgetTryAcquire 100000 [(0x50000000, budgetCap 100000)] 0x50000000 1).1 = 1 := hallowed
    rw [hdenied] at hgranted
    cases hgranted
  exact ⟨herror, (brk_refused_iff hspaces hrun).mpr hrefused⟩

/-- A request for two pages with room for one and its table. -/
def shortGrowth : Except LoadError ℕ × BrkWorld := (brkSample [0x50003000, 0x50004000]).procBrkGrow 1 0x01002000

/-- It is refused and leaves the first page mapped and both charged; the request for one page, which would have been
granted, then finds that page in its way. -/
theorem brk_refused_keeps_page : shortGrowth.1 = .error .noSpace ∧
    getPage (brkSample [0x50003000, 0x50004000]).vm 0x50000000 0x01000000 = none ∧
    (getPage shortGrowth.2.vm 0x50000000 0x01000000).isSome ∧ budgetCount shortGrowth.2.budget 0x50000000 = 2 ∧
    shortGrowth.2.vm.pool = [] ∧
    ((brkSample [0x50003000, 0x50004000]).procBrkGrow 1 0x01001000).1 = .ok 0x01001000 ∧
    (shortGrowth.2.procBrkGrow 1 0x01001000).1 = .error (.badSegment "occupied brk page") := by
  decide +kernel

end Sample

end HouseKernel.Userspace
