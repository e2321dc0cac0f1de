import HouseKernel.El0.SlotTable
import HouseKernel.Lib.Run

/-! Roots and their EL0 slots while processes are built, published and reaped by different
threads. Pages are recycled: a freed root goes back to the pool and may become the root of
another process at once. A reaper frees the root and unregisters it in two steps, so other
threads may act in between. -/
namespace HouseKernel.El0

open HouseKernel.Lib

/-- How far the builder of a process has come with its root. -/
inductive Phase where
  | allocated
  | registered
  | retracted
  deriving DecidableEq, Repr

/-- What a page of the pool is used for; a page has one use at a time. -/
inductive PageUse where
  | free
  | other
  | building (phase : Phase)
  | process (pid : ℕ)
  | reaping
  | retained
  deriving DecidableEq, Repr

/-- The uses for which the root has to have a slot. -/
def PageUse.slotted : PageUse → Bool
  | .building .registered => true
  | .process _ => true
  | _ => false

structure Roots where
  table : El0Table
  use : ℕ → PageUse
  procMap : ℕ → Option ℕ
  pidNext : ℕ
  /-- The roots that a reaper has freed and not yet unregistered. -/
  freed : List ℕ

def Roots.setUse (s : Roots) (r : ℕ) (u : PageUse) : Roots := { s with use := Function.update s.use r u }

/-- What `freePDir` makes of a root: a root that is live on another core stays where it is. -/
def freePDirUse (live : Bool) : PageUse := if live then .retained else .free

inductive RootAction where
  | takePage (r : ℕ)
  | givePage (r : ℕ)
  | allocPageMap (r : ℕ)
  | register (r : ℕ) (live : Bool)
  | publish (r : ℕ)
  | unpublish (pid : ℕ)
  | retract (r : ℕ)
  | abandon (r : ℕ) (live : Bool)
  | park (cur : ℕ) (frame : Frame) (elr spEl0 : Word) (req : ℕ) (far : El0Slot → Word)
  | setExit (cur : ℕ) (code : ℤ)
  | resume (key : ℕ) (res : Word)
  | reap (pid : ℕ)
  | reapRetain (r : ℕ)
  | reapFree (r : ℕ) (live : Bool)
  | reapUnregister (r : ℕ)

/-- One step of a builder (`runPreparedBound`, `forkChildEl0`), a reaper (`waitPid`, `killPid`),
a session, or another user of the page pool. -/
def rootStep (s : Roots) : RootAction → Option Roots
  | .takePage r => if s.use r = .free then some (s.setUse r .other) else none
  | .givePage r => if s.use r = .other then some (s.setUse r .free) else none
  | .allocPageMap r =>
    if r ≠ 0 ∧ s.use r = .free then some (s.setUse r (.building .allocated)) else none
  | .register r live =>
    if s.use r = .building .allocated then
      match houseEl0Register s.table r with
      | (0, t) => some ({ s with table := t }.setUse r (.building .registered))
      | (_, t) => some ({ s with table := t }.setUse r (freePDirUse live))
    else none
  | .publish r =>
    if s.use r = .building .registered then
      some ({ s with procMap := Function.update s.procMap s.pidNext (some r)
                     pidNext := s.pidNext+1 }.setUse r (.process s.pidNext))
    else none
  -- a fork whose slot cannot be cloned takes its child out of the map again
  | .unpublish pid => (s.procMap pid).map fun r =>
      { s with procMap := Function.update s.procMap pid none }.setUse r (.building .registered)
  | .retract r =>
    if s.use r = .building .registered then
      some ({ s with table := houseEl0Unregister s.table r }.setUse r (.building .retracted))
    else none
  | .abandon r live => match s.use r with
    | .building _ => some (s.setUse r (freePDirUse live))
    | _ => none
  | .park cur frame elr spEl0 req far =>
    some { s with table := (parkFrame s.table cur frame elr spEl0 req far).2 }
  | .setExit cur code => some { s with table := houseSetExit s.table cur code }
  | .resume key res => some { s with table := (houseResumeEl0 s.table key res).2.1 }
  | .reap pid => (s.procMap pid).map fun r =>
      { s with procMap := Function.update s.procMap pid none }.setUse r .reaping
  | .reapRetain r => if s.use r = .reaping then some (s.setUse r .retained) else none
  | .reapFree r live =>
    if s.use r = .reaping then some ({ s with freed := r :: s.freed }.setUse r (freePDirUse live)) else none
  | .reapUnregister r =>
    if r ∈ s.freed then
      some { s with table := houseEl0Unregister s.table r, freed := s.freed.erase r }
    else none

/-- Before the first process: an empty table, and every page in the pool or in use elsewhere. -/
structure Booted (s : Roots) : Prop where
  table : s.table = el0Boot
  use : ∀ r, s.use r = .free ∨ s.use r = .other
  procMap : ∀ pid, s.procMap pid = none
  freed : s.freed = []

/-- No root is registered again between a reaper's `freePDir` and its unregister. -/
def NoOvertake (s : Roots) : RootAction → Prop
  | .register r _ => r ∉ s.freed
  | _ => True

instance (s : Roots) : ∀ a, Decidable (NoOvertake s a)
  | .register r _ => inferInstanceAs (Decidable (r ∉ s.freed))
  | .takePage _ | .givePage _ | .allocPageMap _ | .publish _ | .unpublish _ | .retract _ | .abandon _ _
  | .park _ _ _ _ _ _ | .setExit _ _ | .resume _ _ | .reap _ | .reapRetain _ | .reapFree _ _ | .reapUnregister _ =>
    isTrue trivial

/-- What holds of the roots and their slots in every run without an overtaken reaper. -/
structure Sound (s : Roots) : Prop where
  one : ∀ r, r ≠ 0 → slotCount s.table r ≤ 1
  mapped : ∀ pid r, s.procMap pid = some r → s.use r = .process pid
  slot : ∀ r, (s.use r).slotted = true → slotCount s.table r = 1
  nonzero : ∀ ph, s.use 0 ≠ .building ph
  freed : ∀ r, r ∈ s.freed → (s.use r).slotted = false
  root : ∀ r, (s.use r).slotted = true → r ≠ 0

lemma Booted.sound {s : Roots} (h : Booted s) : Sound s where
  one r hr := by simp [h.table, hr]
  mapped pid r hr := by simp [h.procMap pid] at hr
  slot r hr := by
    obtain hu | hu := h.use r <;> simp [hu, PageUse.slotted] at hr
  nonzero ph := by
    obtain hu | hu := h.use 0 <;> simp [hu]
  freed r hr := by simp [h.freed] at hr
  root r hr := by
    obtain hu | hu := h.use r <;> simp [hu, PageUse.slotted] at hr

@[simp] theorem slotted_freePDirUse (live : Bool) : (freePDirUse live).slotted = false := by
  cases live <;> rfl

/-- Replacing the table by one with the same counts. -/
lemma Sound.table {s : Roots} (h : Sound s) {t : El0Table}
    (ht : ∀ r, r ≠ 0 → slotCount t r = slotCount s.table r) : Sound { s with table := t } where
  one r hr := (ht r hr).trans_le (h.one r hr)
  mapped := h.mapped
  slot r hr := (ht r (h.root r hr)).trans (h.slot r hr)
  nonzero := h.nonzero
  freed := h.freed
  root := h.root

/-- A step that changes the use of one page, and with it the slots of that page only. -/
lemma Sound.change {s : Roots} (h : Sound s) {r n : ℕ} {u : PageUse} {t : El0Table}
    {m : ℕ → Option ℕ} {fr : List ℕ}
    (ht : ∀ r', r' ≠ 0 → r' ≠ r → slotCount t r' = slotCount s.table r')
    (hone : r ≠ 0 → slotCount t r ≤ 1)
    (hu : u.slotted = true → slotCount t r = 1 ∧ r ≠ 0 ∧ r ∉ fr)
    (hz : r = 0 → ∀ ph, u ≠ .building ph)
    (hm : ∀ pid r', m pid = some r' → (r' = r ∧ u = .process pid) ∨ (r' ≠ r ∧ s.procMap pid = some r'))
    (hf : ∀ r', r' ∈ fr → r' ≠ r → r' ∈ s.freed) :
    Sound ⟨t, Function.update s.use r u, m, n, fr⟩ where
  one r' hr' := by
    by_cases heq : r' = r
    · exact heq ▸ hone (heq ▸ hr')
    · exact (ht r' hr' heq).trans_le (h.one r' hr')
  mapped pid r' hr' := by
    obtain ⟨rfl, rfl⟩ | ⟨hne, hold⟩ := hm pid r' hr'
    · simp
    · simpa [hne] using h.mapped pid r' hold
  slot r' hr' := by
    by_cases heq : r' = r
    · subst heq
      exact (hu (by simpa using hr')).1
    · have hold : (s.use r').slotted = true := by simpa [heq] using hr'
      exact (ht r' (h.root r' hold) heq).trans (h.slot r' hold)
  nonzero ph := by
    by_cases heq : 0 = r
    · simpa [← heq] using hz heq.symm ph
    · simpa [heq] using h.nonzero ph
  freed r' hr' := by
    by_cases heq : r' = r
    · subst heq
      simp only [Function.update_self]
      by_contra hne
      exact (hu (by simpa using hne)).2.2 hr'
    · simpa [heq] using h.freed r' (hf r' hr' heq)
  root r' hr' := by
    by_cases heq : r' = r
    · subst heq
      exact (hu (by simpa using hr')).2.1
    · exact h.root r' (by simpa [heq] using hr')

lemma Sound.not_mapped {s : Roots} (h : Sound s) {r : ℕ} (hu : ∀ pid, s.use r ≠ .process pid)
    (pid r' : ℕ) (hr' : s.procMap pid = some r') : r' ≠ r ∧ s.procMap pid = some r' :=
  ⟨fun heq => hu pid (heq ▸ h.mapped pid r' hr'), hr'⟩

/-- A page that is no root of a process gets a use without a slot. -/
lemma Sound.setUse {s : Roots} (h : Sound s) {r : ℕ} {u : PageUse} (hu : u.slotted = false)
    (hz : r = 0 → ∀ ph, u ≠ .building ph) (hp : ∀ pid, s.use r ≠ .process pid) :
    Sound (s.setUse r u) :=
  h.change (fun _ _ _ => rfl) (h.one r) (by simp [hu]) hz
    (fun pid r' hr' => Or.inr (h.not_mapped hp pid r' hr')) fun _ hr' _ => hr'

/-- The root of a mapped process gets a new use when its pid leaves the map. -/
lemma Sound.unmap {s : Roots} (h : Sound s) {pid r : ℕ} (u : PageUse) (hr : s.procMap pid = some r) :
    Sound ({ s with procMap := Function.update s.procMap pid none }.setUse r u) := by
  have huse := h.mapped pid r hr
  have hslot : (s.use r).slotted = true := by simp [huse, PageUse.slotted]
  refine h.change (fun _ _ _ => rfl) (h.one r) (fun _ => ⟨h.slot r hslot, h.root r hslot, ?_⟩)
    (fun hz => absurd hz (h.root r hslot)) (fun pid' r' hr' => Or.inr ?_) fun _ hr' _ => hr'
  · intro hfr
    simp [h.freed r hfr] at hslot
  · have hne : pid' ≠ pid := by
      rintro rfl
      simp at hr'
    have hold : s.procMap pid' = some r' := by simpa [hne] using hr'
    refine ⟨?_, hold⟩
    rintro rfl
    exact hne (PageUse.process.inj ((h.mapped pid' r' hold).symm.trans huse))

lemma freePDirUse_ne_building (live : Bool) (ph : Phase) : freePDirUse live ≠ .building ph := by
  cases live <;> simp [freePDirUse]

lemma Sound.register {s t : Roots} {r : ℕ} {live : Bool} (h : Sound s) (hno : r ∉ s.freed)
    (hs : rootStep s (.register r live) = some t) : Sound t := by
  simp only [rootStep] at hs
  split_ifs at hs with huse
  have hr0 : r ≠ 0 := fun hz => h.nonzero _ (hz ▸ huse)
  have hm := h.not_mapped (r := r) (by simp [huse])
  split at hs
  case h_1 t' hreg =>
    cases hs
    obtain ⟨hself, hothers⟩ := houseEl0Register_ok hreg
    have hcount : slotCount t' r = 1 := by
      have := h.one r hr0
      omega
    exact h.change hothers (fun _ => hcount.le) (fun _ => ⟨hcount, hr0, hno⟩)
      (fun hz => absurd hz hr0) (fun pid r' hr' => Or.inr (hm pid r' hr')) fun _ hr' _ => hr'
  case h_2 e t' hne hreg =>
    cases hs
    obtain rfl := houseEl0Register_error hne hreg
    exact h.setUse (by simp) (fun hz => absurd hz hr0) (by simp [huse])

theorem Sound.step {s t : Roots} {a : RootAction} (h : Sound s) (hno : NoOvertake s a)
    (hs : rootStep s a = some t) : Sound t := by
  cases a with
  | takePage r =>
    simp only [rootStep] at hs
    split_ifs at hs with huse
    cases hs
    exact h.setUse rfl (by simp) (by simp [huse])
  | givePage r =>
    simp only [rootStep] at hs
    split_ifs at hs with huse
    cases hs
    exact h.setUse rfl (by simp) (by simp [huse])
  | allocPageMap r =>
    simp only [rootStep] at hs
    split_ifs at hs with huse
    cases hs
    exact h.setUse rfl (fun hz => absurd hz huse.1) (by simp [huse.2])
  | register r live => exact h.register hno hs
  | publish r =>
    simp only [rootStep] at hs
    split_ifs at hs with huse
    cases hs
    have hslot : (s.use r).slotted = true := by simp [huse, PageUse.slotted]
    refine h.change (fun _ _ _ => rfl) (h.one r) (fun _ => ⟨h.slot r hslot, h.root r hslot, ?_⟩)
      (by simp) (fun pid r' hr' => ?_) fun _ hr' _ => hr'
    · intro hfr
      simp [h.freed r hfr] at hslot
    · by_cases hpid : pid = s.pidNext
      · obtain rfl : r = r' := by simpa [hpid] using hr'
        exact Or.inl ⟨rfl, by rw [hpid]⟩
      · exact Or.inr (h.not_mapped (by simp [huse]) pid r' (by simpa [hpid] using hr'))
  | unpublish pid =>
    obtain ⟨r, hr, rfl⟩ := Option.map_eq_some_iff.mp hs
    exact h.unmap _ hr
  | retract r =>
    simp only [rootStep] at hs
    split_ifs at hs with huse
    cases hs
    have hslot : (s.use r).slotted = true := by simp [huse, PageUse.slotted]
    exact h.change (fun _ h0 hne => slotCount_unregister_of_ne _ h0 hne)
      (fun h0 => (slotCount_unregister_le _ h0).trans (h.one r h0)) (by simp [PageUse.slotted])
      (fun hz => absurd hz (h.root r hslot))
      (fun pid r' hr' => Or.inr (h.not_mapped (by simp [huse]) pid r' hr')) fun _ hr' _ => hr'
  | abandon r live =>
    simp only [rootStep] at hs
    split at hs
    case h_1 ph huse =>
      cases hs
      exact h.setUse (by simp) (fun _ => freePDirUse_ne_building live) (by simp [huse])
    case h_2 => simp at hs
  | park cur frame elr spEl0 req far =>
    cases hs
    exact h.table fun r _ => slotCount_parkFrame _ _ _ _ _ _ _ r
  | setExit cur code =>
    cases hs
    exact h.table fun r _ => slotCount_setExit _ _ _ r
  | resume key res =>
    cases hs
    exact h.table fun r _ => slotCount_resume _ _ _ r
  | reap pid =>
    obtain ⟨r, hr, rfl⟩ := Option.map_eq_some_iff.mp hs
    exact h.unmap _ hr
  | reapRetain r =>
    simp only [rootStep] at hs
    split_ifs at hs with huse
    cases hs
    exact h.setUse rfl (by simp) (by simp [huse])
  | reapFree r live =>
    simp only [rootStep] at hs
    split_ifs at hs with huse
    cases hs
    exact h.change (fun _ _ _ => rfl) (h.one r) (by simp) (fun _ => freePDirUse_ne_building live)
      (fun pid r' hr' => Or.inr (h.not_mapped (by simp [huse]) pid r' hr'))
      fun r' hr' hne => (List.mem_cons.mp hr').resolve_left hne
  | reapUnregister r =>
    simp only [rootStep] at hs
    split_ifs at hs with hfr
    cases hs
    -- the freed root has no slotted use, so only a stale slot goes
    have hne : ∀ r', (s.use r').slotted = true → r' ≠ r := by
      rintro r' hr' rfl
      simp [h.freed r' hfr] at hr'
    exact
      { one := fun r' hr' => (slotCount_unregister_le _ hr').trans (h.one r' hr')
        mapped := h.mapped
        slot := fun r' hr' =>
          (slotCount_unregister_of_ne _ (h.root r' hr') (hne r' hr')).trans (h.slot r' hr')
        nonzero := h.nonzero
        freed := fun r' hr' => h.freed r' (List.mem_of_mem_erase hr')
        root := h.root }

/-- In every interleaving in which no root is registered between a reaper's free and its
unregister, every published process has exactly one slot for its root. -/
theorem process_has_one_slot {s₀ s : Roots} {as : List RootAction} (h₀ : Booted s₀)
    (hno : Along rootStep NoOvertake s₀ as) (hrun : run rootStep s₀ as = some s)
    {pid r : ℕ} (hpid : s.procMap pid = some r) : slotCount s.table r = 1 := by
  have h : Sound s := run_invariant (fun _ _ _ hI hG hs => hI.step hG hs) h₀.sound hno hrun
  exact h.slot r (by simp [h.mapped pid r hpid, PageUse.slotted])

/-- A machine with one free page, at this address. -/
def onePage (page : ℕ) : Roots :=
  ⟨el0Boot, fun r => if r = page then .free else .other, fun _ => none, 2, []⟩

lemma onePage_booted (page : ℕ) : Booted (onePage page) where
  table := rfl
  use r := by
    by_cases hr : r = page <;> simp [onePage, hr]
  procMap _ := rfl
  freed := rfl

/-- Process 2 is reaped while process 3 is built on the same page: 3 loses its slot. -/
theorem reaped_slot_of_new_process :
    ∃ s, run rootStep (onePage 0x50000000)
      [.allocPageMap 0x50000000, .register 0x50000000 false, .publish 0x50000000, .reap 2,
        .reapFree 0x50000000 false, .allocPageMap 0x50000000, .register 0x50000000 false,
        .publish 0x50000000, .reapUnregister 0x50000000] = some s ∧
      s.procMap 3 = some 0x50000000 ∧ slotCount s.table 0x50000000 = 0 := by
  have hobs : (run rootStep (onePage 0x50000000)
      [.allocPageMap 0x50000000, .register 0x50000000 false, .publish 0x50000000, .reap 2,
        .reapFree 0x50000000 false, .allocPageMap 0x50000000, .register 0x50000000 false,
        .publish 0x50000000, .reapUnregister 0x50000000]).map
      (fun s => (s.procMap 3, slotCount s.table 0x50000000)) = some (some 0x50000000, 0) := by
    rfl
  obtain ⟨s, hs, hs'⟩ := Option.map_eq_some_iff.mp hobs
  exact ⟨s, hs, congrArg Prod.fst hs', congrArg Prod.snd hs'⟩

/-- A process is reaped to the end, and the next one is built on the same page. -/
theorem process_has_one_slot_first :
    ∃ s, run rootStep (onePage 0x50000000)
      [.allocPageMap 0x50000000, .register 0x50000000 false, .publish 0x50000000, .reap 2, .reapFree 0x50000000 false,
        .reapUnregister 0x50000000, .allocPageMap 0x50000000, .register 0x50000000 false, .publish 0x50000000] = some s ∧
      s.procMap 2 = none ∧ s.procMap 3 = some 0x50000000 ∧ slotCount s.table 0x50000000 = 1 := by
  have hobs : (run rootStep (onePage 0x50000000)
      [.allocPageMap 0x50000000, .register 0x50000000 false, .publish 0x50000000, .reap 2, .reapFree 0x50000000 false,
        .reapUnregister 0x50000000, .allocPageMap 0x50000000, .register 0x50000000 false, .publish 0x50000000]).map
      (fun s => (s.procMap 2, s.procMap 3)) = some (none, some 0x50000000) := by rfl
  obtain ⟨s, hs, hs'⟩ := Option.map_eq_some_iff.mp hobs
  obtain ⟨hold, hnew⟩ := Prod.mk.inj hs'
  exact ⟨s, hs, hold, hnew, process_has_one_slot (onePage_booted _) (by decide) hs hnew⟩

end HouseKernel.El0
