import Mathlib.Tactic
import HouseKernel.Lib.Keyed
import HouseKernel.Lib.Run

/-! The page budget of a process. Pages are charged to a page-table root, on one side by the brk and
copy-on-write paths, which ask first, and on the other by the demand pager, which looks at the count
before it maps a page and counts the page afterwards. -/
namespace HouseKernel.Userspace

open HouseKernel.Lib

def budgetTabCap : ℕ := 64

/-- A tenth of the pages of the machine, `buddy_total_count`, but not less than 1024. -/
def budgetCap (total : ℕ) : ℕ := max (min total (2^31 - 1) / 10) 1024

def budgetCount (tab : List (ℕ × ℕ)) (pdir : ℕ) : ℕ := entryOf 0 tab pdir

def budgetInc (tab : List (ℕ × ℕ)) (pdir : ℕ) : List (ℕ × ℕ) :=
  putEntry budgetTabCap tab pdir (min (budgetCount tab pdir + 1) (2^32 - 1))

def budgetOver (total : ℕ) (tab : List (ℕ × ℕ)) (pdir : ℕ) : Bool := budgetCap total ≤ budgetCount tab pdir

def pageBudgetReset (tab : List (ℕ × ℕ)) (pdir : ℕ) : List (ℕ × ℕ) :=
  if pdir = 0 then tab else putEntry budgetTabCap tab pdir 0

def budgetRemove (tab : List (ℕ × ℕ)) (pdir : ℕ) : List (ℕ × ℕ) := dropEntry tab pdir

def checkedCount (a b : ℕ) : Option ℕ := if a + b < 2^32 then some (a + b) else none

/-- 1 is granted and counted, 0 is denied, and a null root is an error. -/
def pageBudgetTryAcquire (total : ℕ) (tab : List (ℕ × ℕ)) (pdir n : ℕ) : ℤ × List (ℕ × ℕ) :=
  if pdir = 0 then (-22, tab)
  else match checkedCount (budgetCount tab pdir) n with
    | some next => if next ≤ budgetCap total then (1, putEntry budgetTabCap tab pdir next) else (0, tab)
    | none => (0, tab)

structure BudgetWorld where
  tab : List (ℕ × ℕ)
  /-- The root of the fault that is past its check; `VM_LOCK` admits one. -/
  fault : Option ℕ
  /-- The pages charged to a root since it was reset or registered. -/
  charged : ℕ → ℕ

inductive BudgetAction where
  | reset (pdir : ℕ)
  | acquire (pdir n : ℕ)
  | check (pdir : ℕ)
  | install
  | abandon
  | release (pdir : ℕ)
  deriving DecidableEq

def BudgetWorld.charge (w : BudgetWorld) (pdir n : ℕ) : ℕ → ℕ :=
  Function.update w.charged pdir (w.charged pdir + n)

/-- A new life of a root; a null root has none. -/
def BudgetWorld.forget (w : BudgetWorld) (pdir : ℕ) : ℕ → ℕ :=
  if pdir = 0 then w.charged else Function.update w.charged pdir 0

def budgetStep (total : ℕ) (w : BudgetWorld) : BudgetAction → Option BudgetWorld
  | .reset pdir =>
    some { w with tab := pageBudgetReset w.tab pdir, charged := w.forget pdir }
  | .acquire pdir n =>
    some { w with
      tab := (pageBudgetTryAcquire total w.tab pdir n).2
      charged := if (pageBudgetTryAcquire total w.tab pdir n).1 = 1 then w.charge pdir n else w.charged }
  | .check pdir =>
    if w.fault = none ∧ pdir ≠ 0 then
      some (if budgetOver total w.tab pdir then w else { w with fault := some pdir })
    else none
  | .install => w.fault.map fun pdir =>
    { w with tab := budgetInc w.tab pdir, fault := none, charged := w.charge pdir 1 }
  | .abandon => w.fault.map fun _ => { w with fault := none }
  | .release pdir =>
    some { w with tab := if pdir = 0 then w.tab else budgetRemove w.tab pdir, charged := w.forget pdir }

def budgetBoot : BudgetWorld := ⟨[], none, fun _ => 0⟩

/-- The root that a step charges. -/
def BudgetAction.chargedRoot (w : BudgetWorld) : BudgetAction → Option ℕ
  | .acquire pdir _ => some pdir
  | .install => w.fault
  | .reset _ | .check _ | .abandon | .release _ => none

def Allows (total : ℕ) (tab : List (ℕ × ℕ)) (pdir n : ℕ) : Prop := (pageBudgetTryAcquire total tab pdir n).1 = 1

/-- The table has, or can make, an entry for the root. -/
def HasPlace (tab : List (ℕ × ℕ)) (pdir : ℕ) : Prop := pdir ∈ keysOf tab ∨ tab.length < budgetTabCap

/-- A charge finds its root in the table or room for it, and a fault counts its page while the root
is still below the cap. -/
def BudgetCounted (total : ℕ) (w : BudgetWorld) : BudgetAction → Prop
  | .acquire pdir n => pdir ≠ 0 → 0 < n → budgetCount w.tab pdir + n ≤ budgetCap total → HasPlace w.tab pdir
  | .install => ∀ pdir ∈ w.fault, HasPlace w.tab pdir ∧ budgetCount w.tab pdir < budgetCap total
  | .reset _ | .check _ | .abandon | .release _ => True

/-- The table counts what is charged, and no more than the cap is. -/
structure BudgetWorld.Ok (total : ℕ) (w : BudgetWorld) : Prop where
  keys : (keysOf w.tab).Nodup
  counted : ∀ pdir, budgetCount w.tab pdir = w.charged pdir
  capped : ∀ pdir, w.charged pdir ≤ budgetCap total

theorem budgetCap_lt (total : ℕ) : budgetCap total < 2^32 - 1 := by
  simp only [budgetCap, Nat.max_lt]
  omega

theorem budgetBoot_ok (total : ℕ) : budgetBoot.Ok total where
  keys := List.nodup_nil
  counted := fun _ => rfl
  capped := fun _ => Nat.zero_le _

section Acquire

variable {total : ℕ} {tab : List (ℕ × ℕ)} {pdir pdir' n : ℕ}

theorem pageBudgetTryAcquire_granted (hz : pdir ≠ 0) (hle : budgetCount tab pdir + n ≤ budgetCap total) :
    pageBudgetTryAcquire total tab pdir n = (1, putEntry budgetTabCap tab pdir (budgetCount tab pdir + n)) := by
  have hcap := budgetCap_lt total
  have hlt : budgetCount tab pdir + n < 2^32 := by omega
  rw [pageBudgetTryAcquire, if_neg hz, checkedCount, if_pos hlt]
  exact if_pos hle

theorem pageBudgetTryAcquire_denied (h : ¬ (pdir ≠ 0 ∧ budgetCount tab pdir + n ≤ budgetCap total)) :
    (pageBudgetTryAcquire total tab pdir n).1 ≠ 1 ∧ (pageBudgetTryAcquire total tab pdir n).2 = tab := by
  unfold pageBudgetTryAcquire checkedCount
  by_cases hz : pdir = 0
  · simp [hz]
  · have hnot : ¬ budgetCount tab pdir + n ≤ budgetCap total := fun hle => h ⟨hz, hle⟩
    rw [if_neg hz]
    split_ifs <;> simp [hnot]

theorem allows_iff : Allows total tab pdir n ↔ pdir ≠ 0 ∧ budgetCount tab pdir + n ≤ budgetCap total := by
  constructor
  · intro hallows
    by_contra hnot
    exact (pageBudgetTryAcquire_denied hnot).1 hallows
  · rintro ⟨hz, hle⟩
    rw [Allows, pageBudgetTryAcquire_granted hz hle]

/-- A charge leaves the counts of the other roots alone. -/
theorem budgetCount_tryAcquire_of_ne (h : pdir' ≠ pdir) :
    budgetCount (pageBudgetTryAcquire total tab pdir n).2 pdir' = budgetCount tab pdir' := by
  by_cases hallows : pdir ≠ 0 ∧ budgetCount tab pdir + n ≤ budgetCap total
  · rw [pageBudgetTryAcquire_granted hallows.1 hallows.2]
    exact entryOf_putEntry_of_ne h
  · rw [(pageBudgetTryAcquire_denied hallows).2]

theorem budgetCount_inc_of_ne (h : pdir' ≠ pdir) : budgetCount (budgetInc tab pdir) pdir' = budgetCount tab pdir' :=
  entryOf_putEntry_of_ne h

theorem budgetCount_inc (hplace : HasPlace tab pdir) (hlt : budgetCount tab pdir < budgetCap total) :
    budgetCount (budgetInc tab pdir) pdir = budgetCount tab pdir + 1 := by
  have hcap := budgetCap_lt total
  have hmin : min (budgetCount tab pdir + 1) (2^32 - 1) = budgetCount tab pdir + 1 := by omega
  rw [budgetInc, hmin]
  exact entryOf_putEntry_self hplace

/-- An acquire of nothing counts nothing, and needs no entry. -/
theorem budgetCount_put_acquired (h : 0 < n → HasPlace tab pdir) :
    budgetCount (putEntry budgetTabCap tab pdir (budgetCount tab pdir + n)) pdir = budgetCount tab pdir + n := by
  by_cases hplace : HasPlace tab pdir
  · exact entryOf_putEntry_self hplace
  · have hn : n = 0 := Nat.eq_zero_of_not_pos fun hpos => hplace (h hpos)
    obtain ⟨hnew, hfull⟩ := not_or.mp hplace
    rw [putEntry_of_full hnew (Nat.not_lt.mp hfull), hn, Nat.add_zero]

/-- A reset that finds no place leaves a root uncounted, and so at zero. -/
theorem budgetCount_put_zero : budgetCount (putEntry budgetTabCap tab pdir 0) pdir = 0 := by
  by_cases hplace : HasPlace tab pdir
  · exact entryOf_putEntry_self hplace
  · obtain ⟨hnew, hfull⟩ := not_or.mp hplace
    rw [putEntry_of_full hnew (Nat.not_lt.mp hfull)]
    exact entryOf_of_notMem hnew

end Acquire

/-- A step of one root: the table counts what is charged to it, and the others are as they were. -/
theorem ok_of_root {total : ℕ} {w t : BudgetWorld} (hw : w.Ok total) {pdir : ℕ} (hkeys : (keysOf t.tab).Nodup)
    (hcount : ∀ r, r ≠ pdir → budgetCount t.tab r = budgetCount w.tab r)
    (hcharged : ∀ r, r ≠ pdir → t.charged r = w.charged r)
    (hown : budgetCount t.tab pdir = t.charged pdir) (hcap : t.charged pdir ≤ budgetCap total) : t.Ok total where
  keys := hkeys
  counted := by
    intro r
    by_cases hr : r = pdir
    · rw [hr, hown]
    · rw [hcount r hr, hcharged r hr, hw.counted r]
  capped := by
    intro r
    by_cases hr : r = pdir
    · rwa [hr]
    · rw [hcharged r hr]
      exact hw.capped r

theorem BudgetWorld.Ok.acquire {total : ℕ} {w : BudgetWorld} (hw : w.Ok total) (pdir n : ℕ)
    (hcounted : BudgetCounted total w (.acquire pdir n)) {t : BudgetWorld}
    (h : budgetStep total w (.acquire pdir n) = some t) : t.Ok total := by
  obtain rfl := Option.some.inj h
  by_cases hallows : pdir ≠ 0 ∧ budgetCount w.tab pdir + n ≤ budgetCap total
  · obtain ⟨hz, hle⟩ := hallows
    simp only [pageBudgetTryAcquire_granted hz hle, if_true]
    refine ok_of_root hw (nodup_putEntry hw.keys) (fun r hr => entryOf_putEntry_of_ne hr)
      (fun r hr => Function.update_of_ne hr _ _) ?_ ?_
    · simp only [BudgetWorld.charge, Function.update_self, ← hw.counted pdir]
      exact budgetCount_put_acquired fun hpos => hcounted hz hpos hle
    · simpa only [BudgetWorld.charge, Function.update_self, ← hw.counted pdir] using hle
  · obtain ⟨hnot, hsame⟩ := pageBudgetTryAcquire_denied hallows
    simp only [hsame, if_neg hnot]
    exact hw

theorem budgetStep_ok {total : ℕ} {w t : BudgetWorld} {a : BudgetAction} (hw : w.Ok total)
    (hcounted : BudgetCounted total w a) (h : budgetStep total w a = some t) : t.Ok total := by
  cases a with
  | acquire pdir n => exact hw.acquire pdir n hcounted h
  | reset pdir =>
    obtain rfl := Option.some.inj h
    unfold pageBudgetReset BudgetWorld.forget
    split_ifs
    · exact hw
    · refine ok_of_root hw (nodup_putEntry hw.keys) (fun r hr => entryOf_putEntry_of_ne hr)
        (fun r hr => Function.update_of_ne hr _ _) ?_ ?_
      · simp only [Function.update_self, budgetCount_put_zero]
      · simp only [Function.update_self, Nat.zero_le]
  | check pdir =>
    simp only [budgetStep] at h
    split_ifs at h
    · obtain rfl := Option.some.inj h
      exact hw
    · obtain rfl := Option.some.inj h
      exact ⟨hw.keys, hw.counted, hw.capped⟩
  | install =>
    obtain ⟨pdir, hfault, rfl⟩ := Option.map_eq_some_iff.mp h
    obtain ⟨hplace, hlt⟩ := hcounted pdir hfault
    refine ok_of_root hw (nodup_putEntry hw.keys) (fun r hr => budgetCount_inc_of_ne hr)
      (fun r hr => Function.update_of_ne hr _ _) ?_ ?_
    · simp only [BudgetWorld.charge, Function.update_self, budgetCount_inc hplace hlt, hw.counted pdir]
    · simp only [BudgetWorld.charge, Function.update_self, ← hw.counted pdir]
      exact hlt
  | abandon =>
    obtain ⟨pdir, -, rfl⟩ := Option.map_eq_some_iff.mp h
    exact ⟨hw.keys, hw.counted, hw.capped⟩
  | release pdir =>
    obtain rfl := Option.some.inj h
    unfold budgetRemove BudgetWorld.forget
    split_ifs
    · exact hw
    · refine ok_of_root hw (nodup_dropEntry hw.keys) (fun r hr => entryOf_dropEntry_of_ne hw.keys hr)
        (fun r hr => Function.update_of_ne hr _ _) ?_ ?_
      · simp only [Function.update_self]
        exact entryOf_dropEntry_self hw.keys
      · simp only [Function.update_self, Nat.zero_le]

/-- A charge changes no other root's count, whatever the table holds. -/
theorem budgetCount_charge {total : ℕ} {w t : BudgetWorld} {a : BudgetAction} {pdir r : ℕ}
    (hroot : a.chargedRoot w = some pdir) (h : budgetStep total w a = some t) (hr : r ≠ pdir) :
    budgetCount t.tab r = budgetCount w.tab r := by
  cases a with
  | acquire root n =>
    obtain rfl : root = pdir := Option.some.inj hroot
    obtain rfl := Option.some.inj h
    exact budgetCount_tryAcquire_of_ne hr
  | install =>
    obtain ⟨root, hfault, rfl⟩ := Option.map_eq_some_iff.mp h
    obtain rfl : root = pdir := Option.some.inj (hfault.symm.trans hroot)
    exact budgetCount_inc_of_ne hr
  | reset | check | abandon | release => cases hroot

/-- In a run in which every charge is counted, no root is charged more than the cap; and a charge to
one root leaves what another may still acquire, and fault in, as it was. -/
theorem budget_is_cap (total : ℕ) (as : List BudgetAction) (w : BudgetWorld)
    (hcounted : Along (budgetStep total) (BudgetCounted total) budgetBoot as)
    (h : run (budgetStep total) budgetBoot as = some w) :
    (∀ pdir, w.charged pdir ≤ budgetCap total) ∧
      ∀ a t pdir, a.chargedRoot w = some pdir → budgetStep total w a = some t → ∀ r, r ≠ pdir →
        (∀ n, Allows total t.tab r n ↔ Allows total w.tab r n) ∧
          budgetOver total t.tab r = budgetOver total w.tab r := by
  have hok : w.Ok total :=
    run_invariant (fun _ _ _ hw hc hstep => budgetStep_ok hw hc hstep) (budgetBoot_ok total) hcounted h
  refine ⟨hok.capped, fun a t pdir hroot hstep r hr => ?_⟩
  have hsame : budgetCount t.tab r = budgetCount w.tab r := budgetCount_charge hroot hstep hr
  constructor
  · intro n
    rw [allows_iff, allows_iff, hsame]
  · rw [budgetOver, budgetOver, hsame]

instance (tab : List (ℕ × ℕ)) (pdir : ℕ) : Decidable (HasPlace tab pdir) := inferInstanceAs (Decidable (_ ∨ _))

instance (total : ℕ) (w : BudgetWorld) : ∀ a, Decidable (BudgetCounted total w a)
  | .acquire pdir n => inferInstanceAs (Decidable (pdir ≠ 0 → 0 < n → _ ≤ _ → HasPlace _ _))
  | .install => inferInstanceAs (Decidable (∀ pdir ∈ w.fault, _ ∧ _))
  | .reset _ | .check _ | .abandon | .release _ => isTrue trivial

/-- Two roots share the table: one acquires and faults, the other is reset and released. -/
def twoRoots : List BudgetAction :=
  [.reset 0x1000, .acquire 0x1000 1000, .check 0x1000, .install, .reset 0x2000, .acquire 0x2000 1024,
    .acquire 0x2000 1, .check 0x2000, .release 0x2000, .acquire 0x1000 24]

theorem budget_is_cap_two : ∃ w, run (budgetStep 4096) budgetBoot twoRoots = some w ∧
    (∀ pdir, w.charged pdir ≤ budgetCap 4096) ∧
      ∀ a t pdir, a.chargedRoot w = some pdir → budgetStep 4096 w a = some t → ∀ r, r ≠ pdir →
        (∀ n, Allows 4096 t.tab r n ↔ Allows 4096 w.tab r n) ∧
          budgetOver 4096 t.tab r = budgetOver 4096 w.tab r := by
  obtain ⟨w, hw⟩ : ∃ w, run (budgetStep 4096) budgetBoot twoRoots = some w :=
    Option.isSome_iff_exists.mp (by rfl)
  exact ⟨w, hw, budget_is_cap 4096 twoRoots w (by decide) hw⟩

/-- The table is full of 64 live roots, and a 65th acquires a whole budget twice. -/
def crowdedTable : List BudgetAction :=
  (List.range 64).map (fun i => .reset (0x1000 * (i + 1))) ++
    [.reset 0x41000, .acquire 0x41000 1024, .acquire 0x41000 1024]

theorem budget_not_cap : ¬ ∀ (total : ℕ) (as : List BudgetAction) (w : BudgetWorld),
    run (budgetStep total) budgetBoot as = some w → ∀ pdir, w.charged pdir ≤ budgetCap total := by
  intro hclaim
  obtain ⟨w, hw, hcharged⟩ : ∃ w ∈ run (budgetStep 4096) budgetBoot crowdedTable, w.charged 0x41000 = 2048 := by
    decide +kernel
  have hle := hclaim 4096 crowdedTable w hw 0x41000
  rw [hcharged] at hle
  exact absurd hle (by decide)

end HouseKernel.Userspace
