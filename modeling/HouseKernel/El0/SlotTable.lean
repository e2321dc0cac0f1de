import HouseKernel.Lib.Table
import Mathlib.Tactic

/-! The table of EL0 sessions, keyed by the address of the root page table. A scan for a key
takes the first slot that matches, as the loops of the trap code do; key 0 marks a free
slot. -/
namespace HouseKernel.El0

open HouseKernel.Lib

abbrev Word := BitVec 64

/-- The 896-byte trap frame as 112 words: x0 to x30, one word for SP, q0 to q31, and padding. -/
abbrev Frame := Fin 112 → Word

-- Named, so that every numeral of a word of a frame uses the same proof.
instance neZero_frame : NeZero 112 := ⟨by decide⟩

structure El0Slot where
  pdir : ℕ
  save : Frame
  elr : Word
  spEl0 : Word
  req : ℕ
  parked : Bool
  exitCode : ℤ
  exited : Bool
  faultVa : Word

def el0Free : El0Slot := ⟨0, fun _ => 0, 0, 0, 0, false, 0, false, 0⟩

def el0N : ℕ := 64

abbrev El0Table := List El0Slot

def el0Boot : El0Table := List.replicate el0N el0Free

def reqFault : ℕ := 0x1F
def reqPreempt : ℕ := 0x1E
def reqFaultKill : ℕ := 0x1D

def El0Slot.rearm (s : El0Slot) : El0Slot :=
  { s with exitCode := 0, exited := false, parked := false, req := 0 }

def El0Slot.claim (key : ℕ) (s : El0Slot) : El0Slot :=
  { s with exitCode := 0, exited := false, parked := false, req := 0, elr := 0, spEl0 := 0, pdir := key }

def El0Slot.retract (s : El0Slot) : El0Slot :=
  { s with pdir := 0, exited := false, exitCode := 0, parked := false, req := 0 }

def keyed (key : ℕ) (s : El0Slot) : Bool := decide (s.pdir = key)

/-- Claim a slot for a root, or re-arm the one it has. -/
def houseEl0Register (t : El0Table) (key : ℕ) : ℤ × El0Table :=
  if key = 0 then (-22, t)
  else match updateFirst (keyed key) El0Slot.rearm t with
    | some t' => (0, t')
    | none => match updateFirst (keyed 0) (El0Slot.claim key) t with
      | some t' => (0, t')
      | none => (-28, t)

/-- Release the slot of a root. -/
def houseEl0Unregister (t : El0Table) (key : ℕ) : El0Table :=
  if key = 0 then t else (updateFirst (keyed key) El0Slot.retract t).getD t

/-- Record a trapped frame in the slot of the current root; 1 when there is a slot. -/
def parkFrame (t : El0Table) (cur : ℕ) (frame : Frame) (elr spEl0 : Word) (req : ℕ)
    (faultVa : El0Slot → Word) : ℕ × El0Table :=
  if cur = 0 then (0, t)
  else match updateFirst (keyed cur)
      (fun s => { s with save := frame, elr := elr, spEl0 := spEl0, req := req, faultVa := faultVa s,
                         parked := true }) t with
    | some t' => (1, t')
    | none => (0, t)

/-- The SVC park leaves the fault address alone. -/
def houseEl0Park (t : El0Table) (cur : ℕ) (elr spEl0 : Word) (imm : ℕ) (frame : Frame) :
    ℕ × El0Table := parkFrame t cur frame elr spEl0 imm El0Slot.faultVa

/-- The fault parks record the page of the fault. -/
def houseEl0ParkFault (t : El0Table) (cur : ℕ) (elr spEl0 : Word) (frame : Frame) (far : Word) :
    ℕ × El0Table := parkFrame t cur frame elr spEl0 reqFault fun _ => far &&& ~~~4095

/-- The frame that an expired quantum parks. -/
def parkPreempt (t : El0Table) (cur : ℕ) (elr spEl0 : Word) (frame : Frame) : ℕ × El0Table :=
  parkFrame t cur frame elr spEl0 reqPreempt fun _ => 0

/-- The exit of the current session. -/
def houseSetExit (t : El0Table) (cur : ℕ) (code : ℤ) : El0Table :=
  if cur = 0 then t
  else (updateFirst (keyed cur) (fun s => { s with exitCode := code, exited := true }) t).getD t

/-- The slot as a resume enters it: x0 staged, no longer parked. -/
def El0Slot.enter (res : Word) (s : El0Slot) : El0Slot :=
  { s with save := Function.update s.save 0 res, parked := false }

/-- The table half of a resume: its code and the slot whose frame is entered, if any. -/
def houseResumeEl0 (t : El0Table) (key : ℕ) (res : Word) : ℤ × El0Table × Option El0Slot :=
  if key = 0 then (-22, t, none)
  else match t.find? (keyed key) with
    | none => (-22, t, none)
    | some s =>
      if !s.parked then (0, t, none)
      else (0, (updateFirst (keyed key) (fun _ => s.enter res) t).getD t, some (s.enter res))

/-- The slots registered for a root. -/
def slotCount (t : El0Table) (key : ℕ) : ℕ := t.countP (keyed key)

lemma keyed_iff {key : ℕ} {s : El0Slot} : keyed key s = true ↔ s.pdir = key := by simp [keyed]

/-- An update that keeps the keys keeps every count. -/
lemma slotCount_update_same {t t' : El0Table} {p : El0Slot → Bool} {f : El0Slot → El0Slot}
    (h : updateFirst p f t = some t') (hf : ∀ s, (f s).pdir = s.pdir) (r : ℕ) :
    slotCount t' r = slotCount t r := by
  obtain ⟨x, -, hc⟩ := countP_updateFirst (q := keyed r) h
  have hx : keyed r (f x) = keyed r x := by simp [keyed, hf]
  rw [hx] at hc
  exact Nat.add_right_cancel hc

/-- Counts after a slot with key `a` got the key `b`. -/
lemma slotCount_update {t t' : El0Table} {a b : ℕ} {f : El0Slot → El0Slot}
    (h : updateFirst (keyed a) f t = some t') (hf : ∀ s, (f s).pdir = b) (r : ℕ) :
    slotCount t' r + (if a = r then 1 else 0) = slotCount t r + (if b = r then 1 else 0) := by
  obtain ⟨x, hx, hc⟩ := countP_updateFirst (q := keyed r) h
  have hxa : x.pdir = a := keyed_iff.mp hx
  simpa [keyed, hxa, hf, slotCount] using hc

/-- A registration that succeeds leaves its root with a slot, and no other root changes. -/
theorem houseEl0Register_ok {t t' : El0Table} {key : ℕ} (h : houseEl0Register t key = (0, t')) :
    slotCount t' key = max 1 (slotCount t key) ∧
      ∀ r, r ≠ 0 → r ≠ key → slotCount t' r = slotCount t r := by
  unfold houseEl0Register at h
  split_ifs at h with hz
  · simp at h
  cases hk : updateFirst (keyed key) El0Slot.rearm t with
  | some u =>
    simp only [hk, Prod.mk.injEq, true_and] at h
    subst h
    have hsame := slotCount_update_same hk (fun _ => rfl)
    have hpos : slotCount t key ≠ 0 := fun h0 => by
      simp [updateFirst_eq_none.mpr h0] at hk
    refine ⟨?_, fun r _ _ => hsame r⟩
    rw [hsame]
    omega
  | none =>
    have h0 : slotCount t key = 0 := updateFirst_eq_none.mp hk
    cases hc : updateFirst (keyed 0) (El0Slot.claim key) t with
    | none => simp [hk, hc] at h
    | some u =>
      simp only [hk, hc, Prod.mk.injEq, true_and] at h
      subst h
      have hcount := slotCount_update (b := key) hc fun _ => rfl
      refine ⟨?_, fun r hr0 hrk => ?_⟩
      · have := hcount key
        simp only [Ne.symm hz, if_false, if_true, h0] at this
        omega
      · have := hcount r
        simp only [Ne.symm hr0, Ne.symm hrk, if_false] at this
        omega

theorem houseEl0Register_error {t t' : El0Table} {key : ℕ} {e : ℤ} (he : e ≠ 0)
    (h : houseEl0Register t key = (e, t')) : t' = t := by
  unfold houseEl0Register at h
  split_ifs at h with hz
  · simp only [Prod.mk.injEq] at h
    exact h.2.symm
  split at h
  · simp only [Prod.mk.injEq] at h
    exact absurd h.1.symm he
  split at h
  · simp only [Prod.mk.injEq] at h
    exact absurd h.1.symm he
  · simp only [Prod.mk.injEq] at h
    exact h.2.symm

/-- Releasing a root takes no slot away from any other root. -/
theorem slotCount_unregister_of_ne (t : El0Table) {key r : ℕ} (hr : r ≠ 0) (hrk : r ≠ key) :
    slotCount (houseEl0Unregister t key) r = slotCount t r := by
  unfold houseEl0Unregister
  split_ifs
  · rfl
  cases hk : updateFirst (keyed key) El0Slot.retract t with
  | none => rfl
  | some u =>
    have hcount := slotCount_update (b := 0) hk (fun _ => rfl) r
    simp only [Ne.symm hrk, Ne.symm hr, if_false] at hcount
    simpa using hcount

theorem slotCount_unregister_le (t : El0Table) {key r : ℕ} (hr : r ≠ 0) :
    slotCount (houseEl0Unregister t key) r ≤ slotCount t r := by
  by_cases hrk : r = key
  · subst hrk
    unfold houseEl0Unregister
    rw [if_neg hr]
    cases hk : updateFirst (keyed r) El0Slot.retract t with
    | none => exact le_rfl
    | some u =>
      have hcount := slotCount_update (b := 0) hk (fun _ => rfl) r
      simp only [Ne.symm hr, if_false, if_true] at hcount
      simp only [Option.getD_some]
      omega
  · exact (slotCount_unregister_of_ne t hr hrk).le

theorem slotCount_parkFrame (t : El0Table) (cur : ℕ) (frame : Frame) (elr spEl0 : Word) (req : ℕ)
    (far : El0Slot → Word) (r : ℕ) :
    slotCount (parkFrame t cur frame elr spEl0 req far).2 r = slotCount t r := by
  unfold parkFrame
  split_ifs
  · rfl
  split
  case h_1 u hu => exact slotCount_update_same hu (fun _ => rfl) r
  · rfl

/-- A frame parked for a registered root is what the next search for that root finds. -/
theorem parkFrame_find {t : El0Table} {cur : ℕ} (hcur : cur ≠ 0) (hslot : 1 ≤ slotCount t cur)
    (frame : Frame) (elr spEl0 : Word) (req : ℕ) (far : El0Slot → Word) :
    ∃ t' slot, parkFrame t cur frame elr spEl0 req far = (1, t') ∧ t'.find? (keyed cur) = some slot ∧
      slot.save = frame ∧ slot.elr = elr ∧ slot.spEl0 = spEl0 ∧ slot.parked = true := by
  unfold parkFrame
  rw [if_neg hcur]
  split
  case h_1 t' hu =>
    obtain ⟨x, hx⟩ := find?_updateFirst hu fun s hs => hs
    exact ⟨t', _, rfl, hx, rfl, rfl, rfl, rfl⟩
  case h_2 hu =>
    have : slotCount t cur = 0 := updateFirst_eq_none.mp hu
    omega

theorem houseResumeEl0_parked {t : El0Table} {cur : ℕ} {slot : El0Slot} (hcur : cur ≠ 0)
    (hfind : t.find? (keyed cur) = some slot) (hparked : slot.parked = true) (res : Word) :
    ∃ t', houseResumeEl0 t cur res = (0, t', some (slot.enter res)) := by
  refine ⟨(updateFirst (keyed cur) (fun _ => slot.enter res) t).getD t, ?_⟩
  unfold houseResumeEl0
  rw [if_neg hcur, hfind]
  simp [hparked]

theorem slotCount_setExit (t : El0Table) (cur : ℕ) (code : ℤ) (r : ℕ) :
    slotCount (houseSetExit t cur code) r = slotCount t r := by
  unfold houseSetExit
  split_ifs
  · rfl
  cases hu : updateFirst (keyed cur) (fun s => { s with exitCode := code, exited := true }) t with
  | none => rfl
  | some u => exact slotCount_update_same hu (fun _ => rfl) r

theorem slotCount_resume (t : El0Table) (key : ℕ) (res : Word) (r : ℕ) :
    slotCount (houseResumeEl0 t key res).2.1 r = slotCount t r := by
  unfold houseResumeEl0
  split_ifs
  · rfl
  split
  · rfl
  case h_2 s hs =>
    have hkey : s.pdir = key := keyed_iff.mp (List.find?_some hs)
    split_ifs
    · rfl
    simp only
    cases hu : updateFirst (keyed key) (fun _ => s.enter res) t with
    | none => rfl
    | some u =>
      have hcount := slotCount_update hu (fun _ => hkey) r
      exact Nat.add_right_cancel hcount

@[simp] theorem slotCount_boot {r : ℕ} (hr : r ≠ 0) : slotCount el0Boot r = 0 := by
  simp [slotCount, el0Boot, List.countP_replicate, keyed, el0Free, Ne.symm hr]

end HouseKernel.El0
