import Mathlib.Tactic
import HouseKernel.Lib.Keyed
import HouseKernel.Lib.Run

/-! Syscall masks by page-table root. A root without an entry has the full mask; a revoke narrows the
mask of a process and a fork copies it to the child, and both write the mask and read it back, since
a write that finds the table full is dropped. -/
namespace HouseKernel.Userspace

open HouseKernel.Lib

def svcMaskTabCap : ℕ := 64

/-- The syscalls 0x00 to 0x18. -/
def svcMaskFull : BitVec 32 := 0x1FFFFFF

def svcMaskReset (tab : List (ℕ × BitVec 32)) (pdir : ℕ) : List (ℕ × BitVec 32) :=
  if pdir = 0 then tab else putEntry svcMaskTabCap tab pdir svcMaskFull

def svcMaskSet (tab : List (ℕ × BitVec 32)) (pdir : ℕ) (mask : BitVec 32) : List (ℕ × BitVec 32) :=
  if pdir = 0 then tab else putEntry svcMaskTabCap tab pdir (mask &&& svcMaskFull)

def svcMaskGet (tab : List (ℕ × BitVec 32)) (pdir : ℕ) : BitVec 32 :=
  if pdir = 0 then 0 else entryOf svcMaskFull tab pdir

def svcMaskRemove (tab : List (ℕ × BitVec 32)) (pdir : ℕ) : List (ℕ × BitVec 32) := dropEntry tab pdir

/-- 1 is allowed, 0 is denied. -/
def houseSvcAllowed (tab : List (ℕ × BitVec 32)) (pdir imm : ℕ) : ℤ :=
  if pdir = 0 then 0
  else if 0x18 < imm then 0
  else if entryOf svcMaskFull tab pdir &&& (1#32 <<< imm) ≠ 0 then 1 else 0

/-- Clear the bit of one syscall. -/
def svcNarrow (mask : BitVec 32) (imm : ℕ) : BitVec 32 :=
  if 0x18 < imm then mask else mask &&& ~~~(1#32 <<< imm)

/-- A mask on its way to a root: computed, then written, then read back. A fork names its child. -/
structure MaskWrite where
  child : Option ℕ
  pdir : ℕ
  mask : BitVec 32
  written : Bool
  deriving DecidableEq

structure MaskWorld where
  tab : List (ℕ × BitVec 32)
  /-- The roots of the processes, `procMap`. -/
  procs : ℕ → Option ℕ
  /-- What the holder of `userSem` is about. -/
  op : Option MaskWrite
  /-- The answer of the last revoke or fork. -/
  reply : Option (Except String (BitVec 32))

inductive MaskAction where
  | reset (pdir : ℕ)
  | set (pdir : ℕ) (mask : BitVec 32)
  | get (pdir : ℕ)
  | release (pdir : ℕ)
  | spawn (pid pdir : ℕ)
  | exit (pid : ℕ)
  | revoke (pid imm : ℕ)
  | fork (pid child childPdir : ℕ)
  | write
  | readBack
  deriving DecidableEq

def MaskWorld.fail (w : MaskWorld) (why : String) : MaskWorld := { w with op := none, reply := some (.error why) }

/-- `svcMaskRevoke` up to the write. -/
def revokeBegin (w : MaskWorld) (pid imm : ℕ) : MaskWorld :=
  if 0x18 < imm then w.fail "imm out of range 0x00..0x18"
  else match w.procs pid with
    | none => w.fail "no such pid"
    | some pdir => { w with op := some ⟨none, pdir, svcNarrow (svcMaskGet w.tab pdir) imm, false⟩ }

/-- `inheritSvcMask` up to the write. -/
def forkBegin (w : MaskWorld) (pid child childPdir : ℕ) : MaskWorld :=
  match w.procs pid with
  | none => w.fail "no such pid"
  | some pdir => { w with op := some ⟨some child, childPdir, svcMaskGet w.tab pdir, false⟩ }

/-- The end of `setSvcMaskVerified`. A fork that fails goes on to release the child's root. -/
def readBackStep (w : MaskWorld) (op : MaskWrite) : MaskWorld :=
  if svcMaskGet w.tab op.pdir = op.mask then
    { w with
      procs := op.child.elim w.procs fun child => Function.update w.procs child (some op.pdir)
      op := none
      reply := some (.ok op.mask) }
  else w.fail (if op.child = none then "mask table full" else "NoSpace")

def maskStep (w : MaskWorld) : MaskAction → Option MaskWorld
  | .reset pdir => some { w with tab := svcMaskReset w.tab pdir }
  | .set pdir mask => some { w with tab := svcMaskSet w.tab pdir mask }
  | .get _ => some w
  | .release pdir => some { w with tab := if pdir = 0 then w.tab else svcMaskRemove w.tab pdir }
  | .spawn pid pdir =>
    some { w with tab := svcMaskReset w.tab pdir, procs := Function.update w.procs pid (some pdir) }
  | .exit pid => some { w with procs := Function.update w.procs pid none }
  | .revoke pid imm => if w.op = none then some (revokeBegin w pid imm) else none
  | .fork pid child childPdir => if w.op = none then some (forkBegin w pid child childPdir) else none
  | .write => w.op.bind fun op =>
    if op.written then none
    else some { w with tab := svcMaskSet w.tab op.pdir op.mask, op := some { op with written := true } }
  | .readBack => w.op.bind fun op => if op.written then some (readBackStep w op) else none

def maskBoot : MaskWorld := ⟨[], fun _ => none, none, none⟩

/-- The step gives the root a syscall back, or the root to somebody else. -/
def Lifts (pdir imm : ℕ) (w : MaskWorld) : MaskAction → Prop
  | .reset r | .release r | .spawn _ r => r = pdir
  | .set r mask => r = pdir ∧ mask.getLsbD imm = true
  | .write => ∃ op ∈ w.op, op.child ≠ none ∧ op.pdir = pdir ∧ op.mask.getLsbD imm = true
  | .get _ | .exit _ | .revoke _ _ | .fork _ _ _ | .readBack => False

/-- Every lookup for the root denies the syscall. -/
def Denied (tab : List (ℕ × BitVec 32)) (pdir imm : ℕ) : Prop :=
  houseSvcAllowed tab pdir imm = 0 ∧ (svcMaskGet tab pdir).getLsbD imm = false

/-- The revoke or fork that is begun in `w` ends with success in `v`, whatever else is called in
between. -/
def Succeeds (a : MaskAction) (w v : MaskWorld) : Prop :=
  ∃ w₁ bs w₂ mask, maskStep w a = some w₁ ∧ w₁.op ≠ none ∧ run maskStep w₁ bs = some w₂ ∧ .readBack ∉ bs ∧
    maskStep w₂ .readBack = some v ∧ v.reply = some (.ok mask)

/-- The root denies the syscall, and a revoke under way leaves it denied. -/
structure MaskWorld.Bars (w : MaskWorld) (pdir imm : ℕ) : Prop where
  denied : (svcMaskGet w.tab pdir).getLsbD imm = false
  op : ∀ op ∈ w.op, op.child = none → op.pdir = pdir → op.mask.getLsbD imm = false

section Table

variable {tab : List (ℕ × BitVec 32)} {pdir r imm : ℕ} {mask : BitVec 32}

theorem getLsbD_narrow_self (h : imm ≤ 0x18) : (svcNarrow mask imm).getLsbD imm = false := by
  have hlt : imm < 32 := by omega
  simp [svcNarrow, Nat.not_lt.mpr h, hlt]

/-- A narrowed mask has no bit that the mask had not. -/
theorem getLsbD_narrow {i : ℕ} (h : mask.getLsbD i = false) : (svcNarrow mask imm).getLsbD i = false := by
  unfold svcNarrow
  split_ifs
  · exact h
  · rw [BitVec.getLsbD_and, h, Bool.false_and]

theorem denied_of_getLsbD (h : (svcMaskGet tab pdir).getLsbD imm = false) : Denied tab pdir imm := by
  refine ⟨?_, h⟩
  unfold houseSvcAllowed
  split_ifs with hz himm hbit
  · rfl
  · rfl
  · rw [svcMaskGet, if_neg hz] at h
    have htwo : (1#32 <<< imm) = BitVec.twoPow 32 imm := rfl
    rw [htwo, BitVec.and_twoPow, h] at hbit
    exact absurd rfl hbit
  · rfl

theorem svcMaskGet_set_of_ne (h : r ≠ pdir) : svcMaskGet (svcMaskSet tab pdir mask) r = svcMaskGet tab r := by
  unfold svcMaskGet svcMaskSet
  split_ifs
  · rfl
  · rfl
  · exact entryOf_putEntry_of_ne h

theorem svcMaskGet_reset_of_ne (h : r ≠ pdir) : svcMaskGet (svcMaskReset tab pdir) r = svcMaskGet tab r := by
  unfold svcMaskGet svcMaskReset
  split_ifs
  · rfl
  · rfl
  · exact entryOf_putEntry_of_ne h

theorem svcMaskGet_remove_of_ne (hkeys : (keysOf tab).Nodup) (h : r ≠ pdir) :
    svcMaskGet (svcMaskRemove tab pdir) r = svcMaskGet tab r := by
  unfold svcMaskGet
  split_ifs
  · rfl
  · exact entryOf_dropEntry_of_ne hkeys h

/-- A write of a mask without the bit takes the bit away, or changes nothing. -/
theorem getLsbD_set (hbit : mask.getLsbD imm = false) (h : (svcMaskGet tab r).getLsbD imm = false) :
    (svcMaskGet (svcMaskSet tab pdir mask) r).getLsbD imm = false := by
  by_cases hr : r = pdir
  · subst hr
    unfold svcMaskGet svcMaskSet
    split_ifs with hz
    · simp
    · by_cases hplace : r ∈ keysOf tab ∨ tab.length < svcMaskTabCap
      · rw [entryOf_putEntry_self hplace, BitVec.getLsbD_and, hbit, Bool.false_and]
      · obtain ⟨hnew, hfull⟩ := not_or.mp hplace
        rw [putEntry_of_full hnew (Nat.not_lt.mp hfull)]
        rwa [svcMaskGet, if_neg hz] at h
  · rwa [svcMaskGet_set_of_ne hr]

theorem nodup_svcMaskSet (hkeys : (keysOf tab).Nodup) : (keysOf (svcMaskSet tab pdir mask)).Nodup := by
  unfold svcMaskSet
  split_ifs
  · exact hkeys
  · exact nodup_putEntry hkeys

theorem nodup_svcMaskReset (hkeys : (keysOf tab).Nodup) : (keysOf (svcMaskReset tab pdir)).Nodup := by
  unfold svcMaskReset
  split_ifs
  · exact hkeys
  · exact nodup_putEntry hkeys

end Table

@[simp] theorem fail_tab (w : MaskWorld) (why : String) : (w.fail why).tab = w.tab := rfl

@[simp] theorem fail_op (w : MaskWorld) (why : String) : (w.fail why).op = none := rfl

/-- The start of a revoke is refused, or names the root of the process and its mask without the bit. -/
theorem revokeBegin_cases (w : MaskWorld) (pid imm : ℕ) :
    (∃ why, revokeBegin w pid imm = w.fail why) ∨ ∃ pdir, w.procs pid = some pdir ∧ imm ≤ 0x18 ∧
      revokeBegin w pid imm = { w with op := some ⟨none, pdir, svcNarrow (svcMaskGet w.tab pdir) imm, false⟩ } := by
  unfold revokeBegin
  split_ifs with himm
  · exact .inl ⟨_, rfl⟩
  · cases hpid : w.procs pid with
    | none => exact .inl ⟨_, rfl⟩
    | some pdir => exact .inr ⟨pdir, rfl, Nat.le_of_not_lt himm, rfl⟩

theorem forkBegin_cases (w : MaskWorld) (pid child childPdir : ℕ) :
    (∃ why, forkBegin w pid child childPdir = w.fail why) ∨ ∃ pdir, w.procs pid = some pdir ∧
      forkBegin w pid child childPdir = { w with op := some ⟨some child, childPdir, svcMaskGet w.tab pdir, false⟩ } := by
  unfold forkBegin
  cases hpid : w.procs pid with
  | none => exact .inl ⟨_, rfl⟩
  | some pdir => exact .inr ⟨pdir, rfl, rfl⟩

/-- The end of a write answers with the mask exactly when it was read back. -/
theorem readBackStep_cases (w : MaskWorld) (op : MaskWrite) :
    (readBackStep w op).tab = w.tab ∧ (readBackStep w op).op = none ∧
      ∀ mask, (readBackStep w op).reply = some (.ok mask) → mask = op.mask ∧ svcMaskGet w.tab op.pdir = op.mask := by
  unfold readBackStep
  split_ifs with hback
  · refine ⟨rfl, rfl, fun mask hreply => ⟨?_, hback⟩⟩
    simpa using hreply.symm
  · exact ⟨rfl, rfl, fun mask hreply => by simp [MaskWorld.fail] at hreply⟩
  · exact ⟨rfl, rfl, fun mask hreply => by simp [MaskWorld.fail] at hreply⟩

/-- No root has two entries. -/
theorem maskStep_nodup {w t : MaskWorld} {a : MaskAction} (hkeys : (keysOf w.tab).Nodup) (h : maskStep w a = some t) :
    (keysOf t.tab).Nodup := by
  cases a with
  | reset pdir =>
    obtain rfl := Option.some.inj h
    exact nodup_svcMaskReset hkeys
  | set pdir mask =>
    obtain rfl := Option.some.inj h
    exact nodup_svcMaskSet hkeys
  | get pdir =>
    obtain rfl := Option.some.inj h
    exact hkeys
  | release pdir =>
    obtain rfl := Option.some.inj h
    simp only
    split_ifs
    · exact hkeys
    · exact nodup_dropEntry hkeys
  | spawn pid pdir =>
    obtain rfl := Option.some.inj h
    exact nodup_svcMaskReset hkeys
  | exit pid =>
    obtain rfl := Option.some.inj h
    exact hkeys
  | revoke pid imm =>
    obtain ⟨-, hbegin⟩ := Option.ite_none_right_eq_some.mp h
    obtain rfl := Option.some.inj hbegin
    obtain ⟨why, heq⟩ | ⟨pdir, -, -, heq⟩ := revokeBegin_cases w pid imm
    all_goals
      rw [heq]
      exact hkeys
  | fork pid child childPdir =>
    obtain ⟨-, hbegin⟩ := Option.ite_none_right_eq_some.mp h
    obtain rfl := Option.some.inj hbegin
    obtain ⟨why, heq⟩ | ⟨pdir, -, heq⟩ := forkBegin_cases w pid child childPdir
    all_goals
      rw [heq]
      exact hkeys
  | write =>
    obtain ⟨op, -, hstep⟩ := Option.bind_eq_some_iff.mp h
    split_ifs at hstep
    obtain rfl := Option.some.inj hstep
    exact nodup_svcMaskSet hkeys
  | readBack =>
    obtain ⟨op, -, hstep⟩ := Option.bind_eq_some_iff.mp h
    split_ifs at hstep
    obtain rfl := Option.some.inj hstep
    rw [(readBackStep_cases w op).1]
    exact hkeys

/-- What a root denies it denies after every step that does not lift it: other roots have other
entries, and a revoke of another syscall starts from the mask as it is. -/
theorem maskStep_bars {w t : MaskWorld} {a : MaskAction} {r i : ℕ} (hkeys : (keysOf w.tab).Nodup) (hw : w.Bars r i)
    (hlift : ¬ Lifts r i w a) (h : maskStep w a = some t) : t.Bars r i := by
  cases a with
  | reset pdir =>
    obtain rfl := Option.some.inj h
    exact ⟨by rw [svcMaskGet_reset_of_ne (Ne.symm hlift)]; exact hw.denied, hw.op⟩
  | set pdir mask =>
    obtain rfl := Option.some.inj h
    refine ⟨?_, hw.op⟩
    by_cases hr : r = pdir
    · exact getLsbD_set (by simpa [Lifts, hr] using hlift) hw.denied
    · rw [svcMaskGet_set_of_ne hr]
      exact hw.denied
  | get pdir =>
    obtain rfl := Option.some.inj h
    exact hw
  | release pdir =>
    obtain rfl := Option.some.inj h
    refine ⟨?_, hw.op⟩
    simp only
    split_ifs
    · exact hw.denied
    · rw [svcMaskGet_remove_of_ne hkeys (Ne.symm hlift)]
      exact hw.denied
  | spawn pid pdir =>
    obtain rfl := Option.some.inj h
    exact ⟨by rw [svcMaskGet_reset_of_ne (Ne.symm hlift)]; exact hw.denied, hw.op⟩
  | exit pid =>
    obtain rfl := Option.some.inj h
    exact ⟨hw.denied, hw.op⟩
  | revoke pid imm =>
    obtain ⟨-, hbegin⟩ := Option.ite_none_right_eq_some.mp h
    obtain rfl := Option.some.inj hbegin
    obtain ⟨why, heq⟩ | ⟨pdir, -, -, heq⟩ := revokeBegin_cases w pid imm
    · rw [heq]
      exact ⟨hw.denied, nofun⟩
    · rw [heq]
      refine ⟨hw.denied, fun op hop _ hr => ?_⟩
      obtain rfl := Option.some.inj hop
      obtain rfl : pdir = r := hr
      exact getLsbD_narrow hw.denied
  | fork pid child childPdir =>
    obtain ⟨-, hbegin⟩ := Option.ite_none_right_eq_some.mp h
    obtain rfl := Option.some.inj hbegin
    obtain ⟨why, heq⟩ | ⟨pdir, -, heq⟩ := forkBegin_cases w pid child childPdir
    · rw [heq]
      exact ⟨hw.denied, nofun⟩
    · rw [heq]
      refine ⟨hw.denied, fun op hop hchild _ => ?_⟩
      obtain rfl := Option.some.inj hop
      cases hchild
  | write =>
    obtain ⟨op, hop, hstep⟩ := Option.bind_eq_some_iff.mp h
    split_ifs at hstep
    obtain rfl := Option.some.inj hstep
    refine ⟨?_, fun op' hop' hchild hr => ?_⟩
    · by_cases hr : r = op.pdir
      · refine getLsbD_set ?_ hw.denied
        by_contra hbit
        by_cases hchild : op.child = none
        · exact hbit (hw.op op hop hchild hr.symm)
        · exact hlift ⟨op, hop, hchild, hr.symm, by simpa using hbit⟩
      · rw [svcMaskGet_set_of_ne hr]
        exact hw.denied
    · obtain rfl := Option.some.inj hop'
      exact hw.op op hop hchild hr
  | readBack =>
    obtain ⟨op, -, hstep⟩ := Option.bind_eq_some_iff.mp h
    split_ifs at hstep
    obtain rfl := Option.some.inj hstep
    obtain ⟨htab, hop, -⟩ := readBackStep_cases w op
    exact ⟨by rw [htab]; exact hw.denied, by rw [hop]; nofun⟩

/-- Nothing but its own end changes what a write is about. -/
theorem maskStep_op {w t : MaskWorld} {a : MaskAction} {op : MaskWrite} (hop : ∃ b, w.op = some { op with written := b })
    (ha : a ≠ .readBack) (h : maskStep w a = some t) : ∃ b, t.op = some { op with written := b } := by
  obtain ⟨b, hb⟩ := hop
  cases a with
  | reset | set | get | release | spawn | exit =>
    obtain rfl := Option.some.inj h
    exact ⟨b, hb⟩
  | revoke | fork =>
    obtain ⟨hnone, -⟩ := Option.ite_none_right_eq_some.mp h
    cases hb.symm.trans hnone
  | write =>
    obtain ⟨op', hop', hstep⟩ := Option.bind_eq_some_iff.mp h
    obtain rfl := Option.some.inj (hb.symm.trans hop')
    split_ifs at hstep
    obtain rfl := Option.some.inj hstep
    exact ⟨true, rfl⟩
  | readBack => exact absurd rfl ha

theorem run_nodup {w t : MaskWorld} {as : List MaskAction} (hkeys : (keysOf w.tab).Nodup) (h : run maskStep w as = some t) :
    (keysOf t.tab).Nodup :=
  run_invariant (G := fun _ _ => True) (fun _ _ _ hs _ hstep => maskStep_nodup hs hstep) hkeys
    (along_of_forall (fun _ _ => trivial) _ _) h

/-- What is denied stays denied along every run that does not lift it. -/
theorem run_bars {w t : MaskWorld} {as : List MaskAction} {r i : ℕ} (hkeys : (keysOf w.tab).Nodup) (hw : w.Bars r i)
    (hlift : Along maskStep (fun w a => ¬ Lifts r i w a) w as) (h : run maskStep w as = some t) : t.Bars r i :=
  (run_invariant (I := fun w => (keysOf w.tab).Nodup ∧ w.Bars r i)
    (fun _ _ _ hs hno hstep => ⟨maskStep_nodup hs.1 hstep, maskStep_bars hs.1 hs.2 hno hstep⟩) ⟨hkeys, hw⟩ hlift h).2

/-- A revoke or fork that has succeeded has left in the table the mask that it began with, and nothing
under way. -/
theorem Succeeds.mask {a : MaskAction} {w v : MaskWorld} (h : Succeeds a w v) :
    ∃ w₁ op, maskStep w a = some w₁ ∧ w₁.op = some op ∧ v.op = none ∧ svcMaskGet v.tab op.pdir = op.mask := by
  obtain ⟨w₁, bs, w₂, mask, hbegin, hsome, hrun, hbs, hend, hreply⟩ := h
  obtain ⟨op, hop⟩ := Option.ne_none_iff_exists'.mp hsome
  have hkept : ∃ b, w₂.op = some { op with written := b } := by
    have hothers : ∀ c ∈ bs, c ≠ .readBack := fun c hc hread => hbs (hread ▸ hc)
    exact run_invariant (fun _ _ _ hs hc hstep => maskStep_op hs hc hstep) ⟨op.written, hop⟩
      (along_of_mem hothers w₁) hrun
  obtain ⟨b, hb⟩ := hkept
  obtain ⟨op', hop', hstep⟩ := Option.bind_eq_some_iff.mp hend
  obtain rfl := Option.some.inj (hb.symm.trans hop')
  split_ifs at hstep
  obtain rfl := Option.some.inj hstep
  obtain ⟨htab, hnone, hback⟩ := readBackStep_cases w₂ { op with written := b }
  exact ⟨w₁, op, hbegin, hop, hnone, by rw [htab]; exact (hback mask hreply).2⟩

theorem Succeeds.nodup {a : MaskAction} {w v : MaskWorld} (hkeys : (keysOf w.tab).Nodup) (h : Succeeds a w v) :
    (keysOf v.tab).Nodup := by
  obtain ⟨w₁, bs, w₂, mask, hbegin, -, hrun, -, hend, -⟩ := h
  exact maskStep_nodup (run_nodup (maskStep_nodup hkeys hbegin) hrun) hend

theorem Succeeds.revoke {w v : MaskWorld} {pid imm root : ℕ} (hroot : w.procs pid = some root)
    (h : Succeeds (.revoke pid imm) w v) : v.Bars root imm := by
  obtain ⟨w₁, op, hbegin, hop, hnone, hmask⟩ := h.mask
  obtain ⟨-, hbegin⟩ := Option.ite_none_right_eq_some.mp hbegin
  obtain rfl := Option.some.inj hbegin
  obtain ⟨why, heq⟩ | ⟨pdir, hpid, himm, heq⟩ := revokeBegin_cases w pid imm
  · rw [heq] at hop
    cases hop
  · rw [heq] at hop
    obtain rfl := Option.some.inj hop
    obtain rfl : root = pdir := Option.some.inj (hroot.symm.trans hpid)
    exact ⟨by rw [hmask]; exact getLsbD_narrow_self himm, by rw [hnone]; nofun⟩

/-- What the parent denies when it forks, the child denies. -/
theorem Succeeds.fork {w v : MaskWorld} {pid child childPdir imm root : ℕ} (hroot : w.procs pid = some root)
    (hdenied : (svcMaskGet w.tab root).getLsbD imm = false) (h : Succeeds (.fork pid child childPdir) w v) :
    v.Bars childPdir imm := by
  obtain ⟨w₁, op, hbegin, hop, hnone, hmask⟩ := h.mask
  obtain ⟨-, hbegin⟩ := Option.ite_none_right_eq_some.mp hbegin
  obtain rfl := Option.some.inj hbegin
  obtain ⟨why, heq⟩ | ⟨pdir, hpid, heq⟩ := forkBegin_cases w pid child childPdir
  · rw [heq] at hop
    cases hop
  · rw [heq] at hop
    obtain rfl := Option.some.inj hop
    obtain rfl : root = pdir := Option.some.inj (hroot.symm.trans hpid)
    exact ⟨by rw [hmask]; exact hdenied, by rw [hnone]; nofun⟩

/-- A syscall that a revoke has taken from a root is denied until the root is given it back, whatever
is done to other roots; and until a child's root is given it back, so is it to every child that is
forked in the meantime. -/
theorem revocation_lasts (as cs : List MaskAction) (w v t : MaskWorld) (pid imm root : ℕ)
    (h : run maskStep maskBoot as = some w) (hroot : w.procs pid = some root) (hrevoke : Succeeds (.revoke pid imm) w v)
    (hlift : Along maskStep (fun w a => ¬ Lifts root imm w a) v cs) (hcs : run maskStep v cs = some t) :
    Denied t.tab root imm ∧ ∀ parent child childPdir u ds x, t.procs parent = some root →
      Succeeds (.fork parent child childPdir) t u → Along maskStep (fun w a => ¬ Lifts childPdir imm w a) u ds →
        run maskStep u ds = some x → Denied x.tab childPdir imm := by
  have hkeys : (keysOf v.tab).Nodup := Succeeds.nodup (run_nodup (w := maskBoot) List.nodup_nil h) hrevoke
  have hbars : t.Bars root imm := run_bars hkeys (hrevoke.revoke hroot) hlift hcs
  refine ⟨denied_of_getLsbD hbars.denied, fun parent child childPdir u ds x hparent hfork hchild hds => ?_⟩
  have hkeys' : (keysOf u.tab).Nodup := Succeeds.nodup (run_nodup hkeys hcs) hfork
  exact denied_of_getLsbD (run_bars hkeys' (hfork.fork hparent hbars.denied) hchild hds).denied

instance (pdir imm : ℕ) (w : MaskWorld) : ∀ a, Decidable (Lifts pdir imm w a)
  | .reset r | .release r | .spawn _ r => inferInstanceAs (Decidable (r = pdir))
  | .set r mask => inferInstanceAs (Decidable (r = pdir ∧ mask.getLsbD imm = true))
  | .write => inferInstanceAs (Decidable (∃ op ∈ w.op, _ ∧ _))
  | .get _ | .exit _ | .revoke _ _ | .fork _ _ _ | .readBack => isFalse not_false

instance (tab : List (ℕ × BitVec 32)) (pdir imm : ℕ) : Decidable (Denied tab pdir imm) :=
  inferInstanceAs (Decidable (_ ∧ _))

/-- Another root is released, so that the entries move, and the process revokes once more. -/
def afterRevoke : List MaskAction := [.release 0x1000, .reset 0x3000, .revoke 2 6, .write, .readBack, .get 0x2000]

set_option synthInstance.maxSize 512 in
theorem revocation_lasts_one : ∃ w v t, run maskStep maskBoot [.spawn 1 0x1000, .spawn 2 0x2000] = some w ∧
    Succeeds (.revoke 2 5) w v ∧ run maskStep v afterRevoke = some t ∧ Denied t.tab 0x2000 5 := by
  obtain ⟨w, hw, hroot, w₁, hbegin, hsome, w₂, hrun, v, hend, hreply, hlift, hlast⟩ :
      ∃ w ∈ run maskStep maskBoot [.spawn 1 0x1000, .spawn 2 0x2000], w.procs 2 = some 0x2000 ∧
        ∃ w₁ ∈ maskStep w (.revoke 2 5), w₁.op ≠ none ∧ ∃ w₂ ∈ run maskStep w₁ [.set 0x1000 7, .write],
          ∃ v ∈ maskStep w₂ .readBack, v.reply = some (.ok (svcNarrow svcMaskFull 5)) ∧
            Along maskStep (fun w a => ¬ Lifts 0x2000 5 w a) v afterRevoke ∧ (run maskStep v afterRevoke).isSome := by
    decide
  obtain ⟨t, ht⟩ := Option.isSome_iff_exists.mp hlast
  have hrevoke : Succeeds (.revoke 2 5) w v :=
    ⟨w₁, [.set 0x1000 7, .write], w₂, _, hbegin, hsome, hrun, by decide, hend, hreply⟩
  exact ⟨w, v, t, hw, hrevoke, ht, (revocation_lasts _ _ w v t 2 5 0x2000 hw hroot hrevoke hlift ht).1⟩

set_option synthInstance.maxSize 512 in
/-- A set of the full mask gives the syscall back without a reset or a release. -/
theorem revocation_lifted_by_set : ¬ ∀ (as cs : List MaskAction) (w v t : MaskWorld) (pid imm root : ℕ),
    run maskStep maskBoot as = some w → w.procs pid = some root → Succeeds (.revoke pid imm) w v →
      (∀ c ∈ cs, c ≠ .reset root ∧ c ≠ .release root ∧ ∀ q, c ≠ .spawn q root) →
        run maskStep v cs = some t → Denied t.tab root imm := by
  intro hclaim
  obtain ⟨w, hw, hroot, w₁, hbegin, hsome, w₂, hrun, v, hend, hreply, t, ht, hallowed⟩ :
      ∃ w ∈ run maskStep maskBoot [.spawn 2 0x2000], w.procs 2 = some 0x2000 ∧
        ∃ w₁ ∈ maskStep w (.revoke 2 5), w₁.op ≠ none ∧ ∃ w₂ ∈ run maskStep w₁ [.write],
          ∃ v ∈ maskStep w₂ .readBack, v.reply = some (.ok (svcNarrow svcMaskFull 5)) ∧
            ∃ t ∈ run maskStep v [.set 0x2000 svcMaskFull], ¬ Denied t.tab 0x2000 5 := by
    decide
  have hrevoke : Succeeds (.revoke 2 5) w v :=
    ⟨w₁, [.write], w₂, _, hbegin, hsome, hrun, by decide, hend, hreply⟩
  refine hallowed (hclaim _ _ w v t 2 5 0x2000 hw hroot hrevoke ?_ ht)
  intro c hc
  obtain rfl := List.mem_singleton.mp hc
  exact ⟨nofun, nofun, fun _ => nofun⟩

end HouseKernel.Userspace
