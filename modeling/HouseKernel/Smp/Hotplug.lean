import Mathlib.Data.Finset.Insert
import Mathlib.Data.Fintype.Basic
import Mathlib.Tactic
import HouseKernel.Lib.Run

/-! Hotplug of cores. A core is brought up through `psci_cpu_on` and sets its own bit of the online
mask; it is taken down by a flag and an interrupt, and the requester clears the bit when the
firmware reports the core off. Either side may be late: a requester gives up after a while, and
what the target has begun by then it finishes. -/
namespace HouseKernel.Smp

open HouseKernel.Lib

abbrev Core := Fin 32

instance neZero_hotplug : NeZero 32 := ⟨by decide⟩

/-- Where a core stands: before its bit is set, in its own code, in the SGI 7 handler before and
after the look at the request, or in the loop behind a `psci_cpu_off` that was refused. -/
inductive CorePower where
  | off
  | starting
  | running
  | asked
  | leaving
  | parked
  deriving DecidableEq

/-- The call in progress, past its checks. `clearing` has taken the bit from the mask. -/
inductive HotplugCall where
  | up (c : Core)
  | down (c : Core)
  | clearing (c : Core)
  deriving DecidableEq

structure HotplugWorld where
  mask : Finset Core
  offReq : Core → Bool
  epoch : Core → BitVec 32
  power : Core → CorePower
  /-- Cores on which SGI 7 is pending. -/
  sgi : Finset Core
  call : Option HotplugCall
  /-- What the last call has returned. -/
  result : ℤ

/-- `psci_affinity_info`: 0 is on, 1 is off, 2 is on its way up. -/
def affinityInfo : CorePower → ℤ
  | .off => 1
  | .starting => 2
  | .running | .asked | .leaving | .parked => 0

def HotplugWorld.setPower (w : HotplugWorld) (c : Core) (p : CorePower) : HotplugWorld :=
  { w with power := Function.update w.power c p }

def HotplugWorld.setOffReq (w : HotplugWorld) (c : Core) (flag : Bool) : HotplugWorld :=
  { w with offReq := Function.update w.offReq c flag }

def HotplugWorld.bumpEpoch (w : HotplugWorld) (c : Core) : HotplugWorld :=
  { w with epoch := Function.update w.epoch c (w.epoch c + 1) }

def HotplugWorld.return (w : HotplugWorld) (r : ℤ) : HotplugWorld := { w with call := none, result := r }

/-- `house_smp_up` up to its wait; `r` is what `psci_cpu_on` answers. -/
def smpUp (w : HotplugWorld) (core : ℕ) (r : ℤ) : HotplugWorld :=
  if h : core < 32 then
    if core = 0 then w.return (-16)
    else if ⟨core, h⟩ ∈ w.mask then w.return (-16)
    else if r ≠ 0 then w.return (-5)
    else { w.setPower ⟨core, h⟩ .starting with call := some (.up ⟨core, h⟩) }
  else w.return (-22)

/-- `house_smp_down` up to its wait. -/
def smpDown (w : HotplugWorld) (core : ℕ) : HotplugWorld :=
  if h : core < 32 then
    if core = 0 then w.return (-22)
    else if ⟨core, h⟩ ∉ w.mask then w.return (-16)
    else { w.setOffReq ⟨core, h⟩ true with
      sgi := insert ⟨core, h⟩ w.sgi
      call := some (.down ⟨core, h⟩) }
  else w.return (-22)

inductive HotplugAction where
  | up (core : ℕ) (r : ℤ)
  | upSeen
  | upTimeout
  | down (core : ℕ)
  | downSeen
  | downTimeout
  | downReturn
  | irq (c : Core)
  | read (c : Core)
  | off (c : Core)
  | refuse (c : Core)
  | publish (c : Core)
  deriving DecidableEq

/-- A step of the call in progress. A look at the mask or at the firmware that finds nothing new
changes nothing, and is left out. -/
def callStep (w : HotplugWorld) : HotplugAction → HotplugCall → Option HotplugWorld
  | .upSeen, .up c => if c ∈ w.mask then some ((w.bumpEpoch c).return 0) else none
  | .upTimeout, .up _ => some (w.return (-110))
  | .downSeen, .down c =>
    if affinityInfo (w.power c) = 1 then some { w with mask := w.mask.erase c, call := some (.clearing c) } else none
  | .downTimeout, .down c => some ((w.setOffReq c false).return (-110))
  | .downReturn, .clearing c => some (((w.setOffReq c false).bumpEpoch c).return 0)
  | _, _ => none

/-- A step of the core itself. -/
def coreStep (w : HotplugWorld) (c : Core) : HotplugAction → CorePower → Option HotplugWorld
  | .irq _, .running =>
    if c ∈ w.sgi then some ({ w with sgi := w.sgi.erase c }.setPower c .asked) else none
  | .read _, .asked => some (w.setPower c (if w.offReq c then .leaving else .running))
  | .off _, .leaving => some (w.setPower c .off)
  | .refuse _, .leaving => some (w.setPower c .parked)
  | .publish _, .starting => some ({ w with mask := insert c w.mask }.setPower c .running)
  | _, _ => none

/-- The firmware turns on only a core that is off. -/
def HotplugWorld.CanAnswer (w : HotplugWorld) (core : ℕ) (r : ℤ) : Prop :=
  r = 0 → ∀ h : core < 32, w.power ⟨core, h⟩ = .off

instance (w : HotplugWorld) (core : ℕ) (r : ℤ) : Decidable (w.CanAnswer core r) :=
  inferInstanceAs (Decidable (_ → _))

def hotplugStep (w : HotplugWorld) (a : HotplugAction) : Option HotplugWorld :=
  match a with
  | .up core r => if w.call = none ∧ w.CanAnswer core r then some (smpUp w core r) else none
  | .down core => if w.call = none then some (smpDown w core) else none
  | .upSeen | .upTimeout | .downSeen | .downTimeout | .downReturn => w.call.bind (callStep w a)
  | .irq c | .read c | .off c | .refuse c | .publish c => coreStep w c a (w.power c)

/-- Core 0 and the cores that it has brought up are running. -/
def hotplugBoot (online : Finset Core) : HotplugWorld where
  mask := insert 0 online
  offReq := fun _ => false
  epoch := fun _ => 0
  power := fun c => if c ∈ insert 0 online then .running else .off
  sgi := ∅
  call := none
  result := 0

/-- The core has a step of its start or of its SGI 7 handler before it. -/
def HotplugWorld.Pending (w : HotplugWorld) (c : Core) : Prop :=
  w.power c = .starting ∨ w.power c = .asked ∨ w.power c = .leaving ∨ w.power c = .running ∧ c ∈ w.sgi

instance (w : HotplugWorld) (c : Core) : Decidable (w.Pending c) := inferInstanceAs (Decidable (_ ∨ _))

/-- When nothing is going on, the online mask names the cores that are running. -/
def HotplugWorld.Truthful (w : HotplugWorld) : Prop :=
  w.call = none → (∀ c, ¬ w.Pending c) → ∀ c, c ∈ w.mask ↔ w.power c = .running

/-- The bit of a core tells the truth as soon as the core itself has no step before it and is not
being taken down, whatever happens to others. -/
def HotplugWorld.TruthfulEach (w : HotplugWorld) : Prop :=
  ∀ c, w.call ≠ some (.down c) → ¬ w.Pending c → (c ∈ w.mask ↔ w.power c = .running)

/-- A core leaves only under the eyes of a `house_smp_down` for it, and that call does not give up
on a core that has left. -/
def Watched (w : HotplugWorld) : HotplugAction → Prop
  | .off c | .refuse c => w.call = some (.down c)
  | .downTimeout => ∀ c, w.call = some (.down c) → w.power c ≠ .off ∧ w.power c ≠ .parked
  | .up _ _ | .upSeen | .upTimeout | .down _ | .downSeen | .downReturn | .irq _ | .read _ | .publish _ => True

/-- A core on its way up has no bit yet, and one that is on has it; a core that is being taken down
keeps it until it is seen to be off. -/
structure HotplugWorld.Ok (w : HotplugWorld) : Prop where
  starting : ∀ c, w.power c = .starting → c ∉ w.mask
  powered : ∀ c, w.power c ≠ .off → w.power c ≠ .starting → c ∈ w.mask
  target : ∀ c, w.call = some (.down c) → c ∈ w.mask

/-- A core whose bit is set while it is off, or that is parked, is being taken down. -/
def HotplugWorld.Settled (w : HotplugWorld) : Prop :=
  ∀ c, w.call ≠ some (.down c) → (w.power c = .off → c ∉ w.mask) ∧ w.power c ≠ .parked

/-- What a step does to the mask, to the cores and to the call in progress. -/
inductive HotplugMove (w t : HotplugWorld) : HotplugAction → Prop where
  | refused (a : HotplugAction) (ha : (∃ core r, a = .up core r) ∨ ∃ core, a = .down core) (hcall : w.call = none)
      (hmask : t.mask = w.mask) (hpower : t.power = w.power) (hcall' : t.call = none) : HotplugMove w t a
  | up (core : ℕ) (r : ℤ) (c : Core) (hcall : w.call = none) (hoff : w.power c = .off) (hclear : c ∉ w.mask)
      (hmask : t.mask = w.mask) (hpower : t.power = Function.update w.power c .starting)
      (hcall' : t.call = some (.up c)) : HotplugMove w t (.up core r)
  | upEnds (a : HotplugAction) (ha : a = .upSeen ∨ a = .upTimeout) (c : Core) (hcall : w.call = some (.up c))
      (hmask : t.mask = w.mask) (hpower : t.power = w.power) (hcall' : t.call = none) : HotplugMove w t a
  | down (core : ℕ) (c : Core) (hcall : w.call = none) (hmem : c ∈ w.mask) (hmask : t.mask = w.mask)
      (hpower : t.power = w.power) (hcall' : t.call = some (.down c)) : HotplugMove w t (.down core)
  | downSeen (c : Core) (hcall : w.call = some (.down c)) (hoff : w.power c = .off) (hmask : t.mask = w.mask.erase c)
      (hpower : t.power = w.power) (hcall' : t.call = some (.clearing c)) : HotplugMove w t .downSeen
  | downTimeout (c : Core) (hcall : w.call = some (.down c)) (hmask : t.mask = w.mask) (hpower : t.power = w.power)
      (hcall' : t.call = none) : HotplugMove w t .downTimeout
  | downReturn (c : Core) (hcall : w.call = some (.clearing c)) (hmask : t.mask = w.mask) (hpower : t.power = w.power)
      (hcall' : t.call = none) : HotplugMove w t .downReturn
  | handler (a : HotplugAction) (c : Core) (ha : a = .irq c ∨ a = .read c) (p : CorePower)
      (hold : w.power c = .running ∨ w.power c = .asked) (hnew : p = .running ∨ p = .asked ∨ p = .leaving)
      (hmask : t.mask = w.mask) (hpower : t.power = Function.update w.power c p) (hcall : t.call = w.call) :
      HotplugMove w t a
  | off (c : Core) (hold : w.power c = .leaving) (hmask : t.mask = w.mask)
      (hpower : t.power = Function.update w.power c .off) (hcall : t.call = w.call) : HotplugMove w t (.off c)
  | refuse (c : Core) (hold : w.power c = .leaving) (hmask : t.mask = w.mask)
      (hpower : t.power = Function.update w.power c .parked) (hcall : t.call = w.call) : HotplugMove w t (.refuse c)
  | publish (c : Core) (hold : w.power c = .starting) (hmask : t.mask = insert c w.mask)
      (hpower : t.power = Function.update w.power c .running) (hcall : t.call = w.call) : HotplugMove w t (.publish c)

theorem smpUp_move (w : HotplugWorld) (core : ℕ) (r : ℤ) (hcall : w.call = none) (hanswer : w.CanAnswer core r) :
    HotplugMove w (smpUp w core r) (.up core r) := by
  have hrefused : ∀ e, HotplugMove w (w.return e) (.up core r) :=
    fun e => .refused _ (.inl ⟨core, r, rfl⟩) hcall rfl rfl rfl
  unfold smpUp
  split_ifs with hlt hzero hmask hr
  · exact hrefused _
  · exact hrefused _
  · exact hrefused _
  · exact .up core r ⟨core, hlt⟩ hcall (hanswer (not_not.mp hr) hlt) hmask rfl rfl rfl
  · exact hrefused _

theorem smpDown_move (w : HotplugWorld) (core : ℕ) (hcall : w.call = none) :
    HotplugMove w (smpDown w core) (.down core) := by
  have hrefused : ∀ e, HotplugMove w (w.return e) (.down core) :=
    fun e => .refused _ (.inr ⟨core, rfl⟩) hcall rfl rfl rfl
  unfold smpDown
  split_ifs with hlt hzero hmask
  · exact hrefused _
  · exact .down core ⟨core, hlt⟩ hcall hmask rfl rfl rfl
  · exact hrefused _
  · exact hrefused _

theorem affinityInfo_eq_one {p : CorePower} : affinityInfo p = 1 ↔ p = .off := by
  cases p <;> decide

theorem callStep_move {w t : HotplugWorld} {a : HotplugAction} (h : w.call.bind (callStep w a) = some t) :
    HotplugMove w t a := by
  obtain ⟨call, hcall, hstep⟩ := Option.bind_eq_some_iff.mp h
  cases call with
  | up c =>
    cases a with
    | upSeen =>
      simp only [callStep] at hstep
      split_ifs at hstep
      obtain rfl := Option.some.inj hstep
      exact .upEnds _ (.inl rfl) c hcall rfl rfl rfl
    | upTimeout =>
      obtain rfl := Option.some.inj hstep
      exact .upEnds _ (.inr rfl) c hcall rfl rfl rfl
    | up | down | downSeen | downTimeout | downReturn | irq | read | off | refuse | publish => cases hstep
  | down c =>
    cases a with
    | downSeen =>
      simp only [callStep] at hstep
      split_ifs at hstep with hoff
      obtain rfl := Option.some.inj hstep
      exact .downSeen c hcall (affinityInfo_eq_one.mp hoff) rfl rfl rfl
    | downTimeout =>
      obtain rfl := Option.some.inj hstep
      exact .downTimeout c hcall rfl rfl rfl
    | up | down | upSeen | upTimeout | downReturn | irq | read | off | refuse | publish => cases hstep
  | clearing c =>
    cases a with
    | downReturn =>
      obtain rfl := Option.some.inj hstep
      exact .downReturn c hcall rfl rfl rfl
    | up | down | upSeen | upTimeout | downSeen | downTimeout | irq | read | off | refuse | publish => cases hstep

theorem coreStep_move {w t : HotplugWorld} {a : HotplugAction} {c : Core}
    (ha : a = .irq c ∨ a = .read c ∨ a = .off c ∨ a = .refuse c ∨ a = .publish c)
    (h : coreStep w c a (w.power c) = some t) : HotplugMove w t a := by
  cases hpower : w.power c with
  | running =>
    rw [hpower] at h
    obtain rfl | rfl | rfl | rfl | rfl := ha
    · simp only [coreStep] at h
      split_ifs at h
      obtain rfl := Option.some.inj h
      exact .handler _ c (.inl rfl) .asked (.inl hpower) (.inr (.inl rfl)) rfl rfl rfl
    all_goals cases h
  | asked =>
    rw [hpower] at h
    obtain rfl | rfl | rfl | rfl | rfl := ha
    · cases h
    · obtain rfl := Option.some.inj h
      refine .handler _ c (.inr rfl) _ (.inr hpower) ?_ rfl rfl rfl
      split_ifs
      · exact .inr (.inr rfl)
      · exact .inl rfl
    all_goals cases h
  | leaving =>
    rw [hpower] at h
    obtain rfl | rfl | rfl | rfl | rfl := ha
    · cases h
    · cases h
    · obtain rfl := Option.some.inj h
      exact .off c hpower rfl rfl rfl
    · obtain rfl := Option.some.inj h
      exact .refuse c hpower rfl rfl rfl
    · cases h
  | starting =>
    rw [hpower] at h
    obtain rfl | rfl | rfl | rfl | rfl := ha
    · cases h
    · cases h
    · cases h
    · cases h
    · obtain rfl := Option.some.inj h
      exact .publish c hpower rfl rfl rfl
  | off | parked =>
    rw [hpower] at h
    obtain rfl | rfl | rfl | rfl | rfl := ha
    all_goals cases h

theorem hotplugStep_move {w t : HotplugWorld} {a : HotplugAction} (h : hotplugStep w a = some t) :
    HotplugMove w t a := by
  cases a with
  | up core r =>
    simp only [hotplugStep] at h
    split_ifs at h with hready
    obtain rfl := Option.some.inj h
    exact smpUp_move w core r hready.1 hready.2
  | down core =>
    simp only [hotplugStep] at h
    split_ifs at h with hready
    obtain rfl := Option.some.inj h
    exact smpDown_move w core hready
  | upSeen | upTimeout | downSeen | downTimeout | downReturn => exact callStep_move h
  | irq c => exact coreStep_move (.inl rfl) h
  | read c => exact coreStep_move (.inr (.inl rfl)) h
  | off c => exact coreStep_move (.inr (.inr (.inl rfl))) h
  | refuse c => exact coreStep_move (.inr (.inr (.inr (.inl rfl)))) h
  | publish c => exact coreStep_move (.inr (.inr (.inr (.inr rfl)))) h

theorem hotplugBoot_ok (online : Finset Core) : (hotplugBoot online).Ok where
  starting := by
    intro c hc
    simp only [hotplugBoot] at hc
    split_ifs at hc
  powered := by
    intro c hoff _
    by_contra hnot
    exact hoff (if_neg hnot)
  target := nofun

theorem hotplugBoot_settled (online : Finset Core) : (hotplugBoot online).Settled := by
  intro c _
  by_cases hc : c ∈ insert 0 online
  · have hrunning : (hotplugBoot online).power c = .running := if_pos hc
    exact ⟨fun hoff => absurd (hrunning.symm.trans hoff) nofun, fun hparked => absurd (hrunning.symm.trans hparked) nofun⟩
  · have hoff : (hotplugBoot online).power c = .off := if_neg hc
    exact ⟨fun _ => hc, fun hparked => absurd (hoff.symm.trans hparked) nofun⟩

section Move

variable {w t : HotplugWorld} {a : HotplugAction}

/-- A step touches the power and the bit of one core only. -/
theorem ok_of_core (hw : w.Ok) {c : Core}
    (hothers : ∀ d, d ≠ c → t.power d = w.power d ∧ (d ∈ t.mask ↔ d ∈ w.mask) ∧
      (t.call = some (.down d) → w.call = some (.down d)))
    (hstarting : t.power c = .starting → c ∉ t.mask)
    (hpowered : t.power c ≠ .off → t.power c ≠ .starting → c ∈ t.mask)
    (htarget : t.call = some (.down c) → c ∈ t.mask) : t.Ok where
  starting := by
    intro d hd
    by_cases hne : d = c
    · subst hne
      exact hstarting hd
    · obtain ⟨hpower, hmask, -⟩ := hothers d hne
      rw [hmask]
      exact hw.starting d (hpower ▸ hd)
  powered := by
    intro d hoff hnot
    by_cases hne : d = c
    · subst hne
      exact hpowered hoff hnot
    · obtain ⟨hpower, hmask, -⟩ := hothers d hne
      rw [hmask]
      exact hw.powered d (hpower ▸ hoff) (hpower ▸ hnot)
  target := by
    intro d hd
    by_cases hne : d = c
    · subst hne
      exact htarget hd
    · obtain ⟨-, hmask, hcall⟩ := hothers d hne
      rw [hmask]
      exact hw.target d (hcall hd)

theorem ok_of_same (hw : w.Ok) (hmask : t.mask = w.mask) (hpower : t.power = w.power)
    (htarget : ∀ c, t.call = some (.down c) → c ∈ w.mask) : t.Ok where
  starting := by
    rw [hmask, hpower]
    exact hw.starting
  powered := by
    rw [hmask, hpower]
    exact hw.powered
  target := by
    rw [hmask]
    exact htarget

/-- A step of core `c` leaves the other cores and the call alone. -/
theorem others_of_update {c : Core} {p : CorePower} (hmask : ∀ d, d ≠ c → (d ∈ t.mask ↔ d ∈ w.mask))
    (hpower : t.power = Function.update w.power c p) (hcall : t.call = w.call) :
    ∀ d, d ≠ c → t.power d = w.power d ∧ (d ∈ t.mask ↔ d ∈ w.mask) ∧
      (t.call = some (.down d) → w.call = some (.down d)) := by
  intro d hne
  rw [hpower, Function.update_of_ne hne, hcall]
  exact ⟨rfl, hmask d hne, id⟩

theorem HotplugMove.ok (hw : w.Ok) (h : HotplugMove w t a) : t.Ok := by
  cases h with
  | refused _ _ _ hmask hpower hcall' => exact ok_of_same hw hmask hpower (by rw [hcall']; nofun)
  | up core r c _ _ hclear hmask hpower hcall' =>
    refine ok_of_core (c := c) hw ?_ ?_ ?_ ?_
    · intro d hne
      rw [hpower, Function.update_of_ne hne, hmask, hcall']
      exact ⟨rfl, Iff.rfl, nofun⟩
    · intro _
      rw [hmask]
      exact hclear
    · intro _ hnot
      rw [hpower, Function.update_self] at hnot
      exact absurd rfl hnot
    · rw [hcall']
      nofun
  | upEnds _ _ _ _ hmask hpower hcall' => exact ok_of_same hw hmask hpower (by rw [hcall']; nofun)
  | down core c _ hmem hmask hpower hcall' =>
    refine ok_of_same hw hmask hpower fun d hd => ?_
    rw [hcall'] at hd
    cases hd
    exact hmem
  | downSeen c _ hoff hmask hpower hcall' =>
    refine ok_of_core (c := c) hw ?_ ?_ ?_ ?_
    · intro d hne
      rw [hpower, hmask, hcall', Finset.mem_erase]
      exact ⟨rfl, and_iff_right hne, nofun⟩
    · intro _
      rw [hmask]
      exact Finset.notMem_erase c _
    · intro hnot
      rw [hpower] at hnot
      exact absurd hoff hnot
    · rw [hcall']
      nofun
  | downTimeout _ _ hmask hpower hcall' => exact ok_of_same hw hmask hpower (by rw [hcall']; nofun)
  | downReturn _ _ hmask hpower hcall' => exact ok_of_same hw hmask hpower (by rw [hcall']; nofun)
  | handler _ c _ p hold hnew hmask hpower hcall =>
    have hmem : c ∈ w.mask := by
      apply hw.powered
      all_goals
        obtain hold | hold := hold <;> rw [hold] <;> nofun
    refine ok_of_core (c := c) hw (others_of_update (fun d _ => by rw [hmask]) hpower hcall) ?_ ?_ ?_
    · rw [hpower, Function.update_self]
      rintro rfl
      obtain hnew | hnew | hnew := hnew <;> cases hnew
    · intro _ _
      rwa [hmask]
    · intro _
      rwa [hmask]
  | off c hold hmask hpower hcall =>
    have hmem : c ∈ w.mask := hw.powered c (by rw [hold]; nofun) (by rw [hold]; nofun)
    refine ok_of_core (c := c) hw (others_of_update (fun d _ => by rw [hmask]) hpower hcall) ?_ ?_ ?_
    · rw [hpower, Function.update_self]
      nofun
    · intro _ _
      rwa [hmask]
    · intro _
      rwa [hmask]
  | refuse c hold hmask hpower hcall =>
    have hmem : c ∈ w.mask := hw.powered c (by rw [hold]; nofun) (by rw [hold]; nofun)
    refine ok_of_core (c := c) hw (others_of_update (fun d _ => by rw [hmask]) hpower hcall) ?_ ?_ ?_
    · rw [hpower, Function.update_self]
      nofun
    · intro _ _
      rwa [hmask]
    · intro _
      rwa [hmask]
  | publish c hold hmask hpower hcall =>
    have hmem : c ∈ t.mask := hmask ▸ Finset.mem_insert_self c w.mask
    have hothers : ∀ d, d ≠ c → (d ∈ t.mask ↔ d ∈ w.mask) := by
      intro d hne
      rw [hmask, Finset.mem_insert, or_iff_right hne]
    refine ok_of_core (c := c) hw (others_of_update hothers hpower hcall) ?_ ?_ ?_
    · rw [hpower, Function.update_self]
      nofun
    · exact fun _ _ => hmem
    · exact fun _ => hmem

/-- Which of two calls is in progress makes no difference to a core that neither of them takes down. -/
theorem settled_same (hmask : t.mask = w.mask) (hpower : t.power = w.power)
    (hcall : ∀ c, t.call ≠ some (.down c) → w.call ≠ some (.down c)) (hs : w.Settled) : t.Settled := by
  intro c hc
  rw [hmask, hpower]
  exact hs c (hcall c hc)

/-- A core that has moved is settled when the others were and it is. -/
theorem settled_update (hs : w.Settled) {c : Core} {p : CorePower} (hmask : ∀ d, d ≠ c → (d ∈ t.mask ↔ d ∈ w.mask))
    (hpower : t.power = Function.update w.power c p) (hcall : t.call = w.call)
    (hown : w.call ≠ some (.down c) → (p = .off → c ∉ t.mask) ∧ p ≠ .parked) : t.Settled := by
  intro d hd
  rw [hcall] at hd
  by_cases hne : d = c
  · subst hne
    rw [hpower, Function.update_self]
    exact hown hd
  · rw [hpower, Function.update_of_ne hne, hmask d hne]
    exact hs d hd

/-- A step leaves a bit behind exactly when nobody watches the core leave. -/
theorem HotplugMove.settled_iff (hw : w.Ok) (hs : w.Settled) (h : HotplugMove w t a) : t.Settled ↔ Watched w a := by
  cases h with
  | refused _ ha hcall hmask hpower _ =>
    have hsettled : t.Settled := settled_same hmask hpower (fun c _ => by rw [hcall]; nofun) hs
    obtain ⟨core, r, rfl⟩ | ⟨core, rfl⟩ := ha
    · exact iff_of_true hsettled trivial
    · exact iff_of_true hsettled trivial
  | up core r c hcall _ _ hmask hpower _ =>
    refine iff_of_true (fun d _ => ?_) trivial
    have hd := hs d (by rw [hcall]; nofun)
    rw [hmask, hpower]
    by_cases hne : d = c
    · subst hne
      rw [Function.update_self]
      exact ⟨nofun, nofun⟩
    · rw [Function.update_of_ne hne]
      exact hd
  | upEnds _ ha c hcall hmask hpower _ =>
    have hsettled : t.Settled := settled_same hmask hpower (fun d _ => by rw [hcall]; nofun) hs
    obtain rfl | rfl := ha
    · exact iff_of_true hsettled trivial
    · exact iff_of_true hsettled trivial
  | down core c hcall _ hmask hpower _ =>
    exact iff_of_true (settled_same hmask hpower (fun d _ => by rw [hcall]; nofun) hs) trivial
  | downSeen c hcall hoff hmask hpower _ =>
    refine iff_of_true (fun d _ => ?_) trivial
    rw [hmask, hpower]
    by_cases hne : d = c
    · subst hne
      exact ⟨fun _ => Finset.notMem_erase d _, by rw [hoff]; nofun⟩
    · obtain ⟨hclear, hparked⟩ := hs d (by rw [hcall]; rintro ⟨⟩; exact hne rfl)
      exact ⟨fun hd hmem => hclear hd (Finset.mem_of_mem_erase hmem), hparked⟩
  | downTimeout c hcall hmask hpower hcall' =>
    have hmem : c ∈ t.mask := hmask ▸ hw.target c hcall
    constructor
    · intro hsettled d hd
      obtain rfl : c = d := by rw [hcall] at hd; cases hd; rfl
      obtain ⟨hclear, hparked⟩ := hsettled c (by rw [hcall']; nofun)
      rw [hpower] at hclear hparked
      exact ⟨fun hoff => hclear hoff hmem, hparked⟩
    · intro hwatched d _
      rw [hmask, hpower]
      by_cases hne : d = c
      · subst hne
        obtain ⟨hoff, hparked⟩ := hwatched d hcall
        exact ⟨fun h => absurd h hoff, hparked⟩
      · exact hs d (by rw [hcall]; rintro ⟨⟩; exact hne rfl)
  | downReturn c hcall hmask hpower _ =>
    exact iff_of_true (settled_same hmask hpower (fun d _ => by rw [hcall]; nofun) hs) trivial
  | handler _ c ha p _ hnew hmask hpower hcall =>
    have hsettled : t.Settled := by
      refine settled_update hs (fun d _ => by rw [hmask]) hpower hcall fun _ => ?_
      obtain rfl | rfl | rfl := hnew
      all_goals exact ⟨nofun, nofun⟩
    obtain rfl | rfl := ha
    · exact iff_of_true hsettled trivial
    · exact iff_of_true hsettled trivial
  | off c hold hmask hpower hcall =>
    have hmem : c ∈ t.mask := hmask ▸ hw.powered c (by rw [hold]; nofun) (by rw [hold]; nofun)
    constructor
    · intro hsettled
      by_contra hnot
      have hclear := (hsettled c (by rwa [hcall])).1
      rw [hpower, Function.update_self] at hclear
      exact hclear rfl hmem
    · exact fun hwatched => settled_update hs (fun d _ => by rw [hmask]) hpower hcall fun hnot => absurd hwatched hnot
  | refuse c _ hmask hpower hcall =>
    constructor
    · intro hsettled
      by_contra hnot
      have hparked := (hsettled c (by rwa [hcall])).2
      rw [hpower, Function.update_self] at hparked
      exact hparked rfl
    · exact fun hwatched => settled_update hs (fun d _ => by rw [hmask]) hpower hcall fun hnot => absurd hwatched hnot
  | publish c _ hmask hpower hcall =>
    have hothers : ∀ d, d ≠ c → (d ∈ t.mask ↔ d ∈ w.mask) := by
      intro d hne
      rw [hmask, Finset.mem_insert, or_iff_right hne]
    exact iff_of_true (settled_update hs hothers hpower hcall fun _ => ⟨nofun, nofun⟩) trivial

end Move

/-- A bit that is left behind is a lie of the mask about one core. -/
theorem settled_iff_truthfulEach {w : HotplugWorld} (hw : w.Ok) : w.Settled ↔ w.TruthfulEach := by
  constructor
  · intro hs c hcall hpending
    obtain ⟨hclear, hparked⟩ := hs c hcall
    cases hpower : w.power c with
    | off => exact iff_of_false (hclear hpower) nofun
    | running => exact iff_of_true (hw.powered c (by rw [hpower]; nofun) (by rw [hpower]; nofun)) rfl
    | starting => exact absurd (.inl hpower) hpending
    | asked => exact absurd (.inr (.inl hpower)) hpending
    | leaving => exact absurd (.inr (.inr (.inl hpower))) hpending
    | parked => exact absurd hpower hparked
  · intro htruthful c hcall
    have hpending : ∀ p, w.power c = p → p = .off ∨ p = .parked → ¬ w.Pending c := by
      rintro p hp (rfl | rfl) hpending
      all_goals
        simp only [HotplugWorld.Pending, hp, reduceCtorEq, false_or, false_and] at hpending
    constructor
    · intro hoff hmem
      cases hoff.symm.trans ((htruthful c hcall (hpending _ hoff (.inl rfl))).mp hmem)
    · intro hparked
      have hmem := hw.powered c (by rw [hparked]; nofun) (by rw [hparked]; nofun)
      cases hparked.symm.trans ((htruthful c hcall (hpending _ hparked (.inr rfl))).mp hmem)

/-- The bits tell the truth about each core throughout a run exactly when every core that leaves is
watched. -/
theorem truthfulEach_iff_watched (online : Finset Core) (as : List HotplugAction) (w : HotplugWorld)
    (h : run hotplugStep (hotplugBoot online) as = some w) :
    Throughout hotplugStep HotplugWorld.TruthfulEach (hotplugBoot online) as ↔
      Along hotplugStep Watched (hotplugBoot online) as := by
  have hboot := hotplugBoot_ok online
  have htruthful := (settled_iff_truthfulEach hboot).mp (hotplugBoot_settled online)
  refine throughout_iff_along (A := fun _ => True) (fun _ _ _ _ hok hstep => (hotplugStep_move hstep).ok hok) ?_
    (fun _ _ => trivial) hboot htruthful h
  intro s a t _ hok hs hstep
  have hmove := hotplugStep_move hstep
  rw [← settled_iff_truthfulEach (hmove.ok hok)]
  exact hmove.settled_iff hok ((settled_iff_truthfulEach hok).mpr hs)

/-- In a run in which every core that leaves is watched, the mask names the cores that run whenever
nothing is going on. -/
theorem online_mask_truthful (online : Finset Core) (as : List HotplugAction) (w : HotplugWorld)
    (hwatched : Along hotplugStep Watched (hotplugBoot online) as)
    (h : run hotplugStep (hotplugBoot online) as = some w) : w.Truthful := by
  intro hcall hquiet c
  have hall := (truthfulEach_iff_watched online as w h).mpr hwatched
  exact hall as List.prefix_rfl w h c (by rw [hcall]; nofun) (hquiet c)

instance (w : HotplugWorld) : ∀ a, Decidable (Watched w a)
  | .off _ | .refuse _ => inferInstanceAs (Decidable (_ = _))
  | .downTimeout => inferInstanceAs (Decidable (∀ c, w.call = some (.down c) → _))
  | .up _ _ | .upSeen | .upTimeout | .down _ | .downSeen | .downReturn | .irq _ | .read _ | .publish _ => isTrue trivial

/-- Core 1 is taken down and brought up again; a second request for it is given up before it is read. -/
def downAndUp : List HotplugAction :=
  [.down 1, .irq 1, .read 1, .off 1, .downSeen, .downReturn, .up 1 0, .publish 1, .upSeen,
    .down 1, .downTimeout, .irq 1, .read 1]

theorem online_mask_truthful_cycle : ∃ w, run hotplugStep (hotplugBoot {1}) downAndUp = some w ∧ w.Truthful := by
  obtain ⟨w, hw⟩ : ∃ w, run hotplugStep (hotplugBoot {1}) downAndUp = some w :=
    Option.isSome_iff_exists.mp (by rfl)
  exact ⟨w, hw, online_mask_truthful {1} downAndUp w (by decide) hw⟩

/-- The requester gives up after core 1 has read the request. -/
def lateTimeout : List HotplugAction := [.down 1, .irq 1, .read 1, .downTimeout, .off 1]

theorem online_mask_lies : ¬ ∀ (online : Finset Core) (as : List HotplugAction) (w : HotplugWorld),
    run hotplugStep (hotplugBoot online) as = some w → w.Truthful := by
  intro hclaim
  obtain ⟨w, hw, hcall, hquiet, hmem, hoff⟩ : ∃ w ∈ run hotplugStep (hotplugBoot {1}) lateTimeout,
      w.call = none ∧ (∀ c, ¬ w.Pending c) ∧ 1 ∈ w.mask ∧ w.power 1 = .off := by
    decide
  cases hoff.symm.trans ((hclaim {1} lateTimeout w hw hcall hquiet 1).mp hmem)

end HouseKernel.Smp
