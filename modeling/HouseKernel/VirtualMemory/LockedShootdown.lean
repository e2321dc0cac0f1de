import HouseKernel.VirtualMemory.Shootdown

/-! Shootdowns under `VM_LOCK`. `house_vm_munmap` and `house_vm_mprotect` hold the lock while they
wait in `house_tlb_shootdown`, and `house_handle_user_fault` spins on it with interrupts masked. A
waiting core and a spinning core that it waits for hold each other up for good. -/
namespace HouseKernel.VirtualMemory

open HouseKernel.Lib

inductive LockedCall where
  | munmap
  | mprotect
  deriving DecidableEq

/-- What a core is doing. A call is followed from the spin on `VM_LOCK` on, with the pages that its
loop has still to visit and, inside `house_tlb_shootdown`, the call of that function. -/
inductive CoreActivity where
  | elsewhere
  | spinning (f : LockedCall) (pages : ℕ)
  | holding (f : LockedCall) (pages : ℕ)
  | shooting (f : LockedCall) (pages : ℕ) (id : ℕ)
  | faultSpinning
  | faultHolding
  deriving DecidableEq

/-- A fault handler is entered by an exception, which masks interrupts. -/
def CoreActivity.masked : CoreActivity → Bool
  | .faultSpinning | .faultHolding => true
  | .elsewhere | .spinning _ _ | .holding _ _ | .shooting _ _ _ => false

def CoreActivity.locked : CoreActivity → Bool
  | .holding _ _ | .shooting _ _ _ | .faultHolding => true
  | .elsewhere | .spinning _ _ | .faultSpinning => false

structure LockWorld where
  tlb : TlbWorld
  lock : Option Core
  activity : Core → CoreActivity

inductive LockAction where
  | enter (c : Core) (f : LockedCall) (pages : ℕ)
  | fault (c : Core)
  | acquire (c : Core)
  /-- The loop looks at its next page, or ends; `id` names the shootdown if there is one. -/
  | page (c : Core) (id : ℕ) (mapped : Bool)
  | shoot (c : Core)
  | next (c : Core)
  | served (c : Core)
  | irq (c : Core)
  | flush (c : Core)
  | publish (c : Core)
  | offline (c : Core)
  | online (c : Core)
  deriving DecidableEq

/-- The core goes on with its own code: it is online and in no interrupt handler. -/
def LockWorld.Runs (w : LockWorld) (c : Core) : Prop := c ∈ w.tlb.online ∧ w.tlb.handler c = .idle

instance (w : LockWorld) (c : Core) : Decidable (w.Runs c) := inferInstanceAs (Decidable (_ ∧ _))

def LockWorld.put (w : LockWorld) (c : Core) (d : CoreActivity) : LockWorld :=
  { w with activity := Function.update w.activity c d }

def LockWorld.unlock (w : LockWorld) (c : Core) : LockWorld := { w with lock := none }.put c .elsewhere

def LockWorld.withTlb (w : LockWorld) (a : TlbAction) : Option LockWorld :=
  (tlbStep w.tlb a).map fun tlb => { w with tlb := tlb }

def acquireStep (w : LockWorld) (c : Core) : CoreActivity → Option LockWorld
  | .spinning f pages => some ({ w with lock := some c }.put c (.holding f pages))
  | .faultSpinning => some ({ w with lock := some c }.put c .faultHolding)
  | .elsewhere | .holding _ _ | .shooting _ _ _ | .faultHolding => none

/-- One round of the loop of the two calls. A page that is not mapped is passed over by `munmap` and
ends `mprotect` with `EINVAL`. -/
def pageStep (w : LockWorld) (c : Core) (id : ℕ) (mapped : Bool) : CoreActivity → Option LockWorld
  | .holding _ 0 => some (w.unlock c)
  | .holding f (pages + 1) =>
    if mapped then (w.withTlb (.call id c)).map (·.put c (.shooting f pages id))
    else if f = .munmap then some (w.put c (.holding f pages))
    else some (w.unlock c)
  | .elsewhere | .spinning _ _ | .shooting _ _ _ | .faultSpinning | .faultHolding => none

def shootStep (w : LockWorld) : CoreActivity → Option LockWorld
  | .shooting _ _ id => w.withTlb (.step id)
  | .elsewhere | .spinning _ _ | .holding _ _ | .faultSpinning | .faultHolding => none

def nextStep (w : LockWorld) (c : Core) : CoreActivity → Option LockWorld
  | .shooting f pages id =>
    if (w.tlb.calls id).map (·.phase) = some .returned then some (w.put c (.holding f pages)) else none
  | .elsewhere | .spinning _ _ | .holding _ _ | .faultSpinning | .faultHolding => none

def lockStep (w : LockWorld) : LockAction → Option LockWorld
  | .enter c f pages =>
    if w.Runs c ∧ w.activity c = .elsewhere then some (w.put c (.spinning f pages)) else none
  | .fault c => if w.Runs c ∧ w.activity c = .elsewhere then some (w.put c .faultSpinning) else none
  | .acquire c => if w.Runs c ∧ w.lock = none then acquireStep w c (w.activity c) else none
  | .page c id mapped => if w.Runs c then pageStep w c id mapped (w.activity c) else none
  | .shoot c => if w.Runs c then shootStep w (w.activity c) else none
  | .next c => if w.Runs c then nextStep w c (w.activity c) else none
  | .served c => if w.Runs c ∧ w.activity c = .faultHolding then some (w.unlock c) else none
  | .irq c => if c ∈ w.tlb.online ∧ (w.activity c).masked = false then w.withTlb (.irq c) else none
  | .flush c => w.withTlb (.flush c)
  | .publish c => w.withTlb (.publish c)
  -- a core is taken down from an interrupt, too, and comes up again with nothing to do
  | .offline c => if w.Runs c ∧ (w.activity c).masked = false then w.withTlb (.offline c) else none
  | .online c =>
    if c ∉ w.tlb.online then (w.withTlb (.online c)).map (·.put c .elsewhere) else none

def lockBoot (online : Finset Core) : LockWorld := ⟨tlbBoot online, none, fun _ => .elsewhere⟩

/-- The call waits for the acknowledgement of `p`, which has not come yet. -/
def ShootdownPhase.Awaits (ack : Core → BitVec 32) (p : Core) : ShootdownPhase → Prop
  | .waiting seq _ pending => p ∈ pending ∧ ackSatisfies (ack p) seq = false
  | .masked _ | .sending _ _ _ _ | .returned => False

/-- The call has sent its interrupts, and its next step is to wait for `p`. -/
def ShootdownPhase.TurnsTo (ack : Core → BitVec 32) (p : Core) : ShootdownPhase → Prop
  | .sending seq _ [] pending => p ∈ pending ∧ ackSatisfies (ack p) seq = false
  | .sending _ _ (_ :: _) _ | .masked _ | .waiting _ _ _ | .returned => False

/-- The call that a core is in has the property. -/
def CoreActivity.InCall (tlb : TlbWorld) (P : ShootdownPhase → Prop) : CoreActivity → Prop
  | .shooting _ _ id => ∃ call ∈ tlb.calls id, P call.phase
  | .elsewhere | .spinning _ _ | .holding _ _ | .faultSpinning | .faultHolding => False

def LockWorld.Awaits (w : LockWorld) (c p : Core) : Prop :=
  (w.activity c).InCall w.tlb (ShootdownPhase.Awaits w.tlb.ack p)

/-- Core `c` waits under `VM_LOCK` for core `p`, which spins on that lock and takes no interrupt. -/
structure LockWorld.Pinned (w : LockWorld) (c p : Core) : Prop where
  waiter : c ∈ w.tlb.online
  peer : p ∈ w.tlb.online
  awaits : w.Awaits c p
  spins : w.activity p = .faultSpinning

def LockWorld.Deadlocked (w : LockWorld) : Prop := ∃ c p, w.Pinned c p

/-- A fault is not taken on a core that a holder of `VM_LOCK` waits for, and a holder does not turn
to wait for a core that is spinning in the fault handler. -/
def Unpinning (w : LockWorld) : LockAction → Prop
  | .fault p => ∀ c ∈ w.tlb.online, ¬ w.Awaits c p
  | .shoot c => ∀ p ∈ w.tlb.online, w.activity p = .faultSpinning →
    ¬ (w.activity c).InCall w.tlb (ShootdownPhase.TurnsTo w.tlb.ack p)
  | .enter _ _ _ | .acquire _ | .page _ _ _ | .next _ | .served _ | .irq _ | .flush _ | .publish _
  | .offline _ | .online _ => True

/-- The lock is held by the one core that is past it, and an interrupt handler runs on no core that
masks interrupts. -/
structure LockWorld.Ok (w : LockWorld) : Prop where
  lock : ∀ c, (w.activity c).locked = true → w.lock = some c
  handler : ∀ c, w.tlb.handler c ≠ .idle → (w.activity c).masked = false

@[simp] theorem put_self (w : LockWorld) (c : Core) (d : CoreActivity) : (w.put c d).activity c = d :=
  Function.update_self _ _ _

theorem put_of_ne (w : LockWorld) {c e : Core} (d : CoreActivity) (h : e ≠ c) :
    (w.put c d).activity e = w.activity e := Function.update_of_ne h _ _

@[simp] theorem put_tlb (w : LockWorld) (c : Core) (d : CoreActivity) : (w.put c d).tlb = w.tlb := rfl

@[simp] theorem put_lock (w : LockWorld) (c : Core) (d : CoreActivity) : (w.put c d).lock = w.lock := rfl

theorem lockBoot_ok (online : Finset Core) : (lockBoot online).Ok where
  lock := nofun
  handler := fun _ _ => rfl

theorem withTlb_eq_some {w t : LockWorld} {a : TlbAction} (h : w.withTlb a = some t) :
    ∃ tlb, tlbStep w.tlb a = some tlb ∧ t = { w with tlb := tlb } := by
  obtain ⟨tlb, htlb, rfl⟩ := Option.map_eq_some_iff.mp h
  exact ⟨tlb, htlb, rfl⟩

/-- A core changes what it does, and with it who holds the lock. -/
theorem ok_put {w : LockWorld} (hw : w.Ok) {c : Core} {d : CoreActivity} {lock : Option Core}
    (hothers : ∀ e, e ≠ c → (w.activity e).locked = true → lock = some e)
    (hown : d.locked = true → lock = some c) (hmask : d.masked = true → w.tlb.handler c = .idle) :
    ({ w with lock := lock }.put c d).Ok where
  lock := by
    intro e he
    by_cases hne : e = c
    · subst hne
      rw [put_self] at he
      exact hown he
    · rw [put_of_ne _ _ hne] at he
      exact hothers e hne he
  handler := by
    intro e he
    by_cases hne : e = c
    · subst hne
      rw [put_self]
      by_contra hmasked
      exact he (hmask (by simpa using hmasked))
    · rw [put_of_ne _ _ hne]
      exact hw.handler e he

/-- Nobody else is past the lock of a core. -/
theorem LockWorld.Ok.others {w : LockWorld} (hw : w.Ok) {c : Core} (hc : (w.activity c).locked = true)
    (lock : Option Core) : ∀ e, e ≠ c → (w.activity e).locked = true → lock = some e := by
  intro e hne he
  have hsame : some e = some c := (hw.lock e he).symm.trans (hw.lock c hc)
  exact absurd (Option.some.inj hsame) hne

/-- Nobody is past a lock that is free. -/
theorem LockWorld.Ok.free_others {w : LockWorld} (hw : w.Ok) (hfree : w.lock = none) {c : Core} :
    ∀ e, e ≠ c → (w.activity e).locked = true → some c = some e := by
  intro e _ he
  have hheld := hw.lock e he
  rw [hfree] at hheld
  cases hheld

/-- A core that does not touch the lock. -/
theorem ok_put_same {w : LockWorld} (hw : w.Ok) {c : Core} {d : CoreActivity}
    (hown : d.locked = true → w.lock = some c) (hmask : d.masked = true → w.tlb.handler c = .idle) :
    (w.put c d).Ok :=
  ok_put hw (fun e _ he => hw.lock e he) hown hmask

theorem ok_unlock {w : LockWorld} (hw : w.Ok) {c : Core} (hc : (w.activity c).locked = true) : (w.unlock c).Ok :=
  ok_put hw (hw.others hc none) nofun nofun

/-- A step of a call moves that call only. It waits afterwards for the peers that it waited for or
turned to. -/
structure ShootdownMove (w t : TlbWorld) (id : ℕ) (call : ShootdownCall) : Prop where
  handler : t.handler = w.handler
  online : t.online = w.online
  ack : t.ack = w.ack
  calls : ∃ call', t.calls = Function.update w.calls id (some call') ∧ ∀ p ∈ w.online,
    (call'.phase.Awaits w.ack p ↔ call.phase.Awaits w.ack p ∨ call.phase.TurnsTo w.ack p)

theorem awaits_returned_or_waiting (ack : Core → BitVec 32) (p : Core) (seq : BitVec 32) (pending : Finset Core) :
    (if pending = ∅ then ShootdownPhase.returned else .waiting seq (List.finRange 32) pending).Awaits ack p ↔
      p ∈ pending ∧ ackSatisfies (ack p) seq = false := by
  split_ifs with hnone
  · simp [ShootdownPhase.Awaits, hnone]
  · exact Iff.rfl

theorem shootdownStep_move {w t : TlbWorld} {id : ℕ} {call : ShootdownCall} (h : shootdownStep w id call = some t) :
    ShootdownMove w t id call := by
  obtain ⟨me, phase, gen, stayed, flushed⟩ := call
  cases phase with
  | masked mask =>
    obtain rfl := Option.some.inj h
    exact ⟨rfl, rfl, rfl, _, rfl, fun p _ => by simp [ShootdownPhase.Awaits, ShootdownPhase.TurnsTo]⟩
  | sending seq mask todo pending =>
    cases todo with
    | nil =>
      obtain rfl := Option.some.inj h
      refine ⟨rfl, rfl, rfl, _, rfl, fun p _ => ?_⟩
      rw [awaits_returned_or_waiting]
      simp [ShootdownPhase.Awaits, ShootdownPhase.TurnsTo]
    | cons d todo =>
      simp only [shootdownStep] at h
      split_ifs at h
      all_goals
        obtain rfl := Option.some.inj h
        exact ⟨rfl, rfl, rfl, _, rfl, fun p _ => by simp [ShootdownPhase.Awaits, ShootdownPhase.TurnsTo]⟩
  | waiting seq todo pending =>
    cases todo with
    | nil =>
      obtain rfl := Option.some.inj h
      refine ⟨rfl, rfl, rfl, _, rfl, fun p hp => ?_⟩
      rw [awaits_returned_or_waiting]
      simp [ShootdownPhase.Awaits, ShootdownPhase.TurnsTo, hp]
    | cons d todo =>
      obtain rfl := Option.some.inj h
      refine ⟨rfl, rfl, rfl, _, rfl, fun p _ => ?_⟩
      simp only [ShootdownPhase.Awaits, ShootdownPhase.TurnsTo, or_false]
      -- a peer is dropped only for an acknowledgement that has come
      split_ifs with hdrop
      · have hkept : ackSatisfies (w.ack p) seq = false → p ≠ d := by
          rintro hnot rfl
          rw [hdrop.2] at hnot
          cases hnot
        rw [Finset.mem_erase]
        exact ⟨fun hp => ⟨hp.1.2, hp.2⟩, fun hp => ⟨⟨hkept hp.2, hp.1⟩, hp.2⟩⟩
      · exact Iff.rfl
  | returned => cases h

/-- A step of the shootdown protocol starts a handler only where interrupts are open. -/
theorem ok_withTlb {w t : LockWorld} (hw : w.Ok) {a : TlbAction} (h : w.withTlb a = some t)
    (hirq : ∀ c, a = .irq c → (w.activity c).masked = false) : t.Ok := by
  obtain ⟨tlb, htlb, rfl⟩ := withTlb_eq_some h
  refine ⟨hw.lock, fun c hc => ?_⟩
  cases a with
  | irq e =>
    simp only [tlbStep] at htlb
    split_ifs at htlb
    cases htlb
    by_cases hne : c = e
    · subst hne
      exact hirq c rfl
    · simp only [Function.update_of_ne hne] at hc
      exact hw.handler c hc
  | call id me =>
    simp only [tlbStep] at htlb
    split_ifs at htlb
    cases htlb
    exact hw.handler c hc
  | step id =>
    obtain ⟨call, -, hstep⟩ := Option.bind_eq_some_iff.mp htlb
    exact hw.handler c (by rwa [(shootdownStep_move hstep).handler] at hc)
  | flush e =>
    simp only [tlbStep] at htlb
    split at htlb <;> cases htlb
    by_cases hne : c = e
    · subst hne
      exact hw.handler c (by simp [*])
    · simp only [Function.update_of_ne hne] at hc
      exact hw.handler c hc
  | publish e =>
    simp only [tlbStep] at htlb
    split at htlb <;> cases htlb
    by_cases hne : c = e
    · subst hne
      exact hw.handler c (by simp [*])
    · simp only [Function.update_of_ne hne] at hc
      exact hw.handler c hc
  | offline e =>
    cases htlb
    exact hw.handler c hc
  | online e =>
    cases htlb
    exact hw.handler c hc

/-- What a step can do, and when. -/
inductive LockMove (w : LockWorld) : LockAction → LockWorld → Prop
  | enter {c f pages} (hruns : w.Runs c) (hc : w.activity c = .elsewhere) :
    LockMove w (.enter c f pages) (w.put c (.spinning f pages))
  | fault {c} (hruns : w.Runs c) (hc : w.activity c = .elsewhere) : LockMove w (.fault c) (w.put c .faultSpinning)
  | acquire {c f pages} (hruns : w.Runs c) (hfree : w.lock = none) (hc : w.activity c = .spinning f pages) :
    LockMove w (.acquire c) ({ w with lock := some c }.put c (.holding f pages))
  | acquireFault {c} (hruns : w.Runs c) (hfree : w.lock = none) (hc : w.activity c = .faultSpinning) :
    LockMove w (.acquire c) ({ w with lock := some c }.put c .faultHolding)
  | leave {c id mapped f pages} (hc : w.activity c = .holding f pages) : LockMove w (.page c id mapped) (w.unlock c)
  | flush {c id f pages tlb} (hc : w.activity c = .holding f (pages + 1)) (hcall : tlbStep w.tlb (.call id c) = some tlb) :
    LockMove w (.page c id true) ({ w with tlb := tlb }.put c (.shooting f pages id))
  | skip {c id f pages} (hc : w.activity c = .holding f (pages + 1)) :
    LockMove w (.page c id false) (w.put c (.holding f pages))
  | shoot {c f pages id t} (hruns : w.Runs c) (hc : w.activity c = .shooting f pages id)
    (ht : w.withTlb (.step id) = some t) : LockMove w (.shoot c) t
  | next {c f pages id} (hc : w.activity c = .shooting f pages id)
    (hreturned : (w.tlb.calls id).map (·.phase) = some .returned) : LockMove w (.next c) (w.put c (.holding f pages))
  | served {c} (hc : w.activity c = .faultHolding) : LockMove w (.served c) (w.unlock c)
  | irq {c t} (hopen : (w.activity c).masked = false) (ht : w.withTlb (.irq c) = some t) : LockMove w (.irq c) t
  | flushed {c t} (ht : w.withTlb (.flush c) = some t) : LockMove w (.flush c) t
  | published {c t} (ht : w.withTlb (.publish c) = some t) : LockMove w (.publish c) t
  | offline {c t} (hopen : (w.activity c).masked = false) (ht : w.withTlb (.offline c) = some t) :
    LockMove w (.offline c) t
  | online {c t} (hoff : c ∉ w.tlb.online) (ht : w.withTlb (.online c) = some t) :
    LockMove w (.online c) (t.put c .elsewhere)

lemma acquireStep_move {w t : LockWorld} {c : Core} (hruns : w.Runs c) (hfree : w.lock = none)
    (h : acquireStep w c (w.activity c) = some t) : LockMove w (.acquire c) t := by
  cases hc : w.activity c with
  | spinning f pages =>
    rw [hc] at h
    obtain rfl := Option.some.inj h
    exact .acquire hruns hfree hc
  | faultSpinning =>
    rw [hc] at h
    obtain rfl := Option.some.inj h
    exact .acquireFault hruns hfree hc
  | elsewhere | holding | shooting | faultHolding =>
    rw [hc] at h
    cases h

lemma pageStep_move {w t : LockWorld} {c : Core} {id : ℕ} {mapped : Bool}
    (h : pageStep w c id mapped (w.activity c) = some t) : LockMove w (.page c id mapped) t := by
  cases hc : w.activity c with
  | holding f pages =>
    rw [hc] at h
    cases pages with
    | zero =>
      obtain rfl := Option.some.inj h
      exact .leave hc
    | succ pages =>
      simp only [pageStep] at h
      split_ifs at h with hmapped hmunmap
      · obtain ⟨u, hu, rfl⟩ := Option.map_eq_some_iff.mp h
        obtain ⟨tlb, hcall, rfl⟩ := withTlb_eq_some hu
        subst hmapped
        exact .flush hc hcall
      · obtain rfl := Option.some.inj h
        obtain rfl : mapped = false := by simpa using hmapped
        exact .skip hc
      · obtain rfl := Option.some.inj h
        exact .leave hc
  | elsewhere | spinning | shooting | faultSpinning | faultHolding =>
    rw [hc] at h
    cases h

/-- The steps are the moves. -/
theorem lockStep_move {w t : LockWorld} {a : LockAction} (h : lockStep w a = some t) : LockMove w a t := by
  cases a with
  | enter c f pages =>
    simp only [lockStep] at h
    split_ifs at h with hready
    obtain rfl := Option.some.inj h
    exact .enter hready.1 hready.2
  | fault c =>
    simp only [lockStep] at h
    split_ifs at h with hready
    obtain rfl := Option.some.inj h
    exact .fault hready.1 hready.2
  | acquire c =>
    simp only [lockStep] at h
    split_ifs at h with hready
    exact acquireStep_move hready.1 hready.2 h
  | page c id mapped =>
    simp only [lockStep] at h
    split_ifs at h
    exact pageStep_move h
  | shoot c =>
    simp only [lockStep] at h
    split_ifs at h with hruns
    cases hc : w.activity c with
    | shooting f pages id =>
      rw [hc] at h
      exact .shoot hruns hc h
    | elsewhere | spinning | holding | faultSpinning | faultHolding =>
      rw [hc] at h
      cases h
  | next c =>
    simp only [lockStep] at h
    split_ifs at h
    cases hc : w.activity c with
    | shooting f pages id =>
      rw [hc] at h
      simp only [nextStep] at h
      split_ifs at h with hreturned
      obtain rfl := Option.some.inj h
      exact .next hc hreturned
    | elsewhere | spinning | holding | faultSpinning | faultHolding =>
      rw [hc] at h
      cases h
  | served c =>
    simp only [lockStep] at h
    split_ifs at h with hready
    obtain rfl := Option.some.inj h
    exact .served hready.2
  | irq c =>
    simp only [lockStep] at h
    split_ifs at h with hready
    exact .irq hready.2 h
  | flush c => exact .flushed h
  | publish c => exact .published h
  | offline c =>
    simp only [lockStep] at h
    split_ifs at h with hready
    exact .offline hready.2 h
  | online c =>
    simp only [lockStep] at h
    split_ifs at h with hoff
    obtain ⟨u, hu, rfl⟩ := Option.map_eq_some_iff.mp h
    exact .online hoff hu

theorem lockStep_ok {w t : LockWorld} {a : LockAction} (hw : w.Ok) (h : lockStep w a = some t) : t.Ok := by
  cases lockStep_move h with
  | enter hruns hc => exact ok_put_same hw nofun nofun
  | fault hruns hc => exact ok_put_same hw nofun fun _ => hruns.2
  | @acquire c f pages hruns hfree hc => exact ok_put hw (hw.free_others hfree) (fun _ => rfl) nofun
  | @acquireFault c hruns hfree hc => exact ok_put hw (hw.free_others hfree) (fun _ => rfl) fun _ => hruns.2
  | leave hc => exact ok_unlock hw (by rw [hc]; rfl)
  | @flush c id f pages tlb hc hcall =>
    have hok : LockWorld.Ok { w with tlb := tlb } := ok_withTlb hw (by rw [LockWorld.withTlb, hcall]; rfl) fun _ he => by cases he
    exact ok_put_same hok (fun _ => hw.lock c (by rw [hc]; rfl)) nofun
  | @skip c id f pages hc => exact ok_put_same hw (fun _ => hw.lock c (by rw [hc]; rfl)) nofun
  | shoot hruns hc ht => exact ok_withTlb hw ht nofun
  | @next c f pages id hc hreturned => exact ok_put_same hw (fun _ => hw.lock c (by rw [hc]; rfl)) nofun
  | served hc => exact ok_unlock hw (by rw [hc]; rfl)
  | irq hopen ht =>
    refine ok_withTlb hw ht fun e he => ?_
    cases he
    exact hopen
  | flushed ht => exact ok_withTlb hw ht nofun
  | published ht => exact ok_withTlb hw ht nofun
  | offline hopen ht => exact ok_withTlb hw ht nofun
  | online hoff ht => exact ok_put_same (ok_withTlb hw ht nofun) nofun nofun

theorem InCall.locked {d : CoreActivity} {tlb : TlbWorld} {P : ShootdownPhase → Prop} (h : d.InCall tlb P) :
    d.locked = true := by
  cases d with
  | shooting => rfl
  | elsewhere | spinning | holding | faultSpinning | faultHolding => cases h

/-- Whoever waits holds the lock. -/
theorem LockWorld.Ok.awaits_holder {w : LockWorld} (hw : w.Ok) {c p : Core} (h : w.Awaits c p) : w.lock = some c :=
  hw.lock c (InCall.locked h)

/-- Nobody is held up when the holder of the lock, if there is one, waits for nobody. -/
theorem not_deadlocked_of_holder {w : LockWorld} (hw : w.Ok) (h : ∀ c p, w.lock = some c → ¬ w.Awaits c p) :
    ¬ w.Deadlocked :=
  fun ⟨c, p, hpin⟩ => h c p (hw.awaits_holder hpin.awaits) hpin.awaits

/-- A call whose phases are the same waits for the same peers. -/
theorem inCall_congr {tlb tlb' : TlbWorld} (h : ∀ id, (tlb'.calls id).map (·.phase) = (tlb.calls id).map (·.phase))
    (d : CoreActivity) (P : ShootdownPhase → Prop) : d.InCall tlb' P ↔ d.InCall tlb P := by
  cases d with
  | shooting f pages id =>
    have hphase : ∀ o : Option ShootdownCall, (∃ call ∈ o, P call.phase) ↔ ∃ phase ∈ o.map (·.phase), P phase := by
      intro o
      cases o <;> simp
    simp only [CoreActivity.InCall, hphase, h]
  | elsewhere | spinning | holding | faultSpinning | faultHolding => exact Iff.rfl

@[simp] theorem sawFlush_phase (c : Core) (call : ShootdownCall) : (call.sawFlush c).phase = call.phase := by
  unfold ShootdownCall.sawFlush
  split_ifs <;> rfl

@[simp] theorem sawOffline_phase (c : Core) (call : ShootdownCall) : (call.sawOffline c).phase = call.phase := by
  unfold ShootdownCall.sawOffline
  split_ifs <;> rfl

theorem map_phase_map {g : ShootdownCall → ShootdownCall} (hg : ∀ call, (g call).phase = call.phase)
    (o : Option ShootdownCall) : (o.map g).map (·.phase) = o.map (·.phase) := by
  cases o <;> simp [hg]

/-- Only the acknowledgement of the peer itself matters. -/
theorem inCall_awaits_congr {ack ack' : Core → BitVec 32} {p : Core} (h : ack' p = ack p) :
    ShootdownPhase.Awaits ack' p = ShootdownPhase.Awaits ack p := by
  funext phase
  cases phase <;> simp [ShootdownPhase.Awaits, h]

/-- A core that begins or ends something else is neither the one that waits nor the one that spins. -/
theorem pinned_of_put {w : LockWorld} {c e p : Core} {d : CoreActivity} (hd : d.locked = false)
    (hspin : d ≠ .faultSpinning) (h : (w.put c d).Pinned e p) : e ≠ c ∧ p ≠ c ∧ w.Pinned e p := by
  obtain ⟨hwaiter, hpeer, hawaits, hspins⟩ := h
  have hec : e ≠ c := by
    rintro rfl
    have hlocked := InCall.locked hawaits
    rw [put_self, hd] at hlocked
    cases hlocked
  have hpc : p ≠ c := by
    rintro rfl
    rw [put_self] at hspins
    exact hspin hspins
  rw [LockWorld.Awaits, put_of_ne _ _ hec] at hawaits
  rw [put_of_ne _ _ hpc] at hspins
  exact ⟨hec, hpc, hwaiter, hpeer, hawaits, hspins⟩

/-- A core that is neither the one that waits nor the one that spins does something else. -/
theorem pinned_put {w : LockWorld} {c e p : Core} (d : CoreActivity) (hec : c ≠ e) (hep : p ≠ e) (h : w.Pinned c p) :
    (w.put e d).Pinned c p where
  waiter := h.waiter
  peer := h.peer
  awaits := by
    rw [LockWorld.Awaits, put_of_ne _ _ hec]
    exact h.awaits
  spins := by
    rw [put_of_ne _ _ hep]
    exact h.spins

/-- The steps of a handler hold nobody up and let nobody go. -/
theorem pinned_handler {w t : LockWorld} (hw : w.Ok) {a : TlbAction} {c p : Core} (h : w.withTlb a = some t)
    (ha : (∃ e, a = .irq e) ∨ (∃ e, a = .flush e) ∨ ∃ e, a = .publish e) : t.Pinned c p ↔ w.Pinned c p := by
  obtain ⟨tlb, htlb, rfl⟩ := withTlb_eq_some h
  have hiff : tlb.online = w.tlb.online →
      ((w.activity p = .faultSpinning) → (LockWorld.Awaits { w with tlb := tlb } c p ↔ w.Awaits c p)) →
      (LockWorld.Pinned { w with tlb := tlb } c p ↔ w.Pinned c p) := by
    intro honline hawaits
    constructor
    · rintro ⟨hwaiter, hpeer, hwaits, hspins⟩
      exact ⟨honline ▸ hwaiter, honline ▸ hpeer, (hawaits hspins).mp hwaits, hspins⟩
    · rintro ⟨hwaiter, hpeer, hwaits, hspins⟩
      exact ⟨honline ▸ hwaiter, honline ▸ hpeer, (hawaits hspins).mpr hwaits, hspins⟩
  obtain ⟨e, rfl⟩ | ⟨e, rfl⟩ | ⟨e, rfl⟩ := ha
  · simp only [tlbStep] at htlb
    split_ifs at htlb
    cases htlb
    exact hiff rfl fun _ => Iff.rfl
  · simp only [tlbStep] at htlb
    split at htlb <;> cases htlb
    exact hiff rfl fun _ => inCall_congr (fun id => map_phase_map (sawFlush_phase e) _) _ _
  · simp only [tlbStep] at htlb
    split at htlb <;> cases htlb
    refine hiff rfl fun hspins => ?_
    -- the core that publishes is in a handler, so it is not the one that spins
    have hne : p ≠ e := by
      rintro rfl
      have hopen := hw.handler p (by simp [*])
      rw [hspins] at hopen
      cases hopen
    rw [LockWorld.Awaits, inCall_awaits_congr (Function.update_of_ne hne _ _)]
    exact Iff.rfl

theorem pinned_offline {w t : LockWorld} {c e p : Core} (h : w.withTlb (.offline e) = some t) :
    t.Pinned c p ↔ w.Pinned c p ∧ c ≠ e ∧ p ≠ e := by
  obtain ⟨tlb, htlb, rfl⟩ := withTlb_eq_some h
  obtain rfl := Option.some.inj htlb
  have hawaits : ∀ P, (w.activity c).InCall { w.tlb with
      online := w.tlb.online.erase e
      calls := fun id => (w.tlb.calls id).map (ShootdownCall.sawOffline e) } P ↔ (w.activity c).InCall w.tlb P :=
    fun P => inCall_congr (fun id => map_phase_map (sawOffline_phase e) _) _ P
  constructor
  · rintro ⟨hwaiter, hpeer, hwaits, hspins⟩
    exact ⟨⟨Finset.mem_of_mem_erase hwaiter, Finset.mem_of_mem_erase hpeer, (hawaits _).mp hwaits, hspins⟩,
      Finset.ne_of_mem_erase hwaiter, Finset.ne_of_mem_erase hpeer⟩
  · rintro ⟨⟨hwaiter, hpeer, hwaits, hspins⟩, hce, hpe⟩
    exact ⟨Finset.mem_erase_of_ne_of_mem hce hwaiter, Finset.mem_erase_of_ne_of_mem hpe hpeer,
      (hawaits _).mpr hwaits, hspins⟩

theorem pinned_online {w t : LockWorld} {c e p : Core} (he : e ∉ w.tlb.online) (h : w.withTlb (.online e) = some t) :
    (t.put e .elsewhere).Pinned c p ↔ w.Pinned c p := by
  obtain ⟨tlb, htlb, rfl⟩ := withTlb_eq_some h
  obtain rfl := Option.some.inj htlb
  constructor
  · intro hpin
    obtain ⟨hce, hpe, hwaiter, hpeer, hawaits, hspins⟩ := pinned_of_put (d := .elsewhere) rfl nofun hpin
    exact ⟨Finset.mem_of_mem_insert_of_ne hwaiter hce, Finset.mem_of_mem_insert_of_ne hpeer hpe, hawaits, hspins⟩
  · intro hpin
    have hce : c ≠ e := fun heq => he (heq ▸ hpin.waiter)
    have hpe : p ≠ e := fun heq => he (heq ▸ hpin.peer)
    refine pinned_put _ hce hpe ⟨?_, ?_, hpin.awaits, hpin.spins⟩
    · exact Finset.mem_insert_of_mem hpin.waiter
    · exact Finset.mem_insert_of_mem hpin.peer

/-- A fault holds up the cores that wait for the core on which it is taken. -/
theorem pinned_fault {w : LockWorld} {p : Core} (hp : p ∈ w.tlb.online) (hidle : w.activity p = .elsewhere) {c q : Core} :
    (w.put p .faultSpinning).Pinned c q ↔ w.Pinned c q ∨ q = p ∧ c ∈ w.tlb.online ∧ w.Awaits c p := by
  have hawaits : (w.put p .faultSpinning).Awaits c q ↔ w.Awaits c q := by
    unfold LockWorld.Awaits
    by_cases hne : c = p
    · subst hne
      rw [put_self, hidle]
      exact Iff.rfl
    · rw [put_of_ne _ _ hne]
      exact Iff.rfl
  constructor
  · rintro ⟨hwaiter, hpeer, hwaits, hspins⟩
    by_cases hne : q = p
    · subst hne
      exact .inr ⟨rfl, hwaiter, hawaits.mp hwaits⟩
    · rw [put_of_ne _ _ hne] at hspins
      exact .inl ⟨hwaiter, hpeer, hawaits.mp hwaits, hspins⟩
  · rintro (⟨hwaiter, hpeer, hwaits, hspins⟩ | ⟨rfl, hwaiter, hwaits⟩)
    · have hne : q ≠ p := by
        rintro rfl
        rw [hidle] at hspins
        cases hspins
      exact ⟨hwaiter, hpeer, hawaits.mpr hwaits, by rw [put_of_ne _ _ hne, hspins]⟩
    · exact ⟨hwaiter, hp, hawaits.mpr hwaits, put_self _ _ _⟩

/-- After a step of its call a core waits for those that it waited for or turned to. -/
theorem pinned_shoot {w t : LockWorld} {c : Core} {f : LockedCall} {pages id : ℕ} (hc : w.activity c = .shooting f pages id)
    (hw : w.Ok) (h : w.withTlb (.step id) = some t) {e p : Core} :
    t.Pinned e p ↔ w.Pinned e p ∨ e = c ∧ c ∈ w.tlb.online ∧ p ∈ w.tlb.online ∧ w.activity p = .faultSpinning ∧
      (w.activity c).InCall w.tlb (ShootdownPhase.TurnsTo w.tlb.ack p) := by
  obtain ⟨tlb, htlb, rfl⟩ := withTlb_eq_some h
  obtain ⟨call, hcall, hstep⟩ := Option.bind_eq_some_iff.mp htlb
  obtain ⟨hhandler, honline, hack, call', hcalls, hphase⟩ := shootdownStep_move hstep
  have hown : ∀ p ∈ w.tlb.online, (LockWorld.Awaits { w with tlb := tlb } c p ↔
      w.Awaits c p ∨ (w.activity c).InCall w.tlb (ShootdownPhase.TurnsTo w.tlb.ack p)) := by
    intro p hp
    simp only [LockWorld.Awaits, hc, CoreActivity.InCall, hcalls, hcall, hack, Function.update_self, Option.mem_def,
      Option.some.injEq, exists_eq_left']
    exact hphase p hp
  -- nobody else is in a call, since the lock is held by one core
  have hother : ∀ e p, LockWorld.Awaits { w with tlb := tlb } e p → e = c := by
    intro e p hawaits
    have hlock := hw.lock e (InCall.locked hawaits)
    rw [hw.lock c (by rw [hc]; rfl)] at hlock
    exact (Option.some.inj hlock).symm
  constructor
  · rintro ⟨hwaiter, hpeer, hawaits, hspins⟩
    obtain rfl := hother e p hawaits
    simp only [honline] at hwaiter hpeer
    obtain hwaits | hturns := (hown p hpeer).mp hawaits
    · exact .inl ⟨hwaiter, hpeer, hwaits, hspins⟩
    · exact .inr ⟨rfl, hwaiter, hpeer, hspins, hturns⟩
  · rintro (⟨hwaiter, hpeer, hwaits, hspins⟩ | ⟨rfl, hwaiter, hpeer, hspins, hturns⟩)
    · have hec : e = c := by
        have hlock := hw.awaits_holder hwaits
        rw [hw.lock c (by rw [hc]; rfl)] at hlock
        exact (Option.some.inj hlock).symm
      subst hec
      exact ⟨by simpa only [honline] using hwaiter, by simpa only [honline] using hpeer,
        (hown p hpeer).mpr (.inl hwaits), hspins⟩
    · exact ⟨by simpa only [honline] using hwaiter, by simpa only [honline] using hpeer,
        (hown p hpeer).mpr (.inr hturns), hspins⟩

/-- The holder of the lock has just come to something that is not a wait. -/
theorem not_deadlocked_put {w : LockWorld} {c : Core} {d : CoreActivity} (hok : (w.put c d).Ok)
    (hlock : w.lock = some c) (hd : ∀ p, ¬ d.InCall w.tlb (ShootdownPhase.Awaits w.tlb.ack p)) :
    ¬ (w.put c d).Deadlocked := by
  refine not_deadlocked_of_holder hok fun e p he hawaits => ?_
  obtain rfl : c = e := Option.some.inj (hlock.symm.trans he)
  rw [LockWorld.Awaits, put_self] at hawaits
  exact hd p hawaits

theorem not_deadlocked_unlock {w : LockWorld} {c : Core} (hok : (w.unlock c).Ok) : ¬ (w.unlock c).Deadlocked :=
  not_deadlocked_of_holder hok nofun

/-- A call that has just begun waits for nobody. -/
theorem not_awaits_called {tlb tlb' : TlbWorld} {id : ℕ} {me : Core} (h : tlbStep tlb (.call id me) = some tlb')
    (f : LockedCall) (pages : ℕ) (p : Core) :
    ¬ (CoreActivity.shooting f pages id).InCall tlb' (ShootdownPhase.Awaits tlb'.ack p) := by
  simp only [tlbStep] at h
  split_ifs at h
  obtain rfl := Option.some.inj h
  rintro ⟨call, hcall, hawaits⟩
  rw [setCall_self, Option.mem_some_iff] at hcall
  subst hcall
  exact hawaits

/-- A step leads into a deadlock exactly when it takes the fault or turns to the wait that closes
the circle. -/
theorem not_deadlocked_iff {w t : LockWorld} {a : LockAction} (hw : w.Ok) (hfree : ¬ w.Deadlocked)
    (h : lockStep w a = some t) : ¬ t.Deadlocked ↔ Unpinning w a := by
  have hok : t.Ok := lockStep_ok hw h
  cases lockStep_move h with
  | @enter c f pages hruns hc =>
    refine iff_of_true ?_ trivial
    rintro ⟨e, p, hpin⟩
    exact hfree ⟨e, p, (pinned_of_put (d := .spinning f pages) rfl nofun hpin).2.2⟩
  | @fault p hruns hc =>
    have hpinned := fun {c q} => @pinned_fault w p hruns.1 hc c q
    constructor
    · intro hnot c hc hawaits
      exact hnot ⟨c, p, hpinned.mpr (.inr ⟨rfl, hc, hawaits⟩)⟩
    · rintro hnone ⟨c, q, hpin⟩
      obtain hold | ⟨-, hc, hawaits⟩ := hpinned.mp hpin
      · exact hfree ⟨c, q, hold⟩
      · exact hnone c hc hawaits
  | acquire hruns hunlocked hc => exact iff_of_true (not_deadlocked_put hok rfl nofun) trivial
  | acquireFault hruns hunlocked hc => exact iff_of_true (not_deadlocked_put hok rfl nofun) trivial
  | leave hc => exact iff_of_true (not_deadlocked_unlock hok) trivial
  | @flush c id f pages tlb hc hcall =>
    have hlock : w.lock = some c := hw.lock c (by rw [hc]; rfl)
    exact iff_of_true (not_deadlocked_put hok hlock (not_awaits_called hcall f pages)) trivial
  | @skip c id f pages hc =>
    have hlock : w.lock = some c := hw.lock c (by rw [hc]; rfl)
    exact iff_of_true (not_deadlocked_put hok hlock nofun) trivial
  | @shoot c f pages id t hruns hc ht =>
    have hpinned := fun {e p} => @pinned_shoot w t c f pages id hc hw ht e p
    constructor
    · intro hnot p hp hspins hturns
      exact hnot ⟨c, p, hpinned.mpr (.inr ⟨rfl, hruns.1, hp, hspins, hturns⟩)⟩
    · rintro hnone ⟨e, p, hpin⟩
      obtain hold | ⟨-, -, hp, hspins, hturns⟩ := hpinned.mp hpin
      · exact hfree ⟨e, p, hold⟩
      · exact hnone p hp hspins hturns
  | @next c f pages id hc hreturned =>
    have hlock : w.lock = some c := hw.lock c (by rw [hc]; rfl)
    exact iff_of_true (not_deadlocked_put hok hlock nofun) trivial
  | served hc => exact iff_of_true (not_deadlocked_unlock hok) trivial
  | @irq c t hopen ht =>
    refine iff_of_true ?_ trivial
    rintro ⟨e, p, hpin⟩
    exact hfree ⟨e, p, (pinned_handler hw ht (.inl ⟨c, rfl⟩)).mp hpin⟩
  | @flushed c t ht =>
    refine iff_of_true ?_ trivial
    rintro ⟨e, p, hpin⟩
    exact hfree ⟨e, p, (pinned_handler hw ht (.inr (.inl ⟨c, rfl⟩))).mp hpin⟩
  | @published c t ht =>
    refine iff_of_true ?_ trivial
    rintro ⟨e, p, hpin⟩
    exact hfree ⟨e, p, (pinned_handler hw ht (.inr (.inr ⟨c, rfl⟩))).mp hpin⟩
  | offline hopen ht =>
    refine iff_of_true ?_ trivial
    rintro ⟨e, p, hpin⟩
    exact hfree ⟨e, p, ((pinned_offline ht).mp hpin).1⟩
  | online hoff ht =>
    refine iff_of_true ?_ trivial
    rintro ⟨e, p, hpin⟩
    exact hfree ⟨e, p, (pinned_online hoff ht).mp hpin⟩

/-- A core that waits under the lock does nothing but wait, and it is the only one past the lock. -/
theorem LockWorld.Pinned.only_waiter {w : LockWorld} {c e p : Core} (h : w.Pinned c p) (hw : w.Ok)
    (he : (w.activity e).locked = true) : e = c := by
  have hlock := hw.lock e he
  rw [hw.awaits_holder h.awaits] at hlock
  exact (Option.some.inj hlock).symm

/-- Nothing frees the two cores of a deadlock, as long as the one that waits is not taken down. -/
theorem pinned_step {w t : LockWorld} {a : LockAction} {c p : Core} (hw : w.Ok) (hpin : w.Pinned c p)
    (ha : a ≠ .offline c) (h : lockStep w a = some t) : t.Pinned c p := by
  have hlocked : (w.activity c).locked = true := InCall.locked hpin.awaits
  have hawaits := hpin.awaits
  -- the steps of the holder are those of one that is not waiting
  have hholder : ∀ {e d}, w.activity e = d → d.locked = true →
      (∀ p, ¬d.InCall w.tlb (ShootdownPhase.Awaits w.tlb.ack p)) → False := by
    rintro e d he hd hnot
    subst he
    obtain rfl := hpin.only_waiter hw hd
    exact hnot p hawaits
  cases lockStep_move h with
  | enter hruns hc =>
    refine pinned_put _ ?_ ?_ hpin
    · rintro rfl
      rw [hc] at hlocked
      cases hlocked
    · rintro rfl
      cases hc.symm.trans hpin.spins
  | fault hruns hc => exact (pinned_fault hruns.1 hc).mpr (.inl hpin)
  | acquire hruns hfree hc => cases hfree.symm.trans (hw.awaits_holder hpin.awaits)
  | acquireFault hruns hfree hc => cases hfree.symm.trans (hw.awaits_holder hpin.awaits)
  | leave hc => exact (hholder hc rfl nofun).elim
  | flush hc hcall => exact (hholder hc rfl nofun).elim
  | skip hc => exact (hholder hc rfl nofun).elim
  | shoot hruns hc ht => exact (pinned_shoot hc hw ht).mpr (.inl hpin)
  | next hc hreturned =>
    refine (hholder hc rfl fun p => ?_).elim
    -- a call that has returned waits for nobody
    rintro ⟨call, hcall, hwaits⟩
    rw [Option.mem_def.mp hcall, Option.map_some, Option.some.injEq] at hreturned
    rw [hreturned] at hwaits
    cases hwaits
  | served hc => exact (hholder hc rfl nofun).elim
  | @irq e t hopen ht => exact (pinned_handler hw ht (.inl ⟨e, rfl⟩)).mpr hpin
  | @flushed e t ht => exact (pinned_handler hw ht (.inr (.inl ⟨e, rfl⟩))).mpr hpin
  | @published e t ht => exact (pinned_handler hw ht (.inr (.inr ⟨e, rfl⟩))).mpr hpin
  | offline hopen ht =>
    refine (pinned_offline ht).mpr ⟨hpin, fun heq => ha (by rw [heq]), ?_⟩
    rintro rfl
    rw [hpin.spins] at hopen
    cases hopen
  | online hoff ht => exact (pinned_online hoff ht).mpr hpin

/-- A deadlock lasts: whatever the cores do, the one goes on waiting and the other spinning. -/
theorem deadlock_lasts {w t : LockWorld} {c p : Core} {as : List LockAction} (hw : w.Ok) (hpin : w.Pinned c p)
    (has : Along lockStep (fun _ a => a ≠ .offline c) w as) (h : run lockStep w as = some t) : t.Pinned c p :=
  (run_invariant (I := fun w => w.Ok ∧ w.Pinned c p)
    (fun _ _ _ hI ha hstep => ⟨lockStep_ok hI.1 hstep, pinned_step hI.1 hI.2 ha hstep⟩) ⟨hw, hpin⟩ has h).2

/-- A run of unmaps, faults and shootdowns passes through no deadlock exactly when no fault is taken
on a core that is waited for, and no holder of the lock turns to wait for a core that spins on it in
the fault handler. -/
theorem shootdown_deadlock_free_iff (online : Finset Core) (as : List LockAction) (w : LockWorld)
    (h : run lockStep (lockBoot online) as = some w) :
    Throughout lockStep (¬ ·.Deadlocked) (lockBoot online) as ↔ Along lockStep Unpinning (lockBoot online) as :=
  throughout_iff_along (A := fun _ => True) (fun _ _ _ _ hw hstep => lockStep_ok hw hstep)
    (fun _ _ _ _ hw hfree hstep => not_deadlocked_iff hw hfree hstep) (fun _ _ => trivial) (lockBoot_ok online)
    (fun ⟨_, _, hpin⟩ => hpin.awaits) h

/-- Core 0 unmaps one page while core 1 is online, takes its interrupt and answers. -/
def oneUnmap : List LockAction :=
  [.enter 0 .munmap 1, .acquire 0, .page 0 0 true] ++ List.replicate 34 (.shoot 0) ++
    [.irq 1, .flush 1, .publish 1] ++ List.replicate 33 (.shoot 0) ++ [.next 0, .page 0 0 true]

theorem shootdown_deadlock_free_one : ∃ w, run lockStep (lockBoot {0, 1}) oneUnmap = some w ∧
    (Throughout lockStep (¬ ·.Deadlocked) (lockBoot {0, 1}) oneUnmap ↔ Along lockStep Unpinning (lockBoot {0, 1}) oneUnmap) := by
  obtain ⟨w, hw⟩ : ∃ w, run lockStep (lockBoot {0, 1}) oneUnmap = some w :=
    Option.isSome_iff_exists.mp (by decide +kernel)
  exact ⟨w, hw, shootdown_deadlock_free_iff {0, 1} oneUnmap w hw⟩

instance (ack : Core → BitVec 32) (p : Core) : DecidablePred (ShootdownPhase.Awaits ack p)
  | .waiting _ _ _ => inferInstanceAs (Decidable (_ ∧ _))
  | .masked _ | .sending _ _ _ _ | .returned => isFalse not_false

instance (tlb : TlbWorld) (P : ShootdownPhase → Prop) [DecidablePred P] : DecidablePred (CoreActivity.InCall tlb P)
  | .shooting _ _ id => inferInstanceAs (Decidable (∃ call ∈ tlb.calls id, P call.phase))
  | .elsewhere | .spinning _ _ | .holding _ _ | .faultSpinning | .faultHolding => isFalse not_false

/-- Core 0 unmaps a page and has come to wait for core 1, on which a fault is taken. -/
def faultWhileWaiting : List LockAction :=
  [.enter 0 .munmap 1, .acquire 0, .page 0 0 true] ++ List.replicate 34 (.shoot 0) ++ [.fault 1]

theorem shootdown_deadlocks : ¬ ∀ (online : Finset Core) (as : List LockAction) (w : LockWorld),
    run lockStep (lockBoot online) as = some w → ¬ w.Deadlocked := by
  intro hclaim
  obtain ⟨w, hw, hwaiter, hpeer, hawaits, hspins⟩ : ∃ w ∈ run lockStep (lockBoot {0, 1}) faultWhileWaiting,
      0 ∈ w.tlb.online ∧ 1 ∈ w.tlb.online ∧ (w.activity 0).InCall w.tlb (ShootdownPhase.Awaits w.tlb.ack 1) ∧
        w.activity 1 = .faultSpinning := by
    decide
  exact hclaim {0, 1} faultWhileWaiting w hw ⟨0, 1, hwaiter, hpeer, hawaits, hspins⟩

end HouseKernel.VirtualMemory
