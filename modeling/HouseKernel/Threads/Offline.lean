import HouseKernel.Threads.Cores

/-! Run queues and hotplug. The bit of a core is cleared when the firmware reports it off; then its run queue
is moved to a core that is online. A queue that is empty stays empty as long as nobody queues on it: creation,
`house_sched_wake` and the wake-up of a joiner choose their core by the online mask; unlock, signal, broadcast and
the hand-over of a wait take the core of the affinity, and rebalancing the home core. -/
namespace HouseKernel.Threads

open HouseKernel.Lib

namespace Sched

/-- `house_threads_init_secondary`: the first thread of a core that comes up, if a slot is free. -/
def initSecondary (s : Sched) (core : CoreId) (tcb : ℕ) : Option Sched :=
  if s.used tcb then none
  else match s.allocThread with
    | none => some s
    | some t => (dequeueSpecific t (List.finRange 32) s).map fun s' =>
      { s' with
        status := Function.update s'.status t .running
        waitNext := Function.update s'.waitNext t none
        tid := Function.update s'.tid t s'.nextTid
        exited := Function.update s'.exited t false
        detached := Function.update s'.detached t false
        joiner := Function.update s'.joiner t none
        next := Function.update s'.next t none
        affinity := Function.update s'.affinity t (coreBit core)
        stack := Function.update s'.stack t none
        tcb := Function.update s'.tcb t (some tcb)
        saved := Function.update s'.saved t ⟨t, s'.nextTid, none, some tcb, .user⟩
        current := Function.update s'.current core (some t)
        used := Function.update s'.used tcb true
        nextTid := s'.nextTid + 1
        gone := Function.update s'.gone t false }

/-- The core sets its bit and goes into its loop, as its first thread. It starts from its reset, in no switch. -/
def setOnline (s : Sched) (core : CoreId) : Sched :=
  { s with
    mask := s.mask ||| coreBit core
    live := Function.update s.live core ((s.current core).map s.saved)
    saving := Function.update s.saving core none }

end Sched

/-- `off` has the cores whose queue has been moved away and that have not been online since. -/
structure HotSched extends Sched where
  off : Finset CoreId

inductive HotOp where
  | code (op : Op)
  | coreOff (down : CoreId)
  | onCoreDown (down : CoreId)
  | initSecondary (tcb : ℕ)
  | setOnline
  deriving DecidableEq, Repr

/-- The core executes a thread in its own code. -/
def Sched.inUser (s : Sched) (core : CoreId) : Bool :=
  s.saving core = none && (s.current core).isSome && (s.live core).any fun x => x.pc = .user

/-- A step of the threads, or of a core that goes or comes. Core 0 is never taken down. -/
def hotStep (s : HotSched) (a : CoreId × HotOp) : Option HotSched :=
  match a.2 with
  | .code (.coreDown _) => none
  | .code op => (threadStep s.toSched (a.1, op)).map fun t => { s with toSched := t }
  | .coreOff down =>
    if s.inUser a.1 ∧ down ≠ 0 ∧ down ≠ a.1 ∧ s.mask.getLsbD down = true then some { s with toSched := s.toSched.coreOff down }
    else none
  | .onCoreDown down =>
    if s.inUser a.1 ∧ down ≠ 0 ∧ s.mask.getLsbD down = false then
      (s.toSched.onCoreDown down).map fun t => ⟨t, insert down s.off⟩
    else none
  | .initSecondary tcb =>
    if s.live a.1 = none ∧ s.mask.getLsbD a.1 = false then
      (s.toSched.initSecondary a.1 tcb).map fun t => { s with toSched := t }
    else none
  | .setOnline =>
    if s.live a.1 = none ∧ s.mask.getLsbD a.1 = false then some ⟨s.toSched.setOnline a.1, s.off.erase a.1⟩ else none

def hotBoot (n : ℕ) : HotSched := ⟨boot n, ∅⟩

/-- No runnable thread is on the queue of a core that is off. -/
def OfflineHoldNothing (s : HotSched) : Prop :=
  ∀ c ∈ s.off, ∀ t ∈ follow s.next 65 (s.runQ c).head, s.status t ≠ .runnable

instance (s : HotSched) : Decidable (OfflineHoldNothing s) := inferInstanceAs (Decidable (∀ c ∈ s.off, _))

section Conditions

/-- Each thread that is woken is on some run queue already or has an affinity to a core that is not off. -/
def wakesOnline (off : Finset CoreId) : Sched → List Slot → Bool
  | _, [] => true
  | s, t :: ts => (s.queuedAnywhere t || decide (s.wakeCore t ∉ off)) && wakesOnline off (s.wakeWaiter t) ts

/-- Rebalancing does not move the thread to a core that is off. -/
def moveOnline (off : Finset CoreId) (s : Sched) (t : Slot) : Bool :=
  if s.status t = .unused ∨ s.tid t < 2 ∨ s.tid t ≥ 10 ∨ s.affinity t = Sched.coreBit (s.homeCore t) then true
  else if s.status t = .runnable then
    match Sched.takeFrom t ((List.finRange 32).filter fun core => core.val < s.smp) s with
    | some (true, s') => s'.queuedAnywhere t || decide (s.homeCore t ∉ off)
    | _ => true
  else true

def movesOnline (off : Finset CoreId) : List Slot → Sched → Bool
  | [], _ => true
  | t :: ts, s => moveOnline off s t && match s.rebalanceOne t with
    | none => true
    | some s' => movesOnline off ts s'

/-- What a section queues by affinity or home core alone, it queues on a core that is not off. -/
def QueuesOnline (s : HotSched) (a : CoreId × HotOp) : Prop :=
  match a.2 with
  | .code (.unlock m) => wakesOnline s.off (s.put (s.toWaits.unlock m).2) (s.toWaits.unlock m).1.toList = true
  | .code (.signal c) => wakesOnline s.off (s.put (s.toWaits.pop (.cond c)).2) (s.toWaits.pop (.cond c)).1.toList = true
  | .code (.broadcast c) => wakesOnline s.off (s.put (s.toWaits.broadcast c).2) (s.toWaits.broadcast c).1 = true
  | .code (.condWait c m _) => ∀ cur ∈ s.current a.1,
    wakesOnline s.off (s.put (s.toWaits.startWait c m cur).2) (s.toWaits.startWait c m cur).1.toList = true
  | .code .rebalance => movesOnline s.off (List.finRange 64) s.toSched = true
  | _ => True

instance (s : HotSched) (a : CoreId × HotOp) : Decidable (QueuesOnline s a) := by
  unfold QueuesOnline
  split <;> infer_instance

end Conditions

/-- The invariant: a core that is off has no bit, an empty queue and nothing to execute. -/
structure Sched.Emptied (s : Sched) (off : Finset CoreId) : Prop where
  offline : ∀ c ∈ off, s.mask.getLsbD c = false
  empty : ∀ c ∈ off, s.runQ c = ⟨none, none⟩
  awake : ∀ c, (s.live c).isSome → s.mask.getLsbD c = true

section Primitives

variable {s s' : Sched} {off : Finset CoreId} {core : CoreId} {t : Slot}

theorem coreBit_getLsbD : ∀ core c : CoreId, (Sched.coreBit core).getLsbD c = decide (c = core) := by
  decide

theorem firstOnline_set {mask : BitVec 32} {i : CoreId} (h : mask.getLsbD i = true) :
    mask.getLsbD (Sched.firstOnline mask) = true := by
  unfold Sched.firstOnline
  cases hfind : (List.finRange 32).find? fun i : CoreId => mask.getLsbD i.val with
  | none => exact absurd h (List.find?_eq_none.mp hfind i (List.mem_finRange i))
  | some j => exact List.find?_some (p := fun i : CoreId => mask.getLsbD i.val) hfind

namespace Sched.Emptied

theorem notMem (h : s.Emptied off) (hcore : s.mask.getLsbD core = true) : core ∉ off := fun hin => by
  rw [h.offline core hin] at hcore
  cases hcore

/-- With a core that executes there is one that is online. -/
theorem firstOnline_notMem (h : s.Emptied off) (hlive : (s.live core).isSome) : Sched.firstOnline s.mask ∉ off :=
  h.notMem (firstOnline_set (h.awake core hlive))

theorem followMask_notMem (h : s.Emptied off) (hlive : (s.live core).isSome) (c : CoreId) : s.followMask c ∉ off := by
  unfold Sched.followMask
  split_ifs with hmask
  · exact h.firstOnline_notMem hlive
  · have hset := h.awake core hlive
    have hne : s.mask ≠ 0 := by
      intro hzero
      rw [hzero] at hset
      simp at hset
    refine h.notMem (Bool.eq_true_of_not_eq_false fun hclear => ?_)
    exact hmask ⟨hne, hclear⟩

/-- What leaves the masks and queues alone and lets no further core execute. -/
theorem congr (h : s.Emptied off) (hmask : s'.mask = s.mask) (hrunQ : s'.runQ = s.runQ)
    (hlive : ∀ c, (s'.live c).isSome → (s.live c).isSome) : s'.Emptied off := by
  refine ⟨?_, ?_, fun c hc => ?_⟩
  · rw [hmask]
    exact h.offline
  · rw [hrunQ]
    exact h.empty
  · rw [hmask]
    exact h.awake c (hlive c hc)

theorem relinkRun (h : s.Emptied off) (hcore : core ∉ off) (l : Links Slot) : (s.relinkRun core l).Emptied off := by
  refine ⟨h.offline, fun c hc => ?_, h.awake⟩
  have hne : c ≠ core := fun heq => hcore (heq ▸ hc)
  exact (Function.update_of_ne hne _ _).trans (h.empty c hc)

theorem setStatus (h : s.Emptied off) (t : Slot) (status : Status) : (s.setStatus t status).Emptied off := ⟨h.1, h.2, h.3⟩

theorem put (h : s.Emptied off) (w : Waits) : (s.put w).Emptied off := ⟨h.1, h.2, h.3⟩

theorem enqueue (h : s.Emptied off) (hcore : s.queuedAnywhere t = true ∨ core ∉ off) : (s.enqueueRunCore core t).Emptied off := by
  unfold Sched.enqueueRunCore
  split_ifs with hq
  · exact h
  · exact (h.setStatus t .runnable).relinkRun (hcore.resolve_left hq) _

theorem dequeue {r : Slot × Sched} (h : s.Emptied off) (hd : s.dequeueRunCore core = some r) : r.2.Emptied off := by
  obtain ⟨t, hhead, rfl⟩ := Option.map_eq_some_iff.mp hd
  refine h.relinkRun (fun hin => ?_) _
  rw [h.empty core hin] at hhead
  cases hhead

theorem goto (h : s.Emptied off) (pc : Point) : (s.goto core pc).Emptied off := by
  refine h.congr rfl rfl fun c hc => ?_
  obtain rfl | hne := eq_or_ne c core
  · simpa [Sched.goto] using hc
  · simpa [Sched.goto, Function.update_of_ne hne] using hc

theorem switchTo (h : s.Emptied off) (old new : Slot) : (s.switchTo core old new).Emptied off := ⟨h.1, h.2, h.3⟩

theorem leave (h : s.Emptied off) (old : Slot) (pc idle : Point) : (s.leave core old pc idle).Emptied off := by
  unfold Sched.leave
  cases hd : s.dequeueRunCore core with
  | none => exact h.goto idle
  | some r => exact ((h.dequeue hd).switchTo old r.1).goto pc

theorem requeue (h : s.Emptied off) (hcore : core ∉ off) (old : Slot) : (s.requeue core old).Emptied off := by
  unfold Sched.requeue
  split_ifs
  · exact (h.setStatus old .runnable).enqueue (.inr hcore)
  · exact h
  · exact h.enqueue (.inr hcore)
  · exact h

theorem yieldTo (h : s.Emptied off) (hcore : core ∉ off) (old : Slot) (pc : Point) : (s.yieldTo core old pc).Emptied off := by
  have hq := h.requeue hcore old
  unfold Sched.yieldTo
  cases hd : (s.requeue core old).dequeueRunCore core with
  | none =>
    dsimp only
    split_ifs
    · exact (hq.setStatus old .running).goto pc
    · exact hq.goto pc
  | some r =>
    dsimp only
    split_ifs
    · exact ((hq.dequeue hd).setStatus old .running).goto pc
    · exact ((hq.dequeue hd).switchTo old r.1).goto pc

theorem enqueueRun (h : s.Emptied off) (hlive : (s.live core).isSome) (t : Slot) : (s.enqueueRun t).Emptied off :=
  h.enqueue (.inr (h.followMask_notMem hlive _))

theorem wakeAll (h : s.Emptied off) {ts : List Slot} (hts : wakesOnline off s ts = true) : (s.wakeAll ts).Emptied off := by
  induction ts generalizing s with
  | nil => exact h
  | cons t ts ih =>
    rw [wakesOnline, Bool.and_eq_true, Bool.or_eq_true, decide_eq_true_eq] at hts
    exact ih (h.enqueue hts.1) hts.2

/-- A walk over an empty queue finds nothing. -/
theorem unlink {once : Bool} {r : Bool × Links Slot} (h : s.Emptied off)
    (hr : (s.runLinks core).unlinkGo once t 65 none (s.runQ core).head = some r) : (s.relinkRun core r.2).Emptied off := by
  by_cases hcore : core ∈ off
  · rw [h.empty core hcore] at hr
    obtain rfl := Option.some.inj hr
    refine h.congr rfl ?_ fun _ => id
    exact Function.update_eq_self core s.runQ
  · exact h.relinkRun hcore _

theorem dequeueSpecific {cores : List CoreId} (h : s.Emptied off) (hd : Sched.dequeueSpecific t cores s = some s') :
    s'.Emptied off := by
  induction cores generalizing s with
  | nil =>
    obtain rfl := Option.some.inj hd
    exact h
  | cons core cores ih =>
    obtain ⟨r, hr, hrest⟩ := Option.bind_eq_some_iff.mp hd
    exact ih (h.unlink hr) hrest

theorem takeFrom {cores : List CoreId} {r : Bool × Sched} (h : s.Emptied off) (ht : Sched.takeFrom t cores s = some r) :
    r.2.Emptied off := by
  induction cores generalizing s with
  | nil =>
    obtain rfl := Option.some.inj ht
    exact h
  | cons core cores ih =>
    obtain ⟨u, hu, hrest⟩ := Option.bind_eq_some_iff.mp ht
    split_ifs at hrest
    · obtain rfl := Option.some.inj hrest
      exact h.unlink hu
    · exact ih h hrest

theorem rebalanceOne (h : s.Emptied off) (hmove : moveOnline off s t = true) (hr : s.rebalanceOne t = some s') :
    s'.Emptied off := by
  unfold Sched.rebalanceOne at hr
  unfold moveOnline at hmove
  dsimp only at hr
  split_ifs at hr hmove with hskip hrun
  · obtain rfl := Option.some.inj hr
    exact h
  · obtain ⟨r, ht, rfl⟩ := Option.map_eq_some_iff.mp hr
    have htaken := h.takeFrom ht
    rw [ht] at hmove
    obtain ⟨found, s₁⟩ := r
    cases found with
    | false => exact h.congr rfl rfl fun _ => id
    | true =>
      dsimp only at hmove
      rw [Bool.or_eq_true, decide_eq_true_eq] at hmove
      exact htaken.enqueue hmove
  · obtain rfl := Option.some.inj hr
    exact h.congr rfl rfl fun _ => id

theorem rebalance {ts : List Slot} (h : s.Emptied off) (hmoves : movesOnline off ts s = true)
    (hr : Sched.rebalance ts s = some s') : s'.Emptied off := by
  induction ts generalizing s with
  | nil =>
    obtain rfl := Option.some.inj hr
    exact h
  | cons t ts ih =>
    obtain ⟨u, hu, hrest⟩ := Option.bind_eq_some_iff.mp hr
    rw [movesOnline, hu, Bool.and_eq_true] at hmoves
    exact ih (h.rebalanceOne hmoves.1 hu) hmoves.2 hrest

theorem migrate {dst : CoreId} {fuel : ℕ} {p : Option Slot} (h : s.Emptied off) (hdst : dst ∉ off)
    (hm : Sched.migrate dst fuel p s = some s') : s'.Emptied off := by
  induction fuel generalizing s p with
  | zero => cases hm
  | succ fuel ih =>
    cases p with
    | none =>
      obtain rfl := Option.some.inj hm
      exact h
    | some t =>
      rw [Sched.migrate] at hm
      refine ih (relinkRun ?_ hdst _) hm
      exact h.congr rfl rfl fun _ => id

theorem create {stack tcb : ℕ} (h : s.Emptied off) (hlive : (s.live core).isSome) (hc : s.create stack tcb = some s') :
    s'.Emptied off := by
  unfold Sched.create at hc
  split_ifs at hc
  cases halloc : s.allocThread with
  | none =>
    simp only [halloc] at hc
    obtain rfl := Option.some.inj hc
    exact h
  | some t =>
    simp only [halloc] at hc
    obtain ⟨u, hu, rfl⟩ := Option.map_eq_some_iff.mp hc
    have hpark := h.dequeueSpecific hu
    obtain ⟨next, runQ, rfl⟩ := Sched.dequeueSpecific_relinked hu
    refine enqueue ?_ (.inr (hpark.followMask_notMem hlive _))
    exact hpark.congr rfl rfl fun _ => id

theorem exitSection (h : s.Emptied off) (hlive : (s.live core).isSome) (cur : Slot) : (s.exitSection core cur).Emptied off := by
  have hwake : (s.wakeJoiner cur).Emptied off := by
    unfold Sched.wakeJoiner
    cases s.joiner cur with
    | none => exact h
    | some j =>
      refine @enqueueRun _ off core ?_ ?_ j
      · exact h.congr rfl rfl fun _ => id
      · exact hlive
  unfold Sched.exitSection
  dsimp only
  refine leave (congr (s := s.wakeJoiner cur) hwake ?_ ?_ ?_) cur .dead .dead
  all_goals
    split_ifs
    · first | rfl | exact fun _ => id
    · first | rfl | exact fun _ => id

theorem coreOff (h : s.Emptied off) (down : CoreId) : (s.coreOff down).Emptied off := by
  have hbit : ∀ c : CoreId, (s.mask &&& ~~~(coreBit down)).getLsbD c = (s.mask.getLsbD c && !decide (c = down)) := by
    intro c
    rw [BitVec.getLsbD_and, BitVec.getLsbD_not, coreBit_getLsbD, decide_eq_true c.isLt, Bool.true_and]
  refine ⟨fun c hc => ?_, h.empty, fun c hc => ?_⟩
  · rw [Sched.coreOff, hbit, h.offline c hc]
    rfl
  · have hne : c ≠ down := by
      rintro rfl
      simp [Sched.coreOff] at hc
    rw [Sched.coreOff, hbit, h.awake c (by simpa [Sched.coreOff, Function.update_of_ne hne] using hc)]
    simpa using hne

end Sched.Emptied

end Primitives

section Steps

variable {s s' : Sched} {off : Finset CoreId} {core : CoreId} {cur : Slot} {x : Ctx} {op : Op}

/-- The condition for a section of the threads alone. -/
def OpOnline (s : Sched) (off : Finset CoreId) (cur : Slot) : Op → Prop
  | .unlock m => wakesOnline off (s.put (s.toWaits.unlock m).2) (s.toWaits.unlock m).1.toList = true
  | .signal c => wakesOnline off (s.put (s.toWaits.pop (.cond c)).2) (s.toWaits.pop (.cond c)).1.toList = true
  | .broadcast c => wakesOnline off (s.put (s.toWaits.broadcast c).2) (s.toWaits.broadcast c).1 = true
  | .condWait c m _ => wakesOnline off (s.put (s.toWaits.startWait c m cur).2) (s.toWaits.startWait c m cur).1.toList = true
  | .rebalance => movesOnline off (List.finRange 64) s = true
  | _ => True

theorem codeStep_emptied (h : s.Emptied off) (hlive : (s.live core).isSome) (hop : OpOnline s off cur op)
    (hdown : ∀ c, op ≠ .coreDown c) (hs : codeStep s core cur x op = some s') : s'.Emptied off := by
  have hcore := h.notMem (h.awake core hlive)
  cases codeStep_move hs with
  | stay => exact h
  | goes => exact h.goto _
  | yields => exact h.yieldTo hcore _ _
  | create _ _ _ hcreate => exact h.create hlive hcreate
  | malloc => exact h.congr rfl rfl fun _ => id
  | exit =>
    refine Sched.Emptied.goto ?_ _
    exact h.congr rfl rfl fun _ => id
  | exitMark => exact (h.setStatus _ _).goto _
  | exitSection => exact h.exitSection hlive cur
  | joinSection target =>
    unfold Sched.joinSection
    split_ifs
    · exact h.goto _
    · refine Sched.Emptied.leave ?_ _ _ _
      exact h.congr rfl rfl fun _ => id
  | reap =>
    refine Sched.Emptied.goto ?_ _
    exact h.congr rfl rfl fun _ => id
  | detach =>
    unfold Sched.detach
    split
    · exact h
    · dsimp only
      split_ifs <;> exact h.congr rfl rfl fun _ => id
  | wake t => exact h.enqueueRun hlive t
  | takes => exact (h.put _).goto _
  | waits => exact (h.put _).goto _
  | blocks => exact h.leave _ _ _
  | blocksAgain => exact h.leave _ _ _
  | trylock => exact h.put _
  | unlock => exact (h.put _).wakeAll hop
  | signal => exact (h.put _).wakeAll hop
  | broadcast => exact (h.put _).wakeAll hop
  | condWait => exact ((h.put _).wakeAll hop).leave _ _ _
  | timeout => exact (h.put _).goto _
  | rewaits => exact (h.put _).leave _ _ _
  | sleeps => exact (h.setStatus _ _).leave _ _ _
  | wakes => exact (h.setStatus _ _).goto _
  | rebalance _ hmoves => exact h.rebalance hop hmoves
  | setAffinity => exact h.congr rfl rfl fun _ => id
  | coreDown down => exact absurd rfl (hdown down)

theorem threadStep_emptied {a : CoreId × Op} (h : s.Emptied off) (hop : ∀ cur ∈ s.current a.1, OpOnline s off cur a.2)
    (hdown : ∀ c, a.2 ≠ .coreDown c) (hs : threadStep s a = some s') : s'.Emptied off := by
  unfold threadStep at hs
  split_ifs at hs
  · unfold finishSwitch at hs
    split at hs
    case h_1 old new x _ hlive =>
      obtain rfl := Option.some.inj hs
      refine h.congr rfl rfl fun c hc => ?_
      obtain rfl | hne := eq_or_ne c a.1
      · rw [hlive]
        rfl
      · simpa [Function.update_of_ne hne] using hc
    case h_2 => cases hs
  · split at hs
    case h_1 cur x hsaving hcur hlive => exact codeStep_emptied h (by rw [hlive]; rfl) (hop cur hcur) hdown hs
    case h_2 => cases hs

theorem Sched.Emptied.onCoreDown {down : CoreId} (h : s.Emptied off) (hlive : (s.live core).isSome)
    (hbit : s.mask.getLsbD down = false) (hs : s.onCoreDown down = some s') : s'.Emptied (insert down off) := by
  have hpark : Sched.Emptied { s with
      runQ := Function.update s.runQ down ⟨none, none⟩
      current := Function.update s.current down none } (insert down off) := by
    refine ⟨fun c hc => ?_, fun c hc => ?_, h.awake⟩
    · obtain rfl | hc := Finset.mem_insert.mp hc
      · exact hbit
      · exact h.offline c hc
    · obtain rfl | hne := eq_or_ne c down
      · exact Function.update_self _ _ _
      · exact (Function.update_of_ne hne _ _).trans (h.empty c (Finset.mem_of_mem_insert_of_ne hc hne))
  exact hpark.migrate (hpark.firstOnline_notMem hlive) hs

theorem Sched.Emptied.initSecondary {tcb : ℕ} (h : s.Emptied off) (hs : s.initSecondary core tcb = some s') : s'.Emptied off := by
  unfold Sched.initSecondary at hs
  split_ifs at hs
  cases halloc : s.allocThread with
  | none =>
    simp only [halloc] at hs
    obtain rfl := Option.some.inj hs
    exact h
  | some t =>
    simp only [halloc] at hs
    obtain ⟨u, hu, rfl⟩ := Option.map_eq_some_iff.mp hs
    exact (h.dequeueSpecific hu).congr rfl rfl fun _ => id

theorem Sched.Emptied.setOnline (h : s.Emptied off) : (s.setOnline core).Emptied (off.erase core) := by
  have hbit : ∀ c : CoreId, (s.mask ||| Sched.coreBit core).getLsbD c = (s.mask.getLsbD c || decide (c = core)) := by
    intro c
    rw [BitVec.getLsbD_or, coreBit_getLsbD]
  refine ⟨fun c hc => ?_, fun c hc => h.empty c (Finset.mem_of_mem_erase hc), fun c hc => ?_⟩
  · rw [Sched.setOnline, hbit, h.offline c (Finset.mem_of_mem_erase hc)]
    simpa using Finset.ne_of_mem_erase hc
  · rw [Sched.setOnline, hbit]
    obtain rfl | hne := eq_or_ne c core
    · simp
    · rw [h.awake c (by simpa [Sched.setOnline, Function.update_of_ne hne] using hc)]
      rfl

end Steps

section Runs

variable {s s' : HotSched}

/-- An empty queue has no runnable thread. -/
theorem Sched.Emptied.holdNothing (h : s.Emptied s.off) : OfflineHoldNothing s := fun c hc t ht => by
  rw [h.empty c hc] at ht
  cases ht

theorem Sched.inUser_live {s : Sched} {core : CoreId} (h : s.inUser core = true) : (s.live core).isSome := by
  simp only [Sched.inUser, Bool.and_eq_true, Option.any_eq_true] at h
  obtain ⟨-, x, hx, -⟩ := h
  rw [hx]
  rfl

theorem hotStep_emptied {a : CoreId × HotOp} (h : s.Emptied s.off) (hq : QueuesOnline s a) (hs : hotStep s a = some s') :
    s'.Emptied s'.off := by
  obtain ⟨core, op⟩ := a
  cases op with
  | code op =>
    by_cases hdown : ∃ c, op = .coreDown c
    · obtain ⟨c, rfl⟩ := hdown
      cases hs
    · have hs : (threadStep s.toSched (core, op)).map (fun t => { s with toSched := t }) = some s' := by
        cases op <;> first | exact hs | exact absurd ⟨_, rfl⟩ hdown
      obtain ⟨t, ht, rfl⟩ := Option.map_eq_some_iff.mp hs
      refine threadStep_emptied h (fun cur hcur => ?_) (fun c hc => hdown ⟨c, hc⟩) ht
      cases op <;> first | exact hq cur hcur | exact hq
  | coreOff down =>
    simp only [hotStep] at hs
    split_ifs at hs
    obtain rfl := Option.some.inj hs
    exact h.coreOff down
  | onCoreDown down =>
    simp only [hotStep] at hs
    split_ifs at hs with hif
    obtain ⟨t, ht, rfl⟩ := Option.map_eq_some_iff.mp hs
    exact h.onCoreDown (Sched.inUser_live hif.1) hif.2.2 ht
  | initSecondary tcb =>
    simp only [hotStep] at hs
    split_ifs at hs
    obtain ⟨t, ht, rfl⟩ := Option.map_eq_some_iff.mp hs
    exact h.initSecondary ht
  | setOnline =>
    simp only [hotStep] at hs
    split_ifs at hs
    obtain rfl := Option.some.inj hs
    exact h.setOnline

theorem hotBoot_emptied (n : ℕ) : (hotBoot n).Emptied ∅ := by
  refine ⟨fun c hc => absurd hc (Finset.notMem_empty c), fun c hc => absurd hc (Finset.notMem_empty c), fun c hc => ?_⟩
  have hlt : c.val < n := by
    by_contra hge
    simp [hotBoot, boot, hge] at hc
  simp only [hotBoot, boot, BitVec.getLsbD_ofNat, decide_eq_true c.isLt, Bool.true_and]
  rw [Nat.testBit_two_pow_sub_one]
  exact decide_eq_true hlt

end Runs

/-- In every run that wakes and moves threads only to cores that are not off, nothing runnable is queued on a
core from when it has been taken down until it is online again. -/
theorem offline_cores_hold_nothing {n : ℕ} {acts : List (CoreId × HotOp)} (h : Along hotStep QueuesOnline (hotBoot n) acts) :
    Throughout hotStep OfflineHoldNothing (hotBoot n) acts := by
  rintro bs ⟨cs, rfl⟩ s hrun
  have hstep : ∀ (s : HotSched) a s', s.Emptied s.off → QueuesOnline s a → hotStep s a = some s' → s'.Emptied s'.off :=
    fun s a s' hs hq hstep => hotStep_emptied hs hq hstep
  exact (run_invariant hstep (hotBoot_emptied n) (along_append.mp h).1 hrun).holdNothing

/-- The main thread takes a mutex and a thread waits for it. Rebalancing gives the waiter core 1, which then is
taken down. -/
def waiterOfCoreOne : List (CoreId × HotOp) :=
  [(0, .code (.trylock 7)), (0, .code (.create 100 101)), (0, .code .yield), (0, .code .finishSwitch), (0, .code (.lock 7)),
    (0, .code .lockSection), (0, .code .block), (0, .code .finishSwitch), (0, .code .rebalance), (0, .coreOff 1),
      (0, .onCoreDown 1)]

/-- When the core is back before the unlock, the waiter is queued on a core that is online. -/
theorem offline_cores_hold_nothing_back :
    (run hotStep (hotBoot 2)
      (waiterOfCoreOne ++ [(1, .initSecondary 102), (1, .setOnline), (0, .code (.unlock 7))])).isSome = true ∧
    Throughout hotStep OfflineHoldNothing (hotBoot 2)
      (waiterOfCoreOne ++ [(1, .initSecondary 102), (1, .setOnline), (0, .code (.unlock 7))]) :=
  ⟨by decide, offline_cores_hold_nothing (by decide)⟩

/-- An unlock while core 1 is off queues the waiter there. -/
theorem waiter_queued_offline :
    ¬ ∀ (n : ℕ) (acts : List (CoreId × HotOp)), Throughout hotStep OfflineHoldNothing (hotBoot n) acts := by
  intro hall
  have hrun : ∃ s, run hotStep (hotBoot 2) (waiterOfCoreOne ++ [(0, .code (.unlock 7))]) = some s ∧ ¬ OfflineHoldNothing s := by
    have hsome : ((run hotStep (hotBoot 2) (waiterOfCoreOne ++ [(0, .code (.unlock 7))])).any
        fun s => !decide (OfflineHoldNothing s)) = true := by rfl
    obtain ⟨s, hs, hnot⟩ := Option.any_eq_true _ _ |>.mp hsome
    exact ⟨s, hs, by simpa using hnot⟩
  obtain ⟨s, hs, hnot⟩ := hrun
  exact hnot (hall 2 _ _ (List.prefix_refl _) s hs)

end HouseKernel.Threads
