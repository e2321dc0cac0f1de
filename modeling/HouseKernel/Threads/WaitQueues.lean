import HouseKernel.Lib.Run
import HouseKernel.Threads.Waits

/-! Threads that lock mutexes and wait on condition variables. When a waiting thread goes on is
up to the scheduler, which may also let it go on before anybody has woken it; it then enters its
loop again with its old link still in the queue. -/
namespace HouseKernel.Threads

open HouseKernel.Lib

/-- Where a thread is between two of its critical sections. -/
inductive Pc where
  | user
  | lockLoop (m : ℕ)
  | lockWait (m : ℕ)
  | condSpin (c m : ℕ) (timed : Bool)
  | condOff (c m : ℕ)
  | reacquire (m : ℕ)
  | reacquireWait (m : ℕ)
  deriving DecidableEq, Repr

structure WaitWorld extends Waits where
  pc : Slot → Pc

/-- `condWait` has whether the core has another thread to run, `resume` whether the thread was
taken from a run queue or `house_sched_block` and the yields just returned. -/
inductive WaitOp where
  | lock (m : ℕ)
  | lockSection
  | trylock (m : ℕ)
  | unlock (m : ℕ)
  | signal (c : ℕ)
  | broadcast (c : ℕ)
  | condWait (c m : ℕ) (timed off : Bool)
  | spinOver
  | timeout
  | reacquire
  | resume (dispatched : Bool)
  deriving DecidableEq, Repr

namespace WaitWorld

def goto (w : WaitWorld) (t : Slot) (pc : Pc) : WaitWorld := { w with pc := Function.update w.pc t pc }

def put (w : WaitWorld) (waits : Waits) : WaitWorld := { w with toWaits := waits }

/-- Take a mutex, or go to the end of its queue. -/
def takeOr (w : WaitWorld) (t : Slot) (m : ℕ) (wait : Pc) : WaitWorld :=
  if w.locked m then (w.put (w.toWaits.append (.mutex m) t)).goto t wait
  else (w.put (w.toWaits.setLocked m true)).goto t .user

end WaitWorld

/-- One critical section of thread `a.1`, or one decision of the scheduler about it. -/
def waitStep (w : WaitWorld) (a : Slot × WaitOp) : Option WaitWorld :=
  match a.2, w.pc a.1 with
  | .lock m, .user => some (w.goto a.1 (.lockLoop m))
  | .lockSection, .lockLoop m => some (w.takeOr a.1 m (.lockWait m))
  | .trylock m, .user => some (if w.locked m then w else w.put (w.toWaits.setLocked m true))
  | .unlock m, .user => some (w.put (w.toWaits.unlock m).2)
  | .signal c, .user => some (w.put (w.toWaits.pop (.cond c)).2)
  | .broadcast c, .user => some (w.put (w.toWaits.broadcast c).2)
  | .condWait c m timed off, .user =>
    some ((w.put (w.toWaits.startWait c m a.1).2).goto a.1 (if off then .condOff c m else .condSpin c m timed))
  | .spinOver, .condSpin _ m _ => if w.status a.1 = .blocked then none else some (w.goto a.1 (.reacquire m))
  | .timeout, .condSpin c m true => (w.toWaits.timeout c a.1).map fun waits => (w.put waits).goto a.1 (.reacquire m)
  | .reacquire, .reacquire m => some (w.takeOr a.1 m (.reacquireWait m))
  | .resume dispatched, pc =>
    let w' := if dispatched then w.put (w.toWaits.setStatus a.1 .running) else w
    match pc with
    | .lockWait m => some (w'.goto a.1 (.lockLoop m))
    | .condOff _ m => if dispatched then some (w'.goto a.1 (.reacquire m)) else none
    | .reacquireWait m => some (w'.goto a.1 (.reacquire m))
    | .condSpin _ _ _ => if dispatched then some w' else none
    | _ => none
  | _, _ => none

/-- Nobody waits and every thread is in its own code. -/
def WaitWorld.start (status : Slot → Status) (locked : ℕ → Bool) : WaitWorld where
  status := status
  waitNext _ := none
  waitQ _ := ⟨none, none⟩
  locked := locked
  pc _ := .user

/-- The scheduler lets a waiting thread go on only when it is in no queue any more. -/
def Woken (w : WaitWorld) (a : Slot × WaitOp) : Prop :=
  match a.2 with
  | .resume _ => ∀ q, a.1 ∉ w.waiters q
  | _ => True

/-- A thread in this place may be a member of the queue. -/
def Pc.WaitsOn : Pc → QueueId → Prop
  | .lockWait m, q => q = .mutex m
  | .reacquireWait m, q => q = .mutex m
  | .condSpin c _ _, q => q = .cond c
  | .condOff c _, q => q = .cond c
  | _, _ => False

/-- The ways in which a step takes `t` off the queue `q`. -/
def Removes (w : WaitWorld) (a : Slot × WaitOp) (t : Slot) (q : QueueId) : Prop :=
  match a.2 with
  | .unlock m => q = .mutex m ∧ (w.waiters q).head? = some t
  | .condWait _ m _ _ => q = .mutex m ∧ (w.waiters q).head? = some t
  | .signal c => q = .cond c ∧ (w.waiters q).head? = some t
  | .broadcast c => q = .cond c
  | .timeout => t = a.1 ∧ ∃ c m, w.pc t = .condSpin c m true ∧ q = .cond c
  | _ => False

structure WaitsSound (w : WaitWorld) : Prop where
  queues : Queues w.waitNext w.waitQ w.waiters
  returned : ∀ t, w.pc t = .user → ∀ q, t ∉ w.waiters q

/-- The invariant: who is in a queue waits there, and a waiter that spins has not been woken. -/
structure WaitWorld.Ok (w : WaitWorld) (xs : QueueId → List Slot) : Prop where
  has : w.Has xs
  waits : ∀ q, ∀ t ∈ xs q, (w.pc t).WaitsOn q
  spins : ∀ c m timed t, w.pc t = .condSpin c m timed → t ∈ xs (.cond c) → w.status t = .blocked

section Invariant

variable {w w' : WaitWorld} {xs : QueueId → List Slot} {t : Slot} {pc : Pc} {q : QueueId} {c m : ℕ}

namespace WaitWorld.Ok

/-- A thread that is in no queue may be anywhere. -/
lemma goto (h : w.Ok xs) (ht : ∀ q, t ∉ xs q) : (w.goto t pc).Ok xs := by
  have hne : ∀ {q u}, u ∈ xs q → u ≠ t := fun hu heq => ht _ (heq ▸ hu)
  refine ⟨h.has, fun q u hu => ?_, fun c m timed u hpc hu => ?_⟩
  · simpa [WaitWorld.goto, hne hu] using h.waits q u hu
  · exact h.spins c m timed u (by simpa [WaitWorld.goto, hne hu] using hpc) hu

lemma setLocked (h : w.Ok xs) (locked : Bool) : (w.put (w.toWaits.setLocked m locked)).Ok xs :=
  ⟨h.has, h.waits, h.spins⟩

lemma setStatus (h : w.Ok xs) (ht : ∀ q, t ∉ xs q) (status : Status) : (w.put (w.toWaits.setStatus t status)).Ok xs := by
  refine ⟨h.has, h.waits, fun c m timed u hpc hu => ?_⟩
  have hne : u ≠ t := fun heq => ht _ (heq ▸ hu)
  simpa [put, Waits.setStatus, hne] using h.spins c m timed u hpc hu

/-- A thread goes to the end of a queue and waits there. -/
lemma append (h : w.Ok xs) (ht : ∀ q, t ∉ xs q) (hpc : pc.WaitsOn q) :
    ((w.put (w.toWaits.append q t)).goto t pc).Ok (Function.update xs q (xs q ++ [t])) := by
  have hmem : ∀ {r u}, u ∈ Function.update xs q (xs q ++ [t]) r → (u = t ∧ r = q) ∨ (u ≠ t ∧ u ∈ xs r) := by
    intro r u hu
    by_cases hr : r = q
    · subst hr
      rw [Function.update_self] at hu
      obtain hu | hu := List.mem_append.mp hu
      · exact .inr ⟨fun heq => ht r (heq ▸ hu), hu⟩
      · exact .inl ⟨List.mem_singleton.mp hu, rfl⟩
    · rw [Function.update_of_ne hr] at hu
      exact .inr ⟨fun heq => ht r (heq ▸ hu), hu⟩
  refine ⟨h.has.append ht, fun r u hu => ?_, fun c m timed u hu_pc hu => ?_⟩
  · obtain ⟨rfl, rfl⟩ | ⟨hne, hu⟩ := hmem hu
    · simpa [WaitWorld.goto, put] using hpc
    · simpa [WaitWorld.goto, put, hne] using h.waits r u hu
  · obtain ⟨rfl, -⟩ | ⟨hne, hu⟩ := hmem hu
    · simp [WaitWorld.goto, put, Waits.append, Waits.relink, Waits.setStatus]
    · have := h.spins c m timed u (by simpa [WaitWorld.goto, put, hne] using hu_pc) hu
      simpa [WaitWorld.goto, put, Waits.append, Waits.relink, Waits.setStatus, hne] using this

/-- The first waiter of a queue is woken, if there is one. -/
lemma pop (h : w.Ok xs) (q : QueueId) : ∃ xs', (w.put (w.toWaits.pop q).2).Ok xs' ∧
    ∀ r u, u ∈ xs r → u ∉ xs' r → r = q ∧ (xs r).head? = some u := by
  obtain ⟨-, hpop⟩ | ⟨t, rest, waits, hxs, hpop, hhas, hstatus, -⟩ := Waits.pop_cases (q := q) h.has
  · rw [hpop]
    exact ⟨xs, h, fun r u hu hnot => absurd hu hnot⟩
  · have hnodup := hxs ▸ (h.has.each q).nodup
    have hsub : ∀ {r u}, u ∈ Function.update xs q rest r → u ∈ xs r ∧ u ≠ t := by
      intro r u hu
      by_cases hr : r = q
      · subst hr
        rw [Function.update_self] at hu
        exact ⟨by simp [hxs, hu], fun heq => (List.nodup_cons.mp hnodup).1 (heq ▸ hu)⟩
      · rw [Function.update_of_ne hr] at hu
        exact ⟨hu, fun heq => hr (h.has.apart r q u hu (by simp [hxs, heq]))⟩
    rw [hpop]
    refine ⟨_, ⟨hhas, fun r u hu => h.waits r u (hsub hu).1, fun c m timed u hpc hu => ?_⟩, ?_⟩
    · change waits.status u = _
      rw [hstatus, Function.update_of_ne (hsub hu).2]
      exact h.spins c m timed u hpc (hsub hu).1
    · intro r u hu hnot
      by_cases hr : r = q
      · subst hr
        rw [Function.update_self] at hnot
        rw [hxs] at hu ⊢
        obtain rfl | hu := List.mem_cons.mp hu
        · exact ⟨rfl, rfl⟩
        · exact absurd hu hnot
      · rw [Function.update_of_ne hr] at hnot
        exact absurd hu hnot

lemma broadcast (h : w.Ok xs) (c : ℕ) : ∃ xs', (w.put (w.toWaits.broadcast c).2).Ok xs' ∧
    ∀ r u, u ∈ xs r → u ∉ xs' r → r = .cond c := by
  obtain ⟨waits, hb, hhas, hstatus, -⟩ := Waits.broadcast_has (c := c) h.has
  have hsub : ∀ {r u}, u ∈ Function.update xs (.cond c) [] r → r ≠ .cond c ∧ u ∈ xs r := by
    intro r u hu
    by_cases hr : r = .cond c
    · simp [hr] at hu
    · rw [Function.update_of_ne hr] at hu
      exact ⟨hr, hu⟩
  rw [hb]
  refine ⟨_, ⟨hhas, fun r u hu => h.waits r u (hsub hu).2, fun d m timed u hpc hu => ?_⟩, ?_⟩
  · obtain ⟨hne, hu⟩ := hsub hu
    have hout : u ∉ xs (.cond c) := fun hin => hne (h.has.apart _ _ u hu hin)
    change waits.status u = _
    rw [hstatus]
    simpa [hout] using h.spins d m timed u hpc hu
  · intro r u hu hnot
    by_contra hr
    rw [Function.update_of_ne hr] at hnot
    exact hnot hu

/-- A spinning thread gives up. -/
lemma timeout {timed : Bool} (h : w.Ok xs) (hpc : w.pc t = .condSpin c m timed) (pc : Pc) : ∃ waits xs',
    w.toWaits.timeout c t = some waits ∧ ((w.put waits).goto t pc).Ok xs' ∧
      ∀ r u, u ∈ xs r → u ∉ xs' r → r = .cond c ∧ u = t := by
  obtain ⟨waits, ys, htimeout, hhas, hys, hstatus, -⟩ := Waits.timeout_has (c := c) (t := t) h.has
  have hsub : ∀ {r u}, u ∈ Function.update xs (.cond c) ys r → u ∈ xs r ∧ u ≠ t := by
    intro r u hu
    by_cases hr : r = .cond c
    · subst hr
      rw [Function.update_self] at hu
      exact (hys u).mp hu
    · rw [Function.update_of_ne hr] at hu
      refine ⟨hu, fun heq => ?_⟩
      have hwait := h.waits r t (heq ▸ hu)
      rw [hpc] at hwait
      exact hr hwait
  refine ⟨waits, _, htimeout, ⟨hhas, fun r u hu => ?_, fun d m timed u hu_pc hu => ?_⟩, ?_⟩
  · simpa [WaitWorld.goto, put, (hsub hu).2] using h.waits r u (hsub hu).1
  · change waits.status u = _
    rw [hstatus, Waits.wakeIfBlocked_status]
    have hblocked := h.spins d m timed u (by simpa [WaitWorld.goto, put, (hsub hu).2] using hu_pc) (hsub hu).1
    split_ifs
    · rwa [Function.update_of_ne (hsub hu).2]
    · exact hblocked
  · intro r u hu hnot
    by_cases hr : r = .cond c
    · subst hr
      rw [Function.update_self, hys] at hnot
      exact ⟨rfl, by_contra fun hne => hnot ⟨hu, hne⟩⟩
    · rw [Function.update_of_ne hr] at hnot
      exact absurd hu hnot

/-- A thread that goes for a mutex is in no queue, and afterwards at most in that of the mutex. -/
lemma takeOr (h : w.Ok xs) (ht : ∀ q, t ∉ xs q) (hpc : pc.WaitsOn (.mutex m)) :
    ∃ xs', (w.takeOr t m pc).Ok xs' ∧ ∀ r u, u ∈ xs r → u ∈ xs' r := by
  unfold WaitWorld.takeOr
  split_ifs
  · refine ⟨_, h.append ht hpc, fun r u hu => ?_⟩
    by_cases hr : r = .mutex m
    · subst hr
      rw [Function.update_self]
      exact List.mem_append_left _ hu
    · rwa [Function.update_of_ne hr]
  · exact ⟨xs, (h.setLocked true).goto ht, fun r u hu => hu⟩

end WaitWorld.Ok

/-- A thread that is not waiting is in no queue. -/
lemma WaitWorld.Ok.unlinked (h : w.Ok xs) (hpc : ∀ q, ¬ (w.pc t).WaitsOn q) (q : QueueId) : t ∉ xs q :=
  fun hin => hpc q (h.waits q t hin)

/-- Every step keeps the invariant, and takes a thread off a queue only by waking it or when the
thread itself gives up. -/
theorem waitStep_ok {a : Slot × WaitOp} (h : w.Ok xs) (hwoken : Woken w a) (hstep : waitStep w a = some w') :
    ∃ xs', w'.Ok xs' ∧ ∀ q t, t ∈ xs q → t ∉ xs' q → Removes w a t q := by
  have hlists : w.waiters = xs := h.has.waiters_eq
  have hidle : ∀ {xs' : QueueId → List Slot}, (∀ q u, u ∈ xs q → u ∈ xs' q) → ∀ q t, t ∈ xs q → t ∉ xs' q → Removes w a t q :=
    fun hsub q t hin hout => absurd (hsub q t hin) hout
  obtain ⟨t, op⟩ := a
  unfold waitStep at hstep
  dsimp only at hstep
  split at hstep
  case h_1 m hpc =>
    obtain rfl := Option.some.inj hstep
    exact ⟨xs, h.goto (h.unlinked (by simp [hpc, Pc.WaitsOn])), hidle fun _ _ hu => hu⟩
  case h_2 m hpc =>
    obtain rfl := Option.some.inj hstep
    have hwaits : Pc.WaitsOn (.lockWait m) (.mutex m) := rfl
    obtain ⟨xs', hok, hsub⟩ := h.takeOr (h.unlinked (t := t) (by simp [hpc, Pc.WaitsOn])) hwaits
    exact ⟨xs', hok, hidle hsub⟩
  case h_3 m hpc =>
    obtain rfl := Option.some.inj hstep
    refine ⟨xs, ?_, hidle fun _ _ hu => hu⟩
    split_ifs
    · exact h
    · exact h.setLocked true
  case h_4 m hpc =>
    obtain rfl := Option.some.inj hstep
    obtain ⟨xs', hok, hremoved⟩ := (h.setLocked false).pop (.mutex m)
    refine ⟨xs', hok, fun q u hu hout => ?_⟩
    obtain ⟨rfl, hhead⟩ := hremoved q u hu hout
    exact ⟨rfl, hlists ▸ hhead⟩
  case h_5 c hpc =>
    obtain rfl := Option.some.inj hstep
    obtain ⟨xs', hok, hremoved⟩ := h.pop (.cond c)
    refine ⟨xs', hok, fun q u hu hout => ?_⟩
    obtain ⟨rfl, hhead⟩ := hremoved q u hu hout
    exact ⟨rfl, hlists ▸ hhead⟩
  case h_6 c hpc =>
    obtain rfl := Option.some.inj hstep
    obtain ⟨xs', hok, hremoved⟩ := h.broadcast c
    exact ⟨xs', hok, fun q u hu hout => hremoved q u hu hout⟩
  case h_7 c m timed off hpc =>
    obtain rfl := Option.some.inj hstep
    -- the thread joins the queue of the condition, and then the first waiter of the mutex is woken
    have hout := h.unlinked (t := t) (by simp [hpc, Pc.WaitsOn])
    have hwaits : Pc.WaitsOn (if off then .condOff c m else .condSpin c m timed) (.cond c) := by
      split_ifs <;> rfl
    obtain ⟨xs', hok, hremoved⟩ := ((h.append hout hwaits).setLocked (m := m) false).pop (.mutex m)
    refine ⟨xs', hok, fun q u hu hnot => ?_⟩
    have hu' : u ∈ Function.update xs (.cond c) (xs (.cond c) ++ [t]) q := by
      by_cases hq : q = .cond c
      · subst hq
        rw [Function.update_self]
        exact List.mem_append_left _ hu
      · rwa [Function.update_of_ne hq]
    obtain ⟨rfl, hhead⟩ := hremoved q u hu' hnot
    rw [Function.update_of_ne (by simp)] at hhead
    exact ⟨rfl, hlists ▸ hhead⟩
  case h_8 c m timed hpc =>
    split_ifs at hstep with hstatus
    obtain rfl := Option.some.inj hstep
    refine ⟨xs, h.goto fun q hin => ?_, hidle fun _ _ hu => hu⟩
    have hq := h.waits q t hin
    rw [hpc] at hq
    obtain rfl : q = .cond c := hq
    exact hstatus (h.spins c m timed t hpc hin)
  case h_9 c m hpc =>
    obtain ⟨waits, xs', htimeout, hok, hremoved⟩ := h.timeout hpc (.reacquire m)
    rw [htimeout] at hstep
    obtain rfl := Option.some.inj hstep
    refine ⟨xs', hok, fun q u hu hout => ?_⟩
    obtain ⟨rfl, rfl⟩ := hremoved q u hu hout
    exact ⟨rfl, c, m, hpc, rfl⟩
  case h_10 m hpc =>
    obtain rfl := Option.some.inj hstep
    have hwaits : Pc.WaitsOn (.reacquireWait m) (.mutex m) := rfl
    obtain ⟨xs', hok, hsub⟩ := h.takeOr (h.unlinked (t := t) (by simp [hpc, Pc.WaitsOn])) hwaits
    exact ⟨xs', hok, hidle hsub⟩
  case h_11 dispatched =>
    have hout : ∀ q, t ∉ xs q := hlists ▸ hwoken
    have hset : (if dispatched then w.put (w.toWaits.setStatus t .running) else w).Ok xs := by
      split_ifs
      · exact h.setStatus hout _
      · exact h
    refine ⟨xs, ?_, hidle fun _ _ hu => hu⟩
    split at hstep
    · obtain rfl := Option.some.inj hstep
      exact hset.goto hout
    · split_ifs at hstep with hd
      obtain rfl := Option.some.inj hstep
      rw [if_pos hd] at hset
      exact hset.goto hout
    · obtain rfl := Option.some.inj hstep
      exact hset.goto hout
    · split_ifs at hstep with hd
      obtain rfl := Option.some.inj hstep
      rwa [if_pos hd] at hset
    · cases hstep
  case h_12 => cases hstep

lemma WaitWorld.start_ok (status : Slot → Status) (locked : ℕ → Bool) : (WaitWorld.start status locked).Ok fun _ => [] :=
  ⟨⟨fun _ => ⟨rfl, List.nodup_nil, rfl⟩, by simp⟩, by simp, by simp⟩

lemma WaitWorld.Ok.sound (h : w.Ok xs) : WaitsSound w := by
  have hlists : w.waiters = xs := h.has.waiters_eq
  rw [← hlists] at h
  exact ⟨h.has, fun t hpc q => h.unlinked (by simp [hpc, Pc.WaitsOn]) q⟩

theorem waitRun_ok {status : Slot → Status} {locked : ℕ → Bool} {acts : List (Slot × WaitOp)}
    (hrun : run waitStep (.start status locked) acts = some w)
    (hwoken : Along waitStep Woken (.start status locked) acts) : ∃ xs, w.Ok xs := by
  refine @run_invariant _ _ _ _ (fun w => ∃ xs, w.Ok xs) ?_ _ _ _ ⟨_, WaitWorld.start_ok status locked⟩ hwoken hrun
  rintro w a w' ⟨xs, hok⟩ hw hstep
  obtain ⟨xs', hok', -⟩ := waitStep_ok hok hw hstep
  exact ⟨xs', hok'⟩

end Invariant

/-- In every run in which the scheduler lets no thread go on before it has been woken, the wait
queues lose no waiter. -/
theorem wait_queues_sound {status : Slot → Status} {locked : ℕ → Bool} {acts : List (Slot × WaitOp)} {w : WaitWorld}
    (hrun : run waitStep (.start status locked) acts = some w)
    (hwoken : Along waitStep Woken (.start status locked) acts) :
    WaitsSound w ∧ ∀ a w', Woken w a → waitStep w a = some w' →
      ∀ q t, t ∈ w.waiters q → t ∉ w'.waiters q → Removes w a t q := by
  obtain ⟨xs, hok⟩ := waitRun_ok hrun hwoken
  refine ⟨hok.sound, fun a w' hw hstep q t hin hout => ?_⟩
  obtain ⟨xs', hok', hremoved⟩ := waitStep_ok hok hw hstep
  have h1 : w.waiters = xs := hok.has.waiters_eq
  have h2 : w'.waiters = xs' := hok'.has.waiters_eq
  rw [h1] at hin
  rw [h2] at hout
  exact hremoved q t hin hout

section Sample

/-- Thread 0 holds the mutex; 1 and 2 wait for it. -/
def twoWaiters : List (Slot × WaitOp) :=
  [(0, .lock 0), (0, .lockSection), (1, .lock 0), (1, .lockSection), (2, .lock 0), (2, .lockSection)]

abbrev sampleStart : WaitWorld := .start (fun _ => .running) fun _ => false

lemma twoWaiters_woken : Along waitStep Woken sampleStart (twoWaiters ++ [(0, .unlock 0)]) := by
  simp only [twoWaiters, List.cons_append, List.nil_append]
  repeat'
    refine ⟨trivial, ?_⟩
    rintro _ ⟨⟩
  trivial

/-- The first waiter is woken by the unlock and takes the mutex; the second one still waits. -/
theorem wait_queues_sound_handoff : ∃ w, run waitStep sampleStart
      (twoWaiters ++ [(0, .unlock 0)] ++ [(1, .resume true), (1, .lockSection)]) = some w ∧ WaitsSound w := by
  refine ⟨_, rfl, (@wait_queues_sound (fun _ => .running) (fun _ => false)
    (twoWaiters ++ [(0, .unlock 0)] ++ [(1, .resume true), (1, .lockSection)]) _ rfl ?_).1⟩
  refine along_append.mpr ⟨twoWaiters_woken, ?_⟩
  intro w hw
  refine ⟨?_, fun _ _ => ⟨trivial, fun _ _ => trivial⟩⟩
  obtain ⟨xs, hok⟩ := waitRun_ok hw twoWaiters_woken
  intro q hin
  rw [hok.has.waiters_eq] at hin
  have hq := hok.waits q _ hin
  rw [← hok.has.waiters_eq] at hin
  obtain rfl := Option.some.inj hw
  obtain rfl : q = .mutex 0 := hq
  revert hin
  decide

/-- `house_sched_block` of the first waiter returns although the mutex is still held. The thread
links itself again, which cuts off the waiter behind it. -/
theorem waiter_cut_off : ∃ w w', run waitStep sampleStart (twoWaiters ++ [(1, .resume false)]) = some w ∧
    waitStep w (1, .lockSection) = some w' ∧ 2 ∈ w.waiters (.mutex 0) ∧ 2 ∉ w'.waiters (.mutex 0) ∧
    ¬ Removes w (1, .lockSection) 2 (.mutex 0) := by
  refine ⟨_, _, rfl, rfl, by decide, by decide, ?_⟩
  intro h
  exact h

end Sample

end HouseKernel.Threads
