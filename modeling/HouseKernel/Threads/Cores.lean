import HouseKernel.Threads.RunQueues

/-! What a step does to the contexts of the cores: it stays with the thread of its core, or takes
the next one from the queue. Between the two halves of a switch a core executes the old context
and has the new thread as its current one already. -/
namespace HouseKernel.Threads

open HouseKernel.Lib

/-- A thread that is switched out goes on at such a place. -/
def Point.Resumes : Point → Bool
  | .lockBlock _ | .lockBlockAgain _ | .sleepSpin | .exiting | .exitMarked => false
  | _ => true

/-- A core executes its current thread, or the one that it is about to save. -/
structure Sched.Placed (s : Sched) : Prop where
  own : ∀ c x, s.saving c = none → s.live c = some x → s.current c = some x.self
  mid : ∀ c old new x, s.saving c = some (old, new) → s.live c = some x → s.current c = some new ∧ x.self = old
  self : ∀ t, (s.saved t).self = t
  resumes : ∀ c x, s.saving c ≠ none → s.live c = some x → x.pc.Resumes = true
  saved : ∀ t, (s.saved t).pc.Resumes = true

/-- The core has the thread as its current one, or has not yet saved it. -/
def Sched.Holds (s : Sched) (t : Slot) (core : CoreId) : Prop :=
  s.current core = some t ∨ ∃ new, s.saving core = some (t, new)

structure Sched.SameContexts (s s' : Sched) : Prop where
  current : s'.current = s.current
  saving : s'.saving = s.saving
  saved : s'.saved = s.saved
  live : s'.live = s.live

/-- The cores keep their threads; the code of `core` goes on at `pc`. -/
structure Sched.Stays (s s' : Sched) (core : CoreId) (pc : Point) : Prop where
  current : s'.current = s.current
  saving : s'.saving = s.saving
  saved : s'.saved = s.saved
  live : s'.live = (s.goto core pc).live

/-- `core` begins to switch from `old`, which will go on at `pc`, to `new`. -/
structure Sched.Switches (s s' : Sched) (core : CoreId) (old new : Slot) (pc : Point) : Prop where
  current : s'.current = Function.update s.current core (some new)
  saving : s'.saving = Function.update s.saving core (some (old, new))
  saved : s'.saved = s.saved
  live : s'.live = (s.goto core pc).live

/-- The effect of a section on the contexts. -/
inductive Sched.Contexts (s s' : Sched) (core : CoreId) (old : Slot) : Prop where
  | same (h : s.SameContexts s')
  | stays (pc : Point) (h : s.Stays s' core pc)
  | switches (new : Slot) (pc : Point) (hpc : pc.Resumes = true) (h : s.Switches s' core old new pc)

/-- What a section of the code at `x.pc` may do, each with what held before it. -/
inductive CodeMove (s : Sched) (core : CoreId) (cur : Slot) (x : Ctx) : Op → Sched → Prop where
  | stay {op : Op} : CodeMove s core cur x op s
  | goes {op : Op} (pc : Point) (hfrom : x.pc.Resumes = true) (hto : pc.Resumes = true) : CodeMove s core cur x op (s.goto core pc)
  | yields {op : Op} (pc : Point) (hfrom : x.pc.Resumes = true) (hto : pc.Resumes = true) :
      CodeMove s core cur x op (s.yieldTo core cur pc)
  | create (stack tcb : ℕ) (s' : Sched) (h : s.create stack tcb = some s') : CodeMove s core cur x (.create stack tcb) s'
  | malloc (block : ℕ) (hfree : s.used block = false) :
      CodeMove s core cur x (.malloc block) { s with used := Function.update s.used block true }
  | exit (hpc : x.pc = .user) :
      CodeMove s core cur x .exit ({ s with exited := Function.update s.exited cur true }.goto core .exiting)
  | exitMark (hpc : x.pc = .exiting) : CodeMove s core cur x .exitMark ((s.setStatus cur .exited).goto core .exitMarked)
  | exitSection (hpc : x.pc = .exitMarked) : CodeMove s core cur x .exitSection (s.exitSection core cur)
  | joinSection (target : Slot) (hpc : x.pc = .joinLock target) : CodeMove s core cur x .joinSection (s.joinSection core cur target)
  | reap (target : Slot) (hpc : x.pc = .joinReap target) :
      CodeMove s core cur x .reap ({ s.reapThread target with tid := Function.update s.tid target 0 }.goto core .user)
  | detach (tid : ℕ) : CodeMove s core cur x (.detach tid) (s.detach tid)
  | wake (t : Slot) (hblocked : s.status t = .blocked) : CodeMove s core cur x (.wake t) (s.enqueueRun t)
  | takes {op : Op} (m : ℕ) (hfrom : x.pc.Resumes = true) :
      CodeMove s core cur x op ((s.put (s.toWaits.setLocked m true)).goto core .user)
  | waits (m : ℕ) (hpc : x.pc = .lockLoop m) (hlocked : s.locked m = true) :
      CodeMove s core cur x .lockSection ((s.put (s.toWaits.append (.mutex m) cur)).goto core (.lockBlock m))
  | blocks (m : ℕ) (hpc : x.pc = .lockBlock m) : CodeMove s core cur x .block (s.leave core cur (.lockLoop m) (.lockBlockAgain m))
  | blocksAgain (m : ℕ) (hpc : x.pc = .lockBlockAgain m) : CodeMove s core cur x .block (s.leave core cur (.lockLoop m) (.lockLoop m))
  | trylock (m : ℕ) : CodeMove s core cur x (.trylock m) (s.put (s.toWaits.setLocked m true))
  | unlock (m : ℕ) : CodeMove s core cur x (.unlock m) (s.putWoken (s.toWaits.unlock m))
  | signal (c : ℕ) : CodeMove s core cur x (.signal c) (s.putWoken (s.toWaits.pop (.cond c)))
  | broadcast (c : ℕ) :
      CodeMove s core cur x (.broadcast c) ((s.put (s.toWaits.broadcast c).2).wakeAll (s.toWaits.broadcast c).1)
  | condWait (c m : ℕ) (timed : Bool) (hpc : x.pc = .user) : CodeMove s core cur x (.condWait c m timed)
      ((s.putWoken (s.toWaits.startWait c m cur)).leave core cur (.reacquire m) (.condSpin c m timed))
  | timeout (c m : ℕ) (waits : Waits) (hpc : x.pc = .condSpin c m true) (h : s.toWaits.timeout c x.self = some waits) :
      CodeMove s core cur x .timeout ((s.put waits).goto core (.reacquire m))
  | rewaits (m : ℕ) (hpc : x.pc = .reacquire m) (hlocked : s.locked m = true) : CodeMove s core cur x .reacquire
      ((s.put (s.toWaits.append (.mutex m) x.self)).leave core x.self (.reacquire m) (.reacquireYield m))
  | sleeps : CodeMove s core cur x .sleep ((s.setStatus cur .blocked).leave core cur .asleep .sleepSpin)
  | wakes (hpc : x.pc = .sleepSpin) : CodeMove s core cur x .sleepDone ((s.setStatus cur .running).goto core .user)
  | rebalance (s' : Sched) (h : Sched.rebalance (List.finRange 64) s = some s') : CodeMove s core cur x .rebalance s'
  | setAffinity (mask : BitVec 32) :
      CodeMove s core cur x (.setAffinity mask) { s with affinity := Function.update s.affinity cur mask }
  | coreDown (down : CoreId) (s' : Sched) (h : s.coreDown down = some s') :
      CodeMove s core cur x (.coreDown down) s'

section Contexts

variable {s s' s'' : Sched} {core : CoreId} {cur old new : Slot} {x : Ctx} {op : Op}

lemma Sched.SameContexts.refl (s : Sched) : s.SameContexts s := ⟨rfl, rfl, rfl, rfl⟩

lemma Sched.SameContexts.trans (h : s.SameContexts s') (h' : s'.SameContexts s'') : s.SameContexts s'' :=
  ⟨h'.current.trans h.current, h'.saving.trans h.saving, h'.saved.trans h.saved, h'.live.trans h.live⟩

lemma Sched.SameContexts.contexts (h : s.SameContexts s') (h' : s'.Contexts s'' core old) : s.Contexts s'' core old := by
  obtain ⟨hcurrent, hsaving, hsaved, hlive⟩ := h
  have hgoto : ∀ pc, (s'.goto core pc).live = (s.goto core pc).live := by
    intro pc
    rw [Sched.goto, Sched.goto, hlive]
  cases h' with
  | same h' => exact .same ⟨h'.current.trans hcurrent, h'.saving.trans hsaving, h'.saved.trans hsaved, h'.live.trans hlive⟩
  | stays pc h' =>
    exact .stays pc ⟨h'.current.trans hcurrent, h'.saving.trans hsaving, h'.saved.trans hsaved, h'.live.trans (hgoto pc)⟩
  | switches new pc hpc h' =>
    refine .switches new pc hpc ⟨?_, ?_, h'.saved.trans hsaved, h'.live.trans (hgoto pc)⟩
    · rw [h'.current, hcurrent]
    · rw [h'.saving, hsaving]

lemma Sched.Relinked.sameContexts (h : s.Relinked s') : s.SameContexts s' := by
  obtain ⟨_, _, rfl⟩ := h
  exact ⟨rfl, rfl, rfl, rfl⟩

lemma Sched.goto_stays (s : Sched) (core : CoreId) (pc : Point) : s.Stays (s.goto core pc) core pc := ⟨rfl, rfl, rfl, rfl⟩

lemma Sched.enqueueRunCore_contexts (s : Sched) (c : CoreId) (t : Slot) : s.SameContexts (s.enqueueRunCore c t) := by
  obtain ⟨_, _, _, h⟩ := s.enqueueRunCore_eq c t
  rw [h]
  exact ⟨rfl, rfl, rfl, rfl⟩

lemma Sched.wakeAll_contexts (s : Sched) (ts : List Slot) : s.SameContexts (s.wakeAll ts) := by
  obtain ⟨_, _, _, h⟩ := s.wakeAll_eq ts
  rw [h]
  exact ⟨rfl, rfl, rfl, rfl⟩

lemma Sched.putWoken_contexts (s : Sched) (r : Option Slot × Waits) : s.SameContexts (s.putWoken r) := by
  have hput : s.SameContexts (s.put r.2) := ⟨rfl, rfl, rfl, rfl⟩
  exact hput.trans ((s.put r.2).wakeAll_contexts r.1.toList)

lemma Sched.wakeJoiner_contexts (s : Sched) (t : Slot) : s.SameContexts (s.wakeJoiner t) := by
  unfold Sched.wakeJoiner
  split
  case h_1 => exact .refl s
  case h_2 j _ =>
    have hjoin : s.SameContexts { s with joiner := Function.update s.joiner t none } := ⟨rfl, rfl, rfl, rfl⟩
    exact hjoin.trans (Sched.enqueueRunCore_contexts _ _ j)

lemma Sched.leave_contexts (s : Sched) (core : CoreId) (old : Slot) {pc : Point} (hpc : pc.Resumes = true) (idle : Point) :
    s.Contexts (s.leave core old pc idle) core old := by
  unfold Sched.leave
  cases hdeq : s.dequeueRunCore core with
  | none => exact .stays idle (s.goto_stays core idle)
  | some r =>
    obtain ⟨new, s₁⟩ := r
    obtain ⟨t, -, heq⟩ := Option.map_eq_some_iff.mp hdeq
    obtain ⟨rfl, rfl⟩ := Prod.mk.inj heq
    exact .switches t pc hpc ⟨rfl, rfl, rfl, rfl⟩

lemma Sched.yieldTo_contexts (s : Sched) (core : CoreId) (old : Slot) {pc : Point} (hpc : pc.Resumes = true) :
    s.Contexts (s.yieldTo core old pc) core old := by
  obtain ⟨status, next, runQ, hreq⟩ := s.requeue_eq core old
  unfold Sched.yieldTo
  rw [hreq]
  cases hdeq : ({ s with status := status, next := next, runQ := runQ } : Sched).dequeueRunCore core with
  | none =>
    dsimp only
    split_ifs <;> exact .stays pc ⟨rfl, rfl, rfl, rfl⟩
  | some r =>
    obtain ⟨new, s₁⟩ := r
    obtain ⟨t, -, heq⟩ := Option.map_eq_some_iff.mp hdeq
    obtain ⟨rfl, rfl⟩ := Prod.mk.inj heq
    dsimp only
    split_ifs
    · exact .stays pc ⟨rfl, rfl, rfl, rfl⟩
    · exact .switches t pc hpc ⟨rfl, rfl, rfl, rfl⟩

lemma Sched.exitSection_contexts (s : Sched) (core : CoreId) (old : Slot) : s.Contexts (s.exitSection core old) core old := by
  have hreap : (s.wakeJoiner old).SameContexts
      (if (s.wakeJoiner old).detached old = true then (s.wakeJoiner old).reapThread old else s.wakeJoiner old) := by
    split_ifs <;> exact ⟨rfl, rfl, rfl, rfl⟩
  have hsame := (s.wakeJoiner_contexts old).trans hreap
  unfold Sched.exitSection
  refine hsame.contexts (Sched.SameContexts.contexts ?_ (Sched.leave_contexts _ core old rfl .dead))
  exact ⟨rfl, rfl, rfl, rfl⟩

lemma Sched.takeFrom_relinked {t : Slot} {cores : List CoreId} {r : Bool × Sched} (h : Sched.takeFrom t cores s = some r) :
    s.Relinked r.2 := by
  induction cores with
  | nil =>
    obtain rfl := Option.some.inj h
    exact .refl s
  | cons c cores ih =>
    obtain ⟨w, -, h⟩ := Option.bind_eq_some_iff.mp h
    split_ifs at h
    · obtain rfl := Option.some.inj h
      exact s.relinkRun_relinked c w.2
    · exact ih h

lemma Sched.dequeueSpecific_relinked {t : Slot} {cores : List CoreId} (h : Sched.dequeueSpecific t cores s = some s') :
    s.Relinked s' := by
  induction cores generalizing s with
  | nil =>
    obtain rfl := Option.some.inj h
    exact .refl s
  | cons c cores ih =>
    obtain ⟨r, -, h⟩ := Option.bind_eq_some_iff.mp h
    exact (s.relinkRun_relinked c r.2).trans (ih h)

lemma Sched.rebalanceOne_contexts {t : Slot} (h : s.rebalanceOne t = some s') : s.SameContexts s' := by
  unfold Sched.rebalanceOne at h
  split_ifs at h
  · obtain rfl := Option.some.inj h
    exact .refl s
  · obtain ⟨r, hr, rfl⟩ := Option.map_eq_some_iff.mp h
    split_ifs
    · exact (Sched.takeFrom_relinked hr).sameContexts.trans (r.2.enqueueRunCore_contexts _ t)
    · exact ⟨rfl, rfl, rfl, rfl⟩
  · obtain rfl := Option.some.inj h
    exact ⟨rfl, rfl, rfl, rfl⟩

lemma Sched.rebalance_contexts {ts : List Slot} (h : Sched.rebalance ts s = some s') : s.SameContexts s' := by
  induction ts generalizing s with
  | nil =>
    obtain rfl := Option.some.inj h
    exact .refl s
  | cons t ts ih =>
    obtain ⟨s₁, hone, hrest⟩ := Option.bind_eq_some_iff.mp h
    exact (Sched.rebalanceOne_contexts hone).trans (ih hrest)

/-- Every section of the code is one of the moves. -/
theorem codeStep_move (h : codeStep s core cur x op = some s') : CodeMove s core cur x op s' := by
  unfold codeStep at h
  split at h
  case h_1 => exact .create _ _ _ h
  case h_2 block _ =>
    split_ifs at h with hused
    obtain rfl := Option.some.inj h
    exact .malloc block (by simpa using hused)
  case h_6 tid hpc =>
    split at h <;> obtain rfl := Option.some.inj h
    · exact .stay
    · split_ifs
      · exact .stay
      · exact .goes _ (by rw [hpc]; rfl) rfl
  case h_26 hpc =>
    obtain ⟨waits, hwaits, rfl⟩ := Option.map_eq_some_iff.mp h
    exact .timeout _ _ waits hpc hwaits
  case h_33 => exact .rebalance _ h
  case h_35 =>
    split_ifs at h
    exact .coreDown _ _ h
  case h_36 => cases h
  all_goals obtain rfl := Option.some.inj h
  case h_3 hpc => exact .exit hpc
  case h_4 hpc => exact .exitMark hpc
  case h_5 hpc => exact .exitSection hpc
  case h_8 target hpc => exact .joinSection target hpc
  case h_10 target hpc => exact .reap target hpc
  case h_11 tid _ => exact .detach tid
  case h_13 t _ =>
    split_ifs with hblocked
    · exact .wake t hblocked
    · exact .stay
  case h_15 m hpc =>
    split_ifs with hlocked
    · exact .waits m hpc hlocked
    · exact .takes m (by rw [hpc]; rfl)
  case h_16 m hpc => exact .blocks m hpc
  case h_17 m hpc => exact .blocksAgain m hpc
  case h_18 m _ =>
    split_ifs
    · exact .stay
    · exact .trylock m
  case h_19 m _ => exact .unlock m
  case h_20 c _ => exact .signal c
  case h_21 c _ => exact .broadcast c
  case h_22 c m timed hpc => exact .condWait c m timed hpc
  case h_27 m hpc =>
    split_ifs with hlocked
    · exact .rewaits m hpc hlocked
    · exact .takes m (by rw [hpc]; rfl)
  case h_29 => exact .sleeps
  case h_30 => exact .sleeps
  case h_31 hpc => exact .wakes hpc
  case h_34 mask _ => exact .setAffinity mask
  -- what is left goes on at another place, perhaps chosen by a look, or yields
  all_goals
    rename x.pc = _ => hpc
    try split_ifs
    all_goals first
      | exact .goes _ (by rw [hpc]; rfl) rfl
      | exact .yields _ (by rw [hpc]; rfl) rfl

/-- Every section but those that make a thread or take a core down stays or switches. -/
theorem codeStep_contexts (hself : x.self = cur) (hcreate : ∀ stack tcb, s.create stack tcb ≠ some s')
    (hdown : ∀ down, s.coreDown down ≠ some s') (hstep : codeStep s core cur x op = some s') :
    s.Contexts s' core cur := by
  have hput : ∀ w, s.SameContexts (s.put w) := fun _ => ⟨rfl, rfl, rfl, rfl⟩
  cases codeStep_move hstep with
  | stay => exact .same (.refl s)
  | goes pc hfrom hto => exact .stays pc (s.goto_stays core pc)
  | yields pc hfrom hto => exact s.yieldTo_contexts core cur hto
  | create stack tcb _ h => exact absurd h (hcreate stack tcb)
  | malloc => exact .same ⟨rfl, rfl, rfl, rfl⟩
  | exit => exact .stays _ ⟨rfl, rfl, rfl, rfl⟩
  | exitMark => exact .stays _ ⟨rfl, rfl, rfl, rfl⟩
  | exitSection => exact s.exitSection_contexts core cur
  | joinSection target =>
    unfold Sched.joinSection
    split_ifs
    · exact .stays _ (s.goto_stays core _)
    · refine Sched.SameContexts.contexts ?_ (Sched.leave_contexts _ core cur rfl _)
      exact ⟨rfl, rfl, rfl, rfl⟩
  | reap => exact .stays _ ⟨rfl, rfl, rfl, rfl⟩
  | detach =>
    unfold Sched.detach
    split
    · exact .same (.refl s)
    · dsimp only
      split_ifs <;> exact .same ⟨rfl, rfl, rfl, rfl⟩
  | wake t => exact .same (s.enqueueRunCore_contexts _ t)
  | takes => exact .stays _ ⟨rfl, rfl, rfl, rfl⟩
  | waits => exact .stays _ ⟨rfl, rfl, rfl, rfl⟩
  | blocks => exact s.leave_contexts core cur rfl _
  | blocksAgain => exact s.leave_contexts core cur rfl _
  | trylock => exact .same (hput _)
  | unlock => exact .same (s.putWoken_contexts _)
  | signal => exact .same (s.putWoken_contexts _)
  | broadcast => exact .same ((hput _).trans (Sched.wakeAll_contexts _ _))
  | condWait => exact (s.putWoken_contexts _).contexts (Sched.leave_contexts _ core cur rfl _)
  | timeout => exact .stays _ ⟨rfl, rfl, rfl, rfl⟩
  | rewaits =>
    rw [hself]
    exact (hput _).contexts (Sched.leave_contexts _ core cur rfl _)
  | sleeps =>
    refine Sched.SameContexts.contexts ?_ (Sched.leave_contexts _ core cur rfl _)
    exact ⟨rfl, rfl, rfl, rfl⟩
  | wakes => exact .stays _ ⟨rfl, rfl, rfl, rfl⟩
  | rebalance _ h => exact .same (Sched.rebalance_contexts h)
  | setAffinity => exact .same ⟨rfl, rfl, rfl, rfl⟩
  | coreDown down _ h => exact absurd h (hdown down)

/-- A new thread gets a context of its own, and nothing else changes. -/
lemma Sched.create_contexts {stack tcb : ℕ} (h : s.create stack tcb = some s') : s' = s ∨ ∃ t, s.allocThread = some t ∧
    s.SameContexts { s' with saved := s.saved } ∧
        s'.saved = Function.update s.saved t ⟨t, s.nextTid, some stack, some tcb, .user⟩ := by
  unfold Sched.create at h
  split_ifs at h
  split at h
  case h_1 => exact .inl (Option.some.inj h).symm
  case h_2 t ht =>
    obtain ⟨s₁, hdeq, rfl⟩ := Option.map_eq_some_iff.mp h
    obtain ⟨_, _, rfl⟩ := Sched.dequeueSpecific_relinked hdeq
    obtain ⟨_, _, _, henq⟩ := Sched.enqueueRunCore_eq (Sched.initThread _ t stack tcb) (Sched.createCore _) t
    rw [henq]
    exact .inr ⟨t, ht, ⟨rfl, rfl, rfl, rfl⟩, rfl⟩

lemma Sched.migrate_contexts {dst : CoreId} {fuel : ℕ} {p : Option Slot} (h : Sched.migrate dst fuel p s = some s') :
    s.SameContexts s' := by
  induction fuel generalizing s p with
  | zero => cases h
  | succ fuel ih =>
    cases p with
    | none =>
      obtain rfl := Option.some.inj h
      exact .refl s
    | some t =>
      have hrest := ih h
      exact ⟨hrest.current, hrest.saving, hrest.saved, hrest.live⟩

lemma Sched.coreDown_contexts {down : CoreId} (h : s.coreDown down = some s') : ({ s with
    current := Function.update s.current down none, live := Function.update s.live down none } : Sched).SameContexts s' := by
  have hmigrate := Sched.migrate_contexts h
  exact ⟨hmigrate.current, hmigrate.saving, hmigrate.saved, hmigrate.live⟩

namespace Sched.Placed

/-- A core has the thread that it executes. -/
lemma holds (h : s.Placed) (hx : s.live core = some x) : s.Holds x.self core := by
  cases hsav : s.saving core with
  | none => exact .inl (h.own core x hsav hx)
  | some r =>
    obtain ⟨o, n⟩ := r
    rw [(h.mid core o n x hsav hx).2]
    exact .inr ⟨n, hsav⟩

lemma same (h : s.Placed) (hsame : s.SameContexts s') : s'.Placed := by
  constructor
  · rw [hsame.saving, hsame.live, hsame.current]
    exact h.own
  · rw [hsame.saving, hsame.live, hsame.current]
    exact h.mid
  · rw [hsame.saved]
    exact h.self
  · rw [hsame.saving, hsame.live]
    exact h.resumes
  · rw [hsame.saved]
    exact h.saved

lemma goto (h : s.Placed) (hidle : s.saving core = none) (pc : Point) : (s.goto core pc).Placed := by
  have hlift : ∀ {c y}, (s.goto core pc).live c = some y → ∃ z, s.live c = some z ∧ z.self = y.self := by
    intro c y hy
    by_cases hc : c = core
    · subst hc
      simp only [Sched.goto, Function.update_self] at hy
      obtain ⟨z, hz, rfl⟩ := Option.map_eq_some_iff.mp hy
      exact ⟨z, hz, rfl⟩
    · simp only [Sched.goto, Function.update_of_ne hc] at hy
      exact ⟨y, hy, rfl⟩
  constructor
  · intro c y hsav hy
    obtain ⟨z, hz, hself⟩ := hlift hy
    rw [← hself]
    exact h.own c z hsav hz
  · intro c o n y hsav hy
    obtain ⟨z, hz, hself⟩ := hlift hy
    rw [← hself]
    exact h.mid c o n z hsav hz
  · exact h.self
  · intro c y hsav hy
    have hc : c ≠ core := by
      rintro rfl
      exact hsav hidle
    simp only [Sched.goto, Function.update_of_ne hc] at hy
    exact h.resumes c y hsav hy
  · exact h.saved

lemma contexts (h : s.Placed) (hidle : s.saving core = none) (hcur : s.current core = some old)
    (hstep : s.Contexts s' core old) : s'.Placed := by
  cases hstep with
  | same hsame => exact h.same hsame
  | stays pc hstays => exact (h.goto hidle pc).same ⟨hstays.current, hstays.saving, hstays.saved, hstays.live⟩
  | switches new pc hpc hswitch =>
    have hgoto := h.goto hidle pc
    constructor
    · intro c y hsav hy
      rw [hswitch.saving] at hsav
      rw [hswitch.live] at hy
      have hc : c ≠ core := by
        rintro rfl
        simp at hsav
      rw [hswitch.current, Function.update_of_ne hc]
      rw [Function.update_of_ne hc] at hsav
      exact hgoto.own c y hsav hy
    · intro c o n y hsav hy
      rw [hswitch.saving] at hsav
      rw [hswitch.live] at hy
      rw [hswitch.current]
      by_cases hc : c = core
      · subst hc
        rw [Function.update_self] at hsav
        obtain ⟨rfl, rfl⟩ := Prod.mk.inj (Option.some.inj hsav)
        have hown := hgoto.own c y hidle hy
        exact ⟨Function.update_self .., (Option.some.inj (hcur.symm.trans hown)).symm⟩
      · rw [Function.update_of_ne hc] at hsav ⊢
        exact hgoto.mid c o n y hsav hy
    · rw [hswitch.saved]
      exact h.self
    · intro c y hsav hy
      rw [hswitch.saving] at hsav
      rw [hswitch.live] at hy
      by_cases hc : c = core
      · subst hc
        simp only [Sched.goto, Function.update_self] at hy
        obtain ⟨z, -, rfl⟩ := Option.map_eq_some_iff.mp hy
        exact hpc
      · rw [Function.update_of_ne hc] at hsav
        exact hgoto.resumes c y hsav hy
    · rw [hswitch.saved]
      exact h.saved

lemma coreDown {down : CoreId} (h : s.Placed) (hstep : s.coreDown down = some s') : s'.Placed := by
  have hcut : ({ s with
      current := Function.update s.current down none, live := Function.update s.live down none } : Sched).Placed := by
    refine ⟨?_, ?_, h.self, ?_, h.saved⟩
    · intro c y hsav hy
      by_cases hc : c = down
      · simp [hc] at hy
      · simp only [Function.update_of_ne hc] at hy ⊢
        exact h.own c y hsav hy
    · intro c o n y hsav hy
      by_cases hc : c = down
      · simp [hc] at hy
      · simp only [Function.update_of_ne hc] at hy ⊢
        exact h.mid c o n y hsav hy
    · intro c y hsav hy
      by_cases hc : c = down
      · simp [hc] at hy
      · simp only [Function.update_of_ne hc] at hy
        exact h.resumes c y hsav hy
  exact hcut.same (Sched.coreDown_contexts hstep)

lemma finishSwitch (h : s.Placed) (hstep : finishSwitch s core = some s') : s'.Placed := by
  unfold Threads.finishSwitch at hstep
  split at hstep
  case h_2 => cases hstep
  case h_1 o n y hsav hy =>
    obtain rfl := Option.some.inj hstep
    obtain ⟨hcur, hself⟩ := h.mid core o n y hsav hy
    have hsaved : ∀ t, (Function.update s.saved o y t).self = t := by
      intro t
      by_cases ht : t = o
      · rw [ht, Function.update_self, hself]
      · rw [Function.update_of_ne ht]
        exact h.self t
    have hresumes : ∀ t, (Function.update s.saved o y t).pc.Resumes = true := by
      intro t
      by_cases ht : t = o
      · rw [ht, Function.update_self]
        exact h.resumes core y (by simp [hsav]) hy
      · rw [Function.update_of_ne ht]
        exact h.saved t
    refine ⟨?_, ?_, hsaved, ?_, hresumes⟩
    · intro c z hc hz
      by_cases hcc : c = core
      · subst hcc
        simp only [Function.update_self, Option.some.injEq] at hz
        rw [← hz, hsaved]
        exact hcur
      · simp only [Function.update_of_ne hcc] at hc hz
        exact h.own c z hc hz
    · intro c o' n' z hc hz
      by_cases hcc : c = core
      · subst hcc
        simp at hc
      · simp only [Function.update_of_ne hcc] at hc hz ⊢
        exact h.mid c o' n' z hc hz
    · intro c z hc hz
      by_cases hcc : c = core
      · subst hcc
        simp at hc
      · simp only [Function.update_of_ne hcc] at hc hz
        exact h.resumes c z hc hz

lemma create {stack tcb : ℕ} (h : s.Placed) (hstep : s.create stack tcb = some s') : s'.Placed := by
  obtain rfl | ⟨t, -, hsame, hsaved⟩ := Sched.create_contexts hstep
  · exact h
  · have hplaced := h.same hsame
    refine ⟨hplaced.own, hplaced.mid, fun u => ?_, hplaced.resumes, fun u => ?_⟩
    all_goals
      rw [hsaved]
      by_cases hu : u = t
      · simp [hu, Point.Resumes]
      · rw [Function.update_of_ne hu]
        first | exact h.self u | exact h.saved u

end Sched.Placed

theorem codeStep_placed (h : s.Placed) (hidle : s.saving core = none) (hcur : s.current core = some cur)
    (hx : s.live core = some x) (hstep : codeStep s core cur x op = some s') : s'.Placed := by
  have hself : x.self = cur := Option.some.inj ((h.own core x hidle hx).symm.trans hcur)
  by_cases hcreate : ∃ stack tcb, s.create stack tcb = some s'
  · obtain ⟨stack, tcb, hcreate⟩ := hcreate
    exact h.create hcreate
  by_cases hdown : ∃ down, s.coreDown down = some s'
  · obtain ⟨down, hdown⟩ := hdown
    exact h.coreDown hdown
  · refine h.contexts hidle hcur (codeStep_contexts hself (fun stack tcb hs => hcreate ⟨stack, tcb, hs⟩) ?_ hstep)
    exact fun down hs => hdown ⟨down, hs⟩

theorem threadStep_placed {a : CoreId × Op} (h : s.Placed) (hstep : threadStep s a = some s') : s'.Placed := by
  unfold threadStep at hstep
  split_ifs at hstep
  · exact h.finishSwitch hstep
  · split at hstep
    case h_1 cur x hidle hcur hx => exact codeStep_placed h hidle hcur hx hstep
    case h_2 => cases hstep

lemma boot_placed (n : ℕ) : (boot n).Placed := by
  refine ⟨?_, ?_, fun _ => rfl, fun c y hsav => absurd rfl hsav, fun _ => rfl⟩
  · intro c y _ hy
    simp only [boot] at hy ⊢
    split_ifs at hy ⊢ with hc
    obtain rfl := Option.some.inj hy
    rfl
  · intro c o n' x hsav
    simp [boot] at hsav

end Contexts

end HouseKernel.Threads
