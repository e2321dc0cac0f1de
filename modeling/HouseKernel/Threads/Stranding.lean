import HouseKernel.Threads.Lifetime

/-! No thread is lost: whoever has not exited is on a core, in a queue or waits for another thread
to exit. A thread may sleep only where nobody else wants to run, and a core may go down only when
its thread has exited. -/
namespace HouseKernel.Threads

open HouseKernel.Lib

/-- The thread has a slot and has not been through its last section. -/
def Sched.Alive (s : Sched) (t : Slot) : Prop := s.status t ≠ .unused ∧ s.gone t = false

/-- Every thread that is alive is current on a core that is online, on a run queue, in a wait queue,
or the joiner of a thread that is alive. -/
def NoneStranded (s : Sched) : Prop :=
  ∀ t, s.Alive t → (∃ c, s.current c = some t ∧ s.mask.getLsbD c = true) ∨ s.queuedAnywhere t = true ∨
    (∃ i, t ∈ s.toWaits.waiters i) ∨ ∃ u, s.joiner u = some t ∧ s.Alive u

/-- No wait queue has the thread. -/
def Sched.Unlinked (s : Sched) (t : Slot) : Prop := ∀ i, t ∉ s.toWaits.waiters i

/-- No step takes a thread out of circulation: a thread sleeps only when the queue of its core is
empty, a core goes down only without a thread, a thread waits in one queue at a time, and a thread
is freed only when it is through and nothing leads to it. A thread has one joiner. -/
def Circulating (s : Sched) (a : CoreId × Op) : Prop :=
  match a.2 with
  | .sleep => (s.runQ a.1).head = none
  | .coreDown core => ∀ t, s.current core = some t → ¬ s.Alive t
  | .lockSection => ∀ x m, s.live a.1 = some x → x.pc = .lockLoop m → s.locked m = true → s.Unlinked x.self
  | .reacquire => ∀ x m, s.live a.1 = some x → x.pc = .reacquire m → s.locked m = true → s.Unlinked x.self
  | .condWait _ _ _ => ∀ x, s.live a.1 = some x → s.Unlinked x.self
  | .reap => ∀ x target, s.live a.1 = some x → x.pc = .joinReap target → s.gone target = true ∧ s.Retired target
  | .joinSection => ∀ x target, s.live a.1 = some x → x.pc = .joinLock target → s.exited target = false →
    s.status target ≠ .unused ∧ ∀ j, s.joiner target = some j → j = x.self
  | .detach _ => False
  | _ => True

/-- The code waits for its core to be taken away. -/
def Point.Blocks : Point → Bool
  | .lockBlock _ | .lockBlockAgain _ => true
  | _ => false

/-- A thread of this status that is at `pc` on a core is not waiting for anybody else. -/
def Status.Allows : Status → Point → Bool
  | .blocked, pc => pc = .sleepSpin
  | .exited, pc => pc = .exitMarked
  | _, pc => !pc.Blocks

/-- Where a core goes on with its current thread. -/
def Sched.point (s : Sched) (core : CoreId) : Point :=
  if s.saving core = none then ((s.live core).map Ctx.pc).getD .user else .user

def Sched.Occupies (s : Sched) (t : Slot) (core : CoreId) : Prop :=
  s.current core = some t ∧ (s.status t).Allows (s.point core) = true

/-- A queue or another thread leads to the thread. -/
def Sched.Parked (s : Sched) (q : CoreId → List Slot) (xs : QueueId → List Slot) (t : Slot) : Prop :=
  (∃ c, t ∈ q c) ∨ (∃ i, t ∈ xs i) ∨ ∃ u, s.joiner u = some t ∧ s.Alive u

/-- What is known of the flags of the threads. -/
structure Sched.Steady (s : Sched) : Prop where
  leaving : ∀ c x, s.live c = some x → x.pc = .exiting ∨ x.pc = .exitMarked → s.exited x.self = true
  exits : ∀ t, s.gone t = true → s.exited t = true
  attached : ∀ t, s.detached t = false
  online : ∀ c t, s.current c = some t → s.mask.getLsbD c = true

/-- The invariant in the middle of a section, which has the threads `E` in hand. -/
structure Sched.Tracked (s : Sched) (q : CoreId → List Slot) (xs : QueueId → List Slot) (E : List Slot) : Prop where
  runs : s.Runs q
  has : s.toWaits.Has xs
  kept : ∀ t, s.Alive t → t ∉ E → s.Parked q xs t ∨ ∃ c, s.Occupies t c
  marked : ∀ t, s.Alive t → s.status t = .exited → ∃ c, s.Occupies t c
  steady : s.Steady

section Invariant

variable {s s' : Sched} {q q' : CoreId → List Slot} {xs xs' : QueueId → List Slot} {E : List Slot} {core : CoreId}
  {t u cur new : Slot} {pc idle : Point} {status : Status} {x : Ctx}

lemma Status.allows_blocks {status : Status} (hpc : pc.Blocks = true) : status.Allows pc = false := by
  cases status <;> cases pc <;> simp_all [Status.Allows, Point.Blocks]

lemma Status.allows_user (hpc : pc.Resumes = true) : status.Allows pc = status.Allows .user := by
  cases pc <;> first | (cases status <;> rfl) | cases hpc

lemma Point.Resumes.stays (hpc : pc.Resumes = true) : pc ≠ .exiting ∧ pc ≠ .exitMarked := by
  constructor <;> (rintro rfl; cases hpc)

@[simp] lemma Sched.point_goto_self (hidle : s.saving core = none) (hx : s.live core = some x) :
    (s.goto core pc).point core = pc := by
  simp [Sched.point, Sched.goto, hidle, hx]

@[simp] lemma Sched.point_goto_of_ne {c : CoreId} (hc : c ≠ core) : (s.goto core pc).point c = s.point c := by
  simp [Sched.point, Sched.goto, hc]

lemma Sched.point_live (hidle : s.saving core = none) (hx : s.live core = some x) : s.point core = x.pc := by
  simp [Sched.point, hidle, hx]

lemma Sched.Alive.setStatus (h : s.Alive u) (hstatus : status ≠ .unused) : (s.setStatus t status).Alive u := by
  refine ⟨?_, h.2⟩
  by_cases hu : u = t
  · simpa [Sched.setStatus, Waits.setStatus, hu] using hstatus
  · simpa [Sched.setStatus, Waits.setStatus, hu] using h.1

lemma Sched.Alive.of_setStatus (h : (s.setStatus t status).Alive u) (hu : u ≠ t) : s.Alive u := by
  refine ⟨?_, h.2⟩
  simpa [Sched.setStatus, Waits.setStatus, hu] using h.1

/-- Who is parked stays so when the queues keep their threads and the joiners stay. -/
lemma Sched.Parked.mono (h : s.Parked q xs t) (hq : ∀ c, t ∈ q c → ∃ c', t ∈ q' c') (hxs : ∀ i, t ∈ xs i → ∃ i', t ∈ xs' i')
    (hjoin : ∀ u, s.joiner u = some t → s.Alive u → ∃ u', s'.joiner u' = some t ∧ s'.Alive u') : s'.Parked q' xs' t := by
  obtain ⟨c, hc⟩ | ⟨i, hi⟩ | ⟨u, hu, halive⟩ := h
  · exact .inl (hq c hc)
  · exact .inr (.inl (hxs i hi))
  · exact .inr (.inr (hjoin u hu halive))

/-- A thread that its place does not allow is parked, or occupies another core. -/
lemma Sched.Tracked.elsewhere (h : s.Tracked q xs E) (halive : s.Alive t) (ht : t ∉ E)
    (hno : (s.status t).Allows (s.point core) = false) : s.Parked q xs t ∨ ∃ c ≠ core, s.Occupies t c := by
  obtain hparked | ⟨c, hc⟩ := h.kept t halive ht
  · exact .inl hparked
  · refine .inr ⟨c, ?_, hc⟩
    rintro rfl
    rw [hc.2] at hno
    cases hno

lemma Sched.getLsbD_coreBit_of_ne {c : CoreId} (hc : c ≠ core) : (Sched.coreBit core).getLsbD c = false := by
  have hne : c.val ≠ core.val := fun heq => hc (Fin.ext heq)
  simp only [Sched.coreBit, BitVec.getLsbD_shiftLeft, BitVec.getLsbD_one]
  simp
  omega

namespace Sched.Steady

lemma same (h : s.Steady) (hlive : s'.live = s.live) (hexited : s'.exited = s.exited) (hgone : s'.gone = s.gone)
    (hdetached : s'.detached = s.detached) (hcurrent : s'.current = s.current) (hmask : s'.mask = s.mask) : s'.Steady := by
  constructor
  · rw [hlive, hexited]
    exact h.leaving
  · rw [hgone, hexited]
    exact h.exits
  · rw [hdetached]
    exact h.attached
  · rw [hcurrent, hmask]
    exact h.online

lemma goto (h : s.Steady) (hpc : pc ≠ .exiting ∧ pc ≠ .exitMarked ∨ ∀ x, s.live core = some x → s.exited x.self = true) :
    (s.goto core pc).Steady := by
  refine ⟨fun c x hx hexit => ?_, h.exits, h.attached, h.online⟩
  by_cases hc : c = core
  · subst hc
    simp only [Sched.goto, Function.update_self] at hx
    obtain ⟨y, hy, rfl⟩ := Option.map_eq_some_iff.mp hx
    obtain hpc | hpc := hpc
    · exact absurd hexit (not_or.mpr hpc)
    · exact hpc y hy
  · simp only [Sched.goto, Function.update_of_ne hc] at hx
    exact h.leaving c x hx hexit

end Sched.Steady

namespace Sched.Tracked

lemma setStatus (h : s.Tracked q xs E) (hstatus : status ≠ .unused) (hexited : status ≠ .exited) :
    (s.setStatus t status).Tracked q xs (t :: E) := by
  have hsame : ∀ {u}, u ≠ t → (s.setStatus t status).status u = s.status u := by
    intro u hu
    simp [Sched.setStatus, Waits.setStatus, hu]
  refine ⟨h.runs, h.has, fun u halive hu => ?_, fun u halive hmark => ?_, h.steady.same rfl rfl rfl rfl rfl rfl⟩
  · rw [List.mem_cons, not_or] at hu
    obtain hparked | ⟨c, hc⟩ := h.kept u (halive.of_setStatus hu.1) hu.2
    · exact .inl (hparked.mono (fun c hc => ⟨c, hc⟩) (fun i hi => ⟨i, hi⟩) fun v hv ha => ⟨v, hv, ha.setStatus hstatus⟩)
    · refine .inr ⟨c, hc.1, ?_⟩
      rw [hsame hu.1]
      exact hc.2
  · have hut : u ≠ t := by
      rintro rfl
      exact hexited (by simpa [Sched.setStatus, Waits.setStatus] using hmark)
    rw [hsame hut] at hmark
    obtain ⟨c, hc⟩ := h.marked u (halive.of_setStatus hut) hmark
    refine ⟨c, hc.1, ?_⟩
    rw [hsame hut]
    exact hc.2

/-- A thread in hand is put on a queue. -/
lemma enqueue (h : s.Tracked q xs (t :: E)) (core : CoreId) :
    ∃ q', (s.enqueueRunCore core t).Tracked q' xs E ∧ ∃ c, t ∈ q' c := by
  obtain ⟨⟨k, hk⟩, heq⟩ | ⟨hout, heq, hruns⟩ := h.runs.enqueue core t
  · rw [heq]
    refine ⟨q, ⟨h.runs, h.has, fun u halive hu => ?_, h.marked, h.steady⟩, k, hk⟩
    by_cases hut : u = t
    · exact .inl (.inl ⟨k, hut ▸ hk⟩)
    · exact h.kept u halive (by simp [hut, hu])
  · have hrunnable := h.setStatus (t := t) (show Status.runnable ≠ .unused by simp) (by simp)
    have hsub : ∀ c u, u ∈ q c → ∃ c', u ∈ Function.update q core (q core ++ [t]) c' := by
      intro c u hu
      refine ⟨c, ?_⟩
      by_cases hc : c = core
      · subst hc
        rw [Function.update_self]
        exact List.mem_append_left _ hu
      · rwa [Function.update_of_ne hc]
    refine ⟨Function.update q core (q core ++ [t]), ?_, core, by simp⟩
    rw [heq] at hruns ⊢
    refine ⟨hruns, hrunnable.has, fun u halive hu => ?_, hrunnable.marked, h.steady.same rfl rfl rfl rfl rfl rfl⟩
    by_cases hut : u = t
    · exact .inl (.inl ⟨core, by simp [hut]⟩)
    · refine (hrunnable.kept u halive (by simp [hut, hu])).imp_left fun hparked => ?_
      exact hparked.mono (fun c hc => hsub c u hc) (fun i hi => ⟨i, hi⟩) fun v hv ha => ⟨v, hv, ha⟩

/-- The code of a core goes on at `pc`. -/
lemma goto (h : s.Tracked q xs E) (hidle : s.saving core = none) (hcur : s.current core = some cur) (hx : s.live core = some x)
    (hmark : s.Alive cur → x.pc ≠ .exitMarked)
    (hpc : pc ≠ .exiting ∧ pc ≠ .exitMarked ∨ ∀ y, s.live core = some y → s.exited y.self = true)
    (hgo : s.Alive cur → cur ∉ E → (s.Parked q xs cur ∨ ∃ c ≠ core, s.Occupies cur c) ∨ (s.status cur).Allows pc = true) :
    (s.goto core pc).Tracked q xs E := by
  have hother : ∀ {u c}, c ≠ core → s.Occupies u c → (s.goto core pc).Occupies u c := by
    intro u c hc hocc
    exact ⟨hocc.1, by rw [Sched.point_goto_of_ne hc]; exact hocc.2⟩
  refine ⟨h.runs, h.has, fun u halive hu => ?_, fun u halive hmarked => ?_, h.steady.goto hpc⟩
  · have hcase : (s.Parked q xs u ∨ ∃ c ≠ core, s.Occupies u c) ∨ u = cur ∧ (s.status cur).Allows pc = true := by
      obtain hparked | ⟨c, hc⟩ := h.kept u halive hu
      · exact .inl (.inl hparked)
      · by_cases hcc : c = core
        · subst hcc
          obtain rfl : cur = u := Option.some.inj (hcur.symm.trans hc.1)
          exact (hgo halive hu).imp_right fun hallow => ⟨rfl, hallow⟩
        · exact .inl (.inr ⟨c, hcc, hc⟩)
    obtain (hparked | ⟨c, hc, hocc⟩) | ⟨rfl, hallow⟩ := hcase
    · exact .inl hparked
    · exact .inr ⟨c, hother hc hocc⟩
    · exact .inr ⟨core, hcur, by rw [Sched.point_goto_self hidle hx]; exact hallow⟩
  · obtain ⟨c, hc⟩ := h.marked u halive hmarked
    refine ⟨c, hother ?_ hc⟩
    rintro rfl
    obtain rfl : cur = u := Option.some.inj (hcur.symm.trans hc.1)
    have hallow := hc.2
    rw [Sched.point_live hidle hx] at hallow
    rw [show s.status cur = .exited from hmarked] at hallow
    exact hmark halive (by simpa [Status.Allows] using hallow)

/-- The thread of a core gets a status and goes on at a place that the status allows. -/
lemma settle (h : s.Tracked q xs (cur :: E)) (hidle : s.saving core = none) (hcur : s.current core = some cur)
    (hx : s.live core = some x) (hstatus : status ≠ .unused) (hallow : status.Allows pc = true)
    (hpc : pc ≠ .exiting ∧ pc ≠ .exitMarked ∨ ∀ y, s.live core = some y → s.exited y.self = true) :
    ((s.setStatus cur status).goto core pc).Tracked q xs E := by
  have hsame : ∀ {u}, u ≠ cur → (s.setStatus cur status).status u = s.status u := by
    intro u hu
    simp [Sched.setStatus, Waits.setStatus, hu]
  have hself : ((s.setStatus cur status).goto core pc).Occupies cur core := by
    refine ⟨hcur, ?_⟩
    rw [Sched.point_goto_self (s := s.setStatus cur status) hidle hx]
    simpa [Sched.setStatus, Waits.setStatus, Sched.goto] using hallow
  have hother : ∀ {u c}, u ≠ cur → s.Occupies u c → ((s.setStatus cur status).goto core pc).Occupies u c := by
    intro u c hu hocc
    have hc : c ≠ core := by
      rintro rfl
      exact hu (Option.some.inj (hocc.1.symm.trans hcur))
    refine ⟨hocc.1, ?_⟩
    rw [Sched.point_goto_of_ne (s := s.setStatus cur status) hc]
    change ((s.setStatus cur status).status u).Allows (s.point c) = true
    rw [hsame hu]
    exact hocc.2
  have hsteady : (s.setStatus cur status).Steady := h.steady.same rfl rfl rfl rfl rfl rfl
  refine ⟨h.runs, h.has, fun u halive hu => ?_, fun u halive hmarked => ?_, hsteady.goto hpc⟩
  · by_cases hut : u = cur
    · exact .inr ⟨core, hut ▸ hself⟩
    · have hold : s.Alive u := Sched.Alive.of_setStatus halive hut
      obtain hparked | ⟨c, hc⟩ := h.kept u hold (by simp [hut, hu])
      · left
        refine hparked.mono (fun c hc => ⟨c, hc⟩) (fun i hi => ⟨i, hi⟩) fun v hv ha => ⟨v, hv, ?_⟩
        exact ha.setStatus hstatus
      · exact .inr ⟨c, hother hut hc⟩
  · by_cases hut : u = cur
    · exact ⟨core, hut ▸ hself⟩
    · have hmark : s.status u = .exited := (hsame hut).symm.trans hmarked
      obtain ⟨c, hc⟩ := h.marked u (Sched.Alive.of_setStatus halive hut) hmark
      exact ⟨c, hother hut hc⟩

/-- The core switches to the first thread of its queue; the old thread must be in good hands. -/
lemma switchTo {rest : List Slot} (h : s.Tracked q xs E) (hidle : s.saving core = none) (hcur : s.current core = some cur)
    (hx : s.live core = some x) (hq : q core = new :: rest)
    (hruns : (s.relinkRun core ((s.runLinks core).popFront new)).Runs (Function.update q core rest)) (hpc : pc.Resumes = true)
    (hmark : s.Alive cur → x.pc ≠ .exitMarked) (hgo : s.Alive cur → s.Parked q xs cur ∨ ∃ c ≠ core, s.Occupies cur c) :
    (((s.relinkRun core ((s.runLinks core).popFront new)).switchTo core cur new).goto core pc).Tracked
      (Function.update q core rest) xs E := by
  generalize hs₁ : ((s.relinkRun core ((s.runLinks core).popFront new)).switchTo core cur new).goto core pc = s₁
  have hstatus : ∀ u, s₁.status u = if u = new then .running else s.status u := by
    intro u
    rw [← hs₁]
    by_cases hu : u = new
    · simp [Sched.goto, Sched.switchTo, Sched.setStatus, Waits.setStatus, hu]
    · simp [Sched.goto, Sched.switchTo, Sched.setStatus, Waits.setStatus, Sched.relinkRun, hu]
  have hjoiner : s₁.joiner = s.joiner := by rw [← hs₁]; rfl
  have hgone : s₁.gone = s.gone := by rw [← hs₁]; rfl
  have hcurrent : s₁.current = Function.update s.current core (some new) := by rw [← hs₁]; rfl
  have hsaving : s₁.saving = Function.update s.saving core (some (cur, new)) := by rw [← hs₁]; rfl
  have hlive : s₁.live = (s.goto core pc).live := by rw [← hs₁]; rfl
  have halive_of : ∀ {u}, u ≠ new → s₁.Alive u → s.Alive u := by
    rintro u hu ⟨h1, h2⟩
    rw [hstatus, if_neg hu] at h1
    rw [hgone] at h2
    exact ⟨h1, h2⟩
  have halive : ∀ {u}, s.Alive u → s₁.Alive u := by
    rintro u ⟨h1, h2⟩
    refine ⟨?_, by rw [hgone]; exact h2⟩
    rw [hstatus]
    split_ifs
    · simp
    · exact h1
  have hother : ∀ {u c}, u ≠ new → c ≠ core → s.Occupies u c → s₁.Occupies u c := by
    intro u c hu hc hocc
    refine ⟨?_, ?_⟩
    · rw [hcurrent, Function.update_of_ne hc]
      exact hocc.1
    · have hpoint : s₁.point c = s.point c := by
        simp [Sched.point, hsaving, hlive, Sched.goto, hc]
      rw [hstatus, if_neg hu, hpoint]
      exact hocc.2
  have hparked : ∀ {u}, u ≠ new → s.Parked q xs u → s₁.Parked (Function.update q core rest) xs u := by
    intro u hu hpark
    refine hpark.mono (fun c hc => ⟨c, ?_⟩) (fun i hi => ⟨i, hi⟩) fun v hv ha => ⟨v, by rw [hjoiner]; exact hv, halive ha⟩
    by_cases hcc : c = core
    · subst hcc
      rw [hq] at hc
      rw [Function.update_self]
      exact (List.mem_cons.mp hc).resolve_left hu
    · rwa [Function.update_of_ne hcc]
  constructor
  · rw [← hs₁]
    exact hruns
  · rw [← hs₁]
    exact h.has
  · intro u ha hu
    by_cases hun : u = new
    · refine .inr ⟨core, ?_, ?_⟩
      · rw [hcurrent, Function.update_self, hun]
      · have hpoint : s₁.point core = .user := by simp [Sched.point, hsaving]
        rw [hstatus, if_pos hun, hpoint]
        rfl
    · have hold := halive_of hun ha
      have hcase : s.Parked q xs u ∨ ∃ c ≠ core, s.Occupies u c := by
        obtain hpark | ⟨c, hc⟩ := h.kept u hold hu
        · exact .inl hpark
        · by_cases hcc : c = core
          · subst hcc
            obtain rfl : cur = u := Option.some.inj (hcur.symm.trans hc.1)
            exact hgo hold
          · exact .inr ⟨c, hcc, hc⟩
      obtain hpark | ⟨c, hc, hocc⟩ := hcase
      · exact .inl (hparked hun hpark)
      · exact .inr ⟨c, hother hun hc hocc⟩
  · intro u ha hmarked
    have hun : u ≠ new := by
      rintro rfl
      simp [hstatus] at hmarked
    rw [hstatus, if_neg hun] at hmarked
    obtain ⟨c, hc⟩ := h.marked u (halive_of hun ha) hmarked
    refine ⟨c, hother hun ?_ hc⟩
    rintro rfl
    obtain rfl : cur = u := Option.some.inj (hcur.symm.trans hc.1)
    have hallow := hc.2
    rw [Sched.point_live hidle hx, hmarked] at hallow
    exact hmark (halive_of hun ha) (by simpa [Status.Allows] using hallow)
  · have hgoto : (s.goto core pc).Steady := h.steady.goto (.inl (Point.Resumes.stays hpc))
    constructor
    · rw [hlive, ← hs₁]
      exact hgoto.leaving
    · rw [← hs₁]
      exact h.steady.exits
    · rw [← hs₁]
      exact h.steady.attached
    · intro c u hc
      have hmask : s₁.mask = s.mask := by rw [← hs₁]; rfl
      rw [hmask]
      by_cases hcc : c = core
      · rw [hcc]
        exact h.steady.online core cur hcur
      · rw [hcurrent, Function.update_of_ne hcc] at hc
        exact h.steady.online c u hc

/-- The code goes on from a place where a thread may be switched out to one like it. -/
lemma goto_plain (h : s.Tracked q xs E) (hidle : s.saving core = none) (hcur : s.current core = some cur)
    (hx : s.live core = some x)
    (hfrom : x.pc.Resumes = true) (hto : ∀ status : Status, status.Allows .user = true → status.Allows pc = true)
    (hpc : pc ≠ .exiting ∧ pc ≠ .exitMarked ∨ ∀ y, s.live core = some y → s.exited y.self = true) :
    (s.goto core pc).Tracked q xs E := by
  refine h.goto hidle hcur hx (fun _ => (Point.Resumes.stays hfrom).2) hpc fun ha hE => ?_
  obtain hparked | ⟨c, hc⟩ := h.kept cur ha hE
  · exact .inl (.inl hparked)
  · by_cases hcc : c = core
    · subst hcc
      have hallow := hc.2
      rw [Sched.point_live hidle hx, Status.allows_user hfrom] at hallow
      exact .inr (hto _ hallow)
    · exact .inl (.inr ⟨c, hcc, hc⟩)

lemma leave (h : s.Tracked q xs E) (hidle : s.saving core = none) (hcur : s.current core = some cur)
    (hx : s.live core = some x) (hpc : pc.Resumes = true) (hidlepc : idle ≠ .exiting ∧ idle ≠ .exitMarked)
    (hmark : s.Alive cur → x.pc ≠ .exitMarked) (hgo : s.Alive cur → s.Parked q xs cur ∨ ∃ c ≠ core, s.Occupies cur c) :
    ∃ q', (s.leave core cur pc idle).Tracked q' xs E := by
  unfold Sched.leave
  obtain ⟨-, heq⟩ | ⟨new, rest, hq, heq, hruns⟩ := h.runs.dequeue core
  · rw [heq]
    exact ⟨q, h.goto hidle hcur hx hmark (.inl hidlepc) fun ha _ => .inl (hgo ha)⟩
  · rw [heq]
    exact ⟨_, h.switchTo hidle hcur hx hq hruns hpc hmark hgo⟩

lemma drop (h : s.Tracked q xs (t :: E)) (ht : s.Alive t → s.Parked q xs t ∨ ∃ c, s.Occupies t c) : s.Tracked q xs E := by
  refine ⟨h.runs, h.has, fun u halive hu => ?_, h.marked, h.steady⟩
  by_cases hut : u = t
  · subst hut
    exact ht halive
  · exact h.kept u halive (by simp [hut, hu])

lemma take (h : s.Tracked q xs E) (t : Slot) : s.Tracked q xs (t :: E) := by
  refine ⟨h.runs, h.has, fun u halive hu => ?_, h.marked, h.steady⟩
  rw [List.mem_cons, not_or] at hu
  exact h.kept u halive hu.2

/-- The first thread of a core is taken in hand. -/
lemma pop {rest : List Slot} (h : s.Tracked q xs E) (hq : q core = new :: rest)
    (hruns : (s.relinkRun core ((s.runLinks core).popFront new)).Runs (Function.update q core rest)) :
    (s.relinkRun core ((s.runLinks core).popFront new)).Tracked (Function.update q core rest) xs (new :: E) := by
  refine ⟨hruns, h.has, fun u halive hu => ?_, h.marked, h.steady.same rfl rfl rfl rfl rfl rfl⟩
  rw [List.mem_cons, not_or] at hu
  refine (h.kept u halive hu.2).imp_left fun hparked => ?_
  refine hparked.mono (fun c hc => ⟨c, ?_⟩) (fun i hi => ⟨i, hi⟩) fun v hv ha => ⟨v, hv, ha⟩
  by_cases hcc : c = core
  · subst hcc
    rw [hq] at hc
    rw [Function.update_self]
    exact (List.mem_cons.mp hc).resolve_left hu.1
  · rwa [Function.update_of_ne hcc]

/-- A thread that yields is on a queue afterwards, or somebody else is to wake it. -/
lemma requeue (h : s.Tracked q xs []) (cur : Slot) (hpc : (s.point core).Resumes = true) :
    ∃ q', (s.requeue core cur).Tracked q' xs [] ∧
    ((s.requeue core cur).Alive cur → (s.requeue core cur).Parked q' xs cur ∨ ∃ c ≠ core,
        (s.requeue core cur).Occupies cur c) := by
  unfold Sched.requeue
  split_ifs with hrunning hrunnable hqueued
  · obtain ⟨q', h', hin⟩ := (h.setStatus (t := cur) (show Status.runnable ≠ .unused by simp) (by simp)).enqueue core
    exact ⟨q', h', fun _ => .inl (.inl hin)⟩
  · exact ⟨q, h, fun _ => .inl (.inl (h.runs.queuedAnywhere.mp hqueued))⟩
  · obtain ⟨q', h', hin⟩ := (h.take cur).enqueue core
    exact ⟨q', h', fun _ => .inl (.inl hin)⟩
  · -- what is left is blocked or exited, and its place allows neither
    refine ⟨q, h, fun halive => h.elsewhere halive (by simp) ?_⟩
    have hunused := halive.1
    cases hstatus : s.status cur with
    | unused => exact absurd hstatus hunused
    | running => exact absurd hstatus hrunning
    | runnable => exact absurd hstatus hrunnable
    | blocked =>
      refine decide_eq_false fun hpoint => ?_
      rw [hpoint] at hpc
      cases hpc
    | exited =>
      refine decide_eq_false fun hpoint => ?_
      rw [hpoint] at hpc
      cases hpc

lemma yieldTo (h : s.Tracked q xs []) (hidle : s.saving core = none) (hcur : s.current core = some cur)
    (hx : s.live core = some x) (hfrom : x.pc.Resumes = true) (hpc : pc.Resumes = true) :
    ∃ q', (s.yieldTo core cur pc).Tracked q' xs [] := by
  obtain ⟨q₁, h₁, hgo⟩ := h.requeue cur (by rwa [Sched.point_live hidle hx])
  have hsame : s.SameContexts (s.requeue core cur) := by
    obtain ⟨_, _, _, heq⟩ := s.requeue_eq core cur
    rw [heq]
    exact ⟨rfl, rfl, rfl, rfl⟩
  have hidle₁ : (s.requeue core cur).saving core = none := by rw [hsame.saving, hidle]
  have hcur₁ : (s.requeue core cur).current core = some cur := by rw [hsame.current, hcur]
  have hx₁ : (s.requeue core cur).live core = some x := by rw [hsame.live, hx]
  have hmark : x.pc ≠ .exitMarked := (Point.Resumes.stays hfrom).2
  have hplace := Point.Resumes.stays hpc
  have hallow : Status.running.Allows pc = true := Status.allows_user hpc
  unfold Sched.yieldTo
  obtain ⟨-, heq⟩ | ⟨new, rest, hq, heq, hruns⟩ := h₁.runs.dequeue core
  · rw [heq]
    dsimp only
    split_ifs
    · exact ⟨q₁, (h₁.take cur).settle hidle₁ hcur₁ hx₁ (by simp) hallow (.inl hplace)⟩
    · exact ⟨q₁, h₁.goto hidle₁ hcur₁ hx₁ (fun _ => hmark) (.inl hplace) fun ha _ => .inl (hgo ha)⟩
  · rw [heq]
    dsimp only
    split_ifs with hnew
    · subst hnew
      exact ⟨_, (h₁.pop hq hruns).settle hidle₁ hcur₁ hx₁ (by simp) hallow (.inl hplace)⟩
    · exact ⟨_, h₁.switchTo hidle₁ hcur₁ hx₁ hq hruns hpc (fun _ => hmark) hgo⟩

/-- The woken threads go from the hand to the queues. -/
lemma wakeAll {ts : List Slot} (h : s.Tracked q xs (ts ++ E)) : ∃ q', (s.wakeAll ts).Tracked q' xs E := by
  induction ts generalizing s q with
  | nil => exact ⟨q, h⟩
  | cons t ts ih =>
    obtain ⟨q', h', -⟩ := enqueue h (s.wakeCore t)
    exact ih h'

/-- The wait queues change; whoever leaves them or gets another status is taken in hand. -/
lemma rewait {w : Waits} {F : List Slot} (h : s.Tracked q xs E) (hhas : w.Has xs')
    (hstatus : ∀ u, w.status u = s.status u ∨ u ∈ F ∧ w.status u ≠ .unused ∧ w.status u ≠ .exited)
    (hxs : ∀ i u, u ∈ xs i → u ∈ xs' i ∨ u ∈ F) : (s.put w).Tracked q xs' (F ++ E) := by
  have halive : ∀ {u}, s.Alive u → (s.put w).Alive u := by
    intro u ha
    obtain heq | ⟨-, hunused, -⟩ := hstatus u
    · exact ⟨heq ▸ ha.1, ha.2⟩
    · exact ⟨hunused, ha.2⟩
  have halive_of : ∀ {u}, w.status u = s.status u → (s.put w).Alive u → s.Alive u := fun heq ha => ⟨heq ▸ ha.1, ha.2⟩
  have hocc : ∀ {u c}, w.status u = s.status u → s.Occupies u c → (s.put w).Occupies u c := by
    intro u c heq hc
    refine ⟨hc.1, ?_⟩
    change (w.status u).Allows (s.point c) = true
    rw [heq]
    exact hc.2
  refine ⟨h.runs, hhas, fun u ha hu => ?_, fun u ha hmark => ?_, h.steady.same rfl rfl rfl rfl rfl rfl⟩
  · rw [List.mem_append, not_or] at hu
    have heq : w.status u = s.status u := (hstatus u).resolve_right fun hF => hu.1 hF.1
    obtain hparked | ⟨c, hc⟩ := h.kept u (halive_of heq ha) hu.2
    · left
      exact hparked.mono (fun c hc => ⟨c, hc⟩) (fun i hi => ⟨i, (hxs i u hi).resolve_right hu.1⟩)
        fun v hv hav => ⟨v, hv, halive hav⟩
    · exact .inr ⟨c, hocc heq hc⟩
  · have heq : w.status u = s.status u := (hstatus u).resolve_right fun hF => hF.2.2 hmark
    obtain ⟨c, hc⟩ := h.marked u (halive_of heq ha) (heq ▸ hmark)
    exact ⟨c, hocc heq hc⟩

lemma setLocked (h : s.Tracked q xs E) (m : ℕ) (locked : Bool) : (s.put (s.toWaits.setLocked m locked)).Tracked q xs E :=
  h.rewait (F := []) h.has (fun _ => .inl rfl) fun _ _ hu => .inl hu

/-- The thread goes to the end of a wait queue. -/
lemma append (h : s.Tracked q xs E) (i : QueueId) (ht : ∀ j, t ∉ xs j) :
    (s.put (s.toWaits.append i t)).Tracked q (Function.update xs i (xs i ++ [t])) E := by
  have hin : t ∈ Function.update xs i (xs i ++ [t]) i := by simp
  refine (h.rewait (F := [t]) (h.has.append ht) (fun u => ?_) fun j u hu => .inl ?_).drop fun _ => .inl (.inr (.inl ⟨i, hin⟩))
  · by_cases hut : u = t
    · exact .inr (by simp [Waits.append, Waits.relink, Waits.setStatus, hut])
    · exact .inl (by simp [Waits.append, Waits.relink, Waits.setStatus, hut])
  · by_cases hji : j = i
    · subst hji
      rw [Function.update_self]
      exact List.mem_append_left _ hu
    · rwa [Function.update_of_ne hji]

/-- The first waiter of a queue is taken in hand. -/
lemma popWaiter (h : s.Tracked q xs E) (i : QueueId) : ∃ xs',
    (s.put (s.toWaits.pop i).2).Tracked q xs' ((s.toWaits.pop i).1.toList ++ E) ∧ ∀ j ≠ i, xs' j = xs j := by
  obtain ⟨-, heq⟩ | ⟨t, rest, w, hxs, heq, hhas, hstatus, -⟩ := Waits.pop_cases (q := i) h.has
  · rw [heq]
    exact ⟨xs, h, fun _ _ => rfl⟩
  · rw [heq]
    refine ⟨Function.update xs i rest, h.rewait hhas (fun u => ?_) fun j u hu => ?_, fun j hj => Function.update_of_ne hj ..⟩
    · rw [hstatus]
      by_cases hut : u = t
      · exact .inr (by simp [hut])
      · exact .inl (Function.update_of_ne hut ..)
    · by_cases hji : j = i
      · subst hji
        rw [hxs] at hu
        rw [Function.update_self]
        exact (List.mem_cons.mp hu).symm.imp_right fun heq => by simp [heq]
      · exact .inl (by rwa [Function.update_of_ne hji])

lemma putWoken (h : s.Tracked q xs []) (i : QueueId) :
    ∃ q' xs', (s.putWoken (s.toWaits.pop i)).Tracked q' xs' [] ∧ ∀ j ≠ i, xs' j = xs j := by
  obtain ⟨xs', h', hxs⟩ := h.popWaiter i
  obtain ⟨q', h''⟩ := wakeAll h'
  exact ⟨q', xs', h'', hxs⟩

lemma unlock (h : s.Tracked q xs []) (m : ℕ) :
    ∃ q' xs', (s.putWoken (s.toWaits.unlock m)).Tracked q' xs' [] ∧ ∀ j ≠ .mutex m, xs' j = xs j :=
  (h.setLocked m false).putWoken (.mutex m)

lemma broadcast (h : s.Tracked q xs []) (c : ℕ) :
    ∃ q' xs', ((s.put (s.toWaits.broadcast c).2).wakeAll (s.toWaits.broadcast c).1).Tracked q' xs' [] := by
  obtain ⟨w, heq, hhas, hstatus, -⟩ := Waits.broadcast_has (c := c) h.has
  rw [heq]
  have h' : (s.put w).Tracked q (Function.update xs (.cond c) []) (xs (.cond c) ++ []) := by
    refine h.rewait hhas (fun u => ?_) fun j u hu => ?_
    · rw [hstatus]
      by_cases hu : u ∈ xs (.cond c)
      · exact .inr ⟨hu, by simp [hu]⟩
      · exact .inl (if_neg hu)
    · by_cases hj : j = .cond c
      · exact .inr (hj ▸ hu)
      · exact .inl (by rwa [Function.update_of_ne hj])
  obtain ⟨q', h''⟩ := h'.wakeAll
  exact ⟨q', _, h''⟩

/-- A waiter whose time is over is taken in hand; it is not blocked any more. -/
lemma timeout {w : Waits} {c : ℕ} (h : s.Tracked q xs E) (hstep : s.toWaits.timeout c t = some w) :
    ∃ xs', (s.put w).Tracked q xs' (t :: E) ∧ w.status t ≠ .blocked := by
  obtain ⟨w', ys, heq, hhas, hys, hstatus, -⟩ := Waits.timeout_has (c := c) (t := t) h.has
  obtain rfl : w = w' := Option.some.inj (hstep.symm.trans heq)
  refine ⟨Function.update xs (.cond c) ys, h.rewait (F := [t]) hhas (fun u => ?_) fun j u hu => ?_, ?_⟩
  · rw [hstatus]
    unfold Waits.wakeIfBlocked
    split_ifs
    · by_cases hut : u = t
      · exact .inr (by simp [Waits.setStatus, hut])
      · exact .inl (by simp [Waits.setStatus, hut])
    · exact .inl rfl
  · by_cases hj : j = .cond c
    · subst hj
      rw [Function.update_self, hys]
      by_cases hut : u = t
      · exact .inr (by simp [hut])
      · exact .inl ⟨hu, hut⟩
    · exact .inl (by rwa [Function.update_of_ne hj])
  · rw [hstatus]
    unfold Waits.wakeIfBlocked
    split_ifs with hblocked
    · simp [Waits.setStatus]
    · exact hblocked

/-- The joiner of a thread goes to a queue, and the thread has none any more. -/
lemma wakeJoiner (h : s.Tracked q xs []) (cur : Slot) :
    ∃ q', (s.wakeJoiner cur).Tracked q' xs [] ∧ (s.wakeJoiner cur).joiner cur = none := by
  unfold Sched.wakeJoiner
  split
  case h_1 hj => exact ⟨q, h, hj⟩
  case h_2 j hj =>
    have hjoin : ({ s with joiner := Function.update s.joiner cur none } : Sched).Tracked q xs [j] := by
      refine ⟨h.runs, h.has, fun u halive hu => ?_, h.marked, h.steady.same rfl rfl rfl rfl rfl rfl⟩
      refine (h.kept u halive (by simp)).imp_left fun hparked => ?_
      refine hparked.mono (fun c hc => ⟨c, hc⟩) (fun i hi => ⟨i, hi⟩) fun v hv ha => ⟨v, ?_, ha⟩
      have hvc : v ≠ cur := by
        rintro rfl
        exact hu (by simp [Option.some.inj (hv.symm.trans hj)])
      simpa [hvc] using hv
    obtain ⟨q', h', -⟩ := hjoin.enqueue (Sched.runCore { s with joiner := Function.update s.joiner cur none } j)
    refine ⟨q', h', ?_⟩
    obtain ⟨_, _, _, henq⟩ := ({ s with joiner := Function.update s.joiner cur none } : Sched).enqueueRunCore_eq
      (Sched.runCore { s with joiner := Function.update s.joiner cur none } j) j
    rw [Sched.enqueueRun, henq]
    exact Function.update_self ..

lemma exitSection (h : s.Tracked q xs []) (hidle : s.saving core = none) (hcur : s.current core = some cur)
    (hx : s.live core = some x) (hexited : s.exited cur = true) : ∃ q', (s.exitSection core cur).Tracked q' xs [] := by
  obtain ⟨q₁, h₁, hnone⟩ := h.wakeJoiner cur
  have hsame := s.wakeJoiner_contexts cur
  unfold Sched.exitSection
  dsimp only
  rw [if_neg (by simp [h₁.steady.attached])]
  have hexited₁ : (s.wakeJoiner cur).exited cur = true := by rw [(s.wakeJoiner_flags cur).2, hexited]
  -- the thread is not alive any more, and nobody waits for it
  have hgone : ({ s.wakeJoiner cur with gone := Function.update (s.wakeJoiner cur).gone cur true } : Sched).Tracked q₁ xs [] := by
    have halive : ∀ {u}, ({ s.wakeJoiner cur with gone := Function.update (s.wakeJoiner cur).gone cur true } : Sched).Alive u →
        u ≠ cur ∧ (s.wakeJoiner cur).Alive u := by
      rintro u ⟨h1, h2⟩
      have hu : u ≠ cur := by
        rintro rfl
        simp at h2
      simp only [Function.update_of_ne hu] at h2
      exact ⟨hu, h1, h2⟩
    refine ⟨h₁.runs, h₁.has, fun u ha hu => ?_, fun u ha hmark => h₁.marked u (halive ha).2 hmark, ?_⟩
    · refine (h₁.kept u (halive ha).2 hu).imp_left fun hparked => ?_
      refine hparked.mono (fun c hc => ⟨c, hc⟩) (fun i hi => ⟨i, hi⟩) fun v hv hav => ⟨v, hv, hav.1, ?_⟩
      have hvc : v ≠ cur := by
        rintro rfl
        exact Option.some_ne_none _ (hv.symm.trans hnone)
      simpa [hvc] using hav.2
    · refine ⟨h₁.steady.leaving, fun u hu => ?_, h₁.steady.attached, h₁.steady.online⟩
      by_cases huc : u = cur
      · exact huc ▸ hexited₁
      · simp only [Function.update_of_ne huc] at hu
        exact h₁.steady.exits u hu
  have hdead : ¬ ({ s.wakeJoiner cur with gone := Function.update (s.wakeJoiner cur).gone cur true } : Sched).Alive cur := by
    rintro ⟨-, h2⟩
    simp at h2
  refine hgone.leave (x := x) ?_ ?_ ?_ rfl (by simp) (fun ha => absurd ha hdead) fun ha => absurd ha hdead
  · rw [← hidle, ← hsame.saving]
  · rw [← hcur, ← hsame.current]
  · rw [← hx, ← hsame.live]

/-- A thread becomes the joiner of one that is alive and has no other one. -/
lemma joinSection {target : Slot} (h : s.Tracked q xs []) (hidle : s.saving core = none) (hcur : s.current core = some cur)
    (hx : s.live core = some x) (hfrom : x.pc.Resumes = true)
    (hone : s.exited target = false → s.status target ≠ .unused ∧ ∀ j, s.joiner target = some j → j = cur) :
    ∃ q', (s.joinSection core cur target).Tracked q' xs [] := by
  unfold Sched.joinSection
  split_ifs with hexited
  · exact ⟨q, h.goto_plain hidle hcur hx hfrom (fun status hs => by cases status <;> first | rfl | cases hs) (.inl (by simp))⟩
  · obtain ⟨hused, hjoin⟩ := hone (by simpa using hexited)
    have hgone : s.gone target = false := by
      cases hg : s.gone target with
      | false => rfl
      | true => exact absurd (h.steady.exits target hg) hexited
    have hblocked := h.setStatus (t := cur) (show Status.blocked ≠ .unused by simp) (by simp)
    have halive : (s.setStatus cur .blocked).Alive target := Sched.Alive.setStatus ⟨hused, hgone⟩ (by simp)
    have h₁ : ({ s.setStatus cur .blocked with joiner := Function.update s.joiner target (some cur) } : Sched).Tracked q xs [cur] := by
      refine ⟨hblocked.runs, hblocked.has, fun u ha hu => ?_, hblocked.marked, h.steady.same rfl rfl rfl rfl rfl rfl⟩
      refine (hblocked.kept u ha hu).imp_left fun hparked => ?_
      refine hparked.mono (fun c hc => ⟨c, hc⟩) (fun i hi => ⟨i, hi⟩) fun v hv hav => ⟨v, ?_, hav⟩
      have hvt : v ≠ target := by
        rintro rfl
        exact hu (by simp [hjoin u hv])
      change Function.update s.joiner target (some cur) v = some u
      rw [Function.update_of_ne hvt]
      exact hv
    have hwaited : ({ s.setStatus cur .blocked with joiner := Function.update s.joiner target (some cur) } : Sched).Parked q xs cur :=
      .inr (.inr ⟨target, Function.update_self .., halive⟩)
    refine (h₁.drop fun _ => .inl hwaited).leave (x := x) hidle hcur hx rfl (by simp) (fun _ => (Point.Resumes.stays hfrom).2)
      fun _ => .inl hwaited

/-- A thread that is through gives up its slot. -/
lemma reapThread (h : s.Tracked q xs E) (hgone : s.gone t = true) (tid : Slot → ℕ) :
    ({ s.reapThread t with tid := tid } : Sched).Tracked q xs E := by
  have hstatus : ∀ {u}, u ≠ t → (s.reapThread t).status u = s.status u := by
    intro u hu
    simp [Sched.reapThread, Sched.setStatus, Waits.setStatus, hu]
  have halive_of : ∀ {u}, ({ s.reapThread t with tid := tid } : Sched).Alive u → u ≠ t ∧ s.Alive u := by
    rintro u ⟨h1, h2⟩
    have hu : u ≠ t := by
      rintro rfl
      exact Bool.false_ne_true (h2.symm.trans hgone)
    exact ⟨hu, (hstatus hu) ▸ h1, h2⟩
  have halive : ∀ {u}, s.Alive u → ({ s.reapThread t with tid := tid } : Sched).Alive u := by
    rintro u ⟨h1, h2⟩
    have hu : u ≠ t := by
      rintro rfl
      exact Bool.false_ne_true (h2.symm.trans hgone)
    exact ⟨(hstatus hu).symm ▸ h1, h2⟩
  have hocc : ∀ {u c}, u ≠ t → s.Occupies u c → ({ s.reapThread t with tid := tid } : Sched).Occupies u c := by
    intro u c hu hc
    refine ⟨hc.1, ?_⟩
    change ((s.reapThread t).status u).Allows (s.point c) = true
    rw [hstatus hu]
    exact hc.2
  refine ⟨h.runs, h.has, fun u ha hu => ?_, fun u ha hmark => ?_, h.steady.same rfl rfl rfl rfl rfl rfl⟩
  · obtain ⟨hut, hold⟩ := halive_of ha
    obtain hparked | ⟨c, hc⟩ := h.kept u hold hu
    · left
      exact hparked.mono (fun c hc => ⟨c, hc⟩) (fun i hi => ⟨i, hi⟩) fun v hv hav => ⟨v, hv, halive hav⟩
    · exact .inr ⟨c, hocc hut hc⟩
  · obtain ⟨hut, hold⟩ := halive_of ha
    obtain ⟨c, hc⟩ := h.marked u hold ((hstatus hut).symm.trans hmark)
    exact ⟨c, hocc hut hc⟩

/-- The queues change but for threads in hand and threads that are not alive. -/
lemma relinked (h : s.Tracked q xs E) (hsame : s.Relinked s') (hruns : s'.Runs q')
    (hq : ∀ c u, s.Alive u → u ∈ q c → u ∈ E ∨ ∃ c', u ∈ q' c') : s'.Tracked q' xs E := by
  obtain ⟨next, runQ, rfl⟩ := hsame
  refine ⟨hruns, h.has, fun u ha hu => ?_, h.marked, h.steady.same rfl rfl rfl rfl rfl rfl⟩
  refine (h.kept u ha hu).imp_left fun hparked => ?_
  exact hparked.mono (fun c hc => (hq c u ha hc).resolve_left hu) (fun i hi => ⟨i, hi⟩) fun v hv hav => ⟨v, hv, hav⟩

/-- A slot that nothing leads to gets a new thread. -/
lemma initThread {L : Slot → Prop} (h : s.Tracked q xs []) (hkept : s.Kept L) (hplaced : s.Placed) (ht : ¬ L t)
    (hout : ∀ c, t ∉ q c) (stack tcb : ℕ) : (s.initThread t stack tcb).Tracked q xs [t] := by
  have hunused : s.status t = .unused := not_not.mp fun hs => ht ((hkept.waits.status t).mp hs)
  have hwait : ∀ i, t ∉ xs i := fun i hi => ht (hkept.waits.refs t (h.has.refs hi))
  have hlive : ∀ {c x}, s.live c = some x → x.self ≠ t := by
    rintro c x hx rfl
    exact ht (hkept.held _ c (hplaced.holds hx))
  have hother : ∀ {u}, u ≠ t → ((s.initThread t stack tcb).Alive u ↔ s.Alive u) := by
    intro u hu
    simp [Sched.Alive, Sched.initThread, hu]
  have hdead : ¬ s.Alive t := fun ha => ha.1 hunused
  have hocc : ∀ {u c}, u ≠ t → s.Occupies u c → (s.initThread t stack tcb).Occupies u c := by
    intro u c hu hc
    refine ⟨hc.1, ?_⟩
    have hstatus : (s.initThread t stack tcb).status u = s.status u := by simp [Sched.initThread, hu]
    rw [hstatus]
    exact hc.2
  refine ⟨Queues.relink h.runs hout none, Queues.relink h.has hwait none, fun u ha hu => ?_, fun u ha hmark => ?_, ?_⟩
  · have hut : u ≠ t := fun heq => hu (by simp [heq])
    obtain hparked | ⟨c, hc⟩ := h.kept u ((hother hut).mp ha) (by simp)
    · left
      refine hparked.mono (fun c hc => ⟨c, hc⟩) (fun i hi => ⟨i, hi⟩) fun v hv hav => ?_
      have hvt : v ≠ t := fun heq => hdead (heq ▸ hav)
      exact ⟨v, by simpa [Sched.initThread, hvt] using hv, (hother hvt).mpr hav⟩
    · exact .inr ⟨c, hocc hut hc⟩
  · have hut : u ≠ t := by
      rintro rfl
      simp [Sched.initThread] at hmark
    obtain ⟨c, hc⟩ := h.marked u ((hother hut).mp ha) (by simpa [Sched.initThread, hut] using hmark)
    exact ⟨c, hocc hut hc⟩
  · refine ⟨fun c x hx hexit => ?_, fun u hu => ?_, fun u => ?_, h.steady.online⟩
    · simpa [Sched.initThread, hlive hx] using h.steady.leaving c x hx hexit
    · have hut : u ≠ t := by
        rintro rfl
        simp [Sched.initThread] at hu
      simp only [Sched.initThread, Function.update_of_ne hut] at hu ⊢
      exact h.steady.exits u hu
    · by_cases hut : u = t
      · simp [Sched.initThread, hut]
      · simpa [Sched.initThread, hut] using h.steady.attached u

lemma create {L : Slot → Prop} {stack tcb : ℕ} (h : s.Tracked q xs []) (hkept : s.Kept L) (hplaced : s.Placed)
    (hstep : s.create stack tcb = some s') : ∃ q', s'.Tracked q' xs [] := by
  unfold Sched.create at hstep
  split_ifs at hstep
  split at hstep
  case h_1 =>
    obtain rfl := Option.some.inj hstep
    exact ⟨q, h⟩
  case h_2 t hfind =>
    have hunused : s.status t = .unused := by simpa using List.find?_some hfind
    have ht : ¬ L t := fun hin => (hkept.waits.status t).mpr hin hunused
    obtain ⟨s₁, q₁, heq, hsame, hruns, -, hsub, hout⟩ := h.runs.dequeueSpecific t (List.finRange 32)
    rw [heq] at hstep
    obtain rfl := Option.some.inj hstep
    have h₁ : s₁.Tracked q₁ xs [] := by
      refine h.relinked hsame hruns fun c u ha hu => .inr ⟨c, hsub c u hu ?_⟩
      rintro rfl
      exact ha.1 hunused
    have h₂ := h₁.initThread (hkept.dequeueSpecific heq) (hplaced.same hsame.sameContexts) ht
      (fun c => hout c (List.mem_finRange c)) stack tcb
    obtain ⟨q', h', -⟩ := h₂.enqueue s₁.createCore
    exact ⟨q', h'⟩

lemma affinity (h : s.Tracked q xs E) (affinity : Slot → BitVec 32) : ({ s with affinity := affinity } : Sched).Tracked q xs E :=
  ⟨h.runs, h.has, h.kept, h.marked, h.steady.same rfl rfl rfl rfl rfl rfl⟩

lemma rebalance {ts : List Slot} (h : s.Tracked q xs []) (hstep : Sched.rebalance ts s = some s') :
    ∃ q', s'.Tracked q' xs [] := by
  induction ts generalizing s q with
  | nil =>
    obtain rfl := Option.some.inj hstep
    exact ⟨q, h⟩
  | cons t ts ih =>
    obtain ⟨s₁, hone, hrest⟩ := Option.bind_eq_some_iff.mp hstep
    have h₁ : ∃ q₁, s₁.Tracked q₁ xs [] := by
      unfold Sched.rebalanceOne at hone
      split_ifs at hone
      · obtain rfl := Option.some.inj hone
        exact ⟨q, h⟩
      · obtain ⟨hnone, -⟩ | ⟨s₂, k, htake, -, -, hsame, hruns⟩ :=
          h.runs.takeFrom t ((List.finRange 32).filter fun core => core.val < s.smp)
        · rw [hnone] at hone
          obtain rfl := Option.some.inj hone
          exact ⟨q, h.affinity _⟩
        · rw [htake] at hone
          obtain rfl := Option.some.inj hone
          have h₂ : s₂.Tracked (fun k => (q k).filter (· ≠ t)) xs [t] := by
            refine (h.take t).relinked hsame hruns fun c u _ hu => ?_
            by_cases hut : u = t
            · exact .inl (by simp [hut])
            · exact .inr ⟨c, List.mem_filter.mpr ⟨hu, decide_eq_true hut⟩⟩
          obtain ⟨q', h', -⟩ := h₂.enqueue (s.homeCore t)
          exact ⟨q', h'⟩
      · obtain rfl := Option.some.inj hone
        exact ⟨q, h.affinity _⟩
    obtain ⟨q₁, h₁⟩ := h₁
    exact ih h₁ hrest

/-- A core goes down whose thread is not alive. -/
lemma coreDown (h : s.Tracked q xs []) (hdead : ∀ t, s.current core = some t → ¬ s.Alive t)
    (hstep : s.coreDown core = some s') : ∃ q', s'.Tracked q' xs [] := by
  obtain ⟨q', next, runQ, affinity, rfl, hruns, -, hsub⟩ := h.runs.coreDown hstep
  generalize hs₁ : ({ s with
    status := fun t => if t ∈ q core then .runnable else s.status t
    mask := s.mask &&& ~~~(Sched.coreBit core)
    live := Function.update s.live core none
    current := Function.update s.current core none
    next := next, runQ := runQ, affinity := affinity } : Sched) = s₁ at hruns ⊢
  have hstatus : ∀ {u}, u ∉ q core → s₁.status u = s.status u := by
    intro u hu
    rw [← hs₁]
    exact if_neg hu
  have halive : ∀ {u}, s.Alive u → s₁.Alive u := by
    rintro u ⟨h1, h2⟩
    rw [← hs₁]
    refine ⟨?_, h2⟩
    dsimp only
    split_ifs
    · simp
    · exact h1
  have hocc : ∀ {u c}, u ∉ q core → s.Alive u → s.Occupies u c → s₁.Occupies u c := by
    intro u c hu ha hc
    have hcc : c ≠ core := by
      rintro rfl
      exact hdead u hc.1 ha
    refine ⟨?_, ?_⟩
    · rw [← hs₁]
      simpa [hcc] using hc.1
    · have hpoint : s₁.point c = s.point c := by
        rw [← hs₁]
        simp [Sched.point, hcc]
      rw [hstatus hu, hpoint]
      exact hc.2
  -- whoever was queued is queued, and the others have their status
  have hold : ∀ {u}, s₁.Alive u → u ∉ q core → s.Alive u := by
    rintro u ⟨h1, h2⟩ hu
    rw [hstatus hu] at h1
    rw [← hs₁] at h2
    exact ⟨h1, h2⟩
  refine ⟨q', hruns, ?_, fun u ha _ => ?_, fun u ha hmark => ?_, ?_⟩
  · rw [← hs₁]
    exact h.has
  · by_cases hu : u ∈ q core
    · exact .inl (.inl (hsub core u hu))
    · obtain hparked | ⟨c, hc⟩ := h.kept u (hold ha hu) (by simp)
      · left
        refine hparked.mono (fun c hc => hsub c u hc) (fun i hi => ⟨i, hi⟩) fun v hv hav => ⟨v, ?_, halive hav⟩
        rw [← hs₁]
        exact hv
      · exact .inr ⟨c, hocc hu (hold ha hu) hc⟩
  · have hu : u ∉ q core := by
      intro hin
      rw [← hs₁] at hmark
      simp [hin] at hmark
    rw [hstatus hu] at hmark
    obtain ⟨c, hc⟩ := h.marked u (hold ha hu) hmark
    exact ⟨c, hocc hu (hold ha hu) hc⟩
  · rw [← hs₁]
    refine ⟨fun c x hx hexit => ?_, h.steady.exits, h.steady.attached, fun c u hc => ?_⟩
    · by_cases hcc : c = core
      · simp [hcc] at hx
      · simp only [Function.update_of_ne hcc] at hx
        exact h.steady.leaving c x hx hexit
    · by_cases hcc : c = core
      · simp [hcc] at hc
      · simp only [Function.update_of_ne hcc] at hc
        have hbit := h.steady.online c u hc
        have hne : (Sched.coreBit core).getLsbD c = false := Sched.getLsbD_coreBit_of_ne hcc
        rw [BitVec.getLsbD_and, BitVec.getLsbD_not, hbit, hne]
        simp

lemma finishSwitch (h : s.Tracked q xs E) (hplaced : s.Placed) (hstep : finishSwitch s core = some s') : s'.Tracked q xs E := by
  have hplaced' := hplaced.finishSwitch hstep
  unfold Threads.finishSwitch at hstep
  split at hstep
  case h_2 => cases hstep
  case h_1 old new x hsav hx =>
    obtain rfl := Option.some.inj hstep
    have hresumes : (Function.update s.saved old x new).pc.Resumes = true := hplaced'.saved new
    have hocc : ∀ {u c}, s.Occupies u c → ({ s with
          saved := Function.update s.saved old x
          live := Function.update s.live core (some (Function.update s.saved old x new))
          saving := Function.update s.saving core none } : Sched).Occupies u c := by
      intro u c hc
      refine ⟨hc.1, ?_⟩
      have hallow := hc.2
      by_cases hcc : c = core
      · subst hcc
        simp only [Sched.point, hsav, reduceCtorEq, if_false] at hallow
        simpa [Sched.point, Status.allows_user hresumes] using hallow
      · simpa [Sched.point, hcc] using hallow
    refine ⟨h.runs, h.has, fun u ha hu => ?_, fun u ha hmark => ?_, ?_⟩
    · exact (h.kept u ha hu).imp_right fun ⟨c, hc⟩ => ⟨c, hocc hc⟩
    · obtain ⟨c, hc⟩ := h.marked u ha hmark
      exact ⟨c, hocc hc⟩
    · refine ⟨fun c y hy hexit => ?_, h.steady.exits, h.steady.attached, h.steady.online⟩
      by_cases hcc : c = core
      · subst hcc
        simp only [Function.update_self, Option.some.injEq] at hy
        rw [hy] at hresumes
        exact absurd hexit (not_or.mpr (Point.Resumes.stays hresumes))
      · simp only [Function.update_of_ne hcc] at hy
        exact h.steady.leaving c y hy hexit

/-- The code goes on from one place where a thread may be switched out to another. -/
lemma goes (h : s.Tracked q xs E) (hidle : s.saving core = none) (hcur : s.current core = some cur) (hx : s.live core = some x)
    (hfrom : x.pc.Resumes = true) (hto : pc.Resumes = true) : (s.goto core pc).Tracked q xs E :=
  h.goto_plain hidle hcur hx hfrom (fun _ hs => by rwa [Status.allows_user hto]) (.inl (Point.Resumes.stays hto))

/-- A thread that waits for a mutex gives its core up; it is parked already, or it is elsewhere. -/
lemma blocks (h : s.Tracked q xs []) (hidle : s.saving core = none) (hcur : s.current core = some cur) (hx : s.live core = some x)
    (hblocks : x.pc.Blocks = true) (hpc : pc.Resumes = true) (hidlepc : idle ≠ .exiting ∧ idle ≠ .exitMarked) :
    ∃ q', (s.leave core cur pc idle).Tracked q' xs [] := by
  refine h.leave hidle hcur hx hpc hidlepc (fun _ hmarked => ?_) fun ha => h.elsewhere ha (by simp) ?_
  · rw [hmarked] at hblocks
    cases hblocks
  · rw [Sched.point_live hidle hx]
    exact Status.allows_blocks hblocks

/-- A thread that finds the queue of its core empty sleeps on its core. -/
lemma sleeps (h : s.Tracked q xs []) (hidle : s.saving core = none) (hcur : s.current core = some cur) (hx : s.live core = some x)
    (hempty : (s.runQ core).head = none) : ((s.setStatus cur .blocked).leave core cur .asleep .sleepSpin).Tracked q xs [] := by
  have hdeq : (s.setStatus cur .blocked).dequeueRunCore core = none := by
    simpa [Sched.dequeueRunCore, Sched.setStatus] using hempty
  unfold Sched.leave
  rw [hdeq]
  exact (h.take cur).settle hidle hcur hx (by simp) rfl (.inl (by simp))

lemma setExited (h : s.Tracked q xs E) (t : Slot) :
    ({ s with exited := Function.update s.exited t true } : Sched).Tracked q xs E := by
  have hexited : ∀ {u}, s.exited u = true → Function.update s.exited t true u = true := by
    intro u hu
    by_cases hut : u = t
    · simp [hut]
    · simpa [hut] using hu
  exact ⟨h.runs, h.has, h.kept, h.marked, fun c y hy hexit => hexited (h.steady.leaving c y hy hexit),
    fun u hu => hexited (h.steady.exits u hu), h.steady.attached, h.steady.online⟩

lemma notMem_waiters (h : s.Tracked q xs E) (hout : s.Unlinked t) : ∀ i, t ∉ xs i := by
  rwa [Sched.Unlinked, h.has.waiters_eq] at hout

/-- A thread whose wait timed out leaves its queue and goes on, or was woken and marked in between. -/
lemma timeoutSection {c m : ℕ} {w : Waits} (h : s.Tracked q xs []) (hidle : s.saving core = none)
    (hcur : s.current core = some cur) (hx : s.live core = some x) (hself : x.self = cur) (hpc : x.pc = .condSpin c m true)
    (hw : s.toWaits.timeout c x.self = some w) : ∃ q' xs', ((s.put w).goto core (.reacquire m)).Tracked q' xs' [] := by
  rw [hself] at hw
  obtain ⟨xs', h', hstatus⟩ := h.timeout hw
  have hgoto : ((s.put w).goto core (.reacquire m)).Tracked q xs' [cur] :=
    h'.goto hidle hcur hx (fun _ => by simp [hpc]) (.inl (by simp)) fun _ hE => absurd List.mem_cons_self hE
  refine ⟨q, xs', hgoto.drop fun ha => .inr ?_⟩
  by_cases hexited : w.status cur = .exited
  · exact hgoto.marked cur ha hexited
  · refine ⟨core, hcur, ?_⟩
    rw [Sched.point_goto_self (s := s.put w) hidle hx]
    change (w.status cur).Allows _ = true
    cases hw' : w.status cur <;> first | rfl | contradiction

end Sched.Tracked

/-- Every step that circulates keeps track of every thread. -/
theorem codeStep_tracked {L : Slot → Prop} {op : Op} (h : s.Tracked q xs []) (hkept : s.Kept L) (hplaced : s.Placed)
    (hidle : s.saving core = none) (hcur : s.current core = some cur) (hx : s.live core = some x) (hself : x.self = cur)
    (hcirc : Circulating s (core, op)) (hstep : codeStep s core cur x op = some s') : ∃ q' xs', s'.Tracked q' xs' [] := by
  cases codeStep_move hstep with
  | stay => exact ⟨q, xs, h⟩
  | goes pc hfrom hto => exact ⟨q, xs, h.goes hidle hcur hx hfrom hto⟩
  | yields pc hfrom hto =>
    obtain ⟨q', h'⟩ := h.yieldTo hidle hcur hx hfrom hto
    exact ⟨q', xs, h'⟩
  | create _ _ _ hcreate =>
    obtain ⟨q', h'⟩ := h.create hkept hplaced hcreate
    exact ⟨q', xs, h'⟩
  | malloc => exact ⟨q, xs, h.runs, h.has, h.kept, h.marked, h.steady.same rfl rfl rfl rfl rfl rfl⟩
  | exit hpc =>
    refine ⟨q, xs, (h.setExited cur).goto_plain hidle hcur hx (by rw [hpc]; rfl) (fun status hs => ?_) (.inr fun y hy => ?_)⟩
    · cases status <;> first | rfl | cases hs
    · obtain rfl : x = y := Option.some.inj (hx.symm.trans hy)
      simp [hself]
  | exitMark hpc =>
    refine ⟨q, xs, (h.take cur).settle hidle hcur hx (by simp) rfl (.inr fun y hy => ?_)⟩
    obtain rfl : x = y := Option.some.inj (hx.symm.trans hy)
    exact h.steady.leaving core x hx (.inl hpc)
  | exitSection hpc =>
    obtain ⟨q', h'⟩ := h.exitSection hidle hcur hx (hself ▸ h.steady.leaving core x hx (.inr hpc))
    exact ⟨q', xs, h'⟩
  | joinSection target hpc =>
    obtain ⟨q', h'⟩ := h.joinSection hidle hcur hx (by rw [hpc]; rfl) (hself ▸ hcirc x target hx hpc)
    exact ⟨q', xs, h'⟩
  | reap target hpc =>
    exact ⟨q, xs, (h.reapThread (hcirc x target hx hpc).1 _).goes hidle hcur hx (by rw [hpc]; rfl) rfl⟩
  | detach => exact absurd hcirc id
  | wake t =>
    obtain ⟨q', h', -⟩ := (h.take t).enqueue (s.runCore t)
    exact ⟨q', xs, h'⟩
  | takes m hfrom => exact ⟨q, xs, (h.setLocked m true).goes hidle hcur hx hfrom rfl⟩
  | waits m hpc hlocked =>
    have hout : ∀ i, cur ∉ xs i := h.notMem_waiters (hself ▸ hcirc x m hx hpc hlocked)
    refine ⟨q, _, (h.append (.mutex m) hout).goto hidle hcur hx (fun _ => by simp [hpc]) (.inl (by simp)) fun _ _ => ?_⟩
    exact .inl (.inl (.inr (.inl ⟨.mutex m, by simp⟩)))
  | blocks m hpc =>
    obtain ⟨q', h'⟩ := h.blocks hidle hcur hx (by rw [hpc]; rfl) (show (Point.lockLoop m).Resumes = true from rfl)
      (show Point.lockBlockAgain m ≠ .exiting ∧ Point.lockBlockAgain m ≠ .exitMarked by simp)
    exact ⟨q', xs, h'⟩
  | blocksAgain m hpc =>
    obtain ⟨q', h'⟩ := h.blocks hidle hcur hx (by rw [hpc]; rfl) (show (Point.lockLoop m).Resumes = true from rfl)
      (show Point.lockLoop m ≠ .exiting ∧ Point.lockLoop m ≠ .exitMarked by simp)
    exact ⟨q', xs, h'⟩
  | trylock m => exact ⟨q, xs, h.setLocked m true⟩
  | unlock m =>
    obtain ⟨q', xs', h', -⟩ := h.unlock m
    exact ⟨q', xs', h'⟩
  | signal c =>
    obtain ⟨q', xs', h', -⟩ := h.putWoken (.cond c)
    exact ⟨q', xs', h'⟩
  | broadcast c => exact h.broadcast c
  | condWait c m timed hpc =>
    have hout : ∀ i, cur ∉ xs i := h.notMem_waiters (hself ▸ hcirc x hx)
    obtain ⟨q', xs', h', hxs⟩ := (h.append (.cond c) hout).unlock m
    have hin : cur ∈ xs' (.cond c) := by
      rw [hxs (.cond c) (by simp)]
      simp
    have hsame := s.putWoken_contexts (s.toWaits.startWait c m cur)
    obtain ⟨q'', h''⟩ := h'.leave (x := x) (by rw [← hidle, ← hsame.saving]; rfl) (by rw [← hcur, ← hsame.current]; rfl)
      (by rw [← hx, ← hsame.live]; rfl) (show (Point.reacquire m).Resumes = true from rfl)
      (show Point.condSpin c m timed ≠ .exiting ∧ Point.condSpin c m timed ≠ .exitMarked by simp) (fun _ => by simp [hpc])
      fun _ => .inl (.inr (.inl ⟨.cond c, hin⟩))
    exact ⟨q'', xs', h''⟩
  | timeout c m waits hpc hwaits => exact h.timeoutSection hidle hcur hx hself hpc hwaits
  | rewaits m hpc hlocked =>
    rw [hself]
    have hout : ∀ i, cur ∉ xs i := h.notMem_waiters (hself ▸ hcirc x m hx hpc hlocked)
    obtain ⟨q', h'⟩ := (h.append (.mutex m) hout).leave (x := x) hidle hcur hx
      (show (Point.reacquire m).Resumes = true from rfl)
      (show Point.reacquireYield m ≠ .exiting ∧ Point.reacquireYield m ≠ .exitMarked by simp) (fun _ => by simp [hpc])
      fun _ => .inl (.inr (.inl ⟨.mutex m, by simp⟩))
    exact ⟨q', _, h'⟩
  | sleeps => exact ⟨q, xs, h.sleeps hidle hcur hx hcirc⟩
  | wakes => exact ⟨q, xs, (h.take cur).settle hidle hcur hx (by simp) rfl (.inl (by simp))⟩
  | rebalance _ hmoves =>
    obtain ⟨q', h'⟩ := h.rebalance hmoves
    exact ⟨q', xs, h'⟩
  | setAffinity => exact ⟨q, xs, h.affinity _⟩
  | coreDown _ _ hdown =>
    obtain ⟨q', h'⟩ := h.coreDown hcirc hdown
    exact ⟨q', xs, h'⟩

theorem threadStep_tracked {L : Slot → Prop} {a : CoreId × Op} (h : s.Tracked q xs []) (hkept : s.Kept L) (hplaced : s.Placed)
    (hcirc : Circulating s a) (hstep : threadStep s a = some s') : ∃ q' xs', s'.Tracked q' xs' [] := by
  unfold threadStep at hstep
  split_ifs at hstep
  · exact ⟨q, xs, h.finishSwitch hplaced hstep⟩
  · split at hstep
    case h_1 cur x hidle hcur hx =>
      have hself := Option.some.inj ((hplaced.own a.1 x hidle hx).symm.trans hcur)
      exact codeStep_tracked h hkept hplaced hidle hcur hx hself hcirc hstep
    case h_2 => cases hstep

/-- A step that circulates frees only retired threads. -/
lemma Sched.Tracked.retiring {a : CoreId × Op} (h : s.Tracked q xs E) (hcirc : Circulating s a) : Retiring s a := by
  obtain ⟨core, op⟩ := a
  cases op with
  | exitSection => exact fun cur _ => h.steady.attached cur
  | reap => exact fun x target hx hpc => (hcirc x target hx hpc).2
  | detach tid => exact absurd hcirc id
  | _ => trivial

lemma boot_tracked {n : ℕ} (hn : n ≤ 32) : (boot n).Tracked (fun _ => []) (fun _ => []) [] := by
  refine ⟨⟨fun _ => ⟨rfl, List.nodup_nil, rfl⟩, by simp⟩, ⟨fun _ => ⟨rfl, List.nodup_nil, rfl⟩, by simp⟩,
    fun t halive _ => .inr ?_, fun t _ hmark => ?_, ?_⟩
  · -- the first thread of a core occupies it
    have ht : t.val < n := by
      by_contra hge
      exact halive.1 (by simp [boot, hge])
    refine ⟨⟨t.val, by omega⟩, ?_, ?_⟩
    · simp [boot, ht]
    · simp [boot, Sched.point, ht, Status.Allows, Point.Blocks]
  · simp only [boot] at hmark
    split_ifs at hmark
  · refine ⟨fun c x hx hexit => ?_, by simp [boot], fun _ => rfl, fun c t hc => ?_⟩
    · simp only [boot] at hx
      split_ifs at hx
      obtain rfl := Option.some.inj hx
      simp at hexit
    · simp only [boot] at hc
      split_ifs at hc with hcn
      simp [boot, BitVec.getLsbD_ofNat, Nat.testBit_two_pow_sub_one, hcn]

end Invariant

/-- In every run whose steps circulate, no thread is stranded. -/
theorem none_stranded {n : ℕ} (hn : n ≤ 32) {acts : List (CoreId × Op)} {s : Sched}
    (hrun : run threadStep (boot n) acts = some s) (hcirculating : Along threadStep Circulating (boot n) acts) :
    NoneStranded s := by
  obtain ⟨-, -, q, xs, h⟩ : s.Placed ∧ (∃ L, s.Kept L) ∧ ∃ q xs, s.Tracked q xs [] := by
    refine @run_invariant _ _ _ _ (fun s => s.Placed ∧ (∃ L, s.Kept L) ∧ ∃ q xs, s.Tracked q xs []) ?_ _ _ _
      ⟨boot_placed n, ⟨_, boot_kept n⟩, _, _, boot_tracked hn⟩ hcirculating hrun
    rintro s a s' ⟨hplaced, ⟨L, hkept⟩, q, xs, h⟩ hcirc hstep
    exact ⟨threadStep_placed hplaced hstep, threadStep_kept hkept hplaced (h.retiring hcirc) hstep,
      threadStep_tracked h hkept hplaced hcirc hstep⟩
  intro t halive
  obtain (⟨c, hc⟩ | ⟨i, hi⟩ | hjoin) | ⟨c, hc⟩ := h.kept t halive (by simp)
  · exact .inr (.inl (h.runs.queuedAnywhere.mpr ⟨c, hc⟩))
  · exact .inr (.inr (.inl ⟨i, by rwa [h.has.waiters_eq]⟩))
  · exact .inr (.inr (.inr hjoin))
  · exact .inl ⟨c, hc.1, h.steady.online c t hc.1⟩

section Sample

/-- The main thread creates a thread and sleeps. -/
def sleeper : List (CoreId × Op) := [(0, .create 100 101), (0, .sleep)]

/-- A thread that sleeps while another one is queued is nowhere. -/
theorem sleeper_stranded : ∃ s, run threadStep (boot 1) sleeper = some s ∧ s.Alive 0 ∧ ¬ NoneStranded s := by
  refine ⟨_, rfl, ⟨by decide, by decide⟩, fun h => ?_⟩
  obtain ⟨c, hc, -⟩ | hq | ⟨i, hi⟩ | ⟨u, hu, -⟩ := h 0 ⟨by decide, by decide⟩
  · revert c
    decide
  · revert hq
    decide
  · cases hi
  · revert u
    decide

/-- A thread with nothing queued behind it sleeps, wakes and joins the thread that it creates. -/
theorem none_stranded_joined : ∃ s, run threadStep (boot 1) [(0, .sleep), (0, .sleepDone), (0, .create 100 101), (0, .join 2),
    (0, .joinLook), (0, .joinSection)] = some s ∧ NoneStranded s := by
  refine ⟨_, rfl, @none_stranded 1 (by decide) [(0, .sleep), (0, .sleepDone), (0, .create 100 101), (0, .join 2),
    (0, .joinLook), (0, .joinSection)] _ rfl ?_⟩
  refine ⟨rfl, ?_⟩
  rintro _ ⟨⟩
  refine ⟨trivial, ?_⟩
  rintro _ ⟨⟩
  refine ⟨trivial, ?_⟩
  rintro _ ⟨⟩
  refine ⟨trivial, ?_⟩
  rintro _ ⟨⟩
  refine ⟨trivial, ?_⟩
  rintro _ ⟨⟩
  refine ⟨?_, fun _ _ => trivial⟩
  rintro x target ⟨⟩ ⟨⟩ -
  refine ⟨by decide, ?_⟩
  rintro j ⟨⟩

end Sample


end HouseKernel.Threads
