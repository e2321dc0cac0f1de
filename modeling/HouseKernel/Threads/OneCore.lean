import HouseKernel.Threads.Cores

/-! A thread runs on one core only, as long as no core puts a thread on its queue that another
core still has: wakers choose the core by the recorded affinity, not by where the thread is. -/
namespace HouseKernel.Threads

open HouseKernel.Lib

structure OneCore (s : Sched) : Prop where
  queues : ∃ q, s.Runs q ∧ ∀ t c c', s.Holds t c → t ∈ q c' → c' = c
  current : ∀ t c c', s.current c = some t → s.current c' = some t → c = c'

/-- Queueing the thread on the core changes nothing, or no other core has the thread. -/
def Sched.MayQueue (s : Sched) (t : Slot) (core : CoreId) : Prop :=
  s.queuedAnywhere t = true ∨ ∀ c, s.Holds t c → c = core

/-- Rebalancing takes the thread off its queue. -/
def Sched.Moves (s : Sched) (t : Slot) : Prop :=
  s.status t = .runnable ∧ 2 ≤ s.tid t ∧ s.tid t < 10 ∧ s.affinity t ≠ Sched.coreBit (s.homeCore t) ∧ s.queuedAnywhere t = true

/-- No step queues a thread on a core while another core has it, and no core is taken down before it has saved what it
switches away from. -/
def Settled (s : Sched) (a : CoreId × Op) : Prop :=
  match a.2 with
  | .create _ _ => ∀ t, s.allocThread = some t → ∀ c, s.Holds t c → c = s.createCore
  | .exitSection => ∀ cur j, s.current a.1 = some cur → s.joiner cur = some j → s.MayQueue j (s.runCore j)
  | .wake t => s.status t = .blocked → s.MayQueue t (s.runCore t)
  | .unlock m => ∀ t, (s.waitQ (.mutex m)).head = some t → s.MayQueue t (s.wakeCore t)
  | .condWait _ m _ => ∀ t, (s.waitQ (.mutex m)).head = some t → s.MayQueue t (s.wakeCore t)
  | .signal c => ∀ t, (s.waitQ (.cond c)).head = some t → s.MayQueue t (s.wakeCore t)
  | .broadcast c => ∀ t ∈ (s.toWaits.broadcast c).1, s.MayQueue t (s.wakeCore t)
  | .rebalance => ∀ t, s.Moves t → ∀ c, s.Holds t c → c = s.homeCore t
  | .coreDown down => s.saving down = none
  | _ => True

/-- The invariant: every thread is held by one core at most, and queued only there. -/
structure Sched.Homed (s : Sched) (q : CoreId → List Slot) : Prop where
  runs : s.Runs q
  single : ∀ t c c', s.Holds t c → s.Holds t c' → c = c'
  home : ∀ t c c', s.Holds t c → t ∈ q c' → c' = c

section Invariant

variable {s s' : Sched} {q : CoreId → List Slot} {core : CoreId} {t old new : Slot} {pc idle : Point}

namespace Sched.Homed

/-- What a step leaves alone when it touches neither the queues nor the tables of the cores. -/
lemma frame (h : s.Homed q) (hnext : s'.next = s.next) (hrunQ : s'.runQ = s.runQ) (hcurrent : s'.current = s.current)
    (hsaving : s'.saving = s.saving) : s'.Homed q := by
  have hholds : ∀ {t c}, s'.Holds t c ↔ s.Holds t c := by
    intro t c
    unfold Sched.Holds
    rw [hcurrent, hsaving]
  constructor
  · unfold Sched.Runs
    rw [hnext, hrunQ]
    exact h.runs
  · exact fun t c c' h1 h2 => h.single t c c' (hholds.mp h1) (hholds.mp h2)
  · exact fun t c c' h1 h2 => h.home t c c' (hholds.mp h1) h2

lemma goto (h : s.Homed q) : (s.goto core pc).Homed q := h.frame rfl rfl rfl rfl

lemma setStatus (h : s.Homed q) (status : Status) : (s.setStatus t status).Homed q := h.frame rfl rfl rfl rfl

lemma put (h : s.Homed q) (waits : Waits) : (s.put waits).Homed q := h.frame rfl rfl rfl rfl

/-- Only the queues change, and a thread that is newly queued is held nowhere else. -/
lemma requeue {q' : CoreId → List Slot} (h : s.Homed q) (hsame : s.Relinked s') (hruns : s'.Runs q')
    (hq : ∀ t c c', s.Holds t c → t ∈ q' c' → c' = c) : s'.Homed q' := by
  obtain ⟨next, runQ, rfl⟩ := hsame
  exact ⟨hruns, h.single, hq⟩

lemma enqueue (h : s.Homed q) (hmay : s.MayQueue t core) : ∃ q', (s.enqueueRunCore core t).Homed q' ∧
    (∀ c u, u ∈ q c → u ∈ q' c) ∧ ∀ c u, u ≠ t → u ∈ q' c → u ∈ q c := by
  obtain ⟨-, heq⟩ | ⟨hout, heq, hruns⟩ := h.runs.enqueue core t
  · rw [heq]
    exact ⟨q, h, fun _ _ hu => hu, fun _ _ _ hu => hu⟩
  · have hheld : ∀ c, s.Holds t c → c = core := by
      obtain hq | hheld := hmay
      · obtain ⟨k, hk⟩ := h.runs.queuedAnywhere.mp hq
        exact absurd hk (hout k)
      · exact hheld
    refine ⟨Function.update q core (q core ++ [t]), ?_, fun c u hu => ?_, fun c u hne hu => ?_⟩
    · rw [heq] at hruns ⊢
      refine (h.setStatus .runnable).requeue (Sched.relinkRun_relinked _ _ _) hruns fun u c c' hu hin => ?_
      by_cases hc : c' = core
      · subst hc
        rw [Function.update_self, List.mem_append] at hin
        obtain hin | hin := hin
        · exact h.home u c c' hu hin
        · obtain rfl := List.mem_singleton.mp hin
          exact (hheld c hu).symm
      · rw [Function.update_of_ne hc] at hin
        exact h.home u c c' hu hin
    · by_cases hc : c = core
      · subst hc
        rw [Function.update_self]
        exact List.mem_append_left _ hu
      · rwa [Function.update_of_ne hc]
    · by_cases hc : c = core
      · subst hc
        simpa [hne] using hu
      · rwa [Function.update_of_ne hc] at hu

/-- The core switches to the first thread of its queue. -/
lemma switchTo {rest : List Slot} (h : s.Homed q) (hq : q core = new :: rest) (hcur : s.current core = some old)
    (hruns : (s.relinkRun core ((s.runLinks core).popFront new)).Runs (Function.update q core rest)) :
    ((s.relinkRun core ((s.runLinks core).popFront new)).switchTo core old new).Homed (Function.update q core rest) := by
  have hnew : ∀ c, s.Holds new c → c = core := fun c hc => (h.home new c core hc (by simp [hq])).symm
  have hsub : ∀ {c u}, u ∈ Function.update q core rest c → u ∈ q c ∧ u ≠ new := by
    intro c u hu
    by_cases hc : c = core
    · subst hc
      rw [Function.update_self] at hu
      have hnodup := (h.runs.each c).nodup
      rw [hq] at hnodup
      exact ⟨by simp [hq, hu], fun heq => (List.nodup_cons.mp hnodup).1 (heq ▸ hu)⟩
    · rw [Function.update_of_ne hc] at hu
      exact ⟨hu, fun heq => hc (h.runs.apart c core u hu (by simp [hq, heq]))⟩
  -- whoever holds a thread afterwards held it before, or is this core with the new thread
  have hholds : ∀ {u c}, ((s.relinkRun core ((s.runLinks core).popFront new)).switchTo core old new).Holds u c →
      s.Holds u c ∨ (u = new ∧ c = core) := by
    rintro u c (hc | ⟨n, hc⟩)
    · by_cases hcc : c = core
      · subst hcc
        simp only [Sched.switchTo, Function.update_self, Option.some.injEq] at hc
        exact .inr ⟨hc.symm, rfl⟩
      · simp only [Sched.switchTo, Function.update_of_ne hcc] at hc
        exact .inl (.inl hc)
    · by_cases hcc : c = core
      · subst hcc
        simp only [Sched.switchTo, Function.update_self, Option.some.injEq, Prod.mk.injEq] at hc
        exact .inl (.inl (hc.1 ▸ hcur))
      · simp only [Sched.switchTo, Function.update_of_ne hcc] at hc
        exact .inl (.inr ⟨n, hc⟩)
  constructor
  · exact hruns
  · intro u c c' h1 h2
    obtain h1 | ⟨hu, hc⟩ := hholds h1 <;> obtain h2 | ⟨hu', hc'⟩ := hholds h2
    · exact h.single u c c' h1 h2
    · rw [hc']
      exact hnew c (hu' ▸ h1)
    · rw [hc]
      exact (hnew c' (hu ▸ h2)).symm
    · rw [hc, hc']
  · intro u c c' h1 hin
    obtain h1 | ⟨rfl, rfl⟩ := hholds h1
    · exact h.home u c c' h1 (hsub hin).1
    · exact absurd rfl (hsub hin).2

lemma leave (h : s.Homed q) (hcur : s.current core = some old) :
    ∃ q', (s.leave core old pc idle).Homed q' := by
  unfold Sched.leave
  obtain ⟨-, heq⟩ | ⟨new, rest, hq, heq, hruns⟩ := h.runs.dequeue core
  · rw [heq]
    exact ⟨q, h.goto⟩
  · rw [heq]
    exact ⟨_, (h.switchTo hq hcur hruns).goto⟩

/-- The current thread of a core may always queue there. -/
lemma mayQueue (h : s.Homed q) (hcur : s.current core = some old) : s.MayQueue old core :=
  .inr fun c hc => h.single old c core hc (.inl hcur)

lemma requeue_yield (h : s.Homed q) (hcur : s.current core = some old) : ∃ q', (s.requeue core old).Homed q' := by
  unfold Sched.requeue
  split_ifs
  · obtain ⟨q', h', -⟩ := (h.setStatus .runnable).enqueue ((h.setStatus .runnable).mayQueue hcur)
    exact ⟨q', h'⟩
  · exact ⟨q, h⟩
  · obtain ⟨q', h', -⟩ := h.enqueue (h.mayQueue hcur)
    exact ⟨q', h'⟩
  · exact ⟨q, h⟩

lemma yieldTo (h : s.Homed q) (hcur : s.current core = some old) :
    ∃ q', (s.yieldTo core old pc).Homed q' := by
  obtain ⟨q₁, h₁⟩ := h.requeue_yield hcur
  have hcur₁ : (s.requeue core old).current core = some old := by rw [Sched.requeue_current, hcur]
  unfold Sched.yieldTo
  obtain ⟨-, heq⟩ | ⟨new, rest, hq, heq, hruns⟩ := h₁.runs.dequeue core
  · rw [heq]
    dsimp only
    split_ifs
    · exact ⟨q₁, (h₁.setStatus _).goto⟩
    · exact ⟨q₁, h₁.goto⟩
  · rw [heq]
    dsimp only
    split_ifs with hold
    · -- the thread itself is first: only the queue changes
      refine ⟨_, ((h₁.requeue (Sched.relinkRun_relinked _ _ _) hruns fun u c c' hu hin => ?_).setStatus _).goto⟩
      refine h₁.home u c c' hu ?_
      by_cases hc : c' = core
      · subst hc
        rw [Function.update_self] at hin
        simp [hq, hin]
      · rwa [Function.update_of_ne hc] at hin
    · exact ⟨_, (h₁.switchTo hq hcur₁ hruns).goto⟩

/-- The woken threads are queued in turn; none of them makes another one move. -/
lemma wakeAll (h : s.Homed q) {ts : List Slot} (hmay : ∀ t ∈ ts, s.MayQueue t (s.wakeCore t)) :
    ∃ q', (s.wakeAll ts).Homed q' := by
  induction ts generalizing s q with
  | nil => exact ⟨q, h⟩
  | cons t ts ih =>
    obtain ⟨q', h', hsub, -⟩ := h.enqueue (hmay t List.mem_cons_self)
    refine ih h' fun u hu => ?_
    obtain ⟨status, next, runQ, heq⟩ := s.enqueueRunCore_eq (s.wakeCore t) t
    obtain hq | hheld := hmay u (List.mem_cons_of_mem _ hu)
    · obtain ⟨k, hk⟩ := h.runs.queuedAnywhere.mp hq
      exact .inl (h'.runs.queuedAnywhere.mpr ⟨k, hsub k u hk⟩)
    · right
      rw [Sched.wakeWaiter, heq]
      exact hheld

lemma putWoken (h : s.Homed q) {r : Option Slot × Waits} (hmay : ∀ t, r.1 = some t → s.MayQueue t (s.wakeCore t)) :
    ∃ q', (s.putWoken r).Homed q' := by
  refine (h.put r.2).wakeAll fun t ht => ?_
  exact hmay t (by simpa using ht)

lemma exitSection (h : s.Homed q) (hcur : s.current core = some old)
    (hmay : ∀ j, s.joiner old = some j → s.MayQueue j (s.runCore j)) : ∃ q', (s.exitSection core old).Homed q' := by
  have hwake : ∃ q', (s.wakeJoiner old).Homed q' := by
    unfold Sched.wakeJoiner
    split
    case h_1 => exact ⟨q, h⟩
    case h_2 j hj =>
      have hjoin : ({ s with joiner := Function.update s.joiner old none } : Sched).Homed q :=
        h.frame rfl rfl rfl rfl
      obtain ⟨q', h', -⟩ := hjoin.enqueue (show Sched.MayQueue _ j (s.runCore j) from hmay j hj)
      exact ⟨q', h'⟩
  obtain ⟨q', h'⟩ := hwake
  have hcur' := (s.wakeJoiner_contexts old).current
  unfold Sched.exitSection
  dsimp only
  split_ifs
  · have hreap : ({ (s.wakeJoiner old).reapThread old with gone := Function.update ((s.wakeJoiner old).reapThread old).gone old true } :
        Sched).Homed q' := h'.frame rfl rfl rfl rfl
    exact hreap.leave (by rw [← hcur, ← hcur']; rfl)
  · have hgone : ({ s.wakeJoiner old with gone := Function.update (s.wakeJoiner old).gone old true } : Sched).Homed q' :=
      h'.frame rfl rfl rfl rfl
    exact hgone.leave (by rw [← hcur, ← hcur'])

lemma initThread (h : s.Homed q) (hout : ∀ k, t ∉ q k) (stack tcb : ℕ) : (s.initThread t stack tcb).Homed q :=
  ⟨Queues.relink h.runs hout none, h.single, h.home⟩

lemma create {stack tcb : ℕ} (h : s.Homed q) (hfree : ∀ t, s.allocThread = some t → ∀ c, s.Holds t c → c = s.createCore)
    (hstep : s.create stack tcb = some s') : ∃ q', s'.Homed q' := by
  unfold Sched.create at hstep
  split_ifs at hstep
  split at hstep
  case h_1 =>
    obtain rfl := Option.some.inj hstep
    exact ⟨q, h⟩
  case h_2 t ht =>
    obtain ⟨s₁, q₁, heq, hsame, hruns, hsub, -, hout⟩ := h.runs.dequeueSpecific t (List.finRange 32)
    rw [heq] at hstep
    obtain rfl := Option.some.inj hstep
    have h₁ : s₁.Homed q₁ := h.requeue hsame hruns fun u c c' hu hin => h.home u c c' hu (hsub c' u hin)
    have h₂ := h₁.initThread (t := t) (fun k => hout k (List.mem_finRange k)) stack tcb
    obtain ⟨next, runQ, rfl⟩ := hsame
    obtain ⟨q', h', -⟩ := h₂.enqueue (show Sched.MayQueue _ t s.createCore from .inr (hfree t ht))
    exact ⟨q', h'⟩

/-- One round of rebalancing: the thread moves or gets its affinity, and no other one changes. -/
lemma rebalanceOne (h : s.Homed q) (hmoves : s.Moves t → ∀ c, s.Holds t c → c = s.homeCore t)
    (hstep : s.rebalanceOne t = some s') : ∃ q', s'.Homed q' ∧ (∀ u, u ≠ t → ((∃ k, u ∈ q' k) → ∃ k, u ∈ q k)) ∧
      (∀ u, u ≠ t → s'.status u = s.status u ∧ s'.affinity u = s.affinity u) ∧ s'.tid = s.tid ∧ s'.smp = s.smp ∧
      s'.current = s.current ∧ s'.saving = s.saving := by
  unfold Sched.rebalanceOne at hstep
  dsimp only at hstep
  have haff : ({ s with affinity := Function.update s.affinity t (Sched.coreBit (s.homeCore t)) } : Sched).Homed q :=
    h.frame rfl rfl rfl rfl
  by_cases hskip : s.status t = .unused ∨ s.tid t < 2 ∨ s.tid t ≥ 10 ∨ s.affinity t = Sched.coreBit (s.homeCore t)
  · rw [if_pos hskip] at hstep
    obtain rfl := Option.some.inj hstep
    exact ⟨q, h, fun _ _ hk => hk, fun _ _ => ⟨rfl, rfl⟩, rfl, rfl, rfl, rfl⟩
  rw [if_neg hskip] at hstep
  rw [not_or, not_or, not_or, not_lt, not_le] at hskip
  obtain ⟨-, hlow, hhigh, haffinity⟩ := hskip
  split_ifs at hstep with hstatus
  · obtain ⟨hnone, -⟩ | ⟨s₁, k, htake, -, hk, hsame, hruns⟩ :=
      h.runs.takeFrom t ((List.finRange 32).filter fun core => core.val < s.smp)
    · rw [hnone] at hstep
      obtain rfl := Option.some.inj hstep
      exact ⟨q, haff, fun _ _ hk => hk, fun u hu => ⟨rfl, by simp [hu]⟩, rfl, rfl, rfl, rfl⟩
    · rw [htake] at hstep
      obtain rfl := Option.some.inj hstep
      simp only [if_true]
      have h₁ : s₁.Homed (fun k => (q k).filter (· ≠ t)) := h.requeue hsame hruns fun u c c' hu hin =>
        h.home u c c' hu (List.mem_filter.mp hin).1
      have hheld := hmoves ⟨hstatus, hlow, hhigh, haffinity, h.runs.queuedAnywhere.mpr ⟨k, hk⟩⟩
      obtain ⟨next, runQ, rfl⟩ := hsame
      obtain ⟨q₂, h₂, -, hsub⟩ := h₁.enqueue (show Sched.MayQueue _ t (s.homeCore t) from .inr hheld)
      obtain ⟨next', runQ', heq⟩ := ({ s with next := next, runQ := runQ } : Sched).enqueueRunCore_same (s.homeCore t) t
      refine ⟨q₂, h₂, fun u hu => ?_, fun u hu => ?_, ?_, ?_, ?_, ?_⟩
      · rintro ⟨k', hk'⟩
        exact ⟨k', (List.mem_filter.mp (hsub k' u hu hk')).1⟩
      all_goals
        obtain heq | heq := heq
        all_goals simp [Sched.setStatus, Waits.setStatus, *]
  · obtain rfl := Option.some.inj hstep
    exact ⟨q, haff, fun _ _ hk => hk, fun u hu => ⟨rfl, by simp [hu]⟩, rfl, rfl, rfl, rfl⟩

/-- What rebalancing has left as it was for the threads that it has not come to. -/
lemma rebalance {s₀ : Sched} {ts : List Slot} (h : s.Homed q) (hnodup : ts.Nodup)
    (hmoves : ∀ t, s₀.Moves t → ∀ c, s₀.Holds t c → c = s₀.homeCore t)
    (hsame : s.tid = s₀.tid ∧ s.smp = s₀.smp ∧ s.current = s₀.current ∧ s.saving = s₀.saving)
    (hts : ∀ t ∈ ts, s.status t = s₀.status t ∧ s.affinity t = s₀.affinity t ∧
      ((∃ k, t ∈ q k) → s₀.queuedAnywhere t = true))
    (hstep : Sched.rebalance ts s = some s') : ∃ q', s'.Homed q' := by
  induction ts generalizing s q with
  | nil =>
    obtain rfl := Option.some.inj hstep
    exact ⟨q, h⟩
  | cons t ts ih =>
    obtain ⟨ht, hnodup⟩ := List.nodup_cons.mp hnodup
    obtain ⟨s₁, hone, hrest⟩ := Option.bind_eq_some_iff.mp hstep
    obtain ⟨htid, hsmp, hcurrent, hsaving⟩ := hsame
    have hhome : s.homeCore t = s₀.homeCore t := by rw [Sched.homeCore, htid, hsmp]; rfl
    have hholds : ∀ u c, s.Holds u c ↔ s₀.Holds u c := by
      intro u c
      unfold Sched.Holds
      rw [hcurrent, hsaving]
    obtain ⟨hstatus, haff, hqueued⟩ := hts t List.mem_cons_self
    have hmove : s.Moves t → ∀ c, s.Holds t c → c = s.homeCore t := by
      rintro ⟨h1, h2, h3, h4, h5⟩ c hc
      rw [hstatus] at h1
      rw [htid] at h2 h3
      rw [haff, hhome] at h4
      rw [hhome]
      exact hmoves t ⟨h1, h2, h3, h4, hqueued (h.runs.queuedAnywhere.mp h5)⟩ c ((hholds t c).mp hc)
    obtain ⟨q₁, h₁, hsub, hother, htid₁, hsmp₁, hcurrent₁, hsaving₁⟩ := h.rebalanceOne hmove hone
    refine ih h₁ hnodup ⟨htid₁.trans htid, hsmp₁.trans hsmp, hcurrent₁.trans hcurrent, hsaving₁.trans hsaving⟩ ?_ hrest
    intro u hu
    have hut : u ≠ t := fun heq => ht (heq ▸ hu)
    obtain ⟨hst, haf, hqu⟩ := hts u (List.mem_cons_of_mem _ hu)
    exact ⟨(hother u hut).1.trans hst, (hother u hut).2.trans haf, fun hk => hqu (hsub u hut hk)⟩

lemma coreDown (h : s.Homed q) (hidle : s.saving core = none) (hstep : s.coreDown core = some s') : ∃ q', s'.Homed q' := by
  obtain ⟨q', next, runQ, affinity, rfl, hruns, hmem, -⟩ := h.runs.coreDown hstep
  -- nobody is held by the core any more
  have hholds : ∀ {t c}, ({ s with
      status := fun t => if t ∈ q core then .runnable else s.status t
      mask := s.mask &&& ~~~(Sched.coreBit core)
      live := Function.update s.live core none
      current := Function.update s.current core none
      next := next, runQ := runQ, affinity := affinity } : Sched).Holds t c → c ≠ core ∧ s.Holds t c := by
    rintro t c (hcur | ⟨new, hsav⟩)
    · have hne : c ≠ core := by
        rintro rfl
        simp at hcur
      simp only [Function.update_of_ne hne] at hcur
      exact ⟨hne, .inl hcur⟩
    · refine ⟨?_, .inr ⟨new, hsav⟩⟩
      rintro rfl
      exact Option.some_ne_none _ (hsav.symm.trans hidle)
  refine ⟨q', hruns, ?_, ?_⟩
  · exact fun t c c' h1 h2 => h.single t c c' (hholds h1).2 (hholds h2).2
  · intro t c c' h1 hin
    obtain ⟨hne, h1⟩ := hholds h1
    obtain hin | hin := hmem c' t hin
    · exact h.home t c c' h1 hin
    · exact absurd (h.home t c core h1 hin).symm hne

lemma finishSwitch (h : s.Homed q) (hstep : finishSwitch s core = some s') : s'.Homed q := by
  unfold Threads.finishSwitch at hstep
  split at hstep
  case h_2 => cases hstep
  case h_1 old new x hsav hx =>
    obtain rfl := Option.some.inj hstep
    have hholds : ∀ {t c}, ({ s with
          saved := Function.update s.saved old x
          live := Function.update s.live core (some (Function.update s.saved old x new))
          saving := Function.update s.saving core none } : Sched).Holds t c → s.Holds t c := by
      rintro t c (hc | ⟨n, hn⟩)
      · exact .inl hc
      · by_cases hc : c = core
        · subst hc
          simp at hn
        · simp only [Function.update_of_ne hc] at hn
          exact .inr ⟨n, hn⟩
    exact ⟨h.runs, fun t c c' h1 h2 => h.single t c c' (hholds h1) (hholds h2),
      fun t c c' h1 h2 => h.home t c c' (hholds h1) h2⟩

end Sched.Homed

/-- Every step that is settled keeps each thread on one core. -/
theorem codeStep_homed {x : Ctx} {op : Op} {cur : Slot} (h : s.Homed q) (hcur : s.current core = some cur)
    (hself : x.self = cur) (hsettled : Settled s (core, op))
    (hstep : codeStep s core cur x op = some s') : ∃ q', s'.Homed q' := by
  cases codeStep_move hstep with
  | stay => exact ⟨q, h⟩
  | goes => exact ⟨q, h.goto⟩
  | yields => exact h.yieldTo hcur
  | create _ _ _ hcreate => exact h.create hsettled hcreate
  | malloc => exact ⟨q, h.frame rfl rfl rfl rfl⟩
  | exit => exact ⟨q, Sched.Homed.goto (h.frame rfl rfl rfl rfl)⟩
  | exitMark => exact ⟨q, (h.setStatus _).goto⟩
  | exitSection => exact h.exitSection hcur fun j hj => hsettled cur j hcur hj
  | joinSection target =>
    unfold Sched.joinSection
    split_ifs
    · exact ⟨q, h.goto⟩
    · have hblocked : ({ s.setStatus cur .blocked with joiner := Function.update s.joiner target (some cur) } : Sched).Homed q :=
        h.frame rfl rfl rfl rfl
      exact hblocked.leave hcur
  | reap => exact ⟨q, Sched.Homed.goto (h.frame rfl rfl rfl rfl)⟩
  | detach =>
    unfold Sched.detach
    split
    · exact ⟨q, h⟩
    · dsimp only
      split_ifs
      · exact ⟨q, h.frame rfl rfl rfl rfl⟩
      · exact ⟨q, h.frame rfl rfl rfl rfl⟩
  | wake t hblocked =>
    obtain ⟨q', h', -⟩ := h.enqueue (hsettled hblocked)
    exact ⟨q', h'⟩
  | takes => exact ⟨q, (h.put _).goto⟩
  | waits => exact ⟨q, (h.put _).goto⟩
  | blocks => exact h.leave hcur
  | blocksAgain => exact h.leave hcur
  | trylock => exact ⟨q, h.put _⟩
  | unlock => exact h.putWoken (by simpa [Settled] using hsettled)
  | signal => exact h.putWoken (by simpa [Settled] using hsettled)
  | broadcast => exact (h.put _).wakeAll hsettled
  | condWait c m =>
    obtain ⟨q', h'⟩ := h.putWoken (r := s.toWaits.startWait c m cur) (by simpa [Settled] using hsettled)
    exact h'.leave (by rw [(s.putWoken_contexts _).current, hcur])
  | timeout => exact ⟨q, (h.put _).goto⟩
  | rewaits => exact (h.put _).leave (hself ▸ hcur)
  | sleeps => exact (h.setStatus _).leave hcur
  | wakes => exact ⟨q, (h.setStatus _).goto⟩
  | rebalance _ hmoves =>
    refine h.rebalance (List.nodup_finRange 64) hsettled ⟨rfl, rfl, rfl, rfl⟩ (fun t _ => ⟨rfl, rfl, ?_⟩) hmoves
    exact h.runs.queuedAnywhere.mpr
  | setAffinity => exact ⟨q, h.frame rfl rfl rfl rfl⟩
  | coreDown _ _ hdown => exact h.coreDown hsettled hdown

theorem threadStep_homed {a : CoreId × Op} (h : s.Homed q) (hplaced : s.Placed) (hsettled : Settled s a)
    (hstep : threadStep s a = some s') : ∃ q', s'.Homed q' := by
  unfold threadStep at hstep
  split_ifs at hstep
  · exact ⟨q, h.finishSwitch hstep⟩
  · split at hstep
    case h_1 cur x hidle hcur hx =>
      have hself := Option.some.inj ((hplaced.own a.1 x hidle hx).symm.trans hcur)
      exact codeStep_homed h hcur hself hsettled hstep
    case h_2 => cases hstep

lemma boot_homed (n : ℕ) : (boot n).Homed fun _ => [] := by
  have hholds : ∀ {t c}, (boot n).Holds t c → t = c.castLE (by decide) := by
    rintro t c (hc | ⟨new, hc⟩)
    · simp only [boot] at hc
      split_ifs at hc
      exact (Option.some.inj hc).symm
    · simp [boot] at hc
  refine ⟨⟨fun _ => ⟨rfl, List.nodup_nil, rfl⟩, by simp⟩, ?_, by simp⟩
  intro t c c' h1 h2
  exact Fin.castLE_injective _ ((hholds h1).symm.trans (hholds h2))

end Invariant

/-- In every run that queues no thread on a core while another core has it and takes no core down in the middle of a
switch, a thread runs on one core only. -/
theorem thread_on_one_core {n : ℕ} {acts : List (CoreId × Op)} {s : Sched} (hrun : run threadStep (boot n) acts = some s)
    (hsettled : Along threadStep Settled (boot n) acts) : OneCore s := by
  obtain ⟨-, q, h⟩ : s.Placed ∧ ∃ q, s.Homed q := by
    refine @run_invariant _ _ _ _ (fun s => s.Placed ∧ ∃ q, s.Homed q) ?_ _ _ _ ⟨boot_placed n, _, boot_homed n⟩ hsettled hrun
    rintro s a s' ⟨hplaced, q, h⟩ hset hstep
    exact ⟨threadStep_placed hplaced hstep, threadStep_homed h hplaced hset hstep⟩
  refine ⟨⟨q, h.runs, h.home⟩, fun t c c' h1 h2 => ?_⟩
  exact h.single t c c' (.inl h1) (.inl h2)

section Sample

/-- The main thread creates a thread, which rebalancing moves to core 1. There it waits, and core
0 wakes it before core 1 has saved it; its affinity still names core 0. -/
def wokenUnsaved : List (CoreId × Op) :=
  [(0, .create 100 101), (0, .rebalance), (1, .yield), (1, .finishSwitch), (1, .lock 0), (1, .lockSection),
    (1, .condWait 0 0 false), (0, .signal 0)]

/-- A thread is on the queue of core 0 while core 1 has still to save it. -/
theorem thread_queued_unsaved : ∃ s, run threadStep (boot 2) wokenUnsaved = some s ∧ s.saving 1 = some (2, 1) ∧
    2 ∈ follow s.next 64 (s.runQ 0).head ∧ ¬ OneCore s := by
  have h : ((run threadStep (boot 2) wokenUnsaved).map fun s => (s.saving 1, follow s.next 64 (s.runQ 0).head)) =
      some (some (2, 1), [2]) := by rfl
  obtain ⟨s, hs, heq⟩ := Option.map_eq_some_iff.mp h
  obtain ⟨hsaving, hqueue⟩ := Prod.mk.inj heq
  refine ⟨s, hs, hsaving, by simp [hqueue], fun hone => ?_⟩
  obtain ⟨q, hruns, hhome⟩ := hone.queues
  have hin : (2 : Slot) ∈ q 0 := by
    rw [← hruns.follow_eq (show Fintype.card Slot ≤ 64 by simp) 0, hqueue]
    simp
  exact absurd (hhome 2 1 0 (.inr ⟨1, hsaving⟩) hin) (by decide)

/-- A thread that spins on the core of its affinity is woken there. -/
theorem thread_on_one_core_signal : ∃ s,
    run threadStep (boot 2) [(1, .condWait 0 0 false), (0, .signal 0), (1, .spinLook)] = some s ∧ OneCore s := by
  refine ⟨_, rfl, @thread_on_one_core 2 [(1, .condWait 0 0 false), (0, .signal 0), (1, .spinLook)] _ rfl ?_⟩
  refine ⟨(fun t ht => nomatch ht), ?_⟩
  rintro s ⟨⟩
  refine ⟨fun t ht => ?_, fun _ _ => ⟨trivial, fun _ _ => trivial⟩⟩
  obtain rfl : 1 = t := Option.some.inj ht
  right
  rintro c (hc | ⟨new, hc⟩)
  · revert c
    decide
  · cases hc

end Sample

end HouseKernel.Threads
