import HouseKernel.Threads.Scheduler

/-! What the operations of the scheduler do to the run queues. Whatever the other cores do, the
queues stay disjoint lists: a thread is queued only when no queue has it. -/
namespace HouseKernel.Threads

open HouseKernel.Lib

/-- The run queues are well formed and `q` has their members. -/
abbrev Sched.Runs (s : Sched) (q : CoreId → List Slot) : Prop := Queues s.next s.runQ q

section Fields

variable {s : Sched} {core : CoreId} {t : Slot}

/-- Queueing a thread changes only its status and the queues. -/
lemma Sched.enqueueRunCore_eq (s : Sched) (core : CoreId) (t : Slot) : ∃ status next runQ,
    s.enqueueRunCore core t = { s with status := status, next := next, runQ := runQ } := by
  unfold Sched.enqueueRunCore
  split_ifs
  · exact ⟨s.status, s.next, s.runQ, rfl⟩
  · exact ⟨_, _, _, rfl⟩

/-- Queueing a thread leaves its status or makes it runnable. -/
lemma Sched.enqueueRunCore_same (s : Sched) (core : CoreId) (t : Slot) : ∃ next runQ,
    s.enqueueRunCore core t = { s with next := next, runQ := runQ } ∨
      s.enqueueRunCore core t = { s.setStatus t .runnable with next := next, runQ := runQ } := by
  unfold Sched.enqueueRunCore
  split_ifs
  · exact ⟨s.next, s.runQ, .inl rfl⟩
  · exact ⟨_, _, .inr rfl⟩

lemma Sched.requeue_eq (s : Sched) (core : CoreId) (t : Slot) : ∃ status next runQ,
    s.requeue core t = { s with status := status, next := next, runQ := runQ } := by
  unfold Sched.requeue
  split_ifs
  · obtain ⟨status, next, runQ, h⟩ := (s.setStatus t .runnable).enqueueRunCore_eq core t
    exact ⟨status, next, runQ, h⟩
  · exact ⟨s.status, s.next, s.runQ, rfl⟩
  · exact s.enqueueRunCore_eq core t
  · exact ⟨s.status, s.next, s.runQ, rfl⟩

lemma Sched.requeue_current (s : Sched) (core : CoreId) (t : Slot) : (s.requeue core t).current = s.current := by
  obtain ⟨_, _, _, h⟩ := s.requeue_eq core t
  rw [h]

lemma Sched.wakeAll_eq (s : Sched) (ts : List Slot) : ∃ status next runQ,
    s.wakeAll ts = { s with status := status, next := next, runQ := runQ } := by
  induction ts generalizing s with
  | nil => exact ⟨s.status, s.next, s.runQ, rfl⟩
  | cons t ts ih =>
    obtain ⟨_, _, _, h⟩ := s.enqueueRunCore_eq (s.wakeCore t) t
    obtain ⟨status, next, runQ, h'⟩ := ih (s.wakeWaiter t)
    refine ⟨status, next, runQ, ?_⟩
    rw [Sched.wakeAll, List.foldl_cons]
    rw [Sched.wakeAll] at h'
    rw [h', Sched.wakeWaiter, h]

lemma Sched.wakeJoiner_flags (s : Sched) (cur : Slot) :
    (s.wakeJoiner cur).detached = s.detached ∧ (s.wakeJoiner cur).exited = s.exited := by
  unfold Sched.wakeJoiner
  split
  · exact ⟨rfl, rfl⟩
  · obtain ⟨_, _, _, henq⟩ := ({ s with joiner := Function.update s.joiner cur none } : Sched).enqueueRunCore_eq
      (Sched.runCore { s with joiner := Function.update s.joiner cur none } _) _
    rw [Sched.enqueueRun, henq]
    exact ⟨rfl, rfl⟩

end Fields

section Queue

variable {s s' : Sched} {q : CoreId → List Slot} {core : CoreId} {t new : Slot} {cores : List CoreId}

lemma Sched.Runs.queuedAnywhere (h : s.Runs q) : s.queuedAnywhere t = true ↔ ∃ k, t ∈ q k := by
  simp only [Sched.queuedAnywhere, List.any_eq_true, List.mem_finRange, true_and, decide_eq_true_eq]
  refine exists_congr fun k => ?_
  rw [h.follow_eq (by simp) k]

/-- A thread is queued behind the others of the core, unless some queue has it. -/
lemma Sched.Runs.enqueue (h : s.Runs q) (core : CoreId) (t : Slot) :
    ((∃ k, t ∈ q k) ∧ s.enqueueRunCore core t = s) ∨ ((∀ k, t ∉ q k) ∧
      s.enqueueRunCore core t = (s.setStatus t .runnable).relinkRun core ((s.runLinks core).pushBack t) ∧
      (s.enqueueRunCore core t).Runs (Function.update q core (q core ++ [t]))) := by
  unfold Sched.enqueueRunCore
  by_cases hq : s.queuedAnywhere t = true
  · rw [if_pos hq]
    exact .inl ⟨h.queuedAnywhere.mp hq, rfl⟩
  · rw [if_neg hq]
    have hout : ∀ k, t ∉ q k := fun k hin => hq (h.queuedAnywhere.mpr ⟨k, hin⟩)
    exact .inr ⟨hout, rfl, Queues.push h hout⟩

/-- The first thread of a core is taken off its queue. -/
lemma Sched.Runs.dequeue (h : s.Runs q) (core : CoreId) :
    (q core = [] ∧ s.dequeueRunCore core = none) ∨ ∃ new rest, q core = new :: rest ∧
      s.dequeueRunCore core = some (new, s.relinkRun core ((s.runLinks core).popFront new)) ∧
      (s.relinkRun core ((s.runLinks core).popFront new)).Runs (Function.update q core rest) := by
  have hpath : Path s.next (s.runQ core).head (q core) none := (h.each core).path
  cases hq : q core with
  | nil =>
    rw [hq] at hpath
    have hhead : (s.runQ core).head = none := hpath
    exact .inl ⟨rfl, by simp [Sched.dequeueRunCore, hhead]⟩
  | cons new rest =>
    rw [hq] at hpath
    exact .inr ⟨new, rest, rfl, by simp [Sched.dequeueRunCore, hpath.1], Queues.pop h hq⟩

lemma Sched.Runs.length_lt (h : s.Runs q) (core : CoreId) : (q core).length < 65 := by
  have := (h.each core).nodup.length_le_card
  simp only [Fintype.card_fin] at this
  omega

/-- A walk over the queue of one core unlinks a thread from it and keeps the others in order. -/
lemma Sched.Runs.unlink (h : s.Runs q) (once : Bool) (core : CoreId) (t : Slot) :
    ∃ l, (s.runLinks core).unlinkGo once t 65 none (s.runQ core).head = some (decide (t ∈ q core), l) ∧
      (s.relinkRun core l).Runs (Function.update q core ((q core).filter (· ≠ t))) ∧ (t ∉ q core → l = s.runLinks core) := by
  have hc := h.each core
  by_cases ht : t ∈ q core
  · obtain ⟨us, vs, hq⟩ := List.append_of_mem ht
    have hnodup := hq ▸ hc.nodup
    have hwalk : (s.runLinks core).unlinkGo once t 65 none (s.runQ core).head =
        some (true, (s.runLinks core).unlinkAt (us.getLast?.or none) t) :=
      unlinkGo_present (hq ▸ hc.path) hnodup (by simp) (hq ▸ h.length_lt core)
    rw [Option.or_none] at hwalk
    have hout : t ∉ us ++ vs := (List.nodup_cons.mp (List.perm_middle.nodup_iff.mp hnodup)).1
    have hrest : (q core).filter (· ≠ t) = us ++ vs := by
      rw [hq, List.filter_append, List.filter_cons_of_neg (by simp), ← List.filter_append, List.filter_eq_self]
      intro u hu
      exact decide_eq_true fun heq => hout (heq ▸ hu)
    refine ⟨(s.runLinks core).unlinkAt us.getLast? t, by simpa [ht] using hwalk, ?_, fun hout => absurd ht hout⟩
    rw [hrest]
    exact Queues.unlink h hq
  · have hwalk : (s.runLinks core).unlinkGo once t 65 none (s.runQ core).head = some (false, s.runLinks core) :=
      unlinkGo_absent hc.path ht (h.length_lt core)
    have hrest : (q core).filter (· ≠ t) = q core := List.filter_eq_self.mpr fun u hu => decide_eq_true fun heq => ht (heq ▸ hu)
    have hsame : s.relinkRun core (s.runLinks core) = s := by
      simp [Sched.relinkRun, Sched.runLinks]
    refine ⟨s.runLinks core, by simpa [ht] using hwalk, ?_, fun _ => rfl⟩
    rwa [hrest, Function.update_eq_self, hsame]

lemma mem_unqueued {u : Slot} {k : CoreId} : u ∈ Function.update q core ((q core).filter (· ≠ t)) k ↔
    u ∈ q k ∧ (k = core → u ≠ t) := by
  by_cases hk : k = core
  · subst hk
    rw [Function.update_self, List.mem_filter, decide_eq_true_eq]
    simp
  · simp [hk]

/-- Two states that differ only in the run queues. -/
def Sched.Relinked (s s' : Sched) : Prop := ∃ next runQ, s' = { s with next := next, runQ := runQ }

lemma Sched.Relinked.refl (s : Sched) : s.Relinked s := ⟨s.next, s.runQ, rfl⟩

lemma Sched.relinkRun_relinked (s : Sched) (core : CoreId) (l : Links Slot) : s.Relinked (s.relinkRun core l) := ⟨_, _, rfl⟩

lemma Sched.Relinked.trans {s'' : Sched} (h : s.Relinked s') (h' : s'.Relinked s'') : s.Relinked s'' := by
  obtain ⟨n, r, rfl⟩ := h
  obtain ⟨n', r', rfl⟩ := h'
  exact ⟨n', r', rfl⟩

/-- A slot that is given out again is in no queue. -/
lemma Sched.Runs.dequeueSpecific (h : s.Runs q) (t : Slot) (cores : List CoreId) :
    ∃ s' q', Sched.dequeueSpecific t cores s = some s' ∧ s.Relinked s' ∧ s'.Runs q' ∧
      (∀ k u, u ∈ q' k → u ∈ q k) ∧ (∀ k u, u ∈ q k → u ≠ t → u ∈ q' k) ∧ ∀ k ∈ cores, t ∉ q' k := by
  induction cores generalizing s q with
  | nil => exact ⟨s, q, rfl, .refl s, h, fun _ _ hu => hu, fun _ _ hu _ => hu, by simp⟩
  | cons core cores ih =>
    obtain ⟨l, hwalk, hruns, -⟩ := h.unlink false core t
    obtain ⟨s', q', heq, hsame, hruns', hsub, hkeep, hout⟩ := ih hruns
    refine ⟨s', q', ?_, (s.relinkRun_relinked core l).trans hsame, hruns', ?_, ?_, ?_⟩
    · rw [Sched.dequeueSpecific, hwalk]
      exact heq
    · intro k u hu
      exact (mem_unqueued.mp (hsub k u hu)).1
    · intro k u hu hne
      exact hkeep k u (mem_unqueued.mpr ⟨hu, fun _ => hne⟩) hne
    · intro k hk hin
      obtain rfl | hk := List.mem_cons.mp hk
      · exact (mem_unqueued.mp (hsub k t hin)).2 rfl rfl
      · exact hout k hk hin

/-- A thread is taken out of the queue that has it, if one of `cores` has; the others stay in order. -/
lemma Sched.Runs.takeFrom (h : s.Runs q) (t : Slot) (cores : List CoreId) :
    (Sched.takeFrom t cores s = some (false, s) ∧ ∀ core ∈ cores, t ∉ q core) ∨
      ∃ s' core, Sched.takeFrom t cores s = some (true, s') ∧ core ∈ cores ∧ t ∈ q core ∧ s.Relinked s' ∧
        s'.Runs fun k => (q k).filter (· ≠ t) := by
  induction cores with
  | nil => exact .inl ⟨rfl, by simp⟩
  | cons core cores ih =>
    obtain ⟨l, hwalk, hruns, -⟩ := h.unlink true core t
    rw [Sched.takeFrom, hwalk]
    by_cases ht : t ∈ q core
    · right
      refine ⟨s.relinkRun core l, core, by simp [ht], List.mem_cons_self, ht, s.relinkRun_relinked core l, ?_⟩
      have heq : Function.update q core ((q core).filter (· ≠ t)) = fun k => (q k).filter (· ≠ t) := by
        funext k
        by_cases hk : k = core
        · rw [hk, Function.update_self]
        · rw [Function.update_of_ne hk, eq_comm, List.filter_eq_self]
          intro u hu
          exact decide_eq_true fun heq => hk (h.apart k core t (heq ▸ hu) ht)
      rwa [← heq]
    · obtain ⟨hnone, hout⟩ | ⟨s', c, htake, hc, htc, hsame, hruns'⟩ := ih
      · left
        refine ⟨by simpa [ht] using hnone, fun c hc => ?_⟩
        obtain rfl | hc := List.mem_cons.mp hc
        · exact ht
        · exact hout c hc
      · right
        exact ⟨s', c, by simpa [ht] using htake, List.mem_cons_of_mem _ hc, htc, hsame, hruns'⟩

/-- The threads that a core had queued follow those of another core. -/
lemma Sched.Runs.migrate {dst : CoreId} {p : Option Slot} {xs : List Slot} {fuel : ℕ} (h : s.Runs q)
    (hpath : Path s.next p xs none) (hnodup : xs.Nodup) (hout : ∀ k, ∀ t ∈ xs, t ∉ q k) (hlen : xs.length < fuel) :
    ∃ s', Sched.migrate dst fuel p s = some s' ∧ s'.Runs (Function.update q dst (q dst ++ xs)) ∧
      ∃ next runQ affinity, s' = { s with
        status := fun t => if t ∈ xs then .runnable else s.status t, next := next, runQ := runQ, affinity := affinity } := by
  induction xs generalizing s q p fuel with
  | nil =>
    obtain rfl : p = none := hpath
    cases fuel with
    | zero => simp at hlen
    | succ fuel => exact ⟨s, rfl, by simpa using h, s.next, s.runQ, s.affinity, by simp⟩
  | cons t xs ih =>
    obtain ⟨rfl, hpath⟩ := hpath
    obtain ⟨ht, hnodup⟩ := List.nodup_cons.mp hnodup
    cases fuel with
    | zero => simp at hlen
    | succ fuel =>
      have htq : ∀ k, t ∉ q k := fun k => hout k t List.mem_cons_self
      have hpush : Queues ((s.runLinks dst).pushBack t).next (Function.update s.runQ dst ((s.runLinks dst).pushBack t).ends)
          (Function.update q dst (q dst ++ [t])) := Queues.push h htq
      have hpath' : Path ((s.runLinks dst).pushBack t).next (s.next t) xs none := by
        refine hpath.congr fun u hu => ?_
        have hut : u ≠ t := fun heq => ht (heq ▸ hu)
        unfold Links.pushBack
        split
        case h_1 b hb =>
          have hub : u ≠ b := by
            rintro rfl
            have htail : (q dst).getLast? = some u := by rw [← (h.each dst).tail, ← hb]; rfl
            exact hout dst u (List.mem_cons_of_mem _ hu) (List.mem_of_getLast? htail)
          simp [Sched.runLinks, hut, hub]
        case h_2 => simp [Sched.runLinks, hut]
      have hout' : ∀ k, ∀ u ∈ xs, u ∉ Function.update q dst (q dst ++ [t]) k := by
        intro k u hu
        have hut : u ≠ t := fun heq => ht (heq ▸ hu)
        by_cases hk : k = dst
        · subst hk
          simp [hut, hout k u (List.mem_cons_of_mem _ hu)]
        · rw [Function.update_of_ne hk]
          exact hout k u (List.mem_cons_of_mem _ hu)
      obtain ⟨s', heq, hruns, next, runQ, affinity, hs'⟩ := @ih ({ s.setStatus t .runnable with
        affinity := Function.update s.affinity t (Sched.coreBit dst) }.relinkRun dst ((s.runLinks dst).pushBack t))
        _ _ fuel hpush hpath' hnodup hout' (by simpa using hlen)
      refine ⟨s', heq, ?_, next, runQ, affinity, ?_⟩
      · simpa using hruns
      · rw [hs']
        simp only [Sched.relinkRun, Sched.setStatus, Waits.setStatus, Sched.mk.injEq, Waits.mk.injEq, and_self, and_true]
        funext u
        by_cases hut : u = t
        · simp [hut]
        · simp [hut]

/-- A core that goes down hands its whole queue to another one. -/
lemma Sched.Runs.coreDown (h : s.Runs q) (hstep : s.coreDown core = some s') : ∃ q' next runQ affinity,
    s' = { s with
      status := fun t => if t ∈ q core then .runnable else s.status t
      mask := s.mask &&& ~~~(Sched.coreBit core)
      live := Function.update s.live core none
      current := Function.update s.current core none
      next := next, runQ := runQ, affinity := affinity } ∧
    s'.Runs q' ∧ (∀ c t, t ∈ q' c → t ∈ q c ∨ t ∈ q core) ∧ ∀ c t, t ∈ q c → ∃ c', t ∈ q' c' := by
  have hc := h.each core
  -- the core without its queue
  have hempty : Queues s.next (Function.update s.runQ core ⟨none, none⟩) (Function.update q core []) :=
    h.change (l := ⟨s.next, ⟨none, none⟩⟩) ⟨rfl, List.nodup_nil, rfl⟩ (fun _ _ _ _ => rfl) (by simp)
  have hout : ∀ k, ∀ t ∈ q core, t ∉ Function.update q core [] k := by
    intro k t ht hin
    by_cases hk : k = core
    · subst hk
      simp at hin
    · rw [Function.update_of_ne hk] at hin
      exact hk (h.apart k core t hin ht)
  obtain ⟨s₁, heq, hruns, next, runQ, affinity, hs₁⟩ := Sched.Runs.migrate
    (s := { s with
      mask := s.mask &&& ~~~(Sched.coreBit core)
      live := Function.update s.live core none
      runQ := Function.update s.runQ core ⟨none, none⟩
      current := Function.update s.current core none }) hempty hc.path hc.nodup hout (h.length_lt core)
  obtain rfl : s₁ = s' := Option.some.inj (heq.symm.trans hstep)
  refine ⟨_, next, runQ, affinity, hs₁, hruns, fun c t ht => ?_, fun c t ht => ?_⟩
  · have hold : ∀ k, t ∈ Function.update q core [] k → t ∈ q k := by
      intro k hk
      by_cases hkc : k = core
      · simp [hkc] at hk
      · rwa [Function.update_of_ne hkc] at hk
    by_cases hcd : c = Sched.firstOnline (s.coreOff core).mask
    · rw [hcd, Function.update_self, List.mem_append, ← hcd] at ht
      exact ht.imp_left (hold c)
    · rw [Function.update_of_ne hcd] at ht
      exact .inl (hold c ht)
  · by_cases hcore : c = core
    · refine ⟨Sched.firstOnline (s.coreOff core).mask, ?_⟩
      rw [Function.update_self]
      exact List.mem_append_right _ (hcore ▸ ht)
    · refine ⟨c, ?_⟩
      have hkeep : t ∈ Function.update q core [] c := by rwa [Function.update_of_ne hcore]
      by_cases hcd : c = Sched.firstOnline (s.coreOff core).mask
      · rw [← hcd, Function.update_self]
        exact List.mem_append_left _ hkeep
      · rwa [Function.update_of_ne hcd]

end Queue

end HouseKernel.Threads
