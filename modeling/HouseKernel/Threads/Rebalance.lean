import HouseKernel.Threads.OneCore

/-! Rebalancing. A thread with a small id belongs on the core that the id names. The loop unlinks it from the
queue that has it and queues it there, but then goes on before it has set the affinity. -/
namespace HouseKernel.Threads

open HouseKernel.Lib

namespace Sched

/-- The threads that the queue of a core has, in order. -/
def queue (s : Sched) (core : CoreId) : List Slot := follow s.next 65 (s.runQ core).head

/-- A thread that rebalancing is for. -/
def Small (s : Sched) (t : Slot) : Prop := s.status t ≠ .unused ∧ 2 ≤ s.tid t ∧ s.tid t < 10

/-- The thread has another affinity than it should, and a queue that rebalancing looks through has it. -/
def Strays (s : Sched) (t : Slot) : Prop :=
  s.Small t ∧ s.status t = .runnable ∧ s.affinity t ≠ coreBit (s.homeCore t) ∧ ∃ core : CoreId, core.val < s.smp ∧
    t ∈ s.queue core

instance (s : Sched) (t : Slot) : Decidable (s.Small t) := inferInstanceAs (Decidable (_ ∧ _))

instance (s : Sched) (t : Slot) : Decidable (s.Strays t) := inferInstanceAs (Decidable (_ ∧ _))

end Sched

/-- What rebalancing is for: every small thread has the affinity of its home core and is queued there if it was
queued, and the others are where they were. -/
structure Rebalanced (s s' : Sched) : Prop where
  affinity : ∀ t, s.Small t → s'.affinity t = Sched.coreBit (s.homeCore t)
  queued : ∀ t, s.Small t → s.status t = .runnable → (∃ core, t ∈ s.queue core) →
    ∀ core, (s'.queue core).count t = if core = s.homeCore t then 1 else 0
  keptAffinity : ∀ t, ¬ s.Small t → s'.affinity t = s.affinity t
  keptQueue : ∀ t, ¬ (s.Small t ∧ s.status t = .runnable) → ∀ core, (s'.queue core).count t = (s.queue core).count t
  order : ∀ core, (s'.queue core).filter (fun t => ¬ s.Strays t) = (s.queue core).filter fun t => ¬ s.Strays t

/-- What the loop has done from `s` to `s'` when it has come through the threads `ts`. -/
structure Sched.Sweeps (s s' : Sched) (ts : List Slot) : Prop where
  tid : s'.tid = s.tid
  smp : s'.smp = s.smp
  status : s'.status = s.status
  homed : ∀ t ∈ ts, s.Small t → ¬ s.Strays t → s'.affinity t = coreBit (s.homeCore t)
  keptAffinity : ∀ t, (t ∈ ts → s.Small t → s.Strays t) → s'.affinity t = s.affinity t
  moved : ∀ t ∈ ts, s.Strays t → ∀ core, t ∈ s'.queue core ↔ core = s.homeCore t
  order : ∀ p : Slot → Bool, (∀ t ∈ ts, s.Strays t → p t = false) → ∀ core, (s'.queue core).filter p = (s.queue core).filter p

section Sweep

variable {s s' : Sched} {q : CoreId → List Slot} {t : Slot} {ts : List Slot}

lemma Sched.Runs.queue_eq (h : s.Runs q) (core : CoreId) : s.queue core = q core := h.follow_eq (by simp) core

lemma Sched.homeCore_congr (htid : s'.tid = s.tid) (hsmp : s'.smp = s.smp) (t : Slot) : s'.homeCore t = s.homeCore t := by
  rw [Sched.homeCore, Sched.homeCore, htid, hsmp]

lemma Sched.small_congr (htid : s'.tid = s.tid) (hstatus : s'.status = s.status) (t : Slot) : s'.Small t ↔ s.Small t := by
  rw [Sched.Small, Sched.Small, htid, hstatus]

/-- Queueing a runnable thread that no queue has changes the queues only. -/
lemma Sched.Runs.enqueue_runnable (h : s.Runs q) (core : CoreId) (hout : ∀ k, t ∉ q k) (hstatus : s.status t = .runnable) :
    s.Relinked (s.enqueueRunCore core t) ∧ (s.enqueueRunCore core t).Runs (Function.update q core (q core ++ [t])) := by
  obtain ⟨⟨k, hk⟩, -⟩ | ⟨-, heq, hruns⟩ := h.enqueue core t
  · exact absurd hk (hout k)
  · have hsame : s.setStatus t .runnable = s := by
      rw [Sched.setStatus, Waits.setStatus, ← hstatus, Function.update_eq_self]
    rw [hsame] at heq
    exact ⟨heq ▸ s.relinkRun_relinked core _, hruns⟩

/-- One turn of the loop: nothing, an affinity, or a thread that goes to the end of the queue of its home core. -/
lemma Sched.Runs.rebalanceOne_cases (h : s.Runs q) (t : Slot) :
    (s.rebalanceOne t = some s ∧ (s.Small t → s.affinity t = coreBit (s.homeCore t))) ∨
    (s.rebalanceOne t = some { s with affinity := Function.update s.affinity t (coreBit (s.homeCore t)) } ∧
      s.Small t ∧ ¬ s.Strays t) ∨
    (s.Strays t ∧ ∃ s', s.rebalanceOne t = some s' ∧ s.Relinked s' ∧
      s'.Runs (Function.update (fun k => (q k).filter (· ≠ t)) (s.homeCore t) ((q (s.homeCore t)).filter (· ≠ t) ++ [t]))) := by
  unfold Sched.rebalanceOne
  dsimp only
  by_cases hskip : s.status t = .unused ∨ s.tid t < 2 ∨ s.tid t ≥ 10 ∨ s.affinity t = coreBit (s.homeCore t)
  · rw [if_pos hskip]
    refine .inl ⟨rfl, ?_⟩
    rintro ⟨hused, hlow, hhigh⟩
    obtain h | h | h | h := hskip
    · exact absurd h hused
    · omega
    · omega
    · exact h
  rw [if_neg hskip]
  simp only [not_or, not_lt, not_le] at hskip
  obtain ⟨hused, hlow, hhigh, haffinity⟩ := hskip
  have hsmall : s.Small t := ⟨hused, hlow, by omega⟩
  by_cases hstatus : s.status t = .runnable
  · rw [if_pos hstatus]
    obtain ⟨hnone, hout⟩ | ⟨s₁, core, htake, hcore, ht, hsame, hruns⟩ :=
      h.takeFrom t ((List.finRange 32).filter fun core => core.val < s.smp)
    · rw [hnone]
      refine .inr (.inl ⟨rfl, hsmall, ?_⟩)
      rintro ⟨-, -, -, core, hlt, hin⟩
      rw [h.queue_eq] at hin
      exact hout core (List.mem_filter.mpr ⟨List.mem_finRange core, decide_eq_true hlt⟩) hin
    · rw [htake]
      have hlt : core.val < s.smp := of_decide_eq_true (List.mem_filter.mp hcore).2
      refine .inr (.inr ⟨⟨hsmall, hstatus, haffinity, core, hlt, ?_⟩, _, rfl, ?_⟩)
      · rwa [h.queue_eq]
      · have hstatus₁ : s₁.status t = .runnable := by
          obtain ⟨next, runQ, rfl⟩ := hsame
          exact hstatus
        obtain ⟨hsame', hruns'⟩ := hruns.enqueue_runnable (s.homeCore t) (by simp) hstatus₁
        exact ⟨hsame.trans hsame', hruns'⟩
  · rw [if_neg hstatus]
    exact .inr (.inl ⟨rfl, hsmall, fun hstrays => hstatus hstrays.2.1⟩)

namespace Sched.Sweeps

variable {u : Slot} {s₁ : Sched}

/-- A thread that did not move is still where it was. -/
lemma count_eq (h : s.Sweeps s' ts) (hu : u ∈ ts → ¬ s.Strays u) (core : CoreId) :
    (s'.queue core).count u = (s.queue core).count u := by
  have hfilter := h.order (fun x => decide (x = u))
    (fun x hx hstrays => decide_eq_false fun heq => hu (heq ▸ hx) (heq ▸ hstrays)) core
  have hcount : ∀ l : List Slot, (l.filter fun x => decide (x = u)).count u = l.count u := fun l => List.count_filter (by simp)
  rw [← hcount, hfilter, hcount]

lemma mem_iff (h : s.Sweeps s' ts) (hu : u ∈ ts → ¬ s.Strays u) (core : CoreId) : u ∈ s'.queue core ↔ u ∈ s.queue core := by
  rw [← List.count_pos_iff, h.count_eq hu, List.count_pos_iff]

lemma homeCore (h : s.Sweeps s' ts) (t : Slot) : s'.homeCore t = s.homeCore t := Sched.homeCore_congr h.tid h.smp t

lemma small_iff (h : s.Sweeps s' ts) (t : Slot) : s'.Small t ↔ s.Small t := Sched.small_congr h.tid h.status t

/-- The threads that the loop has not come to stray as before. -/
lemma strays_iff (h : s.Sweeps s' ts) (hu : u ∉ ts) : s'.Strays u ↔ s.Strays u := by
  rw [Sched.Strays, Sched.Strays, h.small_iff, h.status, h.smp, h.homeCore, h.keptAffinity u fun hin => absurd hin hu]
  simp only [h.mem_iff fun hin => absurd hin hu]

lemma refl (s : Sched) : s.Sweeps s [] :=
  ⟨rfl, rfl, rfl, by simp, fun _ _ => rfl, by simp, fun _ _ _ => rfl⟩

/-- A turn and the turns of the rest. -/
lemma cons (h : s.Sweeps s₁ [t]) (h' : s₁.Sweeps s' ts) (ht : t ∉ ts) : s.Sweeps s' (t :: ts) := by
  have hne : ∀ u ∈ ts, u ∉ [t] := fun u hu hin => ht (List.mem_singleton.mp hin ▸ hu)
  refine ⟨h'.tid.trans h.tid, h'.smp.trans h.smp, h'.status.trans h.status, ?_, ?_, ?_, ?_⟩
  · intro u hu hsmall hstrays
    obtain rfl | hu := List.mem_cons.mp hu
    · rw [h'.keptAffinity u fun hin => absurd hin ht]
      exact h.homed u List.mem_cons_self hsmall hstrays
    · rw [h'.homed u hu ((h.small_iff u).mpr hsmall) fun hin => hstrays ((h.strays_iff (hne u hu)).mp hin), h.homeCore]
  · intro u hu
    rw [h'.keptAffinity u fun hin hsmall => (h.strays_iff (hne u hin)).mpr
      (hu (List.mem_cons_of_mem _ hin) ((h.small_iff u).mp hsmall))]
    exact h.keptAffinity u fun hin => hu (List.mem_singleton.mp hin ▸ List.mem_cons_self)
  · intro u hu hstrays core
    obtain rfl | hu := List.mem_cons.mp hu
    · rw [h'.mem_iff fun hin => absurd hin ht]
      exact h.moved u List.mem_cons_self hstrays core
    · rw [h'.moved u hu ((h.strays_iff (hne u hu)).mpr hstrays), h.homeCore]
  · intro p hp core
    rw [h'.order p (fun u hu hstrays => hp u (List.mem_cons_of_mem _ hu) ((h.strays_iff (hne u hu)).mp hstrays)) core]
    exact h.order p (fun u hu hstrays => hp u (List.mem_singleton.mp hu ▸ List.mem_cons_self) hstrays) core

end Sched.Sweeps

/-- One turn of the loop. -/
lemma Sched.Runs.rebalanceOne (h : s.Runs q) (t : Slot) :
    ∃ s₁ q₁, s.rebalanceOne t = some s₁ ∧ s₁.Runs q₁ ∧ s.Sweeps s₁ [t] := by
  obtain ⟨hone, hhome⟩ | ⟨hone, hsmall, hstays⟩ | ⟨hstrays, s₁, hone, hsame, hruns⟩ := h.rebalanceOne_cases t
  · refine ⟨s, q, hone, h, rfl, rfl, rfl, ?_, fun _ _ => rfl, ?_, fun _ _ _ => rfl⟩
    · intro u hu hsmall _
      rw [List.mem_singleton] at hu
      exact hu ▸ hhome (hu ▸ hsmall)
    · intro u hu hstrays
      rw [List.mem_singleton] at hu
      exact absurd (hu ▸ hhome (hu ▸ hstrays.1)) hstrays.2.2.1
  · refine ⟨_, q, hone, h, rfl, rfl, rfl, ?_, ?_, ?_, fun _ _ _ => rfl⟩
    · intro u hu _ _
      rw [List.mem_singleton.mp hu]
      exact Function.update_self ..
    · intro u hu
      refine Function.update_of_ne ?_ _ _
      rintro rfl
      exact hstays (hu List.mem_cons_self hsmall)
    · intro u hu hstrays
      exact absurd (List.mem_singleton.mp hu ▸ hstrays) hstays
  · obtain ⟨next, runQ, rfl⟩ := hsame
    refine ⟨_, _, hone, hruns, rfl, rfl, rfl, ?_, fun _ _ => rfl, ?_, ?_⟩
    · intro u hu _ hstays
      exact absurd (List.mem_singleton.mp hu ▸ hstrays) hstays
    · intro u hu _ core
      rw [List.mem_singleton] at hu
      subst hu
      rw [hruns.queue_eq]
      by_cases hcore : core = s.homeCore u
      · simp [hcore]
      · simp [hcore]
    · intro p hp core
      have hpt : p t = false := hp t List.mem_cons_self hstrays
      have hrest : ∀ l : List Slot, (l.filter (· ≠ t)).filter p = l.filter p := by
        intro l
        rw [List.filter_filter]
        refine List.filter_congr fun u _ => ?_
        by_cases hut : u = t
        · simp [hut, hpt]
        · simp [hut]
      rw [hruns.queue_eq, h.queue_eq]
      by_cases hcore : core = s.homeCore t
      · rw [hcore, Function.update_self, List.filter_append, hrest]
        simp [hpt]
      · rw [Function.update_of_ne hcore, hrest]

/-- The loop comes through all threads. -/
lemma Sched.Runs.rebalance (h : s.Runs q) (hnodup : ts.Nodup) :
    ∃ s' q', Sched.rebalance ts s = some s' ∧ s'.Runs q' ∧ s.Sweeps s' ts := by
  induction ts generalizing s q with
  | nil => exact ⟨s, q, rfl, h, .refl s⟩
  | cons t ts ih =>
    obtain ⟨ht, hnodup⟩ := List.nodup_cons.mp hnodup
    obtain ⟨s₁, q₁, hone, h₁, hturn⟩ := h.rebalanceOne t
    obtain ⟨s', q', hrest, h', hsweeps⟩ := ih h₁ hnodup
    exact ⟨s', q', by rw [Sched.rebalance, hone]; exact hrest, h', hturn.cons hsweeps ht⟩

end Sweep

/-- Rebalancing a scheduler whose queues are well formed does what it is for exactly when there is nothing to
move: every small runnable thread that is queued has its home core as its affinity and is queued there. -/
theorem rebalanced_iff {s : Sched} (hruns : s.Runs s.queue) (hsmp : 0 < s.smp) :
    ∃ s', Sched.rebalance (List.finRange 64) s = some s' ∧ (Rebalanced s s' ↔
      ∀ t core, s.Small t → s.status t = .runnable → t ∈ s.queue core →
        core = s.homeCore t ∧ s.affinity t = Sched.coreBit (s.homeCore t)) := by
  obtain ⟨s', q', heq, hruns', hsweeps⟩ := hruns.rebalance (List.nodup_finRange 64)
  refine ⟨s', heq, fun h t core hsmall hrunnable hqueued => ?_, fun hsettled => ?_⟩
  · have hstays : ¬ s.Strays t := by
      intro hstrays
      exact hstrays.2.2.1 ((hsweeps.keptAffinity t fun _ _ => hstrays).symm.trans (h.affinity t hsmall))
    have hcore : core = s.homeCore t := by
      by_contra hne
      have hcount := h.queued t hsmall hrunnable ⟨core, hqueued⟩ core
      rw [if_neg hne, hsweeps.count_eq fun _ => hstays] at hcount
      exact List.count_eq_zero.mp hcount hqueued
    refine ⟨hcore, by_contra fun hne => hstays ⟨hsmall, hrunnable, hne, core, ?_, hqueued⟩⟩
    rw [hcore, Sched.homeCore, Fin.ofNat]
    exact (Nat.mod_le _ _).trans_lt (Nat.mod_lt _ hsmp)
  · have hstays : ∀ t, ¬ s.Strays t := by
      rintro t ⟨hsmall, hrunnable, hne, core, -, hqueued⟩
      exact hne (hsettled t core hsmall hrunnable hqueued).2
    refine ⟨fun t hsmall => hsweeps.homed t (List.mem_finRange t) hsmall (hstays t), ?_, ?_, ?_, ?_⟩
    · rintro t hsmall hrunnable ⟨k, hk⟩ core
      obtain rfl := (hsettled t k hsmall hrunnable hk).1
      rw [hsweeps.count_eq fun _ => hstays t]
      split_ifs with hcore
      · rw [hcore]
        exact List.count_eq_one_of_mem (hruns.each _).nodup hk
      · exact List.count_eq_zero.mpr fun hin => hcore (hruns.apart core _ t hin hk)
    · exact fun t hsmall => hsweeps.keptAffinity t fun _ h => absurd h hsmall
    · exact fun t _ core => hsweeps.count_eq (fun _ => hstays t) core
    · exact fun core => hsweeps.order _ (fun t _ h => absurd h (hstays t)) core

section Sample

/-- The main thread has created a thread: it has the id 3 and is queued on core 0, of two cores. -/
def oneCreated : Sched := ((boot 2).create 100 101).getD (boot 2)

lemma oneCreated_runs : oneCreated.Runs oneCreated.queue := by
  have hstep : (boot 2).create 100 101 = some oneCreated := rfl
  have hfree : ∀ t, (boot 2).allocThread = some t → ∀ c, (boot 2).Holds t c → c = (boot 2).createCore := by
    intro t ht c
    obtain rfl : (2 : Slot) = t := Option.some.inj ht
    rintro (hc | ⟨new, hc⟩)
    · revert c
      decide
    · cases hc
  obtain ⟨q, h⟩ := (boot_homed 2).create hfree hstep
  rw [show oneCreated.queue = q from funext h.runs.queue_eq]
  exact h.runs

/-- After it has been moved to core 1 its affinity still is core 0. -/
theorem rebalance_keeps_affinity : ¬ ∀ s : Sched, s.Runs s.queue → 0 < s.smp →
    ∃ s', Sched.rebalance (List.finRange 64) s = some s' ∧ Rebalanced s s' := by
  intro hall
  obtain ⟨s', heq, h⟩ := hall oneCreated oneCreated_runs (by decide)
  have hkept : ((Sched.rebalance (List.finRange 64) oneCreated).map fun s' => (s'.affinity 2, s'.queue 1)) = some (1, [2]) := by
    rfl
  rw [heq] at hkept
  have haffinity : s'.affinity 2 = 1 := congrArg Prod.fst (Option.some.inj hkept)
  have hwant := h.affinity 2 ⟨by decide, by decide, by decide⟩
  rw [haffinity] at hwant
  exact absurd hwant (by decide)

theorem rebalanced_iff_created : ∃ s', Sched.rebalance (List.finRange 64) oneCreated = some s' ∧ (Rebalanced oneCreated s' ↔
    ∀ t core, oneCreated.Small t → oneCreated.status t = .runnable → t ∈ oneCreated.queue core →
      core = oneCreated.homeCore t ∧ oneCreated.affinity t = Sched.coreBit (oneCreated.homeCore t)) :=
  rebalanced_iff oneCreated_runs (by decide)

end Sample

end HouseKernel.Threads
