import Mathlib.Algebra.BigOperators.Group.Finset.Piecewise
import HouseKernel.Threads.Releases

/-! The resources of all threads over a run. Once every thread has ended, the pool has back what it gave. The buddy
allocator has not: a page that a control block was taken from stays taken. -/
namespace HouseKernel.Threads

open HouseKernel.Lib HouseKernel.Heap HouseKernel.Pages

section Changes

variable {m m' : ThreadMemory} {trampoline tid : ℕ} {t u : Slot} {th : ThreadRecord} {e : ThreadEvent} {bs base : Multiset Block}

/-- What the events tell of a thread, its flags tell too; and a thread that exited and was detached is gone. -/
structure ThreadRecord.Recorded (th : ThreadRecord) (events : List ThreadEvent) : Prop where
  exited : .exited th.tid ∈ events → th.exited = true
  detached : .detached th.tid ∈ events → th.detached = true
  joined : .joined th.tid ∉ events
  waits : ¬ (th.exited = true ∧ th.detached = true)

/-- The table follows the events. -/
structure History (m : ThreadMemory) : Prop where
  first : .created 0 ∉ m.events
  tids : ∀ t, (m.threads t).tid < m.nextTid
  eventTids : ∀ e ∈ m.events, e.tid < m.nextTid
  own : ∀ t u, m.Held t → (m.threads t).tid = (m.threads u).tid → t = u
  running : ∀ t, (m.threads t).inUse = true → ¬ m.Held t → (m.threads t).exited = false
  recorded : ∀ t, m.Held t → (m.threads t).Recorded m.events

/-- One entry is written over, and the event is recorded. -/
structure Touched (m m' : ThreadMemory) (t : Slot) (th : ThreadRecord) (e : ThreadEvent) : Prop where
  threads : m'.threads = Function.update m.threads t th
  nextTid : m'.nextTid = m.nextTid
  events : m'.events = e :: m.events
  pages : m'.buddy = m.buddy
  tid : th.tid = (m.threads t).tid ∨ th.tid = 0
  about : e.tid = (m.threads t).tid
  later : ∀ tid, e ≠ .created tid

/-- A flag of a thread is set. -/
structure Marked (m m' : ThreadMemory) (t : Slot) (th : ThreadRecord) (e : ThreadEvent) : Prop extends Touched m m' t th e where
  pool : m'.pool = m.pool
  sameTid : th.tid = (m.threads t).tid
  inUse : th.inUse = (m.threads t).inUse
  memory : th.stackBase = (m.threads t).stackBase ∧ th.tcb = (m.threads t).tcb
  running : th.inUse = true → ¬ m.Held t → th.exited = false
  recorded : m.Held t → th.Recorded (e :: m.events)

/-- A thread gives up its entry and its memory. -/
structure Reaped (m m' : ThreadMemory) (t : Slot) (th : ThreadRecord) (e : ThreadEvent) : Prop extends Touched m m' t th e where
  pool : m'.pool = ThreadMemory.release m.pool (m.threads t)
  held : m.Held t
  unused : th.inUse = false

/-- What a call can change. -/
inductive Change (m m' : ThreadMemory) : Prop
  | kept (h : Failed m m')
  | started (t : Slot) (bs : Multiset Block) (h : Started m m' t bs)
  | marked (t : Slot) (th : ThreadRecord) (e : ThreadEvent) (h : Marked m m' t th e)
  | reaped (t : Slot) (th : ThreadRecord) (e : ThreadEvent) (h : Reaped m m' t th e)

/-- An event about another thread says nothing of this one. -/
theorem ThreadRecord.Recorded.cons (h : th.Recorded m.events) (hne : e.tid ≠ th.tid) : th.Recorded (e :: m.events) where
  exited hmem := by
    obtain heq | hmem := List.mem_cons.mp hmem
    · exact absurd (congrArg ThreadEvent.tid heq.symm) hne
    · exact h.exited hmem
  detached hmem := by
    obtain heq | hmem := List.mem_cons.mp hmem
    · exact absurd (congrArg ThreadEvent.tid heq.symm) hne
    · exact h.detached hmem
  joined hmem := by
    obtain heq | hmem := List.mem_cons.mp hmem
    · exact hne (congrArg ThreadEvent.tid heq.symm)
    · exact h.joined hmem
  waits := h.waits

/-- A thread that exited was created: the threads from before the first creation do not exit. -/
theorem History.held_of_exited (h : History m) (huse : (m.threads t).inUse = true) (hexit : (m.threads t).exited = true) :
    m.Held t := by
  by_contra hheld
  have hrun := h.running t huse hheld
  rw [hexit] at hrun
  cases hrun

theorem join_change (h : m.Sound) (hist : History m) {rc : ℕ} (hjoin : m.pthreadJoin tid = some (rc, m')) : Change m m' := by
  rw [ThreadMemory.pthreadJoin] at hjoin
  split at hjoin
  next =>
    obtain rfl := (Prod.mk.inj (Option.some.inj hjoin)).2
    exact .kept ⟨h, ⟨rfl, rfl, rfl⟩, rfl⟩
  next t hfind =>
    have hfound := findThread_some hfind
    simp only [Bool.and_eq_true, decide_eq_true_eq] at hfound
    obtain ⟨htid, huse⟩ := hfound
    dsimp only at hjoin
    split_ifs at hjoin with hdet hexit
    · obtain rfl := (Prod.mk.inj (Option.some.inj hjoin)).2
      exact .kept ⟨h, ⟨rfl, rfl, rfl⟩, rfl⟩
    · obtain rfl := (Prod.mk.inj (Option.some.inj hjoin)).2
      refine .reaped t _ (.joined tid) ⟨⟨rfl, rfl, rfl, rfl, .inr rfl, htid.symm, ?_⟩, rfl, hist.held_of_exited huse hexit, rfl⟩
      intro tid heq
      cases heq

theorem detach_change (h : m.Sound) (hist : History m) : Change m (m.pthreadDetach tid) := by
  rw [ThreadMemory.pthreadDetach]
  split
  next => exact .kept ⟨h, ⟨rfl, rfl, rfl⟩, rfl⟩
  next t hfind =>
    have htid := of_decide_eq_true (findThread_some hfind)
    dsimp only
    split_ifs with hends
    · obtain ⟨hexit, huse⟩ := Bool.and_eq_true_iff.mp hends
      refine .reaped t _ (.detached tid) ⟨⟨rfl, rfl, rfl, rfl, .inl rfl, htid.symm, ?_⟩, rfl, hist.held_of_exited huse hexit, rfl⟩
      intro tid heq
      cases heq
    · refine .marked t { m.threads t with detached := true } (.detached tid)
        ⟨⟨rfl, rfl, rfl, rfl, .inl rfl, htid.symm, ?_⟩, rfl, rfl, rfl, ⟨rfl, rfl⟩,
          fun huse hheld => hist.running t huse hheld, fun hheld => ?_⟩
      · intro tid heq
        cases heq
      · have hrec := hist.recorded t hheld
        refine ⟨fun hmem => hrec.exited ?_, fun _ => rfl, fun hmem => hrec.joined ?_, fun hboth => hends ?_⟩
        · simpa using hmem
        · simpa using hmem
        · exact Bool.and_eq_true_iff.mpr ⟨hboth.1, hheld.1⟩

theorem exit_change (hist : History m) (hheld : m.Held t) : Change m (m.pthreadExit t) := by
  rw [ThreadMemory.pthreadExit]
  dsimp only
  split_ifs with hdet
  · refine .reaped t _ (.exited (m.threads t).tid) ⟨⟨rfl, rfl, rfl, rfl, .inl rfl, rfl, ?_⟩, rfl, hheld, rfl⟩
    intro tid heq
    cases heq
  · refine .marked t { m.threads t with exited := true } (.exited (m.threads t).tid)
      ⟨⟨rfl, rfl, rfl, rfl, .inl rfl, rfl, ?_⟩, rfl, rfl, rfl, ⟨rfl, rfl⟩,
        fun _ hnot => absurd hheld hnot, fun _ => ?_⟩
    · intro tid heq
      cases heq
    · have hrec := hist.recorded t hheld
      refine ⟨fun _ => rfl, fun hmem => hrec.detached ?_, fun hmem => hrec.joined ?_, fun hboth => hdet hboth.2⟩
      · simpa using hmem
      · simpa using hmem

/-- Every call is one of these changes. -/
theorem change_of_step (htramp : trampoline < heapBase) (h : m.Sound) (hist : History m) {a : ThreadCall}
    (hstep : resourceStep trampoline m a = some m') : Change m m' := by
  cases a with
  | create thr =>
    obtain ⟨⟨rc, m''⟩, hcreate, rfl⟩ := Option.map_eq_some_iff.mp hstep
    obtain hfailed | ⟨t, bs, hstarted⟩ := (pthreadCreate_spec h htramp hcreate).1
    · exact .kept hfailed
    · exact .started t bs hstarted
  | exit t =>
    rw [resourceStep] at hstep
    split_ifs at hstep with hheld
    obtain rfl := Option.some.inj hstep
    exact exit_change hist hheld.1
  | join tid =>
    obtain ⟨⟨rc, m''⟩, hjoin, rfl⟩ := Option.map_eq_some_iff.mp hstep
    exact join_change h hist hjoin
  | detach tid =>
    obtain rfl := Option.some.inj hstep
    exact detach_change h hist
  | store a bytes =>
    rw [resourceStep] at hstep
    split_ifs at hstep with hm
    obtain ⟨frees, hinv⟩ := h.pool
    obtain ⟨pool, frees', hpool, hinv'⟩ := hinv.step hm trivial
    rw [hpool] at hstep
    obtain rfl := Option.some.inj hstep
    obtain rfl := Option.some.inj hpool
    exact .kept ⟨⟨⟨frees', hinv'⟩, h.pages, h.window⟩, ⟨rfl, rfl, rfl⟩, rfl⟩

theorem SameTable.held (h : SameTable m m') : m'.Held t ↔ m.Held t := by
  rw [ThreadMemory.Held, ThreadMemory.Held, h.threads, h.events]

theorem Touched.other (h : Touched m m' t th e) (hu : u ≠ t) : m'.threads u = m.threads u := by
  rw [h.threads, Function.update_of_ne hu]

theorem Touched.self (h : Touched m m' t th e) : m'.threads t = th := by
  rw [h.threads, Function.update_self]

theorem Touched.created (h : Touched m m' t th e) : .created tid ∈ m'.events ↔ .created tid ∈ m.events := by
  rw [h.events, List.mem_cons]
  exact or_iff_right (h.later tid).symm

theorem Touched.held (h : Touched m m' t th e) (hu : u ≠ t) : m'.Held u ↔ m.Held u := by
  rw [ThreadMemory.Held, ThreadMemory.Held, h.other hu, h.created]

theorem Started.other (h : Started m m' t bs) (hu : u ≠ t) : m'.threads u = m.threads u := by
  obtain ⟨stack, tcb, hthreads⟩ := h.threads
  rw [hthreads, Function.update_of_ne hu]

theorem Started.self (h : Started m m' t bs) :
    (m'.threads t).tid = m.nextTid ∧ (m'.threads t).inUse = true ∧ (m'.threads t).detached = false ∧
      (m'.threads t).exited = false := by
  obtain ⟨stack, tcb, hthreads⟩ := h.threads
  rw [hthreads, Function.update_self]
  exact ⟨rfl, rfl, rfl, rfl⟩

theorem Started.heldSelf (h : Started m m' t bs) : m'.Held t := by
  refine ⟨h.self.2.1, ?_⟩
  rw [h.self.1, h.events]
  exact List.mem_cons_self

theorem Started.held (h : Started m m' t bs) (hist : History m) (hu : u ≠ t) : m'.Held u ↔ m.Held u := by
  have hne : ThreadEvent.created (m.threads u).tid ≠ .created m.nextTid :=
    fun heq => (hist.tids u).ne (ThreadEvent.created.inj heq)
  rw [ThreadMemory.Held, ThreadMemory.Held, h.other hu, h.events, List.mem_cons]
  exact and_congr_right fun _ => or_iff_right hne

theorem History.kept (hist : History m) (h : SameTable m m') : History m' where
  first := by
    rw [h.events]
    exact hist.first
  tids t := by
    rw [h.threads, h.nextTid]
    exact hist.tids t
  eventTids := by
    rw [h.events, h.nextTid]
    exact hist.eventTids
  own t u hheld := by
    rw [h.threads]
    exact hist.own t u (h.held.mp hheld)
  running t := by
    rw [h.threads, h.held]
    exact hist.running t
  recorded t hheld := by
    rw [h.threads, h.events]
    exact hist.recorded t (h.held.mp hheld)

theorem History.started (hist : History m) (h : Started m m' t bs) : History m' where
  first := by
    rw [h.events, List.mem_cons]
    rintro (heq | hmem)
    · have hpos := hist.tids t
      have hzero := ThreadEvent.created.inj heq
      omega
    · exact hist.first hmem
  tids u := by
    rw [h.nextTid]
    by_cases hu : u = t
    · rw [hu, h.self.1]
      exact Nat.lt_succ_self _
    · rw [h.other hu]
      exact (hist.tids u).trans (Nat.lt_succ_self _)
  eventTids e he := by
    rw [h.events, List.mem_cons] at he
    rw [h.nextTid]
    obtain rfl | he := he
    · exact Nat.lt_succ_self _
    · exact (hist.eventTids e he).trans (Nat.lt_succ_self _)
  own u v hheld heq := by
    by_cases hu : u = t <;> by_cases hv : v = t
    · rw [hu, hv]
    · rw [hu, h.self.1, h.other hv] at heq
      exact absurd heq.symm (hist.tids v).ne
    · rw [hv, h.self.1, h.other hu] at heq
      exact absurd heq (hist.tids u).ne
    · rw [h.other hu, h.other hv] at heq
      exact hist.own u v ((h.held hist hu).mp hheld) heq
  running u huse hnot := by
    by_cases hu : u = t
    · exact absurd (hu ▸ h.heldSelf) hnot
    · rw [h.other hu] at huse ⊢
      exact hist.running u huse (mt (h.held hist hu).mpr hnot)
  recorded u hheld := by
    by_cases hu : u = t
    · have hnew : ∀ e ∈ m'.events, e.tid = m.nextTid → e = .created m.nextTid := by
        intro e he htid
        rw [h.events, List.mem_cons] at he
        exact he.resolve_right fun he => (hist.eventTids e he).ne htid
      obtain ⟨htid, -, hdet, hexit⟩ := h.self
      rw [hu]
      refine ⟨fun hmem => ?_, fun hmem => ?_, fun hmem => ?_, fun hboth => ?_⟩
      · cases hnew _ hmem htid
      · cases hnew _ hmem htid
      · cases hnew _ hmem htid
      · rw [hdet] at hboth
        cases hboth.2
    · rw [h.other hu, h.events]
      exact (hist.recorded u ((h.held hist hu).mp hheld)).cons (hist.tids u).ne'

/-- Writing over one entry keeps the rest of the table in step with the events. -/
theorem History.touched (hist : History m) (h : Touched m m' t th e) (hself : m'.Held t → m.Held t ∧ th.tid = (m.threads t).tid)
    (hrun : th.inUse = true → ¬ m'.Held t → th.exited = false) (hrec : m'.Held t → th.Recorded m'.events) : History m' where
  first := h.created.not.mpr hist.first
  tids u := by
    rw [h.nextTid]
    by_cases hu : u = t
    · rw [hu, h.self]
      have hlt := hist.tids t
      obtain htid | htid := h.tid <;> omega
    · rw [h.other hu]
      exact hist.tids u
  eventTids e' he := by
    rw [h.events, List.mem_cons] at he
    rw [h.nextTid]
    obtain rfl | he := he
    · rw [h.about]
      exact hist.tids t
    · exact hist.eventTids e' he
  own u v hheld heq := by
    have hpos : (m'.threads u).tid ≠ 0 := fun hzero => hist.first (h.created.mp (hzero ▸ hheld.2))
    by_cases hu : u = t <;> by_cases hv : v = t
    · rw [hu, hv]
    · subst hu
      obtain ⟨hwas, htid⟩ := hself hheld
      rw [h.self, htid, h.other hv] at heq
      exact hist.own u v hwas heq
    · subst hv
      rw [h.other hu] at hpos
      rw [h.self, h.other hu] at heq
      obtain htid | htid := h.tid
      · exact hist.own u v ((h.held hu).mp hheld) (heq.trans htid)
      · exact absurd (heq.trans htid) hpos
    · rw [h.other hu, h.other hv] at heq
      exact hist.own u v ((h.held hu).mp hheld) heq
  running u huse hnot := by
    by_cases hu : u = t
    · subst hu
      rw [h.self] at huse ⊢
      exact hrun huse hnot
    · rw [h.other hu] at huse ⊢
      exact hist.running u huse (mt (h.held hu).mpr hnot)
  recorded u hheld := by
    by_cases hu : u = t
    · subst hu
      rw [h.self]
      exact hrec hheld
    · have hwas := (h.held hu).mp hheld
      rw [h.other hu, h.events]
      refine (hist.recorded u hwas).cons fun heq => hu ?_
      exact hist.own u t hwas (heq.symm.trans h.about)

theorem Marked.held (h : Marked m m' t th e) : m'.Held u ↔ m.Held u := by
  by_cases hu : u = t
  · subst hu
    rw [ThreadMemory.Held, ThreadMemory.Held, h.self, h.inUse, h.sameTid, h.created]
  · exact h.toTouched.held hu

theorem Reaped.gone (h : Reaped m m' t th e) : ¬ m'.Held t := by
  rintro ⟨huse, -⟩
  rw [h.self, h.unused] at huse
  cases huse

theorem History.change (hist : History m) (h : Change m m') : History m' := by
  cases h with
  | kept h => exact hist.kept h.table
  | started t bs h => exact hist.started h
  | marked t th e h =>
    refine hist.touched h.toTouched (fun hheld => ⟨h.held.mp hheld, h.sameTid⟩) (fun huse hnot => ?_) fun hheld => ?_
    · exact h.running huse (mt h.held.mpr hnot)
    · rw [h.events]
      exact h.recorded (h.held.mp hheld)
  | reaped t th e h =>
    refine hist.touched h.toTouched (fun hheld => absurd hheld h.gone) (fun huse _ => ?_) fun hheld => absurd hheld h.gone
    rw [h.unused] at huse
    cases huse

/-- A created thread that holds its entry holds these blocks, and no other entry holds any. -/
def ThreadMemory.Owns (m : ThreadMemory) (t : Slot) (bs : Multiset Block) : Prop :=
  if m.Held t then (m.threads t).Has bs else bs = 0

/-- The held blocks are those from before the first creation and those of the threads. -/
def Owned (base : Multiset Block) (m : ThreadMemory) : Prop :=
  ∃ owned : Slot → Multiset Block, m.blocks = base + ∑ t, owned t ∧ ∀ t, m.Owns t (owned t)

theorem sum_update (owned : Slot → Multiset Block) (t : Slot) (bs : Multiset Block) :
    ∑ u, Function.update owned t bs u + owned t = bs + ∑ u, owned u := by
  rw [Finset.sum_update_of_mem (Finset.mem_univ t), Finset.sum_eq_add_sum_sdiff_singleton_of_mem (Finset.mem_univ t) owned,
    add_assoc, add_comm (owned t)]

theorem owns_of_not_held (h : ¬ m.Held t) : m.Owns t bs ↔ bs = 0 := by
  rw [ThreadMemory.Owns, if_neg h]

theorem owns_of_held (h : m.Held t) : m.Owns t bs ↔ (m.threads t).Has bs := by
  rw [ThreadMemory.Owns, if_pos h]

theorem owns_congr (hheld : m'.Held t ↔ m.Held t) (hstack : (m'.threads t).stackBase = (m.threads t).stackBase)
    (htcb : (m'.threads t).tcb = (m.threads t).tcb) : m'.Owns t bs ↔ m.Owns t bs := by
  simp only [ThreadMemory.Owns, ThreadRecord.Has, hheld, hstack, htcb]

theorem Owned.kept (howned : Owned base m) (h : Failed m m') : Owned base m' := by
  obtain ⟨owned, hblocks, hown⟩ := howned
  refine ⟨owned, h.blocks.trans hblocks, fun t => (owns_congr h.table.held ?_ ?_).mpr (hown t)⟩
  · rw [h.table.threads]
  · rw [h.table.threads]

theorem Owned.started (howned : Owned base m) (hist : History m) (h : Started m m' t bs) : Owned base m' := by
  obtain ⟨owned, hblocks, hown⟩ := howned
  have hnone : owned t = 0 := by
    have hnot : ¬ m.Held t := fun hheld => by
      have huse := hheld.1
      rw [h.free] at huse
      cases huse
    exact (owns_of_not_held hnot).mp (hown t)
  have hsum := sum_update owned t bs
  rw [hnone, add_zero] at hsum
  refine ⟨Function.update owned t bs, ?_, fun u => ?_⟩
  · rw [h.blocks, hblocks, hsum, add_left_comm]
  · by_cases hu : u = t
    · subst hu
      rw [Function.update_self, owns_of_held h.heldSelf]
      exact h.has
    · rw [Function.update_of_ne hu]
      exact (owns_congr (h.held hist hu) (by rw [h.other hu]) (by rw [h.other hu])).mpr (hown u)

theorem Owned.marked (howned : Owned base m) (h : Marked m m' t th e) : Owned base m' := by
  obtain ⟨owned, hblocks, hown⟩ := howned
  refine ⟨owned, ?_, fun u => ?_⟩
  · rw [ThreadMemory.blocks, h.pool]
    exact hblocks
  · have hsame : (m'.threads u).stackBase = (m.threads u).stackBase ∧ (m'.threads u).tcb = (m.threads u).tcb := by
      by_cases hu : u = t
      · subst hu
        rw [h.self]
        exact h.memory
      · rw [h.other hu]
        exact ⟨rfl, rfl⟩
    exact (owns_congr h.held hsame.1 hsame.2).mpr (hown u)

/-- A thread that is reaped releases exactly what it holds. -/
theorem Owned.reaped (howned : Owned base m) (hsound : m.Sound) (h : Reaped m m' t th e) : m'.Sound ∧ Owned base m' := by
  obtain ⟨owned, hblocks, hown⟩ := howned
  have hsum := sum_update owned t 0
  have hlive : (m.pool.live : Multiset Block) = owned t + (base + ∑ u, Function.update owned t 0 u) := by
    calc (m.pool.live : Multiset Block) = base + ∑ u, owned u := hblocks
      _ = base + (∑ u, Function.update owned t 0 u + owned t) := by rw [hsum, zero_add]
      _ = owned t + (base + ∑ u, Function.update owned t 0 u) := by rw [← add_assoc, add_comm]
  obtain ⟨hinv, hrest⟩ := release_has hsound.pool ((owns_of_held h.held).mp (hown t)) hlive
  rw [← h.pool] at hinv hrest
  refine ⟨⟨hinv, h.pages ▸ hsound.pages, h.pages ▸ hsound.window⟩, Function.update owned t 0, hrest, fun u => ?_⟩
  by_cases hu : u = t
  · subst hu
    rw [Function.update_self, owns_of_not_held h.gone]
  · rw [Function.update_of_ne hu]
    exact (owns_congr (h.toTouched.held hu) (by rw [h.other hu]) (by rw [h.other hu])).mpr (hown u)

/-- The allocators are in order, the table follows the events, and the threads hold what they were given. -/
structure Ledger (base : Multiset Block) (m : ThreadMemory) : Prop where
  sound : m.Sound
  history : History m
  owned : Owned base m

theorem Ledger.change (h : Ledger base m) (hchange : Change m m') : Ledger base m' := by
  have hist := h.history.change hchange
  cases hchange with
  | kept hc => exact ⟨hc.sound, hist, h.owned.kept hc⟩
  | started t bs hc => exact ⟨hc.sound, hist, h.owned.started h.history hc⟩
  | marked t th e hc =>
    exact ⟨⟨hc.pool ▸ h.sound.pool, hc.pages ▸ h.sound.pages, hc.pages ▸ h.sound.window⟩, hist, h.owned.marked hc⟩
  | reaped t th e hc =>
    obtain ⟨hsound, howned⟩ := h.owned.reaped h.sound hc
    exact ⟨hsound, hist, howned⟩

theorem Ledger.step (htramp : trampoline < heapBase) (h : Ledger base m) {a : ThreadCall}
    (hstep : resourceStep trampoline m a = some m') : Ledger base m' :=
  h.change (change_of_step htramp h.sound h.history hstep)

theorem ThreadMemory.Ready.ledger (h : m.Ready) : Ledger m.blocks m := by
  have hnone : ∀ t, ¬ m.Held t := by
    rintro t ⟨-, hmem⟩
    rw [h.events] at hmem
    cases hmem
  refine ⟨⟨h.pool, h.pages, h.window⟩, ⟨?_, h.tids, ?_, ?_, fun t huse _ => h.running t huse, ?_⟩, fun _ => 0, ?_, ?_⟩
  · rw [h.events]
    exact List.not_mem_nil
  · rw [h.events]
    exact fun e he => absurd he List.not_mem_nil
  · exact fun t _ hheld => absurd hheld (hnone t)
  · exact fun t hheld => absurd hheld (hnone t)
  · rw [Finset.sum_const_zero, add_zero]
  · exact fun t => (owns_of_not_held (hnone t)).mpr rfl

/-- Once every thread has ended, no entry is held. -/
theorem History.all_gone (hist : History m) (hended : AllEnded m.events) (t : Slot) : ¬ m.Held t := by
  intro hheld
  have hrec := hist.recorded t hheld
  obtain ⟨hexit, hjoin | hdet⟩ := hended _ hheld.2
  · exact hrec.joined hjoin
  · exact hrec.waits ⟨hrec.exited hexit, hrec.detached hdet⟩

/-- Once every thread has ended, the held blocks are those from before the first creation. -/
theorem Ledger.settled (h : Ledger base m) (hended : AllEnded m.events) : m.blocks = base := by
  obtain ⟨owned, hblocks, hown⟩ := h.owned
  have hzero : ∀ t, owned t = 0 := fun t => (owns_of_not_held (h.history.all_gone hended t)).mp (hown t)
  rw [hblocks, Finset.sum_eq_zero fun t _ => hzero t, add_zero]

theorem Ledger.mallocUsed (h : Ledger base m) : m.pool.mallocUsed = (m.blocks.map Block.size).sum := by
  obtain ⟨frees, hinv⟩ := h.sound.pool
  rw [hinv.used, ThreadMemory.blocks, Multiset.map_coe, Multiset.sum_coe]

/-- A call takes a page exactly when it creates a thread, with room for a stack and a page to take. -/
theorem pages_of_step (htramp : trampoline < heapBase) (h : Ledger base m) {a : ThreadCall}
    (hstep : resourceStep trampoline m a = some m') :
    m'.buddy.freePages ≤ m.buddy.freePages ∧ (m'.buddy.freePages = m.buddy.freePages ↔ TakesNoPage m a) := by
  have hkept : m'.buddy = m.buddy → TakesNoPage m a →
      m'.buddy.freePages ≤ m.buddy.freePages ∧ (m'.buddy.freePages = m.buddy.freePages ↔ TakesNoPage m a) := by
    intro heq htakes
    rw [heq]
    exact ⟨le_rfl, iff_of_true rfl htakes⟩
  cases a with
  | create thr =>
    obtain ⟨⟨rc, m''⟩, hcreate, rfl⟩ := Option.map_eq_some_iff.mp hstep
    exact (pthreadCreate_spec h.sound htramp hcreate).2
  | exit t =>
    rw [resourceStep] at hstep
    split_ifs at hstep with hheld
    obtain rfl := Option.some.inj hstep
    refine hkept ?_ trivial
    rw [ThreadMemory.pthreadExit]
    dsimp only
    split_ifs <;> rfl
  | join tid =>
    obtain ⟨⟨rc, m''⟩, hjoin, rfl⟩ := Option.map_eq_some_iff.mp hstep
    refine hkept ?_ trivial
    rw [ThreadMemory.pthreadJoin] at hjoin
    split at hjoin
    next =>
      obtain rfl := (Prod.mk.inj (Option.some.inj hjoin)).2
      rfl
    next =>
      dsimp only at hjoin
      split_ifs at hjoin <;> (obtain rfl := (Prod.mk.inj (Option.some.inj hjoin)).2; rfl)
  | detach tid =>
    obtain rfl := Option.some.inj hstep
    refine hkept ?_ trivial
    rw [ThreadMemory.pthreadDetach]
    split
    next => rfl
    next =>
      dsimp only
      split_ifs <;> rfl
  | store a bytes =>
    rw [resourceStep] at hstep
    split_ifs at hstep
    obtain ⟨pool, -, rfl⟩ := Option.map_eq_some_iff.mp hstep
    exact hkept rfl trivial

/-- When every thread has ended, the bytes in use are back where they were; the free pages are too exactly when no
creation took a page. -/
theorem resources_balance_iff {m₀ m : ThreadMemory} {acts : List ThreadCall} (htramp : trampoline < heapBase)
    (hready : m₀.Ready) (hrun : run (resourceStep trampoline) m₀ acts = some m) (hended : AllEnded m.events) :
    (m.buddy.freePages = m₀.buddy.freePages ∧ m.pool.mallocUsed = m₀.pool.mallocUsed) ↔
      Along (resourceStep trampoline) TakesNoPage m₀ acts := by
  have hledger : Ledger m₀.blocks m := run_invariant (fun _ _ _ hI _ hstep => Ledger.step htramp hI hstep) hready.ledger
    (along_of_forall (fun _ _ => trivial) _ acts) hrun
  have hused : m.pool.mallocUsed = m₀.pool.mallocUsed := by
    rw [hledger.mallocUsed, hready.ledger.mallocUsed, hledger.settled hended]
  rw [and_iff_left hused]
  exact (run_measure_eq_iff (f := fun m => m.buddy.freePages) (fun _ _ _ hI hstep => Ledger.step htramp hI hstep)
    (fun _ _ _ hI hstep => pages_of_step htramp hI hstep) hready.ledger hrun).2

end Changes

/-- The main thread is running, and nothing was allocated yet. -/
def bootThreads (buddy : Buddy) : ThreadMemory :=
  ⟨Pool.boot zeroMem, buddy, fun t => if t = 0 then ⟨1, true, false, false, 0, 0⟩ else ⟨0, false, false, false, 0, 0⟩, 2, []⟩

theorem bootThreads_ready {buddy : Buddy} (hpages : ∃ free, buddy.Stocks free)
    (hwindow : buddy.freePages ≠ 0 → poolTop ≤ buddy.buddyStart) : (bootThreads buddy).Ready where
  pool := ⟨[], boot_inv fun q _ _ => zeroMem_free q⟩
  pages := hpages
  window := hwindow
  first := Nat.zero_lt_two
  tids t := by
    dsimp only [bootThreads]
    split <;> decide
  running t huse := by
    dsimp only [bootThreads] at huse ⊢
    split <;> rfl
  events := rfl

/-- Start a thread, let it exit, and join it. -/
def oneThread : List ThreadCall := [.create 8, .exit 1, .join 2]

/-- Before the pages are there, the control block comes from the pool, and all is given back. -/
theorem resources_balance_unset : ∃ m, run (resourceStep 0x40081000) (bootThreads (Buddy.unset fun _ => 0)) oneThread = some m ∧
    m.buddy.freePages = 0 ∧ m.pool.mallocUsed = 0 := by
  have hevents : (run (resourceStep 0x40081000) (bootThreads (Buddy.unset fun _ => 0)) oneThread).map ThreadMemory.events =
      some [.joined 2, .exited 2, .created 2] := by rfl
  obtain ⟨m, hrun, hlog⟩ := Option.map_eq_some_iff.mp hevents
  refine ⟨m, hrun, (resources_balance_iff (by decide) ?_ hrun ?_).mpr (by decide)⟩
  · exact bootThreads_ready ⟨_, stocks_unset _⟩ fun hne => absurd rfl hne
  · rw [hlog]
    simp [AllEnded]

/-- With a page to take, one thread that comes and goes leaves a page less. -/
theorem joined_thread_loses_page : ¬ ∀ (m₀ m : ThreadMemory) (acts : List ThreadCall), m₀.Ready →
    run (resourceStep 0x40081000) m₀ acts = some m → AllEnded m.events →
    m.buddy.freePages = m₀.buddy.freePages ∧ m.pool.mallocUsed = m₀.pool.mallocUsed := by
  intro hclaim
  have hstate : (run (resourceStep 0x40081000) (bootThreads (buddyInit poolTop (poolTop + 8192) (Buddy.unset fun _ => 0)))
      oneThread).map (fun m => (m.events, m.buddy.freePages)) = some ([.joined 2, .exited 2, .created 2], 1) := by rfl
  obtain ⟨m, hrun, hsnd⟩ := Option.map_eq_some_iff.mp hstate
  obtain ⟨hlog, hpages⟩ := Prod.mk.inj hsnd
  have hready : (bootThreads (buddyInit poolTop (poolTop + 8192) (Buddy.unset fun _ => 0))).Ready := bootThreads_ready
    ⟨_, buddyInit_stocks (by decide) (by decide) _⟩ fun _ => by decide
  have hbalance := (hclaim _ m _ hready hrun (by rw [hlog]; simp [AllEnded])).1
  rw [hpages] at hbalance
  exact absurd hbalance (by decide)

end HouseKernel.Threads
