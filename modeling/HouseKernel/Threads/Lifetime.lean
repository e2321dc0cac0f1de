import HouseKernel.Threads.Cores

/-! A thread keeps its slot, its stack and its block for as long as some core executes it, if
they are given up only for threads that no core, queue or joiner leads to any more. -/
namespace HouseKernel.Threads

open HouseKernel.Lib

/-- The block is the stack or the control block of the thread. -/
def Sched.Owns (s : Sched) (t : Slot) (block : ℕ) : Prop := s.stack t = some block ∨ s.tcb t = some block

/-- The slot still belongs to the context. -/
def Sched.Fits (s : Sched) (x : Ctx) : Prop := s.tid x.self = x.tid ∧ s.stack x.self = x.stack ∧ s.tcb x.self = x.tcb

/-- What a core executes has its slot and its blocks, and no other thread has them. -/
structure Outlives (s : Sched) : Prop where
  slot : ∀ c x, s.live c = some x → s.status x.self ≠ .unused ∧ s.Fits x
  blocks : ∀ c x block, s.live c = some x → s.Owns x.self block →
    s.used block = true ∧ ∀ t, s.status t ≠ .unused → s.Owns t block → t = x.self

/-- A core, a queue or a joiner leads to the thread. -/
def Sched.Named (s : Sched) (t : Slot) : Prop :=
  (∃ c, s.Holds t c) ∨ Refs s.next s.runQ t ∨ Refs s.waitNext s.waitQ t ∨ ∃ u, s.joiner u = some t

/-- The thread has a slot, and nothing leads to it. -/
def Sched.Retired (s : Sched) (t : Slot) : Prop := s.status t ≠ .unused ∧ ¬ s.Named t

/-- No thread frees itself, and others free it only when it is retired. -/
def Retiring (s : Sched) (a : CoreId × Op) : Prop :=
  match a.2 with
  | .exitSection => ∀ cur, s.current a.1 = some cur → s.detached cur = false
  | .reap => ∀ x target, s.live a.1 = some x → x.pc = .joinReap target → s.Retired target
  | .detach tid => ∀ t, s.findTid tid = some t → s.exited t = true → s.status t ≠ .unused → s.Retired t
  | _ => True

section Waiting

variable {w w' : Waits} {L : Slot → Prop} {q : QueueId} {t : Slot} {c m : ℕ}

/-- `L` are the threads with a slot, and the wait queues lead only to them. -/
structure Waits.Sound (w : Waits) (L : Slot → Prop) : Prop where
  status : ∀ t, w.status t ≠ .unused ↔ L t
  refs : ∀ t, Refs w.waitNext w.waitQ t → L t

namespace Waits.Sound

lemma setStatus (h : w.Sound L) (ht : L t) {status : Status} (hstatus : status ≠ .unused) : (w.setStatus t status).Sound L := by
  refine ⟨fun u => ?_, h.refs⟩
  by_cases hu : u = t
  · subst hu
    simp [Waits.setStatus, hstatus, ht]
  · simpa [Waits.setStatus, hu] using h.status u

lemma append (h : w.Sound L) (ht : L t) : (w.append q t).Sound L := by
  have hblocked := h.setStatus ht (show Status.blocked ≠ .unused by simp)
  refine ⟨hblocked.status, fun u hu => ?_⟩
  obtain hu | rfl := Refs.push hu
  · exact h.refs u hu
  · exact ht

lemma pop (h : w.Sound L) : (w.pop q).2.Sound L := by
  unfold Waits.pop
  split
  · exact h
  case h_2 t hhead =>
    have ht : L t := h.refs t (.inr ⟨q, .inl hhead⟩)
    have hrelink : (w.relink q ((w.links q).popFront t)).Sound L := ⟨h.status, fun u hu => h.refs u (Refs.pop hu)⟩
    exact hrelink.setStatus ht (by simp)

lemma setLocked (h : w.Sound L) {locked : Bool} : (w.setLocked m locked).Sound L := ⟨h.status, h.refs⟩

lemma unlock (h : w.Sound L) : (w.unlock m).2.Sound L := h.setLocked.pop

lemma startWait (h : w.Sound L) (ht : L t) : (w.startWait c m t).2.Sound L := (h.append ht).unlock

lemma popAll (h : w.Sound L) (fuel : ℕ) : (Waits.popAll c fuel w).2.Sound L ∧ ∀ t ∈ (Waits.popAll c fuel w).1, L t := by
  induction fuel generalizing w with
  | zero => exact ⟨h, by simp [Waits.popAll]⟩
  | succ fuel ih =>
    rw [Waits.popAll]
    split
    · exact ⟨h, by simp⟩
    case h_2 t hhead =>
      have ht : L t := h.refs t (.inr ⟨.cond c, .inl hhead⟩)
      have hone : (w.popKeepTail c t).Sound L := by
        have hrunnable := h.setStatus ht (show Status.runnable ≠ .unused by simp)
        refine ⟨hrunnable.status, fun u hu => ?_⟩
        refine (Refs.relink (l := ⟨Function.update w.waitNext t none, ⟨w.waitNext t, (w.waitQ (.cond c)).tail⟩⟩) (P := L)
          ?_ ?_ ?_ hu).elim (h.refs u) id
        · intro v b hb
          by_cases hv : v = t
          · simp [hv] at hb
          · simp only [Function.update_of_ne hv] at hb
            exact .inl hb
        · exact fun b hb => .inl (.inl ⟨t, hb⟩)
        · exact fun b hb => .inl (.inr ⟨.cond c, .inr hb⟩)
      obtain ⟨hrest, hmem⟩ := ih hone
      refine ⟨hrest, fun u hu => ?_⟩
      obtain rfl | hu := List.mem_cons.mp hu
      · exact ht
      · exact hmem u hu

lemma broadcast (h : w.Sound L) : (w.broadcast c).2.Sound L ∧ ∀ t ∈ (w.broadcast c).1, L t := by
  obtain ⟨hrest, hmem⟩ := h.popAll (c := c) 65
  refine ⟨⟨hrest.status, fun u hu => ?_⟩, hmem⟩
  obtain hu | ⟨j, hj⟩ := hu
  · exact hrest.refs u (.inl hu)
  · by_cases hjc : j = .cond c
    · subst hjc
      simp only [Waits.broadcast, Function.update_self, reduceCtorEq, or_false] at hj
      exact hrest.refs u (.inr ⟨.cond c, .inl hj⟩)
    · simp only [Waits.broadcast, Function.update_of_ne hjc] at hj
      exact hrest.refs u (.inr ⟨j, hj⟩)

lemma wakeIfBlocked (h : w.Sound L) : (w.wakeIfBlocked t).Sound L := by
  unfold Waits.wakeIfBlocked
  split_ifs with hblocked
  · exact h.setStatus ((h.status t).mp (by simp [hblocked])) (by simp)
  · exact h

lemma timeout (h : w.Sound L) (hstep : w.timeout c t = some w') : w'.Sound L := by
  obtain ⟨r, hr, rfl⟩ := Option.map_eq_some_iff.mp hstep
  apply wakeIfBlocked
  split_ifs
  · apply wakeIfBlocked
    exact ⟨h.status, fun u hu => h.refs u (Refs.unlink hr hu)⟩
  · exact h

end Waits.Sound

end Waiting

/-- The invariant: `L` are the threads with a slot. Whatever is named has one, and the contexts and
the blocks are those of the slots. -/
structure Sched.Kept (s : Sched) (L : Slot → Prop) : Prop where
  waits : s.toWaits.Sound L
  queued : ∀ t, Refs s.next s.runQ t → L t
  joins : ∀ u t, s.joiner u = some t → L t
  held : ∀ t c, s.Holds t c → L t
  live : ∀ c x, s.live c = some x → s.Fits x
  saved : ∀ t, L t → s.Fits (s.saved t)
  used : ∀ t block, L t → s.Owns t block → s.used block = true
  apart : ∀ t u block, L t → L u → s.Owns t block → s.Owns u block → t = u

section Invariant

variable {s s' : Sched} {L : Slot → Prop} {core : CoreId} {t u old new : Slot} {pc idle : Point} {status : Status}

namespace Sched.Kept

lemma put {waits : Waits} (h : s.Kept L) (hwaits : waits.Sound L) : (s.put waits).Kept L :=
  ⟨hwaits, h.queued, h.joins, h.held, h.live, h.saved, h.used, h.apart⟩

lemma setStatus (h : s.Kept L) (ht : L t) (hstatus : status ≠ .unused) : (s.setStatus t status).Kept L :=
  h.put (h.waits.setStatus ht hstatus)

lemma goto (h : s.Kept L) : (s.goto core pc).Kept L := by
  refine ⟨h.waits, h.queued, h.joins, h.held, fun c x hx => ?_, h.saved, h.used, h.apart⟩
  by_cases hc : c = core
  · subst hc
    simp only [Sched.goto, Function.update_self] at hx
    obtain ⟨y, hy, rfl⟩ := Option.map_eq_some_iff.mp hx
    exact h.live c y hy
  · simp only [Sched.goto, Function.update_of_ne hc] at hx
    exact h.live c x hx

/-- Only the run queues change, and they lead to threads with a slot. -/
lemma relinked (h : s.Kept L) (hsame : s.Relinked s') (hrefs : ∀ t, Refs s'.next s'.runQ t → L t) : s'.Kept L := by
  obtain ⟨next, runQ, rfl⟩ := hsame
  exact ⟨h.waits, hrefs, h.joins, h.held, h.live, h.saved, h.used, h.apart⟩

lemma enqueue (h : s.Kept L) (ht : L t) : (s.enqueueRunCore core t).Kept L := by
  unfold Sched.enqueueRunCore
  split_ifs
  · exact h
  · have hrunnable := h.setStatus ht (show Status.runnable ≠ .unused by simp)
    refine hrunnable.relinked (Sched.relinkRun_relinked _ _ _) fun u hu => ?_
    obtain hu | rfl := Refs.push hu
    · exact h.queued u hu
    · exact ht

/-- The core switches to the first thread of its queue. -/
lemma switchTo (h : s.Kept L) (hhead : (s.runQ core).head = some new) (hcur : s.current core = some old) :
    ((s.relinkRun core ((s.runLinks core).popFront new)).switchTo core old new).Kept L := by
  have hnew : L new := h.queued new (.inr ⟨core, .inl hhead⟩)
  have hpop := h.relinked (s.relinkRun_relinked core ((s.runLinks core).popFront new)) fun u hu => h.queued u (Refs.pop hu)
  have hrun := hpop.setStatus hnew (show Status.running ≠ .unused by simp)
  refine ⟨hrun.waits, hrun.queued, hrun.joins, ?_, hrun.live, hrun.saved, hrun.used, hrun.apart⟩
  rintro u c (hc | ⟨n, hc⟩)
  · by_cases hcc : c = core
    · subst hcc
      simp only [Sched.switchTo, Function.update_self, Option.some.injEq] at hc
      exact hc ▸ hnew
    · simp only [Sched.switchTo, Function.update_of_ne hcc] at hc
      exact h.held u c (.inl hc)
  · by_cases hcc : c = core
    · subst hcc
      simp only [Sched.switchTo, Function.update_self, Option.some.injEq, Prod.mk.injEq] at hc
      exact h.held u c (.inl (hc.1 ▸ hcur))
    · simp only [Sched.switchTo, Function.update_of_ne hcc] at hc
      exact h.held u c (.inr ⟨n, hc⟩)

lemma leave (h : s.Kept L) (hcur : s.current core = some old) : (s.leave core old pc idle).Kept L := by
  unfold Sched.leave
  cases hdeq : s.dequeueRunCore core with
  | none => exact h.goto
  | some r =>
    obtain ⟨new, s₁⟩ := r
    obtain ⟨t, hhead, heq⟩ := Option.map_eq_some_iff.mp hdeq
    obtain ⟨rfl, rfl⟩ := Prod.mk.inj heq
    exact (h.switchTo hhead hcur).goto

lemma requeue (h : s.Kept L) (core : CoreId) (ht : L old) : (s.requeue core old).Kept L := by
  unfold Sched.requeue
  split_ifs
  · exact (h.setStatus ht (by simp)).enqueue ht
  · exact h
  · exact h.enqueue ht
  · exact h

lemma yieldTo (h : s.Kept L) (hcur : s.current core = some old) : (s.yieldTo core old pc).Kept L := by
  have hold : L old := h.held old core (.inl hcur)
  have h₁ := h.requeue core hold
  have hcur₁ : (s.requeue core old).current core = some old := by rw [Sched.requeue_current, hcur]
  unfold Sched.yieldTo
  cases hdeq : (s.requeue core old).dequeueRunCore core with
  | none =>
    dsimp only
    split_ifs
    · exact (h₁.setStatus hold (by simp)).goto
    · exact h₁.goto
  | some r =>
    obtain ⟨new, s₁⟩ := r
    obtain ⟨t, hhead, heq⟩ := Option.map_eq_some_iff.mp hdeq
    obtain ⟨rfl, rfl⟩ := Prod.mk.inj heq
    dsimp only
    split_ifs
    · have hpop := h₁.relinked (Sched.relinkRun_relinked _ core (((s.requeue core old).runLinks core).popFront t))
        fun u hu => h₁.queued u (Refs.pop hu)
      exact (hpop.setStatus hold (by simp)).goto
    · exact (h₁.switchTo hhead hcur₁).goto

lemma wakeAll (h : s.Kept L) {ts : List Slot} (hts : ∀ t ∈ ts, L t) : (s.wakeAll ts).Kept L := by
  induction ts generalizing s with
  | nil => exact h
  | cons t ts ih => exact ih (h.enqueue (hts t List.mem_cons_self)) fun u hu => hts u (List.mem_cons_of_mem _ hu)

lemma putWoken {r : Option Slot × Waits} (h : s.Kept L) (hwaits : r.2.Sound L) (hwoken : ∀ t, r.1 = some t → L t) :
    (s.putWoken r).Kept L :=
  (h.put hwaits).wakeAll fun t ht => hwoken t (by simpa using ht)

/-- The first waiter of a queue has a slot. -/
lemma head {q : QueueId} (h : s.Kept L) (hhead : (s.waitQ q).head = some t) : L t := h.waits.refs t (.inr ⟨q, .inl hhead⟩)

lemma wakeJoiner (h : s.Kept L) (old : Slot) : (s.wakeJoiner old).Kept L := by
  unfold Sched.wakeJoiner
  split
  · exact h
  case h_2 j hj =>
    have hjoin : ({ s with joiner := Function.update s.joiner old none } : Sched).Kept L := by
      refine ⟨h.waits, h.queued, fun u t hu => ?_, h.held, h.live, h.saved, h.used, h.apart⟩
      by_cases huo : u = old
      · simp [huo] at hu
      · simp only [Function.update_of_ne huo] at hu
        exact h.joins u t hu
    exact hjoin.enqueue (h.joins old j hj)

lemma exitSection (h : s.Kept L) (hcur : s.current core = some old) (hjoinable : s.detached old = false) :
    (s.exitSection core old).Kept L := by
  have hwake := h.wakeJoiner old
  have hcur' : (s.wakeJoiner old).current core = some old := by rw [(s.wakeJoiner_contexts old).current, hcur]
  have hjoinable' : (s.wakeJoiner old).detached old ≠ true := by
    rw [(s.wakeJoiner_flags old).1, hjoinable]
    simp
  unfold Sched.exitSection
  dsimp only
  rw [if_neg hjoinable']
  have hgone : ({ s.wakeJoiner old with gone := Function.update (s.wakeJoiner old).gone old true } : Sched).Kept L :=
    ⟨hwake.waits, hwake.queued, hwake.joins, hwake.held, hwake.live, hwake.saved, hwake.used, hwake.apart⟩
  exact hgone.leave hcur'

lemma freeBlock_of_ne {used : ℕ → Bool} {owned : Option ℕ} {block : ℕ} (h : owned ≠ some block) :
    Sched.freeBlock used owned block = used block := by
  cases owned with
  | none => rfl
  | some b => simp [Sched.freeBlock, Function.update_of_ne (fun heq => h (by rw [heq]) : block ≠ b)]

/-- A retired thread gives up its slot and its blocks. -/
lemma reapThread (h : s.Kept L) (hplaced : s.Placed) (hret : s.Retired t) (tid : Slot → ℕ) (htid : ∀ u, u ≠ t → tid u = s.tid u) :
    ({ s.reapThread t with tid := tid } : Sched).Kept fun u => L u ∧ u ≠ t := by
  obtain ⟨hstatus, hnamed⟩ := hret
  have ht : L t := (h.waits.status t).mp hstatus
  have hfits : ∀ {x : Ctx}, x.self ≠ t → s.Fits x → ({ s.reapThread t with tid := tid } : Sched).Fits x := by
    intro x hx hfit
    exact ⟨(htid _ hx).trans hfit.1, hfit.2⟩
  constructor
  · refine ⟨fun u => ?_, fun u hu => ⟨h.waits.refs u hu, ?_⟩⟩
    · by_cases hu : u = t
      · simp [Sched.reapThread, Sched.setStatus, Waits.setStatus, hu]
      · simpa [Sched.reapThread, Sched.setStatus, Waits.setStatus, hu] using h.waits.status u
    · rintro rfl
      exact hnamed (.inr (.inr (.inl hu)))
  · refine fun u hu => ⟨h.queued u hu, ?_⟩
    rintro rfl
    exact hnamed (.inr (.inl hu))
  · refine fun v u hu => ⟨h.joins v u hu, ?_⟩
    rintro rfl
    exact hnamed (.inr (.inr (.inr ⟨v, hu⟩)))
  · refine fun u c hu => ⟨h.held u c hu, ?_⟩
    rintro rfl
    exact hnamed (.inl ⟨c, hu⟩)
  · intro c x hx
    refine hfits ?_ (h.live c x hx)
    rintro rfl
    exact hnamed (.inl ⟨c, hplaced.holds hx⟩)
  · intro u hu
    have hself : (s.saved u).self ≠ t := by
      rw [hplaced.self]
      exact hu.2
    exact hfits hself (h.saved u hu.1)
  · intro u block hu howns
    -- the blocks that are freed belong to no other thread
    have hstack : s.stack t ≠ some block := fun heq => hu.2 (h.apart u t block hu.1 ht howns (.inl heq))
    have htcb : s.tcb t ≠ some block := fun heq => hu.2 (h.apart u t block hu.1 ht howns (.inr heq))
    change Sched.freeBlock (Sched.freeBlock s.used (s.stack t)) (s.tcb t) block = true
    rw [freeBlock_of_ne htcb, freeBlock_of_ne hstack]
    exact h.used u block hu.1 howns
  · exact fun u v block hu hv => h.apart u v block hu.1 hv.1

lemma unlink {once : Bool} {fuel : ℕ} {r : Bool × Links Slot} (h : s.Kept L)
    (hwalk : (s.runLinks core).unlinkGo once t fuel none (s.runQ core).head = some r) : (s.relinkRun core r.2).Kept L :=
  h.relinked (s.relinkRun_relinked core r.2) fun u hu => h.queued u (Refs.unlink hwalk hu)

lemma dequeueSpecific {cores : List CoreId} (h : s.Kept L) (hstep : Sched.dequeueSpecific t cores s = some s') : s'.Kept L := by
  induction cores generalizing s with
  | nil =>
    obtain rfl := Option.some.inj hstep
    exact h
  | cons c cores ih =>
    obtain ⟨r, hr, hrest⟩ := Option.bind_eq_some_iff.mp hstep
    exact ih (h.unlink hr) hrest

lemma initThread {stack tcb : ℕ} (h : s.Kept L) (hplaced : s.Placed) (ht : ¬ L t) (hstack : s.used stack = false)
    (htcb : s.used tcb = false) : (s.initThread t stack tcb).Kept fun u => L u ∨ u = t := by
  have hfits : ∀ {x : Ctx}, x.self ≠ t → s.Fits x → (s.initThread t stack tcb).Fits x := by
    intro x hx hfit
    simpa [Sched.Fits, Sched.initThread, hx] using hfit
  have howns : ∀ {u block}, u ≠ t → ((s.initThread t stack tcb).Owns u block ↔ s.Owns u block) := by
    intro u block hu
    simp [Sched.Owns, Sched.initThread, hu]
  have hused : ∀ {block}, s.used block = true → (s.initThread t stack tcb).used block = true := by
    intro block hblock
    simp only [Sched.initThread, Function.update_apply]
    split_ifs <;> first | rfl | exact hblock
  -- the blocks are new ones
  have hfresh : ∀ {u block}, L u → s.Owns u block → ¬ (s.initThread t stack tcb).Owns t block := by
    rintro u block hu hown (heq | heq)
    · simp only [Sched.initThread, Function.update_self, Option.some.injEq] at heq
      exact absurd (h.used u block hu hown) (by simp [← heq, hstack])
    · simp only [Sched.initThread, Function.update_self, Option.some.injEq] at heq
      exact absurd (h.used u block hu hown) (by simp [← heq, htcb])
  constructor
  · refine ⟨fun u => ?_, fun u hu => .inl (h.waits.refs u (Refs.clear hu))⟩
    by_cases hu : u = t
    · simp [Sched.initThread, hu]
    · simpa [Sched.initThread, hu] using h.waits.status u
  · exact fun u hu => .inl (h.queued u (Refs.clear hu))
  · intro v u hu
    by_cases hv : v = t
    · simp [Sched.initThread, hv] at hu
    · simp only [Sched.initThread, Function.update_of_ne hv] at hu
      exact .inl (h.joins v u hu)
  · exact fun u c hu => .inl (h.held u c hu)
  · intro c x hx
    refine hfits ?_ (h.live c x hx)
    rintro rfl
    exact ht (h.held _ c (hplaced.holds hx))
  · intro u hu
    by_cases hut : u = t
    · simp [Sched.Fits, Sched.initThread, hut]
    · have hsaved : (s.initThread t stack tcb).saved u = s.saved u := by simp [Sched.initThread, hut]
      rw [hsaved]
      exact hfits (by rwa [hplaced.self]) (h.saved u (hu.resolve_right hut))
  · intro u block hu hown
    by_cases hut : u = t
    · subst hut
      obtain heq | heq := hown
      · simp only [Sched.initThread, Function.update_self, Option.some.injEq] at heq
        simp [Sched.initThread, Function.update_apply, heq]
      · simp only [Sched.initThread, Function.update_self, Option.some.injEq] at heq
        simp [Sched.initThread, heq]
    · exact hused (h.used u block (hu.resolve_right hut) ((howns hut).mp hown))
  · intro u v block hu hv hown hown'
    by_cases hut : u = t
    · by_cases hvt : v = t
      · rw [hut, hvt]
      · exact absurd (hut ▸ hown) (hfresh (hv.resolve_right hvt) ((howns hvt).mp hown'))
    · have hold := hu.resolve_right hut
      by_cases hvt : v = t
      · exact absurd (hvt ▸ hown') (hfresh hold ((howns hut).mp hown))
      · exact h.apart u v block hold (hv.resolve_right hvt) ((howns hut).mp hown) ((howns hvt).mp hown')

lemma create {stack tcb : ℕ} (h : s.Kept L) (hplaced : s.Placed) (hstep : s.create stack tcb = some s') : ∃ L', s'.Kept L' := by
  unfold Sched.create at hstep
  split_ifs at hstep with hfree
  rw [not_or, not_or] at hfree
  split at hstep
  case h_1 =>
    obtain rfl := Option.some.inj hstep
    exact ⟨L, h⟩
  case h_2 t hfind =>
    obtain ⟨s₁, hdeq, rfl⟩ := Option.map_eq_some_iff.mp hstep
    have hunused : s.status t = .unused := by simpa using List.find?_some hfind
    have ht : ¬ L t := fun hin => (h.waits.status t).mpr hin hunused
    have h₁ := h.dequeueSpecific hdeq
    have hplaced₁ := hplaced.same (Sched.dequeueSpecific_relinked hdeq).sameContexts
    obtain ⟨_, _, rfl⟩ := Sched.dequeueSpecific_relinked hdeq
    have h₂ := h₁.initThread hplaced₁ ht (Bool.eq_false_of_not_eq_true hfree.1) (Bool.eq_false_of_not_eq_true hfree.2.1)
    exact ⟨_, h₂.enqueue (.inr rfl)⟩

lemma takeFrom {cores : List CoreId} {r : Bool × Sched} (h : s.Kept L) (hstep : Sched.takeFrom t cores s = some r) :
    r.2.Kept L := by
  induction cores with
  | nil =>
    obtain rfl := Option.some.inj hstep
    exact h
  | cons c cores ih =>
    obtain ⟨l, hl, hrest⟩ := Option.bind_eq_some_iff.mp hstep
    split_ifs at hrest
    · obtain rfl := Option.some.inj hrest
      exact h.unlink hl
    · exact ih hrest

lemma rebalance {ts : List Slot} (h : s.Kept L) (hstep : Sched.rebalance ts s = some s') : s'.Kept L := by
  induction ts generalizing s with
  | nil =>
    obtain rfl := Option.some.inj hstep
    exact h
  | cons t ts ih =>
    obtain ⟨s₁, hone, hrest⟩ := Option.bind_eq_some_iff.mp hstep
    refine ih ?_ hrest
    have haff : ∀ affinity, ({ s with affinity := affinity } : Sched).Kept L := fun _ =>
      ⟨h.waits, h.queued, h.joins, h.held, h.live, h.saved, h.used, h.apart⟩
    unfold Sched.rebalanceOne at hone
    split_ifs at hone with hskip
    · obtain rfl := Option.some.inj hone
      exact h
    · obtain ⟨r, hr, rfl⟩ := Option.map_eq_some_iff.mp hone
      rw [not_or] at hskip
      split_ifs
      · exact (h.takeFrom hr).enqueue ((h.waits.status t).mp hskip.1)
      · exact haff _
    · obtain rfl := Option.some.inj hone
      exact haff _

lemma migrate {dst : CoreId} {fuel : ℕ} {p : Option Slot} (h : s.Kept L) (hp : ∀ t, p = some t → L t)
    (hstep : Sched.migrate dst fuel p s = some s') : s'.Kept L := by
  induction fuel generalizing s p with
  | zero => cases hstep
  | succ fuel ih =>
    cases p with
    | none =>
      obtain rfl := Option.some.inj hstep
      exact h
    | some t =>
      have ht : L t := hp t rfl
      have hrunnable := h.setStatus ht (show Status.runnable ≠ .unused by simp)
      refine ih ?_ (fun u hu => h.queued u (.inl ⟨t, hu⟩)) hstep
      refine ⟨hrunnable.waits, fun u hu => ?_, h.joins, h.held, h.live, h.saved, h.used, h.apart⟩
      obtain hu | rfl := Refs.push hu
      · exact h.queued u hu
      · exact ht

lemma coreDown (h : s.Kept L) (hstep : s.coreDown core = some s') : s'.Kept L := by
  refine migrate (s := { s with
    mask := s.mask &&& ~~~(Sched.coreBit core)
    live := Function.update s.live core none
    runQ := Function.update s.runQ core ⟨none, none⟩
    current := Function.update s.current core none }) ?_ (fun t ht => h.queued t (.inr ⟨core, .inl ht⟩)) hstep
  refine ⟨h.waits, fun t ht => ?_, h.joins, fun t c hc => ?_, fun c x hx => ?_, h.saved, h.used, h.apart⟩
  · obtain ht | ⟨c, hc⟩ := ht
    · exact h.queued t (.inl ht)
    · by_cases hcc : c = core
      · simp [hcc] at hc
      · simp only [Function.update_of_ne hcc] at hc
        exact h.queued t (.inr ⟨c, hc⟩)
  · obtain hc | hc := hc
    · by_cases hcc : c = core
      · simp [hcc] at hc
      · simp only [Function.update_of_ne hcc] at hc
        exact h.held t c (.inl hc)
    · exact h.held t c (.inr hc)
  · by_cases hcc : c = core
    · simp [hcc] at hx
    · simp only [Function.update_of_ne hcc] at hx
      exact h.live c x hx

lemma finishSwitch (h : s.Kept L) (hplaced : s.Placed) (hstep : finishSwitch s core = some s') : s'.Kept L := by
  unfold Threads.finishSwitch at hstep
  split at hstep
  case h_2 => cases hstep
  case h_1 old new x hsav hx =>
    obtain rfl := Option.some.inj hstep
    have hsaved : ∀ t, L t → s.Fits (Function.update s.saved old x t) := by
      intro t ht
      by_cases hto : t = old
      · rw [hto, Function.update_self]
        exact h.live core x hx
      · rw [Function.update_of_ne hto]
        exact h.saved t ht
    refine ⟨h.waits, h.queued, h.joins, fun t c hc => ?_, fun c y hy => ?_, hsaved, h.used, h.apart⟩
    · obtain hc | ⟨n, hc⟩ := hc
      · exact h.held t c (.inl hc)
      · by_cases hcc : c = core
        · simp [hcc] at hc
        · simp only [Function.update_of_ne hcc] at hc
          exact h.held t c (.inr ⟨n, hc⟩)
    · by_cases hcc : c = core
      · subst hcc
        simp only [Function.update_self, Option.some.injEq] at hy
        exact hy ▸ hsaved new (h.held new c (.inl (hplaced.mid c old new x hsav hx).1))
      · simp only [Function.update_of_ne hcc] at hy
        exact h.live c y hy

lemma joinSection {cur : Slot} (h : s.Kept L) (hcur : s.current core = some cur) (hin : L cur) (target : Slot) :
    (s.joinSection core cur target).Kept L := by
  unfold Sched.joinSection
  split_ifs
  · exact h.goto
  · have hblocked := h.setStatus hin (show Status.blocked ≠ .unused by simp)
    have hjoin : ({ s.setStatus cur .blocked with joiner := Function.update s.joiner target (some cur) } : Sched).Kept L := by
      refine ⟨hblocked.waits, h.queued, fun u t hu => ?_, h.held, h.live, h.saved, h.used, h.apart⟩
      by_cases hut : u = target
      · simp only [hut, Function.update_self, Option.some.injEq] at hu
        exact hu ▸ hin
      · simp only [Function.update_of_ne hut] at hu
        exact h.joins u t hu
    exact hjoin.leave hcur

lemma detach {tid : ℕ} (h : s.Kept L) (hplaced : s.Placed) (hret : Retiring s (core, .detach tid)) :
    ∃ L', (s.detach tid).Kept L' := by
  unfold Sched.detach
  split
  · exact ⟨L, h⟩
  case h_2 t hfind =>
    have hdet : ({ s with detached := Function.update s.detached t true } : Sched).Kept L :=
      ⟨h.waits, h.queued, h.joins, h.held, h.live, h.saved, h.used, h.apart⟩
    dsimp only
    split_ifs with hexited
    · have hplaced' : ({ s with detached := Function.update s.detached t true } : Sched).Placed :=
        hplaced.same ⟨rfl, rfl, rfl, rfl⟩
      exact ⟨_, hdet.reapThread hplaced' (hret t hfind hexited.1 hexited.2) s.tid fun _ _ => rfl⟩
    · exact ⟨L, hdet⟩

end Sched.Kept

/-- Every step that frees only retired threads keeps what the threads have. -/
theorem codeStep_kept {x : Ctx} {op : Op} {cur : Slot} (h : s.Kept L) (hplaced : s.Placed) (hcur : s.current core = some cur)
    (hx : s.live core = some x) (hself : x.self = cur) (hret : Retiring s (core, op))
    (hstep : codeStep s core cur x op = some s') : ∃ L', s'.Kept L' := by
  have hin : L cur := h.held cur core (.inl hcur)
  cases codeStep_move hstep with
  | stay => exact ⟨L, h⟩
  | goes => exact ⟨L, h.goto⟩
  | yields => exact ⟨L, h.yieldTo hcur⟩
  | create _ _ _ hcreate => exact h.create hplaced hcreate
  | malloc block =>
    refine ⟨L, h.waits, h.queued, h.joins, h.held, h.live, h.saved, fun u b hu hown => ?_, h.apart⟩
    have hused := h.used u b hu hown
    simp only [Function.update_apply]
    split_ifs <;> first | rfl | exact hused
  | exit => exact ⟨L, Sched.Kept.goto ⟨h.waits, h.queued, h.joins, h.held, h.live, h.saved, h.used, h.apart⟩⟩
  | exitMark => exact ⟨L, (h.setStatus hin (by simp)).goto⟩
  | exitSection => exact ⟨L, h.exitSection hcur (hret cur hcur)⟩
  | joinSection target => exact ⟨L, h.joinSection hcur hin target⟩
  | reap target hpc =>
    have hreap := h.reapThread hplaced (hret x target hx hpc) (Function.update s.tid target 0)
      fun u hu => Function.update_of_ne hu ..
    exact ⟨_, hreap.goto⟩
  | detach tid => exact h.detach hplaced hret
  | wake t hblocked => exact ⟨L, h.enqueue ((h.waits.status t).mp (by simp [hblocked]))⟩
  | takes => exact ⟨L, (h.put h.waits.setLocked).goto⟩
  | waits => exact ⟨L, (h.put (h.waits.append hin)).goto⟩
  | blocks => exact ⟨L, h.leave hcur⟩
  | blocksAgain => exact ⟨L, h.leave hcur⟩
  | trylock => exact ⟨L, h.put h.waits.setLocked⟩
  | unlock => exact ⟨L, h.putWoken h.waits.unlock fun t ht => h.head (by simpa using ht)⟩
  | signal => exact ⟨L, h.putWoken h.waits.pop fun t ht => h.head (by simpa using ht)⟩
  | broadcast =>
    obtain ⟨hwaits, hwoken⟩ := h.waits.broadcast
    exact ⟨L, (h.put hwaits).wakeAll hwoken⟩
  | condWait c m =>
    have hwoken := h.putWoken (r := s.toWaits.startWait c m cur) (h.waits.startWait hin) fun t ht => h.head (by simpa using ht)
    exact ⟨L, hwoken.leave (by rw [(s.putWoken_contexts _).current, hcur])⟩
  | timeout _ _ _ _ hwaits => exact ⟨L, (h.put (h.waits.timeout hwaits)).goto⟩
  | rewaits =>
    rw [hself]
    exact ⟨L, (h.put (h.waits.append hin)).leave hcur⟩
  | sleeps => exact ⟨L, (h.setStatus hin (by simp)).leave hcur⟩
  | wakes => exact ⟨L, (h.setStatus hin (by simp)).goto⟩
  | rebalance _ hmoves => exact ⟨L, h.rebalance hmoves⟩
  | setAffinity => exact ⟨L, h.waits, h.queued, h.joins, h.held, h.live, h.saved, h.used, h.apart⟩
  | coreDown _ _ hdown => exact ⟨L, h.coreDown hdown⟩

theorem threadStep_kept {a : CoreId × Op} (h : s.Kept L) (hplaced : s.Placed) (hret : Retiring s a)
    (hstep : threadStep s a = some s') : ∃ L', s'.Kept L' := by
  unfold threadStep at hstep
  split_ifs at hstep
  · exact ⟨L, h.finishSwitch hplaced hstep⟩
  · split at hstep
    case h_1 cur x hidle hcur hx =>
      have hself := Option.some.inj ((hplaced.own a.1 x hidle hx).symm.trans hcur)
      exact codeStep_kept h hplaced hcur hx hself hret hstep
    case h_2 => cases hstep

lemma boot_kept (n : ℕ) : (boot n).Kept fun t => t.val < n := by
  have howns : ∀ {t : Slot} {block}, (boot n).Owns t block → t.val = block ∧ block < n := by
    rintro t block (heq | heq)
    · cases heq
    · simp only [boot] at heq
      split_ifs at heq with ht
      obtain rfl := Option.some.inj heq
      exact ⟨rfl, ht⟩
  constructor
  · refine ⟨fun t => ?_, ?_⟩
    · by_cases ht : t.val < n <;> simp [boot, ht]
    · rintro t (⟨u, hu⟩ | ⟨i, hi | hi⟩) <;> contradiction
  · rintro t (⟨u, hu⟩ | ⟨i, hi | hi⟩) <;> contradiction
  · rintro _ _ ⟨⟩
  · rintro t c (hc | ⟨new, hc⟩)
    · simp only [boot] at hc
      split_ifs at hc with hcn
      obtain rfl := Option.some.inj hc
      exact hcn
    · cases hc
  · intro c x hx
    simp only [boot] at hx
    split_ifs at hx with hc
    obtain rfl := Option.some.inj hx
    simp [Sched.Fits, boot, hc]
  · intro t ht
    simp [Sched.Fits, boot]
  · intro t block _ hown
    simp [boot, (howns hown).2]
  · intro t u block _ _ ht hu
    exact Fin.ext ((howns ht).1.trans (howns hu).1.symm)

end Invariant

/-- In every run that frees only retired threads, what a core executes has its slot and its blocks. -/
theorem thread_outlived_by_blocks {n : ℕ} {acts : List (CoreId × Op)} {s : Sched} (hrun : run threadStep (boot n) acts = some s)
    (hretiring : Along threadStep Retiring (boot n) acts) : Outlives s := by
  obtain ⟨hplaced, L, h⟩ : s.Placed ∧ ∃ L, s.Kept L := by
    refine @run_invariant _ _ _ _ (fun s => s.Placed ∧ ∃ L, s.Kept L) ?_ _ _ _ ⟨boot_placed n, _, boot_kept n⟩ hretiring hrun
    rintro s a s' ⟨hplaced, L, h⟩ hret hstep
    exact ⟨threadStep_placed hplaced hstep, threadStep_kept h hplaced hret hstep⟩
  have hin : ∀ {c x}, s.live c = some x → L x.self := fun hx => h.held _ _ (hplaced.holds hx)
  refine ⟨fun c x hx => ⟨(h.waits.status _).mpr (hin hx), h.live c x hx⟩, fun c x block hx hown => ?_⟩
  refine ⟨h.used _ block (hin hx) hown, fun t ht hown' => ?_⟩
  exact h.apart t x.self block ((h.waits.status t).mp ht) (hin hx) hown' hown

section Sample

/-- A thread has stored that it has exited, and goes on; its joiner on the other core frees it. -/
def reapedRunning : List (CoreId × Op) :=
  [(0, .create 100 101), (0, .yield), (0, .finishSwitch), (0, .exit), (1, .join 3), (1, .joinLook), (1, .reap)]

/-- The stack of a thread is free while a core executes it. -/
theorem stack_freed_running : ∃ s x, run threadStep (boot 2) reapedRunning = some s ∧ s.live 0 = some x ∧
    x.stack = some 100 ∧ s.used 100 = false ∧ ¬ Outlives s := by
  have h : ((run threadStep (boot 2) reapedRunning).map fun s => (s.live 0, s.used 100, s.status 2)) =
      some (some ⟨2, 3, some 100, some 101, .exiting⟩, false, .unused) := by rfl
  obtain ⟨s, hs, heq⟩ := Option.map_eq_some_iff.mp h
  simp only [Prod.mk.injEq] at heq
  obtain ⟨hlive, hused, hstatus⟩ := heq
  exact ⟨s, _, hs, hlive, rfl, hused, fun hout => (hout.slot 0 _ hlive).1 hstatus⟩

/-- The joiner comes after the switch. -/
def reapedAfter : List (CoreId × Op) :=
  [(0, .create 100 101), (0, .yield), (0, .finishSwitch), (0, .exit), (0, .exitMark), (0, .exitSection), (0, .finishSwitch),
    (1, .join 3), (1, .joinLook)]

theorem thread_outlived_by_blocks_joined : ∃ s, run threadStep (boot 2) (reapedAfter ++ [(1, .reap)]) = some s ∧ Outlives s := by
  refine ⟨_, rfl, @thread_outlived_by_blocks 2 (reapedAfter ++ [(1, .reap)]) _ rfl ?_⟩
  rw [along_append]
  constructor
  · refine ⟨trivial, ?_⟩
    rintro _ ⟨⟩
    refine ⟨trivial, ?_⟩
    rintro _ ⟨⟩
    refine ⟨trivial, ?_⟩
    rintro _ ⟨⟩
    refine ⟨trivial, ?_⟩
    rintro _ ⟨⟩
    refine ⟨trivial, ?_⟩
    rintro _ ⟨⟩
    refine ⟨?_, ?_⟩
    · rintro cur ⟨⟩
      rfl
    rintro _ ⟨⟩
    exact ⟨trivial, fun _ _ => ⟨trivial, fun _ _ => ⟨trivial, fun _ _ => trivial⟩⟩⟩
  · rintro s ⟨⟩
    refine ⟨?_, fun _ _ => trivial⟩
    rintro x target ⟨⟩ ⟨⟩
    refine ⟨by decide, ?_⟩
    rintro (⟨c, hc | ⟨new, hc⟩⟩ | (⟨u, hu⟩ | ⟨c, hc⟩) | (⟨u, hu⟩ | ⟨q, hq | hq⟩) | ⟨u, hu⟩)
    · revert c
      decide
    · revert c new
      decide
    · revert u
      decide
    · revert c
      decide
    · revert u
      decide
    · cases hq
    · cases hq
    · revert u
      decide

end Sample

end HouseKernel.Threads
