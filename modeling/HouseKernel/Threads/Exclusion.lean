import HouseKernel.Lib.Updates
import HouseKernel.Threads.WaitQueues

/-! Mutual exclusion. The lock word of a mutex is read and written only under the lock of the scheduler,
and every place that takes a mutex looks at it again there: the loop of `pthread_mutex_lock`, `trylock`,
and the loops at the end of the two waits. Queues may be in any disorder. -/
namespace HouseKernel.Threads

open HouseKernel.Lib

/-- The threads with the `owner` fields of the mutexes. `holds` has who is between acquiring and
releasing which mutex, as the calls of the threads have it. -/
structure MutexWorld extends WaitWorld where
  owner : ℕ → Option Slot
  holds : Finset (Slot × ℕ)

/-- `late` has whether the clock is past the time of the wait when the section reads it.
`timedwaitPast` is a timed wait whose time is over before it begins. -/
inductive MutexOp where
  | step (op : WaitOp) (late : Bool)
  | timedwaitPast (c m : ℕ)
  deriving DecidableEq, Repr

/-- The mutex that the section of a call takes, if it does. -/
def acquired (w : WaitWorld) (a : Slot × WaitOp) : Option ℕ :=
  match a.2, w.pc a.1 with
  | .lockSection, .lockLoop m => if w.locked m then none else some m
  | .trylock m, .user => if w.locked m then none else some m
  | .reacquire, .reacquire m => if w.locked m then none else some m
  | _, _ => none

/-- The mutex that the section of a call gives up, if it does. -/
def released : WaitOp → Option ℕ
  | .unlock m => some m
  | .condWait _ m _ _ => some m
  | _ => none

namespace MutexWorld

def acquire (w : MutexWorld) (t : Slot) : Option ℕ → MutexWorld
  | none => w
  | some m => { w with owner := Function.update w.owner m (some t), holds := insert (t, m) w.holds }

def release (w : MutexWorld) (t : Slot) : Option ℕ → MutexWorld
  | none => w
  | some m => { w with owner := Function.update w.owner m none, holds := w.holds.erase (t, m) }

def start (status : Slot → Status) : MutexWorld where
  toWaitWorld := .start status fun _ => false
  owner _ := none
  holds := ∅

end MutexWorld

def mutexStep (w : MutexWorld) (a : Slot × MutexOp) : Option MutexWorld :=
  match a.2 with
  | .timedwaitPast _ _ => if w.pc a.1 = .user then some w else none
  | .step op _ => (waitStep w.toWaitWorld (a.1, op)).map fun w' =>
    (({ w with toWaitWorld := w' }).release a.1 (released op)).acquire a.1 (acquired w.toWaitWorld (a.1, op))

/-- The condition wait that returns in this step, by its mutex, with what it returns. -/
def condReturns (w : MutexWorld) (a : Slot × MutexOp) : Option (ℕ × ℤ) :=
  match a.2, w.pc a.1 with
  | .timedwaitPast _ m, .user => some (m, 110)
  | .step .reacquire late, .reacquire m => if w.locked m then none else some (m, if late then 110 else 0)
  | _, _ => none

/-- A thread unlocks or waits only with a mutex that it holds. -/
def HeldByCaller (w : MutexWorld) (a : Slot × MutexOp) : Prop :=
  match a.2 with
  | .step (.unlock m) _ => (a.1, m) ∈ w.holds
  | .step (.condWait _ m _ _) _ => (a.1, m) ∈ w.holds
  | .timedwaitPast _ m => (a.1, m) ∈ w.holds
  | _ => True

instance (w : MutexWorld) (a : Slot × MutexOp) : Decidable (HeldByCaller w a) := by
  unfold HeldByCaller
  split <;> infer_instance

def Exclusive (w : MutexWorld) : Prop := ∀ m t u, (t, m) ∈ w.holds → (u, m) ∈ w.holds → t = u

/-- The invariant: the lock word, the owner field and what the threads know of a mutex agree. -/
structure MutexWorld.Agrees (w : MutexWorld) : Prop where
  word : ∀ m, w.locked m = (w.owner m).isSome
  holds : ∀ t m, (t, m) ∈ w.holds ↔ w.owner m = some t

section Words

variable {w w' : WaitWorld} {a : Slot × WaitOp} {m c : ℕ} {t : Slot}

@[simp] lemma Waits.pop_locked (w : Waits) (q : QueueId) : (w.pop q).2.locked = w.locked := by
  unfold Waits.pop
  cases (w.waitQ q).head <;> rfl

lemma Waits.popAll_locked (c fuel : ℕ) (w : Waits) : (Waits.popAll c fuel w).2.locked = w.locked := by
  induction fuel generalizing w with
  | zero => rfl
  | succ fuel ih =>
    rw [Waits.popAll]
    cases (w.waitQ (.cond c)).head with
    | none => rfl
    | some t => exact ih _

lemma Waits.wakeIfBlocked_locked (w : Waits) (t : Slot) : (w.wakeIfBlocked t).locked = w.locked := by
  unfold Waits.wakeIfBlocked
  split_ifs <;> rfl

lemma Waits.timeout_locked {w w' : Waits} (h : w.timeout c t = some w') : w'.locked = w.locked := by
  obtain ⟨r, -, rfl⟩ := Option.map_eq_some_iff.mp h
  rw [Waits.wakeIfBlocked_locked]
  split_ifs
  · rw [Waits.wakeIfBlocked_locked]
    rfl
  · rfl

/-- What a section does to the lock words: it takes a free mutex, gives one up, or leaves them all. -/
inductive Word (w : WaitWorld) (a : Slot × WaitOp) (locked : ℕ → Bool) : Prop
  | take (m : ℕ) (ha : acquired w a = some m) (hr : released a.2 = none) (hfree : w.locked m = false)
      (h : locked = Function.update w.locked m true)
  | give (m : ℕ) (ha : acquired w a = none) (hr : released a.2 = some m) (h : locked = Function.update w.locked m false)
  | keep (ha : acquired w a = none) (hr : released a.2 = none) (h : locked = w.locked)

lemma takeOr_word {wait : Pc} (ha : acquired w a = if w.locked m then none else some m) (hr : released a.2 = none) :
    Word w a (w.takeOr a.1 m wait).locked := by
  unfold WaitWorld.takeOr
  cases hm : w.locked m with
  | true => exact .keep (by simpa [hm] using ha) hr rfl
  | false => exact .take m (by simpa [hm] using ha) hr hm rfl

lemma waitStep_word (h : waitStep w a = some w') : Word w a w'.locked := by
  obtain ⟨t, op⟩ := a
  simp only [waitStep] at h
  split at h
  case h_1 m hpc =>
    obtain rfl := Option.some.inj h
    exact .keep rfl rfl rfl
  case h_2 m hpc =>
    obtain rfl := Option.some.inj h
    exact takeOr_word (by simp only [acquired, hpc]) rfl
  case h_3 m hpc =>
    cases hm : w.locked m with
    | true =>
      simp only [hm, if_true] at h
      obtain rfl := Option.some.inj h
      exact .keep (by simp [acquired, hpc, hm]) rfl rfl
    | false =>
      simp only [hm, Bool.false_eq_true, if_false] at h
      obtain rfl := Option.some.inj h
      exact .take m (by simp [acquired, hpc, hm]) rfl hm rfl
  case h_4 m hpc =>
    obtain rfl := Option.some.inj h
    exact .give m rfl rfl (by simp [WaitWorld.put, Waits.unlock, Waits.setLocked])
  case h_5 c hpc =>
    obtain rfl := Option.some.inj h
    exact .keep rfl rfl (by simp [WaitWorld.put])
  case h_6 c hpc =>
    obtain rfl := Option.some.inj h
    exact .keep rfl rfl (Waits.popAll_locked c 65 _)
  case h_7 c m timed off hpc =>
    obtain rfl := Option.some.inj h
    refine .give m rfl rfl ?_
    simp [WaitWorld.goto, WaitWorld.put, Waits.startWait, Waits.unlock, Waits.setLocked, Waits.append, Waits.relink,
      Waits.setStatus]
  case h_8 c m timed hpc =>
    split_ifs at h
    obtain rfl := Option.some.inj h
    exact .keep rfl rfl rfl
  case h_9 c m hpc =>
    obtain ⟨waits, htimeout, rfl⟩ := Option.map_eq_some_iff.mp h
    exact .keep rfl rfl (Waits.timeout_locked htimeout)
  case h_10 m hpc =>
    obtain rfl := Option.some.inj h
    exact takeOr_word (by simp only [acquired, hpc]) rfl
  case h_11 dispatched =>
    have hset : (if dispatched then w.put (w.toWaits.setStatus t .running) else w).locked = w.locked := by
      split_ifs <;> rfl
    split at h
    · obtain rfl := Option.some.inj h
      exact .keep rfl rfl hset
    · split_ifs at h with hd
      obtain rfl := Option.some.inj h
      exact .keep rfl rfl rfl
    · obtain rfl := Option.some.inj h
      exact .keep rfl rfl hset
    · split_ifs at h with hd
      obtain rfl := Option.some.inj h
      exact .keep rfl rfl rfl
    · cases h
  case h_12 => cases h

end Words

section Invariant

variable {w w' : MutexWorld} {a : Slot × MutexOp} {m : ℕ} {t : Slot}

lemma MutexWorld.start_agrees (status : Slot → Status) : (MutexWorld.start status).Agrees :=
  ⟨fun _ => rfl, by simp [MutexWorld.start]⟩

lemma MutexWorld.Agrees.exclusive (h : w.Agrees) : Exclusive w := fun m t u ht hu =>
  Option.some.inj (((h.holds t m).mp ht).symm.trans ((h.holds u m).mp hu))

/-- Nobody holds a mutex whose lock word is clear. -/
lemma MutexWorld.Agrees.owner_none (h : w.Agrees) (hm : w.locked m = false) : w.owner m = none := by
  have hword := h.word m
  rw [hm] at hword
  exact Option.not_isSome_iff_eq_none.mp (by simp [← hword])

lemma MutexWorld.Agrees.acquire (h : w.Agrees) {x : WaitWorld} (hfree : w.locked m = false)
    (hx : x.locked = Function.update w.locked m true) : ({ w with toWaitWorld := x }.acquire t (some m)).Agrees := by
  have hnone := h.owner_none hfree
  refine ⟨fun n => ?_, fun u n => ?_⟩
  · change x.locked n = (Function.update w.owner m (some t) n).isSome
    rw [hx]
    obtain rfl | hn := eq_or_ne n m
    · rw [Function.update_self, Function.update_self]
      rfl
    · rw [Function.update_of_ne hn, Function.update_of_ne hn]
      exact h.word n
  · simp only [MutexWorld.acquire, Finset.mem_insert, Prod.mk.injEq, update_some_eq_some, h.holds u n]
    constructor
    · rintro (⟨rfl, rfl⟩ | hn)
      · exact .inl ⟨rfl, rfl⟩
      · refine .inr ⟨?_, hn⟩
        rintro rfl
        rw [hnone] at hn
        cases hn
    · rintro (⟨rfl, rfl⟩ | ⟨-, hn⟩)
      · exact .inl ⟨rfl, rfl⟩
      · exact .inr hn

lemma MutexWorld.Agrees.release (h : w.Agrees) {x : WaitWorld} (hheld : (t, m) ∈ w.holds)
    (hx : x.locked = Function.update w.locked m false) : ({ w with toWaitWorld := x }.release t (some m)).Agrees := by
  refine ⟨fun n => ?_, fun u n => ?_⟩
  · change x.locked n = (Function.update w.owner m none n).isSome
    rw [hx]
    obtain rfl | hn := eq_or_ne n m
    · rw [Function.update_self, Function.update_self]
      rfl
    · rw [Function.update_of_ne hn, Function.update_of_ne hn]
      exact h.word n
  · simp only [MutexWorld.release, Finset.mem_erase, ne_eq, Prod.mk.injEq, update_none_eq_some, h.holds u n]
    constructor
    · rintro ⟨hne, hn⟩
      refine ⟨?_, hn⟩
      rintro rfl
      exact hne ⟨Option.some.inj (hn.symm.trans ((h.holds t n).mp hheld)), rfl⟩
    · rintro ⟨hne, hn⟩
      exact ⟨fun heq => hne heq.2, hn⟩

lemma MutexWorld.Agrees.step (h : w.Agrees) (ha : HeldByCaller w a) (hs : mutexStep w a = some w') : w'.Agrees := by
  obtain ⟨t, op⟩ := a
  cases op with
  | timedwaitPast c m =>
    simp only [mutexStep] at hs
    split_ifs at hs
    obtain rfl := Option.some.inj hs
    exact h
  | step op late =>
    obtain ⟨x, hx, rfl⟩ := Option.map_eq_some_iff.mp hs
    obtain ⟨m, hacq, hrel, hfree, hword⟩ | ⟨m, hacq, hrel, hword⟩ | ⟨hacq, hrel, hword⟩ := waitStep_word hx
    · dsimp only at hrel
      rw [hacq, hrel]
      exact h.acquire hfree hword
    · dsimp only at hrel
      rw [hacq, hrel]
      refine h.release ?_ hword
      cases op <;> first | (cases hrel; exact ha) | cases hrel
    · dsimp only at hrel
      rw [hacq, hrel]
      refine ⟨fun n => ?_, h.holds⟩
      change x.locked n = _
      rw [hword]
      exact h.word n

/-- A wait that returns has the mutex: it has just taken it, or never gave it up. -/
lemma condReturns_holds {rc : ℤ} (ha : HeldByCaller w a) (hret : condReturns w a = some (m, rc))
    (hs : mutexStep w a = some w') : (a.1, m) ∈ w'.holds := by
  obtain ⟨t, op⟩ := a
  unfold condReturns at hret
  split at hret
  case h_1 c m' hop hpc =>
    obtain rfl : op = .timedwaitPast c m' := hop
    cases hret
    simp only [mutexStep, if_pos hpc] at hs
    obtain rfl := Option.some.inj hs
    exact ha
  case h_2 late m' hop hpc =>
    obtain rfl : op = .step .reacquire late := hop
    by_cases hlocked : w.locked m' = true
    · rw [if_pos hlocked] at hret
      cases hret
    rw [if_neg hlocked] at hret
    obtain ⟨rfl, -⟩ := Prod.mk.inj (Option.some.inj hret)
    obtain ⟨x, hx, rfl⟩ := Option.map_eq_some_iff.mp hs
    have hacq : acquired w.toWaitWorld (t, .reacquire) = some m' := by
      simp only [acquired, hpc]
      exact if_neg hlocked
    rw [hacq]
    exact Finset.mem_insert_self _ _
  case h_3 => cases hret

end Invariant

/-- Any threads in any interleaving of the sections of lock, trylock, unlock, the waits, signal and broadcast,
with waiting threads that go on whenever the scheduler likes: as long as threads unlock and wait only with
mutexes that they hold, no two hold the same one, and who returns from a wait with 0 or 110 holds its mutex. -/
theorem mutexes_exclude {status : Slot → Status} {acts : List (Slot × MutexOp)}
    (h : Along mutexStep HeldByCaller (.start status) acts) :
    Throughout mutexStep Exclusive (.start status) acts ∧
    Along mutexStep (fun w a => ∀ m rc w', condReturns w a = some (m, rc) → mutexStep w a = some w' →
      (a.1, m) ∈ w'.holds) (.start status) acts := by
  constructor
  · rintro bs ⟨cs, rfl⟩ w hrun
    have hstep : ∀ (w : MutexWorld) a w', w.Agrees → HeldByCaller w a → mutexStep w a = some w' → w'.Agrees :=
      fun w a w' hw ha hs => hw.step ha hs
    exact (run_invariant hstep (MutexWorld.start_agrees status) (along_append.mp h).1 hrun).exclusive
  · exact along_of_invariant (A := fun _ => True) (I := MutexWorld.Agrees) (fun w a w' _ hw ha hs => hw.step ha hs)
      (fun w a _ _ ha m rc w' hret hs => condReturns_holds ha hret hs) (fun _ _ => trivial)
      (MutexWorld.start_agrees status) h

/-- Thread 1 takes the mutex while thread 0 waits; thread 2 gets ahead of thread 0, which returns in the end. -/
def bargingRun : List (Slot × MutexOp) :=
  [(0, .step (.trylock 5) false), (1, .step (.lock 5) false), (1, .step .lockSection false),
    (0, .step (.condWait 3 5 true false) false), (1, .step (.resume true) false), (1, .step .lockSection false),
    (1, .step (.signal 3) false), (1, .step (.unlock 5) false), (2, .step (.trylock 5) false),
    (0, .step .spinOver false), (0, .step .reacquire true), (2, .step (.unlock 5) false),
    (0, .step (.resume false) false), (0, .step .reacquire true), (0, .timedwaitPast 3 5)]

theorem mutexes_exclude_barging : (run mutexStep (.start fun _ => .running) bargingRun).isSome = true ∧
    Throughout mutexStep Exclusive (.start fun _ => .running) bargingRun ∧
    Along mutexStep (fun w a => ∀ m rc w', condReturns w a = some (m, rc) → mutexStep w a = some w' →
        (a.1, m) ∈ w'.holds) (.start fun _ => .running) bargingRun :=
  ⟨by decide, mutexes_exclude (by decide)⟩

end HouseKernel.Threads
