import HouseKernel.Lib.Run
import Mathlib.Data.List.TakeWhile
import Mathlib.Tactic

/-! The ring of preempted sessions. The thread of a session that loses its slice hands a token to the next live session of
the ring and waits for its own token; a wait that takes too long ends, and the next candidate has its turn. Every look at
the ring takes the lock for itself, so sessions come and go between any two steps. -/
namespace HouseKernel.Userspace

open HouseKernel.Lib

/-- Where the thread of a session is. -/
inductive SchedPc where
  /-- In the guest, or with a request that does not concern the ring. -/
  | guest
  /-- Ahead of the snapshot of the ring. An exit elects a successor too. -/
  | electing (exits : Bool)
  /-- Ahead of the look at the processes. -/
  | filtering (exits : Bool) (ring : List ℕ)
  | tryNext (qs : List ℕ)
  /-- The token of a candidate is at hand. -/
  | waking (q : ℕ) (rest : List ℕ)
  /-- Ahead of the look for its own token. -/
  | asking (rest : List ℕ)
  | waiting (rest : List ℕ)
  | woken
  | delaying
  /-- An exit, with its successor and with the token of that. -/
  | handing (q : ℕ)
  | passing (q : ℕ)
  | leaving
  | stopped
  deriving DecidableEq

structure Sched where
  runRing : List ℕ
  runToken : List ℕ
  /-- The sessions whose token is not taken. -/
  full : ℕ → Bool
  procMap : ℕ → Bool
  runnable : ℕ
  pidNext : ℕ
  pc : ℕ → SchedPc
  /-- The tokens that wakers of all have yet to put. -/
  puts : List ℕ
  /-- The candidates that a preempted session has tried since it lost its slice. -/
  tried : ℕ → List ℕ

inductive SchedAction where
  /-- A session is published and joins the ring. -/
  | register (pid : ℕ)
  | remove (pid : ℕ)
  | unregister (pid : ℕ)
  | wakeAll
  | put (pid : ℕ)
  | preempt (pid : ℕ)
  | exit (pid : ℕ)
  | step (pid : ℕ)
  | timeout (pid : ℕ)
  deriving DecidableEq

/-- The live sessions after the given one in ring order, and then those before it. -/
def successors (self : ℕ) (qs : List ℕ) : List ℕ :=
  (qs.dropWhile fun q => q ≠ self).drop 1 ++ qs.takeWhile fun q => q ≠ self

/-- Sessions beyond the reserve. -/
def updateRunnable (caps : ℕ) (ring : List ℕ) : ℕ := ring.length - (caps - 1)

namespace Sched

def boot : Sched := ⟨[], [], fun _ => false, fun _ => false, 0, 1, fun _ => .stopped, [], fun _ => []⟩

def schedRegister (caps : ℕ) (s : Sched) (pid : ℕ) : Sched :=
  { s with
    runRing := s.runRing ++ [pid]
    runToken := pid :: s.runToken.filter fun q => q ≠ pid
    full := Function.update s.full pid true
    runnable := updateRunnable caps (s.runRing ++ [pid]) }

def schedUnregister (caps : ℕ) (s : Sched) (pid : ℕ) : Sched :=
  { s with
    runRing := s.runRing.filter fun q => q ≠ pid
    runToken := s.runToken.filter fun q => q ≠ pid
    runnable := updateRunnable caps (s.runRing.filter fun q => q ≠ pid) }

/-- `tryPutMVar` -/
def tryPut (s : Sched) (q : ℕ) : Sched := { s with full := Function.update s.full q true }

def setPc (s : Sched) (pid : ℕ) (pc : SchedPc) : Sched := { s with pc := Function.update s.pc pid pc }

/-- What the thread of a session does next. -/
def advance (caps : ℕ) (s : Sched) (pid : ℕ) : Option Sched :=
  match s.pc pid with
  | .guest => none
  | .electing exits => some (s.setPc pid (.filtering exits s.runRing))
  | .filtering exits ring =>
    let qs := successors pid (ring.filter fun q => s.procMap q)
    if exits then
      match qs with
      | [] => some (s.setPc pid .leaving)
      | q :: _ => some (s.setPc pid (.handing q))
    else some { s.setPc pid (.tryNext qs) with tried := Function.update s.tried pid [] }
  | .tryNext [] => some (s.setPc pid .delaying)
  | .tryNext (q :: rest) =>
    let s := { s with tried := Function.update s.tried pid (s.tried pid ++ [q]) }
    if q ∈ s.runToken then some (s.setPc pid (.waking q rest)) else some (s.setPc pid (.asking rest))
  | .waking q rest => some ((s.tryPut q).setPc pid (.asking rest))
  | .asking rest => if pid ∈ s.runToken then some (s.setPc pid (.waiting rest)) else some (s.setPc pid (.tryNext rest))
  | .waiting _ => if s.full pid then some ({ s with full := Function.update s.full pid false }.setPc pid .woken) else none
  | .woken => if s.procMap pid then some (s.setPc pid .guest) else some (s.setPc pid .stopped)
  | .delaying => some (s.setPc pid .guest)
  | .handing q => if q ∈ s.runToken then some (s.setPc pid (.passing q)) else some (s.setPc pid .leaving)
  | .passing q => some ((s.tryPut q).setPc pid .leaving)
  | .leaving => some ((s.schedUnregister caps pid).setPc pid .stopped)
  | .stopped => none

end Sched

def schedStep (caps : ℕ) (s : Sched) : SchedAction → Option Sched
  | .register pid =>
    if s.pidNext ≤ pid then
      some { (s.schedRegister caps pid).setPc pid .guest with
        procMap := Function.update s.procMap pid true
        pidNext := pid + 1 }
    else none
  | .remove pid => some { s with procMap := Function.update s.procMap pid false }
  | .unregister pid => some (s.schedUnregister caps pid)
  | .wakeAll => some { s with puts := s.runToken ++ s.puts }
  | .put pid => if pid ∈ s.puts then some { s.tryPut pid with puts := s.puts.erase pid } else none
  | .preempt pid => if s.pc pid = .guest then some (s.setPc pid (.electing false)) else none
  | .exit pid => if s.pc pid = .guest then some (s.setPc pid (.electing true)) else none
  | .step pid => s.advance caps pid
  | .timeout pid => match s.pc pid with
    | .waiting rest => some (s.setPc pid (.tryNext rest))
    | _ => none

section Order

variable {self : ℕ} {qs : List ℕ}

/-- The candidates are the others, in ring order from the session on. -/
theorem successors_eq (self : ℕ) (qs : List ℕ) : ∃ before after, successors self qs = after ++ before ∧
    (qs = before ++ self :: after ∨ self ∉ qs ∧ qs = before ∧ after = []) := by
  refine ⟨qs.takeWhile fun q => q ≠ self, (qs.dropWhile fun q => q ≠ self).drop 1, rfl, ?_⟩
  have happ : (qs.takeWhile fun q => q ≠ self) ++ (qs.dropWhile fun q => q ≠ self) = qs := List.takeWhile_append_dropWhile
  cases hdrop : qs.dropWhile fun q => q ≠ self with
  | nil =>
    rw [hdrop, List.append_nil] at happ
    refine .inr ⟨fun hmem => ?_, happ.symm, rfl⟩
    have hne := List.dropWhile_eq_nil_iff.mp hdrop self hmem
    simp at hne
  | cons q rest =>
    have hq : q = self := by
      have hhead := List.head?_dropWhile_not (fun q => decide (q ≠ self)) qs
      rw [hdrop] at hhead
      simpa using hhead
    rw [hdrop, hq] at happ
    exact .inl happ.symm

theorem successors_perm (hqs : qs.Nodup) : (successors self qs).Perm (qs.erase self) := by
  obtain ⟨before, after, hsucc, rfl | ⟨hself, rfl, rfl⟩⟩ := successors_eq self qs
  · have hnot : self ∉ before := fun hmem => (List.nodup_append.mp hqs).2.2 self hmem self List.mem_cons_self rfl
    rw [hsucc, List.erase_append_right _ hnot, List.erase_cons_head]
    exact List.perm_append_comm
  · rw [hsucc, List.nil_append, List.erase_of_not_mem hself]

end Order

section Ring

variable {caps pid : ℕ} {s t : Sched} {a : SchedAction}

/-- The ring is in the order in which the sessions were made, each of its sessions has a token, and what is published is
its length beyond the reserve. -/
structure Sched.Ringed (caps : ℕ) (s : Sched) : Prop where
  sorted : s.runRing.Pairwise fun p q => p < q
  tokens : ∀ p, p ∈ s.runToken ↔ p ∈ s.runRing
  below : ∀ p ∈ s.runRing, p < s.pidNext
  published : s.runnable = updateRunnable caps s.runRing
  snapshots : ∀ p exits ring, s.pc p = .filtering exits ring → ring.Pairwise fun p q => p < q

theorem Sched.Ringed.of_eq (h : s.Ringed caps) (hring : t.runRing = s.runRing) (htoken : t.runToken = s.runToken)
    (hrunnable : t.runnable = s.runnable) (hnext : t.pidNext = s.pidNext) (hpc : t.pc = s.pc) :
    t.Ringed caps where
  sorted := hring ▸ h.sorted
  tokens := by
    rw [hring, htoken]
    exact h.tokens
  below := by
    rw [hring, hnext]
    exact h.below
  published := by
    rw [hring, hrunnable]
    exact h.published
  snapshots := by
    rw [hpc]
    exact h.snapshots

theorem Sched.Ringed.setPc (h : s.Ringed caps) (pid : ℕ) (pc : SchedPc)
    (hpc : ∀ exits ring, pc = .filtering exits ring → ring.Pairwise fun p q => p < q) : (s.setPc pid pc).Ringed caps where
  sorted := h.sorted
  tokens := h.tokens
  below := h.below
  published := h.published
  snapshots p exits ring hp := by
    by_cases hpp : p = pid
    · subst hpp
      exact hpc exits ring (by simpa [Sched.setPc] using hp)
    · exact h.snapshots p exits ring (by simpa [Sched.setPc, hpp] using hp)

theorem Sched.Ringed.register (h : s.Ringed caps) (hpid : s.pidNext ≤ pid) :
    Sched.Ringed caps { s.schedRegister caps pid with pidNext := pid + 1 } where
  sorted := by
    refine List.pairwise_append.mpr ⟨h.sorted, List.pairwise_singleton _ _, fun p hp q hq => ?_⟩
    obtain rfl := List.mem_singleton.mp hq
    exact (h.below p hp).trans_le hpid
  tokens p := by
    simp only [schedRegister, List.mem_cons, List.mem_filter, List.mem_append, List.mem_nil_iff, or_false, decide_eq_true_iff,
      h.tokens]
    constructor
    · rintro (hp | ⟨hp, -⟩)
      · exact .inr hp
      · exact .inl hp
    · rintro (hp | hp)
      · exact .inr ⟨hp, ((h.below p hp).trans_le hpid).ne⟩
      · exact .inl hp
  below p hp := by
    obtain hp | hp := List.mem_append.mp hp
    · exact ((h.below p hp).trans_le hpid).trans (Nat.lt_succ_self _)
    · rw [List.mem_singleton.mp hp]
      exact Nat.lt_succ_self _
  published := rfl
  snapshots := h.snapshots

theorem Sched.Ringed.unregister (h : s.Ringed caps) (pid : ℕ) : (s.schedUnregister caps pid).Ringed caps where
  sorted := h.sorted.filter _
  tokens p := by simp only [schedUnregister, List.mem_filter, h.tokens]
  below p hp := h.below p (List.mem_filter.mp hp).1
  published := rfl
  snapshots := h.snapshots

/-- The thread of a session takes its own place in the ring away when it leaves, and otherwise keeps to itself, but for the
tokens that it puts. -/
theorem Sched.advance_cases (h : s.advance caps pid = some t) :
    t = (s.schedUnregister caps pid).setPc pid .stopped ∨
    ∃ full pc tried,
      t = { s with full := full, pc := Function.update s.pc pid pc, tried := Function.update s.tried pid tried } ∧
      (∀ q, s.full q = true → full q = true ∨ q = pid) ∧
      ∀ exits ring, pc = .filtering exits ring → ring = s.runRing := by
  have hput : ∀ q p, s.full p = true → Function.update s.full q true p = true := by
    intro q p hp
    by_cases hpq : p = q
    · rw [hpq, Function.update_self]
    · rwa [Function.update_of_ne hpq]
  have hsame : Function.update s.tried pid (s.tried pid) = s.tried := Function.update_eq_self _ _
  have hquiet : ∀ pc, t = s.setPc pid pc → (∀ exits ring, pc = .filtering exits ring → ring = s.runRing) →
      ∃ full pc tried,
        t = { s with full := full, pc := Function.update s.pc pid pc, tried := Function.update s.tried pid tried } ∧
        (∀ q, s.full q = true → full q = true ∨ q = pid) ∧
        ∀ exits ring, pc = .filtering exits ring → ring = s.runRing := by
    rintro pc rfl hpc
    exact ⟨s.full, pc, s.tried pid, by rw [hsame]; rfl, fun q hq => .inl hq, hpc⟩
  rw [advance] at h
  cases hpc : s.pc pid with
  | guest =>
    rw [hpc] at h
    cases h
  | electing exits =>
    rw [hpc] at h
    exact .inr (hquiet _ (Option.some.inj h).symm fun _ _ heq => (SchedPc.filtering.inj heq).2.symm)
  | filtering exits ring =>
    rw [hpc] at h
    dsimp only at h
    split_ifs at h
    · split at h
      · exact .inr (hquiet _ (Option.some.inj h).symm (by simp))
      · exact .inr (hquiet _ (Option.some.inj h).symm (by simp))
    · obtain rfl := Option.some.inj h
      exact .inr ⟨s.full, .tryNext _, [], rfl, fun q hq => .inl hq, by simp⟩
  | tryNext qs =>
    rw [hpc] at h
    cases qs with
    | nil => exact .inr (hquiet _ (Option.some.inj h).symm (by simp))
    | cons q rest =>
      dsimp only at h
      split_ifs at h
      · obtain rfl := Option.some.inj h
        exact .inr ⟨s.full, .waking q rest, _, rfl, fun q hq => .inl hq, by simp⟩
      · obtain rfl := Option.some.inj h
        exact .inr ⟨s.full, .asking rest, _, rfl, fun q hq => .inl hq, by simp⟩
  | waking q rest =>
    rw [hpc] at h
    obtain rfl := Option.some.inj h
    exact .inr ⟨_, .asking rest, s.tried pid, by rw [hsame]; rfl, fun p hp => .inl (hput q p hp), by simp⟩
  | asking rest =>
    rw [hpc] at h
    dsimp only at h
    split_ifs at h
    · exact .inr (hquiet _ (Option.some.inj h).symm (by simp))
    · exact .inr (hquiet _ (Option.some.inj h).symm (by simp))
  | waiting rest =>
    rw [hpc] at h
    dsimp only at h
    split_ifs at h
    obtain rfl := Option.some.inj h
    refine .inr ⟨Function.update s.full pid false, .woken, s.tried pid, by rw [hsame]; rfl, fun q hq => ?_, by simp⟩
    by_cases hqp : q = pid
    · exact .inr hqp
    · exact .inl (by rwa [Function.update_of_ne hqp])
  | woken =>
    rw [hpc] at h
    dsimp only at h
    split_ifs at h
    · exact .inr (hquiet _ (Option.some.inj h).symm (by simp))
    · exact .inr (hquiet _ (Option.some.inj h).symm (by simp))
  | delaying =>
    rw [hpc] at h
    exact .inr (hquiet _ (Option.some.inj h).symm (by simp))
  | handing q =>
    rw [hpc] at h
    dsimp only at h
    split_ifs at h
    · exact .inr (hquiet _ (Option.some.inj h).symm (by simp))
    · exact .inr (hquiet _ (Option.some.inj h).symm (by simp))
  | passing q =>
    rw [hpc] at h
    obtain rfl := Option.some.inj h
    exact .inr ⟨_, .leaving, s.tried pid, by rw [hsame]; rfl, fun p hp => .inl (hput q p hp), by simp⟩
  | leaving =>
    rw [hpc] at h
    exact .inl (Option.some.inj h).symm
  | stopped =>
    rw [hpc] at h
    cases h

theorem Sched.Ringed.step (h : s.Ringed caps) (hs : schedStep caps s a = some t) : t.Ringed caps := by
  cases a with
  | register pid =>
    rw [schedStep] at hs
    split_ifs at hs with hpid
    obtain rfl := Option.some.inj hs
    exact ((h.register hpid).setPc pid .guest (by simp)).of_eq rfl rfl rfl rfl rfl
  | remove pid =>
    obtain rfl := Option.some.inj hs
    exact h.of_eq rfl rfl rfl rfl rfl
  | unregister pid =>
    obtain rfl := Option.some.inj hs
    exact h.unregister pid
  | wakeAll =>
    obtain rfl := Option.some.inj hs
    exact h.of_eq rfl rfl rfl rfl rfl
  | put pid =>
    rw [schedStep] at hs
    split_ifs at hs
    obtain rfl := Option.some.inj hs
    exact h.of_eq rfl rfl rfl rfl rfl
  | preempt pid =>
    rw [schedStep] at hs
    split_ifs at hs
    obtain rfl := Option.some.inj hs
    exact h.setPc _ _ (by simp)
  | exit pid =>
    rw [schedStep] at hs
    split_ifs at hs
    obtain rfl := Option.some.inj hs
    exact h.setPc _ _ (by simp)
  | step pid =>
    obtain rfl | ⟨full, pc, tried, rfl, -, hpc⟩ := Sched.advance_cases hs
    · exact (h.unregister pid).setPc _ _ (by simp)
    · refine (h.setPc pid pc fun exits ring heq => ?_).of_eq rfl rfl rfl rfl rfl
      rw [hpc exits ring heq]
      exact h.sorted
  | timeout pid =>
    rw [schedStep] at hs
    split at hs
    · obtain rfl := Option.some.inj hs
      exact h.setPc _ _ (by simp)
    · cases hs

theorem Sched.Ringed.run {as : List SchedAction} (hs : run (schedStep caps) Sched.boot as = some s) : s.Ringed caps := by
  have hboot : Sched.boot.Ringed caps := ⟨List.Pairwise.nil, fun _ => Iff.rfl, by simp [boot], (Nat.zero_sub _).symm, by simp [boot]⟩
  exact run_invariant (G := fun _ _ => True) (I := Sched.Ringed caps) (fun _ _ _ hI _ hstep => hI.step hstep) hboot
    (along_of_forall (fun _ _ => trivial) _ as) hs

/-- Whatever the sessions do, the ring has them in the order in which they were made, each with a token; what is published is
the number of sessions beyond the reserve. -/
theorem ring_published {as : List SchedAction} (hs : HouseKernel.Lib.run (schedStep caps) Sched.boot as = some s) :
    (s.runRing.Pairwise fun p q => p < q) ∧ (∀ p, p ∈ s.runToken ↔ p ∈ s.runRing) ∧
      s.runnable = s.runRing.length - (caps - 1) := by
  have hring := Sched.Ringed.run hs
  exact ⟨hring.sorted, hring.tokens, hring.published⟩

/-- Session 1 goes to its first candidate. -/
def samplePreemption : List SchedAction := [.register 1, .register 2, .preempt 1, .step 1]

def sampleSched : Sched := (HouseKernel.Lib.run (schedStep 2) Sched.boot samplePreemption).getD Sched.boot

theorem sampleSched_run : HouseKernel.Lib.run (schedStep 2) Sched.boot samplePreemption = some sampleSched := rfl

theorem ring_published_sample : sampleSched.runnable = sampleSched.runRing.length - (2 - 1) :=
  (ring_published sampleSched_run).2.2

end Ring

section Rotation

variable {caps pid : ℕ} {s t : Sched} {a : SchedAction} {cs : List ℕ}

/-- A step of the session's own. -/
def SchedAction.own (pid : ℕ) (a : SchedAction) : Bool := a = .step pid ∨ a = .timeout pid

/-- The session is in the guest again, or its thread has stopped. -/
def SchedPc.left : SchedPc → Bool
  | .guest | .stopped => true
  | _ => false

/-- The steps that are left of a handling. -/
def SchedPc.work : SchedPc → ℕ
  | .tryNext qs => 4 * qs.length + 2
  | .waking _ rest => 4 * rest.length + 5
  | .asking rest => 4 * rest.length + 4
  | .waiting rest => 4 * rest.length + 3
  | .woken | .delaying => 1
  | _ => 0

/-- A preempted session tries its candidates one after the other. -/
def Sched.Trying (cs : List ℕ) (pid : ℕ) (s : Sched) : Prop :=
  match s.pc pid with
  | .tryNext rest | .waking _ rest | .asking rest | .waiting rest => s.tried pid ++ rest = cs
  | .woken => s.tried pid <+: cs
  | .delaying => s.tried pid = cs
  | _ => False

theorem Sched.Trying.congr (h : s.Trying cs pid) (hpc : t.pc pid = s.pc pid) (htried : t.tried pid = s.tried pid) :
    t.Trying cs pid := by
  unfold Sched.Trying at h ⊢
  rwa [hpc, htried]

/-- A step of its own brings the session on. -/
theorem Sched.Trying.advance (h : s.Trying cs pid) (hs : s.advance caps pid = some t) (hin : (t.pc pid).left = false) :
    t.Trying cs pid ∧ (t.pc pid).work < (s.pc pid).work := by
  rw [Sched.advance] at hs
  unfold Sched.Trying at h
  cases hpc : s.pc pid with
  | tryNext qs =>
    rw [hpc] at h hs
    cases qs with
    | nil =>
      obtain rfl := Option.some.inj hs
      have htried : s.tried pid = cs := by simpa using h
      simp [Sched.Trying, Sched.setPc, SchedPc.work, htried]
    | cons q rest =>
      have htried : s.tried pid ++ [q] ++ rest = cs := by simpa using h
      dsimp only at hs
      split_ifs at hs
      · obtain rfl := Option.some.inj hs
        simp [Sched.Trying, Sched.setPc, SchedPc.work, htried]
        omega
      · obtain rfl := Option.some.inj hs
        simp [Sched.Trying, Sched.setPc, SchedPc.work, htried]
        omega
  | waking q rest =>
    rw [hpc] at h hs
    obtain rfl := Option.some.inj hs
    dsimp only at h
    simp [Sched.Trying, Sched.setPc, Sched.tryPut, SchedPc.work, h]
  | asking rest =>
    rw [hpc] at h hs
    dsimp only at h hs
    split_ifs at hs
    · obtain rfl := Option.some.inj hs
      simp [Sched.Trying, Sched.setPc, SchedPc.work, h]
    · obtain rfl := Option.some.inj hs
      simp [Sched.Trying, Sched.setPc, SchedPc.work, h]
  | waiting rest =>
    rw [hpc] at h hs
    dsimp only at h hs
    split_ifs at hs
    obtain rfl := Option.some.inj hs
    simp [Sched.Trying, Sched.setPc, SchedPc.work, ← h]
  | woken =>
    rw [hpc] at hs
    dsimp only at hs
    split_ifs at hs
    · obtain rfl := Option.some.inj hs
      simp [Sched.setPc, SchedPc.left] at hin
    · obtain rfl := Option.some.inj hs
      simp [Sched.setPc, SchedPc.left] at hin
  | delaying =>
    rw [hpc] at hs
    obtain rfl := Option.some.inj hs
    simp [Sched.setPc, SchedPc.left] at hin
  | guest => simp [hpc] at h
  | electing exits => simp [hpc] at h
  | filtering exits ring => simp [hpc] at h
  | handing q => simp [hpc] at h
  | passing q => simp [hpc] at h
  | leaving => simp [hpc] at h
  | stopped => simp [hpc] at h

/-- What others do leaves a session where it is. -/
theorem Sched.Trying.step (h : s.Trying cs pid) (hs : schedStep caps s a = some t) (hin : (t.pc pid).left = false) :
    t.Trying cs pid ∧ (if a.own pid then 1 else 0) + (t.pc pid).work ≤ (s.pc pid).work := by
  have hnotguest : s.pc pid ≠ .guest := by
    intro hguest
    simp [Sched.Trying, hguest] at h
  cases a with
  | register q =>
    rw [schedStep] at hs
    split_ifs at hs
    obtain rfl := Option.some.inj hs
    have hq : pid ≠ q := by
      rintro rfl
      simp [Sched.setPc, SchedPc.left] at hin
    have hpc : Function.update s.pc q .guest pid = s.pc pid := Function.update_of_ne hq _ _
    exact ⟨h.congr hpc rfl, by simp [SchedAction.own, Sched.setPc, Sched.schedRegister, hpc]⟩
  | remove q =>
    obtain rfl := Option.some.inj hs
    exact ⟨h.congr rfl rfl, by simp [SchedAction.own]⟩
  | unregister q =>
    obtain rfl := Option.some.inj hs
    exact ⟨h.congr rfl rfl, by simp [SchedAction.own, Sched.schedUnregister]⟩
  | wakeAll =>
    obtain rfl := Option.some.inj hs
    exact ⟨h.congr rfl rfl, by simp [SchedAction.own]⟩
  | put q =>
    rw [schedStep] at hs
    split_ifs at hs
    obtain rfl := Option.some.inj hs
    exact ⟨h.congr rfl rfl, by simp [SchedAction.own, Sched.tryPut]⟩
  | preempt q =>
    rw [schedStep] at hs
    split_ifs at hs with hguest
    obtain rfl := Option.some.inj hs
    have hq : pid ≠ q := by
      rintro rfl
      exact hnotguest hguest
    have hpc : Function.update s.pc q (.electing false) pid = s.pc pid := Function.update_of_ne hq _ _
    exact ⟨h.congr hpc rfl, by simp [SchedAction.own, Sched.setPc, hpc]⟩
  | exit q =>
    rw [schedStep] at hs
    split_ifs at hs with hguest
    obtain rfl := Option.some.inj hs
    have hq : pid ≠ q := by
      rintro rfl
      exact hnotguest hguest
    have hpc : Function.update s.pc q (.electing true) pid = s.pc pid := Function.update_of_ne hq _ _
    exact ⟨h.congr hpc rfl, by simp [SchedAction.own, Sched.setPc, hpc]⟩
  | step q =>
    by_cases hq : pid = q
    · subst hq
      obtain ⟨htrying, hwork⟩ := h.advance hs hin
      refine ⟨htrying, ?_⟩
      rw [if_pos (by simp [SchedAction.own])]
      omega
    · have hown : SchedAction.own pid (.step q) = false := by simp [SchedAction.own, Ne.symm hq]
      rw [hown]
      obtain rfl | ⟨_, _, _, rfl, -⟩ := Sched.advance_cases hs
      · have hpc : Function.update s.pc q .stopped pid = s.pc pid := Function.update_of_ne hq _ _
        exact ⟨h.congr hpc rfl, by simp [Sched.setPc, Sched.schedUnregister, hpc]⟩
      · refine ⟨h.congr (Function.update_of_ne hq _ _) (Function.update_of_ne hq _ _), ?_⟩
        simp [Function.update_of_ne hq]
  | timeout q =>
    rw [schedStep] at hs
    split at hs
    · next rest hwait =>
      obtain rfl := Option.some.inj hs
      by_cases hq : pid = q
      · subst hq
        unfold Sched.Trying at h
        rw [hwait] at h ⊢
        dsimp only at h
        simp [Sched.Trying, Sched.setPc, SchedPc.work, SchedAction.own, h]
        omega
      · have hpc : Function.update s.pc q (.tryNext rest) pid = s.pc pid := Function.update_of_ne hq _ _
        exact ⟨h.congr hpc rfl, by simp [SchedAction.own, Sched.setPc, hpc, Ne.symm hq]⟩
    · cases hs

theorem Sched.Trying.run {bs : List SchedAction} (h : s.Trying cs pid) (hs : run (schedStep caps) s bs = some t)
    (hin : Throughout (schedStep caps) (fun u => (u.pc pid).left = false) s bs) :
    t.Trying cs pid ∧ bs.countP (SchedAction.own pid) + (t.pc pid).work ≤ (s.pc pid).work := by
  induction bs generalizing s with
  | nil =>
    obtain rfl : s = t := by simpa using hs
    exact ⟨h, by simp⟩
  | cons b bs ih =>
    obtain ⟨u, hu, ht⟩ := run_cons.mp hs
    have hrest := (throughout_cons.mp hin).2 u hu
    obtain ⟨htrying, hwork⟩ := h.step hu (hrest [] List.nil_prefix u rfl)
    obtain ⟨hend, hsum⟩ := ih htrying ht hrest
    refine ⟨hend, ?_⟩
    rw [List.countP_cons]
    omega

theorem Sched.Trying.tried_candidates (h : s.Trying cs pid) : s.tried pid <+: cs := by
  unfold Sched.Trying at h
  split at h
  · exact ⟨_, h⟩
  · exact ⟨_, h⟩
  · exact ⟨_, h⟩
  · exact ⟨_, h⟩
  · exact h
  · exact h ▸ List.prefix_rfl
  · exact h.elim

theorem Sched.Trying.work_pos (h : s.Trying cs pid) : 0 < (s.pc pid).work := by
  unfold Sched.Trying at h
  unfold SchedPc.work
  split at h <;> simp_all

/-- Nobody takes the token of another session. -/
theorem Sched.full_step {q : ℕ} (h : s.full q = true) (ha : a ≠ .step q) (hs : schedStep caps s a = some t) :
    t.full q = true := by
  have hput : ∀ p, Function.update s.full p true q = true := by
    intro p
    by_cases hp : q = p
    · rw [hp, Function.update_self]
    · rwa [Function.update_of_ne hp]
  cases a with
  | register pid =>
    rw [schedStep] at hs
    split_ifs at hs
    obtain rfl := Option.some.inj hs
    exact hput pid
  | remove pid =>
    obtain rfl := Option.some.inj hs
    exact h
  | unregister pid =>
    obtain rfl := Option.some.inj hs
    exact h
  | wakeAll =>
    obtain rfl := Option.some.inj hs
    exact h
  | put pid =>
    rw [schedStep] at hs
    split_ifs at hs
    obtain rfl := Option.some.inj hs
    exact hput pid
  | preempt pid =>
    rw [schedStep] at hs
    split_ifs at hs
    obtain rfl := Option.some.inj hs
    exact h
  | exit pid =>
    rw [schedStep] at hs
    split_ifs at hs
    obtain rfl := Option.some.inj hs
    exact h
  | step pid =>
    have hne : q ≠ pid := by
      rintro rfl
      exact ha rfl
    obtain rfl | ⟨_, _, _, rfl, hfull, -⟩ := Sched.advance_cases hs
    · exact h
    · exact (hfull q h).resolve_right hne
  | timeout pid =>
    rw [schedStep] at hs
    split at hs
    · obtain rfl := Option.some.inj hs
      exact h
    · cases hs

/-- A preempted session can always go on. -/
theorem Sched.Trying.enabled (h : s.Trying cs pid) : ∃ a, a.own pid ∧ (schedStep caps s a).isSome := by
  unfold Sched.Trying at h
  cases hpc : s.pc pid with
  | tryNext qs =>
    refine ⟨.step pid, by simp [SchedAction.own], ?_⟩
    cases qs with
    | nil => simp [schedStep, Sched.advance, hpc]
    | cons q rest =>
      simp only [schedStep, Sched.advance, hpc]
      split_ifs <;> rfl
  | waking q rest => exact ⟨.step pid, by simp [SchedAction.own], by simp [schedStep, Sched.advance, hpc]⟩
  | asking rest =>
    refine ⟨.step pid, by simp [SchedAction.own], ?_⟩
    simp only [schedStep, Sched.advance, hpc]
    split_ifs <;> rfl
  | waiting rest => exact ⟨.timeout pid, by simp [SchedAction.own], by simp [schedStep, hpc]⟩
  | woken =>
    refine ⟨.step pid, by simp [SchedAction.own], ?_⟩
    simp only [schedStep, Sched.advance, hpc]
    split_ifs <;> rfl
  | delaying => exact ⟨.step pid, by simp [SchedAction.own], by simp [schedStep, Sched.advance, hpc]⟩
  | guest => simp [hpc] at h
  | electing exits => simp [hpc] at h
  | filtering exits ring => simp [hpc] at h
  | handing q => simp [hpc] at h
  | passing q => simp [hpc] at h
  | leaving => simp [hpc] at h
  | stopped => simp [hpc] at h

/-- A preempted session tries every other live session of the ring once, from its own place on, and goes back to its guest
after that at the latest: it has no more than four steps of its own for each and one more, and one of them is always possible,
whatever the others do. -/
theorem preempt_rotates {as bs : List SchedAction} {ring : List ℕ} (hs : run (schedStep caps) Sched.boot as = some s)
    (hpc : s.pc pid = .filtering false ring) (ht : run (schedStep caps) s (.step pid :: bs) = some t)
    (hin : Throughout (schedStep caps) (fun u => (u.pc pid).left = false) s (.step pid :: bs)) :
    let qs := ring.filter fun q => s.procMap q
    let cs := successors pid qs
    (∃ before after, cs = after ++ before ∧ (qs = before ++ pid :: after ∨ pid ∉ qs ∧ qs = before ∧ after = [])) ∧
      cs.Perm (qs.erase pid) ∧ t.tried pid <+: cs ∧ (t.pc pid = .delaying → t.tried pid = cs) ∧
      bs.countP (SchedAction.own pid) ≤ 4 * cs.length + 1 ∧ ∃ a, a.own pid ∧ (schedStep caps t a).isSome := by
  intro qs cs
  obtain ⟨u, hu, ht⟩ := run_cons.mp ht
  have hstart : u = { s.setPc pid (.tryNext cs) with tried := Function.update s.tried pid [] } := by
    rw [schedStep, Sched.advance, hpc] at hu
    exact (Option.some.inj hu).symm
  have hupc : u.pc pid = .tryNext cs := by simp [hstart, Sched.setPc]
  have htrying : u.Trying cs pid := by simp [Sched.Trying, Sched.setPc, hstart]
  obtain ⟨hend, hwork⟩ := htrying.run ht ((throughout_cons.mp hin).2 u hu)
  have hsorted := (Sched.Ringed.run hs).snapshots pid false ring hpc
  have hnodup : qs.Nodup := (hsorted.filter _).imp Nat.ne_of_lt
  obtain ⟨a, hown, hsome⟩ := hend.enabled
  refine ⟨successors_eq pid qs, successors_perm hnodup, hend.tried_candidates, fun hdelay => ?_, ?_, a, hown, hsome⟩
  · unfold Sched.Trying at hend
    rwa [hdelay] at hend
  · have hpos := hend.work_pos
    rw [hupc, SchedPc.work] at hwork
    omega

theorem preempt_rotates_sample : ∃ t, run (schedStep 2) sampleSched [.step 1, .step 1, .step 1, .step 1] = some t ∧
    ∃ a, SchedAction.own 1 a ∧ (schedStep 2 t a).isSome := by
  obtain ⟨t, ht, hin⟩ : ∃ t, run (schedStep 2) sampleSched [.step 1, .step 1, .step 1, .step 1] = some t ∧
      Throughout (schedStep 2) (fun u => (u.pc 1).left = false) sampleSched [.step 1, .step 1, .step 1, .step 1] :=
    ⟨_, rfl, throughout_step rfl rfl <| throughout_step rfl rfl <| throughout_step rfl rfl <| throughout_step rfl rfl <|
      throughout_nil rfl⟩
  exact ⟨t, ht, (preempt_rotates sampleSched_run rfl ht hin).2.2.2.2.2⟩

/-- A token that was put stays until its session takes it, and who waits for it is woken. -/
theorem baton_kept {bs : List SchedAction} {q : ℕ} (hpc : (∃ rest, s.pc pid = .waking q rest) ∨ s.pc pid = .passing q)
    (ht : run (schedStep caps) s (.step pid :: bs) = some t) (hbs : ∀ b ∈ bs, b ≠ .step q) :
    t.full q = true ∧ ∀ rest, t.pc q = .waiting rest → ∃ u, schedStep caps t (.step q) = some u ∧ u.pc q = .woken := by
  obtain ⟨u, hu, ht⟩ := run_cons.mp ht
  have hput : u.full q = true := by
    rw [schedStep, Sched.advance] at hu
    obtain ⟨rest, hpc⟩ | hpc := hpc
    · rw [hpc] at hu
      obtain rfl := Option.some.inj hu
      simp [Sched.setPc, Sched.tryPut]
    · rw [hpc] at hu
      obtain rfl := Option.some.inj hu
      simp [Sched.setPc, Sched.tryPut]
  have hfull : t.full q = true :=
    run_invariant (G := fun _ b => b ≠ .step q) (I := fun v => v.full q = true) (fun v b w hv hb hstep => Sched.full_step hv hb hstep)
      hput (along_of_mem hbs u) ht
  refine ⟨hfull, fun rest hwait => ?_⟩
  simp [schedStep, Sched.advance, hwait, hfull, Sched.setPc]

theorem baton_kept_sample : ∃ s t, run (schedStep 2) sampleSched [.step 1, .step 1] = some s ∧
    run (schedStep 2) s [.step 1, .preempt 2, .step 1] = some t ∧ t.full 2 = true := by
  obtain ⟨s, t, hs, hpc, ht⟩ : ∃ s t, run (schedStep 2) sampleSched [.step 1, .step 1] = some s ∧ s.pc 1 = .waking 2 [] ∧
      run (schedStep 2) s [.step 1, .preempt 2, .step 1] = some t := ⟨_, _, rfl, rfl, rfl⟩
  exact ⟨s, t, hs, ht, (baton_kept (.inl ⟨[], hpc⟩) ht (by decide)).1⟩

end Rotation

end HouseKernel.Userspace
