import HouseKernel.Lib.Linked

/-! The wait queues of mutexes and condition variables: what the critical sections of the
threads library do to them. A thread has one link for all queues. -/
namespace HouseKernel.Threads

open HouseKernel.Lib

/-- A place in the table of threads. -/
abbrev Slot := Fin 64

-- Named, so that every numeral of a slot uses the same proof.
instance neZero_slots : NeZero 64 := ⟨by decide⟩

inductive Status where
  | unused
  | runnable
  | running
  | blocked
  | exited
  deriving DecidableEq, Repr

inductive QueueId where
  | mutex (m : ℕ)
  | cond (c : ℕ)
  deriving DecidableEq, Repr

structure Waits where
  status : Slot → Status
  waitNext : Slot → Option Slot
  waitQ : QueueId → Ends Slot
  locked : ℕ → Bool

namespace Waits

def setStatus (w : Waits) (t : Slot) (status : Status) : Waits := { w with status := Function.update w.status t status }

def links (w : Waits) (q : QueueId) : Links Slot := ⟨w.waitNext, w.waitQ q⟩

def relink (w : Waits) (q : QueueId) (l : Links Slot) : Waits :=
  { w with waitNext := l.next, waitQ := Function.update w.waitQ q l.ends }

def setLocked (w : Waits) (m : ℕ) (locked : Bool) : Waits := { w with locked := Function.update w.locked m locked }

/-- The caller goes to the end of a queue. -/
def append (w : Waits) (q : QueueId) (t : Slot) : Waits := (w.setStatus t .blocked).relink q ((w.links q).pushBack t)

/-- The first waiter of a queue becomes runnable. -/
def pop (w : Waits) (q : QueueId) : Option Slot × Waits :=
  match (w.waitQ q).head with
  | none => (none, w)
  | some t => (some t, (w.relink q ((w.links q).popFront t)).setStatus t .runnable)

def unlock (w : Waits) (m : ℕ) : Option Slot × Waits := (w.setLocked m false).pop (.mutex m)

/-- The section of a wait that gives up the mutex. -/
def startWait (w : Waits) (c m : ℕ) (t : Slot) : Option Slot × Waits := (w.append (.cond c) t).unlock m

/-- One round of a broadcast; it leaves the tail for the end. -/
def popKeepTail (w : Waits) (c : ℕ) (t : Slot) : Waits :=
  (w.relink (.cond c) ⟨Function.update w.waitNext t none, ⟨w.waitNext t, (w.waitQ (.cond c)).tail⟩⟩).setStatus t .runnable

/-- The rounds of a broadcast. Each one but the last takes away a link, so there are at most as
many as threads and one more. -/
def popAll (c : ℕ) : ℕ → Waits → List Slot × Waits
  | 0, w => ([], w)
  | fuel + 1, w => match (w.waitQ (.cond c)).head with
    | none => ([], w)
    | some t =>
      let rest := popAll c fuel (w.popKeepTail c t)
      (t :: rest.1, rest.2)

def broadcast (w : Waits) (c : ℕ) : List Slot × Waits :=
  let r := popAll c 65 w
  (r.1, { r.2 with waitQ := Function.update r.2.waitQ (.cond c) ⟨(r.2.waitQ (.cond c)).head, none⟩ })

def wakeIfBlocked (w : Waits) (t : Slot) : Waits := if w.status t = .blocked then w.setStatus t .runnable else w

/-- A waiter whose time is over takes itself off the queue, if it is there. -/
def timeout (w : Waits) (c : ℕ) (t : Slot) : Option Waits :=
  ((w.links (.cond c)).unlinkGo true t 65 none (w.waitQ (.cond c)).head).map fun r =>
    (if r.1 then (w.relink (.cond c) r.2).wakeIfBlocked t else w).wakeIfBlocked t

@[simp] lemma pop_fst (w : Waits) (q : QueueId) : (w.pop q).1 = (w.waitQ q).head := by
  unfold pop
  split <;> simp_all

@[simp] lemma unlock_fst (w : Waits) (m : ℕ) : (w.unlock m).1 = (w.waitQ (.mutex m)).head := by
  simp [unlock, setLocked]

@[simp] lemma startWait_fst (w : Waits) (c m : ℕ) (t : Slot) : (w.startWait c m t).1 = (w.waitQ (.mutex m)).head := by
  simp [startWait, append, relink, setStatus]

/-- The members of a queue, as the links have them. -/
def waiters (w : Waits) (q : QueueId) : List Slot := follow w.waitNext 64 (w.waitQ q).head

end Waits

/-- The queues are well formed and `xs` are their members. -/
abbrev Waits.Has (w : Waits) (xs : QueueId → List Slot) : Prop := Queues w.waitNext w.waitQ xs

section Specs

variable {w w' : Waits} {xs : QueueId → List Slot} {q : QueueId} {t u : Slot} {c m : ℕ}

lemma Waits.Has.waiters_eq (h : w.Has xs) : w.waiters = xs := by
  funext q
  exact h.follow_eq (by simp) q

lemma Waits.Has.append (h : w.Has xs) (ht : ∀ q, t ∉ xs q) : (w.append q t).Has (Function.update xs q (xs q ++ [t])) :=
  h.push ht

lemma Waits.Has.head (h : w.Has xs) (hhead : (w.waitQ q).head = some t) : ∃ rest, xs q = t :: rest := by
  have hpath : Path w.waitNext (w.waitQ q).head (xs q) none := (h.each q).path
  rw [hhead] at hpath
  cases hxs : xs q with
  | nil =>
    rw [hxs] at hpath
    cases hpath
  | cons a rest =>
    rw [hxs] at hpath
    obtain ⟨heq, -⟩ := hpath
    exact ⟨rest, by rw [Option.some.inj heq]⟩

/-- What taking the first waiter off a queue does. -/
lemma Waits.pop_cases (h : w.Has xs) :
    (xs q = [] ∧ w.pop q = (none, w)) ∨ ∃ t rest w', xs q = t :: rest ∧ w.pop q = (some t, w') ∧
      w'.Has (Function.update xs q rest) ∧ w'.status = Function.update w.status t .runnable ∧ w'.locked = w.locked := by
  cases hhead : (w.waitQ q).head with
  | none =>
    left
    refine ⟨?_, by simp [Waits.pop, hhead]⟩
    have hpath : Path w.waitNext (w.waitQ q).head (xs q) none := (h.each q).path
    rw [hhead] at hpath
    cases hxs : xs q with
    | nil => rfl
    | cons a rest =>
      rw [hxs] at hpath
      cases hpath.1
  | some t =>
    right
    obtain ⟨rest, hxs⟩ := h.head hhead
    refine ⟨t, rest, (w.relink q ((w.links q).popFront t)).setStatus t .runnable, hxs, ?_, h.pop hxs, rfl, rfl⟩
    simp [Waits.pop, hhead]

/-- A broadcast comes to the end of its rounds, whatever the links are. -/
theorem Waits.popAll_done (c fuel : ℕ) (w : Waits)
    (hlinks : (Finset.univ.filter fun t => (w.waitNext t).isSome).card < fuel) :
    ((Waits.popAll c fuel w).2.waitQ (.cond c)).head = none := by
  induction fuel generalizing w with
  | zero => omega
  | succ fuel ih =>
    rw [Waits.popAll]
    split
    case h_1 hhead => exact hhead
    case h_2 t hhead =>
      have hqueue : ((w.popKeepTail c t).waitQ (.cond c)).head = w.waitNext t := by
        simp [Waits.popKeepTail, Waits.relink, Waits.setStatus]
      cases hnext : w.waitNext t with
      | none =>
        -- the last round leaves an empty queue
        rw [hnext] at hqueue
        cases fuel with
        | zero => exact hqueue
        | succ fuel => simp only [Waits.popAll, hqueue]
      | some u =>
        refine ih _ (lt_of_lt_of_le (Finset.card_lt_card ?_) (Nat.lt_succ_iff.mp hlinks))
        rw [Finset.ssubset_iff_of_subset]
        · refine ⟨t, by simp [hnext], ?_⟩
          rw [Finset.mem_filter]
          simp [Waits.popKeepTail, Waits.relink, Waits.setStatus]
        · intro v hv
          simp only [Finset.mem_filter, Finset.mem_univ, true_and] at hv ⊢
          by_cases hvt : v = t
          · rw [hvt, hnext]
            rfl
          · simpa [Waits.popKeepTail, Waits.relink, Waits.setStatus, hvt] using hv

lemma Waits.popAll_path {ys : List Slot} {fuel : ℕ} (hpath : Path w.waitNext (w.waitQ (.cond c)).head ys none)
    (hnodup : ys.Nodup) (hlen : ys.length < fuel) :
    ∃ w', Waits.popAll c fuel w = (ys, w') ∧ (w'.waitNext = fun t => if t ∈ ys then none else w.waitNext t) ∧
      w'.waitQ = Function.update w.waitQ (.cond c) ⟨none, (w.waitQ (.cond c)).tail⟩ ∧
      (w'.status = fun t => if t ∈ ys then .runnable else w.status t) ∧ w'.locked = w.locked := by
  induction ys generalizing w fuel with
  | nil =>
    have hhead : (w.waitQ (.cond c)).head = none := hpath
    cases fuel with
    | zero => simp at hlen
    | succ fuel =>
      refine ⟨w, by simp [Waits.popAll, hhead], by simp, ?_, by simp, rfl⟩
      rw [← hhead, Function.update_eq_self]
  | cons t ys ih =>
    obtain ⟨hhead, hpath⟩ := hpath
    obtain ⟨ht, hnodup⟩ := List.nodup_cons.mp hnodup
    cases fuel with
    | zero => simp at hlen
    | succ fuel =>
      have hqueue : ((w.popKeepTail c t).waitQ (.cond c)) = ⟨w.waitNext t, (w.waitQ (.cond c)).tail⟩ := by
        simp [Waits.popKeepTail, Waits.relink, Waits.setStatus]
      have hpath' : Path (w.popKeepTail c t).waitNext ((w.popKeepTail c t).waitQ (.cond c)).head ys none := by
        rw [hqueue]
        refine hpath.congr fun u hu => ?_
        have hut : u ≠ t := fun heq => ht (heq ▸ hu)
        simp [Waits.popKeepTail, Waits.relink, Waits.setStatus, hut]
      obtain ⟨w', hpop, hnext, hq, hstatus, hlocked⟩ := ih hpath' hnodup (by simpa using hlen)
      refine ⟨w', ?_, ?_, ?_, ?_, hlocked⟩
      · rw [Waits.popAll]
        simp only [hhead, hpop]
      · rw [hnext]
        funext u
        by_cases hut : u = t <;> simp [Waits.popKeepTail, Waits.relink, Waits.setStatus, hut, ht]
      · rw [hq, hqueue]
        simp [Waits.popKeepTail, Waits.relink, Waits.setStatus]
      · rw [hstatus]
        funext u
        by_cases hut : u = t <;> simp [Waits.popKeepTail, Waits.relink, Waits.setStatus, hut, ht]

/-- A broadcast empties its queue. -/
lemma Waits.broadcast_has (h : w.Has xs) : ∃ w', w.broadcast c = (xs (.cond c), w') ∧
    w'.Has (Function.update xs (.cond c) []) ∧ (w'.status = fun t => if t ∈ xs (.cond c) then .runnable else w.status t) ∧
    w'.locked = w.locked := by
  have hc := h.each (.cond c)
  have hlen : (xs (.cond c)).length < 65 := by
    have := hc.nodup.length_le_card
    simp only [Fintype.card_fin] at this
    omega
  obtain ⟨w', hpop, hnext, hq, hstatus, hlocked⟩ := Waits.popAll_path hc.path hc.nodup hlen
  have hbroadcast : w.broadcast c = (xs (.cond c),
      { w' with waitQ := Function.update w'.waitQ (.cond c) ⟨(w'.waitQ (.cond c)).head, none⟩ }) := by
    rw [Waits.broadcast, hpop]
  refine ⟨_, hbroadcast, ?_, hstatus, hlocked⟩
  have hempty : IsQueue ⟨w'.waitNext, ⟨none, none⟩⟩ [] := ⟨rfl, List.nodup_nil, rfl⟩
  have hchange := h.change (i := .cond c) hempty ?_ (by simp)
  · change Queues w'.waitNext (Function.update w'.waitQ (.cond c) ⟨(w'.waitQ (.cond c)).head, none⟩) _
    rw [hq, Function.update_idem, Function.update_self]
    exact hchange
  · intro q hq' t ht
    have hout : t ∉ xs (.cond c) := fun hin => hq' (h.apart q _ t ht hin)
    simp [hnext, hout]

lemma Waits.wakeIfBlocked_status (w : Waits) (t : Slot) :
    (w.wakeIfBlocked t).status = if w.status t = .blocked then Function.update w.status t .runnable else w.status := by
  unfold Waits.wakeIfBlocked
  split_ifs <;> rfl

lemma Waits.wakeIfBlocked_twice (w : Waits) (t : Slot) : (w.wakeIfBlocked t).wakeIfBlocked t = w.wakeIfBlocked t := by
  unfold Waits.wakeIfBlocked
  split_ifs <;> simp_all [Waits.setStatus]

lemma Waits.Has.wakeIfBlocked (h : w.Has xs) : (w.wakeIfBlocked t).Has xs := by
  unfold Waits.wakeIfBlocked
  split_ifs <;> exact h

/-- A timeout takes its thread off the queue. -/
lemma Waits.timeout_has (h : w.Has xs) : ∃ w' ys, w.timeout c t = some w' ∧ w'.Has (Function.update xs (.cond c) ys) ∧
    (∀ u, u ∈ ys ↔ u ∈ xs (.cond c) ∧ u ≠ t) ∧ w'.status = (w.wakeIfBlocked t).status ∧ w'.locked = w.locked := by
  have hc := h.each (.cond c)
  have hlen : (xs (.cond c)).length < 65 := by
    have := hc.nodup.length_le_card
    simp only [Fintype.card_fin] at this
    omega
  by_cases ht : t ∈ xs (.cond c)
  · obtain ⟨us, vs, hxs⟩ := List.append_of_mem ht
    have hunlink := h.unlink hxs
    have hnodup := hxs ▸ hc.nodup
    refine ⟨((w.relink (.cond c) ((w.links (.cond c)).unlinkAt us.getLast? t)).wakeIfBlocked t).wakeIfBlocked t, us ++ vs,
      ?_, ?_, ?_, ?_, ?_⟩
    · have hwalk : (w.links (.cond c)).unlinkGo true t 65 none (w.waitQ (.cond c)).head =
          some (true, (w.links (.cond c)).unlinkAt (us.getLast?.or none) t) :=
        unlinkGo_present (hxs ▸ hc.path) hnodup (by simp) (hxs ▸ hlen)
      rw [Waits.timeout, hwalk, Option.or_none]
      rfl
    · exact Waits.Has.wakeIfBlocked (Waits.Has.wakeIfBlocked hunlink)
    · intro u
      have hout : t ∉ us ++ vs := (List.nodup_cons.mp (List.perm_middle.nodup_iff.mp hnodup)).1
      rw [hxs]
      by_cases hut : u = t
      · simpa [hut] using hout
      · simp [hut]
    · rw [Waits.wakeIfBlocked_twice, Waits.wakeIfBlocked_status, Waits.wakeIfBlocked_status]
      rfl
    · rw [Waits.wakeIfBlocked_twice]
      unfold Waits.wakeIfBlocked
      split_ifs <;> rfl
  · refine ⟨w.wakeIfBlocked t, xs (.cond c), ?_, ?_, ?_, rfl, ?_⟩
    · have hwalk : (w.links (.cond c)).unlinkGo true t 65 none (w.waitQ (.cond c)).head = some (false, w.links (.cond c)) :=
        unlinkGo_absent hc.path ht hlen
      rw [Waits.timeout, hwalk]
      rfl
    · rw [Function.update_eq_self]
      exact h.wakeIfBlocked
    · intro u
      constructor
      · intro hu
        exact ⟨hu, fun heq => ht (heq ▸ hu)⟩
      · exact fun hu => hu.1
    · unfold Waits.wakeIfBlocked
      split_ifs <;> rfl

end Specs

end HouseKernel.Threads
