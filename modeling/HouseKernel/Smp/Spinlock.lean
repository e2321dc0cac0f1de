import HouseKernel.Lib.Exclusives
import HouseKernel.Lib.Run

/-! The spin lock, instruction by instruction. Any number of cores run its routines and the sections that they guard in
any order, and may lose the mark of an exclusive load at any time: at most one core is in a section, and no update that a
section makes is lost. -/
namespace HouseKernel.Smp

open HouseKernel.Lib

/-- The instructions of the routines; `res` and `tmp` are their registers. -/
inductive SpinInstr where
  | ldaxr
  | cbnz (target : ℕ)
  | movTmp (v : BitVec 32)
  | stxr
  | movRes (v : BitVec 32)
  | b (target : ℕ)
  | dmb
  | stlr
  deriving DecidableEq, Repr

inductive Routine where
  | lock
  | tryLock
  | unlock
  deriving DecidableEq, Repr

def Routine.code : Routine → List SpinInstr
  | .lock => [.ldaxr, .cbnz 0, .movTmp 1, .stxr, .cbnz 0, .dmb]
  | .tryLock => [.ldaxr, .cbnz 8, .movTmp 1, .stxr, .cbnz 8, .dmb, .movRes 0, .b 9, .movRes 1]
  | .unlock => [.dmb, .stlr, .dmb]

/-- Where a core is: outside, in a routine, or with the guard in hand, perhaps with the data read through it. -/
inductive SpinPhase (D : Type*) where
  | idle
  | running (r : Routine) (pc : ℕ)
  | holding
  | loaded (d : D)

structure SpinCore (D : Type*) where
  res : BitVec 32
  tmp : BitVec 32
  phase : SpinPhase D

structure SpinWorld (K D : Type*) where
  mem : Exclusive K
  core : K → SpinCore D
  data : D

/-- What a core does next: call a routine, execute an instruction of it or return, or read or write the data. -/
inductive SpinAction (D : Type*) where
  | call (r : Routine)
  | exec
  | lose
  | load
  | store (f : D → D)

section Steps

variable {K D : Type*} [DecidableEq K]

/-- One instruction at `pc`, on the registers and the lock word. -/
def SpinInstr.exec (i : SpinInstr) (r : Routine) (pc : ℕ) (k : K) (c : SpinCore D) (m : Exclusive K) :
    SpinCore D × Exclusive K :=
  match i with
  | .ldaxr => ({ c with res := m.word, phase := .running r (pc + 1) }, m.loadx k)
  | .cbnz target => ({ c with phase := .running r (if c.res ≠ 0 then target else pc + 1) }, m)
  | .movTmp v => ({ c with tmp := v, phase := .running r (pc + 1) }, m)
  | .stxr =>
    ({ c with res := if (m.storex k c.tmp).1 then 0 else 1, phase := .running r (pc + 1) }, (m.storex k c.tmp).2)
  | .movRes v => ({ c with res := v, phase := .running r (pc + 1) }, m)
  | .b target => ({ c with phase := .running r target }, m)
  | .dmb => ({ c with phase := .running r (pc + 1) }, m)
  | .stlr => ({ c with phase := .running r (pc + 1) }, m.store 0)

section Instructions

variable (r : Routine) (pc : ℕ) (k : K) (c : SpinCore D) (m : Exclusive K)

@[simp] theorem exec_ldaxr : SpinInstr.ldaxr.exec r pc k c m =
    ({ c with res := m.word, phase := .running r (pc + 1) }, m.loadx k) := rfl

@[simp] theorem exec_cbnz (target : ℕ) : (SpinInstr.cbnz target).exec r pc k c m =
    ({ c with phase := .running r (if c.res ≠ 0 then target else pc + 1) }, m) := rfl

@[simp] theorem exec_movTmp (v : BitVec 32) : (SpinInstr.movTmp v).exec r pc k c m =
    ({ c with tmp := v, phase := .running r (pc + 1) }, m) := rfl

@[simp] theorem exec_stxr : SpinInstr.stxr.exec r pc k c m =
    ({ c with res := if (m.storex k c.tmp).1 then 0 else 1, phase := .running r (pc + 1) }, (m.storex k c.tmp).2) := rfl

@[simp] theorem exec_movRes (v : BitVec 32) : (SpinInstr.movRes v).exec r pc k c m =
    ({ c with res := v, phase := .running r (pc + 1) }, m) := rfl

@[simp] theorem exec_b (target : ℕ) : (SpinInstr.b target).exec r pc k c m =
    ({ c with phase := .running r target }, m) := rfl

@[simp] theorem exec_dmb : SpinInstr.dmb.exec r pc k c m = ({ c with phase := .running r (pc + 1) }, m) := rfl

@[simp] theorem exec_stlr : SpinInstr.stlr.exec r pc k c m = ({ c with phase := .running r (pc + 1) }, m.store 0) := rfl

end Instructions

/-- A routine returns behind its last instruction; `try_lock` gives out the guard when `res` is zero. -/
def Routine.done (r : Routine) (c : SpinCore D) : SpinCore D :=
  match r with
  | .lock => { c with phase := .holding }
  | .tryLock => { c with phase := if c.res = 0 then .holding else .idle }
  | .unlock => { c with phase := .idle }

/-- What core `k` does to its own state and to the lock word. -/
def SpinCore.act (k : K) (c : SpinCore D) (m : Exclusive K) (d : D) : SpinAction D → Option (SpinCore D × Exclusive K × D)
  | .call r =>
    match r, c.phase with
    | .lock, .idle => some ({ c with phase := .running .lock 0 }, m, d)
    | .tryLock, .idle => some ({ c with phase := .running .tryLock 0 }, m, d)
    | .unlock, .holding => some ({ c with phase := .running .unlock 0 }, m, d)
    | _, _ => none
  | .exec =>
    match c.phase with
    | .running r pc =>
      match r.code[pc]? with
      | some i => some ((i.exec r pc k c m).1, (i.exec r pc k c m).2, d)
      | none => some (r.done c, m, d)
    | _ => none
  | .lose => some (c, m.lose k, d)
  | .load =>
    match c.phase with
    | .holding => some ({ c with phase := .loaded d }, m, d)
    | _ => none
  | .store f =>
    match c.phase with
    | .loaded seen => some ({ c with phase := .holding }, m, f seen)
    | _ => none

theorem act_exec (k : K) (res tmp : BitVec 32) (r : Routine) (pc : ℕ) (m : Exclusive K) (d : D) :
    SpinCore.act k ⟨res, tmp, .running r pc⟩ m d .exec =
      match r.code[pc]? with
      | some i => some ((i.exec r pc k (⟨res, tmp, .running r pc⟩ : SpinCore D) m).1,
          (i.exec r pc k (⟨res, tmp, .running r pc⟩ : SpinCore D) m).2, d)
      | none => some (r.done ⟨res, tmp, .running r pc⟩, m, d) := rfl

def spinStep (w : SpinWorld K D) (a : K × SpinAction D) : Option (SpinWorld K D) :=
  ((w.core a.1).act a.1 w.mem w.data a.2).map fun (c, m, d) => ⟨m, Function.update w.core a.1 c, d⟩

/-- The lock as it is created, around `d`. -/
def SpinWorld.start (regs : K → BitVec 32 × BitVec 32) (d : D) : SpinWorld K D :=
  ⟨⟨0, fun _ => false⟩, fun k => ⟨(regs k).1, (regs k).2, .idle⟩, d⟩

end Steps

section Ownership

variable {K D : Type*} [DecidableEq K] {k : K} {c c' : SpinCore D} {m m' : Exclusive K} {d d' : D}

/-- The core stored the lock word and did not take it back. -/
def SpinCore.Owns (c : SpinCore D) : Prop :=
  match c.phase with
  | .idle => False
  | .holding => True
  | .loaded _ => True
  | .running .lock pc => pc = 4 ∧ c.res = 0 ∨ 5 ≤ pc
  | .running .tryLock pc => (pc = 4 ∨ pc = 7 ∨ 9 ≤ pc) ∧ c.res = 0 ∨ pc = 5 ∨ pc = 6
  | .running .unlock pc => pc ≤ 1

/-- The word that a core saw and goes by. -/
def SpinCore.seen (c : SpinCore D) : Option (BitVec 32) :=
  match c.phase with
  | .running .unlock _ => none
  | .running _ 1 => some c.res
  | .running _ 2 => some 0
  | .running _ 3 => some 0
  | _ => none

/-- The value that an exclusive store is about to write. -/
def SpinCore.Set (c : SpinCore D) : Prop :=
  match c.phase with
  | .running .unlock _ => True
  | .running _ 3 => c.tmp = 1
  | _ => True

section Phases

variable (res tmp : BitVec 32) (pc : ℕ)

@[simp] theorem owns_idle : (⟨res, tmp, .idle⟩ : SpinCore D).Owns ↔ False := .rfl

@[simp] theorem owns_holding : (⟨res, tmp, .holding⟩ : SpinCore D).Owns ↔ True := .rfl

@[simp] theorem owns_loaded (d : D) : (⟨res, tmp, .loaded d⟩ : SpinCore D).Owns ↔ True := .rfl

@[simp] theorem owns_lock : (⟨res, tmp, .running .lock pc⟩ : SpinCore D).Owns ↔ pc = 4 ∧ res = 0 ∨ 5 ≤ pc := .rfl

@[simp] theorem owns_tryLock : (⟨res, tmp, .running .tryLock pc⟩ : SpinCore D).Owns ↔
    (pc = 4 ∨ pc = 7 ∨ 9 ≤ pc) ∧ res = 0 ∨ pc = 5 ∨ pc = 6 := .rfl

@[simp] theorem owns_unlock : (⟨res, tmp, .running .unlock pc⟩ : SpinCore D).Owns ↔ pc ≤ 1 := .rfl

@[simp] theorem seen_idle : (⟨res, tmp, .idle⟩ : SpinCore D).seen = none := rfl

@[simp] theorem seen_holding : (⟨res, tmp, .holding⟩ : SpinCore D).seen = none := rfl

@[simp] theorem seen_loaded (d : D) : (⟨res, tmp, .loaded d⟩ : SpinCore D).seen = none := rfl

@[simp] theorem seen_unlock : (⟨res, tmp, .running .unlock pc⟩ : SpinCore D).seen = none := rfl

/-- In the acquiring routines a core goes by what it saw until it has stored the word. -/
theorem seen_acquiring {r : Routine} (hr : r = .lock ∨ r = .tryLock) : (⟨res, tmp, .running r pc⟩ : SpinCore D).seen =
    if pc = 1 then some res else if pc = 2 ∨ pc = 3 then some 0 else none := by
  obtain rfl | rfl := hr <;>
  · match pc with
    | 0 => rfl
    | 1 => rfl
    | 2 => rfl
    | 3 => rfl
    | n + 4 =>
      rw [if_neg (by omega), if_neg (by omega)]
      rfl

@[simp] theorem seen_lock : (⟨res, tmp, .running .lock pc⟩ : SpinCore D).seen =
    if pc = 1 then some res else if pc = 2 ∨ pc = 3 then some 0 else none := seen_acquiring res tmp pc (.inl rfl)

@[simp] theorem seen_tryLock : (⟨res, tmp, .running .tryLock pc⟩ : SpinCore D).seen =
    if pc = 1 then some res else if pc = 2 ∨ pc = 3 then some 0 else none := seen_acquiring res tmp pc (.inr rfl)

@[simp] theorem set_idle : (⟨res, tmp, .idle⟩ : SpinCore D).Set ↔ True := .rfl

@[simp] theorem set_holding : (⟨res, tmp, .holding⟩ : SpinCore D).Set ↔ True := .rfl

@[simp] theorem set_loaded (d : D) : (⟨res, tmp, .loaded d⟩ : SpinCore D).Set ↔ True := .rfl

@[simp] theorem set_unlock : (⟨res, tmp, .running .unlock pc⟩ : SpinCore D).Set ↔ True := .rfl

theorem set_acquiring {r : Routine} (hr : r = .lock ∨ r = .tryLock) :
    (⟨res, tmp, .running r pc⟩ : SpinCore D).Set ↔ (pc = 3 → tmp = 1) := by
  obtain rfl | rfl := hr <;>
  · match pc with
    | 0 => exact ⟨fun _ h => absurd h (by omega), fun _ => trivial⟩
    | 1 => exact ⟨fun _ h => absurd h (by omega), fun _ => trivial⟩
    | 2 => exact ⟨fun _ h => absurd h (by omega), fun _ => trivial⟩
    | 3 => exact ⟨fun h _ => h, fun h => h rfl⟩
    | n + 4 => exact ⟨fun _ h => absurd h (by omega), fun _ => trivial⟩

@[simp] theorem set_lock : (⟨res, tmp, .running .lock pc⟩ : SpinCore D).Set ↔ (pc = 3 → tmp = 1) :=
  set_acquiring res tmp pc (.inl rfl)

@[simp] theorem set_tryLock : (⟨res, tmp, .running .tryLock pc⟩ : SpinCore D).Set ↔ (pc = 3 → tmp = 1) :=
  set_acquiring res tmp pc (.inr rfl)

end Phases

/-- How a step moves the lock word along with the ownership of its core. -/
inductive Moves (k : K) (c c' : SpinCore D) (m m' : Exclusive K) : Prop
  | quiet (hm : m' = m) (ho : c'.Owns ↔ c.Owns) (hs : ∀ v, c'.seen = some v → c.seen = some v)
  | marked (hm : m' = m.loadx k) (ho : c'.Owns ↔ c.Owns) (hs : ∀ v, c'.seen = some v → v = m.word)
  | lost (hm : m' = m.lose k) (ho : c' = c)
  | acquired (hm : m' = m.store 1) (hmark : m.marks k = true) (hs : c.seen = some 0) (ho : ¬ c.Owns) (ho' : c'.Owns)
  | released (hm : m' = m.store 0) (ho : c.Owns) (ho' : ¬ c'.Owns)

/-- The two acquiring routines, up to the store of the lock word. -/
theorem acquire_exec {r : Routine} {pc : ℕ} (hr : r = .lock ∨ r = .tryLock) (hpc : pc ≤ 3) (hp : c.phase = .running r pc)
    (ht : c.Set) (h : c.act k m d .exec = some (c', m', d')) : Moves k c c' m m' ∧ c'.Set ∧ d' = d := by
  obtain ⟨res, tmp, phase⟩ := c
  obtain rfl : phase = .running r pc := hp
  obtain rfl | rfl | rfl | rfl : pc = 0 ∨ pc = 1 ∨ pc = 2 ∨ pc = 3 := by omega
  · obtain rfl | rfl := hr <;>
    · simp [act_exec, Routine.code] at h
      obtain ⟨rfl, rfl, rfl⟩ := h
      exact ⟨.marked rfl (by simp) (by simp), by simp, rfl⟩
  · obtain rfl | rfl := hr <;> by_cases hres : res = 0#32 <;>
    · simp [act_exec, Routine.code, hres] at h
      obtain ⟨rfl, rfl, rfl⟩ := h
      exact ⟨.quiet rfl (by simp [hres]) (by simp [hres]), by simp, rfl⟩
  · obtain rfl | rfl := hr <;>
    · simp [act_exec, Routine.code] at h
      obtain ⟨rfl, rfl, rfl⟩ := h
      exact ⟨.quiet rfl (by simp) (by simp), by simp, rfl⟩
  · obtain ⟨hmark, hst⟩ | hst := m.storex_cases k tmp
    · obtain rfl : tmp = 1#32 := by
        obtain rfl | rfl := hr <;> exact ht
      obtain rfl | rfl := hr <;>
      · simp [act_exec, Routine.code, hst] at h
        obtain ⟨rfl, rfl, rfl⟩ := h
        exact ⟨.acquired rfl hmark (by simp) (by simp) (by simp),
          by simp, rfl⟩
    · obtain rfl | rfl := hr <;>
      · simp [act_exec, Routine.code, hst] at h
        obtain ⟨rfl, rfl, rfl⟩ := h
        exact ⟨.quiet rfl (by simp) (by simp), by simp, rfl⟩

theorem lock_exec {pc : ℕ} (hpc : 4 ≤ pc) (hp : c.phase = .running .lock pc)
    (h : c.act k m d .exec = some (c', m', d')) : Moves k c c' m m' ∧ c'.Set ∧ d' = d := by
  obtain ⟨res, tmp, phase⟩ := c
  obtain rfl : phase = .running .lock pc := hp
  obtain rfl | rfl | hpc : pc = 4 ∨ pc = 5 ∨ 6 ≤ pc := by omega
  · by_cases hres : res = 0#32 <;>
    · simp [act_exec, Routine.code, hres] at h
      obtain ⟨rfl, rfl, rfl⟩ := h
      exact ⟨.quiet rfl (by simp [hres]) (by simp), by simp, rfl⟩
  · simp [act_exec, Routine.code] at h
    obtain ⟨rfl, rfl, rfl⟩ := h
    exact ⟨.quiet rfl (by simp) (by simp), by simp, rfl⟩
  · have hend : Routine.lock.code[pc]? = none := List.getElem?_eq_none hpc
    simp [act_exec, hend, Routine.done] at h
    obtain ⟨rfl, rfl, rfl⟩ := h
    refine ⟨.quiet rfl ?_ (by simp), by simp, rfl⟩
    simp only [owns_holding, owns_lock, true_iff]
    omega

theorem tryLock_exec {pc : ℕ} (hpc : 4 ≤ pc) (hp : c.phase = .running .tryLock pc)
    (h : c.act k m d .exec = some (c', m', d')) : Moves k c c' m m' ∧ c'.Set ∧ d' = d := by
  obtain ⟨res, tmp, phase⟩ := c
  obtain rfl : phase = .running .tryLock pc := hp
  by_cases hlast : 9 ≤ pc
  · have hend : Routine.tryLock.code[pc]? = none := List.getElem?_eq_none hlast
    by_cases hres : res = 0#32 <;>
    · simp [act_exec, hend, Routine.done, hres] at h
      obtain ⟨rfl, rfl, rfl⟩ := h
      refine ⟨.quiet rfl ?_ (by simp), by simp, rfl⟩
      simp [hres]
      omega
  · obtain rfl | rfl | rfl | rfl | rfl : pc = 4 ∨ pc = 5 ∨ pc = 6 ∨ pc = 7 ∨ pc = 8 := by omega
    all_goals
      by_cases hres : res = 0#32 <;>
      · simp [act_exec, Routine.code, hres] at h
        obtain ⟨rfl, rfl, rfl⟩ := h
        exact ⟨.quiet rfl (by simp [hres]) (by simp), by simp, rfl⟩

theorem unlock_exec {pc : ℕ} (hp : c.phase = .running .unlock pc) (h : c.act k m d .exec = some (c', m', d')) :
    Moves k c c' m m' ∧ c'.Set ∧ d' = d := by
  obtain ⟨res, tmp, phase⟩ := c
  obtain rfl : phase = .running .unlock pc := hp
  obtain rfl | rfl | rfl | hpc : pc = 0 ∨ pc = 1 ∨ pc = 2 ∨ 3 ≤ pc := by omega
  · simp [act_exec, Routine.code] at h
    obtain ⟨rfl, rfl, rfl⟩ := h
    exact ⟨.quiet rfl (by simp) (by simp), by simp, rfl⟩
  · simp [act_exec, Routine.code] at h
    obtain ⟨rfl, rfl, rfl⟩ := h
    exact ⟨.released rfl (by simp) (by simp), by simp, rfl⟩
  · simp [act_exec, Routine.code] at h
    obtain ⟨rfl, rfl, rfl⟩ := h
    exact ⟨.quiet rfl (by simp) (by simp), by simp, rfl⟩
  · have hend : Routine.unlock.code[pc]? = none := List.getElem?_eq_none hpc
    simp [act_exec, hend, Routine.done] at h
    obtain ⟨rfl, rfl, rfl⟩ := h
    refine ⟨.quiet rfl ?_ (by simp), by simp, rfl⟩
    simp only [owns_idle, owns_unlock, false_iff]
    omega

theorem exec_not_loaded (h : c.act k m d .exec = some (c', m', d')) (seen : D) : c'.phase ≠ .loaded seen := by
  rw [SpinCore.act] at h
  split at h
  · rename_i r pc hp
    split at h
    · rename_i i hi
      obtain ⟨rfl, -, -⟩ : _ = c' ∧ _ = m' ∧ _ = d' := by simpa using h
      cases i <;> exact nofun
    · obtain ⟨rfl, -, -⟩ : _ = c' ∧ _ = m' ∧ _ = d' := by simpa using h
      cases r with
      | tryLock =>
        rw [Routine.done]
        dsimp only
        split_ifs <;> exact nofun
      | _ => exact nofun
  · cases h

/-- What the action itself does to the data. -/
def applied (d : D) : K × SpinAction D → D
  | (_, .store f) => f d
  | _ => d

/-- Every action, on the side of the core that takes it. -/
theorem act_moves {a : SpinAction D} (ht : c.Set) (hfresh : ∀ seen, c.phase = .loaded seen → seen = d)
    (h : c.act k m d a = some (c', m', d')) :
    Moves k c c' m m' ∧ c'.Set ∧ d' = applied d (k, a) ∧ (∀ seen, c'.phase = .loaded seen → seen = d') ∧
      (d' = d ∨ c.Owns) := by
  obtain ⟨res, tmp, phase⟩ := c
  cases a with
  | call r =>
    cases r <;> cases phase <;> simp [SpinCore.act] at h <;> obtain ⟨rfl, rfl, rfl⟩ := h <;>
      exact ⟨.quiet rfl (by simp) (by simp), by simp, rfl, nofun, .inl rfl⟩
  | exec =>
    cases phase with
    | running r pc =>
      have hmoves : Moves k ⟨res, tmp, .running r pc⟩ c' m m' ∧ c'.Set ∧ d' = d := by
        by_cases hpc : pc ≤ 3
        · cases r with
          | lock => exact acquire_exec (.inl rfl) hpc rfl ht h
          | tryLock => exact acquire_exec (.inr rfl) hpc rfl ht h
          | unlock => exact unlock_exec rfl h
        · cases r with
          | lock => exact lock_exec (Nat.lt_of_not_le hpc) rfl h
          | tryLock => exact tryLock_exec (Nat.lt_of_not_le hpc) rfl h
          | unlock => exact unlock_exec rfl h
      exact ⟨hmoves.1, hmoves.2.1, hmoves.2.2, fun seen hs => absurd hs (exec_not_loaded h seen), .inl hmoves.2.2⟩
    | _ => cases h
  | lose =>
    obtain ⟨rfl, rfl, rfl⟩ : _ = c' ∧ _ = m' ∧ _ = d' := by simpa [SpinCore.act] using h
    exact ⟨.lost rfl rfl, ht, rfl, hfresh, .inl rfl⟩
  | load =>
    cases phase with
    | holding =>
      obtain ⟨rfl, rfl, rfl⟩ : _ = c' ∧ _ = m' ∧ _ = d' := by simpa [SpinCore.act] using h
      refine ⟨.quiet rfl (by simp) (by simp), by simp, rfl, ?_, .inl rfl⟩
      rintro seen ⟨⟩
      rfl
    | _ => cases h
  | store f =>
    cases phase with
    | loaded seen =>
      obtain ⟨rfl, rfl, rfl⟩ : _ = c' ∧ _ = m' ∧ _ = d' := by simpa [SpinCore.act] using h
      refine ⟨.quiet rfl (by simp) (by simp), by simp, ?_, nofun, .inr trivial⟩
      rw [hfresh seen rfl, applied]
    | _ => cases h

/-- One core at most owns the lock, and exactly while the word is set; what a section read is still what the data is. -/
structure SpinWorld.Ordered (w : SpinWorld K D) : Prop where
  tracks : w.mem.Tracks fun k => (w.core k).seen
  set : ∀ k, (w.core k).Set
  single : ∀ j k, (w.core j).Owns → (w.core k).Owns → j = k
  taken : ∀ k, (w.core k).Owns → w.mem.word ≠ 0
  owned : w.mem.word ≠ 0 → ∃ k, (w.core k).Owns
  fresh : ∀ k seen, (w.core k).phase = .loaded seen → seen = w.data

variable {w w' : SpinWorld K D}

theorem spinStep_eq_some {a : SpinAction D} (h : spinStep w (k, a) = some w') :
    ∃ c m d, (w.core k).act k w.mem w.data a = some (c, m, d) ∧ w' = ⟨m, Function.update w.core k c, d⟩ := by
  obtain ⟨⟨c, m, d⟩, hact, rfl⟩ := Option.map_eq_some_iff.mp h
  exact ⟨c, m, d, hact, rfl⟩

theorem SpinWorld.Ordered.step {a : SpinAction D} (h : w.Ordered) (hs : spinStep w (k, a) = some w') :
    w'.Ordered ∧ w'.data = applied w.data (k, a) := by
  obtain ⟨c, m, d, hact, rfl⟩ := spinStep_eq_some hs
  obtain ⟨hmoves, hset, hdata, hfresh, hkeep⟩ := act_moves (h.set k) (h.fresh k) hact
  refine ⟨?_, hdata⟩
  have hcore : ∀ j, j ≠ k → Function.update w.core k c j = w.core j := fun j hj => Function.update_of_ne hj _ _
  have hself : Function.update w.core k c k = c := Function.update_self ..
  have hsets : ∀ j, (Function.update w.core k c j).Set := by
    intro j
    by_cases hj : j = k
    · rw [hj, hself]
      exact hset
    · rw [hcore j hj]
      exact h.set j
  have hfreshes : ∀ j seen, (Function.update w.core k c j).phase = .loaded seen → seen = d := by
    intro j seen hp
    by_cases hj : j = k
    · rw [hj, hself] at hp
      exact hfresh seen hp
    · rw [hcore j hj] at hp
      obtain hd | hown := hkeep
      · rw [hd]
        exact h.fresh j seen hp
      · exact absurd (h.single j k (by rw [SpinCore.Owns, hp]; trivial) hown) hj
  -- a step that leaves the ownership alone
  have hsame : (c.Owns ↔ (w.core k).Owns) → ∀ j, (Function.update w.core k c j).Owns ↔ (w.core j).Owns := by
    intro ho j
    by_cases hj : j = k
    · rw [hj, hself]
      exact ho
    · rw [hcore j hj]
  have hordered : (c.Owns ↔ (w.core k).Owns) → m.word = w.mem.word →
      m.Tracks (fun j => (Function.update w.core k c j).seen) →
      SpinWorld.Ordered ⟨m, Function.update w.core k c, d⟩ := by
    intro ho hword htracks
    refine ⟨htracks, hsets, ?_, ?_, ?_, hfreshes⟩
    · intro i j hi hj
      exact h.single i j ((hsame ho i).mp hi) ((hsame ho j).mp hj)
    · intro j hj
      rw [hword]
      exact h.taken j ((hsame ho j).mp hj)
    · intro hne
      obtain ⟨j, hj⟩ := h.owned (hword ▸ hne)
      exact ⟨j, (hsame ho j).mpr hj⟩
  cases hmoves with
  | quiet hm ho hs =>
    refine hordered ho (by rw [hm]) (hm ▸ h.tracks.mono fun j v hv => ?_)
    by_cases hj : j = k
    · rw [hj, hself] at hv
      exact hj ▸ hs v hv
    · rwa [hcore j hj] at hv
  | marked hm ho hs =>
    refine hordered ho (by rw [hm, Exclusive.loadx]) (hm ▸ h.tracks.loadx (fun v hv => ?_) fun j hj => ?_)
    · rw [hself] at hv
      exact hs v hv
    · rw [hcore j hj]
  | lost hm ho =>
    refine hordered (by rw [ho]) (by rw [hm, Exclusive.lose]) ?_
    rw [hm, ho, Function.update_eq_self]
    exact h.tracks.lose k
  | acquired hm hmark hs ho ho' =>
    have hzero : 0 = w.mem.word := h.tracks k 0 hmark hs
    have hnone : ∀ j, ¬ (w.core j).Owns := fun j hj => h.taken j hj hzero.symm
    have honly : ∀ j, (Function.update w.core k c j).Owns → j = k := by
      intro j hj
      by_contra hne
      rw [hcore j hne] at hj
      exact hnone j hj
    rw [hm]
    refine ⟨w.mem.tracks_store _ _, hsets, fun i j hi hj => (honly i hi).trans (honly j hj).symm, ?_, ?_, hfreshes⟩
    · intro j hj
      change (1 : BitVec 32) ≠ 0
      decide
    · intro hne
      refine ⟨k, ?_⟩
      change (Function.update w.core k c k).Owns
      rwa [hself]
  | released hm ho ho' =>
    have hnone : ∀ j, ¬ (Function.update w.core k c j).Owns := by
      intro j hj
      by_cases hjk : j = k
      · rw [hjk, hself] at hj
        exact ho' hj
      · rw [hcore j hjk] at hj
        exact hjk (h.single j k hj ho)
    rw [hm]
    exact ⟨w.mem.tracks_store _ _, hsets, fun i j hi => absurd hi (hnone i), fun j hj => absurd hj (hnone j),
      fun hne => absurd rfl hne, hfreshes⟩

omit [DecidableEq K] in
theorem ordered_start (regs : K → BitVec 32 × BitVec 32) (d : D) : (SpinWorld.start regs d).Ordered := by
  refine ⟨fun _ _ h => absurd h Bool.false_ne_true, fun _ => trivial, fun _ _ h => h.elim, fun _ h => h.elim,
    fun h => absurd rfl h, ?_⟩
  intro k seen h
  cases h

theorem SpinWorld.Ordered.run {as : List (K × SpinAction D)} (h : w.Ordered) (hr : Lib.run spinStep w as = some w') :
    w'.Ordered ∧ w'.data = as.foldl applied w.data := by
  induction as generalizing w with
  | nil =>
    obtain rfl : w = w' := by simpa using hr
    exact ⟨h, rfl⟩
  | cons a as ih =>
    obtain ⟨v, hv, hr⟩ := run_cons.mp hr
    obtain ⟨hnext, hdata⟩ := h.step hv
    rw [List.foldl_cons, ← hdata]
    exact ih hnext hr

/-- The core has the guard. -/
def SpinCore.Guarded (c : SpinCore D) : Prop := c.phase = .holding ∨ ∃ seen, c.phase = .loaded seen

omit [DecidableEq K] in
theorem SpinCore.Guarded.owns (h : c.Guarded) : c.Owns := by
  obtain hp | ⟨seen, hp⟩ := h <;> rw [SpinCore.Owns, hp] <;> trivial

/-- However the cores interleave, at most one has the guard, and the data is what the updates make of it, one after the
other. -/
theorem spinlock_exclusive {regs : K → BitVec 32 × BitVec 32} {d : D} {as : List (K × SpinAction D)}
    (h : Lib.run spinStep (.start regs d) as = some w) :
    (∀ j k, (w.core j).Guarded → (w.core k).Guarded → j = k) ∧ w.data = as.foldl applied d := by
  obtain ⟨hordered, hdata⟩ := (ordered_start regs d).run h
  exact ⟨fun j k hj hk => hordered.single j k hj.owns hk.owns, hdata⟩

/-- Two cores that race: the second one's exclusive store fails, and it gets the lock after the first one is through. -/
theorem spinlock_exclusive_sample :
    ∃ w, Lib.run spinStep (.start (fun _ : Bool => (7, 7)) 0)
        ([(false, .call .lock), (true, .call .tryLock), (false, .exec), (true, .exec), (false, .exec), (true, .exec),
          (false, .exec), (true, .exec), (false, .exec), (true, .exec), (false, .exec), (true, .exec), (false, .exec),
          (false, .exec), (false, .load), (false, .store (· + 1)), (false, .call .unlock), (false, .exec), (false, .exec),
          (true, .exec), (true, .exec), (true, .call .lock)] ++ List.replicate 7 (true, .exec) ++
          [(true, .load), (true, .store (· * 5))]) = some w ∧
      (∀ j k, (w.core j).Guarded → (w.core k).Guarded → j = k) ∧ w.data = 5 := by
  refine (Option.isSome_iff_exists.mp ?_).imp fun w h => ⟨h, (spinlock_exclusive h).1, (spinlock_exclusive h).2⟩
  rfl

/-- Core `k` gets the guard by `n` instructions of its own. -/
inductive Alone (k : K) : ℕ → SpinCore D → Exclusive K → Prop
  | held {c : SpinCore D} {m : Exclusive K} (hp : c.phase = .holding) : Alone k 0 c m
  | step {n : ℕ} {c : SpinCore D} {m : Exclusive K} (c' : SpinCore D) (m' : Exclusive K)
    (h : ∀ d, c.act k m d .exec = some (c', m', d)) (hrest : Alone k n c' m') : Alone k (n + 1) c m

theorem Alone.run {n : ℕ} (h : Alone k n (w.core k) w.mem) :
    ∃ w', Lib.run spinStep w (List.replicate n (k, .exec)) = some w' ∧ (w'.core k).phase = .holding := by
  induction n generalizing w with
  | zero =>
    cases h with
    | held hp => exact ⟨w, rfl, hp⟩
  | succ n ih =>
    cases h with
    | step c' m' hstep hrest =>
      have hnext : spinStep w (k, .exec) = some ⟨m', Function.update w.core k c', w.data⟩ := by
        rw [spinStep, hstep]
        rfl
      obtain ⟨w', hrun, hp⟩ := ih (w := ⟨m', Function.update w.core k c', w.data⟩) (by simpa using hrest)
      exact ⟨w', run_cons.mpr ⟨_, hnext, hrun⟩, hp⟩

theorem alone_from_start {res tmp : BitVec 32} (hm : m.word = 0) : Alone k 7 (⟨res, tmp, .running .lock 0⟩ : SpinCore D) m := by
  refine .step ⟨0, tmp, .running .lock 1⟩ (m.loadx k) (fun d => ?_) ?_
  · rw [← hm]
    rfl
  refine .step _ _ (fun d => rfl) (.step _ _ (fun d => rfl) ?_)
  refine .step ⟨0, 1, .running .lock 4⟩ (m.store 1) (fun d => ?_) ?_
  · simp [act_exec, Routine.code, Exclusive.storex, Exclusive.loadx, Exclusive.store]
  · exact .step _ _ (fun d => rfl) (.step _ _ (fun d => rfl) (.step _ _ (fun d => rfl) (.held rfl)))

theorem alone_from_store (res tmp : BitVec 32) (hm : m.word = 0) :
    ∃ n ≤ 9, Alone k n (⟨res, tmp, .running .lock 3⟩ : SpinCore D) m := by
  obtain ⟨-, hst⟩ | hst := m.storex_cases k tmp
  · refine ⟨4, by omega, .step ⟨0, tmp, .running .lock 4⟩ (m.store tmp) (fun d => ?_) ?_⟩
    · simp [act_exec, Routine.code, hst]
    · exact .step _ _ (fun d => rfl) (.step _ _ (fun d => rfl) (.step _ _ (fun d => rfl) (.held rfl)))
  · refine ⟨9, by omega, .step ⟨1, tmp, .running .lock 4⟩ m (fun d => ?_) ?_⟩
    · simp [act_exec, Routine.code, hst]
    · exact .step _ _ (fun d => rfl) (alone_from_start hm)

/-- Wherever a core is in `lock`, it gets the guard within eleven instructions once the word is free and it runs alone. -/
theorem spinlock_progress {regs : K → BitVec 32 × BitVec 32} {d : D} {as : List (K × SpinAction D)} {pc : ℕ}
    (h : Lib.run spinStep (.start regs d) as = some w) (hfree : w.mem.word = 0)
    (hk : (w.core k).phase = .running .lock pc) :
    ∃ n ≤ 11, ∃ w', Lib.run spinStep w (List.replicate n (k, .exec)) = some w' ∧ (w'.core k).phase = .holding := by
  have hordered := ((ordered_start regs d).run h).1
  have hno : ¬ (w.core k).Owns := fun ho => hordered.taken k ho hfree
  suffices ∃ n ≤ 11, Alone k n (w.core k) w.mem by
    obtain ⟨n, hn, halone⟩ := this
    exact ⟨n, hn, halone.run⟩
  generalize w.core k = c at hk hno ⊢
  obtain ⟨res, tmp, phase⟩ := c
  obtain rfl : phase = .running .lock pc := hk
  have hback : ∀ n ≤ 10, ∀ c' : SpinCore D, (∀ d, SpinCore.act k ⟨res, tmp, .running .lock pc⟩ w.mem d .exec =
      some (c', w.mem, d)) → Alone k n c' w.mem → ∃ n ≤ 11, Alone k n ⟨res, tmp, .running .lock pc⟩ w.mem :=
    fun n hn c' hstep hrest => ⟨n + 1, by omega, .step c' w.mem hstep hrest⟩
  obtain rfl | rfl | rfl | rfl | rfl | hpc : pc = 0 ∨ pc = 1 ∨ pc = 2 ∨ pc = 3 ∨ pc = 4 ∨ 5 ≤ pc := by omega
  · exact ⟨7, by omega, alone_from_start hfree⟩
  · by_cases hres : res = 0#32
    · obtain ⟨n, hn, halone⟩ := alone_from_store (k := k) (D := D) res 1 hfree
      refine hback (n + 1) (by omega) ⟨res, tmp, .running .lock 2⟩ (fun d => ?_) (.step _ _ (fun d => rfl) halone)
      simp [act_exec, Routine.code, hres]
    · refine hback 7 (by omega) ⟨res, tmp, .running .lock 0⟩ (fun d => ?_) (alone_from_start hfree)
      simp [act_exec, Routine.code, hres]
  · obtain ⟨n, hn, halone⟩ := alone_from_store (k := k) (D := D) res 1 hfree
    exact hback n (by omega) _ (fun d => rfl) halone
  · obtain ⟨n, hn, halone⟩ := alone_from_store (k := k) (D := D) res tmp hfree
    exact ⟨n, by omega, halone⟩
  · have hres : res ≠ 0#32 := fun hz => hno (Or.inl ⟨rfl, hz⟩)
    refine hback 7 (by omega) ⟨res, tmp, .running .lock 0⟩ (fun d => ?_) (alone_from_start hfree)
    simp [act_exec, Routine.code, hres]
  · exact absurd (Or.inr hpc) hno

/-- A core that was overtaken in `lock` by one that is through. -/
theorem spinlock_progress_sample :
    ∃ w, Lib.run spinStep (.start (fun _ : Bool => (7, 7)) ())
        ([(true, .call .lock), (true, .exec), (true, .exec), (false, .call .lock)] ++ List.replicate 7 (false, .exec) ++
          [(true, .exec), (true, .exec), (false, .call .unlock), (false, .exec), (false, .exec)]) = some w ∧
      ∃ n ≤ 11, ∃ w', Lib.run spinStep w (List.replicate n (true, .exec)) = some w' ∧ (w'.core true).phase = .holding := by
  refine (Option.isSome_iff_exists.mp ?_).imp fun w h => ⟨h, @spinlock_progress _ _ _ true w _ _ _ 4 h ?_ ?_⟩
  · rfl
  · obtain rfl := Option.some.inj h
    rfl
  · obtain rfl := Option.some.inj h
    rfl

end Ownership

end HouseKernel.Smp
