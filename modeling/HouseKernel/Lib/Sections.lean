import HouseKernel.Lib.Run
import Mathlib.Data.Set.Lattice
import Mathlib.Logic.Function.Basic
import Mathlib.Order.CompletePartialOrder

/-! Threads that work on one shared state in sections. A section runs alone; between two sections of
a thread any sections of the others may come. The outside answers each section. A thread may start
another one, stop one, and go on as one of the entries of the program, which is how a loop is written.

Resources are what a thread may hold. What a thread needs of the others is only that they leave alone
what it holds, so a program is judged by itself: `Owns` follows it section by section with what it
holds, and `Owned.step` says that judged programs can run side by side. -/
namespace HouseKernel.Lib

/-- What is left of a thread that yields an `α`. -/
inductive Code (σ ι κ α : Type)
  | done (a : α)
  | act (next : ι → σ → σ) (rest : ι → σ → Code σ ι κ α)
  | fork (entry : κ) (rest : ℕ → Code σ ι κ α)
  | kill (tid : ℕ) (rest : Code σ ι κ α)
  | goto (entry : κ)

namespace Code
variable {σ ι κ α β : Type}

def bind : Code σ ι κ α → (α → Code σ ι κ β) → Code σ ι κ β
  | done a, k => k a
  | act next rest, k => act next fun i s => (rest i s).bind k
  | fork c rest, k => fork c fun t => (rest t).bind k
  | kill t rest, k => kill t (rest.bind k)
  | goto c, _ => goto c

instance : Monad (Code σ ι κ) where
  pure := done
  bind := bind

/-- One section: a function of the answer and the state. -/
def atomic (f : ι → σ → α × σ) : Code σ ι κ α :=
  act (fun i s => (f i s).2) fun i s => done (f i s).1

end Code

/-- The shared state, the threads by number, and the number of the next thread. -/
structure Machine (σ ι κ : Type) where
  shared : σ
  threads : ℕ → Option (Code σ ι κ Unit)
  fresh : ℕ

inductive Turn (ι κ : Type)
  | start (entry : κ)
  | run (tid : ℕ) (answer : ι)

section Steps
variable {σ ι κ : Type} (entry : κ → Code σ ι κ Unit)

def Machine.set (m : Machine σ ι κ) (tid : ℕ) (c : Option (Code σ ι κ Unit)) : Machine σ ι κ :=
  { m with threads := Function.update m.threads tid c }

def Machine.spawn (m : Machine σ ι κ) (c : κ) : Machine σ ι κ :=
  { m.set m.fresh (some (entry c)) with fresh := m.fresh + 1 }

def turn (m : Machine σ ι κ) : Turn ι κ → Option (Machine σ ι κ)
  | .start c => some (m.spawn entry c)
  | .run tid i =>
    match m.threads tid with
    | none => none
    | some (.done _) => some (m.set tid none)
    | some (.act next rest) => some { m.set tid (some (rest i m.shared)) with shared := next i m.shared }
    | some (.fork c rest) => some ((m.spawn entry c).set tid (some (rest m.fresh)))
    | some (.kill t rest) => some ((m.set tid (some rest)).set t none)
    | some (.goto c) => some (m.set tid (some (entry c)))

def Machine.init (s : σ) : Machine σ ι κ := ⟨s, fun _ => none, 0⟩

end Steps

/-- What a shared state says of resources: which of them exist, which it holds itself, when the
state is in order, and what a section may make of a state. -/
structure Resources (σ P : Type) where
  ok : σ → Prop
  live : σ → Set P
  held : σ → Set P
  moves : σ → σ → Prop

namespace Resources
variable {σ ι κ α β P : Type} (W : Resources σ P) {R R' : Set P} {s s' : σ}

/-- A thread that holds `R` holds what exists and what the state does not hold. -/
structure Holds (R : Set P) (s : σ) : Prop where
  ok : W.ok s
  shared : W.held s ⊆ W.live s
  own : R ⊆ W.live s
  apart : Disjoint (W.held s) R

/-- A section of a thread that holds `R` before and `R'` after: what the others hold stays theirs. -/
structure Passes (R : Set P) (s : σ) (R' : Set P) (s' : σ) : Prop where
  holds : W.Holds R' s'
  moves : W.moves s s'
  frame : ∀ p ∈ W.live s, p ∉ W.held s → p ∉ R → p ∈ W.live s' ∧ p ∉ W.held s' ∧ p ∉ R'

/-- Every section of the program keeps the shared state in order and leaves alone what the others
hold; a result comes with what `Q` says that the thread then holds. -/
def Owns : Set P → Code σ ι κ α → (α → Set P → Prop) → Prop
  | R, .done a, Q => Q a R
  | R, .act next rest, Q => ∀ i s, W.Holds R s → ∃ R', W.Passes R s R' (next i s) ∧ Owns R' (rest i s) Q
  | R, .fork _ rest, Q => ∀ t, Owns R (rest t) Q
  | R, .kill _ rest, Q => Owns R rest Q
  | _, .goto _, _ => True

variable {W}

@[simp] theorem owns_pure {a : α} {Q : α → Set P → Prop} :
    W.Owns R (pure a : Code σ ι κ α) Q ↔ Q a R := Iff.rfl

/-- The rule of sequence. -/
theorem Owns.bind {c : Code σ ι κ α} {k : α → Code σ ι κ β} {Q : β → Set P → Prop}
    (h : W.Owns R c fun a R' => W.Owns R' (k a) Q) : W.Owns R (c >>= k) Q := by
  induction c generalizing R with
  | done a => exact h
  | act next rest ih =>
    intro i s hs
    obtain ⟨R', hpass, hrest⟩ := h i s hs
    exact ⟨R', hpass, ih i s hrest⟩
  | fork c rest ih => exact fun t => ih t (h t)
  | kill t rest ih => exact ih h
  | goto c => trivial

/-- The rule of consequence. -/
theorem Owns.mono {c : Code σ ι κ α} {Q Q' : α → Set P → Prop} (h : W.Owns R c Q)
    (hQ : ∀ a R, Q a R → Q' a R) : W.Owns R c Q' := by
  induction c generalizing R with
  | done a => exact hQ a R h
  | act next rest ih =>
    intro i s hs
    obtain ⟨R', hpass, hrest⟩ := h i s hs
    exact ⟨R', hpass, ih i s hrest⟩
  | fork c rest ih => exact fun t => ih t (h t)
  | kill t rest ih => exact ih h
  | goto c => trivial

/-- A step of a program: the first part with its own result, then the rest. -/
theorem Owns.seq {c : Code σ ι κ α} {k : α → Code σ ι κ β} {M : α → Set P → Prop} {Q : β → Set P → Prop}
    (h : W.Owns R c M) (hk : ∀ a R', M a R' → W.Owns R' (k a) Q) : W.Owns R (c >>= k) Q :=
  Owns.bind (h.mono hk)

theorem owns_atomic {f : ι → σ → α × σ} {Q : α → Set P → Prop}
    (h : ∀ i s, W.Holds R s → ∃ R', W.Passes R s R' (f i s).2 ∧ Q (f i s).1 R') :
    W.Owns R (Code.atomic f : Code σ ι κ α) Q := h

/-- A section that changes nothing passes with any part of what it holds. -/
theorem Passes.refl (h : W.Holds R s) (hmoves : W.moves s s) (hR : R' ⊆ R) : W.Passes R s R' s where
  holds := ⟨h.ok, h.shared, hR.trans h.own, h.apart.mono_right hR⟩
  moves := hmoves
  frame := fun _ hlive hheld hp => ⟨hlive, hheld, fun h => hp (hR h)⟩

/-- All threads are judged, and no two of them hold the same. -/
structure Owned (W : Resources σ P) (own : ℕ → Set P) (m : Machine σ ι κ) : Prop where
  holds : ∀ t, W.Holds (own t) m.shared
  apart : ∀ t u, t ≠ u → Disjoint (own t) (own u)
  code : ∀ t c, m.threads t = some c → W.Owns (own t) c fun _ _ => True
  below : ∀ t, m.fresh ≤ t → m.threads t = none

variable {own : ℕ → Set P} {m m' : Machine σ ι κ} {entry : κ → Code σ ι κ Unit}

theorem Owned.init (hok : W.ok s) (hheld : W.held s ⊆ W.live s) :
    Owned W (fun _ => ∅) (Machine.init s : Machine σ ι κ) where
  holds := fun _ => ⟨hok, hheld, Set.empty_subset _, Set.disjoint_empty _⟩
  apart := fun _ _ _ => Set.disjoint_empty _
  code := fun _ _ h => by simp [Machine.init] at h
  below := fun _ _ => rfl

theorem Owned.lt (h : Owned W own m) {t : ℕ} {c : Code σ ι κ Unit} (ht : m.threads t = some c) : t < m.fresh := by
  by_contra hge
  rw [h.below t (by omega)] at ht
  cases ht

/-- The judgements of the threads after one of them is put to other code. -/
theorem Owned.code_set (h : Owned W own m) {tid : ℕ} {c : Option (Code σ ι κ Unit)}
    (hc : ∀ c', c = some c' → W.Owns R c' fun _ _ => True) :
    ∀ t c', Function.update m.threads tid c t = some c' → W.Owns (Function.update own tid R t) c' fun _ _ => True := by
  refine (Function.forall_update_iff m.threads (p := fun t oc => ∀ c', oc = some c' →
    W.Owns (Function.update own tid R t) c' fun _ _ => True)).mpr ⟨?_, fun t ht => ?_⟩
  · rwa [Function.update_self]
  · rw [Function.update_of_ne ht]
    exact h.code t

theorem update_subset {own : ℕ → Set P} {tid : ℕ} (hR : R ⊆ own tid) (t : ℕ) :
    Function.update own tid R t ⊆ own t := by
  obtain rfl | ht := eq_or_ne t tid
  · rwa [Function.update_self]
  · rw [Function.update_of_ne ht]

/-- A thread may be put to code that is judged with a part of what the thread held. -/
theorem Owned.set (h : Owned W own m) {tid : ℕ} {c : Option (Code σ ι κ Unit)} (hR : R ⊆ own tid)
    (hc : ∀ c', c = some c' → W.Owns R c' fun _ _ => True) (hlt : tid < m.fresh ∨ c = none) :
    Owned W (Function.update own tid R) (m.set tid c) where
  holds := fun t => ⟨(h.holds t).ok, (h.holds t).shared, (update_subset hR t).trans (h.holds t).own,
    (h.holds t).apart.mono_right (update_subset hR t)⟩
  apart := fun t u htu => (h.apart t u htu).mono (update_subset hR t) (update_subset hR u)
  code := h.code_set hc
  below := (Function.forall_update_iff m.threads (p := fun t oc => m.fresh ≤ t → oc = none)).mpr
    ⟨fun hge => hlt.resolve_left (by omega), fun t _ => h.below t⟩

/-- A new thread holds nothing. -/
theorem Owned.spawn (h : Owned W own m) (hentry : ∀ c, W.Owns ∅ (entry c) fun _ _ => True) (c : κ) :
    Owned W (Function.update own m.fresh ∅) (m.spawn entry c) where
  holds := fun t => ⟨(h.holds t).ok, (h.holds t).shared, (update_subset (Set.empty_subset _) t).trans (h.holds t).own,
    (h.holds t).apart.mono_right (update_subset (Set.empty_subset _) t)⟩
  apart := fun t u htu => (h.apart t u htu).mono (update_subset (Set.empty_subset _) t) (update_subset (Set.empty_subset _) u)
  code := h.code_set fun c' hc' => Option.some.inj hc' ▸ hentry c
  below := (Function.forall_update_iff m.threads (p := fun t oc => m.fresh + 1 ≤ t → oc = none)).mpr
    ⟨fun hge => by omega, fun t _ hge => h.below t (by omega)⟩

/-- A section of one thread leaves the others with what they hold. -/
theorem Owned.act (h : Owned W own m) {tid : ℕ} {c : Code σ ι κ Unit} (hlt : tid < m.fresh)
    (hpass : W.Passes (own tid) m.shared R s') (hc : W.Owns R c fun _ _ => True) :
    Owned W (Function.update own tid R) { m.set tid (some c) with shared := s' } := by
  have hother : ∀ t, t ≠ tid → ∀ p ∈ own t, p ∈ W.live s' ∧ p ∉ W.held s' ∧ p ∉ R := fun t ht p hp =>
    hpass.frame p ((h.holds t).own hp) (Set.disjoint_right.mp (h.holds t).apart hp)
      (Set.disjoint_left.mp (h.apart t tid ht) hp)
  refine ⟨?_, fun t u htu => ?_, h.code_set fun c' hc' => Option.some.inj hc' ▸ hc, ?_⟩
  · refine (Function.forall_update_iff own (p := fun _ R => W.Holds R s')).mpr ⟨hpass.holds, fun t ht => ?_⟩
    exact ⟨hpass.holds.ok, hpass.holds.shared, fun p hp => (hother t ht p hp).1,
      Set.disjoint_right.mpr fun p hp => (hother t ht p hp).2.1⟩
  · obtain rfl | ht := eq_or_ne t tid
    · rw [Function.update_self, Function.update_of_ne htu.symm]
      exact Set.disjoint_right.mpr fun p hp => (hother u htu.symm p hp).2.2
    · rw [Function.update_of_ne ht]
      obtain rfl | hu := eq_or_ne u tid
      · rw [Function.update_self]
        exact Set.disjoint_left.mpr fun p hp => (hother t ht p hp).2.2
      · rw [Function.update_of_ne hu]
        exact h.apart t u htu
  · exact (Function.forall_update_iff m.threads (p := fun t oc => m.fresh ≤ t → oc = none)).mpr
      ⟨fun hge => by omega, fun t _ => h.below t⟩

/-- Judged programs can run side by side: no turn of any thread ends what all of them keep. -/
theorem Owned.step (hentry : ∀ c, W.Owns ∅ (entry c) fun _ _ => True) {a : Turn ι κ} (h : Owned W own m)
    (hs : turn entry m a = some m') : (∃ own', Owned W own' m') ∧ (m'.shared = m.shared ∨ W.moves m.shared m'.shared) := by
  cases a with
  | start c =>
    obtain rfl := Option.some.inj hs
    exact ⟨⟨_, h.spawn hentry c⟩, .inl rfl⟩
  | run tid i =>
    simp only [turn] at hs
    cases hc : m.threads tid with
    | none => simp [hc] at hs
    | some c =>
      have hcode := h.code tid c hc
      have hlt := h.lt hc
      cases c with
      | done u =>
        simp only [hc] at hs
        obtain rfl := Option.some.inj hs
        exact ⟨⟨_, h.set subset_rfl (fun c' hc' => by cases hc') (.inr rfl)⟩, .inl rfl⟩
      | act next rest =>
        simp only [hc] at hs
        obtain rfl := Option.some.inj hs
        obtain ⟨R', hpass, hrest⟩ := hcode i m.shared (h.holds tid)
        exact ⟨⟨_, h.act hlt hpass hrest⟩, .inr hpass.moves⟩
      | fork c rest =>
        simp only [hc] at hs
        obtain rfl := Option.some.inj hs
        have hown : Function.update own m.fresh ∅ tid = own tid := Function.update_of_ne hlt.ne _ _
        refine ⟨⟨_, (h.spawn hentry c).set hown.symm.subset (fun c' hc' => ?_) (.inl (Nat.lt_succ_of_lt hlt))⟩, .inl rfl⟩
        exact Option.some.inj hc' ▸ hcode m.fresh
      | kill t rest =>
        simp only [hc] at hs
        obtain rfl := Option.some.inj hs
        have hset := h.set (c := some rest) subset_rfl (fun c' hc' => Option.some.inj hc' ▸ hcode) (.inl hlt)
        exact ⟨⟨_, hset.set subset_rfl (fun c' hc' => by cases hc') (.inr rfl)⟩, .inl rfl⟩
      | goto c =>
        simp only [hc] at hs
        obtain rfl := Option.some.inj hs
        exact ⟨⟨_, h.set (Set.empty_subset _) (fun c' hc' => Option.some.inj hc' ▸ hentry c) (.inl hlt)⟩, .inl rfl⟩

section Runs

/-- Judged programs side by side: each shared state of a run is in order and holds only what exists. -/
theorem owned_throughout (hentry : ∀ c, W.Owns ∅ (entry c) fun _ _ => True) (hok : W.ok s) (hheld : W.held s ⊆ W.live s)
    (as : List (Turn ι κ)) : Throughout (turn entry) (fun m => W.Holds ∅ m.shared) (Machine.init s) as := by
  have hstep : ∀ (m : Machine σ ι κ) a m', (∃ own, Owned W own m) → True → turn entry m a = some m' →
      ∃ own, Owned W own m' := by
    rintro m a m' ⟨own, ho⟩ - hs
    exact (ho.step hentry hs).1
  intro bs _ m hrun
  obtain ⟨own, ho⟩ := run_invariant hstep ⟨_, .init hok hheld⟩ (along_of_forall (fun _ _ => trivial) _ bs) hrun
  have hm := ho.holds m.fresh
  exact ⟨hm.ok, hm.shared, Set.empty_subset _, Set.disjoint_empty _⟩

/-- Every step of such a run moves the shared state as a section may. -/
theorem owned_moves (hentry : ∀ c, W.Owns ∅ (entry c) fun _ _ => True) (hok : W.ok s) (hheld : W.held s ⊆ W.live s)
    (hrefl : ∀ s, W.moves s s) (as : List (Turn ι κ)) :
    Along (turn entry) (fun m a => ∀ m', turn entry m a = some m' → W.moves m.shared m'.shared) (Machine.init s) as := by
  refine along_of_invariant (A := fun _ => True) (I := fun m : Machine σ ι κ => ∃ own, Owned W own m)
    (G := fun _ _ => True) ?_ ?_ (fun _ _ => trivial) ⟨_, .init hok hheld⟩ (along_of_forall (fun _ _ => trivial) _ as)
  · rintro m a m' - ⟨own, ho⟩ - hs
    exact (ho.step hentry hs).1
  · rintro m a - ⟨own, ho⟩ - m' hs
    obtain heq | hmoves := (ho.step hentry hs).2
    · rw [heq]
      exact hrefl _
    · exact hmoves

end Runs

end Resources
end HouseKernel.Lib
