import Mathlib.Tactic

/-! A word in memory with the exclusive monitors of the cores. An exclusive load marks the word for its core, every store
to it takes all marks away, and an exclusive store takes place only under a mark: the word is then the one that the core
saw. -/
namespace HouseKernel.Lib

/-- The word, and the cores whose mark on it still stands. -/
structure Exclusive (K : Type*) where
  word : BitVec 32
  marks : K → Bool

namespace Exclusive

variable {K : Type*}

def store (_ : Exclusive K) (v : BitVec 32) : Exclusive K := ⟨v, fun _ => false⟩

/-- A store that fails unless the mark stands. -/
def storex (m : Exclusive K) (k : K) (v : BitVec 32) : Bool × Exclusive K :=
  if m.marks k = true then (true, m.store v) else (false, m)

/-- A core whose mark stands saw the word that is there. -/
def Tracks (m : Exclusive K) (seen : K → Option (BitVec 32)) : Prop :=
  ∀ k v, m.marks k = true → seen k = some v → v = m.word

variable {m : Exclusive K} {seen seen' : K → Option (BitVec 32)} {k : K}

theorem storex_cases (m : Exclusive K) (k : K) (v : BitVec 32) :
    m.marks k = true ∧ m.storex k v = (true, m.store v) ∨ m.storex k v = (false, m) := by
  by_cases h : m.marks k = true
  · exact Or.inl ⟨h, if_pos h⟩
  · exact Or.inr (if_neg h)

theorem tracks_store (m : Exclusive K) (v : BitVec 32) (seen : K → Option (BitVec 32)) : (m.store v).Tracks seen :=
  fun _ _ h => nomatch h

/-- What a core forgets does no harm. -/
theorem Tracks.mono (h : m.Tracks seen) (hseen : ∀ k v, seen' k = some v → seen k = some v) : m.Tracks seen' :=
  fun k v hm hk => h k v hm (hseen k v hk)

variable [DecidableEq K]

def loadx (m : Exclusive K) (k : K) : Exclusive K := { m with marks := Function.update m.marks k true }

/-- A mark can be lost at any time. -/
def lose (m : Exclusive K) (k : K) : Exclusive K := { m with marks := Function.update m.marks k false }

theorem Tracks.lose (h : m.Tracks seen) (k : K) : (m.lose k).Tracks seen := by
  intro j v hm hj
  by_cases hjk : j = k
  · simp [Exclusive.lose, hjk] at hm
  · have hm' : m.marks j = true := by simpa [Exclusive.lose, hjk] using hm
    exact h j v hm' hj

/-- After an exclusive load the core saw the word, and the others what they saw before. -/
theorem Tracks.loadx (h : m.Tracks seen) (hk : ∀ v, seen' k = some v → v = m.word)
    (hseen : ∀ j, j ≠ k → seen' j = seen j) : (m.loadx k).Tracks seen' := by
  intro j v hm hj
  by_cases hjk : j = k
  · subst hjk
    exact hk v hj
  · have hm' : m.marks j = true := by simpa [Exclusive.loadx, hjk] using hm
    exact h j v hm' (hseen j hjk ▸ hj)

end Exclusive

end HouseKernel.Lib
