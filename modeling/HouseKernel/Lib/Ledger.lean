import Mathlib.Tactic

/-! Reference counts kept in a partial map. A key without an entry stands for at most one
reference; the first share of such a key records two. `Counts` relates a ledger to the
number of references that there really are. -/
namespace HouseKernel.Lib

/-- The recorded counts. -/
abbrev Ledger (κ : Type*) := κ → Option ℕ

namespace Ledger

variable {κ : Type*} [DecidableEq κ]

/-- Record one more reference. -/
def share (m : Ledger κ) (k : κ) : Ledger κ :=
  Function.update m k (some (match m k with | none => 2 | some n => n+1))

/-- Take one reference back without deciding whether it was the last. -/
def unshare (m : Ledger κ) (k : κ) : Ledger κ :=
  match m k with
  | none => m
  | some n => if n ≤ 1 then Function.update m k none else Function.update m k (some (n-1))

/-- Give one reference up; the flag says that it was the last. -/
def release (m : Ledger κ) (k : κ) : Bool × Ledger κ :=
  match m k with
  | none => (true, m)
  | some n => if n ≤ 1 then (true, Function.update m k none)
      else (false, Function.update m k (some (n-1)))

/-- One entry is right for `c` references. -/
def Fits (e : Option ℕ) (c : ℕ) : Prop :=
  match e with
  | none => c ≤ 1
  | some n => n = c ∧ 1 ≤ n

/-- The ledger counts the references `c`. -/
def Counts (m : Ledger κ) (c : κ → ℕ) : Prop := ∀ k, Fits (m k) (c k)

@[simp] theorem fits_none {c : ℕ} : Fits none c ↔ c ≤ 1 := Iff.rfl

@[simp] theorem fits_some {n c : ℕ} : Fits (some n) c ↔ n = c ∧ 1 ≤ n := Iff.rfl

/-- Writing one entry moves one count. -/
theorem Counts.update {m : Ledger κ} {c c' : κ → ℕ} {k : κ} {e : Option ℕ} (h : Counts m c)
    (he : Fits e (c' k)) (hc : ∀ j, j ≠ k → c' j = c j) : Counts (Function.update m k e) c' := by
  intro j
  by_cases hj : j = k
  · subst hj
    simpa using he
  · rw [Function.update_of_ne hj, hc j hj]
    exact h j

theorem Counts.share {m : Ledger κ} {c c' : κ → ℕ} {k : κ} (h : Counts m c) (hk : 1 ≤ c k)
    (hc : c' k = c k + 1) (hne : ∀ j, j ≠ k → c' j = c j) : Counts (m.share k) c' := by
  apply h.update _ hne
  have hfit := h k
  cases hm : m k with
  | none =>
    simp only [hm, fits_none] at hfit
    simp only [fits_some]
    omega
  | some n =>
    simp only [hm, fits_some] at hfit
    simp only [fits_some]
    omega

/-- Giving up a reference: the flag is right, and the ledger keeps counting. -/
theorem Counts.release {m : Ledger κ} {c c' : κ → ℕ} {k : κ} (h : Counts m c) (hk : 1 ≤ c k)
    (hc : c' k + 1 = c k) (hne : ∀ j, j ≠ k → c' j = c j) :
    ((m.release k).1 = true ↔ c' k = 0) ∧ Counts (m.release k).2 c' := by
  have hfit := h k
  unfold Ledger.release
  cases hm : m k with
  | none =>
    simp only [hm, fits_none] at hfit
    refine ⟨by simp; omega, fun j => ?_⟩
    by_cases hj : j = k
    · subst hj
      simp only [hm, fits_none]
      omega
    · rw [hne j hj]
      exact h j
  | some n =>
    simp only [hm, fits_some] at hfit
    simp only
    split_ifs with hn
    · exact ⟨by simp; omega, h.update (by simp; omega) hne⟩
    · exact ⟨by simp; omega, h.update (by simp; omega) hne⟩

/-- What a share does to its entry. -/
def shareEntry : Option ℕ → Option ℕ
  | none => some 2
  | some n => some (n+1)

/-- What giving a reference back does to its entry. -/
def dropEntry : Option ℕ → Option ℕ
  | none => none
  | some n => if n ≤ 1 then none else some (n-1)

theorem share_eq (m : Ledger κ) (k : κ) : m.share k = Function.update m k (shareEntry (m k)) := by
  unfold share shareEntry
  cases m k <;> rfl

theorem unshare_eq (m : Ledger κ) (k : κ) : m.unshare k = Function.update m k (dropEntry (m k)) := by
  unfold unshare dropEntry
  cases hm : m k with
  | none => exact (Function.update_eq_self_iff.mpr hm.symm).symm
  | some n =>
    simp only
    split_ifs <;> rfl

theorem release_eq (m : Ledger κ) (k : κ) : (m.release k).2 = Function.update m k (dropEntry (m k)) := by
  unfold release dropEntry
  cases hm : m k with
  | none => exact (Function.update_eq_self_iff.mpr hm.symm).symm
  | some n =>
    simp only
    split_ifs <;> rfl

/-- A run of updates acts on an entry as often as its key occurs. -/
theorem foldl_update (f : Option ℕ → Option ℕ) (ks : List κ) (m : Ledger κ) (j : κ) :
    ks.foldl (fun m k => Function.update m k (f (m k))) m j = f^[ks.count j] (m j) := by
  induction ks generalizing m with
  | nil => rfl
  | cons k ks ih =>
    rw [List.foldl_cons, ih]
    by_cases hk : k = j
    · subst hk
      rw [Function.update_self, List.count_cons_self, Function.iterate_succ_apply]
    · rw [Function.update_of_ne (Ne.symm hk), List.count_cons_of_ne hk]

theorem shareEntry_iterate (n c : ℕ) : shareEntry^[c] (some n) = some (n+c) := by
  induction c with
  | zero => rfl
  | succ c ih => rw [Function.iterate_succ_apply', ih, shareEntry, Nat.add_assoc]

theorem dropEntry_iterate {n c : ℕ} (h : c < n) : dropEntry^[c] (some n) = some (n-c) := by
  induction c with
  | zero => rfl
  | succ c ih =>
    rw [Function.iterate_succ_apply', ih (by omega), dropEntry, if_neg (by omega), Nat.sub_sub]

/-- An entry that dropped at least once is smaller or gone. -/
theorem dropEntry_iterate_ne {n c : ℕ} (hc : c ≠ 0) : dropEntry^[c] (some n) ≠ some n := by
  have hlt : ∀ c, dropEntry^[c+1] (some n) = none ∨ ∃ k < n, dropEntry^[c+1] (some n) = some k := by
    intro c
    induction c with
    | zero =>
      simp only [Nat.zero_add, Function.iterate_one, dropEntry]
      split_ifs with h1
      · exact Or.inl rfl
      · exact Or.inr ⟨n-1, by omega, rfl⟩
    | succ c ih =>
      rw [Function.iterate_succ_apply']
      obtain ih | ⟨k, hk, ih⟩ := ih
      · exact Or.inl (by rw [ih]; rfl)
      · rw [ih, dropEntry]
        split_ifs
        · exact Or.inl rfl
        · exact Or.inr ⟨k-1, by omega, rfl⟩
  obtain ⟨c, rfl⟩ := Nat.exists_eq_succ_of_ne_zero hc
  obtain h | ⟨k, hk, h⟩ := hlt c
  · rw [h]
    simp
  · rw [h]
    simp only [ne_eq, Option.some.injEq]
    omega

/-- Sharing `c` times and giving back `2c` references is invisible exactly when nothing was shared
or the entry was absent. -/
theorem share_drop_drop {e : Option ℕ} {c : ℕ} (hnone : e = none → c ≤ 1) (hsome : ∀ n, e = some n → 1 ≤ n) :
    dropEntry^[c] (dropEntry^[c] (shareEntry^[c] e)) = e ↔ c = 0 ∨ e = none := by
  cases e with
  | none =>
    obtain rfl | rfl : c = 0 ∨ c = 1 := by
      have := hnone rfl
      omega
    · simp
    · simp [shareEntry, dropEntry]
  | some n =>
    have hn := hsome n rfl
    rw [shareEntry_iterate, dropEntry_iterate (by omega), Nat.add_sub_cancel]
    constructor
    · intro h
      by_contra hc
      exact dropEntry_iterate_ne (by tauto) h
    · rintro (rfl | h)
      · rfl
      · cases h

end Ledger

end HouseKernel.Lib
