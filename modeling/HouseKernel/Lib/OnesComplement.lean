import Mathlib.Tactic

/-! Sums in ones' complement, where a carry out of the largest word goes back in at the bottom. Such a sum keeps
the remainder by the largest word, and it is zero only if all words are. -/
namespace HouseKernel.Lib

variable {M a b : ℕ} {us vs ws : List ℕ}

/-- Add two words, of which `M` is the largest, and the carry. -/
def carryAdd (M a b : ℕ) : ℕ := if a + b ≤ M then a + b else a + b - M

def carrySum (M : ℕ) (ws : List ℕ) : ℕ := ws.foldl (carryAdd M) 0

theorem carryAdd_le (ha : a ≤ M) (hb : b ≤ M) : carryAdd M a b ≤ M := by
  unfold carryAdd
  split_ifs with h
  · exact h
  · omega

theorem carryAdd_modEq (M a b : ℕ) : carryAdd M a b ≡ a + b [MOD M] := by
  unfold carryAdd
  split_ifs with h
  · exact Nat.ModEq.refl _
  · exact (Nat.modEq_iff_dvd' (Nat.sub_le _ _)).mpr (by simp [Nat.sub_sub_self (by omega : M ≤ a + b)])

theorem carryAdd_eq_zero : carryAdd M a b = 0 ↔ a + b = 0 := by
  unfold carryAdd
  split_ifs with h
  · exact Iff.rfl
  · omega

/-- What the loop keeps: the bound, the remainder, and whether anything was added. -/
theorem foldl_carryAdd (ha : a ≤ M) (hws : ∀ w ∈ ws, w ≤ M) :
    ws.foldl (carryAdd M) a ≤ M ∧ ws.foldl (carryAdd M) a ≡ a + ws.sum [MOD M] ∧
      (ws.foldl (carryAdd M) a = 0 ↔ a + ws.sum = 0) := by
  induction ws generalizing a with
  | nil => exact ⟨ha, Nat.ModEq.refl _, Iff.rfl⟩
  | cons w ws ih =>
    obtain ⟨hw, hws⟩ := List.forall_mem_cons.mp hws
    obtain ⟨hle, hmod, hzero⟩ := ih (carryAdd_le ha hw) hws
    rw [List.foldl_cons, List.sum_cons, ← Nat.add_assoc]
    refine ⟨hle, hmod.trans ((carryAdd_modEq M a w).add_right _), hzero.trans ?_⟩
    rw [Nat.add_eq_zero_iff, Nat.add_eq_zero_iff, carryAdd_eq_zero]

theorem carrySum_le (hws : ∀ w ∈ ws, w ≤ M) : carrySum M ws ≤ M := (foldl_carryAdd (Nat.zero_le M) hws).1

theorem carrySum_modEq (hws : ∀ w ∈ ws, w ≤ M) : carrySum M ws ≡ ws.sum [MOD M] := by
  have h := (foldl_carryAdd (Nat.zero_le M) hws).2.1
  rwa [Nat.zero_add] at h

theorem carrySum_eq_zero (hws : ∀ w ∈ ws, w ≤ M) : carrySum M ws = 0 ↔ ws.sum = 0 := by
  have h := (foldl_carryAdd (Nat.zero_le M) hws).2.2
  rwa [Nat.zero_add] at h

/-- A sum is the largest word when the words sum up to a multiple of it, other than zero. -/
theorem carrySum_eq_max_iff (hM : 0 < M) (hws : ∀ w ∈ ws, w ≤ M) : carrySum M ws = M ↔ M ∣ ws.sum ∧ ws.sum ≠ 0 := by
  have hle := carrySum_le hws
  have hmod : carrySum M ws % M = ws.sum % M := carrySum_modEq hws
  rw [Nat.dvd_iff_mod_eq_zero, ← hmod, ne_eq, ← carrySum_eq_zero hws]
  constructor
  · intro h
    exact ⟨by rw [h, Nat.mod_self], by omega⟩
  · rintro ⟨hdvd, hne⟩
    obtain hlt | heq := Nat.lt_or_eq_of_le hle
    · exact absurd ((Nat.mod_eq_of_lt hlt).symm.trans hdvd) hne
    · exact heq

/-- With the complement of the sum in the place of a zero, the words sum up to the largest one. -/
theorem carrySum_complement (hM : 0 < M) (hus : ∀ w ∈ us, w ≤ M) (hvs : ∀ w ∈ vs, w ≤ M) :
    carrySum M (us ++ (M - carrySum M (us ++ 0 :: vs)) :: vs) = M := by
  have hzero : ∀ w ∈ us ++ 0 :: vs, w ≤ M := by
    simp only [List.mem_append, List.mem_cons]
    rintro w (hw | rfl | hw)
    · exact hus w hw
    · exact Nat.zero_le M
    · exact hvs w hw
  have hle := carrySum_le hzero
  have hmod : carrySum M (us ++ 0 :: vs) % M = (us ++ 0 :: vs).sum % M := carrySum_modEq hzero
  have hnull := carrySum_eq_zero hzero
  have hsum : (us ++ 0 :: vs).sum = us.sum + vs.sum := by simp
  rw [hsum] at hmod hnull
  generalize carrySum M (us ++ 0 :: vs) = c at hle hmod hnull
  have hwords : ∀ w ∈ us ++ (M - c) :: vs, w ≤ M := by
    simp only [List.mem_append, List.mem_cons]
    rintro w (hw | rfl | hw)
    · exact hus w hw
    · exact Nat.sub_le M c
    · exact hvs w hw
  rw [carrySum_eq_max_iff hM hwords, List.sum_append, List.sum_cons]
  refine ⟨?_, fun h => ?_⟩
  · have htotal : us.sum + (M - c + vs.sum) + c = us.sum + vs.sum + M := by omega
    have hcongr : us.sum + (M - c + vs.sum) + c ≡ 0 + c [MOD M] := by
      rw [htotal, Nat.zero_add]
      exact (Nat.add_mod_right _ _).trans hmod.symm
    exact (Nat.modEq_zero_iff_dvd).mp (Nat.ModEq.add_right_cancel' c hcongr)
  · omega

end HouseKernel.Lib
