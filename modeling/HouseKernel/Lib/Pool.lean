import Mathlib.Data.List.Perm.Lattice
import Mathlib.Data.List.Nodup

/-! A pool of items. At any time each of its items is either free or given out, which is said by
one permutation; whatever the pool does with the order of its free items, what follows from the
permutation is all that its users rely on. -/
namespace HouseKernel.Lib

variable {α : Type*} {all free free' held : List α} {a : α}

/-- The items of `all` are those of `free` and those of `held`, each on one side. -/
def Split (all free held : List α) : Prop := (free ++ held).Perm all

theorem split_full (all : List α) : Split all all [] := by
  rw [Split, List.append_nil]

namespace Split

theorem take (h : Split all free held) (hfree : free.Perm (a :: free')) : Split all free' (a :: held) :=
  List.perm_middle.trans ((hfree.symm.append_right held).trans h)

theorem give [DecidableEq α] (h : Split all free held) (ha : a ∈ held) : Split all (a :: free) (held.erase a) := by
  have hback : (free ++ a :: held.erase a).Perm (free ++ held) :=
    (List.perm_cons_erase ha).symm.append_left free
  exact (List.perm_middle.symm.trans hback).trans h

theorem length (h : Split all free held) : free.length + held.length = all.length := by
  have := List.Perm.length_eq h
  rwa [List.length_append] at this

theorem nodup (h : Split all free held) (hall : all.Nodup) : (free ++ held).Nodup :=
  (List.Perm.nodup_iff h).mpr hall

theorem notMem_held (h : Split all free held) (hall : all.Nodup) (ha : a ∈ free) : a ∉ held :=
  List.disjoint_left.mp (List.disjoint_of_nodup_append (h.nodup hall)) ha

theorem notMem_free (h : Split all free held) (hall : all.Nodup) (ha : a ∈ held) : a ∉ free :=
  fun hf => h.notMem_held hall hf ha

theorem mem_all (h : Split all free held) (ha : a ∈ free) : a ∈ all :=
  (List.Perm.mem_iff h).mp (List.mem_append_left held ha)

theorem held_mem_all (h : Split all free held) (ha : a ∈ held) : a ∈ all :=
  (List.Perm.mem_iff h).mp (List.mem_append_right free ha)

/-- Nothing is left exactly when everything has been given out. -/
theorem exhausted (h : Split all free held) : free = [] ↔ held.length = all.length := by
  rw [← List.length_eq_zero_iff, ← h.length]
  omega

end Split

section Exhaust

variable {σ : Type*} {draw : σ → Option α × σ}

/-- Draw until nothing is handed out any more, at most as often as the fuel allows: what was
handed out, and the state in which the last draw was made. -/
def exhaust (draw : σ → Option α × σ) : ℕ → σ → List α × σ
  | 0, s => ([], s)
  | fuel + 1, s =>
    match draw s with
    | (none, _) => ([], s)
    | (some a, t) => (a :: (exhaust draw fuel t).1, (exhaust draw fuel t).2)

/-- When `I s n` says that `n` draws are left in `s`, exactly `n` of them succeed. -/
theorem exhaust_length {I : σ → ℕ → Prop}
    (hsome : ∀ s n, I s (n + 1) → ∃ a t, draw s = (some a, t) ∧ I t n)
    (hnone : ∀ s, I s 0 → (draw s).1 = none) {s : σ} {n fuel : ℕ} (h : I s n) (hfuel : n ≤ fuel) :
    (exhaust draw fuel s).1.length = n ∧ (draw (exhaust draw fuel s).2).1 = none := by
  induction n generalizing s fuel with
  | zero =>
    have hdraw : (draw s).1 = none := hnone s h
    have hstop : exhaust draw fuel s = ([], s) := by
      cases fuel with
      | zero => rfl
      | succ fuel => rw [exhaust, show draw s = (none, (draw s).2) from Prod.ext hdraw rfl]
    rw [hstop]
    exact ⟨rfl, hdraw⟩
  | succ n ih =>
    obtain ⟨a, t, hdraw, ht⟩ := hsome s n h
    obtain ⟨fuel, rfl⟩ : ∃ m, fuel = m + 1 := ⟨fuel - 1, by omega⟩
    obtain ⟨hlength, hlast⟩ := ih ht (Nat.le_of_succ_le_succ hfuel)
    simp only [exhaust, hdraw, List.length_cons, hlength]
    exact ⟨trivial, hlast⟩

end Exhaust

end HouseKernel.Lib
