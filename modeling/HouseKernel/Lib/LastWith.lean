import Mathlib.Tactic

/-! The last element of a list with a key: what a table holds after the elements are put into it one
after the other. -/
namespace HouseKernel.Lib

variable {α κ : Type*} [DecidableEq κ]

def lastWith (key : α → Option κ) (l : List α) (k : κ) : Option α := (l.filter fun a => key a = some k).getLast?

variable {key : α → Option κ} {k : κ}

theorem lastWith_append (l m : List α) : lastWith key (l ++ m) k = (lastWith key m k).or (lastWith key l k) := by
  rw [lastWith, List.filter_append, List.getLast?_append]
  rfl

theorem lastWith_singleton (a : α) : lastWith key [a] k = if key a = some k then some a else none := by
  rw [lastWith]
  by_cases h : key a = some k <;> simp [h]

/-- One element more at the end hides those before it with its key. -/
theorem lastWith_concat (l : List α) (a : α) :
    lastWith key (l ++ [a]) k = if key a = some k then some a else lastWith key l k := by
  rw [lastWith_append, lastWith_singleton]
  by_cases h : key a = some k
  · rw [if_pos h, if_pos h, Option.some_or]
  · rw [if_neg h, if_neg h, Option.none_or]

theorem lastWith_cons (a : α) (l : List α) :
    lastWith key (a :: l) k = (lastWith key l k).or (if key a = some k then some a else none) := by
  rw [← List.singleton_append, lastWith_append, lastWith_singleton]

theorem lastWith_mem {l : List α} {a : α} (h : lastWith key l k = some a) : a ∈ l ∧ key a = some k := by
  obtain ⟨hmem, hkey⟩ := List.mem_filter.mp (List.mem_of_getLast? h)
  exact ⟨hmem, of_decide_eq_true hkey⟩

theorem lastWith_eq_none {l : List α} : lastWith key l k = none ↔ ∀ a ∈ l, key a ≠ some k := by
  rw [lastWith, List.getLast?_eq_none_iff, List.filter_eq_nil_iff]
  exact forall₂_congr fun a _ => not_congr decide_eq_true_iff

end HouseKernel.Lib
