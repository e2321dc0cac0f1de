import Mathlib.Data.List.Nodup
import Mathlib.Logic.Function.Basic

/-! A list of writes applied to a function, first to last. Memory after a sequence of stores
and a register file after a sequence of loads are both of this form, and when no key is
written twice the last line of either proof is `writeAll_of_mem`. -/
namespace HouseKernel.Lib

variable {κ V : Type*} [DecidableEq κ]

def writeAll (ws : List (κ × V)) (f : κ → V) : κ → V :=
  ws.foldl (fun f w => Function.update f w.1 w.2) f

@[simp] theorem writeAll_nil (f : κ → V) : writeAll [] f = f := rfl

@[simp] theorem writeAll_cons (w : κ × V) (ws : List (κ × V)) (f : κ → V) :
    writeAll (w :: ws) f = writeAll ws (Function.update f w.1 w.2) := rfl

theorem writeAll_append (ws ws' : List (κ × V)) (f : κ → V) :
    writeAll (ws ++ ws') f = writeAll ws' (writeAll ws f) := by
  simp [writeAll]

/-- A key that is not written keeps its value. -/
theorem writeAll_of_notMem {ws : List (κ × V)} {k : κ} (f : κ → V) (h : k ∉ ws.map Prod.fst) :
    writeAll ws f k = f k := by
  induction ws generalizing f with
  | nil => rfl
  | cons w ws ih =>
    obtain ⟨hw, hws⟩ : k ≠ w.1 ∧ k ∉ ws.map Prod.fst := by simpa using h
    rw [writeAll_cons, ih _ hws, Function.update_of_ne hw]

/-- A key written once has the value written. -/
theorem writeAll_of_mem {ws : List (κ × V)} {k : κ} {v : V} (f : κ → V)
    (hnd : (ws.map Prod.fst).Nodup) (h : (k, v) ∈ ws) : writeAll ws f k = v := by
  induction ws generalizing f with
  | nil => simp at h
  | cons w ws ih =>
    rw [List.map_cons, List.nodup_cons] at hnd
    obtain rfl | h := List.mem_cons.mp h
    · rw [writeAll_cons, writeAll_of_notMem _ hnd.1, Function.update_self]
    · exact ih _ hnd.2 h

/-- A loop that rewrites the entries of a table from `a` on, one a round. -/
theorem foldl_update_range (g : ℕ → V → V) (f : ℕ → V) (a n k : ℕ) :
    (List.range n).foldl (fun f i => Function.update f (a + i) (g i (f (a + i)))) f k =
      if a ≤ k ∧ k < a + n then g (k - a) (f k) else f k := by
  induction n with
  | zero => rw [if_neg (by omega)]; rfl
  | succ n ih =>
    rw [List.range_succ, List.foldl_append, List.foldl_cons, List.foldl_nil]
    obtain rfl | hne := eq_or_ne k (a + n)
    · rw [Function.update_self, ih, if_neg (by omega), if_pos (by omega), Nat.add_sub_cancel_left]
    · rw [Function.update_of_ne hne, ih]
      congr 1
      simp only [eq_iff_iff]
      omega

/-! A map with finitely many keys, as a partial function: the entries after an insertion or a deletion, and
maps in which a value stands under one key only. -/

variable {f : κ → Option V} {k k' : κ} {v w : V}

theorem update_some_eq_some : Function.update f k (some v) k' = some w ↔ k' = k ∧ v = w ∨ k' ≠ k ∧ f k' = some w := by
  obtain rfl | hk := eq_or_ne k' k
  · simp
  · simp [hk]

theorem update_none_eq_some : Function.update f k none k' = some w ↔ k' ≠ k ∧ f k' = some w := by
  obtain rfl | hk := eq_or_ne k' k
  · simp
  · simp [hk]

/-- No value stands under two keys. -/
def OneKey (f : κ → Option V) : Prop := ∀ k k' v, f k = some v → f k' = some v → k = k'

theorem OneKey.insert (h : OneKey f) (hv : ∀ k', f k' ≠ some v) : OneKey (Function.update f k (some v)) := by
  intro j j' w hj hj'
  obtain ⟨rfl, rfl⟩ | ⟨-, hj⟩ := update_some_eq_some.mp hj
  · obtain ⟨rfl, -⟩ | ⟨-, hj'⟩ := update_some_eq_some.mp hj'
    · rfl
    · exact absurd hj' (hv j')
  · obtain ⟨-, rfl⟩ | ⟨-, hj'⟩ := update_some_eq_some.mp hj'
    · exact absurd hj (hv j)
    · exact h j j' w hj hj'

theorem OneKey.delete (h : OneKey f) : OneKey (Function.update f k none) := fun j j' w hj hj' =>
  h j j' w (update_none_eq_some.mp hj).2 (update_none_eq_some.mp hj').2

end HouseKernel.Lib
