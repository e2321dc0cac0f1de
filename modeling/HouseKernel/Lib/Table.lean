import Mathlib.Data.List.Basic

/-! Tables searched from the front. Code that scans an array for the first entry with some
key and updates that entry is `updateFirst`; the split of the table at the entry found is
all that its users need. -/
namespace HouseKernel.Lib

variable {α : Type*} {p q : α → Bool} {f : α → α} {l l' : List α}

/-- Update the first entry that satisfies `p`; `none` when there is no such entry. -/
def updateFirst (p : α → Bool) (f : α → α) : List α → Option (List α)
  | [] => none
  | x :: l => if p x then some (f x :: l) else (updateFirst p f l).map (x :: ·)

theorem updateFirst_eq_none : updateFirst p f l = none ↔ l.countP p = 0 := by
  induction l with
  | nil => simp [updateFirst]
  | cons x l ih =>
    by_cases hx : p x = true <;> simp_all [updateFirst]

/-- The entry found splits the table: nothing before it matches, and only it changes. -/
theorem updateFirst_eq_some (h : updateFirst p f l = some l') :
    ∃ pre x post, l = pre ++ x :: post ∧ p x = true ∧ (∀ y ∈ pre, p y = false) ∧
      l' = pre ++ f x :: post := by
  induction l generalizing l' with
  | nil => simp [updateFirst] at h
  | cons x l ih =>
    by_cases hx : p x = true
    · simp only [updateFirst, hx, if_true, Option.some.injEq] at h
      exact ⟨[], x, l, rfl, hx, by simp, h.symm⟩
    · simp only [updateFirst, hx, Bool.false_eq_true, if_false, Option.map_eq_some_iff] at h
      obtain ⟨m, hm, rfl⟩ := h
      obtain ⟨pre, y, post, rfl, hy, hpre, rfl⟩ := ih hm
      refine ⟨x :: pre, y, post, rfl, hy, ?_, rfl⟩
      intro z hz
      obtain rfl | hz := List.mem_cons.mp hz
      · simpa using hx
      · exact hpre z hz

/-- Counting after an update: the entry found is exchanged for its update. -/
theorem countP_updateFirst (h : updateFirst p f l = some l') :
    ∃ x, p x = true ∧ l'.countP q + (if q x then 1 else 0) = l.countP q + (if q (f x) then 1 else 0) := by
  obtain ⟨pre, x, post, rfl, hx, -, rfl⟩ := updateFirst_eq_some h
  refine ⟨x, hx, ?_⟩
  simp only [List.countP_append, List.countP_cons]
  omega

/-- A search after an update that keeps the key finds the updated entry. -/
theorem find?_updateFirst (h : updateFirst p f l = some l') (hf : ∀ x, p x = true → p (f x) = true) :
    ∃ x, l'.find? p = some (f x) := by
  obtain ⟨pre, x, post, rfl, hx, hpre, rfl⟩ := updateFirst_eq_some h
  refine ⟨x, ?_⟩
  rw [List.find?_append, List.find?_eq_none.mpr fun y hy => by simp [hpre y hy]]
  simp [hf x hx]

theorem updateFirst_append_cons {pre post : List α} {x : α} (hpre : ∀ y ∈ pre, p y = false) (hx : p x = true) :
    updateFirst p f (pre ++ x :: post) = some (pre ++ f x :: post) := by
  induction pre with
  | nil => simp [updateFirst, hx]
  | cons y pre ih =>
    obtain ⟨hy, hpre⟩ := List.forall_mem_cons.mp hpre
    simp [updateFirst, hy, ih hpre]

theorem find?_append_cons {pre post : List α} {x : α} (hpre : ∀ y ∈ pre, p y = false) (hx : p x = true) :
    (pre ++ x :: post).find? p = some x := by
  rw [List.find?_append, List.find?_eq_none.mpr fun y hy => by simp [hpre y hy]]
  simp [hx]

/-- The first entry that satisfies `p` splits the table. -/
theorem find?_split {x : α} (h : l.find? p = some x) :
    ∃ pre post, l = pre ++ x :: post ∧ p x = true ∧ ∀ y ∈ pre, p y = false := by
  obtain ⟨hx, pre, post, rfl, hpre⟩ := List.find?_eq_some_iff_append.mp h
  exact ⟨pre, post, rfl, hx, fun y hy => by simpa using hpre y hy⟩

theorem updateFirst_of_find?_none (h : l.find? p = none) : updateFirst p f l = none := by
  rw [updateFirst_eq_none, List.countP_eq_zero]
  exact List.find?_eq_none.mp h

/-- The entry that satisfies `p`, when there is only one. -/
theorem find?_split_once {x : α} (hone : l.countP p ≤ 1) (h : l.find? p = some x) :
    ∃ pre post, l = pre ++ x :: post ∧ p x = true ∧ (∀ y ∈ pre, p y = false) ∧ ∀ y ∈ post, p y = false := by
  obtain ⟨pre, post, rfl, hx, hpre⟩ := find?_split h
  refine ⟨pre, post, rfl, hx, hpre, fun y hy => ?_⟩
  rw [List.countP_append, List.countP_cons, if_pos hx] at hone
  have hnone : post.countP p = 0 := by omega
  simpa using List.countP_eq_zero.mp hnone y hy

/-- A scan that takes the last match finds the same as one that takes the first, when there is only
one. -/
theorem find?_reverse (hone : l.countP p ≤ 1) : l.reverse.find? p = l.find? p := by
  cases h : l.find? p with
  | none =>
    rw [List.find?_eq_none] at h ⊢
    exact fun x hx => h x (List.mem_reverse.mp hx)
  | some x =>
    obtain ⟨pre, post, rfl, hx, -, hpost⟩ := find?_split_once hone h
    rw [List.reverse_append, List.reverse_cons, List.append_assoc, List.singleton_append]
    exact find?_append_cons (fun y hy => hpost y (List.mem_reverse.mp hy)) hx

theorem updateFirst_reverse (hone : l.countP p ≤ 1) :
    (updateFirst p f l.reverse).map List.reverse = updateFirst p f l := by
  cases h : l.find? p with
  | none =>
    have hrev : l.reverse.find? p = none := by rw [find?_reverse hone, h]
    rw [updateFirst_of_find?_none h, updateFirst_of_find?_none hrev]
    rfl
  | some x =>
    obtain ⟨pre, post, rfl, hx, hpre, hpost⟩ := find?_split_once hone h
    rw [List.reverse_append, List.reverse_cons, List.append_assoc, List.singleton_append,
      updateFirst_append_cons (fun y hy => hpost y (List.mem_reverse.mp hy)) hx, updateFirst_append_cons hpre hx]
    simp

/-- A search for something else does not see the update. -/
theorem find?_updateFirst_of_false (h : updateFirst p f l = some l')
    (hq : ∀ x, p x = true → q x = false ∧ q (f x) = false) : l'.find? q = l.find? q := by
  obtain ⟨pre, x, post, rfl, hx, -, rfl⟩ := updateFirst_eq_some h
  obtain ⟨hqx, hqf⟩ := hq x hx
  simp [List.find?_append, hqx, hqf]

/-- Close the gap at `i` with the last entry. -/
def swapRemove (l : List α) (i : ℕ) : List α :=
  match l.getLast? with
  | none => []
  | some x => (l.set i x).dropLast

theorem swapRemove_perm {i : ℕ} (hi : i < l.length) : (swapRemove l i).Perm (l.eraseIdx i) := by
  obtain rfl | ⟨l, x, rfl⟩ := l.eq_nil_or_concat'
  · simp at hi
  · simp only [swapRemove, List.getLast?_append, List.getLast?_singleton, Option.some_or]
    obtain hlt | rfl := Nat.lt_succ_iff_lt_or_eq.mp (by simpa using hi)
    · rw [List.set_append_left _ _ hlt, List.dropLast_concat, List.eraseIdx_append_of_lt_length hlt]
      obtain ⟨pre, y, post, rfl, rfl⟩ : ∃ pre y post, l = pre ++ y :: post ∧ i = pre.length :=
        ⟨l.take i, l[i], l.drop (i+1), by simp, by simp; omega⟩
      simp only [List.set_append_right _ _ (Nat.le_refl _), Nat.sub_self, List.set_cons_zero,
        List.eraseIdx_append_of_length_le (Nat.le_refl _), List.eraseIdx_cons_zero, List.append_assoc]
      exact List.Perm.append_left pre (List.perm_append_singleton x post).symm
    · rw [List.set_append_right _ _ (Nat.le_refl _), Nat.sub_self, List.set_cons_zero, List.dropLast_concat,
        List.eraseIdx_append_of_length_le (Nat.le_refl _)]
      simp

/-- The gap is closed behind the entries before it. -/
theorem swapRemove_append {x : α} {pre post : List α} :
    swapRemove (pre ++ x :: post) pre.length = pre ++ swapRemove (x :: post) 0 := by
  obtain rfl | ⟨post, y, rfl⟩ := post.eq_nil_or_concat'
  · simp [swapRemove]
  · have hlast : (pre ++ x :: (post ++ [y])).getLast? = some y := by
      rw [← List.cons_append, ← List.append_assoc, List.getLast?_concat]
    have hlast' : (x :: (post ++ [y])).getLast? = some y := by
      rw [← List.cons_append, List.getLast?_concat]
    simp only [swapRemove, hlast, hlast', List.set_cons_zero]
    rw [List.set_append_right _ _ (Nat.le_refl _), Nat.sub_self, List.set_cons_zero,
      List.dropLast_append_of_ne_nil (List.cons_ne_nil _ _)]

/-- In a table with one entry for a key, the entry at `i` is all that has its key. -/
theorem eraseIdx_eq_filter {κ : Type*} [DecidableEq κ] {key : α → κ} {i : ℕ} (h : (l.map key).Nodup)
    (hi : i < l.length) : l.eraseIdx i = l.filter fun x => key x != key l[i] := by
  induction l generalizing i with
  | nil => simp at hi
  | cons x l ih =>
    obtain ⟨hx, hl⟩ := List.nodup_cons.mp (by simpa only [List.map_cons] using h)
    cases i with
    | zero =>
      have hself : (l.filter fun y => key y != key x) = l := by
        refine List.filter_eq_self.mpr fun y hy => ?_
        have hne : key y ≠ key x := fun heq => hx (heq ▸ List.mem_map_of_mem hy)
        simpa using hne
      simp [hself]
    | succ i =>
      have hi' : i < l.length := by simpa using hi
      have hne : key x ≠ key l[i] := fun heq => hx (heq ▸ List.mem_map_of_mem (List.getElem_mem hi'))
      simp only [List.eraseIdx_cons_succ, List.getElem_cons_succ, ih hl hi']
      rw [List.filter_cons_of_pos (by simpa using hne)]

end HouseKernel.Lib
