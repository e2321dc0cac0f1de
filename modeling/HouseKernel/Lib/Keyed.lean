import HouseKernel.Lib.Table

/-! Small tables of values by key, kept in an array of bounded size. A key that has no entry has a
default value; a value is written over the entry of its key, or behind the last entry while there
is room; an entry is removed by closing its gap with the last one. -/
namespace HouseKernel.Lib

section Keys

variable {κ V : Type*} {l : List (κ × V)} {k : κ}

/-- The keys that have an entry. -/
def keysOf (l : List (κ × V)) : List κ := l.map (·.1)

@[simp] theorem mem_keysOf : k ∈ keysOf l ↔ ∃ v, (k, v) ∈ l := by
  simp [keysOf]

theorem key_mem {v : V} (h : (k, v) ∈ l) : k ∈ keysOf l := List.mem_map_of_mem (f := (·.1)) h

theorem exists_entry (h : k ∈ keysOf l) : ∃ v, (k, v) ∈ l := by
  obtain ⟨⟨k, v⟩, he, rfl⟩ := List.mem_map.mp h
  exact ⟨v, he⟩

theorem nodup_filter (hl : (keysOf l).Nodup) (p : κ × V → Bool) : (keysOf (l.filter p)).Nodup :=
  hl.sublist (List.filter_sublist.map _)

end Keys

variable {κ V : Type*} [DecidableEq κ] {cap : ℕ} {l : List (κ × V)} {k k' : κ} {v d : V}

def entryOf (d : V) (l : List (κ × V)) (k : κ) : V := ((l.find? fun e => e.1 == k).map (·.2)).getD d

def putEntry (cap : ℕ) (l : List (κ × V)) (k : κ) (v : V) : List (κ × V) :=
  match updateFirst (fun e => e.1 == k) (fun e => (e.1, v)) l with
  | some l' => l'
  | none => if l.length < cap then l ++ [(k, v)] else l

def dropEntry (l : List (κ × V)) (k : κ) : List (κ × V) :=
  match l.findIdx? fun e => e.1 == k with
  | some i => swapRemove l i
  | none => l

theorem entryOf_of_notMem (h : k ∉ keysOf l) : entryOf d l k = d := by
  have hnone : l.find? (fun e => e.1 == k) = none := by
    refine List.find?_eq_none.mpr fun e he hk => h ?_
    exact beq_iff_eq.mp hk ▸ key_mem he
  rw [entryOf, hnone]
  rfl

/-- With one entry for a key, the entry has its value. -/
theorem entryOf_of_mem (hl : (keysOf l).Nodup) (h : (k, v) ∈ l) : entryOf d l k = v := by
  induction l with
  | nil => cases h
  | cons e l ih =>
    obtain ⟨hnew, hl⟩ := List.nodup_cons.mp hl
    obtain rfl | h := List.mem_cons.mp h
    · simp [entryOf]
    · have hne : e.1 ≠ k := by
        rintro rfl
        exact hnew (key_mem h)
      have hskip : entryOf d (e :: l) k = entryOf d l k := by
        rw [entryOf, List.find?_cons_of_neg (by simpa using hne), entryOf]
      rw [hskip]
      exact ih hl h

/-- The order of the entries does not matter. -/
theorem entryOf_perm {l' : List (κ × V)} (hl : (keysOf l).Nodup) (h : l'.Perm l) : entryOf d l' k = entryOf d l k := by
  have hl' : (keysOf l').Nodup := (h.map _).nodup_iff.mpr hl
  by_cases hk : k ∈ keysOf l
  · obtain ⟨v, hv⟩ := exists_entry hk
    rw [entryOf_of_mem hl hv, entryOf_of_mem hl' (h.mem_iff.mpr hv)]
  · have hk' : k ∉ keysOf l' := fun hmem => hk ((h.map _).mem_iff.mp hmem)
    rw [entryOf_of_notMem hk, entryOf_of_notMem hk']

/-- A write changes the entry of its key, adds one at the end, or finds the table full. -/
theorem putEntry_cases (cap : ℕ) (l : List (κ × V)) (k : κ) (v : V) :
    (∃ pre w post, l = pre ++ (k, w) :: post ∧ k ∉ keysOf pre ∧ putEntry cap l k v = pre ++ (k, v) :: post) ∨
      (k ∉ keysOf l ∧ l.length < cap ∧ putEntry cap l k v = l ++ [(k, v)]) ∨
      (k ∉ keysOf l ∧ cap ≤ l.length ∧ putEntry cap l k v = l) := by
  cases hfound : updateFirst (fun e => e.1 == k) (fun e => (e.1, v)) l with
  | some l' =>
    obtain ⟨pre, ⟨k₀, w⟩, post, rfl, hkey, hpre, rfl⟩ := updateFirst_eq_some hfound
    obtain rfl : k₀ = k := beq_iff_eq.mp hkey
    refine .inl ⟨pre, w, post, rfl, ?_, ?_⟩
    · intro hmem
      obtain ⟨u, hu⟩ := exists_entry hmem
      have hother := hpre _ hu
      simp at hother
    · rw [putEntry, hfound]
  | none =>
    have hnew : k ∉ keysOf l := by
      intro hmem
      obtain ⟨u, hu⟩ := exists_entry hmem
      have hcount := List.countP_eq_zero.mp (updateFirst_eq_none.mp hfound) _ hu
      simp at hcount
    rw [putEntry, hfound]
    by_cases hroom : l.length < cap
    · exact .inr (.inl ⟨hnew, hroom, if_pos hroom⟩)
    · exact .inr (.inr ⟨hnew, Nat.le_of_not_lt hroom, if_neg hroom⟩)

theorem entryOf_append {pre post : List (κ × V)} {e : κ × V} (h : k ∉ keysOf pre) (he : e.1 = k) :
    entryOf d (pre ++ e :: post) k = e.2 := by
  have hnone : pre.find? (fun e => e.1 == k) = none := by
    refine List.find?_eq_none.mpr fun x hx hk => h ?_
    exact beq_iff_eq.mp hk ▸ key_mem hx
  simp [entryOf, List.find?_append, hnone, he]

/-- A write that finds its key, or room, is read back. -/
theorem entryOf_putEntry_self (h : k ∈ keysOf l ∨ l.length < cap) : entryOf d (putEntry cap l k v) k = v := by
  obtain ⟨pre, w, post, rfl, hpre, hput⟩ | ⟨hnew, -, hput⟩ | ⟨hnew, hfull, -⟩ := putEntry_cases cap l k v
  · rw [hput]
    exact entryOf_append hpre rfl
  · rw [hput]
    exact entryOf_append hnew rfl
  · exact absurd h (not_or.mpr ⟨hnew, Nat.not_lt.mpr hfull⟩)

/-- A write that finds neither is lost. -/
theorem putEntry_of_full (hnew : k ∉ keysOf l) (hfull : cap ≤ l.length) : putEntry cap l k v = l := by
  obtain ⟨pre, w, post, rfl, -, -⟩ | ⟨-, hroom, -⟩ | ⟨-, -, hput⟩ := putEntry_cases cap l k v
  · exact absurd (key_mem (v := w) (by simp)) hnew
  · exact absurd hroom (Nat.not_lt.mpr hfull)
  · exact hput

theorem entryOf_putEntry_of_ne (h : k' ≠ k) : entryOf d (putEntry cap l k v) k' = entryOf d l k' := by
  have hskip : (k == k') = false := by simpa using h.symm
  obtain ⟨pre, w, post, rfl, -, hput⟩ | ⟨-, -, hput⟩ | ⟨-, -, hput⟩ := putEntry_cases cap l k v
  · rw [hput]
    simp only [entryOf, List.find?_append, List.find?_cons, hskip]
  · rw [hput]
    simp only [entryOf, List.find?_append, List.find?_cons, hskip, List.find?_nil, Option.or_none]
  · rw [hput]

theorem nodup_putEntry (hl : (keysOf l).Nodup) : (keysOf (putEntry cap l k v)).Nodup := by
  obtain ⟨pre, w, post, rfl, -, hput⟩ | ⟨hnew, -, hput⟩ | ⟨-, -, hput⟩ := putEntry_cases cap l k v
  · rw [hput]
    simpa [keysOf] using hl
  · rw [hput, keysOf, List.map_append]
    refine List.nodup_append.mpr ⟨hl, by simp, ?_⟩
    rintro x hx y hy rfl
    obtain rfl : x = k := by simpa using hy
    exact hnew hx
  · rwa [hput]

/-- What remains after a removal are the entries of the other keys. -/
theorem dropEntry_perm (hl : (keysOf l).Nodup) : (dropEntry l k).Perm (l.filter fun e => e.1 != k) := by
  unfold dropEntry
  split
  · next i hfind =>
    obtain ⟨hi, hp, -⟩ := List.findIdx?_eq_some_iff_getElem.mp hfind
    have hkey : l[i].1 = k := by simpa using hp
    refine (swapRemove_perm hi).trans (List.Perm.of_eq ?_)
    have hkeys : (l.map Prod.fst).Nodup := hl
    rw [eraseIdx_eq_filter hkeys hi, hkey]
  · next hfind =>
    refine List.Perm.of_eq (List.filter_eq_self.mpr fun e he => ?_).symm
    have hne := List.findIdx?_eq_none_iff.mp hfind e he
    simpa using hne

theorem nodup_dropEntry (hl : (keysOf l).Nodup) : (keysOf (dropEntry l k)).Nodup :=
  ((dropEntry_perm hl).map _).nodup_iff.mpr (nodup_filter hl _)

theorem mem_keysOf_dropEntry (hl : (keysOf l).Nodup) : k' ∈ keysOf (dropEntry l k) ↔ k' ∈ keysOf l ∧ k' ≠ k := by
  rw [keysOf, ((dropEntry_perm hl).map _).mem_iff]
  simp only [List.mem_map, List.mem_filter, keysOf, bne_iff_ne]
  constructor
  · rintro ⟨e, ⟨he, hne⟩, rfl⟩
    exact ⟨⟨e, he, rfl⟩, hne⟩
  · rintro ⟨⟨e, he, rfl⟩, hne⟩
    exact ⟨e, ⟨he, hne⟩, rfl⟩

/-- A key whose entry is removed has the default again. -/
theorem entryOf_dropEntry_self (hl : (keysOf l).Nodup) : entryOf d (dropEntry l k) k = d :=
  entryOf_of_notMem fun hmem => ((mem_keysOf_dropEntry hl).mp hmem).2 rfl

theorem entryOf_dropEntry_of_ne (hl : (keysOf l).Nodup) (h : k' ≠ k) :
    entryOf d (dropEntry l k) k' = entryOf d l k' := by
  rw [entryOf_perm (nodup_filter hl _) (dropEntry_perm hl)]
  by_cases hk : k' ∈ keysOf l
  · obtain ⟨v, hv⟩ := exists_entry hk
    have hkept : (k', v) ∈ l.filter fun e => e.1 != k := List.mem_filter.mpr ⟨hv, by simpa using h⟩
    rw [entryOf_of_mem hl hv, entryOf_of_mem (nodup_filter hl _) hkept]
  · have hgone : k' ∉ keysOf (l.filter fun e => e.1 != k) :=
      fun hmem => hk ((List.filter_sublist.map _).subset hmem)
    rw [entryOf_of_notMem hk, entryOf_of_notMem hgone]

end HouseKernel.Lib
