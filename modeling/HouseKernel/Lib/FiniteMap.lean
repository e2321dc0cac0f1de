import HouseKernel.Lib.Keyed

/-! Small tables by key as finite maps: a table with one entry for a key stands for the map of its entries. -/
namespace HouseKernel.Lib

variable {κ V : Type*} {l l' : List (κ × V)} {m : κ → Option V} {k : κ} {v : V}

/-- The table has the entries of the map, each once. -/
structure Represents (l : List (κ × V)) (m : κ → Option V) : Prop where
  nodup : (keysOf l).Nodup
  mem_iff : ∀ k v, (k, v) ∈ l ↔ m k = some v

theorem represents_nil : Represents ([] : List (κ × V)) fun _ => none :=
  ⟨List.nodup_nil, fun _ _ => by simp⟩

namespace Represents

theorem mem_keys (h : Represents l m) : k ∈ keysOf l ↔ m k ≠ none := by
  rw [mem_keysOf, Option.ne_none_iff_exists']
  exact exists_congr fun v => h.mem_iff k v

variable [DecidableEq κ]

/-- A new entry goes behind the last one. -/
theorem add (h : Represents l m) (hk : k ∉ keysOf l) (v : V) :
    Represents (l ++ [(k, v)]) (Function.update m k (some v)) := by
  constructor
  · rw [keysOf, List.map_append]
    refine List.nodup_append.mpr ⟨h.nodup, by simp, ?_⟩
    rintro j hj j' hj' rfl
    obtain rfl : j = k := by simpa using hj'
    exact hk hj
  · intro j u
    rw [List.mem_append, List.mem_singleton, Prod.mk.injEq, h.mem_iff]
    by_cases hj : j = k
    · subst hj
      have hnone : m j = none := by
        by_contra hne
        exact hk (h.mem_keys.mpr hne)
      simp [hnone, eq_comm]
    · simp [hj]

/-- An entry is changed in its place. -/
theorem change (h : Represents l m) (hl : updateFirst (fun e => e.1 == k) (fun e => (e.1, v)) l = some l') :
    Represents l' (Function.update m k (some v)) := by
  obtain ⟨pre, ⟨k', u⟩, post, rfl, hkey, -, rfl⟩ := updateFirst_eq_some hl
  obtain rfl : k' = k := beq_iff_eq.mp hkey
  have hkeys : keysOf (pre ++ (k', v) :: post) = keysOf (pre ++ (k', u) :: post) := by
    simp [keysOf]
  have hnodup : k' ∉ keysOf pre ∧ k' ∉ keysOf post := by
    have hn := h.nodup
    rw [keysOf, List.map_append, List.map_cons, List.nodup_append, List.nodup_cons] at hn
    exact ⟨fun hk => hn.2.2 k' hk k' List.mem_cons_self rfl, hn.2.1.1⟩
  refine ⟨hkeys ▸ h.nodup, fun j w => ?_⟩
  have hold := h.mem_iff j w
  simp only [List.mem_append, List.mem_cons, Prod.mk.injEq] at hold ⊢
  by_cases hj : j = k'
  · subst hj
    have hpre : (j, w) ∉ pre := fun hm => hnodup.1 (key_mem hm)
    have hpost : (j, w) ∉ post := fun hm => hnodup.2 (key_mem hm)
    simp [hpre, hpost, eq_comm]
  · simpa [hj] using hold

/-- An entry is removed. -/
theorem drop (h : Represents l m) (k : κ) : Represents (dropEntry l k) (Function.update m k none) := by
  refine ⟨nodup_dropEntry h.nodup, fun j u => ?_⟩
  rw [(dropEntry_perm h.nodup).mem_iff, List.mem_filter, h.mem_iff]
  by_cases hj : j = k <;> simp [hj]

end Represents

variable [DecidableEq κ]

theorem updateFirst_key_none {f : κ × V → κ × V} : updateFirst (fun e => e.1 == k) f l = none ↔ k ∉ keysOf l := by
  rw [updateFirst_eq_none, List.countP_eq_zero, mem_keysOf, not_exists]
  constructor
  · intro h v hv
    exact absurd (h _ hv) (by simp)
  · rintro h ⟨j, v⟩ hv hj
    obtain rfl : j = k := beq_iff_eq.mp hj
    exact h v hv

theorem findIdx?_key_none : l.findIdx? (fun e => e.1 == k) = none ↔ k ∉ keysOf l := by
  rw [List.findIdx?_eq_none_iff, mem_keysOf, not_exists]
  constructor
  · intro h v hv
    exact absurd (h _ hv) (by simp)
  · rintro h ⟨j, v⟩ hv
    rw [beq_eq_false_iff_ne]
    rintro rfl
    exact h v hv

end HouseKernel.Lib
