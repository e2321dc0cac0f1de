import Mathlib.Tactic

/-! Half-open spans of addresses, and lists of spans as sets of addresses. A table of spans is
compared with the addresses in use through `Covers`; taking a span away from a list of spans
takes exactly its addresses away. -/
namespace HouseKernel.Lib

/-- The addresses from `lo` up to, and without, `hi`. -/
structure Span where
  lo : ℕ
  hi : ℕ
  deriving DecidableEq, Repr

namespace Span

instance : Membership ℕ Span := ⟨fun s x => s.lo ≤ x ∧ x < s.hi⟩

theorem mem_def {s : Span} {x : ℕ} : x ∈ s ↔ s.lo ≤ x ∧ x < s.hi := Iff.rfl

instance (x : ℕ) (s : Span) : Decidable (x ∈ s) := inferInstanceAs (Decidable (_ ∧ _))

def Meets (s t : Span) : Prop := s.lo < t.hi ∧ t.lo < s.hi

def Within (s t : Span) : Prop := t.lo ≤ s.lo ∧ s.hi ≤ t.hi

instance (s t : Span) : Decidable (s.Meets t) := inferInstanceAs (Decidable (_ ∧ _))

instance (s t : Span) : Decidable (s.Within t) := inferInstanceAs (Decidable (_ ∧ _))

theorem Within.mem {s t : Span} (h : s.Within t) {x : ℕ} (hx : x ∈ s) : x ∈ t :=
  ⟨h.1.trans hx.1, hx.2.trans_le h.2⟩

/-- Spans that share an address meet. -/
theorem meets_of_mem {s t : Span} {x : ℕ} (hs : x ∈ s) (ht : x ∈ t) : s.Meets t :=
  ⟨hs.1.trans_lt ht.2, ht.1.trans_lt hs.2⟩

end Span

/-- Some span of the list holds the address. -/
def Covers (l : List Span) (x : ℕ) : Prop := ∃ s ∈ l, x ∈ s

@[simp] theorem covers_cons {s : Span} {l : List Span} {x : ℕ} :
    Covers (s :: l) x ↔ x ∈ s ∨ Covers l x := by
  simp [Covers]

/-- Take a span away from every span of a list. -/
def cut (r : Span) (l : List Span) : List Span :=
  (l.flatMap fun s => [⟨s.lo, min s.hi r.lo⟩, ⟨max s.lo r.hi, s.hi⟩]).filter fun s => s.lo < s.hi

theorem covers_cut {r : Span} {l : List Span} {x : ℕ} : Covers (cut r l) x ↔ Covers l x ∧ x ∉ r := by
  have hpiece : ∀ s : Span, x ∈ s ∧ x ∉ r ↔
      x ∈ (⟨s.lo, min s.hi r.lo⟩ : Span) ∨ x ∈ (⟨max s.lo r.hi, s.hi⟩ : Span) := by
    intro s
    simp only [Span.mem_def]
    omega
  constructor
  · rintro ⟨t, ht, hx⟩
    obtain ⟨s, hs, hts⟩ := List.mem_flatMap.mp (List.mem_filter.mp ht).1
    have hin : x ∈ s ∧ x ∉ r := by
      apply (hpiece s).mpr
      obtain rfl | rfl : t = ⟨s.lo, min s.hi r.lo⟩ ∨ t = ⟨max s.lo r.hi, s.hi⟩ := by simpa using hts
      · exact .inl hx
      · exact .inr hx
    exact ⟨⟨s, hs, hin.1⟩, hin.2⟩
  · rintro ⟨⟨s, hs, hx⟩, hr⟩
    have hmem : ∀ t : Span, x ∈ t → (t = ⟨s.lo, min s.hi r.lo⟩ ∨ t = ⟨max s.lo r.hi, s.hi⟩) →
        Covers (cut r l) x := by
      intro t hxt ht
      have hne : t.lo < t.hi := hxt.1.trans_lt hxt.2
      exact ⟨t, List.mem_filter.mpr ⟨List.mem_flatMap.mpr ⟨s, hs, by simpa using ht⟩, by simpa using hne⟩, hxt⟩
    obtain h | h := (hpiece s).mp ⟨hx, hr⟩
    · exact hmem _ h (.inl rfl)
    · exact hmem _ h (.inr rfl)

/-- As many addresses are covered as the lengths of spans that do not meet add up to. -/
theorem exists_covered {l : List Span} (h : l.Pairwise fun s t => ¬ s.Meets t) :
    ∃ U : Finset ℕ, U.card = (l.map fun s => s.hi - s.lo).sum ∧ ∀ x ∈ U, Covers l x := by
  induction l with
  | nil => exact ⟨∅, rfl, by simp⟩
  | cons s l ih =>
    obtain ⟨hs, hl⟩ := List.pairwise_cons.mp h
    obtain ⟨U, hcard, hU⟩ := ih hl
    have hdisj : Disjoint (Finset.Ico s.lo s.hi) U := by
      rw [Finset.disjoint_left]
      intro x hx hxU
      obtain ⟨t, ht, hxt⟩ := hU x hxU
      exact hs t ht (Span.meets_of_mem (Finset.mem_Ico.mp hx) hxt)
    refine ⟨Finset.Ico s.lo s.hi ∪ U, ?_, fun x hx => ?_⟩
    · rw [Finset.card_union_of_disjoint hdisj, Nat.card_Ico, hcard, List.map_cons, List.sum_cons]
    · rw [covers_cons]
      obtain hx | hx := Finset.mem_union.mp hx
      · exact .inl (Finset.mem_Ico.mp hx)
      · exact .inr (hU x hx)

/-- Spans that do not meet are together no longer than a span that holds them all. -/
theorem sum_length_le {l : List Span} {t : Span} (h : l.Pairwise fun s u => ¬ s.Meets u)
    (hin : ∀ s ∈ l, s.Within t) : (l.map fun s => s.hi - s.lo).sum ≤ t.hi - t.lo := by
  obtain ⟨U, hcard, hU⟩ := exists_covered h
  have hsub : U ⊆ Finset.Ico t.lo t.hi := by
    intro x hx
    obtain ⟨s, hs, hxs⟩ := hU x hx
    exact Finset.mem_Ico.mpr ((hin s hs).mem hxs)
  calc (l.map fun s => s.hi - s.lo).sum = U.card := hcard.symm
    _ ≤ (Finset.Ico t.lo t.hi).card := Finset.card_le_card hsub
    _ = t.hi - t.lo := Nat.card_Ico _ _

end HouseKernel.Lib
