import Mathlib.Tactic

/-! Text as lists of Unicode code points, surrogates included, and its Latin-1 edge: a byte
becomes the code point of its value, and a code point keeps its low eight bits. -/
namespace HouseKernel.Lib

abbrev CodePoint := Fin 0x110000

abbrev Text := List CodePoint

abbrev Octets := List (BitVec 8)

def ofByte (b : BitVec 8) : CodePoint := ⟨b.toNat, by omega⟩

def toByte (c : CodePoint) : BitVec 8 := BitVec.ofNat 8 c.val

/-- The code points of a literal. -/
def text (s : String) : Text := s.toList.map fun c => ⟨c.val.toNat, by
  obtain h | h := c.valid <;> omega⟩

@[simp] theorem val_ofByte (b : BitVec 8) : (ofByte b).val = b.toNat := rfl

@[simp] theorem toNat_toByte (c : CodePoint) : (toByte c).toNat = c.val % 256 := by
  simp [toByte]

@[simp] theorem toByte_ofByte (b : BitVec 8) : toByte (ofByte b) = b := by
  apply BitVec.eq_of_toNat_eq
  simp [Nat.mod_eq_of_lt b.isLt]

/-- Exactly the Latin-1 characters survive the way through a byte. -/
theorem ofByte_toByte_iff {c : CodePoint} : ofByte (toByte c) = c ↔ c.val < 256 := by
  rw [Fin.ext_iff, val_ofByte, toNat_toByte]
  exact Nat.mod_eq_iff_lt (by decide)

theorem map_ofByte_toByte_iff {s : Text} : (s.map toByte).map ofByte = s ↔ ∀ c ∈ s, c.val < 256 := by
  induction s with
  | nil => simp
  | cons c s ih =>
    rw [List.map_cons, List.map_cons, List.cons_eq_cons, ih, ofByte_toByte_iff, List.forall_mem_cons]

/-- A property of the characters of a text, tested character by character: as a statement
about all code points it would be tested on every one of them. -/
theorem forall_of_all {p : CodePoint → Prop} [DecidablePred p] {s : Text}
    (h : (s.all fun c => decide (p c)) = true) : ∀ c ∈ s, p c :=
  fun c hc => of_decide_eq_true (List.all_eq_true.mp h c hc)

/-- Split at every occurrence of a separator; there is one more piece than separators. -/
def splitOn (d : CodePoint) : Text → List Text
  | [] => [[]]
  | c :: s =>
    if c = d then [] :: splitOn d s
    else
      match splitOn d s with
      | [] => [[c]]
      | piece :: pieces => (c :: piece) :: pieces

@[simp] theorem splitOn_nil (d : CodePoint) : splitOn d [] = [[]] := rfl

theorem splitOn_cons (d c : CodePoint) (s : Text) : splitOn d (c :: s) =
    if c = d then [] :: splitOn d s
    else match splitOn d s with
      | [] => [[c]]
      | piece :: pieces => (c :: piece) :: pieces := rfl

theorem splitOn_ne_nil (d : CodePoint) (s : Text) : splitOn d s ≠ [] := by
  cases s with
  | nil => simp
  | cons c s =>
    rw [splitOn_cons]
    split_ifs
    · simp
    · cases splitOn d s <;> simp

@[simp] theorem splitOn_cons_self (d : CodePoint) (s : Text) : splitOn d (d :: s) = [] :: splitOn d s := by
  simp [splitOn_cons]

theorem splitOn_of_notMem {d : CodePoint} {s : Text} (h : d ∉ s) : splitOn d s = [s] := by
  induction s with
  | nil => rfl
  | cons c s ih =>
    obtain ⟨hne, hs⟩ := List.ne_and_not_mem_of_not_mem_cons h
    simp [splitOn_cons, hne.symm, ih hs]

theorem splitOn_append {d : CodePoint} {s : Text} (h : d ∉ s) (t : Text) :
    splitOn d (s ++ d :: t) = s :: splitOn d t := by
  induction s with
  | nil => exact splitOn_cons_self d t
  | cons c s ih =>
    obtain ⟨hne, hs⟩ := List.ne_and_not_mem_of_not_mem_cons h
    simp [splitOn_cons, hne.symm, ih hs]

/-- A piece has no separator and only characters of the text. -/
theorem mem_splitOn {d : CodePoint} {s piece : Text} (h : piece ∈ splitOn d s) : d ∉ piece ∧ piece ⊆ s := by
  induction s generalizing piece with
  | nil =>
    obtain rfl := List.mem_singleton.mp h
    exact ⟨List.not_mem_nil, List.Subset.refl _⟩
  | cons c s ih =>
    by_cases hc : c = d
    · rw [hc, splitOn_cons_self] at h
      obtain rfl | h := List.mem_cons.mp h
      · exact ⟨List.not_mem_nil, List.nil_subset _⟩
      · exact ⟨(ih h).1, fun x hx => List.mem_cons_of_mem _ ((ih h).2 hx)⟩
    · obtain ⟨first, pieces, hsplit⟩ := List.exists_cons_of_ne_nil (splitOn_ne_nil d s)
      simp only [splitOn_cons, if_neg hc, hsplit, List.mem_cons] at h
      rw [hsplit] at ih
      obtain rfl | h := h
      · obtain ⟨hd, hsub⟩ := ih List.mem_cons_self
        exact ⟨by simp [hd, Ne.symm hc], List.cons_subset_cons c hsub⟩
      · obtain ⟨hd, hsub⟩ := ih (List.mem_cons_of_mem _ h)
        exact ⟨hd, fun x hx => List.mem_cons_of_mem _ (hsub hx)⟩

end HouseKernel.Lib
