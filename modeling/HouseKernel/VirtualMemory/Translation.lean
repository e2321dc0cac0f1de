import HouseKernel.Lib.BitField
import HouseKernel.Lib.Radix
import HouseKernel.VirtualMemory.PageMap

/-! Translation of addresses as the hardware does it: a walk over table descriptors that ends at a block or
at a page of the lowest level. -/
namespace HouseKernel.VirtualMemory

open HouseKernel.Lib

/-- The next table: the descriptor is valid and not a block. -/
def hwTable (d : Desc) : Option ℕ := if d &&& 3 = 3 then some (d &&& mAddress).toNat else none

/-- The index of an address into a table with `k` levels of tables below it. -/
def indexAt (k va : ℕ) : ℕ := va / 2^(12 + 9*k) % 512

/-- The indices of an address, from `k` on down. -/
def indices : ℕ → ℕ → List ℕ
  | 0, va => [indexAt 0 va]
  | k+1, va => indexAt (k+1) va :: indices k va

lemma indices_zero (va : ℕ) : indices 0 va = [indexAt 0 va] := rfl

lemma indices_succ (k va : ℕ) : indices (k+1) va = indexAt (k+1) va :: indices k va := rfl

/-- The bits of a descriptor that are neither its type nor its address. -/
def attrMask : Desc := 0xFFFF000000000FFC

structure Translation where
  pa : ℕ
  attrs : Desc
  deriving DecidableEq, Repr

/-- The output address of a block or page with `k` levels below it. -/
def outputAddress (k : ℕ) (d : Desc) : ℕ := (d &&& mAddress).toNat / 2^(12 + 9*k) * 2^(12 + 9*k)

/-- A page at the lowest level, a block at the two levels above it, and neither of them at the root. -/
def output (k : ℕ) (d : Desc) (va : ℕ) : Option Translation :=
  if k < 3 ∧ d &&& 3 = (if k = 0 then 3 else 1) then some ⟨outputAddress k d + va % 2^(12 + 9*k), d &&& attrMask⟩ else none

/-- Translate through the descriptor at `slot`, which has `k` levels below it. -/
def translateSlot (mem : ℕ → Desc) : ℕ → ℕ → ℕ → Option Translation
  | 0, slot, va => output 0 (mem slot) va
  | k+1, slot, va => match hwTable (mem slot) with
    | some c => translateSlot mem k (c + 8*indexAt k va) va
    | none => output (k+1) (mem slot) va

lemma translateSlot_zero {mem : ℕ → Desc} {slot va : ℕ} : translateSlot mem 0 slot va = output 0 (mem slot) va := rfl

lemma translateSlot_succ {mem : ℕ → Desc} {k slot va : ℕ} : translateSlot mem (k+1) slot va =
    match hwTable (mem slot) with
    | some c => translateSlot mem k (c + 8*indexAt k va) va
    | none => output (k+1) (mem slot) va := rfl

def translate (m : Memory) (r va : ℕ) : Option Translation := translateSlot m.mem 3 (r + 8*indexAt 3 va) va

lemma indexAt_lt (k va : ℕ) : indexAt k va < 512 := Nat.mod_lt _ (by norm_num)

lemma indexAt_l0 (va : ℕ) : indexAt 3 va = l0Index va := rfl

lemma indexAt_l1 (va : ℕ) : indexAt 2 va = l1Index va := rfl

lemma indexAt_l2 (va : ℕ) : indexAt 1 va = l2Index va := rfl

@[simp] lemma indices_length (k va : ℕ) : (indices k va).length = k + 1 := by
  induction k with
  | zero => rfl
  | succ k ih => rw [indices_succ, List.length_cons, ih]

lemma indices_lt {k va i : ℕ} (h : i ∈ indices k va) : i < 512 := by
  induction k with
  | zero =>
    rw [indices_zero, List.mem_singleton] at h
    rw [h]
    exact indexAt_lt 0 va
  | succ k ih =>
    obtain rfl | h := List.mem_cons.mp h
    · exact indexAt_lt _ va
    · exact ih h

lemma hwTable_some {d : Desc} {c : ℕ} (h : hwTable d = some c) : d &&& 3 = 3 ∧ (d &&& mAddress).toNat = c := by
  unfold hwTable at h
  split_ifs at h with h3
  exact ⟨h3, Option.some.inj h⟩

/-- A descriptor whose lowest bit is clear maps nothing. -/
lemma invalid_and_three {d : Desc} (h : d &&& 1 = 0) : d &&& 3 ≠ 3 ∧ d &&& 3 ≠ 1 := by
  have hsplit : (d &&& 3) &&& 1 = 0 := by
    rw [BitVec.and_assoc, show (3 : Desc) &&& 1 = 1 by decide, h]
  constructor
  · intro h3
    rw [h3] at hsplit
    exact absurd hsplit (by decide)
  · intro h1
    rw [h1] at hsplit
    exact absurd hsplit (by decide)

lemma hwTable_invalid {d : Desc} (h : d &&& 1 = 0) : hwTable d = none := if_neg (invalid_and_three h).1

lemma output_invalid {k va : ℕ} {d : Desc} (h : d &&& 1 = 0) : output k d va = none := by
  obtain ⟨h3, h1⟩ := invalid_and_three h
  rw [output, if_neg]
  split_ifs with hk
  · exact fun hd => h3 hd.2
  · exact fun hd => h1 hd.2

lemma translateSlot_invalid {mem : ℕ → Desc} {k slot va : ℕ} (h : mem slot &&& 1 = 0) : translateSlot mem k slot va = none := by
  cases k with
  | zero => exact output_invalid h
  | succ k => rw [translateSlot_succ, hwTable_invalid h, output_invalid h]

section Walk

variable {mem mem' : ℕ → Desc} {t q j k va : ℕ} {js : List ℕ}

/-- The translation through a slot on the way. -/
theorem translateSlot_descend (hwalk : walk hwTable mem t js = some q) (hpre : js ++ [j] <+: indices k va) :
    translateSlot mem k (t + 8*indexAt k va) va = translateSlot mem (k - js.length) (q + 8*j) va := by
  induction js generalizing t k with
  | nil =>
    obtain rfl := Option.some.inj hwalk
    have hj : j = indexAt k va := by
      cases k with
      | zero => simpa [indices_zero] using hpre
      | succ k => simpa [indices_succ] using hpre
    rw [hj]
    rfl
  | cons i js ih =>
    cases k with
    | zero =>
      have := hpre.length_le
      simp only [indices_zero, List.length_cons, List.length_append, List.length_nil] at this
      omega
    | succ k =>
      rw [indices_succ, List.cons_append, List.cons_prefix_cons] at hpre
      obtain ⟨rfl, hpre⟩ := hpre
      obtain ⟨c, hc, hwalk⟩ := Option.bind_eq_some_iff.mp hwalk
      rw [translateSlot_succ, hc, List.length_cons, Nat.add_sub_add_right]
      exact ih hwalk hpre

/-- A translation depends only on the descriptors that its walk reads. -/
theorem translateSlot_congr (h : ∀ js q j, js ++ [j] <+: indices k va → walk hwTable mem t js = some q →
    mem' (q + 8*j) = mem (q + 8*j)) :
    translateSlot mem' k (t + 8*indexAt k va) va = translateSlot mem k (t + 8*indexAt k va) va := by
  induction k generalizing t with
  | zero => rw [translateSlot_zero, translateSlot_zero, h [] t (indexAt 0 va) (by simp [indices_zero]) rfl]
  | succ k ih =>
    have hslot := h [] t (indexAt (k+1) va) (by simp [indices_succ]) rfl
    rw [translateSlot_succ, translateSlot_succ, hslot]
    cases hc : hwTable (mem (t + 8*indexAt (k+1) va)) with
    | none => rfl
    | some c =>
      refine ih fun js q j hpre hq => h (indexAt (k+1) va :: js) q j ?_ ?_
      · rw [indices_succ, List.cons_append, List.cons_prefix_cons]
        exact ⟨rfl, hpre⟩
      · rw [walk, hc]
        exact hq

end Walk

section Forest

variable {mem mem' : ℕ → Desc} {roots : Set ℕ} {free : List ℕ} {r t j va : ℕ} {js : List ℕ}

/-- A memory that differs in one slot of the tables. -/
structure SlotChange (mem mem' : ℕ → Desc) (roots : Set ℕ) (t j : ℕ) : Prop where
  other : ∀ {r js q i}, Stands hwTable 3 mem roots r js q → i < 512 → ¬ (q = t ∧ i = j) → mem' (q + 8*i) = mem (q + 8*i)

/-- What lies above the slot reads as before. -/
lemma SlotChange.walk_eq (h : SlotChange mem mem' roots t j) (hf : Forest hwTable 3 mem roots free)
    (ht : Stands hwTable 3 mem roots r js t) : walk hwTable mem' r js = some t := by
  rw [← ht.reach]
  refine walk_congr fun ks i q hpre hq => ?_
  have hlen := hpre.length_le
  have hshort := ht.short
  rw [List.length_append, List.length_singleton] at hlen
  have hin : ∀ x ∈ ks ++ [i], x < 512 := fun x hx => ht.index x (hpre.subset hx)
  have hstands : Stands hwTable 3 mem roots r ks q := ⟨ht.root, fun x hx => hin x (by simp [hx]), by omega, hq⟩
  rw [h.other hstands (hin i (by simp))]
  rintro ⟨rfl, -⟩
  have heq := (hf.unique hstands ht).2
  rw [heq] at hlen
  omega

/-- Addresses that are translated through the slot. -/
theorem SlotChange.inside (h : SlotChange mem mem' roots t j) (hf : Forest hwTable 3 mem roots free)
    (ht : Stands hwTable 3 mem roots r js t) (hpre : js ++ [j] <+: indices 3 va) :
    translateSlot mem 3 (r + 8*indexAt 3 va) va = translateSlot mem (3 - js.length) (t + 8*j) va ∧
      translateSlot mem' 3 (r + 8*indexAt 3 va) va = translateSlot mem' (3 - js.length) (t + 8*j) va :=
  ⟨translateSlot_descend ht.reach hpre, translateSlot_descend (h.walk_eq hf ht) hpre⟩

/-- All other addresses are translated as before. -/
theorem SlotChange.outside (h : SlotChange mem mem' roots t j) (hf : Forest hwTable 3 mem roots free)
    (ht : Stands hwTable 3 mem roots r js t) (hpre : ¬ js ++ [j] <+: indices 3 va) :
    translateSlot mem' 3 (r + 8*indexAt 3 va) va = translateSlot mem 3 (r + 8*indexAt 3 va) va := by
  refine translateSlot_congr fun ks q i hks hq => ?_
  have hlen := hks.length_le
  rw [List.length_append, List.length_singleton, indices_length] at hlen
  have hin : ∀ x ∈ ks ++ [i], x < 512 := fun x hx => indices_lt (hks.subset hx)
  have hstands : Stands hwTable 3 mem roots r ks q := ⟨ht.root, fun x hx => hin x (by simp [hx]), by omega, hq⟩
  refine h.other hstands (hin i (by simp)) ?_
  rintro ⟨rfl, rfl⟩
  obtain ⟨-, rfl⟩ := hf.unique hstands ht
  exact hpre hks

end Forest

end HouseKernel.VirtualMemory
