import Mathlib.Data.List.Basic
import Mathlib.Data.Nat.ModEq

/-! Rings of slots with free-running counters. Entry `i` of all that were ever entered stands in slot `i` modulo the
size, until the counter of the reader has passed it. The counters wrap at a power of two that the size divides. -/
namespace HouseKernel.Lib

variable {α : Type*} {size w n t : ℕ} {buf : ℕ → α} {entries : List α} {x : α}

/-- The entries from `t` on stand in their slots. -/
def Window (size : ℕ) (buf : ℕ → α) (entries : List α) (t : ℕ) : Prop :=
  ∀ i x, t ≤ i → entries[i]? = some x → buf (i % size) = x

lemma window_nil : Window size buf [] t := nofun

lemma Window.read (h : Window size buf entries t) (hx : entries[t]? = some x) : buf (t % size) = x :=
  h t x le_rfl hx

/-- What the reader has passed is no longer needed. -/
lemma Window.pass (h : Window size buf entries t) : Window size buf entries (t+1) :=
  fun i x hi hx => h i x (by omega) hx

/-- Slots of two counters apart by less than the size. -/
lemma slot_ne {i j : ℕ} (hlt : i < j) (hnear : j < i + size) : i % size ≠ j % size := by
  intro hslot
  have hdvd : size ∣ j - i := (Nat.modEq_iff_dvd' hlt.le).mp hslot
  have hle : size ≤ j - i := Nat.le_of_dvd (by omega) hdvd
  omega

/-- A new entry does not touch those that the reader still needs. -/
lemma Window.write (h : Window size buf entries t) (hroom : entries.length < t + size) :
    Window size (Function.update buf (entries.length % size) x) (entries ++ [x]) t := by
  intro i y hi hy
  obtain hlt | hge := Nat.lt_or_ge i entries.length
  · rw [List.getElem?_append_left hlt] at hy
    rw [Function.update_of_ne (slot_ne hlt (by omega))]
    exact h i y hi hy
  · rw [List.getElem?_append_right hge, List.getElem?_singleton] at hy
    split_ifs at hy with hlast
    obtain rfl := Option.some.inj hy
    obtain rfl : i = entries.length := by omega
    exact Function.update_self ..

/-- A prefix and the entry behind it. -/
lemma concat_prefix {popped : List α} (h : popped <+: entries) (hx : entries[popped.length]? = some x) :
    popped ++ [x] <+: entries := by
  obtain ⟨rest, rfl⟩ := h
  rw [List.getElem?_append_right le_rfl, Nat.sub_self] at hx
  cases rest with
  | nil => cases hx
  | cons y rest =>
    obtain rfl := Option.some.inj hx
    exact ⟨rest, List.append_assoc _ _ _⟩

lemma toNat_counter_sub (hle : t ≤ n) (hlt : n < t + 2 ^ w) : (BitVec.ofNat w n - BitVec.ofNat w t).toNat = n - t := by
  obtain ⟨d, rfl⟩ := Nat.exists_eq_add_of_le hle
  have hsum : BitVec.ofNat w (t + d) = BitVec.ofNat w t + BitVec.ofNat w d := BitVec.ofNat_add t d
  have hsub : BitVec.ofNat w t + BitVec.ofNat w d - BitVec.ofNat w t = BitVec.ofNat w d := by
    rw [BitVec.add_comm, BitVec.add_sub_cancel]
  rw [hsum, hsub, BitVec.toNat_ofNat, Nat.mod_eq_of_lt (by omega)]
  omega

lemma counter_eq_iff (hle : t ≤ n) (hlt : n < t + 2 ^ w) : BitVec.ofNat w t = BitVec.ofNat w n ↔ t = n := by
  constructor
  · intro heq
    have hsub := toNat_counter_sub hle hlt
    rw [heq, BitVec.sub_self] at hsub
    have hzero : n - t = 0 := hsub.symm
    omega
  · rintro rfl
    rfl

lemma counter_slot (hdvd : size ∣ 2 ^ w) (n : ℕ) : (BitVec.ofNat w n).toNat % size = n % size := by
  rw [BitVec.toNat_ofNat, Nat.mod_mod_of_dvd n hdvd]

lemma counter_succ (n : ℕ) : BitVec.ofNat w n + 1 = BitVec.ofNat w (n + 1) := by
  rw [BitVec.ofNat_add]
  rfl

end HouseKernel.Lib
