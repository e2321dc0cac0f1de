import Mathlib.Data.List.Basic

/-! Items that are a tag, a length and as many octets, one behind the other. A pad octet is an item of its own, and a stop
octet ends them; what comes behind it is not looked at. -/
namespace HouseKernel.Lib

inductive TlvItem where
  | pad
  | value (tag : BitVec 8) (data : List (BitVec 8))
  deriving DecidableEq, Repr

/-- The tag is not one of the two marks, and the length fits its octet. -/
def TlvItem.Formed (pad stop : BitVec 8) : TlvItem → Prop
  | .pad => True
  | .value tag data => tag ≠ stop ∧ tag ≠ pad ∧ data.length < 256

def TlvItem.bytes (pad : BitVec 8) : TlvItem → List (BitVec 8)
  | .pad => [pad]
  | .value tag data => tag :: BitVec.ofNat 8 data.length :: data

/-- What may stand behind the last item. -/
def TlvEnd (stop : BitVec 8) (tail : List (BitVec 8)) : Prop := tail = [] ∨ ∃ rest, tail = stop :: rest

/-- The items, unless one of them is cut short. -/
def readTlv (pad stop : BitVec 8) : List (BitVec 8) → Option (List TlvItem)
  | [] => some []
  | tag :: rest =>
    if tag = stop then some []
    else if tag = pad then (readTlv pad stop rest).map (.pad :: ·)
    else match rest with
      | [] => none
      | len :: rest =>
        if rest.length < len.toNat then none
        else (readTlv pad stop (rest.drop len.toNat)).map (.value tag (rest.take len.toNat) :: ·)
termination_by bytes => bytes.length
decreasing_by
  · simp
  · simp only [List.length_drop, List.length_cons]
    omega

section Reading

variable {pad stop tag : BitVec 8} {data bytes tail : List (BitVec 8)} {items : List TlvItem}

theorem readTlv_stop : readTlv pad stop (stop :: bytes) = some [] := by
  rw [readTlv.eq_def]
  exact if_pos rfl

theorem readTlv_end (h : TlvEnd stop tail) : readTlv pad stop tail = some [] := by
  obtain rfl | ⟨rest, rfl⟩ := h
  · rw [readTlv]
  · exact readTlv_stop

theorem readTlv_pad (hne : pad ≠ stop) : readTlv pad stop (pad :: bytes) = (readTlv pad stop bytes).map (.pad :: ·) := by
  rw [readTlv.eq_def]
  dsimp only
  rw [if_neg hne, if_pos rfl]

theorem readTlv_value (hstop : tag ≠ stop) (hpad : tag ≠ pad) (hlen : data.length < 256) :
    readTlv pad stop (tag :: BitVec.ofNat 8 data.length :: (data ++ bytes)) =
      (readTlv pad stop bytes).map (.value tag data :: ·) := by
  have hval : (BitVec.ofNat 8 data.length).toNat = data.length := by
    rw [BitVec.toNat_ofNat, Nat.mod_eq_of_lt hlen]
  rw [readTlv, if_neg hstop, if_neg hpad, hval, if_neg (by simp), List.drop_left, List.take_left]

/-- What was written is read back. -/
theorem readTlv_bytes (hne : pad ≠ stop) (hitems : ∀ i ∈ items, i.Formed pad stop) (htail : TlvEnd stop tail) :
    readTlv pad stop (items.flatMap (TlvItem.bytes pad) ++ tail) = some items := by
  induction items with
  | nil => exact readTlv_end htail
  | cons i items ih =>
    obtain ⟨hi, hrest⟩ := List.forall_mem_cons.mp hitems
    rw [List.flatMap_cons, List.append_assoc]
    cases i with
    | pad => rw [TlvItem.bytes, List.cons_append, List.nil_append, readTlv_pad hne, ih hrest, Option.map_some]
    | value tag data =>
      obtain ⟨hstop, hpad, hlen⟩ := hi
      rw [TlvItem.bytes, List.cons_append, List.cons_append, readTlv_value hstop hpad hlen, ih hrest, Option.map_some]

/-- What is read was written. -/
theorem bytes_of_readTlv (h : readTlv pad stop bytes = some items) :
    (∀ i ∈ items, i.Formed pad stop) ∧ ∃ tail, TlvEnd stop tail ∧ bytes = items.flatMap (TlvItem.bytes pad) ++ tail := by
  induction bytes using readTlv.induct pad stop generalizing items with
  | case1 =>
    rw [readTlv] at h
    obtain rfl := Option.some.inj h
    exact ⟨by simp, [], .inl rfl, rfl⟩
  | case2 rest =>
    rw [readTlv_stop] at h
    obtain rfl := Option.some.inj h
    exact ⟨by simp, _, .inr ⟨rest, rfl⟩, rfl⟩
  | case3 rest hne ih =>
    rw [readTlv_pad hne] at h
    obtain ⟨items, hrest, rfl⟩ := Option.map_eq_some_iff.mp h
    obtain ⟨hformed, tail, htail, rfl⟩ := ih hrest
    exact ⟨List.forall_mem_cons.mpr ⟨trivial, hformed⟩, tail, htail, rfl⟩
  | case4 tag hstop hpad =>
    rw [readTlv, if_neg hstop, if_neg hpad] at h
    cases h
  | case5 tag hstop hpad len rest hshort =>
    rw [readTlv, if_neg hstop, if_neg hpad, if_pos hshort] at h
    cases h
  | case6 tag hstop hpad len rest hfits ih =>
    rw [readTlv, if_neg hstop, if_neg hpad, if_neg hfits] at h
    obtain ⟨items, hrest, rfl⟩ := Option.map_eq_some_iff.mp h
    obtain ⟨hformed, tail, htail, hbytes⟩ := ih hrest
    have hlen : (rest.take len.toNat).length = len.toNat := by
      rw [List.length_take]
      omega
    refine ⟨List.forall_mem_cons.mpr ⟨⟨hstop, hpad, by rw [hlen]; exact len.isLt⟩, hformed⟩, tail, htail, ?_⟩
    rw [List.flatMap_cons, TlvItem.bytes, hlen, BitVec.ofNat_toNat, BitVec.setWidth_eq, List.append_assoc, ← hbytes,
      List.cons_append, List.cons_append, List.take_append_drop]

end Reading

end HouseKernel.Lib
