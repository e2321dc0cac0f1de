import HouseKernel.Initramfs.Cpio
import HouseKernel.Lib.Checks

/-! What the parser returns on encoded archives. The names have to pass `decodeName` and to
survive their encoding in one byte for a character; nothing else is lost. -/
namespace HouseKernel.Initramfs

open HouseKernel.Lib
open HouseKernel.FileSystem (slash)

/-- The encoder represents the name, and the parser's naming rules admit it. -/
structure GoodName (s : Text) : Prop where
  nonempty : s ≠ []
  latin : ∀ c ∈ s, 0 < c.val ∧ c.val < 256
  relative : s.head? ≠ some slash
  confined : text ".." ∉ splitOn slash s
  length : s.length ≤ maxNameLen

/-- An entry that can stand in an archive before the trailer. -/
structure CpioEntry.Good (e : CpioEntry) : Prop where
  name : GoodName e.entryName
  notTrailer : e.entryName ≠ trailerName
  data : e.entryData.length ≤ maxFileBytes

lemma hexVal_hexChar : ∀ n < 16, hexVal (hexChar n) = some (BitVec.ofNat 32 n) := by decide

/-- Shifting a digit in. -/
lemma shiftLeft_or_digit {a b : ℕ} (ha : a < 2^28) (hb : b < 16) :
    BitVec.ofNat 32 a <<< 4 ||| BitVec.ofNat 32 b = BitVec.ofNat 32 (16*a + b) := by
  apply BitVec.eq_of_toNat_eq
  have hor : a <<< 4 ||| b = 16*a + b := by
    rw [← Nat.shiftLeft_add_eq_or_of_lt (by omega), Nat.shiftLeft_eq, Nat.mul_comm]
  simp only [BitVec.toNat_or, BitVec.toNat_shiftLeft, BitVec.toNat_ofNat]
  rw [Nat.mod_eq_of_lt (by omega : a < 2^32), Nat.mod_eq_of_lt (by omega : b < 2^32),
    Nat.mod_eq_of_lt (by rw [Nat.shiftLeft_eq]; omega), hor, Nat.mod_eq_of_lt (by omega)]

/-- The digits of a word from the `k`-th downwards, behind the digits above them. -/
lemma parseHexDigits_digits {w : ℕ} (hw : w < 2^32) {k : ℕ} (hk : k ≤ 8) :
    parseHexDigits ((List.range k).reverse.map fun i => hexChar (w / 16^i % 16)) (BitVec.ofNat 32 (w / 16^k)) =
      some (BitVec.ofNat 32 w) := by
  induction k with
  | zero => simp [parseHexDigits]
  | succ k ih =>
    have hdigit : w / 16^k % 16 < 16 := Nat.mod_lt _ (by decide)
    have hquot : w / 16^(k+1) = w / 16^k / 16 := by rw [Nat.pow_succ, Nat.div_div_eq_div_mul]
    have hle : w / 16^k ≤ w := Nat.div_le_self w _
    simp only [List.range_succ, List.reverse_append, List.reverse_singleton, List.singleton_append, List.map_cons,
      parseHexDigits, hexVal_hexChar _ hdigit, Option.bind_some]
    rw [shiftLeft_or_digit (by omega) hdigit, hquot, Nat.div_add_mod, ih (by omega)]

theorem parseHex8_hex8 (w : BitVec 32) : parseHex8 (hex8 w) = some w := by
  have hdigits := parseHexDigits_digits w.isLt (le_refl 8)
  rw [Nat.div_eq_of_lt (by omega), BitVec.ofNat_toNat, BitVec.setWidth_eq] at hdigits
  exact hdigits

@[simp] theorem hex8_length (w : BitVec 32) : (hex8 w).length = 8 := rfl

/-- The thirteen fields of a header. -/
def headerFields (e : CpioEntry) : Octets :=
  [0, e.entryMode, 0, 0, 1, 0, BitVec.ofNat 32 e.entryData.length, 0, 0, 0, 0,
    BitVec.ofNat 32 (e.entryName.length + 1), 0].flatMap hex8

/-- The padded name and payload. -/
def entryBody (e : CpioEntry) : Octets :=
  let nameLen := e.entryName.length + 1
  let namePad := padEntry (headerSize + nameLen)
  nameBytes e.entryName ++ (List.replicate namePad 0 ++ (e.entryData ++
    List.replicate (padEntry (headerSize + nameLen + namePad + e.entryData.length)) 0))

theorem encodeOne_eq (e : CpioEntry) : encodeOne e = magicNewc ++ (headerFields e ++ entryBody e) := by
  simp [encodeOne, headerFields, entryBody, List.append_assoc]

lemma headerFields_length (e : CpioEntry) : (headerFields e).length = 104 := rfl

lemma parseFields_headerFields {e : CpioEntry} (hname : e.entryName.length ≤ maxNameLen)
    (hdata : e.entryData.length ≤ maxFileBytes) :
    parseFields (headerFields e) = .ok ⟨e.entryMode, e.entryData.length, e.entryName.length + 1⟩ := by
  have hmode : ((headerFields e).drop 8).take 8 = hex8 e.entryMode := rfl
  have hsize : ((headerFields e).drop 48).take 8 = hex8 (BitVec.ofNat 32 e.entryData.length) := rfl
  have hlen : ((headerFields e).drop 88).take 8 = hex8 (BitVec.ofNat 32 (e.entryName.length + 1)) := rfl
  unfold maxNameLen at hname
  unfold maxFileBytes at hdata
  simp only [parseFields, hmode, hsize, hlen, parseHex8_hex8]
  simp only [note, pure, bind, Except.pure, Except.bind, BitVec.toNat_ofNat]
  rw [Nat.mod_eq_of_lt (by omega), Nat.mod_eq_of_lt (by omega)]

/-- Magic and header are read off, and the rest is left to `parseBody`. -/
theorem parseOne_encodeOne {e : CpioEntry} (hname : e.entryName.length ≤ maxNameLen)
    (hdata : e.entryData.length ≤ maxFileBytes) (rest : Octets) :
    parseOne (encodeOne e ++ rest) =
      parseBody ⟨e.entryMode, e.entryData.length, e.entryName.length + 1⟩ (entryBody e ++ rest) := by
  have htake : (encodeOne e ++ rest).take 6 = magicNewc := by rw [encodeOne_eq]; rfl
  have hdrop : (encodeOne e ++ rest).drop 6 = headerFields e ++ (entryBody e ++ rest) := by
    rw [encodeOne_eq, ← List.append_assoc]; rfl
  have hfields : (headerFields e ++ (entryBody e ++ rest)).take 104 = headerFields e :=
    List.take_left' (headerFields_length e)
  have hbody : (headerFields e ++ (entryBody e ++ rest)).drop 104 = entryBody e ++ rest :=
    List.drop_left' (headerFields_length e)
  simp only [parseOne, htake, hdrop, hfields, hbody, headerFields_length, parseFields_headerFields hname hdata]
  rfl

/-- A good name is what its bytes decode to. -/
theorem decodeName_map_toByte {s : Text} (h : GoodName s) : decodeName (s.map toByte) = .ok s := by
  have hself : (s.map toByte).map ofByte = s := map_ofByte_toByte_iff.mpr fun c hc => (h.latin c hc).2
  have hnul : (0 : BitVec 8) ∉ s.map toByte := by
    intro hmem
    obtain ⟨c, hc, hzero⟩ := List.mem_map.mp hmem
    obtain ⟨hpos, hlt⟩ := h.latin c hc
    have hval := congrArg BitVec.toNat hzero
    rw [toNat_toByte, Nat.mod_eq_of_lt hlt] at hval
    exact hpos.ne' hval
  have hhead : (s.map toByte).head? ≠ some 47 := by
    intro heq
    rw [List.head?_map] at heq
    obtain ⟨c, hc, hbyte⟩ := Option.map_eq_some_iff.mp heq
    have hback : c = slash := by
      rw [← ofByte_toByte_iff.mpr (h.latin c (List.mem_of_head? hc)).2, hbyte]
      rfl
    exact h.relative (hback ▸ hc)
  simp only [decodeName, List.map_eq_nil_iff, h.nonempty, List.contains_iff_mem, hnul, hhead, hself, h.confined,
    if_false]

lemma nameBytes_length (s : Text) : (nameBytes s).length = s.length + 1 := by simp [nameBytes]

/-- The name and its padding are read off the body. -/
theorem parseBody_entryBody {e : CpioEntry} (hname : GoodName e.entryName)
    (hdata : e.entryData.length ≤ maxFileBytes) (rest : Octets) :
    parseBody ⟨e.entryMode, e.entryData.length, e.entryName.length + 1⟩ (entryBody e ++ rest) =
      if e.entryName = trailerName then
        if e.entryData.length ≠ 0 then .error (.badHeader "trailer has payload") else .ok none
      else
        parsePayload e.entryName ⟨e.entryMode, e.entryData.length, e.entryName.length + 1⟩
          (e.entryData ++ (List.replicate (padEntry (headerSize + (e.entryName.length + 1) +
            padEntry (headerSize + (e.entryName.length + 1)) + e.entryData.length)) 0 ++ rest)) := by
  have htake : (entryBody e ++ rest).take (e.entryName.length + 1) = nameBytes e.entryName := by
    rw [entryBody, List.append_assoc]
    exact List.take_left' (nameBytes_length _)
  have hdrop : ((entryBody e ++ rest).drop (e.entryName.length + 1)).drop
      (padEntry (headerSize + (e.entryName.length + 1))) =
      e.entryData ++ (List.replicate (padEntry (headerSize + (e.entryName.length + 1) +
        padEntry (headerSize + (e.entryName.length + 1)) + e.entryData.length)) 0 ++ rest) := by
    rw [entryBody, List.append_assoc, List.drop_left' (nameBytes_length _), List.append_assoc,
      List.drop_left' List.length_replicate, List.append_assoc]
  have hlast : (nameBytes e.entryName).getLast? = some 0 := by simp [nameBytes]
  have hraw : (nameBytes e.entryName).take e.entryName.length = e.entryName.map toByte :=
    List.take_left' (List.length_map _)
  simp only [parseBody, htake, hdrop, hlast, nameBytes_length, Nat.add_sub_cancel, hraw,
    decodeName_map_toByte hname, Nat.not_lt.mpr hname.length, Nat.not_lt.mpr hdata, if_false, ne_eq,
    not_true_eq_false, Nat.lt_irrefl]
  rfl

lemma parsePayload_append {name : Text} {f : CpioFields} {data pad rest : Octets} (hdata : data.length = f.filesize)
    (hpad : pad.length = padEntry (headerSize + f.namesize + padEntry (headerSize + f.namesize) + f.filesize)) :
    parsePayload name f (data ++ (pad ++ rest)) = .ok (some (⟨name, f.mode, data⟩, rest)) := by
  simp only [parsePayload, List.take_left' hdata, List.drop_left' hdata, List.drop_left' hpad, hdata,
    Nat.lt_irrefl, if_false]

/-- An encoded entry is parsed back, up to where the next one starts. -/
theorem parseOne_good {e : CpioEntry} (h : e.Good) (rest : Octets) :
    parseOne (encodeOne e ++ rest) = .ok (some (e, rest)) := by
  rw [parseOne_encodeOne h.name.length h.data, parseBody_entryBody h.name h.data, if_neg h.notTrailer]
  exact parsePayload_append rfl (by simp)

lemma trailer_goodName : GoodName trailerName :=
  ⟨by decide, forall_of_all (by decide), by decide, by decide, by decide⟩

theorem parseOne_trailer (rest : Octets) : parseOne (encodeOne ⟨trailerName, 0, []⟩ ++ rest) = .ok none := by
  rw [parseOne_encodeOne trailer_goodName.length (Nat.zero_le _),
    parseBody_entryBody trailer_goodName (Nat.zero_le _), if_pos rfl, if_neg (by simp)]

/-- The loop over the entries, from any point of the archive. -/
theorem parseEntries_encode {es acc : List CpioEntry} (hgood : ∀ e ∈ es, e.Good) {left : ℕ}
    (hleft : left + acc.length = maxFiles + 1) (hcount : es.length + acc.length ≤ maxFiles) :
    parseEntries left (encodeCpio es) acc = .ok (acc.reverse ++ es) := by
  induction es generalizing acc left with
  | nil =>
    obtain ⟨left, rfl⟩ : ∃ k, left = k + 1 := ⟨left - 1, by simp at hcount; omega⟩
    have htrailer : parseOne (encodeCpio []) = .ok none := by
      simpa [encodeCpio] using parseOne_trailer []
    simp only [parseEntries, htrailer]
    simp [bind, Except.bind]
  | cons e es ih =>
    obtain ⟨left, rfl⟩ : ∃ k, left = k + 1 := ⟨left - 1, by simp at hcount; omega⟩
    have hone : parseOne (encodeCpio (e :: es)) = .ok (some (e, encodeCpio es)) := by
      rw [encodeCpio, List.flatMap_cons, List.append_assoc]
      exact parseOne_good (hgood e List.mem_cons_self) _
    have hroom : ¬ maxFiles < acc.length + 1 := by simp at hcount; omega
    simp only [parseEntries, hone]
    rw [List.length_cons] at hcount
    have hrec : parseEntries left (encodeCpio es) (e :: acc) = .ok ((e :: acc).reverse ++ es) :=
      ih (fun d hd => hgood d (List.mem_cons_of_mem _ hd)) (by simp; omega) (by simp; omega)
    simpa [bind, Except.bind, hroom] using hrec

/-- Every list of entries within the caps of the parser, with names that the encoder represents
and the parser admits, is what its archive parses to. -/
theorem parseCpio_encodeCpio {es : List CpioEntry} (hgood : ∀ e ∈ es, e.Good) (hcount : es.length ≤ maxFiles)
    (hsize : (encodeCpio es).length ≤ maxArchiveBytes) : parseCpio (encodeCpio es) = .ok es := by
  rw [parseCpio, if_neg (Nat.not_lt.mpr hsize)]
  exact parseEntries_encode hgood rfl (by simpa using hcount)

/-- A directory and a file below it. -/
theorem parseCpio_encodeCpio_two :
    parseCpio (encodeCpio [⟨text "etc", 0o040755, []⟩, ⟨text "etc/motd", 0o100644, [104, 105]⟩]) =
      .ok [⟨text "etc", 0o040755, []⟩, ⟨text "etc/motd", 0o100644, [104, 105]⟩] := by
  refine parseCpio_encodeCpio (fun e he => ?_) (by decide) (by decide +kernel)
  rw [List.mem_cons, List.mem_singleton] at he
  obtain rfl | rfl := he
  · exact ⟨⟨by decide, forall_of_all (by decide), by decide, by decide, by decide⟩, by decide, by decide⟩
  · exact ⟨⟨by decide, forall_of_all (by decide), by decide, by decide, by decide⟩, by decide, by decide⟩

def absoluteFile : CpioEntry := ⟨text "/a", 0o100644, []⟩

/-- An absolute path is a name within the caps, and the parser refuses it. -/
theorem parseCpio_absolute :
    (absoluteFile.entryName ≠ [] ∧ (∀ c ∈ absoluteFile.entryName, 0 < c.val) ∧
      absoluteFile.entryName ≠ trailerName ∧ absoluteFile.entryName.length ≤ maxNameLen ∧
      absoluteFile.entryData.length ≤ maxFileBytes ∧ (encodeCpio [absoluteFile]).length ≤ maxArchiveBytes) ∧
    parseCpio (encodeCpio [absoluteFile]) = .error (.badName "absolute path") := by
  refine ⟨⟨by decide, forall_of_all (by decide), by decide, by decide, by decide, by decide +kernel⟩, ?_⟩
  decide +kernel

end HouseKernel.Initramfs
