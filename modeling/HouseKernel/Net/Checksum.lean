import HouseKernel.Lib.OnesComplement
import HouseKernel.Net.Stack

/-! Checksums of what is sent, as a receiver verifies them: the words, the last one filled up with a zero byte,
sum up to all ones. -/
namespace HouseKernel.Net

open HouseKernel.Lib

/-- The words that a receiver sums up. -/
def words : List Byte → List ℕ
  | [] => []
  | [b] => [b.toNat*256]
  | hi :: lo :: rest => (hi.toNat*256 + lo.toNat) :: words rest

@[simp] lemma words_nil : words [] = [] := rfl

@[simp] lemma words_single (b : Byte) : words [b] = [b.toNat*256] := rfl

@[simp] lemma words_cons_cons (hi lo : Byte) (rest : List Byte) :
    words (hi :: lo :: rest) = (hi.toNat*256 + lo.toNat) :: words rest := rfl

/-- The ones' complement sum. -/
def internetSum (bytes : List Byte) : ℕ := carrySum 0xFFFF (words bytes)

/-- What is summed up before a transport segment. -/
def pseudoHeader (src dst : Ipv4) (proto : Byte) (len : ℕ) : List Byte :=
  src.toList ++ dst.toList ++ [0x00, proto] ++ word16be (BitVec.ofNat 16 len)

section Words

variable {pre post bytes : List Byte}

lemma words_le (bytes : List Byte) : ∀ w ∈ words bytes, w ≤ 0xFFFF := by
  induction bytes using words.induct with
  | case1 => simp
  | case2 b =>
    have := b.isLt
    simp only [words_single, List.mem_singleton, forall_eq]
    omega
  | case3 hi lo rest ih =>
    have h1 := hi.isLt
    have h2 := lo.isLt
    simp only [words_cons_cons, List.forall_mem_cons]
    exact ⟨by omega, ih⟩

lemma words_append (h : pre.length % 2 = 0) (post : List Byte) : words (pre ++ post) = words pre ++ words post := by
  induction pre using words.induct with
  | case1 => rfl
  | case2 b => simp at h
  | case3 hi lo rest ih =>
    have hrest : rest.length % 2 = 0 := by
      simp only [List.length_cons] at h
      omega
    simp only [List.cons_append, words_cons_cons, ih hrest]

lemma words_word16be (w : Word16) (post : List Byte) : words (word16be w ++ post) = w.toNat :: words post := by
  have hw := w.isLt
  simp only [word16be, List.cons_append, List.nil_append, words_cons_cons, BitVec.toNat_setWidth, BitVec.toNat_ushiftRight,
    Nat.shiftRight_eq_div_pow]
  congr 1
  omega

/-- Filling up with a zero byte does not change the words. -/
lemma words_append_zero (h : bytes.length % 2 = 1) : words (bytes ++ [0]) = words bytes := by
  induction bytes using words.induct with
  | case1 => simp at h
  | case2 b => simp
  | case3 hi lo rest ih =>
    have hrest : rest.length % 2 = 1 := by
      simp only [List.length_cons] at h
      omega
    simp only [List.cons_append, words_cons_cons, ih hrest]

lemma words_concat (h : pre.length % 2 = 0) (b : Byte) : words (pre ++ [b]) = words pre ++ [b.toNat*256] := words_append h [b]

end Words

section Chunks

lemma chunk_toNat (hi lo : Byte) : (hi.setWidth 32 <<< 8 ||| lo.setWidth 32).toNat = hi.toNat*256 + lo.toNat := by
  have h1 := hi.isLt
  have h2 := lo.isLt
  rw [BitVec.toNat_or, BitVec.toNat_shiftLeft, BitVec.toNat_setWidth, BitVec.toNat_setWidth,
    Nat.mod_eq_of_lt (by omega : hi.toNat < 2^32), Nat.mod_eq_of_lt (by omega : lo.toNat < 2^32), Nat.shiftLeft_eq,
    Nat.mod_eq_of_lt (by omega), ← Nat.shiftLeft_eq, ← Nat.shiftLeft_add_eq_or_of_lt (by omega : lo.toNat < 2^8),
      Nat.shiftLeft_eq]

/-- The loop sums up the words of a list of even length. -/
lemma chunks_even {bytes : List Byte} (h : bytes.length % 2 = 0) : (chunks bytes).map BitVec.toNat = words bytes := by
  induction bytes using words.induct with
  | case1 => rfl
  | case2 b => simp at h
  | case3 hi lo rest ih =>
    have hrest : rest.length % 2 = 0 := by
      simp only [List.length_cons] at h
      omega
    simp only [chunks, words_cons_cons, List.map_cons, chunk_toNat, ih hrest]

/-- It leaves out an odd byte at the end. -/
lemma chunks_concat {pre : List Byte} (h : pre.length % 2 = 0) (b : Byte) : chunks (pre ++ [b]) = chunks pre := by
  induction pre using words.induct with
  | case1 => rfl
  | case2 b => simp at h
  | case3 hi lo rest ih =>
    have hrest : rest.length % 2 = 0 := by
      simp only [List.length_cons] at h
      omega
    simp only [List.cons_append, chunks, ih hrest]

/-- One round of the loop. -/
def add16 (acc w : Word32) : Word32 := ((acc + w) &&& (0xFFFF : Word32)) + ((acc + w) >>> 16)

lemma add16_toNat {acc w : Word32} (ha : acc.toNat ≤ 0xFFFF) (hw : w.toNat ≤ 0xFFFF) :
    (add16 acc w).toNat = carryAdd 0xFFFF acc.toNat w.toNat := by
  have hsum : (acc + w).toNat = acc.toNat + w.toNat := by
    rw [BitVec.toNat_add]
    omega
  have hlow : ((acc + w) &&& 0xFFFF).toNat = (acc.toNat + w.toNat) % 65536 := by
    rw [BitVec.toNat_and, hsum]
    exact Nat.and_two_pow_sub_one_eq_mod _ 16
  have hhigh : ((acc + w) >>> 16).toNat = (acc.toNat + w.toNat) / 65536 := by
    rw [BitVec.toNat_ushiftRight, hsum, Nat.shiftRight_eq_div_pow]
  rw [add16, BitVec.toNat_add, hlow, hhigh, carryAdd]
  split_ifs with h
  · omega
  · omega

lemma foldl_add16 {ws : List Word32} {acc : Word32} (ha : acc.toNat ≤ 0xFFFF) (hws : ∀ w ∈ ws, w.toNat ≤ 0xFFFF) :
    (ws.foldl add16 acc).toNat = (ws.map BitVec.toNat).foldl (carryAdd 0xFFFF) acc.toNat := by
  induction ws generalizing acc with
  | nil => rfl
  | cons w ws ih =>
    obtain ⟨hw, hws⟩ := List.forall_mem_cons.mp hws
    have hstep := add16_toNat ha hw
    rw [List.foldl_cons, List.map_cons, List.foldl_cons, ← hstep]
    exact ih (hstep ▸ carryAdd_le ha hw) hws

/-- The checksum of a list of even length is the complement of its sum. -/
lemma ipv4Checksum_toNat {bytes : List Byte} (h : bytes.length % 2 = 0) :
    (ipv4Checksum bytes).toNat = 0xFFFF - internetSum bytes := by
  have hws : ∀ w ∈ chunks bytes, w.toNat ≤ 0xFFFF := by
    intro w hw
    exact words_le bytes _ (chunks_even h ▸ List.mem_map_of_mem hw)
  have hfold := foldl_add16 (show (0 : Word32).toNat ≤ 0xFFFF from Nat.zero_le _) hws
  rw [chunks_even h] at hfold
  have hcompl : ∀ s : Word32, (((s &&& 0xFFFF) ^^^ 0xFFFF).setWidth 16 : Word16) = ~~~(s.setWidth 16) := by
    intro s
    rw [BitVec.setWidth_xor, BitVec.setWidth_and]
    have hones : (0xFFFF : Word32).setWidth 16 = BitVec.allOnes 16 := by decide
    rw [hones, BitVec.and_allOnes, BitVec.xor_allOnes]
  have hle : internetSum bytes ≤ 0xFFFF := carrySum_le (words_le bytes)
  have hsum : (((chunks bytes).foldl add16 0).setWidth 16).toNat = internetSum bytes := by
    rw [BitVec.toNat_setWidth, hfold]
    exact Nat.mod_eq_of_lt (Nat.lt_succ_of_le hle)
  have hdef : ipv4Checksum bytes = ~~~(((chunks bytes).foldl add16 0).setWidth 16) := hcompl _
  rw [hdef, BitVec.toNat_not, hsum]

end Chunks

/-- The list with a zero byte behind it, if it is odd. -/
def padEven (bytes : List Byte) : List Byte := if bytes.length % 2 = 1 then bytes ++ [0] else bytes

section Insert

variable {pre post bytes : List Byte}

@[simp] lemma length_word16be (w : Word16) : (word16be w).length = 2 := rfl

@[simp] lemma length_word32be (w : Word32) : (word32be w).length = 4 := rfl

@[simp] lemma length_toList (i : Ipv4) : i.toList.length = 4 := rfl

lemma padEven_of_even (h : bytes.length % 2 = 0) : padEven bytes = bytes := if_neg (by omega)

lemma padEven_append (h : pre.length % 2 = 0) (post : List Byte) : padEven (pre ++ post) = pre ++ padEven post := by
  have hparity : (pre ++ post).length % 2 = 1 ↔ post.length % 2 = 1 := by
    rw [List.length_append]
    omega
  unfold padEven
  by_cases hpost : post.length % 2 = 1
  · rw [if_pos (hparity.mpr hpost), if_pos hpost, List.append_assoc]
  · rw [if_neg (mt hparity.mp hpost), if_neg hpost]

lemma words_padEven (bytes : List Byte) : words (padEven bytes) = words bytes := by
  unfold padEven
  split_ifs with h
  · exact words_append_zero h
  · rfl

lemma padEven_even (bytes : List Byte) : (padEven bytes).length % 2 = 0 := by
  unfold padEven
  split_ifs with h
  · rw [List.length_append, List.length_singleton]
    omega
  · omega

/-- The checksum of a packet whose field for it is zero makes the packet verify. -/
theorem internetSum_insert (hpre : pre.length % 2 = 0) (post : List Byte) :
    internetSum (pre ++ (word16be (ipv4Checksum (pre ++ ([0x00, 0x00] ++ padEven post))) ++ post)) = 0xFFFF := by
  have hblank : words (pre ++ ([0x00, 0x00] ++ padEven post)) = words pre ++ 0 :: words post := by
    rw [words_append hpre, ← words_padEven post]
    simp
  have heven : (pre ++ ([0x00, 0x00] ++ padEven post)).length % 2 = 0 := by
    have := padEven_even post
    simp only [List.length_append, List.length_cons, List.length_nil]
    omega
  rw [internetSum, words_append hpre, words_word16be, ipv4Checksum_toNat heven, internetSum, hblank]
  exact carrySum_complement (by decide) (words_le pre) (words_le post)

/-- So does one that is summed up together with a pseudo-header. -/
theorem internetSum_segment {pseudo : List Byte} (hpseudo : pseudo.length % 2 = 0) (hpre : pre.length % 2 = 0)
    (post : List Byte) :
    internetSum (pseudo ++ (pre ++ (word16be (ipv4Checksum (pseudo ++ padEven (pre ++ ([0x00, 0x00] ++ post)))) ++ post))) =
      0xFFFF := by
  have heven : (pseudo ++ pre).length % 2 = 0 := by
    rw [List.length_append]
    omega
  rw [padEven_append hpre, padEven_append (by simp), ← List.append_assoc, ← List.append_assoc pseudo pre]
  exact internetSum_insert heven post

/-- An odd byte at the end counts as the high byte of a word. -/
lemma internetSum_concat (h : pre.length % 2 = 0) (b : Byte) :
    internetSum (pre ++ [b]) = carryAdd 0xFFFF (internetSum pre) (b.toNat*256) := by
  rw [internetSum, words_concat h, carrySum, List.foldl_append]
  rfl

end Insert

section Emitted

theorem ipv4_verifies (src dst : Ipv4) (proto : Byte) (payload : List Byte) :
    internetSum ((encodeIpv4 src dst proto payload).take 20) = 0xFFFF := by
  have hpre : ([0x45, 0x00] ++ word16be (BitVec.ofNat 16 (20 + payload.length)) ++
      [0x00, 0x00, 0x40, 0x00, 0x40, proto]).length % 2 = 0 := by
    simp
  have hinsert := internetSum_insert hpre (src.toList ++ dst.toList)
  rw [padEven_of_even (by simp)] at hinsert
  exact hinsert

lemma tcpChecksum_eq (src dst : Ipv4) (segBytes : List Byte) :
    tcpChecksum src dst segBytes = ipv4Checksum (pseudoHeader src dst 6 segBytes.length ++ padEven segBytes) := rfl

theorem tcp_verifies (src dst : Ipv4) (seg : TcpSegment) :
    internetSum (pseudoHeader src dst 6 (encodeTcp src dst seg).length ++ encodeTcp src dst seg) = 0xFFFF := by
  have hpseudo : ∀ len, (pseudoHeader src dst 6 len).length % 2 = 0 := by
    simp [pseudoHeader]
  -- the segment is a part before the checksum, the checksum and a part behind it
  obtain ⟨pre, post, hpre, heq⟩ : ∃ pre post : List Byte, pre.length % 2 = 0 ∧ encodeTcp src dst seg =
      pre ++ (word16be (tcpChecksum src dst (pre ++ ([0x00, 0x00] ++ post))) ++ post) := by
    have hlen : (word16be seg.srcPort ++ word16be seg.dstPort ++ word32be seg.seq ++ word32be seg.ack ++ [0x50, seg.flags] ++
        word16be seg.window).length = 16 := rfl
    unfold encodeTcp
    dsimp only
    generalize word16be seg.srcPort ++ word16be seg.dstPort ++ word32be seg.seq ++ word32be seg.ack ++ [0x50, seg.flags] ++
      word16be seg.window = pre at hlen ⊢
    refine ⟨pre, [0x00, 0x00] ++ seg.payload, by rw [hlen], ?_⟩
    rw [List.take_left' hlen, show 18 = pre.length + 2 by rw [hlen], List.drop_append]
    simp
  have hlen : (encodeTcp src dst seg).length = (pre ++ ([0x00, 0x00] ++ post)).length := by
    rw [heq]
    simp only [List.length_append, length_word16be, List.length_cons, List.length_nil]
  rw [hlen, heq, tcpChecksum_eq]
  exact internetSum_segment (hpseudo _) hpre post

theorem icmp_verifies_iff (ident seqNum : Word16) (payload : List Byte) :
    internetSum (encodeIcmpEcho ident seqNum payload) = 0xFFFF ↔ payload.length % 2 = 0 ∨ payload.getLast? = some 0 := by
  have heven : ∀ {bytes : List Byte}, bytes.length % 2 = 0 → internetSum (encodeIcmpEcho ident seqNum bytes) = 0xFFFF := by
    intro bytes h
    have htype : ([0x08, 0x00] : List Byte).length % 2 = 0 := rfl
    have hinsert := internetSum_insert htype (word16be ident ++ word16be seqNum ++ bytes)
    rw [padEven_append (by simp), padEven_of_even h] at hinsert
    exact hinsert
  obtain hpayload | hpayload := Nat.mod_two_eq_zero_or_one payload.length
  · exact iff_of_true (heven hpayload) (.inl hpayload)
  · obtain rfl | ⟨bytes, b, rfl⟩ := List.eq_nil_or_concat payload
    · simp at hpayload
    rw [List.concat_eq_append, List.length_append, List.length_singleton] at hpayload
    rw [List.concat_eq_append, List.getLast?_concat]
    have hbytes : bytes.length % 2 = 0 := by omega
    have hhead : ([0x08, 0x00, 0x00, 0x00] ++ word16be ident ++ word16be seqNum ++ bytes).length % 2 = 0 := by
      simp only [List.length_append, length_word16be, List.length_cons, List.length_nil]
      omega
    have hdropped : encodeIcmpEcho ident seqNum (bytes ++ [b]) = encodeIcmpEcho ident seqNum bytes ++ [b] := by
      have hsame := chunks_concat hhead b
      rw [List.append_assoc] at hsame
      rw [encodeIcmpEcho, encodeIcmpEcho, ipv4Checksum, hsame, ← ipv4Checksum]
      simp only [List.append_assoc]
    have hlen : (encodeIcmpEcho ident seqNum bytes).length % 2 = 0 := hhead
    rw [hdropped, internetSum_concat hlen, heven hbytes, carryAdd, List.length_append, List.length_singleton, Option.some.injEq,
      ← BitVec.toNat_inj]
    have hb := b.isLt
    have hzero : (0 : Byte).toNat = 0 := rfl
    split_ifs with h
    · omega
    · omega

/-- The header of every IPv4 packet and every TCP segment verify, but an ICMP echo message only if its payload has
an even length or ends with a zero byte: the sum leaves an odd byte out. -/
theorem checksums_verify_iff (src dst : Ipv4) (proto : Byte) (seg : TcpSegment) (ident seqNum : Word16) (payload : List Byte) :
    internetSum ((encodeIpv4 src dst proto payload).take 20) = 0xFFFF ∧
      internetSum (pseudoHeader src dst 6 (encodeTcp src dst seg).length ++ encodeTcp src dst seg) = 0xFFFF ∧
      (internetSum (encodeIcmpEcho ident seqNum payload) = 0xFFFF ↔ payload.length % 2 = 0 ∨ payload.getLast? = some 0) :=
  ⟨ipv4_verifies src dst proto payload, tcp_verifies src dst seg, icmp_verifies_iff ident seqNum payload⟩

/-- One byte of payload is not in the sum. -/
theorem odd_echo_fails : ¬ ∀ (ident seqNum : Word16) (payload : List Byte), 8 + payload.length < 65536 →
    internetSum (encodeIcmpEcho ident seqNum payload) = 0xFFFF := by
  intro hall
  exact absurd (hall 1 2 [0x61] (by decide)) (by decide)

end Emitted

end HouseKernel.Net
