import HouseKernel.Lib.Checks
import HouseKernel.Lib.Tlv
import HouseKernel.Net.Stack

/-! DHCP messages: what the client broadcasts, and the replies that it accepts. The options of a reply are tags with a
length; only the type of the message and the identifier of the server are looked at, and the last of each counts. -/
namespace HouseKernel.Net

open HouseKernel.Lib

structure DhcpMsg where
  xid : Word32
  yiaddr : Ipv4
  siaddr : Ipv4
  msgType : Byte
  serverId : Option Ipv4
  deriving DecidableEq, Repr

def dhcpCookie : List Byte := [0x63, 0x82, 0x53, 0x63]

def encodeDhcp (msgType : Byte) (xid : Word32) (mac : Mac) (mReq mServer : Option Ipv4) : List Byte :=
  let secs : Word16 := 0
  let flags : Word16 := 0x8000
  let zeros := [0, 0, 0, 0]
  let chaddr := mac.toList ++ List.replicate 10 0
  let sname := List.replicate 64 0
  let file := List.replicate 128 0
  let opts := [53, 1, msgType] ++ (mReq.map fun ip => [50, 4] ++ ip.toList).getD [] ++
    (mServer.map fun ip => [54, 4] ++ ip.toList).getD [] ++
    [12, 4, 0x48, 0x4f, 0x55, 0x53] ++ -- the host name
    [55, 4, 1, 3, 6, 28] ++ [255]
  [1, 1, 6, 0] ++ word32be xid ++ word16be secs ++ word16be flags ++ zeros ++ zeros ++ zeros ++ zeros ++ chaddr ++ sname ++
    file ++ dhcpCookie ++ opts

def encodeDhcpDiscover (xid : Word32) (mac : Mac) : List Byte := encodeDhcp 1 xid mac none none

def encodeDhcpRequest (xid : Word32) (mac : Mac) (reqIp serverId : Ipv4) : List Byte :=
  encodeDhcp 3 xid mac (some reqIp) (some serverId)

/-- The largest offset. -/
def maxOffset : ℕ := 2 ^ 63 - 1

/-- The options from offset `off` on, with the type and the server that were found before it. -/
def parseOpts (off : ℕ) (opts : List Byte) (mt : Option Byte) (sv : Option Ipv4) :
    Except NetError (Option Byte × Option Ipv4) :=
  match opts with
  | [] => .ok (mt, sv)
  | tag :: rest =>
    if tag = 255 then .ok (mt, sv)
    else if tag = 0 then parseOpts (off + 1) rest mt sv
    else match rest with
      | [] => .error (.invalidArg "dhcp opts trunc")
      | lenB :: vals =>
        let n := lenB.toNat
        let need := 2 + n
        let remaining := 2 + vals.length
        if need > remaining ∨ off > maxOffset - need then .error (.invalidArg "dhcp opts trunc")
        else if tag = 53 ∧ lenB = 1 then
          match vals with
          | b :: vals => parseOpts (off + need) vals (some b) sv
          | [] => .error (.invalidArg "dhcp opts trunc")
        else if tag = 54 ∧ lenB = 4 then
          match vals with
          | a :: b :: c :: d :: vals => parseOpts (off + need) vals mt (some ⟨a, b, c, d⟩)
          | _ => .error (.invalidArg "dhcp opts trunc")
        else parseOpts (off + need) (vals.drop n) mt sv
termination_by opts.length
decreasing_by
  all_goals simp only [List.length_cons, List.length_drop]
  all_goals omega

def decodeDhcp (bytes : List Byte) : Except NetError DhcpMsg :=
  if bytes.length < 240 then .error (.invalidArg "dhcp short")
  else do
    let op ← byteAt bytes "dhcp trunc" 0
    let b4 ← byteAt bytes "dhcp trunc" 4
    let b5 ← byteAt bytes "dhcp trunc" 5
    let b6 ← byteAt bytes "dhcp trunc" 6
    let b7 ← byteAt bytes "dhcp trunc" 7
    let y0 ← byteAt bytes "dhcp trunc" 16
    let y1 ← byteAt bytes "dhcp trunc" 17
    let y2 ← byteAt bytes "dhcp trunc" 18
    let y3 ← byteAt bytes "dhcp trunc" 19
    let s0 ← byteAt bytes "dhcp trunc" 20
    let s1 ← byteAt bytes "dhcp trunc" 21
    let s2 ← byteAt bytes "dhcp trunc" 22
    let s3 ← byteAt bytes "dhcp trunc" 23
    let cookie := (bytes.drop 236).take 4
    if op ≠ 2 ∨ cookie ≠ dhcpCookie then .error (.invalidArg "dhcp header")
    else match parseOpts 0 (bytes.drop 240) none none with
      | .error e => .error e
      | .ok (none, _) => .error (.invalidArg "dhcp no type")
      | .ok (some t, server) => .ok ⟨word32 b4 b5 b6 b7, ⟨y0, y1, y2, y3⟩, ⟨s0, s1, s2, s3⟩, t, server⟩

/-- The type of the message, when this option is it. -/
def takeType (mt : Option Byte) : TlvItem → Option Byte
  | .value tag [b] => if tag = 53 then some b else mt
  | _ => mt

/-- The server, when this option is it. -/
def takeServer (sv : Option Ipv4) : TlvItem → Option Ipv4
  | .value tag [a, b, c, d] => if tag = 54 then some ⟨a, b, c, d⟩ else sv
  | _ => sv

/-- A reply on the wire: the header of BOOTP around the addresses, the options, and what stands behind them. -/
structure DhcpReply where
  (htype hlen hops : Byte)
  xid : Word32
  times : List Byte
  (yiaddr siaddr : Ipv4)
  names : List Byte
  options : List TlvItem
  tail : List Byte

structure DhcpReply.Formed (r : DhcpReply) : Prop where
  times : r.times.length = 8
  names : r.names.length = 212
  options : ∀ i ∈ r.options, i.Formed 0 255
  tail : TlvEnd 255 r.tail

def DhcpReply.encode (r : DhcpReply) : List Byte :=
  [2, r.htype, r.hlen, r.hops] ++ (word32be r.xid ++ (r.times ++ (r.yiaddr.toList ++ (r.siaddr.toList ++
    (r.names ++ (dhcpCookie ++ (r.options.flatMap (TlvItem.bytes 0) ++ r.tail)))))))

/-- What the reply says; without a type it says nothing. -/
def DhcpReply.message (r : DhcpReply) : Option DhcpMsg :=
  (r.options.foldl takeType none).map fun t => ⟨r.xid, r.yiaddr, r.siaddr, t, r.options.foldl takeServer none⟩

section Options

variable {off : ℕ} {opts : List Byte} {mt : Option Byte} {sv : Option Ipv4}

theorem takeType_other {tag : Byte} {data : List Byte} (h : ¬ (tag = 53 ∧ data.length = 1)) :
    takeType mt (.value tag data) = mt := by
  unfold takeType
  split
  · next hitem =>
    obtain ⟨rfl, rfl⟩ := TlvItem.value.inj hitem
    exact if_neg fun htag => h ⟨htag, rfl⟩
  · rfl

theorem takeServer_other {tag : Byte} {data : List Byte} (h : ¬ (tag = 54 ∧ data.length = 4)) :
    takeServer sv (.value tag data) = sv := by
  unfold takeServer
  split
  · next hitem =>
    obtain ⟨rfl, rfl⟩ := TlvItem.value.inj hitem
    exact if_neg fun htag => h ⟨htag, rfl⟩
  · rfl

theorem exists_four {l : List Byte} (h : 4 ≤ l.length) : ∃ a b c d rest, l = a :: b :: c :: d :: rest := by
  obtain ⟨a, l, rfl⟩ := List.exists_cons_of_length_pos (show 0 < l.length by omega)
  rw [List.length_cons] at h
  obtain ⟨b, l, rfl⟩ := List.exists_cons_of_length_pos (show 0 < l.length by omega)
  rw [List.length_cons] at h
  obtain ⟨c, l, rfl⟩ := List.exists_cons_of_length_pos (show 0 < l.length by omega)
  rw [List.length_cons] at h
  obtain ⟨d, l, rfl⟩ := List.exists_cons_of_length_pos (show 0 < l.length by omega)
  exact ⟨a, b, c, d, l, rfl⟩

/-- The walk over the options is the reader of tagged items. -/
theorem parseOpts_eq (hoff : off + opts.length < 2 ^ 63) : parseOpts off opts mt sv =
    match readTlv 0 255 opts with
    | none => .error (.invalidArg "dhcp opts trunc")
    | some items => .ok (items.foldl takeType mt, items.foldl takeServer sv) := by
  induction opts using readTlv.induct 0 255 generalizing off mt sv with
  | case1 => simp [parseOpts, readTlv]
  | case2 rest => simp [parseOpts.eq_def, readTlv_stop]
  | case3 rest hne ih =>
    rw [parseOpts.eq_def, readTlv_pad hne]
    simp only [List.length_cons] at hoff
    dsimp only
    rw [if_neg hne, if_pos rfl, ih (by omega)]
    cases readTlv 0 255 rest <;> rfl
  | case4 tag hstop hpad =>
    rw [parseOpts.eq_def, readTlv, if_neg hstop, if_neg hpad]
    dsimp only
    rw [if_neg hstop, if_neg hpad]
  | case5 tag hstop hpad len rest hshort =>
    rw [parseOpts.eq_def, readTlv, if_neg hstop, if_neg hpad, if_pos hshort]
    dsimp only
    rw [if_neg hstop, if_neg hpad, if_pos (.inl (by omega))]
  | case6 tag hstop hpad len rest hfits ih =>
    simp only [List.length_cons] at hoff
    have hmax : maxOffset = 2 ^ 63 - 1 := rfl
    rw [parseOpts.eq_def, readTlv, if_neg hstop, if_neg hpad, if_neg hfits]
    dsimp only
    rw [if_neg hstop, if_neg hpad, if_neg (by omega)]
    have hrest : ∀ mt sv, parseOpts (off + (2 + len.toNat)) (rest.drop len.toNat) mt sv = _ := fun mt sv =>
      @ih (off + (2 + len.toNat)) mt sv (by rw [List.length_drop]; omega)
    have htake : (rest.take len.toNat).length = len.toNat := by
      rw [List.length_take]
      omega
    have hone : len.toNat = 1 ↔ len = 1 := BitVec.toNat_inj (y := 1)
    have hfour : len.toNat = 4 ↔ len = 4 := BitVec.toNat_inj (y := 4)
    by_cases htype : tag = 53 ∧ len = 1
    · obtain ⟨rfl, rfl⟩ := htype
      cases rest with
      | nil => exact absurd (show 0 < 1 by omega) hfits
      | cons b vals =>
        rw [if_pos ⟨rfl, rfl⟩]
        refine (hrest (some b) sv).trans ?_
        have hitem : (b :: vals).take (1 : Byte).toNat = [b] := rfl
        rw [hitem]
        cases readTlv 0 255 ((b :: vals).drop (1 : Byte).toNat) with
        | none => rfl
        | some items => rfl
    · rw [if_neg htype]
      have hmt : takeType mt (.value tag (rest.take len.toNat)) = mt :=
        takeType_other (by rw [htake, hone]; exact htype)
      by_cases hserver : tag = 54 ∧ len = 4
      · obtain ⟨rfl, rfl⟩ := hserver
        rw [if_pos ⟨rfl, rfl⟩]
        obtain ⟨a, b, c, d, vals, rfl⟩ := exists_four (Nat.not_lt.mp hfits)
        refine (hrest mt (some ⟨a, b, c, d⟩)).trans ?_
        have hitem : (a :: b :: c :: d :: vals).take (4 : Byte).toNat = [a, b, c, d] := rfl
        rw [hitem]
        cases readTlv 0 255 ((a :: b :: c :: d :: vals).drop (4 : Byte).toNat) with
        | none => rfl
        | some items => rfl
      · have hsv : takeServer sv (.value tag (rest.take len.toNat)) = sv :=
          takeServer_other (by rw [htake, hfour]; exact hserver)
        rw [if_neg hserver, hrest]
        cases readTlv 0 255 (rest.drop len.toNat) with
        | none => rfl
        | some items => simp [hmt, hsv]

end Options

section Messages

variable {bytes : List Byte} {m : DhcpMsg} {r : DhcpReply}

theorem word32be_word32 (b0 b1 b2 b3 : Byte) : word32be (word32 b0 b1 b2 b3) = [b0, b1, b2, b3] := by
  have hbyte : ∀ k b, (∀ i < 8, (word32 b0 b1 b2 b3).getLsbD (k + i) = b.getLsbD i) →
      ((word32 b0 b1 b2 b3) >>> k).setWidth 8 = b := by
    intro k b h
    apply BitVec.eq_of_getLsbD_eq
    intro i hi
    rw [BitVec.getLsbD_setWidth, BitVec.getLsbD_ushiftRight, h i hi]
    simp [hi]
  have h24 := hbyte 24 b0 fun i hi => by
    simp [word32, show 24 + i < 32 by omega, show ¬ 24 + i < 24 by omega, show ¬ 24 + i < 16 by omega,
      show 24 + i - 16 = i + 8 by omega, show 24 + i - 8 = i + 16 by omega, BitVec.getLsbD_of_ge b3 (24 + i) (by omega)]
  have h16 := hbyte 16 b1 fun i hi => by
    simp [word32, show 16 + i < 32 by omega, show 16 + i < 24 by omega, show ¬ 16 + i < 16 by omega,
      show 16 + i - 8 = i + 8 by omega, BitVec.getLsbD_of_ge b3 (16 + i) (by omega)]
  have h8 := hbyte 8 b2 fun i hi => by
    simp [word32, show 8 + i < 32 by omega, show 8 + i < 24 by omega, show 8 + i < 16 by omega]
  have h0 := hbyte 0 b3 fun i hi => by
    simp [word32, hi, show i < 32 by omega, show i < 24 by omega, show i < 16 by omega]
  rw [BitVec.ushiftRight_zero] at h0
  rw [word32be, h24, h16, h8, h0]

/-- Whatever starts with 240 octets has a header. -/
theorem exists_header (hlen : 240 ≤ bytes.length) : ∃ op htype hlen hops xid times yiaddr siaddr names cookie rest,
    times.length = 8 ∧ names.length = 212 ∧ cookie.length = 4 ∧ bytes = [op, htype, hlen, hops] ++ (word32be xid ++
      (times ++ (Ipv4.toList yiaddr ++ (Ipv4.toList siaddr ++ (names ++ (cookie ++ rest)))))) := by
  have four : ∀ l : List Byte, 4 ≤ l.length → ∃ a b c d rest, l = [a, b, c, d] ++ rest := by
    intro l hl
    match l, hl with
    | a :: b :: c :: d :: rest, _ => exact ⟨a, b, c, d, rest, rfl⟩
  have cut : ∀ (l : List Byte) n, n ≤ l.length → ∃ a rest, a.length = n ∧ l = a ++ rest := fun l n hl =>
    ⟨l.take n, l.drop n, by rw [List.length_take]; omega, (List.take_append_drop n l).symm⟩
  obtain ⟨op, htype, hl, hops, l, rfl⟩ := four bytes (by omega)
  simp only [List.length_append, List.length_cons, List.length_nil] at hlen
  obtain ⟨b4, b5, b6, b7, l, rfl⟩ := four l (by omega)
  simp only [List.length_append, List.length_cons, List.length_nil] at hlen
  obtain ⟨times, l, htimes, rfl⟩ := cut l 8 (by omega)
  simp only [List.length_append] at hlen
  obtain ⟨y0, y1, y2, y3, l, rfl⟩ := four l (by omega)
  simp only [List.length_append, List.length_cons, List.length_nil] at hlen
  obtain ⟨s0, s1, s2, s3, l, rfl⟩ := four l (by omega)
  simp only [List.length_append, List.length_cons, List.length_nil] at hlen
  obtain ⟨names, l, hnames, rfl⟩ := cut l 212 (by omega)
  simp only [List.length_append] at hlen
  obtain ⟨cookie, rest, hcookie, rfl⟩ := cut l 4 (by omega)
  refine ⟨op, htype, hl, hops, word32 b4 b5 b6 b7, times, ⟨y0, y1, y2, y3⟩, ⟨s0, s1, s2, s3⟩, names, cookie, rest, htimes,
    hnames, hcookie, ?_⟩
  rw [word32be_word32]
  rfl

/-- What is checked of the header, and what is taken from it. -/
theorem decodeDhcp_header {op htype hl hops : Byte} {xid : Word32} {yiaddr siaddr : Ipv4}
    {times names cookie rest : List Byte} (htimes : times.length = 8) (hnames : names.length = 212) (hcookie : cookie.length = 4) :
    decodeDhcp ([op, htype, hl, hops] ++ (word32be xid ++ (times ++ (yiaddr.toList ++ (siaddr.toList ++
      (names ++ (cookie ++ rest))))))) =
    if op ≠ 2 ∨ cookie ≠ dhcpCookie then .error (.invalidArg "dhcp header")
    else match parseOpts 0 rest none none with
      | .error e => .error e
      | .ok (none, _) => .error (.invalidArg "dhcp no type")
      | .ok (some t, server) => .ok ⟨xid, yiaddr, siaddr, t, server⟩ := by
  obtain ⟨bytes, hbytes⟩ : ∃ bytes, [op, htype, hl, hops] ++ (word32be xid ++ (times ++ (yiaddr.toList ++ (siaddr.toList ++
      (names ++ (cookie ++ rest)))))) = bytes := ⟨_, rfl⟩
  obtain ⟨pre, hpre, hsplit⟩ : ∃ pre : List Byte, pre.length = 236 ∧ bytes = pre ++ (cookie ++ rest) := by
    refine ⟨[op, htype, hl, hops] ++ word32be xid ++ times ++ yiaddr.toList ++ siaddr.toList ++ names, ?_, ?_⟩
    · simp [word32be, Ipv4.toList, htimes, hnames]
    · simp [← hbytes]
  have hmark : (bytes.drop 236).take 4 = cookie := by
    rw [hsplit, List.drop_left' hpre, List.take_left' hcookie]
  have hopts : bytes.drop 240 = rest := by
    rw [hsplit, ← List.append_assoc, List.drop_left' (by rw [List.length_append, hpre, hcookie])]
  have hskip : ∀ (l : List Byte) k, byteAt (times ++ l) "dhcp trunc" (k + 8) = byteAt l "dhcp trunc" k := by
    intro l k
    rw [byteAt, byteAt, List.getElem?_append_right (by rw [htimes]; omega), htimes, Nat.add_sub_cancel]
  have hlong : ¬ bytes.length < 240 := by
    rw [hsplit, List.length_append, List.length_append, hpre, hcookie]
    omega
  rw [hbytes, decodeDhcp, if_neg hlong, hmark, hopts, ← hbytes]
  simp only [word32be, Ipv4.toList, List.cons_append, List.nil_append, byteAt_zero, byteAt_succ, hskip, ok_bind,
    word32_word32be]

theorem DhcpReply.Formed.length (hr : r.Formed) :
    r.encode.length = 240 + (r.options.flatMap (TlvItem.bytes 0)).length + r.tail.length := by
  simp only [DhcpReply.encode, word32be, Ipv4.toList, dhcpCookie, List.length_append, List.length_cons, List.length_nil,
    hr.times, hr.names]
  omega

/-- A reply with a type is read back. -/
theorem decodeDhcp_encode {r : DhcpReply} (hr : r.Formed) (hm : r.message = some m) (hlen : r.encode.length < 2 ^ 63) :
    decodeDhcp r.encode = .ok m := by
  have hparse : parseOpts 0 (r.options.flatMap (TlvItem.bytes 0) ++ r.tail) none none =
      .ok (r.options.foldl takeType none, r.options.foldl takeServer none) := by
    rw [parseOpts_eq (by simp only [DhcpReply.encode, List.length_append] at hlen ⊢; omega),
      readTlv_bytes (by decide) hr.options hr.tail]
  rw [DhcpReply.encode, decodeDhcp_header hr.times hr.names rfl, if_neg (by simp), hparse]
  obtain ⟨t, ht, rfl⟩ := Option.map_eq_some_iff.mp hm
  rw [ht]

/-- What the decoder accepts is a reply with a type, and it says what the reply says. -/
theorem decodeDhcp_iff (hlen : bytes.length < 2 ^ 63) :
    decodeDhcp bytes = .ok m ↔ ∃ r : DhcpReply, r.Formed ∧ r.encode = bytes ∧ r.message = some m := by
  constructor
  · intro h
    have hlong : 240 ≤ bytes.length := by
      by_contra hshort
      rw [decodeDhcp, if_pos (by omega)] at h
      cases h
    obtain ⟨op, htype, hl, hops, xid, times, yiaddr, siaddr, names, cookie, rest, htimes, hnames, hcookie, rfl⟩ :=
      exists_header hlong
    rw [decodeDhcp_header htimes hnames hcookie] at h
    split_ifs at h with hheader
    obtain ⟨hop, hmark⟩ := not_or.mp hheader
    obtain rfl := not_not.mp hop
    obtain rfl := not_not.mp hmark
    rw [parseOpts_eq (by simp only [List.length_append] at hlen; omega)] at h
    cases hread : readTlv 0 255 rest with
    | none =>
      rw [hread] at h
      cases h
    | some items =>
      rw [hread] at h
      obtain ⟨hitems, tail, htail, rfl⟩ := bytes_of_readTlv hread
      refine ⟨⟨htype, hl, hops, xid, times, yiaddr, siaddr, names, items, tail⟩, ⟨htimes, hnames, hitems, htail⟩, rfl, ?_⟩
      dsimp only at h
      rw [DhcpReply.message]
      cases htype : items.foldl takeType none with
      | none =>
        rw [htype] at h
        cases h
      | some t =>
        rw [htype] at h
        exact congrArg some (Except.ok.inj h)
  · rintro ⟨r, hr, rfl, hm⟩
    exact decodeDhcp_encode hr hm hlen

/-- An offer of 10.0.2.15 whose server is 10.0.2.2, with a host name between the two options that count. -/
def sampleOffer : DhcpReply where
  htype := 1
  hlen := 6
  hops := 0
  xid := 0x12345678
  times := List.replicate 8 0
  yiaddr := ⟨10, 0, 2, 15⟩
  siaddr := ⟨10, 0, 2, 2⟩
  names := List.replicate 212 0
  options := [.value 53 [2], .pad, .value 12 [72, 79], .value 54 [10, 0, 2, 2]]
  tail := [255, 7]

theorem sampleOffer_formed : sampleOffer.Formed where
  times := List.length_replicate
  names := List.length_replicate
  options := by simp [sampleOffer, TlvItem.Formed]
  tail := .inr ⟨[7], rfl⟩

theorem decodeDhcp_iff_offer :
    decodeDhcp sampleOffer.encode = .ok ⟨0x12345678, ⟨10, 0, 2, 15⟩, ⟨10, 0, 2, 2⟩, 2, some ⟨10, 0, 2, 2⟩⟩ :=
  (decodeDhcp_iff (by rw [sampleOffer_formed.length]; decide)).mpr ⟨sampleOffer, sampleOffer_formed, rfl, rfl⟩

/-- The client's own broadcasts are no replies. -/
theorem decodeDhcp_encodeDhcp (msgType : Byte) (xid : Word32) (mac : Mac) (mReq mServer : Option Ipv4) :
    decodeDhcp (encodeDhcp msgType xid mac mReq mServer) = .error (.invalidArg "dhcp header") := by
  obtain ⟨opts, hopts⟩ : ∃ opts, encodeDhcp msgType xid mac mReq mServer = [1, 1, 6, 0] ++ (word32be xid ++
      ([0, 0, 0x80, 0, 0, 0, 0, 0] ++ (Ipv4.toList ⟨0, 0, 0, 0⟩ ++ (Ipv4.toList ⟨0, 0, 0, 0⟩ ++
        (([0, 0, 0, 0] ++ mac.toList ++ List.replicate 10 0 ++ List.replicate 64 0 ++ List.replicate 128 0) ++
          (dhcpCookie ++ opts)))))) := by
    refine ⟨[53, 1, msgType] ++ (mReq.map fun ip => [50, 4] ++ ip.toList).getD [] ++
      (mServer.map fun ip => [54, 4] ++ ip.toList).getD [] ++ [12, 4, 0x48, 0x4f, 0x55, 0x53] ++ [55, 4, 1, 3, 6, 28] ++
      [255], ?_⟩
    simp only [encodeDhcp, List.append_assoc]
    rfl
  have hlen : ([0, 0, 0, 0] ++ mac.toList ++ List.replicate 10 0 ++ List.replicate 64 0 ++ List.replicate 128 0).length =
      212 := by
    simp only [Mac.toList, List.length_append, List.length_cons, List.length_nil, List.length_replicate]
  rw [hopts, decodeDhcp_header rfl hlen rfl, if_pos (.inl (by decide))]

end Messages

end HouseKernel.Net
