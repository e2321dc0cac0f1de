import Mathlib.Tactic

/-! Packets as the network server writes and reads them: Ethernet, ARP, IPv4, UDP, TCP and ICMP echo.
Decoders are total and say what was wrong. A frame may carry padding behind its packet; only the IPv4
layer knows the length at which it is cut off. -/
namespace HouseKernel.Net

abbrev Byte := BitVec 8
abbrev Word16 := BitVec 16
abbrev Word32 := BitVec 32

inductive NetError where
  | badSlot
  | notNet
  | notReady
  | noSpace
  | ioError (code : ℤ)
  | invalidArg (what : String)
  | arpTimeout
  | dhcpFailed
  deriving DecidableEq, Repr

structure Mac where
  (a b c d e f : Byte)
  deriving DecidableEq, Repr

structure Ipv4 where
  (a b c d : Byte)
  deriving DecidableEq, Repr

structure ArpPacket where
  op : Word16
  senderMac : Mac
  senderIp : Ipv4
  targetMac : Mac
  targetIp : Ipv4
  deriving DecidableEq, Repr

structure Ipv4Packet where
  src : Ipv4
  dst : Ipv4
  proto : Byte
  ttl : Byte
  payload : List Byte
  deriving DecidableEq, Repr

structure UdpPacket where
  srcPort : Word16
  dstPort : Word16
  payload : List Byte
  deriving DecidableEq, Repr

structure TcpSegment where
  srcPort : Word16
  dstPort : Word16
  seq : Word32
  ack : Word32
  flags : Byte
  window : Word16
  payload : List Byte
  deriving DecidableEq, Repr

/-- An ICMP echo packet: its type, identifier, sequence number and payload. -/
structure IcmpEcho where
  typ : Byte
  ident : Word16
  seqNum : Word16
  payload : List Byte
  deriving DecidableEq, Repr

def tcpFlagFin : Byte := 0x01
def tcpFlagSyn : Byte := 0x02
def tcpFlagRst : Byte := 0x04
def tcpFlagPsh : Byte := 0x08
def tcpFlagAck : Byte := 0x10

def Mac.toList (m : Mac) : List Byte := [m.a, m.b, m.c, m.d, m.e, m.f]
def Ipv4.toList (i : Ipv4) : List Byte := [i.a, i.b, i.c, i.d]

def word16be (w : Word16) : List Byte := [(w >>> 8).setWidth 8, w.setWidth 8]

def word32be (w : Word32) : List Byte :=
  [(w >>> 24).setWidth 8, (w >>> 16).setWidth 8, (w >>> 8).setWidth 8, w.setWidth 8]

/-- Two bytes as a word, the high one first. -/
def word16 (hi lo : Byte) : Word16 := hi.setWidth 16 <<< 8 ||| lo.setWidth 16

def word32 (b0 b1 b2 b3 : Byte) : Word32 :=
  b0.setWidth 32 <<< 24 ||| b1.setWidth 32 <<< 16 ||| b2.setWidth 32 <<< 8 ||| b3.setWidth 32

/-- Two bytes as a length. -/
def lengthOf (hi lo : Byte) : ℕ := hi.toNat <<< 8 ||| lo.toNat

/-- A byte at an index, or the layer's complaint that the packet is cut short. -/
def byteAt (bytes : List Byte) (what : String) (i : ℕ) : Except NetError Byte :=
  match bytes[i]? with
  | none => .error (.invalidArg what)
  | some b => .ok b

def encodeEthernet (dst src : Mac) (ethertype : Word16) (payload : List Byte) : List Byte :=
  dst.toList ++ src.toList ++ word16be ethertype ++ payload

def listToMac : List Byte → Option Mac
  | [a, b, c, d, e, f] => some ⟨a, b, c, d, e, f⟩
  | _ => none

def decodeEthernet (bytes : List Byte) : Except NetError (Mac × Mac × Word16 × List Byte) :=
  if bytes.length < 14 then .error (.invalidArg "eth short")
  else
    let etB := ((bytes.drop 6).drop 6).take 2
    match listToMac (bytes.take 6), listToMac ((bytes.drop 6).take 6), etB[0]?, etB[1]? with
    | some d, some s, some hi, some lo => .ok (d, s, word16 hi lo, ((bytes.drop 6).drop 6).drop 2)
    | _, _, _, _ => .error (.invalidArg "eth mac")

def encodeArp (p : ArpPacket) : List Byte :=
  [0x00, 0x01, 0x08, 0x00, 0x06, 0x04] ++ word16be p.op ++ p.senderMac.toList ++ p.senderIp.toList ++
    p.targetMac.toList ++ p.targetIp.toList

def decodeArp (bytes : List Byte) : Except NetError ArpPacket :=
  if bytes.length < 28 then .error (.invalidArg "arp short")
  else do
    let b0 ← byteAt bytes "arp trunc" 0
    let b1 ← byteAt bytes "arp trunc" 1
    let b2 ← byteAt bytes "arp trunc" 2
    let b3 ← byteAt bytes "arp trunc" 3
    let hlen ← byteAt bytes "arp trunc" 4
    let plen ← byteAt bytes "arp trunc" 5
    let b6 ← byteAt bytes "arp trunc" 6
    let b7 ← byteAt bytes "arp trunc" 7
    if word16 b0 b1 ≠ 1 ∨ word16 b2 b3 ≠ 0x0800 ∨ hlen ≠ 6 ∨ plen ≠ 4 then .error (.invalidArg "arp header")
    else do
      let s0 ← byteAt bytes "arp trunc" 8
      let s1 ← byteAt bytes "arp trunc" 9
      let s2 ← byteAt bytes "arp trunc" 10
      let s3 ← byteAt bytes "arp trunc" 11
      let s4 ← byteAt bytes "arp trunc" 12
      let s5 ← byteAt bytes "arp trunc" 13
      let p0 ← byteAt bytes "arp trunc" 14
      let p1 ← byteAt bytes "arp trunc" 15
      let p2 ← byteAt bytes "arp trunc" 16
      let p3 ← byteAt bytes "arp trunc" 17
      let t0 ← byteAt bytes "arp trunc" 18
      let t1 ← byteAt bytes "arp trunc" 19
      let t2 ← byteAt bytes "arp trunc" 20
      let t3 ← byteAt bytes "arp trunc" 21
      let t4 ← byteAt bytes "arp trunc" 22
      let t5 ← byteAt bytes "arp trunc" 23
      let q0 ← byteAt bytes "arp trunc" 24
      let q1 ← byteAt bytes "arp trunc" 25
      let q2 ← byteAt bytes "arp trunc" 26
      let q3 ← byteAt bytes "arp trunc" 27
      .ok ⟨word16 b6 b7, ⟨s0, s1, s2, s3, s4, s5⟩, ⟨p0, p1, p2, p3⟩, ⟨t0, t1, t2, t3, t4, t5⟩, ⟨q0, q1, q2, q3⟩⟩

/-- The 16-bit words of a list; an odd last byte is left out. -/
def chunks : List Byte → List Word32
  | [] => []
  | [_] => []
  | hi :: lo :: rest => (hi.setWidth 32 <<< 8 ||| lo.setWidth 32) :: chunks rest

/-- The Internet checksum. -/
def ipv4Checksum (bytes : List Byte) : Word16 :=
  let sum : Word32 := (chunks bytes).foldl (fun acc w => ((acc + w) &&& 0xFFFF) + ((acc + w) >>> 16)) 0
  ((sum &&& 0xFFFF) ^^^ 0xFFFF).setWidth 16

def encodeIpv4 (src dst : Ipv4) (proto : Byte) (payload : List Byte) : List Byte :=
  let totalLen := 20 + payload.length
  let headerNoCsum := [0x45, 0x00] ++ word16be (BitVec.ofNat 16 totalLen) ++ [0x00, 0x00, 0x40, 0x00, 0x40, proto] ++
    [0x00, 0x00] ++ src.toList ++ dst.toList
  headerNoCsum.take 10 ++ word16be (ipv4Checksum headerNoCsum) ++ headerNoCsum.drop 12 ++ payload

def decodeIpv4 (bytes : List Byte) : Except NetError Ipv4Packet :=
  if bytes.length < 20 then .error (.invalidArg "ipv4 short")
  else do
    let verIhl ← byteAt bytes "ipv4 trunc" 0
    let ihl := verIhl &&& 0x0F
    if verIhl >>> 4 ≠ 4 ∨ ihl < 5 then .error (.invalidArg "ipv4 ver/ihl")
    else do
      let b2 ← byteAt bytes "ipv4 trunc" 2
      let b3 ← byteAt bytes "ipv4 trunc" 3
      let ttl ← byteAt bytes "ipv4 trunc" 8
      let proto ← byteAt bytes "ipv4 trunc" 9
      let s0 ← byteAt bytes "ipv4 trunc" 12
      let s1 ← byteAt bytes "ipv4 trunc" 13
      let s2 ← byteAt bytes "ipv4 trunc" 14
      let s3 ← byteAt bytes "ipv4 trunc" 15
      let d0 ← byteAt bytes "ipv4 trunc" 16
      let d1 ← byteAt bytes "ipv4 trunc" 17
      let d2 ← byteAt bytes "ipv4 trunc" 18
      let d3 ← byteAt bytes "ipv4 trunc" 19
      let totalLen := lengthOf b2 b3
      let hdrLen := ihl.toNat*4
      if bytes.length < hdrLen then .error (.invalidArg "ipv4 hlen")
      else if totalLen < hdrLen ∨ totalLen < 20 ∨ bytes.length < totalLen then .error (.invalidArg "ipv4 len")
      else .ok ⟨⟨s0, s1, s2, s3⟩, ⟨d0, d1, d2, d3⟩, proto, ttl, (bytes.drop hdrLen).take (totalLen - hdrLen)⟩

def encodeUdp (src dst : Word16) (payload : List Byte) : List Byte :=
  word16be src ++ word16be dst ++ word16be (BitVec.ofNat 16 (8 + payload.length)) ++ [0x00, 0x00] ++ payload

def decodeUdp (bytes : List Byte) : Except NetError UdpPacket :=
  if bytes.length < 8 then .error (.invalidArg "udp short")
  else do
    let b0 ← byteAt bytes "udp trunc" 0
    let b1 ← byteAt bytes "udp trunc" 1
    let b2 ← byteAt bytes "udp trunc" 2
    let b3 ← byteAt bytes "udp trunc" 3
    let b4 ← byteAt bytes "udp trunc" 4
    let b5 ← byteAt bytes "udp trunc" 5
    let len := lengthOf b4 b5
    if len < 8 ∨ bytes.length < len then .error (.invalidArg "udp len")
    else .ok ⟨word16 b0 b1, word16 b2 b3, (bytes.drop 8).take (len - 8)⟩

def encodeIcmpEcho (ident seqNum : Word16) (payload : List Byte) : List Byte :=
  let headerNoCsum := [0x08, 0x00, 0x00, 0x00] ++ word16be ident ++ word16be seqNum ++ payload
  [0x08, 0x00] ++ word16be (ipv4Checksum headerNoCsum) ++ word16be ident ++ word16be seqNum ++ payload

def decodeIcmpEcho (bytes : List Byte) : Except NetError IcmpEcho :=
  if bytes.length < 8 then .error (.invalidArg "icmp short")
  else do
    let typ ← byteAt bytes "icmp trunc" 0
    let b4 ← byteAt bytes "icmp trunc" 4
    let b5 ← byteAt bytes "icmp trunc" 5
    let b6 ← byteAt bytes "icmp trunc" 6
    let b7 ← byteAt bytes "icmp trunc" 7
    .ok ⟨typ, word16 b4 b5, word16 b6 b7, bytes.drop 8⟩

/-- The checksum over the pseudo-header and the segment, padded to even length. -/
def tcpChecksum (src dst : Ipv4) (segBytes : List Byte) : Word16 :=
  let pseudo := src.toList ++ dst.toList ++ [0x00, 6] ++ word16be (BitVec.ofNat 16 segBytes.length)
  ipv4Checksum (pseudo ++ if segBytes.length % 2 = 1 then segBytes ++ [0] else segBytes)

def encodeTcp (src dst : Ipv4) (seg : TcpSegment) : List Byte :=
  let hdrNoCsum := word16be seg.srcPort ++ word16be seg.dstPort ++ word32be seg.seq ++ word32be seg.ack ++
    [0x50, seg.flags] ++ word16be seg.window ++ [0x00, 0x00, 0x00, 0x00]
  let csum := tcpChecksum src dst (hdrNoCsum ++ seg.payload)
  hdrNoCsum.take 16 ++ word16be csum ++ hdrNoCsum.drop 18 ++ seg.payload

def decodeTcp (bytes : List Byte) : Except NetError TcpSegment :=
  if bytes.length < 20 then .error (.invalidArg "tcp short")
  else do
    let s0 ← byteAt bytes "tcp trunc" 0
    let s1 ← byteAt bytes "tcp trunc" 1
    let d0 ← byteAt bytes "tcp trunc" 2
    let d1 ← byteAt bytes "tcp trunc" 3
    let q0 ← byteAt bytes "tcp trunc" 4
    let q1 ← byteAt bytes "tcp trunc" 5
    let q2 ← byteAt bytes "tcp trunc" 6
    let q3 ← byteAt bytes "tcp trunc" 7
    let a0 ← byteAt bytes "tcp trunc" 8
    let a1 ← byteAt bytes "tcp trunc" 9
    let a2 ← byteAt bytes "tcp trunc" 10
    let a3 ← byteAt bytes "tcp trunc" 11
    let off ← byteAt bytes "tcp trunc" 12
    let fl ← byteAt bytes "tcp trunc" 13
    let w0 ← byteAt bytes "tcp trunc" 14
    let w1 ← byteAt bytes "tcp trunc" 15
    let dataOff := (off >>> 4).toNat
    if dataOff < 5 ∨ 15 < dataOff then .error (.invalidArg "tcp dataoff")
    else if bytes.length < dataOff*4 then .error (.invalidArg "tcp hlen")
    else .ok ⟨word16 s0 s1, word16 d0 d1, word32 q0 q1 q2 q3, word32 a0 a1 a2 a3, fl, word16 w0 w1, bytes.drop (dataOff*4)⟩

section Words

theorem word16_word16be (w : Word16) : word16 ((w >>> 8).setWidth 8) (w.setWidth 8) = w := by
  apply BitVec.eq_of_getLsbD_eq
  intro i hi
  simp only [word16, BitVec.getLsbD_or, BitVec.getLsbD_shiftLeft, BitVec.getLsbD_setWidth, BitVec.getLsbD_ushiftRight]
  by_cases h8 : i < 8
  · simp [h8, hi]
  · simp [h8, hi, show i - 8 < 8 by omega, show 8 + (i - 8) = i by omega, show i - 8 < 16 by omega]

theorem word32_word32be (w : Word32) :
    word32 ((w >>> 24).setWidth 8) ((w >>> 16).setWidth 8) ((w >>> 8).setWidth 8) (w.setWidth 8) = w := by
  apply BitVec.eq_of_getLsbD_eq
  intro i hi
  simp only [word32, BitVec.getLsbD_or, BitVec.getLsbD_shiftLeft, BitVec.getLsbD_setWidth, BitVec.getLsbD_ushiftRight]
  by_cases h8 : i < 8
  · simp [h8, hi, show i < 24 by omega, show i < 16 by omega]
  by_cases h16 : i < 16
  · simp [h8, h16, hi, show i < 24 by omega, show i - 8 < 8 by omega, show 8 + (i - 8) = i by omega, show i - 8 < 32 by omega]
  by_cases h24 : i < 24
  · simp [h8, h16, h24, hi, show ¬ i - 8 < 8 by omega, show i - 16 < 8 by omega, show 16 + (i - 16) = i by omega,
      show i - 16 < 32 by omega]
  · simp [h8, h16, h24, hi, show ¬ i - 8 < 8 by omega, show ¬ i - 16 < 8 by omega, show i - 24 < 8 by omega,
      show 24 + (i - 24) = i by omega, show i - 24 < 32 by omega]

/-- A length that fits into a word is read back from its two bytes. -/
theorem lengthOf_word16be {n : ℕ} (h : n < 65536) :
    lengthOf ((BitVec.ofNat 16 n >>> 8).setWidth 8) ((BitVec.ofNat 16 n).setWidth 8) = n := by
  have hhi : ((BitVec.ofNat 16 n >>> 8).setWidth 8).toNat = n / 256 := by
    rw [BitVec.toNat_setWidth, BitVec.toNat_ushiftRight, BitVec.toNat_ofNat, Nat.shiftRight_eq_div_pow]
    omega
  have hlo : ((BitVec.ofNat 16 n).setWidth 8).toNat = n % 256 := by
    rw [BitVec.toNat_setWidth, BitVec.toNat_ofNat]
    omega
  rw [lengthOf, hhi, hlo, ← Nat.shiftLeft_add_eq_or_of_lt (by omega : n % 256 < 2^8), Nat.shiftLeft_eq]
  omega

end Words

section RoundTrips

@[simp] theorem byteAt_zero (b : Byte) (bytes : List Byte) (what : String) : byteAt (b :: bytes) what 0 = .ok b := by
  simp only [byteAt, List.getElem?_cons_zero]

@[simp] theorem byteAt_succ (b : Byte) (bytes : List Byte) (what : String) (i : ℕ) :
    byteAt (b :: bytes) what (i+1) = byteAt bytes what i := by
  simp only [byteAt, List.getElem?_cons_succ]

@[simp] theorem ok_bind {α β : Type} (a : α) (f : α → Except NetError β) :
    ((Except.ok a : Except NetError α) >>= f) = f a := by
  simp only [bind, Except.bind]

theorem decodeEthernet_encodeEthernet (dst src : Mac) (ethertype : Word16) (payload : List Byte) :
    decodeEthernet (encodeEthernet dst src ethertype payload) = .ok (dst, src, ethertype, payload) := by
  have hlen : ¬ (encodeEthernet dst src ethertype payload).length < 14 := by
    simp [encodeEthernet, Mac.toList, word16be]
  rw [decodeEthernet, if_neg hlen]
  simp [encodeEthernet, Mac.toList, word16be, listToMac, word16_word16be]

theorem decodeArp_encodeArp (p : ArpPacket) (pad : List Byte) : decodeArp (encodeArp p ++ pad) = .ok p := by
  have hlen : ¬ (encodeArp p ++ pad).length < 28 := by
    simp [encodeArp, Mac.toList, Ipv4.toList, word16be]
  rw [decodeArp, if_neg hlen]
  simp only [encodeArp, Mac.toList, Ipv4.toList, word16be, List.cons_append, List.nil_append, byteAt_zero, byteAt_succ,
    ok_bind, word16_word16be]
  rw [if_neg (by decide)]

/-- The padding behind the total length is cut off. -/
theorem decodeIpv4_encodeIpv4 (src dst : Ipv4) (proto : Byte) {payload : List Byte} (h : 20 + payload.length < 65536)
    (pad : List Byte) : decodeIpv4 (encodeIpv4 src dst proto payload ++ pad) = .ok ⟨src, dst, proto, 0x40, payload⟩ := by
  have hlen : (encodeIpv4 src dst proto payload ++ pad).length = 20 + payload.length + pad.length := by
    simp [encodeIpv4, Ipv4.toList, word16be]
    omega
  rw [decodeIpv4, if_neg (by omega), hlen]
  simp only [encodeIpv4, Ipv4.toList, word16be, List.cons_append, List.nil_append, List.take_succ_cons, List.take_zero,
    List.drop_succ_cons, List.drop_zero, byteAt_zero, byteAt_succ, ok_bind, lengthOf_word16be h]
  have hhdr : ((0x45 : Byte) &&& 0x0F).toNat*4 = 20 := by decide
  rw [if_neg (by decide), hhdr, if_neg (by omega), if_neg (by omega)]
  simp only [List.drop_succ_cons, List.drop_zero, Nat.add_sub_cancel_left, List.take_left]

theorem decodeUdp_encodeUdp (src dst : Word16) {payload : List Byte} (h : 8 + payload.length < 65536) :
    decodeUdp (encodeUdp src dst payload) = .ok ⟨src, dst, payload⟩ := by
  have hlen : (encodeUdp src dst payload).length = 8 + payload.length := by
    simp [encodeUdp, word16be]
    omega
  rw [decodeUdp, if_neg (by omega), hlen]
  simp only [encodeUdp, word16be, List.cons_append, List.nil_append, byteAt_zero, byteAt_succ, ok_bind,
    lengthOf_word16be h, word16_word16be, List.drop_succ_cons, List.drop_zero]
  rw [if_neg (by omega), Nat.add_sub_cancel_left, List.take_length]

theorem decodeIcmpEcho_encodeIcmpEcho (ident seqNum : Word16) (payload : List Byte) :
    decodeIcmpEcho (encodeIcmpEcho ident seqNum payload) = .ok ⟨8, ident, seqNum, payload⟩ := by
  have hlen : ¬ (encodeIcmpEcho ident seqNum payload).length < 8 := by
    simp [encodeIcmpEcho, word16be]
  rw [decodeIcmpEcho, if_neg hlen]
  simp only [encodeIcmpEcho, word16be, List.cons_append, List.nil_append, byteAt_zero, byteAt_succ, ok_bind,
    word16_word16be, List.drop_succ_cons, List.drop_zero]

theorem decodeTcp_encodeTcp (src dst : Ipv4) (seg : TcpSegment) : decodeTcp (encodeTcp src dst seg) = .ok seg := by
  have hlen : (encodeTcp src dst seg).length = 20 + seg.payload.length := by
    simp [encodeTcp, word16be, word32be]
    omega
  rw [decodeTcp, if_neg (by omega), hlen]
  simp only [encodeTcp, word16be, word32be, List.cons_append, List.nil_append, List.take_succ_cons, List.take_zero,
    List.drop_succ_cons, List.drop_zero, byteAt_zero, byteAt_succ, ok_bind, word16_word16be, word32_word32be]
  have hoff : ((0x50 : Byte) >>> 4).toNat = 5 := by decide
  rw [hoff, if_neg (by omega), if_neg (by omega)]
  simp only [Nat.reduceMul, List.drop_succ_cons, List.drop_zero]

end RoundTrips

/-- What an IPv4 packet of the server carries. -/
inductive Transport where
  | udp (p : UdpPacket)
  | tcp (seg : TcpSegment)
  | icmpEcho (ident seqNum : Word16) (payload : List Byte)

def Transport.proto : Transport → Byte
  | udp _ => 17
  | tcp _ => 6
  | icmpEcho .. => 1

def Transport.encode (src dst : Ipv4) : Transport → List Byte
  | udp p => encodeUdp p.srcPort p.dstPort p.payload
  | tcp seg => encodeTcp src dst seg
  | icmpEcho ident seqNum payload => encodeIcmpEcho ident seqNum payload

/-- What the decoder of a transport makes of the payload of an IPv4 packet. -/
inductive Received where
  | udp (p : UdpPacket)
  | tcp (seg : TcpSegment)
  | icmpEcho (e : IcmpEcho)
  | unknown
  deriving DecidableEq, Repr

/-- The decoder for a protocol number, as the receiver picks it. -/
def decodeTransport (proto : Byte) (bytes : List Byte) : Except NetError Received :=
  if proto = 1 then (decodeIcmpEcho bytes).map .icmpEcho
  else if proto = 17 then (decodeUdp bytes).map .udp
  else if proto = 6 then (decodeTcp bytes).map .tcp
  else .ok .unknown

structure Layers where
  dst : Mac
  src : Mac
  ethertype : Word16
  ip : Ipv4Packet
  body : Received
  deriving DecidableEq, Repr

/-- A frame with an IPv4 packet, layer by layer. -/
def decodeLayers (frame : List Byte) : Except NetError Layers := do
  let (dst, src, ethertype, payload) ← decodeEthernet frame
  let ip ← decodeIpv4 payload
  let body ← decodeTransport ip.proto ip.payload
  .ok ⟨dst, src, ethertype, ip, body⟩

/-- An ARP frame, layer by layer. -/
def decodeArpFrame (frame : List Byte) : Except NetError (Mac × Mac × Word16 × ArpPacket) := do
  let (dst, src, ethertype, payload) ← decodeEthernet frame
  let arp ← decodeArp payload
  .ok (dst, src, ethertype, arp)

def Transport.received : Transport → Received
  | udp p => .udp p
  | tcp seg => .tcp seg
  | icmpEcho ident seqNum payload => .icmpEcho ⟨8, ident, seqNum, payload⟩

lemma decodeTransport_encode (src dst : Ipv4) (body : Transport) (h : (body.encode src dst).length < 65536) :
    decodeTransport body.proto (body.encode src dst) = .ok body.received := by
  cases body with
  | udp p =>
    have hlen : 8 + p.payload.length < 65536 := by
      simp [Transport.encode, encodeUdp, word16be] at h
      omega
    simp [decodeTransport, Transport.proto, Transport.encode, Transport.received, decodeUdp_encodeUdp _ _ hlen, Except.map]
  | tcp seg => simp [decodeTransport, Transport.proto, Transport.encode, Transport.received, decodeTcp_encodeTcp, Except.map]
  | icmpEcho ident seqNum payload =>
    simp [decodeTransport, Transport.proto, Transport.encode, Transport.received, decodeIcmpEcho_encodeIcmpEcho, Except.map]

/-- Behind any padding, a frame is decoded to what was encoded into it. -/
theorem layers_round_trip (dst src : Mac) (ethertype : Word16) (pad : List Byte) :
    (∀ (srcIp dstIp : Ipv4) (body : Transport), 20 + (body.encode srcIp dstIp).length < 65536 →
      decodeLayers (encodeEthernet dst src ethertype (encodeIpv4 srcIp dstIp body.proto (body.encode srcIp dstIp)) ++ pad) =
        .ok ⟨dst, src, ethertype, ⟨srcIp, dstIp, body.proto, 0x40, body.encode srcIp dstIp⟩, body.received⟩) ∧
    ∀ arp, decodeArpFrame (encodeEthernet dst src ethertype (encodeArp arp) ++ pad) = .ok (dst, src, ethertype, arp) := by
  have heth : ∀ payload, decodeEthernet (encodeEthernet dst src ethertype payload ++ pad) =
      .ok (dst, src, ethertype, payload ++ pad) := by
    intro payload
    have hpad : encodeEthernet dst src ethertype payload ++ pad = encodeEthernet dst src ethertype (payload ++ pad) :=
      List.append_assoc _ _ _
    rw [hpad, decodeEthernet_encodeEthernet]
  constructor
  · intro srcIp dstIp body h
    have hbody := decodeTransport_encode srcIp dstIp body (by omega)
    simp only [decodeLayers, heth, decodeIpv4_encodeIpv4 _ _ _ h, hbody, ok_bind]
  · intro arp
    simp only [decodeArpFrame, heth, decodeArp_encodeArp, ok_bind]

/-- A DNS query to port 53 in a frame padded to 60 bytes. -/
theorem layers_round_trip_padded :
    let query : Transport := .udp ⟨40000, 53, [1, 2, 3]⟩
    let ip := encodeIpv4 ⟨10, 0, 2, 15⟩ ⟨10, 0, 2, 3⟩ query.proto (query.encode ⟨10, 0, 2, 15⟩ ⟨10, 0, 2, 3⟩)
    (encodeEthernet ⟨82, 85, 10, 0, 2, 2⟩ ⟨82, 84, 0, 18, 52, 86⟩ 0x0800 ip ++ List.replicate 15 0).length = 60 ∧
    decodeLayers (encodeEthernet ⟨82, 85, 10, 0, 2, 2⟩ ⟨82, 84, 0, 18, 52, 86⟩ 0x0800 ip ++ List.replicate 15 0) =
      .ok ⟨⟨82, 85, 10, 0, 2, 2⟩, ⟨82, 84, 0, 18, 52, 86⟩, 0x0800,
        ⟨⟨10, 0, 2, 15⟩, ⟨10, 0, 2, 3⟩, 17, 0x40, query.encode ⟨10, 0, 2, 15⟩ ⟨10, 0, 2, 3⟩⟩, .udp ⟨40000, 53, [1, 2, 3]⟩⟩ :=
  ⟨by decide, (layers_round_trip _ _ _ _).1 _ _ (.udp ⟨40000, 53, [1, 2, 3]⟩) (by decide)⟩

end HouseKernel.Net
