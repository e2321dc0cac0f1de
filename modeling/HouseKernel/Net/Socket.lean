import HouseKernel.Lib.Run
import HouseKernel.Net.Stack
import HouseKernel.Virtio.ReceiveBuffers

/-! The one TCP connection of the network server, on a network that loses, repeats and reorders the
segments of the peer. The receive drain leaves the last TCP segment that it saw in one shared record,
and a RECV takes what it finds there. -/
namespace HouseKernel.Net

open HouseKernel.Lib

/-- The connection record, as far as it changes. -/
structure SockConn where
  sport : Word16
  dport : Word16
  sndNext : Word32
  rcvNext : Word32
  deriving DecidableEq, Repr

def hasFin (flags : Byte) : Bool := flags &&& tcpFlagFin ≠ 0

/-- A segment of the peer with bytes or a FIN. -/
def isPeerSeg (sport dport : Word16) (seg : TcpSegment) : Bool :=
  seg.srcPort = dport && seg.dstPort = sport && (!seg.payload.isEmpty || hasFin seg.flags)

/-- The two ends: the ports of the connection, the number of the peer's SYN, and what the peer sends. -/
structure Peer where
  sport : Word16
  dport : Word16
  isn : Word32
  stream : List Byte

/-- A received frame: a segment of the peer with `len` bytes of its stream from `off` on, or something else,
with its TCP segment if it has one. -/
inductive Frame where
  | peer (off len : ℕ) (flags : Byte) (ack : Word32) (window : Word16)
  | other (seg : Option TcpSegment)
  deriving DecidableEq, Repr

/-- What the peer's end of the connection puts under a position in its stream. -/
def Peer.seqAt (p : Peer) (off : ℕ) : Word32 := p.isn + 1 + BitVec.ofNat 32 off

def Peer.segment (p : Peer) : Frame → Option TcpSegment
  | .peer off len flags ack window =>
    some ⟨p.dport, p.sport, p.seqAt off, ack, flags, window, (p.stream.drop off).take len⟩
  | .other seg => seg

/-- The peer sends bytes of its stream and a FIN at its end; nobody else sends in its name. -/
def Peer.Genuine (p : Peer) : Frame → Prop
  | .peer off len flags _ _ => off + len ≤ p.stream.length ∧ (hasFin flags = true → off + len = p.stream.length)
  | .other seg => ∀ s ∈ seg, isPeerSeg p.sport p.dport s = false

instance (p : Peer) : ∀ f, Decidable (p.Genuine f)
  | .peer _ _ _ _ _ => inferInstanceAs (Decidable (_ ∧ _))
  | .other _ => inferInstanceAs (Decidable (∀ s ∈ _, _))

/-- An acknowledgement number that was sent, with how many bytes the caller had by then and whether it
had seen the end of the stream. -/
structure SentAck where
  number : Word32
  bytes : ℕ
  fin : Bool
  deriving DecidableEq, Repr

/-- The server's side. `seen` is the shared record, as the frame that it was read from; `rx` waits in the
receive ring; `waiting` is the time that a RECV under way has left. The last three fields are history. -/
structure Socket where
  conn : Option SockConn
  seen : Option Frame
  rx : List Frame
  waiting : Option ℤ
  returned : List (List Byte)
  finReturned : Bool
  acks : List SentAck
  deriving DecidableEq, Repr

/-- The connection after the handshake; the SYN-ACK is still in the record. -/
def Socket.opened (p : Peer) (sndNext : Word32) : Socket :=
  ⟨some ⟨p.sport, p.dport, sndNext, p.isn + 1⟩,
    some (.other (some ⟨p.dport, p.sport, p.isn, sndNext, tcpFlagSyn ||| tcpFlagAck, 65535, []⟩)), [], none, [], false, []⟩

/-- The record after some frames were handled. -/
def Peer.latest (p : Peer) (seen : Option Frame) (frames : List Frame) : Option Frame :=
  frames.foldl (fun seen f => if (p.segment f).isSome then some f else seen) seen

/-- `drainRx` handles sixteen frames, and pops one more when there is one. -/
def Socket.drainRx (s : Socket) (p : Peer) : Socket :=
  { s with seen := p.latest s.seen (s.rx.take Virtio.netRxBatchCap), rx := s.rx.drop (Virtio.netRxBatchCap+1) }

def Socket.bytes (s : Socket) : ℕ := s.returned.flatten.length

/-- A segment with this acknowledgement number goes out. -/
def Socket.sendAck (s : Socket) (number : Word32) : Socket :=
  { s with acks := s.acks ++ [⟨number, s.bytes, s.finReturned⟩] }

inductive SocketAction where
  | deliver (f : Frame)
  /-- `sent` says whether the transmission succeeded. -/
  | send (payload : List Byte) (sent : Bool)
  | recv
  /-- One round of the wait in a RECV. -/
  | poll
  | close
  deriving DecidableEq, Repr

/-- A RECV that found a segment of the peer: clear the record, acknowledge, and return the payload. -/
def Socket.finish (s : Socket) (c : SockConn) (seg : TcpSegment) : Socket :=
  let c' := { c with rcvNext := c.rcvNext + BitVec.ofNat 32 seg.payload.length }
  let s := { s with seen := none, waiting := none, conn := some c', returned := s.returned ++ [seg.payload],
                    finReturned := s.finReturned || hasFin seg.flags }
  s.sendAck c'.rcvNext

def socketStep (p : Peer) (s : Socket) : SocketAction → Option Socket
  | .deliver f => if p.Genuine f then some { s with rx := s.rx ++ [f] } else none
  | .send payload sent => if s.waiting.isSome then none else
      match s.conn with
      | none => some s
      | some c =>
        if 512 < payload.length then some s
        else if sent then some { s.sendAck c.rcvNext with
          conn := some { c with sndNext := c.sndNext + BitVec.ofNat 32 payload.length } }
        else some s
  | .recv => if s.waiting.isSome then none else
      match s.conn with
      | none => some s
      | some _ => some { s with waiting := some 1500 }
  | .poll => match s.waiting, s.conn with
    | some ms, some c =>
      let s := s.drainRx p
      match s.seen.bind p.segment with
      | some seg => if isPeerSeg c.sport c.dport seg then some (s.finish c seg)
          else some { s with waiting := if ms ≤ 0 then none else some (ms - 20) }
      | none => some { s with waiting := if ms ≤ 0 then none else some (ms - 20) }
    | _, _ => none
  | .close => if s.waiting.isSome then none else
      match s.conn with
      | none => some s
      | some c => some { s.sendAck c.rcvNext with conn := none }

/-- What the caller got is the beginning of the peer's stream, and every acknowledgement covers it exactly. -/
structure Socket.Faithful (p : Peer) (s : Socket) : Prop where
  stream : s.returned.flatten <+: p.stream
  acks : ∀ a ∈ s.acks, a.number = p.seqAt (a.bytes + if a.fin then 1 else 0)

/-- The segment of the peer that the next round of a RECV finds, if it does, starts with the first byte that was
not returned yet, and ends no stream. -/
def Socket.NextInOrder (p : Peer) (s : Socket) : SocketAction → Prop
  | .poll => match p.latest s.seen (s.rx.take Virtio.netRxBatchCap) with
    | some (.peer off len flags _ _) => (0 < len ∨ hasFin flags = true) → off = s.bytes ∧ hasFin flags = false
    | _ => True
  | _ => True

instance (p : Peer) (s : Socket) : ∀ a, Decidable (s.NextInOrder p a)
  | .poll => by
    unfold Socket.NextInOrder
    dsimp only
    split
    · exact inferInstance
    · exact isTrue trivial
  | .deliver _ | .send _ _ | .recv | .close => isTrue trivial

/-- What every run in order keeps. -/
structure Socket.Ok (p : Peer) (s : Socket) : Prop where
  faithful : s.Faithful p
  next : ∀ c ∈ s.conn, c.sport = p.sport ∧ c.dport = p.dport ∧ c.rcvNext = p.seqAt s.bytes
  openEnded : s.finReturned = false
  seen : ∀ f ∈ s.seen, p.Genuine f
  rx : ∀ f ∈ s.rx, p.Genuine f

section Steps

variable {p : Peer} {s t : Socket}

lemma latest_genuine {seen : Option Frame} {frames : List Frame} (hseen : ∀ f ∈ seen, p.Genuine f)
    (hframes : ∀ f ∈ frames, p.Genuine f) : ∀ f ∈ p.latest seen frames, p.Genuine f := by
  induction frames generalizing seen with
  | nil => exact hseen
  | cons f frames ih =>
    obtain ⟨hf, hrest⟩ := List.forall_mem_cons.mp hframes
    refine ih (fun g hg => ?_) hrest
    dsimp only at hg
    split_ifs at hg
    · obtain rfl := Option.some.inj hg
      exact hf
    · exact hseen g hg

lemma Socket.Ok.opened (p : Peer) (sndNext : Word32) : (Socket.opened p sndNext).Ok p where
  faithful := ⟨List.nil_prefix, nofun⟩
  next c hc := by
    obtain rfl := Option.some.inj hc
    exact ⟨rfl, rfl, by simp [Peer.seqAt, Socket.opened, Socket.bytes]⟩
  openEnded := rfl
  seen f hf := by
    obtain rfl := Option.some.inj hf
    intro seg hseg
    obtain rfl := Option.some.inj hseg
    simp [isPeerSeg, hasFin, tcpFlagSyn, tcpFlagAck, tcpFlagFin]
  rx := nofun

lemma Socket.Ok.drainRx (h : s.Ok p) : (s.drainRx p).Ok p :=
  { h with
    faithful := ⟨h.faithful.stream, h.faithful.acks⟩
    seen := latest_genuine h.seen fun f hf => h.rx f (List.mem_of_mem_take hf)
    rx := fun f hf => h.rx f (List.mem_of_mem_drop hf) }

/-- An acknowledgement of what was returned so far. -/
lemma Socket.Ok.sendAck (h : s.Ok p) : (s.sendAck (p.seqAt s.bytes)).Ok p := by
  refine { h with faithful := ⟨h.faithful.stream, fun a ha => ?_⟩ }
  obtain ha | ha := List.mem_append.mp ha
  · exact h.faithful.acks a ha
  · obtain rfl := List.mem_singleton.mp ha
    simp [h.openEnded]

/-- The next bytes of the stream extend what was returned. -/
theorem Socket.Ok.finish {c : SockConn} {len : ℕ} {flags : Byte} {ack : Word32} {window : Word16} (h : s.Ok p)
    (hc : s.conn = some c) (hfin : hasFin flags = false) (hlen : s.bytes + len ≤ p.stream.length) :
    (s.finish c ⟨p.dport, p.sport, p.seqAt s.bytes, ack, flags, window, (p.stream.drop s.bytes).take len⟩).Ok p := by
  obtain ⟨hsport, hdport, hnext⟩ := h.next c hc
  have hreturned : s.returned.flatten = p.stream.take s.bytes := List.prefix_iff_eq_take.mp h.faithful.stream
  have hpayload : ((p.stream.drop s.bytes).take len).length = len := by
    rw [List.length_take, List.length_drop]
    omega
  have hall : (s.returned ++ [(p.stream.drop s.bytes).take len]).flatten = p.stream.take (s.bytes + len) := by
    rw [List.flatten_append, List.flatten_singleton, hreturned, ← List.take_add]
  have hseq : c.rcvNext + BitVec.ofNat 32 len = p.seqAt (s.bytes + len) := by
    rw [hnext, Peer.seqAt, Peer.seqAt, BitVec.ofNat_add, BitVec.add_assoc]
  have hbytes : (s.returned ++ [(p.stream.drop s.bytes).take len]).flatten.length = s.bytes + len := by
    rw [hall, List.length_take]
    omega
  -- the acknowledgement is sent from this state
  have hadvanced : Ok p { s with
      seen := none, waiting := none, conn := some { c with rcvNext := c.rcvNext + BitVec.ofNat 32 len }
      returned := s.returned ++ [(p.stream.drop s.bytes).take len], finReturned := s.finReturned || hasFin flags } := by
    refine ⟨⟨?_, h.faithful.acks⟩, fun c' hc' => ?_, ?_, nofun, h.rx⟩
    · rw [hall]
      exact List.take_prefix _ _
    · obtain rfl := Option.some.inj hc'
      exact ⟨hsport, hdport, hseq.trans (congrArg p.seqAt hbytes.symm)⟩
    · simp only [h.openEnded, hfin, Bool.or_self]
  have hack := hadvanced.sendAck
  rw [← (hadvanced.next _ rfl).2.2] at hack
  simp only [Socket.finish, hpayload]
  exact hack

/-- Nothing but the drain happens in a round that finds no segment of the peer. -/
lemma Socket.Ok.waits (h : s.Ok p) (waiting : Option ℤ) : Ok p { s.drainRx p with waiting := waiting } :=
  { h.drainRx with faithful := ⟨h.faithful.stream, h.faithful.acks⟩ }

theorem Socket.Ok.poll (h : s.Ok p) (hg : s.NextInOrder p .poll) (hs : socketStep p s .poll = some t) : t.Ok p := by
  simp only [socketStep] at hs
  cases hw : s.waiting with
  | none => simp [hw] at hs
  | some ms =>
    cases hc : s.conn with
    | none => simp [hw, hc] at hs
    | some c =>
      obtain ⟨hsport, hdport, -⟩ := h.next c hc
      simp only [hw, hc] at hs
      cases hseg : (s.drainRx p).seen.bind p.segment with
      | none =>
        simp only [hseg, Option.some.injEq] at hs
        subst hs
        exact h.waits _
      | some seg =>
        simp only [hseg] at hs
        by_cases hpeer : isPeerSeg c.sport c.dport seg = true
        · rw [if_pos hpeer] at hs
          obtain rfl := Option.some.inj hs
          obtain ⟨f, hf, hfseg⟩ := Option.bind_eq_some_iff.mp hseg
          have hgenuine := h.drainRx.seen f hf
          cases f with
          | other seg' =>
            -- nobody else sends in the peer's name
            have := hgenuine seg hfseg
            rw [hsport, hdport, this] at hpeer
            cases hpeer
          | peer off len flags ack window =>
            obtain rfl := Option.some.inj hfseg
            have hlatest : p.latest s.seen (s.rx.take Virtio.netRxBatchCap) = some (.peer off len flags ack window) := hf
            simp only [Socket.NextInOrder, hlatest] at hg
            have hsome : 0 < len ∨ hasFin flags = true := by
              simp only [isPeerSeg, Bool.and_eq_true, Bool.or_eq_true] at hpeer
              refine hpeer.2.imp_left fun hne => ?_
              by_contra hzero
              simp [Nat.eq_zero_of_not_pos hzero] at hne
            obtain ⟨rfl, hfin⟩ := hg hsome
            exact h.drainRx.finish hc hfin hgenuine.1
        · rw [if_neg hpeer] at hs
          obtain rfl := Option.some.inj hs
          exact h.waits _

theorem Socket.Ok.step {a : SocketAction} (h : s.Ok p) (hg : s.NextInOrder p a) (hs : socketStep p s a = some t) :
    t.Ok p := by
  cases a with
  | deliver f =>
    simp only [socketStep] at hs
    split_ifs at hs with hf
    obtain rfl := Option.some.inj hs
    refine { h with faithful := ⟨h.faithful.stream, h.faithful.acks⟩, rx := fun g hgmem => ?_ }
    obtain hgmem | hgmem := List.mem_append.mp hgmem
    · exact h.rx g hgmem
    · obtain rfl := List.mem_singleton.mp hgmem
      exact hf
  | send payload sent =>
    simp only [socketStep] at hs
    by_cases hidle : s.waiting.isSome = true
    · rw [if_pos hidle] at hs
      cases hs
    rw [if_neg hidle] at hs
    cases hc : s.conn with
    | none =>
      simp only [hc, Option.some.injEq] at hs
      exact hs ▸ h
    | some c =>
      simp only [hc] at hs
      split_ifs at hs
      · obtain rfl := Option.some.inj hs
        exact h
      · obtain rfl := Option.some.inj hs
        obtain ⟨hsport, hdport, hnext⟩ := h.next c hc
        have hack := h.sendAck
        rw [← hnext] at hack
        refine { hack with faithful := ⟨hack.faithful.stream, hack.faithful.acks⟩, next := fun c' hc' => ?_ }
        obtain rfl := Option.some.inj hc'
        exact ⟨hsport, hdport, hnext⟩
      · obtain rfl := Option.some.inj hs
        exact h
  | recv =>
    simp only [socketStep] at hs
    by_cases hidle : s.waiting.isSome = true
    · rw [if_pos hidle] at hs
      cases hs
    rw [if_neg hidle] at hs
    cases hc : s.conn with
    | none =>
      simp only [hc, Option.some.injEq] at hs
      exact hs ▸ h
    | some c =>
      simp only [hc, Option.some.injEq] at hs
      subst hs
      exact { h with
        faithful := ⟨h.faithful.stream, h.faithful.acks⟩
        next := fun c' hc' => h.next c' (hc.trans hc') }
  | poll => exact h.poll hg hs
  | close =>
    simp only [socketStep] at hs
    by_cases hidle : s.waiting.isSome = true
    · rw [if_pos hidle] at hs
      cases hs
    rw [if_neg hidle] at hs
    cases hc : s.conn with
    | none =>
      simp only [hc, Option.some.injEq] at hs
      exact hs ▸ h
    | some c =>
      simp only [hc, Option.some.injEq] at hs
      subst hs
      have hack := h.sendAck
      rw [← (h.next c hc).2.2] at hack
      exact { hack with faithful := ⟨hack.faithful.stream, hack.faithful.acks⟩, next := nofun }

end Steps

/-- In a run in which every segment of the peer that a RECV takes starts with the first byte that was not returned
yet, and ends no stream, the caller gets the peer's stream and acknowledges exactly what it got. -/
theorem socket_delivers_stream {p : Peer} {sndNext : Word32} {as : List SocketAction}
    (h : Along (socketStep p) (Socket.NextInOrder p) (Socket.opened p sndNext) as) :
    Throughout (socketStep p) (Socket.Faithful p) (Socket.opened p sndNext) as := by
  rintro bs ⟨cs, rfl⟩ s hrun
  have hok : s.Ok p := run_invariant (fun _ _ _ hs hG hstep => hs.step hG hstep) (Socket.Ok.opened p sndNext)
    (along_append.mp h).1 hrun
  exact hok.faithful

/-- A peer that sends ten bytes. -/
def samplePeer : Peer := ⟨5000, 80, 700, [0, 1, 2, 3, 4, 5, 6, 7, 8, 9]⟩

def segmentFrame (off len : ℕ) (flags : Byte) : Frame := .peer off len flags 1001 65535

/-- Two segments, each taken before the next one arrives, and a request in between. -/
theorem socket_delivers_stream_twice :
    (run (socketStep samplePeer) (Socket.opened samplePeer 1001)
      [.recv, .poll, .deliver (segmentFrame 0 4 tcpFlagAck), .poll, .send [1, 2] true, .recv,
        .deliver (segmentFrame 4 6 tcpFlagAck), .poll]).isSome = true ∧
    Throughout (socketStep samplePeer) (Socket.Faithful samplePeer) (Socket.opened samplePeer 1001)
      [.recv, .poll, .deliver (segmentFrame 0 4 tcpFlagAck), .poll, .send [1, 2] true, .recv,
        .deliver (segmentFrame 4 6 tcpFlagAck), .poll] :=
  ⟨by decide, socket_delivers_stream (by decide)⟩

/-- Two segments in one batch: only the second is returned. One segment twice: it is returned twice. And the end
of the stream is returned, but not acknowledged. -/
theorem socket_loses_stream :
    (∃ s, run (socketStep samplePeer) (Socket.opened samplePeer 1001)
        [.deliver (segmentFrame 0 4 tcpFlagAck), .deliver (segmentFrame 4 6 tcpFlagAck), .recv, .poll] = some s ∧
      s.returned = [[4, 5, 6, 7, 8, 9]] ∧ ¬ s.Faithful samplePeer) ∧
    (∃ s, run (socketStep samplePeer) (Socket.opened samplePeer 1001)
        [.deliver (segmentFrame 0 4 tcpFlagAck), .recv, .poll, .deliver (segmentFrame 0 4 tcpFlagAck), .recv, .poll] = some s ∧
      s.returned = [[0, 1, 2, 3], [0, 1, 2, 3]] ∧ ¬ s.Faithful samplePeer) ∧
    ∃ s, run (socketStep samplePeer) (Socket.opened samplePeer 1001)
        [.deliver (segmentFrame 0 10 tcpFlagAck), .recv, .poll, .deliver (segmentFrame 10 0 (tcpFlagAck ||| tcpFlagFin)),
          .recv, .poll] = some s ∧
      s.acks = [⟨711, 10, false⟩, ⟨711, 10, true⟩] ∧ ¬ s.Faithful samplePeer := by
  refine ⟨⟨_, rfl, rfl, fun h => ?_⟩, ⟨_, rfl, rfl, fun h => ?_⟩, ⟨_, rfl, rfl, fun h => ?_⟩⟩
  · exact absurd h.stream (by decide)
  · exact absurd h.stream (by decide)
  · exact absurd (h.acks ⟨711, 10, true⟩ (by decide)) (by decide)

end HouseKernel.Net
