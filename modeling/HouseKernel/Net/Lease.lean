import HouseKernel.Lib.Run
import HouseKernel.Net.Dhcp
import HouseKernel.Virtio.ReceivedData

/-! The DHCP client on a network that delivers any frames in any order. The receive drain leaves the last reply that it
decoded in one shared record; every caller of the drain may overwrite it, and the client takes what it finds there when
the transaction and the type fit. What is decoded is the frame of a page with one octet more than the device reported. -/
namespace HouseKernel.Net

open HouseKernel.Lib
open scoped List

def macBroadcast : Mac := ⟨255, 255, 255, 255, 255, 255⟩

/-- The frame around a message of the client. -/
def dhcpFrame (mac : Mac) (msg : List Byte) : List Byte :=
  encodeEthernet macBroadcast mac 0x0800 (encodeIpv4 ⟨0, 0, 0, 0⟩ ⟨255, 255, 255, 255⟩ 17 (encodeUdp 68 67 msg))

/-- The reply in a frame, as `handlePacket` finds it. -/
def dhcpOf (frame : List Byte) : Option DhcpMsg :=
  match decodeEthernet frame with
  | .error _ => none
  | .ok (_, _, ethType, payload) =>
    if ethType = 0x0800 then
      match decodeIpv4 payload with
      | .error _ => none
      | .ok ipkt =>
        if ipkt.proto = 17 then
          match decodeUdp ipkt.payload with
          | .error _ => none
          | .ok udp => if udp.srcPort = 67 ∧ udp.dstPort = 68 then (decodeDhcp udp.payload).toOption else none
        else none
    else none

/-- A page that the device has completed: what is in it, and how many octets the device reported. -/
structure RxPage where
  octets : ℕ → Byte
  len : ℕ

/-- The frame that `handleOne` hands on. -/
def RxPage.frame (p : RxPage) : List Byte := (Virtio.peekPage (fun _ => p.octets) 0 p.len).drop Virtio.virtioNetHdrSize

/-- What was done, in order: the replies that a drain decoded, the frames that went out, and the address that was bound. -/
inductive LeaseEvent where
  | seen (m : DhcpMsg)
  | sent (frame : List Byte)
  | bound (ip : Ipv4)
  deriving DecidableEq

/-- Where the client is. A wait is for an offer, or for the acknowledgement of one, with the time that it has left. -/
inductive LeasePc where
  | start (attempt : ℕ)
  | discover (attempt : ℕ)
  | drain (attempt : ℕ) (offer : Option DhcpMsg) (waitedMs : ℤ)
  | look (attempt : ℕ) (offer : Option DhcpMsg) (waitedMs : ℤ)
  | clear (attempt : ℕ) (offer : Option DhcpMsg) (waitedMs : ℤ)
  | request (attempt : ℕ) (offer : DhcpMsg)
  | bind (ack : DhcpMsg)
  | returned (result : Except NetError Ipv4)

/-- The receive ring, the shared record, and the address of the device while there is a device. -/
structure Lease where
  rx : List RxPage
  seen : Option DhcpMsg
  netIp : Option (Option Ipv4)
  pc : LeasePc
  events : List LeaseEvent

/-- What a drain does with the frames that it handles. -/
def Lease.handle (s : Lease) (ms : List DhcpMsg) : Lease :=
  { s with seen := ms.foldl (fun _ m => some m) s.seen, events := s.events ++ ms.map .seen }

/-- `drainRx` handles sixteen pages, and pops one more when there is one. -/
def Lease.drainRx (s : Lease) : Lease :=
  { s.handle ((s.rx.take Virtio.netRxBatchCap).filterMap fun p => dhcpOf p.frame) with rx := s.rx.drop (Virtio.netRxBatchCap + 1) }

inductive LeaseAction where
  | deliver (page : RxPage)
  /-- Another caller drains the ring. -/
  | otherDrain
  /-- The device goes, or comes back without an address. -/
  | device (up : Bool)
  /-- The client goes on. `sent` says whether a transmission succeeds. -/
  | turn (sent : Bool)

section Client

variable (xid : Word32) (mac : Mac)

def discoverFrame : List Byte := dhcpFrame mac (encodeDhcpDiscover xid mac)

def requestFrame (offer : DhcpMsg) : List Byte :=
  dhcpFrame mac (encodeDhcpRequest xid mac offer.yiaddr (offer.serverId.getD ⟨10, 0, 2, 2⟩))

/-- The type of message that is waited for. -/
def wantType : Option DhcpMsg → Byte
  | none => 2
  | some _ => 5

/-- A look at the record, in `waitDhcpMsg`. -/
def lookPc (seen : Option DhcpMsg) (attempt : ℕ) (offer : Option DhcpMsg) (waitedMs : ℤ) : LeasePc :=
  let again := if waitedMs ≤ 0 then LeasePc.start (attempt + 1) else .drain attempt offer (waitedMs - 20)
  match seen with
  | some d =>
    if d.xid = xid ∧ d.msgType = wantType offer then
      match offer with
      | none => .request attempt d
      | some _ => .bind d
    else if d.xid ≠ xid ∧ 0 < waitedMs then .clear attempt offer waitedMs
    else again
  | none => again

/-- One turn of `dhcpTries`. -/
def dhcpTurn (s : Lease) (sent : Bool) : Option Lease :=
  match s.pc with
  | .start n =>
    if 3 ≤ n then some { s with pc := .returned (.error .dhcpFailed) }
    else some { s with seen := none, pc := .discover n }
  | .discover n =>
    if sent then some { s with events := s.events ++ [.sent (discoverFrame xid mac)], pc := .drain n none 700 }
    else some { s with pc := .start (n + 1) }
  | .drain n offer ms => some { s.drainRx with pc := .look n offer ms }
  | .look n offer ms => some { s with pc := lookPc xid s.seen n offer ms }
  | .clear n offer ms => some { s with seen := none, pc := .drain n offer (ms - 20) }
  | .request n offer =>
    if sent then
      some { s with events := s.events ++ [.sent (requestFrame xid mac offer)], pc := .drain n (some offer) 700 }
    else some { s with pc := .start (n + 1) }
  | .bind ack =>
    some { s with
      netIp := s.netIp.map fun _ => some ack.yiaddr
      events := s.events ++ [.bound ack.yiaddr]
      pc := .returned (.ok ack.yiaddr) }
  | .returned _ => none

def leaseStep (s : Lease) : LeaseAction → Option Lease
  | .deliver page => some { s with rx := s.rx ++ [page] }
  | .otherDrain => some s.drainRx
  | .device up => some { s with netIp := if up then some none else none }
  | .turn sent => dhcpTurn xid mac s sent

/-- The call starts, with whatever an earlier call left in the record. -/
def Lease.starts (s : Lease) : Prop := s.pc = .start 0 ∧ s.events = []

/-- An offer of this transaction was seen. -/
def Offered (events : List LeaseEvent) (offer : DhcpMsg) : Prop :=
  offer.xid = xid ∧ offer.msgType = 2 ∧ .seen offer ∈ events

/-- An offer of this transaction was seen, and its address requested after that. -/
def Asked (events : List LeaseEvent) (offer : DhcpMsg) : Prop :=
  offer.xid = xid ∧ offer.msgType = 2 ∧ [.seen offer, .sent (requestFrame xid mac offer)] <+ events

/-- An acknowledgement of this transaction was seen. -/
def Acked (events : List LeaseEvent) (ack : DhcpMsg) : Prop := ack.xid = xid ∧ ack.msgType = 5 ∧ .seen ack ∈ events

/-- The address was bound, after an offer and the request for it, and after an acknowledgement. -/
def Bound (events : List LeaseEvent) (ip : Ipv4) : Prop :=
  (∃ offer, offer.xid = xid ∧ offer.msgType = 2 ∧
    [.seen offer, .sent (requestFrame xid mac offer), .bound ip] <+ events) ∧
  ∃ ack, ack.xid = xid ∧ ack.msgType = 5 ∧ ack.yiaddr = ip ∧ [.seen ack, .bound ip] <+ events

/-- What the client knows at its place. -/
def Knows (events : List LeaseEvent) : LeasePc → Prop
  | .start _ => True
  | .discover _ => True
  | .drain _ offer _ => ∀ o ∈ offer, Asked xid mac events o
  | .look _ offer _ => ∀ o ∈ offer, Asked xid mac events o
  | .clear _ offer _ => ∀ o ∈ offer, Asked xid mac events o
  | .request _ offer => Offered xid events offer
  | .bind ack => (∃ offer, Asked xid mac events offer) ∧ Acked xid events ack
  | .returned (.ok ip) => Bound xid mac events ip
  | .returned (.error _) => True

/-- The record holds what was seen, once it was cleared; nothing is bound before the client returns. -/
structure Lease.Sound (s : Lease) : Prop where
  knows : Knows xid mac s.events s.pc
  seen : s.pc = .start 0 ∨ ∀ d ∈ s.seen, .seen d ∈ s.events
  bound : ∀ ip, .bound ip ∈ s.events → s.pc = .returned (.ok ip)

end Client

section Safety

variable {xid : Word32} {mac : Mac} {s t : Lease} {events events' : List LeaseEvent} {pc : LeasePc} {ms : List DhcpMsg}

theorem Asked.mono {o : DhcpMsg} (h : Asked xid mac events o) (hle : events <+ events') : Asked xid mac events' o :=
  ⟨h.1, h.2.1, h.2.2.trans hle⟩

theorem Knows.mono (h : Knows xid mac events pc) (hle : events <+ events') : Knows xid mac events' pc := by
  cases pc with
  | start n => trivial
  | discover n => trivial
  | drain n offer ms => exact fun o ho => (h o ho).mono hle
  | look n offer ms => exact fun o ho => (h o ho).mono hle
  | clear n offer ms => exact fun o ho => (h o ho).mono hle
  | request n offer => exact ⟨h.1, h.2.1, hle.subset h.2.2⟩
  | bind ack =>
    obtain ⟨⟨offer, hoffer⟩, hxid, htype, hseen⟩ := h
    exact ⟨⟨offer, hoffer.mono hle⟩, hxid, htype, hle.subset hseen⟩
  | returned result =>
    cases result with
    | error e => trivial
    | ok ip =>
      obtain ⟨⟨offer, hxid, htype, hsent⟩, ack, hxid', htype', hip, hseen⟩ := h
      exact ⟨⟨offer, hxid, htype, hsent.trans hle⟩, ack, hxid', htype', hip, hseen.trans hle⟩

theorem mem_latest {seen : Option DhcpMsg} {d : DhcpMsg} (h : ms.foldl (fun _ m => some m) seen = some d) :
    d ∈ ms ∨ seen = some d := by
  induction ms generalizing seen with
  | nil => exact .inr h
  | cons m ms ih =>
    obtain hmem | hlast := ih h
    · exact .inl (List.mem_cons_of_mem _ hmem)
    · exact .inl (List.mem_cons.mpr (.inl (Option.some.inj hlast).symm))

/-- A drain, by whomever, leaves the record with something that was seen. -/
theorem Lease.Sound.drain (h : s.Sound xid mac) : s.drainRx.Sound xid mac := by
  obtain ⟨ms, hms⟩ : ∃ ms, ((s.rx.take Virtio.netRxBatchCap).filterMap fun p => dhcpOf p.frame) = ms := ⟨_, rfl⟩
  have hevents : s.drainRx.events = s.events ++ ms.map .seen := by rw [← hms]; rfl
  refine ⟨?_, ?_, ?_⟩
  · rw [hevents]
    exact h.knows.mono (List.sublist_append_left _ _)
  · refine h.seen.imp id fun hseen d hd => ?_
    have hd : ms.foldl (fun _ m => some m) s.seen = some d := by rw [← hms]; exact hd
    rw [hevents]
    obtain hmem | hold := mem_latest hd
    · exact List.mem_append_right _ (List.mem_map_of_mem hmem)
    · exact List.mem_append_left _ (hseen d hold)
  · intro ip hip
    rw [hevents, List.mem_append] at hip
    obtain hip | hip := hip
    · exact h.bound ip hip
    · obtain ⟨m, -, hm⟩ := List.mem_map.mp hip
      cases hm

theorem lookPc_knows {seen : Option DhcpMsg} {n : ℕ} {offer : Option DhcpMsg} {waitedMs : ℤ}
    (h : ∀ o ∈ offer, Asked xid mac events o) (hseen : ∀ d ∈ seen, .seen d ∈ events) :
    Knows xid mac events (lookPc xid seen n offer waitedMs) := by
  cases seen with
  | none =>
    rw [lookPc]
    split_ifs
    · trivial
    · exact h
  | some d =>
    have hd : .seen d ∈ events := hseen d rfl
    unfold lookPc
    dsimp only
    split_ifs with hfits
    · obtain ⟨hxid, htype⟩ := hfits
      cases offer with
      | none => exact ⟨hxid, htype, hd⟩
      | some o => exact ⟨⟨o, h o rfl⟩, hxid, htype, hd⟩
    · exact h
    · trivial
    · exact h

theorem Lease.Sound.turn {sent : Bool} (h : s.Sound xid mac) (hs : dhcpTurn xid mac s sent = some t) : t.Sound xid mac := by
  obtain ⟨hknows, hseen, hbound⟩ := h
  obtain ⟨rx, seen, netIp, pc, events⟩ := s
  dsimp only at hknows hseen hbound
  have hquiet : (∀ ip, pc ≠ .returned (.ok ip)) → ∀ ip, .bound ip ∉ events := fun hpc ip hip => hpc ip (hbound ip hip)
  have hsent : (∀ ip, pc ≠ .returned (.ok ip)) → ∀ frame ip, .bound ip ∉ events ++ [.sent frame] := by
    intro hpc frame ip hip
    obtain hip | hip := List.mem_append.mp hip
    · exact hquiet hpc ip hip
    · cases List.mem_singleton.mp hip
  cases pc with
  | start n =>
    have hquiet := hquiet (by simp)
    rw [dhcpTurn] at hs
    dsimp only at hs
    split_ifs at hs with hlast
    · obtain rfl := Option.some.inj hs
      have hlater : LeasePc.start n ≠ .start 0 := by
        intro hzero
        injection hzero with hzero
        omega
      exact ⟨trivial, .inr (hseen.resolve_left hlater), fun ip hip => absurd hip (hquiet ip)⟩
    · obtain rfl := Option.some.inj hs
      exact ⟨trivial, .inr (by simp), fun ip hip => absurd hip (hquiet ip)⟩
  | discover n =>
    have hseen := hseen.resolve_left (by simp)
    rw [dhcpTurn] at hs
    dsimp only at hs
    split_ifs at hs with hok
    · obtain rfl := Option.some.inj hs
      exact ⟨by simp [Knows], .inr fun d hd => List.mem_append_left _ (hseen d hd),
        fun ip hip => absurd hip (hsent (by simp) _ ip)⟩
    · obtain rfl := Option.some.inj hs
      exact ⟨trivial, .inr hseen, fun ip hip => absurd hip (hquiet (by simp) ip)⟩
  | drain n offer ms =>
    have hdrained := Lease.Sound.drain (s := ⟨rx, seen, netIp, .drain n offer ms, events⟩) ⟨hknows, hseen, hbound⟩
    obtain ⟨hknows, hseen, hbound⟩ := hdrained
    obtain rfl := Option.some.inj hs
    refine ⟨hknows, .inr (hseen.resolve_left fun hpc => ?_), fun ip hip => absurd (hbound ip hip) fun hpc => ?_⟩
    · cases hpc
    · cases hpc
  | look n offer ms =>
    have hseen := hseen.resolve_left (by simp)
    obtain rfl := Option.some.inj hs
    exact ⟨lookPc_knows hknows hseen, .inr hseen, fun ip hip => absurd hip (hquiet (by simp) ip)⟩
  | clear n offer ms =>
    obtain rfl := Option.some.inj hs
    exact ⟨hknows, .inr (by simp), fun ip hip => absurd hip (hquiet (by simp) ip)⟩
  | request n offer =>
    have hseen := hseen.resolve_left (by simp)
    rw [dhcpTurn] at hs
    dsimp only at hs
    split_ifs at hs with hok
    · obtain rfl := Option.some.inj hs
      refine ⟨?_, .inr fun d hd => List.mem_append_left _ (hseen d hd), fun ip hip => absurd hip (hsent (by simp) _ ip)⟩
      intro o ho
      obtain rfl := Option.some.inj ho
      obtain ⟨hxid, htype, hmem⟩ := hknows
      exact ⟨hxid, htype, (List.singleton_sublist.mpr hmem).append (List.Sublist.refl [_])⟩
    · obtain rfl := Option.some.inj hs
      exact ⟨trivial, .inr hseen, fun ip hip => absurd hip (hquiet (by simp) ip)⟩
  | bind ack =>
    have hseen := hseen.resolve_left (by simp)
    obtain rfl := Option.some.inj hs
    obtain ⟨⟨offer, hxid, htype, hasked⟩, hxid', htype', hacked⟩ := hknows
    refine ⟨⟨⟨offer, hxid, htype, hasked.append (List.Sublist.refl [_])⟩, ack, hxid', htype', rfl,
      (List.singleton_sublist.mpr hacked).append (List.Sublist.refl [_])⟩,
      .inr fun d hd => List.mem_append_left _ (hseen d hd), fun ip hip => ?_⟩
    obtain hip | hip := List.mem_append.mp hip
    · exact absurd hip (hquiet (by simp) ip)
    · cases List.mem_singleton.mp hip
      rfl
  | returned result => cases hs

/-- Every step keeps what the client knows. -/
theorem Lease.Sound.step {a : LeaseAction} (h : s.Sound xid mac) (hs : leaseStep xid mac s a = some t) : t.Sound xid mac := by
  cases a with
  | deliver page =>
    obtain rfl := Option.some.inj hs
    exact ⟨h.knows, h.seen, h.bound⟩
  | otherDrain =>
    obtain rfl := Option.some.inj hs
    exact h.drain
  | device up =>
    obtain rfl := Option.some.inj hs
    exact ⟨h.knows, h.seen, h.bound⟩
  | turn sent => exact h.turn hs

theorem Lease.starts.sound (h : s.starts) : s.Sound xid mac := by
  obtain ⟨hpc, hevents⟩ := h
  refine ⟨?_, .inl hpc, ?_⟩
  · rw [hpc]
    trivial
  · rw [hevents]
    intro ip hip
    cases hip

/-- What was seen was in a page of `F`, and the address of the device is the one that it had or was bound. -/
structure Lease.From (F : List RxPage) (old : Option (Option Ipv4)) (s : Lease) : Prop where
  rx : ∀ p ∈ s.rx, p ∈ F
  seen : ∀ m, .seen m ∈ s.events → ∃ p ∈ F, dhcpOf p.frame = some m
  netIp : ∀ ip, s.netIp = some (some ip) → old = some (some ip) ∨ .bound ip ∈ s.events

section Pages

variable {F : List RxPage} {old : Option (Option Ipv4)}

theorem Lease.From.drain (h : s.From F old) : s.drainRx.From F old where
  rx p hp := h.rx p (List.mem_of_mem_drop hp)
  seen m hm := by
    obtain hm | hm := List.mem_append.mp hm
    · exact h.seen m hm
    · obtain ⟨m', hmem, heq⟩ := List.mem_map.mp hm
      obtain ⟨p, hp, hdhcp⟩ := List.mem_filterMap.mp hmem
      injection heq with heq
      exact ⟨p, h.rx p (List.mem_of_mem_take hp), heq ▸ hdhcp⟩
  netIp ip hip := (h.netIp ip hip).imp id fun hbound => List.mem_append_left _ hbound

theorem Lease.From.turn {sent : Bool} (h : s.From F old) (hs : dhcpTurn xid mac s sent = some t) : t.From F old := by
  have hquiet : ∀ seen pc, Lease.From F old { s with seen := seen, pc := pc } := fun _ _ => ⟨h.rx, h.seen, h.netIp⟩
  have hsent : ∀ frame pc, Lease.From F old { s with events := s.events ++ [.sent frame], pc := pc } := by
    refine fun frame pc => ⟨h.rx, fun m hm => ?_, fun ip hip => (h.netIp ip hip).imp id fun hb => List.mem_append_left _ hb⟩
    obtain hm | hm := List.mem_append.mp hm
    · exact h.seen m hm
    · cases List.mem_singleton.mp hm
  unfold dhcpTurn at hs
  split at hs
  case h_1 =>
    split_ifs at hs
    · obtain rfl := Option.some.inj hs
      exact hquiet _ _
    · obtain rfl := Option.some.inj hs
      exact hquiet _ _
  case h_2 =>
    split_ifs at hs
    · obtain rfl := Option.some.inj hs
      exact hsent _ _
    · obtain rfl := Option.some.inj hs
      exact hquiet _ _
  case h_3 =>
    obtain rfl := Option.some.inj hs
    exact ⟨h.drain.rx, h.drain.seen, h.drain.netIp⟩
  case h_4 =>
    obtain rfl := Option.some.inj hs
    exact hquiet _ _
  case h_5 =>
    obtain rfl := Option.some.inj hs
    exact hquiet _ _
  case h_6 =>
    split_ifs at hs
    · obtain rfl := Option.some.inj hs
      exact hsent _ _
    · obtain rfl := Option.some.inj hs
      exact hquiet _ _
  case h_7 ack _ =>
    obtain rfl := Option.some.inj hs
    refine ⟨h.rx, fun m hm => ?_, fun ip hip => .inr ?_⟩
    · obtain hm | hm := List.mem_append.mp hm
      · exact h.seen m hm
      · cases List.mem_singleton.mp hm
    · obtain ⟨_, -, hip⟩ := Option.map_eq_some_iff.mp hip
      obtain rfl := Option.some.inj hip
      exact List.mem_append_right _ (List.mem_singleton_self _)
  case h_8 => cases hs

theorem Lease.From.step {a : LeaseAction} (h : s.From F old) (ha : ∀ p, a = .deliver p → p ∈ F)
    (hs : leaseStep xid mac s a = some t) : t.From F old := by
  cases a with
  | deliver page =>
    obtain rfl := Option.some.inj hs
    refine ⟨fun p hp => ?_, h.seen, h.netIp⟩
    obtain hp | hp := List.mem_append.mp hp
    · exact h.rx p hp
    · exact ha p (congrArg _ (List.mem_singleton.mp hp).symm)
  | otherDrain =>
    obtain rfl := Option.some.inj hs
    exact h.drain
  | device up =>
    obtain rfl := Option.some.inj hs
    refine ⟨h.rx, h.seen, fun ip hip => ?_⟩
    cases up <;> simp at hip
  | turn sent => exact h.turn hs

end Pages

def LeaseAction.page? : LeaseAction → Option RxPage
  | .deliver page => some page
  | _ => none

/-- The client returns an address only after an offer of its transaction, a request for that offer, and an acknowledgement
of the address, all of them from pages that were delivered; the device gets no other address. -/
theorem lease_binds {as : List LeaseAction} (hs : s.starts) (h : run (leaseStep xid mac) s as = some t) :
    (∀ ip, t.pc = .returned (.ok ip) → Bound xid mac t.events ip) ∧
    (∀ ip, .bound ip ∈ t.events → t.pc = .returned (.ok ip)) ∧
    (∀ m, .seen m ∈ t.events → ∃ p ∈ s.rx ++ as.filterMap LeaseAction.page?, dhcpOf p.frame = some m) ∧
    ∀ ip, t.netIp = some (some ip) → s.netIp = some (some ip) ∨ .bound ip ∈ t.events := by
  have hsound : t.Sound xid mac := run_invariant (fun s a t hI _ hstep => hI.step hstep) hs.sound
    (along_of_forall (G := fun _ _ => True) (fun _ _ => trivial) s as) h
  have hfrom : t.From (s.rx ++ as.filterMap LeaseAction.page?) s.netIp := by
    refine run_invariant (G := fun _ a => ∀ p, a = .deliver p → p ∈ s.rx ++ as.filterMap LeaseAction.page?)
      (fun s a t hI hG hstep => hI.step hG hstep) ⟨fun p hp => List.mem_append_left _ hp, ?_, fun ip hip => .inl hip⟩
      (along_of_mem (fun a ha p hp => ?_) s) h
    · rw [hs.2]
      intro m hm
      cases hm
    · exact List.mem_append_right _ (List.mem_filterMap.mpr ⟨a, ha, by rw [hp]; rfl⟩)
  refine ⟨fun ip hpc => ?_, hsound.bound, hfrom.seen, hfrom.netIp⟩
  have hknows := hsound.knows
  rw [hpc] at hknows
  exact hknows

/-- A reply to the client's port is found in its frame, with any padding. -/
theorem dhcpOf_reply {r : DhcpReply} {m : DhcpMsg} (hr : r.Formed) (hm : r.message = some m) (dst src : Mac) (srcIp dstIp : Ipv4)
    (pad : List Byte) (hlen : r.encode.length < 65000) :
    dhcpOf (encodeEthernet dst src 0x0800 (encodeIpv4 srcIp dstIp 17 (encodeUdp 67 68 r.encode)) ++ pad) = some m := by
  have heth : encodeEthernet dst src 0x0800 (encodeIpv4 srcIp dstIp 17 (encodeUdp 67 68 r.encode)) ++ pad =
      encodeEthernet dst src 0x0800 (encodeIpv4 srcIp dstIp 17 (encodeUdp 67 68 r.encode) ++ pad) := List.append_assoc _ _ _
  have hudp : (encodeUdp 67 68 r.encode).length = 8 + r.encode.length := by
    simp [encodeUdp, word16be]
    omega
  rw [dhcpOf, heth, decodeEthernet_encodeEthernet]
  dsimp only
  rw [if_pos rfl, decodeIpv4_encodeIpv4 _ _ _ (by omega)]
  dsimp only
  rw [if_pos rfl, decodeUdp_encodeUdp _ _ (by omega)]
  dsimp only
  rw [if_pos ⟨rfl, rfl⟩, decodeDhcp_encode hr hm (by omega)]
  rfl

/-- The acknowledgement of the offer. -/
def sampleAck : DhcpReply := { sampleOffer with options := [.value 54 [10, 0, 2, 2], .value 53 [5]] }

theorem sampleAck_formed : sampleAck.Formed where
  times := List.length_replicate
  names := List.length_replicate
  options := by simp [sampleAck, TlvItem.Formed]
  tail := .inr ⟨[7], rfl⟩

def idleLease : Lease := ⟨[], none, some none, .start 0, []⟩

/-- A page with a frame behind the header, of which `n` octets were reported. -/
def RxPage.holding (frame : List Byte) (n : ℕ) : RxPage :=
  ⟨fun i => if i < Virtio.virtioNetHdrSize then 0 else frame.getD (i - Virtio.virtioNetHdrSize) 0, Virtio.virtioNetHdrSize + n⟩

/-- What is handed on: the octets that were reported and the one behind them. -/
theorem RxPage.frame_holding {frame : List Byte} {n : ℕ} (h : n < 4083) :
    (RxPage.holding frame n).frame = (List.range (n + 1)).map fun i => frame.getD i 0 := by
  have hmin : min (Virtio.virtioNetHdrSize + n) 4095 + 1 = Virtio.virtioNetHdrSize + (n + 1) := by
    rw [Virtio.virtioNetHdrSize]
    omega
  rw [RxPage.frame, RxPage.holding, Virtio.peekPage, hmin, List.range_add, List.map_append, List.drop_left' (by simp),
    List.map_map]
  refine List.map_congr_left fun i _ => ?_
  simp

lemma map_getD_range (frame : List Byte) : ((List.range frame.length).map fun i => frame.getD i 0) = frame := by
  refine List.ext_getElem (by simp) fun i hi hi' => ?_
  simp [List.getElem?_eq_getElem hi']

/-- A frame that is reported whole is handed on with a stale octet. -/
theorem RxPage.frame_whole {frame : List Byte} (h : frame.length < 4083) :
    (RxPage.holding frame frame.length).frame = frame ++ [0] := by
  rw [RxPage.frame_holding h, List.range_succ, List.map_append, map_getD_range]
  simp

/-- A frame is handed on whole although the device reports one octet less. -/
theorem RxPage.frame_cut {frame : List Byte} (hpos : 0 < frame.length) (h : frame.length < 4084) :
    (RxPage.holding frame (frame.length - 1)).frame = frame := by
  rw [RxPage.frame_holding (by omega), Nat.sub_add_cancel hpos, map_getD_range]

/-- The frame around a reply of a server. -/
def replyFrame (r : DhcpReply) : List Byte :=
  encodeEthernet macBroadcast ⟨82, 85, 10, 0, 2, 2⟩ 0x0800 (encodeIpv4 ⟨10, 0, 2, 2⟩ ⟨255, 255, 255, 255⟩ 17 (encodeUdp 67 68 r.encode))

lemma length_replyFrame (r : DhcpReply) : (replyFrame r).length = 42 + r.encode.length := by
  simp [replyFrame, encodeEthernet, encodeIpv4, encodeUdp, word16be, Mac.toList, Ipv4.toList]
  omega

/-- The offer is reported whole and the acknowledgement with one octet less. -/
theorem lease_binds_offer : ∃ as t, run (leaseStep 0x12345678 ⟨82, 84, 0, 18, 52, 86⟩) idleLease as = some t ∧
    t.netIp = some (some ⟨10, 0, 2, 15⟩) ∧ Bound 0x12345678 ⟨82, 84, 0, 18, 52, 86⟩ t.events ⟨10, 0, 2, 15⟩ := by
  have hlen : sampleOffer.encode.length < 4000 ∧ sampleAck.encode.length < 4000 := by
    rw [sampleOffer_formed.length, sampleAck_formed.length]
    decide
  obtain ⟨p, hp⟩ : ∃ p : RxPage,
      dhcpOf p.frame = some ⟨0x12345678, ⟨10, 0, 2, 15⟩, ⟨10, 0, 2, 2⟩, 2, some ⟨10, 0, 2, 2⟩⟩ := by
    refine ⟨.holding (replyFrame sampleOffer) (replyFrame sampleOffer).length, ?_⟩
    rw [RxPage.frame_whole (by rw [length_replyFrame]; omega)]
    exact dhcpOf_reply sampleOffer_formed rfl _ _ _ _ [0] (by omega)
  obtain ⟨p', hp'⟩ : ∃ p : RxPage,
      dhcpOf p.frame = some ⟨0x12345678, ⟨10, 0, 2, 15⟩, ⟨10, 0, 2, 2⟩, 5, some ⟨10, 0, 2, 2⟩⟩ := by
    refine ⟨.holding (replyFrame sampleAck) ((replyFrame sampleAck).length - 1), ?_⟩
    rw [RxPage.frame_cut (by rw [length_replyFrame]; omega) (by rw [length_replyFrame]; omega), ← List.append_nil (replyFrame _)]
    exact dhcpOf_reply sampleAck_formed rfl _ _ _ _ [] (by omega)
  obtain ⟨t, hrun, hip, hpc⟩ : ∃ t, run (leaseStep 0x12345678 ⟨82, 84, 0, 18, 52, 86⟩) idleLease
      [.turn true, .turn true, .deliver p, .turn true, .turn true, .turn true, .deliver p', .turn true, .turn true, .turn true] =
        some t ∧ t.netIp = some (some ⟨10, 0, 2, 15⟩) ∧ t.pc = .returned (.ok ⟨10, 0, 2, 15⟩) := by
    simp [run, leaseStep, dhcpTurn, idleLease, Lease.drainRx, Lease.handle, lookPc, wantType, Virtio.netRxBatchCap, hp, hp']
  exact ⟨_, t, hrun, hip, (lease_binds ⟨rfl, rfl⟩ hrun).1 _ hpc⟩

end Safety

section Progress

variable {xid : Word32} {mac : Mac} {s t : Lease}

/-- The turns of a wait: three for each look at most. -/
def waitTurns (waitedMs : ℤ) : ℕ := 3 * ((waitedMs + 19).toNat / 20 + 1)

/-- The turns behind a wait in the same attempt. -/
def askTurns : Option DhcpMsg → ℕ
  | none => 109
  | some _ => 0

/-- The turns that are left when the client starts attempt `n`. -/
def attemptTurns (n : ℕ) : ℕ := 1 + 219 * (3 - n)

def turnsLeft : LeasePc → ℕ
  | .start n => attemptTurns n
  | .discover n => attemptTurns (n + 1) + 218
  | .drain n offer ms => attemptTurns (n + 1) + askTurns offer + waitTurns ms
  | .look n offer ms => attemptTurns (n + 1) + askTurns offer + waitTurns ms - 1
  | .clear n offer ms => attemptTurns (n + 1) + askTurns offer + waitTurns (ms - 20) + 1
  | .request n _ => attemptTurns (n + 1) + 109
  | .bind _ => 1
  | .returned _ => 0

theorem lookPc_turns (seen : Option DhcpMsg) (n : ℕ) (offer : Option DhcpMsg) (waitedMs : ℤ) :
    turnsLeft (lookPc xid seen n offer waitedMs) < turnsLeft (.look n offer waitedMs) := by
  have hwait : 3 ≤ waitTurns waitedMs := by
    rw [waitTurns]
    omega
  have hnext : 0 < waitedMs → waitTurns (waitedMs - 20) + 3 = waitTurns waitedMs := by
    intro hpos
    rw [waitTurns, waitTurns]
    omega
  have hattempt : 0 < attemptTurns (n + 1) := by
    rw [attemptTurns]
    omega
  have hagain : turnsLeft (if waitedMs ≤ 0 then .start (n + 1) else .drain n offer (waitedMs - 20)) <
      turnsLeft (.look n offer waitedMs) := by
    split_ifs with hlate
    · rw [turnsLeft, turnsLeft]
      omega
    · have hnext := hnext (by omega)
      rw [turnsLeft, turnsLeft]
      omega
  cases seen with
  | none => exact hagain
  | some d =>
    unfold lookPc
    dsimp only
    split_ifs with hfits hother hlate
    · cases offer with
      | none =>
        rw [turnsLeft, turnsLeft, askTurns]
        omega
      | some o =>
        rw [turnsLeft, turnsLeft, askTurns]
        omega
    · have hnext := hnext hother.2
      rw [turnsLeft, turnsLeft]
      omega
    · rw [turnsLeft, turnsLeft]
      omega
    · have hnext := hnext (by omega)
      rw [turnsLeft, turnsLeft]
      omega

/-- Every turn of the client takes one from those that are left. -/
theorem dhcpTurn_turns {sent : Bool} (hs : dhcpTurn xid mac s sent = some t) : turnsLeft t.pc < turnsLeft s.pc := by
  obtain ⟨rx, seen, netIp, pc, events⟩ := s
  have hfull : waitTurns 700 = 108 := rfl
  cases pc with
  | start n =>
    rw [dhcpTurn] at hs
    dsimp only at hs
    split_ifs at hs with hlast
    · obtain rfl := Option.some.inj hs
      simp [turnsLeft, attemptTurns]
    · obtain rfl := Option.some.inj hs
      rw [turnsLeft, turnsLeft, attemptTurns, attemptTurns]
      omega
  | discover n =>
    rw [dhcpTurn] at hs
    dsimp only at hs
    split_ifs at hs
    · obtain rfl := Option.some.inj hs
      rw [turnsLeft, turnsLeft, askTurns, hfull]
      omega
    · obtain rfl := Option.some.inj hs
      rw [turnsLeft, turnsLeft]
      omega
  | drain n offer ms =>
    obtain rfl := Option.some.inj hs
    have hwait : 3 ≤ waitTurns ms := by
      rw [waitTurns]
      omega
    rw [turnsLeft, turnsLeft]
    omega
  | look n offer ms =>
    obtain rfl := Option.some.inj hs
    exact lookPc_turns _ _ _ _
  | clear n offer ms =>
    obtain rfl := Option.some.inj hs
    exact Nat.lt_succ_self _
  | request n offer =>
    rw [dhcpTurn] at hs
    dsimp only at hs
    split_ifs at hs
    · obtain rfl := Option.some.inj hs
      rw [turnsLeft, turnsLeft, askTurns, hfull]
      omega
    · obtain rfl := Option.some.inj hs
      rw [turnsLeft, turnsLeft]
      omega
  | bind ack =>
    obtain rfl := Option.some.inj hs
    exact Nat.zero_lt_one
  | returned result => cases hs

def LeaseAction.isTurn : LeaseAction → Bool
  | .turn _ => true
  | _ => false

theorem leaseStep_turns {a : LeaseAction} (hs : leaseStep xid mac s a = some t) :
    turnsLeft t.pc + (if a.isTurn then 1 else 0) ≤ turnsLeft s.pc := by
  cases a with
  | turn sent => exact dhcpTurn_turns hs
  | _ =>
    obtain rfl := Option.some.inj hs
    exact le_rfl

/-- Whatever the network does, the call takes at most 658 turns, and it has another turn until it has returned. -/
theorem lease_ends {as : List LeaseAction} (hs : s.starts) (h : run (leaseStep xid mac) s as = some t) :
    as.countP LeaseAction.isTurn ≤ 658 ∧
    ((∃ result, t.pc = .returned result) ∨ ∀ sent, (leaseStep xid mac t (.turn sent)).isSome) := by
  have hcount : ∀ as s, run (leaseStep xid mac) s as = some t → turnsLeft t.pc + as.countP LeaseAction.isTurn ≤ turnsLeft s.pc := by
    intro as
    induction as with
    | nil =>
      intro s hrun
      obtain rfl := Option.some.inj hrun
      exact le_rfl
    | cons a as ih =>
      intro s hrun
      obtain ⟨u, hstep, hrun⟩ := run_cons.mp hrun
      have hfirst := leaseStep_turns hstep
      have hrest := ih u hrun
      rw [List.countP_cons]
      omega
  have hstart : turnsLeft s.pc = 658 := by
    rw [hs.1]
    rfl
  refine ⟨by have hall := hcount as s h; omega, ?_⟩
  obtain ⟨rx, seen, netIp, pc, events⟩ := t
  cases pc with
  | returned result => exact .inl ⟨result, rfl⟩
  | start n =>
    refine .inr fun sent => ?_
    simp only [leaseStep, dhcpTurn]
    split_ifs <;> rfl
  | discover n => exact .inr fun sent => by cases sent <;> rfl
  | request n offer => exact .inr fun sent => by cases sent <;> rfl
  | _ => exact .inr fun sent => rfl

/-- A client that cannot send gives up after three attempts. -/
theorem lease_ends_unsent : ∃ t, run (leaseStep 7 macBroadcast) idleLease (List.replicate 7 (.turn false)) = some t ∧
    t.pc = .returned (.error .dhcpFailed) ∧ (List.replicate 7 (LeaseAction.turn false)).countP LeaseAction.isTurn ≤ 658 := by
  obtain ⟨t, hrun, hpc⟩ : ∃ t, run (leaseStep 7 macBroadcast) idleLease (List.replicate 7 (.turn false)) = some t ∧
      t.pc = .returned (.error .dhcpFailed) := ⟨_, rfl, rfl⟩
  exact ⟨t, hrun, hpc, (lease_ends ⟨rfl, rfl⟩ hrun).1⟩

end Progress

end HouseKernel.Net
