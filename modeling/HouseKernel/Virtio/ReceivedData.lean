import HouseKernel.Virtio.ReceiveBuffers

/-! What the handlers read of a receive page. The device reports how many bytes it has written; the range from zero
to that number, which both handlers peek, has one byte more. -/
namespace HouseKernel.Virtio

open HouseKernel.Lib

inductive ConError where
  | badSlot
  | notCon
  | notReady
  | noSpace
  | ioError (code : ℤ)
  | invalidArg (what : String)
  deriving DecidableEq, Repr

def cErrToConError (n : ℤ) : ConError :=
  if n = -1 then .badSlot
  else if n = -2 then .invalidArg "BadVersion"
  else if n = -3 then .invalidArg "NeedsReset"
  else if n = -4 then .invalidArg "FeaturesMismatch"
  else if n = -5 then .noSpace
  else if n = -6 then .invalidArg "QueueFull"
  else if n = -7 then .notReady
  else if n = -8 then .invalidArg "SpuriousInt"
  else if n = -9 then .invalidArg "EINVAL"
  else .ioError n

def virtioNetHdrSize : ℕ := 12

/-- The contents of the pages, byte by byte. -/
abbrev PageBytes := ℕ → ℕ → BitVec 8

/-- The bytes that both handlers peek, from 0 to `min len 4095`. -/
def peekPage (pages : PageBytes) (page len : ℕ) : List (BitVec 8) := (List.range (min len 4095 + 1)).map (pages page)

/-- What the device has written: the first `len` bytes of the page. -/
def receivedBytes (pages : PageBytes) (page len : ℕ) : List (BitVec 8) := ((List.range 4096).map (pages page)).take len

/-- Pop one completion, with the length that the device reports. -/
def RxSlot.poll (s : RxSlot) (d : RxDriver) (slot : ℤ) (regs : Regs) : Except ℤ (Option (ℕ × ℕ)) × RxSlot :=
  match d.pollUsed slot regs s.queue s.mem with
  | (.ok (some c), q) => (.ok (some c), { s with queue := q, used := s.used.tail })
  | (r, q) => (r, { s with queue := q })

/-- What the rounds of a handler meet: the registers, what the device does to the queue before the round, and what
the pages have in them then. Rounds count down. -/
structure RxRounds where
  regs : ℕ → Regs
  device : ℕ → RxSlot → RxSlot
  pages : ℕ → PageBytes

section Net

variable {σ : Type} (handlePacket : List (BitVec 8) → σ → σ) (slot : ℤ)

/-- A completion: its page is read, handed to the frame decoder without the header, and posted again. -/
def handleOne (regs : Regs) (pages : PageBytes) (cid len : ℕ) (w : RxSlot × σ) : RxSlot × σ :=
  match w.1.claim cid with
  | (none, s) => (s, w.2)
  | (some g, s) => (s.post .net slot regs g, handlePacket ((peekPage pages g len).drop virtioNetHdrSize) w.2)

/-- `go` of `drainRx`; `σ` is what the frame decoder writes its findings to. -/
def drainRx (env : RxRounds) : ℕ → RxSlot × σ → RxSlot × σ
  | 0, w => match (env.device 0 w.1).poll .net slot (env.regs 0) with
    | (.ok (some _), s) => ({ s with drops := s.drops+1 }, w.2)
    | (_, s) => (s, w.2)
  | n+1, w => match (env.device (n+1) w.1).poll .net slot (env.regs (n+1)) with
    | (.ok (some (cid, len)), s) =>
      drainRx env n (handleOne handlePacket slot (env.regs (n+1)) (env.pages (n+1)) cid len (s, w.2))
    | (_, s) => (s, w.2)

/-- A page that a handler reads: in which round, which page, and the length that the device reports. -/
structure PageRead where
  round : ℕ
  page : ℕ
  len : ℕ
  deriving DecidableEq, Repr

/-- The pages that `drainRx` reads. -/
def drainReads (env : RxRounds) : ℕ → RxSlot → List PageRead
  | 0, _ => []
  | n+1, s => match (env.device (n+1) s).poll .net slot (env.regs (n+1)) with
    | (.ok (some (cid, len)), s) => match s.claim cid with
      | (none, s) => drainReads env n s
      | (some g, s) => ⟨n+1, g, len⟩ :: drainReads env n (s.post .net slot (env.regs (n+1)) g)
    | _ => []

/-- The frames that `drainRx` hands to the decoder, in order. -/
def drainFrames (env : RxRounds) (s : RxSlot) : List (List (BitVec 8)) :=
  (drainRx (fun frame frames => frames ++ [frame]) slot env netRxBatchCap (s, [])).2

end Net

section Con

variable (slot : ℤ)

/-- `conReadBytes`, for a slot that has a device or not. -/
def conReadBytes (present : Bool) (regs : Regs) (pages : PageBytes) (s : RxSlot) : Except ConError (List (BitVec 8)) × RxSlot :=
  if !slotValid slot then (.error .badSlot, s)
  else if !present then (.error (.invalidArg "not initialized"), s)
  else match s.poll .con slot regs with
  | (.error e, s) => (.error (cErrToConError e), s)
  | (.ok none, s) => (.ok [], s)
  | (.ok (some (cid, len)), s) => match s.claim cid with
    | (none, s) => (.ok [], s)
    | (some g, s) => (.ok (peekPage pages g len), s.post .con slot regs g)

/-- The page that it reads, if it finds one, and the length that the device reports. -/
def conReads (present : Bool) (regs : Regs) (s : RxSlot) : Option (ℕ × ℕ) :=
  if !slotValid slot || !present then none
  else match s.poll .con slot regs with
  | (.ok (some (cid, len)), s) => (s.claim cid).1.map fun g => (g, len)
  | _ => none

end Con

/-- The decoder is handed what the device has written, behind the header, and a run does not depend on what else is in
the pages. -/
structure DrainsReceived (slot : ℤ) (env : RxRounds) (s : RxSlot) : Prop where
  frames : drainFrames slot env s = (drainReads slot env netRxBatchCap s).map fun r =>
    (receivedBytes (env.pages r.round) r.page r.len).drop virtioNetHdrSize
  stale : ∀ pages : ℕ → PageBytes,
    (∀ r ∈ drainReads slot env netRxBatchCap s, ∀ i < r.len, i < 4096 → pages r.round r.page i = env.pages r.round r.page i) →
    ∀ (σ : Type) (handlePacket : List (BitVec 8) → σ → σ) (seen : σ),
      drainRx handlePacket slot { env with pages := pages } netRxBatchCap (s, seen) =
        drainRx handlePacket slot env netRxBatchCap (s, seen)

/-- A reader gets what the device has written, whatever else is in the page. -/
structure ReadsReceived (slot : ℤ) (present : Bool) (regs : Regs) (pages : PageBytes) (s : RxSlot) : Prop where
  bytes : ∀ page len, conReads slot present regs s = some (page, len) →
    (conReadBytes slot present regs pages s).1 = .ok (receivedBytes pages page len)
  stale : ∀ pages' : PageBytes, (∀ page len, conReads slot present regs s = some (page, len) →
      ∀ i < len, i < 4096 → pages' page i = pages page i) →
    conReadBytes slot present regs pages' s = conReadBytes slot present regs pages s

section Peek

variable {pages pages' : PageBytes} {page len : ℕ}

lemma peekPage_eq (pages : PageBytes) (page len : ℕ) :
    peekPage pages page len = ((List.range 4096).map (pages page)).take (min len 4095 + 1) := by
  have hmin : min (min len 4095 + 1) 4096 = min len 4095 + 1 := by omega
  rw [peekPage, ← List.map_take, List.take_range, hmin]

/-- A whole page is read as it was written. -/
lemma peekPage_full (h : 4096 ≤ len) : peekPage pages page len = receivedBytes pages page len := by
  rw [peekPage_eq, receivedBytes, List.take_of_length_le (by simp; omega), List.take_of_length_le (by simpa using h)]

lemma peekPage_congr (h : ∀ i < len, i < 4096 → pages' page i = pages page i) (hlen : 4096 ≤ len) :
    peekPage pages' page len = peekPage pages page len := by
  refine List.map_congr_left fun i hi => ?_
  rw [List.mem_range] at hi
  exact h i (by omega) (by omega)

lemma length_peekPage : (peekPage pages page len).length = min len 4095 + 1 := by simp [peekPage]

lemma length_receivedBytes : (receivedBytes pages page len).length = min len 4096 := by simp [receivedBytes]

/-- Of a short completion nothing is left behind the header. -/
lemma peekPage_header (h : len < 12) : (peekPage pages page len).drop virtioNetHdrSize = [] := by
  rw [List.drop_eq_nil_iff, length_peekPage, virtioNetHdrSize]
  omega

/-- The bytes behind the header are those that were written if there are none, or if the page is full. -/
lemma frame_eq_iff : (peekPage pages page len).drop virtioNetHdrSize = (receivedBytes pages page len).drop virtioNetHdrSize ↔
    len < 12 ∨ 4096 ≤ len := by
  constructor
  · intro h
    have hlen := congrArg List.length h
    rw [List.length_drop, List.length_drop, length_peekPage, length_receivedBytes, virtioNetHdrSize] at hlen
    omega
  · rintro (h | h)
    · have hnil : (receivedBytes pages page len).drop virtioNetHdrSize = [] := by
        rw [List.drop_eq_nil_iff, length_receivedBytes, virtioNetHdrSize]
        omega
      rw [peekPage_header h, hnil]
    · rw [peekPage_full h]

end Peek

section Drain

variable {slot : ℤ} {env : RxRounds} {s : RxSlot} {σ : Type} {handlePacket : List (BitVec 8) → σ → σ} {n : ℕ}

/-- The decoder is handed what was peeked, page by page. -/
lemma drainRx_frames (frames : List (List (BitVec 8))) :
    (drainRx (fun frame frames => frames ++ [frame]) slot env n (s, frames)).2 =
      frames ++ (drainReads slot env n s).map fun r => (peekPage (env.pages r.round) r.page r.len).drop virtioNetHdrSize := by
  induction n generalizing s frames with
  | zero =>
    unfold drainRx drainReads
    split
    · simp
    · simp
  | succ n ih =>
    unfold drainRx drainReads
    cases (env.device (n+1) s).poll .net slot (env.regs (n+1)) with
    | mk r s₁ =>
      rcases r with e | _ | ⟨cid, len⟩
      · simp
      · simp
      · dsimp only [handleOne]
        cases s₁.claim cid with
        | mk g s₂ =>
          cases g with
          | none => exact ih frames
          | some g =>
            dsimp only
            rw [ih, List.map_cons, List.append_assoc]
            rfl

/-- A run depends on the pages only through what is handed to the decoder. -/
lemma drainRx_congr {pages : ℕ → PageBytes} {seen : σ} (h : ∀ r ∈ drainReads slot env n s,
      (peekPage (pages r.round) r.page r.len).drop virtioNetHdrSize =
          (peekPage (env.pages r.round) r.page r.len).drop virtioNetHdrSize) :
    drainRx handlePacket slot { env with pages := pages } n (s, seen) = drainRx handlePacket slot env n (s, seen) := by
  induction n generalizing s seen with
  | zero => rfl
  | succ n ih =>
    unfold drainRx
    unfold drainReads at h
    dsimp only at h ⊢
    cases hpoll : (env.device (n+1) s).poll .net slot (env.regs (n+1)) with
    | mk r s₁ =>
      rw [hpoll] at h
      rcases r with e | _ | ⟨cid, len⟩
      · rfl
      · rfl
      · dsimp only [handleOne] at h ⊢
        cases hclaim : s₁.claim cid with
        | mk g s₂ =>
          rw [hclaim] at h
          cases g with
          | none => exact ih h
          | some g =>
            dsimp only at h ⊢
            rw [h _ List.mem_cons_self]
            exact ih fun r hr => h r (List.mem_cons_of_mem _ hr)

lemma drainsReceived_iff : DrainsReceived slot env s ↔
    ∀ r ∈ drainReads slot env netRxBatchCap s, r.len < 12 ∨ 4096 ≤ r.len := by
  have hframes : drainFrames slot env s = (drainReads slot env netRxBatchCap s).map fun r =>
      (peekPage (env.pages r.round) r.page r.len).drop virtioNetHdrSize := drainRx_frames []
  constructor
  · intro h r hr
    have heq := hframes.symm.trans h.frames
    exact frame_eq_iff.mp (List.map_inj_left.mp heq r hr)
  · intro h
    refine ⟨hframes.trans (List.map_congr_left fun r hr => frame_eq_iff.mpr (h r hr)), fun pages hpages σ handlePacket seen => ?_⟩
    refine drainRx_congr fun r hr => ?_
    obtain hshort | hfull := h r hr
    · rw [peekPage_header hshort, peekPage_header hshort]
    · rw [peekPage_congr (hpages r hr) hfull]

end Drain

section Read

variable {slot : ℤ} {present : Bool} {regs : Regs} {pages pages' : PageBytes} {s : RxSlot}

/-- A call that finds no page does not look at any; one that does returns what it peeked. -/
lemma conReadBytes_cases (slot : ℤ) (present : Bool) (regs : Regs) (s : RxSlot) :
    (conReads slot present regs s = none ∧ ∃ r, ∀ pages, conReadBytes slot present regs pages s = r) ∨
    ∃ page len s', conReads slot present regs s = some (page, len) ∧
      ∀ pages, conReadBytes slot present regs pages s = (.ok (peekPage pages page len), s') := by
  unfold conReads conReadBytes
  cases slotValid slot with
  | false => exact .inl ⟨rfl, _, fun _ => rfl⟩
  | true =>
    cases present with
    | false => exact .inl ⟨rfl, _, fun _ => rfl⟩
    | true =>
      cases s.poll .con slot regs with
      | mk r s₁ =>
        rcases r with e | _ | ⟨cid, len⟩
        · exact .inl ⟨rfl, _, fun _ => rfl⟩
        · exact .inl ⟨rfl, _, fun _ => rfl⟩
        · dsimp only
          cases s₁.claim cid with
          | mk g s₂ =>
            cases g with
            | none => exact .inl ⟨rfl, _, fun _ => rfl⟩
            | some g => exact .inr ⟨g, len, _, rfl, fun _ => rfl⟩

lemma readsReceived_iff : ReadsReceived slot present regs pages s ↔
    ∀ page len, conReads slot present regs s = some (page, len) → 4096 ≤ len := by
  obtain ⟨hnone, r, hr⟩ | ⟨page, len, s', hsome, hs'⟩ := conReadBytes_cases slot present regs s
  · refine iff_of_true ⟨fun page len h => ?_, fun pages' _ => (hr pages').trans (hr pages).symm⟩ fun page len h => ?_
    · exact absurd (hnone.symm.trans h) (Option.some_ne_none _).symm
    · exact absurd (hnone.symm.trans h) (Option.some_ne_none _).symm
  · have hpage : ∀ {p l}, conReads slot present regs s = some (p, l) → p = page ∧ l = len := by
      intro p l h
      exact Prod.mk.inj (Option.some.inj (h.symm.trans hsome))
    constructor
    · rintro h p l hpl
      obtain ⟨rfl, rfl⟩ := hpage hpl
      have hbytes := h.bytes p l hpl
      rw [hs' pages] at hbytes
      have hlen := congrArg List.length (Except.ok.inj hbytes)
      rw [length_peekPage, length_receivedBytes] at hlen
      omega
    · intro h
      refine ⟨fun p l hpl => ?_, fun pages' hpages => ?_⟩
      · obtain ⟨rfl, rfl⟩ := hpage hpl
        rw [hs' pages, peekPage_full (h p l hpl)]
      · rw [hs' pages', hs' pages, peekPage_congr (hpages page len hsome) (h page len hsome)]

end Read

/-- The network handler decodes, and the console handler returns, exactly what the device has written when every
completion is of a whole page, or on the network too short to have a frame. -/
theorem received_only_iff (slot : ℤ) (env : RxRounds) (present : Bool) (regs : Regs) (pages : PageBytes) (s : RxSlot) :
    (DrainsReceived slot env s ↔ ∀ r ∈ drainReads slot env netRxBatchCap s, r.len < 12 ∨ 4096 ≤ r.len) ∧
      (ReadsReceived slot present regs pages s ↔ ∀ page len, conReads slot present regs s = some (page, len) → 4096 ≤ len) :=
  ⟨drainsReceived_iff, readsReceived_iff⟩

section Sample

/-- A console with one page, which the device has completed with one byte. -/
def oneByteSlot : RxSlot :=
  (run (rxStep .con 5) (RxSlot.init 0x1000 0x2000 0x3000 4) [.supply readyCon 0x4000, .complete 0 1]).getD
    (RxSlot.init 0x1000 0x2000 0x3000 4)

/-- The reader gets two bytes, of which the second was in the page before. -/
theorem one_byte_read_as_two :
    (conReadBytes 5 true readyCon (fun _ i => if i = 0 then 0x61 else 0x7A) oneByteSlot).1.toOption = some [0x61, 0x7A] ∧
    ¬ ∀ (slot : ℤ) (present : Bool) (regs : Regs) (pages : PageBytes) (s : RxSlot), ReadsReceived slot present regs pages s := by
  refine ⟨by rfl, fun hall => ?_⟩
  have hread : conReads 5 true readyCon oneByteSlot = some (0x4000, 1) := by rfl
  have hbytes := (hall 5 true readyCon (fun _ _ => 0) oneByteSlot).bytes 0x4000 1 hread
  have htwo : (conReadBytes 5 true readyCon (fun _ _ => 0) oneByteSlot).1.toOption = some [0, 0] := by rfl
  rw [hbytes] at htwo
  have hlen := congrArg List.length (Option.some.inj htwo)
  rw [length_receivedBytes] at hlen
  exact absurd hlen (by decide)

end Sample

end HouseKernel.Virtio
