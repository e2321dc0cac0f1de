import Mathlib.Tactic

/-! The virtio block and net drivers: descriptor chains, the available ring, the used ring
and the free-running 16-bit counters of each queue. Machine integers are naturals with
explicit reductions; a driver call returns its result code and the state it leaves. Cache
maintenance and barriers have no effect on the values and are left out. -/
namespace HouseKernel.Virtio

def magicH : ℕ := 0x74726976
def numSlotsH : ℤ := 32
def statusFailed : ℕ := 0x80
def statusFeaturesOk : ℕ := 0x08
def statusDriverOk : ℕ := 0x04
def deviceIdNet : ℕ := 1
def deviceIdBlk : ℕ := 2
def sectorsPerBlock : ℕ := 8
def blockBytes : ℕ := 4096
def hdrSize : ℕ := 12
def blkTIn : ℕ := 0
def blkTOut : ℕ := 1
def descFNext : ℕ := 1
def descFWrite : ℕ := 2

def errBadSlot : ℤ := -1
def errBadVersion : ℤ := -2
def errNeedsReset : ℤ := -3
def errNoSpc : ℤ := -5
def errNotReady : ℤ := -7
def errInval : ℤ := -9

/-- The registers of one virtio-mmio transport that the drivers read. -/
structure Regs where
  magic : ℕ
  version : ℕ
  deviceId : ℕ
  status : ℕ
  queueDesc : ℕ
  queueAvail : ℕ
  queueUsed : ℕ
  capacity : ℕ
  deriving DecidableEq, Repr

structure VirtqDesc where
  addr : ℕ
  len : ℕ
  flags : ℕ
  next : ℕ
  deriving DecidableEq, Repr

/-- The three guest pages of one queue. The device writes `usedIdx` and `usedRing`
(an id and a length per entry), the driver everything else. -/
structure QueueMem where
  desc : ℕ → VirtqDesc
  availIdx : ℕ
  availRing : ℕ → ℕ
  usedIdx : ℕ
  usedRing : ℕ → ℕ × ℕ

/-- The driver's own record of one queue. -/
structure QueueState where
  availIdx : ℕ
  usedIdx : ℕ
  descPa : ℕ
  availPa : ℕ
  usedPa : ℕ
  qsize : ℕ
  deriving DecidableEq, Repr

structure BlkSlotState where
  queue : QueueState
  reqBuf : List ℕ
  statusByte : ℕ
  deriving DecidableEq, Repr

/-- Queue 0 receives, queue 1 transmits. -/
structure NetSlotState where
  rx : QueueState
  tx : QueueState
  deriving DecidableEq, Repr

def slotValid (slot : ℤ) : Bool := decide (0 ≤ slot) && decide (slot < numSlotsH)

/-- The 16-bit `wrapping_add(1)` of the ring counters. -/
def wrappingAdd (i : ℕ) : ℕ := (i+1) % 65536

/-- The head descriptor of the request with counter value `idx`, `idx % qsize as u16`. -/
def headOf (idx qsize : ℕ) : ℕ := idx % (qsize % 65536)

/-- The configured queue size, or the default when none was recorded. -/
def queueSizeOr64 (qsize : ℕ) : ℕ := if qsize = 0 then 64 else qsize

/-- Transport checks shared by every submission path. -/
def transportCheck (regs : Regs) (device : ℕ) : Except ℤ Unit :=
  if regs.magic ≠ magicH then .error errBadVersion
  else if regs.version ≠ 1 ∧ regs.version ≠ 2 then .error errBadVersion
  else if regs.deviceId ≠ device then .error errInval
  else if regs.status &&& statusFailed ≠ 0 then .error errNeedsReset
  else if regs.status &&& (statusFeaturesOk ||| statusDriverOk) ≠ (statusFeaturesOk ||| statusDriverOk) then
    .error errNotReady
  else .ok ()

/-- Publish one head: ring entry first, then the ring's own index. -/
def QueueMem.publish (mem : QueueMem) (idx qsize : ℕ) : QueueMem :=
  { mem with
    availRing := Function.update mem.availRing (headOf idx qsize) (headOf idx qsize % 65536)
    availIdx := wrappingAdd idx }

def QueueMem.setDesc (mem : QueueMem) (i : ℕ) (d : VirtqDesc) : QueueMem :=
  { mem with desc := Function.update mem.desc i d }

/-- The little-endian bytes of a 32- or 64-bit field of the request header. -/
def leBytes (width v : ℕ) : List ℕ := (List.range width).map fun i => v >>> (8*i) &&& 0xff

/-- The queue a block submission uses: the saved one, or the one the registers name. -/
def blkQueue (regs : Regs) (q : QueueState) : Except ℤ QueueState × QueueState :=
  let qsize := queueSizeOr64 q.qsize
  if qsize < 3 then (.error errNoSpc, q)
  else if q.descPa = 0 ∨ q.availPa = 0 ∨ q.usedPa = 0 then
    if regs.queueDesc = 0 ∨ regs.queueAvail = 0 ∨ regs.queueUsed = 0 then (.error errNotReady, q)
    else
      let q' := { q with descPa := regs.queueDesc, availPa := regs.queueAvail,
                         usedPa := regs.queueUsed, qsize := qsize }
      (.ok q', q')
  else (.ok { q with qsize := qsize }, { q with qsize := qsize })

/-- The first sector of the request, with the overflow and capacity checks. -/
def blkSector (regs : Regs) (lbaBlocks nblocks : ℕ) : Except ℤ ℕ :=
  if 2^64 ≤ lbaBlocks*sectorsPerBlock then .error errInval
  else if 2^64 ≤ lbaBlocks*sectorsPerBlock + nblocks*sectorsPerBlock then .error errInval
  else if regs.capacity < lbaBlocks*sectorsPerBlock + nblocks*sectorsPerBlock then .error errInval
  else .ok (lbaBlocks*sectorsPerBlock)

/-- Addresses of the request header and of the status byte inside the slot record. -/
structure BlkBuffers where
  reqPa : ℕ
  statusPa : ℕ
  deriving DecidableEq, Repr

def blkChain (bufs : BlkBuffers) (mem : QueueMem) (head qsize dataPa dataLen typ : ℕ) : QueueMem :=
  let next1 := (head+1) % qsize
  let next2 := (head+2) % qsize
  let dataFlags := if typ = blkTIn then descFNext ||| descFWrite else descFNext
  ((mem.setDesc head ⟨bufs.reqPa, 16, descFNext, next1 % 65536⟩).setDesc next1
    ⟨dataPa, dataLen, dataFlags, next2 % 65536⟩).setDesc next2 ⟨bufs.statusPa, 1, descFWrite, 0⟩

/-- One three-descriptor block request; the id handed back is the counter value. -/
def blkSubmit (slot : ℤ) (regs : Regs) (bufs : BlkBuffers) (ss : BlkSlotState) (mem : QueueMem)
    (lbaBlocks dataPa nblocks typ : ℕ) : Except ℤ ℕ × BlkSlotState × QueueMem :=
  if !slotValid slot then (.error errBadSlot, ss, mem)
  else if nblocks ≠ 1 then (.error errInval, ss, mem)
  else if dataPa % 4096 ≠ 0 then (.error errInval, ss, mem)
  else match transportCheck regs deviceIdBlk with
  | .error e => (.error e, ss, mem)
  | .ok () => match blkQueue regs ss.queue with
    | (.error e, q) => (.error e, { ss with queue := q }, mem)
    | (.ok q, _) => match blkSector regs lbaBlocks nblocks with
      | .error e => (.error e, { ss with queue := q }, mem)
      | .ok sector =>
        let idx := q.availIdx
        let ss' : BlkSlotState := ⟨q, leBytes 4 typ ++ leBytes 4 0 ++ leBytes 8 sector, 0xff⟩
        let dataLen := nblocks*blockBytes
        if 2^64 ≤ dataPa + dataLen then (.error errInval, ss', mem)
        else
          (.ok idx, { ss' with queue := { q with availIdx := wrappingAdd idx } },
            (blkChain bufs mem (headOf idx q.qsize) q.qsize dataPa dataLen typ).publish idx q.qsize)

/-- The queue a block poll reads: pages that were never recorded come from the registers. -/
def blkPollQueue (regs : Regs) (q : QueueState) : Except ℤ QueueState :=
  if q.availPa = 0 ∨ q.usedPa = 0 then
    if regs.queueAvail = 0 ∨ regs.queueUsed = 0 then .error errNotReady
    else .ok { q with availPa := regs.queueAvail, usedPa := regs.queueUsed }
  else .ok q

/-- Drain one block completion. The ring index is always reduced modulo 64 here. -/
def virtioBlkPollUsed (slot : ℤ) (regs : Regs) (ss : BlkSlotState) (mem : QueueMem) :
    Except ℤ (Option (ℕ × ℕ)) × BlkSlotState :=
  if !slotValid slot then (.error errBadSlot, ss)
  else if regs.magic ≠ magicH then (.error errBadVersion, ss)
  else match blkPollQueue regs ss.queue with
  | .error e => (.error e, ss)
  | .ok q =>
    if mem.usedIdx = q.usedIdx then (.ok none, { ss with queue := q })
    else (.ok (some ((mem.usedRing (headOf q.usedIdx 64)).1, ss.statusByte)),
      { ss with queue := { q with usedIdx := wrappingAdd q.usedIdx } })

/-- Lend one guest page to the device for a received frame. -/
def virtioNetSubmitRx (slot : ℤ) (regs : Regs) (ss : NetSlotState) (mem : QueueMem)
    (dataPa len : ℕ) : Except ℤ ℕ × NetSlotState × QueueMem :=
  if !slotValid slot then (.error errBadSlot, ss, mem)
  else if dataPa % 4096 ≠ 0 then (.error errInval, ss, mem)
  else if len = 0 ∨ 4096 < len then (.error errInval, ss, mem)
  else if 2^64 ≤ dataPa + len then (.error errInval, ss, mem)
  else match transportCheck regs deviceIdNet with
  | .error e => (.error e, ss, mem)
  | .ok () =>
    if ss.rx.descPa = 0 ∨ ss.rx.availPa = 0 then (.error errNotReady, ss, mem)
    else
      let qsize := queueSizeOr64 ss.rx.qsize
      let idx := ss.rx.availIdx
      (.ok idx, { ss with rx := { ss.rx with availIdx := wrappingAdd idx } },
        (mem.setDesc (headOf idx qsize) ⟨dataPa, len, descFWrite, 0⟩).publish idx qsize)

/-- Send one frame as a header descriptor chained to a payload descriptor. -/
def virtioNetSubmitTx (slot : ℤ) (regs : Regs) (ss : NetSlotState) (mem : QueueMem)
    (hdrPa dataPa dataLen : ℕ) : Except ℤ ℕ × NetSlotState × QueueMem :=
  if !slotValid slot then (.error errBadSlot, ss, mem)
  else if dataPa = 0 then (.error errInval, ss, mem)
  else if dataLen = 0 ∨ 4096 - hdrSize < dataLen then (.error errInval, ss, mem)
  else if 2^64 ≤ hdrPa + hdrSize then (.error errInval, ss, mem)
  else if 2^64 ≤ dataPa + dataLen then (.error errInval, ss, mem)
  else match transportCheck regs deviceIdNet with
  | .error e => (.error e, ss, mem)
  | .ok () =>
    if ss.tx.descPa = 0 ∨ ss.tx.availPa = 0 then (.error errNotReady, ss, mem)
    else
      let qsize := queueSizeOr64 ss.tx.qsize
      if qsize < 2 then (.error errNoSpc, ss, mem)
      else
        let idx := ss.tx.availIdx
        let head := headOf idx qsize
        let next1 := (head+1) % qsize
        (.ok idx, { ss with tx := { ss.tx with availIdx := wrappingAdd idx } },
          ((mem.setDesc head ⟨hdrPa, hdrSize, descFNext, next1 % 65536⟩).setDesc next1
            ⟨dataPa, dataLen, 0, 0⟩).publish idx qsize)

/-- Drain one completion of a net queue; the ring index uses the recorded queue size. -/
def netPollQueue (q : QueueState) (mem : QueueMem) : Except ℤ (Option (ℕ × ℕ)) × QueueState :=
  if q.usedPa = 0 then (.error errNotReady, q)
  else if mem.usedIdx = q.usedIdx then (.ok none, q)
  else (.ok (some (mem.usedRing (headOf q.usedIdx (queueSizeOr64 q.qsize)))),
    { q with usedIdx := wrappingAdd q.usedIdx })

def virtioNetPollUsed (slot : ℤ) (regs : Regs) (qidx : ℤ) (ss : NetSlotState) (mem : QueueMem) :
    Except ℤ (Option (ℕ × ℕ)) × NetSlotState :=
  if !slotValid slot then (.error errBadSlot, ss)
  else if qidx < 0 ∨ 1 < qidx then (.error errInval, ss)
  else if regs.magic ≠ magicH then (.error errBadVersion, ss)
  else if qidx = 0 then
    let r := netPollQueue ss.rx mem
    (r.1, { ss with rx := r.2 })
  else
    let r := netPollQueue ss.tx mem
    (r.1, { ss with tx := r.2 })

/-- Record the pages and the size of the request queue; the counters are left alone. -/
def virtioBlkSaveQueue (slot : ℤ) (ss : BlkSlotState) (descPa availPa usedPa qsize : ℕ) :
    BlkSlotState :=
  if !slotValid slot then ss
  else { ss with queue := { ss.queue with descPa := descPa, availPa := availPa, usedPa := usedPa,
                                          qsize := qsize } }

/-- Record both net queues; here the counters restart. -/
def virtioNetSaveQueues (slot : ℤ) (ss : NetSlotState) (rx tx : QueueState) :
    ℤ × NetSlotState :=
  if !slotValid slot then (errBadSlot, ss)
  else (0, ⟨{ rx with availIdx := 0, usedIdx := 0 }, { tx with availIdx := 0, usedIdx := 0 }⟩)

/-- What a call that returned an id did to its queue, whatever the driver. -/
structure Submitted (q : QueueState) (mem : QueueMem) (id : ℕ) (q' : QueueState) (mem' : QueueMem) :
    Prop where
  id_eq : id = q.availIdx
  avail : q'.availIdx = wrappingAdd q.availIdx
  used : q'.usedIdx = q.usedIdx
  size : queueSizeOr64 q'.qsize = queueSizeOr64 q.qsize
  entry : mem'.availRing (headOf q.availIdx (queueSizeOr64 q.qsize)) =
    headOf q.availIdx (queueSizeOr64 q.qsize) % 65536
  usedIdx : mem'.usedIdx = mem.usedIdx
  usedRing : mem'.usedRing = mem.usedRing

/-- What every other call leaves of the queue record: the counters and the effective size. -/
structure Steady (q q' : QueueState) : Prop where
  avail : q'.availIdx = q.availIdx
  used : q'.usedIdx = q.usedIdx
  size : queueSizeOr64 q'.qsize = queueSizeOr64 q.qsize

/-- What a poll that returned an entry did: it read slot `headOf used n` of the used ring. -/
structure Polled (n : ℕ) (q : QueueState) (mem : QueueMem) (id : ℕ) (q' : QueueState) : Prop where
  fresh : mem.usedIdx ≠ q.usedIdx
  id_eq : id = (mem.usedRing (headOf q.usedIdx n)).1
  used : q'.usedIdx = wrappingAdd q.usedIdx
  avail : q'.availIdx = q.availIdx
  size : queueSizeOr64 q'.qsize = queueSizeOr64 q.qsize

theorem Steady.refl (q : QueueState) : Steady q q := ⟨rfl, rfl, rfl⟩

@[simp] theorem queueSizeOr64_idem (n : ℕ) : queueSizeOr64 (queueSizeOr64 n) = queueSizeOr64 n := by
  unfold queueSizeOr64
  split_ifs <;> simp_all

@[simp] theorem publish_entry (mem : QueueMem) (idx qsize : ℕ) :
    (mem.publish idx qsize).availRing (headOf idx qsize) = headOf idx qsize % 65536 := by
  simp [QueueMem.publish]

@[simp] theorem publish_usedIdx (mem : QueueMem) (idx qsize : ℕ) :
    (mem.publish idx qsize).usedIdx = mem.usedIdx := rfl

@[simp] theorem publish_usedRing (mem : QueueMem) (idx qsize : ℕ) :
    (mem.publish idx qsize).usedRing = mem.usedRing := rfl

@[simp] theorem setDesc_usedIdx (mem : QueueMem) (i : ℕ) (d : VirtqDesc) :
    (mem.setDesc i d).usedIdx = mem.usedIdx := rfl

@[simp] theorem setDesc_usedRing (mem : QueueMem) (i : ℕ) (d : VirtqDesc) :
    (mem.setDesc i d).usedRing = mem.usedRing := rfl

/-- The queue a block submission settles on keeps the counters. -/
lemma blkQueue_ok {regs : Regs} {q q' q'' : QueueState} (h : blkQueue regs q = (.ok q', q'')) :
    Steady q q' ∧ q'.qsize = queueSizeOr64 q.qsize := by
  simp only [blkQueue] at h
  split_ifs at h
  · simp at h
  · simp at h
  all_goals
    simp only [Prod.mk.injEq, Except.ok.injEq] at h
    rw [← h.1]
    exact ⟨⟨rfl, rfl, by simp⟩, rfl⟩

lemma blkQueue_error {regs : Regs} {q q' : QueueState} {e : ℤ} (h : blkQueue regs q = (.error e, q')) :
    q' = q := by
  simp only [blkQueue] at h
  split_ifs at h <;> simp_all

theorem blkSubmit_ok {slot : ℤ} {regs : Regs} {bufs : BlkBuffers} {ss ss' : BlkSlotState}
    {mem mem' : QueueMem} {lba pa n typ id : ℕ}
    (h : blkSubmit slot regs bufs ss mem lba pa n typ = (.ok id, ss', mem')) :
    Submitted ss.queue mem id ss'.queue mem' := by
  unfold blkSubmit at h
  split_ifs at h
  · simp at h
  · simp at h
  · simp at h
  · cases ht : transportCheck regs deviceIdBlk with
    | error e => simp [ht] at h
    | ok u =>
      rcases hq : blkQueue regs ss.queue with ⟨_ | q, q'⟩
      · simp [ht, hq] at h
      cases hs : blkSector regs lba n with
      | error e => simp [ht, hq, hs] at h
      | ok sector =>
        simp only [ht, hq, hs] at h
        split_ifs at h
        · simp at h
        simp only [Prod.mk.injEq, Except.ok.injEq] at h
        obtain ⟨rfl, rfl, rfl⟩ := h
        obtain ⟨hst, hz⟩ := blkQueue_ok hq
        exact { id_eq := hst.avail, avail := by simp [hst.avail], used := hst.used, size := hst.size,
                entry := by rw [← hst.avail, ← hz]; simp, usedIdx := by simp [blkChain],
                usedRing := by simp [blkChain] }

/-- A refused block request may record the queue pages but moves no counter. -/
theorem blkSubmit_error {slot : ℤ} {regs : Regs} {bufs : BlkBuffers} {ss ss' : BlkSlotState}
    {mem mem' : QueueMem} {lba pa n typ : ℕ} {e : ℤ}
    (h : blkSubmit slot regs bufs ss mem lba pa n typ = (.error e, ss', mem')) :
    Steady ss.queue ss'.queue ∧ mem' = mem := by
  unfold blkSubmit at h
  split_ifs at h
  all_goals try
    simp only [Prod.mk.injEq] at h
    obtain ⟨-, rfl, rfl⟩ := h
    exact ⟨Steady.refl _, rfl⟩
  cases ht : transportCheck regs deviceIdBlk with
  | error e =>
    simp only [ht, Prod.mk.injEq] at h
    obtain ⟨-, rfl, rfl⟩ := h
    exact ⟨Steady.refl _, rfl⟩
  | ok u =>
    rcases hq : blkQueue regs ss.queue with ⟨e' | q, q'⟩
    · simp only [ht, hq, Prod.mk.injEq] at h
      obtain ⟨-, rfl, rfl⟩ := h
      rw [blkQueue_error hq]
      exact ⟨Steady.refl _, rfl⟩
    obtain ⟨hst, -⟩ := blkQueue_ok hq
    cases hs : blkSector regs lba n with
    | error e =>
      simp only [ht, hq, hs, Prod.mk.injEq] at h
      obtain ⟨-, rfl, rfl⟩ := h
      exact ⟨hst, rfl⟩
    | ok sector =>
      simp only [ht, hq, hs] at h
      split_ifs at h
      · simp only [Prod.mk.injEq] at h
        obtain ⟨-, rfl, rfl⟩ := h
        exact ⟨hst, rfl⟩
      · simp at h

theorem virtioNetSubmitRx_ok {slot : ℤ} {regs : Regs} {ss ss' : NetSlotState}
    {mem mem' : QueueMem} {pa len id : ℕ}
    (h : virtioNetSubmitRx slot regs ss mem pa len = (.ok id, ss', mem')) :
    Submitted ss.rx mem id ss'.rx mem' := by
  unfold virtioNetSubmitRx at h
  cases ht : transportCheck regs deviceIdNet with
  | error e =>
    simp only [ht] at h
    split_ifs at h <;> simp at h
  | ok u =>
    simp only [ht] at h
    split_ifs at h
    case neg =>
      simp only [Prod.mk.injEq, Except.ok.injEq] at h
      obtain ⟨rfl, rfl, rfl⟩ := h
      exact { id_eq := rfl, avail := rfl, used := rfl, size := rfl, entry := by simp,
              usedIdx := by simp, usedRing := by simp }
    all_goals simp at h

theorem virtioNetSubmitRx_error {slot : ℤ} {regs : Regs} {ss ss' : NetSlotState}
    {mem mem' : QueueMem} {pa len : ℕ} {e : ℤ}
    (h : virtioNetSubmitRx slot regs ss mem pa len = (.error e, ss', mem')) :
    ss' = ss ∧ mem' = mem := by
  unfold virtioNetSubmitRx at h
  cases ht : transportCheck regs deviceIdNet with
  | error e =>
    simp only [ht] at h
    split_ifs at h <;> simp_all
  | ok u =>
    simp only [ht] at h
    split_ifs at h <;> simp_all

theorem virtioNetSubmitTx_ok {slot : ℤ} {regs : Regs} {ss ss' : NetSlotState}
    {mem mem' : QueueMem} {hdr pa len id : ℕ}
    (h : virtioNetSubmitTx slot regs ss mem hdr pa len = (.ok id, ss', mem')) :
    Submitted ss.tx mem id ss'.tx mem' := by
  unfold virtioNetSubmitTx at h
  cases ht : transportCheck regs deviceIdNet with
  | error e =>
    simp only [ht] at h
    split_ifs at h <;> simp at h
  | ok u =>
    simp only [ht] at h
    split_ifs at h
    case neg =>
      simp only [Prod.mk.injEq, Except.ok.injEq] at h
      obtain ⟨rfl, rfl, rfl⟩ := h
      exact { id_eq := rfl, avail := rfl, used := rfl, size := rfl, entry := by simp,
              usedIdx := by simp, usedRing := by simp }
    all_goals simp at h

theorem virtioNetSubmitTx_error {slot : ℤ} {regs : Regs} {ss ss' : NetSlotState}
    {mem mem' : QueueMem} {hdr pa len : ℕ} {e : ℤ}
    (h : virtioNetSubmitTx slot regs ss mem hdr pa len = (.error e, ss', mem')) :
    ss' = ss ∧ mem' = mem := by
  unfold virtioNetSubmitTx at h
  cases ht : transportCheck regs deviceIdNet with
  | error e =>
    simp only [ht] at h
    split_ifs at h <;> simp_all
  | ok u =>
    simp only [ht] at h
    split_ifs at h <;> simp_all

lemma blkPollQueue_ok {regs : Regs} {q q' : QueueState} (h : blkPollQueue regs q = .ok q') :
    Steady q q' := by
  unfold blkPollQueue at h
  split_ifs at h
  all_goals
    simp only [Except.ok.injEq] at h
    subst h
    exact ⟨rfl, rfl, rfl⟩

theorem virtioBlkPollUsed_some {slot : ℤ} {regs : Regs} {ss ss' : BlkSlotState} {mem : QueueMem}
    {e : ℕ × ℕ} (h : virtioBlkPollUsed slot regs ss mem = (.ok (some e), ss')) :
    Polled 64 ss.queue mem e.1 ss'.queue := by
  unfold virtioBlkPollUsed at h
  cases hq : blkPollQueue regs ss.queue with
  | error e =>
    simp only [hq] at h
    split_ifs at h <;> simp at h
  | ok q =>
    have hst := blkPollQueue_ok hq
    simp only [hq] at h
    split_ifs at h with _ _ hfresh
    case neg =>
      simp only [Prod.mk.injEq, Except.ok.injEq, Option.some.injEq] at h
      obtain ⟨rfl, rfl⟩ := h
      exact { fresh := by rwa [hst.used] at hfresh, id_eq := by rw [hst.used],
              used := by rw [hst.used], avail := hst.avail, size := hst.size }
    all_goals simp at h

theorem virtioBlkPollUsed_steady {slot : ℤ} {regs : Regs} {ss ss' : BlkSlotState} {mem : QueueMem}
    {r : Except ℤ (Option (ℕ × ℕ))} (h : virtioBlkPollUsed slot regs ss mem = (r, ss'))
    (hr : ∀ e, r ≠ .ok (some e)) : Steady ss.queue ss'.queue := by
  unfold virtioBlkPollUsed at h
  cases hq : blkPollQueue regs ss.queue with
  | error e =>
    simp only [hq] at h
    split_ifs at h <;> cases h <;> exact Steady.refl _
  | ok q =>
    simp only [hq] at h
    split_ifs at h <;> cases h
    · exact Steady.refl _
    · exact Steady.refl _
    · exact blkPollQueue_ok hq
    · exact absurd rfl (hr _)

lemma netPollQueue_some {q q' : QueueState} {mem : QueueMem} {e : ℕ × ℕ}
    (h : netPollQueue q mem = (.ok (some e), q')) : Polled (queueSizeOr64 q.qsize) q mem e.1 q' := by
  unfold netPollQueue at h
  split_ifs at h with _ hfresh
  · simp at h
  · simp at h
  · simp only [Prod.mk.injEq, Except.ok.injEq, Option.some.injEq] at h
    obtain ⟨rfl, rfl⟩ := h
    exact { fresh := hfresh, id_eq := rfl, used := rfl, avail := rfl, size := rfl }

lemma netPollQueue_steady {q : QueueState} {mem : QueueMem}
    (hr : ∀ e, (netPollQueue q mem).1 ≠ .ok (some e)) : (netPollQueue q mem).2 = q := by
  unfold netPollQueue at *
  split_ifs at *
  · rfl
  · rfl
  · exact absurd rfl (hr _)

/-- One poll of either net queue is the same drain of its own record. -/
theorem virtioNetPollUsed_some {slot : ℤ} {regs : Regs} {qidx : ℤ} {ss ss' : NetSlotState}
    {mem : QueueMem} {e : ℕ × ℕ} (h : virtioNetPollUsed slot regs qidx ss mem = (.ok (some e), ss')) :
    (qidx = 0 ∧ Polled (queueSizeOr64 ss.rx.qsize) ss.rx mem e.1 ss'.rx ∧ ss'.tx = ss.tx) ∨
    (qidx = 1 ∧ Polled (queueSizeOr64 ss.tx.qsize) ss.tx mem e.1 ss'.tx ∧ ss'.rx = ss.rx) := by
  unfold virtioNetPollUsed at h
  split_ifs at h with _ hidx _ hz
  · simp at h
  · simp at h
  · simp at h
  · simp only [Prod.mk.injEq] at h
    obtain ⟨h1, rfl⟩ := h
    exact Or.inl ⟨hz, netPollQueue_some (Prod.ext h1 rfl), rfl⟩
  · simp only [Prod.mk.injEq] at h
    obtain ⟨h1, rfl⟩ := h
    exact Or.inr ⟨by omega, netPollQueue_some (Prod.ext h1 rfl), rfl⟩

theorem virtioNetPollUsed_steady {slot : ℤ} {regs : Regs} {qidx : ℤ} {ss ss' : NetSlotState}
    {mem : QueueMem} {r : Except ℤ (Option (ℕ × ℕ))}
    (h : virtioNetPollUsed slot regs qidx ss mem = (r, ss')) (hr : ∀ e, r ≠ .ok (some e)) :
    ss' = ss := by
  unfold virtioNetPollUsed at h
  split_ifs at h
  · cases h; rfl
  · cases h; rfl
  · cases h; rfl
  · simp only [Prod.mk.injEq] at h
    obtain ⟨rfl, rfl⟩ := h
    rw [netPollQueue_steady hr]
  · simp only [Prod.mk.injEq] at h
    obtain ⟨rfl, rfl⟩ := h
    rw [netPollQueue_steady hr]

end HouseKernel.Virtio
