import HouseKernel.Lib.Run
import HouseKernel.Virtio.Driver

/-! The receive buffers of the network and console drivers, with the device at the other end of the
queue. A handler pops a completion, looks its id up among the grants of the slot, reads the page and
posts it again. The device completes posted buffers in any order and at any time. -/
namespace HouseKernel.Virtio

open HouseKernel.Lib

def deviceIdConsole : ℕ := 3
def deviceIdSerial : ℕ := 11

/-- `check_ready` of the console driver. -/
def conCheckReady (regs : Regs) : Except ℤ Unit :=
  if regs.magic ≠ magicH then .error errBadVersion
  else if regs.version ≠ 1 ∧ regs.version ≠ 2 then .error errBadVersion
  else if regs.deviceId ≠ deviceIdConsole ∧ regs.deviceId ≠ deviceIdSerial then .error errInval
  else if regs.status &&& statusFailed ≠ 0 then .error errNeedsReset
  else if regs.status &&& (statusFeaturesOk ||| statusDriverOk) ≠ (statusFeaturesOk ||| statusDriverOk) then
    .error errNotReady
  else .ok ()

/-- `submit_inner`, on the queue that it is called for. -/
def conSubmitInner (slot : ℤ) (regs : Regs) (q : QueueState) (mem : QueueMem) (dataPa len flags : ℕ)
    (rejectZeroPa : Bool) : Except ℤ ℕ × QueueState × QueueMem :=
  if !slotValid slot then (.error errBadSlot, q, mem)
  else if rejectZeroPa ∧ dataPa = 0 then (.error errInval, q, mem)
  else if dataPa % 4096 ≠ 0 then (.error errInval, q, mem)
  else if len = 0 ∨ 4096 < len then (.error errInval, q, mem)
  else if 2^64 ≤ dataPa + len then (.error errInval, q, mem)
  else match conCheckReady regs with
  | .error e => (.error e, q, mem)
  | .ok () =>
    if q.descPa = 0 ∨ q.availPa = 0 then (.error errNotReady, q, mem)
    else
      let qsize := queueSizeOr64 q.qsize
      let idx := q.availIdx
      (.ok idx, { q with availIdx := wrappingAdd idx },
        (mem.setDesc (headOf idx qsize) ⟨dataPa, len, flags, 0⟩).publish idx qsize)

def virtioConSubmitRx (slot : ℤ) (regs : Regs) (q : QueueState) (mem : QueueMem) (dataPa len : ℕ) :
    Except ℤ ℕ × QueueState × QueueMem :=
  conSubmitInner slot regs q mem dataPa len descFWrite false

/-- A poll of the console, on the queue that it is called for; its code is that of the network's. -/
def virtioConPollUsed (slot : ℤ) (regs : Regs) (qidx : ℤ) (q : QueueState) (mem : QueueMem) :
    Except ℤ (Option (ℕ × ℕ)) × QueueState :=
  if !slotValid slot then (.error errBadSlot, q)
  else if qidx < 0 ∨ 3 < qidx then (.error errInval, q)
  else if regs.magic ≠ magicH then (.error errBadVersion, q)
  else netPollQueue q mem

/-- The two drivers with receive grants. -/
inductive RxDriver where
  | net
  | con
  deriving DecidableEq, Repr

/-- `netSubmitRx` and `conSubmitRx` lend a whole page. -/
def RxDriver.submitRx (d : RxDriver) (slot : ℤ) (regs : Regs) (q : QueueState) (mem : QueueMem) (page : ℕ) :
    Except ℤ ℕ × QueueState × QueueMem :=
  match d with
  -- the transmit queue of the slot plays no part
  | .net => let r := virtioNetSubmitRx slot regs ⟨q, q⟩ mem page 4096; (r.1, r.2.1.rx, r.2.2)
  | .con => virtioConSubmitRx slot regs q mem page 4096

def RxDriver.pollUsed (d : RxDriver) (slot : ℤ) (regs : Regs) (q : QueueState) (mem : QueueMem) :
    Except ℤ (Option (ℕ × ℕ)) × QueueState :=
  match d with
  | .net => let r := virtioNetPollUsed slot regs 0 ⟨q, q⟩ mem; (r.1, r.2.rx)
  | .con => virtioConPollUsed slot regs 0 q mem

def netRxBatchCap : ℕ := 16

/-- A posted buffer: the id that the driver got for it, and what the device reads, the head in the
available ring and the page in its descriptor. -/
structure Posting where
  id : ℕ
  head : ℕ
  page : ℕ
  deriving DecidableEq, Repr

/-- Where the handler is: at rest, in `drainRx` with `n` rounds left, or with the page of a completion that it
has to post again before it goes on. -/
inductive RxHandler where
  | idle
  | draining (n : ℕ)
  | processing (rest : Option ℕ) (page : ℕ)
  deriving DecidableEq, Repr

def RxHandler.held : RxHandler → List ℕ
  | processing _ page => [page]
  | _ => []

/-- The receive side of a slot. The last three fields are history: the pages that the slot was given, and the
postings that the device has, and has completed without a poll having popped them. -/
structure RxSlot where
  queue : QueueState
  mem : QueueMem
  grants : ℕ → Option ℕ
  handler : RxHandler
  drops : ℕ
  freed : List ℕ
  supplied : List ℕ
  device : List Posting
  used : List Posting

/-- A slot after its setup: zeroed queue pages, counters at zero, and at most 64 entries. -/
def RxSlot.init (descPa availPa usedPa qmax : ℕ) : RxSlot where
  queue := ⟨0, 0, descPa, availPa, usedPa, min qmax 64⟩
  mem := ⟨fun _ => ⟨0, 0, 0, 0⟩, 0, fun _ => 0, 0, fun _ => (0, 0)⟩
  grants := fun _ => none
  handler := .idle
  drops := 0
  freed := []
  supplied := []
  device := []
  used := []

/-- The size by which both ends reduce their counters. -/
def RxSlot.size (s : RxSlot) : ℕ := queueSizeOr64 s.queue.qsize

/-- Post a page and record its grant under the id of the posting; a page that is refused is freed. -/
def RxSlot.post (s : RxSlot) (d : RxDriver) (slot : ℤ) (regs : Regs) (page : ℕ) : RxSlot :=
  match d.submitRx slot regs s.queue s.mem page with
  | (.error _, q, mem) => { s with queue := q, mem := mem, freed := page :: s.freed }
  | (.ok nid, q, mem) =>
    let head := mem.availRing (headOf s.queue.availIdx s.size)
    { s with queue := q, mem := mem, grants := Function.update s.grants nid (some page)
             device := s.device ++ [⟨nid, head, (mem.desc head).addr⟩] }

/-- Pop one completion. -/
def RxSlot.pop (s : RxSlot) (d : RxDriver) (slot : ℤ) (regs : Regs) : Option ℕ × RxSlot :=
  match d.pollUsed slot regs s.queue s.mem with
  | (.ok (some (cid, _)), q) => (some cid, { s with queue := q, used := s.used.tail })
  | (_, q) => (none, { s with queue := q })

/-- Take the grant that is recorded under a completion's id. -/
def RxSlot.claim (s : RxSlot) (cid : ℕ) : Option ℕ × RxSlot :=
  match s.grants cid with
  | none => (none, s)
  | some g => (some g, { s with grants := Function.update s.grants cid none })

inductive RxAction where
  /-- The setup of the slot posts a page. -/
  | supply (regs : Regs) (page : ℕ)
  /-- The device fills the `i`-th buffer that it has, with `len` bytes. -/
  | complete (i len : ℕ)
  | drainRx
  /-- One round of `drainRx`. -/
  | poll (regs : Regs)
  /-- `conReadBytes`, up to the page that it found. -/
  | conReadBytes (regs : Regs)
  | resubmit (regs : Regs)
  deriving DecidableEq, Repr

def rxStep (d : RxDriver) (slot : ℤ) (s : RxSlot) : RxAction → Option RxSlot
  | .supply regs page => some { s.post d slot regs page with supplied := page :: s.supplied }
  | .complete i len => (s.device[i]?).map fun p =>
    { s with
      mem := { s.mem with
        usedRing := Function.update s.mem.usedRing (headOf s.mem.usedIdx s.size) (p.head, len)
        usedIdx := wrappingAdd s.mem.usedIdx }
      device := s.device.eraseIdx i
      used := s.used ++ [p] }
  | .drainRx => if s.handler = .idle then some { s with handler := .draining netRxBatchCap } else none
  | .poll regs => match s.handler with
    | .draining 0 => match s.pop d slot regs with
      | (none, s) => some { s with handler := .idle }
      | (some _, s) => some { s with handler := .idle, drops := s.drops+1 }
    | .draining (n+1) => match s.pop d slot regs with
      | (none, s) => some { s with handler := .idle }
      | (some cid, s) => match s.claim cid with
        | (none, s) => some { s with handler := .draining n }
        | (some g, s) => some { s with handler := .processing (some n) g }
    | _ => none
  | .conReadBytes regs => if s.handler = .idle then
      match s.pop d slot regs with
      | (none, s) => some s
      | (some cid, s) => match s.claim cid with
        | (none, s) => some s
        | (some g, s) => some { s with handler := .processing none g }
      else none
  | .resubmit regs => match s.handler with
    | .processing none g => some { s.post d slot regs g with handler := .idle }
    | .processing (some n) g => some { s.post d slot regs g with handler := .draining n }
    | _ => none

/-- The postings whose completion no poll has popped. -/
def RxSlot.posted (s : RxSlot) : List Posting := s.device ++ s.used

/-- Every grant of the slot is posted, and recorded under the id of its posting, or with the handler. -/
structure RxSlot.Conserved (s : RxSlot) : Prop where
  recorded : ∀ p ∈ s.posted, s.grants p.id = some p.page
  kept : s.supplied.Perm (s.posted.map Posting.page ++ s.handler.held)

/-- The device accepts a posting, and the queue has not gone round. -/
def RxSlot.Accepts (s : RxSlot) (d : RxDriver) (slot : ℤ) (regs : Regs) (page : ℕ) : Prop :=
  (d.submitRx slot regs s.queue s.mem page).1.isOk = true ∧ s.queue.availIdx < s.size

instance (s : RxSlot) (d : RxDriver) (slot : ℤ) (regs : Regs) (page : ℕ) : Decidable (s.Accepts d slot regs page) :=
  inferInstanceAs (Decidable (_ ∧ _))

/-- Postings succeed and do not go round the queue, and `drainRx` finds no completion at its cap. -/
def RxSlot.InBounds (d : RxDriver) (slot : ℤ) (s : RxSlot) : RxAction → Prop
  | .supply regs page => s.Accepts d slot regs page
  | .resubmit regs => ∀ page ∈ s.handler.held, s.Accepts d slot regs page
  | .poll _ => s.handler = .draining 0 → s.mem.usedIdx = s.queue.usedIdx
  | _ => True

instance (d : RxDriver) (slot : ℤ) (s : RxSlot) : ∀ a, Decidable (s.InBounds d slot a)
  | .supply _ _ => inferInstanceAs (Decidable (s.Accepts _ _ _ _))
  | .resubmit _ => inferInstanceAs (Decidable (∀ page ∈ s.handler.held, _))
  | .poll _ => inferInstanceAs (Decidable (_ → _))
  | .complete _ _ | .drainRx | .conReadBytes _ => isTrue trivial

section Queue

variable {d : RxDriver} {slot : ℤ} {regs : Regs} {q q' : QueueState} {mem mem' : QueueMem} {page nid : ℕ}

/-- What an accepted posting does, in either driver. -/
theorem submitRx_ok (h : d.submitRx slot regs q mem page = (.ok nid, q', mem')) :
    nid = q.availIdx ∧ q' = { q with availIdx := wrappingAdd q.availIdx } ∧
    mem' = (mem.setDesc (headOf q.availIdx (queueSizeOr64 q.qsize)) ⟨page, 4096, descFWrite, 0⟩).publish q.availIdx
      (queueSizeOr64 q.qsize) := by
  cases d with
  | net =>
    simp only [RxDriver.submitRx, virtioNetSubmitRx] at h
    cases ht : transportCheck regs deviceIdNet with
    | error e =>
      simp only [ht] at h
      split_ifs at h <;> simp at h
    | ok u =>
      simp only [ht] at h
      split_ifs at h <;> simp only [Prod.mk.injEq, Except.ok.injEq, reduceCtorEq, false_and] at h
      obtain ⟨rfl, rfl, rfl⟩ := h
      exact ⟨rfl, rfl, rfl⟩
  | con =>
    simp only [RxDriver.submitRx, virtioConSubmitRx, conSubmitInner] at h
    cases ht : conCheckReady regs with
    | error e =>
      simp only [ht] at h
      split_ifs at h <;> simp at h
    | ok u =>
      simp only [ht] at h
      split_ifs at h <;> simp only [Prod.mk.injEq, Except.ok.injEq, reduceCtorEq, false_and] at h
      obtain ⟨rfl, rfl, rfl⟩ := h
      exact ⟨rfl, rfl, rfl⟩

/-- A poll in either driver: the next entry of the used ring, or nothing. -/
theorem pollUsed_cases (d : RxDriver) (slot : ℤ) (regs : Regs) (q : QueueState) (mem : QueueMem) :
    (mem.usedIdx ≠ q.usedIdx ∧ d.pollUsed slot regs q mem =
      (.ok (some (mem.usedRing (headOf q.usedIdx (queueSizeOr64 q.qsize)))), { q with usedIdx := wrappingAdd q.usedIdx })) ∨
    ∃ r, d.pollUsed slot regs q mem = (r, q) ∧ ∀ e, r ≠ .ok (some e) := by
  have hpoll : (mem.usedIdx ≠ q.usedIdx ∧ netPollQueue q mem =
      (.ok (some (mem.usedRing (headOf q.usedIdx (queueSizeOr64 q.qsize)))), { q with usedIdx := wrappingAdd q.usedIdx })) ∨
      ∃ r, netPollQueue q mem = (r, q) ∧ ∀ e, r ≠ .ok (some e) := by
    unfold netPollQueue
    split_ifs with h1 h2
    · exact .inr ⟨_, rfl, by simp⟩
    · exact .inr ⟨_, rfl, by simp⟩
    · exact .inl ⟨h2, rfl⟩
  cases d with
  | net =>
    simp only [RxDriver.pollUsed, virtioNetPollUsed]
    split_ifs
    · exact .inr ⟨_, rfl, by simp⟩
    · exact .inr ⟨_, rfl, by simp⟩
    · exact .inr ⟨_, rfl, by simp⟩
    · exact hpoll
  | con =>
    simp only [RxDriver.pollUsed, virtioConPollUsed]
    split_ifs
    · exact .inr ⟨_, rfl, by simp⟩
    · exact .inr ⟨_, rfl, by simp⟩
    · exact .inr ⟨_, rfl, by simp⟩
    · exact hpoll

end Queue

/-- What every state of a run in bounds has. -/
structure RxSlot.Ok (s : RxSlot) : Prop where
  conserved : s.Conserved
  small : s.size ≤ 64
  count : s.queue.usedIdx + s.used.length + s.device.length = s.queue.availIdx
  room : s.queue.availIdx ≤ s.size
  written : s.mem.usedIdx = s.queue.usedIdx + s.used.length
  ring : ∀ j p, s.used[j]? = some p → (s.mem.usedRing (s.queue.usedIdx + j)).1 = p.id
  heads : ∀ p ∈ s.posted, p.head = p.id
  ids : ∀ p ∈ s.posted, p.id < s.queue.availIdx
  distinct : (s.posted.map Posting.id).Nodup

section Steps

variable {d : RxDriver} {slot : ℤ} {regs : Regs} {s t : RxSlot}

lemma RxSlot.Ok.init (descPa availPa usedPa qmax : ℕ) : (RxSlot.init descPa availPa usedPa qmax).Ok where
  conserved := ⟨nofun, .nil⟩
  small := by
    change queueSizeOr64 (min qmax 64) ≤ 64
    unfold queueSizeOr64
    split_ifs <;> omega
  count := rfl
  room := Nat.zero_le _
  written := rfl
  ring := by simp [RxSlot.init]
  heads := nofun
  ids := nofun
  distinct := .nil

/-- Before the queue goes round, a counter is its own slot. -/
lemma headOf_of_lt {i n : ℕ} (h : i < n) (hn : n ≤ 64) : headOf i n = i := by
  rw [headOf, Nat.mod_eq_of_lt (by omega : n < 65536), Nat.mod_eq_of_lt h]

lemma wrappingAdd_of_lt {i : ℕ} (h : i < 64) : wrappingAdd i = i+1 :=
  Nat.mod_eq_of_lt (by omega)

/-- An accepted page is posted under the next id, with the grant beside it. -/
lemma RxSlot.post_eq {page : ℕ} (ha : s.Accepts d slot regs page) (hsmall : s.size ≤ 64) : ∃ mem,
    mem.usedIdx = s.mem.usedIdx ∧ mem.usedRing = s.mem.usedRing ∧ s.post d slot regs page =
      { s with queue := { s.queue with availIdx := s.queue.availIdx+1 }, mem := mem
               grants := Function.update s.grants s.queue.availIdx (some page)
               device := s.device ++ [⟨s.queue.availIdx, s.queue.availIdx, page⟩] } := by
  obtain ⟨hok, hlt⟩ := ha
  rcases hsub : d.submitRx slot regs s.queue s.mem page with ⟨e | nid, q, mem⟩
  · rw [hsub] at hok
    cases hok
  obtain ⟨rfl, rfl, rfl⟩ := submitRx_ok hsub
  have hhead : headOf s.queue.availIdx s.size = s.queue.availIdx := headOf_of_lt hlt hsmall
  have hadd : wrappingAdd s.queue.availIdx = s.queue.availIdx+1 := wrappingAdd_of_lt (by omega)
  have hword : s.queue.availIdx % 65536 = s.queue.availIdx := Nat.mod_eq_of_lt (by omega)
  refine ⟨(s.mem.setDesc (headOf s.queue.availIdx s.size) ⟨page, 4096, descFWrite, 0⟩).publish s.queue.availIdx s.size,
    rfl, rfl, ?_⟩
  simp only [RxSlot.post, hsub]
  change headOf s.queue.availIdx (queueSizeOr64 s.queue.qsize) = _ at hhead
  simp only [RxSlot.size, hhead, hadd, QueueMem.publish, QueueMem.setDesc, Function.update_self, hword]

lemma RxSlot.post_frame (s : RxSlot) (d : RxDriver) (slot : ℤ) (regs : Regs) (page : ℕ) :
    (s.post d slot regs page).handler = s.handler ∧ (s.post d slot regs page).supplied = s.supplied := by
  unfold RxSlot.post
  split <;> exact ⟨rfl, rfl⟩

/-- A page that was not posted yet comes to the device; `held` is what the handler has then. -/
theorem RxSlot.Ok.posts {page : ℕ} {supplied : List ℕ} (h : s.Ok) (handler : RxHandler)
    (ha : s.Accepts d slot regs page)
    (hkept : supplied.Perm (page :: (s.posted.map Posting.page ++ handler.held))) :
    Ok { s.post d slot regs page with handler := handler, supplied := supplied } := by
  have hlt := ha.2
  have hcount := h.count
  obtain ⟨mem, hidx, hring, heq⟩ := RxSlot.post_eq ha h.small
  rw [heq]
  have hnew : ∀ p ∈ s.posted, p.id ≠ s.queue.availIdx := fun p hp => (h.ids p hp).ne
  have hmem : ∀ {p : Posting}, p ∈ s.device ++ [(⟨s.queue.availIdx, s.queue.availIdx, page⟩ : Posting)] ++ s.used ↔
      p = ⟨s.queue.availIdx, s.queue.availIdx, page⟩ ∨ p ∈ s.posted := by
    intro p
    simp only [RxSlot.posted, List.mem_append, List.mem_singleton]
    tauto
  have hperm : (s.device ++ [(⟨s.queue.availIdx, s.queue.availIdx, page⟩ : Posting)] ++ s.used).Perm
      (⟨s.queue.availIdx, s.queue.availIdx, page⟩ :: s.posted) := by
    rw [List.append_assoc]
    exact List.perm_middle
  refine ⟨⟨fun p hp => ?_, ?_⟩, h.small, ?_, ?_, ?_, ?_, ?_, ?_, ?_⟩
  · obtain rfl | hp := hmem.mp hp
    · exact Function.update_self _ _ _
    · exact (Function.update_of_ne (hnew p hp) _ _).trans (h.conserved.recorded p hp)
  · exact hkept.trans ((hperm.map Posting.page).symm.append_right handler.held)
  · simp only [List.length_append, List.length_singleton]
    omega
  · exact hlt
  · exact hidx.trans h.written
  · intro j p hp
    simp only [hring]
    exact h.ring j p hp
  · intro p hp
    obtain rfl | hp := hmem.mp hp
    · rfl
    · exact h.heads p hp
  · intro p hp
    obtain rfl | hp := hmem.mp hp
    · exact Nat.lt_succ_self _
    · exact Nat.lt_succ_of_lt (h.ids p hp)
  · refine (hperm.map Posting.id).nodup_iff.mpr ?_
    rw [List.map_cons, List.nodup_cons]
    refine ⟨fun hin => ?_, h.distinct⟩
    obtain ⟨p, hp, hid⟩ := List.mem_map.mp hin
    exact hnew p hp hid

/-- The device writes the posting's head into the next slot of the used ring. -/
theorem RxSlot.Ok.complete {i len : ℕ} (h : s.Ok) (hs : rxStep d slot s (.complete i len) = some t) : t.Ok := by
  obtain ⟨p, hp, rfl⟩ := Option.map_eq_some_iff.mp hs
  have hsmall := h.small
  have hcount := h.count
  have hroom := h.room
  have hwritten := h.written
  obtain ⟨hi, hget⟩ := List.getElem?_eq_some_iff.mp hp
  have hslot : headOf s.mem.usedIdx s.size = s.mem.usedIdx := headOf_of_lt (by omega) hsmall
  have hadd : wrappingAdd s.mem.usedIdx = s.mem.usedIdx+1 := wrappingAdd_of_lt (by omega)
  have hperm : (s.device.eraseIdx i ++ (s.used ++ [p])).Perm s.posted := by
    have hdevice : s.device.Perm (p :: s.device.eraseIdx i) := hget ▸ (List.getElem_cons_eraseIdx_perm hi).symm
    refine List.Perm.trans ?_ (hdevice.symm.append_right s.used)
    rw [← List.append_assoc]
    exact List.perm_append_singleton p _
  have hmem : ∀ {p'}, p' ∈ s.device.eraseIdx i ++ (s.used ++ [p]) → p' ∈ s.posted := fun hp' => hperm.subset hp'
  refine ⟨⟨fun p' hp' => h.conserved.recorded p' (hmem hp'), ?_⟩, hsmall, ?_, hroom, ?_, ?_, fun p' hp' => h.heads p' (hmem hp'),
    fun p' hp' => h.ids p' (hmem hp'), (hperm.map Posting.id).nodup_iff.mpr h.distinct⟩
  · exact h.conserved.kept.trans ((hperm.map Posting.page).symm.append_right _)
  · simp only [List.length_append, List.length_singleton, List.length_eraseIdx_of_lt hi]
    omega
  · simp only [List.length_append, List.length_singleton, hadd]
    omega
  · intro j p' hp'
    simp only [hslot]
    by_cases hj : j < s.used.length
    · rw [List.getElem?_append_left hj] at hp'
      rw [Function.update_of_ne (by omega)]
      exact h.ring j p' hp'
    · rw [List.getElem?_append_right (by omega)] at hp'
      obtain ⟨hlast, rfl⟩ : j - s.used.length = 0 ∧ p = p' := by
        rw [List.getElem?_singleton] at hp'
        split_ifs at hp' with hz
        exact ⟨hz, Option.some.inj hp'⟩
      rw [show s.queue.usedIdx + j = s.mem.usedIdx by omega, Function.update_self]
      exact h.heads p (List.mem_append_left _ (hget ▸ List.getElem_mem hi))

/-- A poll finds nothing, or the oldest completion, under the id of its posting. -/
theorem RxSlot.Ok.pop (h : s.Ok) (d : RxDriver) (slot : ℤ) (regs : Regs) :
    s.pop d slot regs = (none, s) ∨
    ∃ p rest, s.used = p :: rest ∧ s.mem.usedIdx ≠ s.queue.usedIdx ∧ s.pop d slot regs =
      (some p.id, { s with queue := { s.queue with usedIdx := s.queue.usedIdx+1 }, used := rest }) := by
  have hsmall := h.small
  have hcount := h.count
  have hroom := h.room
  have hwritten := h.written
  obtain ⟨hne, hpoll⟩ | ⟨r, hpoll, hr⟩ := pollUsed_cases d slot regs s.queue s.mem
  · right
    cases hu : s.used with
    | nil =>
      rw [hu, List.length_nil] at hwritten
      omega
    | cons p rest =>
      have hlen : s.used.length = rest.length+1 := by rw [hu, List.length_cons]
      have hslot : headOf s.queue.usedIdx (queueSizeOr64 s.queue.qsize) = s.queue.usedIdx :=
        headOf_of_lt (n := s.size) (by omega) hsmall
      have hadd : wrappingAdd s.queue.usedIdx = s.queue.usedIdx+1 := wrappingAdd_of_lt (by omega)
      have hentry := h.ring 0 p (by rw [hu]; rfl)
      refine ⟨p, rest, rfl, hne, ?_⟩
      simp only [RxSlot.pop, hpoll, hslot, hadd, hu, List.tail_cons]
      rw [← hentry]
      rfl
  · left
    unfold RxSlot.pop
    rw [hpoll]
    cases r with
    | error e => rfl
    | ok e =>
      cases e with
      | none => rfl
      | some e => exact absurd rfl (hr e)

/-- The grant of a popped completion is there, and comes to the handler. -/
theorem RxSlot.Ok.taken {p : Posting} {rest : List Posting} (h : s.Ok) (hused : s.used = p :: rest)
    (hheld : s.handler.held = []) (next : Option ℕ) :
    ∃ s', RxSlot.claim { s with queue := { s.queue with usedIdx := s.queue.usedIdx+1 }, used := rest } p.id = (some p.page, s') ∧
      Ok { s' with handler := .processing next p.page } := by
  have hin : p ∈ s.posted := List.mem_append_right _ (hused ▸ List.mem_cons_self)
  have hgrant := h.conserved.recorded p hin
  refine ⟨{ s with queue := { s.queue with usedIdx := s.queue.usedIdx+1 }, used := rest
                   grants := Function.update s.grants p.id none }, by simp only [RxSlot.claim, hgrant], ?_⟩
  have hperm : s.posted.Perm (p :: (s.device ++ rest)) := by
    rw [RxSlot.posted, hused]
    exact List.perm_middle
  have hold : ∀ {p'}, p' ∈ s.device ++ rest → p' ∈ s.posted := fun hp' => hperm.symm.subset (List.mem_cons_of_mem _ hp')
  have hdistinct := (hperm.map Posting.id).nodup_iff.mp h.distinct
  rw [List.map_cons, List.nodup_cons] at hdistinct
  have hne : ∀ p' ∈ s.device ++ rest, p'.id ≠ p.id := fun p' hp' hid =>
    hdistinct.1 (List.mem_map.mpr ⟨p', hp', hid⟩)
  have hlen : s.used.length = rest.length+1 := by rw [hused, List.length_cons]
  have hcount := h.count
  have hwritten := h.written
  refine ⟨⟨fun p' hp' => ?_, ?_⟩, h.small, ?_, h.room, ?_, fun j p' hp' => ?_, fun p' hp' => h.heads p' (hold hp'),
    fun p' hp' => h.ids p' (hold hp'), hdistinct.2⟩
  · exact (Function.update_of_ne (hne p' hp') _ _).trans (h.conserved.recorded p' (hold hp'))
  · have hkept := h.conserved.kept
    rw [hheld, List.append_nil] at hkept
    refine hkept.trans ((hperm.map Posting.page).trans ?_)
    exact (List.perm_append_singleton p.page _).symm
  · simp only
    omega
  · simp only
    omega
  · have hnext := h.ring (j+1) p' (by rw [hused]; exact hp')
    simp only
    rwa [show s.queue.usedIdx + 1 + j = s.queue.usedIdx + (j+1) by omega]

/-- The handler may go on with what it holds. -/
lemma RxSlot.Ok.goes {handler : RxHandler} {drops : ℕ} (h : s.Ok) (hheld : handler.held = s.handler.held) :
    Ok { s with handler := handler, drops := drops } :=
  { h with conserved := ⟨h.conserved.recorded, by
      have hkept := h.conserved.kept
      rwa [← hheld] at hkept⟩ }

/-- A handler without a page pops a completion and takes its grant, or finds none. -/
theorem RxSlot.Ok.pop_claim (h : s.Ok) (hheld : s.handler.held = []) (d : RxDriver) (slot : ℤ) (regs : Regs) :
    s.pop d slot regs = (none, s) ∨
    ∃ cid s₁ g s₂, s.pop d slot regs = (some cid, s₁) ∧ s₁.claim cid = (some g, s₂) ∧
      ∀ next, Ok { s₂ with handler := .processing next g } := by
  obtain hnone | ⟨p, rest, hused, -, hpop⟩ := h.pop d slot regs
  · exact .inl hnone
  · obtain ⟨s₂, hclaim, hok⟩ := h.taken hused hheld none
    refine .inr ⟨p.id, _, p.page, s₂, hpop, hclaim, fun next => ?_⟩
    exact RxSlot.Ok.goes (s := { s₂ with handler := .processing none p.page }) hok rfl

theorem RxSlot.Ok.step {a : RxAction} (h : s.Ok) (hg : s.InBounds d slot a) (hs : rxStep d slot s a = some t) :
    t.Ok := by
  cases a with
  | supply regs page =>
    obtain rfl := Option.some.inj hs
    refine h.posts (s.post d slot regs page).handler hg ?_
    rw [(s.post_frame d slot regs page).1]
    exact h.conserved.kept.cons page
  | complete i len => exact h.complete hs
  | drainRx =>
    simp only [rxStep] at hs
    split_ifs at hs with hidle
    obtain rfl := Option.some.inj hs
    refine h.goes ?_
    rw [hidle]
    rfl
  | poll regs =>
    simp only [rxStep] at hs
    cases hh : s.handler with
    | idle => simp [hh] at hs
    | processing rest page => simp [hh] at hs
    | draining n =>
      have hheld : s.handler.held = [] := by rw [hh]; rfl
      cases n with
      | zero =>
        -- the condition leaves nothing for the poll at the cap
        obtain hnone | ⟨p, rest, -, hne, -⟩ := h.pop d slot regs
        · simp only [hh, hnone] at hs
          obtain rfl := Option.some.inj hs
          exact h.goes hheld.symm
        · exact absurd (hg hh) hne
      | succ n =>
        obtain hnone | ⟨cid, s₁, g, s₂, hpop, hclaim, hok⟩ := h.pop_claim hheld d slot regs
        · simp only [hh, hnone] at hs
          obtain rfl := Option.some.inj hs
          exact h.goes hheld.symm
        · simp only [hh, hpop, hclaim] at hs
          obtain rfl := Option.some.inj hs
          exact hok (some n)
  | conReadBytes regs =>
    simp only [rxStep] at hs
    split_ifs at hs with hidle
    have hheld : s.handler.held = [] := by rw [hidle]; rfl
    obtain hnone | ⟨cid, s₁, g, s₂, hpop, hclaim, hok⟩ := h.pop_claim hheld d slot regs
    · simp only [hnone] at hs
      obtain rfl := Option.some.inj hs
      exact h
    · simp only [hpop, hclaim] at hs
      obtain rfl := Option.some.inj hs
      exact hok none
  | resubmit regs =>
    simp only [rxStep] at hs
    cases hh : s.handler with
    | idle => simp [hh] at hs
    | draining n => simp [hh] at hs
    | processing rest page =>
      have ha : s.Accepts d slot regs page := hg page (by rw [hh]; exact List.mem_cons_self)
      have hkept : (s.post d slot regs page).supplied.Perm (page :: (s.posted.map Posting.page ++ [])) := by
        have hkept := h.conserved.kept
        rw [hh] at hkept
        rw [(s.post_frame d slot regs page).2, List.append_nil]
        exact hkept.trans (List.perm_append_singleton page _)
      cases rest with
      | none =>
        simp only [hh] at hs
        obtain rfl := Option.some.inj hs
        exact h.posts .idle ha hkept
      | some n =>
        simp only [hh] at hs
        obtain rfl := Option.some.inj hs
        exact h.posts (.draining n) ha hkept

/-- A completion that waits at the cap is popped and its buffer is gone. -/
theorem RxSlot.cap_poll_drops (h : s.Ok) (hh : s.handler = .draining 0) (hs : rxStep d slot s (.poll regs) = some t)
    (hdrop : t.drops ≠ s.drops) : ¬ t.Conserved := by
  intro hc
  obtain hnone | ⟨p, rest, hused, -, hpop⟩ := h.pop d slot regs
  · simp only [rxStep, hh, hnone] at hs
    obtain rfl := Option.some.inj hs
    exact hdrop rfl
  · simp only [rxStep, hh, hpop] at hs
    obtain rfl := Option.some.inj hs
    have hlen := hc.kept.length_eq
    have hlen' := h.conserved.kept.length_eq
    simp only [RxSlot.posted, hh, hused, RxHandler.held, List.map_append, List.length_append, List.length_map,
      List.length_cons, List.length_nil] at hlen hlen'
    omega

end Steps

/-- In a run in which postings succeed and do not go round the queue, and no drain finds a completion at its cap,
every receive grant of the slot stays posted under its id or with the handler. -/
theorem receive_buffers_conserved {d : RxDriver} {slot : ℤ} {descPa availPa usedPa qmax : ℕ} {as : List RxAction}
    (h : Along (rxStep d slot) (RxSlot.InBounds d slot) (RxSlot.init descPa availPa usedPa qmax) as) :
    Throughout (rxStep d slot) RxSlot.Conserved (RxSlot.init descPa availPa usedPa qmax) as := by
  rintro bs ⟨cs, rfl⟩ s hrun
  have hok : s.Ok := run_invariant (fun _ _ _ hs hG hstep => hs.step hG hstep) (RxSlot.Ok.init _ _ _ _)
    (along_append.mp h).1 hrun
  exact hok.conserved

/-- A network device after its setup. -/
def readyNet : Regs := ⟨magicH, 2, deviceIdNet, statusFeaturesOk ||| statusDriverOk, 0, 0, 0, 0⟩

def readyCon : Regs := ⟨magicH, 2, deviceIdConsole, statusFeaturesOk ||| statusDriverOk, 0, 0, 0, 0⟩

/-- Four pages, and two packets in one drain. -/
theorem receive_buffers_conserved_burst :
    (run (rxStep .net 3) (RxSlot.init 0x1000 0x2000 0x3000 256)
      [.supply readyNet 0x4000, .supply readyNet 0x5000, .supply readyNet 0x6000, .supply readyNet 0x7000,
        .complete 1 60, .drainRx, .poll readyNet, .complete 0 90, .resubmit readyNet, .poll readyNet,
        .resubmit readyNet, .poll readyNet]).isSome = true ∧
    Throughout (rxStep .net 3) RxSlot.Conserved (RxSlot.init 0x1000 0x2000 0x3000 256)
      [.supply readyNet 0x4000, .supply readyNet 0x5000, .supply readyNet 0x6000, .supply readyNet 0x7000,
        .complete 1 60, .drainRx, .poll readyNet, .complete 0 90, .resubmit readyNet, .poll readyNet,
        .resubmit readyNet, .poll readyNet] :=
  ⟨by decide, receive_buffers_conserved (by decide)⟩

/-- Packets that keep coming while `drainRx` runs: after sixteen of them one more is popped and dropped with its
buffer. On the console, the first buffer that is posted past the end of a queue of four is dropped when it is filled. -/
theorem receive_buffers_dropped :
    (∃ s, run (rxStep .net 3) (RxSlot.init 0x1000 0x2000 0x3000 256)
        ([.supply readyNet 0x4000, .supply readyNet 0x5000, .drainRx] ++
          (List.replicate 16 [.complete 0 60, .poll readyNet, .resubmit readyNet]).flatten ++
          [.complete 0 60, .poll readyNet]) = some s ∧
      s.supplied.length = 2 ∧ s.freed = [] ∧ s.posted.length = 1 ∧ s.handler = .idle ∧ ¬ s.Conserved) ∧
    ∃ s, run (rxStep .con 5) (RxSlot.init 0x1000 0x2000 0x3000 4)
        [.supply readyCon 0x4000, .supply readyCon 0x5000, .supply readyCon 0x6000, .supply readyCon 0x7000,
          .complete 0 1, .conReadBytes readyCon, .resubmit readyCon, .complete 3 1, .conReadBytes readyCon] = some s ∧
      s.supplied.length = 4 ∧ s.freed = [] ∧ s.posted.length = 3 ∧ s.handler = .idle ∧ ¬ s.Conserved := by
  have hshort : ∀ {s : RxSlot}, s.handler = .idle → s.posted.length ≠ s.supplied.length → ¬ s.Conserved := by
    intro s hidle hlen hc
    have := hc.kept.length_eq
    rw [hidle, List.length_append, List.length_map] at this
    exact hlen this.symm
  constructor
  · have hrun : ((run (rxStep .net 3) (RxSlot.init 0x1000 0x2000 0x3000 256)
        ([.supply readyNet 0x4000, .supply readyNet 0x5000, .drainRx] ++
          (List.replicate 16 [.complete 0 60, .poll readyNet, .resubmit readyNet]).flatten ++
          [.complete 0 60, .poll readyNet])).map fun s => (s.supplied.length, s.freed, s.posted.length, s.handler)) =
        some (2, [], 1, .idle) := by rfl
    obtain ⟨s, hs, heq⟩ := Option.map_eq_some_iff.mp hrun
    simp only [Prod.mk.injEq] at heq
    obtain ⟨h1, h2, h3, h4⟩ := heq
    exact ⟨s, hs, h1, h2, h3, h4, hshort h4 (by omega)⟩
  · have hrun : ((run (rxStep .con 5) (RxSlot.init 0x1000 0x2000 0x3000 4)
        [.supply readyCon 0x4000, .supply readyCon 0x5000, .supply readyCon 0x6000, .supply readyCon 0x7000,
          .complete 0 1, .conReadBytes readyCon, .resubmit readyCon, .complete 3 1, .conReadBytes readyCon]).map
        fun s => (s.supplied.length, s.freed, s.posted.length, s.handler)) = some (4, [], 3, .idle) := by rfl
    obtain ⟨s, hs, heq⟩ := Option.map_eq_some_iff.mp hrun
    simp only [Prod.mk.injEq] at heq
    obtain ⟨h1, h2, h3, h4⟩ := heq
    exact ⟨s, hs, h1, h2, h3, h4, hshort h4 (by omega)⟩

end HouseKernel.Virtio
