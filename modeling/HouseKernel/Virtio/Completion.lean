import HouseKernel.Lib.Run
import HouseKernel.Virtio.Driver

/-! One virtio queue with the device at its other end. A submission publishes the head of a
descriptor chain, the device completes published chains in any order and writes their heads
into the used ring, and a poll hands the next used entry to the driver. The id that a
submission returns and the id that a poll reports are compared over whole runs. -/
namespace HouseKernel.Virtio

open HouseKernel.Lib

/-- The three request paths of the two drivers. -/
inductive Kind where
  | blk
  | netRx
  | netTx
  deriving DecidableEq, Repr

structure Host where
  blk : BlkSlotState
  net : NetSlotState
  deriving DecidableEq, Repr

def Kind.queue : Kind → Host → QueueState
  | .blk, h => h.blk.queue
  | .netRx, h => h.net.rx
  | .netTx, h => h.net.tx

/-- The arguments of a submission, for the three paths together. -/
structure Request where
  slot : ℤ
  regs : Regs
  bufs : BlkBuffers
  lbaBlocks : ℕ
  nblocks : ℕ
  typ : ℕ
  hdrPa : ℕ
  dataPa : ℕ
  len : ℕ
  deriving DecidableEq, Repr

def Kind.submit (k : Kind) (a : Request) (h : Host) (mem : QueueMem) :
    Except ℤ ℕ × Host × QueueMem :=
  match k with
  | .blk =>
    let r := blkSubmit a.slot a.regs a.bufs h.blk mem a.lbaBlocks a.dataPa a.nblocks a.typ
    (r.1, { h with blk := r.2.1 }, r.2.2)
  | .netRx =>
    let r := virtioNetSubmitRx a.slot a.regs h.net mem a.dataPa a.len
    (r.1, { h with net := r.2.1 }, r.2.2)
  | .netTx =>
    let r := virtioNetSubmitTx a.slot a.regs h.net mem a.hdrPa a.dataPa a.len
    (r.1, { h with net := r.2.1 }, r.2.2)

def Kind.poll (k : Kind) (slot : ℤ) (regs : Regs) (h : Host) (mem : QueueMem) :
    Except ℤ (Option (ℕ × ℕ)) × Host :=
  match k with
  | .blk => let r := virtioBlkPollUsed slot regs h.blk mem; (r.1, { h with blk := r.2 })
  | .netRx => let r := virtioNetPollUsed slot regs 0 h.net mem; (r.1, { h with net := r.2 })
  | .netTx => let r := virtioNetPollUsed slot regs 1 h.net mem; (r.1, { h with net := r.2 })

/-- The slot of the used ring in which the device puts its `i`-th completion. -/
def deviceSlot (q i : ℕ) : ℕ := headOf (i % 65536) q

/-- The modulus a poll reduces its counter by. -/
def Kind.pollModulus : Kind → ℕ → ℕ
  | .blk, _ => 64
  | .netRx, q => q
  | .netTx, q => q

/-- The slot of the used ring that the `i`-th successful poll reads. -/
def Kind.pollSlot (k : Kind) (q i : ℕ) : ℕ := headOf (i % 65536) (k.pollModulus q)

/-- The device finishes the chain with this head. -/
def QueueMem.complete (mem : QueueMem) (q head len : ℕ) : QueueMem :=
  { mem with
    usedRing := Function.update mem.usedRing (headOf mem.usedIdx q) (head, len)
    usedIdx := wrappingAdd mem.usedIdx }

/-- A queue, its memory and the history of both ends: what every submission returned and
published, the numbers of the requests in the order of their completion, and what every poll
reported. -/
structure System where
  host : Host
  mem : QueueMem
  submitted : List (ℕ × ℕ)
  done : List ℕ
  reported : List (ℕ × ℕ)

inductive Action where
  | submit (a : Request)
  | complete (r len : ℕ)
  | poll (slot : ℤ) (regs : Regs)
  deriving DecidableEq, Repr

/-- One step of either end. The device reads the published head at its own count of the
available ring and completes a request only once. -/
def step (k : Kind) (q : ℕ) (s : System) : Action → Option System
  | .submit a =>
    match k.submit a s.host s.mem with
    | (.ok id, h, mem) =>
      some { s with host := h, mem := mem,
                    submitted := s.submitted ++ [(id, mem.availRing (deviceSlot q s.submitted.length))] }
    | (.error _, h, mem) => some { s with host := h, mem := mem }
  | .complete r len =>
    if r ∈ s.done then none
    else (s.submitted[r]?).map fun p =>
      { s with mem := s.mem.complete q p.2 len, done := s.done ++ [r] }
  | .poll slot regs =>
    match k.poll slot regs s.host s.mem with
    | (.ok (some e), h) => some { s with host := h, reported := s.reported ++ [e] }
    | (_, h) => some { s with host := h }

/-- The device does not overwrite a used entry that no poll has read. -/
def NoOverrun (q : ℕ) (s : System) : Action → Prop
  | .complete _ _ => ∀ i, s.reported.length ≤ i → i < s.done.length →
      deviceSlot q i ≠ headOf s.mem.usedIdx q
  | _ => True

/-- A queue of `q` entries right after its setup. -/
structure Fresh (k : Kind) (q : ℕ) (s : System) : Prop where
  size : queueSizeOr64 (k.queue s.host).qsize = q
  avail : (k.queue s.host).availIdx = 0
  used : (k.queue s.host).usedIdx = 0
  device : s.mem.usedIdx = 0
  submitted : s.submitted = []
  done : s.done = []
  reported : s.reported = []

inductive BlkError where
  | device (code : ℤ)
  | io (status : ℕ)
  deriving DecidableEq, Repr

def blkPollAttempts : ℕ := 20000/200

/-- One poll of `waitForCompletion`: an entry with another id is dropped. -/
def completionPoll (reqId : ℕ) : Except ℤ (Option (ℕ × ℕ)) → Except BlkError Bool
  | .error e => .error (.device e)
  | .ok none => .ok false
  | .ok (some (cid, st)) => if cid ≠ reqId then .ok false
      else if st = 0 then .ok true else .error (.io st)

/-- The bounded retry loop, over the results of the successive polls. -/
def awaitCompletion (poll : ℕ → Except BlkError Bool) : ℕ → ℕ → Except BlkError Unit
  | 0, _ => .error (.io 99)
  | n+1, i => match poll i with
    | .error e => .error e
    | .ok true => .ok ()
    | .ok false => awaitCompletion poll n (i+1)

def waitForCompletion (reqId : ℕ) (polls : ℕ → Except ℤ (Option (ℕ × ℕ))) : Except BlkError Unit :=
  awaitCompletion (fun i => completionPoll reqId (polls i)) blkPollAttempts 0

def pollTx (reqId : ℕ) (polls : ℕ → Except ℤ (Option (ℕ × ℕ))) : ℕ → ℕ → Bool
  | 0, _ => false
  | tries+1, i => match polls i with
    | .ok (some (cid, _)) => if cid = reqId then true else pollTx reqId polls tries (i+1)
    | .ok none => pollTx reqId polls tries (i+1)
    | .error _ => false

/-- The grant that a receive completion gives back, from the grants keyed by request id. -/
def rxGrant {γ : Type*} (grants : List (ℕ × γ)) (cid : ℕ) : Option γ := grants.lookup cid

/-- The driver takes a used entry with this id for the end of the request `reqId`: its wait
succeeds on a good status, its transmit poll ends, or its receive lookup finds the grant. -/
def Kind.recognises (k : Kind) (reqId cid : ℕ) : Bool :=
  match k with
  | .blk => (waitForCompletion reqId fun i => .ok (if i = 0 then some (cid, 0) else none)).isOk
  | .netRx => (rxGrant [(reqId, ())] cid).isSome
  | .netTx => pollTx reqId (fun i => .ok (if i = 0 then some (cid, 0) else none)) 1 0

lemma awaitCompletion_idle {poll : ℕ → Except BlkError Bool} {n i : ℕ}
    (h : ∀ j, i ≤ j → poll j = .ok false) : awaitCompletion poll n i = .error (.io 99) := by
  induction n generalizing i with
  | zero => rfl
  | succ n ih =>
    simp only [awaitCompletion, h i le_rfl]
    exact ih fun j hj => h j (by omega)

theorem recognises_iff (k : Kind) (reqId cid : ℕ) : k.recognises reqId cid = true ↔ cid = reqId := by
  cases k with
  | blk =>
    by_cases hid : cid = reqId
    · simp [Kind.recognises, waitForCompletion, blkPollAttempts, awaitCompletion, completionPoll,
        Except.isOk, Except.toBool, hid]
    · have hfirst : waitForCompletion reqId (fun i => .ok (if i = 0 then some (cid, 0) else none)) =
          .error (.io 99) := by
        apply awaitCompletion_idle
        intro j _
        by_cases hj : j = 0 <;> simp [hj, completionPoll, hid]
      simp only [Kind.recognises, hfirst]
      simp [Except.isOk, Except.toBool, hid]
  | netRx =>
    by_cases hid : cid = reqId
    · simp [Kind.recognises, rxGrant, hid]
    · have hb : (cid == reqId) = false := by simpa using hid
      simp [Kind.recognises, rxGrant, List.lookup_cons, hb, hid]
  | netTx => simp [Kind.recognises, pollTx]

/-- A submission that succeeds advances the queue, one that fails leaves it. -/
theorem Kind.submit_ok {k : Kind} {a : Request} {h h' : Host} {mem mem' : QueueMem} {id : ℕ}
    (hs : k.submit a h mem = (.ok id, h', mem')) :
    Submitted (k.queue h) mem id (k.queue h') mem' := by
  cases k <;> simp only [Kind.submit, Prod.mk.injEq] at hs <;> obtain ⟨h1, rfl, rfl⟩ := hs
  · exact blkSubmit_ok (Prod.ext h1 rfl)
  · exact virtioNetSubmitRx_ok (Prod.ext h1 rfl)
  · exact virtioNetSubmitTx_ok (Prod.ext h1 rfl)

theorem Kind.submit_error {k : Kind} {a : Request} {h h' : Host} {mem mem' : QueueMem} {e : ℤ}
    (hs : k.submit a h mem = (.error e, h', mem')) : Steady (k.queue h) (k.queue h') ∧ mem' = mem := by
  cases k <;> simp only [Kind.submit, Prod.mk.injEq] at hs <;> obtain ⟨h1, rfl, rfl⟩ := hs
  · exact blkSubmit_error (Prod.ext h1 rfl)
  · obtain ⟨h2, h3⟩ := virtioNetSubmitRx_error (Prod.ext h1 rfl)
    exact ⟨by simp [Kind.queue, h2, Steady.refl], h3⟩
  · obtain ⟨h2, h3⟩ := virtioNetSubmitTx_error (Prod.ext h1 rfl)
    exact ⟨by simp [Kind.queue, h2, Steady.refl], h3⟩

theorem Kind.poll_some {k : Kind} {slot : ℤ} {regs : Regs} {h h' : Host} {mem : QueueMem} {e : ℕ × ℕ}
    (hp : k.poll slot regs h mem = (.ok (some e), h')) :
    Polled (k.pollModulus (queueSizeOr64 (k.queue h).qsize)) (k.queue h) mem e.1 (k.queue h') := by
  cases k <;> simp only [Kind.poll, Prod.mk.injEq] at hp <;> obtain ⟨h1, rfl⟩ := hp
  · exact virtioBlkPollUsed_some (Prod.ext h1 rfl)
  · obtain ⟨-, hp, -⟩ | ⟨h0, -⟩ := virtioNetPollUsed_some (Prod.ext h1 rfl)
    · exact hp
    · omega
  · obtain ⟨h0, -⟩ | ⟨-, hp, -⟩ := virtioNetPollUsed_some (Prod.ext h1 rfl)
    · omega
    · exact hp

theorem Kind.poll_steady {k : Kind} {slot : ℤ} {regs : Regs} {h h' : Host} {mem : QueueMem}
    {r : Except ℤ (Option (ℕ × ℕ))} (hp : k.poll slot regs h mem = (r, h'))
    (hr : ∀ e, r ≠ .ok (some e)) : Steady (k.queue h) (k.queue h') := by
  cases k <;> simp only [Kind.poll, Prod.mk.injEq] at hp <;> obtain ⟨h1, rfl⟩ := hp
  · exact virtioBlkPollUsed_steady (Prod.ext h1 rfl) hr
  · simp [Kind.queue, virtioNetPollUsed_steady (Prod.ext h1 rfl) hr, Steady.refl]
  · simp [Kind.queue, virtioNetPollUsed_steady (Prod.ext h1 rfl) hr, Steady.refl]

/-- What holds between the two ends of the queue in every run without an overrun. -/
structure Coupled (k : Kind) (q : ℕ) (s : System) : Prop where
  size : queueSizeOr64 (k.queue s.host).qsize = q
  avail : (k.queue s.host).availIdx = s.submitted.length % 65536
  used : (k.queue s.host).usedIdx = s.reported.length % 65536
  device : s.mem.usedIdx = s.done.length % 65536
  le : s.reported.length ≤ s.done.length
  ids : ∀ r p, s.submitted[r]? = some p → p = (r % 65536, headOf (r % 65536) q)
  known : ∀ r, r ∈ s.done → r < s.submitted.length
  unread : ∀ i r, s.reported.length ≤ i → s.done[i]? = some r →
    (s.mem.usedRing (deviceSlot q i)).1 = headOf (r % 65536) q
  read : ∀ i r e, k.pollSlot q i = deviceSlot q i → s.done[i]? = some r →
    s.reported[i]? = some e → e.1 = headOf (r % 65536) q

lemma wrappingAdd_mod (n : ℕ) : wrappingAdd (n % 65536) = (n+1) % 65536 := by
  unfold wrappingAdd
  omega

lemma headOf_lt {idx q : ℕ} (h : 0 < q) (h' : q < 65536) : headOf idx q < q := by
  unfold headOf
  rw [Nat.mod_eq_of_lt h']
  exact Nat.mod_lt idx h

theorem Fresh.coupled {k : Kind} {q : ℕ} {s : System} (h : Fresh k q s) : Coupled k q s where
  size := h.size
  avail := by simp [h.avail, h.submitted]
  used := by simp [h.used, h.reported]
  device := by simp [h.device, h.done]
  le := by simp [h.reported]
  ids := by simp [h.submitted]
  known := by simp [h.done]
  unread := by simp [h.done]
  read := by simp [h.done]

/-- Calls that move no counter keep the coupling. -/
lemma Coupled.steady {k : Kind} {q : ℕ} {s : System} {h : Host} (hc : Coupled k q s)
    (hs : Steady (k.queue s.host) (k.queue h)) : Coupled k q { s with host := h } :=
  { hc with
    size := hs.size.trans hc.size
    avail := hs.avail.trans hc.avail
    used := hs.used.trans hc.used }

lemma getElem?_append_one {α : Type*} {l : List α} {x y : α} {i : ℕ} (h : (l ++ [x])[i]? = some y) :
    l[i]? = some y ∨ (i = l.length ∧ x = y) := by
  grind

lemma Coupled.submit {k : Kind} {q : ℕ} {s : System} {h : Host} {mem : QueueMem} {id : ℕ}
    (hq : 0 < q) (hq' : q < 65536) (hc : Coupled k q s)
    (hs : Submitted (k.queue s.host) s.mem id (k.queue h) mem) :
    Coupled k q { s with
      host := h, mem := mem
      submitted := s.submitted ++ [(id, mem.availRing (deviceSlot q s.submitted.length))] } where
  size := hs.size.trans hc.size
  avail := by simp [hs.avail, hc.avail, wrappingAdd_mod]
  used := hs.used.trans hc.used
  device := hs.usedIdx.trans hc.device
  le := hc.le
  ids := by
    intro r p hp
    obtain hp | ⟨rfl, rfl⟩ := getElem?_append_one hp
    · exact hc.ids r p hp
    · have hentry := hs.entry
      rw [hc.size, hc.avail] at hentry
      have hlt : headOf (s.submitted.length % 65536) q < q := headOf_lt hq hq'
      rw [hs.id_eq, hc.avail, deviceSlot, hentry, Nat.mod_eq_of_lt (hlt.trans hq')]
  known := fun r hr => by
    have := hc.known r hr
    simp
    omega
  unread := by simpa [hs.usedRing] using hc.unread
  read := hc.read

lemma Coupled.complete {k : Kind} {q r len : ℕ} {s : System} {p : ℕ × ℕ} (hc : Coupled k q s)
    (hr : s.submitted[r]? = some p) (ho : NoOverrun q s (.complete r len)) :
    Coupled k q { s with mem := s.mem.complete q p.2 len, done := s.done ++ [r] } where
  size := hc.size
  avail := hc.avail
  used := hc.used
  device := by simp [QueueMem.complete, hc.device, wrappingAdd_mod]
  le := by
    have := hc.le
    simp
    omega
  ids := hc.ids
  known := by
    intro r' hr'
    obtain hr' | rfl : r' ∈ s.done ∨ r' = r := by simpa using hr'
    · exact hc.known r' hr'
    · exact (List.getElem?_eq_some_iff.mp hr).1
  unread := by
    intro i r' hi hr'
    obtain hr' | ⟨rfl, rfl⟩ := getElem?_append_one hr'
    · -- an earlier entry: the device wrote another slot
      have hlt : i < s.done.length := (List.getElem?_eq_some_iff.mp hr').1
      have hne := ho i hi hlt
      simp only [QueueMem.complete, Function.update_of_ne hne]
      exact hc.unread i r' hi hr'
    · simp [QueueMem.complete, deviceSlot, hc.device, hc.ids r p hr]
  read := by
    intro i r' e hslot hr' he
    have hlt : i < s.reported.length := (List.getElem?_eq_some_iff.mp he).1
    obtain hr' | ⟨rfl, -⟩ := getElem?_append_one hr'
    · exact hc.read i r' e hslot hr' he
    · exact absurd hlt (not_lt.mpr hc.le)

lemma Coupled.poll {k : Kind} {q : ℕ} {s : System} {h : Host} {e : ℕ × ℕ} (hc : Coupled k q s)
    (hp : Polled (k.pollModulus q) (k.queue s.host) s.mem e.1 (k.queue h)) :
    Coupled k q { s with host := h, reported := s.reported ++ [e] } where
  size := hp.size.trans hc.size
  avail := hp.avail.trans hc.avail
  used := by simp [hp.used, hc.used, wrappingAdd_mod]
  device := hc.device
  le := by
    -- a fresh used index means that the device is ahead of the polls
    have hne : s.reported.length ≠ s.done.length := by
      intro heq
      exact hp.fresh (by rw [hc.device, hc.used, heq])
    have := hc.le
    simp
    omega
  ids := hc.ids
  known := hc.known
  unread := fun i r hi hr => hc.unread i r (by simp at hi; omega) hr
  read := by
    intro i r e' hslot hr he
    obtain he | ⟨rfl, rfl⟩ := getElem?_append_one he
    · exact hc.read i r e' hslot hr he
    · rw [hp.id_eq, hc.used, ← hc.unread _ r le_rfl hr, ← hslot, Kind.pollSlot]

theorem Coupled.step {k : Kind} {q : ℕ} {s t : System} {a : Action} (hq : 0 < q) (hq' : q < 65536)
    (hc : Coupled k q s) (ho : NoOverrun q s a) (h : step k q s a = some t) : Coupled k q t := by
  cases a with
  | submit a =>
    rcases hsub : k.submit a s.host s.mem with ⟨_ | id, h', mem'⟩
    · simp only [Virtio.step, hsub, Option.some.injEq] at h
      subst h
      obtain ⟨hst, rfl⟩ := Kind.submit_error hsub
      exact hc.steady hst
    · simp only [Virtio.step, hsub, Option.some.injEq] at h
      subst h
      exact hc.submit hq hq' (Kind.submit_ok hsub)
  | complete r len =>
    simp only [Virtio.step] at h
    split_ifs at h with hdone
    obtain ⟨p, hp, rfl⟩ := Option.map_eq_some_iff.mp h
    exact hc.complete hp ho
  | poll slot regs =>
    simp only [Virtio.step] at h
    split at h
    case h_1 e h' hpoll =>
      cases h
      exact hc.poll (by simpa [hc.size] using Kind.poll_some hpoll)
    case h_2 r h' hne hpoll =>
      cases h
      exact hc.steady (Kind.poll_steady hpoll fun e he => hne e he)

/-- The `i`-th completion ended the request number `r`, and the driver can tell: the poll
reported the id that the submission returned, and the waiting side recognises it. -/
def Matched (k : Kind) (s : System) (i r : ℕ) : Prop :=
  ∃ id head e, s.submitted[r]? = some (id, head) ∧ s.reported[i]? = some e ∧ e.1 = id ∧
    k.recognises id e.1 = true

lemma mod_eq_headOf_iff {n q : ℕ} (hq : 0 < q) (hq' : q < 65536) :
    headOf (n % 65536) q = n % 65536 ↔ n % 65536 < q := by
  unfold headOf
  rw [Nat.mod_eq_of_lt hq']
  exact Nat.mod_eq_iff_lt hq.ne'

/-- A completion is matched exactly when its request's counter value is below the queue size:
the submission returns the free-running counter, the used ring holds the head. -/
theorem completion_matched_iff {k : Kind} {q : ℕ} {s₀ s : System} {as : List Action}
    (hq : 0 < q) (hq' : q < 65536) (h₀ : Fresh k q s₀)
    (hover : Along (step k q) (NoOverrun q) s₀ as) (hrun : run (step k q) s₀ as = some s)
    {i r : ℕ} (hi : i < s.reported.length) (hr : s.done[i]? = some r)
    (hslot : k.pollSlot q i = deviceSlot q i) : Matched k s i r ↔ r % 65536 < q := by
  have hc : Coupled k q s :=
    run_invariant (fun _ _ _ hI hG hs => Coupled.step hq hq' hI hG hs) h₀.coupled hover hrun
  obtain ⟨e, he⟩ : ∃ e, s.reported[i]? = some e := ⟨_, List.getElem?_eq_getElem hi⟩
  have hlt : r < s.submitted.length := hc.known r (List.mem_of_getElem? hr)
  obtain ⟨p, hp⟩ : ∃ p, s.submitted[r]? = some p := ⟨_, List.getElem?_eq_getElem hlt⟩
  have hpe := hc.ids r p hp
  have hee := hc.read i r e hslot hr he
  rw [← mod_eq_headOf_iff hq hq', ← hee]
  constructor
  · rintro ⟨id, head, e', hs', he', hid, -⟩
    rw [hp, Option.some.injEq] at hs'
    rw [he, Option.some.injEq] at he'
    subst he'
    rw [hid]
    exact congrArg Prod.fst (hs'.symm.trans hpe)
  · intro heq
    refine ⟨p.1, p.2, e, hp, he, ?_, ?_⟩
    · rw [heq, hpe]
    · rw [recognises_iff, heq, hpe]

/-- The registers of a ready block device. -/
def readyBlk : Regs :=
  { magic := magicH, version := 1, deviceId := deviceIdBlk, status := 0x0f, queueDesc := 0x50000000,
    queueAvail := 0x50001000, queueUsed := 0x50002000, capacity := 131072 }

/-- Slot 0 with a block queue of this size and zeroed queue pages. -/
def blkStart (qsize : ℕ) : System where
  host :=
    { blk := virtioBlkSaveQueue 0 ⟨⟨0, 0, 0, 0, 0, 0⟩, [], 0⟩ 0x50000000 0x50001000 0x50002000 qsize
      net := ⟨⟨0, 0, 0, 0, 0, 0⟩, ⟨0, 0, 0, 0, 0, 0⟩⟩ }
  mem := ⟨fun _ => ⟨0, 0, 0, 0⟩, 0, fun _ => 0, 0, fun _ => (0, 0)⟩
  submitted := []
  done := []
  reported := []

lemma blkStart_fresh {q : ℕ} (hq : q ≠ 0) : Fresh .blk q (blkStart q) where
  size := by simp [Kind.queue, blkStart, virtioBlkSaveQueue, slotValid, numSlotsH, queueSizeOr64, hq]
  avail := rfl
  used := rfl
  device := rfl
  submitted := rfl
  done := rfl
  reported := rfl

/-- Read block 0, let the device finish the request number `r`, poll. -/
def blkRound (r : ℕ) : List Action :=
  [.submit ⟨0, readyBlk, ⟨0x40100000, 0x40100010⟩, 0, 1, blkTIn, 0, 0x50003000, 4096⟩, .complete r 4097,
    .poll 0 readyBlk]

/-- With one request at a time the sixty-fifth read of a 64-entry queue returns the id 64, and
its completion reports 0. -/
theorem completion_unmatched_at_wrap :
    Fresh .blk 64 (blkStart 64) ∧
    ∃ s, run (step .blk 64) (blkStart 64) ((List.range 65).flatMap blkRound) = some s ∧
      64 < s.reported.length ∧ s.done[64]? = some 64 ∧ ¬ Matched .blk s 64 64 := by
  refine ⟨blkStart_fresh (by decide), ?_⟩
  have hobs : (run (step .blk 64) (blkStart 64) ((List.range 65).flatMap blkRound)).map
      (fun s => (s.submitted[64]?, s.done[64]?, s.reported[64]?)) =
      some (some (64, 0), some 64, some (0, 255)) := by decide +kernel
  obtain ⟨s, hs, hobs⟩ := Option.map_eq_some_iff.mp hobs
  simp only [Prod.mk.injEq] at hobs
  obtain ⟨hsub, hdone, hrep⟩ := hobs
  refine ⟨s, hs, (List.getElem?_eq_some_iff.mp hrep).1, hdone, ?_⟩
  rintro ⟨id, head, e, h1, h2, h3, -⟩
  rw [hsub] at h1
  rw [hrep] at h2
  simp only [Option.some.injEq, Prod.mk.injEq] at h1 h2
  rw [← h1.1, ← h2] at h3
  simp at h3

lemma noOverrun_of_drained {q : ℕ} {s : System} {a : Action} (h : s.done.length ≤ s.reported.length) :
    NoOverrun q s a := by
  cases a with
  | submit a => trivial
  | complete r len => exact fun i hi hi' => absurd hi' (by omega)
  | poll slot regs => trivial

lemma step_submit_history {k : Kind} {q : ℕ} {s t : System} {a : Request}
    (h : step k q s (.submit a) = some t) : t.done = s.done ∧ t.reported = s.reported := by
  rcases hsub : k.submit a s.host s.mem with ⟨_ | id, h', mem'⟩ <;>
    simp only [step, hsub, Option.some.injEq] at h <;> subst h <;> exact ⟨rfl, rfl⟩

/-- The first read is matched. -/
theorem completion_matched_first :
    ∃ s, run (step .blk 64) (blkStart 64) (blkRound 0) = some s ∧ Matched .blk s 0 0 := by
  have hrun : (run (step .blk 64) (blkStart 64) (blkRound 0)).map
      (fun s => (s.done[0]?, s.reported.length)) = some (some 0, 1) := by rfl
  obtain ⟨s, hs, hobs⟩ := Option.map_eq_some_iff.mp hrun
  simp only [Prod.mk.injEq] at hobs
  have hover : Along (step .blk 64) (NoOverrun 64) (blkStart 64) (blkRound 0) := by
    unfold blkRound
    refine ⟨trivial, fun t ht => ⟨?_, fun u _ => ⟨trivial, fun _ _ => trivial⟩⟩⟩
    obtain ⟨hdone, -⟩ := step_submit_history ht
    exact noOverrun_of_drained (by simp [hdone, blkStart])
  have hiff := completion_matched_iff (by decide) (by decide) (blkStart_fresh (by decide)) hover hs
    (by omega) hobs.1 rfl
  exact ⟨s, hs, hiff.mpr (by decide)⟩

end HouseKernel.Virtio
