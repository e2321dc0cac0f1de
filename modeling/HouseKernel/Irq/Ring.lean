import HouseKernel.Lib.Ring
import HouseKernel.Lib.Run

/-! The ring between the interrupt handler and the dispatcher, with one producer and one consumer. Every load and every
store is a step of its own, and the steps of the two are taken in any order. -/
namespace HouseKernel.Irq

open HouseKernel.Lib

abbrev Word := BitVec 32

def ringSz : ℕ := 256
def ringMask : ℕ := 255

/-- The slot of a counter. -/
def ringSlot (c : Word) : ℕ := c.toNat &&& ringMask

structure RingMem where
  ringBuf : ℕ → Word
  ringHead : Word
  ringTail : Word
  ringDrops : Word

/-- Where `house_irq_push` stands, with its local variables. Neither its acknowledgment of the device before the first
load nor the byte that it writes to the wake pipe at its end touches the ring. -/
inductive Push where
  | idle
  | loadHead (intid : Word)
  | loadTail (intid h : Word)
  | addDrop (intid : Word)
  | storeBuf (intid h : Word)
  | storeHead (intid h : Word)
  deriving DecidableEq

/-- Where `house_irq_pop` stands. -/
inductive Pop where
  | idle
  | loadTail
  | loadHead (t : Word)
  | loadBuf (t : Word)
  | storeTail (t v : Word)
  deriving DecidableEq

/-- What has happened: the ids that were pushed and popped, those that were refused, each with the number of ids that
the push found not yet released, the values that the pops returned, and what those without an id found. -/
structure History where
  accepted : List Word
  popped : List Word
  found : ℕ
  refused : List (Word × ℕ)
  returned : List Word
  empties : List ℕ

/-- The accepted ids that the consumer has not released. -/
def History.unreleased (g : History) : ℕ := g.accepted.length - g.popped.length

structure IrqRing where
  mem : RingMem
  push : Push
  pop : Pop
  hist : History

/-- The next load or store of a push that is under way. -/
def pushStep (s : IrqRing) : Option IrqRing :=
  match s.push with
  | .idle => none
  | .loadHead intid => some { s with push := .loadTail intid s.mem.ringHead }
  | .loadTail intid h =>
    let t := s.mem.ringTail
    some { s with
      push := if BitVec.ofNat 32 ringSz ≤ h - t then .addDrop intid else .storeBuf intid h
      hist := { s.hist with found := s.hist.unreleased } }
  | .addDrop intid =>
    some { s with
      mem := { s.mem with ringDrops := s.mem.ringDrops + 1 }
      push := .idle
      hist := { s.hist with refused := s.hist.refused ++ [(intid, s.hist.found)] } }
  | .storeBuf intid h =>
    some { s with
      mem := { s.mem with ringBuf := Function.update s.mem.ringBuf (ringSlot h) intid }
      push := .storeHead intid h }
  | .storeHead intid h =>
    some { s with
      mem := { s.mem with ringHead := h + 1 }
      push := .idle
      hist := { s.hist with accepted := s.hist.accepted ++ [intid] } }

/-- The next load or store of a pop that is under way. -/
def popStep (s : IrqRing) : Option IrqRing :=
  match s.pop with
  | .idle => none
  | .loadTail => some { s with pop := .loadHead s.mem.ringTail }
  | .loadHead t =>
    if t = s.mem.ringHead then
      some { s with
        pop := .idle
        hist := { s.hist with
          returned := s.hist.returned ++ [-1]
          empties := s.hist.empties ++ [s.hist.unreleased] } }
    else some { s with pop := .loadBuf t }
  | .loadBuf t => some { s with pop := .storeTail t (s.mem.ringBuf (ringSlot t)) }
  | .storeTail t v =>
    some { s with
      mem := { s.mem with ringTail := t + 1 }
      pop := .idle
      hist := { s.hist with
        popped := s.hist.popped ++ [v]
        returned := s.hist.returned ++ [v] } }

inductive RingAct where
  | houseIrqPush (intid : Word)
  | houseIrqPop
  | producer
  | consumer

/-- A call, or the next step of the producer or of the consumer. -/
def ringStep (s : IrqRing) : RingAct → Option IrqRing
  | .houseIrqPush intid => if s.push = .idle then some { s with push := .loadHead intid } else none
  | .houseIrqPop => if s.pop = .idle then some { s with pop := .loadTail } else none
  | .producer => pushStep s
  | .consumer => popStep s

def ringBoot : IrqRing := ⟨⟨fun _ => 0, 0, 0, 0⟩, .idle, .idle, ⟨[], [], 0, [], [], []⟩⟩

/-- The id of a push that has found a free slot. -/
def Push.pending : Push → List Word
  | .storeBuf intid _ => [intid]
  | .storeHead intid _ => [intid]
  | _ => []

/-- The id that stands in its slot and is not published. -/
def Push.written : Push → List Word
  | .storeHead intid _ => [intid]
  | _ => []

/-- The producer's copy of the head is the head. -/
def Push.Ok (mem : RingMem) (hist : History) : Push → Prop
  | .idle => True
  | .loadHead _ => True
  | .loadTail _ h => h = mem.ringHead
  | .addDrop _ => hist.found = ringSz
  | .storeBuf _ h => h = mem.ringHead
  | .storeHead _ h => h = mem.ringHead

/-- The consumer's copy of the tail is the tail, and the entry there is published when it has seen one. -/
def Pop.Ok (mem : RingMem) (hist : History) : Pop → Prop
  | .idle => True
  | .loadTail => True
  | .loadHead t => t = mem.ringTail
  | .loadBuf t => t = mem.ringTail ∧ hist.popped.length < hist.accepted.length
  | .storeTail t v => t = mem.ringTail ∧ hist.accepted[hist.popped.length]? = some v

structure IrqRing.Ok (s : IrqRing) : Prop where
  head : s.mem.ringHead = BitVec.ofNat 32 s.hist.accepted.length
  tail : s.mem.ringTail = BitVec.ofNat 32 s.hist.popped.length
  drops : s.mem.ringDrops = BitVec.ofNat 32 s.hist.refused.length
  fifo : s.hist.popped <+: s.hist.accepted
  room : (s.hist.accepted ++ s.push.pending).length ≤ s.hist.popped.length + ringSz
  window : Window ringSz s.mem.ringBuf (s.hist.accepted ++ s.push.written) s.hist.popped.length
  push : s.push.Ok s.mem s.hist
  pop : s.pop.Ok s.mem s.hist
  refused : ∀ r ∈ s.hist.refused, r.2 = ringSz
  empties : ∀ n ∈ s.hist.empties, n = 0
  returned : s.hist.returned.filter (· ≠ -1) = s.hist.popped.filter (· ≠ -1)

lemma ringSlot_eq (n : ℕ) : ringSlot (BitVec.ofNat 32 n) = n % ringSz := by
  rw [ringSlot, ringMask, Nat.and_two_pow_sub_one_eq_mod _ 8]
  exact counter_slot (by decide) n

theorem ringBoot_ok : ringBoot.Ok where
  head := rfl
  tail := rfl
  drops := rfl
  fifo := List.prefix_rfl
  room := Nat.zero_le _
  window := window_nil
  push := trivial
  pop := trivial
  refused := nofun
  empties := nofun
  returned := rfl

variable {s t : IrqRing}

namespace IrqRing.Ok

lemma popped_le (h : s.Ok) : s.hist.popped.length ≤ s.hist.accepted.length := h.fifo.length_le

lemma accepted_le (h : s.Ok) : s.hist.accepted.length ≤ s.hist.popped.length + ringSz := by
  have hroom := h.room
  rw [List.length_append] at hroom
  omega

/-- The producer's comparison is exact. -/
lemma full_iff (h : s.Ok) : BitVec.ofNat 32 ringSz ≤ s.mem.ringHead - s.mem.ringTail ↔
    s.hist.accepted.length = s.hist.popped.length + ringSz := by
  have hle := h.popped_le
  have hbound := h.accepted_le
  have hsz : ringSz = 256 := rfl
  rw [BitVec.le_def, h.head, h.tail, toNat_counter_sub hle (by omega)]
  change ringSz ≤ _ ↔ _
  omega

/-- The consumer's comparison is exact. -/
lemma empty_iff (h : s.Ok) : s.mem.ringTail = s.mem.ringHead ↔ s.hist.popped.length = s.hist.accepted.length := by
  have hbound := h.accepted_le
  have hsz : ringSz = 256 := rfl
  rw [h.head, h.tail]
  exact counter_eq_iff h.popped_le (by omega)

end IrqRing.Ok

lemma Push.Ok.same {mem mem' : RingMem} {g g' : History} {p : Push} (h : p.Ok mem g)
    (hhead : mem'.ringHead = mem.ringHead) (hfound : g'.found = g.found) : p.Ok mem' g' := by
  cases p with
  | idle => trivial
  | loadHead intid => trivial
  | loadTail intid hd => exact h.trans hhead.symm
  | addDrop intid => exact hfound.trans h
  | storeBuf intid hd => exact h.trans hhead.symm
  | storeHead intid hd => exact h.trans hhead.symm

/-- The consumer does not see more than what is already there when more is published. -/
lemma Pop.Ok.grow {mem mem' : RingMem} {g g' : History} {p : Pop} (h : p.Ok mem g)
    (htail : mem'.ringTail = mem.ringTail) (hpopped : g'.popped = g.popped) (hacc : g.accepted <+: g'.accepted) :
    p.Ok mem' g' := by
  cases p with
  | idle => trivial
  | loadTail => trivial
  | loadHead t => exact Eq.trans h htail.symm
  | loadBuf t => exact ⟨h.1.trans htail.symm, hpopped ▸ h.2.trans_le hacc.length_le⟩
  | storeTail t v =>
    refine ⟨h.1.trans htail.symm, ?_⟩
    obtain ⟨hlt, -⟩ := List.getElem?_eq_some_iff.mp h.2
    obtain ⟨rest, hrest⟩ := hacc
    rw [hpopped, ← hrest, List.getElem?_append_left hlt]
    exact h.2

/-- The room that the producer found is still there at its store, and what stands in the slot is what is published. -/
lemma pushStep_ok (h : s.Ok) (hstep : pushStep s = some t) : t.Ok := by
  have hpush := h.push
  have hroom := h.room
  have hwindow := h.window
  unfold pushStep at hstep
  cases hp : s.push with
  | idle =>
    rw [hp] at hstep
    cases hstep
  | loadHead intid =>
    rw [hp] at hstep hroom hwindow
    obtain rfl := Option.some.inj hstep
    exact { h with room := hroom, window := hwindow, push := rfl }
  | loadTail intid hd =>
    rw [hp] at hstep hroom hwindow hpush
    obtain rfl : hd = s.mem.ringHead := hpush
    obtain rfl := Option.some.inj hstep
    have hpop : s.pop.Ok s.mem { s.hist with found := s.hist.unreleased } := h.pop.grow rfl rfl List.prefix_rfl
    have hle := h.accepted_le
    dsimp only
    split_ifs with hfull
    · have hfound : s.hist.unreleased = ringSz := by
        have heq := h.full_iff.mp hfull
        rw [History.unreleased]
        omega
      exact { h with room := hroom, window := hwindow, push := hfound, pop := hpop }
    · have hlt := mt h.full_iff.mpr hfull
      have hspace : (s.hist.accepted ++ [intid]).length ≤ s.hist.popped.length + ringSz := by
        rw [List.length_append, List.length_singleton]
        omega
      exact { h with room := hspace, window := hwindow, push := rfl, pop := hpop }
  | addDrop intid =>
    rw [hp] at hstep hroom hwindow hpush
    obtain rfl := Option.some.inj hstep
    have hdrops : s.mem.ringDrops + 1 = BitVec.ofNat 32 (s.hist.refused ++ [(intid, s.hist.found)]).length := by
      rw [h.drops, counter_succ, List.length_append, List.length_singleton]
    have hrefused : ∀ r ∈ s.hist.refused ++ [(intid, s.hist.found)], r.2 = ringSz := by
      intro r hr
      obtain hr | hr := List.mem_append.mp hr
      · exact h.refused r hr
      · obtain rfl := List.mem_singleton.mp hr
        exact hpush
    exact { h with
      drops := hdrops
      room := hroom
      window := hwindow
      push := trivial
      pop := h.pop.grow rfl rfl List.prefix_rfl
      refused := hrefused }
  | storeBuf intid hd =>
    rw [hp] at hstep hroom hwindow hpush
    obtain rfl : hd = s.mem.ringHead := hpush
    obtain rfl := Option.some.inj hstep
    have hspace : s.hist.accepted.length < s.hist.popped.length + ringSz := by
      rw [Push.pending, List.length_append, List.length_singleton] at hroom
      omega
    have hwrite : Window ringSz (Function.update s.mem.ringBuf (ringSlot s.mem.ringHead) intid)
        (s.hist.accepted ++ [intid]) s.hist.popped.length := by
      have hentries : Window ringSz s.mem.ringBuf (s.hist.accepted ++ []) s.hist.popped.length := hwindow
      rw [List.append_nil] at hentries
      rw [h.head, ringSlot_eq]
      exact hentries.write hspace
    exact { h with room := hroom, window := hwrite, push := rfl, pop := h.pop.grow rfl rfl List.prefix_rfl }
  | storeHead intid hd =>
    rw [hp] at hstep hroom hwindow hpush
    obtain rfl : hd = s.mem.ringHead := hpush
    obtain rfl := Option.some.inj hstep
    have hhead : s.mem.ringHead + 1 = BitVec.ofNat 32 (s.hist.accepted ++ [intid]).length := by
      rw [h.head, counter_succ, List.length_append, List.length_singleton]
    have hspace : (s.hist.accepted ++ [intid] ++ []).length ≤ s.hist.popped.length + ringSz := by
      rw [List.append_nil]
      exact hroom
    have hentries : Window ringSz s.mem.ringBuf (s.hist.accepted ++ [intid] ++ []) s.hist.popped.length := by
      rw [List.append_nil]
      exact hwindow
    exact { h with
      head := hhead
      fifo := h.fifo.trans (List.prefix_append _ _)
      room := hspace
      window := hentries
      push := trivial
      pop := h.pop.grow rfl rfl (List.prefix_append _ _) }

lemma popStep_ok (h : s.Ok) (hstep : popStep s = some t) : t.Ok := by
  have hpop := h.pop
  unfold popStep at hstep
  cases hp : s.pop with
  | idle =>
    rw [hp] at hstep
    cases hstep
  | loadTail =>
    rw [hp] at hstep
    obtain rfl := Option.some.inj hstep
    exact { h with pop := rfl }
  | loadHead tl =>
    rw [hp] at hstep hpop
    obtain rfl : tl = s.mem.ringTail := hpop
    dsimp only at hstep
    split_ifs at hstep with hempty
    · obtain rfl := Option.some.inj hstep
      have hnone : s.hist.unreleased = 0 := by
        rw [History.unreleased, h.empty_iff.mp hempty, Nat.sub_self]
      have hempties : ∀ n ∈ s.hist.empties ++ [s.hist.unreleased], n = 0 := by
        intro n hn
        obtain hn | hn := List.mem_append.mp hn
        · exact h.empties n hn
        · exact (List.mem_singleton.mp hn).trans hnone
      have hreturned : (s.hist.returned ++ [-1]).filter (· ≠ -1) = s.hist.popped.filter (· ≠ -1) := by
        rw [List.filter_append, h.returned]
        exact List.append_nil _
      exact { h with
        push := h.push.same rfl rfl
        pop := trivial
        empties := hempties
        returned := hreturned }
    · obtain rfl := Option.some.inj hstep
      have hne := mt h.empty_iff.mpr hempty
      have hle := h.popped_le
      exact { h with pop := ⟨rfl, by dsimp only; omega⟩ }
  | loadBuf tl =>
    rw [hp] at hstep hpop
    obtain ⟨rfl, hlt⟩ : tl = s.mem.ringTail ∧ _ := hpop
    obtain rfl := Option.some.inj hstep
    have hentry := List.getElem?_eq_getElem hlt
    have hread : s.mem.ringBuf (ringSlot s.mem.ringTail) = s.hist.accepted[s.hist.popped.length] := by
      rw [h.tail, ringSlot_eq]
      refine h.window.read ?_
      rw [List.getElem?_append_left hlt, hentry]
    exact { h with pop := ⟨rfl, hread ▸ hentry⟩ }
  | storeTail tl v =>
    rw [hp] at hstep hpop
    obtain ⟨rfl, hv⟩ : tl = s.mem.ringTail ∧ _ := hpop
    obtain rfl := Option.some.inj hstep
    have htail : s.mem.ringTail + 1 = BitVec.ofNat 32 (s.hist.popped ++ [v]).length := by
      rw [h.tail, counter_succ, List.length_append, List.length_singleton]
    have hfifo : s.hist.popped ++ [v] <+: s.hist.accepted := concat_prefix h.fifo hv
    have hlen : (s.hist.popped ++ [v]).length = s.hist.popped.length + 1 := by
      rw [List.length_append, List.length_singleton]
    have hspace : (s.hist.accepted ++ s.push.pending).length ≤ (s.hist.popped ++ [v]).length + ringSz := by
      have hroom := h.room
      omega
    have hwindow : Window ringSz s.mem.ringBuf (s.hist.accepted ++ s.push.written) (s.hist.popped ++ [v]).length := by
      rw [hlen]
      exact h.window.pass
    have hreturned : (s.hist.returned ++ [v]).filter (· ≠ -1) = (s.hist.popped ++ [v]).filter (· ≠ -1) := by
      rw [List.filter_append, List.filter_append, h.returned]
    exact { h with
      tail := htail
      fifo := hfifo
      room := hspace
      window := hwindow
      push := h.push.same rfl rfl
      pop := trivial
      returned := hreturned }

theorem ringStep_ok {a : RingAct} (h : s.Ok) (hstep : ringStep s a = some t) : t.Ok := by
  cases a with
  | houseIrqPush intid =>
    rw [ringStep] at hstep
    split_ifs at hstep with hidle
    obtain rfl := Option.some.inj hstep
    have hroom := h.room
    have hwindow := h.window
    rw [hidle] at hroom hwindow
    exact { h with room := hroom, window := hwindow, push := trivial }
  | houseIrqPop =>
    rw [ringStep] at hstep
    split_ifs at hstep with hidle
    obtain rfl := Option.some.inj hstep
    exact { h with pop := trivial }
  | producer => exact pushStep_ok h hstep
  | consumer => exact popStep_ok h hstep

/-- In every run the ids come out in the order in which they went in, and none is lost: at most as many as the ring has
slots are under way, the counter of drops has the refused pushes, each of which found that many ids, and a pop finds
nothing only when nothing is there. The values that the pops return are the ids, but for the one that reads like the
mark of an empty ring. -/
theorem irq_ring_fifo {acts : List RingAct} (h : run ringStep ringBoot acts = some s) :
    s.hist.popped <+: s.hist.accepted ∧
    (s.hist.accepted ++ s.push.pending).length ≤ s.hist.popped.length + 256 ∧
    s.mem.ringDrops = BitVec.ofNat 32 s.hist.refused.length ∧ (∀ r ∈ s.hist.refused, r.2 = 256) ∧
    (∀ n ∈ s.hist.empties, n = 0) ∧ s.hist.returned.filter (· ≠ -1) = s.hist.popped.filter (· ≠ -1) := by
  have hok : s.Ok := by
    refine run_invariant (G := fun _ _ => True) (fun _ _ _ hs _ hstep => ringStep_ok hs hstep) ringBoot_ok ?_ h
    exact along_of_forall (fun _ _ => trivial) _ _
  exact ⟨hok.fifo, hok.room, hok.drops, hok.refused, hok.empties, hok.returned⟩

/-- The steps of a push that finds room. -/
def pushOf (intid : Word) : List RingAct := .houseIrqPush intid :: List.replicate 4 .producer

/-- The ring is filled and refuses an id; a pop takes its first id between the steps of a push that is
refused as well, and the push after it is accepted. -/
def pushesPastFull : List RingAct :=
  (List.range 256).flatMap (fun i => pushOf (BitVec.ofNat 32 (32+i))) ++
    [.houseIrqPush 288, .producer, .producer, .producer,
      .houseIrqPop, .consumer, .houseIrqPush 289, .producer, .consumer, .producer, .consumer, .producer, .consumer] ++
    pushOf 290 ++ [.houseIrqPop, .consumer, .consumer, .consumer, .consumer]

theorem irq_ring_fifo_full : ∃ s, run ringStep ringBoot pushesPastFull = some s ∧ s.hist.popped = [32, 33] ∧
    s.hist.accepted.length = 257 ∧ s.hist.refused = [(288, 256), (289, 256)] ∧
    s.hist.popped <+: s.hist.accepted ∧ s.mem.ringDrops = 2 := by
  have hhist : (run ringStep ringBoot pushesPastFull).map
      (fun s => (s.hist.popped, s.hist.accepted.length, s.hist.refused)) =
      some ([32, 33], 257, [(288, 256), (289, 256)]) := by decide +kernel
  obtain ⟨s, hrun, hhist⟩ := Option.map_eq_some_iff.mp hhist
  simp only [Prod.mk.injEq] at hhist
  obtain ⟨hpopped, hlen, hrefused⟩ := hhist
  obtain ⟨hfifo, -, hdrops, -⟩ := irq_ring_fifo hrun
  exact ⟨s, hrun, hpopped, hlen, hrefused, hfifo, by rw [hdrops, hrefused]; rfl⟩

end HouseKernel.Irq
