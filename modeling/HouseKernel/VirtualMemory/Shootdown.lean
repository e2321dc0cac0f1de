import Mathlib.Tactic
import HouseKernel.Lib.Run

/-! The TLB shootdown protocol. A requester stamps a generation, interrupts the cores that were
online and waits until each has published an acknowledgement that reaches its generation; a
handler reads the generation, flushes, and publishes what it read. Generations are 32-bit words
compared by half ranges, and beside them stand the numbers they would be without wrapping. -/
namespace HouseKernel.VirtualMemory

open HouseKernel.Lib

abbrev Core := Fin 32

instance neZero_core : NeZero 32 := ⟨by decide⟩

def ackSatisfies (ack seq : BitVec 32) : Bool := (ack - seq).toNat < 0x80000000

/-- Where a call of `house_tlb_shootdown` stands; a list names the cores its loop has still to
visit. -/
inductive ShootdownPhase where
  | masked (mask : Finset Core)
  | sending (seq : BitVec 32) (mask : Finset Core) (todo : List Core) (pending : Finset Core)
  | waiting (seq : BitVec 32) (todo : List Core) (pending : Finset Core)
  | returned
  deriving DecidableEq

/-- Where the SGI 1 handler of a core stands, with the generation it has read. -/
inductive FlushHandler where
  | idle
  | read (seq : BitVec 32) (gen : ℕ)
  | flushed (seq : BitVec 32) (gen : ℕ)
  deriving DecidableEq

/-- A call by core `me`. Besides the phase: the unwrapped generation it has drawn, the cores of its
mask that have been online ever since, and the cores that have flushed since it drew. -/
structure ShootdownCall where
  me : Core
  phase : ShootdownPhase
  gen : ℕ
  stayed : Finset Core
  flushed : Finset Core
  deriving DecidableEq

structure TlbWorld where
  seq : BitVec 32
  ack : Core → BitVec 32
  online : Finset Core
  /-- Cores on which SGI 1 is pending; a second one changes nothing. -/
  sgi : Finset Core
  handler : Core → FlushHandler
  calls : ℕ → Option ShootdownCall
  /-- The generation and the acknowledgements without wrapping. -/
  gen : ℕ
  ackGen : Core → ℕ

inductive TlbAction where
  | call (id : ℕ) (me : Core)
  | step (id : ℕ)
  | irq (c : Core)
  | flush (c : Core)
  | publish (c : Core)
  | offline (c : Core)
  | online (c : Core)
  deriving DecidableEq

/-- The call has drawn its generation and waits for the flush of its peers. -/
def ShootdownPhase.drawn : ShootdownPhase → Bool
  | .masked _ => false
  | .sending _ _ _ _ => true
  | .waiting _ _ _ => true
  | .returned => false

/-- A core has flushed. -/
def ShootdownCall.sawFlush (c : Core) (call : ShootdownCall) : ShootdownCall :=
  if call.phase.drawn then { call with flushed := insert c call.flushed } else call

/-- A core has gone offline. -/
def ShootdownCall.sawOffline (c : Core) (call : ShootdownCall) : ShootdownCall :=
  if call.phase = .returned then call else { call with stayed := call.stayed.erase c }

def TlbWorld.setCall (w : TlbWorld) (id : ℕ) (call : ShootdownCall) : TlbWorld :=
  { w with calls := Function.update w.calls id (some call) }

/-- The next step of a call: draw a generation, interrupt a peer, look at a peer's
acknowledgement, or drop the peers that are offline. -/
def shootdownStep (w : TlbWorld) (id : ℕ) (call : ShootdownCall) : Option TlbWorld :=
  match call.phase with
  | .masked mask =>
    let seq := w.seq + 1
    some ({ w with seq := seq, gen := w.gen + 1 }.setCall id
      { call with phase := .sending seq mask (List.finRange 32) ∅, gen := w.gen + 1 })
  | .sending seq mask (c :: todo) pending =>
    if c ≠ call.me ∧ c ∈ mask then
      some ({ w with sgi := insert c w.sgi }.setCall id
        { call with phase := .sending seq mask todo (insert c pending) })
    else some (w.setCall id { call with phase := .sending seq mask todo pending })
  | .sending seq _ [] pending =>
    some (w.setCall id { call with
      phase := if pending = ∅ then .returned else .waiting seq (List.finRange 32) pending })
  | .waiting seq (c :: todo) pending =>
    let pending := if c ∈ pending ∧ ackSatisfies (w.ack c) seq then pending.erase c else pending
    some (w.setCall id { call with phase := .waiting seq todo pending })
  | .waiting seq [] pending =>
    let pending := pending ∩ w.online
    some (w.setCall id { call with
      phase := if pending = ∅ then .returned else .waiting seq (List.finRange 32) pending })
  | .returned => none

def tlbStep (w : TlbWorld) : TlbAction → Option TlbWorld
  | .call id me =>
    if w.calls id = none then some (w.setCall id ⟨me, .masked w.online, 0, w.online, ∅⟩) else none
  | .step id => (w.calls id).bind (shootdownStep w id)
  | .irq c =>
    if c ∈ w.sgi ∧ w.handler c = .idle then
      some { w with sgi := w.sgi.erase c, handler := Function.update w.handler c (.read w.seq w.gen) }
    else none
  | .flush c =>
    match w.handler c with
    | .read seq gen =>
      some { w with
        handler := Function.update w.handler c (.flushed seq gen)
        calls := fun id => (w.calls id).map (ShootdownCall.sawFlush c) }
    | _ => none
  | .publish c =>
    match w.handler c with
    | .flushed seq gen =>
      some { w with
        handler := Function.update w.handler c .idle
        ack := Function.update w.ack c seq
        ackGen := Function.update w.ackGen c gen }
    | _ => none
  | .offline c =>
    some { w with online := w.online.erase c, calls := fun id => (w.calls id).map (ShootdownCall.sawOffline c) }
  | .online c => some { w with online := insert c w.online }

def tlbBoot (online : Finset Core) : TlbWorld :=
  ⟨0, fun _ => 0, online, ∅, fun _ => .idle, fun _ => none, 0, fun _ => 0⟩

/-- A call that has returned was answered by every peer that stayed online. -/
def Covered (w : TlbWorld) : Prop :=
  ∀ id call, w.calls id = some call → call.phase = .returned →
    ∀ c ∈ call.stayed, c ≠ call.me → c ∈ call.flushed

/-- An acknowledgement that the next step looks at, if it is behind the call, is behind by no more
than half the range, up to whole turns of the counter. -/
def RecentAt (w : TlbWorld) (gen : ℕ) : ShootdownPhase → Prop
  | .waiting _ (c :: _) pending => c ∈ pending → w.ackGen c < gen →
    0 < (gen - w.ackGen c) % 2 ^ 32 ∧ (gen - w.ackGen c) % 2 ^ 32 ≤ 2 ^ 31
  | _ => True

def Recent (w : TlbWorld) : TlbAction → Prop
  | .step id => ∀ call ∈ w.calls id, RecentAt w call.gen call.phase
  | _ => True

theorem toNat_ack_sub (a g : ℕ) :
    (BitVec.ofNat 32 a - BitVec.ofNat 32 g).toNat = (2 ^ 32 - g % 2 ^ 32 + a % 2 ^ 32) % 2 ^ 32 := by
  rw [BitVec.toNat_sub, BitVec.toNat_ofNat, BitVec.toNat_ofNat]

/-- An acknowledgement that is taken for recent, and is not too far behind, is recent. -/
theorem le_of_ackSatisfies {a g : ℕ} (h : ackSatisfies (BitVec.ofNat 32 a) (BitVec.ofNat 32 g) = true)
    (hrecent : a < g → 0 < (g - a) % 2 ^ 32 ∧ (g - a) % 2 ^ 32 ≤ 2 ^ 31) : g ≤ a := by
  have hlt : (2 ^ 32 - g % 2 ^ 32 + a % 2 ^ 32) % 2 ^ 32 < 0x80000000 := by
    rw [← toNat_ack_sub]
    simpa [ackSatisfies] using h
  by_contra hbehind
  obtain ⟨hpos, hhalf⟩ := hrecent (by omega)
  omega

/-- The generation that a handler has read is one that was drawn. -/
def HandlerOk (gen : ℕ) : FlushHandler → Prop
  | .idle => True
  | .read seq g => seq = BitVec.ofNat 32 g ∧ g ≤ gen
  | .flushed seq g => seq = BitVec.ofNat 32 g ∧ g ≤ gen

/-- Every peer that has stayed online is still to be interrupted, waited for, or has flushed. -/
def PhaseOk (gen : ℕ) (call : ShootdownCall) : ShootdownPhase → Prop
  | .masked mask => call.stayed ⊆ mask
  | .sending seq mask todo pending => seq = BitVec.ofNat 32 call.gen ∧ call.gen ≤ gen ∧
    ∀ c ∈ call.stayed, c ≠ call.me → c ∈ pending ∨ c ∈ todo ∧ c ∈ mask
  | .waiting seq _ pending => seq = BitVec.ofNat 32 call.gen ∧ call.gen ≤ gen ∧
    ∀ c ∈ call.stayed, c ≠ call.me → c ∈ pending ∨ c ∈ call.flushed
  | .returned => ∀ c ∈ call.stayed, c ≠ call.me → c ∈ call.flushed

structure CallOk (w : TlbWorld) (call : ShootdownCall) : Prop where
  phase : PhaseOk w.gen call call.phase
  stayed : call.phase ≠ .returned → call.stayed ⊆ w.online
  acked : call.phase.drawn = true → ∀ c, call.gen ≤ w.ackGen c → c ∈ call.flushed
  handled : call.phase.drawn = true → ∀ c seq g, w.handler c = .flushed seq g → call.gen ≤ g → c ∈ call.flushed

structure TlbWorld.Ok (w : TlbWorld) : Prop where
  seq : w.seq = BitVec.ofNat 32 w.gen
  ack : ∀ c, w.ack c = BitVec.ofNat 32 (w.ackGen c) ∧ w.ackGen c ≤ w.gen
  handler : ∀ c, HandlerOk w.gen (w.handler c)
  calls : ∀ id call, w.calls id = some call → CallOk w call

theorem tlbBoot_ok (online : Finset Core) : (tlbBoot online).Ok where
  seq := rfl
  ack := fun _ => ⟨rfl, Nat.le_refl _⟩
  handler := fun _ => trivial
  calls := nofun

theorem covered_of_ok {w : TlbWorld} (h : w.Ok) : Covered w := by
  intro id call hcall hreturned
  have hphase := (h.calls id call hcall).phase
  rw [hreturned] at hphase
  exact hphase

theorem HandlerOk.mono {gen gen' : ℕ} (hle : gen ≤ gen') {h : FlushHandler} (hok : HandlerOk gen h) :
    HandlerOk gen' h := by
  cases h with
  | idle => trivial
  | read seq g => exact ⟨hok.1, hok.2.trans hle⟩
  | flushed seq g => exact ⟨hok.1, hok.2.trans hle⟩

theorem PhaseOk.mono {gen gen' : ℕ} (hle : gen ≤ gen') {call : ShootdownCall} {phase : ShootdownPhase}
    (hok : PhaseOk gen call phase) : PhaseOk gen' call phase := by
  cases phase with
  | masked mask => exact hok
  | sending seq mask todo pending => exact ⟨hok.1, hok.2.1.trans hle, hok.2.2⟩
  | waiting seq todo pending => exact ⟨hok.1, hok.2.1.trans hle, hok.2.2⟩
  | returned => exact hok

/-- Fewer peers to answer for, and more flushes, leave a phase as good as it was. -/
theorem PhaseOk.weaken {gen : ℕ} {call call' : ShootdownCall} {phase : ShootdownPhase} (hok : PhaseOk gen call phase)
    (hme : call'.me = call.me) (hgen : call'.gen = call.gen) (hstayed : call'.stayed ⊆ call.stayed)
    (hflushed : call.flushed ⊆ call'.flushed) : PhaseOk gen call' phase := by
  cases phase with
  | masked mask => exact hstayed.trans hok
  | sending seq mask todo pending =>
    obtain ⟨hseq, hle, hpeers⟩ := hok
    refine ⟨by rw [hgen, hseq], by rwa [hgen], fun c hc hne => hpeers c (hstayed hc) ?_⟩
    rwa [← hme]
  | waiting seq todo pending =>
    obtain ⟨hseq, hle, hpeers⟩ := hok
    refine ⟨by rw [hgen, hseq], by rwa [hgen], fun c hc hne => (hpeers c (hstayed hc) ?_).imp_right (hflushed ·)⟩
    rwa [← hme]
  | returned =>
    intro c hc hne
    rw [hme] at hne
    exact hflushed (hok c (hstayed hc) hne)

/-- A step of one call: its own state is what it has become, and the others only see the counter. -/
theorem ok_setCall {w : TlbWorld} (hw : w.Ok) {seq : BitVec 32} {gen : ℕ} {sgi : Finset Core} {id : ℕ}
    {call : ShootdownCall} (hle : w.gen ≤ gen) (hseq : seq = BitVec.ofNat 32 gen)
    (hcall : CallOk { w with seq := seq, gen := gen } call) :
    ({ w with seq := seq, gen := gen, sgi := sgi }.setCall id call).Ok where
  seq := hseq
  ack := fun c => ⟨(hw.ack c).1, (hw.ack c).2.trans hle⟩
  handler := fun c => (hw.handler c).mono hle
  calls := by
    intro id' call' hcall'
    simp only [TlbWorld.setCall] at hcall'
    by_cases hid : id' = id
    · subst hid
      rw [Function.update_self] at hcall'
      obtain rfl := Option.some.inj hcall'
      exact ⟨hcall.phase, hcall.stayed, hcall.acked, hcall.handled⟩
    · rw [Function.update_of_ne hid] at hcall'
      have hok := hw.calls id' call' hcall'
      exact ⟨hok.phase.mono hle, hok.stayed, hok.acked, hok.handled⟩

/-- A call that has drawn goes on with the peers that it had. -/
theorem CallOk.next {w : TlbWorld} {call : ShootdownCall} (hok : CallOk w call) (hdrawn : call.phase.drawn = true)
    {phase : ShootdownPhase} (hphase : PhaseOk w.gen { call with phase := phase } phase) :
    CallOk w { call with phase := phase } where
  phase := hphase
  stayed := by
    intro _
    apply hok.stayed
    intro hreturned
    rw [hreturned] at hdrawn
    cases hdrawn
  acked := fun _ => hok.acked hdrawn
  handled := fun _ => hok.handled hdrawn

theorem shootdownStep_ok {w t : TlbWorld} (hw : w.Ok) {id : ℕ} {call : ShootdownCall} (hcall : w.calls id = some call)
    (hrecent : Recent w (.step id)) (h : shootdownStep w id call = some t) : t.Ok := by
  have hok := hw.calls id call hcall
  have hlook := hrecent call hcall
  obtain ⟨me, phase, gen, stayed, flushed⟩ := call
  have hphase := hok.phase
  cases phase with
  | masked mask =>
    obtain rfl := Option.some.inj h
    have hnext : w.seq + 1 = BitVec.ofNat 32 (w.gen + 1) := by
      rw [hw.seq]
      apply BitVec.eq_of_toNat_eq
      simp
    refine ok_setCall hw (Nat.le_succ _) hnext ⟨⟨hnext, Nat.le_refl _, ?_⟩, ?_, ?_, ?_⟩
    · exact fun c hc _ => .inr ⟨List.mem_finRange c, hphase hc⟩
    · exact fun _ => hok.stayed nofun
    -- nothing that was read before the draw reaches the new generation
    · intro _ c hreach
      exact absurd ((Nat.lt_succ_of_le (hw.ack c).2).trans_le hreach) (Nat.lt_irrefl _)
    · intro _ c seq g hflushed hreach
      have hhandler := hw.handler c
      rw [hflushed] at hhandler
      exact absurd ((Nat.lt_succ_of_le hhandler.2).trans_le hreach) (Nat.lt_irrefl _)
  | sending seq mask todo pending =>
    obtain ⟨hseq, hgen, hpeers⟩ := hphase
    cases todo with
    | nil =>
      obtain rfl := Option.some.inj h
      have hpending : ∀ c ∈ stayed, c ≠ me → c ∈ pending :=
        fun c hc hme => (hpeers c hc hme).resolve_right fun htodo => List.not_mem_nil htodo.1
      refine ok_setCall hw (Nat.le_refl _) hw.seq (hok.next rfl ?_)
      split_ifs with hnone
      · intro c hc hme
        exact absurd (hnone ▸ hpending c hc hme) (Finset.notMem_empty c)
      · exact ⟨hseq, hgen, fun c hc hme => .inl (hpending c hc hme)⟩
    | cons d todo =>
      simp only [shootdownStep] at h
      split_ifs at h with hsend
      · obtain rfl := Option.some.inj h
        refine ok_setCall hw (Nat.le_refl _) hw.seq (hok.next rfl ⟨hseq, hgen, fun c hc hme => ?_⟩)
        obtain hc | ⟨hc, hmask⟩ := hpeers c hc hme
        · exact .inl (Finset.mem_insert_of_mem hc)
        · obtain rfl | hc := List.mem_cons.mp hc
          · exact .inl (Finset.mem_insert_self _ _)
          · exact .inr ⟨hc, hmask⟩
      · obtain rfl := Option.some.inj h
        refine ok_setCall hw (Nat.le_refl _) hw.seq (hok.next rfl ⟨hseq, hgen, fun c hc hme => ?_⟩)
        obtain hc | ⟨hc, hmask⟩ := hpeers c hc hme
        · exact .inl hc
        · obtain rfl | hc := List.mem_cons.mp hc
          · exact absurd ⟨hme, hmask⟩ hsend
          · exact .inr ⟨hc, hmask⟩
  | waiting seq todo pending =>
    obtain ⟨hseq, hgen, hpeers⟩ := hphase
    cases todo with
    | nil =>
      obtain rfl := Option.some.inj h
      have hstayed := hok.stayed nofun
      have hpeers' : ∀ c ∈ stayed, c ≠ me → c ∈ pending ∩ w.online ∨ c ∈ flushed :=
        fun c hc hme => (hpeers c hc hme).imp_left fun hp => Finset.mem_inter_of_mem hp (hstayed hc)
      refine ok_setCall hw (Nat.le_refl _) hw.seq (hok.next rfl ?_)
      split_ifs with hnone
      · refine fun c hc hme => (hpeers' c hc hme).resolve_left fun hp => ?_
        exact absurd (hnone ▸ hp) (Finset.notMem_empty c)
      · exact ⟨hseq, hgen, hpeers'⟩
    | cons d todo =>
      obtain rfl := Option.some.inj h
      refine ok_setCall hw (Nat.le_refl _) hw.seq (hok.next rfl ⟨hseq, hgen, fun c hc hme => ?_⟩)
      obtain hp | hf := hpeers c hc hme
      · split_ifs with hack
        · obtain rfl | hne := eq_or_ne c d
          · right
            apply hok.acked rfl
            have hsat := hack.2
            rw [(hw.ack c).1, hseq] at hsat
            exact le_of_ackSatisfies hsat fun hlt => hlook hp hlt
          · exact .inl (Finset.mem_erase_of_ne_of_mem hne hp)
        · exact .inl hp
      · exact .inr hf
  | returned => cases h

theorem ok_call {w : TlbWorld} (hw : w.Ok) (id : ℕ) (me : Core) :
    (w.setCall id ⟨me, .masked w.online, 0, w.online, ∅⟩).Ok :=
  ok_setCall hw (Nat.le_refl _) hw.seq ⟨fun _ h => h, fun _ _ h => h, nofun, nofun⟩

theorem ok_irq {w : TlbWorld} (hw : w.Ok) (c : Core) :
    TlbWorld.Ok { w with sgi := w.sgi.erase c, handler := Function.update w.handler c (.read w.seq w.gen) } where
  seq := hw.seq
  ack := hw.ack
  handler := by
    intro d
    obtain rfl | hne := eq_or_ne d c
    · simp only [Function.update_self]
      exact ⟨hw.seq, Nat.le_refl _⟩
    · simp only [Function.update_of_ne hne]
      exact hw.handler d
  calls := by
    intro id call hcall
    have hok := hw.calls id call hcall
    refine ⟨hok.phase, hok.stayed, hok.acked, fun hdrawn d seq g hflushed => ?_⟩
    obtain rfl | hne := eq_or_ne d c
    · simp only [Function.update_self] at hflushed
      cases hflushed
    · simp only [Function.update_of_ne hne] at hflushed
      exact hok.handled hdrawn d seq g hflushed

/-- A flush is seen by every call that has drawn. -/
theorem ok_flush {w : TlbWorld} (hw : w.Ok) {c : Core} {seq : BitVec 32} {gen : ℕ} (hread : w.handler c = .read seq gen) :
    TlbWorld.Ok { w with
      handler := Function.update w.handler c (.flushed seq gen)
      calls := fun id => (w.calls id).map (ShootdownCall.sawFlush c) } where
  seq := hw.seq
  ack := hw.ack
  handler := by
    intro d
    obtain rfl | hne := eq_or_ne d c
    · have hold := hw.handler d
      rw [hread] at hold
      simp only [Function.update_self]
      exact hold
    · simp only [Function.update_of_ne hne]
      exact hw.handler d
  calls := by
    intro id call hcall
    obtain ⟨old, hold, rfl⟩ := Option.map_eq_some_iff.mp hcall
    have hok := hw.calls id old hold
    unfold ShootdownCall.sawFlush
    split_ifs with hdrawn
    · have hphase : PhaseOk w.gen { old with flushed := insert c old.flushed } old.phase :=
        hok.phase.weaken rfl rfl (Finset.Subset.refl _) (Finset.subset_insert _ _)
      refine ⟨hphase, hok.stayed, ?_, ?_⟩
      · exact fun _ d hreach => Finset.mem_insert_of_mem (hok.acked hdrawn d hreach)
      · intro _ d seq' g hflushed hreach
        obtain rfl | hne := eq_or_ne d c
        · exact Finset.mem_insert_self _ _
        · simp only [Function.update_of_ne hne] at hflushed
          exact Finset.mem_insert_of_mem (hok.handled hdrawn d seq' g hflushed hreach)
    · exact ⟨hok.phase, hok.stayed, fun h => absurd h hdrawn, fun h => absurd h hdrawn⟩

/-- What is published is the acknowledgement of a flush that was seen. -/
theorem ok_publish {w : TlbWorld} (hw : w.Ok) {c : Core} {seq : BitVec 32} {gen : ℕ}
    (hflushed : w.handler c = .flushed seq gen) : TlbWorld.Ok { w with
      handler := Function.update w.handler c .idle
      ack := Function.update w.ack c seq
      ackGen := Function.update w.ackGen c gen } where
  seq := hw.seq
  ack := by
    intro d
    obtain rfl | hne := eq_or_ne d c
    · have hold := hw.handler d
      rw [hflushed] at hold
      simp only [Function.update_self]
      exact hold
    · simp only [Function.update_of_ne hne]
      exact hw.ack d
  handler := by
    intro d
    obtain rfl | hne := eq_or_ne d c
    · simp only [Function.update_self]
      trivial
    · simp only [Function.update_of_ne hne]
      exact hw.handler d
  calls := by
    intro id call hcall
    have hok := hw.calls id call hcall
    refine ⟨hok.phase, hok.stayed, ?_, ?_⟩
    · intro hdrawn d hreach
      obtain rfl | hne := eq_or_ne d c
      · simp only [Function.update_self] at hreach
        exact hok.handled hdrawn d seq gen hflushed hreach
      · simp only [Function.update_of_ne hne] at hreach
        exact hok.acked hdrawn d hreach
    · intro hdrawn d seq' g hd
      obtain rfl | hne := eq_or_ne d c
      · simp only [Function.update_self] at hd
        cases hd
      · simp only [Function.update_of_ne hne] at hd
        exact hok.handled hdrawn d seq' g hd

theorem ok_offline {w : TlbWorld} (hw : w.Ok) (c : Core) : TlbWorld.Ok { w with
    online := w.online.erase c
    calls := fun id => (w.calls id).map (ShootdownCall.sawOffline c) } where
  seq := hw.seq
  ack := hw.ack
  handler := hw.handler
  calls := by
    intro id call hcall
    obtain ⟨old, hold, rfl⟩ := Option.map_eq_some_iff.mp hcall
    have hok := hw.calls id old hold
    unfold ShootdownCall.sawOffline
    split_ifs with hreturned
    · exact ⟨hok.phase, fun h => absurd hreturned h, hok.acked, hok.handled⟩
    · have hphase : PhaseOk w.gen { old with stayed := old.stayed.erase c } old.phase :=
        hok.phase.weaken rfl rfl (Finset.erase_subset _ _) (Finset.Subset.refl _)
      exact ⟨hphase, fun h => Finset.erase_subset_erase c (hok.stayed h), hok.acked, hok.handled⟩

theorem ok_online {w : TlbWorld} (hw : w.Ok) (c : Core) : TlbWorld.Ok { w with online := insert c w.online } where
  seq := hw.seq
  ack := hw.ack
  handler := hw.handler
  calls := by
    intro id call hcall
    have hok := hw.calls id call hcall
    exact ⟨hok.phase, fun h => (hok.stayed h).trans (Finset.subset_insert _ _), hok.acked, hok.handled⟩

theorem tlbStep_ok {w t : TlbWorld} {a : TlbAction} (hw : w.Ok) (hrecent : Recent w a) (h : tlbStep w a = some t) :
    t.Ok := by
  cases a with
  | call id me =>
    simp only [tlbStep] at h
    split_ifs at h
    obtain rfl := Option.some.inj h
    exact ok_call hw id me
  | step id =>
    obtain ⟨call, hcall, hstep⟩ := Option.bind_eq_some_iff.mp h
    exact shootdownStep_ok hw hcall hrecent hstep
  | irq c =>
    simp only [tlbStep] at h
    split_ifs at h
    obtain rfl := Option.some.inj h
    exact ok_irq hw c
  | flush c =>
    simp only [tlbStep] at h
    split at h
    · next seq gen hread =>
      obtain rfl := Option.some.inj h
      exact ok_flush hw hread
    · cases h
  | publish c =>
    simp only [tlbStep] at h
    split at h
    · next seq gen hflushed =>
      obtain rfl := Option.some.inj h
      exact ok_publish hw hflushed
    · cases h
  | offline c =>
    obtain rfl := Option.some.inj h
    exact ok_offline hw c
  | online c =>
    obtain rfl := Option.some.inj h
    exact ok_online hw c

/-- In every run in which no acknowledgement that a call looks at is too far behind it, a call
returns only when every peer that stayed online has flushed since its draw. -/
theorem shootdown_covers_peers (online : Finset Core) (as : List TlbAction) (w : TlbWorld)
    (hrecent : Along tlbStep Recent (tlbBoot online) as) (h : run tlbStep (tlbBoot online) as = some w) : Covered w :=
  covered_of_ok (run_invariant (fun _ _ _ hw hrecent hstep => tlbStep_ok hw hrecent hstep) (tlbBoot_ok online) hrecent h)

instance (w : TlbWorld) (gen : ℕ) : ∀ phase, Decidable (RecentAt w gen phase)
  | .waiting _ (c :: _) pending => inferInstanceAs (Decidable (c ∈ pending → w.ackGen c < gen → _))
  | .waiting _ [] _ | .masked _ | .sending _ _ _ _ | .returned => isTrue trivial

instance (w : TlbWorld) : ∀ a, Decidable (Recent w a)
  | .step id => inferInstanceAs (Decidable (∀ call ∈ w.calls id, _))
  | .call _ _ | .irq _ | .flush _ | .publish _ | .offline _ | .online _ => isTrue trivial

/-- Core 0 shoots down while core 1 is online and answers. -/
def oneShootdown : List TlbAction :=
  .call 0 0 :: List.replicate 34 (.step 0) ++ [.irq 1, .flush 1, .publish 1] ++ List.replicate 33 (.step 0)

theorem shootdown_covers_one : ∃ w, run tlbStep (tlbBoot {0, 1}) oneShootdown = some w ∧ Covered w := by
  obtain ⟨w, hw⟩ : ∃ w, run tlbStep (tlbBoot {0, 1}) oneShootdown = some w :=
    Option.isSome_iff_exists.mp (by rfl)
  exact ⟨w, hw, shootdown_covers_peers {0, 1} oneShootdown w (by decide +kernel) hw⟩

@[simp] theorem setCall_self (w : TlbWorld) (id : ℕ) (call : ShootdownCall) :
    (w.setCall id call).calls id = some call := Function.update_self _ _ _

@[simp] theorem setCall_setCall (w : TlbWorld) (id : ℕ) (call call' : ShootdownCall) :
    (w.setCall id call).setCall id call' = w.setCall id call' := by
  simp [TlbWorld.setCall]

theorem tlbStep_step {w : TlbWorld} {id : ℕ} {call : ShootdownCall} (h : w.calls id = some call) :
    tlbStep w (.step id) = shootdownStep w id call := by
  simp [tlbStep, h]

/-- The peers among the cores of a list. -/
def peersIn (me : Core) (mask : Finset Core) (todo : List Core) : Finset Core :=
  {c ∈ todo.toFinset | c ≠ me ∧ c ∈ mask}

/-- The cores that a look at the acknowledgements of a list leaves to wait for. -/
def unanswered (w : TlbWorld) (seq : BitVec 32) (todo : List Core) (pending : Finset Core) : Finset Core :=
  {c ∈ pending | ¬ (c ∈ todo ∧ ackSatisfies (w.ack c) seq = true)}

/-- The loop over the cores that interrupts the peers, with nothing in between. -/
theorem run_sending {id : ℕ} {call : ShootdownCall} {seq : BitVec 32} {mask : Finset Core} (todo : List Core)
    (w : TlbWorld) (pending : Finset Core)
    (h : w.calls id = some { call with phase := .sending seq mask todo pending }) :
    run tlbStep w (List.replicate (todo.length + 1) (.step id)) =
      some ({ w with sgi := w.sgi ∪ peersIn call.me mask todo }.setCall id { call with
        phase := if pending ∪ peersIn call.me mask todo = ∅ then .returned
          else .waiting seq (List.finRange 32) (pending ∪ peersIn call.me mask todo) }) := by
  induction todo generalizing w pending with
  | nil =>
    simp [run, tlbStep_step h, shootdownStep, peersIn]
  | cons c todo ih =>
    rw [List.length_cons, List.replicate_succ, run, tlbStep_step h]
    by_cases hsend : c ≠ call.me ∧ c ∈ mask
    · have hpeers : peersIn call.me mask (c :: todo) = insert c (peersIn call.me mask todo) := by
        rw [peersIn, List.toFinset_cons, Finset.filter_insert, if_pos hsend, peersIn]
      simp only [shootdownStep, if_pos hsend, Option.bind_some]
      rw [ih _ (insert c pending) (setCall_self _ _ _), hpeers, Finset.union_insert, Finset.union_insert,
        ← Finset.insert_union, ← Finset.insert_union]
      simp [TlbWorld.setCall]
    · have hpeers : peersIn call.me mask (c :: todo) = peersIn call.me mask todo := by
        rw [peersIn, List.toFinset_cons, Finset.filter_insert, if_neg hsend, peersIn]
      simp only [shootdownStep, if_neg hsend, Option.bind_some]
      rw [ih _ pending (setCall_self _ _ _), hpeers]
      simp [TlbWorld.setCall]

theorem unanswered_cons {w : TlbWorld} {seq : BitVec 32} {c : Core} {todo : List Core} {pending : Finset Core} :
    unanswered w seq todo (if c ∈ pending ∧ ackSatisfies (w.ack c) seq then pending.erase c else pending) =
      unanswered w seq (c :: todo) pending := by
  ext d
  split_ifs with hdrop
  · simp only [unanswered, Finset.mem_filter, Finset.mem_erase, List.mem_cons]
    grind
  · simp only [unanswered, Finset.mem_filter, List.mem_cons]
    grind

/-- The loop that looks at every acknowledgement once, with nothing in between. -/
theorem run_waiting {id : ℕ} {call : ShootdownCall} {seq : BitVec 32} (todo : List Core) (w : TlbWorld)
    (pending : Finset Core) (h : w.calls id = some { call with phase := .waiting seq todo pending }) :
    run tlbStep w (List.replicate (todo.length + 1) (.step id)) = some (w.setCall id { call with
      phase := if unanswered w seq todo pending ∩ w.online = ∅ then .returned
        else .waiting seq (List.finRange 32) (unanswered w seq todo pending ∩ w.online) }) := by
  induction todo generalizing w pending with
  | nil =>
    simp [run, tlbStep_step h, shootdownStep, unanswered]
  | cons c todo ih =>
    have hsame : ∀ call' : ShootdownCall, unanswered (w.setCall id call') seq = unanswered w seq := fun _ => rfl
    rw [List.length_cons, List.replicate_succ, run, tlbStep_step h]
    simp only [shootdownStep, Option.bind_some]
    rw [ih _ _ (setCall_self _ _ _), hsame, unanswered_cons, setCall_setCall]
    rfl

/-- Core 0 is alone online and has shot down `n` times; nothing else has happened. -/
structure Alone (n : ℕ) (w : TlbWorld) : Prop where
  seq : w.seq = BitVec.ofNat 32 n
  gen : w.gen = n
  ack : w.ack 0 = 0
  online : w.online = {0}
  calls : ∀ id, n ≤ id → w.calls id = none

/-- A call that nothing comes between: the draw, the interrupts, and a return if there is nobody to
wait for. -/
theorem run_call {w : TlbWorld} {id : ℕ} (me : Core) (h : w.calls id = none) :
    run tlbStep w (.call id me :: .step id :: List.replicate 33 (.step id)) =
      some ({ w with seq := w.seq + 1, gen := w.gen + 1, sgi := w.sgi ∪ peersIn me w.online (List.finRange 32) }.setCall id
        ⟨me, if peersIn me w.online (List.finRange 32) = ∅ then .returned
          else .waiting (w.seq + 1) (List.finRange 32) (peersIn me w.online (List.finRange 32)), w.gen + 1, w.online, ∅⟩) := by
  have hcall : tlbStep w (.call id me) = some (w.setCall id ⟨me, .masked w.online, 0, w.online, ∅⟩) := by
    simp only [tlbStep, if_pos h]
  have hdraw : tlbStep (w.setCall id ⟨me, .masked w.online, 0, w.online, ∅⟩) (.step id) =
      some ({ w with seq := w.seq + 1, gen := w.gen + 1 }.setCall id
        ⟨me, .sending (w.seq + 1) w.online (List.finRange 32) ∅, w.gen + 1, w.online, ∅⟩) := by
    rw [tlbStep_step (setCall_self _ _ _)]
    simp [shootdownStep, TlbWorld.setCall]
  refine run_cons.mpr ⟨_, hcall, run_cons.mpr ⟨_, hdraw, ?_⟩⟩
  have hsend := @run_sending id ⟨me, .returned, w.gen + 1, w.online, ∅⟩ (w.seq + 1) w.online (List.finRange 32)
    ({ w with seq := w.seq + 1, gen := w.gen + 1 }.setCall id
    ⟨me, .sending (w.seq + 1) w.online (List.finRange 32) ∅, w.gen + 1, w.online, ∅⟩) ∅ (setCall_self _ _ _)
  rw [List.length_finRange, Finset.empty_union] at hsend
  rw [hsend]
  simp only [TlbWorld.setCall, Function.update_idem]

/-- A shootdown without peers returns at once. -/
theorem alone_succ {n : ℕ} {w : TlbWorld} (h : Alone n w) :
    ∃ t, run tlbStep w (.call n 0 :: .step n :: List.replicate 33 (.step n)) = some t ∧ Alone (n + 1) t := by
  refine ⟨_, run_call 0 (h.calls n (Nat.le_refl _)), ?_⟩
  constructor
  case seq =>
    simp only [TlbWorld.setCall, h.seq]
    apply BitVec.eq_of_toNat_eq
    simp
  case gen => exact congrArg (· + 1) h.gen
  case ack => exact h.ack
  case online => exact h.online
  case calls =>
    intro id hid
    have hne : id ≠ n := by omega
    simp only [TlbWorld.setCall, Function.update_of_ne hne]
    exact h.calls id (by omega)

theorem alone_run (n : ℕ) : ∃ as w, run tlbStep (tlbBoot {0}) as = some w ∧ Alone n w := by
  induction n with
  | zero => exact ⟨[], _, rfl, rfl, rfl, rfl, rfl, fun _ _ => rfl⟩
  | succ n ih =>
    obtain ⟨as, w, hw, halone⟩ := ih
    obtain ⟨t, ht, hnext⟩ := alone_succ halone
    exact ⟨_, t, run_append.mpr ⟨w, hw, ht⟩, hnext⟩

/-- After 2^31 shootdowns core 0 has acknowledged nothing: core 1 comes online, and its first
shootdown takes the acknowledgement 0 for one that is ahead of it. -/
theorem shootdown_misses_peer : ¬ ∀ (online : Finset Core) (as : List TlbAction) (w : TlbWorld),
    run tlbStep (tlbBoot online) as = some w → Covered w := by
  intro hcovered
  obtain ⟨as, w, hw, halone⟩ := alone_run (2 ^ 31)
  have honline : tlbStep w (.online 1) = some { w with online := {1, 0} } := by
    rw [tlbStep, halone.online]
  have hcall := run_call (w := { w with online := {1, 0} }) 1 (halone.calls _ (Nat.le_refl _))
  have hpeers : peersIn 1 ({1, 0} : Finset Core) (List.finRange 32) = {0} := by
    rfl
  simp only [hpeers, Finset.singleton_ne_empty, if_false] at hcall
  have hsat : ackSatisfies (w.ack 0) (w.seq + 1) = true := by
    rw [halone.ack, halone.seq]
    decide
  have hanswered : ∀ t : TlbWorld, t.ack = w.ack →
      unanswered t (w.seq + 1) (List.finRange 32) {0} ∩ t.online = ∅ := by
    intro t ht
    have hnone : unanswered t (w.seq + 1) (List.finRange 32) {0} = ∅ := by
      refine Finset.filter_eq_empty_iff.mpr fun c hc hnot => hnot ⟨List.mem_finRange c, ?_⟩
      rw [Finset.mem_singleton.mp hc, ht]
      exact hsat
    rw [hnone, Finset.empty_inter]
  have hwait := @run_waiting (2 ^ 31) ⟨1, .returned, w.gen + 1, {1, 0}, ∅⟩ (w.seq + 1) (List.finRange 32) _ {0}
    (setCall_self { w with online := {1, 0}, seq := w.seq + 1, gen := w.gen + 1, sgi := w.sgi ∪ {0} } _ _)
  rw [List.length_finRange] at hwait
  have hrun := run_append.mpr ⟨w, hw, run_cons.mpr ⟨_, honline, run_append.mpr ⟨_, hcall, hwait⟩⟩⟩
  have hreturned := hcovered _ _ _ hrun (2 ^ 31) _ (setCall_self _ _ _)
    (if_pos (hanswered _ (by rfl))) 0
  have hmember : (0 : Core) ∈ ({1, 0} : Finset Core) := by decide
  have hother : (0 : Core) ≠ 1 := by decide
  exact Finset.notMem_empty _ (hreturned hmember hother)

end HouseKernel.VirtualMemory
