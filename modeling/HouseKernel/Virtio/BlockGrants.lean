import HouseKernel.Ipc.Channel

/-! The pages that block requests grant: clients with a timeout, the service loop of the request
endpoint and its teardown, in any order. The client allocates a page for a call and frees it
when the call is over; the abort path and the teardown of the endpoint free the pages of the
messages that they take out of the queue. -/
namespace HouseKernel.Virtio

open HouseKernel.Lib HouseKernel.Ipc

structure BlkReq where
  write : Bool
  slot : ℕ
  lba : ℕ
  deriving DecidableEq, Repr

def tagRead : ℕ := 1
def tagWrite : ℕ := 2

/-- The request with the client's page, which has to be a page of the pool. -/
def attachGrant (validPage : ℕ → Bool) (page : ℕ) (r : BlkReq) : Except IpcError GrantMessage :=
  if validPage page then .ok ⟨⟨if r.write then tagWrite else tagRead, [r.slot, r.lba]⟩, some page⟩
  else .error .badGrant

/-- How far a call is: with its page and not yet queued; queued with reply slot `v`, first outside
and then inside the bracket of `send`; taken out of the queue by the abort path; over, with the
page to be freed; and done. -/
inductive Phase where
  | ready
  | sent (v : ℕ)
  | waiting (v : ℕ)
  | dequeued
  | closing
  | done
  deriving DecidableEq, Repr

structure Call where
  req : BlkReq
  page : ℕ
  phase : Phase
  deriving DecidableEq, Repr

/-- The service loop: before and after its first look at the table, with a message before and
after its second look, with the handler done, or returned. -/
inductive Service where
  | idle
  | alive
  | received (rv : Entry)
  | handling (rv : Entry)
  | handled (rv : Entry)
  | stopped
  deriving DecidableEq, Repr

/-- The last three fields are history: the call behind a reply slot, the calls whose page was
returned, once for each time, and those whose page the service touched after that. -/
structure BlockWorld where
  chan : Channel
  pool : List ℕ
  calls : ℕ → Option Call
  nextCall : ℕ
  service : Service
  owner : ℕ → ℕ
  returned : List ℕ
  late : List ℕ

def BlockWorld.init (pool : List ℕ) : BlockWorld :=
  ⟨Channel.newEndpoint, pool, fun _ => none, 0, .idle, fun _ => 0, [], []⟩

def BlockWorld.setPhase (w : BlockWorld) (c : ℕ) (call : Call) (phase : Phase) : BlockWorld :=
  { w with calls := Function.update w.calls c (some { call with phase := phase }) }

/-- `freePage`, for the page of call `c`. -/
def BlockWorld.freePage (w : BlockWorld) (c page : ℕ) : BlockWorld :=
  { w with pool := page :: w.pool, returned := c :: w.returned }

/-- The page of a message, as the abort path and the teardown free it. -/
def BlockWorld.freeGrant (w : BlockWorld) (rv : Entry) : BlockWorld :=
  match rv.msg.grant with
  | none => w
  | some page => w.freePage (w.owner rv.replyVar) page

inductive BlockAction where
  /-- `grantAlloc` for a new call. -/
  | start (req : BlkReq)
  /-- The section of `send`. -/
  | enqueue (c : ℕ)
  /-- Block for the reply, under the bracket. -/
  | await (c : ℕ)
  | take (c : ℕ)
  | timeout (c : ℕ)
  /-- The end of `dequeueReply`. -/
  | giveBack (c : ℕ)
  /-- The client frees its page. -/
  | close (c : ℕ)
  /-- The first look at the table. -/
  | look
  | receive
  /-- The second look at the table. -/
  | check
  /-- The handler, which reads or fills the page unless it fails before. -/
  | handle (touches : Bool)
  | reply (r : Except IpcError GrantMessage)
  | free
  | drain

/-- A step of call `c`. -/
def callStep (validPage : ℕ → Bool) (w : BlockWorld) (c : ℕ) (call : Call) : BlockAction → Option BlockWorld
  | .enqueue _ => if call.phase = .ready then
      match attachGrant validPage call.page call.req with
      | .error _ => some (w.setPhase c call .closing)
      | .ok msg => match w.chan.enqueue msg with
        | (.error _, ch) => some ({ w with chan := ch }.setPhase c call .closing)
        | (.ok v, ch) => some ({ w with chan := { ch with waiting := v :: ch.waiting }
                                        owner := Function.update w.owner v c }.setPhase c call (.sent v))
      else none
  | .await _ => match call.phase with
    | .sent v => some (w.setPhase c call (.waiting v))
    | _ => none
  | .take _ => match call.phase with
    | .waiting v => (channelStep w.chan (.take v)).map fun ch => { w with chan := ch }.setPhase c call .closing
    | _ => none
  | .timeout _ => match call.phase with
    | .ready => some (w.setPhase c call .closing)
    | .sent _ => some (w.setPhase c call .closing)
    | .waiting v => (channelStep w.chan (.abort v)).map fun ch =>
        { w with chan := ch }.setPhase c call (if (w.chan.dequeueReply v).1.isSome then .dequeued else .closing)
    | _ => none
  | .giveBack _ => if call.phase = .dequeued then some ((w.freePage c call.page).setPhase c call .closing) else none
  | .close _ => if call.phase = .closing then some ((w.freePage c call.page).setPhase c call .done) else none
  | _ => none

/-- A step of the service loop. -/
def serviceStep (w : BlockWorld) : BlockAction → Option BlockWorld
  | .look => if w.service = .idle then some { w with service := if w.chan.listed then .alive else .stopped } else none
  | .receive => if w.service = .alive then
      match w.chan.recv with
      | (none, ch) => some { w with chan := ch }
      | (some rv, ch) => some { w with chan := ch, service := .received rv }
      else none
  | .check => match w.service with
    | .received rv => some { w with service := if w.chan.listed then .handling rv else .stopped }
    | _ => none
  | .handle touches => match w.service with
    | .handling rv =>
      let c := w.owner rv.replyVar
      some { w with service := .handled rv
                    late := if touches && rv.msg.grant.isSome && w.returned.contains c then c :: w.late else w.late }
    | _ => none
  | .reply r => match w.service with
    | .handled rv => some { w with chan := w.chan.tryPut rv.replyVar r, service := .idle }
    | _ => none
  | _ => none

def blockStep (validPage : ℕ → Bool) (w : BlockWorld) (a : BlockAction) : Option BlockWorld :=
  match a with
  | .start req => match w.pool with
    | [] => some w
    | page :: rest => some { w with pool := rest, nextCall := w.nextCall+1,
                                    calls := Function.update w.calls w.nextCall (some ⟨req, page, .ready⟩) }
  | .free => some { w with chan := w.chan.unlist }
  | .drain => match w.chan.teardown with
    | .waking (rv :: _) => (w.freeGrant rv).chan.drain.map fun ch => { w.freeGrant rv with chan := ch }
    | _ => w.chan.drain.map fun ch => { w with chan := ch }
  | .enqueue c | .await c | .take c | .timeout c | .giveBack c | .close c =>
    (w.calls c).bind fun call => callStep validPage w c call a
  | .look | .receive | .check | .handle _ | .reply _ => serviceStep w a

/-- Every page was returned at most once, that of a finished call exactly once, and the service
touched none after its return. -/
structure BlockWorld.Linear (w : BlockWorld) : Prop where
  atMost : ∀ c, w.returned.count c ≤ 1
  exactly : ∀ c call, w.calls c = some call → call.phase = .done → w.returned.count c = 1
  prompt : w.late = []

/-- The message is queued, or with the service and not yet handled. -/
def BlockWorld.InFlight (w : BlockWorld) (rv : Entry) : Prop :=
  rv ∈ w.chan.queue ∨ w.service = .received rv ∨ w.service = .handling rv

/-- A timeout falls before the message is queued or after the service has handled it, and the
endpoint is freed while its queue is empty. -/
def Calm (w : BlockWorld) : BlockAction → Prop
  | .timeout c => ∀ call v, w.calls c = some call → call.phase = .sent v ∨ call.phase = .waiting v →
      ∀ rv, w.InFlight rv → rv.replyVar ≠ v
  | .free => w.chan.queue = []
  | _ => True

/-- How often the page of a call is returned, by its phase. -/
def BlockWorld.due (w : BlockWorld) (c : ℕ) : ℕ :=
  match w.calls c with
  | none => 0
  | some call => if call.phase = .done then 1 else 0

/-- The caller of a message in flight waits for the answer, which is not there. -/
def BlockWorld.Awaited (w : BlockWorld) (rv : Entry) : Prop :=
  w.chan.vars rv.replyVar = none ∧ ∃ call, w.calls (w.owner rv.replyVar) = some call ∧
    (call.phase = .sent rv.replyVar ∨ call.phase = .waiting rv.replyVar)

/-- What every state of a calm run has. -/
structure BlockWorld.Ok (w : BlockWorld) : Prop where
  chan : w.chan.Ok
  quiet : w.chan.listed = false → w.chan.queue = [] ∧ w.chan.remaining = []
  fresh : ∀ c, w.nextCall ≤ c → w.calls c = none
  flight : ∀ rv, w.InFlight rv → rv.msg.grant = none ∨ w.Awaited rv
  hand : ∀ rv, w.service = .received rv ∨ w.service = .handling rv ∨ w.service = .handled rv →
    rv.replyVar ∈ w.chan.handles
  count : ∀ c, w.returned.count c = w.due c
  inTime : ∀ c call, w.calls c = some call → call.phase ≠ .dequeued
  prompt : w.late = []

section Calls

variable {w : BlockWorld} {c : ℕ} {call : Call}

theorem BlockWorld.Ok.linear (h : w.Ok) : w.Linear := by
  refine ⟨fun c => ?_, fun c call hc hd => ?_, h.prompt⟩
  · rw [h.count, due]
    split
    · exact Nat.zero_le _
    · split_ifs <;> omega
  · rw [h.count, due, hc]
    simp [hd]

lemma BlockWorld.Ok.init (pool : List ℕ) : (BlockWorld.init pool).Ok where
  chan := Channel.Ok.newEndpoint
  quiet := fun h => by cases h
  fresh _ _ := rfl
  flight := by
    rintro rv (h | h | h)
    · cases h
    · cases h
    · cases h
  hand := by
    rintro rv (h | h | h)
    · cases h
    · cases h
    · cases h
  count _ := rfl
  inTime := fun _ _ h => by cases h
  prompt := rfl

/-- A slot in flight is an old one. -/
lemma BlockWorld.Ok.inFlight_old (h : w.Ok) {rv : Entry} (hrv : w.InFlight rv) : rv.replyVar < w.chan.nextVar := by
  obtain hq | hs := hrv
  · exact h.chan.old rv (h.chan.order.subset (List.mem_append_right _ hq))
  · exact h.chan.held _ (h.hand rv (hs.imp id Or.inl))

lemma BlockWorld.due_setPhase (w : BlockWorld) (hc : w.calls c = some call) (ph : Phase)
    (hdone : ph = .done ↔ call.phase = .done) (c' : ℕ) : (w.setPhase c call ph).due c' = w.due c' := by
  by_cases heq : c' = c
  · subst heq
    simp only [due, setPhase, Function.update_self, hc, hdone]
  · simp only [due, setPhase, Function.update_of_ne heq]

lemma BlockWorld.Ok.setPhase_fresh (h : w.Ok) (hc : w.calls c = some call) (ph : Phase) {c' : ℕ}
    (hc' : w.nextCall ≤ c') : (w.setPhase c call ph).calls c' = none := by
  have hne : c' ≠ c := by
    rintro rfl
    rw [h.fresh c' hc'] at hc
    cases hc
  simp only [BlockWorld.setPhase, Function.update_of_ne hne]
  exact h.fresh c' hc'

lemma BlockWorld.Ok.setPhase_inTime (h : w.Ok) {ph : Phase} (hnot : ph ≠ .dequeued) {c' : ℕ} {call' : Call}
    (hcall' : (w.setPhase c call ph).calls c' = some call') : call'.phase ≠ .dequeued := by
  simp only [BlockWorld.setPhase] at hcall'
  by_cases heq : c' = c
  · subst heq
    rw [Function.update_self] at hcall'
    obtain rfl := Option.some.inj hcall'
    exact hnot
  · rw [Function.update_of_ne heq] at hcall'
    exact h.inTime c' call' hcall'

/-- A call moves on while none of its messages is in flight, or is one that waits for its answer
and stays so. -/
lemma BlockWorld.Ok.setPhase (h : w.Ok) (hc : w.calls c = some call) (ph : Phase)
    (hdone : ph = .done ↔ call.phase = .done) (hnot : ph ≠ .dequeued)
    (hflight : ∀ rv, w.InFlight rv → w.owner rv.replyVar = c → rv.msg.grant ≠ none →
      ph = .sent rv.replyVar ∨ ph = .waiting rv.replyVar) : (w.setPhase c call ph).Ok where
  chan := h.chan
  quiet := h.quiet
  fresh _ hc' := h.setPhase_fresh hc ph hc'
  flight rv hrv := by
    by_cases hgrant : rv.msg.grant = none
    · exact Or.inl hgrant
    obtain ⟨hvar, call', hcall', hph⟩ := (h.flight rv hrv).resolve_left hgrant
    refine Or.inr ⟨hvar, ?_⟩
    simp only [BlockWorld.setPhase]
    by_cases hown : w.owner rv.replyVar = c
    · exact ⟨_, by rw [hown, Function.update_self], hflight rv hrv hown hgrant⟩
    · exact ⟨call', by rw [Function.update_of_ne hown, hcall'], hph⟩
  hand := h.hand
  count c' := (h.count c').trans (w.due_setPhase hc ph hdone c').symm
  inTime _ _ hcall' := h.setPhase_inTime hnot hcall'
  prompt := h.prompt

/-- A message in flight whose owner is `c` waits under the slot of `c`'s phase. -/
lemma BlockWorld.Ok.phase_of_flight (h : w.Ok) (hc : w.calls c = some call) {rv : Entry} (hrv : w.InFlight rv)
    (hown : w.owner rv.replyVar = c) (hgrant : rv.msg.grant ≠ none) :
    w.chan.vars rv.replyVar = none ∧ (call.phase = .sent rv.replyVar ∨ call.phase = .waiting rv.replyVar) := by
  obtain ⟨hvar, call', hcall', hph⟩ := (h.flight rv hrv).resolve_left hgrant
  rw [hown, hc] at hcall'
  obtain rfl := Option.some.inj hcall'
  exact ⟨hvar, hph⟩

/-- The endpoint moves on; what is in flight was so before and has no answer. -/
lemma BlockWorld.Ok.setChan (h : w.Ok) {ch : Channel} (hok : ch.Ok)
    (hquiet : ch.listed = false → ch.queue = [] ∧ ch.remaining = []) (hq : ∀ rv ∈ ch.queue, rv ∈ w.chan.queue)
    (hvars : ∀ rv, w.InFlight rv → w.chan.vars rv.replyVar = none → ch.vars rv.replyVar = none)
    (hhand : ∀ v ∈ w.chan.handles, v ∈ ch.handles) : { w with chan := ch }.Ok := by
  have hold : ∀ rv, { w with chan := ch }.InFlight rv → w.InFlight rv := fun rv hrv => hrv.imp (hq rv) id
  refine { h with
    chan := hok
    quiet := hquiet
    flight := fun rv hrv => ?_
    hand := fun rv hrv => hhand _ (h.hand rv hrv) }
  obtain hgrant | ⟨hvar, hcall⟩ := h.flight rv (hold rv hrv)
  · exact Or.inl hgrant
  · exact Or.inr ⟨hvars rv (hold rv hrv) hvar, hcall⟩

/-- A call with no message in flight is over. -/
lemma BlockWorld.Ok.finish (h : w.Ok) (hc : w.calls c = some call) (hdone : call.phase ≠ .done)
    (hflight : ∀ rv, w.InFlight rv → w.chan.vars rv.replyVar = none →
      ¬ (call.phase = .sent rv.replyVar ∨ call.phase = .waiting rv.replyVar)) : (w.setPhase c call .closing).Ok := by
  refine h.setPhase hc .closing (by simp [hdone]) (by simp) fun rv hrv hown hgrant => ?_
  obtain ⟨hvar, hph⟩ := h.phase_of_flight hc hrv hown hgrant
  exact absurd hph (hflight rv hrv hvar)

variable {validPage : ℕ → Bool} {w' : BlockWorld}

theorem BlockWorld.Ok.enqueue (h : w.Ok) (hc : w.calls c = some call)
    (hs : callStep validPage w c call (.enqueue c) = some w') : w'.Ok := by
  simp only [callStep] at hs
  split_ifs at hs with hready
  have hnot : ∀ (rv : Entry), ¬ (call.phase = .sent rv.replyVar ∨ call.phase = .waiting rv.replyVar) := by simp [hready]
  cases hmsg : attachGrant validPage call.page call.req with
  | error e =>
    simp only [hmsg, Option.some.injEq] at hs
    subst hs
    exact h.finish hc (by simp [hready]) fun rv _ _ => hnot rv
  | ok msg =>
    simp only [hmsg] at hs
    have hok := (h.chan.enqueue msg).1
    rcases henq : w.chan.enqueue msg with ⟨e | v, ch⟩
    · rw [henq] at hs hok
      obtain rfl := Option.some.inj hs
      obtain rfl := Channel.enqueue_error henq
      have hw := h.setChan hok h.quiet (fun _ hrv => hrv) (fun _ _ hv => hv) fun _ hv => hv
      exact hw.finish hc (by simp [hready]) fun rv _ _ => hnot rv
    · rw [henq] at hs hok
      obtain rfl := Option.some.inj hs
      obtain ⟨hl, rfl, rfl⟩ := Channel.enqueue_ok henq
      have hstep : channelStep w.chan (.send msg) = some { w.chan with
          nextVar := w.chan.nextVar+1, queue := w.chan.queue ++ [⟨msg, w.chan.nextVar⟩]
          entered := w.chan.entered ++ [⟨msg, w.chan.nextVar⟩], waiting := w.chan.nextVar :: w.chan.waiting } := by
        simp only [channelStep, henq]
      refine ⟨h.chan.step hstep, fun hl' => Bool.noConfusion (hl.symm.trans hl'), ?_, ?_, h.hand, ?_, ?_, h.prompt⟩
      · exact fun c' hc' => h.setPhase_fresh hc (.sent w.chan.nextVar) hc'
      · intro rv hrv
        have hcases : w.InFlight rv ∨ rv = ⟨msg, w.chan.nextVar⟩ := by
          obtain hin | hs := hrv
          · obtain hin | hin := List.mem_append.mp hin
            · exact Or.inl (Or.inl hin)
            · exact Or.inr (List.mem_singleton.mp hin)
          · exact Or.inl (Or.inr hs)
        by_cases hgrant : rv.msg.grant = none
        · exact Or.inl hgrant
        right
        simp only [BlockWorld.Awaited, BlockWorld.setPhase]
        obtain hold | rfl := hcases
        · have hlt := h.inFlight_old hold
          obtain ⟨hvar, call', hcall', hph⟩ := (h.flight rv hold).resolve_left hgrant
          have hown : w.owner rv.replyVar ≠ c := by
            intro hown
            exact hnot rv (h.phase_of_flight hc hold hown hgrant).2
          refine ⟨hvar, call', ?_, hph⟩
          rw [Function.update_of_ne hlt.ne, Function.update_of_ne hown, hcall']
        · refine ⟨(h.chan.blank _ le_rfl).1, { call with phase := .sent w.chan.nextVar }, ?_, Or.inl rfl⟩
          rw [Function.update_self, Function.update_self]
      · intro c'
        exact (h.count c').trans (w.due_setPhase hc (.sent w.chan.nextVar) (by simp [hready]) c').symm
      · exact fun c' call' hcall' => h.setPhase_inTime (by simp) hcall'

theorem BlockWorld.Ok.take (h : w.Ok) (hc : w.calls c = some call)
    (hs : callStep validPage w c call (.take c) = some w') : w'.Ok := by
  simp only [callStep] at hs
  split at hs
  case h_1 v hph =>
    obtain ⟨ch, hch, rfl⟩ := Option.map_eq_some_iff.mp hs
    have hok := h.chan.step hch
    simp only [channelStep] at hch
    split_ifs at hch with htake
    obtain rfl := Option.some.inj hch
    have hw : { w with chan := { w.chan with vars := Function.update w.chan.vars v none
                                             waiting := w.chan.waiting.erase v } }.Ok := by
      refine h.setChan hok h.quiet (fun _ hrv => hrv) (fun rv hrv hvar => ?_) fun _ hv => hv
      simp only
      by_cases heq : rv.replyVar = v
      · rw [heq, Function.update_self]
      · rw [Function.update_of_ne heq, hvar]
    refine hw.setPhase hc .closing (by simp [hph]) (by simp) fun rv hrv hown hgrant => ?_
    -- an answer has come, so the message is not in flight
    obtain ⟨hvar, hsent⟩ := h.phase_of_flight hc hrv hown hgrant
    obtain rfl : rv.replyVar = v := by simpa [hph, eq_comm] using hsent
    simp [hvar] at htake
  · cases hs

theorem BlockWorld.Ok.timeout (h : w.Ok) (hc : w.calls c = some call) (hcalm : Calm w (.timeout c))
    (hs : callStep validPage w c call (.timeout c) = some w') : w'.Ok := by
  have hgone : ∀ v, call.phase = .sent v ∨ call.phase = .waiting v → ∀ rv, w.InFlight rv → w.chan.vars rv.replyVar = none →
      ¬ (call.phase = .sent rv.replyVar ∨ call.phase = .waiting rv.replyVar) :=
    fun v _ rv hrv _ hph => hcalm call _ hc hph rv hrv rfl
  simp only [callStep] at hs
  split at hs
  case h_1 hph =>
    obtain rfl := Option.some.inj hs
    exact h.finish hc (by simp [hph]) (by simp [hph])
  case h_2 v hph =>
    obtain rfl := Option.some.inj hs
    exact h.finish hc (by simp [hph]) (hgone v (Or.inl hph))
  case h_3 v hph =>
    have hnone := Channel.dequeueReply_none fun rv hrv => hcalm call v hc (Or.inr hph) rv (Or.inl hrv)
    obtain ⟨ch, hch, rfl⟩ := Option.map_eq_some_iff.mp hs
    have hok := h.chan.step hch
    simp only [channelStep, hnone] at hch
    split_ifs at hch
    obtain rfl := Option.some.inj hch
    simp only [hnone, Option.isSome_none, Bool.false_eq_true, if_false]
    have hw : { w with chan := { w.chan with waiting := w.chan.waiting.erase v } }.Ok :=
      h.setChan hok h.quiet (fun _ hrv => hrv) (fun _ _ hvar => hvar) fun _ hv => hv
    exact hw.finish hc (by simp [hph]) (hgone v (Or.inr hph))
  · cases hs

theorem BlockWorld.Ok.close (h : w.Ok) (hc : w.calls c = some call)
    (hs : callStep validPage w c call (.close c) = some w') : w'.Ok := by
  simp only [callStep] at hs
  split_ifs at hs with hph
  obtain rfl := Option.some.inj hs
  refine ⟨h.chan, h.quiet, fun _ hc' => h.setPhase_fresh hc .done hc', ?_, h.hand, ?_,
    fun _ _ hcall' => h.setPhase_inTime (by simp) hcall', h.prompt⟩
  · intro rv hrv
    by_cases hgrant : rv.msg.grant = none
    · exact Or.inl hgrant
    obtain ⟨hvar, call', hcall', hph'⟩ := (h.flight rv hrv).resolve_left hgrant
    have hown : w.owner rv.replyVar ≠ c := by
      intro hown
      have hsent := (h.phase_of_flight hc hrv hown hgrant).2
      simp [hph] at hsent
    refine Or.inr ⟨hvar, call', ?_, hph'⟩
    simp only [BlockWorld.setPhase, BlockWorld.freePage]
    rw [Function.update_of_ne hown, hcall']
  · intro c'
    have hcount := h.count c'
    by_cases heq : c' = c
    · subst heq
      simp only [BlockWorld.due, hc, hph, reduceCtorEq, if_false] at hcount
      simp [BlockWorld.setPhase, BlockWorld.freePage, BlockWorld.due, hcount]
    · rw [BlockWorld.setPhase, BlockWorld.freePage]
      simp only [BlockWorld.due, Function.update_of_ne heq, List.count_cons_of_ne (Ne.symm heq)]
      exact hcount

theorem BlockWorld.Ok.callStep {a : BlockAction} (h : w.Ok) (hc : w.calls c = some call) (hcalm : Calm w a)
    (ha : a ∈ [.enqueue c, .await c, .take c, .timeout c, .giveBack c, .close c])
    (hs : Virtio.callStep validPage w c call a = some w') : w'.Ok := by
  simp only [List.mem_cons, List.not_mem_nil, or_false] at ha
  obtain rfl | rfl | rfl | rfl | rfl | rfl := ha
  · exact h.enqueue hc hs
  · simp only [Virtio.callStep] at hs
    split at hs
    case h_1 v hph =>
      obtain rfl := Option.some.inj hs
      refine h.setPhase hc _ (by simp [hph]) (by simp) fun rv hrv hown hgrant => Or.inr ?_
      have hsent := (h.phase_of_flight hc hrv hown hgrant).2
      rw [hph] at hsent
      simpa using hsent
    · cases hs
  · exact h.take hc hs
  · exact h.timeout hc hcalm hs
  · simp only [Virtio.callStep] at hs
    split_ifs at hs with hph
    exact absurd hph (h.inTime c call hc)
  · exact h.close hc hs

end Calls

section Run

variable {w w' : BlockWorld} {validPage : ℕ → Bool} {a : BlockAction}

/-- The service moves on with the message that it has, or without one. -/
lemma BlockWorld.Ok.setService (h : w.Ok) {sv : Service}
    (hflight : ∀ rv, sv = .received rv ∨ sv = .handling rv → w.service = .received rv ∨ w.service = .handling rv)
    (hhand : ∀ rv, sv = .handled rv → w.service = .handling rv) : { w with service := sv }.Ok := by
  refine { h with
    flight := fun rv hrv => h.flight rv (hrv.imp id (hflight rv))
    hand := ?_ }
  rintro rv (hs | hs | hs)
  · exact h.hand rv ((hflight rv (Or.inl hs)).imp id Or.inl)
  · exact h.hand rv ((hflight rv (Or.inr hs)).imp id Or.inl)
  · exact h.hand rv (Or.inr (Or.inl (hhand rv hs)))

theorem BlockWorld.Ok.receive (h : w.Ok) (hs : serviceStep w .receive = some w') : w'.Ok := by
  simp only [serviceStep] at hs
  split_ifs at hs with hidle
  have hok := h.chan.recv
  by_cases hl : w.chan.listed = true
  · have hrem := Channel.remaining_of_listed h.chan hl
    cases hq : w.chan.queue with
    | nil =>
      have hrecv : w.chan.recv = (none, w.chan) := by simp [Channel.recv, hl, hq]
      simp only [hrecv, Option.some.injEq] at hs
      subst hs
      exact h
    | cons rv rest =>
      have hrecv : w.chan.recv = (some rv, { w.chan with
          queue := rest, handles := rv.replyVar :: w.chan.handles, delivered := w.chan.delivered ++ [rv] }) := by
        simp only [Channel.recv, hl, hq, Bool.not_true, Bool.false_eq_true, if_false]
      rw [hrecv] at hok
      simp only [hrecv, Option.some.injEq] at hs
      subst hs
      refine { h with
        chan := hok
        quiet := fun hl' => Bool.noConfusion (hl.symm.trans hl')
        flight := fun rv' hrv' => ?_
        hand := fun rv' hrv' => ?_ }
      · have hin : rv' ∈ w.chan.queue := by
          rw [hq]
          obtain hin | hs | hs := hrv'
          · exact List.mem_cons_of_mem _ hin
          · obtain rfl := Service.received.inj hs
            exact List.mem_cons_self
          · cases hs
        obtain hgrant | ⟨hvar, hcall⟩ := h.flight rv' (Or.inl hin)
        · exact Or.inl hgrant
        · exact Or.inr ⟨hvar, hcall⟩
      · obtain hs | hs | hs := hrv'
        · obtain rfl := Service.received.inj hs
          exact List.mem_cons_self
        · cases hs
        · cases hs
  · -- the endpoint left the table since the first look
    have hfalse : w.chan.listed = false := by simpa using hl
    obtain ⟨hempty, hrem⟩ := h.quiet hfalse
    rcases hrecv : w.chan.recv with ⟨got, ch⟩
    rw [hrecv] at hok hs
    simp only [Channel.recv, hfalse, Bool.not_false, if_true, Prod.mk.injEq] at hrecv
    obtain ⟨rfl, rfl⟩ := hrecv
    obtain rfl := Option.some.inj hs
    refine { h with
      chan := hok
      quiet := fun _ => ⟨hempty, hrem⟩
      flight := fun rv' hrv' => ?_
      hand := fun rv' hrv' => ?_ }
    · obtain hin | hs | hs := hrv'
      · rw [hempty] at hin
        cases hin
      · obtain rfl := Service.received.inj hs
        exact Or.inl rfl
      · cases hs
    · obtain hs | hs | hs := hrv'
      · obtain rfl := Service.received.inj hs
        exact List.mem_cons_self
      · cases hs
      · cases hs

theorem BlockWorld.Ok.handle (h : w.Ok) {touches : Bool} (hs : serviceStep w (.handle touches) = some w') : w'.Ok := by
  simp only [serviceStep] at hs
  split at hs
  case h_1 rv hsv =>
    obtain rfl := Option.some.inj hs
    have hw : { w with service := .handled rv }.Ok := by
      refine h.setService (by simp) fun rv' hrv' => ?_
      obtain rfl := Service.handled.inj hrv'
      exact hsv
    -- its caller still waits, so the page was not returned
    have hearly : ¬ (touches && rv.msg.grant.isSome && w.returned.contains (w.owner rv.replyVar)) = true := by
      intro hlate
      simp only [Bool.and_eq_true, List.contains_iff_mem] at hlate
      have hgrant : rv.msg.grant ≠ none := fun hnone => by simp [hnone] at hlate
      obtain ⟨-, call, hcall, hph⟩ := (h.flight rv (Or.inr (Or.inr hsv))).resolve_left hgrant
      have hcount := h.count (w.owner rv.replyVar)
      have hdone : call.phase ≠ .done := by
        intro hd
        simp [hd] at hph
      simp only [BlockWorld.due, hcall, if_neg hdone] at hcount
      exact List.count_eq_zero.mp hcount hlate.2
    simp only [if_neg hearly]
    exact hw
  · cases hs

theorem BlockWorld.Ok.reply (h : w.Ok) {r : Except IpcError GrantMessage} (hs : serviceStep w (.reply r) = some w') : w'.Ok := by
  simp only [serviceStep] at hs
  split at hs
  case h_1 rv hsv =>
    obtain rfl := Option.some.inj hs
    have hok := h.chan.reply (h.hand rv (Or.inr (Or.inr hsv))) r
    obtain ⟨vars, answers, heq, -⟩ := w.chan.tryPut_frame rv.replyVar r
    rw [heq] at hok ⊢
    refine { h with
      chan := hok
      flight := fun rv' hrv' => ?_
      hand := by simp }
    obtain hin | hs | hs := hrv'
    · obtain hgrant | ⟨-, hcall⟩ := h.flight rv' (Or.inl hin)
      · exact Or.inl hgrant
      · refine Or.inr ⟨?_, hcall⟩
        by_cases hl : w.chan.listed = true
        · exact (hok.silent rv' (by rw [Channel.remaining_of_listed hok hl]; exact hin)).1
        · simp only [(h.quiet (by simpa using hl)).1] at hin
          cases hin
    · cases hs
    · cases hs
  · cases hs

theorem BlockWorld.Ok.drain (h : w.Ok) (hs : blockStep validPage w .drain = some w') : w'.Ok := by
  have hplain : w.chan.drain.map (fun ch => { w with chan := ch }) = some w' → w'.Ok := by
    intro hd
    obtain ⟨ch, hch, rfl⟩ := Option.map_eq_some_iff.mp hd
    have hm := Channel.Moves.drain hch
    have hl : w.chan.listed = false := by
      by_contra hl
      simp [Channel.drain, h.chan.stage.mp (by simpa using hl)] at hch
    obtain ⟨hempty, hrem⟩ := h.quiet hl
    -- nothing is queued, so nothing is answered
    obtain ⟨td, rfl, hrest⟩ : ∃ td, ch = { w.chan with teardown := td } ∧ (td = .waking [] ∨ td = .finished) := by
      unfold Channel.drain at hch
      split at hch
      · cases hch
      · obtain rfl := Option.some.inj hch
        exact ⟨_, rfl, Or.inl (by rw [hempty])⟩
      case h_3 rv rest htd => simp [Channel.remaining, htd] at hrem
      · obtain rfl := Option.some.inj hch
        exact ⟨.finished, by rw [← hempty], Or.inr rfl⟩
      · cases hch
    refine h.setChan (h.chan.drain hch) (fun _ => ⟨hempty, ?_⟩) (fun _ hrv => hrv) (fun _ _ hvar => hvar) fun _ hv => hv
    obtain rfl | rfl := hrest <;> rfl
  simp only [blockStep] at hs
  split at hs
  case h_1 rv rest htd =>
    have hl : w.chan.listed = false := by
      by_contra hl
      have := h.chan.stage.mp (by simpa using hl)
      simp [htd] at this
    have hrem := (h.quiet hl).2
    simp [Channel.remaining, htd] at hrem
  · exact hplain hs

theorem BlockWorld.Ok.step (h : w.Ok) (hcalm : Calm w a) (hs : blockStep validPage w a = some w') : w'.Ok := by
  cases a with
  | start req =>
    simp only [blockStep] at hs
    split at hs
    · obtain rfl := Option.some.inj hs
      exact h
    case h_2 page rest hpool =>
      obtain rfl := Option.some.inj hs
      have hfree := h.fresh w.nextCall le_rfl
      refine { h with
        fresh := fun c hc => ?_
        flight := fun rv hrv => ?_
        count := fun c => ?_
        inTime := fun c call hcall => ?_ }
      · simp only at hc ⊢
        rw [Function.update_of_ne (by omega)]
        exact h.fresh c (by omega)
      · obtain hgrant | ⟨hvar, call, hcall, hph⟩ := h.flight rv hrv
        · exact Or.inl hgrant
        · refine Or.inr ⟨hvar, call, ?_, hph⟩
          simp only
          rw [Function.update_of_ne, hcall]
          rintro heq
          rw [heq, hfree] at hcall
          cases hcall
      · refine (h.count c).trans ?_
        by_cases heq : c = w.nextCall
        · subst heq
          simp [due, hfree]
        · simp only [due, Function.update_of_ne heq]
      · by_cases heq : c = w.nextCall
        · subst heq
          simp only [Function.update_self, Option.some.injEq] at hcall
          subst hcall
          simp
        · simp only [Function.update_of_ne heq] at hcall
          exact h.inTime c call hcall
  | free =>
    obtain rfl := Option.some.inj hs
    by_cases hl : w.chan.listed = true
    · have hempty : w.chan.queue = [] := hcalm
      have hun : w.chan.unlist = { w.chan with listed := false, teardown := .unlisted, doomed := w.chan.queue } := if_pos hl
      have hok := h.chan.unlist
      rw [hun] at hok ⊢
      exact h.setChan hok (fun _ => ⟨hempty, hempty⟩) (fun _ hrv => hrv) (fun _ _ hvar => hvar) fun _ hv => hv
    · rw [Channel.unlist, if_neg hl]
      exact h
  | drain => exact h.drain hs
  | enqueue c | await c | take c | timeout c | giveBack c | close c =>
    obtain ⟨call, hc, hs⟩ := Option.bind_eq_some_iff.mp hs
    exact h.callStep hc hcalm (by simp) hs
  | look =>
    simp only [blockStep, serviceStep] at hs
    split_ifs at hs
    · obtain rfl := Option.some.inj hs
      exact h.setService (by simp) (by simp)
    · obtain rfl := Option.some.inj hs
      exact h.setService (by simp) (by simp)
  | receive => exact h.receive hs
  | check =>
    simp only [blockStep, serviceStep] at hs
    split at hs
    case h_1 rv hsv =>
      obtain rfl := Option.some.inj hs
      refine h.setService ?_ ?_
      · intro rv'
        split_ifs
        · rintro (hs | hs)
          · cases hs
          · obtain rfl := Service.handling.inj hs
            exact Or.inl hsv
        · simp
      · intro rv'
        split_ifs <;> simp
    · cases hs
  | handle touches => exact h.handle hs
  | reply r => exact h.reply hs

/-- In a run in which no call times out while its message is in flight, and in which the endpoint
is freed while its queue is empty, every page is returned once and not touched afterwards. -/
theorem grant_pages_linear {pool : List ℕ} {as : List BlockAction}
    (hcalm : Along (blockStep validPage) Calm (BlockWorld.init pool) as)
    (hrun : run (blockStep validPage) (BlockWorld.init pool) as = some w) : w.Linear :=
  (run_invariant (fun _ _ _ hw hG hs => BlockWorld.Ok.step hw hG hs) (BlockWorld.Ok.init pool) hcalm hrun).linear

/-- A read that is answered, with the endpoint freed at the end. -/
def answeredRead : List BlockAction :=
  [.start ⟨false, 0, 5⟩, .enqueue 0, .await 0, .look, .receive, .check, .handle true, .reply (.ok ⟨⟨0, [4096]⟩, none⟩),
    .take 0, .close 0, .free]

theorem grant_pages_linear_read :
    ∃ w, run (blockStep fun _ => true) (BlockWorld.init [0x50000000]) answeredRead = some w ∧
      w.calls 0 = some ⟨⟨false, 0, 5⟩, 0x50000000, .done⟩ ∧ w.pool = [0x50000000] ∧ w.Linear := by
  have hcalm : Along (blockStep fun _ => true) Calm (BlockWorld.init [0x50000000]) answeredRead := by
    iterate 10
      refine ⟨trivial, ?_⟩
      rintro _ ⟨⟩
    refine ⟨rfl, ?_⟩
    rintro _ ⟨⟩
    trivial
  exact ⟨_, rfl, rfl, rfl, grant_pages_linear hcalm rfl⟩

/-- A call that times out while it is queued returns its page twice; so does one whose endpoint
is freed while it is queued; and after a timeout during the handler the service touches a page
that is back in the pool. -/
theorem grant_page_misused :
    (∃ w, run (blockStep fun _ => true) (BlockWorld.init [0x50000000])
        [.start ⟨false, 0, 5⟩, .enqueue 0, .await 0, .timeout 0, .giveBack 0, .close 0] = some w ∧
      w.pool = [0x50000000, 0x50000000] ∧ w.returned.count 0 = 2 ∧ ¬ w.Linear) ∧
    (∃ w, run (blockStep fun _ => true) (BlockWorld.init [0x50000000])
        [.start ⟨false, 0, 5⟩, .enqueue 0, .await 0, .free, .drain, .drain, .take 0, .close 0] = some w ∧
      w.pool = [0x50000000, 0x50000000] ∧ w.returned.count 0 = 2 ∧ ¬ w.Linear) ∧
    ∃ w, run (blockStep fun _ => true) (BlockWorld.init [0x50000000])
        [.start ⟨false, 0, 5⟩, .enqueue 0, .await 0, .look, .receive, .check, .timeout 0, .close 0, .handle true] = some w ∧
      w.late = [0] ∧ ¬ w.Linear := by
  refine ⟨⟨_, rfl, rfl, by decide, fun h => ?_⟩, ⟨_, rfl, rfl, by decide, fun h => ?_⟩, ⟨_, rfl, by decide, fun h => ?_⟩⟩
  · exact absurd (h.atMost 0) (by decide)
  · exact absurd (h.atMost 0) (by decide)
  · exact absurd h.prompt (by decide)

end Run

end HouseKernel.Virtio
