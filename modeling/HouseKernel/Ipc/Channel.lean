import HouseKernel.Ipc.Endpoint
import HouseKernel.Lib.Run

/-! One endpoint under any interleaving of senders, receivers and its teardown. A step is one
section under the endpoint lock or one action outside of it. `freeEndpoint` takes the endpoint
out of the table under the lock, and answers the queue that it found afterwards. -/
namespace HouseKernel.Ipc

open HouseKernel.Lib

/-- A message with the page that it grants. -/
structure GrantMessage extends Message where
  grant : Option ℕ
  deriving DecidableEq, Repr

structure Entry where
  msg : GrantMessage
  replyVar : ℕ
  deriving DecidableEq, Repr

/-- How far the call of `freeEndpoint` is that found the endpoint in the table. -/
inductive Teardown where
  | idle
  | unlisted
  | waking (rest : List Entry)
  | finished
  deriving DecidableEq, Repr

/-- The endpoint with its reply slots. The queue outlives the entry in the table. The last four
fields are history, which no step reads. -/
structure Channel where
  listed : Bool
  queue : List Entry
  teardown : Teardown
  nextVar : ℕ
  vars : ℕ → Option (Except IpcError GrantMessage)
  /-- The senders that wait for their reply. -/
  waiting : List ℕ
  /-- The reply slots that receivers hold. -/
  handles : List ℕ
  entered : List Entry
  delivered : List Entry
  /-- What was queued when the endpoint left the table. -/
  doomed : List Entry
  answers : List (ℕ × Except IpcError GrantMessage)

def Channel.newEndpoint : Channel := ⟨true, [], .idle, 0, fun _ => none, [], [], [], [], [], []⟩

/-- `tryPutMVar`: only an empty slot takes the value. -/
def Channel.tryPut (s : Channel) (v : ℕ) (r : Except IpcError GrantMessage) : Channel :=
  if (s.vars v).isSome then s
  else { s with vars := Function.update s.vars v (some r), answers := s.answers ++ [(v, r)] }

/-- The section of `send` and `trySend`, with a new reply slot. -/
def Channel.enqueue (s : Channel) (msg : GrantMessage) : Except IpcError ℕ × Channel :=
  let s' := { s with nextVar := s.nextVar+1 }
  if !s.listed then (.error .noSuchEndpoint, s')
  else if maxQueueDepth ≤ s.queue.length then (.error .queueFull, s')
  else (.ok s.nextVar,
    { s' with queue := s.queue ++ [⟨msg, s.nextVar⟩], entered := s.entered ++ [⟨msg, s.nextVar⟩] })

/-- The section of `dequeueReply`: the entry that it takes out. -/
def Channel.dequeueReply (s : Channel) (v : ℕ) : Option Entry × Channel :=
  if !s.listed then (none, s)
  else (s.queue.find? fun rv => rv.replyVar = v, { s with queue := s.queue.eraseP fun rv => rv.replyVar = v })

/-- One round of `recv`: the oldest entry, or a filled slot when the endpoint is gone. -/
def Channel.recv (s : Channel) : Option Entry × Channel :=
  if !s.listed then
    (some ⟨⟨⟨0, []⟩, none⟩, s.nextVar⟩,
      { s with nextVar := s.nextVar+1, handles := s.nextVar :: s.handles
               vars := Function.update s.vars s.nextVar (some (.error .noSuchEndpoint)) })
  else match s.queue with
    | [] => (none, s)
    | rv :: rest => (some rv,
        { s with queue := rest, handles := rv.replyVar :: s.handles, delivered := s.delivered ++ [rv] })

/-- The section of `freeEndpoint`. -/
def Channel.unlist (s : Channel) : Channel :=
  if s.listed then { s with listed := false, teardown := .unlisted, doomed := s.queue } else s

/-- The next step of `freeEndpoint` outside the lock: read the queue, answer its entries in
turn, and clear it. -/
def Channel.drain (s : Channel) : Option Channel :=
  match s.teardown with
  | .idle => none
  | .unlisted => some { s with teardown := .waking s.queue }
  | .waking (rv :: rest) => some { s.tryPut rv.replyVar (.error .noSuchEndpoint) with teardown := .waking rest }
  | .waking [] => some { s with queue := [], teardown := .finished }
  | .finished => none

inductive ChannelAction where
  | send (msg : GrantMessage)
  | trySend (msg : GrantMessage)
  | recv
  | reply (v : ℕ) (r : Except IpcError GrantMessage)
  /-- A sender takes its reply. -/
  | take (v : ℕ)
  /-- A sender is interrupted while it waits for its reply. -/
  | abort (v : ℕ)
  | free
  | drain

def channelStep (s : Channel) : ChannelAction → Option Channel
  | .send msg => match s.enqueue msg with
    | (.ok v, s) => some { s with waiting := v :: s.waiting }
    | (.error _, s) => some s
  | .trySend msg => some (s.enqueue msg).2
  | .recv => some s.recv.2
  | .reply v r => if v ∈ s.handles then some (s.tryPut v r) else none
  | .take v => if v ∈ s.waiting ∧ (s.vars v).isSome then
      some { s with vars := Function.update s.vars v none, waiting := s.waiting.erase v } else none
  | .abort v => if v ∈ s.waiting then
      some { (s.dequeueReply v).2 with waiting := s.waiting.erase v } else none
  | .free => some s.unlist
  | .drain => s.drain

/-- What was answered to a reply slot. -/
def Channel.answersTo (s : Channel) (v : ℕ) : List (Except IpcError GrantMessage) :=
  (s.answers.filter fun p => p.1 = v).map Prod.snd

/-- The entries that nobody has taken from the queue and that have no answer yet. -/
def Channel.remaining (s : Channel) : List Entry :=
  match s.teardown with
  | .idle => s.queue
  | .unlisted => s.queue
  | .waking rest => rest
  | .finished => []

/-- What every state of a run has. -/
structure Channel.Ok (s : Channel) : Prop where
  short : s.queue.length ≤ maxQueueDepth
  order : (s.delivered ++ s.queue).Sublist s.entered
  pending : s.remaining.Sublist s.entered
  ids : (s.entered.map Entry.replyVar).Nodup
  old : ∀ rv ∈ s.entered, rv.replyVar < s.nextVar
  held : ∀ v ∈ s.handles, v < s.nextVar
  asleep : ∀ v ∈ s.waiting, v < s.nextVar
  blank : ∀ v, s.nextVar ≤ v → s.vars v = none ∧ s.answersTo v = []
  silent : ∀ rv ∈ s.remaining, s.vars rv.replyVar = none ∧ s.answersTo rv.replyVar = [] ∧ rv.replyVar ∉ s.handles
  stage : s.listed = true ↔ s.teardown = .idle
  told : s.listed = false → ∀ rv ∈ s.doomed, rv ∈ s.remaining ∨
    s.answersTo rv.replyVar = [.error .noSuchEndpoint] ∧ rv.replyVar ∉ s.handles
  kept : ∀ rv ∈ s.doomed, rv.replyVar < s.nextVar

/-- The message behind `v` was not delivered and cannot be any more. -/
def Channel.Lost (s : Channel) (v : ℕ) : Prop :=
  v < s.nextVar ∧ (∀ rv ∈ s.delivered, rv.replyVar ≠ v) ∧ (s.listed = true → ∀ rv ∈ s.queue, rv.replyVar ≠ v)

section Frame

variable (s : Channel) (v : ℕ) (r : Except IpcError GrantMessage)

/-- A put changes the slots and their answers only. -/
lemma Channel.tryPut_frame : ∃ vars answers, s.tryPut v r = { s with vars := vars, answers := answers } ∧
    ∀ w, w ≠ v → vars w = s.vars w ∧ { s with vars := vars, answers := answers }.answersTo w = s.answersTo w := by
  unfold tryPut
  split_ifs with h
  · exact ⟨s.vars, s.answers, rfl, fun w _ => ⟨rfl, rfl⟩⟩
  · refine ⟨_, _, rfl, fun w hw => ⟨Function.update_of_ne hw _ _, ?_⟩⟩
    simp [answersTo, List.filter_append, Ne.symm hw]

variable {s v}

lemma Channel.tryPut_empty (h : s.vars v = none) : (s.tryPut v r).answersTo v = s.answersTo v ++ [r] := by
  simp [tryPut, h, answersTo, List.filter_append]

end Frame

section Results

variable {s s' : Channel} {msg : GrantMessage} {v : ℕ}

lemma Channel.enqueue_ok (h : s.enqueue msg = (.ok v, s')) : s.listed = true ∧ v = s.nextVar ∧
    s' = { s with nextVar := s.nextVar+1, queue := s.queue ++ [⟨msg, v⟩], entered := s.entered ++ [⟨msg, v⟩] } := by
  simp only [enqueue] at h
  split_ifs at h with hl
  · cases h
  · cases h
  · obtain ⟨hv, rfl⟩ := Prod.mk.inj h
    obtain rfl := Except.ok.inj hv
    exact ⟨by simpa using hl, rfl, rfl⟩

lemma Channel.enqueue_error {e : IpcError} (h : s.enqueue msg = (.error e, s')) : s' = { s with nextVar := s.nextVar+1 } := by
  simp only [enqueue] at h
  split_ifs at h
  · exact (Prod.mk.inj h).2.symm
  · exact (Prod.mk.inj h).2.symm
  · cases (Prod.mk.inj h).1

/-- A sender whose message is not queued leaves the queue as it is. -/
lemma Channel.dequeueReply_none (h : ∀ rv ∈ s.queue, rv.replyVar ≠ v) : s.dequeueReply v = (none, s) := by
  unfold dequeueReply
  split_ifs
  · rfl
  · rw [List.find?_eq_none.mpr (by simpa using h), List.eraseP_of_forall_not (by simpa using h)]

end Results

section Steps

variable {s t : Channel}

lemma Channel.remaining_of_listed (h : s.Ok) (hl : s.listed = true) : s.remaining = s.queue := by
  simp only [remaining, h.stage.mp hl]

theorem Channel.Ok.newEndpoint : Channel.newEndpoint.Ok := by
  constructor <;> simp [Channel.newEndpoint, remaining, answersTo]

theorem Channel.Ok.enqueue (h : s.Ok) (msg : GrantMessage) :
    (s.enqueue msg).2.Ok ∧ ∀ v, (s.enqueue msg).1 = .ok v → v < (s.enqueue msg).2.nextVar := by
  -- a new slot alone
  have hnew : { s with nextVar := s.nextVar+1 }.Ok :=
    { h with
      old := fun rv hrv => Nat.lt_succ_of_lt (h.old rv hrv)
      held := fun v hv => Nat.lt_succ_of_lt (h.held v hv)
      asleep := fun v hv => Nat.lt_succ_of_lt (h.asleep v hv)
      blank := fun v hv => h.blank v (Nat.le_of_succ_le hv)
      kept := fun rv hrv => Nat.lt_succ_of_lt (h.kept rv hrv) }
  simp only [Channel.enqueue]
  by_cases hl : s.listed = true
  · have hrem := remaining_of_listed h hl
    have hidle := h.stage.mp hl
    rw [if_neg (by simp [hl])]
    by_cases hfull : maxQueueDepth ≤ s.queue.length
    · rw [if_pos hfull]
      exact ⟨hnew, fun v hv => by cases hv⟩
    rw [if_neg hfull]
    refine ⟨{ hnew with
      short := ?_
      order := ?_
      pending := ?_
      ids := ?_
      old := ?_
      silent := ?_
      told := ?_ }, ?_⟩
    · simp only [List.length_append, List.length_singleton]
      omega
    · simp only [← List.append_assoc]
      exact h.order.append_right _
    · simp only [remaining, hidle]
      exact ((List.sublist_append_right _ _).trans h.order).append_right _
    · rw [List.map_append, List.nodup_append]
      refine ⟨h.ids, by simp, ?_⟩
      intro a ha b hb
      obtain ⟨rv, hrv, rfl⟩ := List.mem_map.mp ha
      obtain rfl : b = s.nextVar := by simpa using hb
      exact (h.old rv hrv).ne
    · intro rv hrv
      obtain hrv | hrv := List.mem_append.mp hrv
      · exact Nat.lt_succ_of_lt (h.old rv hrv)
      · obtain rfl := List.mem_singleton.mp hrv
        exact Nat.lt_succ_self _
    · intro rv hrv
      simp only [remaining, hidle, List.mem_append, List.mem_singleton] at hrv
      obtain hrv | rfl := hrv
      · exact h.silent rv (hrem ▸ hrv)
      · obtain ⟨h1, h2⟩ := h.blank s.nextVar le_rfl
        exact ⟨h1, h2, fun hin => absurd (h.held _ hin) (lt_irrefl _)⟩
    · simp [hl]
    · intro v hv
      obtain rfl : s.nextVar = v := by simpa using hv
      exact Nat.lt_succ_self _
  · rw [if_pos (by simpa using hl)]
    exact ⟨hnew, fun v hv => by cases hv⟩

theorem Channel.Ok.recv (h : s.Ok) : s.recv.2.Ok := by
  unfold Channel.recv
  by_cases hl : s.listed = true
  · have hrem := remaining_of_listed h hl
    have hidle := h.stage.mp hl
    rw [if_neg (by simp [hl])]
    rcases hq : s.queue with _ | ⟨rv, rest⟩
    · exact h
    have hsub := (List.sublist_append_right _ _).trans h.order
    rw [hq] at hsub hrem
    have hids : ((rv :: rest).map Entry.replyVar).Nodup := h.ids.sublist (hsub.map _)
    rw [List.map_cons, List.nodup_cons] at hids
    refine { h with
      short := ?_
      order := ?_
      pending := ?_
      held := ?_
      silent := ?_
      told := ?_ }
    · have := h.short
      rw [hq, List.length_cons] at this
      exact Nat.le_of_succ_le this
    · have := h.order
      rwa [hq, List.append_cons] at this
    · simp only [remaining, hidle]
      exact (List.sublist_cons_self _ _).trans hsub
    · intro v hv
      obtain rfl | hv := List.mem_cons.mp hv
      · exact h.old rv (hsub.subset (by simp))
      · exact h.held v hv
    · intro rv' hrv'
      simp only [remaining, hidle] at hrv'
      obtain ⟨h1, h2, h3⟩ := h.silent rv' (by rw [hrem]; exact List.mem_cons_of_mem _ hrv')
      refine ⟨h1, h2, ?_⟩
      rw [List.mem_cons, not_or]
      exact ⟨fun heq => hids.1 (heq ▸ List.mem_map_of_mem hrv'), h3⟩
    · simp [hl]
  · -- a slot of its own for a receiver that comes too late
    rw [if_pos (by simpa using hl)]
    have hne : ∀ {v}, v < s.nextVar → v ∉ s.handles → v ∉ s.nextVar :: s.handles := by
      intro v hlt hv
      rw [List.mem_cons, not_or]
      exact ⟨hlt.ne, hv⟩
    refine { h with
      old := fun rv hrv => Nat.lt_succ_of_lt (h.old rv hrv)
      held := ?_
      asleep := fun v hv => Nat.lt_succ_of_lt (h.asleep v hv)
      blank := ?_
      silent := ?_
      told := ?_
      kept := fun rv hrv => Nat.lt_succ_of_lt (h.kept rv hrv) }
    · intro v hv
      obtain rfl | hv := List.mem_cons.mp hv
      · exact Nat.lt_succ_self _
      · exact Nat.lt_succ_of_lt (h.held v hv)
    · intro v hv
      obtain ⟨h1, h2⟩ := h.blank v (Nat.le_of_succ_le hv)
      refine ⟨?_, h2⟩
      simp only at hv ⊢
      rw [Function.update_of_ne (by omega), h1]
    · intro rv hrv
      obtain ⟨h1, h2, h3⟩ := h.silent rv hrv
      have hlt := h.old rv (h.pending.subset hrv)
      exact ⟨by simp only [Function.update_of_ne hlt.ne, h1], h2, hne hlt h3⟩
    · intro hl' rv hrv
      obtain hrem | ⟨h1, h2⟩ := h.told hl' rv hrv
      · exact Or.inl hrem
      · exact Or.inr ⟨h1, hne (h.kept rv hrv) h2⟩

/-- A put outside of what is left in the queue. -/
theorem Channel.Ok.tryPut (h : s.Ok) {v : ℕ} (hv : v < s.nextVar) (r : Except IpcError GrantMessage)
    (hrem : ∀ rv ∈ s.remaining, rv.replyVar ≠ v)
    (hdoomed : s.listed = false → ∀ rv ∈ s.doomed, rv.replyVar ≠ v) : (s.tryPut v r).Ok := by
  obtain ⟨vars, answers, heq, hother⟩ := s.tryPut_frame v r
  rw [heq]
  refine { h with
    blank := ?_
    silent := ?_
    told := ?_ }
  · intro w hw
    obtain ⟨h1, h2⟩ := hother w (by simp only at hw; omega)
    exact ⟨h1.trans (h.blank w hw).1, h2.trans (h.blank w hw).2⟩
  · intro rv hrv
    obtain ⟨h1, h2⟩ := hother _ (hrem rv hrv)
    obtain ⟨e1, e2, e3⟩ := h.silent rv hrv
    exact ⟨h1.trans e1, h2.trans e2, e3⟩
  · intro hl rv hrv
    obtain hin | ⟨e1, e2⟩ := h.told hl rv hrv
    · exact Or.inl hin
    · exact Or.inr ⟨(hother _ (hdoomed hl rv hrv)).2.trans e1, e2⟩

theorem Channel.Ok.reply (h : s.Ok) {v : ℕ} (hv : v ∈ s.handles) (r : Except IpcError GrantMessage) :
    (s.tryPut v r).Ok := by
  have hrem : ∀ rv ∈ s.remaining, rv.replyVar ≠ v := by
    rintro rv hrv rfl
    exact (h.silent rv hrv).2.2 hv
  refine h.tryPut (h.held v hv) r hrem ?_
  rintro hl rv hrv rfl
  obtain hin | ⟨-, hout⟩ := h.told hl rv hrv
  · exact hrem rv hin rfl
  · exact hout hv

theorem Channel.Ok.dequeueReply (h : s.Ok) (v : ℕ) : (s.dequeueReply v).2.Ok := by
  unfold Channel.dequeueReply
  by_cases hl : s.listed = true
  · have hrem := remaining_of_listed h hl
    have hidle := h.stage.mp hl
    rw [if_neg (by simp [hl])]
    have hsub : (s.queue.eraseP fun rv => rv.replyVar = v).Sublist s.queue := List.eraseP_sublist
    refine { h with
      short := hsub.length_le.trans h.short
      order := (hsub.append_left _).trans h.order
      pending := ?_
      silent := ?_
      told := ?_ }
    · simp only [remaining, hidle]
      exact hsub.trans (hrem ▸ h.pending)
    · intro rv hrv
      simp only [remaining, hidle] at hrv
      exact h.silent rv (hrem ▸ hsub.subset hrv)
    · simp [hl]
  · rwa [if_pos (by simpa using hl)]

theorem Channel.Ok.unlist (h : s.Ok) : s.unlist.Ok := by
  unfold Channel.unlist
  split_ifs with hl
  · have hrem := remaining_of_listed h hl
    refine { h with
      pending := hrem ▸ h.pending
      silent := fun rv hrv => h.silent rv (hrem ▸ hrv)
      stage := by simp
      told := fun _ rv hrv => Or.inl hrv
      kept := ?_ }
    intro rv hrv
    exact h.old rv (h.order.subset (List.mem_append_right _ hrv))
  · exact h

theorem Channel.Ok.drain (h : s.Ok) (hs : s.drain = some t) : t.Ok := by
  unfold Channel.drain at hs
  cases hd : s.teardown with
  | idle => simp [hd] at hs
  | finished => simp [hd] at hs
  | unlisted =>
    have hl : s.listed ≠ true := fun hl => by simp [h.stage.mp hl] at hd
    have hrem : s.remaining = s.queue := by simp only [remaining, hd]
    simp only [hd, Option.some.injEq] at hs
    subst hs
    exact { h with
      pending := hrem ▸ h.pending
      silent := fun rv hrv => h.silent rv (hrem ▸ hrv)
      stage := by simp [hl]
      told := fun hl rv hrv => by
        have htold := h.told hl rv hrv
        rwa [hrem] at htold }
  | waking rest =>
    have hl : s.listed ≠ true := fun hl => by simp [h.stage.mp hl] at hd
    cases rest with
    | nil =>
      have hrem : s.remaining = [] := by simp only [remaining, hd]
      simp only [hd, Option.some.injEq] at hs
      subst hs
      exact { h with
        short := by simp
        order := (List.append_nil s.delivered).symm ▸ (List.sublist_append_left _ _).trans h.order
        pending := by simp [remaining]
        silent := by simp [remaining]
        stage := by simp [hl]
        told := fun hl rv hrv => by
          have htold := h.told hl rv hrv
          rw [hrem] at htold
          exact Or.inr (htold.resolve_left List.not_mem_nil) }
    | cons rv rest =>
      have hrem : s.remaining = rv :: rest := by simp only [remaining, hd]
      simp only [hd, Option.some.injEq] at hs
      obtain ⟨hempty, hnone, hout⟩ := h.silent rv (by simp [hrem])
      have hids : ((rv :: rest).map Entry.replyVar).Nodup := h.ids.sublist ((hrem ▸ h.pending).map _)
      rw [List.map_cons, List.nodup_cons] at hids
      have hne : ∀ rv' ∈ rest, rv'.replyVar ≠ rv.replyVar := fun rv' hin heq =>
        hids.1 (heq ▸ List.mem_map_of_mem hin)
      have hself := tryPut_empty (.error .noSuchEndpoint) hempty
      rw [hnone] at hself
      obtain ⟨vars, answers, heq, hother⟩ := s.tryPut_frame rv.replyVar (.error .noSuchEndpoint)
      rw [heq] at hs hself
      subst hs
      refine { h with
        pending := (List.sublist_cons_self _ _).trans (hrem ▸ h.pending)
        blank := ?_
        silent := ?_
        stage := by simp [hl]
        told := ?_ }
      · intro w hw
        have hlt := h.old rv (h.pending.subset (by simp [hrem]))
        obtain ⟨h1, h2⟩ := hother w (by simp only at hw; omega)
        exact ⟨h1.trans (h.blank w hw).1, h2.trans (h.blank w hw).2⟩
      · intro rv' hin
        obtain ⟨h1, h2⟩ := hother _ (hne rv' hin)
        obtain ⟨e1, e2, e3⟩ := h.silent rv' (by rw [hrem]; exact List.mem_cons_of_mem _ hin)
        exact ⟨h1.trans e1, h2.trans e2, e3⟩
      · intro hl rv' hrv'
        by_cases hsame : rv'.replyVar = rv.replyVar
        · exact Or.inr (hsame ▸ ⟨hself, hout⟩)
        · obtain hin | ⟨e1, e2⟩ := h.told hl rv' hrv'
          · rw [hrem, List.mem_cons] at hin
            exact Or.inl (hin.resolve_left fun heq => hsame (heq ▸ rfl))
          · exact Or.inr ⟨(hother _ hsame).2.trans e1, e2⟩

theorem Channel.Ok.step {a : ChannelAction} (h : s.Ok) (hs : channelStep s a = some t) : t.Ok := by
  cases a with
  | send msg =>
    obtain ⟨hok, hvar⟩ := h.enqueue msg
    simp only [channelStep] at hs
    rcases henq : s.enqueue msg with ⟨e | v, s'⟩
    · rw [henq] at hs hok
      obtain rfl := Option.some.inj hs
      exact hok
    · rw [henq] at hs hok hvar
      obtain rfl := Option.some.inj hs
      refine { hok with asleep := ?_ }
      intro w hw
      obtain rfl | hw := List.mem_cons.mp hw
      · exact hvar w rfl
      · exact hok.asleep w hw
  | trySend msg =>
    obtain rfl := Option.some.inj hs
    exact (h.enqueue msg).1
  | recv =>
    obtain rfl := Option.some.inj hs
    exact h.recv
  | reply v r =>
    simp only [channelStep] at hs
    split_ifs at hs with hv
    obtain rfl := Option.some.inj hs
    exact h.reply hv r
  | take v =>
    simp only [channelStep] at hs
    split_ifs at hs with hv
    obtain rfl := Option.some.inj hs
    have hempty : ∀ {w}, s.vars w = none → Function.update s.vars v none w = none := by
      intro w hw
      by_cases heq : w = v
      · rw [heq, Function.update_self]
      · rw [Function.update_of_ne heq, hw]
    exact { h with
      asleep := fun w hw => h.asleep w (List.mem_of_mem_erase hw)
      blank := fun w hw => ⟨hempty (h.blank w hw).1, (h.blank w hw).2⟩
      silent := fun rv hrv => ⟨hempty (h.silent rv hrv).1, (h.silent rv hrv).2⟩ }
  | abort v =>
    simp only [channelStep] at hs
    split_ifs at hs with hv
    obtain rfl := Option.some.inj hs
    have hd := h.dequeueReply v
    refine { hd with asleep := ?_ }
    intro w hw
    have hw := h.asleep w (List.mem_of_mem_erase hw)
    simp only [Channel.dequeueReply]
    split_ifs <;> exact hw
  | free =>
    obtain rfl := Option.some.inj hs
    exact h.unlist
  | drain => exact h.drain hs

/-- What a step does to the queue, as far as deliveries go: entries come in with a new slot, are
delivered while the endpoint is in the table, or leave for good. -/
structure Channel.Moves (s t : Channel) : Prop where
  next : s.nextVar ≤ t.nextVar
  listed : t.listed = true → s.listed = true
  delivered : ∀ rv ∈ t.delivered, rv ∈ s.delivered ∨ s.listed = true ∧ rv ∈ s.queue
  queue : t.listed = true → ∀ rv ∈ t.queue, rv ∈ s.queue ∨ rv.replyVar = s.nextVar
  doomed : s.listed = false → t.doomed = s.doomed

lemma Channel.Moves.refl (s : Channel) : s.Moves s :=
  ⟨le_rfl, fun h => h, fun _ h => Or.inl h, fun _ _ h => Or.inl h, fun _ => rfl⟩

lemma Channel.Moves.tryPut (s : Channel) (v : ℕ) (r : Except IpcError GrantMessage) : s.Moves (s.tryPut v r) := by
  obtain ⟨vars, answers, heq, -⟩ := s.tryPut_frame v r
  rw [heq]
  exact { Moves.refl s with }

lemma Channel.Moves.enqueue (s : Channel) (msg : GrantMessage) : s.Moves (s.enqueue msg).2 := by
  simp only [Channel.enqueue]
  split_ifs
  · exact { Moves.refl s with next := Nat.le_succ _ }
  · exact { Moves.refl s with next := Nat.le_succ _ }
  · refine { Moves.refl s with next := Nat.le_succ _, queue := fun _ rv hrv => ?_ }
    obtain hrv | hrv := List.mem_append.mp hrv
    · exact Or.inl hrv
    · obtain rfl := List.mem_singleton.mp hrv
      exact Or.inr rfl

lemma Channel.Moves.recv (s : Channel) : s.Moves s.recv.2 := by
  unfold Channel.recv
  split_ifs with hl
  · exact { Moves.refl s with next := Nat.le_succ _ }
  · rcases hq : s.queue with _ | ⟨rv, rest⟩
    · exact Moves.refl s
    · refine { Moves.refl s with delivered := fun rv' hrv' => ?_, queue := fun _ rv' hrv' => ?_ }
      · obtain hrv' | hrv' := List.mem_append.mp hrv'
        · exact Or.inl hrv'
        · obtain rfl := List.mem_singleton.mp hrv'
          exact Or.inr ⟨by simpa using hl, by simp [hq]⟩
      · rw [hq]
        exact Or.inl (List.mem_cons_of_mem _ hrv')

lemma Channel.Moves.drain (hs : s.drain = some t) : s.Moves t := by
  unfold Channel.drain at hs
  split at hs
  · cases hs
  · obtain rfl := Option.some.inj hs
    exact { Moves.refl s with }
  · obtain rfl := Option.some.inj hs
    exact { Moves.tryPut s _ (.error .noSuchEndpoint) with }
  · obtain rfl := Option.some.inj hs
    exact { Moves.refl s with queue := fun _ rv hrv => by cases hrv }
  · cases hs

theorem Channel.Moves.step {a : ChannelAction} (hs : channelStep s a = some t) : s.Moves t := by
  cases a with
  | send msg =>
    have hmsg := Moves.enqueue s msg
    simp only [channelStep] at hs
    rcases h : s.enqueue msg with ⟨e | v, s'⟩
    · rw [h] at hs hmsg
      obtain rfl := Option.some.inj hs
      exact hmsg
    · rw [h] at hs hmsg
      obtain rfl := Option.some.inj hs
      exact { hmsg with }
  | trySend msg =>
    obtain rfl := Option.some.inj hs
    exact Moves.enqueue s msg
  | recv =>
    obtain rfl := Option.some.inj hs
    exact Moves.recv s
  | reply v r =>
    simp only [channelStep] at hs
    split_ifs at hs
    obtain rfl := Option.some.inj hs
    exact Moves.tryPut s v r
  | take v =>
    simp only [channelStep] at hs
    split_ifs at hs
    obtain rfl := Option.some.inj hs
    exact { Moves.refl s with }
  | abort v =>
    simp only [channelStep] at hs
    split_ifs at hs
    obtain rfl := Option.some.inj hs
    simp only [Channel.dequeueReply]
    split_ifs
    · exact { Moves.refl s with }
    · exact { Moves.refl s with queue := fun _ rv hrv => Or.inl (List.eraseP_sublist.subset hrv) }
  | free =>
    obtain rfl := Option.some.inj hs
    simp only [Channel.unlist]
    split_ifs with hl
    · exact { Moves.refl s with
        listed := fun _ => hl
        queue := fun h => Bool.noConfusion h
        doomed := fun h => absurd hl (by simp [h]) }
    · exact Moves.refl s
  | drain => exact Moves.drain hs

theorem Channel.Lost.step {a : ChannelAction} {v : ℕ} (h : s.Lost v) (hs : channelStep s a = some t) : t.Lost v := by
  obtain ⟨hlt, hdel, hq⟩ := h
  have hm := Channel.Moves.step hs
  refine ⟨hlt.trans_le hm.next, fun rv hrv => ?_, fun hl rv hrv => ?_⟩
  · obtain hrv | ⟨hl, hrv⟩ := hm.delivered rv hrv
    · exact hdel rv hrv
    · exact hq hl rv hrv
  · obtain hrv | heq := hm.queue hl rv hrv
    · exact hq (hm.listed hl) rv hrv
    · omega

/-- The steps of `freeEndpoint` outside the lock are always enabled, and come to an end. -/
theorem Channel.drain_finishes (h : s.Ok) (hl : s.listed = false) :
    ∃ n t, run channelStep s (List.replicate n .drain) = some t ∧ t.teardown = .finished := by
  have hwaking : ∀ (rest : List Entry) (s : Channel), s.teardown = .waking rest →
      ∃ n t, run channelStep s (List.replicate n .drain) = some t ∧ t.teardown = .finished := by
    intro rest
    induction rest with
    | nil =>
      intro s hd
      exact ⟨1, { s with queue := [], teardown := .finished }, by simp [run, channelStep, Channel.drain, hd], rfl⟩
    | cons rv rest ih =>
      intro s hd
      obtain ⟨n, t, hrun, hfin⟩ := ih { s.tryPut rv.replyVar (.error .noSuchEndpoint) with teardown := .waking rest } rfl
      refine ⟨n+1, t, ?_, hfin⟩
      rw [List.replicate_succ, run_cons]
      exact ⟨_, by simp only [channelStep, Channel.drain, hd], hrun⟩
  cases hd : s.teardown with
  | idle => simp [h.stage.mpr hd] at hl
  | finished => exact ⟨0, s, rfl, hd⟩
  | waking rest => exact hwaking rest s hd
  | unlisted =>
    obtain ⟨n, t, hrun, hfin⟩ := hwaking s.queue { s with teardown := .waking s.queue } rfl
    refine ⟨n+1, t, ?_, hfin⟩
    rw [List.replicate_succ, run_cons]
    exact ⟨_, by simp only [channelStep, Channel.drain, hd], hrun⟩

end Steps

section Runs

variable {s t u : Channel} {as : List ChannelAction}

theorem Channel.Ok.run (h : s.Ok) (hrun : Lib.run channelStep s as = some t) : t.Ok :=
  run_invariant (fun _ _ _ hs _ => hs.step) h (along_of_forall (fun _ _ => trivial) s as) hrun

theorem Channel.Lost.run {v : ℕ} (h : s.Lost v) (hrun : Lib.run channelStep s as = some t) : t.Lost v :=
  @run_invariant _ _ _ _ (fun x => x.Lost v) (fun _ _ _ hs _ => hs.step) s t as h
    (along_of_forall (fun _ _ => trivial) s as) hrun

/-- Once out of the table, the endpoint stays out. -/
lemma Channel.unlisted_run (h : s.listed = false) (hrun : Lib.run channelStep s as = some t) :
    t.listed = false ∧ t.doomed = s.doomed := by
  refine @run_invariant _ _ _ (fun _ _ => True) (fun x => x.listed = false ∧ x.doomed = s.doomed) ?_ s t as ⟨h, rfl⟩
    (along_of_forall (fun _ _ => trivial) s as) hrun
  rintro x a y ⟨hx, hd⟩ - hstep
  have hm := Moves.step hstep
  refine ⟨?_, (hm.doomed hx).trans hd⟩
  by_contra hy
  have := hm.listed (by simpa using hy)
  simp [hx] at this

/-- A sender that gives up before its message is delivered takes it with it. -/
theorem Channel.Ok.abort_lost (h : s.Ok) {v : ℕ} (hs : channelStep s (.abort v) = some t)
    (hdel : ∀ rv ∈ s.delivered, rv.replyVar ≠ v) : t.Lost v := by
  simp only [channelStep] at hs
  split_ifs at hs with hv
  obtain rfl := Option.some.inj hs
  have hlt := h.asleep v hv
  simp only [Channel.dequeueReply]
  split_ifs with hl
  · exact ⟨hlt, hdel, fun hl' => absurd hl' (by simpa using hl)⟩
  · refine ⟨hlt, hdel, fun _ rv hrv heq => ?_⟩
    -- the slots of the queue are distinct, so the first match is the only one
    have hids : (s.queue.map Entry.replyVar).Nodup := h.ids.sublist (((List.sublist_append_right _ _).trans h.order).map _)
    have hgone : ∀ (q : List Entry), (q.map Entry.replyVar).Nodup → rv ∉ q.eraseP fun rv => rv.replyVar = v := by
      intro q hq
      induction q with
      | nil => simp
      | cons e q ih =>
        rw [List.map_cons, List.nodup_cons] at hq
        by_cases he : e.replyVar = v
        · rw [List.eraseP_cons_of_pos (by simpa using he)]
          intro hin
          exact hq.1 (by rw [he, ← heq]; exact List.mem_map_of_mem hin)
        · rw [List.eraseP_cons_of_neg (by simpa using he), List.mem_cons, not_or]
          exact ⟨fun h => he (h ▸ heq), ih hq.2⟩
    exact hgone s.queue hids hrv

/-- What is queued when the endpoint leaves the table is not delivered any more. -/
theorem Channel.Ok.unlist_lost (h : s.Ok) (hl : s.listed = true) {rv : Entry} (hrv : rv ∈ s.queue) :
    s.unlist.Lost rv.replyVar := by
  have hids : ((s.delivered ++ s.queue).map Entry.replyVar).Nodup := h.ids.sublist (h.order.map _)
  rw [List.map_append, List.nodup_append] at hids
  simp only [Channel.unlist, hl, if_true]
  refine ⟨h.old rv (h.order.subset (List.mem_append_right _ hrv)), fun rv' hrv' => ?_, fun h => Bool.noConfusion h⟩
  exact hids.2.2 _ (List.mem_map_of_mem hrv') _ (List.mem_map_of_mem hrv)

/-- The queue protocol of an endpoint: bounded, in order, each message at most once, none after
its sender gave up, and none after the endpoint was freed, when every queued sender is told. -/
theorem endpoint_protocol (hrun : run channelStep Channel.newEndpoint as = some s) :
    s.queue.length ≤ maxQueueDepth ∧
    s.delivered.Sublist s.entered ∧ (s.delivered.map Entry.replyVar).Nodup ∧
    (∀ v t bs u, channelStep s (.abort v) = some t → v ∉ s.delivered.map Entry.replyVar →
      run channelStep t bs = some u → v ∉ u.delivered.map Entry.replyVar) ∧
    (∀ t bs u, s.listed = true → channelStep s .free = some t → run channelStep t bs = some u →
      (∀ rv ∈ s.queue, rv.replyVar ∉ u.delivered.map Entry.replyVar) ∧
      (u.teardown = .finished → ∀ rv ∈ s.queue, u.answersTo rv.replyVar = [.error .noSuchEndpoint]) ∧
      ∃ n w, run channelStep u (List.replicate n .drain) = some w ∧ w.teardown = .finished) := by
  have hok := Channel.Ok.newEndpoint.run hrun
  have hsub := (List.sublist_append_left _ _).trans hok.order
  have hout : ∀ {u : Channel} {v : ℕ}, u.Lost v → v ∉ u.delivered.map Entry.replyVar := by
    intro u v hlost hin
    obtain ⟨rv, hrv, heq⟩ := List.mem_map.mp hin
    exact hlost.2.1 rv hrv heq
  refine ⟨hok.short, hsub, hok.ids.sublist (hsub.map _), ?_, ?_⟩
  · intro v t bs u hstep hdel hlater
    have hlost := hok.abort_lost hstep fun rv hrv heq => hdel (heq ▸ List.mem_map_of_mem hrv)
    exact hout (hlost.run hlater)
  · intro t bs u hl hstep hlater
    obtain rfl := Option.some.inj hstep
    have hu := hok.unlist.run hlater
    have hunlisted : s.unlist.listed = false := by simp [Channel.unlist, hl]
    have hdoomed : s.unlist.doomed = s.queue := by simp [Channel.unlist, hl]
    obtain ⟨hlisted, hd⟩ := Channel.unlisted_run hunlisted hlater
    refine ⟨fun rv hrv => hout ((hok.unlist_lost hl hrv).run hlater), fun hfin rv hrv => ?_, Channel.drain_finishes hu hlisted⟩
    obtain hin | ⟨htold, -⟩ := hu.told hlisted rv (by rwa [hd, hdoomed])
    · simp [Channel.remaining, hfin] at hin
    · exact htold

/-- Two senders, of which the first gives up before anything is received. -/
theorem endpoint_protocol_abort : ∃ s t u,
    run channelStep Channel.newEndpoint [.send ⟨⟨1, [7]⟩, none⟩, .trySend ⟨⟨2, []⟩, none⟩] = some s ∧
    channelStep s (.abort 0) = some t ∧ run channelStep t [.recv, .free, .drain] = some u ∧
    u.delivered = [⟨⟨⟨2, []⟩, none⟩, 1⟩] ∧ s.queue.length ≤ maxQueueDepth ∧ 0 ∉ u.delivered.map Entry.replyVar := by
  refine ⟨_, _, _, rfl, rfl, rfl, rfl, ?_⟩
  obtain ⟨hshort, -, -, habort, -⟩ :=
    @endpoint_protocol _ [.send ⟨⟨1, [7]⟩, none⟩, .trySend ⟨⟨2, []⟩, none⟩] rfl
  exact ⟨hshort, habort 0 _ [.recv, .free, .drain] _ rfl (by decide) rfl⟩

end Runs

end HouseKernel.Ipc
