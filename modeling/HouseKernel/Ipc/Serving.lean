import HouseKernel.Ipc.Channel

/-! The service loop of one endpoint, beside its senders and its teardown. The loop looks for the
endpoint in the table twice a round: before it receives, and again before it calls the handler. -/
namespace HouseKernel.Ipc

open HouseKernel.Lib

/-- Where the loop is: before and after its first look, with a message before and after its second
look, with the handler's result, or returned. -/
inductive Loop where
  | idle
  | alive
  | received (rv : Entry)
  | handling (rv : Entry)
  | answering (rv : Entry) (r : Except IpcError GrantMessage)
  | returned

/-- The entry whose reply slot the loop holds. -/
def Loop.entry : Loop → Option Entry
  | received rv | handling rv | answering rv _ => some rv
  | _ => none

structure Serving where
  chan : Channel
  loop : Loop

def Serving.init : Serving := ⟨Channel.newEndpoint, .idle⟩

inductive ServingAction where
  | send (msg : GrantMessage)
  | trySend (msg : GrantMessage)
  | take (v : ℕ)
  | abort (v : ℕ)
  | free
  | drain
  /-- The first look at the table. -/
  | look
  | recv
  /-- The second look at the table. -/
  | check
  | handle (r : Except IpcError GrantMessage)
  | reply

/-- A step of the channel alone. -/
def Serving.via (s : Serving) (a : ChannelAction) : Option Serving :=
  (channelStep s.chan a).map fun ch => { s with chan := ch }

def servingStep (s : Serving) : ServingAction → Option Serving
  | .send msg => s.via (.send msg)
  | .trySend msg => s.via (.trySend msg)
  | .take v => s.via (.take v)
  | .abort v => s.via (.abort v)
  | .free => s.via .free
  | .drain => s.via .drain
  | .look => match s.loop with
    | .idle => some { s with loop := if s.chan.listed then .alive else .returned }
    | _ => none
  | .recv => match s.loop with
    | .alive => match s.chan.recv with
      | (none, ch) => some { s with chan := ch }
      | (some rv, ch) => some ⟨ch, .received rv⟩
    | _ => none
  | .check => match s.loop with
    | .received rv => some { s with loop := if s.chan.listed then .handling rv else .returned }
    | _ => none
  | .handle r => match s.loop with
    | .handling rv => some { s with loop := .answering rv r }
    | _ => none
  | .reply => match s.loop with
    | .answering rv r => some ⟨s.chan.tryPut rv.replyVar r, .idle⟩
    | _ => none

/-- The endpoint is freed, the loop has returned, and a message taken off the queue was never answered. -/
def Serving.Deserted (s : Serving) : Prop :=
  s.chan.listed = false ∧ s.loop = .returned ∧ ∃ rv ∈ s.chan.delivered, s.chan.answersTo rv.replyVar = []

def ServingAction.frees : ServingAction → Bool
  | free => true
  | _ => false

/-- The loop stands between a `recv` and the look that follows it. -/
def Loop.between : Loop → Bool
  | received _ => true
  | _ => false

/-- The endpoint is not freed between a `recv` and the look that follows it. -/
def Unhurried (s : Serving) (a : ServingAction) : Prop :=
  a.frees = false ∨ s.chan.listed = false ∨ s.loop.between = false

instance (s : Serving) (a : ServingAction) : Decidable (Unhurried s a) :=
  inferInstanceAs (Decidable (_ ∨ _))

/-- The loop will answer this entry. -/
def Serving.Owes (s : Serving) (rv : Entry) : Prop :=
  match s.loop with
  | .received rv' => rv' = rv ∧ s.chan.listed = true
  | .handling rv' => rv' = rv
  | .answering rv' _ => rv' = rv
  | _ => False

/-- What every unhurried run keeps: the loop owes what it took and did not answer. -/
structure Serving.Ok (s : Serving) : Prop where
  chan : s.chan.Ok
  owed : ∀ rv ∈ s.chan.delivered, s.chan.answersTo rv.replyVar ≠ [] ∨ s.Owes rv
  unfilled : ∀ rv ∈ s.chan.delivered, s.chan.answersTo rv.replyVar = [] → s.chan.vars rv.replyVar = none
  held : ∀ rv ∈ s.loop.entry, rv.replyVar ∈ s.chan.handles

namespace Serving

variable {s t : Serving} {a : ServingAction}

lemma Ok.init : Serving.init.Ok := ⟨Channel.Ok.newEndpoint, nofun, nofun, nofun⟩

/-- An answer is never taken back, and a put fills a slot or finds it filled. -/
lemma answersTo_tryPut (ch : Channel) (v w : ℕ) (r : Except IpcError GrantMessage) (h : ch.answersTo w ≠ []) :
    (ch.tryPut v r).answersTo w ≠ [] := by
  unfold Channel.tryPut
  split_ifs
  · exact h
  · simp only [Channel.answersTo, List.filter_append, List.map_append]
    exact List.append_ne_nil_of_left_ne_nil h _

lemma via_eq {b : ChannelAction} (hs : s.via b = some t) : ∃ ch, channelStep s.chan b = some ch ∧ t = { s with chan := ch } := by
  obtain ⟨ch, hch, rfl⟩ := Option.map_eq_some_iff.mp hs
  exact ⟨ch, hch, rfl⟩

/-- What the steps of senders and of the drain leave: the table, the deliveries and their answers. -/
structure Older (ch ch' : Channel) : Prop where
  listed : ch'.listed = ch.listed
  delivered : ch'.delivered = ch.delivered
  handles : ch'.handles = ch.handles
  answers : ∀ v, ch.answersTo v ≠ [] → ch'.answersTo v ≠ []
  vars : ∀ v, ch'.answersTo v = [] → ch.vars v = none → v < ch.nextVar → ch'.vars v = none

lemma Older.of_eq {ch ch' : Channel} (hl : ch'.listed = ch.listed) (hd : ch'.delivered = ch.delivered)
    (hh : ch'.handles = ch.handles) (ha : ch'.answers = ch.answers) (hv : ∀ v, ch.vars v = none → ch'.vars v = none) :
    Older ch ch' :=
  ⟨hl, hd, hh, fun v h => by rwa [Channel.answersTo, ha], fun v _ h _ => hv v h⟩

lemma Older.tryPut (ch : Channel) (v : ℕ) (r : Except IpcError GrantMessage) : Older ch (ch.tryPut v r) := by
  obtain ⟨vars, answers, heq, hother⟩ := ch.tryPut_frame v r
  refine ⟨by rw [heq], by rw [heq], by rw [heq], fun w h => answersTo_tryPut ch v w r h, fun w hnil hnone _ => ?_⟩
  by_cases hsame : w = v
  · subst hsame
    rw [Channel.tryPut_empty r hnone] at hnil
    exact absurd hnil (List.append_ne_nil_of_right_ne_nil _ (by simp))
  · rw [heq]
    exact (hother w hsame).1.trans hnone

lemma Older.enqueue (ch : Channel) (msg : GrantMessage) : Older ch (ch.enqueue msg).2 := by
  simp only [Channel.enqueue]
  split_ifs <;> exact Older.of_eq rfl rfl rfl rfl fun _ h => h

/-- Only `freeEndpoint` takes the endpoint out of the table, and only `recv` delivers. -/
lemma Older.step {ch ch' : Channel} {a : ChannelAction} (hs : channelStep ch a = some ch') (hrecv : a ≠ .recv)
    (hfree : a ≠ .free) : Older ch ch' := by
  cases a with
  | send msg =>
    have hold := Older.enqueue ch msg
    simp only [channelStep] at hs
    rcases henq : ch.enqueue msg with ⟨e | v, ch''⟩
    · rw [henq] at hs hold
      obtain rfl := Option.some.inj hs
      exact hold
    · rw [henq] at hs hold
      obtain rfl := Option.some.inj hs
      exact ⟨hold.listed, hold.delivered, hold.handles, hold.answers, hold.vars⟩
  | trySend msg =>
    obtain rfl := Option.some.inj hs
    exact Older.enqueue ch msg
  | recv => exact absurd rfl hrecv
  | reply v r =>
    simp only [channelStep] at hs
    split_ifs at hs
    obtain rfl := Option.some.inj hs
    exact Older.tryPut ch v r
  | take v =>
    simp only [channelStep] at hs
    split_ifs at hs
    obtain rfl := Option.some.inj hs
    refine Older.of_eq rfl rfl rfl rfl fun w hw => ?_
    simp only
    by_cases heq : w = v
    · rw [heq, Function.update_self]
    · rw [Function.update_of_ne heq, hw]
  | abort v =>
    simp only [channelStep] at hs
    split_ifs at hs
    obtain rfl := Option.some.inj hs
    simp only [Channel.dequeueReply]
    split_ifs <;> exact Older.of_eq rfl rfl rfl rfl fun _ h => h
  | free => exact absurd rfl hfree
  | drain =>
    simp only [channelStep, Channel.drain] at hs
    cases hd : ch.teardown with
    | idle => simp [hd] at hs
    | finished => simp [hd] at hs
    | unlisted =>
      simp only [hd, Option.some.injEq] at hs
      subst hs
      exact Older.of_eq rfl rfl rfl rfl fun _ h => h
    | waking rest =>
      cases rest with
      | nil =>
        simp only [hd, Option.some.injEq] at hs
        subst hs
        exact Older.of_eq rfl rfl rfl rfl fun _ h => h
      | cons rv rest =>
        simp only [hd, Option.some.injEq] at hs
        subst hs
        have hold := Older.tryPut ch rv.replyVar (.error .noSuchEndpoint)
        exact ⟨hold.listed, hold.delivered, hold.handles, hold.answers, hold.vars⟩

lemma Ok.old (h : s.Ok) {rv : Entry} (hrv : rv ∈ s.chan.delivered) : rv.replyVar < s.chan.nextVar :=
  h.chan.old rv (h.chan.order.subset (List.mem_append_left _ hrv))

/-- A step of senders or of the drain leaves the loop with what it owes. -/
lemma Ok.channel {ch : Channel} {a : ChannelAction} (h : s.Ok) (hs : channelStep s.chan a = some ch) (hrecv : a ≠ .recv)
    (hfree : a ≠ .free) : Ok { s with chan := ch } := by
  have hold := Older.step hs hrecv hfree
  refine ⟨h.chan.step hs, fun rv hrv => ?_, fun rv hrv hnil => ?_, fun rv hrv => hold.handles ▸ h.held rv hrv⟩
  · obtain hdone | howed := h.owed rv (hold.delivered ▸ hrv)
    · exact .inl (hold.answers _ hdone)
    · exact .inr (by simpa only [Owes, hold.listed] using howed)
  · have hrv' : rv ∈ s.chan.delivered := hold.delivered ▸ hrv
    refine hold.vars _ hnil (h.unfilled rv hrv' ?_) (h.old hrv')
    by_contra hne
    exact hold.answers _ hne hnil

/-- The loop may go on when it owes what it owed. -/
lemma Ok.loop {l : Loop} (h : s.Ok) (howes : ∀ rv, s.Owes rv → Owes { s with loop := l } rv)
    (hentry : ∀ rv ∈ l.entry, rv ∈ s.loop.entry) : Ok { s with loop := l } := by
  refine ⟨h.chan, fun rv hrv => ?_, h.unfilled, fun rv hrv => h.held rv (hentry rv hrv)⟩
  obtain hdone | howed := h.owed rv hrv
  · exact .inl hdone
  · exact .inr (howes rv howed)

theorem Ok.free (h : s.Ok) (hg : Unhurried s .free) : Ok { s with chan := s.chan.unlist } := by
  have hdata : s.chan.unlist.delivered = s.chan.delivered ∧ s.chan.unlist.answers = s.chan.answers ∧
      s.chan.unlist.vars = s.chan.vars ∧ s.chan.unlist.handles = s.chan.handles := by
    simp only [Channel.unlist]
    split_ifs <;> exact ⟨rfl, rfl, rfl, rfl⟩
  obtain ⟨hd, ha, hv, hh⟩ := hdata
  refine ⟨h.chan.unlist, fun rv hrv => ?_, fun rv hrv hnil => ?_, fun rv hrv => hh ▸ h.held rv hrv⟩
  · obtain hdone | howed := h.owed rv (hd ▸ hrv)
    · exact .inl (by rwa [Channel.answersTo, ha])
    · right
      unfold Owes at howed ⊢
      cases hl : s.loop with
      | received rv' =>
        simp only [hl] at howed
        obtain hcalm | hgone | hcalm := hg
        · cases hcalm
        · rw [howed.2] at hgone
          cases hgone
        · rw [hl] at hcalm
          cases hcalm
      | idle | alive | returned => simp [hl] at howed
      | handling | answering => simpa only [hl] using howed
  · rw [hd] at hrv
    rw [hv]
    exact h.unfilled rv hrv (by rwa [Channel.answersTo, ha] at hnil)

/-- A receive hands the loop what it owes from then on. -/
theorem Ok.recv (h : s.Ok) (hl : s.loop = .alive) {rv : Entry} {ch : Channel} (hr : s.chan.recv = (some rv, ch)) :
    Ok ⟨ch, .received rv⟩ := by
  have hchan := h.chan.recv
  rw [hr] at hchan
  have hdone : ∀ rv ∈ s.chan.delivered, s.chan.answersTo rv.replyVar ≠ [] := by
    intro rv hrv
    refine (h.owed rv hrv).resolve_right ?_
    simp [Owes, hl]
  unfold Channel.recv at hr
  split_ifs at hr with hlisted
  · simp only [Prod.mk.injEq, Option.some.injEq] at hr
    obtain ⟨rfl, rfl⟩ := hr
    refine ⟨hchan, fun rv hrv => .inl (hdone rv hrv), fun rv hrv hnil => absurd hnil (hdone rv hrv), fun rv hrv => ?_⟩
    obtain rfl := Option.some.inj hrv
    exact List.mem_cons_self
  · rcases hq : s.chan.queue with _ | ⟨rv', rest⟩
    · simp [hq] at hr
    · simp only [hq, Prod.mk.injEq, Option.some.injEq] at hr
      obtain ⟨rfl, rfl⟩ := hr
      have hlisted' : s.chan.listed = true := by simpa using hlisted
      have hin : rv' ∈ s.chan.remaining := by
        rw [Channel.remaining_of_listed h.chan hlisted', hq]
        exact List.mem_cons_self
      refine ⟨hchan, fun rv hrv => ?_, fun rv hrv hnil => ?_, fun rv hrv => ?_⟩
      · obtain hrv | hrv := List.mem_append.mp hrv
        · exact .inl (hdone rv hrv)
        · obtain rfl := List.mem_singleton.mp hrv
          exact .inr ⟨rfl, hlisted'⟩
      · obtain hrv | hrv := List.mem_append.mp hrv
        · exact absurd hnil (hdone rv hrv)
        · obtain rfl := List.mem_singleton.mp hrv
          exact (h.chan.silent rv hin).1
      · obtain rfl := Option.some.inj hrv
        exact List.mem_cons_self

/-- The reply settles the debt. -/
theorem Ok.reply {rv : Entry} {r : Except IpcError GrantMessage} (h : s.Ok) (hl : s.loop = .answering rv r) :
    Ok ⟨s.chan.tryPut rv.replyVar r, .idle⟩ := by
  have hold := Older.tryPut s.chan rv.replyVar r
  have hdone : ∀ rv' ∈ s.chan.delivered, (s.chan.tryPut rv.replyVar r).answersTo rv'.replyVar ≠ [] := by
    intro rv' hrv'
    by_cases hnil : s.chan.answersTo rv'.replyVar = []
    · have howed := (h.owed rv' hrv').resolve_left (not_not.mpr hnil)
      simp only [Owes, hl] at howed
      subst howed
      rw [Channel.tryPut_empty r (h.unfilled rv hrv' hnil)]
      exact List.append_ne_nil_of_right_ne_nil _ (by simp)
    · exact hold.answers _ hnil
  refine ⟨h.chan.reply (h.held rv (by rw [hl]; rfl)) r, fun rv' hrv' => .inl (hdone rv' (hold.delivered ▸ hrv')),
    fun rv' hrv' hnil => ?_, nofun⟩
  exact absurd hnil (hdone rv' (hold.delivered ▸ hrv'))

/-- Every step that meets the condition keeps the invariant. -/
theorem Ok.step (h : s.Ok) (hg : Unhurried s a) (hs : servingStep s a = some t) : t.Ok := by
  cases a with
  | send msg =>
    obtain ⟨ch, hch, rfl⟩ := via_eq hs
    exact h.channel hch nofun nofun
  | trySend msg =>
    obtain ⟨ch, hch, rfl⟩ := via_eq hs
    exact h.channel hch nofun nofun
  | take v =>
    obtain ⟨ch, hch, rfl⟩ := via_eq hs
    exact h.channel hch nofun nofun
  | abort v =>
    obtain ⟨ch, hch, rfl⟩ := via_eq hs
    exact h.channel hch nofun nofun
  | drain =>
    obtain ⟨ch, hch, rfl⟩ := via_eq hs
    exact h.channel hch nofun nofun
  | free =>
    obtain rfl := Option.some.inj hs
    exact h.free hg
  | look =>
    simp only [servingStep] at hs
    split at hs
    case h_1 hl =>
      obtain rfl := Option.some.inj hs
      refine h.loop (fun rv howed => ?_) ?_
      · simp [Owes, hl] at howed
      · split_ifs <;> exact nofun
    case h_2 => cases hs
  | recv =>
    simp only [servingStep] at hs
    split at hs
    case h_1 hl =>
      rcases hr : s.chan.recv with ⟨_ | rv, ch⟩
      · -- an empty queue leaves everything as it is
        have hsame : ch = s.chan := by
          unfold Channel.recv at hr
          split_ifs at hr
          · cases (Prod.mk.inj hr).1
          · rcases hq : s.chan.queue with _ | ⟨rv, rest⟩
            · simpa [hq, eq_comm] using hr
            · simp [hq] at hr
        rw [hr] at hs
        obtain rfl := Option.some.inj hs
        rw [hsame]
        exact h
      · rw [hr] at hs
        obtain rfl := Option.some.inj hs
        exact h.recv hl hr
    case h_2 => cases hs
  | check =>
    simp only [servingStep] at hs
    split at hs
    case h_1 rv hl =>
      obtain rfl := Option.some.inj hs
      refine h.loop (fun rv' howed => ?_) ?_
      · simp only [Owes, hl] at howed
        simp only [Owes, howed.2, if_true]
        exact howed.1
      · rw [hl]
        split_ifs
        · exact fun rv' hrv' => hrv'
        · exact nofun
    case h_2 => cases hs
  | handle r =>
    simp only [servingStep] at hs
    split at hs
    case h_1 rv hl =>
      obtain rfl := Option.some.inj hs
      refine h.loop (fun rv' howed => ?_) ?_
      · simpa only [Owes, hl] using howed
      · rw [hl]
        exact fun rv' hrv' => hrv'
    case h_2 => cases hs
  | reply =>
    simp only [servingStep] at hs
    split at hs
    case h_1 rv r hl =>
      obtain rfl := Option.some.inj hs
      exact h.reply hl
    case h_2 => cases hs

theorem Ok.not_deserted (h : s.Ok) : ¬ s.Deserted := by
  rintro ⟨-, hl, rv, hrv, hnil⟩
  obtain hdone | howed := h.owed rv hrv
  · exact hdone hnil
  · simp [Owes, hl] at howed

/-- Freed while the loop stands between a `recv` and its second look, the endpoint leaves the message
that was taken without an answer. -/
theorem deserted_of_hurry {rv : Entry} (hl : s.loop = .received rv) (hlisted : s.chan.listed = true)
    (hrv : rv ∈ s.chan.delivered) (hnil : s.chan.answersTo rv.replyVar = []) :
    ∃ t, run servingStep s [.free, .check] = some t ∧ t.Deserted := by
  refine ⟨⟨s.chan.unlist, .returned⟩, ?_, ?_, rfl, rv, ?_, ?_⟩
  · simp [run, servingStep, Serving.via, channelStep, hl, Channel.unlist, hlisted]
  · simp [Channel.unlist, hlisted]
  · simpa [Channel.unlist, hlisted] using hrv
  · simpa [Channel.unlist, hlisted, Channel.answersTo] using hnil

end Serving

/-- In a run in which the endpoint is never freed between a `recv` and the look that follows it, every message
taken off the queue is answered by the time the loop has returned. -/
theorem taken_messages_answered {as : List ServingAction} (h : Along servingStep Unhurried Serving.init as) :
    Throughout servingStep (fun s => ¬ s.Deserted) Serving.init as := by
  rintro bs ⟨cs, rfl⟩ s hrun
  have hok : s.Ok := run_invariant (fun _ _ _ hs hG hstep => hs.step hG hstep) Serving.Ok.init (along_append.mp h).1 hrun
  exact hok.not_deserted

/-- A request that is served, and one that comes before the endpoint is freed. -/
theorem taken_messages_answered_twice :
    (run servingStep Serving.init [.send ⟨⟨1, [5]⟩, none⟩, .look, .recv, .check, .send ⟨⟨1, [6]⟩, none⟩, .free,
      .handle (.ok ⟨⟨2, []⟩, none⟩), .reply, .drain, .drain, .look]).isSome = true ∧
    Throughout servingStep (fun s => ¬ s.Deserted) Serving.init
      [.send ⟨⟨1, [5]⟩, none⟩, .look, .recv, .check, .send ⟨⟨1, [6]⟩, none⟩, .free,
        .handle (.ok ⟨⟨2, []⟩, none⟩), .reply, .drain, .drain, .look] := by
  exact ⟨by decide, taken_messages_answered (by decide)⟩

/-- The sender of this run waits for a reply that nobody is left to give. -/
theorem taken_message_deserted :
    ∃ s, run servingStep Serving.init [.send ⟨⟨1, [5]⟩, none⟩, .look, .recv, .free, .check, .drain, .drain] = some s ∧
      s.Deserted ∧ 0 ∈ s.chan.waiting ∧ s.chan.vars 0 = none ∧ s.chan.teardown = .finished := by
  refine ⟨_, rfl, ⟨rfl, rfl, ⟨⟨⟨1, [5]⟩, none⟩, 0⟩, ?_, rfl⟩, ?_, rfl, rfl⟩
  · exact List.mem_cons_self
  · exact List.mem_cons_self

end HouseKernel.Ipc
