import Mathlib.Tactic

/-! The endpoint table of the rendezvous IPC: bounded FIFO queues of messages with a reply
slot each. A reply slot is filled at most once, and whoever fills it first answers the
sender. Reply slots are numbered in the order of their creation. -/
namespace HouseKernel.Ipc

def maxMsgWords : ℕ := 8
def maxQueueDepth : ℕ := 32

inductive IpcError where
  | noSuchEndpoint
  | wouldBlock
  | badGrant
  | queueFull
  | notOwner
  | nameExists
  | nameNotFound
  | invalidName (what : String)
  deriving DecidableEq, Repr

structure Message where
  tag : ℕ
  words : List ℕ
  deriving DecidableEq, Repr

/-- A message without a page grant; the EL0 path never attaches one. -/
def mkMessage (tag : ℕ) (ws : List ℕ) : Except IpcError Message :=
  if maxMsgWords < ws.length then .error .queueFull else .ok ⟨tag, ws⟩

structure Rendezvous where
  msg : Message
  replyVar : ℕ
  deriving DecidableEq, Repr

/-- The endpoints with their queues, and the content of every reply slot. -/
structure Endpoints where
  queues : ℕ → Option (List Rendezvous)
  nextEpId : ℕ
  nextVar : ℕ
  vars : ℕ → Option (Except IpcError Message)

def Endpoints.empty : Endpoints := ⟨fun _ => none, 0, 0, fun _ => none⟩

/-- `tryPutMVar`: only an empty slot takes the value. -/
def Endpoints.tryPut (t : Endpoints) (v : ℕ) (r : Except IpcError Message) : Endpoints :=
  if (t.vars v).isSome then t else { t with vars := Function.update t.vars v (some r) }

def Endpoints.newEndpoint (t : Endpoints) : Endpoints :=
  { t with queues := Function.update t.queues t.nextEpId (some []), nextEpId := t.nextEpId+1 }

/-- Destroy an endpoint and answer every queued sender. -/
def Endpoints.freeEndpoint (t : Endpoints) (ep : ℕ) : Endpoints :=
  match t.queues ep with
  | none => t
  | some q => q.foldl (fun t rv => t.tryPut rv.replyVar (.error .noSuchEndpoint))
      { t with queues := Function.update t.queues ep none }

/-- The enqueueing half of `send` and `trySend`. -/
def Endpoints.send (t : Endpoints) (ep : ℕ) (msg : Message) : Except IpcError ℕ × Endpoints :=
  let t' := { t with nextVar := t.nextVar+1 }
  match t.queues ep with
  | none => (.error .noSuchEndpoint, t')
  | some q =>
    if maxQueueDepth ≤ q.length then (.error .queueFull, t')
    else (.ok t.nextVar, { t' with queues := Function.update t.queues ep (some (q ++ [⟨msg, t.nextVar⟩])) })

/-- A sender that gives up takes its own entry out of the queue. -/
def Endpoints.dequeueReply (t : Endpoints) (v ep : ℕ) : Endpoints :=
  match t.queues ep with
  | none => t
  | some q =>
    { t with queues := Function.update t.queues ep (some (q.eraseP fun rv => rv.replyVar = v)) }

/-- One round of `recv`: the oldest entry, a filled slot for a freed endpoint, or nothing yet. -/
def Endpoints.recv (t : Endpoints) (ep : ℕ) : Option Rendezvous × Endpoints :=
  match t.queues ep with
  | none => (some ⟨⟨0, []⟩, t.nextVar⟩,
      { t with nextVar := t.nextVar+1,
               vars := Function.update t.vars t.nextVar (some (.error .noSuchEndpoint)) })
  | some [] => (none, t)
  | some (rv :: rest) => (some rv, { t with queues := Function.update t.queues ep (some rest) })

/-- The sender behind this reply slot has its answer. -/
def Endpoints.Answered (t : Endpoints) (v : ℕ) : Prop := (t.vars v).isSome = true

instance (t : Endpoints) (v : ℕ) : Decidable (t.Answered v) := inferInstanceAs (Decidable (_ = true))

theorem Endpoints.tryPut_answered (t : Endpoints) (v : ℕ) (r : Except IpcError Message) :
    (t.tryPut v r).Answered v := by
  unfold tryPut Answered
  split_ifs with h
  · exact h
  · simp

theorem Endpoints.Answered.tryPut {t : Endpoints} {v : ℕ} (h : t.Answered v) (w : ℕ)
    (r : Except IpcError Message) : (t.tryPut w r).Answered v := by
  unfold Endpoints.tryPut
  split_ifs with hw
  · exact h
  · by_cases hv : v = w
    · simp [Answered, hv]
    · simpa [Answered, Function.update_of_ne hv] using h

theorem Endpoints.Answered.freeEndpoint {t : Endpoints} {v : ℕ} (h : t.Answered v) (ep : ℕ) :
    (t.freeEndpoint ep).Answered v := by
  unfold Endpoints.freeEndpoint
  split
  · exact h
  case h_2 q _ =>
    have hfold : ∀ (q : List Rendezvous) (t : Endpoints), t.Answered v →
        (q.foldl (fun t rv => t.tryPut rv.replyVar (.error .noSuchEndpoint)) t).Answered v := by
      intro q
      induction q with
      | nil => exact fun _ h => h
      | cons rv q ih => exact fun t h => ih _ (h.tryPut _ _)
    exact hfold q _ h

theorem Endpoints.Answered.send {t : Endpoints} {v : ℕ} (h : t.Answered v) (ep : ℕ) (msg : Message) :
    (t.send ep msg).2.Answered v := by
  unfold Endpoints.send
  cases t.queues ep with
  | none => exact h
  | some q =>
    simp only
    split_ifs <;> exact h

theorem Endpoints.Answered.dequeueReply {t : Endpoints} {v : ℕ} (h : t.Answered v) (w ep : ℕ) :
    (t.dequeueReply w ep).Answered v := by
  unfold Endpoints.dequeueReply
  cases t.queues ep <;> exact h

theorem Endpoints.Answered.recv {t : Endpoints} {v : ℕ} (h : t.Answered v) (ep : ℕ) :
    (t.recv ep).2.Answered v := by
  unfold Endpoints.recv
  cases t.queues ep with
  | none =>
    by_cases hv : v = t.nextVar
    · simp [Answered, hv]
    · simpa [Answered, Function.update_of_ne hv] using h
  | some q => cases q <;> exact h

end HouseKernel.Ipc
