import HouseKernel.Ipc.Endpoint
import HouseKernel.Lib.Run

/-! The RECV and REPLY traps of EL0 processes over the endpoint table. A RECV takes a reply
slot off an endpoint, keeps it in hand while the message is copied out and files it under
its pid; a REPLY takes it back and answers; a reaper answers for a dead pid. Each critical
section is one action, so other processes, senders and reapers may act between any two. -/
namespace HouseKernel.Userspace

open HouseKernel.Ipc HouseKernel.Lib

/-- What the thread of a process holds in the middle of a trap. -/
inductive Trap where
  | received (rv : Rendezvous)
  | replying (v : ℕ) (answer : Except IpcError Message)
  | restash (v : ℕ)
  deriving Repr

def Trap.var : Trap → ℕ
  | .received rv => rv.replyVar
  | .replying v _ => v
  | .restash v => v

/-- The outcome of faulting the user buffer in and copying the words out. -/
inductive CopyOut where
  | demandNoMem
  | demandMiss
  | copied (rc : ℤ)
  deriving DecidableEq, Repr

structure Supervisor where
  eps : Endpoints
  procMap : List ℕ
  pidNext : ℕ
  procGrants : ℕ → List ℕ
  pendingReply : ℕ → Option ℕ
  trap : ℕ → Option Trap
  reapers : List (ℕ × ℕ)
  /-- Every slot that some RECV took off an endpoint, with the pid. -/
  taken : List (ℕ × ℕ)

def Supervisor.boot : Supervisor :=
  ⟨.empty, [], 1, fun _ => [], fun _ => none, fun _ => none, [], []⟩

inductive IpcAction where
  | newEndpoint
  | freeEndpoint (ep : ℕ)
  | send (ep : ℕ) (msg : Message)
  | giveUp (v ep : ℕ)
  | spawn
  | grant (pid ep : ℕ)
  | recv (pid ep : ℕ)
  | recvTimeout (pid : ℕ)
  | recvStore (pid nwords : ℕ) (copy : CopyOut)
  | reply (pid nwords tag : ℕ) (copy : Except ℤ (ℕ → ℕ))
  | replyEnd (pid : ℕ)
  | reap (pid : ℕ)
  | reapEnd (pid v : ℕ)

/-- `readUser`: the words of a live pid's message buffer. -/
def readUser (s : Supervisor) (pid nwords : ℕ) (copy : Except ℤ (ℕ → ℕ)) :
    Option (Except ℤ (List ℕ)) :=
  if pid ∉ s.procMap then none
  else if 8 < nwords then some (.error (-22))
  else if nwords = 0 then some (.ok [])
  else match copy with
    | .error rc => some (.error rc)
    | .ok buf => some (.ok ((List.range nwords).map buf))

/-- The words a RECV copies out. -/
def recvWords (nwords : ℕ) (msg : Message) : List ℕ := msg.words.take (min 8 nwords)

/-- The copy-out of a RECV fails: nothing of the pending slot is kept. -/
def copyFails (nwords : ℕ) (msg : Message) (copy : CopyOut) : Bool :=
  !(recvWords nwords msg).isEmpty && decide (copy ≠ .copied 0)

/-- The critical section of RECV after the rendezvous. -/
def recvStore (s : Supervisor) (pid nwords : ℕ) (rv : Rendezvous) (copy : CopyOut) : Supervisor :=
  if pid ∉ s.procMap then
    { s with eps := s.eps.tryPut rv.replyVar (.error .noSuchEndpoint)
             trap := Function.update s.trap pid none }
  else
    let pending := Function.update s.pendingReply pid (some rv.replyVar)
    { s with
      pendingReply := if copyFails nwords rv.msg copy then Function.update pending pid none else pending
      trap := Function.update s.trap pid none }

/-- `takeStash` and what REPLY does with the slot it finds. -/
def takeStash (s : Supervisor) (pid : ℕ) (next : ℕ → Trap) : Supervisor :=
  match s.pendingReply pid with
  | none => s
  | some v => { s with pendingReply := Function.update s.pendingReply pid none
                       trap := Function.update s.trap pid (some (next v)) }

def reply (s : Supervisor) (pid nwords tag : ℕ) (copy : Except ℤ (ℕ → ℕ)) : Supervisor :=
  match readUser s pid nwords copy with
  | none => takeStash s pid fun v => .replying v (.error .noSuchEndpoint)
  | some (.error _) => s
  | some (.ok ws) => takeStash s pid fun v => match mkMessage tag ws with
    | .error _ => .restash v
    | .ok msg => .replying v (.ok msg)

/-- The bookkeeping of `waitPid` and `killPid` under the lock. -/
def reap (s : Supervisor) (pid : ℕ) : Supervisor :=
  { s with
    procMap := s.procMap.erase pid
    pendingReply := Function.update s.pendingReply pid none
    procGrants := Function.update s.procGrants pid []
    reapers := (s.pendingReply pid).toList.map (pid, ·) ++ s.reapers }

/-- One critical section of a sender, a process or a reaper. A process has one trap at a time. -/
def ipcStep (s : Supervisor) : IpcAction → Option Supervisor
  | .newEndpoint => some { s with eps := s.eps.newEndpoint }
  | .freeEndpoint ep => some { s with eps := s.eps.freeEndpoint ep }
  | .send ep msg => some { s with eps := (s.eps.send ep msg).2 }
  | .giveUp v ep => some { s with eps := s.eps.dequeueReply v ep }
  | .spawn => some { s with procMap := s.pidNext :: s.procMap, pidNext := s.pidNext+1 }
  | .grant pid ep =>
    some { s with procGrants := Function.update s.procGrants pid
                    (ep :: (s.procGrants pid).filter (· ≠ ep)) }
  | .recv pid ep =>
    if (s.trap pid).isSome ∨ ep ∉ s.procGrants pid then none
    else match s.eps.recv ep with
      | (none, _) => none
      | (some rv, eps) => some { s with eps := eps
                                        trap := Function.update s.trap pid (some (.received rv))
                                        taken := (pid, rv.replyVar) :: s.taken }
  | .recvTimeout pid => match s.trap pid with
    | some (.received _) => some { s with trap := Function.update s.trap pid none }
    | _ => none
  | .recvStore pid nwords copy => match s.trap pid with
    | some (.received rv) => some (recvStore s pid nwords rv copy)
    | _ => none
  | .reply pid nwords tag copy =>
    if (s.trap pid).isSome then none else some (reply s pid nwords tag copy)
  | .replyEnd pid => match s.trap pid with
    | some (.replying v answer) =>
      some { s with eps := s.eps.tryPut v answer, trap := Function.update s.trap pid none }
    | some (.restash v) =>
      some { s with pendingReply := Function.update s.pendingReply pid (some v)
                    trap := Function.update s.trap pid none }
    | _ => none
  | .reap pid => if pid ∈ s.procMap then some (reap s pid) else none
  | .reapEnd pid v =>
    if (pid, v) ∈ s.reapers then
      some { s with eps := s.eps.tryPut v (.error .noSuchEndpoint), reapers := s.reapers.erase (pid, v) }
    else none

/-- A thread is at work on this slot for this pid. -/
def Supervisor.InHand (s : Supervisor) (pid v : ℕ) : Prop :=
  (s.trap pid).map Trap.var = some v ∨ (pid, v) ∈ s.reapers

/-- Where a slot that a RECV took is accounted for. -/
def Supervisor.Kept (s : Supervisor) (pid v : ℕ) : Prop :=
  s.pendingReply pid = some v ∨ s.eps.Answered v ∨ s.InHand pid v

/-- The step loses an unanswered slot: the receive times out after the rendezvous, a live
process files a slot over a pending one, or its copy-out fails. -/
def Drops (s : Supervisor) : IpcAction → Prop
  | .recvTimeout pid => ∃ rv, s.trap pid = some (.received rv) ∧ ¬ s.eps.Answered rv.replyVar
  | .recvStore pid nwords copy => ∃ rv, s.trap pid = some (.received rv) ∧ pid ∈ s.procMap ∧
      ((∃ v, s.pendingReply pid = some v ∧ ¬ s.eps.Answered v) ∨
        (copyFails nwords rv.msg copy = true ∧ ¬ s.eps.Answered rv.replyVar))
  | _ => False

/-- Every slot taken off an endpoint is accounted for, and no REPLY puts a slot back. -/
structure Accounted (s : Supervisor) : Prop where
  kept : ∀ p v, (p, v) ∈ s.taken → s.Kept p v
  noRestash : ∀ p v, s.trap p ≠ some (.restash v)

lemma boot_accounted : Accounted .boot where
  kept := by simp [Supervisor.boot]
  noRestash := by simp [Supervisor.boot]

/-- A step that leaves what concerns `p` alone and takes no answer back keeps its slots. -/
lemma Supervisor.Kept.frame {s t : Supervisor} {p v : ℕ} (h : s.Kept p v)
    (hpend : t.pendingReply p = s.pendingReply p) (htrap : t.trap p = s.trap p)
    (hreap : (p, v) ∈ s.reapers → t.eps.Answered v ∨ (p, v) ∈ t.reapers)
    (hans : s.eps.Answered v → t.eps.Answered v) : t.Kept p v := by
  obtain h | h | h | h := h
  · exact Or.inl (hpend.trans h)
  · exact Or.inr (Or.inl (hans h))
  · exact Or.inr (Or.inr (Or.inl (by rw [htrap]; exact h)))
  · obtain h | h := hreap h
    · exact Or.inr (Or.inl h)
    · exact Or.inr (Or.inr (Or.inr h))

/-- A step of the endpoint table that takes no answer back. -/
lemma Accounted.eps {s : Supervisor} (h : Accounted s) {t : Endpoints}
    (hans : ∀ v, s.eps.Answered v → t.Answered v) : Accounted { s with eps := t } where
  kept p v hv := (h.kept p v hv).frame rfl rfl Or.inr (hans v)
  noRestash := h.noRestash

lemma mkMessage_of_readUser {s : Supervisor} {pid nwords tag : ℕ} {copy : Except ℤ (ℕ → ℕ)}
    {ws : List ℕ} (h : readUser s pid nwords copy = some (.ok ws)) :
    mkMessage tag ws = .ok ⟨tag, ws⟩ := by
  have hlen : ws.length ≤ 8 := by
    unfold readUser at h
    split_ifs at h with hlive h8 h0
    · simp at h
    · simp only [Option.some.injEq, Except.ok.injEq] at h
      simp [← h]
    · cases copy with
      | error rc => simp at h
      | ok buf =>
        simp only [Option.some.injEq, Except.ok.injEq] at h
        rw [← h]
        simp
        omega
  unfold mkMessage maxMsgWords
  rw [if_neg (by omega)]

lemma Accounted.takeStash {s : Supervisor} (h : Accounted s) {pid : ℕ} (hfree : s.trap pid = none)
    {next : ℕ → Trap} (hvar : ∀ v, (next v).var = v) (hne : ∀ v w, next v ≠ .restash w) :
    Accounted (takeStash s pid next) := by
  unfold Userspace.takeStash
  cases hp : s.pendingReply pid with
  | none => exact h
  | some w =>
    refine ⟨fun p v hv => ?_, fun p v => ?_⟩
    · by_cases hpid : p = pid
      · subst hpid
        obtain hk | hk | hk | hk := h.kept p v hv
        · obtain rfl : w = v := Option.some.inj (hp.symm.trans hk)
          exact Or.inr (Or.inr (Or.inl (by simp [hvar])))
        · exact Or.inr (Or.inl hk)
        · simp [hfree] at hk
        · exact Or.inr (Or.inr (Or.inr hk))
      · exact (h.kept p v hv).frame (by simp [hpid]) (by simp [hpid]) Or.inr id
    · by_cases hpid : p = pid
      · simpa [hpid] using hne w v
      · simpa [Function.update_of_ne hpid] using h.noRestash p v

lemma Accounted.reply {s : Supervisor} (h : Accounted s) {pid : ℕ} (hfree : s.trap pid = none)
    (nwords tag : ℕ) (copy : Except ℤ (ℕ → ℕ)) : Accounted (reply s pid nwords tag copy) := by
  unfold Userspace.reply
  split
  · exact h.takeStash hfree (fun _ => rfl) (by simp)
  · exact h
  case h_3 ws hws =>
    simp only [mkMessage_of_readUser hws]
    exact h.takeStash hfree (fun _ => rfl) (by simp)

lemma Accounted.reap {s : Supervisor} (h : Accounted s) (pid : ℕ) : Accounted (reap s pid) where
  kept p v hv := by
    by_cases hpid : p = pid
    · subst hpid
      obtain hk | hk | hk | hk := h.kept p v hv
      · exact Or.inr (Or.inr (Or.inr (by simp [Userspace.reap, hk])))
      · exact Or.inr (Or.inl hk)
      · exact Or.inr (Or.inr (Or.inl hk))
      · exact Or.inr (Or.inr (Or.inr (by simp [Userspace.reap, hk])))
    · refine (h.kept p v hv).frame (by simp [Userspace.reap, hpid]) rfl (fun hr => Or.inr ?_) id
      simp [Userspace.reap, hr]
  noRestash := h.noRestash

/-- The end of a trap: the slot it held is answered, and nothing else moves. -/
lemma Accounted.answerTrap {s : Supervisor} (h : Accounted s) {pid : ℕ} {tr : Trap}
    (htrap : s.trap pid = some tr) (r : Except IpcError Message) :
    Accounted { s with eps := s.eps.tryPut tr.var r, trap := Function.update s.trap pid none } where
  kept p v hv := by
    by_cases hpid : p = pid
    · subst hpid
      obtain hk | hk | hk | hk := h.kept p v hv
      · exact Or.inl hk
      · exact Or.inr (Or.inl (hk.tryPut _ _))
      · obtain rfl : tr.var = v := by simpa [htrap] using hk
        exact Or.inr (Or.inl (Endpoints.tryPut_answered _ _ _))
      · exact Or.inr (Or.inr (Or.inr hk))
    · exact (h.kept p v hv).frame rfl (by simp [hpid]) Or.inr fun ha => ha.tryPut _ _
  noRestash p v := by
    by_cases hpid : p = pid
    · simp [hpid]
    · simpa [Function.update_of_ne hpid] using h.noRestash p v

/-- The end of a RECV of a live process: its slot is filed, or answered already. -/
lemma Accounted.file {s : Supervisor} (h : Accounted s) {pid : ℕ} {tr : Trap} {stash : Option ℕ}
    (htrap : s.trap pid = some tr) (hold : ∀ v, s.pendingReply pid = some v → s.eps.Answered v)
    (hnew : stash = some tr.var ∨ s.eps.Answered tr.var) :
    Accounted { s with pendingReply := Function.update s.pendingReply pid stash
                       trap := Function.update s.trap pid none } where
  kept p v hv := by
    by_cases hpid : p = pid
    · subst hpid
      obtain hk | hk | hk | hk := h.kept p v hv
      · exact Or.inr (Or.inl (hold v hk))
      · exact Or.inr (Or.inl hk)
      · obtain rfl : tr.var = v := by simpa [htrap] using hk
        obtain hs | hs := hnew
        · exact Or.inl (by simp [hs])
        · exact Or.inr (Or.inl hs)
      · exact Or.inr (Or.inr (Or.inr hk))
    · exact (h.kept p v hv).frame (by simp [hpid]) (by simp [hpid]) Or.inr id
  noRestash p v := by
    by_cases hpid : p = pid
    · simp [hpid]
    · simpa [Function.update_of_ne hpid] using h.noRestash p v

lemma Accounted.recvStore {s : Supervisor} (h : Accounted s) {pid nwords : ℕ} {rv : Rendezvous}
    {copy : CopyOut} (htrap : s.trap pid = some (.received rv))
    (hd : ¬ Drops s (.recvStore pid nwords copy)) : Accounted (recvStore s pid nwords rv copy) := by
  by_cases hlive : pid ∈ s.procMap
  · have hold : ∀ v, s.pendingReply pid = some v → s.eps.Answered v := by
      intro v hv
      by_contra hna
      exact hd ⟨rv, htrap, hlive, Or.inl ⟨v, hv, hna⟩⟩
    simp only [Userspace.recvStore, hlive, not_true_eq_false, if_false]
    split_ifs with hfail
    · have hans : s.eps.Answered rv.replyVar := by
        by_contra hna
        exact hd ⟨rv, htrap, hlive, Or.inr ⟨hfail, hna⟩⟩
      rw [Function.update_idem]
      exact h.file htrap hold (Or.inr hans)
    · exact h.file htrap hold (Or.inl rfl)
  · simp only [Userspace.recvStore, hlive, not_false_eq_true, if_true]
    exact h.answerTrap htrap _

/-- A RECV takes a message: the slot of its sender is in the hands of the trap. -/
lemma Accounted.recv {s : Supervisor} (h : Accounted s) {pid : ℕ} {eps : Endpoints} (hfree : s.trap pid = none)
    (hmono : ∀ v, s.eps.Answered v → eps.Answered v) (rv : Rendezvous) :
    Accounted { s with eps := eps
                       trap := Function.update s.trap pid (some (.received rv))
                       taken := (pid, rv.replyVar) :: s.taken } where
  kept p v hv := by
    by_cases hpid : p = pid
    · subst hpid
      obtain ⟨-, rfl⟩ | hv : (p, v) = (p, rv.replyVar) ∨ (p, v) ∈ s.taken := by simpa using hv
      · exact Or.inr (Or.inr (Or.inl (by simp [Trap.var])))
      obtain hk | hk | hk | hk := h.kept p v hv
      · exact Or.inl hk
      · exact Or.inr (Or.inl (hmono v hk))
      · simp [hfree] at hk
      · exact Or.inr (Or.inr (Or.inr hk))
    · have hv : (p, v) ∈ s.taken := by simpa [hpid] using hv
      exact (h.kept p v hv).frame rfl (by simp [hpid]) Or.inr (hmono v)
  noRestash p v := by
    by_cases hpid : p = pid
    · simp [hpid]
    · simpa [Function.update_of_ne hpid] using h.noRestash p v

/-- A RECV ends without its slot, which is answered already. -/
lemma Accounted.giveUp {s : Supervisor} (h : Accounted s) {pid : ℕ} {tr : Trap} (htrap : s.trap pid = some tr)
    (hans : s.eps.Answered tr.var) : Accounted { s with trap := Function.update s.trap pid none } where
  kept p v hv := by
    by_cases hpid : p = pid
    · subst hpid
      obtain hk | hk | hk | hk := h.kept p v hv
      · exact Or.inl hk
      · exact Or.inr (Or.inl hk)
      · obtain rfl : tr.var = v := by simpa [htrap] using hk
        exact Or.inr (Or.inl hans)
      · exact Or.inr (Or.inr (Or.inr hk))
    · exact (h.kept p v hv).frame rfl (by simp [hpid]) Or.inr id
  noRestash p v := by
    by_cases hpid : p = pid
    · simp [hpid]
    · simpa [Function.update_of_ne hpid] using h.noRestash p v

/-- A reaper answers the slot that it took over. -/
lemma Accounted.reapEnd {s : Supervisor} (h : Accounted s) (pid v : ℕ) :
    Accounted { s with eps := s.eps.tryPut v (.error .noSuchEndpoint), reapers := s.reapers.erase (pid, v) } := by
  refine ⟨fun p w hw => (h.kept p w hw).frame rfl rfl (fun hr => ?_) (fun ha => ha.tryPut _ _),
    h.noRestash⟩
  by_cases heq : (p, w) = (pid, v)
  · obtain ⟨rfl, rfl⟩ := Prod.mk.inj heq
    exact Or.inl (Endpoints.tryPut_answered _ _ _)
  · exact Or.inr ((List.mem_erase_of_ne heq).mpr hr)

theorem Accounted.step {s t : Supervisor} {a : IpcAction} (h : Accounted s) (hd : ¬ Drops s a)
    (hs : ipcStep s a = some t) : Accounted t := by
  cases a with
  | newEndpoint =>
    cases hs
    exact h.eps fun _ hv => hv
  | freeEndpoint ep =>
    cases hs
    exact h.eps fun _ hv => hv.freeEndpoint ep
  | send ep msg =>
    cases hs
    exact h.eps fun _ hv => hv.send ep msg
  | giveUp v ep =>
    cases hs
    exact h.eps fun _ hv => hv.dequeueReply v ep
  | spawn =>
    cases hs
    exact ⟨fun p v hv => (h.kept p v hv).frame rfl rfl Or.inr id, h.noRestash⟩
  | grant pid ep =>
    cases hs
    exact ⟨fun p v hv => (h.kept p v hv).frame rfl rfl Or.inr id, h.noRestash⟩
  | recv pid ep =>
    simp only [ipcStep] at hs
    split_ifs at hs with hbusy
    obtain ⟨hfree, -⟩ : s.trap pid = none ∧ ep ∈ s.procGrants pid := by simpa using hbusy
    rcases hr : s.eps.recv ep with ⟨_ | rv, eps⟩
    · simp [hr] at hs
    simp only [hr, Option.some.injEq] at hs
    subst hs
    exact h.recv hfree (fun v hv => by simpa [hr] using hv.recv ep) rv
  | recvTimeout pid =>
    simp only [ipcStep] at hs
    split at hs
    case h_1 rv htrap =>
      cases hs
      refine h.giveUp htrap ?_
      by_contra hna
      exact hd ⟨rv, htrap, hna⟩
    case h_2 => simp at hs
  | recvStore pid nwords copy =>
    simp only [ipcStep] at hs
    split at hs
    case h_1 rv htrap =>
      cases hs
      exact h.recvStore htrap hd
    case h_2 => simp at hs
  | reply pid nwords tag copy =>
    simp only [ipcStep] at hs
    split_ifs at hs with hbusy
    cases hs
    exact h.reply (by simpa using hbusy) nwords tag copy
  | replyEnd pid =>
    simp only [ipcStep] at hs
    split at hs
    case h_1 v answer htrap =>
      cases hs
      exact h.answerTrap htrap answer
    case h_2 v htrap => exact absurd htrap (h.noRestash pid v)
    case h_3 => simp at hs
  | reap pid =>
    simp only [ipcStep] at hs
    split_ifs at hs
    cases hs
    exact h.reap pid
  | reapEnd pid v =>
    simp only [ipcStep] at hs
    split_ifs at hs with hmem
    cases hs
    exact h.reapEnd pid v

/-- In every run none of whose steps drops a slot, each slot that a RECV took is pending for
its pid, answered, or in the hands of a trap or a reaper that is at work on it. -/
theorem rendezvous_kept {s : Supervisor} {as : List IpcAction}
    (hd : Along ipcStep (fun s a => ¬ Drops s a) .boot as) (hrun : run ipcStep .boot as = some s)
    {pid v : ℕ} (htaken : (pid, v) ∈ s.taken) :
    s.Kept pid v ∧
      (s.trap pid = none → (pid, v) ∉ s.reapers → s.pendingReply pid = some v ∨ s.eps.Answered v) := by
  have h : Accounted s := run_invariant (fun _ _ _ hI hG hs => hI.step hG hs) boot_accounted hd hrun
  refine ⟨h.kept pid v htaken, fun htrap hreap => ?_⟩
  obtain hk | hk | hk | hk := h.kept pid v htaken
  · exact Or.inl hk
  · exact Or.inr hk
  · simp [htrap] at hk
  · exact absurd hk hreap

/-- Process 1 serves endpoint 0 and has taken its first sender off the queue. -/
def firstRecv : List IpcAction :=
  [.spawn, .newEndpoint, .grant 1 0, .send 0 ⟨1, [10]⟩, .recv 1 0]

/-- What is left of the slot 0 of process 1, as far as it can be read off a state. -/
def Supervisor.lostFirst (s : Supervisor) : Bool :=
  s.taken.contains (1, 0) && s.pendingReply 1 != some 0 && (s.eps.vars 0).isNone &&
    (s.trap 1).isNone && s.reapers.isEmpty

lemma not_kept_of_lostFirst {s : Supervisor} (h : s.lostFirst = true) :
    (1, 0) ∈ s.taken ∧ ¬ s.Kept 1 0 := by
  simp only [Supervisor.lostFirst, Bool.and_eq_true, List.contains_iff_mem, bne_iff_ne,
    Option.isNone_iff_eq_none, List.isEmpty_iff] at h
  obtain ⟨⟨⟨⟨ht, hp⟩, hv⟩, htrap⟩, hreap⟩ := h
  refine ⟨ht, ?_⟩
  rintro (hk | hk | hk | hk)
  · exact hp hk
  · simp [Endpoints.Answered, hv] at hk
  · simp [htrap] at hk
  · simp [hreap] at hk

lemma exists_lost_of_run {as : List IpcAction}
    (h : (run ipcStep .boot as).map Supervisor.lostFirst = some true) :
    ∃ s, run ipcStep .boot as = some s ∧ (1, 0) ∈ s.taken ∧ ¬ s.Kept 1 0 := by
  obtain ⟨s, hs, hl⟩ := Option.map_eq_some_iff.mp h
  exact ⟨s, hs, not_kept_of_lostFirst hl⟩

/-- A second RECV, a copy-out to an unmapped buffer and a late timeout each drop the sender. -/
theorem rendezvous_dropped :
    (∃ s, run ipcStep .boot (firstRecv ++ [.recvStore 1 1 (.copied 0), .send 0 ⟨2, [20]⟩, .recv 1 0,
      .recvStore 1 1 (.copied 0)]) = some s ∧ (1, 0) ∈ s.taken ∧ ¬ s.Kept 1 0) ∧
    (∃ s, run ipcStep .boot (firstRecv ++ [.recvStore 1 1 .demandMiss]) = some s ∧
      (1, 0) ∈ s.taken ∧ ¬ s.Kept 1 0) ∧
    (∃ s, run ipcStep .boot (firstRecv ++ [.recvTimeout 1]) = some s ∧
      (1, 0) ∈ s.taken ∧ ¬ s.Kept 1 0) :=
  ⟨exists_lost_of_run (by decide), exists_lost_of_run (by decide), exists_lost_of_run (by decide)⟩

/-- The first RECV alone files its sender. -/
theorem rendezvous_kept_first :
    ∃ s, run ipcStep .boot (firstRecv ++ [.recvStore 1 1 (.copied 0)]) = some s ∧
      s.Kept 1 0 := by
  have hobs : (run ipcStep .boot (firstRecv ++ [.recvStore 1 1 (.copied 0)])).map
      (fun s => s.taken.contains (1, 0)) = some true := by decide
  obtain ⟨s, hs, ht⟩ := Option.map_eq_some_iff.mp hobs
  have hpre : (run ipcStep .boot firstRecv).map
      (fun s => (s.pendingReply 1, (s.trap 1).map fun t => t.var)) = some (none, some 0) := by decide
  have hd : Along ipcStep (fun s a => ¬ Drops s a) .boot (firstRecv ++ [.recvStore 1 1 (.copied 0)]) := by
    refine ⟨id, fun s₁ h₁ => ⟨id, fun s₂ h₂ => ⟨id, fun s₃ h₃ => ⟨id, fun s₄ h₄ => ⟨id, fun s₅ h₅ =>
      ⟨?_, fun _ _ => trivial⟩⟩⟩⟩⟩⟩
    have hrun : run ipcStep .boot firstRecv = some s₅ := by
      simp only [firstRecv, run_cons]
      exact ⟨s₁, h₁, s₂, h₂, s₃, h₃, s₄, h₄, s₅, h₅, rfl⟩
    simp only [hrun, Option.map_some, Option.some.injEq, Prod.mk.injEq] at hpre
    rintro ⟨rv, -, -, ⟨v, hv, -⟩ | ⟨hf, -⟩⟩
    · simp [hpre.1] at hv
    · simp [copyFails] at hf
  exact ⟨s, hs, (rendezvous_kept hd hs (by simpa using ht)).1⟩

end HouseKernel.Userspace
