import HouseKernel.Userspace.ParkRequest

/-! The supervisor loop of one EL0 process. Each iteration looks whether the process is
still listed, whether the session exited and which request it parked, and then runs one
handler. The results of the services that a handler calls are inputs of the model, so a run
of the loop is a list of iterations with arbitrary answers; what the loop does is the trace
of its resumes and of its attempts to publish an exit code. Delays and logging are left out. -/
namespace HouseKernel.Userspace

open HouseKernel.Ipc HouseKernel.Loader

/-- What the loop does to the session and to the waiting parent. -/
inductive Act where
  | resume (x0 : ℕ)
  | publish (code : ℤ)
  | stopAck
  deriving DecidableEq, Repr

def Act.isResume : Act → Bool
  | .resume _ => true
  | _ => false

def Act.isPublish : Act → Bool
  | .publish _ => true
  | _ => false

/-- The results of the calls that one iteration may make. User copies answer `none` when the
process was reaped underfoot and an error code when the copy is refused. -/
structure Answers where
  procBrkGrow : Except LoadError ℕ
  readUserCString : Option (Except ℤ String)
  readUserBytes : Option (Except ℤ (List ℕ))
  writeUserBytes : Option ℤ
  readUser : Option (Except ℤ (List ℕ))
  writeUser : Option ℤ
  fdOpen : Except FdError ℕ
  fdRead : Except FdError (List ℕ)
  fdWrite : Except FdError ℤ
  fdClose : Except FdError Unit
  fdSeek : Except FdError ℤ
  forkChildEl0 : Except LoadError ℤ
  waitPid : Except WaitError ℤ
  execReplace : Except LoadError Unit
  vfsMkdir : Except FsError Unit
  vfsRm : Except FsError Unit
  vfsStat : Except FsError FsStat
  vfsLs : Except FsError (List String)
  hasGrant : Bool
  lookupEndpoint : Bool
  callTimeout : Except IpcError (List ℕ)
  recv : Option (ℕ × List ℕ)
  recvCopy : Option ℤ
  takeStash : Bool
  netSockOpen : Except NetError Unit
  netSockSend : Except NetError ℤ
  netSockRecv : Except NetError (Option (List ℕ))
  netSockClose : Except NetError Unit
  woken : List Bool
  demandServe : DemandResult
  breakCow : CowBreak
  pageWritable : Option Bool
  aliveAtFault : Bool
  aliveAtResume : Bool
  finiResumes : List ℕ

def resumeWith (res : ℕ) : List Act := [.resume res]

def handleBrk (a : Answers) : List Act :=
  match a.procBrkGrow with
  | .error e => resumeWith (brkErrno e)
  | .ok v => resumeWith v

/-- The path handlers copy a C string in first. -/
def withPath (a : Answers) (k : String → List Act) : List Act :=
  match a.readUserCString with
  | none => []
  | some (.error rc) => resumeWith (word64 rc)
  | some (.ok path) => k path

/-- The reading handlers copy the result out last and then resume its length. -/
def copyOut (rc : Option ℤ) (n : ℕ) : List Act :=
  match rc with
  | none => []
  | some rc => if rc = 0 then resumeWith (word64 n) else resumeWith (word64 rc)

def handleOpen (a : Answers) : List Act :=
  withPath a fun _ => match a.fdOpen with
    | .error e => resumeWith (word64 (fdErrorToErrno e))
    | .ok n => resumeWith n

def handleRead (a : Answers) (len : ℕ) : List Act :=
  if 65536 < len then resumeWith negINVAL
  else match a.fdRead with
    | .error e => resumeWith (word64 (fdErrorToErrno e))
    | .ok chunk => copyOut a.writeUserBytes chunk.length

def handleWriteFd (a : Answers) (len : ℕ) : List Act :=
  if 65536 < len then resumeWith negINVAL
  else match a.readUserBytes with
    | none => []
    | some (.error rc) => resumeWith (word64 rc)
    | some (.ok _) => match a.fdWrite with
      | .error e => resumeWith (word64 (fdErrorToErrno e))
      | .ok k => resumeWith (word64 k)

def handleClose (a : Answers) : List Act :=
  match a.fdClose with
  | .error e => resumeWith (word64 (fdErrorToErrno e))
  | .ok () => resumeWith 0

def handleSeek (a : Answers) : List Act :=
  match a.fdSeek with
  | .error e => resumeWith (word64 (fdErrorToErrno e))
  | .ok v => resumeWith (word64 v)

def handleFork (a : Answers) : List Act :=
  match a.forkChildEl0 with
  | .error e => resumeWith (brkErrno e)
  | .ok c => resumeWith (word64 c)

def handleWait (self : ℤ) (a : Answers) (c : ℕ) : List Act :=
  if c = 0 ∨ int64 c ≤ 0 ∨ int64 c = self then resumeWith negINVAL
  else match a.waitPid with
    | .error .noSuch => resumeWith negENOENT
    | .error .notChild => resumeWith negECHILD
    | .ok code => if a.aliveAtResume then resumeWith (word64 (code % 256)) else []

def handleExec (a : Answers) : List Act :=
  withPath a fun _ => match a.execReplace with
    | .error e => resumeWith (execErrno e)
    | .ok () => resumeWith 0

def handleFs (a : Answers) (r : Except FsError Unit) : List Act :=
  withPath a fun _ => match r with
    | .error e => resumeWith (fsErrno e)
    | .ok () => resumeWith 0

def handleMkdir (a : Answers) : List Act := handleFs a a.vfsMkdir
def handleUnlink (a : Answers) : List Act := handleFs a a.vfsRm

def renderStat (st : FsStat) : String :=
  (if st.isDir then "dir" else "file") ++ " size " ++ toString st.size ++ " blocks " ++
    toString st.blocks ++ "\n"

def unlines (names : List String) : String := String.join (names.map (· ++ "\n"))

/-- STAT and GETDENTS render a text and copy it into a buffer of `len` bytes. -/
def handleRendered {α : Type} (a : Answers) (r : Except FsError α) (render : α → String) (len : ℕ) :
    List Act :=
  withPath a fun _ => match r with
    | .error e => resumeWith (fsErrno e)
    | .ok x => if len < (render x).length then resumeWith negINVAL
        else copyOut a.writeUserBytes (render x).length

def handleStat (a : Answers) (len : ℕ) : List Act := handleRendered a a.vfsStat renderStat len
def handleGetdents (a : Answers) (len : ℕ) : List Act := handleRendered a a.vfsLs unlines len

def handleSend (a : Answers) : List Act :=
  if !a.hasGrant then resumeWith negEPERM
  else match a.readUser with
    | none => []
    | some (.error rc) => resumeWith (word64 rc)
    | some (.ok ws) =>
      if !a.lookupEndpoint then resumeWith negENOENT
      else if maxMsgWords < ws.length then resumeWith negINVAL
      else match a.callTimeout with
        | .error e => resumeWith (sendErrno e)
        | .ok _ => copyOut a.writeUser 0

def handleRecv (a : Answers) : List Act :=
  if !a.hasGrant then resumeWith negEPERM
  else if !a.lookupEndpoint then resumeWith negENOENT
  else match a.recv with
    | none => resumeWith negAGAIN
    | some (tag, _) => match a.recvCopy with
      | none => []
      | some rc => if rc = 0 then resumeWith tag else resumeWith (word64 rc)

def handleReply (a : Answers) : List Act :=
  match a.readUser with
  | none => []
  | some (.error rc) => resumeWith (word64 rc)
  | some (.ok ws) =>
    if !a.takeStash then resumeWith negINVAL
    else if maxMsgWords < ws.length then resumeWith negINVAL
    else resumeWith 0

def handleSock (r : Except NetError Unit) : List Act :=
  match r with
  | .error e => resumeWith (sockErrno e)
  | .ok () => resumeWith 0

def handleSockOpen (a : Answers) (port : ℕ) : List Act :=
  if int64 port ≤ 0 ∨ 65535 < int64 port then resumeWith negINVAL else handleSock a.netSockOpen

def handleSockSend (a : Answers) (len : ℕ) : List Act :=
  if 65536 < len then resumeWith negINVAL
  else match a.readUserBytes with
    | none => []
    | some (.error rc) => resumeWith (word64 rc)
    | some (.ok _) => match a.netSockSend with
      | .error e => resumeWith (sockErrno e)
      | .ok k => resumeWith (word64 k)

def handleSockRecv (a : Answers) (len : ℕ) : List Act :=
  if 65536 < len then resumeWith negINVAL
  else if len = 0 then resumeWith 0
  else match a.netSockRecv with
    | .error e => resumeWith (sockErrno e)
    | .ok none => resumeWith negAGAIN
    | .ok (some got) => copyOut a.writeUserBytes (min len got.length)

def handleSockClose (a : Answers) : List Act := handleSock a.netSockClose

/-- Pass the baton down the run queue; `woken` says which successors handed it back. -/
def handlePreempt (a : Answers) (x0 : ℕ) : List Bool → List Act
  | [] => resumeWith x0
  | w :: rest => if w then (if a.aliveAtResume then resumeWith x0 else [])
      else handlePreempt a x0 rest

def handleCowFault (a : Answers) (x0 : ℕ) : List Act × Bool :=
  if !a.aliveAtFault then ([], true)
  else if !a.aliveAtResume then ([], true)
  else match a.breakCow with
    | .ok => (resumeWith x0, true)
    | .notCow => if a.pageWritable = some true then (resumeWith x0, true) else ([.publish 1], false)
    | .noMem => ([.publish 1], false)

/-- The out-of-memory arm publishes the exit and still asks for another iteration. -/
def handleDemandFault (a : Answers) (x0 : ℕ) : List Act × Bool :=
  match a.demandServe with
  | .served => (resumeWith x0, true)
  | .miss => handleCowFault a x0
  | .noMem => (if a.aliveAtFault then [.publish 1] else [], true)

def handleFaultKill (a : Answers) : List Act := if a.aliveAtFault then [.publish 1] else []

/-- The arm of one request: what it does and whether the loop goes on. -/
def handle (self : ℤ) (a : Answers) : ParkRequest → List Act × Bool
  | .yield => (resumeWith 0, true)
  | .brk _ => (handleBrk a, true)
  | .open _ _ => (handleOpen a, true)
  | .read _ _ len => (handleRead a len, true)
  | .writeFd _ _ len => (handleWriteFd a len, true)
  | .close _ => (handleClose a, true)
  | .seek _ _ _ => (handleSeek a, true)
  | .fork => (handleFork a, true)
  | .wait c => (handleWait self a c, true)
  | .exec _ => (handleExec a, true)
  | .mkdir _ => (handleMkdir a, true)
  | .unlink _ => (handleUnlink a, true)
  | .stat _ _ len => (handleStat a len, true)
  | .getdents _ _ len => (handleGetdents a len, true)
  | .ipcSend _ _ _ _ => (handleSend a, true)
  | .ipcCall _ _ _ _ => (handleSend a, true)
  | .ipcRecv _ _ _ => (handleRecv a, true)
  | .ipcReply _ _ _ _ => (handleReply a, true)
  | .sockOpen _ port => (handleSockOpen a port, true)
  | .sockSend _ len => (handleSockSend a len, true)
  | .sockRecv _ len => (handleSockRecv a len, true)
  | .sockClose => (handleSockClose a, true)
  | .fault x0 _ => handleDemandFault a x0
  | .faultKill _ _ => (handleFaultKill a, false)
  | .preempt x0 => (handlePreempt a x0 a.woken, true)
  | .unknown _ => (resumeWith negENOSYS, true)

/-- What the loop finds at its head, with the answers for the handler it takes. -/
structure Iteration where
  alive : Bool
  exitCode : Option ℤ
  parked : Option Parked
  answers : Answers

/-- EXIT wins over PARK. The destructor phase runs the session before the code is published. -/
def iterate (self : ℤ) (it : Iteration) : List Act × Bool :=
  if !it.alive then ([.stopAck], false)
  else match it.exitCode with
    | some c => (it.answers.finiResumes.map .resume ++ [.publish c], false)
    | none => match it.parked with
      | none => ([], true)
      | some p => handle self it.answers (classify p)

/-- The trace of a run of the loop. -/
def parkLoop (self : ℤ) : List Iteration → List Act
  | [] => []
  | it :: rest =>
    let r := iterate self it
    r.1 ++ if r.2 then parkLoop self rest else []

/-- After an attempt to publish, neither a resume nor another attempt may follow. -/
def Act.Final (first later : Act) : Prop :=
  first.isPublish = true → later.isResume = false ∧ later.isPublish = false

def ExitFinal (acts : List Act) : Prop := acts.Pairwise Act.Final

def NoPublish (acts : List Act) : Prop := ∀ a ∈ acts, a.isPublish = false

@[simp] theorem noPublish_nil : NoPublish [] := by simp [NoPublish]

@[simp] theorem noPublish_resumeWith (res : ℕ) : NoPublish (resumeWith res) := by
  simp [NoPublish, resumeWith, Act.isPublish]

@[simp] theorem noPublish_copyOut (rc : Option ℤ) (n : ℕ) : NoPublish (copyOut rc n) := by
  unfold copyOut
  split
  · simp
  · split_ifs <;> simp

lemma noPublish_withPath {a : Answers} {k : String → List Act} (h : ∀ path, NoPublish (k path)) :
    NoPublish (withPath a k) := by
  unfold withPath
  split
  · simp
  · simp
  · exact h _

lemma noPublish_handleFs (a : Answers) (r : Except FsError Unit) : NoPublish (handleFs a r) := by
  apply noPublish_withPath
  intro path
  cases r <;> simp

lemma noPublish_handleRendered {α : Type} (a : Answers) (r : Except FsError α) (render : α → String)
    (len : ℕ) : NoPublish (handleRendered a r render len) := by
  apply noPublish_withPath
  intro path
  cases r with
  | error e => simp
  | ok x =>
    simp only
    split_ifs <;> simp

lemma noPublish_handleSock (r : Except NetError Unit) : NoPublish (handleSock r) := by
  cases r <;> simp [handleSock]

lemma noPublish_handleWait (self : ℤ) (a : Answers) (c : ℕ) : NoPublish (handleWait self a c) := by
  unfold handleWait
  split_ifs
  · simp
  · split <;> simp
  · split <;> simp

lemma noPublish_handlePreempt (a : Answers) (x0 : ℕ) (woken : List Bool) :
    NoPublish (handlePreempt a x0 woken) := by
  induction woken with
  | nil => simp [handlePreempt]
  | cons w rest ih =>
    simp only [handlePreempt]
    split_ifs
    · simp
    · simp
    · exact ih

lemma noPublish_handleSend (a : Answers) : NoPublish (handleSend a) := by
  unfold handleSend
  split
  · simp
  split
  · simp
  · simp
  split
  · simp
  split
  · simp
  split <;> simp

lemma noPublish_handleRecv (a : Answers) : NoPublish (handleRecv a) := by
  unfold handleRecv
  split_ifs
  · simp
  · simp
  split
  · simp
  split
  · simp
  split_ifs <;> simp

lemma noPublish_handleReply (a : Answers) : NoPublish (handleReply a) := by
  unfold handleReply
  split
  · simp
  · simp
  split_ifs <;> simp

/-- The arm of a request either leaves the exit alone, or publishes it as its last act and
ends the loop; the exception is the out-of-memory arm of the pager. -/
inductive Closing (acts : List Act) (cont : Bool) : Prop where
  | quiet (h : NoPublish acts)
  | last (pre : List Act) (code : ℤ) (hpre : NoPublish pre) (hacts : acts = pre ++ [.publish code])
      (hcont : cont = false)

/-- The pager ran out of memory for a fault of a process that is still listed. -/
def Iteration.reapsNoMem (it : Iteration) : Bool :=
  it.alive && it.exitCode.isNone && match it.parked with
    | none => false
    | some p => match classify p with
      | .fault _ _ => decide (it.answers.demandServe = .noMem) && it.answers.aliveAtFault
      | _ => false

lemma Closing.publish_one : Closing [.publish 1] false := .last [] 1 (by simp) (by simp) rfl

lemma closing_handleCowFault (a : Answers) (x0 : ℕ) :
    Closing (handleCowFault a x0).1 (handleCowFault a x0).2 := by
  unfold handleCowFault
  split
  · exact .quiet (by simp)
  split
  · exact .quiet (by simp)
  split
  · exact .quiet (by simp)
  · split
    · exact .quiet (by simp)
    · exact .publish_one
  · exact .publish_one

lemma closing_handleDemandFault (a : Answers) (x0 : ℕ)
    (h : ¬ (a.demandServe = .noMem ∧ a.aliveAtFault = true)) :
    Closing (handleDemandFault a x0).1 (handleDemandFault a x0).2 := by
  unfold handleDemandFault
  split
  · exact .quiet (by simp)
  · exact closing_handleCowFault a x0
  case h_3 hd =>
    have halive : a.aliveAtFault = false := by simpa [hd] using h
    exact .quiet (by simp [halive])

theorem closing_handle (self : ℤ) (a : Answers) (r : ParkRequest)
    (h : ∀ x0 va, r = .fault x0 va → ¬ (a.demandServe = .noMem ∧ a.aliveAtFault = true)) :
    Closing (handle self a r).1 (handle self a r).2 := by
  cases r with
  | fault x0 va => exact closing_handleDemandFault a x0 (h x0 va rfl)
  | faultKill x0 va =>
    by_cases halive : a.aliveAtFault = true
    · simpa [handle, handleFaultKill, halive] using Closing.publish_one
    · exact .quiet (by simp [handle, handleFaultKill, halive])
  | yield => exact .quiet (by simp [handle])
  | unknown w => exact .quiet (by simp [handle])
  | brk nb => exact .quiet (by simp only [handle, handleBrk]; split <;> simp)
  | «open» va fl =>
    refine .quiet (noPublish_withPath fun path => ?_)
    split <;> simp
  | read fd va len =>
    refine .quiet ?_
    simp only [handle, handleRead]
    split_ifs
    · simp
    · split <;> simp
  | writeFd fd va len =>
    refine .quiet ?_
    simp only [handle, handleWriteFd]
    split_ifs
    · simp
    · split
      · simp
      · simp
      · split <;> simp
  | close fd => exact .quiet (by simp only [handle, handleClose]; split <;> simp)
  | seek fd off wh => exact .quiet (by simp only [handle, handleSeek]; split <;> simp)
  | fork => exact .quiet (by simp only [handle, handleFork]; split <;> simp)
  | wait c => exact .quiet (noPublish_handleWait self a c)
  | exec va =>
    refine .quiet (noPublish_withPath fun path => ?_)
    split <;> simp
  | mkdir va => exact .quiet (noPublish_handleFs a _)
  | unlink va => exact .quiet (noPublish_handleFs a _)
  | stat va buf len => exact .quiet (noPublish_handleRendered a _ _ len)
  | getdents va buf len => exact .quiet (noPublish_handleRendered a _ _ len)
  | ipcSend ep va nw tag => exact .quiet (noPublish_handleSend a)
  | ipcCall ep va nw tag => exact .quiet (noPublish_handleSend a)
  | ipcRecv ep va nw => exact .quiet (noPublish_handleRecv a)
  | ipcReply ep va nw tag => exact .quiet (noPublish_handleReply a)
  | sockOpen ip port =>
    refine .quiet ?_
    simp only [handle, handleSockOpen]
    split_ifs
    · simp
    · exact noPublish_handleSock _
  | sockSend va len =>
    refine .quiet ?_
    simp only [handle, handleSockSend]
    split_ifs
    · simp
    · split
      · simp
      · simp
      · split <;> simp
  | sockRecv va len =>
    refine .quiet ?_
    simp only [handle, handleSockRecv]
    split_ifs
    · simp
    · simp
    · split <;> simp
  | sockClose => exact .quiet (noPublish_handleSock _)
  | preempt x0 => exact .quiet (noPublish_handlePreempt a x0 _)

/-- One iteration that does not reap for want of memory closes what it publishes. -/
theorem closing_iterate (self : ℤ) (it : Iteration) (h : it.reapsNoMem = false) :
    Closing (iterate self it).1 (iterate self it).2 := by
  unfold iterate
  split_ifs with halive
  · exact .quiet (by simp [NoPublish, Act.isPublish])
  cases hexit : it.exitCode with
  | some c =>
    refine .last _ c ?_ rfl rfl
    simp [NoPublish, Act.isPublish]
  | none =>
    cases hparked : it.parked with
    | none => exact .quiet (by simp)
    | some p =>
      apply closing_handle
      rintro x0 va hfault ⟨hmem, hlive⟩
      simp [Iteration.reapsNoMem, hexit, hparked, hfault, hmem, hlive] at h
      simp [h] at halive

lemma exitFinal_of_noPublish_append {pre acts : List Act} (hpre : NoPublish pre)
    (h : ExitFinal acts) : ExitFinal (pre ++ acts) := by
  refine List.pairwise_append.mpr ⟨?_, h, fun a ha b _ hp => ?_⟩
  · exact List.pairwise_of_forall_mem_list fun a ha b _ hp => by simp [hpre a ha] at hp
  · simp [hpre a ha] at hp

theorem exitFinal_parkLoop (self : ℤ) (its : List Iteration) (h : ∀ it ∈ its, it.reapsNoMem = false) :
    ExitFinal (parkLoop self its) := by
  induction its with
  | nil => exact List.Pairwise.nil
  | cons it rest ih =>
    have hrest := ih fun it' hit' => h it' (List.mem_cons_of_mem it hit')
    simp only [parkLoop]
    obtain hq | ⟨pre, code, hpre, hacts, hcont⟩ := closing_iterate self it (h it List.mem_cons_self)
    · split_ifs
      · exact exitFinal_of_noPublish_append hq hrest
      · exact exitFinal_of_noPublish_append hq List.Pairwise.nil
    · -- the loop ends here, so the published code is the last act of the run
      rw [hcont, hacts]
      simp only [Bool.false_eq_true, if_false, List.append_nil]
      exact exitFinal_of_noPublish_append hpre (List.pairwise_singleton _ _)

/-- A process whose fault finds no memory is published as exited, and the loop goes on. -/
theorem iterate_of_reapsNoMem (self : ℤ) {it : Iteration} (h : it.reapsNoMem = true) :
    iterate self it = ([.publish 1], true) := by
  cases hparked : it.parked with
  | none => simp [Iteration.reapsNoMem, hparked] at h
  | some p =>
    simp only [Iteration.reapsNoMem, hparked, Bool.and_eq_true, Option.isNone_iff_eq_none] at h
    obtain ⟨⟨halive, hexit⟩, hm⟩ := h
    split at hm
    case h_1 x0 va hfault =>
      simp only [Bool.and_eq_true, decide_eq_true_eq] at hm
      simp [iterate, halive, hexit, hparked, hfault, handle, handleDemandFault, hm.1, hm.2]
    case h_2 => simp at hm

/-- Exit is final in every run whose iterations come from `env` exactly when no iteration of
`env` reaps a faulting process for want of memory. -/
theorem exit_final_iff (self : ℤ) (env : Iteration → Prop) :
    (∀ its, (∀ it ∈ its, env it) → ExitFinal (parkLoop self its)) ↔
      ∀ it, env it → it.reapsNoMem = false := by
  constructor
  · intro hfinal it hit
    by_contra hne
    have hreap : iterate self it = ([.publish 1], true) := iterate_of_reapsNoMem self (by simpa using hne)
    have htwice := hfinal [it, it] (by simp [hit])
    simp [parkLoop, hreap, ExitFinal, Act.Final, Act.isPublish, Act.isResume] at htwice
  · intro hok its hits
    exact exitFinal_parkLoop self its fun it hit => hok it (hits it hit)

/-- Answers of services that all succeed, with this outcome of the pager. -/
def plainAnswers (d : DemandResult) : Answers where
  procBrkGrow := .ok 0
  readUserCString := some (.ok "")
  readUserBytes := some (.ok [])
  writeUserBytes := some 0
  readUser := some (.ok [])
  writeUser := some 0
  fdOpen := .ok 3
  fdRead := .ok []
  fdWrite := .ok 0
  fdClose := .ok ()
  fdSeek := .ok 0
  forkChildEl0 := .ok 8
  waitPid := .ok 0
  execReplace := .ok ()
  vfsMkdir := .ok ()
  vfsRm := .ok ()
  vfsStat := .ok ⟨false, 0, 0⟩
  vfsLs := .ok []
  hasGrant := true
  lookupEndpoint := true
  callTimeout := .ok []
  recv := none
  recvCopy := some 0
  takeStash := true
  netSockOpen := .ok ()
  netSockSend := .ok 0
  netSockRecv := .ok none
  netSockClose := .ok ()
  woken := []
  demandServe := d
  breakCow := .ok
  pageWritable := some true
  aliveAtFault := true
  aliveAtResume := true
  finiResumes := []

/-- A listed session parked on a page fault. -/
def faultAt (va : ℕ) (d : DemandResult) : Iteration :=
  ⟨true, none, some ⟨0x1F, 5, 0, 0, 0, va⟩, plainAnswers d⟩

/-- The pager has no page for the first fault and serves the second one: the process is
published as exited and then resumed. -/
theorem exit_not_final :
    parkLoop 7 [faultAt 0x1000000 .noMem, faultAt 0x1000000 .served] = [.publish 1, .resume 5] ∧
    ¬ ExitFinal (parkLoop 7 [faultAt 0x1000000 .noMem, faultAt 0x1000000 .served]) := by
  have htrace : parkLoop 7 [faultAt 0x1000000 .noMem, faultAt 0x1000000 .served] =
      [.publish 1, .resume 5] := by decide
  refine ⟨htrace, ?_⟩
  rw [htrace]
  simp [ExitFinal, Act.Final, Act.isPublish, Act.isResume]

end HouseKernel.Userspace
