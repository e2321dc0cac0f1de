import HouseKernel.Ipc.Endpoint
import HouseKernel.Lib.Sections

/-! The driver registry. A driver is registered under a name with its endpoints and service threads, and
may own one root page table, its fault domain. The two maps change only under `drvSem`; everything else a
call does comes between its locked sections, where any other call may run. -/
namespace HouseKernel.Driver
open HouseKernel.Lib HouseKernel.Ipc

/-- A root is named by the address of its top page. The allocator may hand the address out again once
the root is freed. -/
abbrev PageMap := ℕ

inductive DriverError
  | alreadyRegistered
  | notFound
  | invalidName (what : String)
  deriving DecidableEq, Repr

inductive DriverKind
  | virtioMMIO
  | pl011
  | ramFS
  | unknown
  deriving DecidableEq, Repr

structure DriverInfo where
  diName : String
  diEndpoint : ℕ
  diKind : DriverKind
  diIntId : Option ℕ
  diSlot : Option ℤ
  diService : List ℕ
  diEndpoints : List ℕ
  deriving DecidableEq, Repr

/-- The maps of the registry with the tables that its calls reach. Every root gets a number when it is
built: `built` is the number of the last root built on a page, `freed` the numbers in the order of the frees. -/
structure Registry where
  drvMap : String → Option DriverInfo
  drvRoots : String → Option (PageMap × ℕ × ℤ)
  nsMap : String → Option ℕ
  handlers : ℕ → Bool
  endpoints : Endpoints
  built : PageMap → Option ℕ
  roots : ℕ
  freed : List ℕ

/-- What the world outside the registry answers to a section: the page that the allocator has to offer,
the return code of a call into the HAL, the request of a parked driver and its argument. -/
structure Answer where
  page : Option PageMap
  rc : ℤ
  req : ℕ
  arg : ℕ

/-- What a thread may be started with. -/
inductive Call
  | registerDriver (name : String) (ep : ℕ) (mIntId : Option ℕ) (kind : DriverKind) (service endpoints : List ℕ)
  | unregisterDriver (name : String)
  | installDriverRoot (name : String) (slot : ℤ)
  | driverFaultWatch (name : String) (slot : ℤ)
  | reapAndRestartDriver (name : String) (slot : ℤ) (pm : PageMap)

abbrev H := Code Registry Answer Call

def withQSem {α : Type} (f : Registry → α × Registry) : H α := .atomic fun _ s => f s

section Hal

/-- What the HAL does to page tables and EL0 slots is no part of the registry: any return code may come. -/
def hal : H ℤ := .atomic fun i s => (i.rc, s)

/-- The page behind an address of a root's window, not 0 when one is mapped. -/
def getPage (_pm : PageMap) (_page : ℤ) : H ℤ := hal
def mapMmio (_pm : PageMap) (_slot : ℤ) : H ℤ := hal
def narrowDriverRoot (_pm : PageMap) : H ℤ := hal
def asidForPdir (_pm : PageMap) : H ℤ := hal
def el0Register (_pm : PageMap) : H ℤ := hal
def el0Unregister (_pm : PageMap) : H ℤ := hal
def releasePdir (_pm : PageMap) : H ℤ := hal
def el0Parked (_pm : PageMap) : H ℤ := hal
def resumeEl0 (_pm : PageMap) (_asid _x0 : ℕ) : H ℤ := hal

end Hal

section Names

def validDriverName (s : String) : Except DriverError Unit :=
  if s.length = 0 then .error (.invalidName "empty name")
  else if 255 < s.length then .error (.invalidName "name too long")
  else if '/' ∈ s.toList then .error (.invalidName "name contains '/'")
  else .ok ()

def validName (s : String) : Except IpcError Unit :=
  if s.length = 0 then .error (.invalidName "empty name")
  else if 255 < s.length then .error (.invalidName "name too long")
  else if '/' ∈ s.toList then .error (.invalidName "name contains '/'")
  else .ok ()

def nsRegister (name : String) (ep : ℕ) (s : Registry) : Except IpcError Unit × Registry :=
  match validName name with
  | .error e => (.error e, s)
  | .ok () =>
    if (s.nsMap name).isSome then (.error .nameExists, s)
    else (.ok (), { s with nsMap := Function.update s.nsMap name (some ep) })

def nsUnregister (name : String) (s : Registry) : Except IpcError Unit × Registry :=
  if (s.nsMap name).isSome then (.ok (), { s with nsMap := Function.update s.nsMap name none })
  else (.error .nameNotFound, s)

end Names

section Roots

/-- The page holds a root that is not freed. -/
def Registry.inUse (s : Registry) (pm : PageMap) : Bool :=
  match s.built pm with
  | none => false
  | some b => !decide (b ∈ s.freed)

/-- The allocator offers a page or none; a page that is in use is not on offer. -/
def allocPageMap : H (Option PageMap) := .atomic fun i s =>
  match i.page with
  | none => (none, s)
  | some pm =>
    if s.inUse pm then (none, s)
    else (some pm, { s with built := Function.update s.built pm (some s.roots), roots := s.roots + 1 })

def freeUserTables (pm : PageMap) : H Unit := .atomic fun _ s =>
  ((), { s with freed := s.freed ++ (s.built pm).toList })

/-- Drop a fresh root that was never recorded. -/
def dropFreshRoot (pm : PageMap) : H Unit := do
  let _ ← el0Unregister pm
  let _ ← releasePdir pm
  freeUserTables pm

/-- Retract a claimed root: unlike `dropFreshRoot` it stays allocated while a core still runs on it. -/
def retireRoot (pm : PageMap) : H Unit := do
  let _ ← el0Unregister pm
  let live ← releasePdir pm
  if live ≠ 0 then pure () else freeUserTables pm

def registerDriverRoot (name : String) (pm : PageMap) (asid : ℕ) (slot : ℤ) : H (Except DriverError Unit) :=
  withQSem fun s =>
    match s.drvMap name with
    | none => (.error .notFound, s)
    | some _ =>
      if (s.drvRoots name).isSome then (.error .alreadyRegistered, s)
      else (.ok (), { s with drvRoots := Function.update s.drvRoots name (some (pm, asid, slot)) })

def lookupDriverRoot (name : String) : H (Option (PageMap × ℕ × ℤ)) := withQSem fun s => (s.drvRoots name, s)

/-- Take the root out of the map if it is still recorded under the name. Roots are compared by address. -/
def claimRoot (name : String) (pm : PageMap) : H Bool := withQSem fun s =>
  match s.drvRoots name with
  | some (pm', _, _) =>
    if pm' = pm then (true, { s with drvRoots := Function.update s.drvRoots name none }) else (false, s)
  | none => (false, s)

/-- The name of a refused root only goes into the log. -/
def buildDriverRoot (_name : String) (slot : ℤ) : H (Option (PageMap × ℕ)) := do
  match ← allocPageMap with
  | none => return none
  | some pm =>
    let page := 0x0a000000 + slot * 0x200
    let occupied ← getPage pm (page - page % 4096)
    if occupied ≠ 0 then
      dropFreshRoot pm
      return none
    else
      let rc ← mapMmio pm slot
      if rc ≠ 1 then
        dropFreshRoot pm
        return none
      else
        let nr ← narrowDriverRoot pm
        if nr ≠ 1 then
          dropFreshRoot pm
          return none
        else
          let asid ← asidForPdir pm
          let reg ← el0Register pm
          if reg ≠ 0 then
            dropFreshRoot pm
            return none
          else return some (pm, asid.toNat)

end Roots

section Drivers

def addDriverService (name : String) (tid : ℕ) : H (Except DriverError Unit) := withQSem fun s =>
  match s.drvMap name with
  | none => (.error .notFound, s)
  | some info =>
    (.ok (), { s with drvMap := Function.update s.drvMap name (some { info with diService := info.diService ++ [tid] }) })

def killH (tid : ℕ) : H Unit := .kill tid (pure ())

def unregisterIrqForwarding (intid : ℕ) : H Unit := .atomic fun _ s =>
  ((), { s with handlers := Function.update s.handlers intid false })

def freeEndpoint (ep : ℕ) : H Unit := .atomic fun _ s => ((), { s with endpoints := s.endpoints.freeEndpoint ep })

/-- A driver whose name the name service refuses is taken out again, under the same lock. -/
def registerDriver (name : String) (ep : ℕ) (mIntId : Option ℕ) (kind : DriverKind) (service endpoints : List ℕ) :
    H (Except DriverError Unit) :=
  match validDriverName name with
  | .error e => pure (.error e)
  | .ok () => withQSem fun s =>
    if (s.drvMap name).isSome then (.error .alreadyRegistered, s)
    else
      let info : DriverInfo := ⟨name, ep, kind, mIntId, none, service, endpoints⟩
      let added := { s with drvMap := Function.update s.drvMap name (some info) }
      let rollback (t : Registry) := { t with drvMap := Function.update t.drvMap name none }
      match nsRegister name ep added with
      | (.ok (), t) => (.ok (), t)
      | (.error .nameExists, t) => (.error .alreadyRegistered, rollback t)
      | (.error (.invalidName what), t) => (.error (.invalidName what), rollback t)
      | (.error _, t) => (.error (.invalidName "nsRegister failed"), rollback t)

/-- Take the driver out of the maps, and its root with it. -/
def claimDriver (name : String) : H (Option DriverInfo × Option (PageMap × ℕ × ℤ)) := withQSem fun s =>
  match s.drvMap name with
  | none => ((none, none), s)
  | some info =>
    let t := (nsUnregister name { s with drvMap := Function.update s.drvMap name none }).2
    match t.drvRoots name with
    | none => ((some info, none), t)
    | some root => ((some info, some root), { t with drvRoots := Function.update t.drvRoots name none })

def unregisterDriver (name : String) : H (Except DriverError Unit) := do
  let claimed ← claimDriver name
  match claimed.1 with
  | none => return .error .notFound
  | some info =>
    info.diIntId.toList.forM unregisterIrqForwarding
    info.diEndpoints.forM freeEndpoint
    info.diService.forM killH
    match claimed.2 with
    | none => return .ok ()
    | some (pm, _, _) =>
      retireRoot pm
      return .ok ()

def installDriverRoot (name : String) (slot : ℤ) : H Bool :=
  if slot < 0 ∨ 31 < slot then pure false
  else do
    match ← buildDriverRoot name slot with
    | none => return false
    | some (pm, asid) =>
      match ← registerDriverRoot name pm asid slot with
      | .error _ =>
        dropFreshRoot pm
        return false
      | .ok () =>
        let tid ← Code.fork (Call.driverFaultWatch name slot) pure
        match ← addDriverService name tid with
        | .ok () => return true
        | .error _ =>
          -- the driver vanished mid-install: stop the watch, drop the root if it is still ours
          killH tid
          let owned ← claimRoot name pm
          if owned then dropFreshRoot pm else pure ()
          return false

inductive DriverPark
  | driverKill (va : ℕ)
  | driverPreempt (x0 : ℕ)
  | driverUnexpected (req x0 : ℕ)

/-- Take one parked request of a driver, if there is one. -/
def takeParkedDriver (pm : PageMap) : H (Option DriverPark) := do
  let parked ← el0Parked pm
  if parked ≠ 1 then return none
  else
    .atomic fun i s =>
      (if i.rc ≠ 1 then none
       else if i.req = 0x1D then some (.driverKill i.arg)
       else if i.req = 0x1E then some (.driverPreempt i.arg)
       else some (.driverUnexpected i.req i.arg), s)

/-- Reap a faulted domain and arm it again. Only the one that claims the entry frees its root. -/
def reapAndRestartDriver (name : String) (slot : ℤ) (pm : PageMap) : H Unit := do
  let owned ← claimRoot name pm
  if owned then
    retireRoot pm
    match ← buildDriverRoot name slot with
    | none => return ()
    | some (pm2, asid2) =>
      match ← registerDriverRoot name pm2 asid2 slot with
      | .error _ => dropFreshRoot pm2
      | .ok () => return ()
  else return ()

/-- One round of the watch. It ends when no root is recorded under the name. -/
def driverFaultWatch (name : String) (slot : ℤ) : H Unit := do
  match ← lookupDriverRoot name with
  | none => return ()
  | some (pm, asid, _) =>
    match ← takeParkedDriver pm with
    | none => .goto (.driverFaultWatch name slot)
    | some (.driverPreempt x0) =>
      let _ ← resumeEl0 pm asid x0
      .goto (.driverFaultWatch name slot)
    | some (.driverKill _) =>
      reapAndRestartDriver name slot pm
      .goto (.driverFaultWatch name slot)
    | some (.driverUnexpected _ _) =>
      reapAndRestartDriver name slot pm
      .goto (.driverFaultWatch name slot)

end Drivers

/-- The program that a thread is started with; what it returns is for its caller alone. -/
def Call.code : Call → H Unit
  | .registerDriver name ep mIntId kind service endpoints => do
    let _ ← Driver.registerDriver name ep mIntId kind service endpoints
  | .unregisterDriver name => do let _ ← Driver.unregisterDriver name
  | .installDriverRoot name slot => do let _ ← Driver.installDriverRoot name slot
  | .driverFaultWatch name slot => Driver.driverFaultWatch name slot
  | .reapAndRestartDriver name slot pm => Driver.reapAndRestartDriver name slot pm

def Registry.boot (t : Endpoints) : Registry :=
  ⟨fun _ => none, fun _ => none, fun _ => none, fun _ => false, t, fun _ => none, 0, []⟩

/-- Any number of threads in the registry, one section of one of them at a time. -/
def registryStep : Machine Registry Answer Call → Turn Answer Call → Option (Machine Registry Answer Call) :=
  turn Call.code

end HouseKernel.Driver
