import HouseKernel.Linker.InitOrder
import HouseKernel.Linker.Placement
import HouseKernel.Loader.Dynamic
import HouseKernel.Userspace.DemandPaging
import HouseKernel.Userspace.Trampoline

/-! The calls of the start phase and of the exit phase. The planner orders the steps of the objects, and the expansion
of the steps reads the pointer arrays out of the process's memory, first entry first. -/
namespace HouseKernel.Userspace

open HouseKernel.Lib HouseKernel.Linker HouseKernel.Loader HouseKernel.VirtualMemory

abbrev LoadBounds := List (ℕ × List Segment)

def arrayLabel : TrampolineMode → String
  | .branchToEntry => "init array entry"
  | .exitProcess => "fini array entry"

section Expand

variable (allowed : ℕ → Bool) (pdir : ℕ) (table : DemandTable) (label : String) (bounds : LoadBounds)

/-- One relocated pointer of a constructor array. -/
def readConstructorPointer (m : Memory) (address : ℕ) : Except LoadError ℕ :=
  if address % 8 ≠ 0 then .error (.badDyn "constructor slot unaligned")
  else match getPage m pdir (address - address % 4096) with
    | none => .error (.badDyn "constructor pointer page unmapped")
    | some page =>
      let offset := address % 4096
      if offset > 4088 then .error (.badDyn "constructor pointer crosses page")
      else
        let value := (m.mem (keyOf page + offset)).toNat
        if value = 0 ∨ value % 4 ≠ 0 then .error (.badDyn "constructor pointer is not a code address")
        else if !(bounds.any fun b => constructorInLoads b.1 b.2 value) then .error (.badDyn (label ++ " outside LOAD"))
        else .ok value

/-- The slots of an array, first entry first. -/
def slots (tableAddr count : ℕ) : List ℕ := (List.range count).map fun i => tableAddr + 8 * i

def expandGo : List LinkStep → List ℕ → Memory → Except LoadError (List ℕ) × Memory
  | [], acc, m => (.ok acc.reverse, m)
  | .call address :: rest, acc, m => expandGo rest (address :: acc) m
  | .arrayAt tableAddr count :: rest, acc, m =>
    match ensureRange allowed pdir table tableAddr (count * 8) m with
    | (.noMem, m) => (.error .noSpace, m)
    | (.miss, m) => (.error (.badDyn "constructor array page unmapped"), m)
    | (.served, m) => match mapAll (readConstructorPointer pdir label bounds m) (slots tableAddr count) with
      | .error e => (.error e, m)
      | .ok addresses => expandGo rest (addresses.reverse ++ acc) m

/-- The addresses to call, in order. -/
def expandConstructorSteps (steps : List LinkStep) (m : Memory) : Except LoadError (List ℕ) × Memory :=
  expandGo allowed pdir table label bounds steps [] m

/-- The entries of an array as the process has them when its pages are there. -/
def loadTable (base : ℕ) (array : Option InitArray) (m : Memory) : List ℕ × Memory :=
  match array with
  | none => ([], m)
  | some t =>
    let tableAddr := (base + t.vaddr) % 2^64
    let (_, m) := ensureRange allowed pdir table tableAddr (t.entries * 8) m
    ((mapAll (readConstructorPointer pdir label bounds m) (slots tableAddr t.entries)).toOption.getD [], m)

/-- The arrays of the objects in turn, each one read after those before it. -/
def loadTables (array : PlannedObject → Option InitArray) : List PlannedObject → Memory → List (PlannedObject × List ℕ)
  | [], _ => []
  | p :: rest, m =>
    let (entries, m) := loadTable allowed pdir table label bounds p.base (array p) m
    (p, entries) :: loadTables array rest m

/-- What the start phase should call: for each object `DT_INIT`, then the array from the first entry to the last. -/
def startCalls (objects : List PlannedObject) (m : Memory) : List ℕ :=
  (loadTables allowed pdir table label bounds (fun p => p.elf.dyn.initArray) objects m).flatMap fun q =>
    (q.1.elf.dyn.initFn.toList.map fun va => (q.1.base + va) % 2^64) ++ q.2

/-- What the exit phase should call: for each object the array from the last entry to the first, then `DT_FINI`. -/
def exitCalls (objects : List PlannedObject) (m : Memory) : List ℕ :=
  (loadTables allowed pdir table label bounds (fun p => p.elf.dyn.finiArray) objects m).flatMap fun q =>
    q.2.reverse ++ (q.1.elf.dyn.finiFn.toList.map fun va => (q.1.base + va) % 2^64)

end Expand

section Order

variable {allowed : ℕ → Bool} {pdir : ℕ} {table : DemandTable} {label : String} {bounds : LoadBounds} {m m' : Memory}
  {objects : List PlannedObject} {calls acc : List ℕ} {rest : List LinkStep} {base : ℕ}

theorem flatMap_eq_iff {α β : Type*} {f g : α → List β} {l : List α} (hlen : ∀ x ∈ l, (f x).length = (g x).length) :
    l.flatMap f = l.flatMap g ↔ ∀ x ∈ l, f x = g x := by
  induction l with
  | nil => simp
  | cons x l ih =>
    obtain ⟨hx, hl⟩ := List.forall_mem_cons.mp hlen
    rw [List.flatMap_cons, List.flatMap_cons, List.forall_mem_cons, ← ih hl]
    exact ⟨fun h => List.append_inj h hx, fun h => by rw [h.1, h.2]⟩

/-- The expansion of one object's array. -/
theorem expandGo_array {array : Option InitArray}
    (h : expandGo allowed pdir table label bounds
      ((array.toList.map fun t => .arrayAt ((base + t.vaddr) % 2^64) t.entries) ++ rest) acc m = (.ok calls, m')) :
    expandGo allowed pdir table label bounds rest ((loadTable allowed pdir table label bounds base array m).1.reverse ++ acc)
      (loadTable allowed pdir table label bounds base array m).2 = (.ok calls, m') := by
  cases array with
  | none => exact h
  | some t =>
    simp only [Option.toList_some, List.map_singleton, List.singleton_append, expandGo] at h
    cases hserve : ensureRange allowed pdir table ((base + t.vaddr) % 2^64) (t.entries * 8) m with
    | mk r m₁ =>
      rw [hserve] at h
      cases r with
      | noMem => cases (Prod.ext_iff.mp h).1
      | miss => cases (Prod.ext_iff.mp h).1
      | served =>
        simp only [loadTable, hserve]
        cases hread : mapAll (readConstructorPointer pdir label bounds m₁) (slots ((base + t.vaddr) % 2^64) t.entries) with
        | error e =>
          simp only [hread] at h
          cases (Prod.ext_iff.mp h).1
        | ok addresses =>
          simp only [hread] at h
          exact h

theorem expandGo_call {single : Option ℕ}
    (h : expandGo allowed pdir table label bounds
      ((single.toList.map fun va => .call ((base + va) % 2^64)) ++ rest) acc m = (.ok calls, m')) :
    expandGo allowed pdir table label bounds rest ((single.toList.map fun va => (base + va) % 2^64).reverse ++ acc) m =
      (.ok calls, m') := by
  cases single with
  | none => exact h
  | some va => exact h

/-- The start phase calls what it should. -/
theorem expandGo_start (h : expandGo allowed pdir table label bounds (objects.flatMap initStepsOf) acc m = (.ok calls, m')) :
    calls = acc.reverse ++ startCalls allowed pdir table label bounds objects m := by
  induction objects generalizing acc m with
  | nil =>
    obtain ⟨hcalls, -⟩ := Prod.ext_iff.mp h
    rw [startCalls, loadTables, List.flatMap_nil, List.append_nil]
    exact (Except.ok.inj hcalls).symm
  | cons p objects ih =>
    rw [List.flatMap_cons, initStepsOf, callSteps, List.append_assoc] at h
    rw [ih (expandGo_array (expandGo_call h)), startCalls, startCalls, loadTables]
    simp [List.append_assoc]

/-- The exit phase calls the entries of an array first to last. -/
theorem expandGo_exit (h : expandGo allowed pdir table label bounds (objects.flatMap finiStepsOf) acc m = (.ok calls, m')) :
    calls = acc.reverse ++
      (loadTables allowed pdir table label bounds (fun p => p.elf.dyn.finiArray) objects m).flatMap fun q =>
        q.2 ++ (q.1.elf.dyn.finiFn.toList.map fun va => (q.1.base + va) % 2^64) := by
  induction objects generalizing acc m with
  | nil =>
    obtain ⟨hcalls, -⟩ := Prod.ext_iff.mp h
    rw [loadTables, List.flatMap_nil, List.append_nil]
    exact (Except.ok.inj hcalls).symm
  | cons p objects ih =>
    have hsteps : finiStepsOf p = (p.elf.dyn.finiArray.toList.map fun t => .arrayAt ((p.base + t.vaddr) % 2^64) t.entries) ++
        p.elf.dyn.finiFn.toList.map fun va => .call ((p.base + va) % 2^64) := by
      cases hfn : p.elf.dyn.finiFn <;> cases harray : p.elf.dyn.finiArray <;> simp [finiStepsOf, callSteps, hfn, harray]
    rw [List.flatMap_cons, hsteps, List.append_assoc] at h
    rw [ih (expandGo_call (expandGo_array h)), loadTables]
    simp [List.append_assoc]

end Order

/-- The start phase of every plan is as it should be; the exit phase is where every array that it reads is the same
from either end. -/
theorem constructors_mirrored_iff {main : Elf} {deps : ObjectMap} {plan : LinkPlan} (h : linkDynamic main deps = .ok plan) :
    ∃ placed, linkPlaced main deps = .ok placed ∧ ∀ allowed pdir table bounds m m' calls,
      (expandConstructorSteps allowed pdir table (arrayLabel .branchToEntry) bounds plan.initSteps m = (.ok calls, m') →
        calls = startCalls allowed pdir table (arrayLabel .branchToEntry) bounds (initOrder placed) m) ∧
      (expandConstructorSteps allowed pdir table (arrayLabel .exitProcess) bounds plan.finiSteps m = (.ok calls, m') →
        (calls = exitCalls allowed pdir table (arrayLabel .exitProcess) bounds (initOrder placed).reverse m ↔
          ∀ q ∈ loadTables allowed pdir table (arrayLabel .exitProcess) bounds (fun p => p.elf.dyn.finiArray)
            (initOrder placed).reverse m, q.2.reverse = q.2)) := by
  simp only [linkDynamic, bind_ok, pure_ok] at h
  obtain ⟨placed, hplaced, _, -, _, -, rfl⟩ := h
  refine ⟨placed, hplaced, fun allowed pdir table bounds m m' calls => ⟨fun hstart => ?_, fun hexit => ?_⟩⟩
  · exact expandGo_start hstart
  · rw [expandGo_exit hexit, List.reverse_nil, List.nil_append, exitCalls, eq_comm,
      flatMap_eq_iff fun q _ => by rw [List.length_append, List.length_append, List.length_reverse]]
    exact forall₂_congr fun q _ => List.append_left_inj _

section Sample

/-- An object with an array of two destructors. -/
def finiMain : Elf := { sampleMain [] with dyn := { (sampleMain []).dyn with finiArray := some ⟨0x800, 2⟩ } }

def finiPlan : LinkPlan :=
  ⟨[⟨mainObjectName, mainBase, mainBase + 0x100, 1⟩], [], [.call (mainBase + 0x200)], [.arrayAt (mainBase + 0x800) 2]⟩

/-- The object's page is mapped, with two code addresses in the array. -/
def finiMemory (first second : Desc) : Memory where
  mem a :=
    if a = 0x10000 then descFromTable 0x11000
    else if a = 0x11000 then descFromTable 0x12000
    else if a = 0x12040 then descFromTable 0x13000
    else if a = 0x13000 then pageInfoToDesc ⟨0x14000, false, false, false, false⟩
    else if a = 0x14800 then first
    else if a = 0x14808 then second
    else 0
  pool := []

def finiBounds : LoadBounds := [(mainBase, finiMain.segs)]

lemma linkPlaced_fini : linkPlaced finiMain emptyDeps = .ok [⟨⟨mainObjectName, mainBase, mainBase + 0x100, 1⟩, finiMain⟩] := by
  rw [linkPlaced_of_order (by decide) (by rfl) emptyDeps_order]
  rfl

lemma linkDynamic_fini : linkDynamic finiMain emptyDeps = .ok finiPlan := by
  rw [linkDynamic, linkPlaced_fini]
  rfl

def finiCalls (first second : Desc) : Except LoadError (List ℕ) × Memory :=
  expandConstructorSteps (fun _ => true) 0x10000 [] (arrayLabel .exitProcess) finiBounds finiPlan.finiSteps
    (finiMemory first second)

/-- With the same destructor twice the order does not show. -/
theorem constructors_mirrored_iff_same : ∃ placed, linkPlaced finiMain emptyDeps = .ok placed ∧
    exitCalls (fun _ => true) 0x10000 [] (arrayLabel .exitProcess) finiBounds (initOrder placed).reverse
      (finiMemory 0x01000100 0x01000100) = [0x01000100, 0x01000100] := by
  obtain ⟨placed, hplaced, hiff⟩ := constructors_mirrored_iff linkDynamic_fini
  obtain rfl := Except.ok.inj (hplaced.symm.trans linkPlaced_fini)
  refine ⟨_, hplaced, ?_⟩
  have hrun : (finiCalls 0x01000100 0x01000100).1 = .ok [0x01000100, 0x01000100] := by decide +kernel
  have hexit := (hiff (fun _ => true) 0x10000 [] finiBounds (finiMemory 0x01000100 0x01000100) _ _).2 (Prod.ext hrun rfl)
  exact (hexit.mpr (by decide +kernel)).symm

/-- Two different destructors are called in the order in which they stand in the array. -/
theorem constructors_not_mirrored : ∃ placed m', linkPlaced finiMain emptyDeps = .ok placed ∧
    linkDynamic finiMain emptyDeps = .ok finiPlan ∧
    finiCalls 0x01000100 0x01000200 = (.ok [0x01000100, 0x01000200], m') ∧
    exitCalls (fun _ => true) 0x10000 [] (arrayLabel .exitProcess) finiBounds (initOrder placed).reverse
      (finiMemory 0x01000100 0x01000200) = [0x01000200, 0x01000100] :=
  ⟨_, _, linkPlaced_fini, linkDynamic_fini, Prod.ext (by decide +kernel) rfl, by decide +kernel⟩

end Sample

end HouseKernel.Userspace
