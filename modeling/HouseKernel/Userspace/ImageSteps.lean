import HouseKernel.Lib.Run
import HouseKernel.Userspace.Constructors
import HouseKernel.Userspace.EntryBreak

/-! Which constructors and destructors a process runs in its life. A spawn gives the destructors of the image and its
load bounds to the session thread once and for all, and a later exec changes only what the supervisor keeps of the
process. -/
namespace HouseKernel.Userspace

open HouseKernel.Lib HouseKernel.Linker HouseKernel.Loader

/-- What the loader hands back of an image that it has mapped. -/
structure MappedImage where
  entry : ℕ
  initSteps : List LinkStep
  finiSteps : List LinkStep
  loadBounds : LoadBounds
  demand : DemandTable
  deriving DecidableEq

def mappedStatic (elf : Elf) : MappedImage := ⟨elf.entry, [], [], [(0, elf.segs)], [⟨0, elf.bytes, elf.segs⟩]⟩

def demandFromObjects (objects : List PlannedObject) : DemandTable := objects.map fun o => ⟨o.base, o.elf.bytes, o.elf.segs⟩

def mappedDynamic (plan : LinkPlan) (objects : List PlannedObject) : Except LoadError MappedImage := do
  let (entry, _) ← dynamicEntryBreak objects
  .ok ⟨entry, plan.initSteps, plan.finiSteps, objects.map fun o => (o.base, o.elf.segs), demandFromObjects objects⟩

/-- What the kernel makes a process execute: steps against load bounds and a demand table, or its own code. -/
inductive Phase where
  | init (steps : List LinkStep) (bounds : LoadBounds) (table : DemandTable)
  | code (pc : ℕ)
  | fini (steps : List LinkStep) (bounds : LoadBounds) (table : DemandTable)
  deriving DecidableEq

/-- What the session thread of a process holds on to. -/
structure ParkClosure where
  bounds : LoadBounds
  finiSteps : List LinkStep
  deriving DecidableEq

/-- A process: the demand table of its record, its session thread, and the image that its pages were mapped from, as
long as that is whole. -/
structure Life where
  procDemand : DemandTable
  closure : ParkClosure
  image : Option MappedImage

structure Lives where
  procs : ℕ → Option Life
  pidNext : ℕ

def noLives : Lives := ⟨fun _ => none, 1⟩

/-- Only successful calls are listed, but for an exec that fails after it gave the old pages back. -/
inductive LifeAction where
  | runPreparedBound (image : MappedImage)
  | execReplaceValidated (pid : ℕ) (image : MappedImage)
  | execFails (pid : ℕ)
  | forkChildEl0 (pid : ℕ)
  | exit (pid : ℕ)
  | killPid (pid : ℕ)

def MappedImage.closure (image : MappedImage) : ParkClosure := ⟨image.loadBounds, image.finiSteps⟩

def Life.run (image : MappedImage) : Life := ⟨image.demand, image.closure, some image⟩

-- The session thread stays the one that it was.
def Life.exec (l : Life) (image : MappedImage) : Life := { l with procDemand := image.demand, image := some image }

-- The thread of a child starts with no bounds and no steps.
def Life.fork (l : Life) : Life := { l with closure := ⟨[], []⟩ }

def Lives.set (s : Lives) (pid : ℕ) (l : Option Life) : Lives := { s with procs := Function.update s.procs pid l }

def Lives.step (s : Lives) : LifeAction → Option Lives
  | .runPreparedBound image => some { s.set s.pidNext (some (.run image)) with pidNext := s.pidNext + 1 }
  | .execReplaceValidated pid image => (s.procs pid).map fun l => s.set pid (some (l.exec image))
  | .execFails pid => (s.procs pid).map fun l => s.set pid (some { l with image := none })
  | .forkChildEl0 pid => (s.procs pid).map fun l => { s.set s.pidNext (some l.fork) with pidNext := s.pidNext + 1 }
  | .exit pid => (s.procs pid).map fun _ => s.set pid none
  | .killPid pid => (s.procs pid).map fun _ => s.set pid none

/-- A spawn: the constructors, when there are any, and the entry. -/
def startPhases (image : MappedImage) : List Phase :=
  match image.initSteps with
  | [] => [.code image.entry]
  | steps => [.init steps image.loadBounds image.demand, .code image.entry]

def runFiniPhase (closure : ParkClosure) (table : DemandTable) : List Phase :=
  if closure.finiSteps = [] then [] else [.fini closure.finiSteps closure.bounds table]

/-- What the kernel runs on an action. -/
def Lives.ran (s : Lives) : LifeAction → List Phase
  | .runPreparedBound image => startPhases image
  | .execReplaceValidated _ image => [.code image.entry]
  | .exit pid => match s.procs pid with
    | none => []
    | some l => runFiniPhase l.closure l.procDemand
  | _ => []

/-- What an action should run: a process that reaches an image runs what a spawn of the image does, and at its exit
what the spawned process would. Nothing is asked of an image that is not whole. -/
def Lives.owed (s : Lives) : LifeAction → Option (List Phase)
  | .runPreparedBound image => some (startPhases image)
  | .execReplaceValidated _ image => some (startPhases image)
  | .exit pid => (s.procs pid).bind fun l => l.image.map fun image => runFiniPhase image.closure image.demand
  | _ => some []

def Lives.RunsOwed (s : Lives) (a : LifeAction) : Prop := ∀ phases ∈ s.owed a, s.ran a = phases

/-- An image that is reached by exec has no constructors, and a process that exits has the destructors of its image
with the session thread, with the image's bounds when there are any. -/
def Lives.StepsAgree (s : Lives) : LifeAction → Prop
  | .execReplaceValidated _ image => image.initSteps = []
  | .exit pid => ∀ l ∈ s.procs pid, ∀ image ∈ l.image, l.closure.finiSteps = image.finiSteps ∧
    (image.finiSteps ≠ [] → l.closure.bounds = image.loadBounds)
  | _ => True

/-- The record of a process has the table of its image. -/
def Lives.Recorded (s : Lives) : Prop := ∀ pid, ∀ l ∈ s.procs pid, ∀ image ∈ l.image, l.procDemand = image.demand

section Steps

variable {s t : Lives} {a : LifeAction} {as : List LifeAction}

lemma runFiniPhase_eq_iff {c c' : ParkClosure} {table : DemandTable} :
    runFiniPhase c table = runFiniPhase c' table ↔ c.finiSteps = c'.finiSteps ∧ (c'.finiSteps ≠ [] → c.bounds = c'.bounds) := by
  unfold runFiniPhase
  by_cases h : c.finiSteps = []
  · rw [if_pos h]
    by_cases h' : c'.finiSteps = []
    · simp [h, h']
    · simp [h, h', Ne.symm h']
  · rw [if_neg h]
    by_cases h' : c'.finiSteps = []
    · simp [h, h']
    · simp [h']

lemma startPhases_eq_iff {image : MappedImage} : [.code image.entry] = startPhases image ↔ image.initSteps = [] := by
  unfold startPhases
  cases image.initSteps with
  | nil => simp
  | cons step steps => simp

theorem Lives.runsOwed_iff (h : s.Recorded) (a : LifeAction) : s.RunsOwed a ↔ s.StepsAgree a := by
  cases a with
  | runPreparedBound image => simp [Lives.RunsOwed, Lives.owed, Lives.ran, Lives.StepsAgree]
  | execReplaceValidated pid image => simp [Lives.RunsOwed, Lives.owed, Lives.ran, Lives.StepsAgree, startPhases_eq_iff]
  | execFails pid => simp [Lives.RunsOwed, Lives.owed, Lives.ran, Lives.StepsAgree]
  | forkChildEl0 pid => simp [Lives.RunsOwed, Lives.owed, Lives.ran, Lives.StepsAgree]
  | killPid pid => simp [Lives.RunsOwed, Lives.owed, Lives.ran, Lives.StepsAgree]
  | exit pid =>
    cases hl : s.procs pid with
    | none => simp [Lives.RunsOwed, Lives.owed, Lives.StepsAgree, hl]
    | some l =>
      cases himage : l.image with
      | none => simp [Lives.RunsOwed, Lives.owed, Lives.StepsAgree, hl, himage]
      | some image =>
        have htable : l.procDemand = image.demand := h pid l hl image himage
        simp [Lives.RunsOwed, Lives.owed, Lives.ran, Lives.StepsAgree, hl, himage, htable, runFiniPhase_eq_iff,
          MappedImage.closure]

lemma Lives.Recorded.set {pid : ℕ} {l : Option Life} (h : s.Recorded)
    (hl : ∀ x ∈ l, ∀ image ∈ x.image, x.procDemand = image.demand) : (s.set pid l).Recorded := by
  intro q x hx
  by_cases hq : q = pid
  · subst hq
    simp only [Lives.set, Function.update_self] at hx
    exact hl x hx
  · simp only [Lives.set, Function.update_of_ne hq] at hx
    exact h q x hx

theorem Lives.Recorded.step (h : s.Recorded) (hstep : s.step a = some t) : t.Recorded := by
  have hmap : ∀ {pid : ℕ} {f : Life → Lives}, (s.procs pid).map f = some t → ∃ l, s.procs pid = some l ∧ f l = t :=
    fun hf => Option.map_eq_some_iff.mp hf
  cases a with
  | runPreparedBound image =>
    obtain rfl := Option.some.inj hstep
    exact h.set (by simp [Life.run])
  | execReplaceValidated pid image =>
    obtain ⟨l, -, rfl⟩ := hmap hstep
    exact h.set (by simp [Life.exec])
  | execFails pid =>
    obtain ⟨l, -, rfl⟩ := hmap hstep
    exact h.set (by simp)
  | forkChildEl0 pid =>
    obtain ⟨l, hl, rfl⟩ := hmap hstep
    apply h.set
    rintro x ⟨rfl⟩
    exact h pid l hl
  | exit pid =>
    obtain ⟨l, -, rfl⟩ := hmap hstep
    exact h.set (by simp)
  | killPid pid =>
    obtain ⟨l, -, rfl⟩ := hmap hstep
    exact h.set (by simp)

/-- A run is as it should be where the steps agree. -/
theorem image_steps_iff (as : List LifeAction) :
    Along Lives.step Lives.RunsOwed noLives as ↔ Along Lives.step Lives.StepsAgree noLives as := by
  apply along_congr (A := fun _ => True) (I := Lives.Recorded)
  · exact fun s a t _ hs hstep => hs.step hstep
  · exact fun s a _ hs => s.runsOwed_iff hs a
  · exact fun _ _ => trivial
  · exact fun pid l hl => by cases hl

end Steps

section Sample

def finiPlaced : List PlannedObject := [⟨⟨mainObjectName, mainBase, mainBase + 0x100, 1⟩, finiMain⟩]

def finiImage : MappedImage :=
  ⟨mainBase + 0x100, finiPlan.initSteps, finiPlan.finiSteps, finiBounds, [⟨mainBase, finiMain.bytes, finiMain.segs⟩]⟩

def plainImage : MappedImage := mappedStatic { sampleMain [] with isDyn := false, interp := none, dyn := emptyDynInfo }

instance (s : Lives) (a : LifeAction) : Decidable (s.RunsOwed a) := Option.decidableForallMem _

/-- The image that the planner made of one object with constructors and destructors: reached by exec it runs neither of
them, and replaced by exec its destructors are run at the exit of the other image. -/
theorem exec_forgets_steps :
    linkDynamic finiMain emptyDeps = .ok finiPlan ∧ linkPlaced finiMain emptyDeps = .ok finiPlaced ∧
    mappedDynamic finiPlan finiPlaced = .ok finiImage ∧
    (run Lives.step noLives [.runPreparedBound plainImage]).map (fun s => s.ran (.execReplaceValidated 1 finiImage)) =
      some [.code finiImage.entry] ∧
    (run Lives.step noLives [.runPreparedBound plainImage, .execReplaceValidated 1 finiImage]).map (fun s => s.ran (.exit 1)) =
      some [] ∧
    (run Lives.step noLives [.runPreparedBound finiImage, .execReplaceValidated 1 plainImage]).map (fun s => s.ran (.exit 1)) =
      some [.fini finiPlan.finiSteps finiBounds plainImage.demand] ∧
    ¬ Along Lives.step Lives.RunsOwed noLives [.runPreparedBound plainImage, .execReplaceValidated 1 finiImage] ∧
    ¬ Along Lives.step Lives.RunsOwed noLives [.runPreparedBound plainImage, .execReplaceValidated 1 finiImage, .exit 1] ∧
    ¬ Along Lives.step Lives.RunsOwed noLives [.runPreparedBound finiImage, .execReplaceValidated 1 plainImage, .exit 1] :=
  ⟨linkDynamic_fini, linkPlaced_fini, by decide⟩

end Sample

end HouseKernel.Userspace
