import HouseKernel.FileSystem.Mounts
import HouseKernel.Lib.Run

/-! Namespaces over whole runs. Every call takes the registry's lock, but a fork takes it three times: for the namespace
of the parent, for the copy of its mounts, and for binding the child; other calls come in between. The specification
knows a namespace as the stack of layers of each prefix, and a process as the number of its namespace. -/
namespace HouseKernel.FileSystem

open HouseKernel.Lib

/-- A fork between two of its sections. -/
inductive Forking where
  /-- The parent's namespace is known. -/
  | copy (child parentNs : ℕ)
  /-- The child's namespace is made, and nobody else has its number. -/
  | attach (child childNs : ℕ)
  deriving DecidableEq

inductive NsAction (ι : Type*) where
  | create
  | ensure (pid : ℕ)
  | bind (pid ns : ℕ)
  | release (pid : ℕ)
  | mount (ns : ℕ) (path : Text) (ops : ι)
  | mountLayer (ns : ℕ) (path : Text) (ops : ι)
  | forkEnsure (parent child : ℕ)
  | forkCopy (child ns : ℕ)
  | forkAttach (child ns : ℕ)

variable {ι : Type*}

/-- An empty namespace. -/
def nsCreate (r : Registry ι) : ℕ × Registry ι :=
  (r.nsNext, { r with nsNext := r.nsNext + 1, nsTable := r.nsTable.insert r.nsNext [] })

structure Namespaces (ι : Type*) where
  registry : Registry ι
  forks : List Forking

/-- A number that a caller can have: it was given out, and not to a fork that is under way. -/
def Known (next : ℕ) (forks : List Forking) (ns : ℕ) : Prop := ns < next ∧ ∀ f ∈ forks, ∀ child, f ≠ .attach child ns

instance (next : ℕ) (forks : List Forking) (ns : ℕ) : Decidable (Known next forks ns) :=
  decidable_of_iff (ns < next ∧ ∀ f ∈ forks, (match f with | .copy _ _ => true | .attach _ n => n ≠ ns) = true) <| by
    refine and_congr_right fun _ => forall₂_congr fun f _ => ?_
    cases f <;> simp

def nsStep (s : Namespaces ι) : NsAction ι → Option (Namespaces ι)
  | .create => some { s with registry := (nsCreate s.registry).2 }
  | .ensure pid => some { s with registry := (vfsEnsurePid s.registry pid).2 }
  | .bind pid ns =>
    if Known s.registry.nsNext s.forks ns then some { s with registry := (vfsBindPid s.registry pid ns).2 } else none
  | .release pid => some { s with registry := vfsReleasePid s.registry pid }
  | .mount ns path ops =>
    if Known s.registry.nsNext s.forks ns then some { s with registry := (vfsMount s.registry ns path ops).2 } else none
  | .mountLayer ns path ops =>
    if Known s.registry.nsNext s.forks ns then some { s with registry := (vfsMountLayer s.registry ns path ops).2 } else none
  | .forkEnsure parent child =>
    let (ns, r) := vfsEnsurePid s.registry parent
    some ⟨r, .copy child ns :: s.forks⟩
  | .forkCopy child ns =>
    if .copy child ns ∈ s.forks then
      let (n, r) := nsFork s.registry ns
      some ⟨r, .attach child n :: s.forks.erase (.copy child ns)⟩
    else none
  | .forkAttach child ns =>
    if .attach child ns ∈ s.forks then
      some ⟨{ s.registry with pidNs := s.registry.pidNs.insert child ns }, s.forks.erase (.attach child ns)⟩
    else none

def Namespaces.empty : Namespaces ι := ⟨⟨∅, 1, ∅⟩, []⟩

/-- A fork that nothing interrupts is the whole call. -/
theorem fork_sections (r : Registry ι) (forks : List Forking) (parent child : ℕ) :
    run nsStep ⟨r, forks⟩ [.forkEnsure parent child, .forkCopy child (vfsEnsurePid r parent).1, .forkAttach child r.nsNext] =
      some ⟨vfsForkPid r parent child, forks⟩ := by
  obtain ⟨-, hnext⟩ := vfsEnsurePid_mounts r parent
  simp [run, nsStep, vfsForkPid, nsFork, hnext]

section Specification

/-- The namespaces as they are meant: stacks of layers, and who is in which. -/
structure NsSpec (ι : Type*) where
  mounts : ℕ → Option (Stacks ι)
  next : ℕ
  ns : ℕ → Option ℕ
  forks : List Forking

def NsSpec.empty : NsSpec ι := ⟨fun _ => none, 1, fun _ => none, []⟩

/-- The layers of a namespace, which are none where there is no namespace. -/
def NsSpec.layers (w : NsSpec ι) (n : ℕ) : Stacks ι := (w.mounts n).getD fun _ => []

def NsSpec.setStacks (w : NsSpec ι) (n : ℕ) (M : Stacks ι) : NsSpec ι := { w with mounts := Function.update w.mounts n (some M) }

/-- A process without a namespace is in the default one. -/
def NsSpec.ensure (w : NsSpec ι) (pid : ℕ) : NsSpec ι :=
  { w with ns := Function.update w.ns pid (some ((w.ns pid).getD defaultNamespace)) }

open Classical in
/-- The process leaves, and its namespace goes when it was the last one there. -/
noncomputable def NsSpec.release (w : NsSpec ι) (pid : ℕ) : NsSpec ι :=
  { w with
    ns := Function.update w.ns pid none
    mounts := fun n =>
      if w.ns pid = some n ∧ n ≠ defaultNamespace ∧ ∀ q, q ≠ pid → w.ns q ≠ some n then none else w.mounts n }

noncomputable def specStep (w : NsSpec ι) : NsAction ι → Option (NsSpec ι)
  | .create => some { w.setStacks w.next (fun _ => []) with next := w.next + 1 }
  | .ensure pid => some (w.ensure pid)
  | .bind pid ns =>
    if Known w.next w.forks ns then
      if (w.mounts ns).isNone ∨ ∃ existing ∈ w.ns pid, existing ≠ ns then some w
      else some { w with ns := Function.update w.ns pid (some ns) }
    else none
  | .release pid => some (w.release pid)
  | .mount ns path ops =>
    if Known w.next w.forks ns then
      match normalizeMount path with
      | .error _ => some w
      | .ok p => some (w.setStacks ns ((w.layers ns).mount p ops))
    else none
  | .mountLayer ns path ops =>
    if Known w.next w.forks ns then
      match normalizeMount path with
      | .error _ => some w
      | .ok p => some (w.setStacks ns ((w.layers ns).layer p ops))
    else none
  | .forkEnsure parent child =>
    some { w.ensure parent with forks := .copy child ((w.ns parent).getD defaultNamespace) :: w.forks }
  | .forkCopy child ns =>
    if .copy child ns ∈ w.forks then
      some { w.setStacks w.next (w.layers ns) with
        next := w.next + 1
        forks := .attach child w.next :: w.forks.erase (.copy child ns) }
    else none
  | .forkAttach child ns =>
    if .attach child ns ∈ w.forks then
      some { w with ns := Function.update w.ns child (some ns), forks := w.forks.erase (.attach child ns) }
    else none

/-- A namespace of the registry has the layers that it is meant to have. -/
inductive SameLayers : Option (List (Mount ι)) → Option (Stacks ι) → Prop
  | none : SameLayers none none
  | some {table : List (Mount ι)} {M : Stacks ι} (h : Tabulates table M) : SameLayers (some table) (some M)

structure Namespaces.Refines (s : Namespaces ι) (w : NsSpec ι) : Prop where
  tables : ∀ n, SameLayers (s.registry.nsTable.lookup n) (w.mounts n)
  next : s.registry.nsNext = w.next
  ns : ∀ pid, s.registry.pidNs.lookup pid = w.ns pid
  forks : s.forks = w.forks

end Specification

section Refinement

variable {s t : Namespaces ι} {w : NsSpec ι} {n pid : ℕ}

theorem SameLayers.getD {o : Option (List (Mount ι))} {p : Option (Stacks ι)} (h : SameLayers o p) :
    Tabulates (o.getD []) (p.getD fun _ => []) := by
  cases h with
  | none => exact .empty
  | some h => exact h

theorem SameLayers.isNone {o : Option (List (Mount ι))} {p : Option (Stacks ι)} (h : SameLayers o p) :
    o.isNone = p.isNone := by
  cases h <;> rfl

theorem Namespaces.Refines.insert (h : s.Refines w) {table : List (Mount ι)} {M : Stacks ι} (hM : Tabulates table M) (q : ℕ) :
    SameLayers ((s.registry.nsTable.insert n table).lookup q) ((w.setStacks n M).mounts q) := by
  rw [lookup_insert_eq, NsSpec.setStacks]
  dsimp only
  rw [Function.update_apply]
  split_ifs
  · exact .some hM
  · exact h.tables q

theorem Namespaces.Refines.bindings (h : s.Refines w) (pid n q : ℕ) :
    (s.registry.pidNs.insert pid n).lookup q = Function.update w.ns pid (some n) q := by
  rw [lookup_insert_eq, Function.update_apply, h.ns]

theorem Namespaces.Refines.ensure (h : s.Refines w) :
    Namespaces.Refines ⟨(vfsEnsurePid s.registry pid).2, s.forks⟩ (w.ensure pid) where
  tables q := by
    obtain ⟨htable, -⟩ := vfsEnsurePid_mounts s.registry pid
    rw [htable]
    exact h.tables q
  next := (vfsEnsurePid_mounts s.registry pid).2.trans h.next
  ns q := by
    rw [vfsEnsurePid_lookup, vfsEnsurePid_fst, NsSpec.ensure]
    dsimp only
    rw [Function.update_apply, h.ns, h.ns]
  forks := h.forks

/-- The namespace that a release takes away. -/
theorem vfsReleasePid_table (r : Registry ι) (pid n : ℕ) :
    (r.pidNs.lookup pid = some n ∧ n ≠ defaultNamespace ∧ (∀ q, q ≠ pid → r.pidNs.lookup q ≠ some n) →
      (vfsReleasePid r pid).nsTable.lookup n = none) ∧
    (¬ (r.pidNs.lookup pid = some n ∧ n ≠ defaultNamespace ∧ ∀ q, q ≠ pid → r.pidNs.lookup q ≠ some n) →
      (vfsReleasePid r pid).nsTable.lookup n = r.nsTable.lookup n) := by
  have hothers : ∀ n, n ∈ elems (r.pidNs.erase pid) ↔ ∃ q, q ≠ pid ∧ r.pidNs.lookup q = some n := by
    intro n
    rw [mem_elems]
    refine exists_congr fun q => ?_
    rw [lookup_erase_eq]
    split_ifs with hq
    · simp [hq]
    · simp [hq]
  constructor
  · rintro ⟨hbound, hdefault, hlast⟩
    have hgone : ¬ (n = defaultNamespace ∨ n ∈ elems (r.pidNs.erase pid)) := by
      rintro (hn | hn)
      · exact hdefault hn
      · obtain ⟨q, hq, hqn⟩ := (hothers n).mp hn
        exact hlast q hq hqn
    rw [vfsReleasePid, hbound]
    dsimp only
    rw [if_neg hgone, lookup_erase_eq, if_pos rfl]
  · intro hkeep
    refine vfsReleasePid_mounts fun ns hns hnsn => ?_
    subst hnsn
    rw [hothers]
    by_contra hgone
    rw [not_or, not_exists] at hgone
    exact hkeep ⟨hns, hgone.1, fun q hq hqn => hgone.2 q ⟨hq, hqn⟩⟩

theorem Namespaces.Refines.release (h : s.Refines w) :
    Namespaces.Refines ⟨vfsReleasePid s.registry pid, s.forks⟩ (w.release pid) where
  tables n := by
    obtain ⟨hgone, hkept⟩ := vfsReleasePid_table s.registry pid n
    have hsame : (s.registry.pidNs.lookup pid = some n ∧ n ≠ defaultNamespace ∧
        ∀ q, q ≠ pid → s.registry.pidNs.lookup q ≠ some n) ↔
        (w.ns pid = some n ∧ n ≠ defaultNamespace ∧ ∀ q, q ≠ pid → w.ns q ≠ some n) := by
      simp only [h.ns]
    rw [NsSpec.release]
    dsimp only
    by_cases hlast : w.ns pid = some n ∧ n ≠ defaultNamespace ∧ ∀ q, q ≠ pid → w.ns q ≠ some n
    · rw [hgone (hsame.mpr hlast), if_pos hlast]
      exact .none
    · rw [hkept (hlast ∘ hsame.mp), if_neg hlast]
      exact h.tables n
  next := (vfsReleasePid_next _ _).trans h.next
  ns q := by
    rw [vfsReleasePid_lookup, NsSpec.release]
    dsimp only
    rw [Function.update_apply, h.ns]
  forks := h.forks

/-- Every step of the registry is one of the specification. -/
theorem Namespaces.Refines.step {a : NsAction ι} (h : s.Refines w) (hs : nsStep s a = some t) :
    ∃ v, specStep w a = some v ∧ t.Refines v := by
  have hknown : ∀ n, Known s.registry.nsNext s.forks n ↔ Known w.next w.forks n := by
    intro n
    rw [h.next, h.forks]
  cases a with
  | create =>
    obtain rfl := Option.some.inj hs
    exact ⟨_, rfl, ⟨fun q => h.next ▸ h.insert .empty q, congrArg Nat.succ h.next, h.ns, h.forks⟩⟩
  | ensure pid =>
    obtain rfl := Option.some.inj hs
    exact ⟨_, rfl, h.ensure⟩
  | bind pid ns =>
    rw [nsStep] at hs
    rw [specStep]
    split_ifs at hs with hns
    obtain rfl := Option.some.inj hs
    rw [if_pos ((hknown ns).mp hns), ← (h.tables ns).isNone, ← h.ns]
    unfold vfsBindPid
    by_cases hmissing : (s.registry.nsTable.lookup ns).isNone
    · rw [if_pos (.inl hmissing), if_pos hmissing]
      exact ⟨_, rfl, h⟩
    · rw [if_neg hmissing]
      by_cases hother : ∃ existing ∈ s.registry.pidNs.lookup pid, existing ≠ ns
      · rw [if_pos (.inr hother), if_pos hother]
        exact ⟨_, rfl, h⟩
      · rw [if_neg (not_or.mpr ⟨hmissing, hother⟩), if_neg hother]
        exact ⟨_, rfl, h.tables, h.next, h.bindings pid ns, h.forks⟩
  | release pid =>
    obtain rfl := Option.some.inj hs
    exact ⟨_, rfl, h.release⟩
  | mount ns path ops =>
    rw [nsStep] at hs
    rw [specStep]
    split_ifs at hs with hns
    obtain rfl := Option.some.inj hs
    rw [if_pos ((hknown ns).mp hns)]
    unfold vfsMount
    cases normalizeMount path with
    | error e => exact ⟨_, rfl, h⟩
    | ok p => exact ⟨_, rfl, h.insert (h.tables ns).getD.mount, h.next, h.ns, h.forks⟩
  | mountLayer ns path ops =>
    rw [nsStep] at hs
    rw [specStep]
    split_ifs at hs with hns
    obtain rfl := Option.some.inj hs
    rw [if_pos ((hknown ns).mp hns)]
    unfold vfsMountLayer
    cases normalizeMount path with
    | error e => exact ⟨_, rfl, h⟩
    | ok p => exact ⟨_, rfl, h.insert (h.tables ns).getD.layer, h.next, h.ns, h.forks⟩
  | forkEnsure parent child =>
    obtain rfl := Option.some.inj hs
    have hensure : Namespaces.Refines ⟨(vfsEnsurePid s.registry parent).2, s.forks⟩ (w.ensure parent) := h.ensure
    have hforks : .copy child (vfsEnsurePid s.registry parent).1 :: s.forks =
        .copy child ((w.ns parent).getD defaultNamespace) :: w.forks := by
      rw [vfsEnsurePid_fst, h.ns, h.forks]
    exact ⟨_, rfl, hensure.tables, hensure.next, hensure.ns, hforks⟩
  | forkCopy child ns =>
    rw [nsStep] at hs
    rw [specStep, ← h.forks]
    split_ifs at hs with hfork
    obtain rfl := Option.some.inj hs
    rw [if_pos hfork, ← h.next]
    exact ⟨_, rfl, h.insert (h.tables ns).getD, rfl, h.ns, rfl⟩
  | forkAttach child ns =>
    rw [nsStep] at hs
    rw [specStep, ← h.forks]
    split_ifs at hs with hfork
    obtain rfl := Option.some.inj hs
    rw [if_pos hfork]
    exact ⟨_, rfl, h.tables, h.next, h.bindings child ns, rfl⟩

theorem Namespaces.Refines.run {as : List (NsAction ι)} (h : run nsStep Namespaces.empty as = some s) :
    ∃ w, run specStep NsSpec.empty as = some w ∧ s.Refines w := by
  have hempty : (Namespaces.empty : Namespaces ι).Refines NsSpec.empty :=
    ⟨fun _ => .none, rfl, fun _ => rfl, rfl⟩
  exact run_simulation (fun _ _ _ _ h hs => h.step hs) hempty h

theorem Namespaces.Refines.layers (h : s.Refines w) (n : ℕ) :
    Tabulates ((s.registry.nsTable.lookup n).getD []) (w.layers n) := (h.tables n).getD

theorem Namespaces.Refines.lookup (h : s.Refines w) {path : Text} {comps : List Text} (hpath : splitPath path = .ok comps)
    {layers : List (ι × Text)} (hl : Answers (w.layers n) comps layers) :
    vfsLookup s.registry n path = layers.head?.elim (.error .enoent) .ok := by
  have hlayers := h.layers n
  rw [vfsLookup, hpath]
  dsimp only
  cases hn : s.registry.nsTable.lookup n with
  | none =>
    rw [hn] at hlayers
    rw [← hlayers.answers hl]
    rfl
  | some table =>
    rw [hn, Option.getD_some] at hlayers
    rw [hlayers.lookup, hlayers.answers hl]
    cases layers <;> rfl

end Refinement

section Liveness

/-- No process is in a namespace that is gone, and the namespace of a fork under way is there and is nobody's. -/
structure NsSpec.Live (w : NsSpec ι) : Prop where
  bound : ∀ pid n, w.ns pid = some n → n < w.next ∧ (w.mounts n).isSome
  attaching : ∀ child n, .attach child n ∈ w.forks → n < w.next ∧ (w.mounts n).isSome ∧ n ≠ defaultNamespace
  unbound : ∀ child n, .attach child n ∈ w.forks → ∀ pid, w.ns pid ≠ some n
  distinct : w.forks.Pairwise fun f g => ∀ c d n, f = .attach c n → g ≠ .attach d n
  root : w.layers defaultNamespace [] ≠ []
  next : defaultNamespace < w.next

variable {w v : NsSpec ι}

theorem NsSpec.Live.mounted (h : w.Live) : (w.mounts defaultNamespace).isSome := by
  have hroot := h.root
  cases hM : w.mounts defaultNamespace with
  | none => simp [NsSpec.layers, hM] at hroot
  | some M => rfl

/-- More layers in a namespace that was given out. -/
theorem NsSpec.Live.setStacks (h : w.Live) {n : ℕ} {M : Stacks ι} (hM : n = defaultNamespace → M [] ≠ []) :
    (w.setStacks n M).Live where
  bound pid m hm := by
    obtain ⟨hlt, hsome⟩ := h.bound pid m hm
    refine ⟨hlt, ?_⟩
    by_cases hmn : m = n
    · simp [NsSpec.setStacks, hmn]
    · simpa [NsSpec.setStacks, hmn] using hsome
  attaching child m hm := by
    obtain ⟨hlt, hsome, hdefault⟩ := h.attaching child m hm
    refine ⟨hlt, ?_, hdefault⟩
    by_cases hmn : m = n
    · simp [NsSpec.setStacks, hmn]
    · simpa [NsSpec.setStacks, hmn] using hsome
  unbound := h.unbound
  distinct := h.distinct
  root := by
    by_cases hn : defaultNamespace = n
    · subst hn
      simpa [NsSpec.setStacks, NsSpec.layers] using hM rfl
    · have hroot := h.root
      simpa [NsSpec.setStacks, NsSpec.layers, hn] using hroot
  next := h.next

/-- The root of the default namespace keeps its layers under a mount. -/
theorem NsSpec.Live.root_mount (h : w.Live) (p : List Text) (ops : ι) :
    (w.layers defaultNamespace).mount p ops [] ≠ [] := by
  by_cases hp : p = []
  · simp [Stacks.mount, hp]
  · rw [Stacks.mount, Function.update_of_ne (Ne.symm hp)]
    exact h.root

theorem NsSpec.Live.root_layer (h : w.Live) (p : List Text) (ops : ι) :
    (w.layers defaultNamespace).layer p ops [] ≠ [] := by
  by_cases hp : p = []
  · simp [Stacks.layer, hp]
  · rw [Stacks.layer, Function.update_of_ne (Ne.symm hp)]
    exact h.root

/-- A process comes into a namespace that is there and is not that of a fork. -/
theorem NsSpec.Live.bind (h : w.Live) {pid n : ℕ} (hn : (w.mounts n).isSome) (hknown : Known w.next w.forks n) :
    NsSpec.Live { w with ns := Function.update w.ns pid (some n) } where
  bound q m hm := by
    by_cases hq : q = pid
    · subst hq
      obtain rfl : n = m := by simpa using hm
      exact ⟨hknown.1, hn⟩
    · exact h.bound q m (by simpa [hq] using hm)
  attaching := h.attaching
  unbound child m hm q := by
    by_cases hq : q = pid
    · subst hq
      dsimp only
      rw [Function.update_self]
      rintro hnm
      obtain rfl := Option.some.inj hnm
      exact hknown.2 _ hm child rfl
    · dsimp only
      rw [Function.update_of_ne hq]
      exact h.unbound child m hm q
  distinct := h.distinct
  root := h.root
  next := h.next

theorem NsSpec.Live.ensure (h : w.Live) (pid : ℕ) : (w.ensure pid).Live := by
  refine h.bind ?_ ?_
  · cases hns : w.ns pid with
    | none => exact h.mounted
    | some n => exact (h.bound pid n hns).2
  · cases hns : w.ns pid with
    | none =>
      refine ⟨h.next, fun f hf child hattach => ?_⟩
      subst hattach
      exact (h.attaching child _ hf).2.2 rfl
    | some n =>
      refine ⟨(h.bound pid n hns).1, fun f hf child hattach => ?_⟩
      subst hattach
      exact h.unbound child n hf pid hns

/-- A release takes away a namespace that only the released process was in. -/
theorem NsSpec.Live.release (h : w.Live) (pid : ℕ) : (w.release pid).Live := by
  have hkeep : ∀ n, (n = defaultNamespace ∨ (∃ q, q ≠ pid ∧ w.ns q = some n) ∨ w.ns pid ≠ some n) →
      (w.release pid).mounts n = w.mounts n := by
    intro n hn
    refine if_neg ?_
    rintro ⟨hbound, hdefault, hlast⟩
    obtain hn | ⟨q, hq, hqn⟩ | hn := hn
    · exact hdefault hn
    · exact hlast q hq hqn
    · exact hn hbound
  have hothers : ∀ q n, (w.release pid).ns q = some n → q ≠ pid ∧ w.ns q = some n := by
    intro q n hq
    rw [NsSpec.release] at hq
    dsimp only at hq
    by_cases hqp : q = pid
    · rw [hqp, Function.update_self] at hq
      cases hq
    · rw [Function.update_of_ne hqp] at hq
      exact ⟨hqp, hq⟩
  refine ⟨fun q n hq => ?_, fun child n hn => ?_, fun child n hn q hq => ?_, h.distinct, ?_, h.next⟩
  · obtain ⟨hqp, hq⟩ := hothers q n hq
    rw [hkeep n (.inr (.inl ⟨q, hqp, hq⟩))]
    exact h.bound q n hq
  · rw [hkeep n (.inr (.inr (h.unbound child n hn pid)))]
    exact h.attaching child n hn
  · exact h.unbound child n hn q (hothers q n hq).2
  · rw [NsSpec.layers, hkeep defaultNamespace (.inl rfl)]
    exact h.root

/-- A fork that ends is under way no longer. -/
theorem NsSpec.Live.erase (h : w.Live) (f : Forking) : NsSpec.Live { w with forks := w.forks.erase f } where
  bound := h.bound
  attaching child n hn := h.attaching child n (List.mem_of_mem_erase hn)
  unbound child n hn := h.unbound child n (List.mem_of_mem_erase hn)
  distinct := h.distinct.sublist List.erase_sublist
  root := h.root
  next := h.next

/-- A number that was never given out. -/
theorem NsSpec.Live.fresh (h : w.Live) (M : Stacks ι) : NsSpec.Live { w.setStacks w.next M with next := w.next + 1 } := by
  have hset : (w.setStacks w.next M).Live := h.setStacks fun hnext => absurd h.next (by omega)
  refine ⟨fun pid n hn => ?_, fun child n hn => ?_, hset.unbound, hset.distinct, hset.root, Nat.lt_succ_of_lt h.next⟩
  · obtain ⟨hlt, hsome⟩ := hset.bound pid n hn
    exact ⟨Nat.lt_succ_of_lt hlt, hsome⟩
  · obtain ⟨hlt, hrest⟩ := hset.attaching child n hn
    exact ⟨Nat.lt_succ_of_lt hlt, hrest⟩

theorem NsSpec.Live.copying (h : w.Live) (child n : ℕ) : NsSpec.Live { w with forks := .copy child n :: w.forks } where
  bound := h.bound
  attaching c m hm := h.attaching c m (by simpa using hm)
  unbound c m hm := h.unbound c m (by simpa using hm)
  distinct := List.pairwise_cons.mpr ⟨by simp, h.distinct⟩
  root := h.root
  next := h.next

/-- A fork takes a namespace that nobody has. -/
theorem NsSpec.Live.reserve (h : w.Live) {child n : ℕ} (hn : n ≠ defaultNamespace) (hknown : Known w.next w.forks n)
    (hmounts : (w.mounts n).isSome) (hunbound : ∀ pid, w.ns pid ≠ some n) :
    NsSpec.Live { w with forks := .attach child n :: w.forks } where
  bound := h.bound
  attaching c m hm := by
    obtain hm | hm := List.mem_cons.mp hm
    · obtain ⟨rfl, rfl⟩ := Forking.attach.inj hm
      exact ⟨hknown.1, hmounts, hn⟩
    · exact h.attaching c m hm
  unbound c m hm := by
    obtain hm | hm := List.mem_cons.mp hm
    · obtain ⟨rfl, rfl⟩ := Forking.attach.inj hm
      exact hunbound
    · exact h.unbound c m hm
  distinct := by
    refine List.pairwise_cons.mpr ⟨fun g hg c d m hf => ?_, h.distinct⟩
    obtain ⟨rfl, rfl⟩ := Forking.attach.inj hf
    exact hknown.2 g hg d
  root := h.root
  next := h.next

/-- The number of a fork under way is nobody else's. -/
theorem NsSpec.Live.known_erase (h : w.Live) {child n : ℕ} (hf : .attach child n ∈ w.forks) :
    Known w.next (w.forks.erase (.attach child n)) n := by
  refine ⟨(h.attaching child n hf).1, fun g hg d => ?_⟩
  have hsymm : ∀ {f g : Forking}, (∀ c d m, f = .attach c m → g ≠ .attach d m) → ∀ c d m, g = .attach c m → f ≠ .attach d m :=
    fun hfg c d m hg hf => hfg d c m hf hg
  have hdistinct := ((List.perm_cons_erase hf).pairwise_iff hsymm).mp h.distinct
  exact (List.pairwise_cons.mp hdistinct).1 g hg child d n rfl

/-- What one call preserves. -/
theorem NsSpec.Live.step (h : w.Live) {a : NsAction ι} (hs : specStep w a = some v) : v.Live := by
  cases a with
  | create =>
    obtain rfl := Option.some.inj hs
    exact h.fresh _
  | ensure pid =>
    obtain rfl := Option.some.inj hs
    exact h.ensure pid
  | bind pid ns =>
    rw [specStep] at hs
    split_ifs at hs with hknown hrefused
    · obtain rfl := Option.some.inj hs
      exact h
    · obtain rfl := Option.some.inj hs
      have hsome : (w.mounts ns).isSome := by
        cases hM : w.mounts ns with
        | none => exact absurd (.inl (by rw [hM]; rfl)) hrefused
        | some M => rfl
      exact h.bind hsome hknown
  | release pid =>
    obtain rfl := Option.some.inj hs
    exact h.release pid
  | mount ns path ops =>
    rw [specStep] at hs
    split_ifs at hs with hknown
    split at hs
    · obtain rfl := Option.some.inj hs
      exact h
    · next p _ =>
      obtain rfl := Option.some.inj hs
      refine h.setStacks ?_
      rintro rfl
      exact h.root_mount p ops
  | mountLayer ns path ops =>
    rw [specStep] at hs
    split_ifs at hs with hknown
    split at hs
    · obtain rfl := Option.some.inj hs
      exact h
    · next p _ =>
      obtain rfl := Option.some.inj hs
      refine h.setStacks ?_
      rintro rfl
      exact h.root_layer p ops
  | forkEnsure parent child =>
    obtain rfl := Option.some.inj hs
    exact (h.ensure parent).copying child _
  | forkCopy child ns =>
    rw [specStep] at hs
    split_ifs at hs with hfork
    obtain rfl := Option.some.inj hs
    have hfresh := (h.erase (.copy child ns)).fresh (w.layers ns)
    refine hfresh.reserve (Nat.ne_of_gt h.next) ⟨Nat.lt_succ_self _, ?_⟩ ?_ ?_
    · rintro g hg d rfl
      exact absurd (h.attaching d _ (List.mem_of_mem_erase hg)).1 (Nat.lt_irrefl _)
    · simp [NsSpec.setStacks]
    · intro pid hpid
      exact absurd (h.bound pid _ hpid).1 (Nat.lt_irrefl _)
  | forkAttach child ns =>
    rw [specStep] at hs
    split_ifs at hs with hfork
    obtain rfl := Option.some.inj hs
    exact (h.erase _).bind (h.attaching child ns hfork).2.1 (h.known_erase hfork)

end Liveness

section Runs

variable {as : List (NsAction ι)} {s : Namespaces ι}

/-- Every interleaving of the calls keeps the tables as they are meant: the layers of a path are the ones at its longest
prefix, in the order in which they were mounted; a lookup takes the topmost, and a read the first that has the file. -/
theorem namespaces_resolve (opsRead : ι → Text → Except FsError Octets) (h : run nsStep Namespaces.empty as = some s) :
    ∃ w, run specStep NsSpec.empty as = some w ∧ (∀ pid, s.registry.pidNs.lookup pid = w.ns pid) ∧
      (∀ ns path p, normalizeMount path = .ok p → vfsLayerCount s.registry ns path = (w.layers ns p).length) ∧
      ∀ ns path comps, splitPath path = .ok comps → ∃ layers, Answers (w.layers ns) comps layers ∧
        vfsLookup s.registry ns path = layers.head?.elim (.error .enoent) .ok ∧
        ∀ depth, vfsReadOverlayFrom opsRead s.registry ns depth path =
          (((layers.drop depth.toNat).map fun l => opsRead l.1 l.2).find? fun r => r ≠ .error .enoent).getD
            (.error .enoent) := by
  obtain ⟨w, hw, hs⟩ := Namespaces.Refines.run h
  refine ⟨w, hw, hs.ns, fun ns path p hp => ?_, fun ns path comps hpath => ?_⟩
  · rw [vfsLayerCount, hp]
    exact (hs.layers ns).count p
  · obtain ⟨layers, hlayers⟩ := exists_answers (w.layers ns) comps
    refine ⟨layers, hlayers, hs.lookup hpath hlayers, fun depth => ?_⟩
    rw [vfsReadOverlayFrom, hpath]
    dsimp only
    rw [(hs.layers ns).answers hlayers, readLayers_eq]

/-- Process 1 forks process 2 and goes before the mounts are copied; the child gets a layer of its own. -/
def sampleCalls : List (NsAction ℕ) :=
  [.mount defaultNamespace [slash] 7, .forkEnsure 1 2, .release 1, .forkCopy 2 0, .forkAttach 2 1, .mountLayer 1 [slash] 9]

theorem namespaces_resolve_sample : ∃ s w, run nsStep Namespaces.empty sampleCalls = some s ∧
    run specStep NsSpec.empty sampleCalls = some w ∧ vfsLayerCount s.registry 1 [slash] = (w.layers 1 []).length := by
  have hrun : (run nsStep Namespaces.empty sampleCalls).isSome := by decide
  obtain ⟨s, hs⟩ := Option.isSome_iff_exists.mp hrun
  obtain ⟨w, hw, -, hcount, -⟩ := namespaces_resolve (fun _ _ => .error .enoent) hs
  exact ⟨s, w, hs, hw, hcount 1 [slash] [] (by decide)⟩

/-- The root of the default namespace is mounted first. -/
theorem live_boot {ops : ι} {w : NsSpec ι}
    (h : run specStep NsSpec.empty (.mount defaultNamespace [slash] ops :: as) = some w) : w.Live := by
  obtain ⟨u, hu, hw⟩ := run_cons.mp h
  refine run_invariant (G := fun _ _ => True) (I := NsSpec.Live) (fun _ _ _ hI _ hstep => hI.step hstep) ?_
    (along_of_forall (fun _ _ => trivial) u as) hw
  have hroot : normalizeMount [slash] = .ok [] := by decide
  rw [specStep, if_pos ⟨Nat.zero_lt_one, by simp [NsSpec.empty]⟩, hroot] at hu
  obtain rfl := Option.some.inj hu
  refine ⟨fun pid n hn => ?_, fun child n hn => ?_, fun child n hn => ?_, List.Pairwise.nil, ?_, Nat.zero_lt_one⟩
  · cases hn
  · cases hn
  · cases hn
  · simp [NsSpec.setStacks, NsSpec.layers, Stacks.mount]

/-- After the root is mounted no process is in a namespace that is gone, whatever the calls do in between; the namespace
of a fork under way is there and is nobody's; and every path has a backend in the default namespace. -/
theorem namespaces_live {ops : ι} (h : run nsStep Namespaces.empty (.mount defaultNamespace [slash] ops :: as) = some s) :
    (∀ pid, (s.registry.nsTable.lookup (vfsEnsurePid s.registry pid).1).isSome) ∧
    (∀ child n, .attach child n ∈ s.forks →
      (s.registry.nsTable.lookup n).isSome ∧ ∀ pid, s.registry.pidNs.lookup pid ≠ some n) ∧
    ∀ path comps, splitPath path = .ok comps → ∃ top, vfsLookup s.registry defaultNamespace path = .ok top := by
  obtain ⟨w, hw, hs⟩ := Namespaces.Refines.run h
  have hlive := live_boot hw
  have hsome : ∀ n, (s.registry.nsTable.lookup n).isSome = (w.mounts n).isSome := by
    intro n
    rw [← Option.not_isNone, ← Option.not_isNone, (hs.tables n).isNone]
  refine ⟨fun pid => ?_, fun child n hn => ?_, fun path comps hpath => ?_⟩
  · rw [hsome, vfsEnsurePid_fst, hs.ns]
    cases hpid : w.ns pid with
    | none => exact hlive.mounted
    | some n => exact (hlive.bound pid n hpid).2
  · rw [hs.forks] at hn
    refine ⟨?_, fun pid => ?_⟩
    · rw [hsome]
      exact (hlive.attaching child n hn).2.1
    · rw [hs.ns]
      exact hlive.unbound child n hn pid
  · obtain ⟨layers, hlayers⟩ := exists_answers (w.layers defaultNamespace) comps
    rw [hs.lookup hpath hlayers]
    cases hlayers with
    | routed hp =>
      cases hM : w.layers defaultNamespace _ with
      | nil => exact absurd hM hp.mounted
      | cons v vs => exact ⟨_, rfl⟩
    | unmounted hnone => exact absurd (hnone [] List.nil_prefix) hlive.root

theorem namespaces_live_sample : ∃ s, run nsStep Namespaces.empty sampleCalls = some s ∧
    ∀ pid, (s.registry.nsTable.lookup (vfsEnsurePid s.registry pid).1).isSome := by
  have hrun : (run nsStep Namespaces.empty sampleCalls).isSome := by decide
  obtain ⟨s, hs⟩ := Option.isSome_iff_exists.mp hrun
  exact ⟨s, hs, (namespaces_live hs).1⟩

end Runs

end HouseKernel.FileSystem
