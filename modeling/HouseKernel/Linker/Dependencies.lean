import HouseKernel.Linker.InitOrder
import HouseKernel.Loader.NeededCycle

/-! The walk over the dependencies of the main object, where their graph has no cycle: it lists each object
that the main object needs, unless it refuses one of them. -/
namespace HouseKernel.Linker

open HouseKernel.Lib HouseKernel.Loader

/-- The NEEDED edges of the main object and of the objects at hand. -/
def neededGraph (main : Elf) (deps : ObjectMap) : NeededGraph :=
  (mainObjectName, main.dyn.needed) :: deps.entries.map fun p => (p.1, p.2.dyn.needed)

/-- Why the walk does not take an object of this name, if it does not. -/
def refusal (deps : ObjectMap) (name : String) : Option LoadError :=
  if name = mainObjectName then some (.badDyn "link: dependency name main reserved")
  else match deps.lookup name with
    | none => some (.dependencyMissing name)
    | some elf => match validateDependency name elf with
      | .ok () => none
      | .error e => some e

variable {main : Elf} {deps : ObjectMap}

lemma refusal_none {name : String} (h : refusal deps name = none) :
    ∃ elf, deps.lookup name = some elf ∧ validateDependency name elf = .ok () := by
  unfold refusal at h
  split at h
  · cases h
  · split at h
    · cases h
    · rename_i elf helf
      split at h
      · rename_i hvalid
        exact ⟨elf, helf, hvalid⟩
      · cases h

lemma lookup_needed (name : String) (entries : List (String × Elf)) :
    (entries.map fun p => (p.1, p.2.dyn.needed)).lookup name = (entries.lookup name).map fun elf => elf.dyn.needed := by
  induction entries with
  | nil => rfl
  | cons p entries ih =>
    rw [List.map_cons, List.lookup_cons, List.lookup_cons, ih]
    split <;> rfl

/-- The edges of the graph are what the objects need. -/
lemma neededGraph_edge {x y : String} : (neededGraph main deps).Edge x y ↔ y ∈ neededBy main deps x := by
  rw [edge_iff, neededGraph, List.lookup_cons, lookup_needed, neededBy, objectOf]
  by_cases hx : x = mainObjectName
  · simp [hx]
  · simp only [beq_eq_false_iff_ne.mpr hx, if_neg hx]
    rfl

lemma neededGraph_cyclic : (neededGraph main deps).Cyclic ↔ ∃ n, Needs main deps n n := by
  have hedge : (neededGraph main deps).Edge = fun x y => y ∈ neededBy main deps x := by
    funext x y
    exact propext neededGraph_edge
  rw [NeededGraph.Cyclic, hedge]
  rfl

/-- A walk that succeeds took only objects that are not refused. -/
lemma dependencyGo_taken {active done names done' : List String} {rev rev' : List (String × Elf)}
    (h : dependencyGo deps active done rev names = .ok (rev', done')) :
    ∀ p ∈ rev', p ∈ rev ∨ (refusal deps p.1 = none ∧ deps.lookup p.1 = some p.2) := by
  induction active, done, rev, names using dependencyGo.induct deps generalizing rev' done' with
  | case1 active done rev =>
    simp only [dependencyGo, Except.ok.injEq, Prod.mk.injEq] at h
    obtain ⟨rfl, rfl⟩ := h
    exact fun p hp => Or.inl hp
  | case2 active done rev name rest hdone ih =>
    rw [dependencyGo, if_pos hdone] at h
    exact ih h
  | case3 active done rev name rest hdone hactive =>
    rw [dependencyGo, if_neg hdone, dif_pos hactive] at h
    cases h
  | case4 active done rev rest hdone hactive =>
    rw [dependencyGo, if_neg hdone, dif_neg hactive, if_pos rfl] at h
    cases h
  | case5 active done rev name rest hdone hactive hmain hnone =>
    rw [dependencyGo, if_neg hdone, dif_neg hactive, if_neg hmain] at h
    split at h
    · cases h
    case h_2 elf helf => simp [hnone] at helf
  | case6 active done rev name rest hdone hactive hmain elf helf ihchild ihrest =>
    rw [dependencyGo, if_neg hdone, dif_neg hactive, if_neg hmain] at h
    split at h
    case h_1 hnone => simp [hnone] at helf
    case h_2 elf' helf' =>
      obtain rfl : elf = elf' := Option.some.inj (helf.symm.trans helf')
      obtain ⟨⟨⟩, hvalid, h⟩ := bind_ok.mp h
      obtain ⟨⟨childRev, childDone⟩, hchild, h⟩ := bind_ok.mp h
      intro p hp
      obtain hp | hp := ihrest (childRev, childDone) h p hp
      · obtain hp | hp := ihchild hchild p hp
        · obtain rfl | hp := List.mem_cons.mp hp
          · exact Or.inr ⟨by simp only [refusal, if_neg hmain, helf, hvalid], helf⟩
          · exact Or.inl hp
        · exact Or.inr hp
      · exact Or.inr hp

/-- A walk fails at an object that it refuses, or where it comes back to an object that it is inside of. -/
lemma dependencyGo_fails (main : Elf) {active done names : List String} {rev : List (String × Elf)} {e : LoadError}
    (h : dependencyGo deps active done rev names = .error e) :
    ∃ name ∈ names, ∃ m, Relation.ReflTransGen (fun x y => y ∈ neededBy main deps x) name m ∧
      (refusal deps m = some e ∨ e = .neededCycle ∧ (m ∈ active ∨ Needs main deps m m)) := by
  induction active, done, rev, names using dependencyGo.induct deps generalizing e with
  | case1 active done rev =>
    rw [dependencyGo] at h
    cases h
  | case2 active done rev name rest hdone ih =>
    rw [dependencyGo, if_pos hdone] at h
    obtain ⟨n, hn, hrest⟩ := ih h
    exact ⟨n, List.mem_cons_of_mem _ hn, hrest⟩
  | case3 active done rev name rest hdone hactive =>
    rw [dependencyGo, if_neg hdone, dif_pos hactive] at h
    exact ⟨name, List.mem_cons_self, name, .refl, Or.inr ⟨(Except.error.inj h).symm, Or.inl hactive⟩⟩
  | case4 active done rev rest hdone hactive =>
    rw [dependencyGo, if_neg hdone, dif_neg hactive, if_pos rfl] at h
    refine ⟨_, List.mem_cons_self, _, .refl, Or.inl ?_⟩
    rw [refusal, if_pos rfl]
    exact congrArg some (Except.error.inj h)
  | case5 active done rev name rest hdone hactive hmain hnone =>
    rw [dependencyGo, if_neg hdone, dif_neg hactive, if_neg hmain] at h
    split at h
    · refine ⟨name, List.mem_cons_self, name, .refl, Or.inl ?_⟩
      simp only [refusal, if_neg hmain, hnone, Except.error.inj h]
    case h_2 elf helf => simp [hnone] at helf
  | case6 active done rev name rest hdone hactive hmain elf helf ihchild ihrest =>
    rw [dependencyGo, if_neg hdone, dif_neg hactive, if_neg hmain] at h
    split at h
    case h_1 hnone => simp [hnone] at helf
    case h_2 elf' helf' =>
      obtain rfl : elf = elf' := Option.some.inj (helf.symm.trans helf')
      have hneeds : neededBy main deps name = elf.dyn.needed := neededBy_of_lookup hmain helf
      obtain hvalid | ⟨⟨⟩, hvalid, h⟩ := bind_error h
      · exact ⟨name, List.mem_cons_self, name, .refl, Or.inl (by simp only [refusal, if_neg hmain, helf, hvalid])⟩
      obtain hchild | ⟨child, hchild, h⟩ := bind_error h
      · obtain ⟨kid, hkid, m, hm, hwhy⟩ := ihchild hchild
        have hedge : kid ∈ neededBy main deps name := hneeds ▸ hkid
        refine ⟨name, List.mem_cons_self, m, .head hedge hm, hwhy.imp_right fun hcycle => ⟨hcycle.1, ?_⟩⟩
        -- from below `name`, back to it
        obtain hin | hin := hcycle.2
        · obtain rfl | hin := List.mem_cons.mp hin
          · exact Or.inr (.head' hedge hm)
          · exact Or.inl hin
        · exact Or.inr hin
      · obtain ⟨n, hn, hrest⟩ := ihrest child h
        exact ⟨n, List.mem_cons_of_mem _ hn, hrest⟩

/-- What the main object needs is what its own needs reach. -/
lemma needs_main {name : String} : Needs main deps mainObjectName name ↔
    ∃ root ∈ main.dyn.needed, Relation.ReflTransGen (fun x y => y ∈ neededBy main deps x) root name := by
  have hroots : neededBy main deps mainObjectName = main.dyn.needed := by simp [neededBy, objectOf]
  rw [Needs, Relation.TransGen.head'_iff, hroots]

/-- An order lists each object that the main object needs once. -/
theorem dependencyOrder_lists {order : List (String × Elf)} (h : dependencyOrder deps main.dyn.needed = .ok order) :
    (order.map Prod.fst).Nodup ∧ (∀ name, name ∈ order.map Prod.fst ↔ Needs main deps mainObjectName name) ∧
      ∀ p ∈ order, refusal deps p.1 = none ∧ deps.lookup p.1 = some p.2 := by
  simp only [dependencyOrder, bind_ok, pure_ok] at h
  obtain ⟨⟨rev, done⟩, hgo, rfl⟩ := h
  obtain ⟨out, hrev, -, hvisits, -⟩ := dependencyGo_visits main hgo
  have htaken := dependencyGo_taken hgo
  simp only [List.append_nil] at hrev
  subst hrev
  rw [List.reverse_reverse]
  obtain ⟨hroots, hclosed⟩ := hvisits.closed (by simp [Closed])
  rw [List.append_nil] at hroots hclosed
  refine ⟨hvisits.nodup, fun name => ?_, fun p hp => ?_⟩
  · rw [needs_main]
    constructor
    · intro hin
      obtain ⟨p, hp⟩ := hvisits.chain name hin
      exact chain_reach hp
    · rintro ⟨root, hroot, hreach⟩
      induction hreach with
      | refl => exact hroots root hroot
      | tail _ hedge ih => exact hclosed _ ih _ hedge
  · obtain hnil | htook := htaken p (List.mem_reverse.mpr hp)
    · cases hnil
    · exact htook

theorem dependencyOrder_fails {e : LoadError} (hacyclic : ∀ n, ¬ Needs main deps n n)
    (h : dependencyOrder deps main.dyn.needed = .error e) :
    ∃ name, Needs main deps mainObjectName name ∧ refusal deps name = some e := by
  obtain hgo | ⟨ordered, -, h⟩ := bind_error h
  · obtain ⟨root, hroot, m, hm, hrefused | ⟨-, hin | hin⟩⟩ := dependencyGo_fails main hgo
    · exact ⟨m, needs_main.mpr ⟨root, hroot, hm⟩, hrefused⟩
    · cases hin
    · exact absurd hin (hacyclic m)
  · cases h

/-- The search finds the cycles of every graph. Where there is none, the walk takes every object that the
main object needs, once, or it fails for an object that it refuses. -/
theorem needed_cycles_found :
    (∀ graph : NeededGraph, (findNeededCycle graph = .error .neededCycle ↔ graph.Cyclic) ∧
      (findNeededCycle graph = .ok () ↔ ¬ graph.Cyclic)) ∧
    ∀ (main : Elf) (deps : ObjectMap), findNeededCycle (neededGraph main deps) = .ok () →
      ((∃ order, dependencyOrder deps main.dyn.needed = .ok order) ↔
        ∀ name, Needs main deps mainObjectName name → refusal deps name = none) ∧
      (∀ order, dependencyOrder deps main.dyn.needed = .ok order → (order.map Prod.fst).Nodup ∧
        (∀ name, name ∈ order.map Prod.fst ↔ Needs main deps mainObjectName name) ∧ ∀ p ∈ order, deps.lookup p.1 = some p.2) ∧
      ∀ e, dependencyOrder deps main.dyn.needed = .error e →
        ∃ name, Needs main deps mainObjectName name ∧ refusal deps name = some e := by
  refine ⟨fun graph => ⟨findNeededCycle_error_iff graph, findNeededCycle_ok_iff graph⟩, fun main deps hsearch => ?_⟩
  have hacyclic : ∀ n, ¬ Needs main deps n n := by
    rw [findNeededCycle_ok_iff, neededGraph_cyclic] at hsearch
    exact not_exists.mp hsearch
  refine ⟨⟨?_, ?_⟩, ?_, fun e => dependencyOrder_fails hacyclic⟩
  · rintro ⟨order, horder⟩ name hneeds
    obtain ⟨-, hmem, htaken⟩ := dependencyOrder_lists horder
    obtain ⟨p, hp, rfl⟩ := List.mem_map.mp ((hmem name).mpr hneeds)
    exact (htaken p hp).1
  · intro hall
    cases h : dependencyOrder deps main.dyn.needed with
    | ok order => exact ⟨order, rfl⟩
    | error e =>
      obtain ⟨name, hneeds, hrefused⟩ := dependencyOrder_fails hacyclic h
      rw [hall name hneeds] at hrefused
      cases hrefused
  · intro order horder
    obtain ⟨hnodup, hmem, htaken⟩ := dependencyOrder_lists horder
    exact ⟨hnodup, hmem, fun p hp => (htaken p hp).2⟩

section Sample

lemma findNeededCycle_chain : findNeededCycle (neededGraph (sampleMain ["libx"]) sampleDeps) = .ok () := by
  have hgraph : neededGraph (sampleMain ["libx"]) sampleDeps = [("main", ["libx"]), ("libx", ["liby"]), ("liby", [])] := rfl
  rw [findNeededCycle, visitAll_eq, hgraph]
  simp [forAll, visit_eq, List.lookup_cons, bind, Except.bind]

/-- Where `main` needs `libx` and `libx` needs `liby`, both are listed. -/
theorem needed_cycles_found_chain : (dependencyOrder sampleDeps ["libx"]).isOk = true ∧
    (∀ order, dependencyOrder sampleDeps ["libx"] = .ok order → (order.map Prod.fst).Nodup ∧
      (∀ name, name ∈ order.map Prod.fst ↔ Needs (sampleMain ["libx"]) sampleDeps mainObjectName name) ∧
      ∀ p ∈ order, sampleDeps.lookup p.1 = some p.2) :=
  ⟨by rw [sampleDeps_order.1]; rfl, (needed_cycles_found.2 (sampleMain ["libx"]) sampleDeps findNeededCycle_chain).2.1⟩

/-- An object that calls itself `liby` under the name `libx`. -/
def misnamedDeps : ObjectMap := ⟨[("libx", sampleLib "liby" [])], by decide⟩

/-- There is no cycle, and `main` needs an object that is at hand; the walk refuses it for its name. -/
theorem needed_cycles_found_refused :
    findNeededCycle (neededGraph (sampleMain ["libx"]) misnamedDeps) = .ok () ∧
    Needs (sampleMain ["libx"]) misnamedDeps mainObjectName "libx" ∧
    misnamedDeps.lookup "libx" = some (sampleLib "liby" []) ∧
    dependencyOrder misnamedDeps (sampleMain ["libx"]).dyn.needed = .error (.badDyn "link: SONAME mismatch for libx") := by
  have hgraph : neededGraph (sampleMain ["libx"]) misnamedDeps = [("main", ["libx"]), ("libx", [])] := rfl
  have hx : misnamedDeps.lookup "libx" = some (sampleLib "liby" []) := by rfl
  have hvalid : validateDependency "libx" (sampleLib "liby" []) = .error (.badDyn "link: SONAME mismatch for libx") := by
    rfl
  refine ⟨?_, ?_, hx, ?_⟩
  · rw [findNeededCycle, visitAll_eq, hgraph]
    simp [forAll, visit_eq, List.lookup_cons, bind, Except.bind]
  · exact needs_main.mpr ⟨"libx", List.mem_cons_self, .refl⟩
  · have hneeded : (sampleMain ["libx"]).dyn.needed = ["libx"] := rfl
    rw [hneeded, dependencyOrder, dependencyGo, if_neg (by decide), dif_neg (by decide), if_neg (by decide)]
    split
    case h_1 hnone => simp [hx] at hnone
    case h_2 elf helf =>
      obtain rfl := Option.some.inj (hx.symm.trans helf)
      rw [hvalid]
      rfl

end Sample

end HouseKernel.Linker
