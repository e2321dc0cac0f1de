import HouseKernel.Lib.Preorder
import HouseKernel.Linker.Plan

/-! The order of initialisation. The plan runs the constructors in the reverse of the order in
which a depth-first walk reaches the objects, which puts an object after what it needs only
where the walk reaches it first. -/
namespace HouseKernel.Linker

open HouseKernel.Lib HouseKernel.Loader

section Graph

variable (main : Elf) (deps : ObjectMap)

def objectOf (name : String) : Option Elf := if name = mainObjectName then some main else deps.lookup name

def neededBy (name : String) : List String := ((objectOf main deps name).map fun elf => elf.dyn.needed).getD []

/-- `x` needs `y`, directly or through others. -/
def Needs : String → String → Prop := Relation.TransGen fun x y => y ∈ neededBy main deps x

def HasInit (name : String) : Prop :=
  ∃ elf, objectOf main deps name = some elf ∧ (elf.dyn.initFn.isSome ∨ elf.dyn.initArray.isSome)

/-- Wherever an object with constructors needs another one, some chain of needs from the main
object to the first comes before every such chain to the second. -/
def ChainsFirst : Prop := ∀ x y, Needs main deps x y → ¬ Needs main deps y x → HasInit main deps x → HasInit main deps y →
  (∃ p, Chain (neededBy main deps) [mainObjectName] p x) → First (neededBy main deps) [mainObjectName] x y

end Graph

/-- The init steps of a plan with the object that each belongs to. -/
def initOwned (placed : List PlannedObject) : List (String × LinkStep) :=
  (initOrder placed).flatMap fun o => (initStepsOf o).map fun step => (o.name, step)

variable {main : Elf} {deps : ObjectMap}

lemma neededBy_of_lookup {name : String} {elf : Elf} (hname : name ≠ mainObjectName) (h : deps.lookup name = some elf) :
    neededBy main deps name = elf.dyn.needed := by
  simp [neededBy, objectOf, hname, h]

/-- A walk that succeeds lists what it visits. -/
theorem dependencyGo_visits (main : Elf) {active done names done' : List String} {rev rev' : List (String × Elf)}
    (h : dependencyGo deps active done rev names = .ok (rev', done')) :
    ∃ out : List (String × Elf), rev' = out.reverse ++ rev ∧ (∀ x, x ∈ done' ↔ x ∈ out.map Prod.fst ∨ x ∈ done) ∧
      Visits (neededBy main deps) (mainObjectName :: active) done names (out.map Prod.fst) ∧
      ∀ p ∈ out, objectOf main deps p.1 = some p.2 := by
  induction active, done, rev, names using dependencyGo.induct deps generalizing rev' done' with
  | case1 active done rev =>
    simp only [dependencyGo, Except.ok.injEq, Prod.mk.injEq] at h
    obtain ⟨rfl, rfl⟩ := h
    exact ⟨[], by simp, by simp, .nil, by simp⟩
  | case2 active done rev name rest hdone ih =>
    rw [dependencyGo, if_pos hdone] at h
    obtain ⟨out, h1, h2, h3, h4⟩ := ih h
    exact ⟨out, h1, h2, .seen hdone h3, h4⟩
  | case3 active done rev name rest hdone hactive =>
    rw [dependencyGo, if_neg hdone, dif_pos hactive] at h
    cases h
  | case4 active done rev rest hdone hactive =>
    rw [dependencyGo, if_neg hdone, dif_neg hactive, if_pos rfl] at h
    cases h
  | case5 active done rev name rest hdone hactive hmain hnone =>
    rw [dependencyGo, if_neg hdone, dif_neg hactive, if_neg hmain] at h
    split at h
    · cases h
    case h_2 elf helf => simp [hnone] at helf
  | case6 active done rev name rest hdone hactive hmain elf helf ihchild ihrest =>
    rw [dependencyGo, if_neg hdone, dif_neg hactive, if_neg hmain] at h
    split at h
    case h_1 hnone => simp [hnone] at helf
    case h_2 elf' helf' =>
      obtain rfl : elf = elf' := Option.some.inj (helf.symm.trans helf')
      obtain ⟨⟨⟩, -, h⟩ := bind_ok.mp h
      obtain ⟨⟨childRev, childDone⟩, hchild, h⟩ := bind_ok.mp h
      obtain ⟨kids, k1, k2, k3, k4⟩ := ihchild hchild
      obtain ⟨out, o1, o2, o3, o4⟩ := ihrest (childRev, childDone) h
      refine ⟨(name, elf) :: (kids ++ out), ?_, ?_, ?_, ?_⟩
      · simp only [o1, k1, List.reverse_cons, List.reverse_append, List.append_assoc, List.singleton_append]
      · intro x
        simp only [o2, k2, List.mem_cons, List.map_cons, List.map_append, List.mem_append]
        tauto
      · rw [List.map_cons, List.map_append]
        refine .new hdone (by simp [hmain, hactive]) ?_ (o3.congr (fun _ => Iff.rfl) fun x => ?_)
        · rw [neededBy_of_lookup hmain helf]
          refine k3.congr (fun x => ?_) fun _ => Iff.rfl
          simp only [List.mem_cons]
          tauto
        · simp only [List.mem_cons, List.mem_append, k2]
      · intro p hp
        obtain rfl | hp := List.mem_cons.mp hp
        · simp [objectOf, hmain, helf]
        obtain hp | hp := List.mem_append.mp hp
        · exact k4 p hp
        · exact o4 p hp

theorem placeObjects_objects {objs : List (String × Elf)} {cursor total : ℕ} {placed : List PlannedObject}
    (h : placeObjects objs cursor total = .ok placed) : placed.map (fun p => (p.name, p.elf)) = objs := by
  induction objs generalizing cursor total placed with
  | nil =>
    obtain rfl := Except.ok.inj h
    rfl
  | cons obj objs ih =>
    obtain ⟨name, elf⟩ := obj
    simp only [placeObjects, bind_ok, pure_ok] at h
    obtain ⟨pages, -, total', -, -, -, objectEnd, -, absoluteEnd, -, -, -, entry, -, -, -, next, -, rest, hrest, rfl⟩ := h
    rw [List.map_cons, ih hrest]

/-- The objects of a plan are listed as the walk reaches them. -/
theorem linkPlaced_visits {placed : List PlannedObject} (h : linkPlaced main deps = .ok placed) :
    Visits (neededBy main deps) [] [] [mainObjectName] (placed.map fun p => p.name) ∧
      ∀ p ∈ placed, objectOf main deps p.name = some p.elf := by
  simp only [linkPlaced, dependencyOrder, bind_ok, pure_ok] at h
  obtain ⟨-, -, -, -, _, ⟨⟨rev, done⟩, hgo, rfl⟩, hplace⟩ := h
  obtain ⟨out, hrev, -, hvisits, hobj⟩ := dependencyGo_visits main hgo
  have hobjs := placeObjects_objects hplace
  simp only [List.append_nil] at hrev
  rw [hrev, List.reverse_reverse] at hobjs
  have hnames : placed.map (fun p => p.name) = mainObjectName :: (out.map Prod.fst ++ []) := by
    have := congrArg (List.map Prod.fst) hobjs
    simpa [Function.comp_def] using this
  rw [hnames]
  refine ⟨.new (by simp) (by simp) ?_ .nil, ?_⟩
  · have hneeds : neededBy main deps mainObjectName = main.dyn.needed := by simp [neededBy, objectOf]
    rwa [hneeds]
  · intro p hp
    have hin : (p.name, p.elf) ∈ (mainObjectName, main) :: out := hobjs ▸ List.mem_map_of_mem (f := fun p => (p.name, p.elf)) hp
    obtain heq | hin := List.mem_cons.mp hin
    · obtain ⟨h1, h2⟩ := Prod.mk.inj heq
      simp [objectOf, h1, h2]
    · exact hobj _ hin

/-- The constructors run in the reverse of the order of placement. -/
lemma initOrder_eq (placed : List PlannedObject) : initOrder placed = placed.reverse := by
  cases placed with
  | nil => rfl
  | cons p placed => simp [initOrder]

lemma initStepsOf_ne_nil {o : PlannedObject} :
    initStepsOf o ≠ [] ↔ (o.elf.dyn.initFn.isSome ∨ o.elf.dyn.initArray.isSome) := by
  cases h1 : o.elf.dyn.initFn <;> cases h2 : o.elf.dyn.initArray <;> simp [initStepsOf, callSteps, h1, h2]

/-- No step of `x` comes before a step of `y`, read off the order of placement. -/
lemma initOwned_pairwise {placed : List PlannedObject} {x y : String} (hne : x ≠ y) :
    ((initOwned placed).Pairwise fun a b => ¬ (a.1 = x ∧ b.1 = y)) ↔
      placed.Pairwise fun p q => p.name = y → q.name = x → initStepsOf p = [] ∨ initStepsOf q = [] := by
  rw [initOwned, initOrder_eq, List.pairwise_flatMap, List.pairwise_reverse]
  constructor
  · rintro ⟨-, hall⟩
    refine hall.imp fun {p q} h hp hq => ?_
    by_contra hsome
    rw [not_or] at hsome
    obtain ⟨a, ha⟩ := List.exists_mem_of_ne_nil _ hsome.1
    obtain ⟨b, hb⟩ := List.exists_mem_of_ne_nil _ hsome.2
    exact h _ (List.mem_map_of_mem hb) _ (List.mem_map_of_mem ha) ⟨hq, hp⟩
  · intro hall
    refine ⟨fun o _ => ?_, hall.imp fun {p q} h => ?_⟩
    · rw [List.pairwise_map]
      exact List.pairwise_of_forall fun a b h => hne (h.1.symm.trans h.2)
    · intro a ha b hb hab
      obtain ⟨a, ha, rfl⟩ := List.mem_map.mp ha
      obtain ⟨b, hb, rfl⟩ := List.mem_map.mp hb
      obtain hnil | hnil := h hab.2 hab.1
      · rw [hnil] at hb
        cases hb
      · rw [hnil] at ha
        cases ha

/-- The plan runs every object's constructors after those of what it needs exactly when the
walk reaches each such object along an earlier chain than what it needs; its exit phase is the
reverse in any case. -/
theorem init_order_iff {plan : LinkPlan} (h : linkDynamic main deps = .ok plan) :
    ∃ placed, linkPlaced main deps = .ok placed ∧ plan.objects = placed.map PlannedObject.toPlacedObject ∧
      plan.initSteps = (initOwned placed).map Prod.snd ∧ plan.finiSteps = (initOrder placed).reverse.flatMap finiStepsOf ∧
      ((∀ x y, Needs main deps x y → ¬ Needs main deps y x → (initOwned placed).Pairwise fun a b => ¬ (a.1 = x ∧ b.1 = y)) ↔
        ChainsFirst main deps) := by
  simp only [linkDynamic, bind_ok, pure_ok] at h
  obtain ⟨placed, hplaced, scope, -, patches, -, rfl⟩ := h
  obtain ⟨hvisits, hobj⟩ := linkPlaced_visits hplaced
  have hclosed : Closed (neededBy main deps) [] := by simp [Closed]
  have hfirst := hvisits.first hclosed
  rw [List.pairwise_map] at hfirst
  have hnodup := hvisits.nodup
  refine ⟨placed, hplaced, rfl, ?_, rfl, ?_, ?_⟩
  · simp only [initOwned, List.map_flatMap, List.map_map]
    congr 1
    funext o
    exact (List.map_id _).symm
  · intro hrespects x y hneeds hnot hx hy hchain
    have hne : x ≠ y := by
      rintro rfl
      exact hnot hneeds
    -- both objects are placed, and `x` not after `y`
    obtain ⟨hroots, hc⟩ := hvisits.closed hclosed
    rw [List.append_nil] at hc hroots
    have hxin : x ∈ placed.map fun p => p.name := by
      obtain ⟨p, hp⟩ := hchain
      exact chain_closed hc hroots hp
    have hyin : y ∈ placed.map fun p => p.name := by
      clear hnot hy hne hx
      induction hneeds with
      | single hedge => exact hc _ hxin _ hedge
      | tail _ hedge ih => exact hc _ ih _ hedge
    obtain ⟨p, hp, rfl⟩ := List.mem_map.mp hxin
    obtain ⟨q, hq, rfl⟩ := List.mem_map.mp hyin
    have hsteps : ∀ o ∈ placed, HasInit main deps o.name → initStepsOf o ≠ [] := by
      rintro o ho ⟨elf, helf, hinit⟩
      obtain rfl := Option.some.inj ((hobj o ho).symm.trans helf)
      exact initStepsOf_ne_nil.mpr hinit
    have hpair := (initOwned_pairwise hne).mp (hrespects _ _ hneeds hnot)
    obtain ⟨i, hi, rfl⟩ := List.getElem_of_mem hp
    obtain ⟨j, hj, rfl⟩ := List.getElem_of_mem hq
    obtain hlt | rfl | hlt := lt_trichotomy i j
    · exact List.pairwise_iff_getElem.mp hfirst i j hi hj hlt
    · exact absurd rfl hne
    · obtain hnil | hnil := List.pairwise_iff_getElem.mp hpair j i hj hi hlt rfl rfl
      · exact absurd hnil (hsteps _ hq hy)
      · exact absurd hnil (hsteps _ hp hx)
  · intro hchains x y hneeds hnot
    have hne : x ≠ y := by
      rintro rfl
      exact hnot hneeds
    rw [initOwned_pairwise hne]
    refine hfirst.imp_of_mem fun {p q} hp hq hpq hy hx => ?_
    subst hy hx
    by_contra hsome
    rw [not_or] at hsome
    have hlater := hchains _ _ hneeds hnot ⟨q.elf, hobj q hq, initStepsOf_ne_nil.mp hsome.2⟩
      ⟨p.elf, hobj p hp, initStepsOf_ne_nil.mp hsome.1⟩ (hvisits.chain _ (List.mem_map_of_mem hq))
    exact hpq.asymm hlater

section Sample

/-- `libx` needs `liby`. -/
def sampleDeps : ObjectMap := ⟨[("libx", sampleLib "libx" ["liby"]), ("liby", sampleLib "liby" [])], by decide⟩

/-- The walk from `main` through `libx`, and the walk that meets `liby` before `libx`. -/
lemma sampleDeps_order :
    dependencyOrder sampleDeps ["libx"] = .ok [("libx", sampleLib "libx" ["liby"]), ("liby", sampleLib "liby" [])] ∧
    dependencyOrder sampleDeps ["liby", "libx"] =
      .ok [("liby", sampleLib "liby" []), ("libx", sampleLib "libx" ["liby"])] := by
  have hx : sampleDeps.lookup "libx" = some (sampleLib "libx" ["liby"]) := by rfl
  have hy : sampleDeps.lookup "liby" = some (sampleLib "liby" []) := by rfl
  have vx : validateDependency "libx" (sampleLib "libx" ["liby"]) = .ok () := by rfl
  have vy : validateDependency "liby" (sampleLib "liby" []) = .ok () := by rfl
  have nx : (sampleLib "libx" ["liby"]).dyn.needed = ["liby"] := rfl
  have ny : (sampleLib "liby" []).dyn.needed = [] := rfl
  constructor
  · rw [dependencyOrder, dependencyGo_enter (by decide) hx vx, nx, dependencyGo_enter (by decide) hy vy, ny]
    simp only [dependencyGo_nil, Except.bind]
    rfl
  · rw [dependencyOrder, dependencyGo_enter (by decide) hy vy, ny]
    simp only [dependencyGo_nil, Except.bind]
    rw [dependencyGo_enter (by decide) hx vx, nx, dependencyGo_seen (by decide)]
    simp only [dependencyGo_nil, Except.bind]
    rfl

def samplePlaced (needed : List String) (objs : List (String × Elf)) : List PlannedObject :=
  ((mainObjectName, sampleMain needed) :: objs).zipIdx.map fun p =>
    ⟨⟨p.1.1, mainBase + p.2 * objectAlignment, mainBase + p.2 * objectAlignment + 0x100, 1⟩, p.1.2⟩

def samplePlan (placed : List PlannedObject) : LinkPlan :=
  ⟨placed.map PlannedObject.toPlacedObject, [], (initOrder placed).flatMap initStepsOf, []⟩

def chainPlaced : List PlannedObject :=
  samplePlaced ["libx"] [("libx", sampleLib "libx" ["liby"]), ("liby", sampleLib "liby" [])]

def crossPlaced : List PlannedObject :=
  samplePlaced ["liby", "libx"] [("liby", sampleLib "liby" []), ("libx", sampleLib "libx" ["liby"])]

lemma linkPlaced_cross : linkPlaced (sampleMain ["liby", "libx"]) sampleDeps = .ok crossPlaced := by
  rw [linkPlaced_of_order (by decide) (by rfl) sampleDeps_order.2]
  rfl

lemma linkDynamic_cross : linkDynamic (sampleMain ["liby", "libx"]) sampleDeps = .ok (samplePlan crossPlaced) := by
  rw [linkDynamic, linkPlaced_cross]
  rfl

lemma linkDynamic_chain : linkDynamic (sampleMain ["libx"]) sampleDeps = .ok (samplePlan chainPlaced) := by
  rw [linkDynamic, linkPlaced_of_order (by decide) (by rfl) sampleDeps_order.1]
  rfl

/-- Where `main` needs `libx` and `libx` needs `liby`, the order is right. -/
theorem init_order_iff_chain : (∀ x y, Needs (sampleMain ["libx"]) sampleDeps x y → ¬ Needs (sampleMain ["libx"]) sampleDeps y x →
    (initOwned chainPlaced).Pairwise fun a b => ¬ (a.1 = x ∧ b.1 = y)) ↔ ChainsFirst (sampleMain ["libx"]) sampleDeps := by
  obtain ⟨placed, hplaced, -, -, -, hiff⟩ := init_order_iff linkDynamic_chain
  have hsame : placed = chainPlaced := by
    rw [linkPlaced_of_order (by decide) (by rfl) sampleDeps_order.1] at hplaced
    exact (Except.ok.inj (hplaced.symm.trans (by rfl)))
  rwa [hsame] at hiff

/-- `main` needs `liby` and `libx`, in this order, and `libx` needs `liby`: the constructors of
`libx` run before those of `liby`. -/
theorem init_order_crossed : ∃ plan, linkDynamic (sampleMain ["liby", "libx"]) sampleDeps = .ok plan ∧
    linkPlaced (sampleMain ["liby", "libx"]) sampleDeps = .ok crossPlaced ∧
    plan.initSteps = (initOwned crossPlaced).map Prod.snd ∧
    Needs (sampleMain ["liby", "libx"]) sampleDeps "libx" "liby" ∧
      ¬ Needs (sampleMain ["liby", "libx"]) sampleDeps "liby" "libx" ∧
    ¬ (initOwned crossPlaced).Pairwise fun a b => ¬ (a.1 = "libx" ∧ b.1 = "liby") := by
  have hneeds : neededBy (sampleMain ["liby", "libx"]) sampleDeps "libx" = ["liby"] := by rfl
  have hnone : neededBy (sampleMain ["liby", "libx"]) sampleDeps "liby" = [] := by rfl
  refine ⟨_, linkDynamic_cross, linkPlaced_cross, by decide, .single (by simp [hneeds]), ?_, by decide⟩
  intro h
  obtain ⟨c, hc, -⟩ := Relation.TransGen.head'_iff.mp h
  simp [hnone] at hc

end Sample

end HouseKernel.Linker
