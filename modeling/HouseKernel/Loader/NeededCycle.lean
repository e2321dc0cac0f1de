import HouseKernel.Lib.Checks
import HouseKernel.Loader.Elf

/-! The search for a cycle among the NEEDED edges of an object graph. It follows every path from every
object, and fails where a path meets itself. -/
namespace HouseKernel.Loader

open HouseKernel.Lib

/-- Objects by name, with the names that they need; the first entry of a name counts. -/
abbrev NeededGraph := List (String × List String)

/-- The entries whose name is not on the path. -/
def NeededGraph.fresh (graph : NeededGraph) (path : List String) : ℕ := (graph.filter fun p => p.1 ∉ path).length

lemma NeededGraph.fresh_lt {graph : NeededGraph} {path : List String} {n : String} {deps : List String}
    (hn : n ∉ path) (h : List.lookup n graph = some deps) : graph.fresh (n :: path) < graph.fresh path := by
  obtain ⟨l₁, l₂, heq, -⟩ := List.lookup_eq_some_iff.mp h
  have hmem : (n, deps) ∈ graph.filter fun p => p.1 ∉ path := by
    refine List.mem_filter.mpr ⟨?_, by simpa using hn⟩
    rw [heq]
    simp
  have hsub : (graph.filter fun p => p.1 ∉ n :: path).Sublist (graph.filter fun p => p.1 ∉ path) := by
    refine List.monotone_filter_right _ fun p hp => ?_
    simp only [List.mem_cons, not_or, decide_eq_true_eq] at hp ⊢
    exact hp.2
  refine lt_of_le_of_ne hsub.length_le fun hlen => ?_
  rw [← hsub.eq_of_length hlen] at hmem
  simp at hmem

mutual

/-- Visit `n` at the end of `path`. -/
def visit (graph : NeededGraph) (path : List String) (n : String) : Except LoadError Unit :=
  if _hn : n ∈ path then .error .neededCycle
  else match _h : graph.lookup n with
    | none => .ok ()
    | some deps => visitAll graph (n :: path) deps
  termination_by (graph.fresh path, 0)
  decreasing_by exact Prod.Lex.left _ _ (NeededGraph.fresh_lt _hn _h)

def visitAll (graph : NeededGraph) (path : List String) : List String → Except LoadError Unit
  | [] => .ok ()
  | n :: rest => do
    visit graph path n
    visitAll graph path rest
  termination_by names => (graph.fresh path, names.length + 1)

end

def findNeededCycle (graph : NeededGraph) : Except LoadError Unit := visitAll graph [] (graph.map Prod.fst)

/-- `n` needs `m`. -/
def NeededGraph.Edge (graph : NeededGraph) (n m : String) : Prop := ∃ deps, graph.lookup n = some deps ∧ m ∈ deps

/-- Some object reaches itself. -/
def NeededGraph.Cyclic (graph : NeededGraph) : Prop := ∃ n, Relation.TransGen graph.Edge n n

section Search

variable {graph : NeededGraph} {path names : List String} {n : String}

lemma visitAll_eq : visitAll graph path names = forAll (visit graph path) names := by
  induction names with
  | nil => rw [visitAll, forAll]
  | cons n rest ih => rw [visitAll, forAll, ih]

theorem visit_eq : visit graph path n =
    if n ∈ path then .error .neededCycle else forAll (visit graph (n :: path)) ((graph.lookup n).getD []) := by
  rw [visit]
  split_ifs with hn
  · rfl
  · split
    case h_1 h => rw [h, Option.getD_none, forAll]
    case h_2 deps h => rw [h, Option.getD_some, visitAll_eq]

lemma edge_iff {m : String} : graph.Edge n m ↔ m ∈ (graph.lookup n).getD [] := by
  rw [NeededGraph.Edge]
  cases h : List.lookup n graph with
  | none => simp
  | some deps => simp

/-- A node that is reached, other than where the search stands, is reached through what it needs. -/
lemma reach_cases {α : Type*} {edge : α → α → Prop} {a b : α} (h : Relation.ReflTransGen edge a b) :
    b = a ∨ ∃ d, edge a d ∧ Relation.ReflTransGen edge d b := by
  obtain rfl | ⟨d, hd, hrest⟩ := Relation.ReflTransGen.cases_head h
  · exact Or.inl rfl
  · exact Or.inr ⟨d, hd, hrest⟩

/-- The search fails exactly where it can reach the path that it stands at, or a cycle. -/
theorem visit_ok_iff (graph : NeededGraph) (path : List String) (n : String) : visit graph path n = .ok () ↔
    ∀ m, Relation.ReflTransGen graph.Edge n m → m ∉ path ∧ ¬ Relation.TransGen graph.Edge m m := by
  refine visit.induct graph
    (fun path n => visit graph path n = .ok () ↔
      ∀ m, Relation.ReflTransGen graph.Edge n m → m ∉ path ∧ ¬ Relation.TransGen graph.Edge m m)
    (fun path names => ∀ d ∈ names, visit graph path d = .ok () ↔
      ∀ m, Relation.ReflTransGen graph.Edge d m → m ∉ path ∧ ¬ Relation.TransGen graph.Edge m m) ?_ ?_ ?_ ?_ ?_ path n
  · intro path n hn
    rw [visit_eq, if_pos hn]
    constructor
    · intro h
      cases h
    · intro h
      exact absurd hn (h n .refl).1
  · intro path n hn hnone
    rw [visit_eq, if_neg hn, hnone, Option.getD_none, forAll]
    refine iff_of_true rfl fun m hm => ?_
    have hstop : ∀ d, ¬ graph.Edge n d := by simp [edge_iff, hnone]
    obtain rfl | ⟨d, hd, -⟩ := reach_cases hm
    · refine ⟨hn, fun hcycle => ?_⟩
      obtain ⟨d, hd, -⟩ := Relation.TransGen.head'_iff.mp hcycle
      exact hstop d hd
    · exact absurd hd (hstop d)
  · intro path n hn deps hdeps ih
    have hedge : ∀ d, graph.Edge n d ↔ d ∈ deps := by simp [edge_iff, hdeps]
    rw [visit_eq, if_neg hn, hdeps, Option.getD_some, forAll_ok]
    constructor
    · intro h m hm
      have hbelow := fun d hd => (ih d hd).mp (h d hd)
      obtain rfl | ⟨d, hd, hrest⟩ := reach_cases hm
      · refine ⟨hn, fun hcycle => ?_⟩
        -- the cycle comes back to `n`, which is on the path below it
        obtain ⟨d, hd, hback⟩ := Relation.TransGen.head'_iff.mp hcycle
        exact (hbelow d ((hedge d).mp hd) _ hback).1 List.mem_cons_self
      · obtain ⟨h1, h2⟩ := hbelow d ((hedge d).mp hd) m hrest
        exact ⟨fun hin => h1 (List.mem_cons_of_mem _ hin), h2⟩
    · intro h d hd
      refine (ih d hd).mpr fun m hm => ?_
      obtain ⟨h1, h2⟩ := h m (.head ((hedge d).mpr hd) hm)
      refine ⟨fun hin => ?_, h2⟩
      obtain rfl | hin := List.mem_cons.mp hin
      · exact h2 (.head' ((hedge d).mpr hd) hm)
      · exact h1 hin
  · simp
  · intro path n rest ihn ihrest
    rw [List.forall_mem_cons]
    exact ⟨ihn, ihrest⟩

/-- The search has one way to fail. -/
theorem visit_error (graph : NeededGraph) (path : List String) (n : String) {e : LoadError}
    (h : visit graph path n = .error e) : e = .neededCycle := by
  revert h
  refine visit.induct graph (fun path n => visit graph path n = .error e → e = .neededCycle)
    (fun path names => ∀ d ∈ names, visit graph path d = .error e → e = .neededCycle) ?_ ?_ ?_ ?_ ?_ path n
  · intro path n hn h
    rw [visit_eq, if_pos hn] at h
    exact (Except.error.inj h).symm
  · intro path n hn hnone h
    rw [visit_eq, if_neg hn, hnone] at h
    cases h
  · intro path n hn deps hdeps ih h
    rw [visit_eq, if_neg hn, hdeps, Option.getD_some] at h
    obtain ⟨d, hd, hfail⟩ := forAll_error h
    exact ih d hd hfail
  · simp
  · intro path n rest ihn ihrest
    rw [List.forall_mem_cons]
    exact ⟨ihn, ihrest⟩

end Search

/-- A node on a cycle is an object of the graph. -/
lemma NeededGraph.mem_of_edge {graph : NeededGraph} {n m : String} (h : graph.Edge n m) : n ∈ graph.map Prod.fst := by
  obtain ⟨deps, hdeps, -⟩ := h
  obtain ⟨l₁, l₂, heq, -⟩ := List.lookup_eq_some_iff.mp hdeps
  rw [heq]
  simp

theorem findNeededCycle_ok_iff (graph : NeededGraph) : findNeededCycle graph = .ok () ↔ ¬ graph.Cyclic := by
  rw [findNeededCycle, visitAll_eq, forAll_ok]
  constructor
  · rintro h ⟨n, hcycle⟩
    obtain ⟨d, hd, -⟩ := Relation.TransGen.head'_iff.mp hcycle
    exact ((visit_ok_iff graph [] n).mp (h n (NeededGraph.mem_of_edge hd)) n .refl).2 hcycle
  · intro h n hn
    exact (visit_ok_iff graph [] n).mpr fun m _ => ⟨List.not_mem_nil, fun hcycle => h ⟨m, hcycle⟩⟩

theorem findNeededCycle_error_iff (graph : NeededGraph) : findNeededCycle graph = .error .neededCycle ↔ graph.Cyclic := by
  constructor
  · intro h
    by_contra hnot
    rw [(findNeededCycle_ok_iff graph).mpr hnot] at h
    cases h
  · intro h
    cases hres : findNeededCycle graph with
    | ok u => exact absurd h ((findNeededCycle_ok_iff graph).mp hres)
    | error e =>
      -- an error of the roots is an error at one of them
      rw [findNeededCycle, visitAll_eq] at hres
      obtain ⟨n, -, hn⟩ := forAll_error hres
      rw [visit_error graph [] n hn]

end HouseKernel.Loader
