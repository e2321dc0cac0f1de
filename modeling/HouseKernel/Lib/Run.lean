import Mathlib.Data.List.Basic

/-! Finite runs of a guarded transition function. A step is a partial function of the
state and the action: `none` means that the action is not enabled there. The rules below
turn what one step preserves into what every run preserves, with or without a condition
that the steps of the run have to meet. -/
namespace HouseKernel.Lib

variable {σ α : Type*} {step : σ → α → Option σ}

/-- Execute a list of actions; a run stops with `none` at the first disabled action. -/
def run (step : σ → α → Option σ) : σ → List α → Option σ
  | s, [] => some s
  | s, a :: as => (step s a).bind fun t => run step t as

/-- Every action of the list meets `G` in the state in which it is taken. -/
def Along (step : σ → α → Option σ) (G : σ → α → Prop) : σ → List α → Prop
  | _, [] => True
  | s, a :: as => G s a ∧ ∀ t, step s a = some t → Along step G t as

@[simp] theorem run_nil (s : σ) : run step s [] = some s := rfl

theorem run_cons {s u : σ} {a : α} {as : List α} :
    run step s (a :: as) = some u ↔ ∃ t, step s a = some t ∧ run step t as = some u :=
  Option.bind_eq_some_iff

@[simp] theorem along_nil (G : σ → α → Prop) (s : σ) : Along step G s [] := trivial

theorem along_cons_iff {G : σ → α → Prop} {s : σ} {a : α} {as : List α} :
    Along step G s (a :: as) ↔ G s a ∧ ∀ t, step s a = some t → Along step G t as := Iff.rfl

theorem run_append {s u : σ} {as bs : List α} :
    run step s (as ++ bs) = some u ↔ ∃ t, run step s as = some t ∧ run step t bs = some u := by
  induction as generalizing s with
  | nil => simp
  | cons a as ih =>
    simp only [List.cons_append, run_cons, ih]
    constructor
    · rintro ⟨t, ht, v, hv, hu⟩
      exact ⟨v, ⟨t, ht, hv⟩, hu⟩
    · rintro ⟨v, ⟨t, ht, hv⟩, hu⟩
      exact ⟨t, ht, v, hv, hu⟩

/-- An invariant of the steps that meet `G` is an invariant of the runs along `G`. -/
theorem run_invariant {G : σ → α → Prop} {I : σ → Prop}
    (hstep : ∀ s a t, I s → G s a → step s a = some t → I t)
    {s t : σ} {as : List α} (hs : I s) (hG : Along step G s as) (h : run step s as = some t) :
    I t := by
  induction as generalizing s with
  | nil =>
    obtain rfl : s = t := by simpa using h
    exact hs
  | cons a as ih =>
    obtain ⟨u, hu, ht⟩ := run_cons.mp h
    exact ih (hstep s a u hs hG.1 hu) (hG.2 u hu) ht

/-- Steps that are enabled wherever the invariant and `G` hold never stop a run along `G`. -/
theorem run_total {G : σ → α → Prop} {I : σ → Prop} (hstep : ∀ s a, I s → G s a → ∃ t, step s a = some t ∧ I t)
    {s : σ} {as : List α} (hs : I s) (hG : Along step G s as) : ∃ t, run step s as = some t ∧ I t := by
  induction as generalizing s with
  | nil => exact ⟨s, rfl, hs⟩
  | cons a as ih =>
    obtain ⟨t, ht, hI⟩ := hstep s a hs hG.1
    obtain ⟨u, hu, hIu⟩ := ih hI (hG.2 t ht)
    exact ⟨u, run_cons.mpr ⟨t, ht, hu⟩, hIu⟩

theorem along_cons {G : σ → α → Prop} {s t : σ} {a : α} {as : List α} (h : step s a = some t) :
    Along step G s (a :: as) ↔ G s a ∧ Along step G t as := by
  simp [along_cons_iff, h]

/-- A condition that can be tested in one state can be tested along a run. -/
instance decidableAlong {G : σ → α → Prop} [∀ s a, Decidable (G s a)] :
    ∀ (s : σ) (as : List α), Decidable (Along step G s as)
  | _, [] => isTrue trivial
  | s, a :: as =>
    match h : step s a with
    | none => decidable_of_iff (G s a) (by simp [along_cons_iff, h])
    | some t => @decidable_of_iff _ (G s a ∧ Along step G t as) (along_cons h).symm
        (@instDecidableAnd _ _ _ (decidableAlong t as))

/-- A run meets the condition when its first part does and, from where that ends, the rest. -/
theorem along_append {G : σ → α → Prop} {s : σ} {as bs : List α} :
    Along step G s (as ++ bs) ↔ Along step G s as ∧ ∀ t, run step s as = some t → Along step G t bs := by
  induction as generalizing s with
  | nil => simp
  | cons a as ih =>
    simp only [List.cons_append, along_cons_iff, ih, run_cons]
    constructor
    · rintro ⟨ha, hrest⟩
      refine ⟨⟨ha, fun t ht => (hrest t ht).1⟩, ?_⟩
      rintro u ⟨t, ht, hu⟩
      exact (hrest t ht).2 u hu
    · rintro ⟨⟨ha, hfirst⟩, hlast⟩
      exact ⟨ha, fun t ht => ⟨hfirst t ht, fun u hu => hlast u ⟨t, ht, hu⟩⟩⟩

theorem not_along_concat {G : σ → α → Prop} {s t : σ} {as : List α} {a : α}
    (h : run step s as = some t) (ha : ¬ G t a) : ¬ Along step G s (as ++ [a]) :=
  fun hG => ha ((along_append.mp hG).2 t h).1

/-- A condition that every step meets holds along every run. -/
theorem along_of_forall {G : σ → α → Prop} (hG : ∀ s a, G s a) (s : σ) (as : List α) :
    Along step G s as := by
  induction as generalizing s with
  | nil => trivial
  | cons a as ih => exact ⟨hG s a, fun t _ => ih t⟩

/-- A condition on the actions alone holds along a run of actions that meet it. -/
theorem along_of_mem {P : α → Prop} {as : List α} (h : ∀ a ∈ as, P a) (s : σ) :
    Along step (fun _ a => P a) s as := by
  induction as generalizing s with
  | nil => trivial
  | cons a as ih =>
    obtain ⟨ha, has⟩ := List.forall_mem_cons.mp h
    exact ⟨ha, fun t _ => ih has t⟩

/-- `P` holds in every state that the run passes through. -/
def Throughout (step : σ → α → Option σ) (P : σ → Prop) (s : σ) (as : List α) : Prop :=
  ∀ bs, bs <+: as → ∀ t, run step s bs = some t → P t

theorem throughout_cons {P : σ → Prop} {s : σ} {a : α} {as : List α} :
    Throughout step P s (a :: as) ↔ P s ∧ ∀ t, step s a = some t → Throughout step P t as := by
  constructor
  · intro h
    refine ⟨h [] List.nil_prefix s rfl, fun t ht bs hbs u hu => ?_⟩
    exact h (a :: bs) (List.cons_prefix_cons.mpr ⟨rfl, hbs⟩) u (run_cons.mpr ⟨t, ht, hu⟩)
  · rintro ⟨hs, hrest⟩ bs hbs u hu
    cases bs with
    | nil =>
      obtain rfl : s = u := by simpa using hu
      exact hs
    | cons b bs =>
      obtain ⟨rfl, htail⟩ := List.cons_prefix_cons.mp hbs
      obtain ⟨t, ht, hu⟩ := run_cons.mp hu
      exact hrest t ht bs htail u hu

theorem throughout_nil {P : σ → Prop} {s : σ} (h : P s) : Throughout step P s [] := by
  intro bs hbs t ht
  obtain rfl := List.prefix_nil.mp hbs
  obtain rfl : s = t := by simpa using ht
  exact h

theorem throughout_step {P : σ → Prop} {s t : σ} {a : α} {as : List α} (h : P s) (hs : step s a = some t)
    (ht : Throughout step P t as) : Throughout step P s (a :: as) := by
  refine throughout_cons.mpr ⟨h, fun u hu => ?_⟩
  obtain rfl := Option.some.inj (hs.symm.trans hu)
  exact ht

/-- When `G` is exactly what a step needs in order to keep `P`, a run keeps `P` throughout
exactly along `G`. `A` is what all actions of the run have in common. -/
theorem throughout_iff_along {A : α → Prop} {I P : σ → Prop} {G : σ → α → Prop}
    (hI : ∀ s a t, A a → I s → step s a = some t → I t)
    (hG : ∀ s a t, A a → I s → P s → step s a = some t → (P t ↔ G s a))
    {s u : σ} {as : List α} (hA : ∀ a ∈ as, A a) (hs : I s) (hP : P s) (h : run step s as = some u) :
    Throughout step P s as ↔ Along step G s as := by
  induction as generalizing s with
  | nil =>
    refine ⟨fun _ => trivial, fun _ bs hbs t ht => ?_⟩
    obtain rfl := List.prefix_nil.mp hbs
    obtain rfl : s = t := by simpa using ht
    exact hP
  | cons a as ih =>
    obtain ⟨ha, has⟩ := List.forall_mem_cons.mp hA
    obtain ⟨t, ht, hu⟩ := run_cons.mp h
    have hnext : ∀ v, step s a = some v → v = t := fun v hv => Option.some.inj (hv.symm.trans ht)
    rw [throughout_cons, along_cons ht]
    constructor
    · rintro ⟨-, hrest⟩
      have hPt : P t := hrest t ht [] List.nil_prefix t rfl
      exact ⟨(hG s a t ha hs hP ht).mp hPt, (ih has (hI s a t ha hs ht) hPt hu).mp (hrest t ht)⟩
    · rintro ⟨hGa, hrest⟩
      have hPt : P t := (hG s a t ha hs hP ht).mpr hGa
      refine ⟨hP, fun v hv => ?_⟩
      obtain rfl := hnext v hv
      exact (ih has (hI s a _ ha hs ht) hPt hu).mpr hrest

/-- Two conditions that agree wherever the invariant holds hold along the same runs. -/
theorem along_congr {A : α → Prop} {I : σ → Prop} {G G' : σ → α → Prop}
    (hI : ∀ s a t, A a → I s → step s a = some t → I t) (hG : ∀ s a, A a → I s → (G s a ↔ G' s a))
    {s : σ} {as : List α} (hA : ∀ a ∈ as, A a) (hs : I s) : Along step G s as ↔ Along step G' s as := by
  induction as generalizing s with
  | nil => exact Iff.rfl
  | cons a as ih =>
    obtain ⟨ha, has⟩ := List.forall_mem_cons.mp hA
    exact and_congr (hG s a ha hs) (forall₂_congr fun t ht => ih has (hI s a t ha hs ht))

/-- What a step that meets `G` shows of its state holds along every run along `G`. -/
theorem along_of_invariant {A : α → Prop} {I : σ → Prop} {G P : σ → α → Prop}
    (hI : ∀ s a t, A a → I s → G s a → step s a = some t → I t)
    (hP : ∀ s a, A a → I s → G s a → P s a) {s : σ} {as : List α} (hA : ∀ a ∈ as, A a) (hs : I s)
    (h : Along step G s as) : Along step P s as := by
  induction as generalizing s with
  | nil => trivial
  | cons a as ih =>
    obtain ⟨ha, has⟩ := List.forall_mem_cons.mp hA
    exact ⟨hP s a ha hs h.1, fun t ht => ih has (hI s a t ha hs h.1 ht) (h.2 t ht)⟩

/-- Two conditions that agree wherever the invariant holds, of which one keeps it, hold along the same runs. -/
theorem along_iff_of_invariant {I : σ → Prop} {G P : σ → α → Prop} (hI : ∀ s a t, I s → G s a → step s a = some t → I t)
    (hiff : ∀ s a, I s → (P s a ↔ G s a)) {s : σ} {as : List α} (hs : I s) : Along step P s as ↔ Along step G s as := by
  have hall : ∀ a ∈ as, (fun _ : α => True) a := fun _ _ => trivial
  constructor
  · refine along_of_invariant (fun s a t _ hs hP => hI s a t hs ((hiff s a hs).mp hP)) ?_ hall hs
    exact fun s a _ hs hP => (hiff s a hs).mp hP
  · refine along_of_invariant (fun s a t _ hs hG => hI s a t hs hG) ?_ hall hs
    exact fun s a _ hs hG => (hiff s a hs).mpr hG

theorem along_and {G G' : σ → α → Prop} {s : σ} {as : List α} :
    Along step (fun s a => G s a ∧ G' s a) s as ↔ Along step G s as ∧ Along step G' s as := by
  induction as generalizing s with
  | nil => exact (and_self_iff).symm
  | cons a as ih =>
    simp only [along_cons_iff, ih]
    constructor
    · rintro ⟨⟨h, h'⟩, hrest⟩
      exact ⟨⟨h, fun t ht => (hrest t ht).1⟩, h', fun t ht => (hrest t ht).2⟩
    · rintro ⟨⟨h, hrest⟩, h', hrest'⟩
      exact ⟨⟨h, h'⟩, fun t ht => ⟨hrest t ht, hrest' t ht⟩⟩

/-- A measure that no step raises, and that exactly the steps that meet `G` keep, is kept by exactly the runs along `G`. -/
theorem run_measure_eq_iff {I : σ → Prop} {G : σ → α → Prop} {f : σ → ℕ} (hI : ∀ s a t, I s → step s a = some t → I t)
    (hf : ∀ s a t, I s → step s a = some t → f t ≤ f s ∧ (f t = f s ↔ G s a))
    {s t : σ} {as : List α} (hs : I s) (h : run step s as = some t) : f t ≤ f s ∧ (f t = f s ↔ Along step G s as) := by
  induction as generalizing s with
  | nil =>
    obtain rfl : s = t := by simpa using h
    exact ⟨Nat.le_refl _, iff_of_true rfl trivial⟩
  | cons a as ih =>
    obtain ⟨u, hu, ht⟩ := run_cons.mp h
    obtain ⟨hle, hiff⟩ := hf s a u hs hu
    obtain ⟨hle', hiff'⟩ := ih (hI s a u hs hu) ht
    rw [along_cons hu, ← hiff, ← hiff']
    omega

/-- When every step of one system is a step of another between related states, so is every run. -/
theorem run_simulation {τ : Type*} {specStep : τ → α → Option τ} {R : σ → τ → Prop}
    (hstep : ∀ s w a t, R s w → step s a = some t → ∃ v, specStep w a = some v ∧ R t v)
    {s t : σ} {w : τ} {as : List α} (hR : R s w) (h : run step s as = some t) : ∃ v, run specStep w as = some v ∧ R t v := by
  induction as generalizing s w with
  | nil =>
    obtain rfl : s = t := by simpa using h
    exact ⟨w, rfl, hR⟩
  | cons a as ih =>
    obtain ⟨u, hu, ht⟩ := run_cons.mp h
    obtain ⟨x, hx, hux⟩ := hstep s w a u hR hu
    obtain ⟨v, hv, htv⟩ := ih hux ht
    exact ⟨v, run_cons.mpr ⟨x, hx, hv⟩, htv⟩

end HouseKernel.Lib
