import Mathlib.Tactic

/-! Chains of checks in `Except`: what a success says about the steps. -/
namespace HouseKernel.Lib

universe u

variable {ε : Type*} {α β σ : Type u}

theorem bind_ok {x : Except ε α} {f : α → Except ε β} {b : β} :
    (x >>= f) = .ok b ↔ ∃ a, x = .ok a ∧ f a = .ok b := by
  cases x with
  | error e =>
    constructor
    · intro h
      cases h
    · rintro ⟨a, h, -⟩
      cases h
  | ok a =>
    constructor
    · intro h
      exact ⟨a, rfl, h⟩
    · rintro ⟨_, ⟨⟩, h⟩
      exact h

lemma ok_bind (a : α) (f : α → Except ε β) : ((Except.ok a : Except ε α) >>= f) = f a := rfl

/-- A chain fails at its first step or after it. -/
theorem bind_error {x : Except ε α} {f : α → Except ε β} {e : ε} (h : (x >>= f) = .error e) :
    x = .error e ∨ ∃ a, x = .ok a ∧ f a = .error e := by
  cases x with
  | error e' => exact Or.inl (congrArg Except.error (Except.error.inj h))
  | ok a => exact Or.inr ⟨a, rfl, h⟩

theorem map_ok {x : Except ε α} {f : α → β} {b : β} : f <$> x = .ok b ↔ ∃ a, x = .ok a ∧ f a = b := by
  cases x with
  | error e =>
    constructor
    · intro h
      cases h
    · rintro ⟨a, h, -⟩
      cases h
  | ok a =>
    constructor
    · intro h
      exact ⟨a, rfl, Except.ok.inj h⟩
    · rintro ⟨_, ⟨⟩, rfl⟩
      rfl

theorem pure_ok {a b : α} : (pure a : Except ε α) = .ok b ↔ a = b := ⟨Except.ok.inj, congrArg Except.ok⟩

theorem toOption_ok {x : Except ε α} {a : α} : x.toOption = some a ↔ x = .ok a := by
  cases x with
  | error e =>
    constructor
    · intro h
      cases h
    · intro h
      cases h
  | ok b => exact ⟨fun h => congrArg Except.ok (Option.some.inj h), fun h => congrArg some (Except.ok.inj h)⟩

/-- Fail with `e` unless `p`. -/
def check (p : Prop) [Decidable p] (e : ε) : Except ε Unit := if p then .ok () else .error e

theorem check_ok {p : Prop} [Decidable p] {e : ε} {u : Unit} : check p e = .ok u ↔ p := by
  unfold check
  split_ifs with h
  · exact ⟨fun _ => h, fun _ => rfl⟩
  · constructor
    · intro hc
      cases hc
    · intro hp
      exact absurd hp h

lemma check_eq {p : Prop} [Decidable p] (h : p) (e : ε) : check p e = .ok () := if_pos h

variable {γ : Type*}

/-- The elements are checked in turn. -/
def forAll (f : γ → Except ε Unit) : List γ → Except ε Unit
  | [] => .ok ()
  | a :: as => f a >>= fun _ => forAll f as

theorem forAll_ok {f : γ → Except ε Unit} {as : List γ} {u : Unit} :
    forAll f as = .ok u ↔ ∀ a ∈ as, f a = .ok () := by
  induction as with
  | nil => simp [forAll]
  | cons a as ih =>
    simp only [forAll, bind_ok, ih, List.forall_mem_cons]
    constructor
    · rintro ⟨⟨⟩, h1, h2⟩
      exact ⟨h1, h2⟩
    · rintro ⟨h1, h2⟩
      exact ⟨(), h1, h2⟩

/-- A failure is the failure of one element. -/
theorem forAll_error {f : γ → Except ε Unit} {as : List γ} {e : ε} (h : forAll f as = .error e) :
    ∃ a ∈ as, f a = .error e := by
  induction as with
  | nil => cases h
  | cons a as ih =>
    rw [forAll] at h
    cases ha : f a with
    | error e' =>
      rw [ha] at h
      obtain rfl := Except.error.inj h
      exact ⟨a, List.mem_cons_self, ha⟩
    | ok u =>
      rw [ha] at h
      obtain ⟨b, hb, hfail⟩ := ih h
      exact ⟨b, List.mem_cons_of_mem _ hb, hfail⟩

/-- The elements are mapped in turn. -/
def mapAll (f : γ → Except ε β) : List γ → Except ε (List β)
  | [] => .ok []
  | a :: as => f a >>= fun b => mapAll f as >>= fun bs => .ok (b :: bs)

theorem mapAll_ok {f : γ → Except ε β} {as : List γ} {bs : List β} :
    mapAll f as = .ok bs ↔ List.Forall₂ (fun a b => f a = .ok b) as bs := by
  induction as generalizing bs with
  | nil =>
    rw [List.forall₂_nil_left_iff, mapAll, Except.ok.injEq]
    exact eq_comm
  | cons a as ih =>
    simp only [mapAll, bind_ok, List.forall₂_cons_left_iff, Except.ok.injEq]
    constructor
    · rintro ⟨b, hb, bs', hbs, rfl⟩
      exact ⟨b, bs', hb, ih.mp hbs, rfl⟩
    · rintro ⟨b, bs', hb, hbs, rfl⟩
      exact ⟨b, hb, bs', ih.mpr hbs, rfl⟩

/-- Mapping succeeds where every element meets `P`, if `f` is `g` there and fails elsewhere. -/
theorem mapAll_eq_map {f : γ → Except ε β} {P : γ → Prop} {g : γ → β} (hf : ∀ a b, f a = .ok b ↔ P a ∧ b = g a)
    {as : List γ} {bs : List β} : mapAll f as = .ok bs ↔ (∀ a ∈ as, P a) ∧ bs = as.map g := by
  induction as generalizing bs with
  | nil =>
    rw [mapAll, Except.ok.injEq]
    exact ⟨fun h => ⟨by simp, h.symm⟩, fun h => h.2.symm⟩
  | cons a as ih =>
    simp only [mapAll, bind_ok, hf, ih, Except.ok.injEq, List.forall_mem_cons, List.map_cons]
    constructor
    · rintro ⟨b, ⟨ha, rfl⟩, bs', ⟨has, rfl⟩, rfl⟩
      exact ⟨⟨ha, has⟩, rfl⟩
    · rintro ⟨⟨ha, has⟩, rfl⟩
      exact ⟨g a, ⟨ha, rfl⟩, as.map g, ⟨has, rfl⟩, rfl⟩

/-- What is paired with an element of the second list. -/
theorem forall₂_right {R : γ → β → Prop} {as : List γ} {bs : List β} (h : List.Forall₂ R as bs) {b : β}
    (hb : b ∈ bs) : ∃ a ∈ as, R a b := by
  induction h with
  | nil => cases hb
  | cons hab _ ih =>
    obtain rfl | hb := List.mem_cons.mp hb
    · exact ⟨_, List.mem_cons_self, hab⟩
    · obtain ⟨a, ha, hr⟩ := ih hb
      exact ⟨a, List.mem_cons_of_mem _ ha, hr⟩

/-- What is paired with an element of the first list. -/
theorem forall₂_left {R : γ → β → Prop} {as : List γ} {bs : List β} (h : List.Forall₂ R as bs) {a : γ}
    (ha : a ∈ as) : ∃ b ∈ bs, R a b := by
  obtain ⟨b, hb, hr⟩ := forall₂_right (List.Forall₂.flip h) ha
  exact ⟨b, hb, hr⟩

/-- A state is carried over the elements. -/
def foldAll (f : σ → γ → Except ε σ) : σ → List γ → Except ε σ
  | s, [] => .ok s
  | s, a :: as => f s a >>= fun t => foldAll f t as

/-- Every element was carried over at some state. -/
theorem foldAll_mem {f : σ → γ → Except ε σ} {as : List γ} {s t : σ} (h : foldAll f s as = .ok t) {a : γ} (ha : a ∈ as) :
    ∃ u v, f u a = .ok v := by
  induction as generalizing s with
  | nil => cases ha
  | cons b as ih =>
    obtain ⟨u, hu, ht⟩ := bind_ok.mp h
    obtain rfl | ha := List.mem_cons.mp ha
    · exact ⟨s, u, hu⟩
    · exact ih ht ha

end HouseKernel.Lib
