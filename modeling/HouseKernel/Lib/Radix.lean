import Mathlib.Tactic

/-! Radix trees of tables in word-addressed memory. A table is a page of 512 words; `next`
reads a table pointer off a word, or says that there is none. Several roots keep their tables
in one memory, next to a list of free pages. -/
namespace HouseKernel.Lib

variable {W : Type*} (next : W → Option ℕ)

/-- Follow a path of indices from the table at `p`. -/
def walk (mem : ℕ → W) (p : ℕ) : List ℕ → Option ℕ
  | [] => some p
  | i :: is => (next (mem (p + 8*i))).bind fun c => walk mem c is

/-- The table at `p` stands at the path `is` of the root `r`. -/
structure Stands (depth : ℕ) (mem : ℕ → W) (roots : Set ℕ) (r : ℕ) (is : List ℕ) (p : ℕ) : Prop where
  root : r ∈ roots
  index : ∀ i ∈ is, i < 512
  short : is.length ≤ depth
  reach : walk next mem r is = some p

/-- Every table stands in one place, on a page of its own that is not free. -/
structure Forest (depth : ℕ) (mem : ℕ → W) (roots : Set ℕ) (free : List ℕ) : Prop where
  aligned : ∀ {r is p}, Stands next depth mem roots r is p → p % 4096 = 0
  unique : ∀ {r r' is is' p}, Stands next depth mem roots r is p →
    Stands next depth mem roots r' is' p → r = r' ∧ is = is'
  apart : ∀ {r is p}, Stands next depth mem roots r is p → p ∉ free
  freeAligned : ∀ {p}, p ∈ free → p % 4096 = 0
  nodup : free.Nodup

variable {next}

@[simp] theorem walk_nil (mem : ℕ → W) (p : ℕ) : walk next mem p [] = some p := rfl

theorem walk_append (mem : ℕ → W) (p : ℕ) (is js : List ℕ) :
    walk next mem p (is ++ js) = (walk next mem p is).bind fun q => walk next mem q js := by
  induction is generalizing p with
  | nil => rfl
  | cons i is ih =>
    simp only [List.cons_append, walk, Option.bind_assoc]
    congr 1
    funext c
    exact ih c

theorem walk_concat (mem : ℕ → W) (p : ℕ) (is : List ℕ) (i : ℕ) :
    walk next mem p (is ++ [i]) = (walk next mem p is).bind fun q => next (mem (q + 8*i)) := by
  rw [walk_append]
  congr 1
  funext q
  simp [walk]

/-- A walk depends only on the pointers that it reads. -/
theorem walk_congr {next' : W → Option ℕ} {mem mem' : ℕ → W} {r : ℕ} {is : List ℕ}
    (h : ∀ js i q, js ++ [i] <+: is → walk next mem r js = some q →
      next' (mem' (q + 8*i)) = next (mem (q + 8*i))) :
    walk next' mem' r is = walk next mem r is := by
  induction is using List.reverseRecOn with
  | nil => rfl
  | append_singleton is i ih =>
    rw [walk_concat, walk_concat, ih fun js j q hpre => h js j q (hpre.trans (List.prefix_append is [i]))]
    cases hq : walk next mem r is with
    | none => rfl
    | some q => exact h is i q List.prefix_rfl hq

section Forest

variable {depth : ℕ} {mem mem' : ℕ → W} {roots : Set ℕ} {free : List ℕ}

theorem Stands.parent {r : ℕ} {is : List ℕ} {i c : ℕ} (h : Stands next depth mem roots r (is ++ [i]) c) :
    ∃ p, Stands next depth mem roots r is p ∧ next (mem (p + 8*i)) = some c := by
  have hwalk := h.reach
  rw [walk_concat] at hwalk
  obtain ⟨p, hp, hc⟩ := Option.bind_eq_some_iff.mp hwalk
  have hshort := h.short
  simp only [List.length_append, List.length_singleton] at hshort
  exact ⟨p, ⟨h.root, fun j hj => h.index j (by simp [hj]), by omega, hp⟩, hc⟩

theorem Stands.child {r : ℕ} {is : List ℕ} {p i c : ℕ} (h : Stands next depth mem roots r is p)
    (hlen : is.length < depth) (hi : i < 512) (hc : next (mem (p + 8*i)) = some c) :
    Stands next depth mem roots r (is ++ [i]) c := by
  refine ⟨h.root, fun j hj => ?_, by simpa using hlen, ?_⟩
  · obtain hj | hj := List.mem_append.mp hj
    · exact h.index j hj
    · rw [List.mem_singleton.mp hj]
      exact hi
  · rw [walk_concat, h.reach]
    exact hc

theorem stands_nil {r q : ℕ} : Stands next depth mem roots r [] q ↔ r ∈ roots ∧ q = r := by
  constructor
  · intro h
    exact ⟨h.root, (Option.some.inj h.reach).symm⟩
  · rintro ⟨hr, rfl⟩
    exact ⟨hr, by simp, by simp, rfl⟩

theorem stands_concat {r : ℕ} {is : List ℕ} {i c : ℕ} : Stands next depth mem roots r (is ++ [i]) c ↔
    is.length < depth ∧ i < 512 ∧ ∃ p, Stands next depth mem roots r is p ∧ next (mem (p + 8*i)) = some c := by
  constructor
  · intro h
    have hshort := h.short
    simp only [List.length_append, List.length_singleton] at hshort
    exact ⟨by omega, h.index i (by simp), h.parent⟩
  · rintro ⟨hlen, hi, p, hp, hc⟩
    exact hp.child hlen hi hc

/-- A memory in which every inner table reads the same has the same tables. -/
theorem stands_congr (h : ∀ {r is p i}, Stands next depth mem roots r is p → is.length < depth → i < 512 →
      next (mem' (p + 8*i)) = next (mem (p + 8*i))) {r : ℕ} {is : List ℕ} {p : ℕ} :
    Stands next depth mem' roots r is p ↔ Stands next depth mem roots r is p := by
  have key : r ∈ roots → (∀ i ∈ is, i < 512) → is.length ≤ depth →
      walk next mem' r is = walk next mem r is := by
    intro hr hi hl
    apply walk_congr
    intro js i q hpre hq
    have hmem : ∀ j ∈ js ++ [i], j ∈ is := fun j hj => hpre.subset hj
    have hlen := hpre.length_le
    simp only [List.length_append, List.length_singleton] at hlen
    refine h ⟨hr, fun j hj => hi j (hmem j (by simp [hj])), by omega, hq⟩ (by omega) ?_
    exact hi i (hmem i (by simp))
  constructor
  · rintro ⟨h1, h2, h3, h4⟩
    exact ⟨h1, h2, h3, (key h1 h2 h3).symm.trans h4⟩
  · rintro ⟨h1, h2, h3, h4⟩
    exact ⟨h1, h2, h3, (key h1 h2 h3).trans h4⟩

theorem Forest.congr (hf : Forest next depth mem roots free)
    (h : ∀ {r is p i}, Stands next depth mem roots r is p → is.length < depth → i < 512 →
      next (mem' (p + 8*i)) = next (mem (p + 8*i))) : Forest next depth mem' roots free where
  aligned hs := hf.aligned ((stands_congr h).mp hs)
  unique hs hs' := hf.unique ((stands_congr h).mp hs) ((stands_congr h).mp hs')
  apart hs := hf.apart ((stands_congr h).mp hs)
  freeAligned := hf.freeAligned
  nodup := hf.nodup

/-- Two words of tables have the same address only when they are the same word. -/
theorem word_ne {p q i j : ℕ} (hp : p % 4096 = 0) (hq : q % 4096 = 0) (hi : i < 512) (hj : j < 512)
    (h : p ≠ q ∨ i ≠ j) : p + 8*i ≠ q + 8*j := by
  omega

/-- Writing an entry of a table at full depth leaves every walk as it was. -/
theorem Forest.leaf_write (hf : Forest next depth mem roots free) {r : ℕ} {is : List ℕ}
    {t j : ℕ} (ht : Stands next depth mem roots r is t) (hfull : is.length = depth) (hj : j < 512) (v : W)
    {r' : ℕ} {js : List ℕ} {p i : ℕ} (hp : Stands next depth mem roots r' js p) (hlt : js.length < depth)
    (hi : i < 512) : next (Function.update mem (t + 8*j) v (p + 8*i)) = next (mem (p + 8*i)) := by
  have hne : p ≠ t := by
    rintro rfl
    have := (hf.unique hp ht).2
    rw [this] at hlt
    omega
  rw [Function.update_of_ne (word_ne (hf.aligned hp) (hf.aligned ht) hi hj (Or.inl hne))]

theorem Forest.subset {roots' : Set ℕ} {free' : List ℕ} (hf : Forest next depth mem roots free)
    (hr : roots' ⊆ roots) (hs : free'.Sublist free) : Forest next depth mem roots' free' := by
  have hup : ∀ {r is p}, Stands next depth mem roots' r is p → Stands next depth mem roots r is p :=
    fun h => ⟨hr h.root, h.index, h.short, h.reach⟩
  exact ⟨fun h => hf.aligned (hup h), fun h h' => hf.unique (hup h) (hup h'),
    fun h hmem => hf.apart (hup h) (hs.subset hmem), fun h => hf.freeAligned (hs.subset h), hf.nodup.sublist hs⟩

/-- The order of the free pages does not matter. -/
theorem Forest.perm {free' : List ℕ} (hf : Forest next depth mem roots free) (h : free'.Perm free) :
    Forest next depth mem roots free' :=
  ⟨hf.aligned, hf.unique, fun hs hmem => hf.apart hs (h.subset hmem), fun hmem => hf.freeAligned (h.subset hmem),
    h.nodup_iff.mpr hf.nodup⟩

/-- Words of a table that is not the page `t` lie outside that page. -/
lemma outside_page {p t i : ℕ} (hp : p % 4096 = 0) (ht : t % 4096 = 0) (hi : i < 512) (hne : p ≠ t) :
    p + 8*i < t ∨ t + 4096 ≤ p + 8*i := by
  omega

lemma word_aligned {p i : ℕ} (hp : p % 4096 = 0) : (p + 8*i) % 8 = 0 := by
  omega

section Grow

variable {t : ℕ} {rest : List ℕ}

/-- One more table, on a page that was free. -/
theorem Forest.extend {roots' : Set ℕ} {r₀ : ℕ} {is₀ : List ℕ} (hf : Forest next depth mem roots (t :: rest))
    (hstands : ∀ r js q, Stands next depth mem' roots' r js q ↔
      Stands next depth mem roots r js q ∨ (r = r₀ ∧ js = is₀ ∧ q = t)) : Forest next depth mem' roots' rest := by
  have hnodup := List.nodup_cons.mp hf.nodup
  have hnot : ∀ {r' js}, ¬ Stands next depth mem roots r' js t := fun h => hf.apart h List.mem_cons_self
  refine ⟨fun h => ?_, fun h h' => ?_, fun h => ?_, fun h => hf.freeAligned (List.mem_cons_of_mem _ h), hnodup.2⟩
  · obtain h | ⟨-, -, rfl⟩ := (hstands _ _ _).mp h
    · exact hf.aligned h
    · exact hf.freeAligned List.mem_cons_self
  · obtain h | ⟨hr, his, hq⟩ := (hstands _ _ _).mp h
    · obtain h' | ⟨-, -, rfl⟩ := (hstands _ _ _).mp h'
      · exact hf.unique h h'
      · exact absurd h hnot
    · obtain h' | ⟨hr', his', -⟩ := (hstands _ _ _).mp h'
      · exact absurd (hq ▸ h') hnot
      · exact ⟨hr.trans hr'.symm, his.trans his'.symm⟩
  · obtain h | ⟨-, -, rfl⟩ := (hstands _ _ _).mp h
    · exact fun hmem => hf.apart h (List.mem_cons_of_mem _ hmem)
    · exact hnodup.1

/-- A free page becomes the table at a slot that had none. Above the lowest tables it holds no pointers. -/
theorem Forest.stands_hang (hf : Forest next depth mem roots (t :: rest)) {r p i : ℕ} {is : List ℕ}
    (hp : Stands next depth mem roots r is p) (hlen : is.length < depth) (hi : i < 512)
    (hempty : next (mem (p + 8*i)) = none) (hslot : next (mem' (p + 8*i)) = some t)
    (hnew : is.length + 1 < depth → ∀ j < 512, next (mem' (t + 8*j)) = none)
    (hout : ∀ a, a % 8 = 0 → a < t ∨ t + 4096 ≤ a → a ≠ p + 8*i → mem' a = mem a) {r' : ℕ} {js : List ℕ} {q : ℕ} :
    Stands next depth mem' roots r' js q ↔
      Stands next depth mem roots r' js q ∨ (r' = r ∧ js = is ++ [i] ∧ q = t) := by
  have ht : t % 4096 = 0 := hf.freeAligned List.mem_cons_self
  induction js using List.reverseRecOn generalizing q with
  | nil => simp [stands_nil]
  | append_singleton js j ih =>
    simp only [stands_concat, ih]
    -- an old table other than the parent reads as before; the parent reads the graft at `i`
    have hread : ∀ {p'}, Stands next depth mem roots r' js p' → j < 512 →
        (r' = r ∧ js = is ∧ j = i ∧ p' = p) ∨ mem' (p' + 8*j) = mem (p' + 8*j) ∧ ¬ (p' = p ∧ j = i) := by
      intro p' hp' hj
      by_cases hsame : p' = p ∧ j = i
      · obtain ⟨rfl, rfl⟩ := hsame
        obtain ⟨hr, his⟩ := hf.unique hp' hp
        exact Or.inl ⟨hr, his, rfl, rfl⟩
      · refine Or.inr ⟨hout _ (word_aligned (hf.aligned hp')) ?_ ?_, hsame⟩
        · refine outside_page (hf.aligned hp') ht hj ?_
          rintro rfl
          exact hf.apart hp' List.mem_cons_self
        · exact word_ne (hf.aligned hp') (hf.aligned hp) hj hi (by tauto)
    constructor
    · rintro ⟨hl, hj, p', hp' | ⟨-, rfl, rfl⟩, hq⟩
      · obtain ⟨rfl, rfl, rfl, rfl⟩ | ⟨hsame, -⟩ := hread hp' hj
        · exact Or.inr ⟨rfl, rfl, Option.some.inj (hq.symm.trans hslot)⟩
        · exact Or.inl ⟨hl, hj, p', hp', hsame ▸ hq⟩
      · rw [List.length_append, List.length_singleton] at hl
        rw [hnew hl j hj] at hq
        cases hq
    · rintro (⟨hl, hj, p', hp', hq⟩ | ⟨rfl, heq, rfl⟩)
      · refine ⟨hl, hj, p', Or.inl hp', ?_⟩
        obtain ⟨rfl, rfl, rfl, rfl⟩ | ⟨hsame, -⟩ := hread hp' hj
        · rw [hempty] at hq
          cases hq
        · rwa [hsame]
      · obtain ⟨rfl, hij⟩ := List.append_inj' heq rfl
        obtain rfl : j = i := by simpa using hij
        exact ⟨hlen, hi, p, Or.inl hp, hslot⟩

/-- A free page without pointers becomes the table at a slot that had none. -/
theorem Forest.stands_graft (hf : Forest next depth mem roots (t :: rest)) {r p i : ℕ} {is : List ℕ}
    (hp : Stands next depth mem roots r is p) (hlen : is.length < depth) (hi : i < 512)
    (hempty : next (mem (p + 8*i)) = none) (hslot : next (mem' (p + 8*i)) = some t)
    (hnew : ∀ j < 512, next (mem' (t + 8*j)) = none)
    (hout : ∀ a, a % 8 = 0 → a < t ∨ t + 4096 ≤ a → a ≠ p + 8*i → mem' a = mem a) {r' : ℕ} {js : List ℕ} {q : ℕ} :
    Stands next depth mem' roots r' js q ↔
      Stands next depth mem roots r' js q ∨ (r' = r ∧ js = is ++ [i] ∧ q = t) :=
  hf.stands_hang hp hlen hi hempty hslot (fun _ => hnew) hout

theorem Forest.graft (hf : Forest next depth mem roots (t :: rest)) {r p i : ℕ} {is : List ℕ}
    (hp : Stands next depth mem roots r is p) (hlen : is.length < depth) (hi : i < 512)
    (hempty : next (mem (p + 8*i)) = none) (hslot : next (mem' (p + 8*i)) = some t)
    (hnew : ∀ j < 512, next (mem' (t + 8*j)) = none)
    (hout : ∀ a, a % 8 = 0 → a < t ∨ t + 4096 ≤ a → a ≠ p + 8*i → mem' a = mem a) :
    Forest next depth mem' roots rest :=
  hf.extend fun _ _ _ => hf.stands_graft hp hlen hi hempty hslot hnew hout

/-- A free page without pointers becomes a root. -/
theorem Forest.stands_plant (hf : Forest next depth mem roots (t :: rest))
    (hnew : ∀ j < 512, next (mem' (t + 8*j)) = none)
    (hout : ∀ a, a % 8 = 0 → a < t ∨ t + 4096 ≤ a → mem' a = mem a) {r : ℕ} {js : List ℕ} {q : ℕ} :
    Stands next depth mem' (insert t roots) r js q ↔
      Stands next depth mem roots r js q ∨ (r = t ∧ js = [] ∧ q = t) := by
  induction js using List.reverseRecOn generalizing q with
  | nil =>
    simp only [stands_nil, Set.mem_insert_iff]
    constructor
    · rintro ⟨rfl | hr, rfl⟩
      · exact Or.inr ⟨rfl, trivial, rfl⟩
      · exact Or.inl ⟨hr, rfl⟩
    · rintro (⟨hr, rfl⟩ | ⟨rfl, -, rfl⟩)
      · exact ⟨Or.inr hr, rfl⟩
      · exact ⟨Or.inl rfl, rfl⟩
  | append_singleton js j ih =>
    simp only [stands_concat, ih]
    have hread : ∀ {p'}, Stands next depth mem roots r js p' → j < 512 → mem' (p' + 8*j) = mem (p' + 8*j) := by
      intro p' hp' hj
      refine hout _ (word_aligned (hf.aligned hp'))
        (outside_page (hf.aligned hp') (hf.freeAligned List.mem_cons_self) hj ?_)
      rintro rfl
      exact hf.apart hp' List.mem_cons_self
    constructor
    · rintro ⟨hl, hj, p', hp' | ⟨-, -, rfl⟩, hq⟩
      · exact Or.inl ⟨hl, hj, p', hp', hread hp' hj ▸ hq⟩
      · rw [hnew j hj] at hq
        cases hq
    · rintro (⟨hl, hj, p', hp', hq⟩ | ⟨-, heq, -⟩)
      · exact ⟨hl, hj, p', Or.inl hp', by rwa [hread hp' hj]⟩
      · simp at heq

theorem Forest.plant (hf : Forest next depth mem roots (t :: rest))
    (hnew : ∀ j < 512, next (mem' (t + 8*j)) = none)
    (hout : ∀ a, a % 8 = 0 → a < t ∨ t + 4096 ≤ a → mem' a = mem a) : Forest next depth mem' (insert t roots) rest :=
  hf.extend fun _ _ _ => hf.stands_plant hnew hout

end Grow

section Prune

variable {r p i t : ℕ} {is : List ℕ}

/-- A table at full depth is taken out of its slot. -/
theorem Forest.stands_prune (hf : Forest next depth mem roots free) (hp : Stands next depth mem roots r is p)
    (hfull : is.length + 1 = depth) (hi : i < 512) (ht : next (mem (p + 8*i)) = some t)
    (hslot : next (mem' (p + 8*i)) = none)
    (hout : ∀ {r' js q j}, Stands next depth mem roots r' js q → js.length < depth → j < 512 →
      ¬ (q = p ∧ j = i) → next (mem' (q + 8*j)) = next (mem (q + 8*j))) {r' : ℕ} {js : List ℕ} {q : ℕ} :
    Stands next depth mem' roots r' js q ↔ Stands next depth mem roots r' js q ∧ q ≠ t := by
  have hchild : Stands next depth mem roots r (is ++ [i]) t := hp.child (by omega) hi ht
  induction js using List.reverseRecOn generalizing q with
  | nil =>
    simp only [stands_nil]
    refine ⟨fun ⟨hr, hq⟩ => ⟨⟨hr, hq⟩, ?_⟩, And.left⟩
    rintro rfl
    have := (hf.unique (stands_nil.mpr ⟨hr, hq⟩) hchild).2
    simp at this
  | append_singleton js j ih =>
    simp only [stands_concat, ih]
    constructor
    · rintro ⟨hl, hj, p', ⟨hp', hne⟩, hq⟩
      have hother : ¬ (p' = p ∧ j = i) := by
        rintro ⟨rfl, rfl⟩
        rw [hslot] at hq
        cases hq
      rw [hout hp' hl hj hother] at hq
      refine ⟨⟨hl, hj, p', hp', hq⟩, ?_⟩
      rintro rfl
      obtain ⟨rfl, heq⟩ := hf.unique (hp'.child hl hj hq) hchild
      obtain ⟨rfl, hij⟩ := List.append_inj' heq rfl
      exact hother ⟨Option.some.inj (hp'.reach.symm.trans hp.reach), by simpa using hij⟩
    · rintro ⟨⟨hl, hj, p', hp', hq⟩, hne⟩
      have hother : ¬ (p' = p ∧ j = i) := by
        rintro ⟨rfl, rfl⟩
        exact hne (Option.some.inj (hq.symm.trans ht))
      refine ⟨hl, hj, p', ⟨hp', ?_⟩, by rwa [hout hp' hl hj hother]⟩
      rintro rfl
      have := (hf.unique hp' hchild).2
      rw [this] at hl
      simp at hl
      omega

theorem Forest.prune (hf : Forest next depth mem roots free) (hp : Stands next depth mem roots r is p)
    (hfull : is.length + 1 = depth) (hi : i < 512) (ht : next (mem (p + 8*i)) = some t)
    (hslot : next (mem' (p + 8*i)) = none)
    (hout : ∀ {r' js q j}, Stands next depth mem roots r' js q → js.length < depth → j < 512 →
      ¬ (q = p ∧ j = i) → next (mem' (q + 8*j)) = next (mem (q + 8*j))) :
    Forest next depth mem' roots (t :: free) := by
  have hchild : Stands next depth mem roots r (is ++ [i]) t := hp.child (by omega) hi ht
  have hstands : ∀ {r' js q}, Stands next depth mem' roots r' js q ↔ Stands next depth mem roots r' js q ∧ q ≠ t :=
    hf.stands_prune hp hfull hi ht hslot hout
  refine ⟨fun h => hf.aligned (hstands.mp h).1, fun h h' => hf.unique (hstands.mp h).1 (hstands.mp h').1,
    fun h hmem => ?_, fun hmem => ?_, List.nodup_cons.mpr ⟨hf.apart hchild, hf.nodup⟩⟩
  · obtain rfl | hmem := List.mem_cons.mp hmem
    · exact (hstands.mp h).2 rfl
    · exact hf.apart (hstands.mp h).1 hmem
  · obtain rfl | hmem := List.mem_cons.mp hmem
    · exact hf.aligned hchild
    · exact hf.freeAligned hmem

end Prune

end Forest

end HouseKernel.Lib
