import Mathlib.Tactic
import Mathlib.Data.List.Lex

/-! The depth-first preorder of a graph with ordered edges. A chain is the list of edge
positions that lead to a node; the preorder lists the nodes by their first chain, in the
lexicographic order of chains. -/
namespace HouseKernel.Lib

variable {ν : Type*} (needs : ν → List ν)

/-- The positions `is` lead from the list `roots` to `n`. -/
def Chain (needs : ν → List ν) : List ν → List ℕ → ν → Prop
  | _, [], _ => False
  | roots, [i], n => roots[i]? = some n
  | roots, i :: j :: is, n => ∃ m, roots[i]? = some m ∧ Chain needs (needs m) (j :: is) n

lemma chain_nil {roots : List ν} {n : ν} : ¬ Chain needs roots [] n := id

lemma chain_single {roots : List ν} {i : ℕ} {n : ν} : Chain needs roots [i] n ↔ roots[i]? = some n := Iff.rfl

lemma chain_cons_cons {roots : List ν} {i j : ℕ} {is : List ℕ} {n : ν} : Chain needs roots (i :: j :: is) n ↔
    ∃ m, roots[i]? = some m ∧ Chain needs (needs m) (j :: is) n := Iff.rfl

/-- Some chain to `u` comes before every chain to `v`. -/
def First (roots : List ν) (u v : ν) : Prop := ∃ p, Chain needs roots p u ∧ ∀ q, Chain needs roots q v → p < q

/-- The walk that visits what is not in `done`, each node before what it needs; it does not come
back to a node in `active`. -/
inductive Visits : List ν → List ν → List ν → List ν → Prop
  | nil {active done} : Visits active done [] []
  | seen {active done n rest out} : n ∈ done → Visits active done rest out → Visits active done (n :: rest) out
  | new {active done n rest kids out} : n ∉ done → n ∉ active → Visits (n :: active) done (needs n) kids →
      Visits active (n :: (kids ++ done)) rest out → Visits active done (n :: rest) (n :: (kids ++ out))

/-- With a node, `done` has everything that it needs. -/
def Closed (done : List ν) : Prop := ∀ n ∈ done, ∀ m ∈ needs n, m ∈ done

variable {needs} {roots active done out : List ν} {u v n : ν}

/-- The walk reads `active` and `done` as sets. -/
lemma Visits.congr {active' done' : List ν} (h : Visits needs active done roots out)
    (ha' : ∀ x, x ∈ active ↔ x ∈ active') (hd' : ∀ x, x ∈ done ↔ x ∈ done') : Visits needs active' done' roots out := by
  induction h generalizing active' done' with
  | nil => exact .nil
  | seen hn _ ih => exact .seen ((hd' _).mp hn) (ih ha' hd')
  | @new active done n rest kids out hn ha _ _ ihk ihr =>
    refine .new (fun hin => hn ((hd' n).mpr hin)) (fun hin => ha ((ha' n).mpr hin)) (ihk (fun x => ?_) hd') (ihr ha' fun x => ?_)
    · simp only [List.mem_cons, ha']
    · simp only [List.mem_cons, List.mem_append, hd']

lemma chain_cons {i : ℕ} {is : List ℕ} : Chain needs (n :: roots) (i :: is) v ↔
    (i = 0 ∧ (is = [] ∧ v = n ∨ Chain needs (needs n) is v)) ∨ ∃ j, i = j+1 ∧ Chain needs roots (j :: is) v := by
  cases is with
  | nil =>
    cases i with
    | zero => simp [chain_single, chain_nil, eq_comm]
    | succ j => simp [chain_single]
  | cons k is =>
    cases i with
    | zero => simp [chain_cons_cons]
    | succ j => simp [chain_cons_cons]

/-- Chains to the first root, through it, and past it. -/
lemma chain_head : Chain needs (n :: roots) [0] n := rfl

lemma chain_through {q : List ℕ} (h : Chain needs (needs n) q v) : Chain needs (n :: roots) (0 :: q) v :=
  chain_cons.mpr (Or.inl ⟨rfl, Or.inr h⟩)

lemma chain_past {i : ℕ} {q : List ℕ} (h : Chain needs roots (i :: q) v) : Chain needs (n :: roots) ((i+1) :: q) v :=
  chain_cons.mpr (Or.inr ⟨i, rfl, h⟩)

lemma chain_ne_nil {p : List ℕ} (h : Chain needs roots p v) : ∃ i q, p = i :: q := by
  cases p with
  | nil => cases h
  | cons i q => exact ⟨i, q, rfl⟩

/-- What a closed set has of the roots, it has of the chains. -/
lemma chain_closed (hc : Closed needs done) (hroots : ∀ m ∈ roots, m ∈ done) {p : List ℕ}
    (h : Chain needs roots p v) : v ∈ done := by
  induction p generalizing roots with
  | nil => cases h
  | cons i is ih =>
    cases is with
    | nil => exact hroots v (List.mem_of_getElem? h)
    | cons j is =>
      obtain ⟨m, hm, hrest⟩ := h
      exact ih (hc m (hroots m (List.mem_of_getElem? hm))) hrest

/-- A chain leads along the edges. -/
lemma chain_reach {p : List ℕ} (h : Chain needs roots p v) :
    ∃ m ∈ roots, Relation.ReflTransGen (fun x y => y ∈ needs x) m v := by
  induction p generalizing roots with
  | nil => cases h
  | cons i is ih =>
    cases is with
    | nil => exact ⟨v, List.mem_of_getElem? h, .refl⟩
    | cons j is =>
      obtain ⟨m, hm, hrest⟩ := h
      obtain ⟨k, hk, hreach⟩ := ih hrest
      exact ⟨m, List.mem_of_getElem? hm, .head hk hreach⟩

theorem Visits.closed (h : Visits needs active done roots out) (hc : Closed needs done) :
    (∀ m ∈ roots, m ∈ out ++ done) ∧ Closed needs (out ++ done) := by
  induction h with
  | nil => exact ⟨by simp, hc⟩
  | @seen active done n rest out hn _ ih =>
    obtain ⟨h1, h2⟩ := ih hc
    refine ⟨?_, h2⟩
    rw [List.forall_mem_cons]
    exact ⟨List.mem_append_right _ hn, h1⟩
  | @new active done n rest kids out hn _ hk hr ihk ihr =>
    obtain ⟨k1, k2⟩ := ihk hc
    have hc' : Closed needs (n :: (kids ++ done)) := by
      intro x hx m hm
      obtain rfl | hx := List.mem_cons.mp hx
      · exact List.mem_cons_of_mem _ (k1 m hm)
      · exact List.mem_cons_of_mem _ (k2 x hx m hm)
    obtain ⟨r1, r2⟩ := ihr hc'
    have hsame : ∀ x, x ∈ out ++ n :: (kids ++ done) ↔ x ∈ n :: (kids ++ out) ++ done := by
      intro x
      simp only [List.mem_append, List.mem_cons]
      tauto
    refine ⟨?_, ?_⟩
    · intro m hm
      rw [← hsame]
      obtain rfl | hm := List.mem_cons.mp hm
      · simp
      · exact r1 m hm
    · intro x hx m hm
      rw [← hsame] at hx ⊢
      exact r2 x hx m hm

theorem Visits.fresh (h : Visits needs active done roots out) : ∀ x ∈ out, x ∉ done ∧ x ∉ active := by
  induction h with
  | nil => simp
  | seen _ _ ih => exact ih
  | @new active done n rest kids out hn ha _ _ ihk ihr =>
    intro x hx
    obtain rfl | hx := List.mem_cons.mp hx
    · exact ⟨hn, ha⟩
    obtain hx | hx := List.mem_append.mp hx
    · obtain ⟨h1, h2⟩ := ihk x hx
      exact ⟨h1, fun hin => h2 (List.mem_cons_of_mem _ hin)⟩
    · obtain ⟨h1, h2⟩ := ihr x hx
      simp only [List.mem_cons, List.mem_append, not_or] at h1
      exact ⟨h1.2.2, h2⟩

theorem Visits.nodup (h : Visits needs active done roots out) : out.Nodup := by
  induction h with
  | nil => simp
  | seen _ _ ih => exact ih
  | @new active done n rest kids out hn ha hk hr ihk ihr =>
    have hkids := hk.fresh
    have hout := hr.fresh
    simp only [List.mem_cons, List.mem_append, not_or] at hkids hout
    rw [List.nodup_cons, List.mem_append, not_or, List.nodup_append]
    refine ⟨⟨fun hin => (hkids n hin).2.1 rfl, fun hin => (hout n hin).1.1 rfl⟩, ihk, ihr, ?_⟩
    rintro a ha b hb rfl
    exact (hout a hb).1.2.1 ha

lemma succ_lt_succ_iff {i j : ℕ} {p q : List ℕ} : (i+1) :: p < (j+1) :: q ↔ i :: p < j :: q := by
  rw [List.cons_lt_cons_iff, List.cons_lt_cons_iff, Nat.add_lt_add_iff_right, Nat.add_right_cancel_iff]

/-- Everything that is visited lies on a chain. -/
theorem Visits.chain (h : Visits needs active done roots out) : ∀ x ∈ out, ∃ p, Chain needs roots p x := by
  induction h with
  | nil => simp
  | @seen active done n rest out _ _ ih =>
    intro x hx
    obtain ⟨p, hp⟩ := ih x hx
    obtain ⟨i, q, rfl⟩ := chain_ne_nil hp
    exact ⟨_, chain_past hp⟩
  | @new active done n rest kids out _ _ _ _ ihk ihr =>
    intro x hx
    obtain rfl | hx := List.mem_cons.mp hx
    · exact ⟨_, chain_head⟩
    obtain hx | hx := List.mem_append.mp hx
    · obtain ⟨p, hp⟩ := ihk x hx
      exact ⟨_, chain_through hp⟩
    · obtain ⟨p, hp⟩ := ihr x hx
      obtain ⟨i, q, rfl⟩ := chain_ne_nil hp
      exact ⟨_, chain_past hp⟩

/-- What is listed first is reached along an earlier chain. -/
theorem Visits.first (h : Visits needs active done roots out) (hc : Closed needs done) :
    out.Pairwise (First needs roots) := by
  induction h with
  | nil => exact List.Pairwise.nil
  | @seen active done n rest out hn hr ih =>
    -- chains through `n` stay in `done`
    have hpast : ∀ v ∈ out, ∀ q, Chain needs (n :: rest) q v → ∃ i p, q = (i+1) :: p ∧ Chain needs rest (i :: p) v := by
      intro v hv q hq
      obtain ⟨i, p, rfl⟩ := chain_ne_nil hq
      obtain ⟨rfl, ⟨-, rfl⟩ | hthrough⟩ | ⟨j, rfl, hp⟩ := chain_cons.mp hq
      · exact absurd hn (hr.fresh v hv).1
      · exact absurd (chain_closed hc (hc n hn) hthrough) (hr.fresh v hv).1
      · exact ⟨j, p, rfl, hp⟩
    refine List.Pairwise.imp_of_mem (fun {u v} _ hv hfirst => ?_) (ih hc)
    obtain ⟨p, hp, hall⟩ := hfirst
    obtain ⟨i, p, rfl⟩ := chain_ne_nil hp
    refine ⟨_, chain_past hp, fun q hq => ?_⟩
    obtain ⟨j, q, rfl, hq'⟩ := hpast v hv q hq
    exact succ_lt_succ_iff.mpr (hall _ hq')
  | @new active done n rest kids out hn ha hk hr ihk ihr =>
    obtain ⟨hroots, hclosed⟩ := hk.closed hc
    have hc' : Closed needs (n :: (kids ++ done)) := by
      intro x hx m hm
      obtain rfl | hx := List.mem_cons.mp hx
      · exact List.mem_cons_of_mem _ (hroots m hm)
      · exact List.mem_cons_of_mem _ (hclosed x hx m hm)
    -- chains to what is visited after `n` and its needs pass `n`
    have hpast : ∀ v ∈ out, ∀ q, Chain needs (n :: rest) q v → ∃ i p, q = (i+1) :: p ∧ Chain needs rest (i :: p) v := by
      intro v hv q hq
      obtain ⟨i, p, rfl⟩ := chain_ne_nil hq
      have hout := (hr.fresh v hv).1
      obtain ⟨rfl, ⟨-, rfl⟩ | hthrough⟩ | ⟨j, rfl, hp⟩ := chain_cons.mp hq
      · exact absurd List.mem_cons_self hout
      · exact absurd (chain_closed hc' (hc' n List.mem_cons_self) hthrough) hout
      · exact ⟨j, p, rfl, hp⟩
    have hzero : ∀ {u v p}, v ∈ out → Chain needs (n :: rest) (0 :: p) u → First needs (n :: rest) u v := by
      intro u v p hv hp
      refine ⟨_, hp, fun q hq => ?_⟩
      obtain ⟨i, q, rfl, -⟩ := hpast v hv q hq
      rw [List.cons_lt_cons_iff]
      exact Or.inl (Nat.succ_pos i)
    have hkid : ∀ v ∈ kids, First needs (n :: rest) n v := by
      intro v hv
      have hne : v ≠ n := fun heq => (hk.fresh v hv).2 (by simp [heq])
      refine ⟨[0], chain_head, fun q hq => ?_⟩
      obtain ⟨i, q, rfl⟩ := chain_ne_nil hq
      rw [List.cons_lt_cons_iff]
      obtain ⟨rfl, ⟨-, rfl⟩ | hthrough⟩ | ⟨j, rfl, -⟩ := chain_cons.mp hq
      · exact absurd rfl hne
      · obtain ⟨j, q, rfl⟩ := chain_ne_nil hthrough
        exact Or.inr ⟨rfl, List.nil_lt_cons _ _⟩
      · exact Or.inl (Nat.succ_pos j)
    have hkids : kids.Pairwise (First needs (n :: rest)) := by
      refine List.Pairwise.imp_of_mem (fun {u v} _ _ hfirst => ?_) (ihk hc)
      obtain ⟨p, hp, hall⟩ := hfirst
      refine ⟨_, chain_through hp, fun q hq => ?_⟩
      obtain ⟨i, q, rfl⟩ := chain_ne_nil hq
      rw [List.cons_lt_cons_iff]
      obtain ⟨rfl, ⟨rfl, rfl⟩ | hthrough⟩ | ⟨j, rfl, -⟩ := chain_cons.mp hq
      · exact absurd List.mem_cons_self (hk.fresh _ ‹_›).2
      · exact Or.inr ⟨rfl, hall q hthrough⟩
      · exact Or.inl (Nat.succ_pos j)
    have hout : out.Pairwise (First needs (n :: rest)) := by
      refine List.Pairwise.imp_of_mem (fun {u v} _ hv hfirst => ?_) (ihr hc')
      obtain ⟨p, hp, hall⟩ := hfirst
      obtain ⟨i, p, rfl⟩ := chain_ne_nil hp
      refine ⟨_, chain_past hp, fun q hq => ?_⟩
      obtain ⟨j, q, rfl, hq'⟩ := hpast v hv q hq
      exact succ_lt_succ_iff.mpr (hall _ hq')
    rw [List.pairwise_cons, List.pairwise_append]
    refine ⟨fun v hv => ?_, hkids, hout, fun u hu v hv => ?_⟩
    · obtain hv | hv := List.mem_append.mp hv
      · exact hkid v hv
      · exact hzero hv chain_head
    · obtain ⟨p, hp⟩ := hk.chain u hu
      exact hzero hv (chain_through hp)

lemma First.asymm (h : First needs roots u v) : ¬ First needs roots v u := by
  rintro ⟨q, hq, hall'⟩
  obtain ⟨p, hp, hall⟩ := h
  exact lt_asymm (hall q hq) (hall' p hp)

end HouseKernel.Lib
