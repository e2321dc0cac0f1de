import Mathlib.Tactic

/-! Writing into a list, and building the result in one pass. `overwrite` writes one word after the other in
place. `splice` takes the words in the order of their places and copies what is between them; that is the same
exactly when no two of the words overlap without being at the same place. -/
namespace HouseKernel.Lib

variable {α : Type*}

/-- Write `w` over the elements from `i` on. -/
def writeAt (l : List α) (i : ℕ) (w : List α) : List α := l.take i ++ w ++ l.drop (i + w.length)

def overwrite (l : List α) (ws : List (ℕ × List α)) : List α := ws.foldl (fun l p => writeAt l p.1 p.2) l

/-- Put a word among words that are ordered by their places; one at the same place is replaced. -/
def insertWord (i : ℕ) (w : List α) : List (ℕ × List α) → List (ℕ × List α)
  | [] => [(i, w)]
  | p :: ws => if i < p.1 then (i, w) :: p :: ws else if i = p.1 then (i, w) :: ws else p :: insertWord i w ws

theorem insertWord_cons {i : ℕ} {w : List α} {p : ℕ × List α} {ws : List (ℕ × List α)} : insertWord i w (p :: ws) =
    if i < p.1 then (i, w) :: p :: ws else if i = p.1 then (i, w) :: ws else p :: insertWord i w ws := rfl

/-- The words in the order of their places, the last one for each place. -/
def ascending (ws : List (ℕ × List α)) : List (ℕ × List α) := ws.foldl (fun acc p => insertWord p.1 p.2 acc) []

/-- Copy from `c` on, with each word in place of what it covers. -/
def splice (l : List α) : ℕ → List (ℕ × List α) → List α
  | c, [] => l.drop c
  | c, (i, w) :: ws => (l.drop c).take (i - c) ++ w ++ splice l (i + w.length) ws

@[simp] theorem splice_nil (l : List α) (c : ℕ) : splice l c [] = l.drop c := rfl

theorem splice_cons {l : List α} {c : ℕ} {p : ℕ × List α} {ws : List (ℕ × List α)} :
    splice l c (p :: ws) = (l.drop c).take (p.1 - c) ++ p.2 ++ splice l (p.1 + p.2.length) ws := rfl

section Write

variable {l : List α} {i j n : ℕ} {v w : List α} {ws : List (ℕ × List α)}

theorem length_writeAt (h : i + w.length ≤ l.length) : (writeAt l i w).length = l.length := by
  simp only [writeAt, List.length_append, List.length_take, List.length_drop]
  omega

theorem getElem?_writeAt (h : i + w.length ≤ l.length) (k : ℕ) :
    (writeAt l i w)[k]? = if k < i then l[k]? else if k < i + w.length then w[k - i]? else l[k]? := by
  have htake : (l.take i).length = i := List.length_take_of_le (by omega)
  rw [writeAt, List.append_assoc, List.getElem?_append, htake, List.getElem?_take, List.getElem?_append, List.getElem?_drop]
  split_ifs with h1 h2 h3 h3
  · rfl
  · rfl
  · omega
  · omega
  · congr 1
    omega

theorem writeAt_comm (hi : i + v.length ≤ l.length) (hj : j + w.length ≤ l.length)
    (h : i + v.length ≤ j ∨ j + w.length ≤ i) : writeAt (writeAt l i v) j w = writeAt (writeAt l j w) i v := by
  apply List.ext_getElem?
  intro k
  rw [getElem?_writeAt (by rwa [length_writeAt hi]), getElem?_writeAt hi,
    getElem?_writeAt (by rwa [length_writeAt hj]), getElem?_writeAt hj]
  split_ifs <;> first | rfl | omega

/-- A word hides the one that was at its place. -/
theorem writeAt_writeAt (h : i + v.length ≤ l.length) (hlen : w.length = v.length) :
    writeAt (writeAt l i v) i w = writeAt l i w := by
  have hw : i + w.length ≤ l.length := by omega
  apply List.ext_getElem?
  intro k
  rw [getElem?_writeAt (by rwa [length_writeAt h]), getElem?_writeAt h, getElem?_writeAt hw]
  split_ifs <;> first | rfl | omega

theorem length_overwrite (h : ∀ p ∈ ws, p.1 + p.2.length ≤ l.length) : (overwrite l ws).length = l.length := by
  induction ws generalizing l with
  | nil => rfl
  | cons p ws ih =>
    have hp := length_writeAt (h p List.mem_cons_self)
    have hrest : ∀ q ∈ ws, q.1 + q.2.length ≤ (writeAt l p.1 p.2).length := fun q hq => by
      rw [hp]
      exact h q (List.mem_cons_of_mem _ hq)
    exact (ih hrest).trans hp

/-- A word that is apart from the others may be written first or last. -/
theorem overwrite_writeAt (hi : i + w.length ≤ l.length) (h : ∀ p ∈ ws, p.1 + p.2.length ≤ l.length)
    (hapart : ∀ p ∈ ws, i + w.length ≤ p.1 ∨ p.1 + p.2.length ≤ i) :
    overwrite (writeAt l i w) ws = writeAt (overwrite l ws) i w := by
  induction ws generalizing l with
  | nil => rfl
  | cons p ws ih =>
    have hp := h p List.mem_cons_self
    have hlen := length_writeAt hp
    have hcomm := writeAt_comm hi hp (hapart p List.mem_cons_self)
    have hrest : ∀ q ∈ ws, q.1 + q.2.length ≤ (writeAt l p.1 p.2).length := fun q hq => by
      rw [hlen]
      exact h q (List.mem_cons_of_mem _ hq)
    calc overwrite (writeAt l i w) (p :: ws)
        = overwrite (writeAt (writeAt l p.1 p.2) i w) ws := congrArg (overwrite · ws) hcomm
      _ = writeAt (overwrite (writeAt l p.1 p.2) ws) i w :=
        ih (by rwa [hlen]) hrest fun q hq => hapart q (List.mem_cons_of_mem _ hq)

/-- Words behind `i` leave what is before it. -/
theorem take_overwrite (h : ∀ p ∈ ws, p.1 + p.2.length ≤ l.length) (hi : ∀ p ∈ ws, i ≤ p.1) :
    (overwrite l ws).take i = l.take i := by
  induction ws generalizing l with
  | nil => rfl
  | cons p ws ih =>
    have hp := h p List.mem_cons_self
    have hlen := length_writeAt hp
    have hrest : ∀ q ∈ ws, q.1 + q.2.length ≤ (writeAt l p.1 p.2).length := fun q hq => by
      rw [hlen]
      exact h q (List.mem_cons_of_mem _ hq)
    have hip := hi p List.mem_cons_self
    have hfirst : (writeAt l p.1 p.2).take i = l.take i := by
      rw [writeAt, List.append_assoc, List.take_append_of_le_length, List.take_take, Nat.min_eq_left hip]
      rw [List.length_take]
      omega
    exact (ih hrest fun q hq => hi q (List.mem_cons_of_mem _ hq)).trans hfirst

end Write

section Order

variable {l : List α} {i n : ℕ} {w : List α} {ws : List (ℕ × List α)}

theorem mem_insertWord {p : ℕ × List α} (h : p ∈ insertWord i w ws) : p = (i, w) ∨ p ∈ ws := by
  induction ws with
  | nil => exact .inl (List.mem_singleton.mp h)
  | cons q ws ih =>
    rw [insertWord_cons] at h
    split_ifs at h with hlt heq
    · exact List.mem_cons.mp h
    · exact (List.mem_cons.mp h).imp_right (List.mem_cons_of_mem _)
    · obtain rfl | h := List.mem_cons.mp h
      · exact .inr List.mem_cons_self
      · exact (ih h).imp_right (List.mem_cons_of_mem _)

/-- No place is lost. -/
theorem exists_insertWord {p : ℕ × List α} (h : p = (i, w) ∨ p ∈ ws) : ∃ q ∈ insertWord i w ws, q.1 = p.1 := by
  induction ws with
  | nil =>
    obtain rfl | h := h
    · exact ⟨_, List.mem_cons_self, rfl⟩
    · cases h
  | cons r ws ih =>
    rw [insertWord_cons]
    split_ifs with hlt heq
    · exact ⟨p, List.mem_cons.mpr h, rfl⟩
    · obtain rfl | h := h
      · exact ⟨_, List.mem_cons_self, rfl⟩
      · obtain rfl | h := List.mem_cons.mp h
        · exact ⟨_, List.mem_cons_self, heq⟩
        · exact ⟨p, List.mem_cons_of_mem _ h, rfl⟩
    · have hcase : p = r ∨ p = (i, w) ∨ p ∈ ws := by
        obtain h | h := h
        · exact .inr (.inl h)
        · exact (List.mem_cons.mp h).imp_right .inr
      obtain rfl | h := hcase
      · exact ⟨p, List.mem_cons_self, rfl⟩
      · obtain ⟨q, hq, hqp⟩ := ih h
        exact ⟨q, List.mem_cons_of_mem _ hq, hqp⟩

theorem insertWord_sorted (h : ws.Pairwise fun p q => p.1 < q.1) : (insertWord i w ws).Pairwise fun p q => p.1 < q.1 := by
  induction ws with
  | nil => exact List.pairwise_singleton _ _
  | cons p ws ih =>
    obtain ⟨hp, hws⟩ := List.pairwise_cons.mp h
    rw [insertWord_cons]
    split_ifs with hlt heq
    · refine List.pairwise_cons.mpr ⟨fun q hq => ?_, h⟩
      obtain rfl | hq := List.mem_cons.mp hq
      · exact hlt
      · exact hlt.trans (hp q hq)
    · subst heq
      exact List.pairwise_cons.mpr ⟨fun q hq => hp q hq, hws⟩
    · refine List.pairwise_cons.mpr ⟨fun q hq => ?_, ih hws⟩
      obtain rfl | hq := mem_insertWord hq
      · exact lt_of_le_of_ne (Nat.le_of_not_lt hlt) (Ne.symm heq)
      · exact hp q hq

end Order

section Width

/-- Two words of `n` elements are at one place, or do not overlap. -/
def SameOrApart (n i j : ℕ) : Prop := i = j ∨ i + n ≤ j ∨ j + n ≤ i

instance (n i j : ℕ) : Decidable (SameOrApart n i j) := inferInstanceAs (Decidable (_ ∨ _))

/-- Words of `n` elements with places in `l`. -/
def Fit (l : List α) (n : ℕ) (ws : List (ℕ × List α)) : Prop := ∀ p ∈ ws, p.2.length = n ∧ p.1 + n ≤ l.length

variable {l : List α} {c i n : ℕ} {w : List α} {p : ℕ × List α} {ws acc : List (ℕ × List α)}

theorem Fit.place (h : Fit l n ws) (hp : p ∈ ws) : p.1 + p.2.length ≤ l.length := (h p hp).1 ▸ (h p hp).2

theorem Fit.writeAt (h : Fit l n (p :: ws)) : Fit (writeAt l p.1 p.2) n ws := fun q hq => by
  rw [length_writeAt (h.place List.mem_cons_self)]
  exact h q (List.mem_cons_of_mem _ hq)

theorem Fit.insertWord (h : Fit l n ws) (hw : w.length = n) (hi : i + n ≤ l.length) : Fit l n (insertWord i w ws) := by
  intro p hp
  obtain rfl | hp := mem_insertWord hp
  · exact ⟨hw, hi⟩
  · exact h p hp

/-- Inserting a word among ordered ones is writing it last. -/
theorem overwrite_insertWord (h : Fit l n ws) (hw : w.length = n) (hi : i + n ≤ l.length)
    (hsorted : ws.Pairwise fun p q => p.1 < q.1) (hapart : ∀ p ∈ ws, SameOrApart n i p.1) :
    overwrite l (insertWord i w ws) = Lib.writeAt (overwrite l ws) i w := by
  induction ws generalizing l with
  | nil => rfl
  | cons p ws ih =>
    obtain ⟨hp, hws⟩ := List.pairwise_cons.mp hsorted
    have hpw := h p List.mem_cons_self
    -- a word behind `i` does not overlap the new one
    have hbehind : ∀ q ∈ p :: ws, i < q.1 → i + w.length ≤ q.1 ∨ q.1 + q.2.length ≤ i := by
      intro q hq hlt
      have hq' := hapart q hq
      have hqn := (h q hq).1
      unfold SameOrApart at hq'
      omega
    rw [insertWord_cons]
    split_ifs with hlt heq
    · refine overwrite_writeAt (hw ▸ hi) (fun q hq => h.place hq) fun q hq => hbehind q hq ?_
      obtain rfl | hq := List.mem_cons.mp hq
      · exact hlt
      · exact hlt.trans (hp q hq)
    · subst heq
      have hfit := h.writeAt
      have hlen := length_writeAt (h.place List.mem_cons_self)
      have hlater : ∀ q ∈ ws, p.1 + w.length ≤ q.1 ∨ q.1 + q.2.length ≤ p.1 :=
        fun q hq => hbehind q (List.mem_cons_of_mem _ hq) (hp q hq)
      calc overwrite (Lib.writeAt l p.1 w) ws
          = overwrite (Lib.writeAt (Lib.writeAt l p.1 p.2) p.1 w) ws := by
            rw [writeAt_writeAt (h.place List.mem_cons_self) (hw.trans hpw.1.symm)]
        _ = Lib.writeAt (overwrite (Lib.writeAt l p.1 p.2) ws) p.1 w :=
          overwrite_writeAt (by omega) (fun q hq => hfit.place hq) hlater
    · refine ih h.writeAt ?_ hws fun q hq => hapart q (List.mem_cons_of_mem _ hq)
      rw [length_writeAt (h.place List.mem_cons_self)]
      exact hi

theorem foldl_insertWord (hacc : Fit l n acc) (h : Fit l n ws) (hsorted : acc.Pairwise fun p q => p.1 < q.1)
    (hapart : ∀ p ∈ ws, ∀ q, q ∈ acc ∨ q ∈ ws → SameOrApart n p.1 q.1) :
    overwrite l (ws.foldl (fun acc p => insertWord p.1 p.2 acc) acc) = overwrite (overwrite l acc) ws := by
  induction ws generalizing acc with
  | nil => rfl
  | cons p ws ih =>
    obtain ⟨hw, hi⟩ := h p List.mem_cons_self
    have hrest : Fit l n ws := fun q hq => h q (List.mem_cons_of_mem _ hq)
    rw [List.foldl_cons, ih (hacc.insertWord hw hi) hrest (insertWord_sorted hsorted), overwrite_insertWord hacc hw hi hsorted]
    · rfl
    · exact fun q hq => hapart p List.mem_cons_self q (.inl hq)
    · intro q hq r hr
      refine hapart q (List.mem_cons_of_mem _ hq) r ?_
      obtain hr | hr := hr
      · obtain rfl | hr := mem_insertWord hr
        · exact .inr List.mem_cons_self
        · exact .inl hr
      · exact .inr (List.mem_cons_of_mem _ hr)

/-- Words that do not overlap may be written in the order of their places. -/
theorem overwrite_ascending (h : Fit l n ws) (hapart : ∀ p ∈ ws, ∀ q ∈ ws, SameOrApart n p.1 q.1) :
    overwrite l (ascending ws) = overwrite l ws := by
  refine foldl_insertWord (fun _ hp => by cases hp) h List.Pairwise.nil fun p hp q hq => hapart p hp q ?_
  exact hq.resolve_left fun hq => by cases hq

theorem ascending_sorted (ws : List (ℕ × List α)) : (ascending ws).Pairwise fun p q => p.1 < q.1 := by
  have hfold : ∀ (ws acc : List (ℕ × List α)), (acc.Pairwise fun p q => p.1 < q.1) →
      (ws.foldl (fun acc p => insertWord p.1 p.2 acc) acc).Pairwise fun p q => p.1 < q.1 := by
    intro ws
    induction ws with
    | nil => exact fun _ h => h
    | cons p ws ih => exact fun acc h => ih _ (insertWord_sorted h)
  exact hfold ws [] List.Pairwise.nil

theorem mem_ascending (h : p ∈ ascending ws) : p ∈ ws := by
  have hfold : ∀ (ws acc : List (ℕ × List α)), p ∈ ws.foldl (fun acc p => insertWord p.1 p.2 acc) acc → p ∈ acc ∨ p ∈ ws := by
    intro ws
    induction ws with
    | nil => exact fun _ h => .inl h
    | cons q ws ih =>
      intro acc h
      obtain h | h := ih _ h
      · obtain rfl | h := mem_insertWord h
        · exact .inr List.mem_cons_self
        · exact .inl h
      · exact .inr (List.mem_cons_of_mem _ h)
  exact (hfold ws [] h).resolve_left fun h => by cases h

theorem exists_ascending (h : p ∈ ws) : ∃ q ∈ ascending ws, q.1 = p.1 := by
  have hfold : ∀ (ws acc : List (ℕ × List α)), (∃ q, (q ∈ acc ∨ q ∈ ws) ∧ q.1 = p.1) →
      ∃ q ∈ ws.foldl (fun acc p => insertWord p.1 p.2 acc) acc, q.1 = p.1 := by
    intro ws
    induction ws with
    | nil =>
      rintro acc ⟨q, hq, hqp⟩
      exact ⟨q, hq.resolve_right (List.not_mem_nil), hqp⟩
    | cons r ws ih =>
      rintro acc ⟨q, hq, hqp⟩
      refine ih _ ?_
      have hcase : (q = r ∨ q ∈ acc) ∨ q ∈ ws := by
        obtain hq | hq := hq
        · exact .inl (.inr hq)
        · exact (List.mem_cons.mp hq).imp_left .inl
      obtain hq | hq := hcase
      · obtain ⟨q', hq', hqq⟩ := exists_insertWord hq
        exact ⟨q', .inl hq', hqq.trans hqp⟩
      · exact ⟨q, .inr hq, hqp⟩
  exact hfold ws [] ⟨p, .inr h, rfl⟩

/-- One pass over ordered words that do not overlap writes them in place. -/
theorem splice_eq (h : Fit l n ws) (hc : ∀ p ∈ ws, c ≤ p.1) (hapart : ws.Pairwise fun p q => p.1 + n ≤ q.1) :
    splice l c ws = (overwrite l ws).drop c := by
  induction ws generalizing c with
  | nil => rfl
  | cons p ws ih =>
    obtain ⟨hp, hws⟩ := List.pairwise_cons.mp hapart
    obtain ⟨hw, hi⟩ := h p List.mem_cons_self
    have hrest : Fit l n ws := fun q hq => h q (List.mem_cons_of_mem _ hq)
    have hcp := hc p List.mem_cons_self
    have hlen := length_overwrite fun q hq => hrest.place hq
    have hlast : overwrite l (p :: ws) = Lib.writeAt (overwrite l ws) p.1 p.2 := by
      refine overwrite_writeAt (h.place List.mem_cons_self) (fun q hq => hrest.place hq) fun q hq => .inl ?_
      rw [hw]
      exact hp q hq
    have htake := take_overwrite (fun q hq => hrest.place hq) fun q hq => (Nat.le_add_right p.1 n).trans (hp q hq)
    rw [splice_cons, hw, ih hrest hp hws, hlast, Lib.writeAt, htake, hw, List.append_assoc, List.append_assoc,
      List.drop_append_of_le_length (by rw [List.length_take]; omega), List.drop_take]

/-- A pass never gives fewer elements, and as many only if no two words overlap. -/
theorem length_splice (h : Fit l n ws) (hc : c ≤ l.length) (hsorted : ws.Pairwise fun p q => p.1 < q.1) :
    l.length - c ≤ (splice l c ws).length ∧
    ((splice l c ws).length = l.length - c ↔ (∀ p ∈ ws, c ≤ p.1) ∧ ws.Pairwise fun p q => p.1 + n ≤ q.1) := by
  induction ws generalizing c with
  | nil => simp
  | cons p ws ih =>
    obtain ⟨hp, hws⟩ := List.pairwise_cons.mp hsorted
    obtain ⟨hw, hi⟩ := h p List.mem_cons_self
    have hrest : Fit l n ws := fun q hq => h q (List.mem_cons_of_mem _ hq)
    obtain ⟨hle, heq⟩ := ih hrest hi hws
    have hlen : (splice l c (p :: ws)).length = (p.1 - c) + n + (splice l (p.1 + n) ws).length := by
      rw [splice_cons, List.length_append, List.length_append, List.length_take, List.length_drop, hw,
        Nat.min_eq_left (by omega)]
    refine ⟨by omega, ?_⟩
    rw [List.pairwise_cons, hlen]
    constructor
    · intro htotal
      obtain ⟨hfirst, hlater⟩ := heq.mp (by omega)
      refine ⟨fun q hq => ?_, hfirst, hlater⟩
      obtain rfl | hq := List.mem_cons.mp hq
      · omega
      · have hpq := hp q hq
        omega
    · rintro ⟨hcp, hfirst, hlater⟩
      have hcp' := hcp p List.mem_cons_self
      have hrestlen := heq.mpr ⟨hfirst, hlater⟩
      omega

theorem ascending_apart_iff : ((ascending ws).Pairwise fun p q => p.1 + n ≤ q.1) ↔
    ∀ p ∈ ws, ∀ q ∈ ws, SameOrApart n p.1 q.1 := by
  constructor
  · intro h p hp q hq
    obtain ⟨p', hp', hpp⟩ := exists_ascending hp
    obtain ⟨q', hq', hqq⟩ := exists_ascending hq
    have hsym : (ascending ws).Pairwise fun p q => SameOrApart n p.1 q.1 := h.imp fun hpq => .inr (.inl hpq)
    rw [← hpp, ← hqq]
    by_cases heq : p' = q'
    · exact .inl (congrArg Prod.fst heq)
    · have hs : Std.Symm fun p q : ℕ × List α => SameOrApart n p.1 q.1 :=
        ⟨fun _ _ => Or.imp Eq.symm Or.symm⟩
      exact hsym.forall hp' hq' heq
  · intro h
    refine (ascending_sorted ws).imp_of_mem fun {p q} hp hq hlt => ?_
    have hpq := h p (mem_ascending hp) q (mem_ascending hq)
    unfold SameOrApart at hpq
    omega

/-- Writing in one pass has the right length, and is writing in place, exactly if no two words overlap. -/
theorem splice_ascending_iff (h : Fit l n ws) :
    ((splice l 0 (ascending ws)).length = l.length ∧ splice l 0 (ascending ws) = overwrite l ws) ↔
    ∀ p ∈ ws, ∀ q ∈ ws, SameOrApart n p.1 q.1 := by
  have hfit : Fit l n (ascending ws) := fun p hp => h p (mem_ascending hp)
  constructor
  · rintro ⟨hlen, -⟩
    exact ascending_apart_iff.mp ((length_splice hfit (Nat.zero_le _) (ascending_sorted ws)).2.mp hlen).2
  · intro hapart
    have hsplice : splice l 0 (ascending ws) = overwrite l ws :=
      (splice_eq hfit (fun _ _ => Nat.zero_le _) (ascending_apart_iff.mpr hapart)).trans (overwrite_ascending h hapart)
    exact ⟨hsplice ▸ length_overwrite fun p hp => h.place hp, hsplice⟩

end Width

end HouseKernel.Lib
