import Mathlib.Tactic

/-! Queues of linked elements. The links are a field of the elements, so that several queues
share them; a queue itself is only its two ends. -/
namespace HouseKernel.Lib

variable {α ι : Type*} [DecidableEq α] [DecidableEq ι]

structure Ends (α : Type*) where
  head : Option α
  tail : Option α
  deriving DecidableEq, Repr

/-- The links of all elements and the ends of one queue. -/
structure Links (α : Type*) where
  next : α → Option α
  ends : Ends α

namespace Links

/-- Link `a` behind the last element. -/
def pushBack (l : Links α) (a : α) : Links α :=
  match l.ends.tail with
  | some b => ⟨Function.update (Function.update l.next a none) b (some a), ⟨l.ends.head, some a⟩⟩
  | none => ⟨Function.update l.next a none, ⟨some a, some a⟩⟩

/-- Unlink the first element, `a`. -/
def popFront (l : Links α) (a : α) : Links α :=
  ⟨Function.update l.next a none, ⟨l.next a, if l.next a = none then none else l.ends.tail⟩⟩

/-- Unlink `a`, which comes after `prev`. -/
def unlinkAt (l : Links α) (prev : Option α) (a : α) : Links α :=
  let tail := if l.ends.tail = some a then prev else l.ends.tail
  match prev with
  | none => ⟨Function.update l.next a none, ⟨l.next a, tail⟩⟩
  | some p => ⟨Function.update (Function.update l.next p (l.next a)) a none, ⟨l.ends.head, tail⟩⟩

/-- Walk along the links and unlink `a`, the first time or every time it is met; the result has
whether it was met. A walk that does not end within `fuel` elements is `none`. -/
def unlinkGo (once : Bool) (a : α) : ℕ → Option α → Option α → Links α → Option (Bool × Links α)
  | 0, _, _, _ => none
  | _ + 1, _, none, l => some (false, l)
  | fuel + 1, prev, some x, l =>
    if x = a then
      if once then some (true, l.unlinkAt prev x)
      else (unlinkGo once a fuel prev (l.next x) (l.unlinkAt prev x)).map fun r => (true, r.2)
    else unlinkGo once a fuel (some x) (l.next x) l

end Links

/-- The elements along the links from `p`, at most `fuel` of them. -/
def follow (next : α → Option α) : ℕ → Option α → List α
  | 0, _ => []
  | _ + 1, none => []
  | fuel + 1, some a => a :: follow next fuel (next a)

/-- From `p` the links lead through `xs` to `q`. -/
def Path (next : α → Option α) : Option α → List α → Option α → Prop
  | p, [], q => p = q
  | p, a :: xs, q => p = some a ∧ Path next (next a) xs q

structure IsQueue (l : Links α) (xs : List α) : Prop where
  path : Path l.next l.ends.head xs none
  nodup : xs.Nodup
  tail : l.ends.tail = xs.getLast?

/-- A family of queues without common elements. -/
structure Queues (next : α → Option α) (ends : ι → Ends α) (xs : ι → List α) : Prop where
  each : ∀ i, IsQueue ⟨next, ends i⟩ (xs i)
  apart : ∀ i j a, a ∈ xs i → a ∈ xs j → i = j

section Path

variable {next next' : α → Option α} {p q r : Option α} {xs ys : List α} {a : α}

omit [DecidableEq α] in
theorem path_append : Path next p (xs ++ ys) q ↔ ∃ r, Path next p xs r ∧ Path next r ys q := by
  induction xs generalizing p with
  | nil => simp [Path]
  | cons a xs ih =>
    simp only [List.cons_append, Path, ih]
    constructor
    · rintro ⟨hp, r, h1, h2⟩
      exact ⟨r, ⟨hp, h1⟩, h2⟩
    · rintro ⟨r, ⟨hp, h1⟩, h2⟩
      exact ⟨hp, r, h1, h2⟩

omit [DecidableEq α] in
theorem Path.congr (h : Path next p xs q) (heq : ∀ a ∈ xs, next' a = next a) : Path next' p xs q := by
  induction xs generalizing p with
  | nil => exact h
  | cons a xs ih =>
    refine ⟨h.1, ?_⟩
    rw [heq a List.mem_cons_self]
    exact ih h.2 fun b hb => heq b (List.mem_cons_of_mem _ hb)

omit [DecidableEq α] in
theorem Path.follow_eq (h : Path next p xs none) {fuel : ℕ} (hlen : xs.length ≤ fuel) : follow next fuel p = xs := by
  induction xs generalizing p fuel with
  | nil =>
    obtain rfl : p = none := h
    cases fuel <;> rfl
  | cons a xs ih =>
    obtain ⟨rfl, h⟩ := h
    cases fuel with
    | zero => simp at hlen
    | succ fuel =>
      rw [follow, ih h]
      simpa using hlen

end Path

section Queue

variable {l : Links α} {xs ys : List α} {a : α}

theorem IsQueue.push (h : IsQueue l xs) (ha : a ∉ xs) : IsQueue (l.pushBack a) (xs ++ [a]) := by
  have hnodup : (xs ++ [a]).Nodup := by
    rw [List.nodup_append]
    refine ⟨h.nodup, by simp, ?_⟩
    rintro x hx y hy rfl
    exact ha (List.mem_singleton.mp hy ▸ hx)
  obtain rfl | ⟨ys, b, rfl⟩ := List.eq_nil_or_concat xs
  · have htail : l.ends.tail = none := by simpa using h.tail
    simp only [Links.pushBack, htail]
    exact ⟨⟨rfl, by simp [Path]⟩, by simp, rfl⟩
  · have htail : l.ends.tail = some b := by simpa using h.tail
    simp only [Links.pushBack, htail]
    refine ⟨?_, hnodup, by simp⟩
    have hpath := h.path
    rw [List.concat_eq_append] at hpath hnodup ha ⊢
    have hb : b ∉ ys := by
      have := (List.nodup_append.mp (List.nodup_append.mp hnodup).1).2.2
      intro hin
      exact this b hin b (by simp) rfl
    obtain ⟨r, hys, hbr⟩ := path_append.mp hpath
    obtain ⟨rfl, -⟩ := hbr
    have hne : a ≠ b := by
      rintro rfl
      exact ha (by simp)
    rw [path_append]
    refine ⟨some a, path_append.mpr ⟨some b, hys.congr ?_, rfl, by simp [Path]⟩, rfl, ?_⟩
    · intro x hx
      have hxb : x ≠ b := fun heq => hb (heq ▸ hx)
      have hxa : x ≠ a := fun heq => ha (heq ▸ List.mem_append_left _ hx)
      simp [hxb, hxa]
    · simp [Path, hne]

theorem IsQueue.pop (h : IsQueue l (a :: xs)) : IsQueue (l.popFront a) xs := by
  obtain ⟨ha, hnodup⟩ := List.nodup_cons.mp h.nodup
  have hpath : Path l.next (l.next a) xs none := h.path.2
  refine ⟨hpath.congr ?_, hnodup, ?_⟩
  · intro x hx
    have hxa : x ≠ a := fun heq => ha (heq ▸ hx)
    simp [Links.popFront, hxa]
  · cases xs with
    | nil =>
      have hnone : l.next a = none := hpath
      simp [Links.popFront, hnone]
    | cons b xs =>
      have hsome : l.next a = some b := hpath.1
      have htail := h.tail
      simp only [Links.popFront, hsome, List.getLast?_cons_cons] at htail ⊢
      simpa using htail

theorem IsQueue.unlink (h : IsQueue l (xs ++ a :: ys)) : IsQueue (l.unlinkAt xs.getLast? a) (xs ++ ys) := by
  have hnodup : (xs ++ ys).Nodup := h.nodup.sublist (List.Sublist.append_left (List.sublist_cons_self a ys) xs)
  have ha : a ∉ xs ++ ys := by
    have := (List.perm_middle.nodup_iff).mp h.nodup
    exact (List.nodup_cons.mp this).1
  rw [List.mem_append, not_or] at ha
  obtain ⟨r, hxs, rfl, hys⟩ := path_append.mp h.path
  -- the tail moves back when the last element goes
  have htail : (if l.ends.tail = some a then xs.getLast? else l.ends.tail) = (xs ++ ys).getLast? := by
    have htail : l.ends.tail = (xs ++ a :: ys).getLast? := h.tail
    rw [htail]
    cases ys using List.reverseRec with
    | nil => simp
    | append_singleton ys y =>
      have hya : y ≠ a := by
        rintro rfl
        exact ha.2 (by simp)
      rw [← List.cons_append, ← List.append_assoc, ← List.append_assoc, List.getLast?_concat, List.getLast?_concat]
      simp [hya]
  obtain rfl | ⟨zs, p, rfl⟩ := List.eq_nil_or_concat xs
  · have hhead : l.ends.head = some a := hxs
    refine ⟨?_, hnodup, htail⟩
    refine hys.congr fun x hx => ?_
    have hxa : x ≠ a := fun heq => ha.2 (heq ▸ hx)
    simp [Links.unlinkAt, hxa]
  · rw [List.concat_eq_append] at *
    obtain ⟨r, hzs, rfl, hpa⟩ := path_append.mp hxs
    have hpa : l.next p = some a := hpa
    have hpmem : p ∈ zs ++ [p] := by simp
    have hpne : p ≠ a := fun heq => ha.1 (heq ▸ hpmem)
    have hp : p ∉ zs ∧ p ∉ ys := by
      have hsplit := List.nodup_append.mp hnodup
      refine ⟨fun hin => ?_, fun hin => ?_⟩
      · exact (List.nodup_append.mp hsplit.1).2.2 p hin p (by simp) rfl
      · exact hsplit.2.2 p hpmem p hin rfl
    rw [List.getLast?_concat] at htail ⊢
    refine ⟨?_, hnodup, htail⟩
    simp only [Links.unlinkAt]
    refine path_append.mpr ⟨l.next a, path_append.mpr ⟨some p, hzs.congr ?_, rfl, ?_⟩, hys.congr ?_⟩
    · intro x hx
      have hxa : x ≠ a := fun heq => ha.1 (heq ▸ List.mem_append_left _ hx)
      have hxp : x ≠ p := fun heq => hp.1 (heq ▸ hx)
      simp [hxa, hxp]
    · simp [Path, hpne]
    · intro x hx
      have hxa : x ≠ a := fun heq => ha.2 (heq ▸ hx)
      have hxp : x ≠ p := fun heq => hp.2 (heq ▸ hx)
      simp [hxa, hxp]

end Queue

section Walk

variable {l : Links α} {xs ys : List α} {a : α} {once : Bool} {fuel : ℕ} {prev cur : Option α}

/-- A walk that does not meet `a` changes nothing. -/
theorem unlinkGo_absent (h : Path l.next cur xs none) (ha : a ∉ xs) (hlen : xs.length < fuel) :
    l.unlinkGo once a fuel prev cur = some (false, l) := by
  induction xs generalizing fuel prev cur with
  | nil =>
    obtain rfl : cur = none := h
    cases fuel with
    | zero => simp at hlen
    | succ fuel => rfl
  | cons x xs ih =>
    obtain ⟨rfl, h⟩ := h
    rw [List.mem_cons, not_or] at ha
    cases fuel with
    | zero => simp at hlen
    | succ fuel =>
      rw [Links.unlinkGo, if_neg (Ne.symm ha.1)]
      exact ih h ha.2 (by simpa using hlen)

/-- A walk that meets `a` unlinks it from the element before it. -/
theorem unlinkGo_present (h : Path l.next cur (xs ++ a :: ys) none) (hnodup : (xs ++ a :: ys).Nodup)
    (hprev : ∀ p, prev = some p → p ∉ xs ++ a :: ys) (hlen : (xs ++ a :: ys).length < fuel) :
    l.unlinkGo once a fuel prev cur = some (true, l.unlinkAt (xs.getLast?.or prev) a) := by
  induction xs generalizing fuel prev cur with
  | nil =>
    obtain ⟨rfl, h⟩ := h
    cases fuel with
    | zero => simp at hlen
    | succ fuel =>
      rw [Links.unlinkGo, if_pos rfl]
      cases once with
      | true => rfl
      | false =>
        have ha : a ∉ ys := (List.nodup_cons.mp hnodup).1
        have hpath : Path (l.unlinkAt prev a).next (l.next a) ys none := by
          refine h.congr fun x hx => ?_
          have hxa : x ≠ a := fun heq => ha (heq ▸ hx)
          cases prev with
          | none => simp [Links.unlinkAt, hxa]
          | some p =>
            have hxp : x ≠ p := fun heq => hprev p rfl (heq ▸ List.mem_cons_of_mem _ hx)
            simp [Links.unlinkAt, hxa, hxp]
        rw [if_neg (by simp), unlinkGo_absent hpath ha (by simpa using hlen)]
        simp
  | cons x xs ih =>
    obtain ⟨rfl, h⟩ := h
    obtain ⟨hx, hnodup'⟩ := List.nodup_cons.mp hnodup
    cases fuel with
    | zero => simp at hlen
    | succ fuel =>
      have hxa : x ≠ a := by
        rintro rfl
        exact hx (by simp)
      rw [Links.unlinkGo, if_neg hxa, ih h hnodup' ?_ (by simpa using hlen)]
      · cases hl : xs.getLast? with
        | none =>
          obtain rfl : xs = [] := by simpa using hl
          rfl
        | some y => simp [List.getLast?_cons, hl]
      · rintro p ⟨rfl⟩
        exact hx

end Walk

section Family

variable {next : α → Option α} {ends : ι → Ends α} {xs : ι → List α} {l : Links α} {ys : List α} {i : ι} {a : α}

omit [DecidableEq α] in
/-- One queue of the family changes. -/
theorem Queues.change (h : Queues next ends xs) (hq : IsQueue l ys) (hframe : ∀ j ≠ i, ∀ a ∈ xs j, l.next a = next a)
    (hys : ∀ j ≠ i, ∀ a ∈ ys, a ∉ xs j) :
    Queues l.next (Function.update ends i l.ends) (Function.update xs i ys) := by
  constructor
  · intro j
    by_cases hj : j = i
    · subst hj
      simp only [Function.update_self]
      exact hq
    · simp only [Function.update_of_ne hj]
      exact ⟨(h.each j).path.congr (hframe j hj), (h.each j).nodup, (h.each j).tail⟩
  · intro j k b hbj hbk
    by_cases hj : j = i <;> by_cases hk : k = i
    · rw [hj, hk]
    · subst hj
      rw [Function.update_self] at hbj
      rw [Function.update_of_ne hk] at hbk
      exact absurd hbk (hys k hk b hbj)
    · subst hk
      rw [Function.update_self] at hbk
      rw [Function.update_of_ne hj] at hbj
      exact absurd hbj (hys j hj b hbk)
    · rw [Function.update_of_ne hj] at hbj
      rw [Function.update_of_ne hk] at hbk
      exact h.apart j k b hbj hbk

theorem Queues.push (h : Queues next ends xs) (ha : ∀ j, a ∉ xs j) :
    Queues (Links.pushBack ⟨next, ends i⟩ a).next (Function.update ends i (Links.pushBack ⟨next, ends i⟩ a).ends)
      (Function.update xs i (xs i ++ [a])) := by
  refine h.change ((h.each i).push (ha i)) ?_ ?_
  · intro j hj b hb
    have hba : b ≠ a := fun heq => ha j (heq ▸ hb)
    unfold Links.pushBack
    split
    case h_1 t ht =>
      have htail : (xs i).getLast? = some t := by rw [← (h.each i).tail, ← ht]
      have hbt : b ≠ t := fun heq => hj (h.apart j i b hb (heq ▸ List.mem_of_getLast? htail))
      simp [hba, hbt]
    case h_2 => simp [hba]
  · intro j hj b hb hbj
    obtain hb | hb := List.mem_append.mp hb
    · exact hj (h.apart j i b hbj hb)
    · exact ha j (List.mem_singleton.mp hb ▸ hbj)

theorem Queues.pop (h : Queues next ends xs) (hx : xs i = a :: ys) :
    Queues (Links.popFront ⟨next, ends i⟩ a).next (Function.update ends i (Links.popFront ⟨next, ends i⟩ a).ends)
      (Function.update xs i ys) := by
  refine h.change (IsQueue.pop (hx ▸ h.each i)) ?_ ?_
  · intro j hj b hb
    have hba : b ≠ a := fun heq => hj (h.apart j i b hb (by simp [hx, heq]))
    simp [Links.popFront, hba]
  · intro j hj b hb hbj
    exact hj (h.apart j i b hbj (by simp [hx, hb]))

theorem Queues.unlink {us vs : List α} (h : Queues next ends xs) (hx : xs i = us ++ a :: vs) :
    Queues (Links.unlinkAt ⟨next, ends i⟩ us.getLast? a).next
      (Function.update ends i (Links.unlinkAt ⟨next, ends i⟩ us.getLast? a).ends) (Function.update xs i (us ++ vs)) := by
  refine h.change (IsQueue.unlink (hx ▸ h.each i)) ?_ ?_
  · intro j hj b hb
    have hout : b ∉ us ++ a :: vs := fun hin => hj (h.apart j i b hb (hx ▸ hin))
    have hba : b ≠ a := by
      rintro rfl
      exact hout (by simp)
    cases hlast : us.getLast? with
    | none => simp [Links.unlinkAt, hba]
    | some p =>
      have hbp : b ≠ p := by
        rintro rfl
        exact hout (List.mem_append_left _ (List.mem_of_getLast? hlast))
      simp [Links.unlinkAt, hba, hbp]
  · intro j hj b hb hbj
    refine hj (h.apart j i b hbj (hx ▸ ?_))
    obtain hb | hb := List.mem_append.mp hb
    · exact List.mem_append_left _ hb
    · exact List.mem_append_right _ (List.mem_cons_of_mem _ hb)

omit [DecidableEq α] [DecidableEq ι] in
/-- The members of a queue are those that a long enough walk along the links meets. -/
theorem Queues.follow_eq [Fintype α] (h : Queues next ends xs) {fuel : ℕ} (hfuel : Fintype.card α ≤ fuel) (i : ι) :
    follow next fuel (ends i).head = xs i :=
  (h.each i).path.follow_eq ((h.each i).nodup.length_le_card.trans hfuel)

omit [DecidableEq ι] in
/-- An element that is in none of the queues may get any link. -/
theorem Queues.relink (h : Queues next ends xs) (ha : ∀ j, a ∉ xs j) (p : Option α) :
    Queues (Function.update next a p) ends xs := by
  refine ⟨fun j => ⟨(h.each j).path.congr fun b hb => ?_, (h.each j).nodup, (h.each j).tail⟩, h.apart⟩
  have hba : b ≠ a := fun heq => ha j (heq ▸ hb)
  simp [hba]

end Family

/-- Some link or end leads to `t`. -/
def Refs (next : α → Option α) (ends : ι → Ends α) (t : α) : Prop :=
  (∃ u, next u = some t) ∨ ∃ i, (ends i).head = some t ∨ (ends i).tail = some t

section References

variable {next : α → Option α} {ends : ι → Ends α} {i : ι} {a t : α}

omit [DecidableEq α] in
/-- What the links and ends of the queue `i` lead to afterwards was led to before, or is allowed. -/
theorem Refs.relink {l : Links α} {P : α → Prop} (hnext : ∀ u b, l.next u = some b → next u = some b ∨ Refs next ends b ∨ P b)
    (hhead : ∀ b, l.ends.head = some b → Refs next ends b ∨ P b) (htail : ∀ b, l.ends.tail = some b → Refs next ends b ∨ P b)
    (h : Refs l.next (Function.update ends i l.ends) t) : Refs next ends t ∨ P t := by
  obtain ⟨u, hu⟩ | ⟨j, hj⟩ := h
  · obtain hu | hu | hu := hnext u t hu
    · exact .inl (.inl ⟨u, hu⟩)
    · exact .inl hu
    · exact .inr hu
  · by_cases hji : j = i
    · subst hji
      rw [Function.update_self] at hj
      exact hj.elim (hhead t) (htail t)
    · rw [Function.update_of_ne hji] at hj
      exact .inl (.inr ⟨j, hj⟩)

theorem Refs.push (h : Refs (Links.pushBack ⟨next, ends i⟩ a).next
    (Function.update ends i (Links.pushBack ⟨next, ends i⟩ a).ends) t) : Refs next ends t ∨ t = a := by
  refine Refs.relink (P := fun b => b = a) ?_ ?_ ?_ h
  · intro u b hb
    unfold Links.pushBack at hb
    split at hb
    case h_1 last hlast =>
      by_cases hul : u = last
      · simp only [hul, Function.update_self, Option.some.injEq] at hb
        exact .inr (.inr hb.symm)
      · by_cases hua : u = a
        · simp [hua, Function.update_of_ne (hua ▸ hul)] at hb
        · simp only [Function.update_of_ne hul, Function.update_of_ne hua] at hb
          exact .inl hb
    case h_2 =>
      by_cases hua : u = a
      · simp [hua] at hb
      · simp only [Function.update_of_ne hua] at hb
        exact .inl hb
  · intro b hb
    unfold Links.pushBack at hb
    split at hb
    · exact .inl (.inr ⟨i, .inl hb⟩)
    · exact .inr (Option.some.inj hb).symm
  · intro b hb
    unfold Links.pushBack at hb
    split at hb <;> exact .inr (Option.some.inj hb).symm

theorem Refs.pop (h : Refs (Links.popFront ⟨next, ends i⟩ a).next
    (Function.update ends i (Links.popFront ⟨next, ends i⟩ a).ends) t) : Refs next ends t := by
  refine (Refs.relink (P := fun _ => False) ?_ ?_ ?_ h).elim id False.elim
  · intro u b hb
    by_cases hua : u = a
    · simp [Links.popFront, hua] at hb
    · simp only [Links.popFront, Function.update_of_ne hua] at hb
      exact .inl hb
  · exact fun b hb => .inl (.inl ⟨a, hb⟩)
  · intro b hb
    simp only [Links.popFront] at hb
    split_ifs at hb
    exact .inl (.inr ⟨i, .inr hb⟩)

omit [DecidableEq ι] in
/-- A walk finds only what the links and ends lead to. -/
theorem unlinkGo_refs {once : Bool} {fuel : ℕ} {prev cur : Option α} {l : Links α} {r : Bool × Links α}
    (hprev : ∀ b, prev = some b → Refs next ends b) (hcur : ∀ b, cur = some b → Refs next ends b)
    (hnext : ∀ u b, l.next u = some b → Refs next ends b) (hhead : ∀ b, l.ends.head = some b → Refs next ends b)
    (htail : ∀ b, l.ends.tail = some b → Refs next ends b) (h : l.unlinkGo once a fuel prev cur = some r) :
    (∀ u b, r.2.next u = some b → Refs next ends b) ∧ (∀ b, r.2.ends.head = some b → Refs next ends b) ∧
      ∀ b, r.2.ends.tail = some b → Refs next ends b := by
  induction fuel generalizing prev cur l r with
  | zero => cases h
  | succ fuel ih =>
    cases cur with
    | none =>
      obtain rfl := Option.some.inj h
      exact ⟨hnext, hhead, htail⟩
    | some x =>
      have hafter : ∀ b, l.next x = some b → Refs next ends b := hnext x
      have hcut : (∀ u b, (l.unlinkAt prev x).next u = some b → Refs next ends b) ∧
          (∀ b, (l.unlinkAt prev x).ends.head = some b → Refs next ends b) ∧
          ∀ b, (l.unlinkAt prev x).ends.tail = some b → Refs next ends b := by
        have hlast : ∀ b, (if l.ends.tail = some x then prev else l.ends.tail) = some b → Refs next ends b := by
          intro b hb
          split_ifs at hb
          · exact hprev b hb
          · exact htail b hb
        cases prev with
        | none =>
          refine ⟨fun u b hb => ?_, hafter, hlast⟩
          by_cases hux : u = x
          · simp [Links.unlinkAt, hux] at hb
          · simp only [Links.unlinkAt, Function.update_of_ne hux] at hb
            exact hnext u b hb
        | some p =>
          refine ⟨fun u b hb => ?_, hhead, hlast⟩
          by_cases hux : u = x
          · simp [Links.unlinkAt, hux] at hb
          · by_cases hup : u = p
            · subst hup
              simp only [Links.unlinkAt, Function.update_of_ne hux, Function.update_self] at hb
              exact hafter b hb
            · simp only [Links.unlinkAt, Function.update_of_ne hux, Function.update_of_ne hup] at hb
              exact hnext u b hb
      rw [Links.unlinkGo] at h
      split_ifs at h with hxa honce
      · obtain rfl := Option.some.inj h
        exact hcut
      · obtain ⟨r', hr', rfl⟩ := Option.map_eq_some_iff.mp h
        exact ih (r := r') hprev hafter hcut.1 hcut.2.1 hcut.2.2 hr'
      · refine ih (fun b hb => ?_) hafter hnext hhead htail h
        exact hcur b hb

theorem Refs.unlink {once : Bool} {fuel : ℕ} {r : Bool × Links α}
    (hwalk : Links.unlinkGo once a fuel none (ends i).head ⟨next, ends i⟩ = some r)
    (h : Refs r.2.next (Function.update ends i r.2.ends) t) : Refs next ends t := by
  have hhead : ∀ b, (ends i).head = some b → Refs next ends b := fun b hb => .inr ⟨i, .inl hb⟩
  have htail : ∀ b, (ends i).tail = some b → Refs next ends b := fun b hb => .inr ⟨i, .inr hb⟩
  have hnext : ∀ u b, next u = some b → Refs next ends b := fun u b hb => .inl ⟨u, hb⟩
  obtain ⟨h1, h2, h3⟩ := unlinkGo_refs (by simp) hhead hnext hhead htail hwalk
  refine (Refs.relink (P := fun _ => False) ?_ ?_ ?_ h).elim id False.elim
  · exact fun u b hb => .inr (.inl (h1 u b hb))
  · exact fun b hb => .inl (h2 b hb)
  · exact fun b hb => .inl (h3 b hb)

omit [DecidableEq ι] in
theorem Refs.clear (h : Refs (Function.update next a none) ends t) : Refs next ends t := by
  obtain ⟨u, hu⟩ | h := h
  · by_cases hua : u = a
    · simp [hua] at hu
    · rw [Function.update_of_ne hua] at hu
      exact .inl ⟨u, hu⟩
  · exact .inr h

omit [DecidableEq α] [DecidableEq ι] in
/-- A member of a queue is led to. -/
theorem Queues.refs {xs : ι → List α} (h : Queues next ends xs) (ht : t ∈ xs i) : Refs next ends t := by
  have hpath : ∀ {p : Option α} {l : List α}, Path next p l none → t ∈ l → p = some t ∨ ∃ u, next u = some t := by
    intro p l hp hl
    induction l generalizing p with
    | nil => cases hl
    | cons a l ih =>
      obtain ⟨rfl, hrest⟩ := hp
      obtain rfl | hl := List.mem_cons.mp hl
      · exact .inl rfl
      · exact .inr ((ih hrest hl).elim (fun heq => ⟨a, heq⟩) id)
  obtain hhead | hnext := hpath (h.each i).path ht
  · exact .inr ⟨i, .inl hhead⟩
  · exact .inl hnext

end References

end HouseKernel.Lib
