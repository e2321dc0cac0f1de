import HouseKernel.Lib.ByteMemory

/-! Programs that read bytes of a memory, with the addresses that they read. A loop is given a number of turns, and
has no result when they do not suffice. -/
namespace HouseKernel.Lib

/-- The result, if all loops came to their end, and the addresses that were read. -/
structure Reads (α : Type) where
  val : Option α
  log : List ℕ
  deriving DecidableEq

namespace Reads

variable {α β γ : Type}

protected def bind (x : Reads α) (f : α → Reads β) : Reads β :=
  match x.val with
  | none => ⟨none, x.log⟩
  | some a => ⟨(f a).val, x.log ++ (f a).log⟩

instance : Monad Reads where
  pure a := ⟨some a, []⟩
  bind := Reads.bind

def byte (mem : ByteMem) (a : ℕ) : Reads (BitVec 8) := ⟨some (mem a), [a]⟩

/-- Take turns until one of them gives the result. -/
def loop (turn : α → Reads (α ⊕ β)) : ℕ → α → Reads β
  | 0, _ => ⟨none, []⟩
  | n+1, a => do
    match ← turn a with
    | .inl a => loop turn n a
    | .inr b => pure b

lemma loop_succ {turn : α → Reads (α ⊕ β)} {n : ℕ} {a : α} : loop turn (n+1) a = (turn a >>= fun
    | .inl a => loop turn n a
    | .inr b => pure b) := rfl

/-- Whether a text stands at `a`. The reads stop at the first byte that differs. -/
def startsWith (mem : ByteMem) (a : ℕ) : List (BitVec 8) → Reads Bool
  | [] => pure true
  | b :: bs => do
    if (← byte mem a) = b then startsWith mem (a+1) bs else pure false

lemma startsWith_nil {mem : ByteMem} {a : ℕ} : startsWith mem a [] = pure true := rfl

lemma startsWith_cons {mem : ByteMem} {a : ℕ} {b : BitVec 8} {bs : List (BitVec 8)} : startsWith mem a (b :: bs) =
    (byte mem a >>= fun c => if c = b then startsWith mem (a+1) bs else pure false) := rfl

/-- All reads are below `n`. -/
def Inside (n : ℕ) (x : Reads α) : Prop := ∀ a ∈ x.log, a < n

instance (n : ℕ) (x : Reads α) : Decidable (x.Inside n) := inferInstanceAs (Decidable (∀ a ∈ x.log, a < n))

/-- The program comes to its end, with a result that satisfies `P`. -/
def Returns (x : Reads α) (P : α → Prop) : Prop := ∃ v, x.val = some v ∧ P v

def TextAt (mem : ByteMem) (a : ℕ) : List (BitVec 8) → Prop
  | [] => True
  | b :: bs => mem a = b ∧ TextAt mem (a+1) bs

@[simp] lemma textAt_nil {mem : ByteMem} {a : ℕ} : TextAt mem a [] := trivial

lemma textAt_cons {mem : ByteMem} {a : ℕ} {b : BitVec 8} {bs : List (BitVec 8)} :
    TextAt mem a (b :: bs) ↔ mem a = b ∧ TextAt mem (a+1) bs := Iff.rfl

instance decidableTextAt (mem : ByteMem) : ∀ a bs, Decidable (TextAt mem a bs)
  | _, [] => isTrue trivial
  | a, b :: bs => @instDecidableAnd (mem a = b) (TextAt mem (a+1) bs) _ (decidableTextAt mem (a+1) bs)

/-- What a comparison with the text reads is below `n`: the bytes up to the first one that differs. -/
def Fits (n : ℕ) (mem : ByteMem) (a : ℕ) (bs : List (BitVec 8)) : Prop :=
  ∀ k < bs.length, TextAt mem a (bs.take k) → a + k < n

section Monad

variable {x : Reads α} {f : α → Reads β} {n a : ℕ} {mem : ByteMem} {v : α} {b : β}

@[simp] lemma val_pure (v : α) : (pure v : Reads α).val = some v := rfl

@[simp] lemma inside_pure (v : α) : (pure v : Reads α).Inside n := fun _ h => absurd h List.not_mem_nil

@[simp] lemma val_byte : (byte mem a).val = some (mem a) := rfl

@[simp] lemma inside_byte : (byte mem a).Inside n ↔ a < n := by simp [Inside, byte]

lemma val_bind : (x >>= f).val = x.val.bind fun v => (f v).val := by
  change (Reads.bind x f).val = _
  unfold Reads.bind
  cases x.val with
  | none => rfl
  | some v => rfl

lemma inside_bind : (x >>= f).Inside n ↔ x.Inside n ∧ ∀ v, x.val = some v → (f v).Inside n := by
  change (Reads.bind x f).Inside n ↔ _
  unfold Reads.bind
  cases x.val with
  | none => simp [Inside]
  | some v => simp [Inside, or_imp, forall_and]

/-- The rest of a program whose first part has a result. -/
lemma val_bind_of (h : x.val = some v) : (x >>= f).val = (f v).val := by rw [val_bind, h, Option.bind_some]

lemma inside_bind_of (h : x.val = some v) : (x >>= f).Inside n ↔ x.Inside n ∧ (f v).Inside n := by
  rw [inside_bind, h]
  simp

lemma val_bind_some : (x >>= f).val = some b ↔ ∃ v, x.val = some v ∧ (f v).val = some b := by
  rw [val_bind, Option.bind_eq_some_iff]

lemma Returns.of_val {P : α → Prop} (h : x.Returns P) (hv : x.val = some v) : P v := by
  obtain ⟨v', hv', hP⟩ := h
  rw [hv] at hv'
  obtain rfl := Option.some.inj hv'
  exact hP

lemma Returns.mono {P Q : α → Prop} (h : x.Returns P) (himp : ∀ v, P v → Q v) : x.Returns Q := by
  obtain ⟨v, hv, hP⟩ := h
  exact ⟨v, hv, himp v hP⟩

lemma returns_pure {P : α → Prop} (h : P v) : (pure v : Reads α).Returns P := ⟨v, rfl, h⟩

lemma Returns.bind {P : α → Prop} {Q : β → Prop} (h : x.Returns P) (hf : ∀ v, P v → (f v).Returns Q) : (x >>= f).Returns Q := by
  obtain ⟨v, hv, hP⟩ := h
  rw [Returns, val_bind_of hv]
  exact hf v hP

end Monad

section Text

variable {mem : ByteMem} {a n : ℕ} {bs : List (BitVec 8)}

lemma val_startsWith : (startsWith mem a bs).val = some (decide (TextAt mem a bs)) := by
  induction bs generalizing a with
  | nil => rfl
  | cons b bs ih =>
    rw [startsWith_cons, val_bind_of val_byte]
    split_ifs with h
    · simp [ih, textAt_cons, h]
    · simp [textAt_cons, h]

lemma fits_cons {b : BitVec 8} : Fits n mem a (b :: bs) ↔ a < n ∧ (mem a = b → Fits n mem (a+1) bs) := by
  constructor
  · intro h
    refine ⟨h 0 (by simp) trivial, fun hb k hk ht => ?_⟩
    have := h (k+1) (by simpa using hk) ⟨hb, ht⟩
    omega
  · rintro ⟨ha, hrest⟩ k hk ht
    cases k with
    | zero => exact ha
    | succ k =>
      have := hrest ht.1 k (by simpa using hk) ht.2
      omega

lemma inside_startsWith : (startsWith mem a bs).Inside n ↔ Fits n mem a bs := by
  induction bs generalizing a with
  | nil => simp [startsWith_nil, Fits]
  | cons b bs ih =>
    rw [startsWith_cons, inside_bind_of val_byte, inside_byte, fits_cons]
    split_ifs with h
    · simp [ih, h]
    · simp [h]

lemma textAt_get {i : ℕ} {b : BitVec 8} (h : TextAt mem a bs) (hb : bs[i]? = some b) : mem (a+i) = b := by
  induction bs generalizing a i with
  | nil => simp at hb
  | cons c bs ih =>
    cases i with
    | zero =>
      obtain rfl : c = b := by simpa using hb
      exact h.1
    | succ i =>
      have hplace : a + (i + 1) = a + 1 + i := by omega
      rw [hplace]
      exact ih h.2 (by simpa using hb)

lemma textAt_append {cs : List (BitVec 8)} : TextAt mem a (bs ++ cs) ↔ TextAt mem a bs ∧ TextAt mem (a + bs.length) cs := by
  induction bs generalizing a with
  | nil => simp
  | cons b bs ih =>
    have hplace : a + (bs.length + 1) = a + 1 + bs.length := by omega
    simp only [List.cons_append, textAt_cons, ih, and_assoc, List.length_cons, hplace]

/-- Where a string ends with a zero there is no other string. -/
lemma textAt_unique {cs : List (BitVec 8)} (hb : TextAt mem a (bs ++ [0])) (hc : TextAt mem a (cs ++ [0])) (hbs : 0 ∉ bs)
    (hcs : 0 ∉ cs) : bs = cs := by
  induction bs generalizing a cs with
  | nil =>
    cases cs with
    | nil => rfl
    | cons c cs => exact absurd (hb.1.symm.trans hc.1) fun h0 => hcs (by simp [h0])
  | cons b bs ih =>
    cases cs with
    | nil => exact absurd (hc.1.symm.trans hb.1) fun h0 => hbs (by simp [h0])
    | cons c cs =>
      obtain rfl : b = c := hb.1.symm.trans hc.1
      rw [ih hb.2 hc.2 (fun h => hbs (List.mem_cons_of_mem _ h)) fun h => hcs (List.mem_cons_of_mem _ h)]

/-- A text that lies below `n` as a whole. -/
lemma fits_of_le (h : a + bs.length ≤ n) : Fits n mem a bs := by
  intro k hk _
  omega

/-- A byte before the bound that the text does not have ends the comparison. -/
lemma fits_of_ne {k : ℕ} (hk : a + k < n) (hne : ∀ b, bs[k]? = some b → mem (a+k) ≠ b) : Fits n mem a bs := by
  induction bs generalizing a k with
  | nil => simp [Fits]
  | cons b bs ih =>
    rw [fits_cons]
    refine ⟨by omega, fun hb => ?_⟩
    cases k with
    | zero => exact absurd hb (hne b rfl)
    | succ k =>
      have hplace : a + 1 + k = a + (k + 1) := by omega
      refine @ih (a+1) k (by omega) fun c hc => ?_
      rw [hplace]
      exact hne c (by simpa using hc)

end Text

section Loop

variable {turn : α → Reads (α ⊕ β)} {n k : ℕ} {a a' : α} {b : β}

/-- A turn that leads to another one. -/
def Goes (turn : α → Reads (α ⊕ β)) (a a' : α) : Prop := (turn a).val = some (.inl a')

lemma loop_next (h : (turn a).val = some (.inl a')) : (loop turn (n+1) a).val = (loop turn n a').val := by
  rw [loop_succ, val_bind_of h]

lemma loop_stop (h : (turn a).val = some (.inr b)) : (loop turn (n+1) a).val = some b := by
  rw [loop_succ, val_bind_of h]
  rfl

/-- A loop with a result, by its first turn. -/
lemma loop_cases (h : (loop turn (n+1) a).val = some b) :
    (turn a).val = some (.inr b) ∨ ∃ a', (turn a).val = some (.inl a') ∧ (loop turn n a').val = some b := by
  rw [loop_succ] at h
  obtain ⟨r, hr, hb⟩ := val_bind_some.mp h
  cases r with
  | inl a' => exact Or.inr ⟨a', hr, hb⟩
  | inr b' =>
    obtain rfl : b' = b := Option.some.inj hb
    exact Or.inl hr

/-- A loop whose turns keep an invariant and make a measure smaller comes to its end. -/
theorem loop_returns {I : α → Prop} {P : β → Prop} (μ : α → ℕ)
    (hturn : ∀ a, I a → (turn a).Returns fun r => r.elim (fun a' => I a' ∧ μ a' < μ a) P) (ha : I a) (hn : μ a < n) :
    (loop turn n a).Returns P := by
  induction n generalizing a with
  | zero => omega
  | succ n ih =>
    obtain ⟨r, hr, hP⟩ := hturn a ha
    cases r with
    | inr b => exact ⟨b, loop_stop hr, hP⟩
    | inl a' =>
      rw [Returns, loop_next hr]
      have hlt : μ a' < μ a := hP.2
      exact ih hP.1 (by omega)

/-- A loop that comes to its end reads what its turns read. -/
theorem loop_inside (h : (loop turn n a).val = some b) :
    (loop turn n a).Inside k ↔ ∀ a', Relation.ReflTransGen (Goes turn) a a' → (turn a').Inside k := by
  induction n generalizing a with
  | zero => cases h
  | succ n ih =>
    obtain hb | ⟨a', hgoes, hrest⟩ := loop_cases h
    · rw [loop_succ, inside_bind_of hb]
      constructor
      · rintro ⟨ha, -⟩ a' hreach
        obtain rfl | ⟨c, hc, -⟩ := Relation.ReflTransGen.cases_head hreach
        · exact ha
        · rw [Goes, hb] at hc
          cases hc
      · exact fun hall => ⟨hall a .refl, inside_pure b⟩
    · rw [loop_succ, inside_bind_of hgoes]
      refine (and_congr_right fun _ => ih hrest).trans ⟨?_, ?_⟩
      · rintro ⟨ha, hall⟩ c hreach
        obtain rfl | ⟨d, hd, hdc⟩ := Relation.ReflTransGen.cases_head hreach
        · exact ha
        · rw [Goes, hgoes] at hd
          cases hd
          exact hall c hdc
      · exact fun hall => ⟨hall a .refl, fun c hc => hall c (.head hgoes hc)⟩

/-- The result of a loop is that of the turn that it comes to. -/
theorem loop_end (hreach : Relation.ReflTransGen (Goes turn) a a') (hstop : (turn a').val = some (.inr b)) {b' : β}
    (h : (loop turn n a).val = some b') : b' = b := by
  induction n generalizing a with
  | zero => cases h
  | succ n ih =>
    obtain rfl | ⟨c, hc, hrest⟩ := Relation.ReflTransGen.cases_head hreach
    · rw [loop_stop hstop] at h
      exact (Option.some.inj h).symm
    · rw [loop_next hc] at h
      exact ih hrest h

/-- Turns that keep an invariant and read below `k`. -/
theorem loop_inside_of {I : α → Prop} {P : α → α → Prop} {Q : α → β → Prop}
    (hturn : ∀ a, I a → (turn a).Returns fun r => r.elim (fun a' => I a' ∧ P a a') (Q a))
    (hin : ∀ a, I a → (turn a).Inside k) (ha : I a) : (loop turn n a).Inside k := by
  induction n generalizing a with
  | zero => exact fun _ h => absurd h List.not_mem_nil
  | succ n ih =>
    obtain ⟨r, hr, hI⟩ := hturn a ha
    rw [loop_succ, inside_bind_of hr]
    refine ⟨hin a ha, ?_⟩
    cases r with
    | inl a' => exact ih hI.1
    | inr b => exact inside_pure b

/-- A loop next to one with the same turns. The second one may stop early, with a result that suits whatever the first
one still does. -/
theorem loop_sim {α' β' : Type} {turn' : α' → Reads (α' ⊕ β')} {c : α'} (R : α → α' → Prop) (E : α → β' → Prop)
    (S : β → β' → Prop)
    (hR : ∀ a c r, R a c → (turn a).val = some r → (turn' c).Returns fun r' =>
      r.elim (fun a => r'.elim (R a) (E a)) fun b => r'.elim (fun _ => False) (S b))
    (hE : ∀ a d r, E a d → (turn a).val = some r → r.elim (E · d) (S · d))
    (ha : R a c) (h : (loop turn n a).val = some b) : (loop turn' n c).Returns (S b) := by
  have hrest : ∀ {n a d}, E a d → (loop turn n a).val = some b → S b d := by
    intro n a d hd h
    induction n generalizing a with
    | zero => cases h
    | succ n ih =>
      obtain hb | ⟨a', ha', h⟩ := loop_cases h
      · exact hE a d _ hd hb
      · exact ih (hE a d _ hd ha') h
  induction n generalizing a c with
  | zero => cases h
  | succ n ih =>
    obtain hb | ⟨a', ha', h⟩ := loop_cases h
    · obtain ⟨r', hr', hS⟩ := hR a c _ ha hb
      cases r' with
      | inl c' => exact absurd hS id
      | inr d => exact ⟨d, loop_stop hr', hS⟩
    · obtain ⟨r', hr', hS⟩ := hR a c _ ha ha'
      cases r' with
      | inl c' =>
        rw [Returns, loop_next hr']
        exact ih hS h
      | inr d => exact ⟨d, loop_stop hr', hrest hS h⟩

end Loop

end Reads

end HouseKernel.Lib
