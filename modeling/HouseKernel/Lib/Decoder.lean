import HouseKernel.Lib.Reads

/-! Decoders of a list of bytes, which may fail. They are programs with reads: there is no result when the turns that
they are given do not suffice, and the log has the indices that were read. -/
namespace HouseKernel.Lib

abbrev Decoder (ε α : Type) := ExceptT ε Reads α

namespace Decoder

variable {ε α β : Type}

/-- The byte at an index, which is only read inside the list. -/
def safeIndex (bytes : List (BitVec 8)) (i : ℕ) : Reads (Option (BitVec 8)) :=
  ⟨some bytes[i]?, if i < bytes.length then [i] else []⟩

/-- The byte at an index, or an error. -/
def byteOr (bytes : List (BitVec 8)) (e : ε) (i : ℕ) : Decoder ε (BitVec 8) :=
  ExceptT.mk do
    match ← safeIndex bytes i with
    | none => pure (.error e)
    | some b => pure (.ok b)

/-- No turns are left. -/
def stuck : Decoder ε α := ExceptT.mk ⟨none, []⟩

/-- What the decoder comes to, if it comes to its end. -/
def result (x : Decoder ε α) : Option (Except ε α) := x.run.val

def Ends (x : Decoder ε α) : Prop := x.result.isSome

def Yields (x : Decoder ε α) (v : α) : Prop := x.result = some (.ok v)

def Fails (x : Decoder ε α) : Prop := ∃ e, x.result = some (.error e)

/-- All reads are below `n`. -/
def Inside (n : ℕ) (x : Decoder ε α) : Prop := x.run.Inside n

section Bind

variable {x : Decoder ε α} {f : α → Decoder ε β} {v : α} {w : β} {n i : ℕ} {bytes : List (BitVec 8)} {e : ε} {b : BitVec 8}

lemma run_bind_eq : (x >>= f).run = x.run >>= fun r => match r with
    | .ok v => (f v).run
    | .error e => pure (.error e) := rfl

lemma result_bind : (x >>= f).result = x.result.bind fun r => match r with
    | .ok v => (f v).result
    | .error e => some (.error e) := by
  rw [result, run_bind_eq, Reads.val_bind]
  congr 1
  funext r
  cases r with
  | ok v => rfl
  | error e => rfl

theorem yields_bind : (x >>= f).Yields w ↔ ∃ v, x.Yields v ∧ (f v).Yields w := by
  rw [Yields, result_bind, Option.bind_eq_some_iff]
  constructor
  · rintro ⟨r, hx, hr⟩
    cases r with
    | ok v => exact ⟨v, hx, hr⟩
    | error e => cases hr
  · rintro ⟨v, hx, hv⟩
    exact ⟨.ok v, hx, hv⟩

/-- The rest of a decoder whose first part has a result. -/
lemma result_bind_of (h : x.Yields v) : (x >>= f).result = (f v).result := by
  rw [result_bind, h]
  rfl

lemma Fails.bind (h : x.Fails) : (x >>= f).Fails := by
  obtain ⟨e, he⟩ := h
  exact ⟨e, by rw [result_bind, he]; rfl⟩

lemma Ends.bind (hx : x.Ends) (hf : ∀ v, x.Yields v → (f v).Ends) : (x >>= f).Ends := by
  obtain ⟨r, hr⟩ := Option.isSome_iff_exists.mp hx
  rw [Ends, result_bind, hr]
  cases r with
  | ok v => exact hf v hr
  | error e => rfl

lemma Inside.bind (hx : x.Inside n) (hf : ∀ v, x.Yields v → (f v).Inside n) : (x >>= f).Inside n := by
  rw [Inside, run_bind_eq, Reads.inside_bind]
  refine ⟨hx, fun r hr => ?_⟩
  cases r with
  | ok v => exact hf v hr
  | error e => exact Reads.inside_pure _

lemma ends_pure (v : α) : (pure v : Decoder ε α).Ends := rfl

lemma inside_pure (v : α) : (pure v : Decoder ε α).Inside n := Reads.inside_pure _

lemma ends_throw (e : ε) : (throw e : Decoder ε α).Ends := rfl

lemma fails_throw (e : ε) : (throw e : Decoder ε α).Fails := ⟨e, rfl⟩

lemma inside_throw (e : ε) : (throw e : Decoder ε α).Inside n := Reads.inside_pure _

lemma inside_stuck : (stuck : Decoder ε α).Inside n := fun _ h => absurd h List.not_mem_nil

lemma Fails.not_yields (h : x.Fails) : ¬ x.Yields v := by
  obtain ⟨e, he⟩ := h
  rw [Yields, he]
  simp

/-- A decoder that comes to its end and has no value has failed. -/
lemma Ends.fails (h : x.Ends) (hno : ∀ v, ¬ x.Yields v) : x.Fails := by
  obtain ⟨r, hr⟩ := Option.isSome_iff_exists.mp h
  cases r with
  | ok v => exact absurd hr (hno v)
  | error e => exact ⟨e, hr⟩

lemma result_byteOr : (byteOr bytes e i).result = some (match bytes[i]? with
    | none => .error e
    | some b => .ok b) := by
  rw [result]
  change (safeIndex bytes i >>= _).val = _
  rw [Reads.val_bind]
  cases h : bytes[i]? with
  | none => simp [safeIndex, h]
  | some b => simp [safeIndex, h]

lemma yields_byteOr : (byteOr bytes e i).Yields b ↔ bytes[i]? = some b := by
  rw [Yields, result_byteOr]
  cases h : bytes[i]? with
  | none => simp
  | some c => simp

lemma ends_byteOr : (byteOr bytes e i).Ends := by
  rw [Ends, result_byteOr]
  rfl

lemma inside_safeIndex : (safeIndex bytes i).Inside bytes.length := by
  intro j hj
  unfold safeIndex at hj
  split_ifs at hj with h
  · exact List.mem_singleton.mp hj ▸ h
  · exact absurd hj List.not_mem_nil

lemma inside_byteOr : (byteOr bytes e i).Inside bytes.length := by
  change (safeIndex bytes i >>= _).Inside _
  rw [Reads.inside_bind]
  refine ⟨inside_safeIndex, fun r _ => ?_⟩
  cases r with
  | none => exact Reads.inside_pure _
  | some b => exact Reads.inside_pure _

end Bind

end Decoder

end HouseKernel.Lib
