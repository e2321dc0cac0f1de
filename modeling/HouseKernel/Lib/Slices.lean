import HouseKernel.Lib.Decoder

/-! Programs that take slices of a list of bytes. A slice reads all of its indices, also those that the list does not
have. -/
namespace HouseKernel.Lib.Reads

variable {α β : Type} {x y : Reads α} {f : α → Reads β} {v w : α} {u : β} {m n off len i : ℕ} {bytes : List (BitVec 8)}

def slice (bytes : List (BitVec 8)) (off len : ℕ) : Reads (List (BitVec 8)) :=
  ⟨some ((bytes.drop off).take len), List.range' off len⟩

/-- The program comes to its end with this result, and all of its reads are below `n`. -/
structure Gives (n : ℕ) (x : Reads α) (v : α) : Prop where
  val : x.val = some v
  inside : x.Inside n

lemma bind_mk (v : α) (log : List ℕ) (f : α → Reads β) : Reads.mk (some v) log >>= f = ⟨(f v).val, log ++ (f v).log⟩ := rfl

lemma gives_pure (v : α) : Gives n (pure v) v := ⟨rfl, inside_pure v⟩

lemma Gives.mono (h : Gives m x v) (hmn : m ≤ n) : Gives n x v :=
  ⟨h.val, fun a ha => (h.inside a ha).trans_le hmn⟩

lemma Gives.bind (hx : Gives n x v) (hf : Gives n (f v) u) : Gives n (x >>= f) u := by
  constructor
  · rw [val_bind_of hx.val, hf.val]
  · rw [inside_bind_of hx.val]
    exact ⟨hx.inside, hf.inside⟩

lemma Gives.ite {p : Prop} [Decidable p] (hpos : p → Gives n x v) (hneg : ¬p → Gives n y w) :
    Gives n (if p then x else y) (if p then v else w) := by
  split_ifs with h
  · exact hpos h
  · exact hneg h

/-- A slice that the list has in full. -/
lemma gives_slice (h : off + len ≤ bytes.length) :
    Gives bytes.length (slice bytes off len) ((bytes.drop off).take len) := by
  refine ⟨rfl, fun j hj => ?_⟩
  obtain ⟨-, hlt⟩ := List.mem_range'_1.mp hj
  exact hlt.trans_le h

lemma gives_safeIndex : Gives bytes.length (Decoder.safeIndex bytes i) bytes[i]? :=
  ⟨rfl, Decoder.inside_safeIndex⟩

end HouseKernel.Lib.Reads
