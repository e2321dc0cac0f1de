import HouseKernel.Lib.Reads
import HouseKernel.Lib.Text

/-! The scan over the structure block of a device tree that all queries share: it reads one token after the other, with
unsigned numbers of 32 bits. A sum that a check before it keeps under the blob's size is written as a plain sum. -/
namespace HouseKernel.DeviceTree

open HouseKernel.Lib HouseKernel.Lib.Reads

def fdtMagic : ℕ := 0xd00dfeed

def fdtMaxSize : ℕ := 8 * 2^20

/-- `a.checked_add(b).unwrap_or(u32::MAX)`. -/
def checkedAdd (a b : ℕ) : ℕ := if a + b < 2^32 then a + b else 2^32 - 1

def be32 (mem : ByteMem) (p : ℕ) : Reads ℕ := do
  let b0 ← byte mem p
  let b1 ← byte mem (p+1)
  let b2 ← byte mem (p+2)
  let b3 ← byte mem (p+3)
  pure (2^24*b0.toNat + 2^16*b1.toNat + 2^8*b2.toNat + b3.toNat)

def be32At (mem : ByteMem) (p : ℕ) : ℕ :=
  2^24*(mem p).toNat + 2^16*(mem (p+1)).toNat + 2^8*(mem (p+2)).toNat + (mem (p+3)).toNat

def fdtValid (mem : ByteMem) : Reads Bool := do
  let magic ← be32 mem 0
  if magic ≠ fdtMagic then pure false
  else
    let totalsize ← be32 mem 4
    if totalsize < 40 ∨ totalsize > fdtMaxSize then pure false
    else
      let offStruct ← be32 mem 8
      let offStrings ← be32 mem 12
      let version ← be32 mem 20
      if version < 16 ∨ version > 17 then pure false
      else if offStruct ≥ totalsize ∨ offStrings ≥ totalsize then pure false
      else if checkedAdd offStruct 4 > totalsize then pure false
      else pure true

def align4 (v : ℕ) : ℕ := (v + 3) / 4 * 4

/-- The end of the structure block, cut at the end of the blob. -/
def structEnd (totalsize offStruct sizeStruct : ℕ) : ℕ :=
  let e := if offStruct + sizeStruct < 2^32 then offStruct + sizeStruct else totalsize
  if e > totalsize then totalsize else e

def nameTurn (mem : ByteMem) (totalsize p n : ℕ) : Reads (ℕ ⊕ ℕ) := do
  if checkedAdd p n < totalsize then
    if (← byte mem (p+n)) ≠ 0 then
      if n + 1 > 64 then pure (.inr (n+1)) else pure (.inl (n+1))
    else pure (.inr n)
  else pure (.inr n)

/-- The length of a node's name. The count stops at 65. -/
def nameLen (mem : ByteMem) (totalsize p : ℕ) : Reads ℕ := loop (nameTurn mem totalsize p) 65 0

/-- A token, with what the scan needs of its body. -/
inductive Token where
  /-- The name follows; the next token is at `next`. -/
  | beginNode (next : ℕ)
  | endNode
  | prop (value len nameoff : ℕ)
  | nop
  | halt (ok : Bool)
  deriving DecidableEq, Repr

def readToken (mem : ByteMem) (totalsize structEnd p : ℕ) : Reads Token := do
  if checkedAdd p 4 ≤ structEnd then
    let token ← be32 mem p
    let p := p + 4
    if token = 1 then
      let namelen ← nameLen mem totalsize p
      if checkedAdd p namelen ≥ totalsize then pure (.halt false)
      else pure (.beginNode (align4 (p + (namelen + 1))))
    else if token = 2 then pure .endNode
    else if token = 3 then
      if checkedAdd p 8 > structEnd then pure (.halt false)
      else
        let len ← be32 mem p
        let nameoff ← be32 mem (p+4)
        if checkedAdd (p+8) len > structEnd then pure (.halt false)
        else pure (.prop (p+8) len nameoff)
    else if token = 4 then pure .nop
    else if token = 9 then pure (.halt true)
    else pure (.halt false)
  else pure (.halt true)

/-- What a query does at a node's name, at the end of a node, and at a property: its value, length and name offset. A
property can end the query. -/
structure Walker (σ : Type) where
  beginNode : ℕ → σ → Reads σ
  endNode : σ → σ
  prop : ℕ → ℕ → ℕ → σ → Reads (Option σ)

variable {σ : Type}

def turn (w : Walker σ) (mem : ByteMem) (totalsize structEnd : ℕ) (x : ℕ × σ) : Reads ((ℕ × σ) ⊕ Option (Bool × σ)) := do
  let (p, s) := x
  match ← readToken mem totalsize structEnd p with
  | .beginNode next =>
    let s ← w.beginNode (p+4) s
    pure (.inl (next, s))
  | .endNode => pure (.inl (p+4, w.endNode s))
  | .prop value len nameoff =>
    match ← w.prop value len nameoff s with
    | none => pure (.inr none)
    | some s => pure (.inl (align4 (value + len), s))
  | .nop => pure (.inl (p+4, s))
  | .halt ok => pure (.inr (some (ok, s)))

/-- The flag says whether the blob was in order as far as the scan went. -/
def scan (w : Walker σ) (mem : ByteMem) (totalsize structEnd offStruct : ℕ) (s : σ) : Reads (Option (Bool × σ)) :=
  loop (turn w mem totalsize structEnd) (totalsize + 1) (offStruct, s)

/-- A C string. -/
def cString (s : String) : List (BitVec 8) := (text s).map toByte ++ [0]

/-- The depth after a node begins. The stack has 16 places. -/
def pushDepth (depth : ℕ) : ℕ := if depth + 1 > 16 then 16 else depth + 1

/-- A flag is kept for the node that begins, if the stack has a place for it. -/
def pushFlag (flags : ℕ → Bool) (depth : ℕ) (flag : Bool) : ℕ → Bool :=
  if depth < 16 then Function.update flags depth flag else flags

/-- The flag of the current node. -/
def topFlag (flags : ℕ → Bool) (depth : ℕ) : Bool := if 0 < depth ∧ depth ≤ 16 then flags (depth - 1) else false

section Readers

variable {mem : ByteMem} {p n k t : ℕ}

lemma checkedAdd_lt (h : t < 2^32) : checkedAdd p n < t ↔ p + n < t := by
  unfold checkedAdd
  split_ifs <;> omega

lemma checkedAdd_le (h : t < 2^32 - 1) : checkedAdd p n ≤ t ↔ p + n ≤ t := by
  unfold checkedAdd
  split_ifs <;> omega

@[simp] lemma val_be32 : (be32 mem p).val = some (be32At mem p) := rfl

@[simp] lemma inside_be32 : (be32 mem p).Inside n ↔ p + 4 ≤ n := by
  simp only [be32, inside_bind_of val_byte, inside_byte, inside_pure, and_true]
  omega

lemma be32At_lt (mem : ByteMem) (p : ℕ) : be32At mem p < 2^32 := by
  have h0 := (mem p).isLt
  have h1 := (mem (p+1)).isLt
  have h2 := (mem (p+2)).isLt
  have h3 := (mem (p+3)).isLt
  unfold be32At
  omega

lemma le_align4 (v : ℕ) : v ≤ align4 v ∧ align4 v < v + 4 ∧ align4 v % 4 = 0 := by
  unfold align4
  omega

lemma structEnd_le (totalsize offStruct sizeStruct : ℕ) : structEnd totalsize offStruct sizeStruct ≤ totalsize := by
  unfold structEnd
  dsimp only
  split_ifs <;> omega

/-- The bytes of a name before its end. -/
structure NameLen (mem : ByteMem) (totalsize p n : ℕ) : Prop where
  bytes : ∀ i < n, p + i < totalsize ∧ mem (p+i) ≠ 0
  stop : n ≤ 65 ∧ (n < 65 → p + n < totalsize → mem (p+n) = 0)

lemma nameTurn_spec (ht : t ≤ fdtMaxSize) (hb : ∀ i < n, p + i < t ∧ mem (p+i) ≠ 0) (hn : n < 65) :
    (nameTurn mem t p n).Inside t ∧ (nameTurn mem t p n).Returns fun r =>
      r.elim (fun n' => (n' < 65 ∧ ∀ i < n', p + i < t ∧ mem (p+i) ≠ 0) ∧ 64 - n' < 64 - n) (NameLen mem t p) := by
  have hmax : fdtMaxSize < 2^32 := by decide
  have hnext : p + n < t → mem (p+n) ≠ 0 → ∀ i < n + 1, p + i < t ∧ mem (p+i) ≠ 0 := by
    intro hlt hzero i hi
    obtain hi | rfl := Nat.lt_succ_iff_lt_or_eq.mp hi
    · exact hb i hi
    · exact ⟨hlt, hzero⟩
  unfold nameTurn
  simp only [checkedAdd_lt (t := t) (by omega)]
  by_cases hlt : p + n < t
  · rw [if_pos hlt, inside_bind_of val_byte, Returns, val_bind_of val_byte, inside_byte]
    by_cases hzero : mem (p+n) = 0
    · rw [if_neg (not_not.mpr hzero)]
      exact ⟨⟨hlt, inside_pure _⟩, _, rfl, hb, by omega, fun _ _ => hzero⟩
    · rw [if_pos hzero]
      by_cases hlast : n + 1 > 64
      · rw [if_pos hlast]
        exact ⟨⟨hlt, inside_pure _⟩, _, rfl, hnext hlt hzero, by omega, by omega⟩
      · rw [if_neg hlast]
        exact ⟨⟨hlt, inside_pure _⟩, _, rfl, ⟨by omega, hnext hlt hzero⟩, by omega⟩
  · rw [if_neg hlt]
    exact ⟨inside_pure _, _, rfl, hb, by omega, fun _ h => absurd h hlt⟩

/-- The count ends, on a name inside the blob, and reads only that. -/
theorem nameLen_spec (mem : ByteMem) (p : ℕ) (ht : t ≤ fdtMaxSize) :
    (nameLen mem t p).Inside t ∧ (nameLen mem t p).Returns (NameLen mem t p) := by
  have hstart : 0 < 65 ∧ ∀ i < 0, p + i < t ∧ mem (p+i) ≠ 0 := ⟨by norm_num, fun i hi => absurd hi (Nat.not_lt_zero i)⟩
  refine ⟨loop_inside_of (fun a ha => (nameTurn_spec ht ha.2 ha.1).2) (fun a ha => (nameTurn_spec ht ha.2 ha.1).1) hstart, ?_⟩
  exact loop_returns (fun n => 64 - n) (fun a ha => (nameTurn_spec ht ha.2 ha.1).2) hstart (by norm_num)

/-- A token as it stands in a blob. -/
inductive TokenAt (mem : ByteMem) (t e p : ℕ) : Token → Prop
  | beginNode {n : ℕ} (he : p + 4 ≤ e) (hname : NameLen mem t (p+4) n) (hin : p + 4 + n < t) :
    TokenAt mem t e p (.beginNode (align4 (p + 4 + (n + 1))))
  | endNode (he : p + 4 ≤ e) : TokenAt mem t e p .endNode
  | prop {len nameoff : ℕ} (he : p + 12 + len ≤ e) (hoff : nameoff < 2^32) : TokenAt mem t e p (.prop (p+12) len nameoff)
  | nop (he : p + 4 ≤ e) : TokenAt mem t e p .nop
  | halt (ok : Bool) : TokenAt mem t e p (.halt ok)

/-- Every token is read, and from inside the blob. -/
theorem readToken_spec {e : ℕ} (mem : ByteMem) (p : ℕ) (ht : t ≤ fdtMaxSize) (he : e ≤ t) :
    (readToken mem t e p).Inside t ∧ (readToken mem t e p).Returns (TokenAt mem t e p) := by
  have hmax : fdtMaxSize < 2^32 - 1 := by decide
  unfold readToken
  simp only [checkedAdd_le (t := e) (by omega), ge_iff_le, gt_iff_lt]
  by_cases hp : p + 4 ≤ e
  · rw [if_pos hp, inside_bind_of val_be32, Returns, val_bind_of val_be32, inside_be32]
    have hread : p + 4 ≤ t := by omega
    split_ifs with h1 h2 h3 h8 h4 h9
    · obtain ⟨hin, n, hn, hname⟩ := nameLen_spec mem (p+4) ht
      rw [inside_bind_of hn, val_bind_of hn]
      by_cases hlt : p + 4 + n < t
      · rw [if_neg (not_le.mpr ((checkedAdd_lt (by omega)).mpr hlt))]
        exact ⟨⟨hread, hin, inside_pure _⟩, _, rfl, .beginNode hp hname hlt⟩
      · rw [if_pos (not_lt.mp (mt (checkedAdd_lt (by omega)).mp hlt))]
        exact ⟨⟨hread, hin, inside_pure _⟩, _, rfl, .halt false⟩
    · exact ⟨⟨hread, inside_pure _⟩, _, rfl, .endNode hp⟩
    · exact ⟨⟨hread, inside_pure _⟩, _, rfl, .halt false⟩
    · have hbody : p + 4 + 8 ≤ e := (checkedAdd_le (by omega)).mp (not_lt.mp h8)
      rw [inside_bind_of val_be32, val_bind_of val_be32, inside_bind_of val_be32, val_bind_of val_be32, inside_be32, inside_be32]
      split_ifs with hlen
      · exact ⟨⟨hread, by omega, by omega, inside_pure _⟩, _, rfl, .halt false⟩
      · have hvalue : p + 4 + 8 + be32At mem (p+4) ≤ e := (checkedAdd_le (by omega)).mp (not_lt.mp hlen)
        exact ⟨⟨hread, by omega, by omega, inside_pure _⟩, _, rfl, .prop (by omega) (be32At_lt _ _)⟩
    · exact ⟨⟨hread, inside_pure _⟩, _, rfl, .nop hp⟩
    · exact ⟨⟨hread, inside_pure _⟩, _, rfl, .halt true⟩
    · exact ⟨⟨hread, inside_pure _⟩, _, rfl, .halt false⟩
  · rw [if_neg hp]
    exact ⟨inside_pure _, _, rfl, .halt true⟩

end Readers

/-- The header is in order. -/
def Accepted (mem : ByteMem) : Prop := (fdtValid mem).val = some true

instance (mem : ByteMem) : Decidable (Accepted mem) := inferInstanceAs (Decidable (_ = _))

lemma inside_fdtValid (mem : ByteMem) {n : ℕ} (h : 24 ≤ n) : (fdtValid mem).Inside n := by
  rw [fdtValid, inside_bind_of val_be32, inside_be32]
  refine ⟨by omega, ?_⟩
  split_ifs
  · exact inside_pure _
  · rw [inside_bind_of val_be32, inside_be32]
    refine ⟨by omega, ?_⟩
    split_ifs
    · exact inside_pure _
    · simp only [inside_bind_of val_be32, inside_be32]
      refine ⟨by omega, by omega, by omega, ?_⟩
      split_ifs
      all_goals exact inside_pure _

/-- What the check says of the header. -/
theorem Accepted.header {mem : ByteMem} (h : Accepted mem) : 40 ≤ be32At mem 4 ∧ be32At mem 4 ≤ fdtMaxSize ∧
    be32At mem 8 + 4 ≤ be32At mem 4 ∧ be32At mem 12 < be32At mem 4 := by
  have hmax : fdtMaxSize < 2^32 - 1 := by decide
  unfold Accepted fdtValid at h
  simp only [val_bind_of val_be32] at h
  split_ifs at h with hmagic
  · cases h
  · simp only [val_bind_of val_be32] at h
    split_ifs at h with hsize
    · cases h
    · simp only [val_bind_of val_be32] at h
      split_ifs at h with hversion hoff hend
      · cases h
      · cases h
      · cases h
      · rw [gt_iff_lt, not_lt, checkedAdd_le (by omega)] at hend
        omega

section Turns

variable {w : Walker σ} {mem : ByteMem} {t e p : ℕ} {s : σ}

/-- A turn reads its token, and what the query reads there. -/
theorem turn_inside (ht : t ≤ fdtMaxSize) (he : e ≤ t) : (turn w mem t e (p, s)).Inside t ↔
    ∀ tok, (readToken mem t e p).val = some tok → match tok with
      | .beginNode _ => (w.beginNode (p+4) s).Inside t
      | .prop value len nameoff => (w.prop value len nameoff s).Inside t
      | _ => True := by
  obtain ⟨hin, tok, htok, -⟩ := readToken_spec mem p ht he
  rw [turn]
  simp only [inside_bind_of htok, hin, htok, true_and, Option.some.injEq, forall_eq']
  cases tok with
  | beginNode next => simp [inside_bind]
  | prop value len nameoff =>
    simp only [inside_bind, and_iff_left_iff_imp]
    intro _ r _
    cases r with
    | none => exact inside_pure _
    | some s => exact inside_pure _
  | endNode => simp
  | nop => simp
  | halt ok => simp

/-- What a query has to keep from one token to the next. -/
structure Keeps (w : Walker σ) (mem : ByteMem) (t e : ℕ) (I : ℕ → σ → Prop) (P : Option (Bool × σ) → Prop) : Prop where
  beginNode : ∀ {p s n}, I p s → p + 4 ≤ e → NameLen mem t (p+4) n → p + 4 + n < t →
    (w.beginNode (p+4) s).Returns (I (align4 (p + 4 + (n + 1))))
  endNode : ∀ {p s}, I p s → p + 4 ≤ e → I (p+4) (w.endNode s)
  prop : ∀ {p s len nameoff}, I p s → p + 12 + len ≤ e → nameoff < 2^32 →
    (w.prop (p+12) len nameoff s).Returns fun r => r.elim (P none) (I (align4 (p + 12 + len)))
  nop : ∀ {p s}, I p s → p + 4 ≤ e → I (p+4) s
  halt : ∀ {p s} ok, I p s → P (some (ok, s))

lemma Keeps.turn {I : ℕ → σ → Prop} {P : Option (Bool × σ) → Prop} (h : Keeps w mem t e I P) (ht : t ≤ fdtMaxSize) (he : e ≤ t)
    (hI : I p s) : (turn w mem t e (p, s)).Returns fun r => r.elim (fun x => I x.1 x.2 ∧ p < x.1 ∧ p < t) P := by
  obtain ⟨-, tok, htok, hat⟩ := readToken_spec mem p ht he
  rw [DeviceTree.turn, Returns, val_bind_of htok]
  cases hat with
  | @beginNode n hp hname hin =>
    refine (h.beginNode hI hp hname hin).bind fun s' hs' => returns_pure ⟨hs', ?_, by omega⟩
    have := (le_align4 (p + 4 + (n + 1))).1
    omega
  | endNode hp => exact returns_pure ⟨h.endNode hI hp, by dsimp only; omega, by omega⟩
  | @prop len nameoff hp hoff =>
    refine (h.prop hI hp hoff).bind fun r hr => ?_
    cases r with
    | none => exact returns_pure hr
    | some s' =>
      refine returns_pure ⟨hr, ?_, by omega⟩
      have := (le_align4 (p + 12 + len)).1
      dsimp only
      omega
  | nop hp => exact returns_pure ⟨h.nop hI hp, by dsimp only; omega, by omega⟩
  | halt ok => exact returns_pure (h.halt ok hI)

/-- A scan comes to its end: every turn that leads to another one moves on, and none starts behind the blob. -/
theorem Keeps.scan {I : ℕ → σ → Prop} {P : Option (Bool × σ) → Prop} (h : Keeps w mem t e I P) (ht : t ≤ fdtMaxSize) (he : e ≤ t)
    (hI : I p s) : (scan w mem t e p s).Returns P := by
  have hturn : ∀ x : ℕ × σ, I x.1 x.2 → (DeviceTree.turn w mem t e x).Returns fun r =>
      r.elim (fun y => I y.1 y.2 ∧ t - y.1 < t - x.1) P := by
    rintro ⟨p, s⟩ hx
    refine (h.turn ht he hx).mono fun r hr => ?_
    cases r with
    | inl y => exact ⟨hr.1, by obtain ⟨-, h1, h2⟩ := hr; dsimp only; omega⟩
    | inr b => exact hr
  exact loop_returns (fun x => t - x.1) hturn hI (by dsimp only; omega)

end Turns

def bytes32 (v : ℕ) : List (BitVec 8) :=
  [BitVec.ofNat 8 (v / 2^24), BitVec.ofNat 8 (v / 2^16), BitVec.ofNat 8 (v / 2^8), BitVec.ofNat 8 v]

/-- A blob of a header, a structure block and the strings, with nothing behind it. -/
def blobOf (body strings : List (BitVec 8)) : ByteMem := fun i =>
  (bytes32 fdtMagic ++ bytes32 (40 + body.length + strings.length) ++ bytes32 40 ++ bytes32 (40 + body.length) ++ bytes32 0 ++
    bytes32 17 ++ bytes32 16 ++ bytes32 0 ++ bytes32 strings.length ++ bytes32 body.length ++ body ++ strings).getD i 0

/-- A text with the padding of the structure block. -/
def padded (bs : List (BitVec 8)) : List (BitVec 8) := bs ++ List.replicate (align4 bs.length - bs.length) 0

end HouseKernel.DeviceTree
