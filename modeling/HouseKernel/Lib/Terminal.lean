import Mathlib.Data.List.GetD
import Mathlib.Tactic

/-! A character terminal: a grid of cells and a cursor, driven by a stream of octets. Printable octets fill cells, and
behind the last cell of a row the cursor goes on in the next one; backspace moves the cursor back within its row, and of
the control sequences there are those that erase to the end of the row, erase everything and send the cursor home. The
grid has no bottom. -/
namespace HouseKernel.Lib.Terminal

abbrev Octet := BitVec 8

def blank : Octet := 0x20

/-- `ESC [` with no parameter before `K`: erase from the cursor to the end of the row. -/
def eraseLine : List Octet := [0x1b, 0x5b, 0x4b]

/-- `ESC [ 2 J ESC [ H` -/
def eraseAll : List Octet := [0x1b, 0x5b, 0x32, 0x4a, 0x1b, 0x5b, 0x48]

def Printable (b : Octet) : Prop := 0x20 ≤ b.toNat ∧ b.toNat ≤ 0x7e

instance (b : Octet) : Decidable (Printable b) := inferInstanceAs (Decidable (_ ∧ _))

/-- Where the terminal stands in a control sequence. -/
inductive Mode where
  | ground
  | escape
  | control (params : List Octet)
  deriving DecidableEq

structure Screen where
  width : ℕ
  cells : ℕ → ℕ → Octet
  row : ℕ
  col : ℕ
  mode : Mode

/-- An empty grid with the cursor at home. -/
def Screen.empty (width : ℕ) : Screen := ⟨width, fun _ _ => blank, 0, 0, .ground⟩

/-- A cell is filled and the cursor goes on, to the next row from the last column. -/
def Screen.put (s : Screen) (b : Octet) : Screen :=
  { s with
    cells := Function.update s.cells s.row (Function.update (s.cells s.row) s.col b)
    row := if s.col + 1 < s.width then s.row else s.row + 1
    col := if s.col + 1 < s.width then s.col + 1 else 0 }

/-- A control sequence with its parameters and its final octet. -/
def Screen.obey (s : Screen) (params : List Octet) (final : Octet) : Screen :=
  if final = 0x4b ∧ params = [] then
    { s with cells := Function.update s.cells s.row fun i => if i < s.col then s.cells s.row i else blank, mode := .ground }
  else if final = 0x4a ∧ params = [0x32] then { s with cells := fun _ _ => blank, mode := .ground }
  else if final = 0x48 ∧ params = [] then { s with row := 0, col := 0, mode := .ground }
  else { s with mode := .ground }

def Screen.feed (s : Screen) (b : Octet) : Screen :=
  match s.mode with
  | .ground =>
    if b = 0x1b then { s with mode := .escape }
    else if b = 0x08 then { s with col := s.col - 1 }
    else if b = 0x0d then { s with col := 0 }
    else if b = 0x0a then { s with row := s.row + 1 }
    else if Printable b then s.put b
    else s
  | .escape => if b = 0x5b then { s with mode := .control [] } else { s with mode := .ground }
  | .control params =>
    if 0x30 ≤ b.toNat ∧ b.toNat ≤ 0x3b then { s with mode := .control (params ++ [b]) } else s.obey params b

def Screen.feedAll (s : Screen) (bs : List Octet) : Screen := bs.foldl Screen.feed s

variable {s t : Screen} {b : Octet} {bs cs : List Octet} {p l r : List Octet}

@[simp] theorem feedAll_nil : s.feedAll [] = s := rfl

@[simp] theorem feedAll_cons : s.feedAll (b :: bs) = (s.feed b).feedAll bs := rfl

theorem feedAll_append : s.feedAll (bs ++ cs) = (s.feedAll bs).feedAll cs := List.foldl_append

/-- The row is exactly this text, and blank after it. -/
def Reads (row : ℕ → Octet) (text : List Octet) : Prop := ∀ i, row i = text.getD i blank

/-- The row starts with this text. -/
def Starts (row : ℕ → Octet) (text : List Octet) : Prop := ∀ i, (h : i < text.length) → row i = text[i]

theorem Reads.starts {row : ℕ → Octet} (h : Reads row (p ++ r)) : Starts row p := by
  intro i hi
  rw [h i, List.getD_append _ _ _ _ hi, List.getD_eq_getElem _ _ hi]

theorem Starts.append_left {row : ℕ → Octet} (h : Starts row (p ++ r)) : Starts row p := by
  intro i hi
  rw [h i (by rw [List.length_append]; omega), List.getElem_append_left hi]

/-- Trailing blanks do not show. -/
theorem reads_append_blank {row : ℕ → Octet} (n : ℕ) : Reads row (l ++ List.replicate n blank) ↔ Reads row l := by
  refine forall_congr' fun i => ?_
  by_cases hi : i < l.length
  · rw [List.getD_append _ _ _ _ hi]
  · rw [List.getD_append_right _ _ _ _ (Nat.le_of_not_lt hi), List.getD_eq_default l _ (Nat.le_of_not_lt hi),
      List.getD_eq_getElem?_getD, List.getElem?_getD_replicate_default_eq]

/-- Nothing has been written below the cursor's row. -/
def Fresh (s : Screen) : Prop := ∀ i, s.row < i → ∀ j, s.cells i j = blank

/-- The row of the cursor starts with the text before it, and the cursor stands right behind. -/
structure Typing (s : Screen) (text : List Octet) : Prop where
  ground : s.mode = .ground
  col : s.col = text.length
  starts : Starts (s.cells s.row) text
  fresh : Fresh s

/-- The row of the cursor shows these two texts, with the cursor between them. -/
structure Shows (s : Screen) (before after : List Octet) : Prop where
  ground : s.mode = .ground
  col : s.col = before.length
  reads : Reads (s.cells s.row) (before ++ after)
  fresh : Fresh s

theorem Shows.typing (h : Shows s l r) : Typing s l := ⟨h.ground, h.col, h.reads.starts, h.fresh⟩

@[simp] theorem feed_width : (s.feed b).width = s.width := by
  unfold Screen.feed Screen.obey Screen.put
  split <;> split_ifs <;> rfl

@[simp] theorem feedAll_width : (s.feedAll bs).width = s.width := by
  induction bs generalizing s with
  | nil => rfl
  | cons b bs ih => rw [feedAll_cons, ih, feed_width]

theorem feed_printable (hm : s.mode = .ground) (hb : Printable b) (hfit : s.col + 1 < s.width) : s.feed b =
    { s with cells := Function.update s.cells s.row (Function.update (s.cells s.row) s.col b), col := s.col + 1 } := by
  obtain ⟨hlow, hhigh⟩ := hb
  have hne : ∀ c : Octet, c.toNat < 0x20 → b ≠ c := by
    rintro c hc rfl
    omega
  rw [Screen.feed, hm]
  dsimp only
  rw [if_neg (hne 0x1b (by decide)), if_neg (hne 0x08 (by decide)), if_neg (hne 0x0d (by decide)),
    if_neg (hne 0x0a (by decide)), if_pos ⟨hlow, hhigh⟩, Screen.put, if_pos hfit, if_pos hfit, hm]

theorem Typing.feed (h : Typing s l) (hb : Printable b) (hfit : l.length + 1 < s.width) :
    Typing (s.feed b) (l ++ [b]) ∧ (s.feed b).row = s.row := by
  rw [feed_printable h.ground hb (by rwa [h.col])]
  refine ⟨⟨h.ground, by simp [h.col], fun i hi => ?_, fun i hi j => ?_⟩, rfl⟩
  · simp only [Function.update_self]
    by_cases hlast : i = l.length
    · simp [hlast, h.col]
    · have hi' : i < l.length := by simp at hi; omega
      rw [Function.update_of_ne (by rw [h.col]; exact hlast), List.getElem_append_left hi', h.starts i hi']
  · have hlt : s.row < i := hi
    simp only [Function.update_of_ne hlt.ne']
    exact h.fresh i hlt j

/-- A text that ends before the last column stays on its row. -/
theorem Typing.feedAll (h : Typing s l) (hbs : ∀ b ∈ bs, Printable b) (hfit : l.length + bs.length < s.width) :
    Typing (s.feedAll bs) (l ++ bs) ∧ (s.feedAll bs).row = s.row := by
  induction bs generalizing s l with
  | nil => simpa using h
  | cons b bs ih =>
    rw [List.length_cons] at hfit
    obtain ⟨hb, hrow⟩ := h.feed (hbs b List.mem_cons_self) (by omega)
    obtain ⟨hall, hrow'⟩ := ih hb (fun c hc => hbs c (List.mem_cons_of_mem b hc)) (by simp; omega)
    rw [List.append_assoc] at hall
    exact ⟨hall, hrow'.trans hrow⟩

/-- Going back over the last octets of the text. -/
theorem feedAll_back (hm : s.mode = .ground) (n : ℕ) :
    s.feedAll (List.replicate n 0x08) = { s with col := s.col - n } := by
  induction n generalizing s with
  | zero => rfl
  | succ n ih =>
    have hfeed : s.feed 0x08 = { s with col := s.col - 1 } := by rw [Screen.feed, hm]; rfl
    rw [List.replicate_succ, feedAll_cons, hfeed, ih (s := { s with col := s.col - 1 }) hm]
    simp [Nat.sub_sub, Nat.add_comm]

theorem Typing.back (h : Typing s (l ++ r)) : Typing (s.feedAll (List.replicate r.length 0x08)) l := by
  rw [feedAll_back h.ground]
  exact ⟨h.ground, by simp [h.col], h.starts.append_left, h.fresh⟩

theorem Shows.back (h : Shows s (l ++ p) r) : Shows (s.feedAll (List.replicate p.length 0x08)) l (p ++ r) := by
  rw [feedAll_back h.ground]
  exact ⟨h.ground, by simp [h.col], by simpa using h.reads, h.fresh⟩

theorem feedAll_eraseLine (hm : s.mode = .ground) : s.feedAll eraseLine =
    { s with cells := Function.update s.cells s.row fun i => if i < s.col then s.cells s.row i else blank } := by
  simp [eraseLine, Screen.feed, Screen.obey, hm]

/-- What stands on the row after the cursor is gone. -/
theorem Typing.erase (h : Typing s l) : Shows (s.feedAll eraseLine) l [] ∧ (s.feedAll eraseLine).row = s.row := by
  rw [feedAll_eraseLine h.ground]
  refine ⟨⟨h.ground, h.col, fun i => ?_, fun i hi j => ?_⟩, rfl⟩
  · simp only [Function.update_self, h.col, List.append_nil]
    split_ifs with hi
    · rw [h.starts i hi, List.getD_eq_getElem _ _ hi]
    · rw [List.getD_eq_default _ _ (Nat.le_of_not_lt hi)]
  · have hlt : s.row < i := hi
    simp only [Function.update_of_ne hlt.ne']
    exact h.fresh i hlt j

theorem shows_empty (width : ℕ) : Shows (.empty width) [] [] := ⟨rfl, rfl, fun _ => rfl, fun _ _ _ => rfl⟩

theorem feedAll_eraseAll (hm : s.mode = .ground) :
    s.feedAll eraseAll = { s with cells := fun _ _ => blank, row := 0, col := 0 } := by
  simp [eraseAll, Screen.feed, Screen.obey, hm]

/-- On a row that is still blank the cursor stands behind the empty text. -/
theorem shows_eraseAll (hm : s.mode = .ground) : Shows (s.feedAll eraseAll) [] [] := by
  rw [feedAll_eraseAll hm]
  exact ⟨hm, rfl, fun i => by simp, fun _ _ _ => rfl⟩

/-- A line feed after a carriage return leaves the row as it is and goes to a fresh one. -/
theorem Shows.newline (h : Shows s l r) :
    Shows (s.feedAll [0x0d, 0x0a]) [] [] ∧ (s.feedAll [0x0d, 0x0a]).row = s.row + 1 ∧
      Reads ((s.feedAll [0x0d, 0x0a]).cells s.row) (l ++ r) := by
  have hfeed : s.feedAll [0x0d, 0x0a] = { s with col := 0, row := s.row + 1 } := by
    simp [Screen.feed, h.ground]
  rw [hfeed]
  refine ⟨⟨h.ground, rfl, fun i => ?_, fun i hi j => h.fresh i (Nat.lt_of_succ_lt hi) j⟩, rfl, h.reads⟩
  simpa using h.fresh (s.row + 1) (Nat.lt_succ_self _) i

end HouseKernel.Lib.Terminal
