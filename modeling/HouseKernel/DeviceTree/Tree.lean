import HouseKernel.DeviceTree.Bounds

/-! Device trees and the blobs that hold them, and what the ramdisk query makes of such a blob. The query counts up to 16
levels and 65 bytes of a name. -/
namespace HouseKernel.DeviceTree

open HouseKernel.Lib HouseKernel.Lib.Reads

abbrev Name := List (BitVec 8)

/-- The rest of a node: properties, child nodes with what follows them, and padding tokens. -/
inductive Body where
  | nil
  | nop (rest : Body)
  | prop (name value : Name) (rest : Body)
  | node (name : Name) (body rest : Body)
  deriving DecidableEq, Repr

/-- How many levels of nodes there are. -/
def Body.height : Body → ℕ
  | nil => 0
  | nop rest => rest.height
  | prop _ _ rest => rest.height
  | node _ body rest => max (body.height + 1) rest.height

/-- All node names have at most `n` bytes. -/
def Body.NamesWithin (n : ℕ) : Body → Prop
  | nil => True
  | nop rest => rest.NamesWithin n
  | prop _ _ rest => rest.NamesWithin n
  | node name body rest => name.length ≤ n ∧ body.NamesWithin n ∧ rest.NamesWithin n

instance Body.decidableNamesWithin (n : ℕ) : ∀ b : Body, Decidable (b.NamesWithin n)
  | nil => isTrue trivial
  | nop rest => decidableNamesWithin n rest
  | prop _ _ rest => decidableNamesWithin n rest
  | node name body rest =>
    @instDecidableAnd (name.length ≤ n) _ _ (@instDecidableAnd _ _ (decidableNamesWithin n body) (decidableNamesWithin n rest))

/-- The properties of this level. -/
def Body.props : Body → List (Name × Name)
  | nil => []
  | nop rest => rest.props
  | prop name value rest => (name, value) :: rest.props
  | node _ _ rest => rest.props

/-- The nodes of this level. -/
def Body.children : Body → List (Name × Body)
  | nil => []
  | nop rest => rest.children
  | prop _ _ rest => rest.children
  | node name body rest => (name, body) :: rest.children

lemma Body.children_node {name : Name} {body rest : Body} :
    (node name body rest).children = (name, body) :: rest.children := rfl

def asciiName (s : String) : Name := (text s).map toByte

/-- The properties of the root's children with this name. -/
def Body.propsOf (top : Body) (name : Name) : List (Name × Name) :=
  top.children.flatMap fun root => (root.2.children.filter fun c => c.1 = name).flatMap fun c => c.2.props

/-- A number of one cell or of two. -/
def numberOf (value : Name) : Option ℕ :=
  if value.length = 4 ∨ value.length = 8 then some (value.foldl (fun v b => 256*v + b.toNat) 0) else none

/-- The number of a property; the last one counts. -/
def lookupNumber (props : List (Name × Name)) (name : Name) : Option ℕ :=
  (props.filterMap fun x => if x.1 = name then numberOf x.2 else none).getLast?

/-- The window that `chosen` says. An empty window is none. -/
def Body.initrd (top : Body) : Option (ℕ × ℕ) :=
  match lookupNumber (top.propsOf (asciiName "chosen")) (asciiName "linux,initrd-start"),
    lookupNumber (top.propsOf (asciiName "chosen")) (asciiName "linux,initrd-end") with
  | some start, some stop => if stop ≤ start then none else some (start, stop)
  | _, _ => none

/-- A property's name in the strings. -/
structure NameAt (mem : ByteMem) (offStrings sizeStrings nameoff : ℕ) (name : Name) : Prop where
  inside : nameoff + name.length + 1 ≤ sizeStrings
  text : TextAt mem (offStrings + nameoff) (name ++ [0])
  plain : 0 ∉ name

/-- The tokens from `p` to `q` are those of a body. -/
inductive Encodes (mem : ByteMem) (offStrings sizeStrings : ℕ) : ℕ → Body → ℕ → Prop
  | nil (p : ℕ) : Encodes mem offStrings sizeStrings p .nil p
  | nop {p q : ℕ} {rest : Body} (htoken : be32At mem p = 4) (hrest : Encodes mem offStrings sizeStrings (p+4) rest q) :
    Encodes mem offStrings sizeStrings p (.nop rest) q
  | prop {p q : ℕ} {name value : Name} {rest : Body} (htoken : be32At mem p = 3) (hlen : be32At mem (p+4) = value.length)
    (hname : NameAt mem offStrings sizeStrings (be32At mem (p+8)) name) (hvalue : TextAt mem (p+12) value)
    (hrest : Encodes mem offStrings sizeStrings (align4 (p + 12 + value.length)) rest q) :
    Encodes mem offStrings sizeStrings p (.prop name value rest) q
  | node {p m q : ℕ} {name : Name} {body rest : Body} (htoken : be32At mem p = 1) (hname : TextAt mem (p+4) (name ++ [0]))
    (hplain : 0 ∉ name) (hbody : Encodes mem offStrings sizeStrings (align4 (p + 4 + name.length + 1)) body m)
    (hend : be32At mem m = 2) (hrest : Encodes mem offStrings sizeStrings (m+4) rest q) :
    Encodes mem offStrings sizeStrings p (.node name body rest) q

/-- A blob whose header, structure block and strings hold a tree. -/
structure WellFormed (mem : ByteMem) (top : Body) : Prop where
  accepted : Accepted mem
  aligned : be32At mem 8 % 4 = 0
  strings : be32At mem 12 + be32At mem 32 ≤ be32At mem 4
  block : be32At mem 8 + be32At mem 36 ≤ be32At mem 4
  tokens : ∃ q, Encodes mem (be32At mem 12) (be32At mem 32) (be32At mem 8) top q ∧ be32At mem q = 9 ∧
    q + 4 ≤ be32At mem 8 + be32At mem 36

section Window

/-- What is known of the window. -/
abbrev Window := Option ℕ × Option ℕ

def Window.take (w : Window) (x : Name × Name) : Window :=
  if x.1 = asciiName "linux,initrd-start" then ((numberOf x.2).or w.1, w.2)
  else if x.1 = asciiName "linux,initrd-end" then (w.1, (numberOf x.2).or w.2)
  else w

/-- What a scan of a body does to the window, in a node at depth `d` that is or is not `chosen`. -/
def Body.run : Body → Bool → ℕ → Window → Window
  | nil, _, _, w => w
  | nop rest, c, d, w => rest.run c d w
  | prop name value rest, c, d, w => rest.run c d (if c then w.take (name, value) else w)
  | node name body rest, c, d, w => rest.run c d (body.run (d = 1 ∧ name = asciiName "chosen") (d+1) w)

lemma Body.run_node {name : Name} {body rest : Body} {c : Bool} {d : ℕ} {w : Window} : (node name body rest).run c d w =
    rest.run c d (body.run (d = 1 ∧ name = asciiName "chosen") (d+1) w) := rfl

variable {b : Body} {d : ℕ} {w : Window}

/-- Below the children of the root nothing is looked at. -/
lemma Body.run_deep (h : 2 ≤ d) : b.run false d w = w := by
  induction b generalizing d w with
  | nil => rfl
  | nop rest ih => exact ih h
  | prop name value rest ih => exact ih h
  | node name body rest ihb ihr =>
    have hd : ¬ (d = 1 ∧ name = asciiName "chosen") := fun hc => by omega
    rw [run_node, decide_eq_false hd, ihb (by omega), ihr h]

lemma Body.run_child (c : Bool) (h : 2 ≤ d) : b.run c d w = if c then b.props.foldl Window.take w else w := by
  cases c with
  | false => exact run_deep h
  | true =>
    rw [if_pos rfl]
    induction b generalizing w with
    | nil => rfl
    | nop rest ih => exact ih
    | prop name value rest ih => exact ih
    | node name body rest ihb ihr =>
      have hd : ¬ (d = 1 ∧ name = asciiName "chosen") := fun hc => by omega
      rw [run_node, decide_eq_false hd, run_deep (by omega), ihr]
      rfl

lemma Body.run_root : b.run false 1 w =
    ((b.children.filter fun c => c.1 = asciiName "chosen").flatMap fun c => c.2.props).foldl Window.take w := by
  induction b generalizing w with
  | nil => rfl
  | nop rest ih => exact ih
  | prop name value rest ih => exact ih
  | node name body rest ihb ihr =>
    rw [run_node, run_child _ le_rfl, ihr, children_node]
    by_cases hname : name = asciiName "chosen"
    · simp [hname, List.foldl_append]
    · simp [hname]

/-- The whole tree gives the properties of `chosen`. -/
theorem Body.run_top : b.run false 0 w = (b.propsOf (asciiName "chosen")).foldl Window.take w := by
  induction b generalizing w with
  | nil => rfl
  | nop rest ih => exact ih
  | prop name value rest ih => exact ih
  | node name body rest ihb ihr =>
    have hd : ¬ (0 = 1 ∧ name = asciiName "chosen") := fun hc => absurd hc.1 (by decide)
    rw [run_node, decide_eq_false hd, run_root, ihr]
    simp only [propsOf, children_node, List.flatMap_cons, List.foldl_append]

/-- The window that the properties give one after the other. -/
theorem foldl_take (props : List (Name × Name)) : props.foldl Window.take (none, none) =
    (lookupNumber props (asciiName "linux,initrd-start"), lookupNumber props (asciiName "linux,initrd-end")) := by
  have hne : asciiName "linux,initrd-start" ≠ asciiName "linux,initrd-end" := by decide
  induction props using List.reverseRecOn with
  | nil => rfl
  | append_singleton props x ih =>
    simp only [List.foldl_append, ih, List.foldl_cons, List.foldl_nil, Window.take, lookupNumber, List.filterMap_append,
      List.getLast?_append, List.filterMap_cons, List.filterMap_nil]
    by_cases hstart : x.1 = asciiName "linux,initrd-start"
    · rw [if_pos hstart, if_pos hstart, if_neg fun hstop => hne (hstart.symm.trans hstop)]
      cases numberOf x.2 with
      | none => rfl
      | some v => rfl
    · rw [if_neg hstart, if_neg hstart]
      by_cases hstop : x.1 = asciiName "linux,initrd-end"
      · rw [if_pos hstop, if_pos hstop]
        cases numberOf x.2 with
        | none => rfl
        | some v => rfl
      · rw [if_neg hstop, if_neg hstop]
        rfl

end Window

section Walk

variable {mem : ByteMem} {t e p q offStrings sizeStrings : ℕ} {name value : Name}

/-- The token of a node. A name of up to 67 bytes has its end where the count has it, after the padding. -/
lemma readToken_node (ht : t ≤ fdtMaxSize) (he : e ≤ t) (htoken : be32At mem p = 1) (hname : TextAt mem (p+4) (name ++ [0]))
    (hplain : 0 ∉ name) (hlen : name.length ≤ 67) (halign : p % 4 = 0) (hin : p + 4 + name.length + 1 ≤ e) :
    (readToken mem t e p).val = some (.beginNode (align4 (p + 4 + name.length + 1))) := by
  have hmax : fdtMaxSize < 2^32 - 1 := by decide
  obtain ⟨-, n, hn, hbytes, hn65, hstop⟩ := nameLen_spec mem (p+4) ht
  have hzero : mem (p + 4 + name.length) = 0 := textAt_get hname (by simp)
  have hle : n ≤ name.length := by
    by_contra hlt
    exact (hbytes name.length (by omega)).2 hzero
  have hge : n < 65 → name.length ≤ n := by
    intro hn
    by_contra hlt
    have hget : name[n]? = some name[n] := List.getElem?_eq_getElem (by omega)
    have hbyte : mem (p + 4 + n) = name[n] := textAt_get hname (by rw [List.getElem?_append_left (by omega), hget])
    refine hplain ?_
    rw [← hstop hn (by omega), hbyte]
    exact List.getElem_mem _
  have hnext : align4 (p + 4 + (n + 1)) = align4 (p + 4 + name.length + 1) := by
    unfold align4
    omega
  rw [readToken, if_pos ((checkedAdd_le (by omega)).mpr (by omega)), val_bind_of val_be32]
  simp only [htoken, if_true]
  rw [val_bind_of hn, if_neg (by rw [ge_iff_le, not_le, checkedAdd_lt (by omega)]; omega), hnext]
  rfl

lemma readToken_end (he : e < 2^32 - 1) (htoken : be32At mem p = 2) (hin : p + 4 ≤ e) :
    (readToken mem t e p).val = some .endNode := by
  rw [readToken, if_pos ((checkedAdd_le he).mpr hin), val_bind_of val_be32]
  simp [htoken]

lemma readToken_nop (he : e < 2^32 - 1) (htoken : be32At mem p = 4) (hin : p + 4 ≤ e) :
    (readToken mem t e p).val = some .nop := by
  rw [readToken, if_pos ((checkedAdd_le he).mpr hin), val_bind_of val_be32]
  simp [htoken]

lemma readToken_prop (he : e < 2^32 - 1) (htoken : be32At mem p = 3) (hin : p + 12 + be32At mem (p+4) ≤ e) :
    (readToken mem t e p).val = some (.prop (p+12) (be32At mem (p+4)) (be32At mem (p+8))) := by
  have hbody : ¬ checkedAdd (p+4) 8 > e := by
    rw [gt_iff_lt, not_lt, checkedAdd_le he]
    omega
  have hvalue : ¬ checkedAdd (p+4+8) (be32At mem (p+4)) > e := by
    rw [gt_iff_lt, not_lt, checkedAdd_le he]
    omega
  rw [readToken, if_pos ((checkedAdd_le he).mpr (by omega)), val_bind_of val_be32]
  simp [htoken, hbody, val_bind_of val_be32, hvalue]

lemma readToken_last (he : e < 2^32 - 1) (htoken : be32At mem p = 9) (hin : p + 4 ≤ e) :
    (readToken mem t e p).val = some (.halt true) := by
  rw [readToken, if_pos ((checkedAdd_le he).mpr hin), val_bind_of val_be32]
  simp [htoken]

/-- A body ends behind its start, on a cell. -/
lemma Encodes.le {b : Body} (h : Encodes mem offStrings sizeStrings p b q) : p ≤ q ∧ (p % 4 = 0 → q % 4 = 0) := by
  induction h with
  | nil p => exact ⟨le_rfl, id⟩
  | nop htoken hrest ih => omega
  | @prop p q name value rest htoken hlen hname hvalue hrest ih =>
    have := le_align4 (p + 12 + value.length)
    omega
  | @node p m q name body rest htoken hname hplain hbody hend hrest ihb ihr =>
    have := le_align4 (p + 4 + name.length + 1)
    omega

/-- One cell is a number. -/
lemma foldl_bytes (h : TextAt mem p value) (hlen : value.length = 4) (v : ℕ) :
    value.foldl (fun v b => 256*v + b.toNat) v = 2^32*v + be32At mem p := by
  match value, hlen, h with
  | [b0, b1, b2, b3], _, ⟨h0, h1, h2, h3, _⟩ =>
    simp only [be32At, h0, h1, h2, h3, List.foldl_cons, List.foldl_nil]
    omega

lemma initrdValue_number (h : TextAt mem p value) (hlen : value.length = 4 ∨ value.length = 8) :
    (initrdValue mem p value.length).val = numberOf value := by
  rw [numberOf, if_pos hlen, initrdValue]
  obtain h4 | h8 := hlen
  · rw [if_neg (by omega), val_be32, foldl_bytes h h4]
    simp
  · obtain ⟨hhi, hlo⟩ := textAt_append.mp ((List.take_append_drop 4 value).symm ▸ h)
    have hhi4 : (value.take 4).length = 4 := by simp [h8]
    have hlo4 : (value.drop 4).length = 4 := by simp [h8]
    rw [hhi4] at hlo
    rw [if_pos h8, val_bind_of val_be32, val_bind_of val_be32, ← List.take_append_drop 4 value, List.foldl_append,
      foldl_bytes hhi hhi4, foldl_bytes hlo hlo4]
    simp

/-- A name in the strings is the one that the query looks for, or is not. -/
lemma initrdName_eq {nameoff len : ℕ} (hsize : sizeStrings < 2^32 - 1) (hname : NameAt mem offStrings sizeStrings nameoff name)
    {want : String} (hwant : 0 ∉ asciiName want) : (initrdName mem offStrings sizeStrings len nameoff want).val =
      some (decide ((len = 4 ∨ len = 8) ∧ name = asciiName want)) := by
  have hiff : TextAt mem (offStrings + nameoff) (cString want) ↔ name = asciiName want := by
    refine ⟨fun htext => textAt_unique hname.text htext hname.plain hwant, fun heq => ?_⟩
    have htext := hname.text
    rwa [heq] at htext
  unfold initrdName
  split_ifs with h
  · simp [val_startsWith, hiff, h.1]
  · have hno : ¬ ((len = 4 ∨ len = 8) ∧ name = asciiName want) := by
      rintro ⟨hlen, heq⟩
      have hin := hname.inside
      refine h ⟨hlen, (checkedAdd_le hsize).mpr ?_⟩
      have hcstring : (cString want).length = name.length + 1 := by simp [heq, cString, asciiName]
      omega
    rw [decide_eq_false hno]
    rfl

def InitrdState.window (st : InitrdState) : Window := (st.start, st.stop)

/-- What a property of `chosen` does to the window. -/
lemma initrdProp_take {nameoff : ℕ} (hsize : sizeStrings < 2^32 - 1) (hname : NameAt mem offStrings sizeStrings nameoff name)
    (hvalue : TextAt mem p value) (st : InitrdState) :
    ∃ st', (initrdProp mem offStrings sizeStrings p value.length nameoff st).val = some st' ∧ st'.depth = st.depth ∧
      st'.isChosen = st.isChosen ∧ st'.window = st.window.take (name, value) := by
  have hstart := @initrdName_eq mem offStrings sizeStrings name nameoff value.length hsize hname "linux,initrd-start" (by decide)
  have hstop := @initrdName_eq mem offStrings sizeStrings name nameoff value.length hsize hname "linux,initrd-end" (by decide)
  have hne : asciiName "linux,initrd-start" ≠ asciiName "linux,initrd-end" := by decide
  rw [initrdProp, val_bind_of hstart]
  by_cases hlen : value.length = 4 ∨ value.length = 8
  · have hnumber := initrdValue_number hvalue hlen
    rw [numberOf, if_pos hlen] at hnumber
    simp only [hlen, true_and, Window.take, numberOf, if_true]
    by_cases h1 : name = asciiName "linux,initrd-start"
    · rw [if_pos (decide_eq_true h1), val_bind_of hnumber, if_pos h1]
      exact ⟨_, rfl, rfl, rfl, rfl⟩
    · rw [if_neg (by simpa using h1), val_bind_of hstop, if_neg h1]
      by_cases h2 : name = asciiName "linux,initrd-end"
      · rw [if_pos (by simpa using ⟨hlen, h2⟩), val_bind_of hnumber, if_pos h2]
        exact ⟨_, rfl, rfl, rfl, rfl⟩
      · rw [if_neg (by simp [h2]), if_neg h2]
        exact ⟨_, rfl, rfl, rfl, rfl⟩
  · have htake : st.window.take (name, value) = st.window := by
      simp only [Window.take, numberOf, if_neg hlen, Option.none_or]
      split_ifs
      all_goals rfl
    rw [if_neg (by simp [hlen]), val_bind_of hstop, if_neg (by simp [hlen]), htake]
    exact ⟨_, rfl, rfl, rfl, rfl⟩

/-- The scan walks over a body to its end. It comes back to the depth that it started at, and does to the window what the
properties of the body do. -/
theorem Encodes.walk {b : Body} (h : Encodes mem offStrings sizeStrings p b q) (ht : t ≤ fdtMaxSize) (he : e ≤ t)
    (hsize : sizeStrings < 2^32 - 1) (hq : q + 4 ≤ e) (halign : p % 4 = 0) {st : InitrdState}
    (hdepth : st.depth + b.height ≤ 16) (hnames : b.NamesWithin 67) :
    ∃ st', Relation.ReflTransGen (Goes (turn (initrdWalker mem offStrings sizeStrings) mem t e)) (p, st) (q, st') ∧
      st'.depth = st.depth ∧ (∀ i < st.depth, st'.isChosen i = st.isChosen i) ∧
      st'.window = b.run (topFlag st.isChosen st.depth) st.depth st.window := by
  have hmax : fdtMaxSize < 2^32 - 1 := by decide
  have heSize : e < 2^32 - 1 := by omega
  induction h generalizing st with
  | nil p => exact ⟨st, .refl, rfl, fun _ _ => rfl, rfl⟩
  | @nop p q rest htoken hrest ih =>
    obtain ⟨hle, -⟩ := hrest.le
    obtain ⟨st', hreach, hrestore⟩ := ih hq (by omega) hdepth hnames
    refine ⟨st', .head ?_ hreach, hrestore⟩
    rw [Goes, turn, val_bind_of (readToken_nop heSize htoken (by omega))]
    rfl
  | @prop p q name value rest htoken hlen hname hvalue hrest ih =>
    obtain ⟨hle, -⟩ := hrest.le
    obtain ⟨hnext, -, hnextAlign⟩ := le_align4 (p + 12 + value.length)
    have htok := @readToken_prop mem t e p heSize htoken (by omega)
    rw [hlen] at htok
    have hprop : ∃ st1, ((initrdWalker mem offStrings sizeStrings).prop (p+12) value.length (be32At mem (p+8)) st).val =
        some (some st1) ∧ st1.depth = st.depth ∧ st1.isChosen = st.isChosen ∧
        st1.window = if topFlag st.isChosen st.depth then st.window.take (name, value) else st.window := by
      have hinside := hname.inside
      simp only [initrdWalker]
      by_cases htop : topFlag st.isChosen st.depth = true
      · obtain ⟨st1, hst1, hkeep⟩ := initrdProp_take hsize hname hvalue st
        rw [if_pos ⟨htop, by omega⟩, val_bind_of hst1, if_pos htop]
        exact ⟨st1, rfl, hkeep⟩
      · rw [if_neg fun hc => htop hc.1, if_neg htop]
        exact ⟨st, rfl, rfl, rfl, rfl⟩
    obtain ⟨st1, hst1, hd1, hc1, hw1⟩ := hprop
    rw [Body.height] at hdepth
    obtain ⟨st', hreach, hd', hc', hw'⟩ := @ih hq hnextAlign st1 (by omega) hnames
    rw [hd1, hc1] at hc' hw'
    refine ⟨st', .head ?_ hreach, hd'.trans hd1, hc', ?_⟩
    · rw [Goes, turn, val_bind_of htok, val_bind_of hst1]
      rfl
    · rw [hw', hw1, Body.run]
  | @node p m q name body rest htoken hname hplain hbody hend hrest ihb ihr =>
    rw [Body.height] at hdepth
    obtain ⟨hlen, hnamesBody, hnamesRest⟩ := hnames
    obtain ⟨hleBody, halignBody⟩ := hbody.le
    obtain ⟨hleRest, -⟩ := hrest.le
    obtain ⟨hnext, -, hnextAlign⟩ := le_align4 (p + 4 + name.length + 1)
    have htok := readToken_node ht he htoken hname hplain hlen halign (by omega)
    have hflag : (isChosenName mem (p+4) st.depth).val = some (decide (st.depth = 1 ∧ name = asciiName "chosen")) := by
      have hiff : TextAt mem (p+4) (cString "chosen") ↔ name = asciiName "chosen" := by
        refine ⟨fun htext => textAt_unique hname htext hplain (by decide), fun heq => ?_⟩
        rwa [heq] at hname
      unfold isChosenName
      split_ifs with h1
      · simp [val_startsWith, hiff, h1]
      · simp [h1]
    -- The node's flag stands in its own place, so that the flags of the nodes around it are there again behind it.
    have hdeeper : pushDepth st.depth = st.depth + 1 := if_neg (by omega)
    have hpush (flag : Bool) : pushFlag st.isChosen st.depth flag = Function.update st.isChosen st.depth flag := if_pos (by omega)
    have htop (flag : Bool) : topFlag (Function.update st.isChosen st.depth flag) (st.depth + 1) = flag := by
      rw [topFlag, if_pos (by omega), Nat.add_sub_cancel, Function.update_self]
    obtain ⟨st2, hreachBody, hd2, hc2, hw2⟩ := @ihb (by omega) hnextAlign
      { st with
        depth := st.depth + 1
        isChosen := Function.update st.isChosen st.depth (decide (st.depth = 1 ∧ name = asciiName "chosen")) }
      (by dsimp only; omega) hnamesBody
    obtain ⟨st', hreachRest, hd', hc', hw'⟩ := @ihr hq (by omega) { st2 with depth := st2.depth - 1 }
      (by dsimp only at hd2 ⊢; omega) hnamesRest
    dsimp only at hd2 hc2 hd' hc' hw'
    have hback : st2.depth - 1 = st.depth := by omega
    have hflags : ∀ i < st.depth, st2.isChosen i = st.isChosen i := fun i hi => by
      rw [hc2 i (by omega), Function.update_of_ne (by omega)]
    have htopBack : topFlag st2.isChosen st.depth = topFlag st.isChosen st.depth := by
      unfold topFlag
      split_ifs with hpos
      · exact hflags _ (by omega)
      · rfl
    rw [hback] at hd' hc' hw'
    refine ⟨st', .head ?_ (hreachBody.trans (.head ?_ hreachRest)), hd', fun i hi => (hc' i hi).trans (hflags i hi), ?_⟩
    · rw [Goes, turn, val_bind_of htok]
      simp only [initrdWalker]
      rw [val_bind, val_bind_of hflag, hdeeper, hpush]
      rfl
    · rw [Goes, turn, val_bind_of (readToken_end heSize hend (by omega))]
      rfl
    · rw [htopBack] at hw'
      rw [htop] at hw2
      rw [hw', Body.run]
      exact congrArg _ hw2

end Walk

/-- The ramdisk query says what the tree says: the window of the nodes `chosen` right below the root. -/
theorem initrd_of_tree {mem : ByteMem} {top : Body} (h : WellFormed mem top) (hheight : top.height ≤ 16)
    (hnames : top.NamesWithin 67) :
    (fdtGetInitrd mem).val = some top.initrd := by
  obtain ⟨hmin, hmax, -, hstringsLt⟩ := h.accepted.header
  have hsize : fdtMaxSize < 2^32 - 1 := by decide
  have hvalid : (fdtValid mem).val = some true := h.accepted
  have hstrings := h.strings
  have hblock := h.block
  obtain ⟨q, hencodes, hlast, hq⟩ := h.tokens
  have hend : structEnd (be32At mem 4) (be32At mem 8) (be32At mem 36) = be32At mem 8 + be32At mem 36 := by
    have hsum : be32At mem 8 + be32At mem 36 < 2^32 := by omega
    rw [structEnd, if_pos hsum]
    exact if_neg (by omega)
  have hdepth : (⟨0, fun _ => false, none, none⟩ : InitrdState).depth + top.height ≤ 16 := by simpa using hheight
  obtain ⟨st, hreach, -, -, hwindow⟩ := hencodes.walk hmax hblock (by omega) hq h.aligned hdepth hnames
  have hstop : (turn (initrdWalker mem (be32At mem 12) (be32At mem 32)) mem (be32At mem 4)
      (be32At mem 8 + be32At mem 36) (q, st)).val =
      some (.inr (some (true, st))) := by
    rw [turn, val_bind_of (readToken_last (by omega) hlast hq)]
    rfl
  have hsafe : Safe (initrdWalker mem (be32At mem 12) (be32At mem 32)) mem (be32At mem 4) (be32At mem 8 + be32At mem 36) :=
    initrdWalker_safe hstrings hmax hblock
  obtain ⟨-, r, hr⟩ := hsafe.scan (p := be32At mem 8) hmax hblock ⟨0, fun _ => false, none, none⟩
  obtain rfl := loop_end hreach hstop hr
  simp only [fdtGetInitrd, val_bind_of hvalid, if_true, val_bind_of val_be32, hend]
  rw [if_neg (by rw [gt_iff_lt, not_lt, checkedAdd_le (by omega)]; exact hstrings), val_bind_of hr]
  have htop : st.window = (lookupNumber (top.propsOf (asciiName "chosen")) (asciiName "linux,initrd-start"),
      lookupNumber (top.propsOf (asciiName "chosen")) (asciiName "linux,initrd-end")) := by
    rw [hwindow, ← foldl_take, ← Body.run_top]
    rfl
  obtain ⟨hs, hf⟩ := Prod.mk.inj htop
  rw [initrdWindow, hs, hf, Body.initrd]
  rfl

section Sample

local instance lawfulOctets : LawfulBEq (BitVec 8) := inferInstance

/-- The position behind a body whose tokens are in order. -/
def Body.check (mem : ByteMem) (offStrings sizeStrings : ℕ) : Body → ℕ → Option ℕ
  | nil, p => some p
  | nop rest, p => if be32At mem p = 4 then rest.check mem offStrings sizeStrings (p+4) else none
  | prop name value rest, p =>
    let nameoff := be32At mem (p+8)
    if be32At mem p = 3 ∧ be32At mem (p+4) = value.length ∧ TextAt mem (p+12) value ∧ 0 ∉ name ∧
        nameoff + name.length + 1 ≤ sizeStrings ∧ TextAt mem (offStrings + nameoff) (name ++ [0]) then
      rest.check mem offStrings sizeStrings (align4 (p + 12 + value.length))
    else none
  | node name body rest, p =>
    if be32At mem p = 1 ∧ 0 ∉ name ∧ TextAt mem (p+4) (name ++ [0]) then
      match body.check mem offStrings sizeStrings (align4 (p + 4 + name.length + 1)) with
      | some m => if be32At mem m = 2 then rest.check mem offStrings sizeStrings (m+4) else none
      | none => none
    else none

lemma Body.encodes_of_check {mem : ByteMem} {offStrings sizeStrings p q : ℕ} {b : Body}
    (h : b.check mem offStrings sizeStrings p = some q) : Encodes mem offStrings sizeStrings p b q := by
  induction b generalizing p q with
  | nil =>
    obtain rfl := Option.some.inj h
    exact .nil p
  | nop rest ih =>
    rw [check] at h
    split_ifs at h with htoken
    exact .nop htoken (ih h)
  | prop name value rest ih =>
    rw [check] at h
    split_ifs at h with hat
    obtain ⟨htoken, hlen, hvalue, hplain, hinside, htext⟩ := hat
    exact .prop htoken hlen ⟨hinside, htext, hplain⟩ hvalue (ih h)
  | node name body rest ihb ihr =>
    rw [check] at h
    split_ifs at h with hat
    obtain ⟨htoken, hplain, htext⟩ := hat
    cases hm : body.check mem offStrings sizeStrings (align4 (p + 4 + name.length + 1)) with
    | none =>
      rw [hm] at h
      cases h
    | some m =>
      simp only [hm] at h
      split_ifs at h with hend
      exact .node htoken htext hplain (ihb hm) hend (ihr h)

/-- The tokens of a body, with its property names at these places of the strings. -/
def Body.bytes (nameoff : Name → ℕ) : Body → List (BitVec 8)
  | nil => []
  | nop rest => bytes32 4 ++ rest.bytes nameoff
  | prop name value rest => bytes32 3 ++ bytes32 value.length ++ bytes32 (nameoff name) ++ padded value ++ rest.bytes nameoff
  | node name body rest => bytes32 1 ++ padded (name ++ [0]) ++ body.bytes nameoff ++ bytes32 2 ++ rest.bytes nameoff

/-- A blob with the names of the window in its strings. -/
def initrdBlob (top : Body) : ByteMem :=
  blobOf (top.bytes (fun name => if name = asciiName "linux,initrd-start" then 0 else 19) ++ bytes32 9)
    (cString "linux,initrd-start" ++ cString "linux,initrd-end")

/-- A node `chosen` with a window from 16 to `stop`. -/
def chosenTo (stop : ℕ) (rest : Body) : Body :=
  .node (asciiName "chosen")
    (.prop (asciiName "linux,initrd-start") (bytes32 0 ++ bytes32 16)
      (.prop (asciiName "linux,initrd-end") (bytes32 stop) .nil)) rest

/-- So many nodes inside one another. -/
def nested : ℕ → Body → Body
  | 0, b => b
  | n+1, b => .node (asciiName "n") (nested n b) .nil

lemma wellFormed_of_check {mem : ByteMem} {top : Body} {q : ℕ}
    (hheader : Accepted mem ∧ be32At mem 8 % 4 = 0 ∧ be32At mem 12 + be32At mem 32 ≤ be32At mem 4 ∧
      be32At mem 8 + be32At mem 36 ≤ be32At mem 4)
    (htokens : top.check mem (be32At mem 12) (be32At mem 32) (be32At mem 8) = some q)
    (hend : be32At mem q = 9 ∧ q + 4 ≤ be32At mem 8 + be32At mem 36) : WellFormed mem top :=
  ⟨hheader.1, hheader.2.1, hheader.2.2.1, hheader.2.2.2, q, Body.encodes_of_check htokens, hend⟩

/-- A root with a window in `chosen`, and another one deeper in the tree. -/
def sampleTree : Body := .node [] (.node (asciiName "n") (chosenTo 99 .nil) (chosenTo 32 .nil)) .nil

lemma sampleTree_wellFormed : WellFormed (initrdBlob sampleTree) sampleTree :=
  wellFormed_of_check (q := 168) (by decide +kernel) (by decide +kernel) (by decide +kernel)

theorem initrd_of_tree_sample : (fdtGetInitrd (initrdBlob sampleTree)).val = some (some (16, 32)) := by
  have htree : sampleTree.initrd = some (16, 32) := by rfl
  rw [← htree]
  exact initrd_of_tree sampleTree_wellFormed (by decide) (by decide)

/-- A tree of 17 levels, with `chosen` behind the deepest of them. -/
def deepTree : Body := .node [] (.node (asciiName "n") (nested 15 .nil) (chosenTo 32 .nil)) .nil

/-- A name of 68 bytes before `chosen`. -/
def longTree : Body := .node [] (.node (List.replicate 68 0x6e) .nil (chosenTo 32 .nil)) .nil

/-- An empty window. -/
def emptyTree : Body := .node [] (chosenTo 16 .nil) .nil

/-- The window is lost in a tree that is too deep or has too long a name, and an empty one is never reported. -/
theorem initrd_limits :
    (WellFormed (initrdBlob deepTree) deepTree ∧ deepTree.initrd = some (16, 32) ∧
      (fdtGetInitrd (initrdBlob deepTree)).val = some none) ∧
    (WellFormed (initrdBlob longTree) longTree ∧ longTree.initrd = some (16, 32) ∧
      (fdtGetInitrd (initrdBlob longTree)).val = some none) ∧
    (WellFormed (initrdBlob emptyTree) emptyTree ∧
      lookupNumber (emptyTree.propsOf (asciiName "chosen")) (asciiName "linux,initrd-start") = some 16 ∧
      lookupNumber (emptyTree.propsOf (asciiName "chosen")) (asciiName "linux,initrd-end") = some 16 ∧
      (fdtGetInitrd (initrdBlob emptyTree)).val = some none) := by
  refine ⟨⟨?_, by decide +kernel, by decide +kernel⟩, ⟨?_, by decide +kernel, by decide +kernel⟩, ?_, by decide +kernel,
    by rfl, by rfl⟩
  · exact wellFormed_of_check (q := 296) (by decide +kernel) (by decide +kernel) (by decide +kernel)
  · exact wellFormed_of_check (q := 184) (by decide +kernel) (by decide +kernel) (by decide +kernel)
  · exact wellFormed_of_check (q := 104) (by decide) (by decide) (by decide)

end Sample

end HouseKernel.DeviceTree
