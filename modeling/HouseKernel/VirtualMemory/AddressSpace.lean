import HouseKernel.Lib.Radix
import HouseKernel.VirtualMemory.PageMap

/-! Address spaces that share one physical memory. The tables of every root form a forest;
what a root maps is read off its leaves. Each operation on page maps is given by what it does
to the leaves and to the forest, for paths on which no foreign descriptor lies. -/
namespace HouseKernel.VirtualMemory

open HouseKernel.Lib

/-- The indices that lead to the L3 table of an address. -/
def path (va : ℕ) : List ℕ := [l0Index va, l1Index va, l2Index va]

section Walk

variable (ram : Ram)

/-- The table `p` stands at the path `is` of the root `r`. -/
abbrev TableAt (m : Memory) (roots : Set ℕ) (r : ℕ) (is : List ℕ) (p : ℕ) : Prop :=
  Stands (userTable ram) 3 m.mem roots r is p

/-- The leaf descriptor of an address in a root; zero where a table is missing. -/
def leaf (m : Memory) (l0 va : ℕ) : Desc :=
  match walk (userTable ram) m.mem l0 (path va) with
  | none => 0#64
  | some l3 => m.peek l3 (l3Index va)

/-- The page that a root maps at an address. -/
def userPage (m : Memory) (l0 va : ℕ) : Option PageInfo :=
  if validVAddr va then descToPageInfo (leaf ram m l0 va) else none

/-- The marker that a root holds at an address. -/
def userMarker (m : Memory) (l0 va : ℕ) : Option Bool :=
  if validVAddr va && va % 4096 = 0 then
    match userPage ram m l0 va with
    | some _ => none
    | none => if isDemandDesc (leaf ram m l0 va) then some (demandWritable (leaf ram m l0 va)) else none
  else none

/-- Every descriptor that the walk along `is` reads is invalid or a user table. -/
def ClearPath (m : Memory) (l0 : ℕ) (is : List ℕ) : Prop :=
  ∀ js i q, js ++ [i] <+: is → walk (userTable ram) m.mem l0 js = some q →
    tableFromDesc (m.peek q i) = userTable ram (m.peek q i)

/-- Inner descriptors carry an address and the table flag, nothing else. -/
def Tidy (m : Memory) (roots : Set ℕ) : Prop :=
  ∀ {r js q i c}, TableAt ram m roots r js q → js.length < 3 → i < 512 →
    userTable ram (m.mem (q + 8*i)) = some c → m.mem (q + 8*i) = descFromTable c

end Walk

variable {ram : Ram} {m : Memory} {l0 va : ℕ}

lemma validVAddr_iff {va : ℕ} : validVAddr va = true ↔ 0x01000000 ≤ va ∧ va ≤ 0x1000000000 := by
  rw [validVAddr, Bool.and_eq_true, decide_eq_true_eq, decide_eq_true_eq]
  rfl

lemma index_lt (va : ℕ) : ∀ i ∈ path va, i < 512 := by
  intro i hi
  simp only [path, List.mem_cons, List.not_mem_nil, or_false] at hi
  obtain rfl | rfl | rfl := hi <;> exact Nat.mod_lt _ (by norm_num)

lemma l3Index_lt (va : ℕ) : l3Index va < 512 := Nat.mod_lt _ (by norm_num)

lemma l3Table_eq_walk (m : Memory) (l0 va : ℕ) : l3Table m l0 va = walk tableFromDesc m.mem l0 (path va) := by
  simp only [l3Table, path, walk, Memory.peek]
  cases tableFromDesc (m.mem (l0 + 8*l0Index va)) with
  | none => rfl
  | some l1 =>
    simp only [Option.bind_some]
    cases tableFromDesc (m.mem (l1 + 8*l1Index va)) with
    | none => rfl
    | some l2 => simp

/-- On a clear path the code's walk finds the root's own table. -/
theorem l3Table_of_clear (h : ClearPath ram m l0 (path va)) :
    l3Table m l0 va = walk (userTable ram) m.mem l0 (path va) := by
  rw [l3Table_eq_walk]
  exact walk_congr h

theorem getPage_of_clear (h : ClearPath ram m l0 (path va)) : getPage m l0 va = userPage ram m l0 va := by
  rw [getPage, userPage, l3Table_of_clear h, leaf]
  cases walk (userTable ram) m.mem l0 (path va) with
  | none => simp
  | some l3 => rfl

theorem getDemandPage_of_clear (h : ClearPath ram m l0 (path va)) :
    getDemandPage m l0 va = userMarker ram m l0 va := by
  rw [getDemandPage, userMarker, l3Table_of_clear h, userPage, leaf]
  by_cases hva : (validVAddr va && decide (va % 4096 = 0)) = true
  · simp only [Bool.and_eq_true, decide_eq_true_eq] at hva
    have hzero : isDemandDesc 0#64 = false := by decide
    cases walk (userTable ram) m.mem l0 (path va) with
    | none => simp [hva, hzero]
    | some l3 => cases hd : descToPageInfo (m.peek l3 (l3Index va)) <;> simp [hva, hd]
  · rw [if_neg hva, if_neg hva]

/-- Where a root has its table, every walk finds it. -/
lemma walk_of_userTable {mem : ℕ → Desc} {p q : ℕ} {is : List ℕ} (h : walk (userTable ram) mem p is = some q) :
    walk tableFromDesc mem p is = some q := by
  induction is generalizing p with
  | nil => exact h
  | cons i is ih =>
    obtain ⟨c, hc, hrest⟩ := Option.bind_eq_some_iff.mp h
    simp only [walk, tableFromDesc_of_userTable hc, Option.bind_some]
    exact ih hrest

lemma l3Table_of_walk {l3 : ℕ} (h : walk (userTable ram) m.mem l0 (path va) = some l3) : l3Table m l0 va = some l3 := by
  rw [l3Table_eq_walk]
  exact walk_of_userTable h

theorem getPage_of_walk {l3 : ℕ} (h : walk (userTable ram) m.mem l0 (path va) = some l3) :
    getPage m l0 va = userPage ram m l0 va := by
  rw [getPage, userPage, l3Table_of_walk h, leaf, h]

/-- A page that is mapped has its L3 table. -/
lemma userPage_table {info : PageInfo} (h : userPage ram m l0 va = some info) :
    ∃ l3, walk (userTable ram) m.mem l0 (path va) = some l3 ∧ descToPageInfo (m.peek l3 (l3Index va)) = some info := by
  unfold userPage leaf at h
  split_ifs at h with hva
  cases hw : walk (userTable ram) m.mem l0 (path va) with
  | none => simp [hw] at h
  | some l3 => exact ⟨l3, rfl, by simpa [hw] using h⟩

/-- A page with a marker has no mapping. -/
lemma userMarker_page {w : Bool} (h : userMarker ram m l0 va = some w) : userPage ram m l0 va = none := by
  cases hpage : userPage ram m l0 va with
  | none => rfl
  | some info => simp [userMarker, hpage] at h

/-- A marker lies in an L3 table. -/
lemma userMarker_table {w : Bool} (h : userMarker ram m l0 va = some w) : validVAddr va = true ∧ va % 4096 = 0 ∧
    ∃ l3, walk (userTable ram) m.mem l0 (path va) = some l3 ∧ descToPageInfo (m.peek l3 (l3Index va)) = none := by
  have hpage := userMarker_page h
  by_cases hva : (validVAddr va && decide (va % 4096 = 0)) = true
  · rw [userMarker, if_pos hva, hpage] at h
    simp only [Bool.and_eq_true, decide_eq_true_eq] at hva
    refine ⟨hva.1, hva.2, ?_⟩
    rw [userPage, if_pos hva.1] at hpage
    unfold leaf at h hpage
    cases hw : walk (userTable ram) m.mem l0 (path va) with
    | none =>
      rw [hw] at h
      dsimp only at h
      rw [show isDemandDesc 0#64 = false by decide] at h
      cases h
    | some l3 =>
      rw [hw] at hpage
      exact ⟨l3, rfl, hpage⟩
  · rw [userMarker, if_neg hva] at h
    cases h

/-- The host page of a mapping is a page below the output size. -/
lemma userPage_bound {info : PageInfo} (h : userPage ram m l0 va = some info) :
    info.physPage.toNat % 4096 = 0 ∧ info.physPage.toNat < 2^48 := by
  obtain ⟨l3, -, hdesc⟩ := userPage_table h
  exact mAddress_bound (descToPageInfo_physPage hdesc).2.2.2

lemma userPage_valid {info : PageInfo} (h : userPage ram m l0 va = some info) : validVAddr va = true := by
  unfold userPage at h
  split_ifs at h with hva
  exact hva

/-- The paths that follow `js` along `is`, one for each index. -/
def extensions (js : List ℕ) : List ℕ → List (List ℕ)
  | [] => []
  | i :: is => (js ++ [i]) :: extensions (js ++ [i]) is

lemma mem_extensions {js is ks : List ℕ} (h : ks ∈ extensions js is) : ks <+: js ++ is ∧ js.length < ks.length := by
  induction is generalizing js with
  | nil => simp [extensions] at h
  | cons i is ih =>
    rw [List.append_cons]
    obtain rfl | h := List.mem_cons.mp h
    · exact ⟨List.prefix_append _ _, by simp⟩
    · obtain ⟨hpre, hlen⟩ := ih h
      simp only [List.length_append, List.length_singleton] at hlen
      exact ⟨hpre, by omega⟩

/-- The paths along `is` at which a root has no table. -/
def missing (ram : Ram) (m : Memory) (r : ℕ) (js is : List ℕ) : List (List ℕ) :=
  (extensions js is).filter fun ks => (walk (userTable ram) m.mem r ks).isNone

/-- `ensureL3` is `ensureTable` along the path. -/
def ensurePath (m : Memory) (t : ℕ) : List ℕ → Option ℕ × Memory
  | [] => (some t, m)
  | i :: is => match ensureTable m t i with
    | (none, m) => (none, m)
    | (some c, m) => ensurePath m c is

lemma ensureL3_eq (hva : validVAddr va = true) : ensureL3 m l0 va = ensurePath m l0 (path va) := by
  simp only [ensureL3, hva, if_true, path, ensurePath]
  rcases ensureTable m l0 (l0Index va) with ⟨_ | l1, m1⟩
  · rfl
  dsimp only
  rcases ensureTable m1 l1 (l1Index va) with ⟨_ | l2, m2⟩
  · rfl
  dsimp only
  rcases ensureTable m2 l2 (l2Index va) with ⟨_ | l3, m3⟩ <;> rfl

/-- Where a root has its table, nothing is allocated. -/
theorem setPage_of_walk {l3 : ℕ} (hva : validVAddr va = true)
    (h : walk (userTable ram) m.mem l0 (path va) = some l3) (info : PageInfo) :
    setPage m l0 va (some info) = (true, m.poke l3 (l3Index va) (pageInfoToDesc info)) := by
  have key : ∀ (is : List ℕ) (p : ℕ), walk (userTable ram) m.mem p is = some l3 →
      ensurePath m p is = (some l3, m) := by
    intro is
    induction is with
    | nil =>
      rintro p ⟨⟩
      rfl
    | cons i is ih =>
      intro p h
      obtain ⟨c, hc, hrest⟩ := Option.bind_eq_some_iff.mp h
      have htab : tableFromDesc (m.peek p i) = some c := tableFromDesc_of_userTable hc
      simp only [ensurePath, ensureTable, htab]
      exact ih c hrest
  simp only [setPage, ensureL3_eq hva, key _ _ h]

/-- The memory after a fresh table was hung into slot `i` of `p`. -/
def hang (m : Memory) (p i c : ℕ) (rest : List ℕ) : Memory :=
  (zeroPage c { m with pool := rest }).poke p i (descFromTable c)

/-- What `ensureTable` can do at a slot that holds no foreign descriptor. -/
theorem ensureTable_cases {p i : ℕ} (h : tableFromDesc (m.peek p i) = userTable ram (m.peek p i)) :
    (∃ c, userTable ram (m.peek p i) = some c ∧ ensureTable m p i = (some c, m)) ∨
    (userTable ram (m.peek p i) = none ∧ m.pool = [] ∧ ensureTable m p i = (none, m)) ∨
    (∃ c rest, userTable ram (m.peek p i) = none ∧ m.pool = c :: rest ∧
      ensureTable m p i = (some c, hang m p i c rest)) := by
  unfold ensureTable
  rw [h]
  cases hu : userTable ram (m.peek p i) with
  | some c => exact Or.inl ⟨c, rfl, rfl⟩
  | none =>
    right
    cases hpool : m.pool with
    | nil => exact Or.inl ⟨rfl, rfl, by simp [allocPage, hpool]⟩
    | cons c rest => exact Or.inr ⟨c, rest, rfl, rfl, by simp [allocPage, hpool, hang]⟩

/-- The root `r` gained the tables `new` on pages from the pool, and its leaves apart no word
outside them changed. -/
structure Extends (ram : Ram) (roots : Set ℕ) (r : ℕ) (m m' : Memory) (new : List (List ℕ × ℕ)) : Prop where
  forest : Forest (userTable ram) 3 m'.mem roots m'.pool
  tables : ∀ {r' js q}, TableAt ram m' roots r' js q ↔ TableAt ram m roots r' js q ∨ (r' = r ∧ (js, q) ∈ new)
  pool : m.pool = new.map Prod.snd ++ m'.pool
  clear : ∀ {r' is}, r' ∈ roots → (∀ i ∈ is, i < 512) → is.length ≤ 3 → ClearPath ram m r' is → ClearPath ram m' r' is
  outside : ∀ {a}, (∀ r' js q, TableAt ram m roots r' js q → a < q ∨ q + 4096 ≤ a) →
    (∀ q ∈ m.pool, a < q ∨ q + 4096 ≤ a) → m'.mem a = m.mem a
  tidy : Tidy ram m roots → Tidy ram m' roots
  kept : ∀ {r' js q i}, TableAt ram m roots r' js q → js.length < 3 → i < 512 →
    tableFromDesc (m.mem (q + 8*i)) ≠ none → m'.mem (q + 8*i) = m.mem (q + 8*i)

/-- Tables were added, no leaf changed. -/
structure Grows (ram : Ram) (roots : Set ℕ) (r : ℕ) (m m' : Memory) (new : List (List ℕ × ℕ)) : Prop
    extends Extends ram roots r m m' new where
  leaves : ∀ {r' va}, r' ∈ roots → leaf ram m' r' va = leaf ram m r' va

/-- Two addresses with the same leaf. -/
def SamePage (va va' : ℕ) : Prop := path va = path va' ∧ l3Index va = l3Index va'

/-- The root `r` got the leaf `d` at `va`, and the tables `new` for it; no other leaf changed. -/
structure Sets (ram : Ram) (roots : Set ℕ) (r va : ℕ) (d : Desc) (m m' : Memory) (new : List (List ℕ × ℕ)) : Prop
    extends Extends ram roots r m m' new where
  leaf_self : leaf ram m' r va = d
  leaf_other : ∀ {r' va'}, r' ∈ roots → ¬ (r' = r ∧ SamePage va' va) → leaf ram m' r' va' = leaf ram m r' va'

lemma SamePage.symm {va va' : ℕ} (h : SamePage va va') : SamePage va' va := ⟨h.1.symm, h.2.symm⟩

lemma SamePage.leaf_eq {va va' : ℕ} (h : SamePage va va') (r : ℕ) :
    leaf ram m r va = leaf ram m r va' := by
  rw [leaf, leaf, h.1, h.2]

lemma samePage_iff {va va' : ℕ} (h : validVAddr va = true) (h' : validVAddr va' = true) :
    SamePage va va' ↔ va / 4096 = va' / 4096 := by
  rw [validVAddr_iff] at h h'
  simp only [SamePage, path, l0Index, l1Index, l2Index, l3Index, List.cons.injEq, and_true]
  omega

theorem Extends.trans {roots : Set ℕ} {r : ℕ} {m₁ m₂ m₃ : Memory} {new new' : List (List ℕ × ℕ)}
    (h : Extends ram roots r m₁ m₂ new) (h' : Extends ram roots r m₂ m₃ new') :
    Extends ram roots r m₁ m₃ (new ++ new') := by
  refine ⟨h'.forest, ?_, ?_, ?_, ?_, fun ht => h'.tidy (h.tidy ht), ?_⟩
  · intro r' js q
    rw [h'.tables, h.tables, List.mem_append]
    tauto
  · rw [h.pool, h'.pool, List.map_append, List.append_assoc]
  · intro r' is hr' hidx hshort hclear
    exact h'.clear hr' hidx hshort (h.clear hr' hidx hshort hclear)
  · intro a htab hpl
    rw [h'.outside ?_ ?_, h.outside htab hpl]
    · intro r' js q hq
      obtain hq | ⟨-, hq⟩ := h.tables.mp hq
      · exact htab r' js q hq
      · refine hpl q ?_
        rw [h.pool]
        exact List.mem_append_left _ (List.mem_map.mpr ⟨_, hq, rfl⟩)
    · intro q hq
      refine hpl q ?_
      rw [h.pool]
      exact List.mem_append_right _ hq
  · intro r' js q i hq hlt hi hd
    have h1 := h.kept hq hlt hi hd
    rw [h'.kept (h.tables.mpr (Or.inl hq)) hlt hi (h1 ▸ hd), h1]

/-- Without new tables it does not matter which root was extended. -/
lemma Extends.of_nil {roots : Set ℕ} {r r' : ℕ} {m' : Memory} (h : Extends ram roots r m m' []) :
    Extends ram roots r' m m' [] := by
  refine ⟨h.forest, ?_, h.pool, h.clear, h.outside, h.tidy, h.kept⟩
  intro r'' js q
  rw [h.tables]
  simp

theorem Grows.refl {roots : Set ℕ} {r : ℕ} (hf : Forest (userTable ram) 3 m.mem roots m.pool) :
    Grows ram roots r m m [] :=
  ⟨⟨hf, by simp, by simp, fun _ _ _ h => h, fun _ _ => rfl, fun h => h, fun _ _ _ _ => rfl⟩, fun _ => rfl⟩

theorem Grows.trans {roots : Set ℕ} {r : ℕ} {m₁ m₂ m₃ : Memory} {new new' : List (List ℕ × ℕ)}
    (h : Grows ram roots r m₁ m₂ new) (h' : Grows ram roots r m₂ m₃ new') :
    Grows ram roots r m₁ m₃ (new ++ new') :=
  ⟨h.toExtends.trans h'.toExtends, fun hr' => (h'.leaves hr').trans (h.leaves hr')⟩

/-- Growing and then setting is setting. -/
theorem Grows.sets {roots : Set ℕ} {r : ℕ} {d : Desc} {m₁ m₂ m₃ : Memory} {new new' : List (List ℕ × ℕ)}
    (h : Grows ram roots r m₁ m₂ new) (h' : Sets ram roots r va d m₂ m₃ new') :
    Sets ram roots r va d m₁ m₃ (new ++ new') :=
  ⟨h.toExtends.trans h'.toExtends, h'.leaf_self, fun hr' hne => (h'.leaf_other hr' hne).trans (h.leaves hr')⟩

section Hang

variable {roots : Set ℕ} {r p i c : ℕ} {is rest : List ℕ}

lemma hang_slot : (hang m p i c rest).mem (p + 8*i) = descFromTable c := by
  simp [hang, Memory.poke]

lemma hang_zero {j : ℕ} (hj : j < 512) (hne : c + 8*j ≠ p + 8*i) : (hang m p i c rest).mem (c + 8*j) = 0#64 := by
  simp only [hang, Memory.poke, zeroPage, Function.update_of_ne hne]
  rw [if_pos (by omega)]
  rfl

lemma hang_of_outside {a : ℕ} (ha : a < c ∨ c + 4096 ≤ a) (hne : a ≠ p + 8*i) :
    (hang m p i c rest).mem a = m.mem a := by
  simp only [hang, Memory.poke, zeroPage, Function.update_of_ne hne]
  rw [if_neg (by omega)]

theorem grows_hang (hf : Forest (userTable ram) 3 m.mem roots m.pool) (hpool : m.pool = c :: rest)
    (hvalid : validPage ram c = true) (hp : TableAt ram m roots r is p) (hlen : is.length < 3) (hi : i < 512)
    (hempty : userTable ram (m.peek p i) = none) (hinvalid : tableFromDesc (m.peek p i) = none) :
    Grows ram roots r m (hang m p i c rest) [(is ++ [i], c)] := by
  have hf' := hpool ▸ hf
  have hc := hf'.freeAligned List.mem_cons_self
  have hpc : p ≠ c := by
    rintro rfl
    exact hf'.apart hp List.mem_cons_self
  have hword : ∀ {j}, j < 512 → c + 8*j ≠ p + 8*i :=
    fun hj => word_ne hc (hf.aligned hp) hj hi (Or.inl hpc.symm)
  have hslot : userTable ram ((hang m p i c rest).mem (p + 8*i)) = some c := by
    rw [hang_slot]
    exact userTable_descFromTable hvalid
  have hnew : ∀ j < 512, userTable ram ((hang m p i c rest).mem (c + 8*j)) = none := by
    intro j hj
    rw [hang_zero hj (hword hj)]
    exact userTable_zero ram
  have hout : ∀ a, a < c ∨ c + 4096 ≤ a → a ≠ p + 8*i → (hang m p i c rest).mem a = m.mem a :=
    fun a ha hne => hang_of_outside ha hne
  have htables : ∀ {r' js q}, TableAt ram (hang m p i c rest) roots r' js q ↔
      TableAt ram m roots r' js q ∨ (r' = r ∧ js = is ++ [i] ∧ q = c) :=
    hf'.stands_graft hp hlen hi hempty hslot hnew fun a _ => hout a
  -- a word of an old table that is not the slot reads as before
  have hold : ∀ {r' js q j}, TableAt ram m roots r' js q → j < 512 → q + 8*j ≠ p + 8*i →
      (hang m p i c rest).mem (q + 8*j) = m.mem (q + 8*j) := by
    intro r' js q j hq hj hne
    refine hout _ (outside_page (hf.aligned hq) hc hj ?_) hne
    rintro rfl
    exact hf'.apart hq List.mem_cons_self
  refine ⟨⟨hf'.graft hp hlen hi hempty hslot hnew fun a _ => hout a, ?_, by simp [hpool, hang, Memory.poke, zeroPage],
    ?_, ?_, ?_, ?_⟩, ?_⟩
  · intro r' js q
    rw [htables]
    simp
  · intro r' is' hr' hidx hshort hclear js j q hpre hq
    have hmem : ∀ k ∈ js ++ [j], k ∈ is' := fun k hk => hpre.subset hk
    have hjs := hpre.length_le
    simp only [List.length_append, List.length_singleton] at hjs
    have hj : j < 512 := hidx j (hmem j (by simp))
    obtain hq' | ⟨-, -, rfl⟩ := htables.mp
        ⟨hr', fun k hk => hidx k (hmem k (by simp [hk])), by omega, hq⟩
    · by_cases hsame : q + 8*j = p + 8*i
      · have hdesc := validPage_bound hvalid
        rw [Memory.peek, hsame, hslot, hang_slot]
        exact tableFromDesc_descFromTable hdesc.1 hdesc.2
      · rw [Memory.peek, hold hq' hj hsame]
        exact hclear js j q hpre hq'.reach
    · rw [Memory.peek, hang_zero hj (hword hj), tableFromDesc_zero, userTable_zero]
  · intro a htab hpl
    refine hout a (hpl c (by simp [hpool])) ?_
    have := htab r is p hp
    omega
  · intro htidy r' js q j d hq hlt hj hd
    obtain hq' | ⟨-, -, rfl⟩ := htables.mp hq
    · by_cases hsame : q + 8*j = p + 8*i
      · rw [hsame, hslot] at hd
        rw [hsame, hang_slot, Option.some.inj hd]
      · rw [hold hq' hj hsame] at hd ⊢
        exact htidy hq' hlt hj hd
    · rw [hnew j hj] at hd
      cases hd
  · intro r' js q j hq hlt hj hd
    refine hold hq hj fun hsame => hd ?_
    rw [hsame]
    exact hinvalid
  · intro r' va hr'
    have hidx := index_lt va
    cases hw : walk (userTable ram) m.mem r' (path va) with
    | some l3 =>
      have hl3 : TableAt ram m roots r' (path va) l3 := ⟨hr', hidx, by simp [path], hw⟩
      have hne : l3 + 8*l3Index va ≠ p + 8*i := by
        refine word_ne (hf.aligned hl3) (hf.aligned hp) (l3Index_lt va) hi (Or.inl ?_)
        rintro rfl
        have := (hf.unique hl3 hp).2
        simp [← this, path] at hlen
      rw [leaf, leaf, hw, (htables.mpr (Or.inl hl3)).reach]
      exact hold hl3 (l3Index_lt va) hne
    | none =>
      cases hw' : walk (userTable ram) (hang m p i c rest).mem r' (path va) with
      | none => rw [leaf, leaf, hw, hw']
      | some l3 =>
        obtain hl3 | ⟨-, -, rfl⟩ := htables.mp ⟨hr', hidx, by simp [path], hw'⟩
        · simp [hl3.reach] at hw
        · rw [leaf, leaf, hw, hw']
          exact hang_zero (l3Index_lt va) (hword (l3Index_lt va))

end Hang

/-- A path that gained no table is missing where it was. -/
lemma Grows.missing_eq {roots : Set ℕ} {r : ℕ} {m' : Memory} {new : List (List ℕ × ℕ)} {js is : List ℕ}
    (h : Grows ram roots r m m' new) (hr : r ∈ roots) (hin : ∀ k ∈ js ++ is, k < 512)
    (hlen : js.length + is.length ≤ 3) (hnot : ∀ ks ∈ extensions js is, ∀ q, (ks, q) ∉ new) :
    missing ram m' r js is = missing ram m r js is := by
  refine List.filter_congr fun ks hks => ?_
  obtain ⟨hpre, -⟩ := mem_extensions hks
  have hshort := hpre.length_le
  rw [List.length_append] at hshort
  have hstand : ∀ {m' : Memory} {q}, walk (userTable ram) m'.mem r ks = some q → TableAt ram m' roots r ks q :=
    fun hq => ⟨hr, fun k hk => hin k (hpre.subset hk), by omega, hq⟩
  have hiff : ∀ q, walk (userTable ram) m'.mem r ks = some q ↔ walk (userTable ram) m.mem r ks = some q := by
    intro q
    constructor
    · intro hq
      obtain hold | ⟨-, hmem⟩ := h.tables.mp (hstand hq)
      · exact hold.reach
      · exact absurd hmem (hnot ks hks q)
    · intro hq
      exact (h.tables.mpr (Or.inl (hstand hq))).reach
  rw [Option.ext hiff]

/-- Walking and allocating along a clear path: exactly the missing tables are made, and the
walk fails only when the pool has too few pages for them. -/
theorem ensurePath_spec {roots : Set ℕ} {r t : ℕ} {js is : List ℕ}
    (hf : Forest (userTable ram) 3 m.mem roots m.pool) (hvalid : ∀ p ∈ m.pool, validPage ram p = true)
    (ht : TableAt ram m roots r js t) (hidx : ∀ i ∈ is, i < 512) (hlen : js.length + is.length ≤ 3)
    (hclear : ClearPath ram m r (js ++ is)) :
    ∃ new, Grows ram roots r m (ensurePath m t is).2 new ∧
      (∀ c, (ensurePath m t is).1 = some c → TableAt ram (ensurePath m t is).2 roots r (js ++ is) c ∧
        new.map Prod.fst = missing ram m r js is) ∧
      ((ensurePath m t is).1 = none ↔ m.pool.length < (missing ram m r js is).length) := by
  induction is generalizing m t js with
  | nil =>
    refine ⟨[], Grows.refl hf, ?_, by simp [ensurePath, missing, extensions]⟩
    rintro c ⟨⟩
    exact ⟨by simpa [ensurePath] using ht, by simp [missing, extensions]⟩
  | cons i is ih =>
    have hi : i < 512 := hidx i List.mem_cons_self
    have hidx' : ∀ k ∈ is, k < 512 := fun k hk => hidx k (List.mem_cons_of_mem _ hk)
    have hlen' : (js ++ [i]).length + is.length ≤ 3 := by
      simp only [List.length_append, List.length_cons, List.length_nil] at hlen ⊢
      omega
    have hjs : js.length < 3 := by
      simp only [List.length_append, List.length_singleton] at hlen'
      omega
    have happ : js ++ i :: is = (js ++ [i]) ++ is := List.append_cons js i is
    rw [happ] at hclear ⊢
    have hwalk : walk (userTable ram) m.mem r (js ++ [i]) = userTable ram (m.peek t i) := by
      rw [walk_concat, ht.reach]
      rfl
    have hslot := hclear js i t (List.prefix_append _ _) ht.reach
    obtain ⟨c, hc, hens⟩ | ⟨hc, hnil, hens⟩ | ⟨c, rest, hc, hpool, hens⟩ := ensureTable_cases hslot
    · have hmiss : missing ram m r js (i :: is) = missing ram m r (js ++ [i]) is := by
        simp [missing, extensions, hwalk, hc]
      simp only [ensurePath, hens, hmiss]
      exact ih hf hvalid (ht.child hjs hi hc) hidx' hlen' hclear
    · refine ⟨[], ?_, ?_, ?_⟩
      · simpa [ensurePath, hens] using Grows.refl hf
      · simp [ensurePath, hens]
      · simp [ensurePath, hens, hnil, missing, extensions, hwalk, hc]
    · have hcvalid : validPage ram c = true := hvalid c (by simp [hpool])
      have hgrow := grows_hang hf hpool hcvalid ht hjs hi hc (hslot.trans hc)
      have hpool' : (hang m t i c rest).pool = rest := rfl
      have hin : ∀ k ∈ (js ++ [i]) ++ is, k < 512 := by
        intro k hk
        rw [← happ] at hk
        obtain hk | hk := List.mem_append.mp hk
        · exact ht.index k hk
        · exact hidx k hk
      have hvalid' : ∀ p ∈ (hang m t i c rest).pool, validPage ram p = true := by
        rw [hpool']
        exact fun p hp => hvalid p (by simp [hpool, hp])
      have htab : TableAt ram (hang m t i c rest) roots r (js ++ [i]) c := hgrow.tables.mpr (by simp)
      have hclear' := hgrow.clear ht.root hin (by rw [List.length_append]; exact hlen') hclear
      -- the new table is empty, so what lies beyond it is missing before and after
      have hbeyond : missing ram (hang m t i c rest) r (js ++ [i]) is = missing ram m r (js ++ [i]) is := by
        refine hgrow.missing_eq ht.root hin hlen' fun ks hks q hmem => ?_
        have hlong := (mem_extensions hks).2
        simp only [List.mem_singleton, Prod.mk.injEq] at hmem
        rw [hmem.1] at hlong
        omega
      obtain ⟨new, hnew, hsome, hnone⟩ := ih hgrow.forest hvalid' htab hidx' hlen' hclear'
      have hmiss : missing ram m r js (i :: is) = (js ++ [i]) :: missing ram m r (js ++ [i]) is := by
        simp [missing, extensions, hwalk, hc]
      simp only [ensurePath, hens, hmiss]
      refine ⟨(js ++ [i], c) :: new, hgrow.trans hnew, fun d hd => ?_, ?_⟩
      · obtain ⟨h1, h2⟩ := hsome d hd
        exact ⟨h1, by rw [List.map_cons, h2, hbeyond]⟩
      · rw [hnone, hbeyond, hpool', hpool]
        simp

/-- Writing a leaf of a table that is there. -/
theorem sets_poke {roots : Set ℕ} {r l3 : ℕ} (hf : Forest (userTable ram) 3 m.mem roots m.pool)
    (ht : TableAt ram m roots r (path va) l3) (d : Desc) :
    Sets ram roots r va d m (m.poke l3 (l3Index va) d) [] := by
  have hinner : ∀ {r' js p i}, TableAt ram m roots r' js p → js.length < 3 → i < 512 →
      userTable ram ((m.poke l3 (l3Index va) d).mem (p + 8*i)) = userTable ram (m.mem (p + 8*i)) :=
    fun hp hlt hi => hf.leaf_write ht (by simp [path]) (l3Index_lt va) d hp hlt hi
  have htables : ∀ {r' js q}, TableAt ram (m.poke l3 (l3Index va) d) roots r' js q ↔ TableAt ram m roots r' js q :=
    stands_congr hinner
  have hword : ∀ {r' js p i}, TableAt ram m roots r' js p → i < 512 → ¬ (p = l3 ∧ i = l3Index va) →
      (m.poke l3 (l3Index va) d).mem (p + 8*i) = m.mem (p + 8*i) := by
    intro r' js p i hp hi hne
    exact Function.update_of_ne (word_ne (hf.aligned hp) (hf.aligned ht) hi (l3Index_lt va) (by tauto)) _ _
  have hupper : ∀ {r' js p i}, TableAt ram m roots r' js p → js.length < 3 → ¬ (p = l3 ∧ i = l3Index va) := by
    rintro r' js p i hp hlt ⟨rfl, -⟩
    have := (hf.unique hp ht).2
    simp [this, path] at hlt
  refine ⟨⟨hf.congr hinner, by simp [htables], by simp [Memory.poke], ?_, ?_, ?_, ?_⟩, ?_, ?_⟩
  · intro r' is hr' hidx hshort hclear js i q hpre hq
    have hmem : ∀ k ∈ js ++ [i], k ∈ is := fun k hk => hpre.subset hk
    have hlen := hpre.length_le
    simp only [List.length_append, List.length_singleton] at hlen
    have hstand := htables.mp ⟨hr', fun k hk => hidx k (hmem k (by simp [hk])), by omega, hq⟩
    rw [Memory.peek, hword hstand (hidx i (hmem i (by simp))) ?_]
    · exact hclear js i q hpre hstand.reach
    · exact hupper hstand (by omega)
  · intro a htab _
    refine Function.update_of_ne ?_ _ _
    have := htab r _ l3 ht
    have := l3Index_lt va
    omega
  · intro htidy r' js q j c hq hlt hj hc
    have hq' := htables.mp hq
    rw [hword hq' hj (hupper hq' hlt)] at hc ⊢
    exact htidy hq' hlt hj hc
  · intro r' js q j hq hlt hj _
    exact hword hq hj (hupper hq hlt)
  · rw [leaf, (htables.mpr ht).reach]
    simp [Memory.peek, Memory.poke]
  · intro r' va' hr' hne
    have hwalk : walk (userTable ram) (m.poke l3 (l3Index va) d).mem r' (path va') =
        walk (userTable ram) m.mem r' (path va') := by
      refine Option.ext fun q => ⟨fun hq => ?_, fun hq => ?_⟩
      · exact (htables.mp ⟨hr', index_lt va', by simp [path], hq⟩).reach
      · exact (htables.mpr ⟨hr', index_lt va', by simp [path], hq⟩).reach
    rw [leaf, leaf, hwalk]
    cases hq : walk (userTable ram) m.mem r' (path va') with
    | none => rfl
    | some q =>
      have hstand : TableAt ram m roots r' (path va') q := ⟨hr', index_lt va', by simp [path], hq⟩
      refine hword hstand (l3Index_lt va') ?_
      rintro ⟨rfl, hidx⟩
      obtain ⟨h1, h2⟩ := hf.unique hstand ht
      exact hne ⟨h1, h2, hidx⟩

/-- What `ensureL3` can do on a clear path. -/
theorem ensureL3_cases {roots : Set ℕ} {r : ℕ} (hf : Forest (userTable ram) 3 m.mem roots m.pool)
    (hvalid : ∀ p ∈ m.pool, validPage ram p = true) (hr : r ∈ roots) (hva : validVAddr va = true)
    (hclear : ClearPath ram m r (path va)) :
    (∃ l3 m' new, ensureL3 m r va = (some l3, m') ∧ Grows ram roots r m m' new ∧
      TableAt ram m' roots r (path va) l3 ∧ new.map Prod.fst = missing ram m r [] (path va) ∧
      (missing ram m r [] (path va)).length ≤ m.pool.length) ∨
    (∃ m' new, ensureL3 m r va = (none, m') ∧ Grows ram roots r m m' new ∧
      m.pool.length < (missing ram m r [] (path va)).length) := by
  obtain ⟨new, hgrow, hsome, hnone⟩ := ensurePath_spec hf hvalid (stands_nil.mpr ⟨hr, rfl⟩) (index_lt va)
    (by simp [path]) hclear
  rw [← ensureL3_eq hva] at hgrow hsome hnone
  rcases hens : ensureL3 m r va with ⟨_ | l3, m'⟩
  · rw [hens] at hgrow hnone
    exact Or.inr ⟨m', new, rfl, hgrow, hnone.mp rfl⟩
  · rw [hens] at hgrow hsome hnone
    obtain ⟨htab, hnew⟩ := hsome l3 rfl
    refine Or.inl ⟨l3, m', new, rfl, hgrow, htab, hnew, ?_⟩
    by_contra hlt
    have := hnone.mpr (by omega)
    cases this

/-- What `setPage` does to a page of a root on a clear path. -/
theorem setPage_cases {roots : Set ℕ} {r : ℕ} (hf : Forest (userTable ram) 3 m.mem roots m.pool)
    (hvalid : ∀ p ∈ m.pool, validPage ram p = true) (hr : r ∈ roots) (hva : validVAddr va = true)
    (hclear : ClearPath ram m r (path va)) (info : PageInfo) :
    (∃ m' new, setPage m r va (some info) = (true, m') ∧ Sets ram roots r va (pageInfoToDesc info) m m' new ∧
      new.map Prod.fst = missing ram m r [] (path va) ∧ (missing ram m r [] (path va)).length ≤ m.pool.length) ∨
    (∃ m' new, setPage m r va (some info) = (false, m') ∧ Grows ram roots r m m' new ∧
      m.pool.length < (missing ram m r [] (path va)).length) := by
  obtain ⟨l3, m', new, hens, hgrow, htab, hnew, hroom⟩ | ⟨m', new, hens, hgrow, hfull⟩ :=
    ensureL3_cases hf hvalid hr hva hclear
  · refine Or.inl ⟨m'.poke l3 (l3Index va) (pageInfoToDesc info), new, by simp only [setPage, hens], ?_, hnew, hroom⟩
    simpa using hgrow.sets (sets_poke hgrow.forest htab (pageInfoToDesc info))
  · exact Or.inr ⟨m', new, by simp only [setPage, hens], hgrow, hfull⟩

/-- `setDemandPage` on a clear path: it plants the marker, or leaves every leaf as it was. -/
theorem setDemandPage_cases {roots : Set ℕ} {r : ℕ} (hf : Forest (userTable ram) 3 m.mem roots m.pool)
    (hvalid : ∀ p ∈ m.pool, validPage ram p = true) (hr : r ∈ roots)
    (hclear : ClearPath ram m r (path va)) (w : Bool) :
    (∃ m' new, setDemandPage m r va w = (true, m') ∧ Sets ram roots r va (demandDesc w) m m' new ∧
      userPage ram m r va = none) ∨
    (∃ m' new, setDemandPage m r va w = (false, m') ∧ Grows ram roots r m m' new) := by
  by_cases hva : (validVAddr va && decide (va % 4096 = 0)) = true
  · have hv : validVAddr va = true := (Bool.and_eq_true _ _ ▸ hva).1
    obtain ⟨l3, m', new, hens, hgrow, htab, -, -⟩ | ⟨m', new, hens, hgrow, -⟩ := ensureL3_cases hf hvalid hr hv hclear
    · have hleaf : leaf ram m r va = m'.peek l3 (l3Index va) := by
        rw [← hgrow.leaves hr, leaf, htab.reach]
      cases hd : descToPageInfo (m'.peek l3 (l3Index va)) with
      | some info => exact Or.inr ⟨m', new, by simp [setDemandPage, hva, hens, hd], hgrow⟩
      | none =>
        refine Or.inl ⟨m'.poke l3 (l3Index va) (demandDesc w), new, by simp [setDemandPage, hva, hens, hd], ?_, ?_⟩
        · simpa using hgrow.sets (sets_poke hgrow.forest htab (demandDesc w))
        · rw [userPage, hleaf, hd, ite_self]
    · exact Or.inr ⟨m', new, by simp [setDemandPage, hva, hens], hgrow⟩
  · exact Or.inr ⟨m, [], by simp [setDemandPage, hva], Grows.refl hf⟩

/-- The addresses under a slot that every root shares with the kernel. -/
def Platform.kernelWindow (pf : Platform) (va : ℕ) : Prop :=
  (l1Index va ≠ 0 ∧ pf.l1Low (l1Index va) ≠ 0) ∨ (l1Index va = 0 ∧ (l2Index va = 64 ∨ l2Index va = 72))

instance (pf : Platform) (va : ℕ) : Decidable (pf.kernelWindow va) :=
  inferInstanceAs (Decidable (_ ∨ _))

/-- A descriptor of a block of memory. -/
def isBlock (d : Desc) : Prop := d.getLsbD 0 = true ∧ d.getLsbD 1 = false

/-- On the way to `va` the L1 or the L2 table of `r` holds a block. -/
def BlockOn (ram : Ram) (m : Memory) (roots : Set ℕ) (r va : ℕ) : Prop :=
  ∃ js i q, js ≠ [] ∧ js ++ [i] <+: path va ∧ TableAt ram m roots r js q ∧ isBlock (m.mem (q + 8*i))

/-- Address spaces as the supervisor keeps them: tables in a forest, foreign descriptors only
in the kernel's slots, and pages mapped only outside these and never on a table or a free page. -/
structure Spaces (pf : Platform) (roots : Set ℕ) (m : Memory) : Prop where
  forest : Forest (userTable pf.toRam) 3 m.mem roots m.pool
  pool : ∀ p ∈ m.pool, validPage pf.toRam p = true
  clear : ∀ {r va}, r ∈ roots → ¬ pf.kernelWindow va → ClearPath pf.toRam m r (path va)
  user : ∀ {r va info}, r ∈ roots → userPage pf.toRam m r va = some info → ¬ pf.kernelWindow va
  data : ∀ {r va info}, r ∈ roots → userPage pf.toRam m r va = some info → info.physPage.toNat ∉ m.pool ∧
    ∀ r' js q, TableAt pf.toRam m roots r' js q → q ≠ info.physPage.toNat
  tidy : Tidy pf.toRam m roots
  slots : ∀ {r va}, r ∈ roots → validVAddr va = true → pf.kernelWindow va → BlockOn pf.toRam m roots r va

section Spaces

variable {pf : Platform} {roots : Set ℕ} {m' : Memory} {new : List (List ℕ × ℕ)} {r : ℕ}

lemma userPage_congr {r' va' : ℕ} (h : leaf ram m' r' va' = leaf ram m r' va') :
    userPage ram m' r' va' = userPage ram m r' va' := by
  rw [userPage, userPage, h]

lemma userMarker_congr {r' va' : ℕ} (h : leaf ram m' r' va' = leaf ram m r' va') :
    userMarker ram m' r' va' = userMarker ram m r' va' := by
  rw [userMarker, userMarker, userPage_congr h, h]

theorem Spaces.getPage_eq (h : Spaces pf roots m) (hr : r ∈ roots) (hva : ¬ pf.kernelWindow va) :
    getPage m r va = userPage pf.toRam m r va :=
  getPage_of_clear (h.clear hr hva)

/-- What extends the tables keeps pages off tables and free pages. -/
lemma Extends.data (h : Extends pf.toRam roots r m m' new) {k : ℕ} (hk : k ∉ m.pool)
    (htab : ∀ r' js q, TableAt pf.toRam m roots r' js q → q ≠ k) :
    k ∉ m'.pool ∧ ∀ r' js q, TableAt pf.toRam m' roots r' js q → q ≠ k := by
  have hpool := h.pool
  refine ⟨fun hmem => hk (hpool ▸ List.mem_append_right _ hmem), fun r' js q hq => ?_⟩
  obtain hq | ⟨-, hq⟩ := h.tables.mp hq
  · exact htab r' js q hq
  · rintro rfl
    exact hk (hpool ▸ List.mem_append_left _ (List.mem_map.mpr ⟨_, hq, rfl⟩))

lemma Extends.pool_valid (h : Extends pf.toRam roots r m m' new) (hv : ∀ p ∈ m.pool, validPage pf.toRam p = true) :
    ∀ p ∈ m'.pool, validPage pf.toRam p = true :=
  fun p hp => hv p (h.pool ▸ List.mem_append_right _ hp)

/-- A block stays where it is. -/
lemma Extends.slot (h : Extends pf.toRam roots r m m' new) {r' va : ℕ} (hs : BlockOn pf.toRam m roots r' va) :
    BlockOn pf.toRam m' roots r' va := by
  obtain ⟨js, i, q, hne, hpre, hq, hb⟩ := hs
  have hlen := hpre.length_le
  simp only [List.length_append, path, List.length_cons, List.length_nil] at hlen
  have hi : i < 512 := index_lt va i (hpre.subset (by simp))
  have hvalid : tableFromDesc (m.mem (q + 8*i)) ≠ none := by simp [tableFromDesc, bValid, hb.1]
  refine ⟨js, i, q, hne, hpre, h.tables.mpr (Or.inl hq), ?_⟩
  rw [h.kept hq (by omega) hi hvalid]
  exact hb

theorem Spaces.grows (h : Spaces pf roots m) (hg : Grows pf.toRam roots r m m' new) : Spaces pf roots m' where
  forest := hg.forest
  pool := hg.pool_valid h.pool
  clear hr hva := hg.clear hr (index_lt _) (by simp [path]) (h.clear hr hva)
  user hr hp := h.user hr (userPage_congr (hg.leaves hr) ▸ hp)
  data hr hp := by
    obtain ⟨h1, h2⟩ := h.data hr (userPage_congr (hg.leaves hr) ▸ hp)
    exact hg.data h1 h2
  tidy := hg.tidy h.tidy
  slots hr hva hk := hg.slot (h.slots hr hva hk)

/-- A new leaf keeps the address spaces in order when it maps nothing, or a page that is no
table and not free, at an address of the user's. -/
theorem Spaces.sets {d : Desc} (h : Spaces pf roots m) (hs : Sets pf.toRam roots r va d m m' new)
    (hd : ∀ info, descToPageInfo d = some info → ¬ pf.kernelWindow va ∧ info.physPage.toNat ∉ m.pool ∧
      ∀ r' js q, TableAt pf.toRam m roots r' js q → q ≠ info.physPage.toNat) : Spaces pf roots m' := by
  have hpage : ∀ {r' va' info}, r' ∈ roots → userPage pf.toRam m' r' va' = some info →
      userPage pf.toRam m r' va' = some info ∨ SamePage va' va ∧ descToPageInfo d = some info := by
    intro r' va' info hr' hp
    by_cases hsame : r' = r ∧ SamePage va' va
    · right
      obtain ⟨rfl, hsame⟩ := hsame
      refine ⟨hsame, ?_⟩
      rw [userPage, hsame.leaf_eq, hs.leaf_self] at hp
      split_ifs at hp
      exact hp
    · left
      rwa [← userPage_congr (hs.leaf_other hr' hsame)]
  refine ⟨hs.forest, hs.pool_valid h.pool, ?_, ?_, ?_, hs.tidy h.tidy, fun hr hva hk => hs.slot (h.slots hr hva hk)⟩
  · intro r' va' hr' hva'
    exact hs.clear hr' (index_lt _) (by simp [path]) (h.clear hr' hva')
  · intro r' va' info hr' hp
    obtain hold | ⟨⟨hpath, -⟩, hnew⟩ := hpage hr' hp
    · exact h.user hr' hold
    · simp only [path, List.cons.injEq, and_true] at hpath
      have := (hd info hnew).1
      rwa [Platform.kernelWindow, hpath.2.1, hpath.2.2]
  · intro r' va' info hr' hp
    obtain hold | ⟨-, hnew⟩ := hpage hr' hp
    · obtain ⟨h1, h2⟩ := h.data hr' hold
      exact hs.data h1 h2
    · obtain ⟨-, h1, h2⟩ := hd info hnew
      exact hs.data h1 h2

/-- Pages may be taken from the pool. -/
theorem Spaces.take {pool : List ℕ} (h : Spaces pf roots m) (hs : pool.Sublist m.pool) :
    Spaces pf roots { m with pool := pool } where
  forest := h.forest.subset (Set.Subset.refl _) hs
  pool p hp := h.pool p (hs.subset hp)
  clear := h.clear
  user := h.user
  data hr hp := ⟨fun hmem => (h.data hr hp).1 (hs.subset hmem), (h.data hr hp).2⟩
  tidy := h.tidy
  slots := h.slots

/-- A page that is no table, not free and mapped nowhere may be given back. -/
theorem Spaces.give {p : ℕ} (h : Spaces pf roots m) (hp : validPage pf.toRam p = true) (hfree : p ∉ m.pool)
    (htab : ∀ r js q, TableAt pf.toRam m roots r js q → q ≠ p)
    (hmap : ∀ {r va info}, r ∈ roots → userPage pf.toRam m r va = some info → info.physPage.toNat ≠ p) :
    Spaces pf roots (freePage p m) where
  forest := {
    aligned := h.forest.aligned
    unique := h.forest.unique
    apart := fun hq hmem => (List.mem_cons.mp hmem).elim (htab _ _ _ hq) (h.forest.apart hq)
    freeAligned := fun hmem => (List.mem_cons.mp hmem).elim (fun heq => heq ▸ (validPage_bound hp).1) h.forest.freeAligned
    nodup := List.nodup_cons.mpr ⟨hfree, h.forest.nodup⟩ }
  pool := List.forall_mem_cons.mpr ⟨hp, h.pool⟩
  clear := h.clear
  user := h.user
  data hr hq := ⟨fun hmem => (List.mem_cons.mp hmem).elim (hmap hr hq) (h.data hr hq).1, (h.data hr hq).2⟩
  tidy := h.tidy
  slots := h.slots

/-- A machine without address spaces. -/
theorem Spaces.empty (hnodup : m.pool.Nodup) (hvalid : ∀ p ∈ m.pool, validPage pf.toRam p = true) :
    Spaces pf ∅ m where
  forest := ⟨fun hs => absurd hs.root (Set.notMem_empty _), fun hs => absurd hs.root (Set.notMem_empty _),
    fun hs => absurd hs.root (Set.notMem_empty _), fun hp => (validPage_bound (hvalid _ hp)).1, hnodup⟩
  pool := hvalid
  clear hr := absurd hr (Set.notMem_empty _)
  user hr := absurd hr (Set.notMem_empty _)
  data hr := absurd hr (Set.notMem_empty _)
  tidy hs := absurd hs.root (Set.notMem_empty _)
  slots hr := absurd hr (Set.notMem_empty _)

/-- With three free pages a page can be set anywhere in the user's window. -/
theorem Spaces.setPage (h : Spaces pf roots m) (hr : r ∈ roots) (hva : validVAddr va = true)
    (hk : ¬ pf.kernelWindow va) (hroom : 3 ≤ m.pool.length) {info : PageInfo}
    (hphys : info.physPage &&& mAddress = info.physPage) (hfree : info.physPage.toNat ∉ m.pool)
    (htab : ∀ r' js q, TableAt pf.toRam m roots r' js q → q ≠ info.physPage.toNat) :
    (∃ new, Sets pf.toRam roots r va (pageInfoToDesc info) m (VirtualMemory.setPage m r va (some info)).2 new ∧
      new.length ≤ 3) ∧ Spaces pf roots (VirtualMemory.setPage m r va (some info)).2 := by
  have hle : (missing pf.toRam m r [] (path va)).length ≤ 3 := List.length_filter_le _ _
  obtain ⟨m', new, hset, hs, hnew, -⟩ | ⟨m', new, -, -, hlt⟩ :=
    setPage_cases h.forest h.pool hr hva (h.clear hr hk) info
  · rw [hset]
    refine ⟨⟨new, hs, ?_⟩, h.sets hs fun info' hinfo' => ?_⟩
    · have := congrArg List.length hnew
      rw [List.length_map] at this
      omega
    · obtain rfl := Option.some.inj (hinfo'.symm.trans (descToPageInfo_pageInfoToDesc hphys))
      exact ⟨hk, hfree, htab⟩
  · omega

end Spaces

end HouseKernel.VirtualMemory
