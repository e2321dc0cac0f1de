import HouseKernel.Userspace.UserBuffers
import HouseKernel.VirtualMemory.Reservations

/-! Unmapping a range: the leaves of its pages are cleared one after the other, their frames go back to the allocator, and the
reservations inside the range are dropped. -/
namespace HouseKernel.Userspace.Unmapping

open HouseKernel.Lib HouseKernel.VirtualMemory

/-- The table behind slot `i` of `t`, a table of the given level. A block is split first. -/
def nextTable (level : ℕ) (m : Memory) (t i : ℕ) : Option ℕ × Memory :=
  if m.peek t i &&& 1 = 0 then (none, m)
  else
    let (ok, m) := if level ≠ 0 ∧ m.peek t i &&& 2 = 0 then vmSplitSlot m (t + 8*i) level else (true, m)
    let c := (m.peek t i &&& ~~~0xFFF#64).toNat
    (if ok = true ∧ c ≠ 0 then some c else none, m)

def nextTables (m : Memory) (t : ℕ) : List (ℕ × ℕ) → Option ℕ × Memory
  | [] => (some t, m)
  | (level, i) :: rest => match nextTable level m t i with
    | (none, m) => (none, m)
    | (some c, m) => nextTables m c rest

/-- The slot of an address at the lowest level. -/
def vmL3Entry (m : Memory) (pdir va : ℕ) : Option ℕ × Memory :=
  if pdir = 0 ∨ pdir % 4096 ≠ 0 then (none, m)
  else match nextTables m pdir [(0, l0Index va), (1, l1Index va), (2, l2Index va)] with
    | (none, m) => (none, m)
    | (some l3, m) => (some (l3 + 8*l3Index va), m)

/-- What is no page of the allocator's is ignored. `link` is what the list of free pages keeps in a page. -/
def buddyFreePage (ram : Ram) (link : ℕ → Desc) (p : ℕ) (m : Memory) : Memory :=
  if buddyContains ram p then freePage p { m with mem := Function.update m.mem p (link p) } else m

/-- The page of a leaf as the loop reads it: all bits above the page offset. -/
def leafPage (d : Desc) : ℕ := (d &&& ~~~0xFFF#64).toNat

/-- One round of the loop, with the leaf that it clears. -/
def unmapPage (ram : Ram) (link : ℕ → Desc) (pdir va : ℕ) (m : Memory) : List Desc × Memory :=
  match vmL3Entry m pdir va with
  | (none, m) => ([], m)
  | (some slot, m) =>
    let d := m.mem slot
    if d &&& 1 = 0 then ([], m)
    else
      let m := { m with mem := Function.update m.mem slot 0 }
      ([d], if isDeviceDesc d then m else buddyFreePage ram link (leafPage d) m)

def unmapPages (ram : Ram) (link : ℕ → Desc) (pdir : ℕ) : ℕ → ℕ → Memory → List Desc × Memory
  | 0, _, m => ([], m)
  | n+1, va, m =>
    let (ds, m) := unmapPage ram link pdir va m
    let (rest, m) := unmapPages ram link pdir n (va + 4096) m
    (ds ++ rest, m)

/-- The call with all that it changes, and the leaves that it clears. -/
def houseVmMunmap (ram : Ram) (link : ℕ → Desc) (pdir addr len : ℕ) (m : Memory) (s : VmTable) :
    Except Errno (List Desc × Memory × VmTable) :=
  if addr = 0 then .ok ([], m, s)
  else do
    check (len ≠ 0) .einval
    let tmp ← addOr .einval len (vmPageSize - 1)
    let hi ← addOr .einval addr (tmp / vmPageSize * vmPageSize)
    if houseUserVaMin ≤ addr ∧ hi ≤ houseUserVaMax + 1 then
      let (ds, m) := unmapPages ram link pdir ((hi - addr) / vmPageSize) addr m
      pure (ds, m, { s with resv := vmRelease ⟨addr, hi⟩ s.resv })
    else
      let range : Option Span := (checkedAdd len (mblock - 1)).bind fun tmp2 =>
        (checkedAdd addr (tmp2 / mblock * mblock)).map fun hi2 => ⟨addr, hi2⟩
      pure ([], m, { s with resv := range.elim s.resv fun range => vmRelease range s.resv })

/-- A call that is refused changes nothing. -/
def outcome (ram : Ram) (link : ℕ → Desc) (pdir addr len : ℕ) (m : Memory) (s : VmTable) : List Desc × Memory × VmTable :=
  (houseVmMunmap ram link pdir addr len m s).toOption.getD ([], m, s)

/-- How many pages the loop goes over: none outside the user's window. -/
def visits (addr len : ℕ) : ℕ :=
  if houseUserVaMin ≤ addr ∧ (unmapped addr len).hi ≤ houseUserVaMax + 1 then (len + (vmPageSize - 1)) / vmPageSize else 0

/-- The range whose reservations a call drops, and the range itself where it comes to none. -/
def dropRange (addr len : ℕ) : Span := (munmapRange addr len).toOption.join.getD ⟨addr, addr + len⟩

/-- The hardware translates the address. The tables know 48 bits of it. -/
def Mapped (m : Memory) (r va : ℕ) : Prop := va < 2^48 ∧ translate m r va ≠ none

/-- The frames of the leaves that name RAM. -/
def ramFrames (ds : List Desc) : List ℕ := (ds.filter fun d => !isDeviceDesc d).map fun d => (d &&& mAddress).toNat

/-- The pages of those that come back to the allocator. -/
def givenBack (ram : Ram) (ds : List Desc) : List ℕ :=
  ((ds.filter fun d => !isDeviceDesc d).filter fun d => buddyContains ram (leafPage d)).map leafPage

/-- What a range is unmapped for: nothing of it stays mapped, the allocator has the frames of the leaves that were cleared on
top of what it had, and the reservations inside the range are gone, and no others. -/
structure Unmaps (m : Memory) (s : VmTable) (r addr len : ℕ) (out : List Desc × Memory × VmTable) : Prop where
  gone : ∀ va, addr ≤ va → va < addr + len → ¬ Mapped out.2.1 r va
  returned : out.2.1.pool.Perm (ramFrames out.1 ++ m.pool)
  released : ∀ e, e ∈ out.2.2.resv ↔ e ∈ s.resv ∧ ¬ e.Within (dropRange addr len)

/-- The state before a call that unmaps its range. -/
structure Returnable (ram : Ram) (m : Memory) (s : VmTable) (r addr len : ℕ) : Prop where
  tables : ∀ k < visits addr len, TablesOnly m.mem r (path (addr + 4096*k))
  frames : ∀ k < visits addr len, ∀ d, PageAt m r (addr + 4096*k) d → isDeviceDesc d = false →
    buddyContains ram (leafPage d) = true
  rest : ∀ va, addr ≤ va → va < addr + len → addr / 4096 + visits addr len ≤ va / 4096 → ¬ Mapped m r va
  entries : match (munmapRange addr len).toOption.join with
    | some range => ∀ e ∈ skipped range s.resv, ¬ e.Within range
    | none => ∀ e ∈ s.resv, ¬ e.Within ⟨addr, addr + len⟩

section Blocks

variable {mem mem' : ℕ → Desc} {m : Memory} {r t va : ℕ} {is : List ℕ}

/-- The way meets no block: no word that the walk reads is one. -/
theorem tablesOnly_iff : TablesOnly mem t is ↔
    ∀ js j q, js ++ [j] <+: is → walk hwTable mem t js = some q → mem (q + 8*j) &&& 3 ≠ 1 := by
  induction is generalizing t with
  | nil => simp [TablesOnly]
  | cons i is ih =>
    constructor
    · rintro ⟨hi, his⟩ js j q hpre hq
      cases js with
      | nil =>
        obtain rfl : j = i := by simpa using hpre
        obtain rfl := Option.some.inj hq
        exact hi
      | cons k js =>
        rw [List.cons_append, List.cons_prefix_cons] at hpre
        obtain ⟨rfl, hpre⟩ := hpre
        obtain ⟨c, hc, hq⟩ := Option.bind_eq_some_iff.mp hq
        exact ih.mp (his c hc) js j q hpre hq
    · intro h
      refine ⟨h [] i t (by simp) rfl, fun c hc => ih.mpr fun js j q hpre hq => h (i :: js) j q ?_ ?_⟩
      · rw [List.cons_append, List.cons_prefix_cons]
        exact ⟨rfl, hpre⟩
      · rw [walk, hc]
        exact hq

lemma tablesOnly_of_walk {q : ℕ} (h : walk hwTable mem t is = some q) : TablesOnly mem t is := by
  induction is generalizing t with
  | nil => trivial
  | cons i is ih =>
    obtain ⟨c, hc, h⟩ := Option.bind_eq_some_iff.mp h
    refine ⟨?_, fun c' hc' => ?_⟩
    · rw [(hwTable_some hc).1]
      decide
    · obtain rfl : c = c' := Option.some.inj (hc.symm.trans hc')
      exact ih h

/-- Without a block on the way an address is translated by its leaf. -/
theorem translate_eq (h : TablesOnly m.mem r (path va)) :
    translate m r va = (walk hwTable m.mem r (path va)).bind fun l3 => output 0 (m.peek l3 (l3Index va)) va := by
  have hstep : ∀ {k t}, hwTable (m.mem (t + 8*indexAt (k+1) va)) = none → m.mem (t + 8*indexAt (k+1) va) &&& 3 ≠ 1 →
      translateSlot m.mem (k+1) (t + 8*indexAt (k+1) va) va = none := by
    intro k t hnone hblock
    rw [translateSlot, hnone]
    exact if_neg fun hd => hblock hd.2
  obtain ⟨h0, h⟩ := h
  rw [VirtualMemory.translate]
  simp only [path, walk]
  cases hc0 : hwTable (m.mem (r + 8*l0Index va)) with
  | none => exact hstep hc0 h0
  | some l1 =>
    obtain ⟨h1, h⟩ := h l1 hc0
    rw [← indexAt_l0] at hc0
    rw [translateSlot, hc0, Option.bind_some]
    cases hc1 : hwTable (m.mem (l1 + 8*l1Index va)) with
    | none => exact hstep hc1 h1
    | some l2 =>
      obtain ⟨h2, -⟩ := h l2 hc1
      rw [← indexAt_l1] at hc1
      simp only [Option.bind_some]
      rw [translateSlot, hc1]
      cases hc2 : hwTable (m.mem (l2 + 8*l2Index va)) with
      | none => exact hstep hc2 h2
      | some l3 =>
        rw [← indexAt_l2] at hc2
        simp only [Option.bind_some]
        rw [translateSlot, hc2]
        rfl

end Blocks

/-- The tables of a root, whatever is free. -/
abbrev Tables (m : Memory) (r : ℕ) : Prop := Formed { m with pool := [] } r []

section Tables

variable {m : Memory} {r t va : ℕ} {js : List ℕ} {is : List (ℕ × ℕ)}

lemma tables_of_formed {held : List ℕ} (h : Formed m r held) : Tables m r where
  forest := h.forest.subset le_rfl (List.nil_sublist _)
  pool := nofun
  root := h.root
  inner := h.inner
  lowest := h.lowest

lemma stands_path {l3 : ℕ} : Stands hwTable 3 m.mem {r} r (path va) l3 ↔ walk hwTable m.mem r (path va) = some l3 :=
  ⟨Stands.reach, fun h => ⟨rfl, index_lt va, le_rfl, h⟩⟩

/-- A table that the walk of an address comes through. -/
lemma stands_prefix {j q : ℕ} (hpre : js ++ [j] <+: path va) (hq : walk hwTable m.mem r js = some q) :
    Stands hwTable 3 m.mem {r} r js q ∧ js.length < 3 ∧ j < 512 := by
  have hlen := hpre.length_le
  have hin : ∀ k ∈ js ++ [j], k < 512 := fun k hk => index_lt va k (hpre.subset hk)
  simp only [List.length_append, path, List.length_cons, List.length_nil] at hlen
  exact ⟨⟨rfl, fun k hk => hin k (by simp [hk]), by omega, hq⟩, by omega, hin j (by simp)⟩

/-- A block on the way maps the address. -/
theorem translate_block (h : Tables m r) (hb : ¬ TablesOnly m.mem r (path va)) : translate m r va ≠ none := by
  simp only [tablesOnly_iff, not_forall, not_not] at hb
  obtain ⟨js, j, q, hpre, hwalk, hblock⟩ := hb
  obtain ⟨hq, hlen, hj⟩ := stands_prefix hpre hwalk
  have hnil : js ≠ [] := by
    rintro rfl
    obtain hzero | ⟨c, hdesc, -⟩ | ⟨htop, -⟩ := h.inner hq hlen hj
    · exact (invalid_and_three hzero).2 hblock
    · have h2 := (and_three_block hblock).2
      rw [hdesc] at h2
      exact (descFromTable_bits c).2 h2
    · exact htop rfl
  have hpos := List.length_pos_iff.mpr hnil
  obtain ⟨k, hk⟩ : ∃ k, 3 - js.length = k + 1 := ⟨2 - js.length, by omega⟩
  have hpath : js ++ [j] <+: indices 3 va := hpre.trans (List.prefix_append (path va) [l3Index va])
  rw [VirtualMemory.translate, translateSlot_descend hwalk hpath, hk, translateSlot, hwTable_block hblock,
    output, if_pos ⟨by omega, by
    rw [if_neg (by omega)]; exact hblock⟩]
  exact Option.some_ne_none _

/-- Past a table. -/
lemma nextTable_table {level i c : ℕ} (hdesc : m.mem (t + 8*i) = descFromTable c) (hpos : 0 < c) (ha : c % 4096 = 0)
    (hc : c < 2^48) : hwTable (m.mem (t + 8*i)) = some c ∧ nextTable level m t i = (some c, m) := by
  have hpeek : m.peek t i = descFromTable c := hdesc
  obtain ⟨h1, h2⟩ := descFromTable_bits c
  refine ⟨by rw [hdesc, hwTable_descFromTable ha hc], ?_⟩
  simp only [nextTable, hpeek, h1, h2, and_false, if_false, descFromTable_raw ha hc, true_and]
  rw [if_pos (by omega)]

/-- Where there is no block, the loop goes where the tables lead and changes nothing on the way. -/
lemma nextTables_walk (h : Tables m r) (ht : Stands hwTable 3 m.mem {r} r js t)
    (hlevels : is.map Prod.fst = List.range' js.length is.length) (hlen : js.length + is.length ≤ 3)
    (hi : ∀ k ∈ is.map Prod.snd, k < 512) (hb : TablesOnly m.mem t (is.map Prod.snd)) :
    nextTables m t is = (walk hwTable m.mem t (is.map Prod.snd), m) := by
  induction is generalizing t js with
  | nil => rfl
  | cons step is ih =>
    obtain ⟨level, i⟩ := step
    rw [List.map_cons, List.length_cons, List.range'_succ, List.cons.injEq] at hlevels
    obtain ⟨rfl, hlevels⟩ := hlevels
    rw [List.length_cons] at hlen
    rw [List.map_cons] at hi hb ⊢
    obtain ⟨hlt, hi⟩ := List.forall_mem_cons.mp hi
    obtain ⟨hb0, hb⟩ := hb
    obtain hzero | ⟨c, hdesc, hpos, ha, hc⟩ | ⟨-, hblock, -⟩ := h.inner ht (by omega) hlt
    · have hempty : m.peek t i &&& 1 = 0 := hzero
      simp only [nextTables, nextTable, hempty, if_true, walk, hwTable_invalid hzero, Option.bind_none]
    · obtain ⟨htable, hrun⟩ := @nextTable_table m t js.length i c hdesc hpos ha hc
      have hrest := ih (ht.child (by omega) hlt htable) (by rwa [List.length_append, List.length_singleton])
        (by rw [List.length_append, List.length_singleton]; omega) hi (hb c htable)
      simp only [nextTables, hrun, hrest, walk, htable, Option.bind_some]
    · exact absurd hblock hb0

end Tables

section Pool

variable {ram : Ram} {link : ℕ → Desc} {m : Memory} {r t i level slot va : ℕ} {is : List (ℕ × ℕ)} {ds : List Desc}

/-- A split takes a page, or finds none. -/
lemma vmSplitSlot_pool : (vmSplitSlot m slot level).2.pool.length ≤ m.pool.length ∧
    ((slot ≠ 0 ∧ (level = 1 ∨ level = 2) ∧ m.mem slot &&& 3 = 1) → vmSplitSlot m slot level = (false, m) ∨
      (vmSplitSlot m slot level).2.pool.length < m.pool.length) := by
  rw [vmSplitSlot]
  split_ifs with h0
  · exact ⟨le_rfl, fun _ => Or.inl rfl⟩
  · simp only
    split_ifs with hd
    · refine ⟨le_rfl, fun h => ?_⟩
      obtain ⟨h1, h2⟩ := and_three_block h.2.2
      exact (hd.elim h1 fun hne => hne h2).elim
    · cases hpool : m.pool with
      | nil =>
        simp only [allocPage, hpool]
        exact ⟨le_rfl, fun _ => Or.inl trivial⟩
      | cons c rest =>
        simp only [allocPage, hpool]
        exact ⟨by simp [fillTable, zeroPage], fun _ => Or.inr (by simp [fillTable, zeroPage])⟩

lemma nextTable_pool : (nextTable level m t i).2.pool.length ≤ m.pool.length := by
  rw [nextTable]
  split_ifs with _ hblock
  · exact le_rfl
  · exact vmSplitSlot_pool.1
  · exact le_rfl

lemma nextTables_pool : (nextTables m t is).2.pool.length ≤ m.pool.length := by
  induction is generalizing m t with
  | nil => exact le_rfl
  | cons step is ih =>
    obtain ⟨level, i⟩ := step
    have hstep := @nextTable_pool m t i level
    rw [nextTables]
    generalize nextTable level m t i = out at hstep
    obtain ⟨_ | c, m'⟩ := out
    · exact hstep
    · exact ih.trans hstep

/-- At a block the loop finds no page for a table, or the allocator has one less. -/
lemma nextTables_block {js : List ℕ} (h : Tables m r) (ht : Stands hwTable 3 m.mem {r} r js t)
    (hlevels : is.map Prod.fst = List.range' js.length is.length) (hlen : js.length + is.length ≤ 3)
    (hi : ∀ k ∈ is.map Prod.snd, k < 512) (hb : ¬ TablesOnly m.mem t (is.map Prod.snd)) :
    nextTables m t is = (none, m) ∨ (nextTables m t is).2.pool.length < m.pool.length := by
  induction is generalizing t js with
  | nil => exact absurd trivial hb
  | cons step is ih =>
    obtain ⟨level, i⟩ := step
    rw [List.map_cons, List.length_cons, List.range'_succ, List.cons.injEq] at hlevels
    obtain ⟨rfl, hlevels⟩ := hlevels
    rw [List.length_cons] at hlen
    rw [List.map_cons] at hi hb
    obtain ⟨hlt, hi⟩ := List.forall_mem_cons.mp hi
    obtain hzero | ⟨c, hdesc, hpos, ha, hc⟩ | ⟨htop, hblock, -⟩ := h.inner ht (by omega) hlt
    · refine absurd ⟨(invalid_and_three hzero).2, fun c hc => ?_⟩ hb
      rw [hwTable_invalid hzero] at hc
      cases hc
    · obtain ⟨htable, hrun⟩ := @nextTable_table m t js.length i c hdesc hpos ha hc
      simp only [nextTables, hrun]
      refine ih (ht.child (by omega) hlt htable) (by rwa [List.length_append, List.length_singleton])
        (by rw [List.length_append, List.length_singleton]; omega) hi fun hrest => hb ⟨?_, fun c' hc' => ?_⟩
      · rw [(hwTable_some htable).1]
        decide
      · obtain rfl : c = c' := Option.some.inj (htable.symm.trans hc')
        exact hrest
    · obtain ⟨h1, h2⟩ := and_three_block hblock
      have hne : js.length ≠ 0 := fun hnil => htop (List.length_eq_zero_iff.mp hnil)
      have hpos := h.table_pos ht
      have hpeek : m.peek t i = m.mem (t + 8*i) := rfl
      obtain ⟨-, hsplit⟩ := @vmSplitSlot_pool m js.length (t + 8*i)
      obtain hsplit | hsplit := hsplit ⟨by omega, by omega, hblock⟩
      · refine Or.inl ?_
        simp only [nextTables, nextTable, hpeek, h1, h2, hne, hsplit, ne_eq, not_false_eq_true, and_self, if_true, if_false,
          Bool.false_eq_true, false_and]
      · have hstep : (nextTable js.length m t i).2.pool.length < m.pool.length := by
          simp only [nextTable, hpeek, h1, h2, hne, ne_eq, not_false_eq_true, and_self, if_true, if_false]
          exact hsplit
        refine Or.inr ?_
        rw [nextTables]
        generalize nextTable js.length m t i = out at hstep
        obtain ⟨_ | c, m'⟩ := out
        · exact hstep
        · exact nextTables_pool.trans_lt hstep

lemma vmL3Entry_pool : (vmL3Entry m r va).2.pool.length ≤ m.pool.length := by
  have hwalk := @nextTables_pool m r [(0, l0Index va), (1, l1Index va), (2, l2Index va)]
  rw [vmL3Entry]
  split_ifs
  · exact le_rfl
  · generalize nextTables m r [(0, l0Index va), (1, l1Index va), (2, l2Index va)] = out at hwalk
    obtain ⟨_ | l3, m'⟩ := out
    · exact hwalk
    · exact hwalk

/-- A round gives back at most the frame of the leaf that it clears. -/
lemma unmapPage_pool : (unmapPage ram link r va m).2.pool.length ≤
    (vmL3Entry m r va).2.pool.length + (ramFrames (unmapPage ram link r va m).1).length := by
  rw [unmapPage]
  generalize vmL3Entry m r va = out
  obtain ⟨_ | slot, m'⟩ := out
  · simp
  · simp only
    split_ifs with hvalid hdev
    · simp
    · simp
    · simp only [ramFrames, hdev, List.filter_cons, Bool.not_false, if_true, List.filter_nil, List.map_cons, List.map_nil,
        List.length_singleton, buddyFreePage]
      split_ifs
      · simp [freePage]
      · simp

lemma ramFrames_append (ds es : List Desc) : ramFrames (ds ++ es) = ramFrames ds ++ ramFrames es := by
  simp [ramFrames]

lemma unmapPages_pool {n : ℕ} : (unmapPages ram link r n va m).2.pool.length ≤
    m.pool.length + (ramFrames (unmapPages ram link r n va m).1).length := by
  induction n generalizing va m with
  | zero => simp [unmapPages]
  | succ n ih =>
    have hstep := @unmapPage_pool ram link m r va
    have hwalk := @vmL3Entry_pool m r va
    have hrest := @ih (unmapPage ram link r va m).2 (va + 4096)
    simp only [unmapPages, ramFrames_append, List.length_append]
    omega

end Pool

/-- The tables after the leaves of some pages, given by their numbers, were cleared. -/
structure Cleared (m m' : Memory) (r : ℕ) (pages : Set ℕ) : Prop where
  tables : Tables m' r
  stands : ∀ {js q}, Stands hwTable 3 m'.mem {r} r js q ↔ Stands hwTable 3 m.mem {r} r js q
  inner : ∀ {js q j}, Stands hwTable 3 m.mem {r} r js q → js.length < 3 → j < 512 → m'.mem (q + 8*j) = m.mem (q + 8*j)
  invalid : ∀ {va l3}, va < 2^48 → va / 4096 ∈ pages → Stands hwTable 3 m.mem {r} r (path va) l3 →
    m'.mem (l3 + 8*l3Index va) &&& 1 = 0
  other : ∀ {va l3}, va < 2^48 → va / 4096 ∉ pages → Stands hwTable 3 m.mem {r} r (path va) l3 →
    m'.mem (l3 + 8*l3Index va) = m.mem (l3 + 8*l3Index va)

section Cleared

variable {m m' m'' : Memory} {r va : ℕ} {A B : Set ℕ}

/-- No leaf of these pages was valid. -/
lemma Cleared.refl (h : Tables m r) (hinvalid : ∀ {va l3}, va < 2^48 → va / 4096 ∈ A → Stands hwTable 3 m.mem {r} r (path va) l3 →
    m.mem (l3 + 8*l3Index va) &&& 1 = 0) : Cleared m m r A :=
  ⟨h, Iff.rfl, fun _ _ _ => rfl, hinvalid, fun _ _ _ => rfl⟩

lemma Cleared.trans (h : Cleared m m' r A) (h' : Cleared m' m'' r B) : Cleared m m'' r (A ∪ B) where
  tables := h'.tables
  stands := h'.stands.trans h.stands
  inner hq hlt hj := (h'.inner (h.stands.mpr hq) hlt hj).trans (h.inner hq hlt hj)
  invalid {va _} hva hin hl3 := by
    by_cases hB : va / 4096 ∈ B
    · exact h'.invalid hva hB (h.stands.mpr hl3)
    · rw [h'.other hva hB (h.stands.mpr hl3)]
      exact h.invalid hva (hin.resolve_right hB) hl3
  other hva hout hl3 := by
    rw [Set.mem_union, not_or] at hout
    exact (h'.other hva hout.2 (h.stands.mpr hl3)).trans (h.other hva hout.1 hl3)

lemma Cleared.walk_eq (h : Cleared m m' r A) : walk hwTable m'.mem r (path va) = walk hwTable m.mem r (path va) :=
  Option.ext fun _ => stands_path.symm.trans (h.stands.trans stands_path)

lemma Cleared.tablesOnly (h : Cleared m m' r A) : TablesOnly m'.mem r (path va) ↔ TablesOnly m.mem r (path va) := by
  rw [tablesOnly_iff, tablesOnly_iff]
  refine forall_congr' fun js => forall_congr' fun j => forall_congr' fun q => forall_congr' fun hpre => ?_
  constructor
  · intro hnew hq
    obtain ⟨hs, hlt, hj⟩ := stands_prefix hpre hq
    rw [← h.inner hs hlt hj]
    exact hnew (h.stands.mpr hs).reach
  · intro hold hq
    obtain ⟨hs, hlt, hj⟩ := stands_prefix hpre hq
    rw [h.inner (h.stands.mp hs) hlt hj]
    exact hold (h.stands.mp hs).reach

/-- The pages that were not cleared are those that there were. -/
lemma Cleared.pageAt (h : Cleared m m' r A) (hva : va < 2^48) {d : Desc} :
    PageAt m' r va d ↔ PageAt m r va d ∧ va / 4096 ∉ A := by
  rw [PageAt, PageAt, h.walk_eq]
  constructor
  · rintro ⟨l3, hwalk, hd, htype⟩
    have hout : va / 4096 ∉ A := by
      intro hin
      have hinvalid := h.invalid hva hin (stands_path.mpr hwalk)
      rw [Memory.peek] at hd
      rw [hd] at hinvalid
      exact (invalid_and_three hinvalid).1 htype
    refine ⟨⟨l3, hwalk, ?_, htype⟩, hout⟩
    rw [← hd, Memory.peek, Memory.peek, h.other hva hout (stands_path.mpr hwalk)]
  · rintro ⟨⟨l3, hwalk, hd, htype⟩, hout⟩
    refine ⟨l3, hwalk, ?_, htype⟩
    rw [← hd, Memory.peek, Memory.peek, h.other hva hout (stands_path.mpr hwalk)]

/-- What is mapped afterwards: what was, except behind the leaves that were cleared. -/
theorem Cleared.mapped_iff (h : Cleared m m' r A) (ht : Tables m r) :
    Mapped m' r va ↔ Mapped m r va ∧ (va / 4096 ∈ A → ¬ TablesOnly m.mem r (path va)) := by
  by_cases hva : va < 2^48
  · by_cases hb : TablesOnly m.mem r (path va)
    · rw [Mapped, Mapped, translate_eq hb, translate_eq (h.tablesOnly.mpr hb), h.walk_eq]
      cases hwalk : walk hwTable m.mem r (path va) with
      | none => simp
      | some l3 =>
        have hs := stands_path.mpr hwalk
        simp only [Option.bind_some, Memory.peek]
        by_cases hin : va / 4096 ∈ A
        · simp [output_invalid (h.invalid hva hin hs), hin, hb]
        · simp [h.other hva hin hs, hin]
    · have hold := translate_block ht hb
      have hnew := translate_block h.tables (h.tablesOnly.not.mpr hb)
      exact ⟨fun _ => ⟨⟨hva, hold⟩, fun _ => hb⟩, fun _ => ⟨hva, hnew⟩⟩
  · exact ⟨fun hm => absurd hm.1 hva, fun hm => absurd hm.1.1 hva⟩

end Cleared

section Loop

variable {ram : Ram} {link : ℕ → Desc} {m : Memory} {r va : ℕ}

/-- A page of the allocator's is where the descriptor says. -/
lemma leafPage_eq {d : Desc} (h : buddyContains ram (leafPage d) = true) : leafPage d = (d &&& mAddress).toNat := by
  simp only [buddyContains, Bool.and_eq_true, decide_eq_true_eq] at h
  have hlt : leafPage d < 2^48 := h.2.trans_le ram.bound.2
  have hpage : leafPage d = d.toNat / 2^12 % 2^52 * 2^12 := by
    rw [leafPage, show (~~~0xFFF#64 : Desc) = fieldMask 64 12 52 by decide]
    exact toNat_and_fieldMask (by norm_num) d
  rw [mAddress_toNat]
  rw [hpage] at hlt ⊢
  generalize d.toNat / 2^12 = n at hlt ⊢
  omega

lemma samePage_of_div {va' : ℕ} (h : va / 4096 = va' / 4096) : SamePage va va' := by
  simp only [SamePage, path, l0Index, l1Index, l2Index, l3Index, List.cons.injEq, and_true]
  omega

lemma div_of_samePage {va' : ℕ} (hva : va < 2^48) (hva' : va' < 2^48) (h : SamePage va va') : va / 4096 = va' / 4096 := by
  simp only [SamePage, path, l0Index, l1Index, l2Index, l3Index, List.cons.injEq, and_true] at h
  omega

/-- A page whose leaf is not valid counts as cleared. -/
lemma cleared_invalid (h : Tables m r) (hinvalid : ∀ l3, walk hwTable m.mem r (path va) = some l3 →
    m.mem (l3 + 8*l3Index va) &&& 1 = 0) : Cleared m m r {va / 4096} := by
  refine .refl h fun {va' l3} _ hin hl3 => ?_
  obtain ⟨hpath, hidx⟩ := samePage_of_div (Set.mem_singleton_iff.mp hin)
  rw [hpath] at hl3
  rw [hidx]
  exact hinvalid l3 hl3.reach

/-- A leaf is cleared. What is written besides lies in no table. -/
lemma cleared_leaf {m' : Memory} {l3 : ℕ} (h : Tables m r) (hva : va < 2^48) (hwalk : walk hwTable m.mem r (path va) = some l3)
    (hmem : ∀ {js q j}, Stands hwTable 3 m.mem {r} r js q → j < 512 →
      m'.mem (q + 8*j) = (m.poke l3 (l3Index va) 0).mem (q + 8*j)) : Cleared m m' r {va / 4096} := by
  have hs := stands_path.mpr hwalk
  have hf := h.forest
  obtain ⟨hpoke, hstands⟩ := h.poke hs rfl (l3Index_lt va) lowest_zero
  have hwrite : ∀ {js q j}, Stands hwTable 3 m.mem {r} r js q → j < 512 → ¬ (q = l3 ∧ j = l3Index va) →
      m'.mem (q + 8*j) = m.mem (q + 8*j) := by
    intro js q j hq hj hne
    rw [hmem hq hj]
    exact Function.update_of_ne (word_ne (hf.aligned hq) (hf.aligned hs) hj (l3Index_lt va) (by tauto)) _ _
  obtain ⟨hsame, hstands'⟩ := @Formed.same _ { m' with pool := [] } r [] [] hpoke (fun hq hj => hmem (hstands.mp hq) hj) nofun
    List.nodup_nil nofun
  refine ⟨hsame, hstands'.trans hstands, fun hq hlt hj => hwrite hq hj ?_, fun {va' q} _ hin hq => ?_,
    fun {va' _} hva' hout hq => hwrite hq (l3Index_lt va') ?_⟩
  · rintro ⟨rfl, -⟩
    have := (hf.unique hq hs).2
    rw [this] at hlt
    simp [path] at hlt
  · obtain ⟨hpath, hidx⟩ := samePage_of_div (Set.mem_singleton_iff.mp hin)
    rw [hpath] at hq
    obtain rfl : l3 = q := Option.some.inj (hwalk.symm.trans hq.reach)
    have hzero : (m.poke l3 (l3Index va) 0).mem (l3 + 8*l3Index va) = 0 := Function.update_self _ _ _
    rw [hidx, hmem hs (l3Index_lt va), hzero]
    decide
  · rintro ⟨rfl, hidx⟩
    exact hout (div_of_samePage hva' hva ⟨(hf.unique hq hs).2, hidx⟩)

/-- The slot that a round reads. -/
lemma vmL3Entry_walk (h : Tables m r) (hb : TablesOnly m.mem r (path va)) :
    vmL3Entry m r va = ((walk hwTable m.mem r (path va)).map fun l3 => l3 + 8*l3Index va, m) := by
  have h0 : Stands hwTable 3 m.mem {r} r [] r := stands_nil.mpr ⟨rfl, rfl⟩
  have hroot : ¬ (r = 0 ∨ r % 4096 ≠ 0) := by
    have := h.root
    have := h.forest.aligned h0
    omega
  have hrun : nextTables m r [(0, l0Index va), (1, l1Index va), (2, l2Index va)] = (walk hwTable m.mem r (path va), m) :=
    nextTables_walk h h0 rfl le_rfl (index_lt va) hb
  rw [vmL3Entry, if_neg hroot, hrun]
  cases walk hwTable m.mem r (path va) with
  | none => rfl
  | some l3 => rfl

/-- A round at a page that no block covers. -/
theorem unmapPage_cleared (h : Tables m r) (hva : va < 2^48) (hb : TablesOnly m.mem r (path va))
    (hown : ∀ d, PageAt m r va d → ∀ js, ¬ Stands hwTable 3 m.mem {r} r js (d &&& mAddress).toNat) :
    Cleared m (unmapPage ram link r va m).2 r {va / 4096} ∧ (∀ d, d ∈ (unmapPage ram link r va m).1 ↔ PageAt m r va d) ∧
      (unmapPage ram link r va m).2.pool = givenBack ram (unmapPage ram link r va m).1 ++ m.pool := by
  rw [unmapPage, vmL3Entry_walk h hb]
  cases hwalk : walk hwTable m.mem r (path va) with
  | none =>
    refine ⟨cleared_invalid h fun l3 hl3 => ?_, fun d => ⟨nofun, fun ⟨l3, hl3, _⟩ => ?_⟩, rfl⟩
    · rw [hwalk] at hl3
      cases hl3
    · rw [hwalk] at hl3
      cases hl3
  | some l3 =>
    simp only [Option.map_some]
    have hs := stands_path.mpr hwalk
    obtain hzero | ⟨htype, -⟩ := h.lowest hs rfl (l3Index_lt va)
    · rw [if_pos hzero]
      have hinvalid : ∀ q, walk hwTable m.mem r (path va) = some q → m.mem (q + 8*l3Index va) &&& 1 = 0 := by
        intro q hq
        obtain rfl : l3 = q := Option.some.inj (hwalk.symm.trans hq)
        exact hzero
      refine ⟨cleared_invalid h hinvalid, fun d => ⟨nofun, ?_⟩, rfl⟩
      rintro ⟨q, hq, rfl, htype⟩
      exact absurd htype (invalid_and_three (hinvalid q hq)).1
    · have hvalid : ¬ m.mem (l3 + 8*l3Index va) &&& 1 = 0 := fun hzero => (invalid_and_three hzero).1 htype
      have hpage : ∀ d, PageAt m r va d ↔ d = m.mem (l3 + 8*l3Index va) := by
        intro d
        constructor
        · rintro ⟨q, hq, rfl, -⟩
          obtain rfl : l3 = q := Option.some.inj (hwalk.symm.trans hq)
          rfl
        · rintro rfl
          exact ⟨l3, hwalk, rfl, htype⟩
      have hframe := hown _ ((hpage _).mpr rfl)
      rw [if_neg hvalid]
      generalize m.mem (l3 + 8*l3Index va) = d at hpage hframe
      refine ⟨?_, fun d' => by rw [List.mem_singleton, hpage], ?_⟩
      · refine cleared_leaf h hva hwalk fun {js q j} hq hj => ?_
        simp only [buddyFreePage]
        split_ifs with hdev hin
        · rfl
        · -- the allocator writes into the page that it gets back
          refine Function.update_of_ne ?_ _ _
          have hpa : leafPage d % 4096 = 0 := by
            simp only [buddyContains, Bool.and_eq_true, decide_eq_true_eq] at hin
            exact hin.1.1.2
          have hne : q ≠ leafPage d := by
            rintro rfl
            rw [leafPage_eq hin] at hq
            exact hframe js hq
          exact word_ne (h.forest.aligned hq) hpa hj (show 0 < 512 by norm_num) (Or.inl hne)
        · rfl
      · by_cases hdev : isDeviceDesc d = true
        · simp [givenBack, hdev]
        · by_cases hin : buddyContains ram (leafPage d) = true
          · simp [givenBack, buddyFreePage, freePage, hdev, hin]
          · simp [givenBack, buddyFreePage, hdev, hin]

/-- A round splits a block, and then the allocator has less than the round cleared, or it writes at most the leaf of its page. -/
theorem unmapPage_cases (h : Tables m r) (hva : va < 2^48)
    (hown : ∀ d, PageAt m r va d → ∀ js, ¬ Stands hwTable 3 m.mem {r} r js (d &&& mAddress).toNat) :
    (¬ TablesOnly m.mem r (path va) ∧ (unmapPage ram link r va m).2.pool.length <
      m.pool.length + (ramFrames (unmapPage ram link r va m).1).length) ∨
    (Cleared m (unmapPage ram link r va m).2 r {va / 4096} ∧ (∀ d, d ∈ (unmapPage ram link r va m).1 ↔ PageAt m r va d) ∧
      (unmapPage ram link r va m).2.pool = givenBack ram (unmapPage ram link r va m).1 ++ m.pool) := by
  by_cases hb : TablesOnly m.mem r (path va)
  · exact Or.inr (unmapPage_cleared h hva hb hown)
  · have h0 : Stands hwTable 3 m.mem {r} r [] r := stands_nil.mpr ⟨rfl, rfl⟩
    have hentry : vmL3Entry m r va = (none, m) ∨ (vmL3Entry m r va).2.pool.length < m.pool.length := by
      have hwalk := @nextTables_block m r r [(0, l0Index va), (1, l1Index va), (2, l2Index va)] [] h h0 rfl le_rfl
        (index_lt va) hb
      rw [vmL3Entry]
      split_ifs
      · exact Or.inl rfl
      · generalize nextTables m r [(0, l0Index va), (1, l1Index va), (2, l2Index va)] = out at hwalk
        obtain ⟨_ | l3, m'⟩ := out
        · exact hwalk
        · exact Or.inr (hwalk.resolve_left nofun)
    obtain hnone | hshort := hentry
    · have hrun : unmapPage ram link r va m = ([], m) := by rw [unmapPage, hnone]
      rw [hrun]
      refine Or.inr ⟨cleared_invalid h fun l3 hl3 => absurd (tablesOnly_of_walk hl3) hb, fun d => ⟨nofun, ?_⟩, rfl⟩
      rintro ⟨l3, hl3, -⟩
      exact absurd (tablesOnly_of_walk hl3) hb
    · have hround := @unmapPage_pool ram link m r va
      exact Or.inl ⟨hb, by omega⟩

/-- The rounds at `n` pages: one of them splits a block, and then the allocator has less than the loop cleared, or they write at
most the leaves of their pages. -/
theorem unmapPages_cases {n : ℕ} (h : Tables m r) (hva : ∀ k < n, va + 4096*k < 2^48)
    (hown : ∀ k < n, ∀ d, PageAt m r (va + 4096*k) d → ∀ js, ¬ Stands hwTable 3 m.mem {r} r js (d &&& mAddress).toNat) :
    ((∃ k < n, ¬ TablesOnly m.mem r (path (va + 4096*k))) ∧ (unmapPages ram link r n va m).2.pool.length <
      m.pool.length + (ramFrames (unmapPages ram link r n va m).1).length) ∨
    (Cleared m (unmapPages ram link r n va m).2 r {p | va / 4096 ≤ p ∧ p < va / 4096 + n} ∧
      (∀ d, d ∈ (unmapPages ram link r n va m).1 ↔ ∃ k < n, PageAt m r (va + 4096*k) d) ∧
      (unmapPages ram link r n va m).2.pool.Perm (givenBack ram (unmapPages ram link r n va m).1 ++ m.pool)) := by
  induction n generalizing va m with
  | zero =>
    refine Or.inr ⟨.refl h fun _ ⟨hlo, hhi⟩ _ => ?_, fun d => ⟨nofun, ?_⟩, List.Perm.refl _⟩
    · omega
    · rintro ⟨k, hk, -⟩
      exact absurd hk (Nat.not_lt_zero k)
  | succ n ih =>
    have hshift : ∀ k, va + 4096 + 4096*k = va + 4096*(k + 1) := fun k => by ring
    have hrest := @unmapPages_pool ram link (unmapPage ram link r va m).2 r (va + 4096) n
    have hround := @unmapPage_pool ram link m r va
    have hentry := @vmL3Entry_pool m r va
    simp only [unmapPages, ramFrames_append, List.length_append]
    obtain ⟨hb, hshort⟩ | ⟨hcleared, hleaves, hpool⟩ := @unmapPage_cases ram link m r va h (by simpa using hva 0 (by omega))
      (by simpa using hown 0 (by omega))
    · exact Or.inl ⟨⟨0, by omega, by simpa using hb⟩, by omega⟩
    · have hpage : ∀ k < n, ∀ d, PageAt (unmapPage ram link r va m).2 r (va + 4096 + 4096*k) d ↔
          PageAt m r (va + 4096*(k + 1)) d := by
        intro k hk d
        rw [hshift, hcleared.pageAt (hva (k + 1) (by omega)), and_iff_left]
        rw [Set.mem_singleton_iff]
        omega
      have htail := @ih (unmapPage ram link r va m).2 (va + 4096) hcleared.tables (fun k hk => by
        rw [hshift]
        exact hva (k + 1) (by omega))
        (fun k hk d hd js hs => hown (k + 1) (by omega) d ((hpage k hk d).mp hd) js (hcleared.stands.mp hs))
      obtain ⟨⟨k, hk, hb⟩, hshort⟩ | ⟨htail, hleaves', hpool'⟩ := htail
      · refine Or.inl ⟨⟨k + 1, by omega, ?_⟩, by omega⟩
        rwa [hshift, hcleared.tablesOnly] at hb
      · refine Or.inr ⟨?_, fun d => ?_, ?_⟩
        · have hset : {p | va / 4096 ≤ p ∧ p < va / 4096 + (n + 1)} =
              {va / 4096} ∪ {p | (va + 4096) / 4096 ≤ p ∧ p < (va + 4096) / 4096 + n} := by
            ext p
            simp only [Set.mem_ofPred_eq, Set.mem_union, Set.mem_singleton_iff]
            omega
          rw [hset]
          exact hcleared.trans htail
        · rw [List.mem_append, hleaves, hleaves']
          constructor
          · rintro (hd | ⟨k, hk, hd⟩)
            · exact ⟨0, by omega, by simpa using hd⟩
            · exact ⟨k + 1, by omega, (hpage k hk d).mp hd⟩
          · rintro ⟨k, hk, hd⟩
            cases k with
            | zero => exact Or.inl (by simpa using hd)
            | succ k => exact Or.inr ⟨k, by omega, (hpage k (by omega) d).mpr hd⟩
        · rw [hpool, ← List.append_assoc] at hpool'
          refine hpool'.trans (List.Perm.append_right _ ?_)
          simp only [givenBack, List.filter_append, List.map_append]
          exact List.perm_append_comm

end Loop

section Call

variable {ram : Ram} {link : ℕ → Desc} {m : Memory} {s : VmTable} {r addr len : ℕ}

/-- The pages that the loop goes over begin inside the range. -/
lemma visits_lt {k : ℕ} (hk : k < visits addr len) : addr + 4096*k < addr + len ∧ addr + 4096*k < 2^48 := by
  by_cases hwindow : houseUserVaMin ≤ addr ∧ (unmapped addr len).hi ≤ houseUserVaMax + 1
  · rw [visits, if_pos hwindow] at hk
    simp only [unmapped, houseUserVaMin, houseUserVaMax, vmPageSize] at hk hwindow
    omega
  · rw [visits, if_neg hwindow] at hk
    exact absurd hk (Nat.not_lt_zero k)

/-- What a call changes: the loop and the scan of the reservations. -/
theorem outcome_eq : outcome ram link r addr len m s = ((unmapPages ram link r (visits addr len) addr m).1,
    (unmapPages ram link r (visits addr len) addr m).2,
    { s with resv := (munmapRange addr len).toOption.join.elim s.resv fun range => vmRelease range s.resv }) := by
  have hzero : ¬ (houseUserVaMin ≤ addr ∧ (unmapped addr len).hi ≤ houseUserVaMax + 1) ∨ len = 0 → visits addr len = 0 := by
    rintro (hout | rfl)
    · exact if_neg hout
    · simp [visits, vmPageSize]
  have hrelease : ∀ range : Option Span,
      ((pure ([], m, { s with resv := range.elim s.resv fun range => vmRelease range s.resv }) :
      Except Errno (List Desc × Memory × VmTable)).toOption.getD ([], m, s)) = ((unmapPages ram link r 0 addr m).1,
      (unmapPages ram link r 0 addr m).2,
      { s with resv := (pure range : Except Errno (Option Span)).toOption.join.elim s.resv fun range =>
          vmRelease range s.resv }) :=
    fun _ => rfl
  rw [outcome, houseVmMunmap, munmapRange]
  by_cases h0 : addr = 0
  · rw [hzero (Or.inl (by simp [h0, houseUserVaMin])), if_pos h0, if_pos h0]
    rfl
  rw [if_neg h0, if_neg h0]
  by_cases hlen : len = 0
  · have herr : check (len ≠ 0) Errno.einval = .error .einval := if_neg (not_not.mpr hlen)
    rw [hzero (Or.inr hlen), herr]
    rfl
  have hcheck : check (len ≠ 0) Errno.einval = .ok () := check_eq hlen _
  rw [hcheck, ok_bind, ok_bind]
  by_cases htmp : len + (vmPageSize - 1) < 2^64
  · have hadd : addOr .einval len (vmPageSize - 1) = .ok (len + (vmPageSize - 1)) := addOr_ok.mpr ⟨htmp, rfl⟩
    rw [hadd, ok_bind, ok_bind]
    by_cases hhi : addr + (len + (vmPageSize - 1)) / vmPageSize * vmPageSize < 2^64
    · have hadd' : addOr .einval addr ((len + (vmPageSize - 1)) / vmPageSize * vmPageSize) =
          .ok (addr + (len + (vmPageSize - 1)) / vmPageSize * vmPageSize) := addOr_ok.mpr ⟨hhi, rfl⟩
      rw [hadd', ok_bind, ok_bind]
      by_cases hwindow : houseUserVaMin ≤ addr ∧ addr + (len + (vmPageSize - 1)) / vmPageSize * vmPageSize ≤ houseUserVaMax + 1
      · have hvisits : visits addr len = (len + (vmPageSize - 1)) / vmPageSize := if_pos hwindow
        rw [if_pos hwindow, if_pos hwindow, hvisits, Nat.add_sub_cancel_left, Nat.mul_div_cancel _ (by decide)]
        generalize unmapPages ram link r ((len + (vmPageSize - 1)) / vmPageSize) addr m = out
        obtain ⟨ds, m'⟩ := out
        rfl
      · rw [hzero (Or.inl hwindow), if_neg hwindow, if_neg hwindow]
        exact hrelease _
    · have herr : addOr .einval addr ((len + (vmPageSize - 1)) / vmPageSize * vmPageSize) = .error .einval := if_neg hhi
      rw [hzero (Or.inl ?_), herr]
      · rfl
      · simp only [unmapped, houseUserVaMax]
        omega
  · have herr : addOr .einval len (vmPageSize - 1) = .error .einval := if_neg htmp
    rw [hzero (Or.inl ?_), herr]
    · rfl
    · simp only [unmapped, houseUserVaMax, vmPageSize] at htmp ⊢
      omega

/-- The scan drops the reservations of its range exactly when it comes to each of them. -/
lemma released_iff : (∀ e, e ∈ (munmapRange addr len).toOption.join.elim s.resv (fun range => vmRelease range s.resv) ↔
    e ∈ s.resv ∧ ¬ e.Within (dropRange addr len)) ↔
    match (munmapRange addr len).toOption.join with
    | some range => ∀ e ∈ skipped range s.resv, ¬ e.Within range
    | none => ∀ e ∈ s.resv, ¬ e.Within ⟨addr, addr + len⟩ := by
  rw [dropRange]
  cases (munmapRange addr len).toOption.join with
  | none =>
    simp only [Option.elim_none, Option.getD_none]
    exact forall_congr' fun e => ⟨fun h he => (h.mp he).2, fun h => ⟨fun he => ⟨he, h he⟩, fun he => he.1⟩⟩
  | some range =>
    simp only [Option.elim_some, Option.getD_some, mem_vmRelease]
    constructor
    · intro h e he hin
      have hresv : e ∈ s.resv := by
        unfold skipped at he
        split_ifs at he
        · exact List.mem_of_getLast? he
        · cases he
      exact ((h e).mp ⟨hresv, fun hdrop => hdrop.2 he⟩).2 hin
    · intro h e
      exact and_congr_right fun _ => not_congr ⟨fun hdrop => hdrop.1, fun hin => ⟨hin, fun he => h e he hin⟩⟩

/-- As many pages come back as there were cleared only if the allocator takes each of them. -/
lemma givenBack_all {ds : List Desc} (h : (ramFrames ds).length ≤ (givenBack ram ds).length) :
    ∀ d ∈ ds, isDeviceDesc d = false → buddyContains ram (leafPage d) = true := by
  simp only [ramFrames, givenBack, List.length_map] at h
  intro d hd hdev
  exact List.length_filter_eq_length_iff.mp (le_antisymm (List.length_filter_le _ _) h) d
    (List.mem_filter.mpr ⟨hd, by simp [hdev]⟩)

/-- Where it takes them all, they are the frames. -/
lemma givenBack_eq {ds : List Desc} (h : ∀ d ∈ ds, isDeviceDesc d = false → buddyContains ram (leafPage d) = true) :
    givenBack ram ds = ramFrames ds := by
  have hall : ∀ d ∈ ds.filter (fun d => !isDeviceDesc d), buddyContains ram (leafPage d) = true := by
    intro d hd
    obtain ⟨hd, hdev⟩ := List.mem_filter.mp hd
    exact h d hd (by simpa using hdev)
  rw [givenBack, ramFrames, List.filter_eq_self.mpr hall]
  exact List.map_congr_left fun d hd => leafPage_eq (hall d hd)

end Call

/-- A page of the pager's is none that the allocator takes back. -/
theorem faultDesc_lost (ram : Ram) (page : ℕ) : buddyContains ram (leafPage (faultDesc page)) = false := by
  -- the execute-never bit of the leaf is read as part of the address
  have hbit : (leafPage (faultDesc page)).testBit 54 = true := by
    rw [leafPage, BitVec.testBit_toNat]
    simp [faultDesc]
  by_contra hin
  simp only [Bool.not_eq_false, buddyContains, Bool.and_eq_true, decide_eq_true_eq] at hin
  have hlt : leafPage (faultDesc page) < 2^54 := (hin.2.trans_le ram.bound.2).trans (by norm_num)
  rw [Nat.testBit_lt_two_pow hlt] at hbit
  cases hbit

/-- A call unmaps its range exactly when it splits no block, the allocator takes each page that it clears, no page of the range
that it leaves out is mapped, and the scan comes to each reservation of the range. -/
theorem unmaps_iff {ram : Ram} {link : ℕ → Desc} {m : Memory} {s : VmTable} {r addr len : ℕ} {held : List ℕ} (h : Formed m r held)
    (hown : ∀ k < visits addr len, ∀ d, PageAt m r (addr + 4096*k) d →
      ∀ js, ¬ Stands hwTable 3 m.mem {r} r js (d &&& mAddress).toNat) :
    Unmaps m s r addr len (outcome ram link r addr len m s) ↔ Returnable ram m s r addr len := by
  have ht := tables_of_formed h
  rw [outcome_eq]
  have hrun := @unmapPages_cases ram link m r addr (visits addr len) ht (fun k hk => (visits_lt hk).2) hown
  generalize unmapPages ram link r (visits addr len) addr m = out at hrun
  obtain ⟨ds, m'⟩ := out
  constructor
  · rintro ⟨hgone, hreturned, hreleased⟩
    have hlen := hreturned.length_eq
    rw [List.length_append] at hlen
    obtain ⟨-, hshort⟩ | ⟨hcleared, hleaves, hpool⟩ := hrun
    · simp only at hlen hshort
      omega
    · have hback := hpool.length_eq
      rw [List.length_append] at hback
      simp only at hlen hback
      have hall := @givenBack_all ram ds (by omega)
      refine ⟨fun k hk => ?_, fun k hk d hd hdev => hall d ((hleaves d).mpr ⟨k, hk, hd⟩) hdev, fun va hlo hhi hout => ?_,
        released_iff.mp hreleased⟩
      · -- the address of a block stays mapped
        obtain ⟨hlt, hva⟩ := visits_lt hk
        by_contra hb
        exact hgone _ (Nat.le_add_right _ _) hlt ((hcleared.mapped_iff ht).mpr ⟨⟨hva, translate_block ht hb⟩, fun _ => hb⟩)
      · exact fun hm => hgone va hlo hhi ((hcleared.mapped_iff ht).mpr ⟨hm, fun hin => absurd hin.2 (by omega)⟩)
  · rintro ⟨htables, hframes, hrest, hentries⟩
    obtain ⟨⟨k, hk, hb⟩, -⟩ | ⟨hcleared, hleaves, hpool⟩ := hrun
    · exact absurd (htables k hk) hb
    · have hall : ∀ d ∈ ds, isDeviceDesc d = false → buddyContains ram (leafPage d) = true := by
        intro d hd hdev
        obtain ⟨k, hk, hd⟩ := (hleaves d).mp hd
        exact hframes k hk d hd hdev
      refine ⟨fun va hlo hhi hm => ?_, by rwa [givenBack_eq hall] at hpool, released_iff.mpr hentries⟩
      obtain ⟨hm, hcover⟩ := (hcleared.mapped_iff ht).mp hm
      by_cases hout : addr / 4096 + visits addr len ≤ va / 4096
      · exact hrest va hlo hhi hout hm
      · have hle : addr / 4096 ≤ va / 4096 := Nat.div_le_div_right hlo
        have hpage : va / 4096 = (addr + 4096*(va / 4096 - addr / 4096)) / 4096 := by omega
        refine hcover ⟨hle, by omega⟩ ?_
        rw [(samePage_of_div hpage).1]
        exact htables _ (by omega)

/-- A page is in use. -/
def usePage (p : ℕ) (m : Memory) : Memory := { m with pool := m.pool.erase p }

/-- A page that was free is no table. -/
lemma formed_usePage {m : Memory} {r p : ℕ} (h : Formed m r []) (hp : p ∈ m.pool) :
    Formed (usePage p m) r [] ∧ ∀ js, ¬ Stands hwTable 3 (usePage p m).mem {r} r js p := by
  have hin : ∀ {q}, q ∈ m.pool → q ∈ m.pool ++ [] := fun hq => List.mem_append_left _ hq
  refine ⟨(@Formed.same m (usePage p m) r [] [] h (fun _ _ => rfl) (fun q hq => ?_) ?_ fun q hq =>
    h.pool q (List.mem_of_mem_erase hq)).1, fun js hs => h.forest.apart hs (hin hp)⟩
  · rw [List.append_nil] at hq
    have hq := hin (List.mem_of_mem_erase hq)
    exact ⟨h.forest.freeAligned hq, fun js hs => h.forest.apart hs hq⟩
  · have hnodup := h.forest.nodup
    rw [List.append_nil] at hnodup ⊢
    exact hnodup.erase _

section Sample

/-- The sample root with a page of the user's, whose frame is not free. -/
def ownedPage : Memory := usePage 0x50010000 crowdedPage

lemma ownedPage_formed : Formed ownedPage 0x50000000 [] ∧
    ∀ js, ¬ Stands hwTable 3 ownedPage.mem {0x50000000} 0x50000000 js 0x50010000 :=
  formed_usePage crowdedPage_built.formed (by decide +kernel)

/-- A call on one page and a part of another, which was not mapped. The reservation is larger than the range. -/
theorem unmaps_iff_page : Unmaps ownedPage ⟨[⟨0x10000000, 0x10100000⟩], 0⟩ 0x50000000 0x10000000 0x1800
    (outcome samplePlatform.toRam (fun _ => 0) 0x50000000 0x10000000 0x1800 ownedPage ⟨[⟨0x10000000, 0x10100000⟩], 0⟩) := by
  obtain ⟨hformed, htable⟩ := ownedPage_formed
  have hvisits : visits 0x10000000 0x1800 = 2 := by decide
  have hwalk : walk hwTable ownedPage.mem 0x50000000 (path 0x10000000) = some 0x50003000 := by decide +kernel
  have hpath : ∀ k < 2, path (0x10000000 + 4096*k) = path 0x10000000 := by
    intro k hk
    simp only [path, l0Index, l1Index, l2Index, List.cons.injEq, and_true]
    omega
  have hpage : ∀ k < 2, ∀ d, PageAt ownedPage 0x50000000 (0x10000000 + 4096*k) d → d = 0x50010F43 := by
    rintro k hk d ⟨l3, hl3, rfl, htype⟩
    rw [hpath k hk] at hl3
    obtain rfl : 0x50003000 = l3 := Option.some.inj (hwalk.symm.trans hl3)
    interval_cases k
    · decide +kernel
    · exact absurd htype (by decide +kernel)
  have hframe : ((0x50010F43 : Desc) &&& mAddress).toNat = 0x50010000 := by decide
  have hrange : (munmapRange 0x10000000 0x1800).toOption.join = some ⟨0x10000000, 0x10002000⟩ := by decide
  refine (unmaps_iff hformed fun k hk d hd => ?_).mpr ⟨fun k hk => ?_, fun k hk d hd _ => ?_, fun va hlo hhi hout => ?_, ?_⟩
  · rw [hvisits] at hk
    rw [hpage k hk d hd, hframe]
    exact htable
  · rw [hvisits] at hk
    rw [hpath k hk]
    exact tablesOnly_of_walk hwalk
  · rw [hvisits] at hk
    rw [hpage k hk d hd]
    decide
  · rw [hvisits] at hout
    omega
  · rw [hrange]
    intro e he
    have hskip : skipped ⟨0x10000000, 0x10002000⟩ [⟨0x10000000, 0x10100000⟩] = none := by decide
    rw [hskip] at he
    cases he

/-- The frame of a page of the pager's does not come back, and of two reservations inside the range one stays. -/
theorem unmaps_pager_page :
    (Built samplePlatform 0x50000000 crowdedFault ∧ ¬ Unmaps crowdedFault ⟨[], 0⟩ 0x50000000 0x10000000 4096
      (outcome samplePlatform.toRam (fun _ => 0) 0x50000000 0x10000000 4096 crowdedFault ⟨[], 0⟩)) ∧
    ¬ Unmaps crowdedRoot ⟨[⟨0x10000000, 0x10100000⟩, ⟨0x10100000, 0x10200000⟩], 0⟩ 0x50000000 0x10000000 0x200000
      (outcome samplePlatform.toRam (fun _ => 0) 0x50000000 0x10000000 0x200000 crowdedRoot
        ⟨[⟨0x10000000, 0x10100000⟩, ⟨0x10100000, 0x10200000⟩], 0⟩) := by
  refine ⟨⟨crowdedRoot_built.fault _ _ _, fun h => ?_⟩, fun h => ?_⟩
  · have hpool : (outcome samplePlatform.toRam (fun _ => 0) 0x50000000 0x10000000 4096 crowdedFault ⟨[], 0⟩).2.1.pool.length =
        crowdedFault.pool.length := by decide +kernel
    have hframes :
        (ramFrames (outcome samplePlatform.toRam (fun _ => 0) 0x50000000 0x10000000 4096 crowdedFault ⟨[], 0⟩).1).length =
        1 := by decide +kernel
    have hlen := h.returned.length_eq
    rw [List.length_append, hpool, hframes] at hlen
    omega
  · have hkept := (h.released ⟨0x10100000, 0x10200000⟩).mp ?_
    · exact hkept.2 (by decide)
    · rw [outcome_eq]
      decide

end Sample

end HouseKernel.Userspace.Unmapping
