import HouseKernel.DeviceTree.Memory
import HouseKernel.DeviceTree.Queries

/-! Where the queries read. The counts of the token loop are checked, and so are the names that the CPU and the ramdisk
queries compare; the RAM queries read seven bytes of every name, and the names of properties wherever they are said to be. -/
namespace HouseKernel.DeviceTree

open HouseKernel.Lib HouseKernel.Lib.Reads

variable {α ε : Type} {mem : ByteMem} {t e p n : ℕ}

section Names

variable {bs : List (BitVec 8)}

/-- A name ends before the blob does, and with it a comparison. -/
lemma NameLen.fits (h : NameLen mem t p n) (hin : p + n < t) (hlen : bs.length ≤ 65)
    (hbs : ∀ i < bs.length - 1, bs[i]? ≠ some 0) : Fits t mem p bs := by
  by_cases hn : n + 1 < bs.length
  · have hzero : mem (p+n) = 0 := h.stop.2 (by omega) hin
    refine fits_of_ne hin fun b hb heq => hbs n (by omega) ?_
    rw [hb, ← heq, hzero]
  · intro k hk _
    omega

/-- A name is at least as long as what it starts with. -/
lemma NameLen.le (h : NameLen mem t p n) (hin : p + n < t) (htext : TextAt mem p bs) (hbs : ∀ i < bs.length, bs[i]? ≠ some 0)
    (hlen : bs.length ≤ 65) : bs.length ≤ n := by
  by_contra hlt
  have hzero : mem (p+n) = 0 := h.stop.2 (by omega) hin
  have hget : bs[n]? = some bs[n] := List.getElem?_eq_getElem (by omega)
  refine hbs n (by omega) ?_
  rw [hget, ← textAt_get htext hget, hzero]

end Names

section Safe

variable {w : Walker ε} {s : ε}

/-- A query whose own reads stay inside wherever a scan can call it. -/
structure Safe (w : Walker ε) (mem : ByteMem) (t e : ℕ) : Prop where
  beginNode : ∀ {p n s}, NameLen mem t p n → p + n < t → (w.beginNode p s).Inside t ∧ (w.beginNode p s).Returns fun _ => True
  prop : ∀ {value len nameoff s}, value + len ≤ e →
    (w.prop value len nameoff s).Inside t ∧ (w.prop value len nameoff s).Returns fun _ => True

/-- Such a scan comes to its end, and reads nothing outside the blob. -/
theorem Safe.scan (h : Safe w mem t e) (ht : t ≤ fdtMaxSize) (he : e ≤ t) (s : ε) :
    (scan w mem t e p s).Inside t ∧ ∃ r, (scan w mem t e p s).val = some r := by
  have hkeeps : Keeps w mem t e (fun _ _ => True) fun _ => True := by
    refine ⟨fun _ _ hname hin => (h.beginNode hname hin).2, fun _ _ => trivial, fun _ hle _ => ?_, fun _ _ => trivial,
      fun _ _ => trivial⟩
    refine (h.prop hle).2.mono fun r _ => ?_
    cases r with
    | none => trivial
    | some s => trivial
  refine ⟨loop_inside_of (I := fun _ => True) (P := fun _ _ => True) (Q := fun _ _ => True) (fun x _ => ?_)
    (fun x _ => ?_) trivial, ?_⟩
  · obtain ⟨p, s⟩ := x
    refine (hkeeps.turn ht he trivial).mono fun r _ => ?_
    cases r with
    | inl y => exact ⟨trivial, trivial⟩
    | inr b => trivial
  · obtain ⟨p, s⟩ := x
    rw [turn_inside ht he]
    intro tok htok
    have hat := (readToken_spec mem p ht he).2.of_val htok
    cases hat with
    | beginNode hp hname hin => exact (h.beginNode hname hin).1
    | prop hle hoff => exact (h.prop hle).1
    | endNode hp => trivial
    | nop hp => trivial
    | halt ok => trivial
  · obtain ⟨r, hr, -⟩ := hkeeps.scan (p := p) (s := s) ht he trivial
    exact ⟨r, hr⟩

end Safe

section Cpu

lemma isCpuName_spec (h : NameLen mem t p n) (hin : p + n < t) :
    (isCpuName mem p).Inside t ∧ (isCpuName mem p).Returns fun _ => True := by
  have hfits : Fits t mem p ((text "cpu").map toByte) := h.fits hin (by decide) (by decide)
  unfold isCpuName
  rw [inside_bind_of val_startsWith, inside_startsWith, Returns, val_bind_of val_startsWith]
  by_cases htext : TextAt mem p ((text "cpu").map toByte)
  · have hlen : 3 ≤ n := h.le hin htext (by decide) (by decide)
    rw [if_pos (decide_eq_true htext), inside_bind_of val_byte, val_bind_of val_byte, inside_byte]
    split_ifs
    · exact ⟨⟨hfits, by omega, inside_pure _⟩, _, rfl, trivial⟩
    · rw [inside_bind_of val_byte, val_bind_of val_byte, inside_byte]
      exact ⟨⟨hfits, by omega, by omega, inside_pure _⟩, _, rfl, trivial⟩
  · rw [if_neg (by simpa using htext)]
    exact ⟨⟨hfits, inside_pure _⟩, _, rfl, trivial⟩

lemma cpuNode_spec (h : NameLen mem t p n) (hin : p + n < t) (st : CpuState) :
    (cpuNode mem p st).Inside t ∧ (cpuNode mem p st).Returns fun _ => True := by
  have hfits : Fits t mem p (cString "cpus") := h.fits hin (by decide) (by decide)
  obtain ⟨hcpu, b, hb, -⟩ := isCpuName_spec h hin
  unfold cpuNode
  by_cases hdepth : st.depth < 16
  · rw [if_pos hdepth, inside_bind_of val_startsWith, inside_startsWith, Returns, val_bind_of val_startsWith]
    by_cases hcpus : TextAt mem p (cString "cpus")
    · rw [if_pos (decide_eq_true hcpus)]
      exact ⟨⟨hfits, inside_pure _⟩, _, rfl, trivial⟩
    · rw [if_neg (by simpa using hcpus)]
      by_cases hchild : st.cpusDepth.map (· + 1) = some st.depth
      · rw [if_pos hchild, inside_bind_of hb, val_bind_of hb]
        split_ifs
        · exact ⟨⟨hfits, hcpu, inside_pure _⟩, _, rfl, trivial⟩
        · exact ⟨⟨hfits, hcpu, inside_pure _⟩, _, rfl, trivial⟩
      · rw [if_neg hchild]
        exact ⟨⟨hfits, inside_pure _⟩, _, rfl, trivial⟩
  · rw [if_neg hdepth]
    exact ⟨inside_pure _, _, rfl, trivial⟩

lemma cpuWalker_safe : Safe (cpuWalker mem) mem t e where
  beginNode {p n st} h hin := by
    obtain ⟨hnode, st', hst, -⟩ := cpuNode_spec h hin st
    simp only [cpuWalker]
    rw [inside_bind_of hst, Returns, val_bind_of hst]
    exact ⟨⟨hnode, inside_pure _⟩, _, rfl, trivial⟩
  prop _ := ⟨inside_pure _, _, rfl, trivial⟩

end Cpu

section Initrd

variable {offStrings sizeStrings value len nameoff : ℕ}

lemma initrdValue_spec (h : value + len ≤ t) (hlen : len = 4 ∨ len = 8) :
    (initrdValue mem value len).Inside t ∧ (initrdValue mem value len).Returns fun _ => True := by
  unfold initrdValue
  split_ifs with h8
  · rw [inside_bind_of val_be32, inside_bind_of val_be32, inside_be32, inside_be32]
    exact ⟨⟨by omega, by omega, inside_pure _⟩, _, rfl, trivial⟩
  · rw [inside_be32]
    exact ⟨by omega, _, rfl, trivial⟩

/-- The name of a property is only compared inside the strings, and only for a value that can be read. -/
lemma initrdName_spec (hstrings : offStrings + sizeStrings ≤ t) (ht : t ≤ fdtMaxSize) (want : String) :
    (initrdName mem offStrings sizeStrings len nameoff want).Inside t ∧
      (initrdName mem offStrings sizeStrings len nameoff want).Returns fun b => b = true → len = 4 ∨ len = 8 := by
  have hmax : fdtMaxSize < 2^32 - 1 := by decide
  unfold initrdName
  split_ifs with h
  · obtain ⟨hlen, hsize⟩ := h
    rw [checkedAdd_le (by omega)] at hsize
    exact ⟨inside_startsWith.mpr (fits_of_le (by omega)), _, val_startsWith, fun _ => hlen⟩
  · exact ⟨inside_pure _, _, rfl, fun hb => by cases hb⟩

lemma initrdProp_spec (hstrings : offStrings + sizeStrings ≤ t) (ht : t ≤ fdtMaxSize) (hvalue : value + len ≤ t)
    (st : InitrdState) :
    (initrdProp mem offStrings sizeStrings value len nameoff st).Inside t ∧
      (initrdProp mem offStrings sizeStrings value len nameoff st).Returns fun _ => True := by
  obtain ⟨h1, b1, hb1, hlen1⟩ := @initrdName_spec mem t offStrings sizeStrings len nameoff hstrings ht "linux,initrd-start"
  obtain ⟨h2, b2, hb2, hlen2⟩ := @initrdName_spec mem t offStrings sizeStrings len nameoff hstrings ht "linux,initrd-end"
  unfold initrdProp
  rw [inside_bind_of hb1, Returns, val_bind_of hb1]
  split_ifs with hstart
  · obtain ⟨h3, v, hv, -⟩ := @initrdValue_spec mem t value len hvalue (hlen1 hstart)
    rw [inside_bind_of hv, val_bind_of hv]
    exact ⟨⟨h1, h3, inside_pure _⟩, _, rfl, trivial⟩
  · rw [inside_bind_of hb2, val_bind_of hb2]
    split_ifs with hstop
    · obtain ⟨h3, v, hv, -⟩ := @initrdValue_spec mem t value len hvalue (hlen2 hstop)
      rw [inside_bind_of hv, val_bind_of hv]
      exact ⟨⟨h1, h2, h3, inside_pure _⟩, _, rfl, trivial⟩
    · exact ⟨⟨h1, h2, inside_pure _⟩, _, rfl, trivial⟩

lemma initrdWalker_safe (hstrings : offStrings + sizeStrings ≤ t) (ht : t ≤ fdtMaxSize) (he : e ≤ t) :
    Safe (initrdWalker mem offStrings sizeStrings) mem t e where
  beginNode {p n st} h hin := by
    have hname : (isChosenName mem p st.depth).Inside t ∧ (isChosenName mem p st.depth).Returns fun _ => True := by
      unfold isChosenName
      split_ifs
      · exact ⟨inside_startsWith.mpr (h.fits hin (by decide) (by decide)), _, val_startsWith, trivial⟩
      · exact ⟨inside_pure _, _, rfl, trivial⟩
    obtain ⟨hinside, b, hb, -⟩ := hname
    simp only [initrdWalker]
    rw [inside_bind_of hb, Returns, val_bind_of hb]
    exact ⟨⟨hinside, inside_pure _⟩, _, rfl, trivial⟩
  prop {value len nameoff st} hvalue := by
    obtain ⟨hinside, st', hst, -⟩ := @initrdProp_spec mem t offStrings sizeStrings value len nameoff hstrings ht (by omega) st
    simp only [initrdWalker]
    split_ifs
    · rw [inside_bind_of hst, Returns, val_bind_of hst]
      exact ⟨⟨hinside, inside_pure _⟩, _, rfl, trivial⟩
    · exact ⟨inside_pure _, _, rfl, trivial⟩

end Initrd

section Ram

variable {offStrings sizeStrings value len nameoff : ℕ} {read : ℕ → ℕ → ℕ → Reads ε}
  {add : α → ε → Option α} {acc : α} {st : MemNodes}

/-- What a turn of the RAM scans reads without a check is inside the blob: seven bytes of a node's name, and the name of a
property as far as it agrees with the one that it is compared with. -/
def TurnFits (mem : ByteMem) (t e offStrings sizeStrings p : ℕ) (st : MemNodes) : Prop :=
  match (readToken mem t e p).val with
  | some (.beginNode _) => p + 11 ≤ t
  | some (.prop _ len nameoff) =>
    let s := (offStrings + nameoff) % 2^32
    (st.depth = 1 ∧ nameoff < sizeStrings ∧ len = 4 → Fits t mem s (cString "#address-cells") ∧
      Fits t mem s (cString "#size-cells")) ∧
      (topFlag st.isMemory st.depth ∧ nameoff < sizeStrings → Fits t mem s (cString "reg"))
  | _ => True

/-- The reads of a bank stay in its cells. -/
structure ReadsCells (t : ℕ) (read : ℕ → ℕ → ℕ → Reads ε) : Prop where
  inside : ∀ {a s e}, e + (a + s)*4 ≤ t → (read a s e).Inside t
  returns : ∀ a s e, ∃ x, (read a s e).val = some x

lemma inside_cellsAt {cells : ℕ} (h : p + cells*4 ≤ t) : (cellsAt mem p cells).Inside t := by
  unfold cellsAt
  split_ifs
  · rw [inside_bind_of val_be32, inside_bind_of val_be32, inside_be32, inside_be32]
    exact ⟨by omega, by omega, inside_pure _⟩
  · rw [inside_be32]
    omega
  · exact inside_pure _

lemma sizeEntry_cells : ReadsCells t (sizeEntry mem) where
  inside h := inside_cellsAt (by omega)
  returns a s e := val_cellsAt mem _ _

lemma bankEntry_cells : ReadsCells t (bankEntry mem) where
  inside {a s e} h := by
    obtain ⟨addr, haddr⟩ := val_cellsAt mem e a
    obtain ⟨size, hsize⟩ := val_cellsAt mem (e + a*4) s
    rw [bankEntry, inside_bind_of haddr, inside_bind_of hsize]
    exact ⟨inside_cellsAt (by omega), inside_cellsAt (by omega), inside_pure _⟩
  returns := val_bankEntry mem

/-- The banks of a property lie inside its value. -/
lemma inside_readReg (hread : ReadsCells t read) (hvalue : value + len ≤ t) (hlen : len < 2^32 - 1) :
    (readReg read add value len st acc).Inside t := by
  simp only [readReg]
  split_ifs with hcells
  · refine loop_inside_of (I := fun _ => True) (P := fun _ _ => True) (Q := fun _ _ => True) (fun x _ => ?_)
      (fun x _ => ?_) trivial
    · obtain ⟨off, a⟩ := x
      obtain ⟨v, hv⟩ := hread.returns st.addrCells st.sizeCells (value + off)
      simp only [entryTurn]
      split_ifs
      · rw [Returns, val_bind_of hv]
        cases add a v with
        | none => exact ⟨_, rfl, trivial⟩
        | some a' => exact ⟨_, rfl, trivial, trivial⟩
      · exact ⟨_, rfl, trivial⟩
    · obtain ⟨off, a⟩ := x
      obtain ⟨v, hv⟩ := hread.returns st.addrCells st.sizeCells (value + off)
      simp only [entryTurn, checkedAdd_le hlen]
      split_ifs with hle
      · rw [inside_bind_of hv]
        refine ⟨hread.inside (by omega), ?_⟩
        cases add a v with
        | none => exact inside_pure _
        | some a' => exact inside_pure _
      · exact inside_pure _
  · exact inside_pure _

lemma inside_readCells {s : ℕ} (hvalue : value + 4 ≤ t) : (readCells mem s value st).Inside t ↔
    Fits t mem s (cString "#address-cells") ∧ Fits t mem s (cString "#size-cells") := by
  rw [readCells, inside_bind_of val_startsWith, inside_bind_of val_startsWith, inside_startsWith, inside_startsWith]
  refine and_congr_right fun _ => and_iff_left ?_
  split_ifs
  · rw [inside_bind_of val_be32, inside_be32]
    exact ⟨hvalue, inside_pure _⟩
  · rw [inside_bind_of val_be32, inside_be32]
    exact ⟨hvalue, inside_pure _⟩
  · exact inside_pure _

lemma inside_readRootProp {s : ℕ} (hvalue : value + len ≤ t) : (readRootProp mem sizeStrings s value len nameoff st).Inside t ↔
    (st.depth = 1 ∧ nameoff < sizeStrings ∧ len = 4 → Fits t mem s (cString "#address-cells") ∧
        Fits t mem s (cString "#size-cells")) := by
  unfold readRootProp
  split_ifs with h
  · rw [inside_readCells (by omega), imp_iff_right h]
  · exact iff_of_true (inside_pure _) fun h' => absurd h' h

/-- The cells of the root change neither the depth nor the flags. -/
lemma readRootProp_nodes {s : ℕ} {st' : MemNodes} (h : (readRootProp mem sizeStrings s value len nameoff st).val = some st') :
    st'.depth = st.depth ∧ st'.isMemory = st.isMemory := by
  unfold readRootProp readCells at h
  split_ifs at h
  · rw [val_bind_of val_startsWith, val_bind_of val_startsWith] at h
    split_ifs at h
    · obtain rfl := Option.some.inj h
      exact ⟨rfl, rfl⟩
    · obtain rfl := Option.some.inj h
      exact ⟨rfl, rfl⟩
    · obtain rfl := Option.some.inj h
      exact ⟨rfl, rfl⟩
  · obtain rfl := Option.some.inj h
    exact ⟨rfl, rfl⟩

lemma inside_isMemName : (isMemName mem p).Inside t ↔ p + 7 ≤ t := by
  simp only [isMemName, inside_bind_of val_byte, inside_byte, inside_pure, and_true]
  omega

/-- A turn of a RAM scan stays inside the blob exactly when what it does not check fits. -/
theorem mem_turn_inside (ht : t ≤ fdtMaxSize) (he : e ≤ t) (hread : ReadsCells t read) :
    (turn (memWalker mem offStrings sizeStrings read add) mem t e (p, st, acc)).Inside t ↔
        TurnFits mem t e offStrings sizeStrings p st := by
  have hmax : fdtMaxSize < 2^32 - 1 := by decide
  obtain ⟨-, tok, htok, hat⟩ := readToken_spec mem p ht he
  rw [turn_inside ht he, TurnFits, htok]
  simp only [Option.some.injEq, forall_eq']
  cases hat with
  | @beginNode n hp hname hin =>
    obtain ⟨b, hb⟩ := val_isMemName mem (p+4)
    simp only [memWalker]
    rw [inside_bind_of hb, inside_isMemName]
    exact and_iff_left (inside_pure _)
  | @prop len nameoff hle hoff =>
    obtain ⟨st', hst⟩ := val_readRootProp mem sizeStrings ((offStrings + nameoff) % 2^32) (p+12) len nameoff st
    obtain ⟨hdepth, hflags⟩ := readRootProp_nodes hst
    simp only [memWalker]
    rw [inside_bind_of hst, inside_readRootProp (by omega), hdepth, hflags]
    refine and_congr_right fun _ => ?_
    by_cases hmem : topFlag st.isMemory st.depth = true ∧ nameoff < sizeStrings
    · rw [if_pos hmem, imp_iff_right hmem, inside_bind_of val_startsWith, inside_startsWith]
      refine and_iff_left ?_
      split_ifs
      · rw [inside_bind]
        refine ⟨inside_readReg hread (by omega) (by omega), fun r _ => ?_⟩
        cases r with
        | none => exact inside_pure _
        | some a => exact inside_pure _
      · exact inside_pure _
    · rw [if_neg hmem]
      exact iff_of_true (inside_pure _) fun h => absurd h hmem
  | endNode hp => exact Iff.rfl
  | nop hp => exact Iff.rfl
  | halt ok => exact Iff.rfl

/-- Every turn of a RAM scan over the blob fits. -/
def RamFits (mem : ByteMem) (read : ℕ → ℕ → ℕ → Reads ε) (add : α → ε → Option α) (acc : α) : Prop :=
  let t := be32At mem 4
  let e := structEnd t (be32At mem 8) (be32At mem 36)
  ∀ p st a, Relation.ReflTransGen (Goes (turn (memWalker mem (be32At mem 12) (be32At mem 32) read add) mem t e))
      (be32At mem 8, memNodes, acc) (p, st, a) → TurnFits mem t e (be32At mem 12) (be32At mem 32) p st

lemma inside_foldBanks (h : Accepted mem) {f : ℕ × ℕ → ε} (hcells : ReadsCells (be32At mem 4) read)
    (hread : ∀ {a s e x}, (bankEntry mem a s e).val = some x → (read a s e).val = some (f x)) :
    (∃ r, (foldBanks mem read add acc).val = some r) ∧
      ((foldBanks mem read add acc).Inside (be32At mem 4) ↔ RamFits mem read add acc) := by
  obtain ⟨hmin, hmax, -, -⟩ := h.header
  have he := structEnd_le (be32At mem 4) (be32At mem 8) (be32At mem 36)
  obtain ⟨_, hl, l, rfl, -⟩ := foldBanks_collect h
  have hfold := @foldBanks_eq _ _ mem read add f acc l h hl hread
  refine ⟨⟨_, hfold⟩, ?_⟩
  simp only [foldBanks, val_bind_of val_be32] at hfold
  obtain ⟨b, hb, -⟩ := val_bind_some.mp hfold
  simp only [foldBanks, inside_bind_of val_be32, inside_be32, inside_bind_of hb]
  rw [scan] at hb ⊢
  rw [loop_inside hb, RamFits]
  constructor
  · rintro ⟨-, -, -, -, -, hall, -⟩ p st a hreach
    exact (mem_turn_inside hmax he hcells).mp (hall _ hreach)
  · intro hall
    refine ⟨by omega, by omega, by omega, by omega, by omega, ?_, ?_⟩
    · rintro ⟨p, st, a⟩ hreach
      exact (mem_turn_inside hmax he hcells).mpr (hall p st a hreach)
    · obtain _ | ⟨_, _, acc⟩ := b
      · exact inside_pure _
      · exact inside_pure _

end Ram

section Queries

lemma fdtGetRamBytes_inside (h : Accepted mem) : (∃ v, (fdtGetRamBytes mem).val = some v) ∧
    ((fdtGetRamBytes mem).Inside (be32At mem 4) ↔ RamFits mem (sizeEntry mem) addSize 0) := by
  obtain ⟨hmin, -⟩ := h.header
  have hvalid : (fdtValid mem).val = some true := h
  have hheader : (fdtValid mem).Inside (be32At mem 4) := inside_fdtValid mem (by omega)
  obtain ⟨⟨r, hr⟩, hiff⟩ := @inside_foldBanks _ _ mem (sizeEntry mem) addSize 0 h Prod.snd sizeEntry_cells fun hx =>
    val_sizeEntry hx
  simp only [fdtGetRamBytes, val_bind_of hvalid, inside_bind_of hvalid, if_true, inside_bind_of hr, val_bind_of hr]
  cases r with
  | none => exact ⟨⟨0, rfl⟩, by simp [hheader, hiff]⟩
  | some total => exact ⟨⟨total, rfl⟩, by simp [hheader, hiff]⟩

lemma fdtGetRamBank_inside (h : Accepted mem) (want : ℤ) : (∃ v, (fdtGetRamBank mem want).val = some v) ∧
    ((fdtGetRamBank mem want).Inside (be32At mem 4) ↔ (0 ≤ want → RamFits mem (bankEntry mem) (addBank want) ⟨0, none⟩)) := by
  obtain ⟨hmin, -⟩ := h.header
  have hvalid : (fdtValid mem).val = some true := h
  have hheader : (fdtValid mem).Inside (be32At mem 4) := inside_fdtValid mem (by omega)
  obtain ⟨⟨r, hr⟩, hiff⟩ := @inside_foldBanks _ _ mem (bankEntry mem) (addBank want) ⟨0, none⟩ h id bankEntry_cells fun hx => hx
  have hbank : ∃ acc, (ramBankAt mem want).val = some acc ∧
      ((ramBankAt mem want).Inside (be32At mem 4) ↔ RamFits mem (bankEntry mem) (addBank want) ⟨0, none⟩) := by
    rw [ramBankAt, val_bind_of hr, inside_bind_of hr]
    cases r with
    | none => exact ⟨_, rfl, by simp [hiff]⟩
    | some acc => exact ⟨_, rfl, by simp [hiff]⟩
  obtain ⟨acc, hacc, hin⟩ := hbank
  simp only [fdtGetRamBank, val_bind_of hvalid, inside_bind_of hvalid, if_true]
  split_ifs with hneg
  · exact ⟨⟨_, rfl⟩, iff_of_true ⟨hheader, inside_pure _⟩ fun h0 => absurd h0 (not_le.mpr hneg)⟩
  · rw [val_bind_of hacc, inside_bind_of hacc, hin, imp_iff_right (not_lt.mp hneg)]
    exact ⟨⟨_, rfl⟩, by simp [hheader]⟩

lemma fdtGetCpuCount_inside (h : Accepted mem) :
    (∃ v, (fdtGetCpuCount mem).val = some v) ∧ (fdtGetCpuCount mem).Inside (be32At mem 4) := by
  obtain ⟨hmin, hmax, -, -⟩ := h.header
  have hvalid : (fdtValid mem).val = some true := h
  have hheader : (fdtValid mem).Inside (be32At mem 4) := inside_fdtValid mem (by omega)
  have hsafe : Safe (cpuWalker mem) mem (be32At mem 4) (structEnd (be32At mem 4) (be32At mem 8) (be32At mem 36)) := cpuWalker_safe
  obtain ⟨hin, r, hr⟩ := hsafe.scan (p := be32At mem 8) hmax (structEnd_le _ _ _) ⟨0, none, 0⟩
  simp only [fdtGetCpuCount, val_bind_of hvalid, inside_bind_of hvalid, if_true, val_bind_of val_be32, inside_bind_of val_be32,
    inside_be32, inside_bind_of hr, val_bind_of hr]
  rcases r with _ | ⟨_, st⟩
  · exact ⟨⟨_, rfl⟩, hheader, by omega, by omega, by omega, hin, inside_pure _⟩
  · exact ⟨⟨_, rfl⟩, hheader, by omega, by omega, by omega, hin, inside_pure _⟩

lemma fdtGetInitrd_inside (h : Accepted mem) :
    (∃ v, (fdtGetInitrd mem).val = some v) ∧ (fdtGetInitrd mem).Inside (be32At mem 4) := by
  obtain ⟨hmin, hmax, -, -⟩ := h.header
  have hsize : fdtMaxSize < 2^32 - 1 := by decide
  have hvalid : (fdtValid mem).val = some true := h
  have hheader : (fdtValid mem).Inside (be32At mem 4) := inside_fdtValid mem (by omega)
  simp only [fdtGetInitrd, val_bind_of hvalid, inside_bind_of hvalid, if_true, val_bind_of val_be32, inside_bind_of val_be32,
    inside_be32]
  split_ifs with hstrings
  · exact ⟨⟨_, rfl⟩, hheader, by omega, by omega, by omega, by omega, by omega, inside_pure _⟩
  · rw [gt_iff_lt, not_lt, checkedAdd_le (by omega)] at hstrings
    have hsafe : Safe (initrdWalker mem (be32At mem 12) (be32At mem 32)) mem (be32At mem 4)
        (structEnd (be32At mem 4) (be32At mem 8) (be32At mem 36)) := initrdWalker_safe hstrings hmax (structEnd_le _ _ _)
    obtain ⟨hin, r, hr⟩ := hsafe.scan (p := be32At mem 8) hmax (structEnd_le _ _ _) ⟨0, fun _ => false, none, none⟩
    rw [val_bind_of hr, inside_bind_of hr]
    exact ⟨⟨_, rfl⟩, hheader, by omega, by omega, by omega, by omega, by omega, hin, inside_pure _⟩

end Queries

section Sample

/-- A root whose name is the end of the structure block, with one byte of strings behind it. -/
def lastName : ByteMem := blobOf (bytes32 1 ++ [0]) [0]

/-- A property of the root with a name far behind the blob. The strings are said to be long enough. -/
def farName : ByteMem :=
  Function.update (blobOf (bytes32 1 ++ padded [0] ++ bytes32 3 ++ bytes32 4 ++ bytes32 0x1000 ++ bytes32 1) (cString "reg")) 32 1

end Sample

end HouseKernel.DeviceTree
