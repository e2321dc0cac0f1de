import HouseKernel.Lib.Bytes
import HouseKernel.Loader.Image
import HouseKernel.Userspace.AddressShare
import HouseKernel.Userspace.ParkRequest
import HouseKernel.VirtualMemory.Hardware

/-! Pages that are filled in when they are first touched: `demandServe`, and `ensureRange` for a
supervisor copy. What they do concerns one root and pages that were free. -/
namespace HouseKernel.Userspace

open HouseKernel.Lib HouseKernel.Loader HouseKernel.VirtualMemory

def pokeBytes : ℕ → Bytes → Memory → Memory
  | _, [], m => m
  | dst, b :: bs, m => pokeBytes (dst + 1) bs { m with mem := storeByte m.mem dst b }

def copyElfPageBytes (source : Bytes) (destination : ℕ) (sourceOffset destinationOffset count : ℤ) (m : Memory) :
    Except LoadError Memory :=
  if sourceOffset < 0 ∨ destinationOffset < 0 ∨ count < 0 then .error (.badSegment "file bytes outside image")
  else if sourceOffset > source.length - count then .error (.badSegment "file bytes outside image")
  else .ok (pokeBytes (destination + destinationOffset.toNat) ((source.drop sourceOffset.toNat).take count.toNat) m)

/-- One page of file bytes. Pages past the file size stay zeroed. -/
def copyDemandBytes (bytes : Bytes) (pg : ℕ) (segment : Segment) (page pageBase delta : ℕ) (m : Memory) :
    Except LoadError Memory :=
  let pageOffset := page - pageBase
  let fileStart : ℕ := if pageOffset ≤ delta then 0 else pageOffset - delta
  let destinationOffset := delta + fileStart - pageOffset
  let remainingFile := max 0 (segment.fileSz - fileStart)
  let copyLength := min (4096 - (destinationOffset : ℤ)) remainingFile
  if segment.fileOff > 2^63 - 1 - fileStart then .error (.badSegment "file offset overflow")
  else copyElfPageBytes bytes pg (segment.fileOff + fileStart) destinationOffset copyLength m

/-- Fill in one page. `allowed` is the answer of the page budget. -/
def serveOne (allowed : Bool) (pdir page : ℕ) (writable : Bool) (object : DemandObject) (m : Memory) :
    DemandResult × Memory :=
  match coveringSegment object page with
  | none => (.miss, m)
  | some (segment, pageBase, delta) =>
    if !allowed then (.noMem, m)
    else match allocPage m with
      | (none, m) => (.noMem, m)
      | (some pg, m) =>
        let m := zeroPage pg m
        match copyDemandBytes object.bytes pg segment page pageBase delta m with
        | .error _ => (.noMem, freePage pg m)
        | .ok m => match setPage m pdir page (some ⟨BitVec.ofNat 64 pg, writable, false, false, false⟩) with
          | (false, m) => (.noMem, freePage pg m)
          | (true, m) => (.served, m)

/-- A page that is mapped is served, unless it is copy-on-write. -/
def demandServe (allowed : Bool) (pdir : ℕ) (table : DemandTable) (va : ℕ) (m : Memory) : DemandResult × Memory :=
  let page := va - va % 4096
  match getPage m pdir page with
  | some info => if info.cow then (.miss, m) else (.served, m)
  | none => match getDemandPage m pdir page with
    | none => (.miss, m)
    | some writable => match table.filter fun object => (coveringSegment object page).isSome with
      | [] => (.miss, m)
      | object :: _ => serveOne allowed pdir page writable object m

/-- The pages of a range in turn; `allowed` gives the budget's answer for each. -/
def ensureGo (allowed : ℕ → Bool) (pdir : ℕ) (table : DemandTable) (page stop : ℕ) (m : Memory) : DemandResult × Memory :=
  if stop ≤ page then (.served, m)
  else if page > 2^64 - 1 - 4096 then (.miss, m)
  else match demandServe (allowed page) pdir table page m with
    | (.served, m) => ensureGo allowed pdir table (page + 4096) stop m
    | (r, m) => (r, m)
  termination_by stop - page

def ensureRange (allowed : ℕ → Bool) (pdir : ℕ) (table : DemandTable) (va len : ℕ) (m : Memory) : DemandResult × Memory :=
  if len = 0 then (.served, m)
  else if len > 65536 then (.miss, m)
  else match checkedAddWord "demand range" va len with
    | .error _ => (.miss, m)
    | .ok stop => ensureGo allowed pdir table (va - va % 4096) stop m

section Copy

variable {m m' : Memory}

lemma pokeBytes_pool (dst : ℕ) (bs : Bytes) (m : Memory) : (pokeBytes dst bs m).pool = m.pool := by
  induction bs generalizing dst m with
  | nil => rfl
  | cons b bs ih => rw [pokeBytes, ih]

/-- Words outside the bytes that are written stay. -/
lemma pokeBytes_mem (dst : ℕ) (bs : Bytes) (m : Memory) {x : ℕ} (h : ∀ a, dst ≤ a → a < dst + bs.length → x ≠ a - a % 8) :
    (pokeBytes dst bs m).mem x = m.mem x := by
  induction bs generalizing dst m with
  | nil => rfl
  | cons b bs ih =>
    rw [pokeBytes, ih]
    · exact Function.update_of_ne (h dst le_rfl (by simp)) _ _
    · intro a h1 h2
      refine h a (by omega) ?_
      rw [List.length_cons]
      omega

lemma copyElfPageBytes_spec {source : Bytes} {pg dest : ℕ} {sourceOffset count : ℤ} (hpg : pg % 4096 = 0)
    (hle : count ≤ 4096 - (dest : ℤ)) (h : copyElfPageBytes source pg sourceOffset dest count m = .ok m') :
    m'.pool = m.pool ∧ ∀ x, x < pg ∨ pg + 4096 ≤ x → m'.mem x = m.mem x := by
  unfold copyElfPageBytes at h
  split_ifs at h with hneg hlong
  simp only [not_or, not_lt] at hneg
  simp only [Except.ok.injEq, Int.toNat_natCast] at h
  subst h
  refine ⟨pokeBytes_pool _ _ _, fun x hx => pokeBytes_mem _ _ _ ?_⟩
  intro a h1 h2
  have hlen := List.length_take_le count.toNat (source.drop sourceOffset.toNat)
  have : dest + count.toNat ≤ 4096 := by omega
  omega

/-- File bytes go to the page that they are for. -/
lemma copyDemandBytes_spec {bytes : Bytes} {pg page pageBase delta : ℕ} {segment : Segment} (hpg : pg % 4096 = 0)
    (h : copyDemandBytes bytes pg segment page pageBase delta m = .ok m') :
    m'.pool = m.pool ∧ ∀ x, x < pg ∨ pg + 4096 ≤ x → m'.mem x = m.mem x := by
  simp only [copyDemandBytes] at h
  by_cases hover : segment.fileOff > 2^63 - 1 - ((if page - pageBase ≤ delta then 0 else page - pageBase - delta : ℕ) : ℤ)
  · rw [if_pos hover] at h
    cases h
  · rw [if_neg hover] at h
    exact copyElfPageBytes_spec hpg (min_le_left _ _) h

end Copy

/-- From `m` to `m'` only the root `r` gained pages, all of them on pages that were free; no
page that was mapped anywhere changed. -/
structure Serves (pf : Platform) (roots : Set ℕ) (r : ℕ) (m m' : Memory) : Prop where
  spaces : Spaces pf roots m'
  others : ∀ {r' va}, r' ∈ roots → r' ≠ r → leaf pf.toRam m' r' va = leaf pf.toRam m r' va
  kept : ∀ {va info}, userPage pf.toRam m r va = some info → leaf pf.toRam m' r va = leaf pf.toRam m r va
  fresh : ∀ {va info}, userPage pf.toRam m' r va = some info →
    userPage pf.toRam m r va = some info ∨ keyOf info ∈ m.pool
  pool : ∀ {p}, p ∈ m'.pool → p ∈ m.pool
  bytes : ∀ {r' va info a}, r' ∈ roots → userPage pf.toRam m r' va = some info → keyOf info ≤ a →
    a < keyOf info + 4096 → m'.mem a = m.mem a

/-- No leaf changed but that of one page, which is read-only for the user unless it is writable. -/
structure ServesPage (pf : Platform) (roots : Set ℕ) (r page : ℕ) (m m' : Memory) : Prop
    extends Serves pf roots r m m' where
  other : ∀ {r' va}, r' ∈ roots → ¬ (r' = r ∧ SamePage va page) → leaf pf.toRam m' r' va = leaf pf.toRam m r' va
  access : ∀ {va info}, SamePage va page → userPage pf.toRam m' r va = some info →
    leaf pf.toRam m' r va = leaf pf.toRam m r va ∨ info.writable = true ∨ (leaf pf.toRam m' r va >>> 6) &&& 3 = 3

section Serve

variable {pf : Platform} {roots : Set ℕ} {r : ℕ} {m m' m'' : Memory}

lemma Serves.refl (h : Spaces pf roots m) : Serves pf roots r m m :=
  ⟨h, fun _ _ => rfl, fun _ => rfl, fun h => Or.inl h, fun h => h, fun _ _ _ _ => rfl⟩

lemma ServesPage.refl (h : Spaces pf roots m) {page : ℕ} : ServesPage pf roots r page m m :=
  ⟨Serves.refl h, fun _ _ => rfl, fun _ _ => .inl rfl⟩

lemma Serves.mapped (h : Serves pf roots r m m') {r' va : ℕ} {info : PageInfo} (hr' : r' ∈ roots)
    (hp : userPage pf.toRam m r' va = some info) : userPage pf.toRam m' r' va = some info := by
  by_cases hne : r' = r
  · subst hne
    rwa [userPage_congr (h.kept hp)]
  · rwa [userPage_congr (h.others hr' hne)]

theorem Serves.trans (h : Serves pf roots r m m') (h' : Serves pf roots r m' m'') (hr : r ∈ roots) :
    Serves pf roots r m m'' where
  spaces := h'.spaces
  others hr' hne := (h'.others hr' hne).trans (h.others hr' hne)
  kept hp := (h'.kept (h.mapped hr hp)).trans (h.kept hp)
  fresh hp := by
    obtain hp | hp := h'.fresh hp
    · exact h.fresh hp
    · exact Or.inr (h.pool hp)
  pool hp := h.pool (h'.pool hp)
  bytes hr' hp h1 h2 := (h'.bytes hr' (h.mapped hr' hp) h1 h2).trans (h.bytes hr' hp h1 h2)

/-- A write to a free page is seen by nobody. -/
lemma ServesPage.scribble (h : Spaces pf roots m) (hr : r ∈ roots) {pg page : ℕ} (hpg : pg ∈ m.pool) (hpool : m'.pool = m.pool)
    (hmem : ∀ x, x < pg ∨ pg + 4096 ≤ x → m'.mem x = m.mem x) : ServesPage pf roots r page m m' := by
  have hal := h.forest.freeAligned hpg
  obtain ⟨hspaces, -, hleaf⟩ := h.write hpool fun hq hi =>
    hmem _ (outside_page (h.forest.aligned hq) hal hi fun heq => h.forest.apart hq (heq ▸ hpg))
  refine ⟨⟨hspaces, fun hr' _ => hleaf hr', fun _ => hleaf hr, ?_, fun hp => hpool ▸ hp, ?_⟩, fun hr' _ => hleaf hr',
    fun _ _ => .inl (hleaf hr)⟩
  · intro va info hp
    rw [userPage_congr (hleaf hr)] at hp
    exact Or.inl hp
  · intro r' va info a hr' hp h1 h2
    obtain ⟨hfree, -⟩ := h.data hr' hp
    have hne : keyOf info ≠ pg := by
      rintro rfl
      exact hfree hpg
    have hk : keyOf info % 4096 = 0 := (userPage_bound hp).1
    exact hmem a (by omega)

/-- Filling in a page whose table is there: it is mapped on a free page, unless the file bytes
are missing. -/
lemma Serves.fill (h : Spaces pf roots m) (hr : r ∈ roots) {pg page l3 : ℕ} {rest : List ℕ} {w : Bool}
    (hpool : m.pool = pg :: rest) (hwalk : walk (userTable pf.toRam) m.mem r (path page) = some l3)
    (hva : validVAddr page = true) (hk : ¬ pf.kernelWindow page) (hnone : userPage pf.toRam m r page = none)
    (hpool' : m'.pool = rest) (hmem : ∀ x, x < pg ∨ pg + 4096 ≤ x → m'.mem x = m.mem x) :
    ∃ m'', setPage m' r page (some ⟨BitVec.ofNat 64 pg, w, false, false, false⟩) = (true, m'') ∧
      Serves pf roots r m m'' ∧
      userPage pf.toRam m'' r page = some ⟨BitVec.ofNat 64 pg, w, false, false, false⟩ ∧
      leaf pf.toRam m'' r page = pageInfoToDesc ⟨BitVec.ofNat 64 pg, w, false, false, false⟩ ∧ m''.pool = rest ∧
      (∀ {r' va}, r' ∈ roots → ¬ (r' = r ∧ SamePage va page) → leaf pf.toRam m'' r' va = leaf pf.toRam m r' va) ∧
      ∀ o < 4096, m''.mem (pg + o) = m'.mem (pg + o) := by
  have hpg : pg ∈ m.pool := by simp [hpool]
  obtain ⟨hal, hlt⟩ := validPage_bound (h.pool pg hpg)
  have hnat : (BitVec.ofNat 64 pg).toNat = pg := by
    rw [BitVec.toNat_ofNat]
    exact Nat.mod_eq_of_lt (by omega)
  have hnodup := h.forest.nodup
  rw [hpool, List.nodup_cons] at hnodup
  have happart : ∀ r' js q, TableAt pf.toRam m roots r' js q → q ≠ pg := by
    rintro r' js q hq rfl
    exact h.forest.apart hq hpg
  -- take the page, write to it, and map it
  have htake : Spaces pf roots { m with pool := rest } := h.take (by rw [hpool]; exact List.sublist_cons_self ..)
  obtain ⟨hspaces, htables, hleaf⟩ := @Spaces.write pf roots _ m' htake hpool' fun hq hi =>
    hmem _ (outside_page (htake.forest.aligned hq) hal hi (happart _ _ _ hq))
  have htab : TableAt pf.toRam m' roots r (path page) l3 := htables.mpr ⟨hr, index_lt page, by simp [path], hwalk⟩
  have hs := sets_poke hspaces.forest htab (pageInfoToDesc ⟨BitVec.ofNat 64 pg, w, false, false, false⟩)
  have hround : descToPageInfo (pageInfoToDesc ⟨BitVec.ofNat 64 pg, w, false, false, false⟩) =
      some ⟨BitVec.ofNat 64 pg, w, false, false, false⟩ := descToPageInfo_pageInfoToDesc (mAddress_ofNat hal hlt)
  have hself : userPage pf.toRam (m'.poke l3 (l3Index page) (pageInfoToDesc ⟨BitVec.ofNat 64 pg, w, false, false, false⟩))
      r page = some ⟨BitVec.ofNat 64 pg, w, false, false, false⟩ := by rw [userPage, if_pos hva, hs.leaf_self, hround]
  have hsame : ∀ {va info}, userPage pf.toRam m r va = some info → ¬ SamePage va page := by
    intro va info hp hsame
    rw [userPage, if_pos (userPage_valid hp), hsame.leaf_eq] at hp
    rw [userPage, if_pos hva, hp] at hnone
    cases hnone
  have hothers : ∀ {r' va}, r' ∈ roots → ¬ (r' = r ∧ SamePage va page) →
      leaf pf.toRam (m'.poke l3 (l3Index page) (pageInfoToDesc ⟨BitVec.ofNat 64 pg, w, false, false, false⟩)) r' va =
        leaf pf.toRam m r' va := fun hr' hne => (hs.leaf_other hr' hne).trans (hleaf hr')
  have hkept : ∀ o < 4096, (m'.poke l3 (l3Index page) (pageInfoToDesc ⟨BitVec.ofNat 64 pg, w, false, false, false⟩)).mem
      (pg + o) = m'.mem (pg + o) := by
    intro o ho
    have hidx := l3Index_lt page
    have hal3 := hspaces.forest.aligned htab
    have hne := happart _ _ _ (htables.mp htab)
    exact Function.update_of_ne (by omega) _ _
  refine ⟨_, setPage_of_walk hva htab.reach _, ⟨?_, ?_, ?_, ?_, ?_, ?_⟩, hself, hs.leaf_self, hpool', hothers, hkept⟩
  · refine hspaces.sets hs fun info hinfo => ?_
    obtain rfl := Option.some.inj (hinfo.symm.trans hround)
    simp only [hnat, hpool']
    exact ⟨hk, hnodup.1, fun r' js q hq => happart r' js q (htables.mp hq)⟩
  · intro r' va hr' hne
    exact (hs.leaf_other hr' fun hb => hne hb.1).trans (hleaf hr')
  · intro va info hp
    exact (hs.leaf_other hr fun hb => hsame hp hb.2).trans (hleaf hr)
  · intro va info hp
    by_cases hsp : SamePage va page
    · right
      rw [userPage, if_pos (userPage_valid hp), hsp.leaf_eq, hs.leaf_self, hround] at hp
      obtain rfl := Option.some.inj hp
      rw [keyOf, hnat]
      exact hpg
    · left
      rwa [userPage_congr (hs.leaf_other hr fun hb => hsp hb.2), userPage_congr (hleaf hr)] at hp
  · intro p hp
    rw [hpool]
    exact List.mem_cons_of_mem _ (hpool' ▸ hp)
  · intro r' va info a hr' hp h1 h2
    obtain ⟨hfree, hdata⟩ := h.data hr' hp
    obtain ⟨hka, -⟩ := userPage_bound hp
    have hne : keyOf info ≠ pg := by
      rintro rfl
      exact hfree hpg
    have hl3 := htables.mp htab
    have hnl3 : l3 ≠ keyOf info := hdata _ _ _ hl3
    have hal3 := h.forest.aligned hl3
    have hidx := l3Index_lt page
    have hword : a ≠ l3 + 8*l3Index page := by
      simp only [keyOf] at h1 h2 hnl3
      omega
    have hout : a < pg ∨ pg + 4096 ≤ a := by
      simp only [keyOf] at h1 h2 hne
      omega
    exact (Function.update_of_ne hword _ _).trans (hmem a hout)

lemma demandServe_page (table : DemandTable) (b : Bool) (a : ℕ) :
    demandServe b r table a m = demandServe b r table (a - a % 4096) m := by
  have ha : (a - a % 4096) % 4096 = 0 := by omega
  rw [demandServe, demandServe, ha, Nat.sub_zero]

/-- Serving a page at a user's address: nothing is disturbed, and a served page is mapped and
not copy-on-write. -/
theorem demandServe_servesPage (h : Spaces pf roots m) (hr : r ∈ roots) {page : ℕ} (ha : page % 4096 = 0)
    (hk : ¬ pf.kernelWindow page) (allowed : Bool) (table : DemandTable) :
    ServesPage pf roots r page m (demandServe allowed r table page m).2 ∧
    ((demandServe allowed r table page m).1 = .served →
      ∃ info, userPage pf.toRam (demandServe allowed r table page m).2 r page = some info ∧ info.cow = false) := by
  have hclear := h.clear hr hk
  rw [demandServe, ha]
  simp only [Nat.sub_zero]
  rw [getPage_of_clear hclear, getDemandPage_of_clear hclear]
  cases hpage : userPage pf.toRam m r page with
  | some info =>
    cases hcow : info.cow with
    | true => simp [hcow, ServesPage.refl h]
    | false => simp [hcow, ServesPage.refl h, hpage]
  | none =>
    cases hmark : userMarker pf.toRam m r page with
    | none => simp [ServesPage.refl h]
    | some w =>
      simp only
      rcases table.filter (fun object => (coveringSegment object page).isSome) with _ | ⟨object, objects⟩
      · simp [ServesPage.refl h]
      simp only [serveOne]
      rcases coveringSegment object page with _ | ⟨segment, pageBase, delta⟩
      · simp [ServesPage.refl h]
      cases allowed with
      | false => simp [ServesPage.refl h]
      | true =>
        simp only [Bool.not_true, Bool.false_eq_true, if_false]
        rcases hpool : m.pool with _ | ⟨pg, rest⟩
        · simp only [allocPage, hpool]
          simp [ServesPage.refl h]
        have halloc : allocPage m = (some pg, { m with pool := rest }) := by simp only [allocPage, hpool]
        have hpg : pg ∈ m.pool := by simp [hpool]
        have hal := h.forest.freeAligned hpg
        obtain ⟨hva, -, l3, hwalk, -⟩ := userMarker_table hmark
        have hzero : ∀ x, x < pg ∨ pg + 4096 ≤ x → (zeroPage pg { m with pool := rest }).mem x = m.mem x := by
          intro x hx
          exact if_neg (by omega)
        simp only [halloc]
        cases hcopy : copyDemandBytes object.bytes pg segment page pageBase delta (zeroPage pg { m with pool := rest }) with
        | error e =>
          simp only [reduceCtorEq, false_implies, and_true]
          exact ServesPage.scribble h hr hpg (by simp [freePage, zeroPage, hpool]) hzero
        | ok m₁ =>
          obtain ⟨hp1, hm1⟩ := copyDemandBytes_spec hal hcopy
          obtain ⟨m₂, hset, hserves, hself, hleaf, -, hother, -⟩ :=
            @Serves.fill pf roots r m m₁ h hr pg page l3 rest w hpool hwalk hva hk
            hpage hp1 fun x hx => (hm1 x hx).trans (hzero x hx)
          simp only [hset]
          refine ⟨⟨hserves, hother, fun hsame hinfo => .inr ?_⟩, fun _ => ⟨_, hself, rfl⟩⟩
          rw [userPage, if_pos (userPage_valid hinfo), hsame.leaf_eq] at hinfo
          rw [userPage, if_pos hva] at hself
          obtain rfl := Option.some.inj (hinfo.symm.trans hself)
          cases w with
          | true => exact .inl rfl
          | false =>
            right
            rw [hsame.leaf_eq, hleaf]
            exact access_pageInfoToDesc rfl

theorem demandServe_cases (h : Spaces pf roots m) (hr : r ∈ roots) {page : ℕ} (ha : page % 4096 = 0)
    (hk : ¬ pf.kernelWindow page) (allowed : Bool) (table : DemandTable) :
    Serves pf roots r m (demandServe allowed r table page m).2 ∧
    ((demandServe allowed r table page m).1 = .served →
      ∃ info, userPage pf.toRam (demandServe allowed r table page m).2 r page = some info ∧ info.cow = false) :=
  ⟨(demandServe_servesPage h hr ha hk allowed table).1.toServes, (demandServe_servesPage h hr ha hk allowed table).2⟩

/-- The pages of a range at user's addresses: nothing is disturbed, and a range that is served is
mapped without a copy-on-write page. -/
theorem ensureGo_cases (h : Spaces pf roots m) (hr : r ∈ roots) {page stop : ℕ} (ha : page % 4096 = 0)
    (hk : ∀ va, va % 4096 = 0 → page ≤ va → va < stop → ¬ pf.kernelWindow va) (allowed : ℕ → Bool) (table : DemandTable) :
    Serves pf roots r m (ensureGo allowed r table page stop m).2 ∧
    ((ensureGo allowed r table page stop m).1 = .served → ∀ va, va % 4096 = 0 → page ≤ va → va < stop →
      ∃ info, userPage pf.toRam (ensureGo allowed r table page stop m).2 r va = some info ∧ info.cow = false) := by
  induction hn : stop - page using Nat.strong_induction_on generalizing page m with
  | _ n ih =>
  rw [ensureGo]
  by_cases hstop : stop ≤ page
  · rw [if_pos hstop]
    exact ⟨Serves.refl h, fun _ va _ h1 h2 => by omega⟩
  rw [if_neg hstop]
  by_cases hwrap : page > 2^64 - 1 - 4096
  · rw [if_pos hwrap]
    exact ⟨Serves.refl h, fun hs => by cases hs⟩
  rw [if_neg hwrap]
  obtain ⟨hserves, hmapped⟩ := demandServe_cases h hr ha (hk page ha le_rfl (by omega)) (allowed page) table
  rcases hrun : demandServe (allowed page) r table page m with ⟨res, m₁⟩
  rw [hrun] at hserves hmapped
  cases res with
  | miss => exact ⟨hserves, fun hs => by cases hs⟩
  | noMem => exact ⟨hserves, fun hs => by cases hs⟩
  | served =>
    obtain ⟨info, hinfo, hcow⟩ := hmapped rfl
    obtain ⟨hrest, hall⟩ := @ih (stop - (page + 4096)) (by omega) m₁ hserves.spaces (page + 4096) (by omega)
      (fun va h1 h2 h3 => hk va h1 (by omega) h3) rfl
    refine ⟨hserves.trans hrest hr, fun hs va h1 h2 h3 => ?_⟩
    by_cases hva : va = page
    · subst hva
      exact ⟨info, hrest.mapped hr hinfo, hcow⟩
    · exact hall hs va h1 (by omega) h3

end Serve

end HouseKernel.Userspace
