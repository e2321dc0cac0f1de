import HouseKernel.Userspace.DemandContent

/-! A range of a process's pages is served before the supervisor copies from it. The pages come one after another, and what
each of them holds afterwards was settled before the first. -/
namespace HouseKernel.Userspace

open HouseKernel.Lib HouseKernel.Loader HouseKernel.VirtualMemory

/-- The pages of `[va, stop)`. -/
def pagesUpTo (va stop : ℕ) : List ℕ :=
  if stop ≤ va then [] else (List.range ((stop - (va - va % 4096) + 4095) / 4096)).map fun i => va - va % 4096 + 4096*i

/-- A page that the copy helpers can read, with its words. -/
def Ready (ram : Ram) (m : Memory) (r page : ℕ) (words : ℕ → Desc) : Prop :=
  ∃ info, userPage ram m r page = some info ∧ keyOf info ≠ 0 ∧ leaf ram m r page >>> 48 = 0#64 ∧
    ∀ o < 4096, m.mem (keyOf info + o) = words o

/-- The words that a page holds, or will hold once it is served. -/
def pageWords (ram : Ram) (table : DemandTable) (m : Memory) (r page : ℕ) : ℕ → Desc :=
  match userPage ram m r page with
  | some info => fun o => m.mem (keyOf info + o)
  | none => (demandFill table page).getD fun _ => 0#64

/-- Serve pages in turn. -/
def serveEach (allowed : ℕ → Bool) (pdir : ℕ) (table : DemandTable) : List ℕ → Memory → DemandResult × Memory
  | [], m => (.served, m)
  | page :: rest, m => match demandServe (allowed page) pdir table page m with
    | (.served, m) => serveEach allowed pdir table rest m
    | (r, m) => (r, m)

section Serve

variable {pf : Platform} {roots : Set ℕ} {m m' : Memory} {r page : ℕ} {table : DemandTable} {allowed : ℕ → Bool}

lemma plain_pageInfoToDesc (pg : ℕ) (w : Bool) : pageInfoToDesc ⟨BitVec.ofNat 64 pg, w, false, false, false⟩ >>> 48 = 0#64 := by
  have hflags : ∀ w, flagBits w false false false >>> 48 = 0#64 := by decide
  have hmask : mAddress >>> 48 = 0#64 := by decide
  rw [pageInfoToDesc_eq, BitVec.ushiftRight_or_distrib, BitVec.ushiftRight_and_distrib, hflags, hmask, BitVec.and_zero,
    BitVec.or_zero]

lemma cow_of_plain {d : Desc} {info : PageInfo} (hd : descToPageInfo d = some info) (hplain : d >>> 48 = 0#64) :
    info.cow = false := by
  have hbit : (d >>> 48).getLsbD 9 = false := by rw [hplain, BitVec.getLsbD_zero]
  rw [BitVec.getLsbD_ushiftRight] at hbit
  unfold descToPageInfo at hd
  split_ifs at hd
  rw [← Option.some.inj hd]
  exact hbit

/-- A marker lies outside the kernel's slots. -/
lemma Spaces.marker_user (h : Spaces pf roots m) (hr : r ∈ roots) (hmark : (userMarker pf.toRam m r page).isSome) :
    ¬ pf.kernelWindow page := by
  obtain ⟨w, hw⟩ := Option.isSome_iff_exists.mp hmark
  obtain ⟨hva, -, l3, hwalk, -⟩ := userMarker_table hw
  intro hk
  obtain ⟨js, i, q, -, ⟨rest, hpath⟩, hq, hblock⟩ := h.slots hr hva hk
  rw [← hpath, walk_append, walk_concat, hq.reach, Option.bind_some] at hwalk
  have hnone : userTable pf.toRam (m.mem (q + 8*i)) = none := by
    rw [userTable, if_neg]
    rintro ⟨hbits, -⟩
    have hbit : (m.mem (q + 8*i) &&& 3).getLsbD 1 = true := by
      rw [hbits]
      decide
    rw [BitVec.getLsbD_and, hblock.2] at hbit
    cases hbit
  rw [hnone] at hwalk
  cases hwalk

lemma pool_toNat {pg : ℕ} (h : Spaces pf roots m) (hpg : pg ∈ m.pool) : (BitVec.ofNat 64 pg).toNat = pg := by
  obtain ⟨-, hlt⟩ := validPage_bound (h.pool pg hpg)
  rw [BitVec.toNat_ofNat]
  exact Nat.mod_eq_of_lt (by omega)

/-- Serving one page leaves the words of every page as they were, or were going to be. -/
lemma FilledIn.words {fill : ℕ → Desc} (hs : Spaces pf roots m) (h : FilledIn pf roots r page m m' fill) (hr : r ∈ roots)
    (hfill : demandFill table page = some fill) (ha : page % 4096 = 0) (hnone : userPage pf.toRam m r page = none)
    {q : ℕ} (hq : q % 4096 = 0) : ∀ o < 4096, pageWords pf.toRam table m' r q o = pageWords pf.toRam table m r q o := by
  intro o ho
  obtain ⟨pg, w, hpool, -, hself, hwords⟩ := h.taken
  cases hpage : userPage pf.toRam m r q with
  | some info =>
    rw [pageWords, pageWords, hpage, h.mapped hr hpage]
    exact h.bytes hr hpage (Nat.le_add_right _ _) (by omega)
  | none =>
    by_cases hsame : q = page
    · subst hsame
      obtain ⟨hal, hlt⟩ := userPage_bound hself
      rw [pageWords, pageWords, hpage, hself, hfill, Option.getD_some]
      simp only [keyOf, pool_toNat hs (show pg ∈ m.pool by simp [hpool])]
      exact hwords o ho
    · have hnone' : userPage pf.toRam m' r q = none := by
        by_cases hva : validVAddr q = true
        · have hvalid := userPage_valid hself
          rw [userPage_congr (h.other hr fun hb => hsame ?_), hpage]
          have := (samePage_iff hva hvalid).mp hb.2
          omega
        · rw [userPage, if_neg hva]
      rw [pageWords, pageWords, hpage, hnone']

/-- What is left of a range to serve. -/
structure Pending (pf : Platform) (roots : Set ℕ) (allowed : ℕ → Bool) (table : DemandTable) (r : ℕ) (pages : List ℕ)
    (m : Memory) : Prop where
  spaces : Spaces pf roots m
  aligned : ∀ page ∈ pages, page % 4096 = 0
  nodup : pages.Nodup
  loadable : ∀ page ∈ pages, (∃ info, userPage pf.toRam m r page = some info ∧ keyOf info ≠ 0) ∨
    ((userMarker pf.toRam m r page).isSome ∧ allowed page = true ∧ (demandFill table page).isSome)
  room : (pages.filter fun page => (userPage pf.toRam m r page).isNone).length ≤ m.pool.length
  zero : 0 ∉ m.pool

/-- The words of every page are as they were, and the page maps changed as serving changes them. -/
structure ServedFrom (pf : Platform) (roots : Set ℕ) (table : DemandTable) (r : ℕ) (m m' : Memory) : Prop
    extends Serves pf roots r m m' where
  words : ∀ {q}, q % 4096 = 0 → ∀ o < 4096, pageWords pf.toRam table m' r q o = pageWords pf.toRam table m r q o

lemma ServedFrom.refl (h : Spaces pf roots m) : ServedFrom pf roots table r m m := ⟨Serves.refl h, fun _ _ _ => rfl⟩

lemma Pending.mapped {pages : List ℕ} (h : Pending pf roots allowed table r pages m) {info : PageInfo} (hpage : page ∈ pages)
    (hinfo : userPage pf.toRam m r page = some info) : keyOf info ≠ 0 := by
  obtain ⟨info', hinfo', hne⟩ | ⟨hmark, -⟩ := h.loadable page hpage
  · rwa [Option.some.inj (hinfo.symm.trans hinfo')]
  · obtain ⟨w, hw⟩ := Option.isSome_iff_exists.mp hmark
    rw [userMarker_page hw] at hinfo
    cases hinfo

lemma Pending.valid {pages : List ℕ} (h : Pending pf roots allowed table r pages m) (hpage : page ∈ pages) :
    validVAddr page = true := by
  obtain ⟨info, hinfo, -⟩ | ⟨hmark, -⟩ := h.loadable page hpage
  · exact userPage_valid hinfo
  · obtain ⟨w, hw⟩ := Option.isSome_iff_exists.mp hmark
    exact (userMarker_table hw).1

lemma Pending.tail {rest : List ℕ} (h : Pending pf roots allowed table r (page :: rest) m) {info : PageInfo}
    (hinfo : userPage pf.toRam m r page = some info) : Pending pf roots allowed table r rest m := by
  have hroom := h.room
  rw [List.filter_cons_of_neg (by simp [hinfo])] at hroom
  exact ⟨h.spaces, fun q hq => h.aligned q (List.mem_cons_of_mem _ hq), (List.nodup_cons.mp h.nodup).2,
    fun q hq => h.loadable q (List.mem_cons_of_mem _ hq), hroom, h.zero⟩

lemma Pending.cons {rest : List ℕ} (h : Pending pf roots allowed table r rest m) {info : PageInfo}
    (hinfo : userPage pf.toRam m r page = some info) (hkey : keyOf info ≠ 0) (ha : page % 4096 = 0) (hnew : page ∉ rest) :
    Pending pf roots allowed table r (page :: rest) m := by
  refine ⟨h.spaces, List.forall_mem_cons.mpr ⟨ha, h.aligned⟩, List.nodup_cons.mpr ⟨hnew, h.nodup⟩,
    List.forall_mem_cons.mpr ⟨.inl ⟨info, hinfo, hkey⟩, h.loadable⟩, ?_, h.zero⟩
  rw [List.filter_cons_of_neg (by simp [hinfo])]
  exact h.room

/-- One page of what is left. A page that was mapped stays as it is, and one that was not is filled in. -/
theorem Pending.step {rest : List ℕ} (h : Pending pf roots allowed table r (page :: rest) m) (hr : r ∈ roots) :
    ∃ res m', demandServe (allowed page) r table page m = (res, m') ∧ ServedFrom pf roots table r m m' ∧
      Pending pf roots allowed table r (page :: rest) m' ∧ (userPage pf.toRam m' r page).isSome ∧
      (∀ q ∈ rest, leaf pf.toRam m' r q = leaf pf.toRam m r q) ∧
      ((∀ info, userPage pf.toRam m r page = some info → leaf pf.toRam m r page >>> 48 = 0#64) →
        res = .served ∧ Ready pf.toRam m' r page (pageWords pf.toRam table m r page)) := by
  have ha := h.aligned page List.mem_cons_self
  obtain ⟨hnew, hnodup⟩ := List.nodup_cons.mp h.nodup
  cases hpage : userPage pf.toRam m r page with
  | some info =>
    obtain ⟨l3, hwalk, hdesc⟩ := userPage_table hpage
    have hleaf : descToPageInfo (leaf pf.toRam m r page) = some info := by rwa [leaf, hwalk]
    have hrun : demandServe (allowed page) r table page m = (if info.cow then .miss else .served, m) := by
      rw [demandServe, ha, Nat.sub_zero, getPage_of_walk hwalk, hpage]
      cases hcow : info.cow <;> simp [hcow]
    refine ⟨_, m, hrun, ServedFrom.refl h.spaces, h, by rw [hpage]; rfl, fun _ _ => rfl, fun hplain => ⟨?_, info, hpage, ?_⟩⟩
    · rw [cow_of_plain hleaf (hplain info rfl)]
      rfl
    · exact ⟨h.mapped List.mem_cons_self hpage, hplain info rfl, fun o _ => by rw [pageWords, hpage]⟩
  | none =>
    obtain ⟨info, hinfo, -⟩ | ⟨hmark, hallowed, hfill⟩ := h.loadable page List.mem_cons_self
    · rw [hpage] at hinfo
      cases hinfo
    obtain ⟨w, hw⟩ := Option.isSome_iff_exists.mp hmark
    obtain ⟨fill, hfill⟩ := Option.isSome_iff_exists.mp hfill
    have hk := Spaces.marker_user h.spaces hr hmark
    have hroom := h.room
    rw [List.filter_cons_of_pos (by simp [hpage]), List.length_cons] at hroom
    have hpool : m.pool ≠ [] := List.ne_nil_of_length_pos (by omega)
    obtain ⟨hfills, hserves⟩ := demandServe_marked h.spaces hr ha hk hpage (allowed page) table
    have hserved := hserves w fill hw hallowed hfill hpool
    obtain ⟨w', fill', -, -, hfill', -, hfilled⟩ := hfills hserved
    obtain rfl := Option.some.inj (hfill.symm.trans hfill')
    rcases hrun : demandServe (allowed page) r table page m with ⟨res, m'⟩
    rw [hrun] at hserved hfilled
    obtain rfl : res = .served := hserved
    have hwords : ∀ {q}, q % 4096 = 0 → ∀ o < 4096, pageWords pf.toRam table m' r q o = pageWords pf.toRam table m r q o :=
      fun hq => hfilled.words h.spaces hr hfill ha hpage hq
    obtain ⟨pg, b, htaken, hleaf, hself, -⟩ := hfilled.taken
    have hkey : keyOf ⟨BitVec.ofNat 64 pg, b, false, false, false⟩ ≠ 0 := by
      have hpg : pg ∈ m.pool := by simp [htaken]
      rw [keyOf, pool_toNat h.spaces hpg]
      rintro rfl
      exact h.zero hpg
    -- the other pages of the range are as they were
    have hother : ∀ q ∈ rest, leaf pf.toRam m' r q = leaf pf.toRam m r q := by
      intro q hq
      have hqin : q ∈ page :: rest := List.mem_cons_of_mem _ hq
      refine hfilled.other hr fun hb => hnew ?_
      have hsame := (samePage_iff (h.valid hqin) (userPage_valid hself)).mp hb.2
      have hqa := h.aligned q hqin
      rwa [show page = q by omega]
    have hrest : Pending pf roots allowed table r rest m' := by
      refine ⟨hfilled.spaces, fun q hq => h.aligned q (List.mem_cons_of_mem _ hq), hnodup, fun q hq => ?_, ?_, ?_⟩
      · rw [userPage_congr (hother q hq), userMarker_congr (hother q hq)]
        exact h.loadable q (List.mem_cons_of_mem _ hq)
      · have hcount : rest.filter (fun q => (userPage pf.toRam m' r q).isNone) =
            rest.filter fun q => (userPage pf.toRam m r q).isNone :=
          List.filter_congr fun q hq => by rw [userPage_congr (hother q hq)]
        have hlen : m.pool.length = m'.pool.length + 1 := by rw [htaken, List.length_cons]
        rw [hcount]
        omega
      · intro hzero
        exact h.zero (by simp [htaken, hzero])
    refine ⟨.served, m', rfl, ⟨hfilled.toServes, hwords⟩, hrest.cons hself hkey ha hnew, by rw [hself]; rfl, hother,
      fun _ => ⟨rfl, _, hself, hkey, hleaf ▸ plain_pageInfoToDesc pg b, fun o ho => ?_⟩⟩
    have := hwords ha o ho
    rwa [pageWords, hself] at this

/-- What is left, with no marks on the pages that are mapped. -/
structure Serveable (pf : Platform) (roots : Set ℕ) (allowed : ℕ → Bool) (table : DemandTable) (r : ℕ) (pages : List ℕ)
    (m : Memory) : Prop extends Pending pf roots allowed table r pages m where
  plain : ∀ page ∈ pages, ∀ info, userPage pf.toRam m r page = some info → leaf pf.toRam m r page >>> 48 = 0#64

/-- One page: it is ready afterwards, and the rest is still to serve. -/
lemma Serveable.step {rest : List ℕ} (h : Serveable pf roots allowed table r (page :: rest) m) (hr : r ∈ roots) :
    ∃ m', demandServe (allowed page) r table page m = (.served, m') ∧ ServedFrom pf roots table r m m' ∧
      Serveable pf roots allowed table r rest m' ∧ Ready pf.toRam m' r page (pageWords pf.toRam table m r page) := by
  obtain ⟨res, m', hrun, hserved, hpending, -, hother, hplain⟩ := h.toPending.step hr
  obtain ⟨rfl, info, hinfo, hready⟩ := hplain (h.plain page List.mem_cons_self)
  refine ⟨m', hrun, hserved, ⟨hpending.tail hinfo, fun q hq info' hinfo' => ?_⟩, info, hinfo, hready⟩
  rw [userPage_congr (hother q hq)] at hinfo'
  rw [hother q hq]
  exact h.plain q (List.mem_cons_of_mem _ hq) info' hinfo'

lemma ServedFrom.trans {m₁ m₂ m₃ : Memory} (h : ServedFrom pf roots table r m₁ m₂) (h' : ServedFrom pf roots table r m₂ m₃)
    (hr : r ∈ roots) : ServedFrom pf roots table r m₁ m₃ where
  toServes := h.toServes.trans h'.toServes hr
  words hq o ho := (h'.words hq o ho).trans (h.words hq o ho)

lemma Ready.served {words : ℕ → Desc} (h : ServedFrom pf roots table r m m') (hr : r ∈ roots)
    (hready : Ready pf.toRam m r page words) : Ready pf.toRam m' r page words := by
  obtain ⟨info, hpage, hkey, hplain, hwords⟩ := hready
  refine ⟨info, h.mapped hr hpage, hkey, ?_, fun o ho => ?_⟩
  · rw [h.kept hpage]
    exact hplain
  · rw [h.bytes hr hpage (Nat.le_add_right _ _) (by omega)]
    exact hwords o ho

/-- All pages of what is left. -/
theorem Serveable.all {pages : List ℕ} (h : Serveable pf roots allowed table r pages m) (hr : r ∈ roots) :
    ∃ m', serveEach allowed r table pages m = (.served, m') ∧ ServedFrom pf roots table r m m' ∧
      ∀ page ∈ pages, Ready pf.toRam m' r page (pageWords pf.toRam table m r page) := by
  induction pages generalizing m with
  | nil => exact ⟨m, rfl, ⟨Serves.refl h.spaces, fun _ _ _ => rfl⟩, fun _ hq => by cases hq⟩
  | cons page rest ih =>
    obtain ⟨m₁, hrun, hserved, hrest, hready⟩ := h.step hr
    obtain ⟨m₂, hruns, hserves, hall⟩ := ih hrest
    refine ⟨m₂, ?_, hserved.trans hserves hr, fun q hq => ?_⟩
    · rw [serveEach, hrun]
      exact hruns
    · obtain rfl | hq := List.mem_cons.mp hq
      · exact hready.served hserves hr
      · obtain ⟨info, hpage, hkey, hplain, hwords⟩ := hall q hq
        exact ⟨info, hpage, hkey, hplain, fun o ho =>
          (hwords o ho).trans (hserved.words (h.aligned q (List.mem_cons_of_mem _ hq)) o ho)⟩

end Serve

section Range

variable {pf : Platform} {roots : Set ℕ} {m : Memory} {r va stop : ℕ} {table : DemandTable} {allowed : ℕ → Bool}

lemma mem_pagesUpTo {page : ℕ} :
    page ∈ pagesUpTo va stop ↔ page % 4096 = 0 ∧ va - va % 4096 ≤ page ∧ page < stop ∧ va < stop := by
  unfold pagesUpTo
  split_ifs with h
  · simp only [List.not_mem_nil, false_iff]
    omega
  · simp only [List.mem_map, List.mem_range]
    constructor
    · rintro ⟨i, hi, rfl⟩
      omega
    · rintro ⟨ha, hlow, hhigh, -⟩
      exact ⟨(page - (va - va % 4096)) / 4096, by omega, by omega⟩

lemma nodup_pagesUpTo (va stop : ℕ) : (pagesUpTo va stop).Nodup := by
  unfold pagesUpTo
  split_ifs
  · exact List.nodup_nil
  · refine List.nodup_range.map fun i j hij => ?_
    omega

lemma pagesUpTo_cons {page : ℕ} (ha : page % 4096 = 0) (hlt : page < stop) :
    pagesUpTo page stop = page :: pagesUpTo (page + 4096) stop := by
  have hcount : (stop - page + 4095) / 4096 = (stop - (page + 4096) + 4095) / 4096 + 1 := by omega
  rw [pagesUpTo, if_neg (by omega), ha, Nat.sub_zero, hcount, List.range_succ_eq_map, List.map_cons, List.map_map, pagesUpTo]
  congr 1
  have hnext : (page + 4096) % 4096 = 0 := by omega
  split_ifs with hend
  · rw [Nat.sub_eq_zero_of_le hend]
    rfl
  · rw [hnext, Nat.sub_zero]
    refine List.map_congr_left fun i _ => ?_
    simp only [Function.comp_apply]
    omega

lemma pagesUpTo_base (hlt : va < stop) : pagesUpTo va stop = pagesUpTo (va - va % 4096) stop := by
  have hbase : (va - va % 4096) % 4096 = 0 := by omega
  rw [pagesUpTo, if_neg (by omega), pagesUpTo, if_neg (by omega), hbase, Nat.sub_zero]

/-- The loop over a range serves its pages in turn. -/
lemma ensureGo_eq {page : ℕ} (ha : page % 4096 = 0) (hstop : stop ≤ 0x100000000) :
    ensureGo allowed r table page stop m = serveEach allowed r table (pagesUpTo page stop) m := by
  induction hn : stop - page using Nat.strong_induction_on generalizing page m with
  | _ n ih =>
    rw [ensureGo]
    by_cases hend : stop ≤ page
    · rw [if_pos hend, pagesUpTo, if_pos hend]
      rfl
    · rw [if_neg hend, if_neg (by omega), pagesUpTo_cons ha (by omega), serveEach]
      rcases hrun : demandServe (allowed page) r table page m with ⟨_ | _ | _, m'⟩
      · exact ih _ (by omega) (by omega) rfl
      · rfl
      · rfl

lemma ensureRange_eq {len : ℕ} (hpos : 0 < len) (hlen : len ≤ 65536) (hstop : va + len ≤ 0x100000000) :
    ensureRange allowed r table va len m = serveEach allowed r table (pagesUpTo va (va + len)) m := by
  have hsum : checkedAddWord "demand range" va len = .ok (va + len) := by
    rw [checkedAddWord, if_neg (by omega)]
  rw [ensureRange, if_neg (by omega), if_neg (by omega), hsum, pagesUpTo_base (by omega)]
  exact ensureGo_eq (by omega) hstop

/-- What serving a list of pages does to the page maps, whatever comes out. -/
lemma serveEach_serves {pages : List ℕ} (hs : Spaces pf roots m) (hr : r ∈ roots)
    (hpages : ∀ page ∈ pages, page % 4096 = 0 ∧ ¬ pf.kernelWindow page) :
    Serves pf roots r m (serveEach allowed r table pages m).2 := by
  induction pages generalizing m with
  | nil => exact Serves.refl hs
  | cons page rest ih =>
    obtain ⟨ha, hk⟩ := hpages page List.mem_cons_self
    have hserves := (demandServe_cases hs hr ha hk (allowed page) table).1
    rw [serveEach]
    rcases hrun : demandServe (allowed page) r table page m with ⟨_ | _ | _, m'⟩
    · rw [hrun] at hserves
      exact hserves.trans (ih hserves.spaces fun q hq => hpages q (List.mem_cons_of_mem _ hq)) hr
    · rw [hrun] at hserves
      exact hserves
    · rw [hrun] at hserves
      exact hserves

end Range

end HouseKernel.Userspace
