import HouseKernel.Lib.Ledger
import HouseKernel.Lib.Run

/-! The sharer counts of copy-on-write pages, and the steps of `breakCow` interleaved with
the reapers that drop the mappings of dead processes. `breakCow` runs under the supervisor
lock but reads a count, copies and writes back in separate steps; the reapers do not take
the lock. Whether a page carries the cow mark plays no part in the counts, so any mapped
page of a live process may be broken here. -/
namespace HouseKernel.Userspace

open HouseKernel.Lib

/-- Sharer counts keyed by the address of the host page. -/
abbrev CowRefs := Ledger ℕ

/-- Fork-share bump: an absent entry counts both mappings. -/
def shareBump (m : CowRefs) (key : ℕ) : CowRefs := m.share key

/-- Rollback-only decrement. -/
def unshareBump (m : CowRefs) (key : ℕ) : CowRefs := m.unshare key

/-- Release one mapping; `true` when the caller must free the host page. -/
def dropShare (m : CowRefs) (key : ℕ) : Bool × CowRefs := m.release key

/-- An entry of some page map. -/
structure Mapping where
  space : ℕ
  va : ℕ
  page : ℕ
  deriving DecidableEq, Repr

/-- Where the thread that holds the lock is inside `breakCow`. -/
inductive Breaker where
  | idle
  | counted (m : Mapping) (n : ℕ)
  | sole (m : Mapping)
  | copied (m : Mapping) (n raw : ℕ)
  | remapped (m : Mapping) (n : ℕ)
  deriving DecidableEq, Repr

structure CowState where
  refs : CowRefs
  maps : List Mapping
  free : List ℕ
  /-- Pages whose last sharer is gone and that a reaper is about to free. -/
  releasing : List ℕ
  breaker : Breaker
  /-- The address spaces that left the process map. -/
  dead : List ℕ

inductive CowAction where
  | mapFresh (m : Mapping)
  | share (m : Mapping) (dst : ℕ)
  | unmap (m : Mapping)
  | breakRead (m : Mapping)
  | breakSole
  | breakDelete
  | breakFail
  | breakCopy (raw : ℕ)
  | breakRemap (ok : Bool)
  | breakWrite
  | remove (space : ℕ)
  | drop (m : Mapping)
  | freePage (k : ℕ)
  deriving DecidableEq, Repr

/-- `releaseBacking` up to the free: drop the mapping, and queue the page if it was the last. -/
def releaseBacking (s : CowState) (m : Mapping) : CowState :=
  let r := dropShare s.refs m.page
  { s with refs := r.2, maps := s.maps.erase m,
           releasing := if r.1 then m.page :: s.releasing else s.releasing }

/-- One step. What runs under the lock waits for the breaker. -/
def cowStep (s : CowState) : CowAction → Option CowState
  | .mapFresh m =>
    if m.page ∈ s.free then
      some { s with maps := m :: s.maps, free := s.free.erase m.page }
    else none
  | .share m dst =>
    if s.breaker = .idle ∧ m ∈ s.maps then
      some { s with maps := ⟨dst, m.va, m.page⟩ :: s.maps, refs := shareBump s.refs m.page }
    else none
  | .unmap m =>
    if s.breaker = .idle ∧ m ∈ s.maps then some (releaseBacking s m) else none
  | .breakRead m =>
    if s.breaker = .idle ∧ m ∈ s.maps ∧ m.space ∉ s.dead then
      some { s with breaker := .counted m ((s.refs m.page).getD 0) }
    else none
  | .breakSole => match s.breaker with
    | .counted m n => if n ≤ 1 then some { s with breaker := .sole m } else none
    | _ => none
  | .breakDelete => match s.breaker with
    | .sole m => some { s with refs := Function.update s.refs m.page none, breaker := .idle }
    | _ => none
  -- the remap in place fails, the budget is spent or the pool is empty
  | .breakFail => match s.breaker with
    | .counted _ _ => some { s with breaker := .idle }
    | _ => none
  | .breakCopy raw => match s.breaker with
    | .counted m n =>
      if 2 ≤ n ∧ raw ∈ s.free then
        some { s with free := s.free.erase raw, breaker := .copied m n raw }
      else none
    | _ => none
  | .breakRemap ok => match s.breaker with
    | .copied m n raw =>
      if ok then
        some { s with maps := ⟨m.space, m.va, raw⟩ :: s.maps.erase m, breaker := .remapped m n }
      else some { s with free := raw :: s.free, breaker := .idle }
    | _ => none
  | .breakWrite => match s.breaker with
    | .remapped m n =>
      some { s with refs := Function.update s.refs m.page (some (n-1)), breaker := .idle }
    | _ => none
  | .remove space => if s.breaker = .idle then some { s with dead := space :: s.dead } else none
  | .drop m => if m ∈ s.maps ∧ m.space ∈ s.dead then some (releaseBacking s m) else none
  | .freePage k =>
    if k ∈ s.releasing then
      some { s with releasing := s.releasing.erase k, free := k :: s.free }
    else none

/-- The page that the breaker holds between allocation and remap. -/
def Breaker.hand : Breaker → List ℕ
  | .copied _ _ raw => [raw]
  | _ => []

/-- The key for which the breaker still owes the decrement of its own mapping. -/
def Breaker.owes : Breaker → ℕ → ℕ
  | .remapped m _, k => if m.page = k then 1 else 0
  | _, _ => 0

/-- The entries of page maps that name a host page. -/
def mapCount (maps : List Mapping) (k : ℕ) : ℕ := maps.countP fun m => decide (m.page = k)

/-- The references to a host page: its mappings, and the one that a breaker has moved away and
not yet written off. -/
def CowState.references (s : CowState) (k : ℕ) : ℕ := mapCount s.maps k + s.breaker.owes k

/-- Pages that nothing maps: in the pool, about to be freed, or in the breaker's hand. -/
def CowState.spare (s : CowState) : List ℕ := s.free ++ s.releasing ++ s.breaker.hand

/-- The count that the breaker is about to lower is still the one that it read. -/
def Breaker.UpToDate (refs : CowRefs) : Breaker → Prop
  | .remapped m n => refs m.page = some n
  | _ => True

instance (refs : CowRefs) : ∀ b, Decidable (Breaker.UpToDate refs b)
  | .remapped m n => inferInstanceAs (Decidable (refs m.page = some n))
  | .idle | .counted _ _ | .sole _ | .copied _ _ _ => isTrue trivial

/-- A break writes its count back only if no reaper has dropped a mapping of the page since. -/
def NoLostDrop (s : CowState) : CowAction → Prop
  | .breakWrite => s.breaker.UpToDate s.refs
  | _ => True

instance (s : CowState) : ∀ a, Decidable (NoLostDrop s a)
  | .breakWrite => inferInstanceAs (Decidable (s.breaker.UpToDate s.refs))
  | .mapFresh _ | .share _ _ | .unmap _ | .breakRead _ | .breakSole | .breakDelete | .breakFail
  | .breakCopy _ | .breakRemap _ | .remove _ | .drop _ | .freePage _ => isTrue trivial

/-- What the breaker knows of the page, whatever the reapers do meanwhile. -/
def Breaker.Current (s : CowState) : Breaker → Prop
  | .idle => True
  | .counted m n => m ∈ s.maps ∧ m.space ∉ s.dead ∧ (n ≤ 1 → s.references m.page ≤ 1)
  | .sole m => s.references m.page ≤ 1
  | .copied m n _ => m ∈ s.maps ∧ m.space ∉ s.dead ∧ 2 ≤ n
  | .remapped _ n => 2 ≤ n

/-- The counts are exact, and every page of the machine is either mapped or spare, once. -/
structure CowExact (pages : List ℕ) (s : CowState) : Prop where
  counts : Ledger.Counts s.refs s.references
  current : s.breaker.Current s
  nodup : s.spare.Nodup
  unmapped : ∀ k, k ∈ s.spare → s.references k = 0
  covered : ∀ k, k ∈ pages → k ∈ s.spare ∨ 1 ≤ s.references k

@[simp] theorem mapCount_cons (m : Mapping) (maps : List Mapping) (k : ℕ) :
    mapCount (m :: maps) k = mapCount maps k + if m.page = k then 1 else 0 := by
  simp [mapCount, List.countP_cons]

theorem mapCount_erase {m : Mapping} {maps : List Mapping} (h : m ∈ maps) (k : ℕ) :
    mapCount (maps.erase m) k + (if m.page = k then 1 else 0) = mapCount maps k := by
  have hperm := (List.perm_cons_erase h).countP_eq fun m' => decide (m'.page = k)
  simpa [mapCount, List.countP_cons] using hperm.symm

lemma mapCount_pos {m : Mapping} {maps : List Mapping} (h : m ∈ maps) : 1 ≤ mapCount maps m.page := by
  have := mapCount_erase h m.page
  simp at this
  omega

/-- Releasing a mapping takes one reference from its page. -/
lemma references_release {s : CowState} {m : Mapping} (hm : m ∈ s.maps) (k : ℕ) :
    (releaseBacking s m).references k + (if m.page = k then 1 else 0) = s.references k := by
  have := mapCount_erase hm k
  simp only [CowState.references, releaseBacking]
  omega

lemma references_release_le {s : CowState} {m : Mapping} (hm : m ∈ s.maps) (k : ℕ) :
    (releaseBacking s m).references k ≤ s.references k := by
  have := references_release hm k
  omega

/-- What a breaker knows outlives the release of a mapping of a dead space. -/
lemma Breaker.Current.release {s : CowState} {m : Mapping} (h : s.breaker.Current s)
    (hm : m ∈ s.maps) (hdead : m.space ∈ s.dead) : s.breaker.Current (releaseBacking s m) := by
  have hmem : ∀ m', m' ∈ s.maps → m'.space ∉ s.dead → m' ∈ (releaseBacking s m).maps := by
    intro m' hm' hlive
    refine (List.mem_erase_of_ne ?_).mpr hm'
    rintro rfl
    exact hlive hdead
  cases hb : s.breaker with
  | idle => trivial
  | counted m' n =>
    rw [hb] at h
    obtain ⟨h1, h2, h3⟩ := h
    exact ⟨hmem m' h1 h2, h2, fun hn => (references_release_le hm _).trans (h3 hn)⟩
  | sole m' =>
    rw [hb] at h
    exact (references_release_le hm _).trans h
  | copied m' n raw =>
    rw [hb] at h
    obtain ⟨h1, h2, h3⟩ := h
    exact ⟨hmem m' h1 h2, h2, h3⟩
  | remapped m' n =>
    rw [hb] at h
    exact h

lemma CowExact.release {pages : List ℕ} {s : CowState} {m : Mapping} (h : CowExact pages s)
    (hm : m ∈ s.maps) (hcur : s.breaker.Current (releaseBacking s m)) :
    CowExact pages (releaseBacking s m) := by
  have href := references_release hm
  have hpos : 1 ≤ s.references m.page := by
    have := mapCount_pos hm
    simp only [CowState.references]
    omega
  have hother : ∀ j, j ≠ m.page → (releaseBacking s m).references j = s.references j := by
    intro j hj
    have := href j
    rwa [if_neg (Ne.symm hj)] at this
  have hself : (releaseBacking s m).references m.page + 1 = s.references m.page := by
    simpa using href m.page
  obtain ⟨hflag, hcounts⟩ := h.counts.release hpos hself hother
  have hfresh : m.page ∉ s.spare := fun hk => by
    have := h.unmapped _ hk
    omega
  have hspare : (releaseBacking s m).spare.Perm
      (if (s.refs.release m.page).1 then m.page :: s.spare else s.spare) := by
    simp only [CowState.spare, releaseBacking, dropShare]
    by_cases hlast : (Ledger.release s.refs m.page).1 = true
    · simp only [hlast, if_true, List.append_assoc, List.cons_append]
      exact List.perm_middle
    · simp only [hlast, Bool.false_eq_true, if_false]
      exact List.Perm.refl _
  refine ⟨hcounts, hcur, ?_, ?_, ?_⟩
  · rw [hspare.nodup_iff]
    split_ifs
    · exact List.nodup_cons.mpr ⟨hfresh, h.nodup⟩
    · exact h.nodup
  · intro k hk
    rw [hspare.mem_iff] at hk
    by_cases hlast : (s.refs.release m.page).1 = true
    · obtain rfl | hk := List.mem_cons.mp (by simpa [hlast] using hk)
      · exact hflag.mp hlast
      · have := h.unmapped k hk
        have := references_release_le hm k
        omega
    · have := h.unmapped k (by simpa [hlast] using hk)
      have := references_release_le hm k
      omega
  · intro k hk
    by_cases hkm : k = m.page
    · subst hkm
      by_cases hzero : (releaseBacking s m).references m.page = 0
      · left
        rw [hspare.mem_iff, if_pos (hflag.mpr hzero)]
        exact List.mem_cons_self
      · right
        omega
    · obtain hold | hold := h.covered k hk
      · left
        rw [hspare.mem_iff]
        split_ifs
        · exact List.mem_cons_of_mem _ hold
        · exact hold
      · right
        rwa [hother k hkm]

/-- A step that moves spare pages about and changes no reference. -/
lemma CowExact.reshuffle {pages : List ℕ} {s t : CowState} (h : CowExact pages s)
    (hrefs : t.refs = s.refs) (href : ∀ k, t.references k = s.references k)
    (hspare : t.spare.Perm s.spare) (hcur : t.breaker.Current t) : CowExact pages t where
  counts k := by
    rw [hrefs, href]
    exact h.counts k
  current := hcur
  nodup := hspare.nodup_iff.mpr h.nodup
  unmapped k hk := by
    rw [href]
    exact h.unmapped k (hspare.mem_iff.mp hk)
  covered k hk := by
    rw [href, hspare.mem_iff]
    exact h.covered k hk

/-- A step that maps a spare page for the first time. -/
lemma CowExact.enter {pages : List ℕ} {s t : CowState} {raw : ℕ} (h : CowExact pages s)
    (hrefs : t.refs = s.refs)
    (href : ∀ k, t.references k = s.references k + if raw = k then 1 else 0)
    (hspare : s.spare.Perm (raw :: t.spare)) (hcur : t.breaker.Current t) : CowExact pages t := by
  have hzero : s.references raw = 0 := h.unmapped raw (hspare.mem_iff.mpr List.mem_cons_self)
  have hnodup := hspare.nodup_iff.mp h.nodup
  refine ⟨fun k => ?_, hcur, hnodup.of_cons, fun k hk => ?_, fun k hk => ?_⟩
  · have hfit := h.counts k
    rw [hrefs, href]
    by_cases hk : raw = k
    · subst hk
      cases hm : s.refs raw with
      | none => simp [hzero]
      | some n =>
        simp only [hm, hzero, Ledger.fits_some] at hfit
        omega
    · simpa [hk] using hfit
  · have hne : raw ≠ k := by
      rintro rfl
      exact (List.nodup_cons.mp hnodup).1 hk
    rw [href, if_neg hne]
    exact h.unmapped k (hspare.mem_iff.mpr (List.mem_cons_of_mem _ hk))
  · by_cases hne : raw = k
    · right
      rw [href, if_pos hne]
      omega
    · obtain hold | hold := h.covered k hk
      · left
        exact (List.mem_cons.mp (hspare.mem_iff.mp hold)).resolve_left (Ne.symm hne)
      · right
        rw [href]
        omega

lemma CowExact.mapped_ne {pages : List ℕ} {s : CowState} (h : CowExact pages s) {m : Mapping} {k : ℕ}
    (hm : m ∈ s.maps) (hk : k ∈ s.spare) : m.page ≠ k := by
  rintro rfl
  have := h.unmapped _ hk
  have := mapCount_pos hm
  simp only [CowState.references] at *
  omega

lemma CowExact.mapFresh {pages : List ℕ} {s : CowState} {m : Mapping} (h : CowExact pages s)
    (hm : m.page ∈ s.free) :
    CowExact pages { s with maps := m :: s.maps, free := s.free.erase m.page } := by
  have hspare : m.page ∈ s.spare := by simp [CowState.spare, hm]
  have href : ∀ k, CowState.references { s with maps := m :: s.maps, free := s.free.erase m.page } k =
      s.references k + if m.page = k then 1 else 0 := by
    intro k
    simp only [CowState.references, mapCount_cons]
    omega
  refine h.enter rfl href ?_ ?_
  · simpa [CowState.spare] using (List.perm_cons_erase hm).append_right (s.releasing ++ s.breaker.hand)
  · have hcur := h.current
    cases hb : s.breaker with
    | idle => trivial
    | counted m' n =>
      rw [hb] at hcur
      obtain ⟨h1, h2, h3⟩ := hcur
      refine ⟨List.mem_cons_of_mem _ h1, h2, fun hn => ?_⟩
      have hsame := href m'.page
      rw [hb, if_neg (Ne.symm (h.mapped_ne h1 hspare))] at hsame
      exact hsame.trans_le (h3 hn)
    | sole m' =>
      rw [hb] at hcur
      have hle : s.references m'.page ≤ 1 := hcur
      have hzero := h.unmapped _ hspare
      have hsame := href m'.page
      rw [hb] at hsame
      refine hsame.trans_le ?_
      split_ifs with heq
      · rw [← heq, hzero]
      · exact hle
    | copied m' n raw =>
      rw [hb] at hcur
      exact ⟨List.mem_cons_of_mem _ hcur.1, hcur.2⟩
    | remapped m' n =>
      rw [hb] at hcur
      exact hcur

lemma CowExact.share {pages : List ℕ} {s : CowState} {m : Mapping} (h : CowExact pages s) (dst : ℕ)
    (hm : m ∈ s.maps) (hidle : s.breaker = .idle) :
    CowExact pages { s with maps := ⟨dst, m.va, m.page⟩ :: s.maps, refs := shareBump s.refs m.page } := by
  have hpos : 1 ≤ s.references m.page := by
    have := mapCount_pos hm
    simp only [CowState.references]
    omega
  have href : ∀ k, CowState.references
      { s with maps := ⟨dst, m.va, m.page⟩ :: s.maps, refs := shareBump s.refs m.page } k =
      s.references k + if m.page = k then 1 else 0 := by
    intro k
    simp only [CowState.references, mapCount_cons]
    omega
  refine ⟨h.counts.share hpos (by simp [href]) (fun j hj => by simp [href, Ne.symm hj]), ?_, h.nodup,
    fun k hk => ?_, fun k hk => ?_⟩
  · rw [hidle]
    trivial
  · have hne : m.page ≠ k := h.mapped_ne hm hk
    rw [href, if_neg hne]
    exact h.unmapped k hk
  · obtain hold | hold := h.covered k hk
    · exact Or.inl hold
    · right
      rw [href]
      omega

lemma CowExact.breakRead {pages : List ℕ} {s : CowState} {m : Mapping} (h : CowExact pages s)
    (hidle : s.breaker = .idle) (hm : m ∈ s.maps) (hlive : m.space ∉ s.dead) :
    CowExact pages { s with breaker := .counted m ((s.refs m.page).getD 0) } := by
  have href : ∀ k, CowState.references
      { s with breaker := .counted m ((s.refs m.page).getD 0) } k = s.references k := by
    intro k
    simp [CowState.references, hidle, Breaker.owes]
  refine h.reshuffle rfl href (by simp [CowState.spare, hidle, Breaker.hand]) ⟨hm, hlive, fun hn => ?_⟩
  have hfit := h.counts m.page
  rw [href]
  cases hr : s.refs m.page with
  | none => simpa [hr] using hfit
  | some n =>
    simp only [hr, Ledger.fits_some] at hfit
    simp only [hr, Option.getD_some] at hn
    omega

/-- The write-back of a count that is still current. -/
lemma CowExact.breakWrite {pages : List ℕ} {s : CowState} {m : Mapping} {n : ℕ} (h : CowExact pages s)
    (hb : s.breaker = .remapped m n) (hr : s.refs m.page = some n) :
    CowExact pages { s with refs := Function.update s.refs m.page (some (n-1)), breaker := .idle } := by
  have hn : 2 ≤ n := by
    have hcur := h.current
    rw [hb] at hcur
    exact hcur
  have href : ∀ k, s.references k = mapCount s.maps k + if m.page = k then 1 else 0 := by
    simp [CowState.references, hb, Breaker.owes]
  have href' : ∀ k, CowState.references
      { s with refs := Function.update s.refs m.page (some (n-1)), breaker := .idle } k =
      mapCount s.maps k := by
    simp [CowState.references, Breaker.owes]
  have hfit : n = mapCount s.maps m.page + 1 := by
    have := h.counts m.page
    simp only [hr, href, Ledger.fits_some, if_true] at this
    exact this.1
  refine ⟨h.counts.update ?_ (fun j hj => ?_), trivial, ?_, fun k hk => ?_, fun k hk => ?_⟩
  · rw [href', Ledger.fits_some]
    omega
  · rw [href', href, if_neg (Ne.symm hj), Nat.add_zero]
  · simpa [CowState.spare, hb, Breaker.hand] using h.nodup
  · have hold := h.unmapped k (by simpa [CowState.spare, hb, Breaker.hand] using hk)
    rw [href] at hold
    rw [href']
    omega
  · obtain hold | hold := h.covered k hk
    · exact Or.inl (by simpa [CowState.spare, hb, Breaker.hand] using hold)
    · right
      rw [href] at hold
      rw [href']
      split_ifs at hold with heq
      · subst heq
        omega
      · omega

lemma CowExact.breakRemap {pages : List ℕ} {s : CowState} {m : Mapping} {n raw : ℕ}
    (h : CowExact pages s) (hb : s.breaker = .copied m n raw) :
    CowExact pages { s with maps := ⟨m.space, m.va, raw⟩ :: s.maps.erase m, breaker := .remapped m n } := by
  obtain ⟨hm, -, hn⟩ : m ∈ s.maps ∧ m.space ∉ s.dead ∧ 2 ≤ n := by
    have hcur := h.current
    rw [hb] at hcur
    exact hcur
  refine CowExact.enter h rfl (fun k => ?_) (show s.spare.Perm (raw :: _) from ?_) hn
  · have herase := mapCount_erase hm k
    simp only [CowState.references, mapCount_cons, hb, Breaker.owes]
    omega
  · simp only [CowState.spare, hb, Breaker.hand, List.append_nil]
    exact List.perm_append_singleton raw _

lemma CowExact.breakSole {pages : List ℕ} {s : CowState} {m : Mapping} {n : ℕ} (h : CowExact pages s)
    (hb : s.breaker = .counted m n) (hn : n ≤ 1) : CowExact pages { s with breaker := .sole m } := by
  have hcur := h.current
  rw [hb] at hcur
  have href : ∀ k, CowState.references { s with breaker := .sole m } k = s.references k := by
    simp [CowState.references, hb, Breaker.owes]
  refine h.reshuffle rfl href (by simp [CowState.spare, hb, Breaker.hand]) ?_
  exact (href m.page).trans_le (hcur.2.2 hn)

/-- The count of a page with one mapping is deleted. -/
lemma CowExact.breakDelete {pages : List ℕ} {s : CowState} {m : Mapping} (h : CowExact pages s)
    (hb : s.breaker = .sole m) :
    CowExact pages { s with refs := Function.update s.refs m.page none, breaker := .idle } := by
  have hcur := h.current
  rw [hb] at hcur
  have href : ∀ k, CowState.references
      { s with refs := Function.update s.refs m.page none, breaker := .idle } k = s.references k := by
    simp [CowState.references, hb, Breaker.owes]
  have hspare : CowState.spare
      { s with refs := Function.update s.refs m.page none, breaker := .idle } = s.spare := by
    simp [CowState.spare, hb, Breaker.hand]
  refine ⟨h.counts.update ?_ fun j _ => href j, trivial, hspare ▸ h.nodup, fun k hk => ?_,
    fun k hk => ?_⟩
  · exact (href m.page).trans_le hcur
  · exact (href k).trans (h.unmapped k (hspare ▸ hk))
  · rw [href, hspare]
    exact h.covered k hk

/-- A break that fails before it has copied leaves all as it was. -/
lemma CowExact.breakFail {pages : List ℕ} {s : CowState} {m : Mapping} {n : ℕ} (h : CowExact pages s)
    (hb : s.breaker = .counted m n) : CowExact pages { s with breaker := .idle } :=
  h.reshuffle rfl (by simp [CowState.references, hb, Breaker.owes])
    (by simp [CowState.spare, hb, Breaker.hand]) trivial

lemma CowExact.breakCopy {pages : List ℕ} {s : CowState} {m : Mapping} {n raw : ℕ} (h : CowExact pages s)
    (hb : s.breaker = .counted m n) (hn : 2 ≤ n) (hraw : raw ∈ s.free) :
    CowExact pages { s with free := s.free.erase raw, breaker := .copied m n raw } := by
  have hcur := h.current
  rw [hb] at hcur
  refine h.reshuffle rfl (by simp [CowState.references, hb, Breaker.owes]) ?_
    ⟨hcur.1, hcur.2.1, hn⟩
  simp only [CowState.spare, hb, Breaker.hand, List.append_nil]
  exact (List.perm_append_singleton raw _).trans
    ((List.perm_cons_erase hraw).symm.append_right s.releasing)

/-- A copy that cannot be mapped goes back to the pool. -/
lemma CowExact.breakUndo {pages : List ℕ} {s : CowState} {m : Mapping} {n raw : ℕ} (h : CowExact pages s)
    (hb : s.breaker = .copied m n raw) : CowExact pages { s with free := raw :: s.free, breaker := .idle } := by
  refine h.reshuffle rfl (by simp [CowState.references, hb, Breaker.owes]) ?_ trivial
  simp only [CowState.spare, hb, Breaker.hand, List.append_nil, List.cons_append]
  exact (List.perm_append_singleton raw _).symm

lemma CowExact.freePage {pages : List ℕ} {s : CowState} {k : ℕ} (h : CowExact pages s) (hk : k ∈ s.releasing) :
    CowExact pages { s with releasing := s.releasing.erase k, free := k :: s.free } := by
  have hcur := h.current
  refine h.reshuffle rfl (fun _ => rfl) ?_ ?_
  · simp only [CowState.spare, List.cons_append, List.append_assoc]
    have hperm := (List.perm_cons_erase hk).append_right s.breaker.hand
    exact (List.perm_middle.symm.trans (hperm.symm.append_left s.free))
  · cases hb : s.breaker with
    | idle => trivial
    | counted m n => simpa [hb, Breaker.Current, CowState.references] using hcur
    | sole m => simpa [hb, Breaker.Current, CowState.references] using hcur
    | copied m n raw => simpa [hb, Breaker.Current] using hcur
    | remapped m n => simpa [hb, Breaker.Current] using hcur

theorem CowExact.step {pages : List ℕ} {s t : CowState} {a : CowAction} (h : CowExact pages s)
    (hno : NoLostDrop s a) (hs : cowStep s a = some t) : CowExact pages t := by
  cases a with
  | mapFresh m =>
    simp only [cowStep] at hs
    split_ifs at hs with hm
    cases hs
    exact h.mapFresh hm
  | share m dst =>
    simp only [cowStep] at hs
    split_ifs at hs with hg
    cases hs
    exact h.share dst hg.2 hg.1
  | unmap m =>
    simp only [cowStep] at hs
    split_ifs at hs with hg
    cases hs
    exact h.release hg.2 (by rw [hg.1]; trivial)
  | breakRead m =>
    simp only [cowStep] at hs
    split_ifs at hs with hg
    cases hs
    exact h.breakRead hg.1 hg.2.1 hg.2.2
  | breakSole =>
    simp only [cowStep] at hs
    split at hs
    case h_1 m n hb =>
      split_ifs at hs with hn
      cases hs
      exact h.breakSole hb hn
    case h_2 => simp at hs
  | breakDelete =>
    simp only [cowStep] at hs
    split at hs
    case h_1 m hb =>
      cases hs
      exact h.breakDelete hb
    case h_2 => simp at hs
  | breakFail =>
    simp only [cowStep] at hs
    split at hs
    case h_1 m n hb =>
      cases hs
      exact h.breakFail hb
    case h_2 => simp at hs
  | breakCopy raw =>
    simp only [cowStep] at hs
    split at hs
    case h_1 m n hb =>
      split_ifs at hs with hg
      cases hs
      exact h.breakCopy hb hg.1 hg.2
    case h_2 => simp at hs
  | breakRemap ok =>
    simp only [cowStep] at hs
    split at hs
    case h_1 m n raw hb =>
      split_ifs at hs with hok
      · cases hs
        exact h.breakRemap hb
      · cases hs
        exact h.breakUndo hb
    case h_2 => simp at hs
  | breakWrite =>
    simp only [cowStep] at hs
    split at hs
    case h_1 m n hb =>
      cases hs
      simp only [NoLostDrop, hb] at hno
      exact h.breakWrite hb hno
    case h_2 => simp at hs
  | remove space =>
    simp only [cowStep] at hs
    split_ifs at hs with hidle
    cases hs
    exact h.reshuffle rfl (fun _ => rfl) (List.Perm.refl _) (by rw [hidle]; trivial)
  | drop m =>
    simp only [cowStep] at hs
    split_ifs at hs with hg
    cases hs
    exact h.release hg.1 (h.current.release hg.1 hg.2)
  | freePage k =>
    simp only [cowStep] at hs
    split_ifs at hs with hk
    cases hs
    exact h.freePage hk

/-- Nothing mapped yet, every page in the pool. -/
def cowBoot (pages : List ℕ) : CowState := ⟨fun _ => none, [], pages, [], .idle, []⟩

lemma cowBoot_exact {pages : List ℕ} (h : pages.Nodup) : CowExact pages (cowBoot pages) where
  counts k := by simp [cowBoot, CowState.references, mapCount, Breaker.owes]
  current := trivial
  nodup := by simpa [cowBoot, CowState.spare, Breaker.hand] using h
  unmapped k _ := by simp [cowBoot, CowState.references, mapCount, Breaker.owes]
  covered k hk := by simp [cowBoot, CowState.spare, hk]

/-- In every interleaving in which no reaper drops a mapping of a page between a break's read
of its count and the write-back of that break, the counts are exact and a page is free, once,
exactly when nothing maps it. -/
theorem cow_counts_exact {pages : List ℕ} {s : CowState} {as : List CowAction} (hpages : pages.Nodup)
    (hno : Along cowStep NoLostDrop (cowBoot pages) as) (hrun : run cowStep (cowBoot pages) as = some s) :
    Ledger.Counts s.refs s.references ∧
      (s.breaker = .idle → ∀ k, s.references k = mapCount s.maps k) ∧
      s.spare.Nodup ∧ ∀ k, k ∈ pages → (k ∈ s.spare ↔ s.references k = 0) := by
  have h : CowExact pages s :=
    run_invariant (fun _ _ _ hI hG hs => hI.step hG hs) (cowBoot_exact hpages) hno hrun
  refine ⟨h.counts, fun hidle k => ?_, h.nodup, fun k hk => ⟨h.unmapped k, fun hzero => ?_⟩⟩
  · simp [CowState.references, hidle, Breaker.owes]
  · obtain hold | hold := h.covered k hk
    · exact hold
    · omega

/-- Process 1 forks process 2, which exits; process 1 starts to break their shared page. -/
def breakDuringReap : List CowAction :=
  [.mapFresh ⟨1, 0x1000000, 0x50000000⟩, .share ⟨1, 0x1000000, 0x50000000⟩ 2, .remove 2,
    .breakRead ⟨1, 0x1000000, 0x50000000⟩]

/-- The reaper's decrement falls between the read and the write-back and is lost: the page
keeps a count of one, no page map names it, and nobody will free it. -/
theorem cow_count_lost :
    ∃ s, run cowStep (cowBoot [0x50000000, 0x50001000]) (breakDuringReap ++
      [.drop ⟨2, 0x1000000, 0x50000000⟩, .breakCopy 0x50001000, .breakRemap true, .breakWrite]) = some s ∧
      s.breaker = .idle ∧ s.refs 0x50000000 = some 1 ∧ mapCount s.maps 0x50000000 = 0 ∧
      0x50000000 ∉ s.spare ∧ ¬ Ledger.Counts s.refs s.references := by
  have hobs : (run cowStep (cowBoot [0x50000000, 0x50001000]) (breakDuringReap ++
      [.drop ⟨2, 0x1000000, 0x50000000⟩, .breakCopy 0x50001000, .breakRemap true, .breakWrite])).map
      (fun s => (s.breaker, s.refs 0x50000000, mapCount s.maps 0x50000000,
        decide (0x50000000 ∈ s.spare))) = some (.idle, some 1, 0, false) := by rfl
  obtain ⟨s, hs, hobs⟩ := Option.map_eq_some_iff.mp hobs
  simp only [Prod.mk.injEq, decide_eq_false_iff_not] at hobs
  obtain ⟨hb, hr, hc, hsp⟩ := hobs
  refine ⟨s, hs, hb, hr, hc, hsp, fun hcounts => ?_⟩
  have := hcounts 0x50000000
  simp [hr, CowState.references, hb, hc, Breaker.owes] at this

/-- Two shared pages of a process that exits: the reaper drops one while a break of it is under
way, which then fails and is tried again, and the other after its break. -/
def breaksAroundReap : List CowAction :=
  [.mapFresh ⟨1, 0x1000000, 0x50000000⟩, .mapFresh ⟨1, 0x1001000, 0x50002000⟩,
    .share ⟨1, 0x1000000, 0x50000000⟩ 2, .share ⟨1, 0x1001000, 0x50002000⟩ 2, .remove 2,
    .breakRead ⟨1, 0x1000000, 0x50000000⟩, .drop ⟨2, 0x1000000, 0x50000000⟩, .breakFail,
    .breakRead ⟨1, 0x1000000, 0x50000000⟩, .breakSole, .breakDelete,
    .breakRead ⟨1, 0x1001000, 0x50002000⟩, .breakCopy 0x50001000, .breakRemap true, .breakWrite,
    .drop ⟨2, 0x1001000, 0x50002000⟩, .freePage 0x50002000]

theorem cow_counts_exact_broken :
    ∃ s, run cowStep (cowBoot [0x50000000, 0x50001000, 0x50002000]) breaksAroundReap = some s ∧
      Ledger.Counts s.refs s.references := by
  have hobs : (run cowStep (cowBoot [0x50000000, 0x50001000, 0x50002000]) breaksAroundReap).isSome =
      true := by rfl
  obtain ⟨s, hs⟩ := Option.isSome_iff_exists.mp hobs
  have hno : Along cowStep NoLostDrop (cowBoot [0x50000000, 0x50001000, 0x50002000]) breaksAroundReap := by
    decide
  exact ⟨s, hs, (cow_counts_exact (by decide) hno hs).1⟩

end HouseKernel.Userspace
