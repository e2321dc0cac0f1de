import HouseKernel.Userspace.DemandPaging

/-! What a page holds once it was served: the words depend on the table of commitments and on the address of the page, not
on the host page that was taken for it. -/
namespace HouseKernel.Userspace

open HouseKernel.Lib HouseKernel.Loader HouseKernel.VirtualMemory

/-- The first object of the table with a segment on the page, and the segment. -/
def demandSource (table : DemandTable) (page : ℕ) : Option (DemandObject × Segment × ℕ × ℕ) :=
  match table.filter fun object => (coveringSegment object page).isSome with
  | [] => none
  | object :: _ => (coveringSegment object page).map fun s => (object, s)

def blankMemory : Memory := ⟨fun _ => 0#64, []⟩

/-- The page as it is assembled on a blank page at address zero. -/
def demandFill (table : DemandTable) (page : ℕ) : Option (ℕ → Desc) :=
  match demandSource table page with
  | none => none
  | some (object, segment, pageBase, delta) =>
    match copyDemandBytes object.bytes 0 segment page pageBase delta blankMemory with
    | .error _ => none
    | .ok m => some m.mem

section Shift

variable {m m₀ : Memory} {pg : ℕ}

/-- Bytes written to two pages that agree leave them in agreement. -/
lemma pokeBytes_shift (hpg : pg % 8 = 0) (d : ℕ) (bs : Bytes) (h : ∀ o < 4096, m.mem (pg + o) = m₀.mem o) :
    ∀ o < 4096, (pokeBytes (pg + d) bs m).mem (pg + o) = (pokeBytes d bs m₀).mem o := by
  induction bs generalizing d m m₀ with
  | nil => exact h
  | cons b bs ih =>
    rw [pokeBytes, pokeBytes, Nat.add_assoc]
    apply ih
    intro o ho
    have hplace : (pg + d) % 8 = d % 8 := by omega
    have hword : pg + d - d % 8 = pg + (d - d % 8) := by omega
    by_cases hsame : o = d - d % 8
    · subst hsame
      simp only [storeByte, hplace, hword, Function.update_self, h _ ho]
    · have hother : pg + o ≠ pg + (d - d % 8) := by omega
      simp only [storeByte, hplace, hword, Function.update_of_ne hsame, Function.update_of_ne hother]
      exact h o ho

/-- Whether the file bytes are there does not depend on the page that they go to. -/
lemma copyElfPageBytes_shift (hpg : pg % 8 = 0) (source : Bytes) (sourceOffset destinationOffset count : ℤ)
    (h : ∀ o < 4096, m.mem (pg + o) = m₀.mem o) :
    (∃ e, copyElfPageBytes source pg sourceOffset destinationOffset count m = .error e ∧
      copyElfPageBytes source 0 sourceOffset destinationOffset count m₀ = .error e) ∨
    ∃ m' m₀', copyElfPageBytes source pg sourceOffset destinationOffset count m = .ok m' ∧
      copyElfPageBytes source 0 sourceOffset destinationOffset count m₀ = .ok m₀' ∧
      ∀ o < 4096, m'.mem (pg + o) = m₀'.mem o := by
  unfold copyElfPageBytes
  split_ifs with hneg hlong
  · exact .inl ⟨_, rfl, rfl⟩
  · exact .inl ⟨_, rfl, rfl⟩
  · refine .inr ⟨_, _, rfl, rfl, ?_⟩
    rw [Nat.zero_add]
    exact pokeBytes_shift hpg _ _ h

lemma copyDemandBytes_shift (hpg : pg % 8 = 0) (bytes : Bytes) (segment : Segment) (page pageBase delta : ℕ)
    (h : ∀ o < 4096, m.mem (pg + o) = m₀.mem o) :
    (∃ e, copyDemandBytes bytes pg segment page pageBase delta m = .error e ∧
      copyDemandBytes bytes 0 segment page pageBase delta m₀ = .error e) ∨
    ∃ m' m₀', copyDemandBytes bytes pg segment page pageBase delta m = .ok m' ∧
      copyDemandBytes bytes 0 segment page pageBase delta m₀ = .ok m₀' ∧ ∀ o < 4096, m'.mem (pg + o) = m₀'.mem o := by
  simp only [copyDemandBytes]
  by_cases hover : segment.fileOff > 2^63 - 1 - ((if page - pageBase ≤ delta then 0 else page - pageBase - delta : ℕ) : ℤ)
  · simp only [if_pos hover]
    exact .inl ⟨_, rfl, rfl⟩
  · simp only [if_neg hover]
    exact copyElfPageBytes_shift hpg _ _ _ _ h

end Shift

/-- A page was filled in: it took the first free page, and no leaf changed but its own. -/
structure FilledIn (pf : Platform) (roots : Set ℕ) (r page : ℕ) (m m' : Memory) (fill : ℕ → Desc) : Prop
    extends Serves pf roots r m m' where
  taken : ∃ pg w, m.pool = pg :: m'.pool ∧ leaf pf.toRam m' r page = pageInfoToDesc ⟨BitVec.ofNat 64 pg, w, false, false, false⟩ ∧
    userPage pf.toRam m' r page = some ⟨BitVec.ofNat 64 pg, w, false, false, false⟩ ∧ ∀ o < 4096, m'.mem (pg + o) = fill o
  other : ∀ {r' va}, r' ∈ roots → ¬ (r' = r ∧ SamePage va page) → leaf pf.toRam m' r' va = leaf pf.toRam m r' va

section Serve

variable {pf : Platform} {roots : Set ℕ} {r page : ℕ} {m : Memory}

/-- A marked page is served when the budget allows it, a page is free and the file bytes are there, and only then. -/
theorem demandServe_marked (h : Spaces pf roots m) (hr : r ∈ roots) (ha : page % 4096 = 0) (hk : ¬ pf.kernelWindow page)
    (hnone : userPage pf.toRam m r page = none) (allowed : Bool) (table : DemandTable) :
    ((demandServe allowed r table page m).1 = .served → ∃ w fill, userMarker pf.toRam m r page = some w ∧
      allowed = true ∧ demandFill table page = some fill ∧ m.pool ≠ [] ∧
      FilledIn pf roots r page m (demandServe allowed r table page m).2 fill) ∧
    (∀ w fill, userMarker pf.toRam m r page = some w → allowed = true → demandFill table page = some fill → m.pool ≠ [] →
      (demandServe allowed r table page m).1 = .served) := by
  have hclear := h.clear hr hk
  rw [demandServe, ha, Nat.sub_zero, getPage_of_clear hclear, getDemandPage_of_clear hclear, hnone]
  cases hmark : userMarker pf.toRam m r page with
  | none => simp
  | some w =>
    obtain ⟨hva, -, l3, hwalk, -⟩ := userMarker_table hmark
    simp only [demandFill, demandSource]
    rcases table.filter (fun object => (coveringSegment object page).isSome) with _ | ⟨object, objects⟩
    · simp
    simp only [serveOne]
    rcases coveringSegment object page with _ | ⟨segment, pageBase, delta⟩
    · simp
    cases allowed with
    | false => simp
    | true =>
      rcases hpool : m.pool with _ | ⟨pg, rest⟩
      · simp [allocPage, hpool]
      have halloc : allocPage m = (some pg, { m with pool := rest }) := by simp only [allocPage, hpool]
      have hal := h.forest.freeAligned (show pg ∈ m.pool by simp [hpool])
      have hblank : ∀ o < 4096, (zeroPage pg { m with pool := rest }).mem (pg + o) = blankMemory.mem o := by
        intro o ho
        exact if_pos ⟨by omega, by omega⟩
      have hzero : ∀ x, x < pg ∨ pg + 4096 ≤ x → (zeroPage pg { m with pool := rest }).mem x = m.mem x := by
        intro x hx
        exact if_neg (by omega)
      simp only [Bool.not_true, Bool.false_eq_true, if_false, halloc, Option.map_some]
      obtain ⟨e, hcopy, hfill⟩ | ⟨m₁, m₀, hcopy, hfill, hsame⟩ :=
        copyDemandBytes_shift (show pg % 8 = 0 by omega) object.bytes segment page pageBase delta hblank
      · simp [hcopy, hfill]
      · obtain ⟨hp1, hm1⟩ := copyDemandBytes_spec hal hcopy
        obtain ⟨m₂, hset, hserves, hself, hleaf, hpool₂, hother, hkept⟩ := @Serves.fill pf roots r m m₁ h hr pg page l3 rest w
          hpool hwalk hva hk hnone hp1 fun x hx => (hm1 x hx).trans (hzero x hx)
        simp only [hcopy, hfill, hset]
        refine ⟨fun _ => ⟨w, m₀.mem, rfl, trivial, rfl, by simp, hserves, ?_, hother⟩, fun _ _ _ _ _ _ => trivial⟩
        exact ⟨pg, w, hpool₂ ▸ hpool, hleaf, hself, fun o ho => (hkept o ho).trans (hsame o ho)⟩

end Serve

end HouseKernel.Userspace
