import HouseKernel.Driver.Registry
import HouseKernel.Lib.Updates

/-! Every root has one owner: the map that records it, or the one thread that is to record or free it. -/
namespace HouseKernel.Driver
open HouseKernel.Lib HouseKernel.Ipc

def Registry.rootPage (s : Registry) (name : String) : Option PageMap := (s.drvRoots name).map Prod.fst

/-- What is to hold of the roots: none is freed twice, a recorded root is not freed and recorded under one
name only, and the name is that of a registered driver. -/
structure RootsOwned (s : Registry) : Prop where
  freedOnce : s.freed.Nodup
  kept : ∀ name pm, s.rootPage name = some pm → ∃ b, s.built pm = some b ∧ b ∉ s.freed
  oneName : OneKey s.rootPage
  registered : ∀ name, (s.drvRoots name).isSome → (s.drvMap name).isSome

/-- A recorded root makes room for another one only by being claimed first. -/
def RootsKept (s t : Registry) : Prop :=
  ∀ name root, s.drvRoots name = some root → t.drvRoots name = some root ∨ t.drvRoots name = none

/-- The numbers of the roots are in order. -/
structure Registry.Numbered (s : Registry) : Prop where
  below : ∀ pm b, s.built pm = some b → b < s.roots
  inj : OneKey s.built
  freedBelow : ∀ b ∈ s.freed, b < s.roots
  freedOnce : s.freed.Nodup

/-- The pages of the roots as what threads and the map of the roots hold. -/
def pages : Resources Registry PageMap where
  ok := fun s => s.Numbered ∧ OneKey s.rootPage ∧ ∀ name, (s.drvRoots name).isSome → (s.drvMap name).isSome
  live := fun s => {pm | s.inUse pm = true}
  held := fun s => {pm | ∃ name, s.rootPage name = some pm}
  moves := RootsKept

variable {s t : Registry} {pm pm' : PageMap} {R : Set PageMap} {α : Type}

theorem inUse_iff : s.inUse pm = true ↔ ∃ b, s.built pm = some b ∧ b ∉ s.freed := by
  unfold Registry.inUse
  cases s.built pm <;> simp

theorem rootPage_eq (s : Registry) : s.rootPage = Option.map Prod.fst ∘ s.drvRoots := rfl

theorem held_eq (s : Registry) : pages.held s = {pm | ∃ name, s.rootPage name = some pm} := rfl

theorem RootsKept.refl (s : Registry) : RootsKept s s := fun _ _ h => .inl h

/-- A section that neither touches the roots nor unregisters the name of one. -/
structure Quiet (s t : Registry) : Prop where
  drvMap : ∀ name, (s.drvRoots name).isSome → (s.drvMap name).isSome → (t.drvMap name).isSome
  drvRoots : t.drvRoots = s.drvRoots
  built : t.built = s.built
  roots : t.roots = s.roots
  freed : t.freed = s.freed

theorem Registry.Numbered.congr (h : s.Numbered) (hbuilt : t.built = s.built) (hroots : t.roots = s.roots)
    (hfreed : t.freed = s.freed) : t.Numbered := by
  refine ⟨?_, ?_, ?_, ?_⟩
  · rw [hbuilt, hroots]
    exact h.below
  · rw [hbuilt]
    exact h.inj
  · rw [hfreed, hroots]
    exact h.freedBelow
  · rw [hfreed]
    exact h.freedOnce

theorem live_congr (hbuilt : t.built = s.built) (hfreed : t.freed = s.freed) : pages.live t = pages.live s := by
  ext p
  change t.inUse p = true ↔ s.inUse p = true
  rw [inUse_iff, inUse_iff, hbuilt, hfreed]

theorem Quiet.passes (h : Quiet s t) (hs : pages.Holds R s) : pages.Passes R s R t := by
  obtain ⟨⟨hnum, hone, hreg⟩, hshared, hown, hapart⟩ := hs
  have hpage : t.rootPage = s.rootPage := by rw [rootPage_eq, rootPage_eq, h.drvRoots]
  have hheld : pages.held t = pages.held s := by rw [held_eq, held_eq, hpage]
  have hlive := live_congr h.built h.freed
  refine ⟨⟨⟨hnum.congr h.built h.roots h.freed, ?_, fun name hn => ?_⟩, ?_, ?_, ?_⟩, fun name root hr => .inl ?_,
    fun p hl hh hp => ?_⟩
  · rwa [hpage]
  · rw [h.drvRoots] at hn
    exact h.drvMap name hn (hreg name hn)
  · rwa [hheld, hlive]
  · rwa [hlive]
  · rwa [hheld]
  · rwa [h.drvRoots]
  · rw [hlive, hheld]
    exact ⟨hl, hh, hp⟩

/-- What a thread holds is what it holds before, whatever the outside answers. -/
theorem owns_quiet {f : Answer → Registry → α × Registry} (hf : ∀ i s, Quiet s (f i s).2) :
    pages.Owns R (.atomic f : H α) fun _ R' => R' = R :=
  Resources.owns_atomic fun i s hs => ⟨R, (hf i s).passes hs, rfl⟩

theorem Quiet.refl (s : Registry) : Quiet s s := ⟨fun _ _ => id, rfl, rfl, rfl, rfl⟩

theorem owns_hal : pages.Owns R hal fun _ R' => R' = R := owns_quiet fun _ s => .refl s

/-- A call into the HAL, then the rest with the same roots in hand. -/
theorem owns_hal_seq {β : Type} {k : ℤ → H β} {Q : β → Set PageMap → Prop} (h : ∀ rc, pages.Owns R (k rc) Q) :
    pages.Owns R (hal >>= k) Q := by
  refine .seq owns_hal fun rc R' hR => ?_
  rw [hR]
  exact h rc

theorem setOf_some_eq (pm : PageMap) : {p | some pm = some p} = ({pm} : Set PageMap) := by
  ext p
  simp [eq_comm]

section Sections

/-- The next number on a page that is not in use makes the page the root of that number. -/
theorem passes_build (hs : pages.Holds ∅ s) (hu : ¬ s.inUse pm = true)
    (ht : t = { s with built := Function.update s.built pm (some s.roots), roots := s.roots + 1 }) :
    pages.Passes ∅ s {pm} t := by
  obtain ⟨⟨hnum, hone, hreg⟩, hshared, -, -⟩ := hs
  subst ht
  have hfresh : s.roots ∉ s.freed := fun h => absurd (hnum.freedBelow _ h) (lt_irrefl _)
  have hne : ∀ p, s.inUse p = true → p ≠ pm := by
    rintro p hp rfl
    exact hu hp
  have hlive : ∀ p, s.inUse p = true →
      p ∈ pages.live { s with built := Function.update s.built pm (some s.roots), roots := s.roots + 1 } := by
    intro p hp
    obtain ⟨b, hb, hfree⟩ := inUse_iff.mp hp
    exact inUse_iff.mpr ⟨b, update_some_eq_some.mpr (.inr ⟨hne p hp, hb⟩), hfree⟩
  refine ⟨⟨⟨⟨?_, ?_, ?_, hnum.freedOnce⟩, hone, hreg⟩, fun p hp => hlive p (hshared hp), ?_, ?_⟩, RootsKept.refl s, ?_⟩
  · intro p b hb
    obtain ⟨-, rfl⟩ | ⟨-, hb⟩ := update_some_eq_some.mp hb
    · exact Nat.lt_succ_self _
    · exact (hnum.below p b hb).trans (Nat.lt_succ_self _)
  · exact hnum.inj.insert fun q hq => absurd (hnum.below q _ hq) (lt_irrefl _)
  · exact fun b hb => (hnum.freedBelow b hb).trans (Nat.lt_succ_self _)
  · rintro p rfl
    exact inUse_iff.mpr ⟨s.roots, Function.update_self _ _ _, hfresh⟩
  · exact Set.disjoint_singleton_right.mpr fun hp => hu (hshared hp)
  · exact fun p hp hheld _ => ⟨hlive p hp, hheld, hne p hp⟩

theorem owns_allocPageMap : pages.Owns ∅ allocPageMap fun a R' => a.elim (R' = ∅) fun pm => R' = {pm} := by
  refine Resources.owns_atomic fun i s hs => ?_
  cases i.page with
  | none => exact ⟨∅, (Quiet.refl s).passes hs, rfl⟩
  | some pm =>
    by_cases hu : s.inUse pm = true
    · simp only [hu, if_true]
      exact ⟨∅, (Quiet.refl s).passes hs, rfl⟩
    · simp only [hu, Bool.false_eq_true, if_false]
      exact ⟨{pm}, passes_build hs hu rfl, rfl⟩

/-- Freeing a root that the thread holds is the first free of that root. -/
theorem owns_freeUserTables : pages.Owns {pm} (freeUserTables pm) fun _ R' => R' = ∅ := by
  refine Resources.owns_atomic fun i s hs => ⟨∅, ?_, rfl⟩
  obtain ⟨⟨hnum, hone, hreg⟩, hshared, hown, hapart⟩ := hs
  obtain ⟨b, hb, hfree⟩ := inUse_iff.mp (hown rfl)
  have hlive : ∀ p, s.inUse p = true → p ≠ pm → p ∈ pages.live { s with freed := s.freed ++ [b] } := by
    intro p hp hne
    obtain ⟨c, hc, hcfree⟩ := inUse_iff.mp hp
    refine inUse_iff.mpr ⟨c, hc, ?_⟩
    rw [List.mem_append, List.mem_singleton, not_or]
    refine ⟨hcfree, ?_⟩
    rintro rfl
    exact hne (hnum.inj p pm c hc hb)
  simp only [hb, Option.toList_some]
  refine ⟨⟨⟨⟨hnum.below, hnum.inj, ?_, ?_⟩, hone, hreg⟩, fun p hp => hlive p (hshared hp) ?_, Set.empty_subset _,
    Set.disjoint_empty _⟩, RootsKept.refl s, fun p hp hheld hne => ⟨hlive p hp hne, hheld, Set.notMem_empty p⟩⟩
  · intro c hc
    obtain hc | hc := List.mem_append.mp hc
    · exact hnum.freedBelow c hc
    · obtain rfl := List.mem_singleton.mp hc
      exact hnum.below pm c hb
  · refine List.nodup_append.mpr ⟨hnum.freedOnce, List.nodup_singleton b, fun c hc d hd => ?_⟩
    rw [List.mem_singleton.mp hd]
    rintro rfl
    exact hfree hc
  · rintro rfl
    exact Set.disjoint_singleton_right.mp hapart hp

theorem rootPage_insert {name : String} {root : PageMap × ℕ × ℤ} (h : t.drvRoots = Function.update s.drvRoots name (some root)) :
    t.rootPage = Function.update s.rootPage name (some root.1) := by
  rw [rootPage_eq, h, Function.comp_update]
  rfl

theorem rootPage_delete {name : String} (h : t.drvRoots = Function.update s.drvRoots name none) :
    t.rootPage = Function.update s.rootPage name none := by
  rw [rootPage_eq, h, Function.comp_update]
  rfl

/-- A root that a thread holds may be recorded under a registered name that has none. -/
theorem passes_record {name : String} {root : PageMap × ℕ × ℤ} (hs : pages.Holds {root.1} s)
    (hm : (s.drvMap name).isSome) (hr : s.drvRoots name = none)
    (ht : t = { s with drvRoots := Function.update s.drvRoots name (some root) }) : pages.Passes {root.1} s ∅ t := by
  obtain ⟨⟨hnum, hone, hreg⟩, hshared, hown, hapart⟩ := hs
  have hroots : t.drvRoots = Function.update s.drvRoots name (some root) := by rw [ht]
  have hpage := rootPage_insert hroots
  have hfresh : ∀ n, s.rootPage n ≠ some root.1 := fun n h => Set.disjoint_singleton_right.mp hapart ⟨n, h⟩
  have hheld : ∀ p ∈ pages.held t, p = root.1 ∨ p ∈ pages.held s := by
    rintro p ⟨n, h⟩
    rw [hpage] at h
    obtain ⟨-, rfl⟩ | ⟨-, h⟩ := update_some_eq_some.mp h
    · exact .inl rfl
    · exact .inr ⟨n, h⟩
  have hlive : pages.live t = pages.live s := live_congr (by rw [ht]) (by rw [ht])
  refine ⟨⟨⟨hnum.congr (by rw [ht]) (by rw [ht]) (by rw [ht]), ?_, ?_⟩, ?_, Set.empty_subset _, Set.disjoint_empty _⟩, ?_, ?_⟩
  · rw [hpage]
    exact hone.insert hfresh
  · subst ht
    refine (Function.forall_update_iff s.drvRoots (p := fun n o => o.isSome = true → (s.drvMap n).isSome = true)).mpr ?_
    exact ⟨fun _ => hm, fun n _ => hreg n⟩
  · intro p hp
    rw [hlive]
    obtain rfl | hp := hheld p hp
    · exact hown rfl
    · exact hshared hp
  · intro n r hn
    have hne : n ≠ name := by
      rintro rfl
      rw [hr] at hn
      cases hn
    rw [ht]
    exact .inl ((Function.update_of_ne hne _ _).trans hn)
  · intro p hp hold hne
    rw [hlive]
    exact ⟨hp, fun h => (hheld p h).elim hne hold, Set.notMem_empty p⟩

theorem owns_registerDriverRoot {name : String} {asid : ℕ} {slot : ℤ} :
    pages.Owns {pm} (registerDriverRoot name pm asid slot) fun r R' => R' = {p | r ≠ .ok () ∧ p = pm} := by
  refine Resources.owns_atomic fun i s hs => ?_
  dsimp only
  cases hm : s.drvMap name with
  | none => exact ⟨{pm}, (Quiet.refl s).passes hs, by simp⟩
  | some info =>
    cases hr : s.drvRoots name with
    | some root =>
      simp only [Option.isSome_some, if_true]
      exact ⟨{pm}, (Quiet.refl s).passes hs, by simp⟩
    | none =>
      simp only [Option.isSome_none, Bool.false_eq_true, if_false]
      have hname : (s.drvMap name).isSome := by rw [hm]; rfl
      exact ⟨∅, @passes_record _ _ name (pm, asid, slot) hs hname hr rfl, by simp⟩

/-- Whoever takes a record out of the map holds its root. -/
theorem passes_unrecord {name : String} {root : PageMap × ℕ × ℤ} (hs : pages.Holds ∅ s) (hr : s.drvRoots name = some root)
    (hroots : t.drvRoots = Function.update s.drvRoots name none)
    (hmap : ∀ n, n ≠ name → (s.drvMap n).isSome → (t.drvMap n).isSome)
    (hbuilt : t.built = s.built) (hnum : t.roots = s.roots) (hfreed : t.freed = s.freed) : pages.Passes ∅ s {root.1} t := by
  obtain ⟨⟨hn, hone, hreg⟩, hshared, -, -⟩ := hs
  have hlive := live_congr hbuilt hfreed
  have hpage := rootPage_delete hroots
  have hname : s.rootPage name = some root.1 := congrArg (Option.map Prod.fst) hr
  have hheld : ∀ p ∈ pages.held t, p ∈ pages.held s ∧ p ≠ root.1 := by
    rintro p ⟨n, h⟩
    rw [hpage] at h
    obtain ⟨hne, h⟩ := update_none_eq_some.mp h
    refine ⟨⟨n, h⟩, ?_⟩
    rintro rfl
    exact hne (hone n name _ h hname)
  refine ⟨⟨⟨hn.congr hbuilt hnum hfreed, ?_, ?_⟩, ?_, ?_, ?_⟩, ?_, ?_⟩
  · rw [hpage]
    exact hone.delete
  · intro n hsome
    obtain ⟨r, hr⟩ := Option.isSome_iff_exists.mp hsome
    rw [hroots] at hr
    obtain ⟨hne, hr⟩ := update_none_eq_some.mp hr
    exact hmap n hne (hreg n (by rw [hr]; rfl))
  · rw [hlive]
    exact fun p hp => hshared (hheld p hp).1
  · rw [hlive]
    rintro p rfl
    exact hshared ⟨name, hname⟩
  · exact Set.disjoint_singleton_right.mpr fun hp => (hheld _ hp).2 rfl
  · intro n r hr
    rw [hroots]
    obtain rfl | hne := eq_or_ne n name
    · exact .inr (Function.update_self _ _ _)
    · exact .inl ((Function.update_of_ne hne _ _).trans hr)
  · intro p hp hold _
    refine ⟨hlive ▸ hp, fun h => hold (hheld p h).1, ?_⟩
    rintro rfl
    exact hold ⟨name, hname⟩

theorem owns_claimRoot {name : String} :
    pages.Owns ∅ (claimRoot name pm) fun owned R' => R' = {p | owned = true ∧ p = pm} := by
  refine Resources.owns_atomic fun i s hs => ?_
  dsimp only
  cases hr : s.drvRoots name with
  | none => exact ⟨∅, (Quiet.refl s).passes hs, by simp⟩
  | some root =>
    by_cases hpm : root.1 = pm
    · simp only [hpm, if_true]
      subst hpm
      exact ⟨{root.1}, passes_unrecord hs hr rfl (fun _ _ => id) rfl rfl rfl, by simp⟩
    · simp only [hpm, if_false]
      exact ⟨∅, (Quiet.refl s).passes hs, by simp⟩

theorem nsUnregister_frame (name : String) (s : Registry) :
    (nsUnregister name s).2.drvMap = s.drvMap ∧ (nsUnregister name s).2.drvRoots = s.drvRoots ∧
      (nsUnregister name s).2.built = s.built ∧ (nsUnregister name s).2.roots = s.roots ∧
          (nsUnregister name s).2.freed = s.freed := by
  unfold nsUnregister
  split_ifs <;> exact ⟨rfl, rfl, rfl, rfl, rfl⟩

theorem owns_claimDriver {name : String} :
    pages.Owns ∅ (claimDriver name) fun claimed R' => R' = {p | claimed.2.map Prod.fst = some p} := by
  refine Resources.owns_atomic fun i s hs => ?_
  dsimp only
  cases hm : s.drvMap name with
  | none => exact ⟨∅, (Quiet.refl s).passes hs, by simp⟩
  | some info =>
    dsimp only
    obtain ⟨hmap, hroots, hbuilt, hnum, hfreed⟩ :=
      nsUnregister_frame name { s with drvMap := Function.update s.drvMap name none }
    have hothers : ∀ n, n ≠ name → (s.drvMap n).isSome →
        (((nsUnregister name { s with drvMap := Function.update s.drvMap name none }).2).drvMap n).isSome := by
      intro n hn hsome
      rw [hmap]
      exact (congrArg Option.isSome (Function.update_of_ne hn _ _)).trans hsome
    rw [hroots]
    cases hr : s.drvRoots name with
    | none =>
      refine ⟨∅, Quiet.passes ⟨fun n hn => hothers n ?_, hroots, hbuilt, hnum, hfreed⟩ hs, by simp⟩
      rintro rfl
      rw [hr] at hn
      cases hn
    | some root =>
      exact ⟨{root.1}, passes_unrecord hs hr rfl hothers hbuilt hnum hfreed, (setOf_some_eq root.1).symm⟩

theorem nsRegister_frame (name : String) (ep : ℕ) (s : Registry) :
    (nsRegister name ep s).2.drvMap = s.drvMap ∧ (nsRegister name ep s).2.drvRoots = s.drvRoots ∧
      (nsRegister name ep s).2.built = s.built ∧ (nsRegister name ep s).2.roots = s.roots ∧
          (nsRegister name ep s).2.freed = s.freed := by
  unfold nsRegister
  cases validName name with
  | error e => exact ⟨rfl, rfl, rfl, rfl, rfl⟩
  | ok u =>
    dsimp only
    split_ifs <;> exact ⟨rfl, rfl, rfl, rfl, rfl⟩

theorem owns_registerDriver (name : String) (ep : ℕ) (mIntId : Option ℕ) (kind : DriverKind) (service endpoints : List ℕ) :
    pages.Owns R (registerDriver name ep mIntId kind service endpoints) fun _ R' => R' = R := by
  unfold registerDriver
  cases validDriverName name with
  | error e => rfl
  | ok u =>
    refine owns_quiet fun i s => ?_
    by_cases hmem : (s.drvMap name).isSome = true
    · simp only [hmem, if_true]
      exact .refl s
    · simp only [hmem, Bool.false_eq_true, if_false]
      generalize hinfo : DriverInfo.mk name ep kind mIntId none service endpoints = info
      obtain ⟨hmap, hroots, hbuilt, hnum, hfreed⟩ :=
        nsRegister_frame name ep { s with drvMap := Function.update s.drvMap name (some info) }
      have hadd : ∀ n, (s.drvMap n).isSome → (Function.update s.drvMap name (some info) n).isSome := by
        refine (Function.forall_update_iff s.drvMap (p := fun n o => (s.drvMap n).isSome → o.isSome)).mpr ?_
        exact ⟨fun _ => rfl, fun _ _ => id⟩
      -- whichever error it is, the name is out of the map again
      have hback : ∀ u : Registry, u = (nsRegister name ep { s with drvMap := Function.update s.drvMap name (some info) }).2 →
          Quiet s { u with drvMap := Function.update u.drvMap name none } := by
        rintro u rfl
        refine ⟨fun n _ hn => ?_, hroots, hbuilt, hnum, hfreed⟩
        have hne : n ≠ name := by
          rintro rfl
          exact hmem hn
        refine (congrArg Option.isSome (Function.update_of_ne hne _ _)).trans ?_
        rw [hmap]
        exact hadd n hn
      generalize hreg : nsRegister name ep { s with drvMap := Function.update s.drvMap name (some info) } = r at *
      obtain ⟨r, u⟩ := r
      cases r with
      | ok v => exact ⟨fun n _ hn => by rw [hmap]; exact hadd n hn, hroots, hbuilt, hnum, hfreed⟩
      | error e => cases e <;> exact hback u rfl

theorem owns_addDriverService {name : String} {tid : ℕ} :
    pages.Owns R (addDriverService name tid) fun _ R' => R' = R := by
  refine owns_quiet fun i s => ?_
  dsimp only
  cases hm : s.drvMap name with
  | none => exact .refl s
  | some info =>
    refine ⟨fun n _ => ?_, rfl, rfl, rfl, rfl⟩
    refine Function.forall_update_iff s.drvMap (p := fun n o => (s.drvMap n).isSome → o.isSome) |>.mpr ?_ n
    exact ⟨fun _ => rfl, fun _ _ => id⟩

theorem owns_lookupDriverRoot {name : String} : pages.Owns R (lookupDriverRoot name) fun _ R' => R' = R :=
  owns_quiet fun _ s => .refl s

end Sections

section Calls

theorem owns_dropFreshRoot : pages.Owns {pm} (dropFreshRoot pm) fun _ R' => R' = ∅ :=
  owns_hal_seq fun _ => owns_hal_seq fun _ => owns_freeUserTables

/-- A root that a core still runs on is nobody's from here on. -/
theorem owns_retireRoot : pages.Owns {pm} (retireRoot pm) fun _ R' => R' = ∅ := by
  refine owns_hal_seq fun _ => ?_
  intro i s hs
  by_cases hlive : i.rc ≠ 0
  · refine ⟨∅, Resources.Passes.refl hs (RootsKept.refl s) (Set.empty_subset _), ?_⟩
    simp only [Code.bind, if_pos hlive]
    exact rfl
  · refine ⟨{pm}, (Quiet.refl s).passes hs, ?_⟩
    simp only [Code.bind, if_neg hlive]
    exact owns_freeUserTables

theorem owns_buildDriverRoot {name : String} {slot : ℤ} :
    pages.Owns ∅ (buildDriverRoot name slot) fun r R' => R' = {p | r.map Prod.fst = some p} := by
  have hdrop : ∀ pm, pages.Owns {pm} (dropFreshRoot pm >>= fun _ => (pure none : H (Option (PageMap × ℕ))))
      fun r R' => R' = {p | r.map Prod.fst = some p} := fun pm =>
    .seq owns_dropFreshRoot fun _ R' hR => by simp [hR]
  refine .seq owns_allocPageMap fun a R' hR => ?_
  cases a with
  | none =>
    obtain rfl : R' = ∅ := hR
    simp
  | some pm =>
    obtain rfl : R' = {pm} := hR
    dsimp only
    refine owns_hal_seq fun occupied => ?_
    split_ifs
    · exact hdrop pm
    refine owns_hal_seq fun rc => ?_
    split_ifs
    · exact hdrop pm
    refine owns_hal_seq fun nr => ?_
    split_ifs
    · exact hdrop pm
    refine owns_hal_seq fun asid => owns_hal_seq fun reg => ?_
    split_ifs
    · exact hdrop pm
    · exact (setOf_some_eq pm).symm

theorem owns_installDriverRoot {name : String} {slot : ℤ} :
    pages.Owns ∅ (installDriverRoot name slot) fun _ _ => True := by
  unfold installDriverRoot
  split_ifs with hslot
  · trivial
  refine .seq owns_buildDriverRoot fun r R' hR => ?_
  cases r with
  | none => trivial
  | some root =>
    obtain ⟨pm, asid⟩ := root
    obtain rfl : R' = {pm} := hR.trans (setOf_some_eq pm)
    refine .seq owns_registerDriverRoot fun r R' hR => ?_
    cases r with
    | error e =>
      obtain rfl : R' = {pm} := by simpa using hR
      exact .seq owns_dropFreshRoot fun _ _ _ => trivial
    | ok u =>
      obtain rfl : R' = ∅ := by simpa using hR
      intro tid
      refine owns_addDriverService.seq fun r R' hR => ?_
      subst hR
      cases r with
      | ok u => trivial
      | error e =>
        -- the map has it, or who claimed it: the rollback asks again
        refine Resources.Owns.seq (M := fun _ R' => R' = ∅) (c := killH tid) rfl fun _ R' hR => ?_
        subst hR
        refine .seq owns_claimRoot fun owned R' hR => ?_
        cases owned with
        | false => trivial
        | true =>
          obtain rfl : R' = {pm} := by simpa using hR
          exact .seq owns_dropFreshRoot fun _ _ _ => trivial

theorem owns_reapAndRestartDriver {name : String} {slot : ℤ} :
    pages.Owns ∅ (reapAndRestartDriver name slot pm) fun _ _ => True := by
  refine .seq owns_claimRoot fun owned R' hR => ?_
  cases owned with
  | false => trivial
  | true =>
    obtain rfl : R' = {pm} := by simpa using hR
    refine .seq owns_retireRoot fun _ R' hR => ?_
    subst hR
    refine .seq owns_buildDriverRoot fun r R' hR => ?_
    cases r with
    | none => trivial
    | some root =>
      obtain ⟨pm2, asid2⟩ := root
      obtain rfl : R' = {pm2} := hR.trans (setOf_some_eq pm2)
      refine .seq owns_registerDriverRoot fun r R' hR => ?_
      cases r with
      | error e =>
        obtain rfl : R' = {pm2} := by simpa using hR
        exact .mono owns_dropFreshRoot fun _ _ _ => trivial
      | ok u => trivial

theorem owns_forM {β : Type} {f : β → H Unit} (hf : ∀ b R, pages.Owns R (f b) fun _ R' => R' = R) (l : List β) :
    pages.Owns R (l.forM f) fun _ R' => R' = R := by
  induction l with
  | nil => rfl
  | cons b l ih =>
    refine (hf b R).seq fun _ R' hR => ?_
    subst hR
    exact ih

theorem owns_unregisterDriver {name : String} : pages.Owns ∅ (unregisterDriver name) fun _ _ => True := by
  refine .seq owns_claimDriver fun claimed R' hR => ?_
  obtain ⟨mInfo, mRoot⟩ := claimed
  cases mInfo with
  | none => trivial
  | some info =>
    dsimp only
    refine (owns_forM (fun _ _ => owns_quiet fun _ s => ⟨fun _ _ => id, rfl, rfl, rfl, rfl⟩) _).seq fun _ R₁ h₁ => ?_
    refine (owns_forM (fun _ _ => owns_quiet fun _ s => ⟨fun _ _ => id, rfl, rfl, rfl, rfl⟩) _).seq fun _ R₂ h₂ => ?_
    refine (owns_forM (f := killH) (fun _ _ => rfl) _).seq fun _ R₃ h₃ => ?_
    subst h₁ h₂ h₃
    cases mRoot with
    | none => trivial
    | some root =>
      obtain ⟨pm, asid, slot⟩ := root
      obtain rfl : R₃ = {pm} := hR.trans (setOf_some_eq pm)
      exact .seq owns_retireRoot fun _ _ _ => trivial

theorem owns_takeParkedDriver : pages.Owns R (takeParkedDriver pm) fun _ R' => R' = R := by
  refine owns_hal_seq fun parked => ?_
  split_ifs
  · rfl
  · exact owns_quiet fun _ s => .refl s

theorem owns_driverFaultWatch {name : String} {slot : ℤ} : pages.Owns ∅ (driverFaultWatch name slot) fun _ _ => True := by
  refine .seq owns_lookupDriverRoot fun r R' hR => ?_
  subst hR
  cases r with
  | none => trivial
  | some root =>
    obtain ⟨pm, asid, sl⟩ := root
    refine .seq owns_takeParkedDriver fun park R' hR => ?_
    subst hR
    cases park with
    | none => trivial
    | some park =>
      cases park with
      | driverPreempt x0 => exact owns_hal_seq fun _ => trivial
      | driverKill va => exact .seq owns_reapAndRestartDriver fun _ _ _ => trivial
      | driverUnexpected req x0 => exact .seq owns_reapAndRestartDriver fun _ _ _ => trivial

/-- Every call leaves alone the roots of the others. -/
theorem owns_code (c : Call) : pages.Owns ∅ c.code fun _ _ => True := by
  cases c with
  | registerDriver name ep mIntId kind service endpoints =>
    exact (owns_registerDriver name ep mIntId kind service endpoints).seq fun _ _ _ => trivial
  | unregisterDriver name => exact .seq owns_unregisterDriver fun _ _ _ => trivial
  | installDriverRoot name slot => exact .seq owns_installDriverRoot fun _ _ _ => trivial
  | driverFaultWatch name slot => exact owns_driverFaultWatch
  | reapAndRestartDriver name slot pm => exact owns_reapAndRestartDriver

end Calls

/-- Registrations, installations, watches, reaps and teardowns of any drivers, in any number of threads
and any order of their sections: no root is freed twice, no recorded root is freed, no root stays recorded
without its driver, and no root is put in the place of a recorded one. -/
theorem driver_roots_have_one_owner (t : Endpoints) (as : List (Turn Answer Call)) :
    Throughout registryStep (fun m => RootsOwned m.shared) (Machine.init (Registry.boot t)) as ∧
    Along registryStep (fun m a => ∀ m', registryStep m a = some m' → RootsKept m.shared m'.shared)
      (Machine.init (Registry.boot t)) as := by
  have hok : pages.ok (Registry.boot t) := by
    refine ⟨⟨?_, ?_, ?_, List.nodup_nil⟩, ?_, ?_⟩ <;> simp [Registry.boot, OneKey, Registry.rootPage]
  have hheld : pages.held (Registry.boot t) ⊆ pages.live (Registry.boot t) := by
    rintro p ⟨name, h⟩
    cases h
  refine ⟨fun bs hbs m hrun => ?_, Resources.owned_moves owns_code hok hheld RootsKept.refl as⟩
  obtain ⟨⟨hnum, hone, hreg⟩, hshared, -, -⟩ := Resources.owned_throughout owns_code hok hheld as bs hbs m hrun
  exact ⟨hnum.freedOnce, fun name pm h => inUse_iff.mp (hshared ⟨name, h⟩), hone, hreg⟩

end HouseKernel.Driver
