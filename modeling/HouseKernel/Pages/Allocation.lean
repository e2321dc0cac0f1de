import HouseKernel.Lib.Run
import HouseKernel.Pages.Buddy

/-! The page allocator of the kernel's two sides. At boot the static pool becomes a list on the
Haskell side, and the memory behind the heap becomes the window of the buddy allocator, which the
Haskell side falls back to and the HAL calls directly. A page may also be registered under a key:
it is freed, before some later allocation, once the key has been collected. -/
namespace HouseKernel.Pages

open Lib

/-- Where the image and the machine put the two banks. The pool is a static of the image, whose
end lies below the heap. -/
structure Layout where
  poolBase : ℕ
  heapBase : ℕ
  bootStackTop : ℕ
  smp : ℕ
  pool_pos : 0 < poolBase
  pool_aligned : pageSize ∣ poolBase
  pool_below : poolBase + 512 * pageSize ≤ heapBase
  heap_lt : heapBase + 64 * 2 ^ 20 < 2 ^ 64
  stack_lt : bootStackTop < 2 ^ 64

namespace Layout

variable (L : Layout)

/-- The end of the static pool of 512 pages. -/
def poolEnd : ℕ := L.poolBase + 512 * pageSize

def buddyLow : ℕ := pageDown (addOrMax ((L.heapBase + 64 * 2 ^ 20) % 2 ^ 64) 4095)

/-- The top of the memory, less a stack for each core that was detected. -/
def buddyHigh : ℕ :=
  let reserve := max 1 (min L.smp 32) * 65536
  pageDown (if reserve ≤ L.bootStackTop then L.bootStackTop - reserve else L.bootStackTop)

end Layout

structure Kernel where
  buddy : Buddy
  freeList : List ℕ
  /-- The registered pages with their keys; the finalizer of each is `freePage`. -/
  registered : List (ℕ × ℕ)
  /-- The keys that have been collected. -/
  dead : List ℕ
  /-- The pages that were given out and have not come back: a record that the code does not keep. -/
  held : List ℕ

/-- The recursion ends at `maxAddr`; the fuel bounds it. -/
def enumPages (maxAddr : ℕ) : ℕ → ℕ → List ℕ
  | 0, _ => []
  | fuel + 1, a => if a < maxAddr then a :: enumPages maxAddr fuel (a + pageSize) else []

/-- Boot: without room behind the heap neither bank is set up. -/
def boot (L : Layout) (mem : ℕ → ℕ) : Kernel :=
  if L.buddyLow < L.buddyHigh then
    ⟨buddyInit L.buddyLow L.buddyHigh (Buddy.unset mem), enumPages L.poolEnd L.poolEnd L.poolBase, [], [], []⟩
  else ⟨Buddy.unset mem, [], [], [], []⟩

def allocPageFromList (w : Kernel) : Option ℕ × Kernel :=
  match w.freeList with
  | page :: rest => (some page, { w with freeList := rest, held := page :: w.held })
  | [] =>
    let mp := buddyAllocPage w.buddy
    if mp.1 = 0 then (none, { w with buddy := mp.2 })
    else (some mp.1, { w with buddy := mp.2, held := mp.1 :: w.held })

def freePage (page : ℕ) (w : Kernel) : Kernel :=
  if buddyContains page w.buddy then
    { w with buddy := buddyFreePage page w.buddy, held := w.held.erase page }
  else { w with freeList := page :: w.freeList, held := w.held.erase page }

/-- Take the pages off the register whose keys are gone, then run their finalizers. -/
def cleanRegisteredPages (w : Kernel) : Kernel :=
  let (rs, cs) := w.registered.partition fun r => r.2 ∉ w.dead
  cs.foldl (fun w r => freePage r.1 w) { w with registered := rs }

def allocPage (w : Kernel) : Option ℕ × Kernel := allocPageFromList (cleanRegisteredPages w)

/-- The allocation of the HAL, which does not look at the register or the list. -/
def buddyAlloc (w : Kernel) : Option ℕ × Kernel :=
  let mp := buddyAllocPage w.buddy
  if mp.1 = 0 then (none, { w with buddy := mp.2 })
  else (some mp.1, { w with buddy := mp.2, held := mp.1 :: w.held })

def freePageCount (w : Kernel) : ℕ := w.freeList.length + buddyFreeCount w.buddy

inductive Action
  | allocPage
  | freePage (page : ℕ)
  | buddyAlloc
  | buddyFree (p : ℕ)
  | registerPage (page key : ℕ)
  | collect (key : ℕ)
  | write (address value : ℕ)
  deriving DecidableEq, Repr

/-- The page is held, and nobody has left it to the register to free it. -/
def Kernel.Owns (w : Kernel) (p : ℕ) : Prop := p ∈ w.held ∧ p ∉ w.registered.map (·.1)

instance (w : Kernel) (p : ℕ) : Decidable (w.Owns p) := inferInstanceAs (Decidable (_ ∧ _))

/-- One call. A caller frees or registers only a page it owns, and writes only to pages that are
held or that the buddy allocator does not manage. -/
def step (w : Kernel) : Action → Option Kernel
  | .allocPage => some (allocPage w).2
  | .freePage page => if w.Owns page then some (freePage page w) else none
  | .buddyAlloc => some (buddyAlloc w).2
  | .buddyFree p =>
    if buddyContains p w.buddy then
      if w.Owns p then some { w with buddy := buddyFreePage p w.buddy, held := w.held.erase p } else none
    else some { w with buddy := buddyFreePage p w.buddy }
  | .registerPage page key =>
    if w.Owns page then some { w with registered := (page, key) :: w.registered } else none
  | .collect key => some { w with dead := key :: w.dead }
  | .write address value =>
    if pageDown address ∈ w.held ∨ !buddyContains (pageDown address) w.buddy then
      some { w with buddy := { w.buddy with mem := Function.update w.buddy.mem address value } }
    else none

/-- The pages of both banks. -/
def Kernel.allPages (w : Kernel) : List ℕ := w.freeList ++ w.buddy.allPages

/-- A kernel in which no page was given out yet: its banks are apart. -/
structure Seeded (w : Kernel) : Prop where
  stocks : w.buddy.Stocks w.buddy.allPages
  nodup : w.freeList.Nodup
  apart : ∀ p ∈ w.freeList, !buddyContains p w.buddy
  aligned : ∀ p ∈ w.freeList, p % pageSize = 0
  fresh : w.held = [] ∧ w.registered = []

/-- Each bank of the seeded kernel `w₀` has its pages free or held, and what is registered is held. -/
structure Sound (w₀ w : Kernel) : Prop where
  bounds : w.buddy.bounds = w₀.buddy.bounds
  buddy : ∃ free, w.buddy.Stocks free ∧ Split w₀.buddy.allPages free (w.held.filter fun p => buddyContains p w₀.buddy)
  pool : Split w₀.freeList w.freeList (w.held.filter fun p => !buddyContains p w₀.buddy)
  registered : (w.registered.map (·.1)).Nodup
  registered_held : ∀ p ∈ w.registered.map (·.1), p ∈ w.held

section Sound

variable {w₀ w : Kernel} {p : ℕ}

theorem Seeded.sound (h : Seeded w₀) : Sound w₀ w₀ := by
  obtain ⟨hheld, hreg⟩ := h.fresh
  refine ⟨rfl, ⟨_, h.stocks, ?_⟩, ?_, ?_, ?_⟩
  · rw [hheld]
    exact split_full _
  · rw [hheld]
    exact split_full _
  · rw [hreg]
    exact List.nodup_nil
  · rw [hreg]
    exact fun _ => nofun

theorem Sound.contains (h : Sound w₀ w) (p : ℕ) : buddyContains p w.buddy = buddyContains p w₀.buddy :=
  buddyContains_congr h.bounds

theorem Seeded.nodup_buddy (h : Seeded w₀) : w₀.buddy.allPages.Nodup := h.stocks.nodup

/-- No page is held twice. -/
theorem Sound.nodup_held (hw : Seeded w₀) (h : Sound w₀ w) : w.held.Nodup := by
  obtain ⟨free, -, hsplit⟩ := h.buddy
  have hb := (List.nodup_append'.mp (hsplit.nodup hw.nodup_buddy)).2.1
  have hp := (List.nodup_append'.mp (h.pool.nodup hw.nodup)).2.1
  rw [← (List.filter_append_perm (fun p => buddyContains p w₀.buddy) w.held).nodup_iff, List.nodup_append']
  refine ⟨hb, hp, fun p h1 h2 => ?_⟩
  simp_all

/-- The pages that can be handed out, over both banks. -/
def Kernel.freeTotal (w : Kernel) : ℕ := w.freeList.length + w.buddy.freePages

/-- What an allocation does when it hands out `p`. -/
structure Handed (w₀ w w' : Kernel) (p : ℕ) : Prop where
  sound : Sound w₀ w'
  held : w'.held = p :: w.held
  kept : w'.registered = w.registered ∧ w'.dead = w.dead
  fresh : p ∉ w.held
  managed : p ∈ w₀.allPages

theorem Sound.take_pool (hw : Seeded w₀) (h : Sound w₀ w) {rest : List ℕ} (hlist : w.freeList = p :: rest) :
    Handed w₀ w { w with freeList := rest, held := p :: w.held } p := by
  have hfree : p ∈ w.freeList := hlist ▸ List.mem_cons_self
  have hmem : p ∈ w₀.freeList := h.pool.mem_all hfree
  have hout : buddyContains p w₀.buddy = false := by simpa using hw.apart p hmem
  have hfresh : p ∉ w.held := by
    have := h.pool.notMem_held hw.nodup hfree
    simpa [hout] using this
  refine ⟨⟨h.bounds, ?_, ?_, h.registered, ?_⟩, rfl, ⟨rfl, rfl⟩, hfresh, List.mem_append_left _ hmem⟩
  · simpa [List.filter_cons, hout] using h.buddy
  · have hpool := h.pool
    rw [hlist] at hpool
    simpa [List.filter_cons, hout] using hpool.take (List.Perm.refl _)
  · exact fun q hq => List.mem_cons_of_mem p (h.registered_held q hq)

theorem Sound.take_buddy (hw : Seeded w₀) (h : Sound w₀ w) (hsome : 0 < w.buddy.freePages) :
    ∃ p b, buddyAllocPage w.buddy = (p, b) ∧ p ≠ 0 ∧ buddyContains p w₀.buddy ∧
      Handed w₀ w { w with buddy := b, held := p :: w.held } p := by
  obtain ⟨free, hstocks, hsplit⟩ := h.buddy
  cases free with
  | nil => simp [hstocks.counted] at hsome
  | cons p rest =>
    obtain ⟨b, halloc, hrest, hbounds⟩ := hstocks.alloc_cons
    have hin : buddyContains p w₀.buddy := by
      rw [← h.contains p]
      exact hstocks.inside p List.mem_cons_self
    have hfresh : p ∉ w.held := by
      have := hsplit.notMem_held hw.nodup_buddy List.mem_cons_self
      simpa [hin] using this
    refine ⟨p, b, halloc, (buddyContains_iff.mp hin).1, hin, ⟨hbounds.trans h.bounds, ⟨rest, hrest, ?_⟩, ?_, h.registered, ?_⟩,
      rfl, ⟨rfl, rfl⟩, hfresh, ?_⟩
    · simpa [List.filter_cons, hin] using hsplit.take (List.Perm.refl _)
    · simpa [List.filter_cons, hin] using h.pool
    · exact fun q hq => List.mem_cons_of_mem p (h.registered_held q hq)
    · exact List.mem_append_right _ (hsplit.mem_all List.mem_cons_self)

theorem Sound.alloc_none (h : Sound w₀ w) (hnone : w.buddy.freePages = 0) : buddyAllocPage w.buddy = (0, w.buddy) := by
  obtain ⟨free, hstocks, -⟩ := h.buddy
  obtain rfl : free = [] := List.length_eq_zero_iff.mp (hstocks.counted ▸ hnone)
  exact hstocks.alloc_nil

theorem filter_erase_of_neg {f : ℕ → Bool} (hp : f p = false) (l : List ℕ) : (l.erase p).filter f = l.filter f := by
  rw [← List.erase_filter]
  exact List.erase_of_not_mem fun hmem => by simp [hp] at hmem

/-- A page that is held and not registered goes back to its bank. -/
theorem Sound.freePage (hw : Seeded w₀) (h : Sound w₀ w) (hp : w.Owns p) : Sound w₀ (freePage p w) := by
  have hreg : ∀ q ∈ w.registered.map (·.1), q ∈ w.held.erase p := by
    intro q hq
    refine (List.mem_erase_of_ne ?_).mpr (h.registered_held q hq)
    rintro rfl
    exact hp.2 hq
  rw [Pages.freePage, h.contains p]
  cases hc : buddyContains p w₀.buddy with
  | true =>
    obtain ⟨free, hstocks, hsplit⟩ := h.buddy
    have hmem : p ∈ w.held.filter fun q => buddyContains q w₀.buddy := List.mem_filter.mpr ⟨hp.1, hc⟩
    have hroom : free.length < w.buddy.totalPages := by
      have hlen := hsplit.length
      have hpos := List.length_pos_of_mem hmem
      have htotal : w.buddy.totalPages = w₀.buddy.allPages.length := by
        rw [← Buddy.allPages_congr h.bounds, Buddy.allPages, length_pagesFrom]
      omega
    have hback := hstocks.give (by rw [h.contains p]; exact hc) (hsplit.notMem_free hw.nodup_buddy hmem) hroom
    rw [if_pos rfl]
    refine ⟨(buddyFreePage_bounds p w.buddy).trans h.bounds, ⟨_, hback, ?_⟩, ?_, h.registered, hreg⟩
    · rw [← List.erase_filter]
      exact hsplit.give hmem
    · rw [filter_erase_of_neg (by simp [hc])]
      exact h.pool
  | false =>
    have hmem : p ∈ w.held.filter fun q => !buddyContains q w₀.buddy := List.mem_filter.mpr ⟨hp.1, by simp [hc]⟩
    rw [if_neg Bool.false_ne_true]
    refine ⟨h.bounds, ?_, ?_, h.registered, hreg⟩
    · rw [filter_erase_of_neg hc]
      exact h.buddy
    · rw [← List.erase_filter]
      exact h.pool.give hmem

@[simp] theorem freePage_held (page : ℕ) (w : Kernel) : (Pages.freePage page w).held = w.held.erase page := by
  rw [Pages.freePage, apply_ite Kernel.held, ite_self]

theorem freePage_kept (page : ℕ) (w : Kernel) :
    (Pages.freePage page w).registered = w.registered ∧ (Pages.freePage page w).dead = w.dead := by
  unfold Pages.freePage
  split_ifs
  · exact ⟨rfl, rfl⟩
  · exact ⟨rfl, rfl⟩

/-- Free the pages of some registrations, one after the other. -/
def freeEach (cs : List (ℕ × ℕ)) (w : Kernel) : Kernel := cs.foldl (fun w r => Pages.freePage r.1 w) w

theorem freeEach_held (cs : List (ℕ × ℕ)) (w : Kernel) : (freeEach cs w).held = w.held.diff (cs.map (·.1)) := by
  induction cs generalizing w with
  | nil => rfl
  | cons r cs ih => exact (ih _).trans (by rw [freePage_held, List.map_cons, List.diff_cons])

theorem freeEach_kept (cs : List (ℕ × ℕ)) (w : Kernel) :
    (freeEach cs w).registered = w.registered ∧ (freeEach cs w).dead = w.dead := by
  induction cs generalizing w with
  | nil => exact ⟨rfl, rfl⟩
  | cons r cs ih => exact ⟨(ih _).1.trans (freePage_kept _ _).1, (ih _).2.trans (freePage_kept _ _).2⟩

theorem Sound.freeEach (hw : Seeded w₀) {cs : List (ℕ × ℕ)} (h : Sound w₀ w) (hcs : (cs.map (·.1)).Nodup)
    (howns : ∀ p ∈ cs.map (·.1), w.Owns p) : Sound w₀ (freeEach cs w) := by
  induction cs generalizing w with
  | nil => exact h
  | cons r cs ih =>
    rw [List.map_cons, List.nodup_cons] at hcs
    refine ih (h.freePage hw (howns r.1 List.mem_cons_self)) hcs.2 fun p hp => ?_
    obtain ⟨hheld, hout⟩ := howns p (List.mem_cons_of_mem _ hp)
    refine ⟨?_, by rwa [(freePage_kept r.1 w).1]⟩
    have hne : p ≠ r.1 := by
      rintro rfl
      exact hcs.1 hp
    rw [freePage_held, List.mem_erase_of_ne hne]
    exact hheld

/-- The registered pages whose keys were collected: the next allocation frees them. -/
def Kernel.dying (w : Kernel) : List ℕ := (w.registered.filter fun r => r.2 ∈ w.dead).map (·.1)

/-- The pages that somebody may still use. -/
def Kernel.inUse (w : Kernel) : List ℕ := w.held.filter fun p => p ∉ w.dying

theorem cleanRegisteredPages_eq (w : Kernel) : cleanRegisteredPages w =
    freeEach (w.registered.filter fun r => r.2 ∈ w.dead) { w with registered := w.registered.filter fun r => r.2 ∉ w.dead } := by
  rw [cleanRegisteredPages, List.partition_eq_filter_filter]
  simp only [freeEach, Function.comp_def, decide_not, Bool.not_not]

/-- Cleaning keeps the banks sound, and leaves just the pages in use, none of them dying. -/
theorem Sound.clean (hw : Seeded w₀) (h : Sound w₀ w) : Sound w₀ (cleanRegisteredPages w) ∧
    (cleanRegisteredPages w).held = w.inUse ∧ (cleanRegisteredPages w).dying = [] := by
  have hmap : ∀ f : ℕ × ℕ → Bool, ((w.registered.filter f).map (·.1)).Nodup := fun f =>
    h.registered.sublist (List.filter_sublist.map _)
  have hapart : ∀ p ∈ w.dying, p ∉ (w.registered.filter fun r => r.2 ∉ w.dead).map (·.1) := by
    intro p hp hq
    obtain ⟨r, hr, rfl⟩ := List.mem_map.mp hp
    obtain ⟨r', hr', heq⟩ := List.mem_map.mp hq
    obtain ⟨hr, hdead⟩ := List.mem_filter.mp hr
    obtain ⟨hr', hlive⟩ := List.mem_filter.mp hr'
    obtain rfl : r' = r := List.inj_on_of_nodup_map h.registered hr' hr heq
    simp_all
  have hstart : Sound w₀ { w with registered := w.registered.filter fun r => r.2 ∉ w.dead } :=
    ⟨h.bounds, h.buddy, h.pool, hmap _,
      fun p hp => h.registered_held p (List.map_subset _ (List.filter_subset_self _) hp)⟩
  have hheld : ∀ p ∈ w.dying, p ∈ w.held := fun p hp =>
    h.registered_held p (List.map_subset _ (List.filter_subset_self _) hp)
  rw [cleanRegisteredPages_eq]
  refine ⟨hstart.freeEach hw (hmap _) fun p hp => ⟨hheld p hp, hapart p hp⟩, ?_, ?_⟩
  · rw [freeEach_held, (h.nodup_held hw).sdiff_eq_filter]
    rfl
  · obtain ⟨hreg, hdead⟩ := freeEach_kept (w.registered.filter fun r => r.2 ∈ w.dead)
      { w with registered := w.registered.filter fun r => r.2 ∉ w.dead }
    rw [Kernel.dying, hreg, hdead]
    simp

/-- The free pages and the held ones are the pages of the two banks, and so in each bank. -/
theorem Sound.counted (h : Sound w₀ w) :
    w.buddy.freePages + (w.held.filter fun p => buddyContains p w₀.buddy).length = w₀.buddy.totalPages ∧
      w.freeTotal + w.held.length = w₀.allPages.length := by
  obtain ⟨free, hstocks, hsplit⟩ := h.buddy
  have hb := hsplit.length
  have hp := h.pool.length
  have hheld := List.Perm.length_eq (List.filter_append_perm (fun p => buddyContains p w₀.buddy) w.held)
  have htotal : w₀.buddy.allPages.length = w₀.buddy.totalPages := length_pagesFrom _ _
  rw [List.length_append] at hheld
  rw [Kernel.freeTotal, Kernel.allPages, List.length_append, hstocks.counted]
  omega

theorem Sound.buddyAlloc (hw : Seeded w₀) (h : Sound w₀ w) :
    (w.buddy.freePages = 0 ∧ Pages.buddyAlloc w = (none, w)) ∨
      ∃ p w', Pages.buddyAlloc w = (some p, w') ∧ Handed w₀ w w' p ∧ buddyContains p w₀.buddy := by
  obtain hnone | hsome := Nat.eq_zero_or_pos w.buddy.freePages
  · exact .inl ⟨hnone, by simp [Pages.buddyAlloc, h.alloc_none hnone]⟩
  · obtain ⟨p, b, halloc, hp, hin, hhanded⟩ := h.take_buddy hw hsome
    exact .inr ⟨p, _, by simp [Pages.buddyAlloc, halloc, hp], hhanded, hin⟩

/-- With an empty list the Haskell side asks the buddy allocator. -/
theorem allocPageFromList_nil (h : w.freeList = []) : Pages.allocPageFromList w = Pages.buddyAlloc w := by
  rw [Pages.allocPageFromList]
  split
  · simp_all
  · rfl

theorem allocPageFromList_cons {rest : List ℕ} (h : w.freeList = p :: rest) :
    Pages.allocPageFromList w = (some p, { w with freeList := rest, held := p :: w.held }) := by
  rw [Pages.allocPageFromList]
  split
  · simp_all
  · simp_all

theorem Sound.allocPageFromList (hw : Seeded w₀) (h : Sound w₀ w) :
    (w.freeTotal = 0 ∧ Pages.allocPageFromList w = (none, w)) ∨
      ∃ p w', Pages.allocPageFromList w = (some p, w') ∧ Handed w₀ w w' p := by
  cases hlist : w.freeList with
  | cons page rest => exact .inr ⟨page, _, allocPageFromList_cons hlist, h.take_pool hw hlist⟩
  | nil =>
    rw [allocPageFromList_nil hlist]
    obtain ⟨hnone, halloc⟩ | ⟨p, w', halloc, hhanded, -⟩ := h.buddyAlloc hw
    · exact .inl ⟨by rw [Kernel.freeTotal, hlist, hnone]; rfl, halloc⟩
    · exact .inr ⟨p, w', halloc, hhanded⟩

theorem inUse_of_dying_nil (h : w.dying = []) : w.inUse = w.held := by
  simp [Kernel.inUse, h]

/-- An allocation gives out a page that nobody uses, unless all pages are in use. -/
theorem Sound.allocPage (hw : Seeded w₀) (h : Sound w₀ w) :
    (w.inUse.length = w₀.allPages.length ∧ (Pages.allocPage w).1 = none) ∨
      ∃ p w', Pages.allocPage w = (some p, w') ∧ Sound w₀ w' ∧ w'.inUse = p :: w.inUse ∧ p ∉ w.inUse ∧ p ∈ w₀.allPages := by
  obtain ⟨hclean, hheld, hdying⟩ := h.clean hw
  rw [Pages.allocPage, ← hheld]
  obtain ⟨hnone, halloc⟩ | ⟨p, w', halloc, hhanded⟩ := hclean.allocPageFromList hw
  · refine .inl ⟨?_, by rw [halloc]⟩
    have := hclean.counted.2
    omega
  · refine .inr ⟨p, w', halloc, hhanded.sound, ?_, hhanded.fresh, hhanded.managed⟩
    have hrest : w'.dying = [] := by
      rwa [Kernel.dying, hhanded.kept.1, hhanded.kept.2]
    rw [inUse_of_dying_nil hrest, hhanded.held]

/-- Allocations alone succeed until all pages are in use. -/
theorem Sound.exhaust_allocPage (hw : Seeded w₀) (h : Sound w₀ w) {fuel : ℕ} (hfuel : w₀.allPages.length ≤ fuel) :
    (exhaust Pages.allocPage fuel w).1.length + w.inUse.length = w₀.allPages.length ∧
      (Pages.allocPage (exhaust Pages.allocPage fuel w).2).1 = none := by
  have hle : w.inUse.length ≤ w₀.allPages.length := by
    rw [← (h.clean hw).2.1, ← (h.clean hw).1.counted.2]
    exact Nat.le_add_left _ _
  have hleft : (exhaust Pages.allocPage fuel w).1.length = w₀.allPages.length - w.inUse.length ∧
      (Pages.allocPage (exhaust Pages.allocPage fuel w).2).1 = none := by
    refine exhaust_length (I := fun s n => Sound w₀ s ∧ s.inUse.length + n = w₀.allPages.length) ?_ ?_
      ⟨h, by omega⟩ (by omega)
    · rintro s n ⟨hs, hn⟩
      obtain ⟨hfull, -⟩ | ⟨p, t, halloc, ht, huse, -⟩ := hs.allocPage hw
      · omega
      · refine ⟨p, t, halloc, ht, ?_⟩
        rw [huse, List.length_cons]
        omega
    · rintro s ⟨hs, hn⟩
      obtain ⟨-, hnone⟩ | ⟨p, t, -, ht, huse, -⟩ := hs.allocPage hw
      · exact hnone
      · have hcount := ht.counted.2
        have hmany : t.inUse.length ≤ t.held.length := List.length_filter_le _ _
        rw [huse, List.length_cons] at hmany
        omega
  exact ⟨by omega, hleft.2⟩

/-- Allocations from the window succeed until all of its pages are held. -/
theorem Sound.exhaust_buddyAlloc (hw : Seeded w₀) (h : Sound w₀ w) {fuel : ℕ} (hfuel : w₀.allPages.length ≤ fuel) :
    (exhaust Pages.buddyAlloc fuel w).1.length + (w.held.filter fun p => buddyContains p w₀.buddy).length =
        w₀.buddy.totalPages ∧
      (Pages.buddyAlloc (exhaust Pages.buddyAlloc fuel w).2).1 = none := by
  have hcount := h.counted
  have hmany : w.buddy.freePages ≤ fuel := by
    rw [Kernel.freeTotal] at hcount
    omega
  have hone : ∀ {s t : Kernel} {p : ℕ}, Sound w₀ s → Handed w₀ s t p → buddyContains p w₀.buddy →
      t.buddy.freePages + 1 = s.buddy.freePages := by
    intro s t p hs hhanded hin
    have hbefore := hs.counted.1
    have hafter := hhanded.sound.counted.1
    rw [hhanded.held, List.filter_cons, if_pos hin, List.length_cons] at hafter
    omega
  have hleft : (exhaust Pages.buddyAlloc fuel w).1.length = w.buddy.freePages ∧
      (Pages.buddyAlloc (exhaust Pages.buddyAlloc fuel w).2).1 = none := by
    refine exhaust_length (I := fun s n => Sound w₀ s ∧ s.buddy.freePages = n) ?_ ?_ ⟨h, rfl⟩ hmany
    · rintro s n ⟨hs, hn⟩
      obtain ⟨hnone, -⟩ | ⟨p, t, halloc, hhanded, hin⟩ := hs.buddyAlloc hw
      · omega
      · have hstep := hone hs hhanded hin
        exact ⟨p, t, halloc, hhanded.sound, by omega⟩
    · rintro s ⟨hs, hn⟩
      obtain ⟨-, hnone⟩ | ⟨p, t, -, hhanded, hin⟩ := hs.buddyAlloc hw
      · rw [hnone]
      · have hstep := hone hs hhanded hin
        omega
  exact ⟨by omega, hleft.2⟩

theorem Sound.step (hw : Seeded w₀) (h : Sound w₀ w) {a : Action} {w' : Kernel} (hstep : Pages.step w a = some w') :
    Sound w₀ w' := by
  cases a with
  | allocPage =>
    cases hstep
    have hclean := (h.clean hw).1
    obtain ⟨-, hnone⟩ | ⟨p, t, hsome, hhanded⟩ := hclean.allocPageFromList hw
    · rwa [Pages.allocPage, hnone]
    · rw [Pages.allocPage, hsome]
      exact hhanded.sound
  | freePage page =>
    rw [Pages.step] at hstep
    split_ifs at hstep with howns
    cases hstep
    exact h.freePage hw howns
  | buddyAlloc =>
    cases hstep
    obtain ⟨-, hnone⟩ | ⟨p, t, hsome, hhanded, -⟩ := h.buddyAlloc hw
    · rwa [hnone]
    · rw [hsome]
      exact hhanded.sound
  | buddyFree p =>
    rw [Pages.step] at hstep
    split_ifs at hstep with hin howns
    · cases hstep
      have hfree := h.freePage hw howns
      rwa [Pages.freePage, if_pos hin] at hfree
    · cases hstep
      rwa [buddyFreePage_of_outside hin]
  | registerPage page key =>
    rw [Pages.step] at hstep
    split_ifs at hstep with howns
    cases hstep
    refine ⟨h.bounds, h.buddy, h.pool, List.nodup_cons.mpr ⟨howns.2, h.registered⟩, fun p hp => ?_⟩
    obtain rfl | hp := List.mem_cons.mp hp
    · exact howns.1
    · exact h.registered_held p hp
  | collect key =>
    cases hstep
    exact ⟨h.bounds, h.buddy, h.pool, h.registered, h.registered_held⟩
  | write address value =>
    rw [Pages.step] at hstep
    split_ifs at hstep with hmay
    cases hstep
    obtain ⟨free, hstocks, hsplit⟩ := h.buddy
    refine ⟨h.bounds, ⟨free, hstocks.write fun hmem => ?_, hsplit⟩, h.pool, h.registered, h.registered_held⟩
    -- an address that is a page of the stock lies in that page
    have hin : buddyContains address w.buddy := hstocks.inside address hmem
    have hself : pageDown address = address :=
      Nat.div_mul_cancel (Nat.dvd_of_mod_eq_zero (buddyContains_iff.mp hin).2.1)
    rw [hself] at hmay
    obtain hheld | hout := hmay
    · have hin₀ : buddyContains address w₀.buddy := by rwa [← h.contains]
      exact hsplit.notMem_held hw.nodup_buddy hmem (List.mem_filter.mpr ⟨hheld, hin₀⟩)
    · simp [hin] at hout

theorem sound_run (hw : Seeded w₀) {as : List Action} (h : run Pages.step w₀ as = some w) : Sound w₀ w :=
  run_invariant (G := fun _ _ => True) (fun _ _ _ hs _ => hs.step hw) hw.sound (along_of_forall (fun _ _ => trivial) w₀ as) h

end Sound

section Boot

variable (L : Layout) (mem : ℕ → ℕ)

theorem enumPages_eq {maxAddr a n fuel : ℕ} (hmax : maxAddr = a + n * pageSize) (h : n ≤ fuel) :
    enumPages maxAddr fuel a = pagesFrom a n := by
  induction n generalizing a fuel with
  | zero =>
    have hend : ¬ a < maxAddr := by simp [hmax]
    cases fuel with
    | zero => rfl
    | succ fuel => rw [enumPages, if_neg hend, pagesFrom, List.range'_zero]
  | succ n ih =>
    cases fuel with
    | zero => simp at h
    | succ fuel =>
      have hlt : a < maxAddr := by
        rw [hmax]
        exact Nat.lt_add_of_pos_right (Nat.mul_pos n.succ_pos (by decide))
      have hnext : maxAddr = a + pageSize + n * pageSize := by
        rw [hmax]
        ring
      rw [enumPages, if_pos hlt, ih hnext (Nat.le_of_succ_le_succ h), pagesFrom, pagesFrom, List.range'_succ]

theorem pageDown_addOrMax {a : ℕ} (h : pageSize ∣ a) (ha : a < 2 ^ 64) : pageDown (addOrMax a 4095) = a := by
  unfold pageDown addOrMax pageSize at *
  split <;> omega

theorem Layout.buddyLow_bounds : pageSize ∣ L.buddyLow ∧ L.poolEnd ≤ L.buddyLow ∧ 0 < L.buddyLow ∧ L.buddyLow < 2 ^ 64 := by
  have hpos := L.pool_pos
  have hbelow := L.pool_below
  have hlt := L.heap_lt
  refine ⟨Nat.dvd_mul_left _ _, ?_⟩
  rw [Layout.buddyLow, Layout.poolEnd, Nat.mod_eq_of_lt hlt]
  unfold pageDown addOrMax pageSize at *
  split <;> omega

theorem Layout.buddyHigh_bounds : pageSize ∣ L.buddyHigh ∧ L.buddyHigh < 2 ^ 64 := by
  have hlt := L.stack_lt
  refine ⟨Nat.dvd_mul_left _ _, ?_⟩
  rw [Layout.buddyHigh]
  refine (Nat.div_mul_le_self _ _).trans_lt ?_
  split <;> omega

/-- With room behind the heap both banks are set up, the second one with the given bounds. -/
theorem boot_of_lt (h : L.buddyLow < L.buddyHigh) :
    (boot L mem).freeList = pagesFrom L.poolBase 512 ∧
      (boot L mem).buddy.buddyStart = L.buddyLow ∧ (boot L mem).buddy.buddyEnd = L.buddyHigh ∧
        (boot L mem).buddy.totalPages = (L.buddyHigh - L.buddyLow) / pageSize := by
  obtain ⟨hla, -, -, hlt⟩ := L.buddyLow_bounds
  have hhigh : pageDown L.buddyHigh = L.buddyHigh := Nat.div_mul_cancel L.buddyHigh_bounds.1
  have hfuel : 512 ≤ L.poolEnd := by
    unfold Layout.poolEnd pageSize
    omega
  have hlist : enumPages L.poolEnd L.poolEnd L.poolBase = pagesFrom L.poolBase 512 := enumPages_eq rfl hfuel
  rw [boot, if_pos h]
  constructor
  · exact hlist
  · rw [buddyInit, pageDown_addOrMax hla hlt, hhigh, if_neg (not_le.mpr h)]
    exact ⟨rfl, rfl, rfl⟩

theorem boot_of_not_lt (h : ¬ L.buddyLow < L.buddyHigh) : boot L mem = ⟨Buddy.unset mem, [], [], [], []⟩ := if_neg h

theorem boot_seeded : Seeded (boot L mem) := by
  obtain ⟨-, hapart, hpos, -⟩ := L.buddyLow_bounds
  by_cases h : L.buddyLow < L.buddyHigh
  · obtain ⟨hlist, hlow, -, -⟩ := boot_of_lt L mem h
    have hin : ∀ p ∈ (boot L mem).freeList, p % pageSize = 0 ∧ p < L.poolEnd := by
      intro p hp
      obtain ⟨i, hi, rfl⟩ := mem_pagesFrom.mp (hlist ▸ hp)
      have hbase := L.pool_aligned
      unfold Layout.poolEnd pageSize at *
      omega
    refine ⟨?_, hlist ▸ nodup_pagesFrom _ _, fun p hp => ?_, fun p hp => (hin p hp).1, ?_⟩
    · rw [boot, if_pos h]
      exact buddyInit_stocks hpos L.buddyHigh_bounds.2 mem
    · have hlt := (hin p hp).2
      rw [Bool.not_eq_true', Bool.eq_false_iff, ne_eq, buddyContains_iff, hlow]
      omega
    · rw [boot, if_pos h]
      exact ⟨rfl, rfl⟩
  · rw [boot_of_not_lt L mem h]
    exact ⟨stocks_unset mem, List.nodup_nil, fun _ => nofun, fun _ => nofun, rfl, rfl⟩

/-- The page lies in one of the two banks, as a whole. -/
def Layout.Managed (p : ℕ) : Prop :=
  p % pageSize = 0 ∧ (L.poolBase ≤ p ∧ p + pageSize ≤ L.poolEnd ∨ L.buddyLow ≤ p ∧ p + pageSize ≤ L.buddyHigh)

theorem boot_window {p : ℕ} (h : buddyContains p (boot L mem).buddy) :
    p % pageSize = 0 ∧ L.buddyLow ≤ p ∧ p + pageSize ≤ L.buddyHigh := by
  by_cases hlt : L.buddyLow < L.buddyHigh
  · obtain ⟨-, hlow, hhigh, -⟩ := boot_of_lt L mem hlt
    obtain ⟨-, ha, hle, hup⟩ := buddyContains_iff.mp h
    have hend := L.buddyHigh_bounds.1
    unfold pageSize at *
    omega
  · rw [boot_of_not_lt L mem hlt] at h
    simp [buddyContains, Buddy.unset] at h

theorem boot_managed {p : ℕ} (h : p ∈ (boot L mem).allPages) : L.Managed p := by
  obtain hpool | hbuddy := List.mem_append.mp h
  · by_cases hlt : L.buddyLow < L.buddyHigh
    · rw [(boot_of_lt L mem hlt).1] at hpool
      obtain ⟨i, hi, rfl⟩ := mem_pagesFrom.mp hpool
      have hbase := L.pool_aligned
      have hend : L.poolEnd = L.poolBase + 512 * pageSize := rfl
      unfold Layout.Managed
      unfold pageSize at *
      omega
    · rw [boot_of_not_lt L mem hlt] at hpool
      exact absurd hpool List.not_mem_nil
  · obtain ⟨ha, hlo, hhi⟩ := boot_window L mem ((boot_seeded L mem).stocks.inside p hbuddy)
    exact ⟨ha, .inr ⟨hlo, hhi⟩⟩

/-- How many pages there are: those of the window, and with the pool. -/
def Layout.windowPages : ℕ := if L.buddyLow < L.buddyHigh then (L.buddyHigh - L.buddyLow) / pageSize else 0

def Layout.totalPages : ℕ := if L.buddyLow < L.buddyHigh then 512 + L.windowPages else 0

theorem boot_total : (boot L mem).buddy.totalPages = L.windowPages ∧ (boot L mem).allPages.length = L.totalPages := by
  rw [Kernel.allPages, List.length_append, Buddy.allPages, length_pagesFrom]
  by_cases hlt : L.buddyLow < L.buddyHigh
  · obtain ⟨hlist, -, -, htotal⟩ := boot_of_lt L mem hlt
    rw [hlist, htotal, length_pagesFrom, Layout.totalPages, Layout.windowPages, if_pos hlt, if_pos hlt]
    exact ⟨rfl, rfl⟩
  · rw [boot_of_not_lt L mem hlt, Layout.totalPages, Layout.windowPages, if_neg hlt, if_neg hlt]
    exact ⟨rfl, rfl⟩

/-- The pages of the window that are held. -/
def Layout.heldInWindow (w : Kernel) : List ℕ := w.held.filter fun p => L.buddyLow ≤ p ∧ p < L.buddyHigh

/-- What the callers of the allocators rely on in the state `w`. -/
structure Layout.Serves (w : Kernel) : Prop where
  allocPage_fresh : ∀ p w', allocPage w = (some p, w') → p ∉ w.inUse ∧ L.Managed p
  buddyAlloc_fresh : ∀ p w', buddyAlloc w = (some p, w') →
    p ∉ w.held ∧ p % pageSize = 0 ∧ L.buddyLow ≤ p ∧ p + pageSize ≤ L.buddyHigh
  counted : w.freeList.length + w.buddy.freePages + w.held.length = L.totalPages
  counted_buddy : (houseMemStats w.buddy).2 + (L.heldInWindow w).length = L.windowPages
  exhausted : ∀ fuel, L.totalPages ≤ fuel →
    (exhaust allocPage fuel w).1.length + w.inUse.length = L.totalPages ∧ (allocPage (exhaust allocPage fuel w).2).1 = none
  exhausted_buddy : ∀ fuel, L.totalPages ≤ fuel →
    (exhaust buddyAlloc fuel w).1.length + (L.heldInWindow w).length = L.windowPages ∧
      (buddyAlloc (exhaust buddyAlloc fuel w).2).1 = none

theorem heldInWindow_eq {w : Kernel} (h : Sound (boot L mem) w) :
    L.heldInWindow w = w.held.filter fun p => buddyContains p (boot L mem).buddy := by
  refine List.filter_congr fun p hp => Bool.eq_iff_iff.mpr ?_
  rw [decide_eq_true_iff]
  cases hin : buddyContains p (boot L mem).buddy with
  | true =>
    obtain ⟨-, hlo, hhi⟩ := boot_window L mem hin
    unfold pageSize at hhi
    exact ⟨fun _ => rfl, fun _ => ⟨hlo, by omega⟩⟩
  | false =>
    -- a page outside the window is one of the pool, which ends below it
    have hpool : p ∈ (boot L mem).freeList := h.pool.held_mem_all (List.mem_filter.mpr ⟨hp, by simp [hin]⟩)
    have hbelow := L.buddyLow_bounds.2.1
    have hlt : L.buddyLow < L.buddyHigh := by
      by_contra hno
      rw [boot_of_not_lt L mem hno] at hpool
      exact absurd hpool List.not_mem_nil
    rw [(boot_of_lt L mem hlt).1] at hpool
    obtain ⟨i, hi, rfl⟩ := mem_pagesFrom.mp hpool
    have hend : L.poolEnd = L.poolBase + 512 * pageSize := rfl
    unfold pageSize at *
    refine ⟨fun hwin => ?_, nofun⟩
    omega

/-- Over every sequence of calls in which each page is freed by its owner, both allocators hand out
only pages of their banks that nobody holds, count the others as free, and fail only once all of
their pages are held. -/
theorem page_allocator_sound {as : List Action} {w : Kernel} (h : run step (boot L mem) as = some w) : L.Serves w := by
  have hw := boot_seeded L mem
  have hs : Sound (boot L mem) w := sound_run hw h
  obtain ⟨hwindow, htotal⟩ := boot_total L mem
  have hheld := heldInWindow_eq L mem hs
  refine ⟨fun p w' halloc => ?_, fun p w' halloc => ?_, ?_, ?_, fun fuel hfuel => ?_, fun fuel hfuel => ?_⟩
  · obtain ⟨-, hnone⟩ | ⟨q, t, hsome, -, -, hfresh, hmem⟩ := hs.allocPage hw
    · rw [halloc] at hnone
      cases hnone
    · cases halloc.symm.trans hsome
      exact ⟨hfresh, boot_managed L mem hmem⟩
  · obtain ⟨-, hnone⟩ | ⟨q, t, hsome, hhanded, hin⟩ := hs.buddyAlloc hw
    · cases halloc.symm.trans hnone
    · cases halloc.symm.trans hsome
      exact ⟨hhanded.fresh, boot_window L mem hin⟩
  · rw [← htotal]
    exact hs.counted.2
  · rw [hheld, ← hwindow]
    exact hs.counted.1
  · rw [← htotal] at hfuel ⊢
    exact hs.exhaust_allocPage hw hfuel
  · rw [← htotal] at hfuel
    rw [hheld, ← hwindow]
    exact hs.exhaust_buddyAlloc hw hfuel

/-- The count that the shell reads is exact as long as a C `int` holds it. -/
theorem freePageCount_eq {as : List Action} {w : Kernel} (h : run step (boot L mem) as = some w)
    (hsmall : L.windowPages < 2 ^ 31) : freePageCount w + w.held.length = L.totalPages := by
  have hs : Sound (boot L mem) w := sound_run (boot_seeded L mem) h
  obtain ⟨hwindow, htotal⟩ := boot_total L mem
  obtain ⟨hbuddy, hall⟩ := hs.counted
  have hfits : buddyFreeCount w.buddy = w.buddy.freePages := min_eq_left (by omega)
  rw [freePageCount, hfits, ← htotal]
  exact hall

/-- A machine with three pages behind the heap. -/
def smallLayout : Layout where
  poolBase := 0x40100000
  heapBase := 0x42000000
  bootStackTop := 0x46013000
  smp := 1
  pool_pos := by decide
  pool_aligned := by decide
  pool_below := by decide
  heap_lt := by decide
  stack_lt := by decide

theorem page_allocator_sound_small :
    ∃ w, run step (boot smallLayout fun _ => 0)
        [.buddyAlloc, .allocPage, .buddyAlloc, .write 0x46000008 5, .buddyFree 0x46000000, .registerPage 0x40100000 7,
          .collect 7, .buddyAlloc, .allocPage, .freePage 0x46001000] = some w ∧ smallLayout.Serves w := by
  obtain ⟨w, h⟩ := Option.isSome_iff_exists.mp (show (run step (boot smallLayout fun _ => 0)
    [.buddyAlloc, .allocPage, .buddyAlloc, .write 0x46000008 5, .buddyFree 0x46000000, .registerPage 0x40100000 7,
      .collect 7, .buddyAlloc, .allocPage, .freePage 0x46001000]).isSome by rfl)
  exact ⟨w, h, page_allocator_sound smallLayout (fun _ => 0) h⟩

end Boot

end HouseKernel.Pages
