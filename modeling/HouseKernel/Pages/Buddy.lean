import HouseKernel.Lib.Pool
import HouseKernel.Lib.Linked

/-! The page allocator of the kernel image. Freed pages are linked through their own first words;
while no page is on that list, the allocator moves on through its window. -/
namespace HouseKernel.Pages

open Lib

def pageSize : ℕ := 4096

/-- `a.checked_add(b).unwrap_or(u64::MAX)`. -/
def addOrMax (a b : ℕ) : ℕ := if a + b < 2 ^ 64 then a + b else 2 ^ 64 - 1

/-- `a & !4095`. -/
def pageDown (a : ℕ) : ℕ := a / pageSize * pageSize

/-- The allocator's variables, and the memory it keeps its links in: the word at each address. -/
structure Buddy where
  buddyStart : ℕ
  buddyEnd : ℕ
  buddyCur : ℕ
  totalPages : ℕ
  freePages : ℕ
  freeHead : ℕ
  mem : ℕ → ℕ

/-- Before the initialisation. -/
def Buddy.unset (mem : ℕ → ℕ) : Buddy := ⟨0, 0, 0, 0, 0, 0, mem⟩

def buddyInit (start stop : ℕ) (b : Buddy) : Buddy :=
  let s := pageDown (addOrMax start 4095)
  let e := pageDown stop
  if e ≤ s then b
  else if b.buddyStart ≠ 0 ∧ b.buddyEnd ≠ 0 then b
  else { b with
    buddyStart := s, buddyEnd := e, buddyCur := s,
    totalPages := (e - s) / pageSize, freePages := (e - s) / pageSize, freeHead := 0 }

def zeroPage (p : ℕ) (mem : ℕ → ℕ) : ℕ → ℕ := fun a => if p ≤ a ∧ a < p + pageSize then 0 else mem a

/-- The page that is handed out; 0 is the null pointer. -/
def buddyAllocPage (b : Buddy) : ℕ × Buddy :=
  if b.freeHead ≠ 0 then
    let p := b.freeHead
    (p, { b with freeHead := b.mem p, freePages := b.freePages - 1, mem := zeroPage p b.mem })
  else if addOrMax b.buddyCur pageSize ≤ b.buddyEnd then
    let p := b.buddyCur
    -- in a window that began at address 0 the first page would be taken for the null pointer
    (p, { b with
      buddyCur := b.buddyCur + pageSize, freePages := b.freePages - 1,
      mem := if p = 0 then b.mem else zeroPage p b.mem })
  else (0, b)

def buddyContains (p : ℕ) (b : Buddy) : Bool :=
  p ≠ 0 && p % pageSize = 0 && b.buddyStart ≤ p && p < b.buddyEnd

def buddyFreePage (p : ℕ) (b : Buddy) : Buddy :=
  if p = 0 then b
  else if p < b.buddyStart ∨ b.buddyEnd ≤ p then b
  else if p % pageSize ≠ 0 then b
  else { b with
    mem := Function.update b.mem p b.freeHead, freeHead := p
    freePages := if b.freePages < b.totalPages then b.freePages + 1 else b.freePages }

/-- The count as a C `int`, saturated. -/
def buddyFreeCount (b : Buddy) : ℕ := min b.freePages (2 ^ 31 - 1)

def houseMemStats (b : Buddy) : ℕ × ℕ := (b.totalPages, b.freePages)

/-- What stays as the initialisation set it: the window and the number of its pages. -/
def Buddy.bounds (b : Buddy) : ℕ × ℕ × ℕ := (b.buddyStart, b.buddyEnd, b.totalPages)

/-- A link as it is stored: the null pointer ends the list. -/
def pointer (v : ℕ) : Option ℕ := if v = 0 then none else some v

/-- The pages of `n` pages from `a` on. -/
def pagesFrom (a n : ℕ) : List ℕ := List.range' a n pageSize

/-- The pages of the window that were never handed out. -/
def Buddy.untouched (b : Buddy) : List ℕ := pagesFrom b.buddyCur ((b.buddyEnd - b.buddyCur) / pageSize)

/-- The window is made of whole pages and does not hold address 0. -/
structure Buddy.Window (b : Buddy) : Prop where
  start_aligned : pageSize ∣ b.buddyStart
  end_aligned : pageSize ∣ b.buddyEnd
  cur_aligned : pageSize ∣ b.buddyCur
  start_le : b.buddyStart ≤ b.buddyCur
  le_end : b.buddyCur ≤ b.buddyEnd
  end_lt : b.buddyEnd < 2 ^ 64
  positive : b.buddyStart = 0 → b.buddyEnd = 0

/-- The allocator has the pages of `free`, to be handed out in this order: the linked ones, and
behind them those that were never handed out. -/
structure Buddy.Stocks (b : Buddy) (free : List ℕ) : Prop where
  window : b.Window
  linked : ∃ recycled, free = recycled ++ b.untouched ∧
    Path (fun a => pointer (b.mem a)) (pointer b.freeHead) recycled none
  inside : ∀ p ∈ free, buddyContains p b
  nodup : free.Nodup
  counted : b.freePages = free.length

section Stocks

variable {b : Buddy} {free : List ℕ} {p q : ℕ}

theorem buddyContains_iff :
    buddyContains p b ↔ p ≠ 0 ∧ p % pageSize = 0 ∧ b.buddyStart ≤ p ∧ p < b.buddyEnd := by
  simp [buddyContains, and_assoc]

theorem pointer_of_ne (h : p ≠ 0) : pointer p = some p := if_neg h

theorem pointer_eq_none (h : pointer p = none) : p = 0 := by
  by_contra hp
  simp [pointer, hp] at h

theorem pointer_eq_some (h : pointer p = some q) : p = q ∧ q ≠ 0 := by
  rw [pointer] at h
  split at h
  · cases h
  · rename_i hp
    cases h
    exact ⟨rfl, hp⟩

/-- Different pages have no address in common. -/
theorem notMem_page (hp : p % pageSize = 0) (hq : q % pageSize = 0) (hne : q ≠ p) : ¬ (p ≤ q ∧ q < p + pageSize) := by
  unfold pageSize at *
  omega

theorem buddyContains_congr {b' : Buddy} (h : b'.bounds = b.bounds) : buddyContains p b' = buddyContains p b := by
  simp only [Buddy.bounds, Prod.mk.injEq] at h
  simp only [buddyContains, h]

/-- Links in pages other than `p` are read as before when only the words of `p` have changed. -/
theorem Path.outside {mem mem' : ℕ → ℕ} {head : Option ℕ} {xs : List ℕ}
    (h : Path (fun a => pointer (mem a)) head xs none) (hx : ∀ q ∈ xs, mem' q = mem q) :
    Path (fun a => pointer (mem' a)) head xs none :=
  h.congr fun q hq => congrArg pointer (hx q hq)

theorem zeroPage_of_ne (hp : p % pageSize = 0) (hq : q % pageSize = 0) (hne : q ≠ p) (mem : ℕ → ℕ) :
    zeroPage p mem q = mem q := if_neg (notMem_page hp hq hne)

/-- The step of the allocator does not fit behind the window, also where the sum overflows. -/
theorem Buddy.Window.bump_iff (h : b.Window) :
    addOrMax b.buddyCur pageSize ≤ b.buddyEnd ↔ b.buddyCur + pageSize ≤ b.buddyEnd := by
  obtain ⟨-, hend, -, -, -, hlt, -⟩ := h
  unfold addOrMax pageSize at *
  split <;> omega

theorem Buddy.Window.bump (h : b.Window) (hroom : b.buddyCur + pageSize ≤ b.buddyEnd) {n : ℕ} {mem : ℕ → ℕ} :
    Buddy.Window { b with buddyCur := b.buddyCur + pageSize, freePages := n, mem := mem } :=
  { h with
    cur_aligned := Nat.dvd_add h.cur_aligned (dvd_refl pageSize)
    start_le := h.start_le.trans (Nat.le_add_right _ _)
    le_end := hroom }

theorem Buddy.untouched_nil (h : b.Window) (hnone : b.untouched = []) : b.buddyCur = b.buddyEnd := by
  obtain ⟨-, hend, hcur, -, hle, -, -⟩ := h
  have hlen : (b.buddyEnd - b.buddyCur) / pageSize = 0 := by
    simpa [Buddy.untouched, pagesFrom] using congrArg List.length hnone
  unfold pageSize at *
  omega

theorem Buddy.untouched_cons (h : b.Window) {rest : List ℕ} (hcons : b.untouched = p :: rest) :
    p = b.buddyCur ∧ b.buddyCur + pageSize ≤ b.buddyEnd ∧
      rest = pagesFrom (b.buddyCur + pageSize) ((b.buddyEnd - (b.buddyCur + pageSize)) / pageSize) := by
  obtain ⟨-, hend, hcur, -, hle, -, -⟩ := h
  have hlen : (b.buddyEnd - b.buddyCur) / pageSize = rest.length + 1 := by
    simpa [Buddy.untouched, pagesFrom] using congrArg List.length hcons
  have hroom : b.buddyCur + pageSize ≤ b.buddyEnd ∧ (b.buddyEnd - (b.buddyCur + pageSize)) / pageSize = rest.length := by
    unfold pageSize at *
    omega
  rw [Buddy.untouched, pagesFrom, hlen, List.range'_succ, List.cons.injEq] at hcons
  rw [hroom.2]
  exact ⟨hcons.1.symm, hroom.1, hcons.2.symm⟩

theorem Buddy.Stocks.alloc_nil (h : b.Stocks []) : buddyAllocPage b = (0, b) := by
  obtain ⟨recycled, hsplit, hlinks⟩ := h.linked
  obtain ⟨rfl, hnone⟩ : recycled = [] ∧ b.untouched = [] := List.append_eq_nil_iff.mp hsplit.symm
  have hhead : b.freeHead = 0 := pointer_eq_none hlinks
  have hcur : b.buddyCur = b.buddyEnd := Buddy.untouched_nil h.window hnone
  have hfull : ¬ addOrMax b.buddyCur pageSize ≤ b.buddyEnd := by
    rw [h.window.bump_iff, hcur]
    simp [pageSize]
  rw [buddyAllocPage, if_neg (by simpa using hhead), if_neg hfull]

theorem buddyAllocPage_linked (h : b.freeHead ≠ 0) :
    buddyAllocPage b = (b.freeHead, { b with
      freeHead := b.mem b.freeHead, freePages := b.freePages - 1, mem := zeroPage b.freeHead b.mem }) :=
  if_pos h

theorem buddyAllocPage_untouched (h : b.freeHead = 0) (hroom : addOrMax b.buddyCur pageSize ≤ b.buddyEnd)
    (hcur : b.buddyCur ≠ 0) :
    buddyAllocPage b = (b.buddyCur, { b with
      buddyCur := b.buddyCur + pageSize, freePages := b.freePages - 1, mem := zeroPage b.buddyCur b.mem }) := by
  rw [buddyAllocPage, if_neg (not_not.mpr h), if_pos hroom]
  simp only [if_neg hcur]

/-- The first page of the stock is handed out, and the rest stays. -/
theorem Buddy.Stocks.alloc_cons {rest : List ℕ} (h : b.Stocks (p :: rest)) :
    ∃ b', buddyAllocPage b = (p, b') ∧ b'.Stocks rest ∧ b'.bounds = b.bounds := by
  have hin : ∀ q ∈ p :: rest, q ≠ 0 ∧ q % pageSize = 0 := fun q hq =>
    ⟨(buddyContains_iff.mp (h.inside q hq)).1, (buddyContains_iff.mp (h.inside q hq)).2.1⟩
  obtain ⟨hp, hpa⟩ := hin p List.mem_cons_self
  obtain ⟨hpr, hrest⟩ := List.nodup_cons.mp h.nodup
  have hkeep : ∀ q ∈ rest, zeroPage p b.mem q = b.mem q := fun q hq =>
    zeroPage_of_ne hpa (hin q (List.mem_cons_of_mem p hq)).2 (fun heq => hpr (heq ▸ hq)) b.mem
  have hcount : b.freePages - 1 = rest.length := by
    rw [h.counted, List.length_cons, Nat.add_sub_cancel]
  obtain ⟨recycled, hsplit, hlinks⟩ := h.linked
  cases recycled with
  | cons q recycled =>
    rw [List.cons_append, List.cons.injEq] at hsplit
    obtain ⟨rfl, hsplit⟩ := hsplit
    obtain ⟨hhead, hlinks⟩ := hlinks
    obtain ⟨rfl, -⟩ := pointer_eq_some hhead
    have htail := Path.outside hlinks fun q hq => hkeep q (hsplit ▸ List.mem_append_left _ hq)
    refine ⟨_, buddyAllocPage_linked hp, ?_, rfl⟩
    exact ⟨{ h.window with }, ⟨recycled, hsplit, htail⟩,
      fun q hq => h.inside q (List.mem_cons_of_mem _ hq), hrest, hcount⟩
  | nil =>
    have hhead : b.freeHead = 0 := pointer_eq_none hlinks
    obtain ⟨rfl, hroom, hrestEq⟩ := Buddy.untouched_cons h.window hsplit.symm
    refine ⟨_, buddyAllocPage_untouched hhead (h.window.bump_iff.mpr hroom) hp, ?_, rfl⟩
    exact ⟨h.window.bump hroom, ⟨[], by rw [List.nil_append, hrestEq]; rfl, hlinks⟩,
      fun q hq => h.inside q (List.mem_cons_of_mem _ hq), hrest, hcount⟩

theorem buddyFreePage_of_outside (h : ¬ buddyContains p b) : buddyFreePage p b = b := by
  rw [buddyContains_iff] at h
  unfold buddyFreePage
  split_ifs with h0 hout ha
  · rfl
  · rfl
  · rfl
  all_goals exact absurd ⟨h0, by simpa using ha, by omega, by omega⟩ h

theorem buddyFreePage_bounds (p : ℕ) (b : Buddy) : (buddyFreePage p b).bounds = b.bounds := by
  unfold buddyFreePage
  split_ifs <;> rfl

/-- A page of the window that is not in the stock becomes its first one. -/
theorem Buddy.Stocks.give (h : b.Stocks free) (hp : buddyContains p b) (hnew : p ∉ free)
    (hroom : free.length < b.totalPages) : (buddyFreePage p b).Stocks (p :: free) := by
  obtain ⟨hp0, hpa, hlo, hhi⟩ := buddyContains_iff.mp hp
  obtain ⟨recycled, hsplit, hlinks⟩ := h.linked
  have hcount : b.freePages < b.totalPages := h.counted ▸ hroom
  rw [buddyFreePage, if_neg hp0, if_neg (by omega), if_neg (by simpa using hpa), if_pos hcount]
  have hkeep : ∀ q ∈ recycled, Function.update b.mem p b.freeHead q = b.mem q := by
    intro q hq
    refine Function.update_of_ne ?_ _ _
    rintro rfl
    exact hnew (hsplit ▸ List.mem_append_left _ hq)
  have htail := Path.outside hlinks hkeep
  refine ⟨{ h.window with }, ⟨p :: recycled, by rw [hsplit]; rfl, pointer_of_ne hp0, ?_⟩, ?_, List.nodup_cons.mpr ⟨hnew, h.nodup⟩,
    congrArg (· + 1) h.counted⟩
  · simpa using htail
  · intro q hq
    obtain rfl | hq := List.mem_cons.mp hq
    · exact hp
    · exact h.inside q hq

/-- Writing to an address outside the stock's pages leaves the links alone. -/
theorem Buddy.Stocks.write (h : b.Stocks free) {a v : ℕ} (ha : a ∉ free) :
    ({ b with mem := Function.update b.mem a v } : Buddy).Stocks free := by
  obtain ⟨recycled, hsplit, hlinks⟩ := h.linked
  refine ⟨{ h.window with }, ⟨recycled, hsplit, ?_⟩, h.inside, h.nodup, h.counted⟩
  refine Path.outside hlinks fun q hq => Function.update_of_ne ?_ _ _
  rintro rfl
  exact ha (hsplit ▸ List.mem_append_left _ hq)

theorem mem_pagesFrom {a n : ℕ} : p ∈ pagesFrom a n ↔ ∃ i < n, p = a + pageSize * i := List.mem_range'

theorem nodup_pagesFrom (a n : ℕ) : (pagesFrom a n).Nodup := List.nodup_range' pageSize (by decide)

@[simp] theorem length_pagesFrom (a n : ℕ) : (pagesFrom a n).length = n := List.length_range'

/-- The pages the allocator manages. -/
def Buddy.allPages (b : Buddy) : List ℕ := pagesFrom b.buddyStart b.totalPages

theorem Buddy.allPages_congr {b' : Buddy} (h : b'.bounds = b.bounds) : b'.allPages = b.allPages := by
  simp only [Buddy.bounds, Prod.mk.injEq] at h
  simp only [Buddy.allPages, h]

theorem stocks_unset (mem : ℕ → ℕ) : (Buddy.unset mem).Stocks (Buddy.unset mem).allPages := by
  refine ⟨⟨?_, ?_, ?_, le_rfl, le_rfl, Nat.two_pow_pos 64, fun _ => rfl⟩, ⟨[], ?_, rfl⟩, ?_, List.nodup_nil, rfl⟩
  · exact dvd_zero _
  · exact dvd_zero _
  · exact dvd_zero _
  · simp [Buddy.allPages, Buddy.untouched, Buddy.unset]
  · simp [Buddy.allPages, Buddy.unset, pagesFrom]

/-- After the initialisation the allocator has all pages of its window, whatever the given bounds
are, as long as they leave out address 0. -/
theorem buddyInit_stocks {start stop : ℕ} (hstart : 0 < start) (hstop : stop < 2 ^ 64) (mem : ℕ → ℕ) :
    (buddyInit start stop (Buddy.unset mem)).Stocks (buddyInit start stop (Buddy.unset mem)).allPages := by
  have hpos : pageSize ≤ pageDown (addOrMax start 4095) := by
    unfold pageDown addOrMax pageSize
    split <;> omega
  have haligned : ∀ a, pageSize ∣ pageDown a := fun a => Nat.dvd_mul_left _ _
  have hle : pageDown stop ≤ stop := Nat.div_mul_le_self _ _
  rw [buddyInit]
  split_ifs with hempty hagain
  · exact stocks_unset mem
  · exact absurd rfl hagain.1
  · have hlt : pageDown (addOrMax start 4095) < pageDown stop := not_le.mp hempty
    have hcounted : ∀ i < (pageDown stop - pageDown (addOrMax start 4095)) / pageSize,
        pageDown (addOrMax start 4095) + pageSize * i < pageDown stop := by
      intro i hi
      have hs := haligned (addOrMax start 4095)
      have he := haligned stop
      generalize pageDown (addOrMax start 4095) = s at *
      generalize pageDown stop = e at *
      unfold pageSize at *
      omega
    refine ⟨⟨haligned _, haligned _, haligned _, le_rfl, hlt.le, hle.trans_lt hstop, ?_⟩, ⟨[], ?_, rfl⟩, ?_,
      nodup_pagesFrom _ _, ?_⟩
    · intro h0
      exact absurd h0 (by dsimp only; unfold pageSize at hpos; omega)
    · rw [List.nil_append]
      rfl
    · intro p hp
      obtain ⟨i, hi, rfl⟩ := mem_pagesFrom.mp hp
      refine buddyContains_iff.mpr ⟨?_, ?_, Nat.le_add_right _ _, hcounted i hi⟩
      · dsimp only
        unfold pageSize at hpos ⊢
        omega
      · exact Nat.mod_eq_zero_of_dvd (Nat.dvd_add (haligned _) (Nat.dvd_mul_right _ _))
    · rw [Buddy.allPages, length_pagesFrom]

/-- Initialising again changes nothing. -/
theorem buddyInit_again {start stop : ℕ} (h : b.buddyStart ≠ 0 ∧ b.buddyEnd ≠ 0) : buddyInit start stop b = b := by
  rw [buddyInit]
  split_ifs
  · rfl
  · rfl

end Stocks

end HouseKernel.Pages
