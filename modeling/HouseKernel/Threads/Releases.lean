import HouseKernel.Threads.Resources

/-! One creation and one release. A block that `free` gets goes back to the pool; a page does not go anywhere, as
`free` does not know it. -/
namespace HouseKernel.Threads

open HouseKernel.Lib HouseKernel.Heap HouseKernel.Pages

section Pool

variable {s : Pool} {frees : List Block} {b : Block} {p : ℕ}

theorem firstFit_ne_zero {mem : ByteMem} {n fuel cur c : ℕ} {link l : Option ℕ}
    (h : firstFit mem n fuel link cur = some (some (l, c))) : c ≠ 0 := by
  induction fuel generalizing link cur with
  | zero => cases h
  | succ fuel ih =>
    rw [firstFit] at h
    split_ifs at h with hcur hsize
    · cases h
    · obtain ⟨-, rfl⟩ := Prod.mk.inj (Option.some.inj (Option.some.inj h))
      exact hcur
    · exact ih h

/-- A request without a place is answered with null. -/
theorem malloc_none (h : s.Inv frees) {n : ℕ} (hplace : s.place n 16 = none) :
    s.malloc n = some ({ s with errno := eNoMem }, 0) := by
  obtain hnone | ⟨t, p, size, frees', -, hsome, -⟩ := h.poolAlloc n sixteen_serves
  · exact hnone
  · rw [hplace] at hsome
    cases hsome

/-- A request with a place is served there. -/
theorem malloc_some (h : s.Inv frees) {n : ℕ} (hplace : s.place n 16 = some p) :
    ∃ t size frees', s.malloc n = some (t, p) ∧ s.Gives t frees' ⟨p, size, n, 16⟩ := by
  obtain hnone | ⟨t, q, size, frees', halloc, hsome, hgives⟩ := h.poolAlloc n sixteen_serves
  · exfalso
    rw [Pool.place] at hplace
    cases hfit : s.fit n 16 with
    | none =>
      rw [hfit] at hplace
      cases hplace
    | some found =>
      simp only [Pool.poolAlloc, Pool.poolAllocLocked, hfit, Option.map_some] at hnone
      cases found with
      | some block =>
        have hzero : block.2 = 0 := congrArg Prod.snd (Option.some.inj hnone)
        rw [Pool.fit] at hfit
        split_ifs at hfit with hsmall
        · exact firstFit_ne_zero (l := block.1) (c := block.2) hfit hzero
        · cases hfit
      | none =>
        rw [hfit] at hplace
        obtain ⟨block, hblock, rfl⟩ := Option.map_eq_some_iff.mp hplace
        have heff : Pool.effAlign 16 = 2 ^ 4 := by decide
        rw [heff] at hblock hnone
        have hgives := h.bump hblock (le_max_right n mallocMin) (le_max_left n mallocMin)
        have hzero : block.1 = 0 := by
          have hsnd := congrArg Prod.snd (Option.some.inj hnone)
          rwa [Pool.bump, hblock] at hsnd
        have habove := (hgives.inv.good (hgives.live ▸ List.mem_cons_self)).above
        simp only [hzero] at habove
        omega
  · obtain rfl : p = q := Option.some.inj (hplace.symm.trans hsome)
    exact ⟨t, size, frees', halloc, hgives⟩

theorem ptr_pos (h : s.Inv frees) (hb : b ∈ s.live) : b.ptr ≠ 0 ∧ b.ptr < poolTop := by
  have hgood := h.good hb
  have habove := hgood.above
  have hbelow := hgood.below
  have htop := h.le_top
  have hpos : 8 ≤ b.size := hgood.positive
  omega

/-- A held block that is freed goes from the held ones. -/
theorem free_held (h : s.Inv frees) (hb : b ∈ s.live) :
    (s.free b.ptr).Inv (b :: frees) ∧ (s.live : Multiset Block) = b ::ₘ ↑(s.free b.ptr).live := by
  refine ⟨h.free_live hb, ?_⟩
  have hlive : (s.free b.ptr).live = s.live.filter fun c => c.ptr ≠ b.ptr := by
    rw [Pool.free, if_neg (ptr_pos h hb).1, h.headerFor_live hb]
    simp only [ge_iff_le, if_pos (h.good hb).positive]
  rw [hlive, Multiset.cons_coe, Multiset.coe_eq_coe]
  exact h.live_perm hb

/-- Freeing what lies behind the pool changes no block. -/
theorem free_beyond (h : s.Inv frees) (hp : poolTop ≤ p) : (s.free p).Inv frees ∧ (s.free p).live = s.live := by
  have hne : ∀ b ∈ s.live, b.ptr ≠ p := by
    intro b hb heq
    have hlt := (ptr_pos h hb).2
    omega
  obtain heq | heq := h.free_other hne
  · rw [heq]
    exact ⟨h, rfl⟩
  · rw [heq]
    exact ⟨h.setErrno eInval, rfl⟩

theorem clearTcb_inv (h : s.Inv frees) (hb : b ∈ s.live) (hsize : 32 ≤ b.size) : (clearTcb s b.ptr).Inv frees :=
  h.store (.inr (.inr ⟨b, hb, le_rfl, by omega⟩)) fun _ q _ _ hlo hhi => zeros_ne_magic (by decide) hlo hhi

theorem frameTop_eq {stack : ℕ} (h : stack % 16 = 0) : frameTop stack + 224 = stack + threadStackBytes := by
  have hbits : clearBits (stack + threadStackBytes) 15 = 16 * ((stack + threadStackBytes) / 16) := clearBits_pow _ 4
  have hsize : threadStackBytes % 16 = 0 ∧ 224 ≤ threadStackBytes := by decide
  have htop : frameTop stack = clearBits (stack + threadStackBytes) 15 - 224 := rfl
  generalize threadStackBytes = size at *
  omega

/-- A frame has a zero in every word, also where it meets what is around it. -/
theorem frame_ne_magic {mem : ByteMem} {a q trampoline : ℕ} (htramp : trampoline < heapBase) (hlo : a < q + 8)
    (hhi : q < a + 224) :
    readWord (fill mem a 224 (frameByte trampoline)) q ≠ mallocMagic := by
  have hzero : ∀ k, k < 224 → (k < 136 ∨ 140 ≤ k) → (frameByte trampoline k).toNat % 16 = 0 := by
    intro k hk hout
    rw [frameByte]
    split_ifs with hword
    · rw [byteOf_eq_zero]
      · rfl
      · refine htramp.trans_le ((show heapBase ≤ 256 ^ 4 by decide).trans (Nat.pow_le_pow_right (by decide) (by omega)))
    · rfl
  have hread : ∀ x, a ≤ x → x < a + 224 → (x - a < 136 ∨ 140 ≤ x - a) →
      (fill mem a 224 (frameByte trampoline) x).toNat % 16 = 0 := by
    intro x hx hx' hout
    rw [fill_of_mem hx hx']
    exact hzero _ (by omega) hout
  by_cases hearly : q < a + 136
  · exact ne_magic (x := max q a) (hread _ (le_max_right _ _) (by omega) (by omega)) (le_max_left _ _) (by omega)
  · by_cases hword : q < a + 140
    · exact ne_magic (x := a + 140) (hread _ (by omega) (by omega) (by omega)) (by omega) (by omega)
    · exact ne_magic (x := q) (hread _ (by omega) (by omega) (by omega)) le_rfl (by omega)

theorem pushFrame_inv {trampoline : ℕ} (htramp : trampoline < heapBase) (h : s.Inv frees) (hb : b ∈ s.live)
    (hsize : threadStackBytes ≤ b.size) : (pushFrame trampoline b.ptr s).Inv frees := by
  have htop := frameTop_eq (h.good hb).aligned
  have hroom : 224 ≤ threadStackBytes := by decide
  exact h.store (.inr (.inr ⟨b, hb, by omega, by omega⟩)) fun _ q _ _ hlo hhi => frame_ne_magic htramp hlo hhi

end Pool

section Calls

variable {m m' m'' : ThreadMemory} {trampoline thr tid p : ℕ} {t : Slot}

/-- The blocks of a thread: its stack, and its control block if that is no page. -/
def ThreadRecord.Has (th : ThreadRecord) (bs : Multiset Block) : Prop :=
  ∃ b : Block, b.ptr = th.stackBase ∧
    (bs = {b} ∧ poolTop ≤ th.tcb ∨ ∃ c : Block, c.ptr = th.tcb ∧ bs = {b, c})

/-- The allocators are in order. -/
structure ThreadMemory.Sound (m : ThreadMemory) : Prop where
  pool : ∃ frees, m.pool.Inv frees
  pages : ∃ free, m.buddy.Stocks free
  window : m.buddy.freePages ≠ 0 → poolTop ≤ m.buddy.buddyStart

def ThreadMemory.blocks (m : ThreadMemory) : Multiset Block := m.pool.live

/-- The table is the same. -/
structure SameTable (m m' : ThreadMemory) : Prop where
  threads : m'.threads = m.threads
  nextTid : m'.nextTid = m.nextTid
  events : m'.events = m.events

theorem buddyAllocPage_none (h : ∃ free, m.buddy.Stocks free) (hnone : m.buddy.freePages = 0) :
    buddyAllocPage m.buddy = (0, m.buddy) := by
  obtain ⟨free, hfree⟩ := h
  obtain rfl : free = [] := List.length_eq_zero_iff.mp (hfree.counted.symm.trans hnone)
  exact hfree.alloc_nil

theorem buddyAllocPage_some (h : m.Sound) (hsome : m.buddy.freePages ≠ 0) :
    ∃ p b, buddyAllocPage m.buddy = (p, b) ∧ (∃ free, b.Stocks free) ∧ b.buddyStart = m.buddy.buddyStart ∧
      b.freePages + 1 = m.buddy.freePages ∧ poolTop ≤ p := by
  obtain ⟨free, hfree⟩ := h.pages
  cases free with
  | nil => exact absurd hfree.counted hsome
  | cons p rest =>
    obtain ⟨b, halloc, hrest, hbounds⟩ := hfree.alloc_cons
    have hin := (buddyContains_iff.mp (hfree.inside p List.mem_cons_self)).2.2.1
    refine ⟨p, b, halloc, ⟨rest, hrest⟩, congrArg Prod.fst hbounds, ?_, (h.window hsome).trans hin⟩
    rw [hrest.counted, hfree.counted, List.length_cons]

/-- A control block is a page as long as there are pages, and then a block of the pool. -/
theorem houseTlsAlloc_spec (h : m.Sound) : ∃ p m', houseTlsAlloc m = some (p, m') ∧ m'.Sound ∧ SameTable m m' ∧
    (m.buddy.freePages ≠ 0 ∧ m'.buddy.freePages + 1 = m.buddy.freePages ∧ poolTop ≤ p ∧ m'.pool = m.pool ∨
      m.buddy.freePages = 0 ∧ m'.buddy = m.buddy ∧
        (p = 0 ∧ m'.blocks = m.blocks ∨ ∃ c : Block, c.ptr = p ∧ p ≠ 0 ∧ m'.blocks = c ::ₘ m.blocks)) := by
  by_cases hpages : m.buddy.freePages = 0
  · obtain ⟨frees, hinv⟩ := h.pool
    have hpage := buddyAllocPage_none h.pages hpages
    rw [houseTlsAlloc, hpage]
    simp only [ne_eq, not_true_eq_false, if_false]
    cases hplace : m.pool.place 32 16 with
    | none =>
      rw [malloc_none hinv hplace]
      exact ⟨0, _, rfl, ⟨⟨frees, hinv.setErrno eNoMem⟩, h.pages, h.window⟩, ⟨rfl, rfl, rfl⟩, .inr ⟨hpages, rfl, .inl ⟨rfl, rfl⟩⟩⟩
    | some p =>
      obtain ⟨s, size, frees', hmalloc, hgives⟩ := malloc_some hinv hplace
      have hmem : (⟨p, size, 32, 16⟩ : Block) ∈ s.live := hgives.live ▸ List.mem_cons_self
      have hp : p ≠ 0 := (ptr_pos hgives.inv hmem).1
      have hclear : (clearTcb s p).Inv frees' := clearTcb_inv hgives.inv hmem hgives.want_le
      rw [hmalloc]
      refine ⟨p, _, rfl, ⟨⟨frees', ?_⟩, h.pages, h.window⟩, ⟨rfl, rfl, rfl⟩,
        .inr ⟨hpages, rfl, .inr ⟨⟨p, size, 32, 16⟩, rfl, hp, ?_⟩⟩⟩
      · rw [if_neg hp]
        exact hclear
      · rw [if_neg hp, ThreadMemory.blocks, ThreadMemory.blocks, Multiset.cons_coe, ← hgives.live]
        rfl
  · obtain ⟨p, b, halloc, hstocks, hstart, hcount, hbeyond⟩ := buddyAllocPage_some h hpages
    have hp : p ≠ 0 := by
      rintro rfl
      exact absurd hbeyond (by decide)
    rw [houseTlsAlloc, halloc]
    simp only [ne_eq, hp, not_false_eq_true, if_true]
    exact ⟨p, _, rfl, ⟨h.pool, hstocks, fun _ => hstart ▸ h.window hpages⟩, ⟨rfl, rfl, rfl⟩, .inl ⟨hpages, hcount, hbeyond, rfl⟩⟩

/-- A held block is freed, and the others stay held. -/
theorem free_block {pool : Pool} {b : Block} {rest : Multiset Block} (h : ∃ frees, pool.Inv frees)
    (hlive : (pool.live : Multiset Block) = b ::ₘ rest) :
    (∃ frees, (pool.free b.ptr).Inv frees) ∧ ((pool.free b.ptr).live : Multiset Block) = rest := by
  obtain ⟨frees, hinv⟩ := h
  have hb : b ∈ pool.live := Multiset.mem_coe.mp (hlive ▸ Multiset.mem_cons_self b rest)
  obtain ⟨hfree, hcons⟩ := free_held hinv hb
  exact ⟨⟨_, hfree⟩, (Multiset.cons_inj_right b).mp (hcons.symm.trans hlive)⟩

/-- What lies behind the pool is not freed. -/
theorem free_page {pool : Pool} (h : ∃ frees, pool.Inv frees) (hp : poolTop ≤ p) :
    (∃ frees, (pool.free p).Inv frees) ∧ (pool.free p).live = pool.live := by
  obtain ⟨frees, hinv⟩ := h
  obtain ⟨hfree, hlive⟩ := free_beyond hinv hp
  exact ⟨⟨frees, hfree⟩, hlive⟩

/-- The blocks of a thread are released, and the others stay held. -/
theorem release_has {pool : Pool} {th : ThreadRecord} {bs rest : Multiset Block} (h : ∃ frees, pool.Inv frees)
    (hhas : th.Has bs) (hlive : (pool.live : Multiset Block) = bs + rest) :
    (∃ frees, (ThreadMemory.release pool th).Inv frees) ∧ ((ThreadMemory.release pool th).live : Multiset Block) = rest := by
  have hne : ∀ b : Block, ∀ pool : Pool, (∃ frees, pool.Inv frees) → b ∈ (pool.live : Multiset Block) → b.ptr ≠ 0 :=
    fun b pool ⟨frees, hinv⟩ hb => (ptr_pos hinv (Multiset.mem_coe.mp hb)).1
  obtain ⟨b, hb, ⟨rfl, hpage⟩ | ⟨c, hc, rfl⟩⟩ := hhas
  · rw [Multiset.singleton_add] at hlive
    have hstack := hne b pool h (hlive ▸ Multiset.mem_cons_self b rest)
    have htcb : th.tcb ≠ 0 := by
      intro hzero
      rw [hzero] at hpage
      exact absurd hpage (by decide)
    obtain ⟨hinv, hrest⟩ := free_block h hlive
    obtain ⟨hinv', hsame⟩ := free_page hinv hpage
    simp only [ThreadMemory.release, ← hb, if_pos hstack, if_pos htcb]
    exact ⟨hinv', by rw [hsame, hrest]⟩
  · have hlive' : (pool.live : Multiset Block) = b ::ₘ (c ::ₘ rest) := by
      rw [hlive, Multiset.insert_eq_cons, Multiset.cons_add, Multiset.singleton_add]
    have hstack := hne b pool h (hlive' ▸ Multiset.mem_cons_self b _)
    obtain ⟨hinv, hrest⟩ := free_block h hlive'
    have htcb := hne c _ hinv (hrest ▸ Multiset.mem_cons_self c rest)
    simp only [ThreadMemory.release, ← hb, ← hc, if_pos hstack, if_pos htcb]
    exact free_block hinv hrest

/-- Nothing has changed but the pages and the free blocks. -/
structure Failed (m m' : ThreadMemory) : Prop where
  sound : m'.Sound
  table : SameTable m m'
  blocks : m'.blocks = m.blocks

/-- A thread with these blocks is new in the table. -/
structure Started (m m' : ThreadMemory) (t : Slot) (bs : Multiset Block) : Prop where
  sound : m'.Sound
  blocks : m'.blocks = bs + m.blocks
  free : (m.threads t).inUse = false
  has : (m'.threads t).Has bs
  threads : ∃ stack tcb, m'.threads = Function.update m.threads t ⟨m.nextTid, true, false, false, stack, tcb⟩
  nextTid : m'.nextTid = m.nextTid + 1
  events : m'.events = .created m.nextTid :: m.events

theorem findThread_some {f : ThreadRecord → Bool} (h : m.findThread f = some t) : f (m.threads t) = true :=
  List.find?_some (p := fun t => f (m.threads t)) h

/-- With both allocations made, the thread starts, or there is no entry for it and both are given back. -/
theorem create_with {b : Block} {tcb rc : ℕ} {bs : Multiset Block} (h : m.Sound) (htramp : trampoline < heapBase)
    (hsize : threadStackBytes ≤ b.want) (hhas : ThreadRecord.Has ⟨m.nextTid, true, false, false, b.ptr, tcb⟩ bs) (hb : b ∈ bs)
    (htcb : tcb ≠ 0) (hblocks : m.blocks = bs + m'.blocks) (htable : SameTable m' m)
    (hend : (match m.allocThread with
      | none => some (11, { m with pool := (m.pool.free b.ptr).free tcb })
      | some t => if m.nextTid + 1 < 2 ^ 31 then some (0, m.startThread trampoline t b.ptr tcb) else none) = some (rc, m'')) :
    m''.buddy = m.buddy ∧ (Failed m' m'' ∨ ∃ t, Started m' m'' t bs) := by
  have hlive : (m.pool.live : Multiset Block) = bs + m'.blocks := hblocks
  have hmem : b ∈ m.pool.live := Multiset.mem_coe.mp (hlive ▸ Multiset.mem_add.mpr (.inl hb))
  obtain ⟨frees, hinv⟩ := h.pool
  cases halloc : m.allocThread with
  | none =>
    have hstack := (ptr_pos hinv hmem).1
    obtain ⟨hreleased, hrest⟩ := release_has h.pool hhas hlive
    simp only [ThreadMemory.release, ne_eq, hstack, not_false_eq_true, if_true, if_pos htcb] at hreleased hrest
    rw [halloc] at hend
    obtain rfl := (Prod.mk.inj (Option.some.inj hend)).2
    exact ⟨rfl, .inl ⟨⟨hreleased, h.pages, h.window⟩, ⟨htable.threads, htable.nextTid, htable.events⟩, hrest⟩⟩
  | some t =>
    have hsize' : threadStackBytes ≤ b.size := hsize.trans (hinv.served b hmem).2
    have hframe : (pushFrame trampoline b.ptr m.pool).Inv frees := pushFrame_inv htramp hinv hmem hsize'
    have hpool : (m.startThread trampoline t b.ptr tcb).pool = pushFrame trampoline b.ptr m.pool := by
      rw [ThreadMemory.startThread]
    have hbuddy : (m.startThread trampoline t b.ptr tcb).buddy = m.buddy := by
      rw [ThreadMemory.startThread, ThreadMemory.log]
    simp only [halloc] at hend
    split_ifs at hend
    obtain rfl := (Prod.mk.inj (Option.some.inj hend)).2
    refine ⟨hbuddy, .inr ⟨t, ⟨⟨frees, ?_⟩, ?_, ?_⟩, ?_, ?_, ?_, ⟨b.ptr, tcb, ?_⟩, ?_, ?_⟩⟩
    · rw [hpool]
      exact hframe
    · rw [hbuddy]
      exact h.pages
    · rw [hbuddy]
      exact h.window
    · rw [ThreadMemory.blocks, hpool, pushFrame]
      exact hblocks
    · have hunused := findThread_some halloc
      rw [htable.threads] at hunused
      simpa using hunused
    · simp only [ThreadMemory.startThread, Function.update_self]
      exact hhas
    · simp only [ThreadMemory.startThread, htable.threads, htable.nextTid]
    · simp only [ThreadMemory.startThread, htable.nextTid]
    · simp only [ThreadMemory.startThread, ThreadMemory.log, htable.nextTid, htable.events]

/-- A creation that fails gives back every block, and one that succeeds keeps the blocks of its thread. A page that
was taken is gone either way. -/
theorem pthreadCreate_spec {rc : ℕ} (h : m.Sound) (htramp : trampoline < heapBase)
    (hcreate : m.pthreadCreate trampoline thr = some (rc, m')) :
    (Failed m m' ∨ ∃ t bs, Started m m' t bs) ∧ m'.buddy.freePages ≤ m.buddy.freePages ∧
      (m'.buddy.freePages = m.buddy.freePages ↔ TakesNoPage m (.create thr)) := by
  obtain ⟨frees, hinv⟩ := h.pool
  by_cases hthr : thr = 0
  · rw [ThreadMemory.pthreadCreate, if_pos hthr] at hcreate
    obtain rfl := (Prod.mk.inj (Option.some.inj hcreate)).2
    exact ⟨.inl ⟨h, ⟨rfl, rfl, rfl⟩, rfl⟩, le_rfl, iff_of_true rfl (.inl hthr)⟩
  · rw [ThreadMemory.pthreadCreate, if_neg hthr] at hcreate
    cases hplace : m.pool.place threadStackBytes 16 with
    | none =>
      rw [malloc_none hinv hplace] at hcreate
      obtain rfl := (Prod.mk.inj (Option.some.inj hcreate)).2
      refine ⟨.inl ⟨⟨⟨frees, hinv.setErrno eNoMem⟩, h.pages, h.window⟩, ⟨rfl, rfl, rfl⟩, rfl⟩, le_rfl, ?_⟩
      exact iff_of_true rfl (.inr (.inl hplace))
    | some stack =>
      obtain ⟨pool, size, frees', hmalloc, hgives⟩ := malloc_some hinv hplace
      have hmem : (⟨stack, size, threadStackBytes, 16⟩ : Block) ∈ pool.live := hgives.live ▸ List.mem_cons_self
      have hstack := (ptr_pos hgives.inv hmem).1
      have hnopage : TakesNoPage m (.create thr) ↔ m.buddy.freePages = 0 := by
        rw [TakesNoPage, hplace]
        simp [hthr]
      have hsound : ({ m with pool := pool } : ThreadMemory).Sound := ⟨⟨frees', hgives.inv⟩, h.pages, h.window⟩
      have hone : ({ m with pool := pool } : ThreadMemory).blocks = ⟨stack, size, threadStackBytes, 16⟩ ::ₘ m.blocks := by
        rw [ThreadMemory.blocks, ThreadMemory.blocks, hgives.live, Multiset.cons_coe]
      obtain ⟨tcb, m₂, htls, hsound₂, htable, hcase⟩ := houseTlsAlloc_spec hsound
      have htable' : SameTable m m₂ := ⟨htable.threads, htable.nextTid, htable.events⟩
      rw [hmalloc] at hcreate
      simp only [Option.bind_some, if_neg hstack, htls] at hcreate
      obtain ⟨hpages, hcount, hbeyond, hpool⟩ | ⟨hpages, hbuddy, hcase⟩ := hcase
      · have htcb : tcb ≠ 0 := by
          rintro rfl
          exact absurd hbeyond (by decide)
        have hblocks : m₂.blocks = {⟨stack, size, threadStackBytes, 16⟩} + m.blocks := by
          rw [ThreadMemory.blocks, hpool, Multiset.singleton_add]
          exact hone
        rw [if_neg htcb] at hcreate
        obtain ⟨hbuddy', hdone⟩ := create_with hsound₂ htramp le_rfl ⟨_, rfl, .inl ⟨rfl, hbeyond⟩⟩
          (Multiset.mem_singleton_self _) htcb hblocks htable' hcreate
        have hless : m'.buddy.freePages < m.buddy.freePages := by
          rw [hbuddy']
          exact Nat.lt_of_succ_le hcount.le
        exact ⟨hdone.imp_right fun ⟨t, ht⟩ => ⟨t, _, ht⟩, hless.le, iff_of_false hless.ne (hnopage.not.mpr hpages)⟩
      · have hsame : m₂.buddy = m.buddy := hbuddy
        obtain ⟨rfl, hblocks⟩ | ⟨c, rfl, htcb, hblocks⟩ := hcase
        · have hfreed := free_block hsound₂.pool (hblocks.trans hone)
          rw [if_pos rfl] at hcreate
          obtain rfl := (Prod.mk.inj (Option.some.inj hcreate)).2
          refine ⟨.inl ⟨⟨hfreed.1, hsound₂.pages, hsound₂.window⟩, ?_, hfreed.2⟩, ?_, ?_⟩
          · exact ⟨htable'.threads, htable'.nextTid, htable'.events⟩
          · exact (congrArg Buddy.freePages hsame).le
          · exact iff_of_true (congrArg Buddy.freePages hsame) (hnopage.mpr hpages)
        · have hblocks' : m₂.blocks = {⟨stack, size, threadStackBytes, 16⟩, c} + m.blocks := by
            rw [hblocks, hone, Multiset.insert_eq_cons, Multiset.cons_add, Multiset.singleton_add, Multiset.cons_swap]
          rw [if_neg htcb] at hcreate
          obtain ⟨hbuddy', hdone⟩ := create_with hsound₂ htramp le_rfl ⟨_, rfl, .inr ⟨c, rfl, rfl⟩⟩
            (Multiset.mem_cons_self _ _) htcb hblocks' htable' hcreate
          refine ⟨hdone.imp_right fun ⟨t, ht⟩ => ⟨t, _, ht⟩, ?_, ?_⟩
          · rw [hbuddy', hsame]
          · rw [hbuddy', hsame]
            exact iff_of_true rfl (hnopage.mpr hpages)

end Calls

end HouseKernel.Threads
