import HouseKernel.Heap.Invariant

/-! Soundness of the pool over whole runs. Callers may free any pointer; they store into the blocks they hold and
do not spell the magic word there. `realloc` may spell it for them: behind the bytes that it copies, a block that
is used again still has the bytes of its last holder, and the end of the one with the start of the other can be
the magic word. Then a pointer into the block is taken for a block. -/
namespace HouseKernel.Heap

open HouseKernel.Lib
open Pages (pointer)

/-- Held blocks with their headers are apart and in the pool, each as it was asked for, and the free list ends
and has no held block on it. -/
structure PoolSound (s : Pool) : Prop where
  disjoint : s.live.Pairwise fun b c => ¬ b.span.Meets c.span
  inside : ∀ b ∈ s.live, b.span.Within ⟨heapBase, poolTop⟩
  aligned : ∀ b ∈ s.live, b.align ∣ b.ptr
  large : ∀ b ∈ s.live, b.want ≤ b.size
  recorded : ∀ b ∈ s.live, readWord s.mem (b.ptr - 8) = b.size
  used : s.mallocUsed = (s.live.map Block.size).sum
  listed : Path (fun p => pointer (readWord s.mem p)) (pointer s.freeHead) s.freeList none
  acyclic : s.freeList.Nodup
  apart : ∀ p ∈ s.freeList, ∀ b ∈ s.live, ¬ Span.Meets ⟨p - 16, p + readWord s.mem (p - 8)⟩ b.span

/-- Freeing what is not a held block changes nothing but the errno. -/
def FreeHarmless (s : Pool) (call : Call) : Prop :=
  ∀ p, call = .free p → (∀ b ∈ s.live, b.ptr ≠ p) → s.free p = { s with errno := (s.free p).errno }

/-- The caller may store there: in a block that is held, or outside the pool. -/
def Writable (s : Pool) (a n : ℕ) : Prop :=
  a + n ≤ heapBase ∨ poolTop ≤ a ∨ ∃ b ∈ s.live, b.ptr ≤ a ∧ a + n ≤ b.ptr + b.size

instance (s : Pool) (a n : ℕ) : Decidable (Writable s a n) := inferInstanceAs (Decidable (_ ∨ _))

/-- Callers store only where they may, and no word that their bytes are part of is the magic word. -/
def Mannered (s : Pool) : Call → Prop
  | .store a bytes => Writable s a bytes.length ∧
      MagicFree (fill s.mem a bytes.length fun k => bytes.getD k 0) (overlapping a bytes.length)
  | .posixMemalign out _ _ => out = 0 ∨ Writable s out 8
  | _ => True

/-- What `realloc` copies does not spell the magic word, not with the bytes behind it either. -/
def Unspliced (s : Pool) : Call → Prop
  | .realloc old n => ∀ oldn ∈ headerFor s.mem old, ∀ p ∈ s.place n 16,
      MagicFree (copyBytes s.mem old p (Pool.copyLength oldn n old)) (List.range' p (Pool.copyLength oldn n old))
  | _ => True

instance (s : Pool) : ∀ call, Decidable (Mannered s call)
  | .store _ _ => inferInstanceAs (Decidable (_ ∧ _))
  | .posixMemalign _ _ _ => inferInstanceAs (Decidable (_ ∨ _))
  | .malloc _ | .calloc _ _ | .realloc _ _ | .free _ => isTrue trivial

instance (s : Pool) : ∀ call, Decidable (Unspliced s call)
  | .realloc old _ => inferInstanceAs (Decidable (∀ oldn ∈ headerFor s.mem old, _))
  | .malloc _ | .calloc _ _ | .posixMemalign _ _ _ | .free _ | .store _ _ => isTrue trivial

section Step

variable {s t : Pool} {frees : List Block} {b : Block} {a n p old : ℕ} {call : Call}

theorem Pool.Inv.sound (h : s.Inv frees) : PoolSound s := by
  have hlist : s.freeList = frees.map Block.ptr := by
    refine h.chain.follow_eq ?_
    have hlen := h.laid.length_le h.le_top
    rw [List.length_append] at hlen
    rw [List.length_map]
    omega
  have hlive : Laid s.mem s.frontier s.live := h.laid.sublist (List.sublist_append_left _ _)
  have hfree : Laid s.mem s.frontier frees := h.laid.sublist (List.sublist_append_right _ _)
  constructor
  · exact hlive.spans
  · exact fun b hb => hlive.within h.le_top hb
  · exact fun b hb => (h.served b hb).1
  · exact fun b hb => (h.served b hb).2
  · exact fun b hb => (h.good hb).recorded
  · exact h.used
  · rw [hlist]
    exact h.chain
  · rw [hlist]
    exact hfree.nodup_ptr
  · rw [hlist]
    intro p hp b hb
    obtain ⟨c, hc, rfl⟩ := List.mem_map.mp hp
    have hspan : (⟨c.ptr - 16, c.ptr + readWord s.mem (c.ptr - 8)⟩ : Span) = c.span := by
      rw [(h.free_good hc).recorded, Block.span]
    rw [hspan]
    have hapart : b.Apart c := (List.pairwise_append.mp h.laid.apart).2.2 b hb c hc
    exact Block.not_meets (h.free_good hc).above (h.good hb).above hapart.symm

theorem Pool.Gives.want_le {size align : ℕ} (h : s.Gives t frees ⟨p, size, n, align⟩) : n ≤ size :=
  (h.inv.served _ (h.live ▸ List.mem_cons_self)).2

theorem Pool.Gives.good (h : s.Gives t frees b) : b.Good t.mem t.frontier := h.inv.good (h.live ▸ List.mem_cons_self)

theorem Pool.Gives.copy {size : ℕ} (h : s.Gives t frees ⟨p, size, n, 16⟩) (hb : b ∈ s.live) (ha : a ≤ n) (hab : a ≤ b.size)
    (hsplice : MagicFree (copyBytes s.mem b.ptr p a) (List.range' p a)) :
    Pool.Inv { t with mem := copyBytes t.mem b.ptr p a } frees := by
  have hwant := h.want_le
  have hnew : ⟨p, size, n, 16⟩ ∈ t.live := h.live ▸ List.mem_cons_self
  have habove := h.good.above
  dsimp only at habove
  refine h.inv.store (.inr (.inr ⟨_, hnew, le_rfl, Nat.add_le_add_left (ha.trans hwant) p⟩)) fun hpos q hlo hhi hpq hqa hq => ?_
  by_cases hstart : q < p
  · -- the word takes the last byte of the header
    refine ne_magic (x := p - 1) ?_ (by omega) (by omega) hq
    rw [fill_of_notMem (by omega), h.good.top_byte h.inv.le_top]
    rfl
  · refine hsplice q (List.mem_range'_1.mpr (by omega)) hlo hhi ?_
    rw [← hq]
    refine readLE_congr fun k hk => ?_
    unfold copyBytes
    by_cases hin : q + k < p + a
    · rw [fill_of_mem (by omega) hin, fill_of_mem (by omega) hin]
      exact (h.kept b hb _ (by omega) (by omega)).symm
    · rw [fill_of_notMem (by omega), fill_of_notMem (by omega)]
      exact (h.fresh _ (by dsimp only; omega) (by dsimp only; omega)).symm

theorem copyLength_le (size n old : ℕ) : Pool.copyLength size n old ≤ n ∧ Pool.copyLength size n old ≤ size := by
  unfold Pool.copyLength
  split_ifs <;> omega

theorem Pool.Inv.setErrno (h : s.Inv frees) (e : ℕ) : Pool.Inv { s with errno := e } frees :=
  ⟨h.laid, h.base_le, h.le_top, h.chain, h.headed, h.clean, h.served, h.used⟩

theorem sixteen_serves : ¬ (16 = 0 ∨ 16 &&& (16 - 1) ≠ 0) := by decide

theorem Pool.Inv.malloc (h : s.Inv frees) (n : ℕ) : ∃ r frees', s.malloc n = some r ∧ r.1.Inv frees' := by
  obtain hnone | ⟨t, p, size, frees', hsome, -, hgives⟩ := h.poolAlloc n sixteen_serves
  · exact ⟨_, frees, hnone, h.setErrno eNoMem⟩
  · exact ⟨_, frees', hsome, hgives.inv⟩

theorem Pool.Inv.calloc (h : s.Inv frees) (a b : ℕ) : ∃ r frees', s.calloc a b = some r ∧ r.1.Inv frees' := by
  unfold Pool.calloc
  split_ifs with hover
  · obtain hnone | ⟨t, p, size, frees', hsome, -, hgives⟩ := h.poolAlloc (a * b) sixteen_serves
    · rw [Pool.malloc, hnone]
      exact ⟨_, frees, rfl, h.setErrno eNoMem⟩
    · have hnew : ⟨p, size, a * b, 16⟩ ∈ t.live := hgives.live ▸ List.mem_cons_self
      have habove := hgives.good.above
      have hne : p ≠ 0 := fun hp => by
        subst hp
        cases habove
      rw [Pool.malloc, hsome]
      refine ⟨_, frees', rfl, ?_⟩
      dsimp only
      rw [if_pos hne]
      refine hgives.inv.store (.inr (.inr ⟨_, hnew, le_rfl, Nat.add_le_add_left hgives.want_le p⟩)) ?_
      exact fun hpos q _ _ hpq hq => zeros_ne_magic hpos hpq hq
  · exact ⟨_, frees, rfl, h.setErrno eNoMem⟩

theorem Pool.Inv.realloc (h : s.Inv frees) (hu : Unspliced s (.realloc old n)) :
    ∃ r frees', s.realloc old n = some r ∧ r.1.Inv frees' := by
  unfold Pool.realloc
  split_ifs with hnull hhuge
  · exact h.malloc n
  · exact ⟨_, frees, rfl, h.setErrno eNoMem⟩
  · by_cases hheld : ∃ b ∈ s.live, b.ptr = old
    · obtain ⟨b, hb, rfl⟩ := hheld
      have hheader := h.headerFor_live hb
      rw [hheader]
      obtain hnone | ⟨t, p, size, frees', hsome, hplace, hgives⟩ := h.poolAlloc n sixteen_serves
      · dsimp only
        rw [hnone]
        exact ⟨_, frees, rfl, h.setErrno eNoMem⟩
      · have habove := hgives.good.above
        have hne : p ≠ 0 := fun hp => by
          subst hp
          cases habove
        obtain ⟨hn, hsize⟩ := copyLength_le b.size n b.ptr
        dsimp only
        rw [hsome]
        refine ⟨_, frees', rfl, ?_⟩
        dsimp only
        rw [if_pos hne]
        exact hgives.copy hb hn hsize (hu b.size hheader p hplace)
    · have hnone : headerFor s.mem old = none := h.headerFor_none fun b hb hptr => hheld ⟨b, hb, hptr⟩
      rw [hnone]
      exact ⟨_, frees, rfl, h.setErrno eInval⟩

theorem Pool.Inv.posixMemalign (h : s.Inv frees) {out : ℕ} (align n : ℕ) (hm : out = 0 ∨ Writable s out 8) :
    ∃ r frees', s.posixMemalign out align n = some r ∧ r.1.Inv frees' := by
  unfold Pool.posixMemalign
  split_ifs with hnull hal
  · exact ⟨_, frees, rfl, h⟩
  · exact ⟨_, frees, rfl, h⟩
  · obtain hnone | ⟨t, p, size, frees', hsome, -, hgives⟩ := h.poolAlloc n hal
    · rw [hnone]
      exact ⟨_, frees, rfl, h.setErrno eNoMem⟩
    · have hgood := hgives.good
      have habove := hgood.above
      have hbelow := hgood.below
      have htop := hgives.inv.le_top
      have hlt : poolTop < 2 ^ 56 := by decide
      dsimp only at hbelow
      have hne : p ≠ 0 := fun hp => by
        subst hp
        cases habove
      rw [hsome]
      refine ⟨_, frees', rfl, ?_⟩
      dsimp only
      rw [if_neg hne]
      have hwritable : Writable t out 8 := by
        obtain hlow | hhigh | ⟨b, hb, hin⟩ := hm.resolve_left hnull
        · exact .inl hlow
        · exact .inr (.inl hhigh)
        · exact .inr (.inr ⟨b, hgives.live ▸ List.mem_cons_of_mem _ hb, hin⟩)
      exact hgives.inv.store hwritable fun _ q _ _ hpq hq => writeWord_ne_magic hgood.aligned (by omega) hpq hq

/-- Every call returns, and keeps the invariant. -/
theorem Pool.Inv.step (h : s.Inv frees) (hm : Mannered s call) (hu : Unspliced s call) :
    ∃ t frees', poolStep s call = some t ∧ t.Inv frees' := by
  cases call with
  | malloc n =>
    obtain ⟨r, frees', hr, hinv⟩ := h.malloc n
    exact ⟨r.1, frees', congrArg (Option.map Prod.fst) hr, hinv⟩
  | calloc a b =>
    obtain ⟨r, frees', hr, hinv⟩ := h.calloc a b
    exact ⟨r.1, frees', congrArg (Option.map Prod.fst) hr, hinv⟩
  | realloc old n =>
    obtain ⟨r, frees', hr, hinv⟩ := h.realloc hu
    exact ⟨r.1, frees', congrArg (Option.map Prod.fst) hr, hinv⟩
  | posixMemalign out align n =>
    obtain ⟨r, frees', hr, hinv⟩ := h.posixMemalign align n hm
    exact ⟨r.1, frees', congrArg (Option.map Prod.fst) hr, hinv⟩
  | free p =>
    by_cases hheld : ∃ b ∈ s.live, b.ptr = p
    · obtain ⟨b, hb, rfl⟩ := hheld
      exact ⟨_, b :: frees, rfl, h.free_live hb⟩
    · refine ⟨_, frees, rfl, ?_⟩
      obtain heq | heq := h.free_other fun b hb hptr => hheld ⟨b, hb, hptr⟩
      · rwa [heq]
      · rw [heq]
        exact h.setErrno eInval
  | store a bytes =>
    refine ⟨_, frees, rfl, h.store hm.1 fun _ q hlo hhi hpq hq => ?_⟩
    exact hm.2 q (mem_overlapping hpq hq) hlo hhi

theorem Pool.Inv.freeHarmless (h : s.Inv frees) (call : Call) : FreeHarmless s call := by
  rintro p rfl hp
  obtain heq | heq := h.free_other hp
  · rw [heq]
  · rw [heq]

end Step

theorem boot_inv {mem : ByteMem} (hmem : ∀ q, heapBase ≤ q → q + 16 < poolTop → readWord mem q ≠ mallocMagic) :
    (Pool.boot mem).Inv [] where
  laid := ⟨List.Pairwise.nil, by simp [Pool.boot]⟩
  base_le := le_rfl
  le_top := Nat.le_add_right _ _
  chain := rfl
  headed := by simp [Pool.boot]
  clean q hlo hhi hq := absurd hq (hmem q hlo hhi)
  served := by simp [Pool.boot]
  used := rfl

/-- The pool is sound along every run in which `realloc` copies no magic word together. -/
theorem pool_stays_sound {mem : ByteMem} (hmem : ∀ q, heapBase ≤ q → q + 16 < poolTop → readWord mem q ≠ mallocMagic)
    {calls : List Call} (h : Along poolStep (fun s call => Mannered s call ∧ Unspliced s call) (Pool.boot mem) calls) :
    (∃ s, run poolStep (Pool.boot mem) calls = some s) ∧ Throughout poolStep PoolSound (Pool.boot mem) calls ∧
    Along poolStep FreeHarmless (Pool.boot mem) calls := by
  have hstep : ∀ s call, (∃ frees, s.Inv frees) → Mannered s call ∧ Unspliced s call →
      ∃ t, poolStep s call = some t ∧ ∃ frees, t.Inv frees := by
    rintro s call ⟨frees, hs⟩ ⟨hm, hu⟩
    obtain ⟨t, frees', ht, hinv⟩ := hs.step hm hu
    exact ⟨t, ht, frees', hinv⟩
  have hkeep : ∀ s call t, (∃ frees, s.Inv frees) → Mannered s call ∧ Unspliced s call → poolStep s call = some t →
      ∃ frees, t.Inv frees := by
    intro s call t hs hG ht
    obtain ⟨u, hu, hinv⟩ := hstep s call hs hG
    obtain rfl : u = t := Option.some.inj (hu.symm.trans ht)
    exact hinv
  have hboot : ∃ frees, (Pool.boot mem).Inv frees := ⟨[], boot_inv hmem⟩
  refine ⟨?_, ?_, ?_⟩
  · obtain ⟨s, hs, -⟩ := run_total hstep hboot h
    exact ⟨s, hs⟩
  · rintro bs ⟨cs, rfl⟩ s hrun
    obtain ⟨frees, hinv⟩ := run_invariant hkeep hboot (along_append.mp h).1 hrun
    exact hinv.sound
  · exact along_of_invariant (A := fun _ => True) (fun s call t _ => hkeep s call t)
      (fun s call _ ⟨frees, hinv⟩ _ => hinv.freeHarmless call) (fun _ _ => trivial) hboot h

def zeroMem : ByteMem := fun _ => 0

theorem zeroMem_free (q : ℕ) : readWord zeroMem q ≠ mallocMagic := ne_magic (x := q) rfl le_rfl (by omega)

/-- Blocks are given out, freed, used again and grown, and pointers that are no blocks are freed. -/
def ordinaryCalls : List Call :=
  [.malloc 24, .store 0x42000010 [1, 2, 3], .calloc 3 7, .free 0x42000018, .free 0x42000010, .free 0x42000010,
   .realloc 0x42000040 20, .posixMemalign 0x42000040 64 100, .realloc 0x42000040 30, .free 7]

theorem pool_stays_sound_ordinary : Along poolStep (fun s call => Mannered s call ∧ Unspliced s call) (Pool.boot zeroMem)
      ordinaryCalls ∧
    ((∃ s, run poolStep (Pool.boot zeroMem) ordinaryCalls = some s) ∧
      Throughout poolStep PoolSound (Pool.boot zeroMem) ordinaryCalls ∧
      Along poolStep FreeHarmless (Pool.boot zeroMem) ordinaryCalls) :=
  ⟨by decide, pool_stays_sound (fun q _ _ => zeroMem_free q) (by decide)⟩

/-- A block of 40 bytes is freed with the second half of the magic word, and a size, in its payload; then a block that
ends in the first half is grown, and the copy joins the halves. -/
def splicedCalls : List Call :=
  [.malloc 12, .malloc 40, .store 0x4200003C [0x53, 0x55, 0x4F, 0x48, 8, 0, 0, 0, 0, 0, 0, 0], .free 0x42000030,
   .store 0x42000018 [0x4C, 0x41, 0x4D, 0x45], .realloc 0x42000010 16, .free 0x42000048, .malloc 8]

theorem pool_splices : ¬ ∀ mem : ByteMem, (∀ q, heapBase ≤ q → q + 16 < poolTop → readWord mem q ≠ mallocMagic) →
    ∀ calls, Along poolStep Mannered (Pool.boot mem) calls → Throughout poolStep PoolSound (Pool.boot mem) calls := by
  intro hall
  have hmannered : Along poolStep Mannered (Pool.boot zeroMem) splicedCalls := by decide
  have hmeet : (run poolStep (Pool.boot zeroMem) splicedCalls).any
      (fun s => ¬ s.live.Pairwise fun b c => ¬ b.span.Meets c.span) = true := by rfl
  obtain ⟨s, hs, hno⟩ := (Option.any_eq_true _ _).mp hmeet
  have hsound := hall zeroMem (fun q _ _ => zeroMem_free q) splicedCalls hmannered splicedCalls List.prefix_rfl s hs
  exact of_decide_eq_true hno hsound.disjoint

end HouseKernel.Heap
