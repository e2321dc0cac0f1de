import HouseKernel.Heap.Pool

/-! The layout of the pool: blocks with their headers, apart from each other, each with its size in its header;
and where in the pool the magic word is. No byte of the magic word has a zero in its low half, so a word that
takes a byte of a pointer to a block, or of a size, is never the magic word; and the magic word has its first byte
only once, so it never overlaps itself. -/
namespace HouseKernel.Heap

open HouseKernel.Lib
open Pages (pointer)

def nextFree (mem : ByteMem) (p : ℕ) : Option ℕ := pointer (readWord mem p)

def Block.Apart (b c : Block) : Prop := b.ptr + b.size + 16 ≤ c.ptr ∨ c.ptr + c.size + 16 ≤ b.ptr

/-- A block below `stop`, with its size in its header. -/
structure Block.Good (mem : ByteMem) (stop : ℕ) (b : Block) : Prop where
  aligned : b.ptr % 16 = 0
  above : heapBase + 16 ≤ b.ptr
  below : b.ptr + b.size ≤ stop
  positive : mallocMin ≤ b.size
  recorded : readWord mem (b.ptr - 8) = b.size

structure Laid (mem : ByteMem) (stop : ℕ) (bs : List Block) : Prop where
  apart : bs.Pairwise Block.Apart
  good : ∀ b ∈ bs, b.Good mem stop

/-- The magic word is at no address that a pointer to a block would be checked at. -/
def MagicFree (mem : ByteMem) (qs : List ℕ) : Prop :=
  ∀ q ∈ qs, heapBase ≤ q → q + 16 < poolTop → readWord mem q ≠ mallocMagic

instance (mem : ByteMem) (qs : List ℕ) : Decidable (MagicFree mem qs) := inferInstanceAs (Decidable (∀ q ∈ qs, _))

section Magic

variable {mem : ByteMem} {a q v x : ℕ} {f : ℕ → BitVec 8}

theorem magic_low : ∀ k < 8, (byteOf mallocMagic k).toNat % 16 ≠ 0 := by decide

theorem magic_first : ∀ k < 8, 0 < k → byteOf mallocMagic k ≠ byteOf mallocMagic 0 := by decide

theorem ne_magic (hx : (mem x).toNat % 16 = 0) (hq : q ≤ x) (h : x < q + 8) : readWord mem q ≠ mallocMagic := by
  intro hmagic
  have hbyte := readWord_bytes hmagic (k := x - q) (by omega)
  rw [Nat.add_sub_cancel' hq] at hbyte
  exact magic_low (x - q) (by omega) (hbyte ▸ hx)

/-- Storing the address of a block, or the null pointer, spells no magic word with the bytes around it. -/
theorem writeWord_ne_magic (hv : v % 16 = 0) (hlt : v < 2 ^ 56) (h : a < q + 8) (hq : q < a + 8) :
    readWord (writeWord mem a v) q ≠ mallocMagic := by
  by_cases hqa : q ≤ a
  · refine ne_magic (x := a) ?_ hqa h
    rw [writeWord, fill_of_mem le_rfl (by omega), Nat.sub_self, byteOf_zero, BitVec.toNat_ofNat]
    omega
  · refine ne_magic (x := a + 7) ?_ (by omega) (by omega)
    have hzero : byteOf v 7 = 0 := byteOf_eq_zero (hlt.trans_le (by norm_num))
    rw [writeWord, fill_of_mem (by omega) (by omega), Nat.add_sub_cancel_left, hzero]
    rfl

theorem zeros_ne_magic {n : ℕ} (hn : 0 < n) (h : a < q + 8) (hq : q < a + n) :
    readWord (fill mem a n fun _ => 0) q ≠ mallocMagic := by
  refine ne_magic (x := max a q) ?_ (le_max_right _ _) ?_
  · rw [fill_of_mem (le_max_left _ _) (by omega)]
    rfl
  · omega

end Magic

section Blocks

variable {mem mem' : ByteMem} {stop stop' a n : ℕ} {b c : Block} {bs cs : List Block} {f : ℕ → BitVec 8}

theorem Block.Apart.symm (h : b.Apart c) : c.Apart b := h.elim .inr .inl

instance : Std.Symm Block.Apart := ⟨fun _ _ => Block.Apart.symm⟩

theorem Block.Good.congr (h : b.Good mem stop) (hstop : stop ≤ stop')
    (hmem : readWord mem' (b.ptr - 8) = readWord mem (b.ptr - 8)) : b.Good mem' stop' :=
  ⟨h.aligned, h.above, h.below.trans hstop, h.positive, hmem.trans h.recorded⟩

/-- The last byte of a header is zero. -/
theorem Block.Good.top_byte (h : b.Good mem stop) (hstop : stop ≤ poolTop) : mem (b.ptr - 1) = 0 := by
  have hbyte := readWord_bytes h.recorded (k := 7) (by norm_num)
  have hsize : b.size < 256 ^ 7 := by
    have hbelow := h.below
    have htop : poolTop < 256 ^ 7 := by decide
    omega
  rw [byteOf_eq_zero hsize] at hbyte
  rw [← hbyte]
  congr 1
  have habove := h.above
  omega

theorem Laid.perm (h : Laid mem stop bs) (hperm : bs.Perm cs) : Laid mem stop cs :=
  ⟨(hperm.pairwise_iff Block.Apart.symm).mp h.apart, fun b hb => h.good b (hperm.mem_iff.mpr hb)⟩

theorem Laid.sublist (h : Laid mem stop bs) (hsub : cs.Sublist bs) : Laid mem stop cs :=
  ⟨h.apart.sublist hsub, fun b hb => h.good b (hsub.subset hb)⟩

theorem Laid.apart_of_ne (h : Laid mem stop bs) (hb : b ∈ bs) (hc : c ∈ bs) (hne : b.ptr ≠ c.ptr) : b.Apart c :=
  h.apart.forall hb hc fun heq => hne (congrArg Block.ptr heq)

theorem Laid.eq_of_ptr (h : Laid mem stop bs) (hb : b ∈ bs) (hc : c ∈ bs) (heq : b.ptr = c.ptr) : b = c := by
  by_contra hne
  have hapart : b.Apart c := h.apart.forall hb hc hne
  unfold Block.Apart at hapart
  omega

theorem Laid.nodup (h : Laid mem stop bs) : bs.Nodup := by
  refine h.apart.imp fun {b c} hapart heq => ?_
  subst heq
  unfold Block.Apart at hapart
  omega

theorem Laid.nodup_ptr (h : Laid mem stop bs) : (bs.map Block.ptr).Nodup :=
  h.nodup.map_on fun _ hb _ hc heq => h.eq_of_ptr hb hc heq

theorem Laid.retag (h : Laid mem stop (b :: bs)) (hptr : c.ptr = b.ptr) (hsize : c.size = b.size) : Laid mem stop (c :: bs) := by
  obtain ⟨hb, hbs⟩ := List.pairwise_cons.mp h.apart
  have hgood := h.good b List.mem_cons_self
  constructor
  · refine List.pairwise_cons.mpr ⟨fun d hd => ?_, hbs⟩
    have hapart := hb d hd
    unfold Block.Apart at hapart ⊢
    rwa [hptr, hsize]
  · intro d hd
    obtain rfl | hd := List.mem_cons.mp hd
    · obtain ⟨h1, h2, h3, h4, h5⟩ := hgood
      rw [← hptr] at h1 h2 h3 h5
      rw [← hsize] at h3 h4 h5
      exact ⟨h1, h2, h3, h4, h5⟩
    · exact h.good d (List.mem_cons_of_mem _ hd)

/-- Bytes outside the headers may change. -/
theorem Laid.fill (h : Laid mem stop bs) (hout : ∀ b ∈ bs, b.ptr ≤ a ∨ a + n + 8 ≤ b.ptr) :
    Laid (fill mem a n f) stop bs := by
  refine ⟨h.apart, fun b hb => (h.good b hb).congr le_rfl (readWord_fill ?_)⟩
  have habove := (h.good b hb).above
  have hb := hout b hb
  omega

/-- A word may be stored in the payload of a block, or in the first half of its header. -/
theorem Laid.writeWord (h : Laid mem stop bs) (hc : c ∈ bs) (ha : a = c.ptr ∨ a + 16 = c.ptr) (v : ℕ) :
    Laid (writeWord mem a v) stop bs := by
  refine h.fill fun b hb => ?_
  by_cases hptr : b.ptr = c.ptr
  · omega
  · have hapart := h.apart_of_ne hb hc hptr
    have hpos := (h.good c hc).positive
    unfold Block.Apart at hapart
    unfold mallocMin at hpos
    omega

theorem Block.not_meets (hb : heapBase + 16 ≤ b.ptr) (hc : heapBase + 16 ≤ c.ptr) (h : b.Apart c) :
    ¬ b.span.Meets c.span := by
  unfold Block.Apart at h
  simp only [Span.Meets, Block.span]
  omega

theorem Laid.spans (h : Laid mem stop bs) : bs.Pairwise fun b c => ¬ b.span.Meets c.span := by
  refine h.apart.imp_of_mem fun {b c} hb hc hapart => ?_
  exact Block.not_meets (h.good b hb).above (h.good c hc).above hapart

theorem Laid.within (h : Laid mem stop bs) (hstop : stop ≤ poolTop) (hb : b ∈ bs) :
    b.span.Within ⟨heapBase, poolTop⟩ := by
  have hgood := h.good b hb
  have habove := hgood.above
  have hbelow := hgood.below
  simp only [Span.Within, Block.span]
  omega

/-- The blocks with their headers fit into the pool together. -/
theorem Laid.total (h : Laid mem stop bs) (hstop : stop ≤ poolTop) :
    (bs.map fun b => b.size + 16).sum ≤ mallocPoolBytes := by
  have hmap : (bs.map fun b => b.size + 16) = (bs.map Block.span).map fun s => s.hi - s.lo := by
    rw [List.map_map]
    refine List.map_congr_left fun b hb => ?_
    have habove := (h.good b hb).above
    simp only [Function.comp_apply, Block.span]
    omega
  rw [hmap]
  have hsum := sum_length_le (t := ⟨heapBase, poolTop⟩) (List.pairwise_map.mpr h.spans) fun s hs => by
    obtain ⟨b, hb, rfl⟩ := List.mem_map.mp hs
    exact h.within hstop hb
  exact hsum.trans_eq (by simp [poolTop])

theorem Laid.length_le (h : Laid mem stop bs) (hstop : stop ≤ poolTop) : 24 * bs.length ≤ mallocPoolBytes := by
  have hle : (bs.map fun _ => 24).sum ≤ (bs.map fun b => b.size + 16).sum := by
    refine List.sum_le_sum fun b hb => ?_
    have hpos := (h.good b hb).positive
    unfold mallocMin at hpos
    omega
  have hconst : (bs.map fun _ => 24).sum = 24 * bs.length := by simp [Nat.mul_comm]
  exact (hconst ▸ hle).trans (h.total hstop)

theorem Laid.size_le (h : Laid mem stop bs) (hstop : stop ≤ poolTop) :
    (bs.map Block.size).sum ≤ mallocPoolBytes :=
  (List.sum_le_sum fun _ _ => Nat.le_add_right _ _).trans (h.total hstop)

end Blocks

end HouseKernel.Heap
