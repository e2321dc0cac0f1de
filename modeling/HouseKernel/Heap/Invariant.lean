import HouseKernel.Heap.Layout

/-! What holds of the pool between calls, and what each operation on the pool makes of it: a store into a payload,
taking a block off the free list and holding it, extending the pool, and putting a block back. -/
namespace HouseKernel.Heap

open HouseKernel.Lib
open Pages (pointer pointer_of_ne)

/-- The blocks that callers hold and the blocks on the free list are laid out in the used part of the pool, and
the magic word is in the headers of the held ones and nowhere else. -/
structure Pool.Inv (s : Pool) (frees : List Block) : Prop where
  laid : Laid s.mem s.frontier (s.live ++ frees)
  base_le : heapBase ≤ s.frontier
  le_top : s.frontier ≤ poolTop
  chain : Path (nextFree s.mem) (pointer s.freeHead) (frees.map Block.ptr) none
  headed : ∀ b ∈ s.live, readWord s.mem (b.ptr - 16) = mallocMagic
  clean : ∀ q, heapBase ≤ q → q + 16 < poolTop → readWord s.mem q = mallocMagic → ∃ b ∈ s.live, b.ptr = q + 16
  served : ∀ b ∈ s.live, b.align ∣ b.ptr ∧ b.want ≤ b.size
  used : s.mallocUsed = (s.live.map Block.size).sum

section Search

variable {mem : ByteMem} {fuel cur : ℕ} {frees : List Block}

theorem path_pointer {b : Block} (h : Path (nextFree mem) (pointer cur) ((b :: frees).map Block.ptr) none) :
    cur = b.ptr ∧ cur ≠ 0 ∧ Path (nextFree mem) (nextFree mem b.ptr) (frees.map Block.ptr) none := by
  obtain ⟨hcur, hrest⟩ := h
  obtain ⟨hptr, hne⟩ := Pages.pointer_eq_some hcur
  exact ⟨hptr, hptr ▸ hne, hrest⟩

/-- What is stored as a link is the address of a free block or null. -/
theorem pointer_word {stop : ℕ} (hgood : ∀ b ∈ frees, b.Good mem stop) (htop : stop ≤ poolTop)
    (h : Path (nextFree mem) (pointer cur) (frees.map Block.ptr) none) : cur % 16 = 0 ∧ cur < 2 ^ 56 := by
  cases frees with
  | nil =>
    have hcur : cur = 0 := Pages.pointer_eq_none h
    subst hcur
    exact ⟨rfl, by norm_num⟩
  | cons b frees =>
    obtain ⟨rfl, -, -⟩ := path_pointer h
    have hb := hgood b List.mem_cons_self
    have hbelow := hb.below
    have hlt : poolTop < 2 ^ 56 := by decide
    exact ⟨hb.aligned, by omega⟩

/-- The search ends, and what it finds is a free block that is large enough. -/
theorem firstFit_spec (n : ℕ) (link : Option ℕ) (hpath : Path (nextFree mem) (pointer cur) (frees.map Block.ptr) none)
    (hsize : ∀ b ∈ frees, readWord mem (b.ptr - 16 + 8) = b.size) (hfuel : frees.length < fuel) :
    firstFit mem n fuel link cur = some none ∨
    ∃ xs c ys, frees = xs ++ c :: ys ∧ n ≤ c.size ∧
      firstFit mem n fuel link cur = some (some ((xs.getLast?.map Block.ptr).or link, c.ptr)) := by
  induction frees generalizing fuel link cur with
  | nil =>
    obtain _ | fuel := fuel
    · cases hfuel
    · have hcur : cur = 0 := Pages.pointer_eq_none hpath
      exact .inl (if_pos hcur)
  | cons b frees ih =>
    obtain _ | fuel := fuel
    · cases hfuel
    obtain ⟨rfl, hne, hrest⟩ := path_pointer hpath
    rw [firstFit, if_neg hne, hsize b List.mem_cons_self]
    by_cases hfit : b.size ≥ n
    · refine .inr ⟨[], b, frees, rfl, hfit, ?_⟩
      rw [if_pos hfit]
      rfl
    · rw [if_neg hfit]
      have hlater := ih (some b.ptr) hrest (fun c hc => hsize c (List.mem_cons_of_mem _ hc))
        (Nat.lt_of_succ_lt_succ hfuel)
      obtain hnone | ⟨xs, c, ys, rfl, hc, hfound⟩ := hlater
      · exact .inl hnone
      · refine .inr ⟨b :: xs, c, ys, rfl, hc, hfound.trans ?_⟩
        rw [List.getLast?_cons]
        cases xs.getLast? <;> rfl

end Search

section Inv

@[simp] theorem Pool.relink_live (s : Pool) (link : Option ℕ) (next : ℕ) : (s.relink link next).live = s.live := by
  cases link <;> rfl

@[simp] theorem Pool.relink_frontier (s : Pool) (link : Option ℕ) (next : ℕ) :
    (s.relink link next).frontier = s.frontier := by
  cases link <;> rfl

@[simp] theorem Pool.relink_mallocUsed (s : Pool) (link : Option ℕ) (next : ℕ) :
    (s.relink link next).mallocUsed = s.mallocUsed := by
  cases link <;> rfl

variable {s t : Pool} {frees xs ys : List Block} {b c : Block} {a n p : ℕ} {f : ℕ → BitVec 8}

theorem Pool.Inv.good (h : s.Inv frees) (hb : b ∈ s.live) : b.Good s.mem s.frontier :=
  h.laid.good b (List.mem_append_left _ hb)

theorem Pool.Inv.free_good (h : s.Inv frees) (hb : b ∈ frees) : b.Good s.mem s.frontier :=
  h.laid.good b (List.mem_append_right _ hb)

/-- The header test finds the held blocks and no others. -/
theorem Pool.Inv.headerFor_live (h : s.Inv frees) (hb : b ∈ s.live) : headerFor s.mem b.ptr = some b.size := by
  have hgood := h.good hb
  have habove := hgood.above
  have hbelow := hgood.below
  have hpos := hgood.positive
  have htop := h.le_top
  have hin : ¬ (b.ptr < heapBase + 16 ∨ b.ptr ≥ poolTop) := by
    unfold mallocMin at hpos
    omega
  rw [headerFor, if_neg (by omega), if_neg hin, if_neg (not_not.mpr (h.headed b hb)), ← hgood.recorded]
  congr 2
  omega

theorem Pool.Inv.headerFor_none (h : s.Inv frees) (hp : ∀ b ∈ s.live, b.ptr ≠ p) : headerFor s.mem p = none := by
  unfold headerFor
  split_ifs with hzero hin hmagic
  · rfl
  · rfl
  · rfl
  · exfalso
    obtain ⟨b, hb, hptr⟩ := h.clean (p - 16) (by omega) (by omega) (not_not.mp hmagic)
    exact hp b hb (by omega)

/-- A store into the payload of a held block, or outside the pool, that spells no magic word. -/
theorem Pool.Inv.store (h : s.Inv frees)
    (hw : a + n ≤ heapBase ∨ poolTop ≤ a ∨ ∃ b ∈ s.live, b.ptr ≤ a ∧ a + n ≤ b.ptr + b.size)
    (hmagic : 0 < n → ∀ q, heapBase ≤ q → q + 16 < poolTop → a < q + 8 → q < a + n →
      readWord (fill s.mem a n f) q ≠ mallocMagic) :
    Pool.Inv { s with mem := fill s.mem a n f } frees := by
  -- where a block keeps its header, and a free block its link, nothing is stored
  have hheader : ∀ b ∈ s.live ++ frees, b.ptr ≤ a ∨ a + n + 16 ≤ b.ptr := by
    intro b hb
    have hgood := h.laid.good b hb
    have habove := hgood.above
    have hbelow := hgood.below
    have htop := h.le_top
    obtain hlow | hhigh | ⟨c, hc, hca, hcn⟩ := hw
    · omega
    · omega
    · by_cases hptr : b.ptr = c.ptr
      · omega
      · have hapart := h.laid.apart_of_ne hb (List.mem_append_left _ hc) hptr
        unfold Block.Apart at hapart
        omega
  have hlink : ∀ b ∈ frees, b.ptr + 8 ≤ a ∨ a + n ≤ b.ptr := by
    intro b hb
    have hgood := h.free_good hb
    have habove := hgood.above
    have hbelow := hgood.below
    have hpos := hgood.positive
    have htop := h.le_top
    unfold mallocMin at hpos
    obtain hlow | hhigh | ⟨c, hc, hca, hcn⟩ := hw
    · omega
    · omega
    · have hcells := h.laid.nodup_ptr
      rw [List.map_append, List.nodup_append] at hcells
      have hne : c.ptr ≠ b.ptr := hcells.2.2 c.ptr (List.mem_map_of_mem hc) b.ptr (List.mem_map_of_mem hb)
      have hapart := h.laid.apart_of_ne (List.mem_append_right _ hb) (List.mem_append_left _ hc) hne.symm
      unfold Block.Apart at hapart
      omega
  constructor
  · exact h.laid.fill fun b hb => (hheader b hb).imp_right fun hb => by omega
  · exact h.base_le
  · exact h.le_top
  · refine h.chain.congr fun p hp => ?_
    obtain ⟨b, hb, rfl⟩ := List.mem_map.mp hp
    exact congrArg pointer (readWord_fill (hlink b hb))
  · intro b hb
    have habove := (h.good hb).above
    have hout := hheader b (List.mem_append_left _ hb)
    rw [readWord_fill (by omega)]
    exact h.headed b hb
  · intro q hlo hhi hq
    by_cases hover : 0 < n ∧ a < q + 8 ∧ q < a + n
    · exact absurd hq (hmagic hover.1 q hlo hhi hover.2.1 hover.2.2)
    · refine h.clean q hlo hhi ?_
      by_cases hn : n = 0
      · rw [← hq]
        refine (readLE_congr fun k _ => fill_of_notMem ?_).symm
        omega
      · rw [← hq, readWord_fill (by omega)]
  · exact h.served
  · exact h.used

/-- A block whose header has just been written is held, if it was not on the free list. -/
theorem Pool.Inv.claim (h : s.Inv frees) (hlive : t.live = c :: s.live) (hlaid : Laid t.mem t.frontier (c :: (s.live ++ frees)))
    (htop : t.frontier ≤ poolTop) (hmagic : readWord t.mem (c.ptr - 16) = mallocMagic)
    (hsame : ∀ q, q + 16 ≤ c.ptr - 8 ∨ c.ptr ≤ q → readWord t.mem q = readWord s.mem q) (hhead : t.freeHead = s.freeHead)
    (hserved : c.align ∣ c.ptr ∧ c.want ≤ c.size) (hused : t.mallocUsed = saturatingAdd s.mallocUsed c.size) :
    t.Inv frees := by
  have hgood := hlaid.good c List.mem_cons_self
  have habove := hgood.above
  have hapart : ∀ b ∈ s.live ++ frees, c.Apart b := (List.pairwise_cons.mp hlaid.apart).1
  constructor
  · rw [hlive]
    exact hlaid
  · have hbelow := hgood.below
    omega
  · exact htop
  · rw [hhead]
    refine h.chain.congr fun p hp => ?_
    obtain ⟨b, hb, rfl⟩ := List.mem_map.mp hp
    have hb' := hapart b (List.mem_append_right _ hb)
    have hpos := (h.free_good hb).positive
    unfold Block.Apart at hb'
    unfold mallocMin at hpos
    exact congrArg pointer (hsame b.ptr (by omega))
  · rw [hlive]
    intro b hb
    obtain rfl | hb := List.mem_cons.mp hb
    · exact hmagic
    · have hb' := hapart b (List.mem_append_left _ hb)
      have hb16 := (h.good hb).above
      unfold Block.Apart at hb'
      rw [hsame _ (by omega)]
      exact h.headed b hb
  · rw [hlive]
    intro q hlo hhi hq
    by_cases hself : q = c.ptr - 16
    · exact ⟨c, List.mem_cons_self, by omega⟩
    · -- a word that overlaps the header overlaps its magic word or takes the last byte of its size
      obtain hbefore | hafter := readWord_apart magic_first hq hmagic hself
      · obtain ⟨b, hb, hptr⟩ := h.clean q hlo hhi ((hsame q (by omega)).symm.trans hq)
        exact ⟨b, List.mem_cons_of_mem _ hb, hptr⟩
      · by_cases hpay : c.ptr ≤ q
        · obtain ⟨b, hb, hptr⟩ := h.clean q hlo hhi ((hsame q (.inr hpay)).symm.trans hq)
          exact ⟨b, List.mem_cons_of_mem _ hb, hptr⟩
        · refine absurd hq (ne_magic (x := c.ptr - 1) ?_ (by omega) (by omega))
          rw [hgood.top_byte htop]
          rfl
  · rw [hlive]
    intro b hb
    obtain rfl | hb := List.mem_cons.mp hb
    · exact hserved
    · exact h.served b hb
  · have hsum : ((c :: (s.live ++ frees)).map Block.size).sum ≤ mallocPoolBytes := hlaid.size_le htop
    rw [List.map_cons, List.sum_cons, List.map_append, List.sum_append, ← h.used] at hsum
    have hsmall : s.mallocUsed + c.size ≤ 2 ^ 64 - 1 := (by omega : _ ≤ mallocPoolBytes).trans (by decide)
    rw [hused, saturatingAdd, Nat.min_eq_left hsmall, hlive, List.map_cons, List.sum_cons, h.used, Nat.add_comm]

/-- What taking a block off the free list does to the memory. -/
theorem Pool.Inv.relink_mem (h : s.Inv (xs ++ c :: ys)) (ht : t = s.relink (xs.getLast?.map Block.ptr) (readWord s.mem c.ptr)) :
    Laid t.mem s.frontier (s.live ++ (xs ++ c :: ys)) ∧
    Path (nextFree t.mem) (pointer t.freeHead) ((xs ++ ys).map Block.ptr) none ∧
    (∀ b ∈ s.live, readWord t.mem (b.ptr - 16) = readWord s.mem (b.ptr - 16)) ∧
    ∀ q, readWord t.mem q = mallocMagic → readWord s.mem q = mallocMagic := by
  have hchain := h.chain
  rw [List.map_append, path_append] at hchain
  obtain ⟨r, hxs, hr⟩ := hchain
  obtain ⟨rfl, hys⟩ := hr
  obtain rfl | ⟨zs, d, rfl⟩ := List.eq_nil_or_concat' xs
  · have hhead : t = { s with freeHead := readWord s.mem c.ptr } := ht
    subst hhead
    exact ⟨h.laid, hys, fun _ _ => rfl, fun _ => id⟩
  · have hlast : (zs ++ [d]).getLast?.map Block.ptr = some d.ptr := by simp
    rw [hlast] at ht
    have hstore : t = { s with mem := writeWord s.mem d.ptr (readWord s.mem c.ptr) } := ht
    subst hstore
    have hd : d ∈ s.live ++ ((zs ++ [d]) ++ c :: ys) := by simp
    have hperm : (s.live ++ ((zs ++ [d]) ++ c :: ys)).Perm (d :: (s.live ++ (zs ++ c :: ys))) := by
      rw [List.append_assoc, ← List.append_assoc, List.singleton_append, ← List.append_assoc]
      exact List.perm_middle
    have hapart : ∀ b ∈ s.live ++ (zs ++ c :: ys), d.Apart b := (List.pairwise_cons.mp (h.laid.perm hperm).apart).1
    have hpos : 8 ≤ d.size := (h.laid.good d hd).positive
    have hfree : ∀ b ∈ ys, b.Good s.mem s.frontier := fun b hb => h.free_good (by simp [hb])
    have hnext := pointer_word hfree h.le_top hys
    have hkeep : ∀ b ∈ zs ++ c :: ys, nextFree (writeWord s.mem d.ptr (readWord s.mem c.ptr)) b.ptr = nextFree s.mem b.ptr := by
      intro b hb
      have hb' := hapart b (List.mem_append_right _ hb)
      have hbfree : b ∈ (zs ++ [d]) ++ c :: ys := by
        rw [List.append_assoc, List.mem_append, List.mem_append]
        exact (List.mem_append.mp hb).imp_right .inr
      have hbpos : mallocMin ≤ b.size := (h.free_good hbfree).positive
      unfold mallocMin at hbpos
      unfold Block.Apart at hb'
      exact congrArg pointer (readWord_writeWord_ne (by omega))
    refine ⟨h.laid.writeWord hd (.inl rfl) _, ?_, fun b hb => ?_, fun q hq => ?_⟩
    · rw [List.map_append, path_append] at hxs
      obtain ⟨r, hzs, rfl, -⟩ := hxs
      rw [List.append_assoc, List.singleton_append, List.map_append, List.map_cons, path_append]
      refine ⟨some d.ptr, hzs.congr fun p hp => ?_, rfl, ?_⟩
      · obtain ⟨b, hb, rfl⟩ := List.mem_map.mp hp
        exact hkeep b (List.mem_append_left _ hb)
      · rw [nextFree, readWord_writeWord (hnext.2.trans (by norm_num))]
        refine hys.congr fun p hp => ?_
        obtain ⟨b, hb, rfl⟩ := List.mem_map.mp hp
        exact hkeep b (List.mem_append_right _ (List.mem_cons_of_mem _ hb))
    · have hb' := hapart b (List.mem_append_left _ hb)
      have habove := (h.good hb).above
      unfold Block.Apart at hb'
      exact readWord_writeWord_ne (by omega)
    · by_cases hover : d.ptr < q + 8 ∧ q < d.ptr + 8
      · exact absurd hq (writeWord_ne_magic hnext.1 hnext.2 hover.1 hover.2)
      · rwa [readWord_writeWord_ne (by omega)] at hq

/-- Taking a block off the free list. -/
theorem Pool.Inv.relink (h : s.Inv (xs ++ c :: ys)) :
    (s.relink (xs.getLast?.map Block.ptr) (readWord s.mem c.ptr)).Inv (xs ++ ys) ∧
    Laid (s.relink (xs.getLast?.map Block.ptr) (readWord s.mem c.ptr)).mem s.frontier (c :: (s.live ++ (xs ++ ys))) := by
  have hperm : (s.live ++ (xs ++ c :: ys)).Perm (c :: (s.live ++ (xs ++ ys))) := by
    rw [← List.append_assoc, ← List.append_assoc]
    exact List.perm_middle
  have hsub : (s.live ++ (xs ++ ys)).Sublist (c :: (s.live ++ (xs ++ ys))) := List.sublist_cons_self _ _
  obtain ⟨hlaid, hchain, hheaded, hclean⟩ := h.relink_mem rfl
  refine ⟨?_, hlaid.perm hperm⟩
  constructor
  · rw [relink_frontier, relink_live]
    exact (hlaid.perm hperm).sublist hsub
  · rw [relink_frontier]
    exact h.base_le
  · rw [relink_frontier]
    exact h.le_top
  · exact hchain
  · rw [relink_live]
    exact fun b hb => (hheaded b hb).trans (h.headed b hb)
  · rw [relink_live]
    exact fun q hlo hhi hq => h.clean q hlo hhi (hclean q hq)
  · rw [relink_live]
    exact h.served
  · rw [relink_live, relink_mallocUsed]
    exact h.used

/-- `t` is `s` after `b` was given out: `b` is held, and no payload has changed. -/
structure Pool.Gives (s t : Pool) (frees : List Block) (b : Block) : Prop where
  inv : t.Inv frees
  live : t.live = b :: s.live
  kept : ∀ c ∈ s.live, ∀ x, c.ptr ≤ x → x < c.ptr + c.size → t.mem x = s.mem x
  fresh : ∀ x, b.ptr ≤ x → x < b.ptr + b.size + 8 → t.mem x = s.mem x

theorem Pool.relink_mem_of_notMem {x : ℕ} (hx : ∀ d ∈ xs, x < d.ptr ∨ d.ptr + 8 ≤ x) (next : ℕ) :
    (s.relink (xs.getLast?.map Block.ptr) next).mem x = s.mem x := by
  cases hlast : xs.getLast? with
  | none => rfl
  | some d => exact fill_of_notMem (hx d (List.mem_of_getLast? hlast))

theorem Pool.Inv.reuse (h : s.Inv (xs ++ c :: ys)) {want align : ℕ} (hwant : want ≤ c.size) (halign : align ∣ c.ptr) :
    s.Gives (Pool.hold want align (s.reuse (xs.getLast?.map Block.ptr) c.ptr, c.ptr)).1 (xs ++ ys)
      ⟨c.ptr, c.size, want, align⟩ := by
  obtain ⟨hinv, hlaid⟩ := h.relink
  have hc : c ∈ xs ++ c :: ys := by simp
  have hgood := h.free_good hc
  have habove := hgood.above
  have hne : c.ptr ≠ 0 := by omega
  have hptr : c.ptr - 16 + 8 = c.ptr - 8 := by omega
  have hmagic := hlaid.writeWord List.mem_cons_self (.inr (Nat.sub_add_cancel (by omega))) mallocMagic
  have hsize : readWord (writeWord (s.relink (xs.getLast?.map Block.ptr) (readWord s.mem c.ptr)).mem (c.ptr - 16) mallocMagic)
      (c.ptr - 16 + 8) = c.size := by
    rw [hptr]
    exact (hmagic.good c List.mem_cons_self).recorded
  generalize ht : (Pool.hold want align (s.reuse (xs.getLast?.map Block.ptr) c.ptr, c.ptr)).1 = t
  simp only [Pool.hold, if_neg hne, Pool.reuse, Pool.countUsed, hsize, Pool.relink_live, Pool.relink_mallocUsed] at ht
  have hlive : t.live = ⟨c.ptr, c.size, want, align⟩ :: s.live := ht ▸ rfl
  have hmem : t.mem = writeWord (s.relink (xs.getLast?.map Block.ptr) (readWord s.mem c.ptr)).mem (c.ptr - 16) mallocMagic :=
    ht ▸ rfl
  have hfrontier : t.frontier = s.frontier := by
    rw [← ht, ← Pool.relink_frontier s (xs.getLast?.map Block.ptr) (readWord s.mem c.ptr)]
    rfl
  have hused : t.mallocUsed = saturatingAdd s.mallocUsed c.size := by
    rw [← ht, hptr, hgood.recorded]
  have hhead : t.freeHead = (s.relink (xs.getLast?.map Block.ptr) (readWord s.mem c.ptr)).freeHead := ht ▸ rfl
  have hframe : ∀ x, x < c.ptr - 16 ∨ c.ptr ≤ x → (∀ d ∈ xs, x < d.ptr ∨ d.ptr + 8 ≤ x) → t.mem x = s.mem x := by
    intro x hx hxs
    rw [hmem, writeWord, fill_of_notMem (by omega), Pool.relink_mem_of_notMem hxs]
  have hxs : ∀ d ∈ xs, d ∈ s.live ++ (xs ++ ys) ∧ mallocMin ≤ d.size := fun d hd =>
    ⟨by simp [hd], (h.free_good (List.mem_append_left _ hd)).positive⟩
  constructor
  · refine hinv.claim (by rw [hlive, Pool.relink_live]) ?_ (by rw [hfrontier]; exact h.le_top) ?_ ?_ hhead ⟨halign, hwant⟩ ?_
    · rw [hmem, hfrontier, Pool.relink_live]
      exact hmagic.retag rfl rfl
    · rw [hmem]
      exact readWord_writeWord (by decide)
    · intro q hq
      dsimp only at hq
      rw [hmem]
      exact readWord_writeWord_ne (by omega)
    · rw [hused, Pool.relink_mallocUsed]
  · exact hlive
  · intro b hb x hlo hhi
    have hbc := (List.pairwise_cons.mp hlaid.apart).1 b (List.mem_append_left _ hb)
    unfold Block.Apart at hbc
    refine hframe x (by omega) fun d hd => ?_
    have hbd : b.Apart d := (List.pairwise_append.mp h.laid.apart).2.2 b hb d (List.mem_append_left _ hd)
    have hpos := (hxs d hd).2
    unfold Block.Apart at hbd
    unfold mallocMin at hpos
    omega
  · intro x hlo hhi
    refine hframe x (.inr hlo) fun d hd => ?_
    have hcd := (List.pairwise_cons.mp hlaid.apart).1 d (hxs d hd).1
    have hpos := (hxs d hd).2
    unfold Block.Apart at hcd
    unfold mallocMin at hpos
    dsimp only at hlo hhi
    omega

end Inv

section Bump

theorem clearBits_pow (v k : ℕ) : clearBits v (2 ^ k - 1) = 2 ^ k * (v / 2 ^ k) := by
  rw [clearBits, Nat.and_two_pow_sub_one_eq_mod]
  have hdiv := Nat.div_add_mod v (2 ^ k)
  omega

/-- Rounding up to a power of two. -/
theorem clearBits_up (v k : ℕ) :
    2 ^ k ∣ clearBits (v + (2 ^ k - 1)) (2 ^ k - 1) ∧ v ≤ clearBits (v + (2 ^ k - 1)) (2 ^ k - 1) := by
  rw [clearBits_pow]
  refine ⟨Nat.dvd_mul_right _ _, ?_⟩
  have hpos : 0 < 2 ^ k := Nat.two_pow_pos k
  have hdiv := Nat.div_add_mod (v + (2 ^ k - 1)) (2 ^ k)
  have hmod := Nat.mod_lt (v + (2 ^ k - 1)) hpos
  omega

/-- What the check of an alignment lets through is a power of two. -/
theorem align_pow {align : ℕ} (h : ¬ (align = 0 ∨ align &&& (align - 1) ≠ 0)) : ∃ k, align = 2 ^ k := by
  obtain ⟨hne, hand⟩ := not_or.mp h
  exact (Nat.and_sub_one_eq_zero_iff_isPowerOfTwo hne).mp (not_not.mp hand)

theorem checkedAdd_eq_some {a b c : ℕ} (h : checkedAdd a b = some c) : c = a + b := by
  unfold checkedAdd at h
  split at h
  · exact (Option.some.inj h).symm
  · cases h

/-- The next block is aligned, and its header lies behind everything that was given out. -/
theorem Pool.bumpBlock_spec {s : Pool} {nEff k p stop : ℕ} (h : s.bumpBlock nEff (2 ^ k) = some (p, stop)) :
    p % 16 = 0 ∧ 2 ^ k ∣ p ∧ s.frontier + 16 ≤ p ∧ stop = p + nEff ∧ stop ≤ poolTop := by
  simp only [Pool.bumpBlock, Option.bind_eq_bind, Option.bind_eq_some_iff] at h
  obtain ⟨v, hv, base, hbase, w, hw, e, he, hlast⟩ := h
  split at hlast
  · cases hlast
  rename_i htop
  cases hlast
  obtain rfl := checkedAdd_eq_some hv
  obtain rfl := checkedAdd_eq_some hw
  obtain rfl := checkedAdd_eq_some hbase
  obtain rfl := checkedAdd_eq_some he
  obtain ⟨hdvd16, hle16⟩ := clearBits_up s.frontier 4
  have hmask : (15 : ℕ) = 2 ^ 4 - 1 := rfl
  rw [← hmask] at hdvd16 hle16
  set h16 := clearBits (s.frontier + 15) 15
  obtain ⟨hdvd, hle⟩ := clearBits_up (h16 + 16) k
  refine ⟨?_, hdvd, by omega, rfl, Nat.le_of_not_lt htop⟩
  have hbase16 : 2 ^ 4 ∣ h16 + 16 := Nat.dvd_add hdvd16 (by norm_num)
  obtain hk | hk := Nat.le_total 4 k
  · exact Nat.mod_eq_zero_of_dvd ((pow_dvd_pow 2 hk).trans hdvd)
  · -- a smaller alignment leaves the block where it is
    have hsmall : 2 ^ k ∣ h16 + 16 := (pow_dvd_pow 2 hk).trans hbase16
    have hself : clearBits (h16 + 16 + (2 ^ k - 1)) (2 ^ k - 1) = h16 + 16 := by
      obtain ⟨m, hm⟩ := hsmall
      have hpos : 0 < 2 ^ k := Nat.two_pow_pos k
      rw [clearBits_pow, hm, Nat.mul_add_div hpos, Nat.div_eq_of_lt (by omega), Nat.add_zero]
    rw [hself]
    exact Nat.mod_eq_zero_of_dvd hbase16

variable {s : Pool} {frees : List Block} {nEff k want p stop : ℕ}

theorem Pool.Inv.bump (h : s.Inv frees) (hbump : s.bumpBlock nEff (2 ^ k) = some (p, stop)) (hmin : mallocMin ≤ nEff)
    (hwant : want ≤ nEff) : s.Gives (Pool.hold want (2 ^ k) (s.bump nEff (2 ^ k))).1 frees ⟨p, nEff, want, 2 ^ k⟩ := by
  obtain ⟨h16, hdvd, hbehind, rfl, htop⟩ := Pool.bumpBlock_spec hbump
  have hbase := h.base_le
  have hne : p ≠ 0 := by omega
  have hptr : p - 16 + 8 = p - 8 := by omega
  have hpool : nEff < 2 ^ 64 := (Nat.le_add_left nEff p).trans_lt (htop.trans_lt (by decide))
  have hsize : readWord (writeWord (writeWord s.mem (p - 16) mallocMagic) (p - 8) nEff) (p - 8) = nEff :=
    readWord_writeWord hpool
  generalize ht : (Pool.hold want (2 ^ k) (s.bump nEff (2 ^ k))).1 = t
  simp only [Pool.bump, hbump, Pool.hold, if_neg hne, Pool.countUsed, hptr, hsize] at ht
  have hlive : t.live = ⟨p, nEff, want, 2 ^ k⟩ :: s.live := ht ▸ rfl
  have hmem : t.mem = writeWord (writeWord s.mem (p - 16) mallocMagic) (p - 8) nEff := ht ▸ rfl
  have hcur : t.mallocCur = p + nEff := ht ▸ rfl
  have hfrontier : t.frontier = p + nEff := by rw [Pool.frontier, hcur, if_neg (by omega)]
  have hframe : ∀ q, q + 16 ≤ p - 8 ∨ p ≤ q → readWord t.mem q = readWord s.mem q := by
    intro q hq
    rw [hmem, readWord_writeWord_ne (by omega), readWord_writeWord_ne (by omega)]
  have hbytes : ∀ x, x + 16 < p ∨ p ≤ x → t.mem x = s.mem x := by
    intro x hx
    rw [hmem, writeWord, fill_of_notMem (by omega), writeWord, fill_of_notMem (by omega)]
  have hbelow : ∀ b ∈ s.live ++ frees, b.ptr + b.size + 16 ≤ p := fun b hb => by
    have hb := (h.laid.good b hb).below
    omega
  have hgood : Block.Good t.mem t.frontier ⟨p, nEff, want, 2 ^ k⟩ := by
    refine ⟨h16, ?_, hfrontier.ge, hmin, ?_⟩
    · dsimp only
      omega
    · rw [hmem]
      exact hsize
  constructor
  · refine h.claim hlive ⟨List.pairwise_cons.mpr ⟨fun b hb => .inr (hbelow b hb), h.laid.apart⟩, ?_⟩ (hfrontier ▸ htop) ?_ hframe
      (ht ▸ rfl) ⟨hdvd, hwant⟩ (ht ▸ rfl)
    · intro b hb
      obtain rfl | hb := List.mem_cons.mp hb
      · exact hgood
      · have hlow := hbelow b hb
        have hgoodb := h.laid.good b hb
        have habove := hgoodb.above
        refine hgoodb.congr (by omega) (hframe _ ?_)
        omega
    · rw [hmem, readWord_writeWord_ne (by dsimp only; omega)]
      exact readWord_writeWord (by decide)
  · exact hlive
  · intro b hb x hlo hhi
    have hlow := hbelow b (List.mem_append_left _ hb)
    exact hbytes x (.inl (by omega))
  · exact fun x hlo _ => hbytes x (.inr hlo)

end Bump

/-- The address of the block that serves a request, as it can be read off the pool before. -/
def Pool.place (s : Pool) (n align : ℕ) : Option ℕ :=
  (s.fit n align).bind fun
    | some (_, cur) => some cur
    | none => (s.bumpBlock (max n mallocMin) (effAlign align)).map Prod.fst

section Calls

variable {s t : Pool} {frees : List Block} {b : Block} {n align p : ℕ}

/-- Every request is served with a block, or the pool is exhausted. -/
theorem Pool.Inv.poolAlloc (h : s.Inv frees) (n : ℕ) (hal : ¬ (align = 0 ∨ align &&& (align - 1) ≠ 0)) :
    s.poolAlloc n align = some ({ s with errno := eNoMem }, 0) ∨
    ∃ t p size frees', s.poolAlloc n align = some (t, p) ∧ s.place n align = some p ∧ s.Gives t frees' ⟨p, size, n, align⟩ := by
  have heff : effAlign align = align := if_neg hal
  obtain ⟨k, rfl⟩ := align_pow hal
  have hbump : s.fit n (2 ^ k) = some none → s.poolAlloc n (2 ^ k) = some ({ s with errno := eNoMem }, 0) ∨
      ∃ t p size frees', s.poolAlloc n (2 ^ k) = some (t, p) ∧ s.place n (2 ^ k) = some p ∧
        s.Gives t frees' ⟨p, size, n, 2 ^ k⟩ := by
    intro hfit
    simp only [Pool.poolAlloc, Pool.poolAllocLocked, Pool.place, hfit, heff, Option.map_some, Option.bind_some]
    cases hblock : s.bumpBlock (max n mallocMin) (2 ^ k) with
    | none =>
      refine .inl ?_
      simp only [Pool.bump, hblock, Pool.hold, if_pos]
    | some block =>
      refine .inr ⟨_, block.1, max n mallocMin, frees, ?_, rfl, h.bump hblock (le_max_right _ _) (le_max_left _ _)⟩
      simp only [Pool.bump, hblock, Pool.hold]
  by_cases hsmall : effAlign (2 ^ k) ≤ 16
  · have hlen := h.laid.length_le h.le_top
    have hfuel : frees.length < mallocPoolBytes := by
      rw [List.length_append] at hlen
      unfold mallocPoolBytes at hlen ⊢
      omega
    have hsize : ∀ b ∈ frees, readWord s.mem (b.ptr - 16 + 8) = b.size := fun b hb => by
      have hgood := h.free_good hb
      have habove := hgood.above
      rw [← hgood.recorded]
      congr 1
      omega
    obtain hnone | ⟨xs, c, ys, rfl, hc, hfound⟩ := firstFit_spec (max n mallocMin) none h.chain hsize hfuel
    · exact hbump (by rw [Pool.fit, if_pos hsmall, hnone])
    · have hcgood := h.free_good (b := c) (by simp)
      have hdvd : 2 ^ k ∣ c.ptr := by
        have hk : 2 ^ k ≤ 2 ^ 4 := heff ▸ hsmall
        have hpow : 2 ^ k ∣ 2 ^ 4 := pow_dvd_pow 2 ((Nat.pow_le_pow_iff_right (by norm_num)).mp hk)
        exact hpow.trans (Nat.dvd_of_mod_eq_zero hcgood.aligned)
      rw [Option.or_none] at hfound
      refine .inr ⟨_, c.ptr, c.size, xs ++ ys, ?_, ?_, h.reuse ((le_max_left _ _).trans hc) hdvd⟩
      · simp only [Pool.poolAlloc, Pool.poolAllocLocked, Pool.fit, if_pos hsmall, hfound, Option.map_some, Pool.hold]
      · simp only [Pool.place, Pool.fit, if_pos hsmall, hfound, Option.bind_some]
  · exact hbump (by rw [Pool.fit, if_neg hsmall])

theorem Pool.Inv.free_other (h : s.Inv frees) (hp : ∀ b ∈ s.live, b.ptr ≠ p) :
    s.free p = s ∨ s.free p = { s with errno := eInval } := by
  unfold Pool.free
  rw [h.headerFor_none hp]
  split_ifs
  · exact .inl rfl
  · exact .inr rfl

/-- The held blocks are the freed one and the others. -/
theorem Pool.Inv.live_perm (h : s.Inv frees) (hb : b ∈ s.live) :
    s.live.Perm (b :: s.live.filter fun c => c.ptr ≠ b.ptr) := by
  have hlaid : Laid s.mem s.frontier s.live := h.laid.sublist (List.sublist_append_left _ _)
  have hnodup : (b :: s.live.filter fun c => c.ptr ≠ b.ptr).Nodup := by
    rw [List.nodup_cons]
    exact ⟨by simp, hlaid.nodup.filter _⟩
  refine (List.perm_ext_iff_of_nodup hlaid.nodup hnodup).mpr fun c => ?_
  rw [List.mem_cons, List.mem_filter, decide_eq_true_iff]
  constructor
  · intro hc
    by_cases hptr : c.ptr = b.ptr
    · exact .inl (hlaid.eq_of_ptr hc hb hptr)
    · exact .inr ⟨hc, hptr⟩
  · rintro (rfl | ⟨hc, -⟩)
    · exact hb
    · exact hc

theorem Pool.Inv.free_live (h : s.Inv frees) (hb : b ∈ s.live) : (s.free b.ptr).Inv (b :: frees) := by
  have hgood := h.good hb
  have habove := hgood.above
  have hne : b.ptr ≠ 0 := by omega
  have hperm := h.live_perm hb
  generalize hrest : (s.live.filter fun c => c.ptr ≠ b.ptr) = rest at hperm
  have hcells : (s.live ++ frees).Perm (rest ++ b :: frees) :=
    (hperm.append_right frees).trans List.perm_middle.symm
  have hfree : s.free b.ptr = { s with
      mem := writeWord (writeWord s.mem (b.ptr - 16) 0) b.ptr s.freeHead
      freeHead := b.ptr
      mallocUsed := s.mallocUsed - b.size
      live := rest } := by
    rw [Pool.free, if_neg hne, h.headerFor_live hb, ← hrest]
    exact if_pos hgood.positive
  rw [hfree]
  have hpos : 8 ≤ b.size := hgood.positive
  have hhead := pointer_word (fun c hc => h.free_good hc) h.le_top h.chain
  have hmemb : b ∈ s.live ++ frees := List.mem_append_left _ hb
  have hlaid := ((h.laid.writeWord hmemb (.inr (Nat.sub_add_cancel (by omega))) 0).writeWord hmemb
    (.inl rfl) s.freeHead).perm hcells
  have hapart : ∀ c ∈ rest ++ frees, b.Apart c := by
    have hcons := h.laid.perm (hcells.trans List.perm_middle)
    exact (List.pairwise_cons.mp hcons.apart).1
  have hkeep : ∀ q, q + 16 ≤ b.ptr - 8 ∨ b.ptr + 8 ≤ q →
      readWord (writeWord (writeWord s.mem (b.ptr - 16) 0) b.ptr s.freeHead) q = readWord s.mem q := by
    intro q hq
    rw [readWord_writeWord_ne (by omega), readWord_writeWord_ne (by omega)]
  constructor
  · exact hlaid
  · exact h.base_le
  · exact h.le_top
  · refine ⟨Pages.pointer_of_ne hne, ?_⟩
    dsimp only
    rw [nextFree, readWord_writeWord (hhead.2.trans (by norm_num))]
    refine h.chain.congr fun p hp => ?_
    obtain ⟨c, hc, rfl⟩ := List.mem_map.mp hp
    have hbc := hapart c (List.mem_append_right _ hc)
    have hcpos : mallocMin ≤ c.size := (h.free_good hc).positive
    unfold Block.Apart at hbc
    unfold mallocMin at hcpos
    exact congrArg pointer (hkeep c.ptr (by omega))
  · intro c hc
    have hbc := hapart c (List.mem_append_left _ hc)
    have hlive : c ∈ s.live := hperm.mem_iff.mpr (List.mem_cons_of_mem _ hc)
    have hc16 := (h.good hlive).above
    unfold Block.Apart at hbc
    exact (hkeep (c.ptr - 16) (by omega)).trans (h.headed c hlive)
  · -- the magic word is gone from the header, and the link brings no other one
    intro q hlo hhi hq
    dsimp only at hq
    by_cases hlink : b.ptr < q + 8 ∧ q < b.ptr + 8
    · exact absurd hq (writeWord_ne_magic hhead.1 hhead.2 hlink.1 hlink.2)
    rw [readWord_writeWord_ne (by omega)] at hq
    by_cases hheader : b.ptr - 16 < q + 8 ∧ q < b.ptr - 16 + 8
    · exact absurd hq (writeWord_ne_magic rfl (by norm_num) hheader.1 hheader.2)
    rw [readWord_writeWord_ne (by omega)] at hq
    obtain ⟨c, hc, hptr⟩ := h.clean q hlo hhi hq
    obtain rfl | hc := List.mem_cons.mp (hperm.mem_iff.mp hc)
    · omega
    · exact ⟨c, hc, hptr⟩
  · exact fun c hc => h.served c (hperm.mem_iff.mpr (List.mem_cons_of_mem _ hc))
  · have hsum : (s.live.map Block.size).sum = b.size + (rest.map Block.size).sum := (hperm.map Block.size).sum_eq
    dsimp only
    rw [h.used, hsum, Nat.add_sub_cancel_left]

end Calls

end HouseKernel.Heap
