import HouseKernel.LibC.FdTable

/-! What a call of the C library does to one slot of the descriptor table. -/
namespace HouseKernel.LibC

open HouseKernel.Lib

section Slots

variable {fd fd' : ℤ} {i j : ℕ}

theorem fdSlot_eq_some : fdSlot fd = some i ↔ fd = fdOf i ∧ i < fakeFdN := by
  rw [fdSlot, fdOf]
  split_ifs with hlow hhigh
  · simp only [false_iff, not_and, not_lt]
    intro h
    omega
  · rw [Option.some_inj]
    constructor
    · rintro rfl
      omega
    · rintro ⟨rfl, h⟩
      omega
  · simp only [false_iff, not_and, not_lt]
    intro h
    omega

theorem fdSlot_fdOf (h : i < fakeFdN) : fdSlot (fdOf i) = some i := fdSlot_eq_some.mpr ⟨rfl, h⟩

theorem fdSlot_target (h : fdSlot fd = some i) : some fd = some (fdOf i) := by
  rw [(fdSlot_eq_some.mp h).1]

theorem fdOf_injective (h : fdOf i = fdOf j) : i = j := by
  rw [fdOf, fdOf] at h
  omega

end Slots

/-- What a call can do to slot `i`. -/
inductive SlotStep (s : Fds) (i : ℕ) : Call → FdEntry → Prop
  | same (c : Call) : SlotStep s i c (s.fdt i)
  | pushed {w : ℕ} {fd : ℤ} (bytes : Octets) (k : ℕ) (hw : fdSlot fd = some w) (hkind : (s.fdt w).kind = .pipeW)
    (hpeer : fdSlot (s.fdt w).peer = some i) (hi : (s.fdt i).kind = .pipeR)
    (hroom : (s.fdt i).buf.length + k ≤ pipeCap ∨ k = 0) :
    SlotStep s i (.write fd bytes) { s.fdt i with buf := (s.fdt i).buf ++ bytes.take k }
  | popped {now : BitVec 64} {fd : ℤ} {dst : Option ℕ} (k : ℕ) (hfd : fdSlot fd = some i) (hi : (s.fdt i).kind = .pipeR) :
    SlotStep s i (.read now fd dst) { s.fdt i with buf := (s.fdt i).buf.drop k }
  | counted (c : Call) (v : BitVec 64) (hfd : c.fd? = some (fdOf i)) (hi : (s.fdt i).kind = .event) :
    SlotStep s i c { s.fdt i with evCnt := v }
  | stamped (c : Call) (v : BitVec 64) (hi : (s.fdt i).kind = .timer) : SlotStep s i c { s.fdt i with lastNs := v }
  | members {epfd op fd : ℤ} {ev : Option EpollEvent} (ep : List (ℤ × EpollEvent)) (hfd : fdSlot epfd = some i)
    (hi : (s.fdt i).kind = .epoll) : SlotStep s i (.epollCtl epfd op fd ev) { s.fdt i with ep := ep }
  | closed {fd : ℤ} (hfd : fdSlot fd = some i) :
    SlotStep s i (.close fd) { s.fdt i with kind := .free, buf := [], evCnt := 0, ep := [] }
  | created (c : Call) (e : FdEntry) (hi : (s.fdt i).kind = .free) (hr : e.kind ≠ .pipeR) (hw : e.kind ≠ .pipeW) :
    SlotStep s i c e
  | readEnd (w : ℕ) (hi : (s.fdt i).kind = .free) (hw : (s.fdt w).kind = .free) (hne : i ≠ w) (hlt : i < fakeFdN)
    (hwlt : w < fakeFdN) : SlotStep s i (.pipe true) { s.fdt i with kind := .pipeR, buf := [], peer := fdOf w }
  | writeEnd (r : ℕ) (hi : (s.fdt i).kind = .free) (hr : (s.fdt r).kind = .free) (hne : i ≠ r) (hlt : i < fakeFdN)
    (hrlt : r < fakeFdN) : SlotStep s i (.pipe true) { s.fdt i with kind := .pipeW, buf := [], peer := fdOf r }

section Inversion

variable {s : Fds} {i j : ℕ} {c : Call} {e : FdEntry}

@[simp] theorem fail_fdt (s : Fds) (code : ℤ) : (s.fail code).2.fdt = s.fdt := rfl

theorem set_fdt : (s.set i e).fdt j = if j = i then e else s.fdt j := by
  exact Function.update_apply s.fdt i e j

/-- A call that works on one slot leaves the others alone. -/
theorem SlotStep.of_set (h : SlotStep s i c e) : SlotStep s j c ((s.set i e).fdt j) := by
  rw [set_fdt]
  split_ifs with hj
  · rw [hj]
    exact h
  · exact .same c

theorem firstFree_spec (h : s.firstFree = some i) : (s.fdt i).kind = .free ∧ i < fakeFdN := by
  rw [Fds.firstFree] at h
  have hkind := List.find?_some h
  exact ⟨of_decide_eq_true hkind, List.mem_range.mp (List.mem_of_find?_eq_some h)⟩

theorem create_slot {f : FdEntry → FdEntry} {k : FdKind} (hf : ∀ e, (f e).kind = k) (hr : k ≠ .pipeR)
    (hw : k ≠ .pipeW) (j : ℕ) :
    SlotStep s j c ((s.create f).2.fdt j) := by
  rw [Fds.create]
  split
  · rename_i i hfree
    exact SlotStep.of_set (.created c _ (firstFree_spec hfree).1 (hf _ ▸ hr) (hf _ ▸ hw))
  · exact .same c

theorem free_of_mem_filter (h : i ∈ (List.range fakeFdN).filter fun i => decide ((s.fdt i).kind = .free)) :
    (s.fdt i).kind = .free ∧ i < fakeFdN := by
  obtain ⟨hlt, hfree⟩ := List.mem_filter.mp h
  exact ⟨of_decide_eq_true hfree, List.mem_range.mp hlt⟩

/-- A pipe takes two free slots, or there are not two of them. -/
theorem pipe_cases (s : Fds) :
    s.pipe true = s.fail 23 ∨
    ∃ r w, ((s.fdt r).kind = .free ∧ r < fakeFdN) ∧ ((s.fdt w).kind = .free ∧ w < fakeFdN) ∧ r ≠ w ∧
      s.pipe true = ({ ret := 0, fds := [fdOf r, fdOf w] },
        (s.set r { s.fdt r with kind := .pipeR, buf := [], peer := fdOf w }).set w
          { s.fdt w with kind := .pipeW, buf := [], peer := fdOf r }) := by
  rw [Fds.pipe, if_neg (by decide)]
  have hnodup : ((List.range fakeFdN).filter fun i => decide ((s.fdt i).kind = .free)).Nodup :=
    List.nodup_range.filter _
  have hfree := fun i => free_of_mem_filter (s := s) (i := i)
  split
  · rename_i r w rest heq
    rw [heq] at hnodup hfree
    have hne : r ≠ w := by
      rintro rfl
      exact (List.nodup_cons.mp hnodup).1 List.mem_cons_self
    refine Or.inr ⟨r, w, hfree r List.mem_cons_self, hfree w (List.mem_cons_of_mem r List.mem_cons_self), hne, ?_⟩
    dsimp only
    rw [set_fdt, if_neg hne.symm]
  · exact Or.inl rfl

theorem write_slot (fd : ℤ) (bytes : Octets) (j : ℕ) : SlotStep s j (.write fd bytes) ((s.write fd bytes).2.fdt j) := by
  have hother : ∀ s' : Fds, s'.fdt = s.fdt → SlotStep s j (.write fd bytes) (s'.fdt j) := by
    intro s' h
    rw [h]
    exact .same _
  rw [Fds.write]
  split
  · exact hother _ (by split_ifs <;> rfl)
  · rename_i i hfd
    split
    · rename_i hkind
      split
      · exact .same _
      · rename_i p hpeer
        split_ifs with hp
        · exact .same _
        · exact SlotStep.of_set (.pushed bytes _ hfd hkind hpeer (not_not.mp hp) (by omega))
    · rename_i hkind
      split_ifs
      · exact SlotStep.of_set (.counted _ _ (fdSlot_target hfd) hkind)
      · exact .same _
    · exact hother _ (by split_ifs <;> rfl)

theorem read_slot (now : BitVec 64) (fd : ℤ) (dst : Option ℕ) (j : ℕ) :
    SlotStep s j (.read now fd dst) ((s.read now fd dst).2.fdt j) := by
  rw [Fds.read]
  split
  · exact .same _
  · rename_i i hfd
    split
    · rename_i hkind
      split_ifs
      · exact .same _
      · exact .same _
      · exact .same _
      · exact SlotStep.of_set (.stamped _ _ hkind)
    · rename_i hkind
      split_ifs
      · exact .same _
      · exact SlotStep.of_set (.popped _ hfd hkind)
    · rename_i hkind
      split_ifs
      · exact .same _
      · exact .same _
      · exact SlotStep.of_set (.counted _ _ (fdSlot_target hfd) hkind)
    · exact .same _

theorem epollCtl_slot (epfd op fd : ℤ) (ev : Option EpollEvent) (j : ℕ) :
    SlotStep s j (.epollCtl epfd op fd ev) ((s.epollCtl epfd op fd ev).2.fdt j) := by
  rw [Fds.epollCtl]
  split
  · exact .same _
  · rename_i i hfd
    by_cases hkind : (s.fdt i).kind = .epoll
    · rw [if_neg (not_not.mpr hkind)]
      have hepoll : ∀ ep, SlotStep s j (.epollCtl epfd op fd ev) ((s.set i { s.fdt i with ep := ep }).fdt j) :=
        fun ep => SlotStep.of_set (.members _ hfd hkind)
      dsimp only
      split_ifs
      · exact .same _
      · exact .same _
      · exact hepoll _
      · split
        · exact hepoll _
        · exact .same _
      · split
        · exact hepoll _
        · exact .same _
      · exact .same _
    · rw [if_pos hkind]
      exact .same _

/-- What any call does to any slot. -/
theorem call_slot (c : Call) (j : ℕ) : SlotStep s j c ((s.call c).2.fdt j) := by
  cases c with
  | write fd bytes => exact write_slot fd bytes j
  | read now fd dst => exact read_slot now fd dst j
  | pipe dst =>
    cases dst with
    | false => exact .same _
    | true =>
      rw [Fds.call]
      obtain hfail | ⟨r, w, ⟨hr, hrlt⟩, ⟨hw, hwlt⟩, hne, hpipe⟩ := pipe_cases s
      · rw [hfail]
        exact .same _
      · rw [hpipe, set_fdt]
        split_ifs with hj
        · rw [hj]
          exact .writeEnd r hw hr hne.symm hwlt hrlt
        · exact SlotStep.of_set (.readEnd w hr hw hne hrlt hwlt)
  | close fd =>
    rw [Fds.call, Fds.close]
    split
    · exact .same _
    · rename_i i hfd
      split_ifs
      · exact .same _
      · exact SlotStep.of_set (.closed hfd)
  | eventfd initval => exact create_slot (k := .event) (fun _ => rfl) nofun nofun j
  | eventfdWrite fd value =>
    rw [Fds.call, Fds.eventfdWrite]
    split
    · exact .same _
    · rename_i i hfd
      split_ifs with hkind
      · exact .same _
      · exact SlotStep.of_set (.counted _ _ (fdSlot_target hfd) (not_not.mp hkind))
  | eventfdRead fd dst =>
    rw [Fds.call, Fds.eventfdRead]
    split_ifs
    · exact .same _
    · split
      · exact .same _
      · rename_i i hfd
        split_ifs with hkind
        · exact .same _
        · exact .same _
        · exact SlotStep.of_set (.counted _ _ (fdSlot_target hfd) (not_not.mp hkind))
  | epollCreate => exact create_slot (k := .epoll) (fun _ => rfl) nofun nofun j
  | epollCtl epfd op fd ev => exact epollCtl_slot epfd op fd ev j
  | epollWait now epfd dst maxevents =>
    have hsame : (s.epollWait now epfd dst maxevents).2.fdt = s.fdt := by
      rw [Fds.epollWait]
      split_ifs
      · rfl
      · split
        · rfl
        · split_ifs <;> rfl
    rw [Fds.call, hsame]
    exact .same _
  | timerfdCreate now => exact create_slot (k := .timer) (fun _ => rfl) nofun nofun j
  | timerfdSettime spec => cases spec <;> exact .same _
  | timerInit => exact .same _
  | tick core =>
    have hsame : (s.tick core).fdt = s.fdt := by
      rw [Fds.tick]
      split_ifs <;> rfl
    rw [Fds.call, hsame]
    exact .same _

end Inversion

end HouseKernel.LibC
