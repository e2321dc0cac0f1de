import HouseKernel.LibC.Slots
import HouseKernel.Lib.FiniteMap

/-! Event counters and the sets that are waited on, over whole runs of calls. What was drawn from a counter, with what is
left in it, is what was put into it; a set reports every descriptor of interest that is ready exactly once. -/
namespace HouseKernel.LibC

open HouseKernel.Lib

section Slots

variable {s : Fds} {i : ℕ} {c : Call} {e : FdEntry}

/-- A counter changes through the calls that name it, and it is one until it is closed. -/
theorem SlotStep.event (h : SlotStep s i c e) (hi : (s.fdt i).kind = .event) (hclose : c ≠ .close (fdOf i)) :
    e.kind = .event ∧ (c.fd? ≠ some (fdOf i) → e.evCnt = (s.fdt i).evCnt) := by
  cases h with
  | same => exact ⟨hi, fun _ => rfl⟩
  | closed hfd => exact absurd (by rw [(fdSlot_eq_some.mp hfd).1]) hclose
  | counted _ _ hfd => exact ⟨hi, fun hne => absurd hfd hne⟩
  | pushed => exact ⟨hi, fun _ => rfl⟩
  | popped => exact ⟨hi, fun _ => rfl⟩
  | stamped => exact ⟨hi, fun _ => rfl⟩
  | members => exact ⟨hi, fun _ => rfl⟩
  | created _ _ hfree => simp [hi] at hfree
  | readEnd _ hfree => simp [hi] at hfree
  | writeEnd _ hfree => simp [hi] at hfree

/-- A set changes through the calls that name it, too. -/
theorem SlotStep.epoll (h : SlotStep s i c e) (hi : (s.fdt i).kind = .epoll) (hclose : c ≠ .close (fdOf i)) :
    e.kind = .epoll ∧ (e.ep = (s.fdt i).ep ∨ ∃ op fd ev, c = .epollCtl (fdOf i) op fd ev) := by
  cases h with
  | same => exact ⟨hi, Or.inl rfl⟩
  | closed hfd => exact absurd (by rw [(fdSlot_eq_some.mp hfd).1]) hclose
  | @members epfd op fd ev ep hfd =>
    refine ⟨hi, Or.inr ⟨op, fd, ev, ?_⟩⟩
    rw [(fdSlot_eq_some.mp hfd).1]
  | pushed => exact ⟨hi, Or.inl rfl⟩
  | popped => exact ⟨hi, Or.inl rfl⟩
  | counted => exact ⟨hi, Or.inl rfl⟩
  | stamped => exact ⟨hi, Or.inl rfl⟩
  | created _ _ hfree => simp [hi] at hfree
  | readEnd _ hfree => simp [hi] at hfree
  | writeEnd _ hfree => simp [hi] at hfree

end Slots

section Counters

/-- What a call puts into the counter behind `fd`. -/
def given (fd : ℤ) : Call × Answer → BitVec 64
  | (.write fd' bytes, a) => if fd' = fd ∧ a.ret = 8 then wordOf bytes else 0
  | (.eventfdWrite fd' value, _) => if fd' = fd then value else 0
  | _ => 0

/-- What a call draws from it. -/
def drawn (fd : ℤ) : Call × Answer → BitVec 64
  | (.read _ fd' _, a) => if fd' = fd then a.count else 0
  | (.eventfdRead fd' _, a) => if fd' = fd then a.count else 0
  | _ => 0

variable {s : Fds} {i : ℕ} {c : Call}

theorem given_eq_zero {fd : ℤ} {a : Answer} (h : c.fd? ≠ some fd) : given fd (c, a) = 0 := by
  cases c with
  | write fd' bytes => exact if_neg fun he => h (by rw [Call.fd?, he.1])
  | eventfdWrite fd' value => exact if_neg fun he => h (by rw [Call.fd?, he])
  | _ => rfl

theorem drawn_eq_zero {fd : ℤ} {a : Answer} (h : c.fd? ≠ some fd) : drawn fd (c, a) = 0 := by
  cases c with
  | read now fd' dst => exact if_neg fun he => h (by rw [Call.fd?, he])
  | eventfdRead fd' dst => exact if_neg fun he => h (by rw [Call.fd?, he])
  | _ => rfl

/-- What one call does to a counter. -/
theorem event_step (hlt : i < fakeFdN) (hi : (s.fdt i).kind = .event) (hclose : c ≠ .close (fdOf i)) :
    drawn (fdOf i) (c, (s.call c).1) + ((s.call c).2.fdt i).evCnt = (s.fdt i).evCnt + given (fdOf i) (c, (s.call c).1) := by
  have hslot := fdSlot_fdOf hlt
  by_cases hfd : c.fd? = some (fdOf i)
  · cases c with
    | write fd bytes =>
      obtain rfl : fd = fdOf i := Option.some.inj hfd
      simp only [Fds.call, Fds.write, hslot, hi, drawn, given, true_and]
      by_cases hlen : 8 ≤ bytes.length <;> simp [hlen, set_fdt]
    | read now fd dst =>
      obtain rfl : fd = fdOf i := Option.some.inj hfd
      simp only [Fds.call, Fds.read, hslot, hi, drawn, given, if_true]
      cases dst with
      | none => simp
      | some n =>
        by_cases hlen : n < 8
        · simp [hlen]
        · by_cases hzero : (s.fdt i).evCnt = 0#64 <;> simp [hlen, hzero, set_fdt, Fds.fail]
    | close fd => exact absurd (by rw [Option.some.inj hfd]) hclose
    | eventfdWrite fd value =>
      obtain rfl : fd = fdOf i := Option.some.inj hfd
      simp [Fds.call, Fds.eventfdWrite, hslot, hi, drawn, given, set_fdt]
    | eventfdRead fd dst =>
      obtain rfl : fd = fdOf i := Option.some.inj hfd
      simp only [Fds.call, Fds.eventfdRead, hslot, hi, drawn, given, if_true]
      cases dst with
      | false => simp [Fds.fail]
      | true => by_cases hzero : (s.fdt i).evCnt = 0#64 <;> simp [hzero, set_fdt, Fds.fail]
    | epollCtl epfd op fd ev =>
      obtain rfl : epfd = fdOf i := Option.some.inj hfd
      simp [Fds.call, Fds.epollCtl, hslot, hi, drawn, given, Fds.fail]
    | epollWait now epfd dst maxevents =>
      obtain rfl : epfd = fdOf i := Option.some.inj hfd
      simp only [Fds.call, Fds.epollWait, hslot, hi, drawn, given]
      split_ifs <;> simp [Fds.fail]
    | _ => cases hfd
  · rw [drawn_eq_zero hfd, given_eq_zero hfd, ((call_slot c i).event hi hclose).2 hfd]
    exact (BitVec.zero_add _).trans (BitVec.add_zero _).symm

/-- The sum, modulo 2^64. -/
def total (vs : List (BitVec 64)) : BitVec 64 := vs.foldr (· + ·) 0

/-- What was drawn from a counter, with what is left in it, is what it had and what was put into it. -/
theorem event_conserved {cs : List Call} {log : List (Call × Answer)} {t : Fds} (hlt : i < fakeFdN)
    (hi : (s.fdt i).kind = .event) (hopen : .close (fdOf i) ∉ cs) (hrun : s.trace cs = (log, t)) :
    total (log.map (drawn (fdOf i))) + (t.fdt i).evCnt = (s.fdt i).evCnt + total (log.map (given (fdOf i))) := by
  induction cs generalizing s log with
  | nil =>
    obtain ⟨rfl, rfl⟩ : [] = log ∧ s = t := Prod.mk.inj hrun
    exact (BitVec.zero_add _).trans (BitVec.add_zero _).symm
  | cons c cs ih =>
    obtain ⟨rfl, rfl⟩ := Prod.mk.inj hrun
    obtain ⟨hc, hrest⟩ := not_or.mp (mt List.mem_cons.mpr hopen)
    have hstep := event_step hlt hi (Ne.symm hc)
    have hlast := ih ((call_slot c i).event hi (Ne.symm hc)).1 hrest rfl
    simp only [List.map_cons, total, List.foldr_cons] at hlast ⊢
    rw [BitVec.add_assoc, hlast, ← BitVec.add_assoc, hstep, BitVec.add_assoc]

/-- A counter of five beside another one: a write of eight octets adds to it, and a second read finds nothing. -/
theorem event_conserved_sample :
    ∃ log t, (Fds.boot.eventfd 5).2.trace [.eventfd 7, .write 3 [1, 1, 0, 0, 0, 0, 0, 0], .eventfdRead 3 true,
        .read 0 3 (some 8)] = (log, t) ∧
      total (log.map (drawn 3)) + (t.fdt 0).evCnt = ((Fds.boot.eventfd 5).2.fdt 0).evCnt + total (log.map (given 3)) :=
  ⟨_, _, rfl, @event_conserved (Fds.boot.eventfd 5).2 0 [_, _, _, _] _ _ (by decide) (by decide) (by decide) rfl⟩

end Counters

section Sets

/-- The members of the set behind `epfd` after a call, from those before and the call's answer. -/
def interest (epfd : ℤ) (m : ℤ → Option EpollEvent) : Call × Answer → ℤ → Option EpollEvent
  | (.epollCtl epfd' op fd ev, a) =>
    if epfd' = epfd ∧ a.ret = 0 then
      if op = 1 ∨ op = 3 then Function.update m fd (some (ev.getD ⟨0, 0⟩))
      else if op = 2 then Function.update m fd none
      else m
    else m
  | _ => m

variable {s : Fds} {i : ℕ} {c : Call} {m : ℤ → Option EpollEvent}

theorem interest_eq_self {epfd : ℤ} {a : Answer} (h : ∀ op fd ev, c ≠ .epollCtl epfd op fd ev) :
    interest epfd m (c, a) = m := by
  cases c with
  | epollCtl epfd' op fd ev => exact if_neg fun he => h op fd ev (by rw [he.1])
  | _ => rfl

/-- The slot of an open set, with the members that it stands for. -/
structure Watches (s : Fds) (i : ℕ) (m : ℤ → Option EpollEvent) : Prop where
  lt : i < fakeFdN
  kind : (s.fdt i).kind = .epoll
  members : Represents (s.fdt i).ep m
  room : (s.fdt i).ep.length ≤ epollCap

theorem Watches.ctl (h : Watches s i m) (op fd : ℤ) (ev : Option EpollEvent) :
    Watches (s.epollCtl (fdOf i) op fd ev).2 i
      (interest (fdOf i) m (.epollCtl (fdOf i) op fd ev, (s.epollCtl (fdOf i) op fd ev).1)) := by
  have hset : ∀ ep m', Represents ep m' → ep.length ≤ epollCap → Watches (s.set i { s.fdt i with ep := ep }) i m' := by
    intro ep m' hep hroom
    refine ⟨h.lt, ?_, ?_, ?_⟩ <;> rw [set_fdt, if_pos rfl]
    · exact h.kind
    · exact hep
    · exact hroom
  have hfail : ∀ code, Watches (s.fail code).2 i
      (interest (fdOf i) m (.epollCtl (fdOf i) op fd ev, (s.fail code).1)) := by
    intro code
    rw [interest, if_neg (by rw [Fds.fail]; simp)]
    exact ⟨h.lt, h.kind, h.members, h.room⟩
  rw [Fds.epollCtl, fdSlot_fdOf h.lt]
  dsimp only
  rw [if_neg (not_not.mpr h.kind)]
  split_ifs with hadd hfull hdup hdel hmod
  · exact hfail 28
  · exact hfail 17
  · rw [interest, if_pos ⟨rfl, rfl⟩, if_pos (Or.inl hadd)]
    refine hset _ _ (h.members.add hdup _) ?_
    rw [List.length_append, List.length_singleton]
    omega
  · split
    · rename_i j hj
      have hdrop : dropEntry (s.fdt i).ep fd = swapRemove (s.fdt i).ep j := by
        rw [dropEntry, hj]
      rw [interest, if_pos ⟨rfl, rfl⟩, if_neg (by omega), if_pos hdel, ← hdrop]
      refine hset _ _ (h.members.drop fd) ?_
      exact (dropEntry_perm h.members.nodup).length_eq.trans_le ((List.length_filter_le _ _).trans h.room)
    · exact hfail 2
  · split
    · rename_i ep' hep
      rw [interest, if_pos ⟨rfl, rfl⟩, if_pos (Or.inr hmod)]
      refine hset _ _ (h.members.change hep) ?_
      obtain ⟨pre, x, post, hl, -, -, rfl⟩ := updateFirst_eq_some hep
      have hroom := h.room
      rw [hl] at hroom
      simpa using hroom
    · exact hfail 2
  · rw [interest, if_pos ⟨rfl, rfl⟩, if_neg (by omega), if_neg hdel]
    exact h

/-- What one call does to the members of a set. -/
theorem Watches.step (h : Watches s i m) (hclose : c ≠ .close (fdOf i)) :
    Watches (s.call c).2 i (interest (fdOf i) m (c, (s.call c).1)) := by
  by_cases hctl : ∃ op fd ev, c = .epollCtl (fdOf i) op fd ev
  · obtain ⟨op, fd, ev, rfl⟩ := hctl
    exact h.ctl op fd ev
  · obtain ⟨hkind, hep⟩ := (call_slot c i).epoll h.kind hclose
    have hep := hep.resolve_right hctl
    rw [interest_eq_self fun op fd ev hc => hctl ⟨op, fd, ev, hc⟩]
    exact ⟨h.lt, hkind, hep ▸ h.members, hep ▸ h.room⟩

theorem Watches.trace {cs : List Call} (h : Watches s i m) (hopen : .close (fdOf i) ∉ cs) :
    Watches (s.trace cs).2 i ((s.trace cs).1.foldl (interest (fdOf i)) m) := by
  induction cs generalizing s m with
  | nil => exact h
  | cons c cs ih =>
    obtain ⟨hc, hrest⟩ := not_or.mp (mt List.mem_cons.mpr hopen)
    exact ih (h.step (Ne.symm hc)) hrest

/-- A new set has no members. -/
theorem watches_create (h : s.epollCreate.1.ret = fdOf i) : Watches s.epollCreate.2 i fun _ => none := by
  rw [Fds.epollCreate, Fds.create] at h ⊢
  split at h
  · rename_i j hfree
    obtain rfl := fdOf_injective h
    refine ⟨(firstFree_spec hfree).2, ?_, ?_, ?_⟩ <;> simp only [set_fdt, if_true]
    · exact represents_nil
    · exact Nat.zero_le _
  · rw [Fds.fail, fdOf] at h
    simp only at h
    omega

theorem Watches.wait (h : Watches s i m) (now : BitVec 64) {maxevents : ℤ} (hroom : (epollCap : ℤ) ≤ maxevents) :
    ∃ fds : List ℤ, fds.Nodup ∧
      (∀ fd, fd ∈ fds ↔ (∃ ev, m fd = some ev ∧ ev.events &&& epollIn ≠ 0) ∧ s.fdReady now fd = true) ∧
      (s.epollWait now (fdOf i) true maxevents).1 =
        { ret := fds.length, events := fds.map fun fd => ⟨epollIn, ((m fd).getD ⟨0, 0⟩).data⟩ } := by
  set ready := (s.fdt i).ep.filter fun e => decide (e.2.events &&& epollIn ≠ 0) && s.fdReady now e.1 with hready
  have hmem : ∀ fd ev, (fd, ev) ∈ ready ↔ m fd = some ev ∧ ev.events &&& epollIn ≠ 0 ∧ s.fdReady now fd = true := by
    intro fd ev
    rw [hready, List.mem_filter, h.members.mem_iff, Bool.and_eq_true, decide_eq_true_eq]
  refine ⟨keysOf ready, nodup_filter h.members.nodup _, fun fd => ?_, ?_⟩
  · simp only [mem_keysOf, hmem]
    constructor
    · rintro ⟨ev, hev, hin, hr⟩
      exact ⟨⟨ev, hev, hin⟩, hr⟩
    · rintro ⟨⟨ev, hev, hin⟩, hr⟩
      exact ⟨ev, hev, hin, hr⟩
  · have hlen : ready.length ≤ maxevents.toNat := by
      have hle := (List.length_filter_le (fun e => decide (e.2.events &&& epollIn ≠ 0) && s.fdReady now e.1)
        (s.fdt i).ep).trans h.room
      rw [← hready] at hle
      omega
    have hscan : s.epollScan now (s.fdt i).ep maxevents.toNat =
        (keysOf ready).map fun fd => ⟨epollIn, ((m fd).getD ⟨0, 0⟩).data⟩ := by
      rw [Fds.epollScan, ← hready, List.take_of_length_le hlen, keysOf, List.map_map]
      refine List.map_congr_left fun e he => ?_
      rw [Function.comp_apply, ((hmem e.1 e.2).mp he).1]
      rfl
    have hpos : ¬(true = false ∨ maxevents ≤ 0) := by
      rw [epollCap] at hroom
      simp only [Bool.true_eq_false, false_or]
      omega
    rw [Fds.epollWait, if_neg hpos, fdSlot_fdOf h.lt]
    dsimp only
    rw [if_neg (not_not.mpr h.kind), hscan]
    simp [keysOf]

/-- Room for a new member is all that an addition asks for, and the member itself what the other operations do. -/
theorem Watches.admits (h : Watches s i m) (fd : ℤ) (ev : Option EpollEvent) :
    ((s.epollCtl (fdOf i) 1 fd ev).1.ret = 0 ↔ m fd = none ∧ {fd | m fd ≠ none}.ncard < epollCap) ∧
    ((s.epollCtl (fdOf i) 2 fd ev).1.ret = 0 ↔ m fd ≠ none) ∧
    ((s.epollCtl (fdOf i) 3 fd ev).1.ret = 0 ↔ m fd ≠ none) := by
  have hcount : {fd | m fd ≠ none}.ncard = (s.fdt i).ep.length := by
    have hset : {fd | m fd ≠ none} = ((keysOf (s.fdt i).ep).toFinset : Set ℤ) := by
      ext fd
      rw [Set.mem_ofPred_eq, ← h.members.mem_keys, Finset.mem_coe, List.mem_toFinset]
    rw [hset, Set.ncard_coe_finset, List.toFinset_card_of_nodup h.members.nodup, keysOf, List.length_map]
  have hkeys := h.members.mem_keys (k := fd)
  simp only [Fds.epollCtl, fdSlot_fdOf h.lt, h.kind, hcount, ne_eq, not_true_eq_false, if_false, if_true]
  refine ⟨?_, ?_, ?_⟩
  · split_ifs with hfull hdup
    · simp [Fds.fail, hfull]
    · simp [Fds.fail, hkeys.mp hdup]
    · have hnone : m fd = none := by
        by_contra hne
        exact hdup (hkeys.mpr hne)
      simpa [hnone] using hfull
  · rw [if_neg (by decide), ← ne_eq, ← hkeys]
    split
    · rename_i j hj
      have hmem : fd ∈ keysOf (s.fdt i).ep := by
        by_contra hno
        rw [findIdx?_key_none.mpr hno] at hj
        cases hj
      simpa using hmem
    · rename_i hj
      simpa [Fds.fail] using findIdx?_key_none.mp hj
  · rw [if_neg (by decide), if_neg (by decide), ← ne_eq, ← hkeys]
    split
    · rename_i ep' hep
      have hmem : fd ∈ keysOf (s.fdt i).ep := by
        by_contra hno
        rw [updateFirst_key_none.mpr hno] at hep
        cases hep
      simpa using hmem
    · rename_i hep
      simpa [Fds.fail] using updateFirst_key_none.mp hep

/-- A set reports each descriptor of interest that is ready exactly once, with what was last said about it. -/
theorem epoll_reports {cs : List Call} {log : List (Call × Answer)} {t : Fds} (hnew : s.epollCreate.1.ret = fdOf i)
    (hopen : .close (fdOf i) ∉ cs) (hrun : s.epollCreate.2.trace cs = (log, t))
    (hm : log.foldl (interest (fdOf i)) (fun _ => none) = m) (now : BitVec 64) {maxevents : ℤ}
    (hroom : (epollCap : ℤ) ≤ maxevents) :
    ∃ fds : List ℤ, fds.Nodup ∧
      (∀ fd, fd ∈ fds ↔ (∃ ev, m fd = some ev ∧ ev.events &&& epollIn ≠ 0) ∧ t.fdReady now fd = true) ∧
      (t.epollWait now (fdOf i) true maxevents).1 =
        { ret := fds.length, events := fds.map fun fd => ⟨epollIn, ((m fd).getD ⟨0, 0⟩).data⟩ } := by
  have hw := (watches_create hnew).trace hopen
  rw [hrun, hm] at hw
  exact hw.wait now hroom

/-- A counter and a pipe of interest, of which the pipe is empty. -/
theorem epoll_reports_sample :
    ∃ log t m, Fds.boot.epollCreate.2.trace [.eventfd 1, .pipe true, .epollCtl 3 1 4 (some ⟨1, 40⟩),
        .epollCtl 3 1 5 (some ⟨1, 50⟩), .epollCtl 3 3 4 (some ⟨1, 41⟩)] = (log, t) ∧
      log.foldl (interest 3) (fun _ => none) = m ∧
      ∃ fds : List ℤ, fds.Nodup ∧
        (∀ fd, fd ∈ fds ↔ (∃ ev, m fd = some ev ∧ ev.events &&& epollIn ≠ 0) ∧ t.fdReady 0 fd = true) ∧
        (t.epollWait 0 3 true 16).1 =
          { ret := fds.length, events := fds.map fun fd => ⟨epollIn, ((m fd).getD ⟨0, 0⟩).data⟩ } :=
  ⟨_, _, _, rfl, rfl, @epoll_reports Fds.boot 0 _ [_, _, _, _, _] _ _ (by decide) (by decide) rfl rfl 0 16 (by decide)⟩

/-- A set takes a new member exactly while it has fewer than sixteen, and changes or drops exactly those it has. -/
theorem epoll_admits {cs : List Call} {log : List (Call × Answer)} {t : Fds} (hnew : s.epollCreate.1.ret = fdOf i)
    (hopen : .close (fdOf i) ∉ cs) (hrun : s.epollCreate.2.trace cs = (log, t))
    (hm : log.foldl (interest (fdOf i)) (fun _ => none) = m) (fd : ℤ) (ev : Option EpollEvent) :
    ((t.epollCtl (fdOf i) 1 fd ev).1.ret = 0 ↔ m fd = none ∧ {fd | m fd ≠ none}.ncard < epollCap) ∧
    ((t.epollCtl (fdOf i) 2 fd ev).1.ret = 0 ↔ m fd ≠ none) ∧
    ((t.epollCtl (fdOf i) 3 fd ev).1.ret = 0 ↔ m fd ≠ none) := by
  have hw := (watches_create hnew).trace hopen
  rw [hrun, hm] at hw
  exact hw.admits fd ev

/-- A member that is added, taken out and added again. -/
theorem epoll_admits_sample :
    ∃ log t m, Fds.boot.epollCreate.2.trace [.epollCtl 3 1 9 none, .epollCtl 3 2 9 none] = (log, t) ∧
      log.foldl (interest 3) (fun _ => none) = m ∧
      ((t.epollCtl 3 1 9 none).1.ret = 0 ↔ m 9 = none ∧ {fd | m fd ≠ none}.ncard < epollCap) ∧
      ((t.epollCtl 3 2 9 none).1.ret = 0 ↔ m 9 ≠ none) ∧ ((t.epollCtl 3 3 9 none).1.ret = 0 ↔ m 9 ≠ none) :=
  ⟨_, _, _, rfl, rfl, @epoll_admits Fds.boot 0 _ [_, _] _ _ (by decide) (by decide) rfl rfl 9 none⟩

end Sets

end HouseKernel.LibC
