import HouseKernel.LibC.Slots
import HouseKernel.Lib.Run

/-! Pipes over whole runs of calls. While both ends of a pipe are open, and no read end is closed before its write end,
the octets that were read and those that are still in the pipe are exactly those that the pipe took, in order. -/
namespace HouseKernel.LibC

open HouseKernel.Lib

/-- Slots `r` and `w` are the two ends of a pipe. -/
structure Joined (s : Fds) (r w : ℕ) : Prop where
  rlt : r < fakeFdN
  wlt : w < fakeFdN
  rkind : (s.fdt r).kind = .pipeR
  wkind : (s.fdt w).kind = .pipeW
  rpeer : (s.fdt r).peer = fdOf w
  wpeer : (s.fdt w).peer = fdOf r

/-- Every write end has its own read end. -/
def Fds.Paired (s : Fds) : Prop := ∀ w, (s.fdt w).kind = .pipeW → ∃ r, Joined s r w

/-- The descriptor that a call closes is not one that an open write end leads to. -/
def Orderly (s : Fds) (c : Call) : Prop := ∀ w < fakeFdN, (s.fdt w).kind = .pipeW → c ≠ .close (s.fdt w).peer

instance (s : Fds) (c : Call) : Decidable (Orderly s c) := inferInstanceAs (Decidable (∀ w < fakeFdN, _ → _))

def Fds.next (s : Fds) (c : Call) : Option Fds := some (s.call c).2

section Pairing

variable {s : Fds} {r w : ℕ} {c : Call}

theorem Joined.wslot (h : Joined s r w) : fdSlot (s.fdt w).peer = some r := by
  rw [h.wpeer, fdSlot_fdOf h.rlt]

/-- An end that is written through is its own write end's. -/
theorem Joined.unique {w' : ℕ} (hp : s.Paired) (h : Joined s r w) (hkind : (s.fdt w').kind = .pipeW)
    (hpeer : fdSlot (s.fdt w').peer = some r) : w' = w := by
  obtain ⟨r', hj⟩ := hp w' hkind
  obtain rfl : r' = r := Option.some.inj (hj.wslot.symm.trans hpeer)
  exact fdOf_injective (hj.rpeer.symm.trans h.rpeer)

/-- A write end changes only when it is closed. -/
theorem SlotStep.write_end {e : FdEntry} (h : SlotStep s w c e) (hw : (s.fdt w).kind = .pipeW) :
    e = s.fdt w ∨ c = .close (fdOf w) := by
  cases h with
  | same => exact Or.inl rfl
  | closed hfd => exact Or.inr (by rw [(fdSlot_eq_some.mp hfd).1])
  | pushed _ _ _ _ _ hi => simp [hi] at hw
  | popped _ _ hi => simp [hi] at hw
  | counted _ _ _ hi => simp [hi] at hw
  | stamped _ _ hi => simp [hi] at hw
  | members _ _ hi => simp [hi] at hw
  | created _ _ hi => simp [hi] at hw
  | readEnd _ hi => simp [hi] at hw
  | writeEnd _ hi => simp [hi] at hw

/-- A read end stays one until it is closed, and only its own reads and the writes that lead to it touch the octets. -/
theorem SlotStep.read_end {e : FdEntry} (h : SlotStep s r c e) (hr : (s.fdt r).kind = .pipeR) (hclose : c ≠ .close (fdOf r)) :
    (e.kind = .pipeR ∧ e.peer = (s.fdt r).peer) ∧
    (e.buf = (s.fdt r).buf ∨ (∃ now dst, c = .read now (fdOf r) dst) ∨
      ∃ w bytes, c = .write (fdOf w) bytes ∧ (s.fdt w).kind = .pipeW ∧ fdSlot (s.fdt w).peer = some r) := by
  cases h with
  | same => exact ⟨⟨hr, rfl⟩, Or.inl rfl⟩
  | closed hfd => exact absurd (by rw [(fdSlot_eq_some.mp hfd).1]) hclose
  | pushed bytes k hw hkind hpeer =>
    refine ⟨⟨hr, rfl⟩, Or.inr (Or.inr ⟨_, bytes, ?_, hkind, hpeer⟩)⟩
    rw [(fdSlot_eq_some.mp hw).1]
  | @popped now _ dst k hfd =>
    refine ⟨⟨hr, rfl⟩, Or.inr (Or.inl ⟨now, dst, ?_⟩)⟩
    rw [(fdSlot_eq_some.mp hfd).1]
  | counted => exact ⟨⟨hr, rfl⟩, Or.inl rfl⟩
  | stamped => exact ⟨⟨hr, rfl⟩, Or.inl rfl⟩
  | members => exact ⟨⟨hr, rfl⟩, Or.inl rfl⟩
  | created _ _ hi => simp [hi] at hr
  | readEnd _ hi => simp [hi] at hr
  | writeEnd _ hi => simp [hi] at hr

/-- A slot that is a write end after a call was one before, unless the call made the pipe. -/
theorem SlotStep.write_end_old {e : FdEntry} (h : SlotStep s w c e) (he : e.kind = .pipeW) (hc : c ≠ .pipe true) :
    (s.fdt w).kind = .pipeW := by
  cases h with
  | same => exact he
  | closed => cases he
  | pushed => exact he
  | popped => exact he
  | counted => exact he
  | stamped => exact he
  | members => exact he
  | created _ _ _ _ hw => exact absurd he hw
  | readEnd => exact absurd rfl hc
  | writeEnd => exact absurd rfl hc

/-- A pipe stays joined until one of its ends is closed. -/
theorem Joined.step (h : Joined s r w) (hr : c ≠ .close (fdOf r)) (hw : c ≠ .close (fdOf w)) :
    Joined (s.call c).2 r w := by
  obtain ⟨hkind, hpeer⟩ := ((call_slot c r).read_end h.rkind hr).1
  have hwrite := ((call_slot c w).write_end h.wkind).resolve_right hw
  exact ⟨h.rlt, h.wlt, hkind, hwrite ▸ h.wkind, hpeer.trans h.rpeer, hwrite ▸ h.wpeer⟩

theorem close_kind (hw : w < fakeFdN) : ((s.close (fdOf w)).2.fdt w).kind = .free := by
  rw [Fds.close, fdSlot_fdOf hw]
  dsimp only
  split_ifs with hfree
  · exact hfree
  · rw [set_fdt, if_pos rfl]

/-- The pipe that a call makes is joined. -/
theorem joined_pipe {i j : ℕ} (h : (s.pipe true).1.fds = [fdOf i, fdOf j]) : Joined (s.pipe true).2 i j := by
  obtain hfail | ⟨r, w, ⟨hr, hrlt⟩, ⟨hw, hwlt⟩, hne, hpipe⟩ := pipe_cases s
  · rw [hfail] at h
    cases h
  · rw [hpipe] at h ⊢
    obtain ⟨hi, hj⟩ : fdOf r = fdOf i ∧ fdOf w = fdOf j := by
      simpa only [List.cons.injEq, and_true] using h
    obtain rfl := fdOf_injective hi
    obtain rfl := fdOf_injective hj
    constructor <;> simp [set_fdt, hne, hrlt, hwlt]

/-- The slots that a new pipe does not take are as they were. -/
theorem pipe_others (hfree : (s.fdt r).kind ≠ .free) : (s.pipe true).2.fdt r = s.fdt r := by
  obtain hfail | ⟨i, j, ⟨hi, -⟩, ⟨hj, -⟩, -, hpipe⟩ := pipe_cases s
  · rw [hfail, fail_fdt]
  · rw [hpipe]
    have hri : r ≠ i := fun h => hfree (h ▸ hi)
    have hrj : r ≠ j := fun h => hfree (h ▸ hj)
    simp [set_fdt, hri, hrj]

theorem paired_pipe (hp : s.Paired) : (s.pipe true).2.Paired := by
  intro w hw
  by_cases hold : (s.fdt w).kind = .pipeW
  · obtain ⟨r, hj⟩ := hp w hold
    exact ⟨r, hj.step (c := .pipe true) nofun nofun⟩
  · obtain hfail | ⟨i, j, -, -, hne, hpipe⟩ := pipe_cases s
    · rw [hfail, fail_fdt] at hw
      exact absurd hw hold
    · have hwj : w = j := by
        rw [hpipe] at hw
        simp only [set_fdt] at hw
        split_ifs at hw with hj hi
        · exact hj
        · exact absurd hw hold
      rw [hwj]
      exact ⟨i, joined_pipe (by rw [hpipe])⟩

/-- No orderly call breaks the pairing. -/
theorem paired_step (hp : s.Paired) (ho : Orderly s c) : (s.call c).2.Paired := by
  by_cases hpipe : c = .pipe true
  · rw [hpipe]
    exact paired_pipe hp
  · intro w hw
    have hold := (call_slot c w).write_end_old hw hpipe
    obtain ⟨r, hj⟩ := hp w hold
    refine ⟨r, hj.step ?_ ?_⟩
    · rintro rfl
      exact ho w hj.wlt hold (by rw [hj.wpeer])
    · rintro rfl
      rw [Fds.call, close_kind hj.wlt] at hw
      cases hw

theorem paired_boot : Fds.boot.Paired := by
  intro w h
  cases h

end Pairing

/-- The octets that a call put into the pipe behind `fd`: as many as the answer says. -/
def accepted (fd : ℤ) : Call × Answer → Octets
  | (.write fd' bytes, a) => if fd' = fd then bytes.take a.ret.toNat else []
  | _ => []

/-- The octets that a call took out through `fd`. -/
def received (fd : ℤ) : Call × Answer → Octets
  | (.read _ fd' _, a) => if fd' = fd then a.out else []
  | _ => []

section Streaming

variable {s : Fds} {r w : ℕ} {c : Call}

theorem run_next (s : Fds) (cs : List Call) : run Fds.next s cs = some (s.trace cs).2 := by
  induction cs generalizing s with
  | nil => rfl
  | cons c cs ih => exact run_cons.mpr ⟨_, rfl, ih _⟩

theorem paired_trace {cs : List Call} (hp : s.Paired) (ho : Along Fds.next Orderly s cs) : (s.trace cs).2.Paired :=
  run_invariant (fun _ _ _ hp ho h => Option.some.inj h ▸ paired_step hp ho) hp ho (run_next s cs)

/-- A write through a joined pipe takes what there is room for. -/
theorem Joined.write (h : Joined s r w) (bytes : Octets) :
    s.write (fdOf w) bytes =
      ({ ret := ((min bytes.length (pipeCap - (s.fdt r).buf.length) : ℕ) : ℤ) },
        s.set r { s.fdt r with buf := (s.fdt r).buf ++ bytes.take (min bytes.length (pipeCap - (s.fdt r).buf.length)) }) := by
  rw [Fds.write, fdSlot_fdOf h.wlt]
  simp only [h.wkind, h.wslot]
  rw [if_neg (not_not.mpr h.rkind)]

/-- A read takes the first octets of the pipe. -/
theorem Joined.read (h : Joined s r w) (now : BitVec 64) (dst : Option ℕ) :
    ∃ k, (s.read now (fdOf r) dst).1.out = (s.fdt r).buf.take k ∧
      ((s.read now (fdOf r) dst).2.fdt r).buf = (s.fdt r).buf.drop k := by
  rw [Fds.read, fdSlot_fdOf h.rlt]
  simp only [h.rkind]
  cases dst with
  | none => exact ⟨0, rfl, rfl⟩
  | some n =>
    dsimp only
    split_ifs with hempty
    · exact ⟨0, rfl, rfl⟩
    · exact ⟨_, rfl, by rw [set_fdt, if_pos rfl]⟩

theorem received_eq_nil {fd : ℤ} {a : Answer} (h : ∀ now dst, c ≠ .read now fd dst) : received fd (c, a) = [] := by
  cases c with
  | read now fd' dst => exact if_neg fun he => h now dst (by rw [he])
  | _ => rfl

theorem accepted_eq_nil {fd : ℤ} {a : Answer} (h : ∀ bytes, c ≠ .write fd bytes) : accepted fd (c, a) = [] := by
  cases c with
  | write fd' bytes => exact if_neg fun he => h bytes (by rw [he])
  | _ => rfl

/-- What one call does to the octets of a pipe. -/
theorem Joined.stream_step (hp : s.Paired) (h : Joined s r w) (hroom : (s.fdt r).buf.length ≤ pipeCap)
    (hr : c ≠ .close (fdOf r)) :
    received (fdOf r) (c, (s.call c).1) ++ ((s.call c).2.fdt r).buf =
      (s.fdt r).buf ++ accepted (fdOf w) (c, (s.call c).1) ∧
    ((s.call c).2.fdt r).buf.length ≤ pipeCap := by
  by_cases hread : ∃ now dst, c = .read now (fdOf r) dst
  · obtain ⟨now, dst, rfl⟩ := hread
    obtain ⟨k, hout, hbuf⟩ := h.read now dst
    simp only [Fds.call, received, accepted, if_true, hout, hbuf, List.take_append_drop, List.append_nil, true_and,
      List.length_drop]
    omega
  by_cases hwrite : ∃ bytes, c = .write (fdOf w) bytes
  · obtain ⟨bytes, rfl⟩ := hwrite
    simp only [Fds.call, received, accepted, if_true, h.write, List.nil_append, Int.toNat_natCast, set_fdt, true_and,
      List.length_append, List.length_take]
    omega
  -- any other call leaves the octets as they are
  have hbuf : ((s.call c).2.fdt r).buf = (s.fdt r).buf := by
    obtain hbuf | hr' | ⟨w', bytes, hc, hkind, hpeer⟩ := ((call_slot c r).read_end h.rkind hr).2
    · exact hbuf
    · exact absurd hr' hread
    · rw [h.unique hp hkind hpeer] at hc
      exact absurd ⟨bytes, hc⟩ hwrite
  rw [received_eq_nil fun now dst hc => hread ⟨now, dst, hc⟩, accepted_eq_nil fun bytes hc => hwrite ⟨bytes, hc⟩, hbuf]
  exact ⟨(List.append_nil _).symm, hroom⟩

/-- What a run does to them. -/
theorem Joined.stream (hp : s.Paired) (h : Joined s r w) (hroom : (s.fdt r).buf.length ≤ pipeCap) {cs : List Call}
    (ho : Along Fds.next Orderly s cs) (hopen : ∀ c ∈ cs, c ≠ .close (fdOf r) ∧ c ≠ .close (fdOf w)) :
    (s.trace cs).1.flatMap (received (fdOf r)) ++ ((s.trace cs).2.fdt r).buf =
      (s.fdt r).buf ++ (s.trace cs).1.flatMap (accepted (fdOf w)) ∧
    ((s.trace cs).2.fdt r).buf.length ≤ pipeCap := by
  induction cs generalizing s with
  | nil => exact ⟨(List.append_nil _).symm, hroom⟩
  | cons c cs ih =>
    obtain ⟨⟨hr, hw⟩, hrest⟩ := List.forall_mem_cons.mp hopen
    obtain ⟨hstep, hroom'⟩ := h.stream_step hp hroom hr
    obtain ⟨hrun, hlast⟩ := ih (paired_step hp ho.1) (h.step hr hw) hroom' (ho.2 _ rfl) hrest
    refine ⟨?_, hlast⟩
    simp only [Fds.trace, List.flatMap_cons]
    rw [List.append_assoc, hrun, ← List.append_assoc, hstep, List.append_assoc]

/-- The octets that were read from a pipe, with those that it still holds, are those that it took, in order. -/
theorem pipe_stream {before after : List Call} {r w : ℤ} {log : List (Call × Answer)} {t : Fds}
    (hpipe : ((Fds.boot.trace before).2.pipe true).1.fds = [r, w])
    (hrun : ((Fds.boot.trace before).2.pipe true).2.trace after = (log, t))
    (horderly : Along Fds.next Orderly Fds.boot (before ++ .pipe true :: after))
    (hopen : ∀ c ∈ after, c ≠ .close r ∧ c ≠ .close w) :
    ∃ i, fdSlot r = some i ∧ log.flatMap (received r) ++ (t.fdt i).buf = log.flatMap (accepted w) ∧
      (t.fdt i).buf.length ≤ pipeCap := by
  obtain ⟨hbefore, hafter⟩ := along_append.mp horderly
  have hp := paired_trace paired_boot hbefore
  obtain ⟨-, hrest⟩ := hafter _ (run_next _ _)
  obtain hfail | ⟨i, j, ⟨-, hi⟩, -, hne, heq⟩ := pipe_cases (Fds.boot.trace before).2
  · rw [hfail] at hpipe
    cases hpipe
  · obtain ⟨rfl, rfl⟩ : fdOf i = r ∧ fdOf j = w := by
      rw [heq] at hpipe
      simpa only [List.cons.injEq, and_true] using hpipe
    have hbuf : (((Fds.boot.trace before).2.pipe true).2.fdt i).buf = [] := by
      rw [heq]
      simp [set_fdt, hne]
    obtain ⟨hstream, hroom⟩ :=
      (joined_pipe hpipe).stream (paired_pipe hp) (by simp [hbuf]) (hrest _ rfl) hopen
    rw [hrun, hbuf, List.nil_append] at hstream
    rw [hrun] at hroom
    exact ⟨i, fdSlot_fdOf hi, hstream, hroom⟩

/-- A pipe beside one that is closed in order, and a read that is short of room. -/
theorem pipe_stream_sample :
    ∃ log t, ((Fds.boot.trace [.pipe true, .close 4]).2.pipe true).2.trace
        [.write 5 [104, 105], .close 3, .read 0 4 (some 1)] = (log, t) ∧
      ∃ i, fdSlot 4 = some i ∧ log.flatMap (received 4) ++ (t.fdt i).buf = log.flatMap (accepted 5) ∧
        (t.fdt i).buf.length ≤ pipeCap :=
  ⟨_, _, rfl, @pipe_stream [.pipe true, .close 4] [.write 5 [104, 105], .close 3, .read 0 4 (some 1)] 4 5 _ _
    (by decide) rfl (by decide +kernel) (by decide)⟩

end Streaming

end HouseKernel.LibC
