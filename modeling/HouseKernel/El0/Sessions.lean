import Mathlib.Data.Finmap
import HouseKernel.El0.SlotTable

/-! The table of EL0 sessions as a finite map. The 64 slots are scanned for a root by every call, and
a slot keeps the frame and the fault address of its last owner. What the calls answer is what they
would answer over a map from roots to sessions that holds neither. -/
namespace HouseKernel.El0

open HouseKernel.Lib

/-- The abort of a frame that will not run again. -/
def houseEl0ParkKill (t : El0Table) (cur : ℕ) (elr spEl0 : Word) (frame : Frame) (far : Word) : ℕ × El0Table :=
  parkFrame t cur frame elr spEl0 reqFaultKill fun _ => far &&& ~~~4095

/-- The code of an exit, if there was one; the error is a bad argument. -/
def houseEl0ExitStatus (t : El0Table) (key : ℕ) : ℤ × Option ℤ :=
  if key = 0 then (-14, none)
  else match t.find? (keyed key) with
    | some s => if s.exited then (1, some s.exitCode) else (0, none)
    | none => (0, none)

def houseEl0FaultAddr (t : El0Table) (key : ℕ) : Word :=
  if key = 0 then 0
  else match t.find? (keyed key) with
    | some s => if s.parked ∧ (s.req = reqFault ∨ s.req = reqFaultKill) then s.faultVa else 0
    | none => 0

def houseEl0Parked (t : El0Table) (key : ℕ) : ℕ :=
  if key = 0 then 0
  else match t.find? (keyed key) with
    | some s => if s.parked then 1 else 0
    | none => 0

/-- The request of a parked session, and x0 to x3. -/
def houseEl0TakeRequest (t : El0Table) (key : ℕ) : ℤ × Option (ℕ × List Word) :=
  if key = 0 then (-14, none)
  else match t.find? (keyed key) with
    | some s => if s.parked then (1, some (s.req, [s.save 0, s.save 1, s.save 2, s.save 3])) else (0, none)
    | none => (0, none)

def El0Slot.cloneFrom (p s : El0Slot) : El0Slot :=
  { s with save := Function.update p.save 0 0, elr := p.elr, spEl0 := p.spEl0, req := 0, parked := true,
           exitCode := 0, exited := false }

/-- The loop of the clone runs on to the end, so it finds the last slots of its two roots. -/
def houseEl0CloneSlot (t : El0Table) (parent child : ℕ) : ℤ × El0Table :=
  if parent = 0 ∨ child = 0 then (-22, t)
  else match t.reverse.find? (keyed parent), t.reverse.find? (keyed child) with
    | some p, some _ =>
      if !p.parked then (-22, t)
      else (0, ((updateFirst (keyed child) p.cloneFrom t.reverse).map List.reverse).getD t)
    | _, _ => (-22, t)

def El0Slot.setEntry (entry sp : Word) (s : El0Slot) : El0Slot :=
  { s with save := fun _ => 0, elr := entry, spEl0 := sp, req := 0 }

def houseEl0SetEntry (t : El0Table) (key : ℕ) (entry sp : Word) : ℤ × El0Table :=
  if key = 0 then (-22, t)
  else match t.find? (keyed key) with
    | some s =>
      if !s.parked then (-22, t) else (0, (updateFirst (keyed key) (El0Slot.setEntry entry sp) t).getD t)
    | none => (-22, t)

/-- A frame in EL0 that waits to be resumed; the address is that of a fault, or 0. -/
structure ParkedFrame where
  save : Frame
  elr : Word
  spEl0 : Word
  req : ℕ
  faultVa : Word

/-- What a root has to show for itself. -/
structure Session where
  parked : Option ParkedFrame
  exit : Option ℤ

def Session.fresh : Session := ⟨none, none⟩

abbrev SessionMap := Finmap fun _ : ℕ => Session

def El0Slot.session (s : El0Slot) : Session where
  parked :=
    if s.parked then
      some ⟨s.save, s.elr, s.spEl0, s.req, if s.req = reqFault ∨ s.req = reqFaultKill then s.faultVa else 0⟩
    else none
  exit := if s.exited then some s.exitCode else none

/-- The session of a root in the table. -/
def sessionOf (t : El0Table) (r : ℕ) : Option Session :=
  if r = 0 then none else (t.find? (keyed r)).map El0Slot.session

/-- The calls; the kinds of park are the traps that take them, and an SVC is parked only for a number
of the park gate, which ends at 0x18. -/
inductive El0Op where
  | register (key : ℕ)
  | unregister (key : ℕ)
  | park (cur : ℕ) (elr spEl0 : Word) (imm : Fin 0x19) (frame : Frame)
  | parkFault (cur : ℕ) (elr spEl0 : Word) (frame : Frame) (far : Word)
  | parkKill (cur : ℕ) (elr spEl0 : Word) (frame : Frame) (far : Word)
  | parkPreempt (cur : ℕ) (elr spEl0 : Word) (frame : Frame)
  | takeRequest (key : ℕ)
  | parked (key : ℕ)
  | faultAddr (key : ℕ)
  | resume (key : ℕ) (res : Word)
  | clone (parent child : ℕ)
  | setEntry (key : ℕ) (entry sp : Word)
  | setExit (cur : ℕ) (code : ℤ)
  | exitStatus (key : ℕ)

inductive El0Reply where
  | code (r : ℤ)
  | address (va : Word)
  | exit (r : ℤ) (code : Option ℤ)
  | request (r : ℤ) (req : Option (ℕ × List Word))
  /-- The frame with which a resume enters EL0, and the pc and the stack pointer. -/
  | resumed (r : ℤ) (enter : Option (Frame × Word × Word))

def el0Exec (t : El0Table) : El0Op → El0Reply × El0Table
  | .register key => ((.code (houseEl0Register t key).1), (houseEl0Register t key).2)
  | .unregister key => (.code 0, houseEl0Unregister t key)
  | .park cur elr spEl0 imm frame =>
    (.code (houseEl0Park t cur elr spEl0 imm frame).1, (houseEl0Park t cur elr spEl0 imm frame).2)
  | .parkFault cur elr spEl0 frame far =>
    (.code (houseEl0ParkFault t cur elr spEl0 frame far).1, (houseEl0ParkFault t cur elr spEl0 frame far).2)
  | .parkKill cur elr spEl0 frame far =>
    (.code (houseEl0ParkKill t cur elr spEl0 frame far).1, (houseEl0ParkKill t cur elr spEl0 frame far).2)
  | .parkPreempt cur elr spEl0 frame =>
    (.code (El0.parkPreempt t cur elr spEl0 frame).1, (El0.parkPreempt t cur elr spEl0 frame).2)
  | .takeRequest key => (.request (houseEl0TakeRequest t key).1 (houseEl0TakeRequest t key).2, t)
  | .parked key => (.code (houseEl0Parked t key), t)
  | .faultAddr key => (.address (houseEl0FaultAddr t key), t)
  | .resume key res =>
    (.resumed (houseResumeEl0 t key res).1 ((houseResumeEl0 t key res).2.2.map fun s => (s.save, s.elr, s.spEl0)),
      (houseResumeEl0 t key res).2.1)
  | .clone parent child => (.code (houseEl0CloneSlot t parent child).1, (houseEl0CloneSlot t parent child).2)
  | .setEntry key entry sp => (.code (houseEl0SetEntry t key entry sp).1, (houseEl0SetEntry t key entry sp).2)
  | .setExit cur code => (.code 0, houseSetExit t cur code)
  | .exitStatus key => (.exit (houseEl0ExitStatus t key).1 (houseEl0ExitStatus t key).2, t)

/-- The root that a call is about, if it may change it. -/
def El0Op.target : El0Op → Option ℕ
  | .register key | .unregister key | .resume key _ | .setEntry key _ _ => some key
  | .park cur _ _ _ _ | .parkFault cur _ _ _ _ | .parkKill cur _ _ _ _ | .parkPreempt cur _ _ _ => some cur
  | .setExit cur _ => some cur
  | .clone _ child => some child
  | .takeRequest _ | .parked _ | .faultAddr _ | .exitStatus _ => none

/-- A session parks, over the map. -/
def sessionPark (m : SessionMap) (r : ℕ) (p : ParkedFrame) : El0Reply × SessionMap :=
  match m.lookup r with
  | some s => (.code 1, m.insert r { s with parked := some p })
  | none => (.code 0, m)

/-- The calls over the map. The key 0 has no session, and two calls report it as a bad argument. -/
def sessionExec (m : SessionMap) : El0Op → El0Reply × SessionMap
  | .register key =>
    if key = 0 then (.code (-22), m)
    else if key ∈ m ∨ m.keys.card < el0N then (.code 0, m.insert key .fresh)
    else (.code (-28), m)
  | .unregister key => (.code 0, m.erase key)
  | .park cur elr spEl0 imm frame => sessionPark m cur ⟨frame, elr, spEl0, imm, 0⟩
  | .parkFault cur elr spEl0 frame far => sessionPark m cur ⟨frame, elr, spEl0, reqFault, far &&& ~~~4095⟩
  | .parkKill cur elr spEl0 frame far => sessionPark m cur ⟨frame, elr, spEl0, reqFaultKill, far &&& ~~~4095⟩
  | .parkPreempt cur elr spEl0 frame => sessionPark m cur ⟨frame, elr, spEl0, reqPreempt, 0⟩
  | .takeRequest key =>
    match (m.lookup key).bind (·.parked) with
    | some p => (.request 1 (some (p.req, [p.save 0, p.save 1, p.save 2, p.save 3])), m)
    | none => (.request (if key = 0 then -14 else 0) none, m)
  | .parked key => (.code (if ((m.lookup key).bind (·.parked)).isSome then 1 else 0), m)
  | .faultAddr key => (.address (((m.lookup key).bind (·.parked)).elim 0 (·.faultVa)), m)
  | .resume key res =>
    match m.lookup key with
    | none => (.resumed (-22) none, m)
    | some s =>
      match s.parked with
      | none => (.resumed 0 none, m)
      | some p =>
        (.resumed 0 (some (Function.update p.save 0 res, p.elr, p.spEl0)), m.insert key { s with parked := none })
  | .clone parent child =>
    match (m.lookup parent).bind (·.parked) with
    | some p =>
      if child ∈ m then
        (.code 0, m.insert child ⟨some ⟨Function.update p.save 0 0, p.elr, p.spEl0, 0, 0⟩, none⟩)
      else (.code (-22), m)
    | none => (.code (-22), m)
  | .setEntry key entry sp =>
    match m.lookup key with
    | some ⟨some _, exit⟩ => (.code 0, m.insert key ⟨some ⟨fun _ => 0, entry, sp, 0, 0⟩, exit⟩)
    | _ => (.code (-22), m)
  | .setExit cur code =>
    match m.lookup cur with
    | some s => (.code 0, m.insert cur { s with exit := some code })
    | none => (.code 0, m)
  | .exitStatus key =>
    match (m.lookup key).bind (·.exit) with
    | some code => (.exit 1 (some code), m)
    | none => (.exit (if key = 0 then -14 else 0) none, m)

/-- The answers of a sequence of calls, and the state behind it. -/
def answers {σ : Type*} (exec : σ → El0Op → El0Reply × σ) : σ → List El0Op → List El0Reply × σ
  | s, [] => ([], s)
  | s, op :: ops => ((exec s op).1 :: (answers exec (exec s op).2 ops).1, (answers exec (exec s op).2 ops).2)

/-- The table keeps the map: each root owns at most one slot, shows the session that the map has for
it, and the roots of the map and the free slots make up the table. -/
structure Refines (t : El0Table) (m : SessionMap) : Prop where
  once : ∀ r, r ≠ 0 → slotCount t r ≤ 1
  session : ∀ r, sessionOf t r = m.lookup r
  room : m.keys.card + slotCount t 0 = el0N

theorem keyed_of_ne {key : ℕ} {s : El0Slot} (h : s.pdir ≠ key) : keyed key s = false := decide_eq_false h

theorem keys_insert (m : SessionMap) (r : ℕ) (s : Session) : (m.insert r s).keys = insert r m.keys := by
  ext x
  simp [Finmap.mem_keys, Finmap.mem_insert]

theorem lookup_insert_eq (m : SessionMap) (k r : ℕ) (s : Session) :
    (m.insert k s).lookup r = if r = k then some s else m.lookup r := by
  split_ifs with hr
  · rw [hr, Finmap.lookup_insert]
  · exact Finmap.lookup_insert_of_ne m hr

theorem sessionOf_of_ne {t : El0Table} {r : ℕ} (hr : r ≠ 0) :
    sessionOf t r = (t.find? (keyed r)).map El0Slot.session := if_neg hr

section Refines

variable {t : El0Table} {m : SessionMap} {k : ℕ} {s : El0Slot} {f : El0Slot → El0Slot}

theorem Refines.lookup (h : Refines t m) (hk : k ≠ 0) :
    m.lookup k = (t.find? (keyed k)).map El0Slot.session := by
  rw [← h.session, sessionOf_of_ne hk]

theorem Refines.lookup_zero (h : Refines t m) : m.lookup 0 = none := by
  rw [← h.session]
  rfl

/-- The slot of a root, if the map has the root. -/
theorem Refines.mem_iff (h : Refines t m) (hk : k ≠ 0) : k ∈ m ↔ ∃ s, t.find? (keyed k) = some s := by
  rw [← Finmap.lookup_isSome, h.lookup hk, Option.isSome_map, Option.isSome_iff_exists]

theorem boot_refines : Refines el0Boot ∅ where
  once := fun r hr => by rw [slotCount_boot hr]; exact Nat.zero_le _
  session := by
    intro r
    unfold sessionOf
    split_ifs with hr
    · rfl
    · have hnone : el0Boot.find? (keyed r) = none := by
        refine List.find?_eq_none.mpr fun s hs => ?_
        rw [List.eq_of_mem_replicate hs, keyed_of_ne (Ne.symm hr)]
        exact Bool.false_ne_true
      rw [hnone]
      rfl
  room := by
    simp [slotCount, el0Boot, List.countP_replicate, keyed, el0Free]

/-- A change in the slot of a root that keeps its key is a change of its session in the map. -/
theorem Refines.modify (h : Refines t m) (hk : k ≠ 0) (hs : t.find? (keyed k) = some s) (hf : (f s).pdir = s.pdir) :
    Refines ((updateFirst (keyed k) f t).getD t) (m.insert k (f s).session) := by
  obtain ⟨pre, post, rfl, hx, hpre⟩ := find?_split hs
  have hkey : s.pdir = k := keyed_iff.mp hx
  have hkeyed : ∀ r, keyed r (f s) = keyed r s := fun r => by rw [keyed, keyed, hf]
  have hcount : ∀ r, slotCount (pre ++ f s :: post) r = slotCount (pre ++ s :: post) r := by
    intro r
    simp only [slotCount, List.countP_append, List.countP_cons, hkeyed]
  have hmem : k ∈ m := (h.mem_iff hk).mpr ⟨s, hs⟩
  rw [updateFirst_append_cons hpre hx, Option.getD_some]
  constructor
  case once => exact fun r hr => by rw [hcount]; exact h.once r hr
  case session =>
    intro r
    rw [lookup_insert_eq]
    split_ifs with hr
    · rw [hr, sessionOf_of_ne hk, find?_append_cons hpre ((hkeyed k).trans hx)]
      rfl
    · have hother : keyed r s = false := keyed_of_ne (by rw [hkey]; exact Ne.symm hr)
      rw [← h.session r]
      unfold sessionOf
      simp only [List.find?_append, List.find?_cons, hkeyed, hother]
  case room =>
    rw [keys_insert, Finset.insert_eq_of_mem (Finmap.mem_keys.mpr hmem), hcount]
    exact h.room

/-- A free slot is claimed for a root that has none. -/
theorem Refines.claim (h : Refines t m) (hk : k ≠ 0) (hnew : t.find? (keyed k) = none) {t' : El0Table}
    (hclaim : updateFirst (keyed 0) (El0Slot.claim k) t = some t') : Refines t' (m.insert k .fresh) := by
  obtain ⟨pre, x, post, rfl, hx, hpre, rfl⟩ := updateFirst_eq_some hclaim
  have hzero : x.pdir = 0 := keyed_iff.mp hx
  have hnone : ∀ y ∈ pre ++ x :: post, keyed k y = false := fun y hy => by
    simpa using List.find?_eq_none.mp hnew y hy
  have hcount := slotCount_update (b := k) hclaim fun _ => rfl
  have hk0 : slotCount (pre ++ x :: post) k = 0 := List.countP_eq_zero.mpr fun y hy => by simp [hnone y hy]
  have hmem : k ∉ m := fun hmem => by
    obtain ⟨s, hs⟩ := (h.mem_iff hk).mp hmem
    rw [hnew] at hs
    cases hs
  constructor
  case once =>
    intro r hr
    have hr' := hcount r
    have hold := h.once r hr
    rw [if_neg (Ne.symm hr)] at hr'
    split_ifs at hr' with hkr
    · subst hkr
      omega
    · omega
  case session =>
    intro r
    rw [lookup_insert_eq]
    split_ifs with hr
    · have hfind : (pre ++ x.claim k :: post).find? (keyed k) = some (x.claim k) :=
        find?_append_cons (fun y hy => hnone y (List.mem_append_left _ hy)) (keyed_iff.mpr rfl)
      rw [hr, sessionOf_of_ne hk, hfind]
      rfl
    · rw [← h.session r]
      unfold sessionOf
      split_ifs with hr0
      · rfl
      · rw [find?_updateFirst_of_false hclaim fun y hy => ?_]
        refine ⟨keyed_of_ne ?_, keyed_of_ne (Ne.symm hr)⟩
        rw [keyed_iff.mp hy]
        exact Ne.symm hr0
  case room =>
    have hroom := h.room
    have h0 := hcount 0
    rw [if_pos rfl, if_neg hk] at h0
    rw [keys_insert, Finset.card_insert_of_notMem (fun hin => hmem (Finmap.mem_keys.mp hin))]
    omega

/-- A slot that is given up takes its root out of the map. -/
theorem Refines.retract (h : Refines t m) (hk : k ≠ 0) :
    Refines ((updateFirst (keyed k) El0Slot.retract t).getD t) (m.erase k) := by
  cases hs : t.find? (keyed k) with
  | none =>
    have hmem : k ∉ m := fun hmem => by
      obtain ⟨s, hs'⟩ := (h.mem_iff hk).mp hmem
      rw [hs] at hs'
      cases hs'
    have hsame : m.erase k = m := by
      refine Finmap.ext_lookup fun r => ?_
      by_cases hr : r = k
      · rw [hr, Finmap.lookup_erase, Finmap.lookup_eq_none.mpr hmem]
      · rw [Finmap.lookup_erase_ne hr]
    rw [updateFirst_of_find?_none hs, hsame]
    exact h
  | some s =>
    obtain ⟨pre, post, rfl, hx, hpre, hpost⟩ := find?_split_once (h.once k hk) hs
    have hretract : updateFirst (keyed k) El0Slot.retract (pre ++ s :: post) = some (pre ++ s.retract :: post) :=
      updateFirst_append_cons hpre hx
    have hcount := slotCount_update (b := 0) hretract fun _ => rfl
    have hmem : k ∈ m := (h.mem_iff hk).mpr ⟨s, hs⟩
    rw [hretract, Option.getD_some]
    constructor
    case once =>
      intro r hr
      have hr' := hcount r
      have hold := h.once r hr
      rw [if_neg (Ne.symm hr)] at hr'
      omega
    case session =>
      intro r
      by_cases hr : r = k
      · have hnone : (pre ++ s.retract :: post).find? (keyed k) = none := by
          refine List.find?_eq_none.mpr fun y hy => ?_
          rw [Bool.not_eq_true]
          obtain hy | hy := List.mem_append.mp hy
          · exact hpre y hy
          · obtain rfl | hy := List.mem_cons.mp hy
            · exact keyed_of_ne (Ne.symm hk)
            · exact hpost y hy
        rw [hr, sessionOf_of_ne hk, hnone, Finmap.lookup_erase]
        rfl
      · rw [Finmap.lookup_erase_ne hr, ← h.session r]
        unfold sessionOf
        split_ifs with hr0
        · rfl
        · rw [find?_updateFirst_of_false hretract fun y hy => ?_]
          refine ⟨keyed_of_ne ?_, keyed_of_ne (Ne.symm hr0)⟩
          rw [keyed_iff.mp hy]
          exact Ne.symm hr
    case room =>
      have hroom := h.room
      have h0 := hcount 0
      rw [if_pos rfl, if_neg hk] at h0
      rw [Finmap.keys_erase, Finset.card_erase_of_mem (Finmap.mem_keys.mpr hmem)]
      have hpos : 0 < m.keys.card := Finset.card_pos.mpr ⟨k, Finmap.mem_keys.mpr hmem⟩
      omega

/-- The lookup of a root over the map, by the slot that the scan finds. -/
theorem Refines.lookup_cases (h : Refines t m) (hk : k ≠ 0) :
    (t.find? (keyed k) = none ∧ m.lookup k = none) ∨
      ∃ s, t.find? (keyed k) = some s ∧ m.lookup k = some s.session := by
  have hlookup := h.lookup hk
  cases hs : t.find? (keyed k) with
  | none => exact .inl ⟨rfl, by rw [hlookup, hs]; rfl⟩
  | some s => exact .inr ⟨s, rfl, by rw [hlookup, hs]; rfl⟩

/-- The answer and the new state of a call are those over the map. -/
def Follows (m : SessionMap) (op : El0Op) (r : El0Reply × El0Table) : Prop :=
  r.1 = (sessionExec m op).1 ∧ Refines r.2 (sessionExec m op).2

theorem Refines.register (h : Refines t m) (key : ℕ) : Follows m (.register key) (el0Exec t (.register key)) := by
  unfold Follows el0Exec sessionExec houseEl0Register
  dsimp only
  by_cases hk : key = 0
  · simp only [if_pos hk]
    exact ⟨trivial, h⟩
  · simp only [if_neg hk]
    cases hs : t.find? (keyed key) with
    | some s =>
      have hmem : key ∈ m := (h.mem_iff hk).mpr ⟨s, hs⟩
      have hmodify := h.modify (f := El0Slot.rearm) hk hs rfl
      obtain ⟨pre, post, rfl, hx, hpre⟩ := find?_split hs
      rw [updateFirst_append_cons hpre hx] at hmodify ⊢
      rw [if_pos (.inl hmem)]
      exact ⟨rfl, hmodify⟩
    | none =>
      have hmem : key ∉ m := fun hmem => by
        obtain ⟨s, hs'⟩ := (h.mem_iff hk).mp hmem
        rw [hs] at hs'
        cases hs'
      rw [updateFirst_of_find?_none hs]
      cases hclaim : updateFirst (keyed 0) (El0Slot.claim key) t with
      | some t' =>
        have hroom := h.room
        have hfree : 0 < slotCount t 0 := by
          by_contra hnone
          rw [updateFirst_eq_none.mpr (Nat.eq_zero_of_not_pos hnone)] at hclaim
          cases hclaim
        rw [if_pos (.inr (by omega))]
        exact ⟨rfl, h.claim hk hs hclaim⟩
      | none =>
        have hroom := h.room
        have hfull : slotCount t 0 = 0 := updateFirst_eq_none.mp hclaim
        rw [if_neg (not_or.mpr ⟨hmem, by omega⟩)]
        exact ⟨rfl, h⟩

theorem Refines.unregister (h : Refines t m) (key : ℕ) : Follows m (.unregister key) (el0Exec t (.unregister key)) := by
  refine ⟨rfl, ?_⟩
  unfold el0Exec sessionExec houseEl0Unregister
  dsimp only
  split_ifs with hk
  · have hsame : m.erase key = m := by
      refine Finmap.ext_lookup fun r => ?_
      by_cases hr : r = key
      · rw [hr, Finmap.lookup_erase, hk, h.lookup_zero]
      · rw [Finmap.lookup_erase_ne hr]
    rwa [hsame]
  · exact h.retract hk

/-- A park stores the whole frame, and the address that goes with its request. -/
theorem Refines.parkFrame (h : Refines t m) (cur : ℕ) (frame : Frame) (elr spEl0 : Word) (req : ℕ)
    (far : El0Slot → Word) (va : Word)
    (hva : ∀ s, (if req = reqFault ∨ req = reqFaultKill then far s else 0) = va) :
    El0Reply.code (parkFrame t cur frame elr spEl0 req far).1 = (sessionPark m cur ⟨frame, elr, spEl0, req, va⟩).1 ∧
      Refines (parkFrame t cur frame elr spEl0 req far).2 (sessionPark m cur ⟨frame, elr, spEl0, req, va⟩).2 := by
  unfold El0.parkFrame sessionPark
  by_cases hk : cur = 0
  · rw [if_pos hk, hk, h.lookup_zero]
    exact ⟨rfl, h⟩
  · rw [if_neg hk]
    obtain ⟨hs, hlookup⟩ | ⟨s, hs, hlookup⟩ := h.lookup_cases hk
    · rw [updateFirst_of_find?_none hs, hlookup]
      exact ⟨rfl, h⟩
    · have hmodify := h.modify (f := fun s =>
        { s with save := frame, elr := elr, spEl0 := spEl0, req := req, faultVa := far s, parked := true }) hk hs rfl
      obtain ⟨pre, post, rfl, hx, hpre⟩ := find?_split hs
      rw [updateFirst_append_cons hpre hx] at hmodify ⊢
      rw [hlookup]
      refine ⟨rfl, ?_⟩
      simpa only [Option.getD_some, El0Slot.session, if_true, hva s] using hmodify

theorem Refines.resume (h : Refines t m) (key : ℕ) (res : Word) :
    Follows m (.resume key res) (el0Exec t (.resume key res)) := by
  unfold Follows el0Exec sessionExec houseResumeEl0
  dsimp only
  by_cases hk : key = 0
  · rw [if_pos hk, hk, h.lookup_zero]
    exact ⟨rfl, h⟩
  · rw [if_neg hk]
    obtain ⟨hs, hlookup⟩ | ⟨s, hs, hlookup⟩ := h.lookup_cases hk
    · rw [hs, hlookup]
      exact ⟨rfl, h⟩
    · have hmodify := h.modify (f := fun _ => s.enter res) hk hs rfl
      rw [hs, hlookup]
      cases hp : s.parked with
      | false =>
        simp only [hp, El0Slot.session, Bool.not_false, if_true, Bool.false_eq_true, if_false]
        exact ⟨rfl, h⟩
      | true =>
        simp only [hp, El0Slot.session, Bool.not_true, Bool.false_eq_true, if_false, if_true]
        exact ⟨rfl, hmodify⟩

theorem Refines.setExit (h : Refines t m) (cur : ℕ) (code : ℤ) :
    Follows m (.setExit cur code) (el0Exec t (.setExit cur code)) := by
  unfold Follows el0Exec sessionExec houseSetExit
  dsimp only
  by_cases hk : cur = 0
  · rw [if_pos hk, hk, h.lookup_zero]
    exact ⟨rfl, h⟩
  · rw [if_neg hk]
    obtain ⟨hs, hlookup⟩ | ⟨s, hs, hlookup⟩ := h.lookup_cases hk
    · rw [updateFirst_of_find?_none hs, hlookup]
      exact ⟨rfl, h⟩
    · rw [hlookup]
      exact ⟨rfl, h.modify hk hs rfl⟩

theorem Refines.setEntry (h : Refines t m) (key : ℕ) (entry sp : Word) :
    Follows m (.setEntry key entry sp) (el0Exec t (.setEntry key entry sp)) := by
  unfold Follows el0Exec sessionExec houseEl0SetEntry
  dsimp only
  by_cases hk : key = 0
  · rw [if_pos hk, hk, h.lookup_zero]
    exact ⟨rfl, h⟩
  · rw [if_neg hk]
    obtain ⟨hs, hlookup⟩ | ⟨s, hs, hlookup⟩ := h.lookup_cases hk
    · rw [hs, hlookup]
      exact ⟨rfl, h⟩
    · have hmodify := h.modify (f := El0Slot.setEntry entry sp) hk hs rfl
      rw [hs, hlookup]
      cases hp : s.parked with
      | false =>
        simp only [hp, El0Slot.session, Bool.not_false, if_true, Bool.false_eq_true, if_false]
        exact ⟨trivial, h⟩
      | true =>
        have hreq : ¬ (0 = reqFault ∨ 0 = reqFaultKill) := by decide
        simp only [El0Slot.session, El0Slot.setEntry, hp, if_true, if_neg hreq] at hmodify
        simp only [hp, El0Slot.session, Bool.not_true, Bool.false_eq_true, if_false, if_true]
        exact ⟨trivial, hmodify⟩

theorem Refines.clone (h : Refines t m) (parent child : ℕ) :
    Follows m (.clone parent child) (el0Exec t (.clone parent child)) := by
  unfold Follows el0Exec sessionExec houseEl0CloneSlot
  dsimp only
  by_cases hparent : parent = 0
  · rw [if_pos (.inl hparent), hparent, h.lookup_zero]
    exact ⟨rfl, h⟩
  by_cases hchild : child = 0
  · rw [if_pos (.inr hchild)]
    have hmem : child ∉ m := by
      rw [hchild, ← Finmap.lookup_eq_none]
      exact h.lookup_zero
    simp only [if_neg hmem]
    split <;> exact ⟨rfl, h⟩
  · rw [if_neg (not_or.mpr ⟨hparent, hchild⟩), find?_reverse (h.once parent hparent), find?_reverse (h.once child hchild)]
    obtain ⟨hs, hlookup⟩ | ⟨p, hs, hlookup⟩ := h.lookup_cases hparent
    · rw [hs, hlookup]
      exact ⟨rfl, h⟩
    · rw [hs, hlookup]
      obtain ⟨hc, hclookup⟩ | ⟨s, hc, hclookup⟩ := h.lookup_cases hchild
      · have hmem : child ∉ m := Finmap.lookup_eq_none.mp hclookup
        simp only [hc, if_neg hmem]
        split <;> exact ⟨rfl, h⟩
      · have hmem : child ∈ m := Finmap.mem_of_lookup_eq_some hclookup
        have hmodify := h.modify (f := p.cloneFrom) hchild hc rfl
        rw [← updateFirst_reverse (h.once child hchild)] at hmodify
        rw [hc]
        cases hp : p.parked with
        | false =>
          simp only [hp, El0Slot.session, Bool.not_false, if_true, Bool.false_eq_true, if_false, Option.bind_some]
          exact ⟨trivial, h⟩
        | true =>
          simp only [El0Slot.session, El0Slot.cloneFrom, if_true, Bool.false_eq_true, if_false] at hmodify
          simp only [hp, El0Slot.session, Bool.not_true, Bool.false_eq_true, if_false, if_true, Option.bind_some, if_pos hmem]
          exact ⟨trivial, hmodify⟩

/-- The calls that only look leave the table alone. -/
theorem Refines.takeRequest (h : Refines t m) (key : ℕ) :
    Follows m (.takeRequest key) (el0Exec t (.takeRequest key)) := by
  have hsame : (sessionExec m (.takeRequest key)).2 = m := by
    unfold sessionExec
    dsimp only
    split <;> rfl
  refine ⟨?_, by rw [hsame]; exact h⟩
  unfold el0Exec sessionExec houseEl0TakeRequest
  dsimp only
  by_cases hk : key = 0
  · subst hk
    simp [h.lookup_zero]
  · obtain ⟨hs, hlookup⟩ | ⟨s, hs, hlookup⟩ := h.lookup_cases hk
    · simp [hk, hs, hlookup]
    · cases hp : s.parked <;> simp [hk, hs, hlookup, hp, El0Slot.session]

theorem Refines.isParked (h : Refines t m) (key : ℕ) : Follows m (.parked key) (el0Exec t (.parked key)) := by
  refine ⟨?_, h⟩
  unfold el0Exec sessionExec houseEl0Parked
  dsimp only
  by_cases hk : key = 0
  · subst hk
    simp [h.lookup_zero]
  · obtain ⟨hs, hlookup⟩ | ⟨s, hs, hlookup⟩ := h.lookup_cases hk
    · simp [hk, hs, hlookup]
    · cases hp : s.parked <;> simp [hk, hs, hlookup, hp, El0Slot.session]

theorem Refines.faultAddr (h : Refines t m) (key : ℕ) : Follows m (.faultAddr key) (el0Exec t (.faultAddr key)) := by
  refine ⟨?_, h⟩
  unfold el0Exec sessionExec houseEl0FaultAddr
  dsimp only
  by_cases hk : key = 0
  · subst hk
    simp [h.lookup_zero]
  · obtain ⟨hs, hlookup⟩ | ⟨s, hs, hlookup⟩ := h.lookup_cases hk
    · simp [hk, hs, hlookup]
    · cases hp : s.parked <;> simp [hk, hs, hlookup, hp, El0Slot.session]

theorem Refines.exitStatus (h : Refines t m) (key : ℕ) : Follows m (.exitStatus key) (el0Exec t (.exitStatus key)) := by
  have hsame : (sessionExec m (.exitStatus key)).2 = m := by
    unfold sessionExec
    dsimp only
    split <;> rfl
  refine ⟨?_, by rw [hsame]; exact h⟩
  unfold el0Exec sessionExec houseEl0ExitStatus
  dsimp only
  by_cases hk : key = 0
  · subst hk
    simp [h.lookup_zero]
  · obtain ⟨hs, hlookup⟩ | ⟨s, hs, hlookup⟩ := h.lookup_cases hk
    · simp [hk, hs, hlookup]
    · cases hp : s.exited <;> simp [hk, hs, hlookup, hp, El0Slot.session]

/-- Every call keeps the table and the map in step. -/
theorem Refines.follows (h : Refines t m) (op : El0Op) : Follows m op (el0Exec t op) := by
  cases op with
  | register key => exact h.register key
  | unregister key => exact h.unregister key
  | park cur elr spEl0 imm frame =>
    refine h.parkFrame cur frame elr spEl0 imm El0Slot.faultVa 0 fun s => if_neg ?_
    have himm := imm.isLt
    simp only [reqFault, reqFaultKill]
    omega
  | parkFault cur elr spEl0 frame far =>
    exact h.parkFrame cur frame elr spEl0 reqFault _ _ fun s => if_pos (.inl rfl)
  | parkKill cur elr spEl0 frame far =>
    exact h.parkFrame cur frame elr spEl0 reqFaultKill _ _ fun s => if_pos (.inr rfl)
  | parkPreempt cur elr spEl0 frame =>
    exact h.parkFrame cur frame elr spEl0 reqPreempt _ _ fun s => if_neg (by decide)
  | takeRequest key => exact h.takeRequest key
  | parked key => exact h.isParked key
  | faultAddr key => exact h.faultAddr key
  | resume key res => exact h.resume key res
  | clone parent child => exact h.clone parent child
  | setEntry key entry sp => exact h.setEntry key entry sp
  | setExit cur code => exact h.setExit cur code
  | exitStatus key => exact h.exitStatus key

theorem Refines.answers (h : Refines t m) (ops : List El0Op) :
    (El0.answers el0Exec t ops).1 = (El0.answers sessionExec m ops).1 ∧
      Refines (El0.answers el0Exec t ops).2 (El0.answers sessionExec m ops).2 := by
  induction ops generalizing t m with
  | nil => exact ⟨rfl, h⟩
  | cons op ops ih =>
    obtain ⟨hreply, hnext⟩ := h.follows op
    obtain ⟨hrest, hlast⟩ := ih hnext
    exact ⟨congrArg₂ List.cons hreply hrest, hlast⟩

end Refines

theorem sessionPark_of_ne (m : SessionMap) {r cur : ℕ} (hr : cur ≠ r) (p : ParkedFrame) :
    (sessionPark m cur p).2.lookup r = m.lookup r := by
  unfold sessionPark
  split
  · exact Finmap.lookup_insert_of_ne m (Ne.symm hr)
  · rfl

/-- Over the map, a call changes the session of its target at most. -/
theorem sessionExec_of_ne (m : SessionMap) {op : El0Op} {r : ℕ} (hr : op.target ≠ some r) :
    (sessionExec m op).2.lookup r = m.lookup r := by
  have hne : ∀ k, op.target = some k → r ≠ k := by
    rintro k hk rfl
    exact hr hk
  cases op with
  | register key =>
    unfold sessionExec
    dsimp only
    split_ifs
    · rfl
    · exact Finmap.lookup_insert_of_ne m (hne key rfl)
    · rfl
  | unregister key => exact Finmap.lookup_erase_ne (hne key rfl)
  | park cur | parkFault cur | parkKill cur | parkPreempt cur =>
    exact sessionPark_of_ne m (Ne.symm (hne cur rfl)) _
  | takeRequest | exitStatus =>
    unfold sessionExec
    dsimp only
    split <;> rfl
  | parked | faultAddr => rfl
  | resume key res =>
    unfold sessionExec
    dsimp only
    split
    · rfl
    · split
      · rfl
      · exact Finmap.lookup_insert_of_ne m (hne key rfl)
  | clone parent child =>
    unfold sessionExec
    dsimp only
    split
    · split_ifs
      · exact Finmap.lookup_insert_of_ne m (hne child rfl)
      · rfl
    · rfl
  | setEntry key entry sp =>
    unfold sessionExec
    dsimp only
    split
    · exact Finmap.lookup_insert_of_ne m (hne key rfl)
    · rfl
  | setExit cur code =>
    unfold sessionExec
    dsimp only
    split
    · exact Finmap.lookup_insert_of_ne m (hne cur rfl)
    · rfl

/-- A registration that is accepted starts an empty session. -/
theorem sessionExec_register {m : SessionMap} {key : ℕ} (h : (sessionExec m (.register key)).1 = .code 0) :
    (sessionExec m (.register key)).2.lookup key = some .fresh := by
  unfold sessionExec at h ⊢
  dsimp only at h ⊢
  split_ifs at h ⊢
  · exact absurd h (by simp)
  · exact Finmap.lookup_insert m
  · exact absurd h (by simp)

/-- The table after a sequence of calls since boot. -/
def afterCalls (ops : List El0Op) : El0Table := (answers el0Exec el0Boot ops).2

/-- The 64 slots behave as a finite map from roots to sessions: every sequence of calls is answered
as over the map, a root owns at most one slot, a call on one root leaves the sessions of the others
alone, and a root that is registered starts afresh in whatever slot it gets. -/
theorem el0_refines_map (ops : List El0Op) :
    (answers el0Exec el0Boot ops).1 = (answers sessionExec ∅ ops).1 ∧
      (∀ r, sessionOf (afterCalls ops) r = (answers sessionExec ∅ ops).2.lookup r) ∧
      (∀ r, r ≠ 0 → slotCount (afterCalls ops) r ≤ 1) ∧
      (∀ op r, op.target ≠ some r → sessionOf (el0Exec (afterCalls ops) op).2 r = sessionOf (afterCalls ops) r) ∧
      ∀ key, (houseEl0Register (afterCalls ops) key).1 = 0 →
        sessionOf (houseEl0Register (afterCalls ops) key).2 key = some .fresh := by
  obtain ⟨hanswers, hrefines⟩ := boot_refines.answers ops
  refine ⟨hanswers, hrefines.session, hrefines.once, fun op r hr => ?_, fun key hkey => ?_⟩
  · have hnext := (hrefines.follows op).2
    rw [afterCalls, hrefines.session, hnext.session, sessionExec_of_ne _ hr]
  · obtain ⟨hreply, hnext⟩ := hrefines.follows (.register key)
    have haccepted : (sessionExec (answers sessionExec ∅ ops).2 (.register key)).1 = .code 0 := by
      rw [← hreply]
      exact congrArg El0Reply.code hkey
    rw [← sessionExec_register haccepted]
    exact hnext.session key

end HouseKernel.El0
