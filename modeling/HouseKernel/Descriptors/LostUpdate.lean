import Mathlib.Tactic
import HouseKernel.Lib.Run
import HouseKernel.Descriptors.FailedOpen

/-! Two write calls on one file, step by step. A call reads the whole file, puts its bytes in and
writes the whole file back, and no lock is held from the read to the write. What the other call
has written in between is lost; when neither reads in the other's gap, nothing is. -/
namespace HouseKernel.Descriptors

open HouseKernel.FileSystem HouseKernel.Lib

variable {ι β : Type*}

/-- A write call: who writes what through which descriptor. -/
structure Writer where
  pid : ℕ
  fd : ℤ
  content : Octets
  deriving DecidableEq

/-- Two write calls under way. -/
structure Writers (ι β : Type*) where
  first : WritePhase ι
  second : WritePhase ι
  io : Io β

/-- One of the calls takes its next step, the first one on `true`. -/
def writersStep (env : FdEnv ι β) (r : Registry ι) (a b : Writer) (s : Writers ι β) : Bool → Option (Writers ι β)
  | true =>
    let next := fdWriteStep env r a.pid a.fd a.content (s.first, s.io)
    some ⟨next.1, s.second, next.2⟩
  | false =>
    let next := fdWriteStep env r b.pid b.fd b.content (s.second, s.io)
    some ⟨s.first, next.1, next.2⟩

/-- What callers rely on: reading leaves the file as it is, and what was written is read. -/
structure FileStore (env : FdEnv ι β) : Prop where
  read_again : ∀ ops rel b, (env.opsRead ops rel (env.opsRead ops rel b).2).1 = (env.opsRead ops rel b).1
  read_written : ∀ ops rel new b b', env.opsWrite ops rel new b = (.ok (), b') → (env.opsRead ops rel b').1 = .ok new

/-- The call has read the file and not yet written it. -/
def WritePhase.InGap : WritePhase ι → Prop
  | .spliced _ _ _ _ => True
  | _ => False

/-- The next step of the call reads the file. -/
def WritePhase.Reads : WritePhase ι → Prop
  | .resolved _ _ _ => True
  | _ => False

instance : DecidablePred (@WritePhase.InGap ι)
  | .spliced _ _ _ _ => isTrue trivial
  | .start | .opened _ | .resolved _ _ _ | .written _ | .done _ => isFalse id

instance : DecidablePred (@WritePhase.Reads ι)
  | .resolved _ _ _ => isTrue trivial
  | .start | .opened _ | .spliced _ _ _ _ | .written _ | .done _ => isFalse id

/-- A call reads the file only while the other one is not between its read and its write. -/
def ReadsApart (s : Writers ι β) : Bool → Prop
  | true => s.first.Reads → ¬ s.second.InGap
  | false => s.second.Reads → ¬ s.first.InGap

instance (s : Writers ι β) : ∀ who : Bool, Decidable (ReadsApart s who)
  | true => inferInstanceAs (Decidable (s.first.Reads → ¬ s.second.InGap))
  | false => inferInstanceAs (Decidable (s.second.Reads → ¬ s.first.InGap))

/-- The bytes stand at the offset. -/
def Holds (now : Octets) (off : ℕ) (content : Octets) : Prop :=
  ∀ i, i < content.length → now[off + i]? = content[i]?

theorem getElem?_splice {off : ℕ} {content old : Octets} (h : off ≤ old.length) (k : ℕ) :
    (splice off content old)[k]? =
      if k < off then old[k]? else if k < off + content.length then content[k - off]? else old[k]? := by
  have hlen : (old.take off).length = off := List.length_take_of_le h
  rw [splice, List.append_assoc]
  split_ifs with hbefore hin
  · rw [List.getElem?_append_left (by omega), List.getElem?_take_of_lt hbefore]
  · rw [List.getElem?_append_right (by omega), List.getElem?_append_left (by omega), hlen]
  · rw [List.getElem?_append_right (by omega), List.getElem?_append_right (by omega), List.getElem?_drop, hlen]
    congr 1
    omega

theorem holds_splice {off : ℕ} {content old : Octets} (h : off ≤ old.length) :
    Holds (splice off content old) off content := by
  intro i hi
  rw [getElem?_splice h, if_neg (by omega), if_pos (by omega), Nat.add_sub_cancel_left]

/-- A splice leaves the bytes outside its range. -/
theorem holds_splice_apart {off o : ℕ} {content c old : Octets} (h : off ≤ old.length)
    (hapart : off + content.length ≤ o ∨ o + c.length ≤ off) (hc : Holds old o c) :
    Holds (splice off content old) o c := by
  intro i hi
  rw [getElem?_splice h, ← hc i hi]
  split_ifs
  · rfl
  · omega
  · rfl

section run

variable (env : FdEnv ι β) (ops : ι) (rel : Text)

/-- What the file holds: nothing when it is missing. -/
def fileNow (io : Io β) : Except FdError Octets := oldContent (env.opsRead ops rel io.store).1

/-- Where a call stands that writes at the offset of `ent`, while the other stands at `other`. -/
def Side (w : Writer) (ent : Entry) (other : WritePhase ι) (io : Io β) : WritePhase ι → Prop
  | .start => lookupEntry io.table w.pid w.fd = some ent
  | .opened e => e = ent
  | .resolved e o p => e = ent ∧ o = ops ∧ p = rel
  | .spliced e o p new =>
    e = ent ∧ o = ops ∧ p = rel ∧ ¬ other.InGap ∧
      ∃ old, fileNow env ops rel io = .ok old ∧ ent.off ≤ old.length ∧ new = splice ent.off w.content old
  | .written e => e = ent ∧ ∃ now, fileNow env ops rel io = .ok now ∧ Holds now ent.off w.content
  | .done (.ok _) => ∃ now, fileNow env ops rel io = .ok now ∧ Holds now ent.off w.content
  | .done (.error _) => True

/-- The call has given up. -/
def WritePhase.Failed : WritePhase ι → Prop
  | .done (.error _) => True
  | _ => False

/-- What a step of a call does to the other one, which stands at `other`. -/
structure StepEffect (w : Writer) (ent : Entry) (other : WritePhase ι) (io io' : Io β) (phase' : WritePhase ι) :
    Prop where
  entries : ∀ q f, q ≠ w.pid → lookupEntry io'.table q f = lookupEntry io.table q f
  file : fileNow env ops rel io' = fileNow env ops rel io ∨ ¬ other.InGap ∧
    ∃ old, fileNow env ops rel io = .ok old ∧ ent.off ≤ old.length ∧
      fileNow env ops rel io' = .ok (splice ent.off w.content old)
  gap : phase'.InGap → ¬ other.InGap

variable {env ops rel}

/-- A step that keeps the file and the entries disturbs nobody. -/
theorem StepEffect.quiet {w : Writer} {ent : Entry} {other phase' : WritePhase ι} {io io' : Io β}
    (htable : io'.table = io.table) (hfile : fileNow env ops rel io' = fileNow env ops rel io)
    (hgap : phase'.InGap → ¬ other.InGap) : StepEffect env ops rel w ent other io io' phase' where
  entries := fun q f _ => by rw [htable]
  file := .inl hfile
  gap := hgap

theorem commitOff_entries {γ : Type*} (io : Io β) (pid : ℕ) (fd : ℤ) (off : ℕ) (res : γ) {q : ℕ} (f : ℤ)
    (hq : q ≠ pid) : lookupEntry (commitOff io pid fd off res).2.table q f = lookupEntry io.table q f := by
  unfold commitOff
  split
  · rfl
  · rw [lookupEntry_setEntry, if_neg fun h => hq h.1]

theorem commitOff_store {γ : Type*} (io : Io β) (pid : ℕ) (fd : ℤ) (off : ℕ) (res : γ) :
    (commitOff io pid fd off res).2.store = io.store := by
  unfold commitOff
  split <;> rfl

/-- A step of a call on a file keeps its side, unless it fails. -/
theorem fdWriteStep_side (hstore : FileStore env) {r : Registry ι} {w : Writer} {ent : Entry}
    (hfile : ent.path ≠ consolePath) (hresolve : vfsLookup r ent.ns ent.path = .ok (ops, rel))
    {phase other : WritePhase ι} {io : Io β} (hside : Side env ops rel w ent other io phase)
    (hapart : phase.Reads → ¬ other.InGap) :
    let next := fdWriteStep env r w.pid w.fd w.content (phase, io)
    next.1.Failed ∨
      Side env ops rel w ent other next.2 next.1 ∧ StepEffect env ops rel w ent other io next.2 next.1 := by
  intro next
  cases phase with
  | start =>
    have hent : lookupEntry io.table w.pid w.fd = some ent := hside
    by_cases hlen : maxFdBytes < w.content.length
    · have hnext : next = (.done (.error (.inval "bad length")), io) := by
        simp only [next, fdWriteStep, if_pos hlen]
      exact .inl (by rw [hnext]; trivial)
    by_cases hacc : ent.acc = oRdonly
    · have hnext : next = (.done (.error (.inval "not writable")), io) := by
        simp only [next, fdWriteStep, if_neg hlen, hent, if_pos hacc]
      exact .inl (by rw [hnext]; trivial)
    · have hnext : next = (.opened ent, io) := by
        simp only [next, fdWriteStep, if_neg hlen, hent, if_neg hacc, if_neg hfile]
      rw [hnext]
      exact .inr ⟨rfl, StepEffect.quiet rfl rfl False.elim⟩
  | opened e =>
    obtain rfl : e = ent := hside
    have hnext : next = (.resolved e ops rel, io) := by
      simp only [next, fdWriteStep, hresolve]
    rw [hnext]
    exact .inr ⟨⟨rfl, rfl, rfl⟩, StepEffect.quiet rfl rfl False.elim⟩
  | resolved e o p =>
    obtain ⟨rfl, rfl, rfl⟩ := hside
    have hagain : ∀ b', b' = (env.opsRead o p io.store).2 →
        fileNow env o p { io with store := b' } = fileNow env o p io := by
      rintro _ rfl
      rw [fileNow, hstore.read_again, fileNow]
    cases hold : fileNow env o p io with
    | error err =>
      have hnext : next.1 = .done (.error err) := by
        simp only [fileNow] at hold
        simp only [next, fdWriteStep, hold]
      exact .inl (by rw [hnext]; trivial)
    | ok old =>
      by_cases hoff : old.length < e.off
      · have hnext : next.1 = .done (.error (.inval "offset past EOF")) := by
          simp only [fileNow] at hold
          simp only [next, fdWriteStep, hold, if_pos hoff]
        exact .inl (by rw [hnext]; trivial)
      · have hnext : next = (.spliced e o p (splice e.off w.content old),
            { io with store := (env.opsRead o p io.store).2 }) := by
          simp only [fileNow] at hold
          simp only [next, fdWriteStep, hold, if_neg hoff]
        rw [hnext]
        refine .inr ⟨⟨rfl, rfl, rfl, hapart trivial, old, ?_, Nat.le_of_not_lt hoff, rfl⟩, ?_⟩
        · rw [hagain _ rfl, hold]
        · exact StepEffect.quiet rfl (hagain _ rfl) fun _ => hapart trivial
  | spliced e o p new =>
    obtain ⟨rfl, rfl, rfl, hother, old, hold, hoff, rfl⟩ := hside
    cases hwrite : env.opsWrite o p (splice e.off w.content old) io.store with
    | mk res b =>
      cases res with
      | error err =>
        have hnext : next.1 = .done (.error (ofFsError err)) := by
          simp only [next, fdWriteStep, hwrite]
        exact .inl (by rw [hnext]; trivial)
      | ok _ =>
        have hnext : next = (.written e, { io with store := b }) := by
          simp only [next, fdWriteStep, hwrite]
        have hnow : fileNow env o p { io with store := b } = .ok (splice e.off w.content old) := by
          rw [fileNow, hstore.read_written _ _ _ _ _ hwrite]
          rfl
        rw [hnext]
        refine .inr ⟨⟨rfl, _, hnow, holds_splice hoff⟩, ?_⟩
        exact ⟨fun _ _ _ => rfl, .inr ⟨hother, old, hold, hoff, hnow⟩, False.elim⟩
  | written e =>
    obtain ⟨rfl, now, hnow, hholds⟩ := hside
    have hsame : ∀ io' : Io β, io'.store = io.store → fileNow env ops rel io' = fileNow env ops rel io := by
      intro io' h
      rw [fileNow, fileNow, h]
    have hnext : next = (.done (commitOff io w.pid w.fd (e.off + w.content.length) (w.content.length : ℤ)).1,
        (commitOff io w.pid w.fd (e.off + w.content.length) (w.content.length : ℤ)).2) := rfl
    have hkept := hsame _ (commitOff_store io w.pid w.fd (e.off + w.content.length) (w.content.length : ℤ))
    rw [hnext]
    refine .inr ⟨?_, fun q f hq => commitOff_entries _ _ _ _ _ _ hq, .inl hkept, False.elim⟩
    cases (commitOff io w.pid w.fd (e.off + w.content.length) (w.content.length : ℤ)).1 with
    | error err => trivial
    | ok n => exact ⟨now, hkept.trans hnow, hholds⟩
  | done res => exact .inr ⟨hside, StepEffect.quiet rfl rfl False.elim⟩

/-- A step of the other call keeps the side of this one, when their ranges are apart. -/
theorem side_of_effect {w w' : Writer} {ent ent' : Entry} {phase phase' mine : WritePhase ι} {io io' : Io β}
    (hpid : w'.pid ≠ w.pid)
    (hapart : ent.off + w.content.length ≤ ent'.off ∨ ent'.off + w'.content.length ≤ ent.off)
    (heffect : StepEffect env ops rel w ent mine io io' phase') (hside : Side env ops rel w' ent' phase io mine) :
    Side env ops rel w' ent' phase' io' mine := by
  -- what stands in the file stays, be the file left alone or written by the other call
  have hholds : (∃ now, fileNow env ops rel io = .ok now ∧ Holds now ent'.off w'.content) →
      ∃ now, fileNow env ops rel io' = .ok now ∧ Holds now ent'.off w'.content := by
    rintro ⟨now, hnow, hin⟩
    obtain hsame | ⟨-, old, hold, hoff, hnew⟩ := heffect.file
    · exact ⟨now, hsame.trans hnow, hin⟩
    · obtain rfl : now = old := Except.ok.inj (hnow.symm.trans hold)
      exact ⟨_, hnew, holds_splice_apart hoff hapart hin⟩
  cases mine with
  | start => exact (heffect.entries _ _ hpid).trans hside
  | opened e => exact hside
  | resolved e o p => exact hside
  | spliced e o p new =>
    obtain ⟨he, ho, hp, -, old, hold, hoff, hnew⟩ := hside
    have hsame := heffect.file.resolve_right fun h => h.1 trivial
    exact ⟨he, ho, hp, fun hgap => heffect.gap hgap trivial, old, hsame.trans hold, hoff, hnew⟩
  | written e => exact ⟨hside.1, hholds hside.2⟩
  | done res =>
    cases res with
    | error err => trivial
    | ok n => exact hholds hside

end run

/-- One of the calls has failed, or each stands on its side. -/
def BothSides (env : FdEnv ι β) (ops : ι) (rel : Text) (a b : Writer) (enta entb : Entry) (s : Writers ι β) : Prop :=
  s.first.Failed ∨ s.second.Failed ∨
    Side env ops rel a enta s.second s.io s.first ∧ Side env ops rel b entb s.first s.io s.second

theorem failed_stays (env : FdEnv ι β) (r : Registry ι) (w : Writer) {phase : WritePhase ι} (h : phase.Failed)
    (io : Io β) : fdWriteStep env r w.pid w.fd w.content (phase, io) = (phase, io) := by
  cases phase with
  | done res => rfl
  | _ => exact h.elim

/-- Calls of different processes through entries that name one file, at ranges that are apart. -/
structure OneFile (r : Registry ι) (ops : ι) (rel : Text) (a b : Writer) (enta entb : Entry) : Prop where
  pids : a.pid ≠ b.pid
  fileA : enta.path ≠ consolePath
  fileB : entb.path ≠ consolePath
  resolveA : vfsLookup r enta.ns enta.path = .ok (ops, rel)
  resolveB : vfsLookup r entb.ns entb.path = .ok (ops, rel)
  ranges : enta.off + a.content.length ≤ entb.off ∨ entb.off + b.content.length ≤ enta.off

theorem bothSides_step {env : FdEnv ι β} (hstore : FileStore env) {r : Registry ι} {ops : ι} {rel : Text} {a b : Writer}
    {enta entb : Entry} (hone : OneFile r ops rel a b enta entb) {s u : Writers ι β} {who : Bool}
    (hs : BothSides env ops rel a b enta entb s) (hreads : ReadsApart s who)
    (hstep : writersStep env r a b s who = some u) : BothSides env ops rel a b enta entb u := by
  cases who with
  | true =>
    obtain rfl := Option.some.inj hstep
    obtain hfail | hfail | ⟨hfirst, hsecond⟩ := hs
    · left
      rw [failed_stays env r a hfail]
      exact hfail
    · exact .inr (.inl hfail)
    · obtain hfail | ⟨hside, heffect⟩ := fdWriteStep_side hstore hone.fileA hone.resolveA hfirst hreads
      · exact .inl hfail
      · exact .inr (.inr ⟨hside, side_of_effect hone.pids.symm hone.ranges heffect hsecond⟩)
  | false =>
    obtain rfl := Option.some.inj hstep
    obtain hfail | hfail | ⟨hfirst, hsecond⟩ := hs
    · exact .inl hfail
    · right; left
      rw [failed_stays env r b hfail]
      exact hfail
    · obtain hfail | ⟨hside, heffect⟩ := fdWriteStep_side hstore hone.fileB hone.resolveB hsecond hreads
      · exact .inr (.inl hfail)
      · exact .inr (.inr ⟨side_of_effect hone.pids hone.ranges.symm heffect hfirst, hside⟩)

/-- When neither call reads in the other's gap and both report success, the file holds the bytes
of both. -/
theorem no_lost_update {env : FdEnv ι β} (hstore : FileStore env) (r : Registry ι) (ops : ι) (rel : Text) (a b : Writer)
    (enta entb : Entry) (hone : OneFile r ops rel a b enta entb) (io : Io β)
    (ha : lookupEntry io.table a.pid a.fd = some enta) (hb : lookupEntry io.table b.pid b.fd = some entb)
    (ms : List Bool) (hreads : Along (writersStep env r a b) ReadsApart ⟨.start, .start, io⟩ ms) (t : Writers ι β)
    (hrun : run (writersStep env r a b) ⟨.start, .start, io⟩ ms = some t) (m n : ℤ)
    (hm : t.first = .done (.ok m)) (hn : t.second = .done (.ok n)) :
    ∃ now, fileNow env ops rel t.io = .ok now ∧ Holds now enta.off a.content ∧ Holds now entb.off b.content := by
  have hstart : BothSides env ops rel a b enta entb ⟨.start, .start, io⟩ := .inr (.inr ⟨ha, hb⟩)
  have hsides : BothSides env ops rel a b enta entb t :=
    run_invariant (fun _ _ _ hs hreads hstep => bothSides_step hstore hone hs hreads hstep) hstart hreads hrun
  obtain hfail | hfail | ⟨hfirst, hsecond⟩ := hsides
  · rw [hm] at hfail
    exact hfail.elim
  · rw [hn] at hfail
    exact hfail.elim
  · rw [hm] at hfirst
    rw [hn] at hsecond
    obtain ⟨now, hnow, hholds⟩ := hfirst
    obtain ⟨now', hnow', hholds'⟩ := hsecond
    obtain rfl : now = now' := Except.ok.inj (hnow.symm.trans hnow')
    exact ⟨now, hnow, hholds, hholds'⟩

section RamFs

open HouseKernel.FileSystem.RamFs

theorem read_of_write {fs fs' : Fs} {cs : List Text} {content : Octets} (h : fs.write cs content = .ok fs') :
    fs'.read cs = .ok content := by
  obtain ⟨-, -, rfl⟩ := Fs.write_eq_ok.mp h
  simp [Fs.read, Fs.put]

/-- The RAM file system keeps a file as it was last written. -/
theorem ramEnv_fileStore {κ : Type*} (con : Console κ) : FileStore (ramEnv con) where
  read_again _ _ _ := rfl
  read_written := by
    rintro ops rel new ⟨s, c⟩ b' hwrite
    obtain ⟨hanswer, rfl⟩ := Prod.ext_iff.mp hwrite
    obtain ⟨hdoes, hfs⟩ := s.opsWrite_does rel new
    have hok : (s.opsWrite rel new).1 = .ok () := hanswer
    rw [hdoes] at hok
    change (s.opsWrite rel new).2.ram.opsRead rel = .ok new
    rw [Ram.opsRead_eq]
    cases hrel : splitPath rel with
    | error e =>
      rw [hrel] at hok
      cases hok
    | ok cs =>
      rw [hrel] at hok hfs
      change (s.fs.write cs new).map _ = _ at hok
      change _ = (s.fs.write cs new).toOption.getD _ at hfs
      cases hnew : s.fs.write cs new with
      | error e =>
        rw [hnew] at hok
        cases hok
      | ok fs' =>
        rw [hnew] at hfs
        change (s.opsWrite rel new).2.fs.read cs = _
        rw [hfs]
        exact read_of_write hnew

end RamFs

/-- Process 1 has `/f` open at its start and process 2 two bytes further. -/
def sharedIo : Io (RamFs.SoundRam × Unit) where
  table := setEntry (setEntry ∅ 1 3 ⟨text "/f", 0, 2, 0⟩) 2 3 ⟨text "/f", 2, 2, 0⟩
  store := (((RamFs.SoundRam.boot [4, 5, 6] (fun _ => []) (by decide)).opsWrite (text "/f") [0, 0, 0, 0]).2, ())

def firstWriter : Writer := ⟨1, 3, [1, 1]⟩

def secondWriter : Writer := ⟨2, 3, [2, 2]⟩

theorem sharedOneFile :
    OneFile rootRegistry () (text "/f") firstWriter secondWriter ⟨text "/f", 0, 2, 0⟩ ⟨text "/f", 2, 2, 0⟩ where
  pids := by decide
  fileA := by decide
  fileB := by decide
  resolveA := rfl
  resolveB := rfl
  ranges := .inl (by decide)

/-- The calls open the file in turn, and the second one reads after the first has written. -/
def inTurn : List Bool := [true, false, true, false, true, true, true, false, false, false]

/-- Both calls read before either writes. -/
def crossed : List Bool := [true, false, true, false, true, false, true, false, true, false]

theorem no_lost_update_in_turn : ∃ t ∈ run (writersStep (ramEnv noConsole) rootRegistry firstWriter secondWriter)
    ⟨.start, .start, sharedIo⟩ inTurn, ∃ now, fileNow (ramEnv noConsole) () (text "/f") t.io = .ok now ∧
      Holds now 0 [1, 1] ∧ Holds now 2 [2, 2] := by
  obtain ⟨t, ht, hm, hn⟩ : ∃ t ∈ run (writersStep (ramEnv noConsole) rootRegistry firstWriter secondWriter)
      ⟨.start, .start, sharedIo⟩ inTurn, t.first = .done (.ok 2) ∧ t.second = .done (.ok 2) := by
    decide
  exact ⟨t, ht, no_lost_update (ramEnv_fileStore noConsole) rootRegistry () (text "/f") firstWriter secondWriter _ _
    sharedOneFile sharedIo (by decide) (by decide) inTurn (by decide) t ht 2 2 hm hn⟩

/-- Both calls report success, and the bytes of the first one are gone. -/
theorem update_lost : ∃ t ∈ run (writersStep (ramEnv noConsole) rootRegistry firstWriter secondWriter)
    ⟨.start, .start, sharedIo⟩ crossed, t.first = .done (.ok 2) ∧ t.second = .done (.ok 2) ∧
      ¬ ∃ now, fileNow (ramEnv noConsole) () (text "/f") t.io = .ok now ∧ Holds now 0 [1, 1] ∧ Holds now 2 [2, 2] := by
  obtain ⟨t, ht, hm, hn, hfile⟩ : ∃ t ∈ run (writersStep (ramEnv noConsole) rootRegistry firstWriter secondWriter)
      ⟨.start, .start, sharedIo⟩ crossed, t.first = .done (.ok 2) ∧ t.second = .done (.ok 2) ∧
        fileNow (ramEnv noConsole) () (text "/f") t.io = .ok [0, 0, 2, 2] := by
    decide
  refine ⟨t, ht, hm, hn, ?_⟩
  rintro ⟨now, hnow, hholds, -⟩
  obtain rfl : now = [0, 0, 2, 2] := Except.ok.inj (hnow.symm.trans hfile)
  exact absurd (hholds 0 (by decide)) (by decide)

end HouseKernel.Descriptors
