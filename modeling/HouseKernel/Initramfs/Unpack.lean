import HouseKernel.FileSystem.RamVfs
import HouseKernel.Initramfs.Cpio
import HouseKernel.Lib.LastWith

/-! Unpacking archive entries into a namespace: the directories first, then the files with the
directories above them. Nothing is created or changed but what the entries name. -/
namespace HouseKernel.Initramfs

open HouseKernel.FileSystem HouseKernel.FileSystem.RamFs HouseKernel.Lib

/-- `'.'` -/
def dot : CodePoint := ⟨46, by decide⟩

def isDirMode (m : BitVec 32) : Bool := m &&& 0o170000 = 0o040000

def isFileMode (m : BitVec 32) : Bool := m &&& 0o170000 = 0o100000

def stripDotSlash : Text → Text
  | [] => []
  | [c] => if c = dot then [] else [c]
  | c :: d :: rest => if c = dot ∧ d = slash then stripDotSlash rest else c :: d :: rest

def toComps (name : Text) : Except FsError (List Text) := splitPath (slash :: stripDotSlash name)

section unpack

variable (r : Registry Unit) (ns : ℕ)

/-- Create the directories of a list; those that are there are fine. -/
def ensureAll : List (List Text) → SoundRam → Except FsError Unit × SoundRam
  | [], s => (.ok (), s)
  | p :: ps, s =>
    match vfsMkdir r ns (joinRel p) s with
    | (.ok (), s) => ensureAll ps s
    | (.error .eexist, s) => ensureAll ps s
    | (.error e, s) => (.error e, s)

/-- The levels of a path, the shortest first. -/
def prefixes (comps : List Text) : List (List Text) := (List.range comps.length).map fun i => comps.take (i + 1)

def ensureHierarchy (comps : List Text) (s : SoundRam) : Except FsError Unit × SoundRam :=
  ensureAll r ns (prefixes comps) s

def makeDirs : List CpioEntry → SoundRam → Except FsError Unit × SoundRam
  | [], s => (.ok (), s)
  | e :: rest, s =>
    match toComps e.entryName with
    | .error err => (.error err, s)
    | .ok comps =>
      match ensureHierarchy r ns comps s with
      | (.error err, s) => (.error err, s)
      | (.ok (), s) => makeDirs rest s

def writeFiles : List CpioEntry → ℕ → SoundRam → Except FsError ℕ × SoundRam
  | [], n, s => (.ok n, s)
  | e :: rest, n, s =>
    match toComps e.entryName with
    | .error err => (.error err, s)
    | .ok [] => (.error (.einval "empty path"), s)
    | .ok (c :: cs) =>
      match ensureHierarchy r ns (c :: cs).dropLast s with
      | (.error err, s) => (.error err, s)
      | (.ok (), s) =>
        match vfsWrite r ns (joinRel (c :: cs)) e.entryData s with
        | (.error err, s) => (.error err, s)
        | (.ok (), s) => writeFiles rest (n + 1) s

/-- The number of files written. -/
def unpackEntries (es : List CpioEntry) (s : SoundRam) : Except FsError ℕ × SoundRam :=
  match makeDirs r ns (es.filter fun e => isDirMode e.entryMode) s with
  | (.error e, s) => (.error e, s)
  | (.ok (), s) => writeFiles r ns (es.filter fun e => isFileMode e.entryMode) 0 s

end unpack

/-- What stands at the paths. -/
abbrev View := List Text → Option Obj

/-- Only directories are new, at paths in `P` where there was nothing. -/
def Grows (P : List Text → Prop) (old new : View) : Prop := ∀ q, new q = old q ∨ P q ∧ old q = none ∧ new q = some .dir

namespace Grows

variable {P Q : List Text → Prop} {old mid new : View}

theorem refl (P : List Text → Prop) (old : View) : Grows P old old := fun _ => .inl rfl

theorem mono (h : Grows P old new) (hPQ : ∀ q, P q → Q q) : Grows Q old new :=
  fun q => (h q).imp_right fun ⟨hP, hq⟩ => ⟨hPQ q hP, hq⟩

theorem trans (h : Grows P old mid) (h' : Grows P mid new) : Grows P old new := by
  intro q
  obtain hmid | ⟨hP, hnone, hdir⟩ := h q
  · rw [← hmid]
    exact h' q
  · obtain hnew | ⟨-, hmidnone, -⟩ := h' q
    · exact .inr ⟨hP, hnone, hnew.trans hdir⟩
    · exact absurd (hdir.symm.trans hmidnone) (by simp)

/-- What stands at a path stays. -/
theorem kept (h : Grows P old new) {q : List Text} {obj : Obj} (hq : old q = some obj) : new q = some obj := by
  obtain hnew | ⟨-, hnone, -⟩ := h q
  · rw [hnew, hq]
  · exact absurd (hq.symm.trans hnone) (by simp)

end Grows

variable {r : Registry Unit} {ns : ℕ}

/-- A level is there once it is made, or was there before. -/
theorem vfsMkdir_level (hr : Rooted r ns) {p : List Text} (hp : p ≠ []) (hnames : ∀ c ∈ p, NormalName c) {s s' : SoundRam}
    (h : vfsMkdir r ns (joinRel p) s = (.ok (), s') ∨ vfsMkdir r ns (joinRel p) s = (.error .eexist, s')) :
    Grows (· = p) s.fs.files s'.fs.files ∧ s'.fs.files p ≠ none := by
  have hdoes := vfsMkdir_does hr (joinRel p) s
  rw [splitPath_joinRel hnames] at hdoes
  change s.Does _ (s.fs.mkdir p) at hdoes
  rw [Fs.mkdir, if_neg hp, Fs.add] at hdoes
  obtain ⟨hanswer, hfs⟩ := hdoes
  have hs' : (vfsMkdir r ns (joinRel p) s).2 = s' := by
    obtain h | h := h <;> rw [h]
  cases hparent : s.fs.checkParent p with
  | error e =>
    have hne : e ≠ .eexist := by
      rintro rfl
      rw [Fs.checkParent] at hparent
      split at hparent <;> cases hparent
    rw [hparent] at hanswer
    obtain h | h := h
    · rw [h] at hanswer
      cases hanswer
    · rw [h] at hanswer
      exact absurd (Except.error.inj hanswer).symm hne
  | ok u =>
    rw [hparent] at hfs
    change (vfsMkdir r ns (joinRel p) s).2.fs = (if _ then _ else _ : Except FsError Fs).toOption.getD s.fs at hfs
    rw [hs'] at hfs
    by_cases hsome : (s.fs.files p).isSome = true
    · rw [if_pos hsome] at hfs
      obtain hfs : s'.fs = s.fs := hfs
      rw [hfs]
      exact ⟨.refl _ _, Option.isSome_iff_ne_none.mp hsome⟩
    · have hnone : s.fs.files p = none := by simpa using hsome
      rw [if_neg hsome] at hfs
      obtain hfs : s'.fs.files = Function.update s.fs.files p (some .dir) := congrArg Fs.files hfs
      rw [hfs]
      refine ⟨fun q => ?_, by simp⟩
      by_cases hq : q = p
      · exact .inr ⟨hq, by rw [hq, hnone], by rw [hq, Function.update_self]⟩
      · exact .inl (Function.update_of_ne hq _ _)

theorem ensureAll_ok (hr : Rooted r ns) {ps : List (List Text)} (hps : ∀ p ∈ ps, p ≠ [] ∧ ∀ c ∈ p, NormalName c)
    {s s' : SoundRam} (h : ensureAll r ns ps s = (.ok (), s')) :
    Grows (· ∈ ps) s.fs.files s'.fs.files ∧ ∀ p ∈ ps, s'.fs.files p ≠ none := by
  induction ps generalizing s with
  | nil =>
    obtain ⟨-, rfl⟩ := Prod.mk.inj h
    exact ⟨.refl _ _, by simp⟩
  | cons p ps ih =>
    obtain ⟨⟨hp, hnames⟩, hrest⟩ := List.forall_mem_cons.mp hps
    obtain ⟨t, hmk, ht⟩ : ∃ t, (vfsMkdir r ns (joinRel p) s = (.ok (), t) ∨
        vfsMkdir r ns (joinRel p) s = (.error .eexist, t)) ∧ ensureAll r ns ps t = (.ok (), s') := by
      rw [ensureAll] at h
      split at h
      · next t ht => exact ⟨t, .inl ht, h⟩
      · next t ht => exact ⟨t, .inr ht, h⟩
      · cases (Prod.mk.inj h).1
    obtain ⟨hgrow, hthere⟩ := vfsMkdir_level hr hp hnames hmk
    obtain ⟨hgrows, hlevels⟩ := ih hrest ht
    refine ⟨(hgrow.mono (by simp)).trans (hgrows.mono fun q hq => List.mem_cons_of_mem _ hq), ?_⟩
    intro q hq
    obtain rfl | hq := List.mem_cons.mp hq
    · obtain ⟨obj, hobj⟩ := Option.ne_none_iff_exists'.mp hthere
      rw [hgrows.kept hobj]
      simp
    · exact hlevels q hq

theorem mem_prefixes {comps p : List Text} : p ∈ prefixes comps ↔ p ≠ [] ∧ p <+: comps := by
  rw [prefixes, List.mem_map]
  constructor
  · rintro ⟨i, hi, rfl⟩
    refine ⟨?_, List.take_prefix _ _⟩
    rw [ne_eq, List.take_eq_nil_iff]
    rintro (h | rfl)
    · omega
    · simp at hi
  · rintro ⟨hne, hpre⟩
    have hpos := List.length_pos_iff.mpr hne
    have hle := hpre.length_le
    refine ⟨p.length - 1, List.mem_range.mpr (by omega), ?_⟩
    rw [Nat.sub_add_cancel hpos]
    exact (List.prefix_iff_eq_take.mp hpre).symm

theorem ensureHierarchy_ok (hr : Rooted r ns) {comps : List Text} (hnames : ∀ c ∈ comps, NormalName c)
    {s s' : SoundRam} (h : ensureHierarchy r ns comps s = (.ok (), s')) :
    Grows (· <+: comps) s.fs.files s'.fs.files ∧ s'.fs.files comps ≠ none := by
  have hps : ∀ p ∈ prefixes comps, p ≠ [] ∧ ∀ c ∈ p, NormalName c := by
    intro p hp
    obtain ⟨hne, hpre⟩ := mem_prefixes.mp hp
    exact ⟨hne, fun c hc => hnames c (hpre.subset hc)⟩
  obtain ⟨hgrows, hlevels⟩ := ensureAll_ok hr hps h
  refine ⟨hgrows.mono fun p hp => (mem_prefixes.mp hp).2, ?_⟩
  by_cases hcomps : comps = []
  · rw [hcomps, SoundRam.fs, s'.sound.files_nil]
    simp
  · exact hlevels comps (mem_prefixes.mpr ⟨hcomps, List.prefix_refl _⟩)

theorem toComps_ok {name : Text} {cs : List Text} (h : toComps name = .ok cs) : ∀ c ∈ cs, NormalName c :=
  fun c hc => (splitPath_ok h c hc).1

/-- The path is one of an entry, or above one. -/
def Named (es : List CpioEntry) (q : List Text) : Prop := ∃ e ∈ es, ∃ cs, toComps e.entryName = .ok cs ∧ q <+: cs

theorem Named.cons {es : List CpioEntry} {q : List Text} (h : Named es q) (e : CpioEntry) : Named (e :: es) q := by
  obtain ⟨e', he', hcs⟩ := h
  exact ⟨e', List.mem_cons_of_mem _ he', hcs⟩

theorem makeDirs_ok (hr : Rooted r ns) {es : List CpioEntry} {s s' : SoundRam}
    (h : makeDirs r ns es s = (.ok (), s')) : Grows (Named es) s.fs.files s'.fs.files ∧
      ∀ e ∈ es, ∃ cs, toComps e.entryName = .ok cs ∧ s'.fs.files cs ≠ none := by
  induction es generalizing s with
  | nil =>
    obtain ⟨-, rfl⟩ := Prod.mk.inj h
    exact ⟨.refl _ _, by simp⟩
  | cons e rest ih =>
    rw [makeDirs] at h
    cases hname : toComps e.entryName with
    | error err =>
      rw [hname] at h
      cases (Prod.mk.inj h).1
    | ok cs =>
      obtain ⟨t, ht, hrest⟩ : ∃ t, ensureHierarchy r ns cs s = (.ok (), t) ∧ makeDirs r ns rest t = (.ok (), s') := by
        rw [hname] at h
        simp only at h
        split at h
        · cases (Prod.mk.inj h).1
        · next t ht => exact ⟨t, ht, h⟩
      obtain ⟨hgrow, hthere⟩ := ensureHierarchy_ok hr (toComps_ok hname) ht
      obtain ⟨hgrows, hall⟩ := ih hrest
      refine ⟨(hgrow.mono fun q hq => ⟨e, List.mem_cons_self, cs, hname, hq⟩).trans
        (hgrows.mono fun q hq => hq.cons e), List.forall_mem_cons.mpr ⟨⟨cs, hname, ?_⟩, hall⟩⟩
      obtain ⟨obj, hobj⟩ := Option.ne_none_iff_exists'.mp hthere
      rw [hgrows.kept hobj]
      simp

def entryComps (e : CpioEntry) : Option (List Text) := (toComps e.entryName).toOption

/-- The payload of the last entry with the path. -/
def payload (es : List CpioEntry) (q : List Text) : Option Octets := (lastWith entryComps es q).map CpioEntry.entryData

theorem payload_cons (e : CpioEntry) (es : List CpioEntry) (q : List Text) : payload (e :: es) q =
    (payload es q).or (if entryComps e = some q then some e.entryData else none) := by
  rw [payload, payload, lastWith_cons]
  by_cases h : entryComps e = some q
  · rw [if_pos h, if_pos h]
    cases lastWith entryComps es q <;> rfl
  · rw [if_neg h, if_neg h, Option.or_none, Option.or_none]

theorem entryComps_eq {e : CpioEntry} {cs : List Text} : entryComps e = some cs ↔ toComps e.entryName = .ok cs := by
  rw [entryComps]
  cases toComps e.entryName with
  | error err => simp [Except.toOption]
  | ok ds => simp [Except.toOption]

/-- Every path of an entry holds its last payload; elsewhere only directories above the entries are new. -/
def Wrote (es : List CpioEntry) (old new : View) : Prop :=
  ∀ q, new q = (payload es q).map Obj.file ∧ payload es q ≠ none ∨
    payload es q = none ∧ (new q = old q ∨ Named es q ∧ old q = none ∧ new q = some .dir)

/-- One more entry in front, for which the directories above it are made. -/
theorem Wrote.cons {es : List CpioEntry} {e : CpioEntry} {cs : List Text} {old mid new : View}
    (hname : toComps e.entryName = .ok cs) (hgrow : Grows (· <+: cs.dropLast) old mid)
    (h : Wrote es (Function.update mid cs (some (.file e.entryData))) new) : Wrote (e :: es) old new := by
  intro q
  have hkey : entryComps e = some cs := entryComps_eq.mpr hname
  rw [payload_cons, hkey]
  obtain ⟨hfile, hsome⟩ | ⟨hnone, hrest⟩ := h q
  · obtain ⟨data, hdata⟩ := Option.ne_none_iff_exists'.mp hsome
    exact .inl ⟨by rw [hfile, hdata]; rfl, by rw [hdata]; simp⟩
  rw [hnone, Option.none_or]
  by_cases hq : cs = q
  · subst hq
    left
    rw [Function.update_self] at hrest
    obtain hsame | ⟨-, habsent, -⟩ := hrest
    · rw [hsame]
      simp
    · cases habsent
  · right
    have hother : ¬ some cs = some q := fun heq => hq (Option.some.inj heq)
    rw [Function.update_of_ne (Ne.symm hq)] at hrest
    refine ⟨if_neg hother, ?_⟩
    obtain hmid | ⟨habove, habsent, hdir⟩ := hgrow q
    · rw [hmid] at hrest
      exact hrest.imp_right fun ⟨hnamed, h⟩ => ⟨hnamed.cons e, h⟩
    · obtain hsame | ⟨-, hgone, -⟩ := hrest
      · exact .inr ⟨⟨e, List.mem_cons_self, cs, hname, habove.trans (List.dropLast_prefix cs)⟩, habsent, hsame.trans hdir⟩
      · exact absurd (hdir.symm.trans hgone) (by simp)

/-- What was there still is, in one form or another. -/
theorem Wrote.stands {es : List CpioEntry} {old new : View} (h : Wrote es old new) {q : List Text} (hq : old q ≠ none) :
    new q ≠ none := by
  obtain ⟨hput, hsome⟩ | ⟨-, hsame | ⟨-, habsent, -⟩⟩ := h q
  · rw [hput, ne_eq, Option.map_eq_none_iff]
    exact hsome
  · rwa [hsame]
  · exact absurd habsent hq

/-- What is new or changed is the path of an entry, or above one. -/
theorem Wrote.named {es : List CpioEntry} {old new : View} (h : Wrote es old new) {q : List Text} (hq : new q ≠ old q) :
    Named es q := by
  obtain ⟨-, hsome⟩ | ⟨-, hsame | ⟨hnamed, -, -⟩⟩ := h q
  · obtain ⟨data, hdata⟩ := Option.ne_none_iff_exists'.mp hsome
    obtain ⟨e, hlast, -⟩ := Option.map_eq_some_iff.mp hdata
    obtain ⟨hmem, hkey⟩ := lastWith_mem hlast
    exact ⟨e, hmem, q, entryComps_eq.mp hkey, List.prefix_refl _⟩
  · exact absurd hsame hq
  · exact hnamed

theorem vfsWrite_ok (hr : Rooted r ns) {cs : List Text} (hnames : ∀ c ∈ cs, NormalName c) {content : Octets}
    {s s' : SoundRam} (h : vfsWrite r ns (joinRel cs) content s = (.ok (), s')) :
    s'.fs.files = Function.update s.fs.files cs (some (.file content)) := by
  have hdoes := vfsWrite_does hr (joinRel cs) content s
  rw [splitPath_joinRel hnames, h] at hdoes
  change s.Does _ (s.fs.write cs content) at hdoes
  obtain ⟨hanswer, hfs⟩ := hdoes
  cases hwrite : s.fs.write cs content with
  | error e =>
    rw [hwrite] at hanswer
    cases hanswer
  | ok fs =>
    obtain ⟨-, -, rfl⟩ := Fs.write_eq_ok.mp hwrite
    rw [hwrite] at hfs
    exact congrArg Fs.files hfs

theorem writeFiles_ok (hr : Rooted r ns) {es : List CpioEntry} {m n : ℕ} {s s' : SoundRam}
    (h : writeFiles r ns es m s = (.ok n, s')) : n = m + es.length ∧ Wrote es s.fs.files s'.fs.files ∧
      ∀ e ∈ es, ∃ cs, toComps e.entryName = .ok cs := by
  induction es generalizing m s with
  | nil =>
    obtain ⟨hn, rfl⟩ := Prod.mk.inj h
    exact ⟨(Except.ok.inj hn).symm, fun q => .inr ⟨rfl, .inl rfl⟩, by simp⟩
  | cons e rest ih =>
    rw [writeFiles] at h
    cases hname : toComps e.entryName with
    | error err =>
      rw [hname] at h
      cases (Prod.mk.inj h).1
    | ok cs =>
      obtain ⟨t, u, ht, hu, hrest⟩ : ∃ t u, ensureHierarchy r ns cs.dropLast s = (.ok (), t) ∧
          vfsWrite r ns (joinRel cs) e.entryData t = (.ok (), u) ∧ writeFiles r ns rest (m + 1) u = (.ok n, s') := by
        rw [hname] at h
        cases cs with
        | nil => cases (Prod.mk.inj h).1
        | cons c cs =>
          simp only at h
          split at h
          · cases (Prod.mk.inj h).1
          · next t ht =>
            split at h
            · cases (Prod.mk.inj h).1
            · next u hu => exact ⟨t, u, ht, hu, h⟩
      have hnames := toComps_ok hname
      obtain ⟨hgrow, -⟩ := ensureHierarchy_ok hr (fun c hc => hnames c (List.mem_of_mem_dropLast hc)) ht
      obtain ⟨hn, hwrote, hall⟩ := ih hrest
      rw [vfsWrite_ok hr hnames hu] at hwrote
      refine ⟨?_, hwrote.cons hname hgrow, List.forall_mem_cons.mpr ⟨⟨cs, hname⟩, hall⟩⟩
      rw [hn, List.length_cons]
      omega

def isRegular (e : CpioEntry) : Bool := isFileMode e.entryMode

def isUnpacked (e : CpioEntry) : Bool := isDirMode e.entryMode || isFileMode e.entryMode

/-- What an unpacked archive leaves: at the path of a regular file the payload of the last regular file with that path,
directories above all files and directories, and all the rest as it was. -/
structure Unpacked (es : List CpioEntry) (old new : View) : Prop where
  last : ∀ e ∈ es, isRegular e = true → ∃ cs data, toComps e.entryName = .ok cs ∧
    payload (es.filter isRegular) cs = some data ∧ new cs = some (.file data)
  above : ∀ e ∈ es, isUnpacked e = true → ∃ cs, toComps e.entryName = .ok cs ∧ new cs ≠ none ∧
    ∀ p, p <+: cs → p ≠ cs → new p = some .dir
  confined : ∀ q, new q ≠ old q → Named (es.filter isUnpacked) q

theorem payload_ne_none {es : List CpioEntry} {e : CpioEntry} {cs : List Text} (he : e ∈ es)
    (hname : toComps e.entryName = .ok cs) : payload es cs ≠ none := by
  rw [payload, ne_eq, Option.map_eq_none_iff, lastWith_eq_none]
  exact fun h => h e he (entryComps_eq.mpr hname)

theorem Named.filter {es : List CpioEntry} {f g : CpioEntry → Bool} {q : List Text} (h : Named (es.filter f) q)
    (hfg : ∀ e, f e = true → g e = true) : Named (es.filter g) q := by
  obtain ⟨e, he, hcs⟩ := h
  obtain ⟨hmem, hf⟩ := List.mem_filter.mp he
  exact ⟨e, List.mem_filter.mpr ⟨hmem, hfg e hf⟩, hcs⟩

/-- An archive that unpacks leaves its regular files, the last of every path, with the directories above, and
nothing else is created or changed. -/
theorem unpackEntries_faithful (hr : Rooted r ns) {es : List CpioEntry} {n : ℕ} {s s' : SoundRam}
    (h : unpackEntries r ns es s = (.ok n, s')) :
    n = (es.filter isRegular).length ∧ Unpacked es s.fs.files s'.fs.files := by
  obtain ⟨t, hdirs, hfiles⟩ : ∃ t, makeDirs r ns (es.filter fun e => isDirMode e.entryMode) s = (.ok (), t) ∧
      writeFiles r ns (es.filter isRegular) 0 t = (.ok n, s') := by
    rw [unpackEntries] at h
    split at h
    · cases (Prod.mk.inj h).1
    · next t ht => exact ⟨t, ht, h⟩
  obtain ⟨hgrow, hthere⟩ := makeDirs_ok hr hdirs
  obtain ⟨hn, hwrote, hnames⟩ := writeFiles_ok hr hfiles
  have hfile : ∀ e ∈ es, isRegular e = true → ∃ cs data, toComps e.entryName = .ok cs ∧
      payload (es.filter isRegular) cs = some data ∧ s'.fs.files cs = some (.file data) := by
    intro e he hreg
    have hmem : e ∈ es.filter isRegular := List.mem_filter.mpr ⟨he, hreg⟩
    obtain ⟨cs, hcs⟩ := hnames e hmem
    have hsome := payload_ne_none hmem hcs
    obtain ⟨data, hdata⟩ := Option.ne_none_iff_exists'.mp hsome
    obtain ⟨hput, -⟩ | ⟨hnone, -⟩ := hwrote cs
    · exact ⟨cs, data, hcs, hdata, by rw [hput, hdata]; rfl⟩
    · exact absurd hnone hsome
  refine ⟨by omega, hfile, ?_, ?_⟩
  · intro e he hun
    obtain ⟨cs, hcs, hcsome⟩ : ∃ cs, toComps e.entryName = .ok cs ∧ s'.fs.files cs ≠ none := by
      obtain hdir | hreg := (Bool.or_eq_true _ _).mp hun
      · obtain ⟨cs, hcs, hsome⟩ := hthere e (List.mem_filter.mpr ⟨he, hdir⟩)
        exact ⟨cs, hcs, hwrote.stands hsome⟩
      · obtain ⟨cs, data, hcs, -, hput⟩ := hfile e he hreg
        exact ⟨cs, hcs, by rw [hput]; simp⟩
    exact ⟨cs, hcs, hcsome, fun p hp hne => above_dir s' hp hne hcsome⟩
  · intro q hq
    by_cases hput : s'.fs.files q = t.fs.files q
    · obtain hold | ⟨hnamed, -, -⟩ := hgrow q
      · exact absurd (hput.trans hold) hq
      · exact hnamed.filter fun e he => (Bool.or_eq_true _ _).mpr (.inl he)
    · exact (hwrote.named hput).filter fun e he => (Bool.or_eq_true _ _).mpr (.inr he)

lemma fewPages_nodup : ([1, 2, 3] : List ℕ).Nodup := by decide

def fewPages : SoundRam := .boot [1, 2, 3] (fun _ => []) fewPages_nodup

def fileEntry (name : Text) (data : Octets) : CpioEntry := ⟨name, 0o100644, data⟩

/-- Two payloads for one file, and a directory. -/
def shadowing : List CpioEntry :=
  [fileEntry (text "./etc/motd") [1], ⟨text "var", 0o040755, []⟩, fileEntry (text "etc/x/../motd") [2]]

theorem unpackEntries_shadowing : 2 = (shadowing.filter isRegular).length ∧
    Unpacked shadowing fewPages.fs.files (unpackEntries bootRegistry 0 shadowing fewPages).2.fs.files := by
  have hok : (unpackEntries bootRegistry 0 shadowing fewPages).1 = .ok 2 := by rfl
  exact unpackEntries_faithful bootRegistry_rooted (Prod.ext hok rfl)

/-- A symbolic link behind a file with its name. It is skipped. -/
def linked : List CpioEntry := [fileEntry (text "a") [1], ⟨text "a", 0o120777, [98]⟩]

/-- The last entry with the path of a file need not be the one that is kept. -/
theorem skipped_entry_last : ¬ ∀ (es : List CpioEntry) (n : ℕ) (s s' : SoundRam),
    unpackEntries bootRegistry 0 es s = (.ok n, s') → ∀ e ∈ es, isRegular e = true →
      ∃ cs data, toComps e.entryName = .ok cs ∧ payload es cs = some data ∧ s'.fs.files cs = some (.file data) := by
  intro h
  have hok : (unpackEntries bootRegistry 0 linked fewPages).1 = .ok 1 := by rfl
  obtain ⟨cs, data, hcs, hlast, hput⟩ :=
    h linked 1 fewPages _ (Prod.ext hok rfl) (fileEntry (text "a") [1]) List.mem_cons_self rfl
  obtain rfl : [text "a"] = cs := Except.ok.inj (hcs.symm.trans (by decide)).symm
  obtain rfl : [98] = data := Option.some.inj (hlast.symm.trans (by decide)).symm
  exact absurd hput (by decide)

end HouseKernel.Initramfs
