import HouseKernel.FileSystem.RamInterleaving

/-! What the paths of a tree show. A change of one directory entry is a change of what one path
shows, and the pages that a tree does not own are no matter to it. -/
namespace HouseKernel.FileSystem.RamFs

open HouseKernel.Lib

/-- What stands at a path. -/
inductive Obj where
  | file (content : Octets)
  | dir
  deriving DecidableEq, Repr

def objOf (mem : ℕ → Octets) : Node → Obj
  | .file ps size _ => .file (readBytesFromPages mem ps size)
  | .dir _ => .dir

def look (mem : ℕ → Octets) (n : Node) (cs : List Text) : Option Obj := (resolve cs n).map (objOf mem)

/-- Nothing stands below the node. -/
def Leaf (n : Node) : Prop := ∀ c cs, resolve (c :: cs) n = none

theorem leaf_file (ps : List ℕ) (size mtime : ℕ) : Leaf (.file ps size mtime) := fun _ _ => rfl

theorem leaf_empty : Leaf (.dir []) := fun _ _ => rfl

theorem resolve_append (cs ds : List Text) (n : Node) : resolve (cs ++ ds) n = (resolve cs n).bind (resolve ds) := by
  induction cs generalizing n with
  | nil => rfl
  | cons c cs ih =>
    cases n with
    | file ps size mtime => rfl
    | dir kids =>
      rw [List.cons_append, resolve, resolve]
      cases lookupKid c kids with
      | none => rfl
      | some child => exact ih child

theorem lookupKid_insertKid (c d : Text) (n : Node) (kids : List (Text × Node)) :
    lookupKid d (insertKid c n kids) = if d = c then some n else lookupKid d kids := by
  induction kids with
  | nil => simp [insertKid, lookupKid, eq_comm]
  | cons kid kids ih =>
    rw [insertKid]
    by_cases hc : kid.1 = c
    · subst hc
      simp only [if_true, lookupKid, eq_comm (a := d)]
      split_ifs <;> rfl
    · rw [if_neg hc, lookupKid, lookupKid, ih]
      by_cases hd : d = c
      · subst hd
        rw [if_neg hc, if_pos rfl, if_pos rfl]
      · rw [if_neg hd, if_neg hd]

mutual

/-- A directory has every name once, and its names stand for themselves in paths. -/
def Node.Proper : Node → Prop
  | .file _ _ _ => True
  | .dir kids => KidsProper kids

def KidsProper : List (Text × Node) → Prop
  | [] => True
  | (c, n) :: kids => NormalName c ∧ lookupKid c kids = none ∧ n.Proper ∧ KidsProper kids

end

theorem lookupKid_deleteKid {kids : List (Text × Node)} (h : KidsProper kids) (c d : Text) :
    lookupKid d (deleteKid c kids) = if d = c then none else lookupKid d kids := by
  induction kids with
  | nil => simp [deleteKid, lookupKid]
  | cons kid kids ih =>
    obtain ⟨-, hnone, -, hkids⟩ := h
    rw [deleteKid]
    split_ifs with hc hd
    · rw [hd, ← hc, hnone]
    · rw [lookupKid, if_neg fun he => hd (he.symm.trans hc)]
    · rw [lookupKid, if_neg fun he => hc (he.trans ‹d = c›), ih hkids, if_pos ‹d = c›]
    · rw [lookupKid, ih hkids, if_neg ‹¬ d = c›, lookupKid]

theorem KidsProper.insert {kids : List (Text × Node)} (h : KidsProper kids) {c : Text} {n : Node} (hc : NormalName c)
    (hn : n.Proper) : KidsProper (insertKid c n kids) := by
  induction kids with
  | nil => exact ⟨hc, rfl, hn, trivial⟩
  | cons kid kids ih =>
    obtain ⟨hname, hnone, hkid, hkids⟩ := h
    rw [insertKid]
    split_ifs with heq
    · subst heq
      exact ⟨hc, hnone, hn, hkids⟩
    · refine ⟨hname, ?_, hkid, ih hkids⟩
      rw [lookupKid_insertKid, if_neg heq, hnone]

theorem KidsProper.delete {kids : List (Text × Node)} (h : KidsProper kids) (c : Text) :
    KidsProper (deleteKid c kids) := by
  induction kids with
  | nil => trivial
  | cons kid kids ih =>
    obtain ⟨hname, hnone, hkid, hkids⟩ := h
    rw [deleteKid]
    split_ifs with heq
    · exact hkids
    · refine ⟨hname, ?_, hkid, ih hkids⟩
      rw [lookupKid_deleteKid hkids, hnone, ite_self]

theorem KidsProper.lookup {kids : List (Text × Node)} (h : KidsProper kids) {c : Text} {n : Node}
    (hc : lookupKid c kids = some n) : NormalName c ∧ n.Proper := by
  induction kids with
  | nil => cases hc
  | cons kid kids ih =>
    obtain ⟨hname, -, hkid, hkids⟩ := h
    rw [lookupKid] at hc
    split_ifs at hc with heq
    · obtain rfl : kid.2 = n := Option.some.inj hc
      exact ⟨heq ▸ hname, hkid⟩
    · exact ih hkids hc

theorem Node.Proper.resolve {n m : Node} (h : n.Proper) {cs : List Text} (hm : RamFs.resolve cs n = some m) :
    m.Proper := by
  induction cs generalizing n with
  | nil => exact Option.some.inj hm ▸ h
  | cons c cs ih =>
    cases n with
    | file ps size mtime => cases hm
    | dir kids =>
      rw [RamFs.resolve] at hm
      cases hkid : lookupKid c kids with
      | none => rw [hkid] at hm; cases hm
      | some child =>
        rw [hkid] at hm
        exact ih (KidsProper.lookup h hkid).2 hm

/-- What an update at a path goes through. -/
theorem updateAt_cons {c : Text} {cs : List Text} {f : Node → Except FsError Node} {n n' : Node}
    (h : updateAt (c :: cs) f n = .ok n') : ∃ kids child child', n = .dir kids ∧ lookupKid c kids = some child ∧
      updateAt cs f child = .ok child' ∧ n' = .dir (insertKid c child' kids) := by
  cases n with
  | file ps size mtime => cases h
  | dir kids =>
    rw [updateAt] at h
    cases hkid : lookupKid c kids with
    | none => simp only [hkid] at h; cases h
    | some child =>
      simp only [hkid] at h
      cases hchild : updateAt cs f child with
      | error e => simp only [hchild] at h; cases h
      | ok child' =>
        simp only [hchild] at h
        exact ⟨kids, child, child', rfl, hkid, hchild, (Except.ok.inj h).symm⟩

theorem updateAt_total {cs : List Text} {n : Node} {kids : List (Text × Node)}
    (h : resolve cs n = some (.dir kids)) (g : List (Text × Node) → List (Text × Node)) :
    ∃ n', updateAt cs (inDir g) n = .ok n' := by
  induction cs generalizing n with
  | nil =>
    obtain rfl : n = .dir kids := Option.some.inj h
    exact ⟨_, rfl⟩
  | cons c cs ih =>
    cases n with
    | file ps size mtime => cases h
    | dir ks =>
      rw [resolve] at h
      cases hkid : lookupKid c ks with
      | none => rw [hkid] at h; cases h
      | some child =>
        rw [hkid] at h
        obtain ⟨child', hchild⟩ := ih h
        refine ⟨.dir (insertKid c child' ks), ?_⟩
        simp only [updateAt, hkid, hchild]

theorem Node.Proper.updateAt {cs : List Text} {g : List (Text × Node) → List (Text × Node)} {n n' : Node}
    (hn : n.Proper) (hg : ∀ kids, KidsProper kids → KidsProper (g kids))
    (h : RamFs.updateAt cs (inDir g) n = .ok n') : n'.Proper := by
  induction cs generalizing n n' with
  | nil =>
    cases n with
    | file ps size mtime => cases h
    | dir kids =>
      obtain rfl := Except.ok.inj h
      exact hg kids hn
  | cons c cs ih =>
    obtain ⟨kids, child, child', rfl, hkid, hchild, rfl⟩ := updateAt_cons h
    obtain ⟨hname, hproper⟩ := KidsProper.lookup hn hkid
    exact KidsProper.insert hn hname (ih hproper hchild)

/-- At the directory and below, a path shows what it shows from the changed entries. -/
theorem resolve_updateAt {cs : List Text} {g : List (Text × Node) → List (Text × Node)} {kids : List (Text × Node)}
    {n n' : Node} (hdir : resolve cs n = some (.dir kids)) (h : updateAt cs (inDir g) n = .ok n') (qs : List Text) :
    resolve (cs ++ qs) n' = resolve qs (.dir (g kids)) := by
  induction cs generalizing n n' with
  | nil =>
    obtain rfl : n = .dir kids := Option.some.inj hdir
    obtain rfl := Except.ok.inj h
    rfl
  | cons c cs ih =>
    obtain ⟨ks, child, child', rfl, hkid, hchild, rfl⟩ := updateAt_cons h
    rw [List.cons_append, resolve, lookupKid_insertKid, if_pos rfl]
    simp only [resolve, hkid] at hdir
    exact ih hdir hchild

/-- Elsewhere a path shows what it showed. -/
theorem look_updateAt (mem : ℕ → Octets) {cs : List Text} {g : List (Text × Node) → List (Text × Node)} {n n' : Node}
    (h : updateAt cs (inDir g) n = .ok n') {qs : List Text} (hqs : ¬ cs <+: qs) : look mem n' qs = look mem n qs := by
  induction cs generalizing n n' qs with
  | nil => exact absurd List.nil_prefix hqs
  | cons c cs ih =>
    obtain ⟨ks, child, child', rfl, hkid, hchild, rfl⟩ := updateAt_cons h
    cases qs with
    | nil => rfl
    | cons q qs =>
      simp only [look, resolve, lookupKid_insertKid]
      split_ifs with hq
      · subst hq
        rw [hkid]
        exact ih hchild fun hpre => hqs (List.cons_prefix_cons.mpr ⟨rfl, hpre⟩)
      · rfl

/-- An entry that is added or replaced changes what its own path shows, when nothing stands below
the old and the new node. -/
theorem look_insert (mem : ℕ → Octets) {cs : List Text} {c : Text} {kids : List (Text × Node)} {node n n' : Node}
    (hdir : resolve cs n = some (.dir kids)) (hleaf : Leaf node) (hold : ∀ m, lookupKid c kids = some m → Leaf m)
    (h : updateAt cs (inDir (insertKid c node)) n = .ok n') :
    look mem n' = Function.update (look mem n) (cs ++ [c]) (some (objOf mem node)) := by
  funext qs
  by_cases hpre : cs <+: qs
  · obtain ⟨rs, rfl⟩ := hpre
    rw [look, resolve_updateAt hdir h]
    have hn : look mem n (cs ++ rs) = look mem (.dir kids) rs := by
      rw [look, resolve_append, hdir]
      rfl
    cases rs with
    | nil =>
      rw [Function.update_of_ne (by simp), hn]
      rfl
    | cons r rs =>
      rw [resolve, lookupKid_insertKid]
      split_ifs with hr
      · subst hr
        cases rs with
        | nil => rw [Function.update_self]; rfl
        | cons q qs =>
          rw [Function.update_of_ne (by simp), hn, look, resolve]
          simp only [hleaf q qs]
          cases hkid : lookupKid r kids with
          | none => rfl
          | some m => simp only [hold m hkid q qs]
      · rw [Function.update_of_ne (by simpa using fun heq => absurd heq hr), hn]
        rfl
  · rw [look_updateAt mem h hpre, Function.update_of_ne]
    rintro rfl
    exact hpre (List.prefix_append _ _)

/-- An entry that is deleted leaves nothing at its path. -/
theorem look_delete (mem : ℕ → Octets) {cs : List Text} {c : Text} {kids : List (Text × Node)} {old n n' : Node}
    (hn : n.Proper) (hdir : resolve cs n = some (.dir kids)) (hold : lookupKid c kids = some old) (hleaf : Leaf old)
    (h : updateAt cs (inDir (deleteKid c)) n = .ok n') :
    look mem n' = Function.update (look mem n) (cs ++ [c]) none := by
  funext qs
  by_cases hpre : cs <+: qs
  · obtain ⟨rs, rfl⟩ := hpre
    rw [look, resolve_updateAt hdir h]
    have hlook : look mem n (cs ++ rs) = look mem (.dir kids) rs := by
      rw [look, resolve_append, hdir]
      rfl
    cases rs with
    | nil =>
      rw [Function.update_of_ne (by simp), hlook]
      rfl
    | cons r rs =>
      rw [resolve, lookupKid_deleteKid (hn.resolve hdir)]
      split_ifs with hr
      · subst hr
        cases rs with
        | nil => rw [Function.update_self]; rfl
        | cons q qs =>
          rw [Function.update_of_ne (by simp), hlook, look, resolve, hold]
          simp only [hleaf q qs]
      · rw [Function.update_of_ne (by simpa using fun heq => absurd heq hr), hlook]
        rfl
  · rw [look_updateAt mem h hpre, Function.update_of_ne]
    rintro rfl
    exact hpre (List.prefix_append _ _)

theorem lookupKid_files {c : Text} {n : Node} {kids : List (Text × Node)} (h : lookupKid c kids = some n) :
    files n ⊆ filesIn kids := by
  induction kids with
  | nil => cases h
  | cons kid kids ih =>
    rw [lookupKid] at h
    rw [filesIn]
    split_ifs at h
    · obtain rfl : kid.2 = n := Option.some.inj h
      exact List.subset_append_left _ _
    · exact List.subset_append_of_subset_right _ (ih h)

theorem resolve_files {cs : List Text} {n m : Node} (h : resolve cs n = some m) : files m ⊆ files n := by
  induction cs generalizing n with
  | nil => exact Option.some.inj h ▸ List.Subset.refl _
  | cons c cs ih =>
    cases n with
    | file ps size mtime => cases h
    | dir kids =>
      rw [resolve] at h
      cases hkid : lookupKid c kids with
      | none => rw [hkid] at h; cases h
      | some child =>
        rw [hkid] at h
        exact List.Subset.trans (ih h) (lookupKid_files hkid)

theorem mem_collectPages {n : Node} {p : ℕ} : p ∈ collectPages n ↔ ∃ f ∈ files n, p ∈ f.1 := by
  rw [← Multiset.mem_coe, coe_collectPages, pagesOf, Multiset.mem_bind]
  rfl

theorem readBytesFromPages_congr {mem mem' : ℕ → Octets} {ps : List ℕ} (h : ∀ p ∈ ps, mem' p = mem p) (n : ℕ) :
    readBytesFromPages mem' ps n = readBytesFromPages mem ps n := by
  induction ps generalizing n with
  | nil => rfl
  | cons p ps ih =>
    cases n with
    | zero => rfl
    | succ n =>
      obtain ⟨hp, hps⟩ := List.forall_mem_cons.mp h
      rw [readBytesFromPages, readBytesFromPages, hp, ih hps]

theorem look_congr {mem mem' : ℕ → Octets} {n : Node} (h : ∀ p ∈ collectPages n, mem' p = mem p) :
    look mem' n = look mem n := by
  funext cs
  simp only [look]
  cases hm : resolve cs n with
  | none => rfl
  | some m =>
    cases m with
    | dir kids => rfl
    | file ps size mtime =>
      have hmem : (ps, size) ∈ files n := resolve_files hm (List.mem_singleton.mpr rfl)
      simp only [Option.map_some, objOf,
        readBytesFromPages_congr fun p hp => h p (mem_collectPages.mpr ⟨(ps, size), hmem, hp⟩)]

theorem length_readBytesFromPages {mem : ℕ → Octets} {ps : List ℕ} {n : ℕ} (hlen : ps.length = blocks n)
    (hfull : ∀ p ∈ ps, (mem p).length = 4096) : (readBytesFromPages mem ps n).length = n := by
  induction ps generalizing n with
  | nil =>
    simp only [blocks, List.length_nil] at hlen
    rw [readBytesFromPages, List.length_nil]
    omega
  | cons p ps ih =>
    obtain ⟨hp, hps⟩ := List.forall_mem_cons.mp hfull
    cases n with
    | zero => rfl
    | succ n =>
      rw [List.length_cons] at hlen
      simp only [blocks] at hlen ih
      rw [readBytesFromPages, List.length_append, List.length_take, hp, ih (by omega) hps]
      omega

end HouseKernel.FileSystem.RamFs
