import HouseKernel.FileSystem.RamCalls

/-! Every call of the RAM file system does to the table of its paths what the call on the table
does, and keeps names and pages in order. -/
namespace HouseKernel.FileSystem.RamFs

open HouseKernel.Lib

/-- A free list and a tree that share the same pages out in another way are still apart. -/
theorem nodup_of_pool {free free' : List ℕ} {n n' : Node} (h : (free ++ collectPages n).Nodup)
    (hpool : (↑free' + ↑(collectPages n') : Multiset ℕ) = ↑free + ↑(collectPages n)) :
    (free' ++ collectPages n').Nodup := by
  rw [← Multiset.coe_nodup, ← Multiset.coe_add, hpool, Multiset.coe_add, Multiset.coe_nodup]
  exact h

theorem updateAt_dir {cs : List Text} {g : List (Text × Node) → List (Text × Node)} {n n' : Node}
    (h : updateAt cs (inDir g) n = .ok n') : ∃ kids, n' = .dir kids := by
  cases cs with
  | nil =>
    cases n with
    | file ps size mtime => cases h
    | dir kids => exact ⟨_, (Except.ok.inj h).symm⟩
  | cons c cs =>
    obtain ⟨kids, child, child', -, -, -, rfl⟩ := updateAt_cons h
    exact ⟨_, rfl⟩

theorem Refines.error {s : Ram} (hs : s.Sound) (e : FsError) : Refines s (.error e, s) (.error e) := ⟨rfl, rfl, hs⟩

/-- Only a directory with something in it is no leaf. -/
theorem not_leaf {node : Node} (h : ¬ Leaf node) : ∃ k ks, node = .dir (k :: ks) := by
  cases node with
  | file ps size mtime => exact absurd (leaf_file _ _ _) h
  | dir ks =>
    cases ks with
    | nil => exact absurd leaf_empty h
    | cons k ks => exact ⟨k, ks, rfl⟩

theorem leaf_cons (k : Text × Node) (ks : List (Text × Node)) : ¬ Leaf (.dir (k :: ks)) := by
  intro hleaf
  have hnone := hleaf k.1 []
  simp [resolve, lookupKid] at hnone

namespace Ram.Sound

variable {s : Ram}

theorem files_nil (hs : s.Sound) : s.abs.files [] = some .dir := by
  obtain ⟨kids, hroot⟩ := hs.dir
  simp only [abs, look, hroot]
  rfl

theorem abs_files (cs : List Text) : s.abs.files cs = (resolve cs s.store.root).map (objOf s.mem) := rfl

/-- What the table says of a path is what the directory above it holds under its last name. -/
theorem files_in {cs : List Text} (hcs : cs ≠ []) {kids : List (Text × Node)}
    (hdir : resolve (parentComps cs) s.store.root = some (.dir kids)) :
    s.abs.files cs = (lookupKid (lastName cs) kids).map (objOf s.mem) := by
  rw [abs_files, resolve_last hcs hdir]

theorem length_file (hs : s.Sound) {cs : List Text} {ps : List ℕ} {size mtime : ℕ}
    (h : resolve cs s.store.root = some (.file ps size mtime)) :
    ps.length = blocks size ∧ (readBytesFromPages s.mem ps size).length = size := by
  have hmem : (ps, size) ∈ files s.store.root := resolve_files h (List.mem_singleton.mpr rfl)
  have hsized : ps.length = blocks size := hs.sized _ hmem
  exact ⟨hsized, length_readBytesFromPages hsized fun p hp => hs.full p (mem_collectPages.mpr ⟨_, hmem, hp⟩)⟩

theorem pagesAt_file (hs : s.Sound) {cs : List Text} {ps : List ℕ} {size mtime : ℕ}
    (h : resolve cs s.store.root = some (.file ps size mtime)) : s.abs.pagesAt cs = ps.length := by
  obtain ⟨hlen, hcontent⟩ := hs.length_file h
  simp only [Fs.pagesAt, abs, look, h, Option.map_some, objOf, hcontent, hlen]

/-- A file that is replaced has as many pages as the table says. -/
theorem replacedPages_eq (hs : s.Sound) {cs : List Text} (hcs : cs ≠ []) :
    replacedPages cs s.store.root = s.abs.pagesAt cs := by
  rw [replacedPages, if_neg hcs]
  cases hdir : resolve (parentComps cs) s.store.root with
  | none =>
    have hnone : resolve cs s.store.root = none := by
      rw [← parent_last hcs, resolve_append, hdir]
      rfl
    simp only [Fs.pagesAt, abs, look, hnone, Option.map_none]
  | some m =>
    cases m with
    | file ps size mtime =>
      have hnone : resolve cs s.store.root = none := by
        rw [← parent_last hcs, resolve_append, hdir]
        rfl
      simp only [Fs.pagesAt, abs, look, hnone, Option.map_none]
    | dir kids =>
      have hlast := resolve_last hcs hdir
      simp only
      cases hkid : lookupKid (lastName cs) kids with
      | none =>
        rw [hkid] at hlast
        simp only [Fs.pagesAt, abs, look, hlast, Option.map_none]
      | some m =>
        rw [hkid] at hlast
        cases m with
        | dir ks => simp only [Fs.pagesAt, abs, look, hlast, Option.map_some, objOf]
        | file ps size mtime => exact (hs.pagesAt_file hlast).symm

/-- A tree in which only files without pages are new is as sound as the old one. -/
theorem root (hs : s.Sound) {root : Node} {more : Multiset (List ℕ × ℕ)} (hproper : root.Proper)
    (hdir : ∃ kids, root = .dir kids) (hbag : fileBag root = fileBag s.store.root + more)
    (hmore : ∀ f ∈ more, f = ([], 0)) : Sound { s with store := { s.store with root := root } } := by
  have hnone : pagesOf more = 0 := by
    refine Multiset.eq_zero_of_forall_notMem fun p hp => ?_
    obtain ⟨f, hf, hpf⟩ := Multiset.mem_bind.mp hp
    rw [hmore f hf] at hpf
    exact List.not_mem_nil hpf
  have hpages : (↑(collectPages root) : Multiset ℕ) = ↑(collectPages s.store.root) := by
    rw [coe_collectPages, coe_collectPages, hbag, pagesOf_add, hnone, add_zero]
  have hperm : (collectPages root).Perm (collectPages s.store.root) := Multiset.coe_eq_coe.mp hpages
  exact {
    proper := hproper
    dir := hdir
    apart := nodup_of_pool hs.apart (by rw [hpages])
    sized := by
      intro f hf
      have hmem : f ∈ fileBag s.store.root + more := hbag ▸ hf
      obtain hmem | hmem := Multiset.mem_add.mp hmem
      · exact hs.sized f hmem
      · rw [hmore f hmem]
        rfl
    full := fun p hp => hs.full p (hperm.mem_iff.mp hp)
    used := by rw [hperm.length_eq]; exact hs.used }

theorem addNode (hs : s.Sound) {cs : List Text} (hcs : cs ≠ []) (hnames : ∀ c ∈ cs, NormalName c) {node : Node}
    (hleaf : Leaf node) (hproper : node.Proper) (hfiles : files node ⊆ [([], 0)]) :
    Refines s (s.setRoot (addNode cs node s.store.root)) (s.abs.add cs (objOf s.mem node)) := by
  have hlook := abs_files (s := s) (parentComps cs)
  rw [RamFs.addNode, Fs.add, Fs.checkParent]
  cases hdir : resolve (parentComps cs) s.store.root with
  | none =>
    rw [hlook, hdir]
    exact .error hs _
  | some m =>
    cases m with
    | file ps size mtime =>
      rw [hlook, hdir]
      exact .error hs _
    | dir kids =>
      have hself := files_in hcs hdir
      simp only [hlook, hdir, hself, Option.map_some]
      cases hkid : lookupKid (lastName cs) kids with
      | some m => exact .error hs _
      | none =>
        obtain ⟨root, hroot⟩ := updateAt_total hdir (insertKid (lastName cs) node)
        have hnew := look_insert s.mem hdir hleaf (fun m hm => by rw [hkid] at hm; cases hm) hroot
        rw [parent_last hcs] at hnew
        have hlast : NormalName (lastName cs) := hnames _ (lastName_mem hcs)
        simp only [hroot]
        refine ⟨rfl, ?_, ?_⟩
        · change Fs.mk (look s.mem root) _ _ _ = Fs.mk _ _ _ _
          rw [hnew]
          rfl
        · exact hs.root (hs.proper.updateAt (fun ks hks => hks.insert hlast hproper) hroot) (updateAt_dir hroot)
            (updateAt_insert hdir hkid hroot) fun f hf => List.mem_singleton.mp (hfiles hf)

theorem opsCreate (hs : s.Sound) (path : Text) :
    Refines s (s.opsCreate path) (splitPath path >>= fun cs => s.abs.create cs) := by
  rw [Ram.opsCreate, ramfsCreate]
  cases hsplit : splitPath path with
  | error e => exact .error hs e
  | ok cs =>
    cases cs with
    | nil => exact .error hs _
    | cons c cs =>
      have hnames := fun d hd => (splitPath_ok hsplit d hd).1
      exact hs.addNode (List.cons_ne_nil _ _) hnames (leaf_file [] 0 0) trivial (List.Subset.refl _)

theorem opsMkdir (hs : s.Sound) (path : Text) :
    Refines s (s.opsMkdir path) (splitPath path >>= fun cs => s.abs.mkdir cs) := by
  rw [Ram.opsMkdir, ramfsMkdir]
  cases hsplit : splitPath path with
  | error e => exact .error hs e
  | ok cs =>
    cases cs with
    | nil => exact .error hs _
    | cons c cs =>
      have hnames := fun d hd => (splitPath_ok hsplit d hd).1
      exact hs.addNode (List.cons_ne_nil _ _) hnames leaf_empty trivial (List.nil_subset _)

/-- Pages that the tree does not own may change, and the free ones may come in another order. -/
theorem scratch (hs : s.Sound) {free : List ℕ} {mem : ℕ → Octets} (hfree : free.Perm s.free)
    (hmem : ∀ p ∈ collectPages s.store.root, mem p = s.mem p) :
    abs { s with free := free, mem := mem } = s.abs ∧ Sound { s with free := free, mem := mem } := by
  constructor
  · simp only [abs, look_congr hmem, hfree.length_eq]
  · exact {
      proper := hs.proper
      dir := hs.dir
      apart := nodup_of_pool hs.apart (by rw [Multiset.coe_eq_coe.mpr hfree])
      sized := hs.sized
      full := fun p hp => (congrArg List.length (hmem p hp)).trans (hs.full p hp)
      used := hs.used }

/-- A commit in a directory, where the new file does not take the place of a directory. -/
theorem commitWrite_eq {s : Store} {cs : List Text} {kids : List (Text × Node)}
    (hdir : resolve (parentComps cs) s.root = some (.dir kids))
    (hold : ∀ ks, lookupKid (lastName cs) kids ≠ some (.dir ks)) {content : Octets} (newPages : List ℕ) (hcs : cs ≠ [])
    (hquota : refusedEarly s cs content = false) : ∃ root oldPages,
      updateAt (parentComps cs) (inDir (insertKid (lastName cs) (.file newPages content.length 0))) s.root = .ok root ∧
      oldPages.length = replacedPages cs s.root ∧
      commitWrite s cs content newPages =
        .ok ({ s with root := root, used := s.used + blocks content.length - oldPages.length }, oldPages) := by
  obtain ⟨root, hroot⟩ := updateAt_total hdir (insertKid (lastName cs) (.file newPages content.length 0))
  rw [refusedEarly, decide_eq_false_iff_not, replacedPages, if_neg hcs, hdir] at hquota
  rw [commitWrite, replacedPages, if_neg hcs, hdir]
  simp only at hquota ⊢
  cases hkid : lookupKid (lastName cs) kids with
  | none =>
    simp only [hkid, Nat.cast_zero, sub_zero] at hquota
    exact ⟨root, [], hroot, rfl, by simp [hroot, hquota]⟩
  | some m =>
    cases m with
    | dir ks => exact absurd hkid (hold ks)
    | file ps size mtime =>
      simp only [hkid] at hquota
      exact ⟨root, ps, hroot, rfl, by simp [hroot, hquota]⟩

/-- The new file is in the table, its pages are in the tree, and those of the old one are free. -/
theorem commit (hs : s.Sound) {cs : List Text} {content : Octets} {kids : List (Text × Node)} (hcs : cs ≠ [])
    (hnames : ∀ c ∈ cs, NormalName c) (hdir : resolve (parentComps cs) s.store.root = some (.dir kids))
    (hold : ∀ ks, lookupKid (lastName cs) kids ≠ some (.dir ks)) {newPages free : List ℕ}
    (hfree : s.free = newPages ++ free) (hlen : newPages.length = blocks content.length)
    (hquota : refusedEarly s.store cs content = false) : ∃ store oldPages,
      commitWrite s.store cs content newPages = .ok (store, oldPages) ∧
      abs ⟨store, freePages oldPages free, writeBytesToPages s.mem newPages content⟩ = s.abs.put cs content ∧
      Sound ⟨store, freePages oldPages free, writeBytesToPages s.mem newPages content⟩ := by
  obtain ⟨root, oldPages, hroot, hreplaced, hcommit⟩ := commitWrite_eq hdir hold newPages hcs hquota
  have hpagesAt : oldPages.length = s.abs.pagesAt cs := hreplaced.trans (hs.replacedPages_eq hcs)
  have hbal : Balanced { s.world with free := free } { s.world with free := free, store := _, ops := [] } newPages oldPages :=
    balanced_commit hcommit hlen
  have happart : (newPages ++ free ++ collectPages s.store.root).Nodup := hfree ▸ hs.apart
  have hkept : (↑(freePages oldPages free) + ↑(collectPages root) : Multiset ℕ) =
      ↑s.free + ↑(collectPages s.store.root) := by
    have h := hbal.kept
    simp only [world, Multiset.coe_nil, add_zero] at h
    rw [freePages_eq, hfree, ← Multiset.coe_add, ← Multiset.coe_add, Multiset.coe_reverse]
    calc (↑oldPages + ↑free + ↑(collectPages root) : Multiset ℕ)
        = ↑free + ↑(collectPages root) + ↑oldPages := by abel
      _ = ↑newPages + ↑free + ↑(collectPages s.store.root) := by rw [h]; abel
  have hnew : newPages.Nodup := (List.nodup_append.mp (List.nodup_append.mp happart).1).1
  have hmem : ∀ p ∈ collectPages s.store.root, writeBytesToPages s.mem newPages content p = s.mem p := by
    intro p hp
    apply writeBytesToPages_of_notMem
    intro hnew
    exact (List.nodup_append.mp happart).2.2 p (List.mem_append_left _ hnew) p hp rfl
  refine ⟨_, oldPages, hcommit, ?_, ?_⟩
  · have hlook := look_insert (writeBytesToPages s.mem newPages content) hdir (leaf_file _ _ _)
      (fun m hm => by
        cases m with
        | dir ks => exact absurd hm (hold ks)
        | file ps size mtime => exact leaf_file _ _ _) hroot
    rw [parent_last hcs, look_congr hmem, objOf, readBytesFromPages_write s.mem hnew hlen] at hlook
    simp only [abs, Fs.put, hlook, hpagesAt, freePages_eq, hfree, List.length_append, List.length_reverse, ← hlen,
      Nat.add_sub_cancel_left, Nat.add_comm]
  · exact {
      proper := hs.proper.updateAt (fun ks hks => hks.insert (n := .file _ _ _) (hnames _ (lastName_mem hcs)) trivial) hroot
      dir := updateAt_dir hroot
      apart := nodup_of_pool hs.apart hkept
      sized := hbal.sized hs.sized
      full := by
        intro p hp
        obtain ⟨old, hcommitted⟩ := commitWrite_ok hcommit
        obtain ⟨f, hf, hpf⟩ := mem_collectPages.mp hp
        have hmemf : f ∈ fileBag s.store.root + {(newPages, content.length)} :=
          hcommitted.tree ▸ Multiset.mem_add.mpr (.inl hf)
        obtain hmemf | hmemf := Multiset.mem_add.mp hmemf
        · have hpold : p ∈ collectPages s.store.root := mem_collectPages.mpr ⟨f, hmemf, hpf⟩
          exact (congrArg List.length (hmem p hpold)).trans (hs.full p hpold)
        · obtain rfl := Multiset.mem_singleton.mp hmemf
          exact writeBytesToPages_full _ _ _ p hpf
      used := hbal.used hs.used }

/-- A write that fails after it has got its pages gives them back. -/
theorem givenBack (hs : s.Sound) (content : Octets) {newPages free : List ℕ} (hfree : s.free = newPages ++ free) :
    abs { s with free := freePages newPages free, mem := writeBytesToPages s.mem newPages content } = s.abs ∧
      Sound { s with free := freePages newPages free, mem := writeBytesToPages s.mem newPages content } := by
  refine hs.scratch ?_ ?_
  · rw [freePages_eq, hfree]
    exact (List.reverse_perm newPages).append_right free
  · intro p hp
    apply writeBytesToPages_of_notMem
    intro hnew
    exact (List.nodup_append.mp hs.apart).2.2 p (hfree ▸ List.mem_append_left _ hnew) p hp rfl

/-- The second section of a write, with the new pages filled. -/
theorem commitWrite (hs : s.Sound) {cs : List Text} {content : Octets} (hcs : cs ≠ []) (hnames : ∀ c ∈ cs, NormalName c)
    {newPages free : List ℕ} (hfree : s.free = newPages ++ free) (hlen : newPages.length = blocks content.length)
    (hquota : refusedEarly s.store cs content = false) :
    Refines s
      (match RamFs.commitWrite s.store cs content newPages with
      | .error e =>
        (.error e, { s with free := freePages newPages free, mem := writeBytesToPages s.mem newPages content })
      | .ok (store, oldPages) =>
        (.ok (), ⟨store, freePages oldPages free, writeBytesToPages s.mem newPages content⟩))
      (do
        s.abs.checkParent cs
        if s.abs.files cs = some .dir then .error .eisdir else .ok (s.abs.put cs content)) := by
  have hlook := abs_files (s := s) (parentComps cs)
  rw [Fs.checkParent, hlook]
  cases hdir : resolve (parentComps cs) s.store.root with
  | none =>
    have hcommit : RamFs.commitWrite s.store cs content newPages = .error .enoent := by rw [RamFs.commitWrite, hdir]
    obtain ⟨habs, hsound⟩ := hs.givenBack content hfree
    rw [hcommit]
    exact ⟨rfl, habs, hsound⟩
  | some m =>
    cases m with
    | file ps size mtime =>
      have hcommit : RamFs.commitWrite s.store cs content newPages = .error .enotdir := by
        rw [RamFs.commitWrite, hdir]
      obtain ⟨habs, hsound⟩ := hs.givenBack content hfree
      rw [hcommit]
      exact ⟨rfl, habs, hsound⟩
    | dir kids =>
      have hself := files_in hcs hdir
      by_cases hold : ∃ ks, lookupKid (lastName cs) kids = some (.dir ks)
      · obtain ⟨ks, hkid⟩ := hold
        have hcommit : RamFs.commitWrite s.store cs content newPages = .error .eisdir := by
          simp only [RamFs.commitWrite, hdir, hkid]
        obtain ⟨habs, hsound⟩ := hs.givenBack content hfree
        rw [hcommit, hself, hkid]
        exact ⟨rfl, habs, hsound⟩
      · have hnot : s.abs.files cs ≠ some .dir := by
          intro heq
          obtain ⟨m, hm, hobj⟩ := Option.map_eq_some_iff.mp (hself.symm.trans heq)
          cases m with
          | dir ks => exact hold ⟨ks, hm⟩
          | file ps size mtime => cases hobj
        obtain ⟨store, oldPages, hcommit, habs, hsound⟩ := hs.commit hcs hnames hdir
          (fun ks hks => hold ⟨ks, hks⟩) hfree hlen hquota
        rw [hcommit, if_neg hnot]
        exact ⟨rfl, habs, hsound⟩

theorem opsWrite (hs : s.Sound) (path : Text) (content : Octets) :
    Refines s (s.opsWrite path content) (splitPath path >>= fun cs => s.abs.write cs content) := by
  rw [Ram.opsWrite]
  cases hsplit : splitPath path with
  | error e => exact .error hs e
  | ok comps =>
    cases comps with
    | nil => exact .error hs _
    | cons c cs =>
      have hcs : c :: cs ≠ [] := List.cons_ne_nil _ _
      have hearly : refusedEarly s.store (c :: cs) content =
          decide (s.abs.quota < s.abs.used + blocks content.length - s.abs.pagesAt (c :: cs)) := by
        rw [refusedEarly, hs.replacedPages_eq hcs]
        rfl
      change Refines s _ (s.abs.write (c :: cs) content)
      rw [Fs.write, if_neg hcs]
      by_cases hquota : s.abs.quota < s.abs.used + blocks content.length - s.abs.pagesAt (c :: cs)
      · have hrefused : refusedEarly s.store (c :: cs) content = true := hearly.trans (decide_eq_true hquota)
        simp only [hrefused, if_pos hquota, if_true]
        exact .error hs _
      · have hgranted : refusedEarly s.store (c :: cs) content = false := hearly.trans (decide_eq_false hquota)
        simp only [hgranted, if_neg hquota, Bool.false_eq_true, if_false, allocatePages_eq, List.reverse_nil,
          List.nil_append]
        by_cases hroom : blocks content.length ≤ s.free.length
        · rw [if_pos hroom, if_neg (Nat.not_lt.mpr hroom : ¬ s.abs.free < _)]
          exact hs.commitWrite hcs (fun d hd => (splitPath_ok hsplit d hd).1) (List.take_append_drop _ _).symm
            (by rw [List.length_take, Nat.min_eq_left hroom]) hgranted
        · rw [if_neg hroom, if_pos (Nat.not_le.mp hroom : s.abs.free < _)]
          exact .error hs _

theorem opsInit (hs : s.Sound) (ram : ℕ) : (s.opsInit ram).abs = s.abs.init ram ∧ (s.opsInit ram).Sound := by
  have hempty : look s.mem (.dir []) = fun cs => if cs = [] then some .dir else none := by
    funext cs
    cases cs <;> rfl
  have hfree : freePages (collectPages s.store.root) s.free = (collectPages s.store.root).reverse ++ s.free :=
    freePages_eq _ _
  constructor
  · simp only [abs, Ram.opsInit, Fs.init, hempty, hfree, List.length_append, List.length_reverse, hs.used,
      Int.toNat_natCast, Nat.add_comm]
  · exact {
      proper := trivial
      dir := ⟨[], rfl⟩
      apart := by
        simp only [Ram.opsInit, hfree, collectPages, collectPagesIn, List.append_nil]
        rw [← Multiset.coe_nodup, ← Multiset.coe_add, Multiset.coe_reverse, add_comm, Multiset.coe_add,
          Multiset.coe_nodup]
        exact hs.apart
      sized := fun f hf => by cases hf
      full := fun p hp => by cases hp
      used := rfl }

/-- What `rm` does when the node has nothing below it. -/
theorem removed (hs : s.Sound) {cs : List Text} {kids : List (Text × Node)} {node root : Node} {store : Store}
    {path : Text} (hcs : cs ≠ []) (hdir : resolve (parentComps cs) s.store.root = some (.dir kids))
    (hkid : lookupKid (lastName cs) kids = some node) (hleaf : Leaf node)
    (hroot : updateAt (parentComps cs) (inDir (deleteKid (lastName cs))) s.store.root = .ok root)
    (hrm : ramfsRm path s.store = .ok (store, node)) (hstore : store.root = root) :
    abs { s with store := store, free := freePages (collectPages node) s.free } =
        { s.abs with
          files := Function.update s.abs.files cs none
          used := max 0 (s.abs.used - s.abs.pagesAt cs)
          free := s.abs.free + s.abs.pagesAt cs } ∧
      Sound { s with store := store, free := freePages (collectPages node) s.free } := by
  subst hstore
  have hremoved := ramfsRm_ok hrm
  have hbal : Balanced s.world { s.world with store := store, ops := [] } [] (collectPages node) := balanced_rm hrm
  have hself : resolve cs s.store.root = some node := (resolve_last hcs hdir).trans hkid
  have hpagesAt : (collectPages node).length = s.abs.pagesAt cs := by
    cases node with
    | file ps size mtime => exact (hs.pagesAt_file hself).symm
    | dir ks =>
      have hempty : ks = [] := by
        cases ks with
        | nil => rfl
        | cons k ks => exact absurd hleaf (leaf_cons k ks)
      subst hempty
      simp only [Fs.pagesAt, abs, look, hself]
      rfl
  have hused : 0 ≤ s.store.used := hs.used ▸ Int.natCast_nonneg _
  have hkept := hbal.kept
  simp only [world, Multiset.coe_nil, add_zero] at hkept
  have hfull : ∀ p ∈ collectPages store.root, p ∈ collectPages s.store.root := by
    intro p hp
    obtain ⟨f, hf, hpf⟩ := mem_collectPages.mp hp
    have hmem : f ∈ fileBag store.root + fileBag node := Multiset.mem_add.mpr (.inl hf)
    rw [hremoved.tree] at hmem
    exact mem_collectPages.mpr ⟨f, hmem, hpf⟩
  constructor
  · have hlook := look_delete s.mem hs.proper hdir hkid hleaf hroot
    rw [parent_last hcs] at hlook
    simp only [abs, hlook, hremoved.used hused, hremoved.quota, hpagesAt, freePages_eq, List.length_append,
      List.length_reverse, Nat.add_comm]
  · exact {
      proper := hs.proper.updateAt (fun ks hks => hks.delete _) hroot
      dir := updateAt_dir hroot
      apart := nodup_of_pool hs.apart (by
        rw [freePages_eq, ← Multiset.coe_add, Multiset.coe_reverse, ← hkept]
        abel)
      sized := hbal.sized hs.sized
      full := fun p hp => hs.full p (hfull p hp)
      used := hbal.used hs.used }

/-- A file or an empty directory is removed. -/
theorem opsRm_leaf (hs : s.Sound) {path : Text} {cs : List Text} {kids : List (Text × Node)} {node : Node} (hcs : cs ≠ [])
    (hsplit : splitPath path = .ok cs) (hdir : resolve (parentComps cs) s.store.root = some (.dir kids))
    (hkid : lookupKid (lastName cs) kids = some node) (hleaf : Leaf node) :
    Refines s (s.opsRm path) (.ok { s.abs with
      files := Function.update s.abs.files cs none
      used := max 0 (s.abs.used - s.abs.pagesAt cs)
      free := s.abs.free + s.abs.pagesAt cs }) := by
  obtain ⟨root, hroot⟩ := updateAt_total hdir (deleteKid (lastName cs))
  obtain ⟨store, hrm, hstore⟩ : ∃ store, ramfsRm path s.store = .ok (store, node) ∧ store.root = root := by
    cases cs with
    | nil => exact absurd rfl hcs
    | cons c cs =>
      rw [ramfsRm, hsplit]
      simp only [hdir, hkid, hroot]
      cases node with
      | file ps size mtime => exact ⟨_, rfl, rfl⟩
      | dir ks =>
        cases ks with
        | nil => exact ⟨_, rfl, rfl⟩
        | cons k ks => exact absurd hleaf (leaf_cons k ks)
  obtain ⟨habs, hsound⟩ := hs.removed hcs hdir hkid hleaf hroot hrm hstore
  rw [Ram.opsRm, hrm]
  exact ⟨rfl, habs, hsound⟩

/-- What the table says of a path below another one. -/
theorem files_below {cs : List Text} (hcs : cs ≠ []) {kids : List (Text × Node)}
    (hdir : resolve (parentComps cs) s.store.root = some (.dir kids)) (d : Text) :
    s.abs.files (cs ++ [d]) = ((lookupKid (lastName cs) kids).bind (resolve [d])).map (objOf s.mem) := by
  rw [abs_files, resolve_append, resolve_last hcs hdir]

theorem opsRm (hs : s.Sound) (path : Text) :
    Refines s (s.opsRm path) (splitPath path >>= fun cs => s.abs.rm cs) := by
  cases hsplit : splitPath path with
  | error e =>
    rw [Ram.opsRm, ramfsRm, hsplit]
    exact .error hs e
  | ok comps =>
    cases comps with
    | nil =>
      rw [Ram.opsRm, ramfsRm, hsplit]
      exact .error hs _
    | cons c cs =>
      have hcs : c :: cs ≠ [] := List.cons_ne_nil _ _
      change Refines s _ (s.abs.rm (c :: cs))
      rw [Fs.rm, if_neg hcs, Fs.checkParent, abs_files]
      cases hdir : resolve (parentComps (c :: cs)) s.store.root with
      | none =>
        simp only [Ram.opsRm, ramfsRm, hsplit, hdir]
        exact .error hs _
      | some m =>
        cases m with
        | file ps size mtime =>
          simp only [Ram.opsRm, ramfsRm, hsplit, hdir]
          exact .error hs _
        | dir kids =>
          have hbelow := files_below hcs hdir
          rw [files_in hcs hdir]
          cases hkid : lookupKid (lastName (c :: cs)) kids with
          | none =>
            simp only [Ram.opsRm, ramfsRm, hsplit, hdir, hkid]
            exact .error hs _
          | some node =>
            rw [hkid] at hbelow
            by_cases hleaf : Leaf node
            · have hnone : ¬ ∃ d, s.abs.files (c :: cs ++ [d]) ≠ none := by
                rintro ⟨d, hd⟩
                apply hd
                rw [hbelow, Option.bind_some, hleaf]
                rfl
              rw [if_neg hnone]
              exact hs.opsRm_leaf hcs hsplit hdir hkid hleaf
            · obtain ⟨k, ks, rfl⟩ := not_leaf hleaf
              have hsome : ∃ d, s.abs.files (c :: cs ++ [d]) ≠ none := by
                refine ⟨k.1, ?_⟩
                rw [hbelow]
                simp [resolve, lookupKid]
              rw [if_pos hsome]
              simp only [Ram.opsRm, ramfsRm, hsplit, hdir, hkid]
              exact .error hs _

end Ram.Sound

theorem Ram.opsRead_eq (s : Ram) (path : Text) : s.opsRead path = splitPath path >>= fun cs => s.abs.read cs := by
  rw [opsRead, ramfsRead]
  cases splitPath path with
  | error e => rfl
  | ok cs =>
    change _ = s.abs.read cs
    simp only [world, Fs.read, abs, look]
    cases resolve cs s.store.root with
    | none => rfl
    | some m => cases m <;> rfl

theorem Fs.checkParent_eq_ok {fs : Fs} {cs : List Text} :
    fs.checkParent cs = .ok () ↔ fs.files (parentComps cs) = some .dir := by
  rw [checkParent]
  cases fs.files (parentComps cs) with
  | none => simp
  | some obj => cases obj <;> simp

/-- What it takes for a write to succeed. -/
theorem Fs.write_eq_ok {fs fs' : Fs} {cs : List Text} {content : Octets} : fs.write cs content = .ok fs' ↔
    (cs ≠ [] ∧ fs.files (parentComps cs) = some .dir ∧ fs.files cs ≠ some .dir) ∧
      (fs.used + blocks content.length - fs.pagesAt cs ≤ fs.quota ∧ blocks content.length ≤ fs.free) ∧
      fs' = fs.put cs content := by
  rw [write, ← checkParent_eq_ok]
  by_cases hcs : cs = []
  · simp [hcs]
  by_cases hquota : fs.quota < fs.used + blocks content.length - fs.pagesAt cs
  · simp [hcs, hquota, not_le.mpr hquota]
  by_cases hfree : fs.free < blocks content.length
  · simp [hcs, hquota, hfree, not_le.mpr hfree]
  rw [if_neg hcs, if_neg hquota, if_neg hfree]
  cases fs.checkParent cs with
  | error e => simp [bind, Except.bind]
  | ok u =>
    by_cases hdir : fs.files cs = some .dir
    · simp [hdir, bind, Except.bind]
    · simp only [bind, Except.bind, if_neg hdir, Except.ok.injEq]
      exact ⟨fun h => ⟨⟨hcs, trivial, hdir⟩, ⟨not_lt.mp hquota, not_lt.mp hfree⟩, h.symm⟩, fun h => h.2.2.symm⟩

/-- A state in which names and pages are in order. The calls keep it so. -/
structure SoundRam where
  ram : Ram
  sound : ram.Sound

namespace SoundRam

/-- The state before the first call: an empty tree over a pool of pages. -/
def boot (free : List ℕ) (mem : ℕ → Octets) (h : free.Nodup) : SoundRam where
  ram := { store := { root := .dir [], used := 0, quota := floorQuotaPages }, free := free, mem := mem }
  sound := {
    proper := trivial
    dir := ⟨[], rfl⟩
    apart := (List.append_nil free).symm ▸ h
    sized := fun f hf => by cases hf
    full := fun p hp => by cases hp
    used := rfl }

def fs (s : SoundRam) : Fs := s.ram.abs

def opsInit (ram : ℕ) (s : SoundRam) : SoundRam := ⟨s.ram.opsInit ram, (s.sound.opsInit ram).2⟩

def opsCreate (path : Text) (s : SoundRam) : Except FsError Unit × SoundRam :=
  ((s.ram.opsCreate path).1, ⟨(s.ram.opsCreate path).2, (s.sound.opsCreate path).sound⟩)

def opsMkdir (path : Text) (s : SoundRam) : Except FsError Unit × SoundRam :=
  ((s.ram.opsMkdir path).1, ⟨(s.ram.opsMkdir path).2, (s.sound.opsMkdir path).sound⟩)

def opsWrite (path : Text) (content : Octets) (s : SoundRam) : Except FsError Unit × SoundRam :=
  ((s.ram.opsWrite path content).1, ⟨(s.ram.opsWrite path content).2, (s.sound.opsWrite path content).sound⟩)

def opsRm (path : Text) (s : SoundRam) : Except FsError Unit × SoundRam :=
  ((s.ram.opsRm path).1, ⟨(s.ram.opsRm path).2, (s.sound.opsRm path).sound⟩)

/-- The answer of a call and the table after it, from those of the call on the table. -/
structure Does (s : SoundRam) (r : Except FsError Unit × SoundRam) (a : Except FsError Fs) : Prop where
  answer : r.1 = a.map fun _ => ()
  fs : r.2.fs = a.toOption.getD s.fs

theorem opsCreate_does (s : SoundRam) (path : Text) :
    s.Does (s.opsCreate path) (splitPath path >>= fun cs => s.fs.create cs) :=
  ⟨(s.sound.opsCreate path).answer, (s.sound.opsCreate path).files⟩

theorem opsMkdir_does (s : SoundRam) (path : Text) :
    s.Does (s.opsMkdir path) (splitPath path >>= fun cs => s.fs.mkdir cs) :=
  ⟨(s.sound.opsMkdir path).answer, (s.sound.opsMkdir path).files⟩

theorem opsWrite_does (s : SoundRam) (path : Text) (content : Octets) :
    s.Does (s.opsWrite path content) (splitPath path >>= fun cs => s.fs.write cs content) :=
  ⟨(s.sound.opsWrite path content).answer, (s.sound.opsWrite path content).files⟩

theorem opsRm_does (s : SoundRam) (path : Text) :
    s.Does (s.opsRm path) (splitPath path >>= fun cs => s.fs.rm cs) :=
  ⟨(s.sound.opsRm path).answer, (s.sound.opsRm path).files⟩

@[simp] theorem fs_opsInit (s : SoundRam) (ram : ℕ) : (s.opsInit ram).fs = s.fs.init ram := (s.sound.opsInit ram).1

end SoundRam

end HouseKernel.FileSystem.RamFs
