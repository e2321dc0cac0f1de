import Mathlib.Algebra.Order.Floor.Div
import HouseKernel.FileSystem.RamFs
import HouseKernel.Lib.Run

/-! The RAM file system under any interleaving of its calls. A call that changes the tree does so
in one section under the lock; a write gets and fills its pages before, one by one, and a call gives
pages back after, one by one. Pages are never lost: what is not free, in the tree or with another
user of the pool is in the hands of a call under way. -/
namespace HouseKernel.FileSystem.RamFs

open HouseKernel.Lib

/-- A call under way: a write that gets its pages, a write that fills them, and a call that has its
result and gives pages back. A call with nothing left to give back has returned. -/
inductive RamOp where
  | allocating (cs : List Text) (content : Octets) (left : ℕ) (acc : List ℕ)
  | filling (cs : List Text) (content : Octets) (newPages todo : List ℕ) (rest : Octets)
  | freeing (pages : List ℕ) (result : Except FsError Unit)

/-- The pages in the hands of a call. -/
def RamOp.held : RamOp → List ℕ
  | .allocating _ _ _ acc => acc
  | .filling _ _ newPages _ _ => newPages
  | .freeing pages _ => pages

/-- The pages that a write in progress has reserved. -/
def RamOp.reserved : RamOp → List ℕ
  | .allocating _ _ _ acc => acc
  | .filling _ _ newPages _ _ => newPages
  | .freeing _ _ => []

/-- The store, the free pages of the pool, the pages of its other users, what the pages hold, and
the calls in the order in which they began. -/
structure World where
  store : Store
  free : List ℕ
  others : List ℕ
  mem : ℕ → Octets
  ops : List RamOp

/-- `bs` at the start of a page of zeroes. -/
def pageOf (bs : Octets) : Octets := bs ++ List.replicate (4096 - bs.length) 0

def readBytesFromPages (mem : ℕ → Octets) : List ℕ → ℕ → Octets
  | [], _ => []
  | _ :: _, 0 => []
  | p :: ps, n + 1 => (mem p).take (min (n + 1) 4096) ++ readBytesFromPages mem ps (n + 1 - min (n + 1) 4096)

/-- A read changes nothing, and holds the lock all the time. -/
def ramfsRead (w : World) (path : Text) : Except FsError Octets :=
  match splitPath path with
  | .error e => .error e
  | .ok cs =>
    match resolve cs w.store.root with
    | none => .error .enoent
    | some (.dir _) => .error .eisdir
    | some (.file ps size _) => .ok (readBytesFromPages w.mem ps size)

/-- How a write begins: it is refused, or goes on to get its pages. -/
def startWrite (s : Store) (path : Text) (content : Octets) : RamOp :=
  match splitPath path with
  | .error e => .freeing [] (.error e)
  | .ok [] => .freeing [] (.error .eisdir)
  | .ok (c :: cs) =>
    if refusedEarly s (c :: cs) content then .freeing [] (.error .enospc)
    else .allocating (c :: cs) content (blocks content.length) []

/-- A call goes on by one step. `page` is the page that an allocation gets. -/
def opStep (w : World) : RamOp → Option ℕ → Option (World × RamOp)
  | .allocating cs content 0 acc, none => some (w, .filling cs content acc.reverse acc.reverse content)
  | .allocating _ _ 0 _, some _ => none
  | .allocating cs content (left + 1) acc, some p =>
    if p ∈ w.free then some ({ w with free := w.free.erase p }, .allocating cs content left (p :: acc)) else none
  | .allocating _ _ (_ + 1) acc, none =>
    if w.free = [] then some (w, .freeing acc (.error .enospc)) else none
  | .filling cs content newPages (p :: todo) rest, none =>
    some ({ w with mem := Function.update w.mem p (pageOf (rest.take 4096)) },
      .filling cs content newPages todo (rest.drop 4096))
  | .filling cs content newPages [] _, none =>
    match commitWrite w.store cs content newPages with
    | .error e => some (w, .freeing newPages (.error e))
    | .ok (store, oldPages) => some ({ w with store := store }, .freeing oldPages (.ok ()))
  | .filling _ _ _ _ _, some _ => none
  | .freeing (p :: ps) result, none => some ({ w with free := p :: w.free }, .freeing ps result)
  | .freeing (_ :: _) _, some _ => none
  | .freeing [] _, _ => none

/-- What may happen next: a thread begins a call, a call goes on, or another user of the pool takes
a page or gives one back. -/
inductive RamAction where
  | init (ram : ℕ)
  | create (path : Text)
  | mkdir (path : Text)
  | write (path : Text) (content : Octets)
  | rm (path : Text)
  | setQuota (q : ℤ)
  | step (call : ℕ) (page : Option ℕ)
  | take (p : ℕ)
  | give (p : ℕ)

/-- A call that is done with the tree in the section in which it begins. -/
def World.began (w : World) (root : Except FsError Node) : World :=
  match root with
  | .error e => { w with ops := w.ops ++ [.freeing [] (.error e)] }
  | .ok root => { w with store := { w.store with root := root }, ops := w.ops ++ [.freeing [] (.ok ())] }

def ramStep (w : World) : RamAction → Option World
  | .init ram =>
    some { w with
      store := { root := .dir [], used := 0, quota := quotaPagesFor ram }
      ops := w.ops ++ [.freeing (collectPages w.store.root) (.ok ())] }
  | .create path => some (w.began (ramfsCreate path w.store.root))
  | .mkdir path => some (w.began (ramfsMkdir path w.store.root))
  | .write path content => some { w with ops := w.ops ++ [startWrite w.store path content] }
  | .rm path =>
    match ramfsRm path w.store with
    | .error e => some { w with ops := w.ops ++ [.freeing [] (.error e)] }
    | .ok (store, node) => some { w with store := store, ops := w.ops ++ [.freeing (collectPages node) (.ok ())] }
  | .setQuota q => some { w with store := { w.store with quota := max 0 q } }
  | .step call page =>
    (w.ops[call]?).bind fun op => (opStep w op page).map fun next => { next.1 with ops := w.ops.set call next.2 }
  | .take p => if p ∈ w.free then some { w with free := w.free.erase p, others := p :: w.others } else none
  | .give p => if p ∈ w.others then some { w with free := p :: w.free, others := w.others.erase p } else none

/-- The state before the first call: an empty tree. -/
def World.boot (free others : List ℕ) (mem : ℕ → Octets) : World :=
  { store := { root := .dir [], used := 0, quota := floorQuotaPages }, free := free, others := others, mem := mem,
    ops := [] }

/-- The pages in the hands of all calls. -/
def heldAll (ops : List RamOp) : Multiset ℕ := (ops.map fun op => (↑op.held : Multiset ℕ)).sum

@[simp] theorem heldAll_append (ops : List RamOp) (op : RamOp) : heldAll (ops ++ [op]) = heldAll ops + ↑op.held := by
  simp [heldAll]

theorem heldAll_set {ops : List RamOp} {i : ℕ} {op : RamOp} (h : ops[i]? = some op) (op' : RamOp) :
    heldAll (ops.set i op') + ↑op.held = heldAll ops + ↑op'.held := by
  induction ops generalizing i with
  | nil => cases h
  | cons o ops ih =>
    cases i with
    | zero =>
      obtain rfl : o = op := by simpa using h
      simp only [heldAll, List.set_cons_zero, List.map_cons, List.sum_cons]
      abel
    | succ i =>
      have hrest := ih (i := i) (by simpa using h)
      simp only [heldAll, List.set_cons_succ, List.map_cons, List.sum_cons] at hrest ⊢
      rw [add_assoc, hrest, add_assoc]

/-- A file has as many pages as its size needs. -/
def Sized (f : List ℕ × ℕ) : Prop := f.1.length = blocks f.2

/-- A write has, or is going to have, as many pages as its content needs. -/
def RamOp.Planned : RamOp → Prop
  | .allocating _ content left acc => left + acc.length = blocks content.length
  | .filling _ content newPages _ _ => newPages.length = blocks content.length
  | .freeing _ _ => True

/-- The account of the tree and of the pages of the pool. -/
structure Accounts (pool : Multiset ℕ) (w : World) : Prop where
  used : w.store.used = (collectPages w.store.root).length
  sized : ∀ f ∈ fileBag w.store.root, Sized f
  kept : ↑w.free + ↑(collectPages w.store.root) + heldAll w.ops + ↑w.others = pool
  planned : ∀ op ∈ w.ops, op.Planned

/-- What a step does to the account, when a call held the pages `before` and now holds `after`. -/
structure Balanced (w w' : World) (before after : List ℕ) : Prop where
  used : w.store.used = (collectPages w.store.root).length → w'.store.used = (collectPages w'.store.root).length
  sized : (∀ f ∈ fileBag w.store.root, Sized f) → ∀ f ∈ fileBag w'.store.root, Sized f
  kept : (↑w'.free + ↑(collectPages w'.store.root) + ↑after + ↑w'.others : Multiset ℕ) =
    ↑w.free + ↑(collectPages w.store.root) + ↑before + ↑w.others

theorem Accounts.of_balanced {pool : Multiset ℕ} {w w' : World} (hw : Accounts pool w) (before after : List ℕ)
    (h : Balanced w w' before after) (hops : heldAll w'.ops + ↑before = heldAll w.ops + ↑after)
    (hplan : ∀ op ∈ w'.ops, op.Planned) : Accounts pool w' where
  used := h.used hw.used
  sized := h.sized hw.sized
  kept := by
    apply add_right_cancel (b := (↑before : Multiset ℕ))
    calc (↑w'.free + ↑(collectPages w'.store.root) + heldAll w'.ops + ↑w'.others : Multiset ℕ) + ↑before
        = ↑w'.free + ↑(collectPages w'.store.root) + ↑w'.others + (heldAll w'.ops + ↑before) := by abel
      _ = ↑w'.free + ↑(collectPages w'.store.root) + ↑after + ↑w'.others + heldAll w.ops := by rw [hops]; abel
      _ = ↑w.free + ↑(collectPages w.store.root) + heldAll w.ops + ↑w.others + ↑before := by rw [h.kept]; abel
      _ = pool + ↑before := by rw [hw.kept]
  planned := hplan

/-- A step that keeps the tree and its account. -/
theorem Balanced.quiet {w w' : World} {before after : List ℕ} (hroot : w'.store.root = w.store.root)
    (hused : w'.store.used = w.store.used)
    (hkept : (↑w'.free + ↑after + ↑w'.others : Multiset ℕ) = ↑w.free + ↑before + ↑w.others) :
    Balanced w w' before after where
  used := fun h => by rw [hused, hroot, h]
  sized := by rw [hroot]; exact id
  kept := by
    rw [hroot]
    calc (↑w'.free + ↑(collectPages w.store.root) + ↑after + ↑w'.others : Multiset ℕ)
        = ↑w'.free + ↑after + ↑w'.others + ↑(collectPages w.store.root) := by abel
      _ = ↑w.free + ↑(collectPages w.store.root) + ↑before + ↑w.others := by rw [hkept]; abel

/-- A call that begins. -/
theorem Accounts.began {pool : Multiset ℕ} {w w' : World} (hw : Accounts pool w) (op : RamOp)
    (h : Balanced w w' [] op.held) (hops : w'.ops = w.ops ++ [op]) (hplan : op.Planned) : Accounts pool w' := by
  apply hw.of_balanced [] op.held h
  · rw [hops, heldAll_append, Multiset.coe_nil, add_zero]
  · intro o ho
    rw [hops] at ho
    obtain ho | ho := List.mem_append.mp ho
    · exact hw.planned o ho
    · obtain rfl := List.mem_singleton.mp ho
      exact hplan

/-- A call that goes on. -/
theorem Accounts.went {pool : Multiset ℕ} {w w' : World} {i : ℕ} {op op' : RamOp} (hw : Accounts pool w)
    (hop : w.ops[i]? = some op) (h : Balanced w { w' with ops := w.ops.set i op' } op.held op'.held)
    (hplan : op'.Planned) : Accounts pool { w' with ops := w.ops.set i op' } := by
  apply hw.of_balanced op.held op'.held h (heldAll_set hop op')
  intro o ho
  obtain ho | rfl := List.mem_or_eq_of_mem_set ho
  · exact hw.planned o ho
  · exact hplan

/-- A new tree with the files `more` besides, none of which owns a page. -/
theorem balanced_root {w : World} {root : Node} {ops : List RamOp} {more : Multiset (List ℕ × ℕ)}
    (htree : fileBag root = fileBag w.store.root + more) (hnone : pagesOf more = 0) (hsized : ∀ f ∈ more, Sized f) :
    Balanced w { w with store := { w.store with root := root }, ops := ops } [] [] := by
  have hpages : (↑(collectPages root) : Multiset ℕ) = ↑(collectPages w.store.root) := by
    rw [coe_collectPages, coe_collectPages, htree, pagesOf_add, hnone, add_zero]
  refine ⟨fun h => ?_, fun h f hf => ?_, ?_⟩
  · rw [(Multiset.coe_eq_coe.mp hpages).length_eq]
    exact h
  · rw [htree] at hf
    obtain hf | hf := Multiset.mem_add.mp hf
    · exact h f hf
    · exact hsized f hf
  · rw [hpages]

theorem Accounts.tree {pool : Multiset ℕ} {w : World} {res : Except FsError Node} {more : Multiset (List ℕ × ℕ)}
    (hw : Accounts pool w) (htree : ∀ root, res = .ok root → fileBag root = fileBag w.store.root + more)
    (hnone : pagesOf more = 0) (hsized : ∀ f ∈ more, Sized f) : Accounts pool (w.began res) := by
  cases res with
  | error e =>
    exact hw.began (.freeing [] (.error e)) (Balanced.quiet rfl rfl rfl) rfl trivial
  | ok root =>
    exact hw.began (.freeing [] (.ok ())) (balanced_root (htree root rfl) hnone hsized) rfl trivial

theorem balanced_commit {w : World} {store : Store} {cs : List Text} {content : Octets} {newPages oldPages : List ℕ}
    {ops : List RamOp} (h : commitWrite w.store cs content newPages = .ok (store, oldPages))
    (hplan : newPages.length = blocks content.length) :
    Balanced w { w with store := store, ops := ops } newPages oldPages := by
  obtain ⟨old, hc⟩ := commitWrite_ok h
  have hpages : (↑(collectPages store.root) + ↑oldPages : Multiset ℕ) = ↑(collectPages w.store.root) + ↑newPages := by
    rw [coe_collectPages, coe_collectPages, ← hc.pages, ← pagesOf_add, hc.tree, pagesOf_add, pagesOf_singleton]
  have hlen : (collectPages store.root).length + oldPages.length =
      (collectPages w.store.root).length + newPages.length := by
    simpa using congrArg Multiset.card hpages
  refine ⟨fun hused => ?_, fun hsized f hf => ?_, ?_⟩
  · change store.used = (collectPages store.root).length
    rw [hc.used, hused, ← hplan]
    omega
  · have hmem : f ∈ fileBag w.store.root + {(newPages, content.length)} := by
      rw [← hc.tree]
      exact Multiset.mem_add.mpr (.inl hf)
    obtain hf | hf := Multiset.mem_add.mp hmem
    · exact hsized f hf
    · obtain rfl := Multiset.mem_singleton.mp hf
      exact hplan
  · change (↑w.free + ↑(collectPages store.root) + ↑oldPages + ↑w.others : Multiset ℕ) = _
    rw [add_assoc (↑w.free : Multiset ℕ), hpages, ← add_assoc]

theorem balanced_rm {w : World} {store : Store} {node : Node} {path : Text} {ops : List RamOp}
    (h : ramfsRm path w.store = .ok (store, node)) :
    Balanced w { w with store := store, ops := ops } [] (collectPages node) := by
  have hr := ramfsRm_ok h
  have hpages : (↑(collectPages store.root) + ↑(collectPages node) : Multiset ℕ) = ↑(collectPages w.store.root) := by
    rw [coe_collectPages, coe_collectPages, coe_collectPages, ← pagesOf_add, hr.tree]
  have hlen : (collectPages store.root).length + (collectPages node).length = (collectPages w.store.root).length := by
    simpa using congrArg Multiset.card hpages
  refine ⟨fun hused => ?_, fun hsized f hf => ?_, ?_⟩
  · change store.used = (collectPages store.root).length
    rw [hr.used (by omega)]
    omega
  · apply hsized f
    rw [← hr.tree]
    exact Multiset.mem_add.mpr (.inl hf)
  · rw [add_assoc (↑w.free : Multiset ℕ), hpages, Multiset.coe_nil, add_zero]

/-- Starting over hands all pages of the tree to the call. -/
theorem balanced_init (w : World) (quota : ℤ) (ops : List RamOp) :
    Balanced w { w with store := ⟨.dir [], 0, quota⟩, ops := ops } [] (collectPages w.store.root) where
  used := fun _ => rfl
  sized := fun _ f hf => by cases hf
  kept := by
    simp only [collectPages, collectPagesIn, Multiset.coe_nil]
    abel

theorem coe_erase {p : ℕ} {l : List ℕ} (h : p ∈ l) : (↑(p :: l.erase p) : Multiset ℕ) = ↑l :=
  Multiset.coe_eq_coe.mpr (List.perm_cons_erase h).symm

/-- The call has its result, and it is `Right`. -/
def RamOp.Succeeds : RamOp → Prop
  | .freeing _ (.ok _) => True
  | _ => False

/-- A step of a call that leaves the tree alone. -/
structure OpQuiet (w w' : World) (op op' : RamOp) : Prop where
  store : w'.store = w.store
  others : w'.others = w.others
  pages : (↑w'.free + ↑op'.held : Multiset ℕ) = ↑w.free + ↑op.held
  planned : op.Planned → op'.Planned
  result : op.Succeeds → op'.Succeeds

/-- The step of a write that changes the tree. -/
structure OpCommit (w w' : World) (op op' : RamOp) (content : Octets) (newPages oldPages : List ℕ) : Prop where
  commit : ∃ cs rest, op = .filling cs content newPages [] rest ∧
    commitWrite w.store cs content newPages = .ok (w'.store, oldPages)
  rest : w' = { w with store := w'.store }
  result : op' = .freeing oldPages (.ok ())

/-- What a step of a call can do. -/
theorem opStep_cases {w w' : World} {op op' : RamOp} {page : Option ℕ} (h : opStep w op page = some (w', op')) :
    OpQuiet w w' op op' ∨ ∃ content newPages oldPages, OpCommit w w' op op' content newPages oldPages := by
  rcases op with ⟨cs, content, _ | left, acc⟩ | ⟨cs, content, newPages, _ | ⟨p, todo⟩, rest⟩ | ⟨_ | ⟨p, ps⟩, result⟩
  · cases page with
    | some p => cases h
    | none =>
      obtain ⟨rfl, rfl⟩ := Prod.mk.inj (Option.some.inj h)
      refine .inl ⟨rfl, rfl, ?_, fun hplan => ?_, id⟩
      · simp only [RamOp.held, Multiset.coe_reverse]
      · simpa [RamOp.Planned] using hplan
  · cases page with
    | some p =>
      simp only [opStep] at h
      split_ifs at h with hp
      obtain ⟨rfl, rfl⟩ := Prod.mk.inj (Option.some.inj h)
      refine .inl ⟨rfl, rfl, ?_, fun hplan => ?_, id⟩
      · simp only [RamOp.held]
        rw [← coe_erase hp]
        simp only [← Multiset.cons_coe, Multiset.add_cons, Multiset.cons_add]
      · simp only [RamOp.Planned, List.length_cons] at hplan ⊢
        omega
    | none =>
      simp only [opStep] at h
      split_ifs at h
      obtain ⟨rfl, rfl⟩ := Prod.mk.inj (Option.some.inj h)
      exact .inl ⟨rfl, rfl, rfl, fun _ => trivial, id⟩
  · cases page with
    | some p => cases h
    | none =>
      simp only [opStep] at h
      split at h
      · obtain ⟨rfl, rfl⟩ := Prod.mk.inj (Option.some.inj h)
        exact .inl ⟨rfl, rfl, rfl, fun _ => trivial, id⟩
      · next store oldPages hcommit =>
        obtain ⟨rfl, rfl⟩ := Prod.mk.inj (Option.some.inj h)
        exact .inr ⟨content, newPages, oldPages, ⟨cs, rest, rfl, hcommit⟩, rfl, rfl⟩
  · cases page with
    | some p => cases h
    | none =>
      obtain ⟨rfl, rfl⟩ := Prod.mk.inj (Option.some.inj h)
      exact .inl ⟨rfl, rfl, rfl, id, id⟩
  · cases h
  · cases page with
    | some p => cases h
    | none =>
      obtain ⟨rfl, rfl⟩ := Prod.mk.inj (Option.some.inj h)
      refine .inl ⟨rfl, rfl, ?_, fun _ => trivial, ?_⟩
      · simp only [RamOp.held, ← Multiset.cons_coe, Multiset.add_cons, Multiset.cons_add]
      · cases result <;> exact id

/-- A step of a call balances the pages, and keeps the plan of the call. -/
theorem opStep_balanced {w w' : World} {op op' : RamOp} {page : Option ℕ} {ops : List RamOp}
    (h : opStep w op page = some (w', op')) (hplan : op.Planned) :
    Balanced w { w' with ops := ops } op.held op'.held ∧ op'.Planned := by
  obtain hq | ⟨content, newPages, oldPages, hc⟩ := opStep_cases h
  · refine ⟨Balanced.quiet (by rw [hq.store]) (by rw [hq.store]) ?_, hq.planned hplan⟩
    rw [hq.pages, hq.others]
  · obtain ⟨cs, rest, rfl, hcommit⟩ := hc.commit
    rw [hc.rest, hc.result]
    exact ⟨balanced_commit hcommit hplan, trivial⟩

/-- A step of a call leaves the store alone, or commits within the quota and gives the call its result. -/
theorem opStep_store {w w' : World} {op op' : RamOp} {page : Option ℕ} (h : opStep w op page = some (w', op')) :
    w'.store = w.store ∨ w'.store.used ≤ w'.store.quota ∧ op'.Succeeds := by
  obtain hq | ⟨content, newPages, oldPages, hc⟩ := opStep_cases h
  · exact .inl hq.store
  · obtain ⟨cs, rest, -, hcommit⟩ := hc.commit
    obtain ⟨old, hcom⟩ := commitWrite_ok hcommit
    rw [hc.result]
    exact .inr ⟨hcom.within, trivial⟩

/-- A call that has succeeded does not fail any more. -/
theorem opStep_succeeds {w w' : World} {op op' : RamOp} {page : Option ℕ} (h : opStep w op page = some (w', op'))
    (hop : op.Succeeds) : op'.Succeeds := by
  obtain hq | ⟨content, newPages, oldPages, hc⟩ := opStep_cases h
  · exact hq.result hop
  · rw [hc.result]
    trivial

theorem startWrite_planned (s : Store) (path : Text) (content : Octets) :
    (startWrite s path content).Planned ∧ (startWrite s path content).held = [] := by
  rw [startWrite]
  split
  · exact ⟨trivial, rfl⟩
  · exact ⟨trivial, rfl⟩
  · split_ifs
    · exact ⟨trivial, rfl⟩
    · exact ⟨rfl, rfl⟩

/-- Every step keeps the account. -/
theorem ramStep_accounts {pool : Multiset ℕ} {w w' : World} {a : RamAction} (hw : Accounts pool w)
    (h : ramStep w a = some w') : Accounts pool w' := by
  cases a with
  | init ram =>
    obtain rfl := Option.some.inj h
    exact hw.began (.freeing (collectPages w.store.root) (.ok ())) (balanced_init w _ _) rfl trivial
  | create path =>
    obtain rfl := Option.some.inj h
    exact hw.tree (fun root => ramfsCreate_ok) rfl fun f hf => by rw [Multiset.mem_singleton.mp hf]; rfl
  | mkdir path =>
    obtain rfl := Option.some.inj h
    exact hw.tree (fun root hroot => by rw [ramfsMkdir_ok hroot, add_zero]) rfl fun f hf => by cases hf
  | write path content =>
    obtain rfl := Option.some.inj h
    obtain ⟨hplan, hheld⟩ := startWrite_planned w.store path content
    apply hw.began (startWrite w.store path content) _ rfl hplan
    rw [hheld]
    exact Balanced.quiet rfl rfl rfl
  | rm path =>
    rw [ramStep] at h
    split at h
    · next e _ =>
      obtain rfl := Option.some.inj h
      exact hw.began (.freeing [] (.error e)) (Balanced.quiet rfl rfl rfl) rfl trivial
    · next store node hrm =>
      obtain rfl := Option.some.inj h
      exact hw.began (.freeing (collectPages node) (.ok ())) (balanced_rm hrm) rfl trivial
  | setQuota q =>
    obtain rfl := Option.some.inj h
    exact hw.of_balanced [] [] (Balanced.quiet rfl rfl rfl) rfl hw.planned
  | step call page =>
    obtain ⟨op, hop, h⟩ := Option.bind_eq_some_iff.mp h
    obtain ⟨⟨w₁, op'⟩, hstep, rfl⟩ := Option.map_eq_some_iff.mp h
    obtain ⟨hbal, hplan⟩ := opStep_balanced hstep (hw.planned op (List.mem_of_getElem? hop))
    exact hw.went hop hbal hplan
  | take p =>
    rw [ramStep] at h
    split_ifs at h with hp
    obtain rfl := Option.some.inj h
    refine hw.of_balanced [] [] (Balanced.quiet rfl rfl ?_) rfl hw.planned
    rw [← coe_erase hp]
    simp only [← Multiset.cons_coe, Multiset.add_cons, Multiset.cons_add]
  | give p =>
    rw [ramStep] at h
    split_ifs at h with hp
    obtain rfl := Option.some.inj h
    refine hw.of_balanced [] [] (Balanced.quiet rfl rfl ?_) rfl hw.planned
    rw [← coe_erase hp]
    simp only [← Multiset.cons_coe, Multiset.add_cons, Multiset.cons_add]

theorem boot_accounts (free others : List ℕ) (mem : ℕ → Octets) :
    Accounts ↑(free ++ others) (World.boot free others mem) where
  used := rfl
  sized := fun f hf => by cases hf
  kept := by simp [World.boot, collectPages, collectPagesIn, heldAll]
  planned := fun op hop => by cases hop

/-- No file shares a page with another one or with the free pages, when no page is twice in the pool. -/
theorem Accounts.apart {pool : Multiset ℕ} {w : World} (hw : Accounts pool w) (hpool : pool.Nodup) :
    ((files w.store.root).map Prod.fst).Pairwise List.Disjoint ∧ List.Disjoint w.free (collectPages w.store.root) := by
  rw [← hw.kept, Multiset.nodup_add, Multiset.nodup_add, Multiset.nodup_add] at hpool
  obtain ⟨⟨⟨-, htree, hapart⟩, -, -⟩, -, -⟩ := hpool
  refine ⟨?_, Multiset.coe_disjoint _ _ |>.mp hapart⟩
  rw [coe_collectPages, pagesOf, fileBag, Multiset.coe_bind, Multiset.coe_nodup, List.nodup_flatMap] at htree
  exact List.pairwise_map.mpr htree.2

/-- A step by which the account of the tree grows ends within the quota. -/
def GrowsWithin (w : World) (a : RamAction) : Prop :=
  ∀ w', ramStep w a = some w' → w.store.used < w'.store.used → w'.store.used ≤ w'.store.quota

theorem growsWithin {pool : Multiset ℕ} {w : World} {a : RamAction} (hw : Accounts pool w) : GrowsWithin w a := by
  intro w' h hgrow
  have hpos : 0 ≤ w.store.used := by
    rw [hw.used]
    exact Int.natCast_nonneg _
  have hsame : ∀ res, w.began res = w' → w'.store.used = w.store.used := by
    rintro (e | root) rfl <;> rfl
  cases a with
  | init ram =>
    obtain rfl := Option.some.inj h
    exact absurd hgrow (not_lt.mpr hpos)
  | create path => exact absurd hgrow (hsame _ (Option.some.inj h)).not_gt
  | mkdir path => exact absurd hgrow (hsame _ (Option.some.inj h)).not_gt
  | write path content =>
    obtain rfl := Option.some.inj h
    exact absurd hgrow (lt_irrefl _)
  | rm path =>
    rw [ramStep] at h
    split at h
    · obtain rfl := Option.some.inj h
      exact absurd hgrow (lt_irrefl _)
    · next store node hrm =>
      obtain rfl := Option.some.inj h
      have hused := (ramfsRm_ok hrm).used hpos
      simp only at hgrow
      omega
  | setQuota q =>
    obtain rfl := Option.some.inj h
    exact absurd hgrow (lt_irrefl _)
  | step call page =>
    obtain ⟨op, hop, h⟩ := Option.bind_eq_some_iff.mp h
    obtain ⟨⟨w₁, op'⟩, hstep, rfl⟩ := Option.map_eq_some_iff.mp h
    obtain hstore | ⟨hwithin, -⟩ := opStep_store hstep
    · simp only [hstore] at hgrow
      exact absurd hgrow (lt_irrefl _)
    · exact hwithin
  | take p =>
    rw [ramStep] at h
    split_ifs at h
    obtain rfl := Option.some.inj h
    exact absurd hgrow (lt_irrefl _)
  | give p =>
    rw [ramStep] at h
    split_ifs at h
    obtain rfl := Option.some.inj h
    exact absurd hgrow (lt_irrefl _)

/-- The action is one of the call with this number: the call begins, or goes on. -/
def RamAction.Of (call : ℕ) (w : World) : RamAction → Prop
  | .init _ | .create _ | .mkdir _ | .write _ _ | .rm _ => w.ops.length = call
  | .step i _ => i = call
  | .setQuota _ | .take _ | .give _ => False

/-- Where the action is one of the call, it leaves the tree and its account as they are. -/
def KeepsStore (call : ℕ) (w : World) (a : RamAction) : Prop :=
  a.Of call w → ∀ w', ramStep w a = some w' → w'.store = w.store

/-- The call has not succeeded. It may not have begun. -/
def World.Unsucceeded (w : World) (call : ℕ) : Prop := ∀ op, w.ops[call]? = some op → ¬ op.Succeeds

/-- A call that begins, with the number after those of the calls before it. -/
theorem unsucceeded_began {w w' : World} {op : RamOp} {call : ℕ} (hops : w'.ops = w.ops ++ [op])
    (hstore : w'.store = w.store ∨ op.Succeeds) (hcall : w'.Unsucceeded call) :
    (w.ops.length = call → w'.store = w.store) ∧ w.Unsucceeded call := by
  constructor
  · rintro rfl
    refine hstore.resolve_right (hcall op ?_)
    rw [hops, List.getElem?_concat_length]
  · intro o ho
    apply hcall o
    rw [hops, List.getElem?_append_left (List.getElem?_eq_some_iff.mp ho).1]
    exact ho

/-- Where calls are neither begun nor advanced, they are as they were. -/
theorem unsucceeded_same {w w' : World} {call : ℕ} (hops : w'.ops = w.ops) (hcall : w'.Unsucceeded call) :
    w.Unsucceeded call := by
  intro op hop
  exact hcall op (by rw [hops]; exact hop)

theorem unsucceeded_tree {w : World} {res : Except FsError Node} {call : ℕ} (hcall : (w.began res).Unsucceeded call) :
    (w.ops.length = call → (w.began res).store = w.store) ∧ w.Unsucceeded call := by
  cases res with
  | error e => exact unsucceeded_began rfl (.inl rfl) hcall
  | ok root => exact unsucceeded_began rfl (.inr trivial) hcall

/-- When a call has not succeeded after a step, a step of its own has left the store alone, and it had
not succeeded before. -/
theorem ramStep_unsucceeded {w w' : World} {a : RamAction} {call : ℕ} (h : ramStep w a = some w')
    (hcall : w'.Unsucceeded call) : (a.Of call w → w'.store = w.store) ∧ w.Unsucceeded call := by
  cases a with
  | init ram =>
    obtain rfl := Option.some.inj h
    exact unsucceeded_began rfl (.inr trivial) hcall
  | create path =>
    obtain rfl := Option.some.inj h
    exact unsucceeded_tree hcall
  | mkdir path =>
    obtain rfl := Option.some.inj h
    exact unsucceeded_tree hcall
  | write path content =>
    obtain rfl := Option.some.inj h
    exact unsucceeded_began rfl (.inl rfl) hcall
  | rm path =>
    rw [ramStep] at h
    split at h
    · obtain rfl := Option.some.inj h
      exact unsucceeded_began rfl (.inl rfl) hcall
    · obtain rfl := Option.some.inj h
      exact unsucceeded_began rfl (.inr trivial) hcall
  | setQuota q =>
    obtain rfl := Option.some.inj h
    exact ⟨False.elim, unsucceeded_same rfl hcall⟩
  | step i page =>
    obtain ⟨op, hop, h⟩ := Option.bind_eq_some_iff.mp h
    obtain ⟨⟨w₁, op'⟩, hstep, rfl⟩ := Option.map_eq_some_iff.mp h
    have hi : i < w.ops.length := (List.getElem?_eq_some_iff.mp hop).1
    by_cases heq : i = call
    · subst heq
      have hfail : ¬ op'.Succeeds := hcall op' (List.getElem?_set_self hi)
      refine ⟨fun _ => (opStep_store hstep).resolve_right fun h => hfail h.2, fun o ho => ?_⟩
      obtain rfl : op = o := Option.some.inj (hop.symm.trans ho)
      exact fun hsucc => hfail (opStep_succeeds hstep hsucc)
    · refine ⟨fun h => absurd h heq, fun o ho => hcall o ?_⟩
      simp only
      rw [List.getElem?_set_ne heq]
      exact ho
  | take p =>
    rw [ramStep] at h
    split_ifs at h
    obtain rfl := Option.some.inj h
    exact ⟨False.elim, unsucceeded_same rfl hcall⟩
  | give p =>
    rw [ramStep] at h
    split_ifs at h
    obtain rfl := Option.some.inj h
    exact ⟨False.elim, unsucceeded_same rfl hcall⟩

/-- A call that has not succeeded at the end of a run has left the store alone in all of its steps. -/
theorem run_unsucceeded {w w' : World} {as : List RamAction} {call : ℕ} (h : run ramStep w as = some w')
    (hcall : w'.Unsucceeded call) : Along ramStep (KeepsStore call) w as ∧ w.Unsucceeded call := by
  induction as generalizing w with
  | nil =>
    obtain rfl : w = w' := by simpa using h
    exact ⟨trivial, hcall⟩
  | cons a as ih =>
    obtain ⟨t, ht, hrest⟩ := run_cons.mp h
    obtain ⟨hkeep, hcall⟩ := ih hrest
    obtain ⟨hstore, hw⟩ := ramStep_unsucceeded ht hcall
    refine ⟨(along_cons ht).mpr ⟨fun hof u hu => ?_, hkeep⟩, hw⟩
    obtain rfl : t = u := Option.some.inj (ht.symm.trans hu)
    exact hstore hof

theorem heldAll_eq (ops : List RamOp) : heldAll ops = ↑(ops.flatMap RamOp.held) := by
  induction ops with
  | nil => rfl
  | cons op ops ih =>
    rw [List.flatMap_cons, ← Multiset.coe_add, ← ih]
    simp [heldAll]

theorem Accounts.perm {pool : List ℕ} {w : World} (hw : Accounts ↑pool w) :
    (w.free ++ collectPages w.store.root ++ w.ops.flatMap RamOp.held ++ w.others).Perm pool := by
  rw [← Multiset.coe_eq_coe, ← hw.kept, heldAll_eq]
  rfl

theorem blocks_eq_ceilDiv (size : ℕ) : blocks size = size ⌈/⌉ 4096 := by
  rw [Nat.ceilDiv_eq_add_pred_div, blocks]
  rfl

/-- How the file system stands in `w` after the steps `as` from `start`: the account agrees with the
tree, files have the pages that their sizes need, no page is in two places, the account has grown
within the quota only, calls that failed have left the store alone, and every page of the pool is
free, in the tree, in the hands of a call under way or with another user. -/
structure SoundAfter (start : World) (as : List RamAction) (w : World) : Prop where
  used : w.store.used = (collectPages w.store.root).length
  sized : ∀ f ∈ files w.store.root, f.1.length = f.2 ⌈/⌉ 4096
  filesApart : ((files w.store.root).map Prod.fst).Pairwise List.Disjoint
  freeApart : List.Disjoint w.free (collectPages w.store.root)
  within : Along ramStep GrowsWithin start as
  failed : ∀ call e pages, w.ops[call]? = some (.freeing pages (.error e)) → Along ramStep (KeepsStore call) start as
  kept : (w.free ++ collectPages w.store.root ++ w.ops.flatMap RamOp.held ++ w.others).Perm (start.free ++ start.others)

/-- The RAM file system is sound after every run, however its calls are interleaved. -/
theorem ramfs_sound {free others : List ℕ} {mem : ℕ → Octets} {as : List RamAction} {w : World}
    (hpool : (free ++ others).Nodup) (h : run ramStep (World.boot free others mem) as = some w) :
    SoundAfter (World.boot free others mem) as w := by
  have hboot := boot_accounts free others mem
  have hw : Accounts ↑(free ++ others) w :=
    run_invariant (fun _ _ _ hs _ => ramStep_accounts hs) hboot (along_of_forall (fun _ _ => trivial) _ as) h
  obtain ⟨hfiles, hfree⟩ := hw.apart hpool
  exact {
    used := hw.used
    sized := fun f hf => (hw.sized f hf).trans (blocks_eq_ceilDiv _)
    filesApart := hfiles
    freeApart := hfree
    within := along_of_invariant (A := fun _ => True) (G := fun _ _ => True) (fun _ _ _ _ hs _ => ramStep_accounts hs)
      (fun _ _ _ hs _ => growsWithin hs) (fun _ _ => trivial) hboot (along_of_forall (fun _ _ => trivial) _ as)
    failed := fun call e pages hcall => by
      suffices hnot : w.Unsucceeded call from (run_unsucceeded h hnot).1
      intro op hop
      obtain rfl : RamOp.freeing pages (.error e) = op := Option.some.inj (hcall.symm.trans hop)
      exact id
    kept := hw.perm }

/-- A write of `/a` that ends well, and one of `/b/c` that fails because there is no `/b`. -/
def twoWrites : List RamAction :=
  [.write (text "/a") [1], .step 0 (some 7), .write (text "/b/c") [2], .step 0 none, .step 1 (some 8), .step 0 none,
    .step 1 none, .step 0 none, .step 1 none, .step 1 none, .step 1 none]

theorem ramfs_sound_two : ∃ w, run ramStep (World.boot [7, 8] [9] fun _ => []) twoWrites = some w ∧
    SoundAfter (World.boot [7, 8] [9] fun _ => []) twoWrites w := by
  obtain ⟨w, hw⟩ : ∃ w, run ramStep (World.boot [7, 8] [9] fun _ => []) twoWrites = some w :=
    Option.isSome_iff_exists.mp (by rfl)
  exact ⟨w, hw, ramfs_sound (by decide) hw⟩

/-- The pages that a write in progress has reserved are in no account. -/
theorem reserved_not_used :
    ¬ ∀ (free others : List ℕ) (mem : ℕ → Octets) (as : List RamAction) (w : World), (free ++ others).Nodup →
      run ramStep (World.boot free others mem) as = some w →
      w.store.used = (collectPages w.store.root).length + ((w.ops.flatMap RamOp.reserved).length : ℤ) := by
  intro hclaim
  obtain ⟨w, hw, hne⟩ : ∃ w ∈ run ramStep (World.boot [7] [] fun _ => []) [.write (text "/a") [1], .step 0 (some 7)],
      w.store.used ≠ (collectPages w.store.root).length + ((w.ops.flatMap RamOp.reserved).length : ℤ) := by
    decide
  exact hne (hclaim [7] [] _ _ w (by decide) hw)

end HouseKernel.FileSystem.RamFs
