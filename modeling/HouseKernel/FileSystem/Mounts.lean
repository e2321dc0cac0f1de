import HouseKernel.FileSystem.Namespaces

/-! Mount tables. A prefix may carry several layers; a table keeps the layers of a prefix next to each other, the topmost
first, and longer prefixes before shorter ones. What it stands for is the stack of layers of each prefix. -/
namespace HouseKernel.FileSystem

open HouseKernel.Lib

section Calls

variable {ι : Type*}

def normalizeMount : Text → Except FsError (List Text)
  | [] => .error (.einval "mount prefix must be absolute")
  | c :: cs => if c = slash then splitPath (c :: cs) else .error (.einval "mount prefix must be absolute")

/-- Below the layers of the same prefix, at whose first the table starts. -/
def insertBelow (entry : Mount ι) : List (Mount ι) → List (Mount ι)
  | [] => [entry]
  | m :: ms => if m.comps = entry.comps then m :: insertBelow entry ms else entry :: m :: ms

def insertLayer (entry : Mount ι) : List (Mount ι) → List (Mount ι)
  | [] => [entry]
  | m :: ms =>
    if m.comps = entry.comps then m :: insertBelow entry ms
    else if m.comps.length < entry.comps.length then entry :: m :: ms
    else m :: insertLayer entry ms

/-- Every layer at the longest prefix of a path, topmost first. -/
def resolveLayers (table : List (Mount ι)) (comps : List Text) : List (ι × Text) :=
  match table.filter fun m => m.comps.isPrefixOf comps with
  | [] => []
  | top :: rest =>
    (top :: rest.takeWhile fun m => top.comps == m.comps).map fun m => (m.ops, joinRel (comps.drop m.comps.length))

/-- Replace all layers at a prefix. -/
def vfsMount (r : Registry ι) (ns : ℕ) (path : Text) (ops : ι) : Except FsError Unit × Registry ι :=
  match normalizeMount path with
  | .error e => (.error e, r)
  | .ok comps =>
    let table := (r.nsTable.lookup ns).getD []
    let without := table.filter fun m => m.comps ≠ comps
    (.ok (), { r with nsTable := r.nsTable.insert ns (insertLayer ⟨comps, ops⟩ without) })

/-- Append a layer below the others. -/
def vfsMountLayer (r : Registry ι) (ns : ℕ) (path : Text) (ops : ι) : Except FsError Unit × Registry ι :=
  match normalizeMount path with
  | .error e => (.error e, r)
  | .ok comps =>
    let table := (r.nsTable.lookup ns).getD []
    (.ok (), { r with nsTable := r.nsTable.insert ns (insertLayer ⟨comps, ops⟩ table) })

def vfsLayerCount (r : Registry ι) (ns : ℕ) (path : Text) : ℕ :=
  match normalizeMount path with
  | .error _ => 0
  | .ok comps => (((r.nsTable.lookup ns).getD []).filter fun m => m.comps = comps).length

def readLayers (opsRead : ι → Text → Except FsError Octets) : List (ι × Text) → Except FsError Octets
  | [] => .error .enoent
  | (ops, rel) :: rest =>
    match opsRead ops rel with
    | .error .enoent => readLayers opsRead rest
    | other => other

def vfsReadOverlayFrom (opsRead : ι → Text → Except FsError Octets) (r : Registry ι) (ns : ℕ) (depth : ℤ) (path : Text) :
    Except FsError Octets :=
  match splitPath path with
  | .error e => .error e
  | .ok comps => readLayers opsRead ((resolveLayers ((r.nsTable.lookup ns).getD []) comps).drop depth.toNat)

def vfsReadOverlay (opsRead : ι → Text → Except FsError Octets) (r : Registry ι) (ns : ℕ) (path : Text) :
    Except FsError Octets :=
  vfsReadOverlayFrom opsRead r ns 0 path

end Calls

/-- What a mount table stands for: the layers of each prefix, topmost first. -/
abbrev Stacks (ι : Type*) := List Text → List ι

section Stacks

variable {ι : Type*}

/-- The one layer at a prefix. -/
def Stacks.mount (M : Stacks ι) (p : List Text) (v : ι) : Stacks ι := Function.update M p [v]

/-- One more layer, below the others. -/
def Stacks.layer (M : Stacks ι) (p : List Text) (v : ι) : Stacks ι := Function.update M p (M p ++ [v])

/-- The layers one prefix after the other. -/
def blocks (M : Stacks ι) (ps : List (List Text)) : List (Mount ι) := ps.flatMap fun p => (M p).map (Mount.mk p)

/-- The order of the prefixes in a table. -/
structure Ordered (M : Stacks ι) (ps : List (List Text)) : Prop where
  nodup : ps.Nodup
  sorted : ps.Pairwise fun p q => q.length ≤ p.length
  mem : ∀ p, p ∈ ps ↔ M p ≠ []

/-- The table holds the layers of each prefix, longest prefixes first. -/
def Tabulates (table : List (Mount ι)) (M : Stacks ι) : Prop := ∃ ps, Ordered M ps ∧ table = blocks M ps

variable {M M' : Stacks ι} {p q : List Text} {ps : List (List Text)} {table rest : List (Mount ι)} {v : ι} {vs : List ι}
  {comps : List Text}

theorem blocks_cons : blocks M (p :: ps) = (M p).map (Mount.mk p) ++ blocks M ps := rfl

theorem blocks_append {qs : List (List Text)} : blocks M (ps ++ qs) = blocks M ps ++ blocks M qs := List.flatMap_append

theorem blocks_congr (h : ∀ p ∈ ps, M' p = M p) : blocks M' ps = blocks M ps := by
  unfold blocks
  induction ps with
  | nil => rfl
  | cons p ps ih =>
    obtain ⟨hp, hps⟩ := List.forall_mem_cons.mp h
    rw [List.flatMap_cons, List.flatMap_cons, hp, ih hps]

theorem comps_of_mem_blocks {m : Mount ι} (h : m ∈ blocks M ps) : m.comps ∈ ps := by
  obtain ⟨p, hp, hm⟩ := List.mem_flatMap.mp h
  obtain ⟨v, -, rfl⟩ := List.mem_map.mp hm
  exact hp

theorem filter_blocks (f : List Text → Bool) : (blocks M ps).filter (fun m => f m.comps) = blocks M (ps.filter f) := by
  induction ps with
  | nil => rfl
  | cons p ps ih =>
    rw [blocks_cons, List.filter_append, ih, List.filter_cons]
    cases hf : f p with
    | true =>
      have hall : ((M p).map (Mount.mk p)).filter (fun m => f m.comps) = (M p).map (Mount.mk p) := by
        rw [List.filter_eq_self]
        intro m hm
        obtain ⟨v, -, rfl⟩ := List.mem_map.mp hm
        exact hf
      rw [hall]
      rfl
    | false =>
      have hnone : ((M p).map (Mount.mk p)).filter (fun m => f m.comps) = [] := by
        rw [List.filter_eq_nil_iff]
        intro m hm
        obtain ⟨v, -, rfl⟩ := List.mem_map.mp hm
        simp [hf]
      rw [hnone]
      rfl

theorem insertBelow_block (hrest : ∀ m ∈ rest, m.comps ≠ p) :
    insertBelow ⟨p, v⟩ (vs.map (Mount.mk p) ++ rest) = (vs ++ [v]).map (Mount.mk p) ++ rest := by
  induction vs with
  | nil =>
    cases rest with
    | nil => rfl
    | cons m ms => exact if_neg (hrest m List.mem_cons_self)
  | cons w vs ih =>
    rw [List.map_cons, List.cons_append, insertBelow, if_pos rfl, ih]
    rfl

/-- The layers of the same prefix come first. -/
theorem insertLayer_same (hvs : vs ≠ []) (hrest : ∀ m ∈ rest, m.comps ≠ p) :
    insertLayer ⟨p, v⟩ (vs.map (Mount.mk p) ++ rest) = (vs ++ [v]).map (Mount.mk p) ++ rest := by
  cases vs with
  | nil => exact absurd rfl hvs
  | cons w vs =>
    rw [List.map_cons, List.cons_append, insertLayer, if_pos rfl, insertBelow_block hrest]
    rfl

/-- The layers of a prefix that is not shorter stay in front. -/
theorem insertLayer_skip (hne : q ≠ p) (hlen : p.length ≤ q.length) :
    insertLayer ⟨p, v⟩ (vs.map (Mount.mk q) ++ rest) = vs.map (Mount.mk q) ++ insertLayer ⟨p, v⟩ rest := by
  induction vs with
  | nil => rfl
  | cons w vs ih =>
    rw [List.map_cons, List.cons_append, insertLayer, if_neg hne, if_neg (Nat.not_lt.mpr hlen), ih]
    rfl

/-- Shorter prefixes come behind. -/
theorem insertLayer_before (hlen : ∀ m ∈ table, m.comps.length < p.length) :
    insertLayer ⟨p, v⟩ table = ⟨p, v⟩ :: table := by
  cases table with
  | nil => rfl
  | cons m ms =>
    have hm := hlen m List.mem_cons_self
    have hne : m.comps ≠ p := by
      rintro rfl
      omega
    rw [insertLayer, if_neg hne, if_pos hm]

/-- One more layer at a prefix that has some. -/
theorem insertLayer_old (hnodup : ps.Nodup) (hsorted : ps.Pairwise fun p q => q.length ≤ p.length) (hp : p ∈ ps)
    (hM : M p ≠ []) : insertLayer ⟨p, v⟩ (blocks M ps) = blocks (M.layer p v) ps := by
  induction ps with
  | nil => cases hp
  | cons q ps ih =>
    obtain ⟨hq, hnodup⟩ := List.nodup_cons.mp hnodup
    obtain ⟨hle, hsorted⟩ := List.pairwise_cons.mp hsorted
    by_cases hqp : q = p
    · subst hqp
      have hrest : ∀ m ∈ blocks M ps, m.comps ≠ q := by
        rintro m hm rfl
        exact hq (comps_of_mem_blocks hm)
      have hsame : blocks (M.layer q v) ps = blocks M ps := by
        refine blocks_congr fun r hr => Function.update_of_ne ?_ _ _
        rintro rfl
        exact hq hr
      rw [blocks_cons, insertLayer_same hM hrest, blocks_cons, hsame, Stacks.layer, Function.update_self]
    · have hmem : p ∈ ps := (List.mem_cons.mp hp).resolve_left (Ne.symm hqp)
      rw [blocks_cons, insertLayer_skip hqp (hle p hmem), ih hnodup hsorted hmem, blocks_cons, Stacks.layer,
        Function.update_of_ne hqp]

/-- The first layer at a prefix. -/
theorem insertLayer_new (hsorted : ps.Pairwise fun p q => q.length ≤ p.length) (hp : p ∉ ps) :
    ∃ xs ys, ps = xs ++ ys ∧ (∀ q ∈ xs, p.length ≤ q.length) ∧ (∀ q ∈ ys, q.length < p.length) ∧
      insertLayer ⟨p, v⟩ (blocks M ps) = blocks M xs ++ ⟨p, v⟩ :: blocks M ys := by
  induction ps with
  | nil => exact ⟨[], [], rfl, by simp, by simp, rfl⟩
  | cons q ps ih =>
    obtain ⟨hle, hrest⟩ := List.pairwise_cons.mp hsorted
    rw [List.mem_cons, not_or] at hp
    obtain ⟨hpq, hp⟩ := hp
    by_cases hlen : p.length ≤ q.length
    · obtain ⟨xs, ys, rfl, hxs, hys, hinsert⟩ := ih hrest hp
      refine ⟨q :: xs, ys, rfl, List.forall_mem_cons.mpr ⟨hlen, hxs⟩, hys, ?_⟩
      rw [blocks_cons, insertLayer_skip (Ne.symm hpq) hlen, hinsert, blocks_cons, List.append_assoc]
    · have hall : ∀ r ∈ q :: ps, r.length < p.length := by
        refine List.forall_mem_cons.mpr ⟨by omega, fun r hr => ?_⟩
        have hr := hle r hr
        omega
      refine ⟨[], q :: ps, rfl, by simp, hall, ?_⟩
      exact insertLayer_before fun m hm => hall _ (comps_of_mem_blocks hm)

/-- A layer more in the table is a layer more at its prefix. -/
theorem Tabulates.layer (h : Tabulates table M) : Tabulates (insertLayer ⟨p, v⟩ table) (M.layer p v) := by
  obtain ⟨ps, hps, rfl⟩ := h
  have hlayer : ∀ q, M.layer p v q ≠ [] ↔ q = p ∨ M q ≠ [] := by
    intro q
    by_cases hq : q = p
    · subst hq
      simp [Stacks.layer]
    · simp [Stacks.layer, hq]
  by_cases hp : p ∈ ps
  · refine ⟨ps, ⟨hps.nodup, hps.sorted, fun q => ?_⟩, insertLayer_old hps.nodup hps.sorted hp ((hps.mem p).mp hp)⟩
    rw [hlayer, ← hps.mem]
    exact ⟨.inr, fun hq => hq.elim (fun hq => hq ▸ hp) id⟩
  · obtain ⟨xs, ys, rfl, hxs, hys, hinsert⟩ := insertLayer_new (M := M) (v := v) hps.sorted hp
    have hMp : M p = [] := not_not.mp fun hM => hp ((hps.mem p).mpr hM)
    have hother : ∀ zs ⊆ xs ++ ys, blocks (M.layer p v) zs = blocks M zs := by
      refine fun zs hzs => blocks_congr fun q hq => Function.update_of_ne ?_ _ _
      rintro rfl
      exact hp (hzs hq)
    have hperm : (xs ++ p :: ys).Perm (p :: (xs ++ ys)) := List.perm_middle
    refine ⟨xs ++ p :: ys, ⟨?_, ?_, fun q => ?_⟩, ?_⟩
    · exact hperm.nodup_iff.mpr (List.nodup_cons.mpr ⟨hp, hps.nodup⟩)
    · obtain ⟨hsxs, hsys, hcross⟩ := List.pairwise_append.mp hps.sorted
      refine List.pairwise_append.mpr ⟨hsxs, List.pairwise_cons.mpr ⟨fun q hq => (hys q hq).le, hsys⟩, fun q hq r hr => ?_⟩
      obtain rfl | hr := List.mem_cons.mp hr
      · exact hxs q hq
      · exact hcross q hq r hr
    · rw [hperm.mem_iff, List.mem_cons, hlayer, hps.mem]
    · have hblock : M.layer p v p = [v] := by rw [Stacks.layer, Function.update_self, hMp, List.nil_append]
      rw [hinsert, blocks_append, blocks_cons, hblock, hother xs (List.subset_append_left _ _),
        hother ys (List.subset_append_right _ _)]
      rfl

/-- Without the layers of a prefix. -/
theorem Tabulates.without (h : Tabulates table M) :
    Tabulates (table.filter fun m => m.comps ≠ p) (Function.update M p []) := by
  obtain ⟨ps, hps, rfl⟩ := h
  have hfilter : (blocks M ps).filter (fun m => m.comps ≠ p) = blocks M (ps.filter fun q => q ≠ p) :=
    filter_blocks fun q => q ≠ p
  refine ⟨ps.filter fun q => q ≠ p, ⟨hps.nodup.filter _, hps.sorted.filter _, fun q => ?_⟩, hfilter.trans ?_⟩
  · rw [List.mem_filter, hps.mem]
    by_cases hq : q = p
    · subst hq
      simp
    · simp [hq]
  · have hother : ∀ q ∈ ps.filter fun q => q ≠ p, Function.update M p [] q = M q := fun q hq =>
      Function.update_of_ne (by simpa using (List.mem_filter.mp hq).2) _ _
    exact (blocks_congr hother).symm

/-- A mount leaves one layer at its prefix. -/
theorem Tabulates.mount (h : Tabulates table M) :
    Tabulates (insertLayer ⟨p, v⟩ (table.filter fun m => m.comps ≠ p)) (M.mount p v) := by
  have hlayer := (h.without (p := p)).layer (p := p) (v := v)
  rwa [Stacks.layer, Function.update_self, Function.update_idem, List.nil_append] at hlayer

theorem Tabulates.empty : Tabulates ([] : List (Mount ι)) fun _ => [] :=
  ⟨[], ⟨List.nodup_nil, List.Pairwise.nil, by simp⟩, rfl⟩

/-- The longest prefix of a path that has layers. -/
structure Routes (M : Stacks ι) (comps p : List Text) : Prop where
  covers : p <+: comps
  mounted : M p ≠ []
  longest : ∀ q, q <+: comps → M q ≠ [] → q.length ≤ p.length

theorem prefixes_covering (h : Ordered M ps) (hp : Routes M comps p) :
    ∃ qs, ps.filter (fun q => q.isPrefixOf comps) = p :: qs ∧ p ∉ qs := by
  have hmem : p ∈ ps.filter fun q => q.isPrefixOf comps :=
    List.mem_filter.mpr ⟨(h.mem p).mpr hp.mounted, List.isPrefixOf_iff_prefix.mpr hp.covers⟩
  have hnodup := h.nodup.filter fun q => q.isPrefixOf comps
  have hsorted := h.sorted.filter fun q => q.isPrefixOf comps
  have hall : ∀ q ∈ ps.filter fun q => q.isPrefixOf comps, q <+: comps ∧ M q ≠ [] := fun q hq =>
    ⟨List.isPrefixOf_iff_prefix.mp (List.mem_filter.mp hq).2, (h.mem q).mp (List.mem_filter.mp hq).1⟩
  cases hqs : ps.filter fun q => q.isPrefixOf comps with
  | nil =>
    rw [hqs] at hmem
    cases hmem
  | cons q qs =>
    rw [hqs] at hmem hnodup hsorted hall
    obtain ⟨hcovers, hmounted⟩ := hall q List.mem_cons_self
    have hle : p.length ≤ q.length := by
      obtain rfl | hp := List.mem_cons.mp hmem
      · exact le_rfl
      · exact (List.pairwise_cons.mp hsorted).1 p hp
    have heq : p = q := (List.prefix_of_prefix_length_le hp.covers hcovers hle).eq_of_length_le (hp.longest q hcovers hmounted)
    subst heq
    exact ⟨qs, rfl, (List.nodup_cons.mp hnodup).1⟩

/-- A table resolves a path to the layers at its longest prefix. -/
theorem Tabulates.resolve (h : Tabulates table M) (hp : Routes M comps p) :
    resolveLayers table comps = (M p).map fun v => (v, joinRel (comps.drop p.length)) := by
  obtain ⟨ps, hps, rfl⟩ := h
  obtain ⟨qs, hqs, hnot⟩ := prefixes_covering hps hp
  rw [resolveLayers, filter_blocks fun q => q.isPrefixOf comps, hqs, blocks_cons]
  have hmounted := hp.mounted
  cases hM : M p with
  | nil => exact absurd hM hmounted
  | cons v vs =>
    have htake : (vs.map (Mount.mk p) ++ blocks M qs).takeWhile (fun m => p == m.comps) = vs.map (Mount.mk p) := by
      rw [List.takeWhile_append_of_pos (by simp)]
      cases hrest : blocks M qs with
      | nil => simp
      | cons m ms =>
        have hne : p ≠ m.comps := by
          rintro rfl
          exact hnot (comps_of_mem_blocks (hrest ▸ List.mem_cons_self))
        simp [hne]
    rw [List.map_cons, List.cons_append]
    dsimp only
    rw [htake]
    simp

/-- A path none of whose prefixes has layers is not resolved. -/
theorem Tabulates.resolve_none (h : Tabulates table M) (hnone : ∀ p, p <+: comps → M p = []) :
    resolveLayers table comps = [] := by
  obtain ⟨ps, hps, rfl⟩ := h
  have hqs : ps.filter (fun q => q.isPrefixOf comps) = [] := by
    rw [List.filter_eq_nil_iff]
    intro q hq hcovers
    exact (hps.mem q).mp hq (hnone q (List.isPrefixOf_iff_prefix.mp hcovers))
  rw [resolveLayers, filter_blocks fun q => q.isPrefixOf comps, hqs]
  rfl

/-- The first of the layers is the one that a lookup takes. -/
theorem Tabulates.lookup (h : Tabulates table M) :
    resolveIn (some table) comps = match resolveLayers table comps with
      | [] => .error .enoent
      | top :: _ => .ok top := by
  obtain ⟨ps, hps, rfl⟩ := h
  have hsorted : ((blocks M ps).map fun m => (m.comps, m.ops)).Pairwise fun m n => n.1.length ≤ m.1.length := by
    rw [List.pairwise_map, blocks, List.pairwise_flatMap]
    refine ⟨fun p _ => ?_, hps.sorted.imp fun hle m hm n hn => ?_⟩
    · rw [List.pairwise_map]
      exact List.pairwise_of_forall fun _ _ => le_rfl
    · obtain ⟨_, -, rfl⟩ := List.mem_map.mp hm
      obtain ⟨_, -, rfl⟩ := List.mem_map.mp hn
      exact hle
  have hfind : ((blocks M ps).map fun m => (m.comps, m.ops)).find? (fun m => m.1.isPrefixOf comps) =
      (((blocks M ps).filter fun m => m.comps.isPrefixOf comps).head?.map fun m => (m.comps, m.ops)) := by
    rw [List.head?_filter, List.find?_map]
    rfl
  rw [resolveIn, resolvePrefix, List.Pairwise.insertionSort_eq hsorted, hfind, resolveLayers]
  cases (blocks M ps).filter fun m => m.comps.isPrefixOf comps with
  | nil => rfl
  | cons top rest => rfl

/-- The layers that answer a path: those at the longest of its prefixes that have some. -/
inductive Answers (M : Stacks ι) (comps : List Text) : List (ι × Text) → Prop
  | routed {p : List Text} (h : Routes M comps p) : Answers M comps ((M p).map fun v => (v, joinRel (comps.drop p.length)))
  | unmounted (h : ∀ p, p <+: comps → M p = []) : Answers M comps []

open Classical in
theorem exists_answers (M : Stacks ι) (comps : List Text) : ∃ layers, Answers M comps layers := by
  by_cases hnone : ∀ p, p <+: comps → M p = []
  · exact ⟨[], .unmounted hnone⟩
  · push Not at hnone
    obtain ⟨p, hp, hM⟩ := hnone
    have htake : ∀ q, q <+: comps → comps.take q.length = q := fun q hq => (List.prefix_iff_eq_take.mp hq).symm
    have hlast : M (comps.take (Nat.findGreatest (fun k => M (comps.take k) ≠ []) comps.length)) ≠ [] :=
      Nat.findGreatest_spec (P := fun k => M (comps.take k) ≠ []) hp.length_le (by rwa [htake p hp])
    refine ⟨_, .routed ⟨List.take_prefix _ _, hlast, fun q hq hMq => ?_⟩⟩
    rw [List.length_take, Nat.min_eq_left (Nat.findGreatest_le _)]
    exact Nat.le_findGreatest hq.length_le (by rwa [htake q hq])

theorem Tabulates.answers (h : Tabulates table M) {layers : List (ι × Text)} (hl : Answers M comps layers) :
    resolveLayers table comps = layers := by
  cases hl with
  | routed hp => exact h.resolve hp
  | unmounted hnone => exact h.resolve_none hnone

/-- The layers at a prefix. -/
theorem Tabulates.count (h : Tabulates table M) (p : List Text) : (table.filter fun m => m.comps = p).length = (M p).length := by
  obtain ⟨ps, hps, rfl⟩ := h
  rw [filter_blocks fun q => q = p]
  by_cases hp : p ∈ ps
  · have hone : (ps.filter fun q => q = p) = [p] := by
      rw [List.filter_eq, List.count_eq_one_of_mem hps.nodup hp]
      rfl
    rw [hone, blocks_cons, List.length_append, List.length_map]
    rfl
  · have hnone : (ps.filter fun q => q = p) = [] := by
      rw [List.filter_eq, List.count_eq_zero_of_not_mem hp]
      rfl
    have hM : M p = [] := not_not.mp fun hM => hp ((hps.mem p).mpr hM)
    rw [hnone, hM]
    rfl

/-- A read goes on below a layer only when that layer has no such file. -/
theorem readLayers_eq (opsRead : ι → Text → Except FsError Octets) (layers : List (ι × Text)) :
    readLayers opsRead layers =
      ((layers.map fun l => opsRead l.1 l.2).find? fun r => r ≠ .error .enoent).getD (.error .enoent) := by
  induction layers with
  | nil => rfl
  | cons l layers ih =>
    obtain ⟨ops, rel⟩ := l
    rw [readLayers, List.map_cons, List.find?_cons]
    by_cases hr : opsRead ops rel = .error .enoent
    · simp [hr, ih]
    · simp [hr]

end Stacks

end HouseKernel.FileSystem
