import HouseKernel.FileSystem.Path

/-! The directories that are made on the way to a path: one for every piece of it but the last. Pieces
`.` and `..` count too, so the way may lead through directories that are not above the path. -/
namespace HouseKernel.FileSystem

open HouseKernel.Lib

/-- The pieces of a path that are not empty. -/
def pathParts (p : Text) : List Text := (splitOn slash p).filter (· ≠ [])

def parentDirs (p : Text) : List Text :=
  (List.range ((pathParts p).length - 1)).map fun i => slash :: joinWith [slash] ((pathParts p).take (i + 1))

/-- The components of the directories on the way to a path. -/
def waypoints (p : Text) : List (List Text) := (parentDirs p).filterMap fun d => (splitPath d).toOption

theorem dropLast_ne {v : List Text} (hv : v ≠ []) : v.dropLast ≠ v := by
  intro heq
  have hlen := congrArg List.length heq
  have hpos := List.length_pos_iff.mpr hv
  rw [List.length_dropLast] at hlen
  omega

theorem prefix_dropLast {u v : List Text} (hu : u <+: v) (hne : u ≠ v) : u <+: v.dropLast := by
  obtain ⟨rest, rfl⟩ := hu
  have hrest : rest ≠ [] := by
    rintro rfl
    exact hne (List.append_nil u).symm
  rw [List.dropLast_append_of_ne_nil hrest]
  exact List.prefix_append _ _

theorem resolve_filter (pieces acc : List Text) : resolve (pieces.filter (· ≠ [])) acc = resolve pieces acc := by
  induction pieces generalizing acc with
  | nil => rfl
  | cons c pieces ih =>
    by_cases hc : c = []
    · rw [List.filter_cons_of_neg (by simpa using hc), ih]
      conv_rhs => rw [resolve, if_pos hc]
    · rw [List.filter_cons_of_pos (by simpa using hc)]
      simp only [resolve, ih]

theorem resolve_append (pieces more acc : List Text) :
    resolve (pieces ++ more) acc = resolve pieces acc >>= fun cs => resolve more cs.reverse := by
  induction pieces generalizing acc with
  | nil =>
    rw [resolve]
    simp [bind, Except.bind]
  | cons c pieces ih =>
    rw [List.cons_append, resolve, resolve]
    split_ifs <;> first | exact ih _ | rfl

/-- A piece leaves the components, takes the last off or puts one behind them. -/
theorem resolve_piece {c : Text} {cs ds : List Text} (h : resolve [c] cs.reverse = .ok ds) :
    ds = cs ∨ ds = cs.dropLast ∨ ds = cs ++ [c] := by
  simp only [resolve] at h
  split_ifs at h
  · exact .inl (by simpa using (Except.ok.inj h).symm)
  · exact .inl (by simpa using (Except.ok.inj h).symm)
  · exact .inr (.inl (by simpa [List.tail_reverse] using (Except.ok.inj h).symm))
  · exact .inr (.inr (by simpa using (Except.ok.inj h).symm))

/-- Every path above the one that pieces lead to is passed on the way. -/
theorem passed_of_prefix {pieces cs q : List Text} (h : resolve pieces [] = .ok cs) (hq : q <+: cs) :
    ∃ i ≤ pieces.length, resolve (pieces.take i) [] = .ok q := by
  induction pieces using List.reverseRecOn generalizing cs q with
  | nil =>
    obtain rfl : [] = cs := Except.ok.inj h
    exact ⟨0, le_rfl, by rw [List.prefix_nil.mp hq]; rfl⟩
  | append_singleton pieces c ih =>
    have hpassed : ∀ ds, resolve pieces [] = .ok ds → q <+: ds →
        ∃ i ≤ (pieces ++ [c]).length, resolve ((pieces ++ [c]).take i) [] = .ok q := by
      intro ds hds hq
      obtain ⟨i, hi, hres⟩ := ih hds hq
      refine ⟨i, by rw [List.length_append]; omega, ?_⟩
      rwa [List.take_append_of_le_length hi]
    have hall := h
    rw [resolve_append] at h
    cases hds : resolve pieces [] with
    | error e =>
      rw [hds] at h
      cases h
    | ok ds =>
      rw [hds] at h
      obtain rfl | rfl | rfl := resolve_piece h
      · exact hpassed cs hds hq
      · exact hpassed ds hds (hq.trans (List.dropLast_prefix ds))
      · obtain rfl | hq := List.prefix_concat_iff.mp hq
        · exact ⟨_, le_rfl, by rw [List.take_length, hall]⟩
        · exact hpassed ds hds hq

theorem splitPath_pieces {ps : List Text} (hne : ps ≠ []) (h : ∀ c ∈ ps, slash ∉ c) :
    splitPath (slash :: joinWith [slash] ps) = resolve ps [] := by
  rw [splitPath, if_neg (by simp), splitOn_cons_self, splitOn_joinWith hne h, resolve, if_pos rfl]

theorem slash_notMem_parts {p c : Text} (h : c ∈ pathParts p) : slash ∉ c := (mem_splitOn (List.mem_filter.mp h).1).1

theorem splitPath_eq_parts {p : Text} (h : p ≠ []) : splitPath p = resolve (pathParts p) [] := by
  rw [splitPath, if_neg h, pathParts, resolve_filter]

/-- The way to a path: where it is after each piece, from the root to the path. -/
structure Way (p : Text) (cs : List Text) (n : ℕ) (pos : ℕ → List Text) : Prop where
  start : pos 0 = []
  stop : pos (n + 1) = cs
  dirs : (parentDirs p).map splitPath = (List.range n).map fun i => .ok (pos (i + 1))
  back : ∀ i ≤ n + 1, ∀ q, q <+: pos i → ∃ j ≤ i, pos j = q

theorem resolve_take {ps cs : List Text} (h : resolve ps [] = .ok cs) (i : ℕ) : ∃ ds, resolve (ps.take i) [] = .ok ds := by
  rw [← List.take_append_drop i ps, resolve_append] at h
  cases hds : resolve (ps.take i) [] with
  | error e =>
    rw [hds] at h
    cases h
  | ok ds => exact ⟨ds, rfl⟩

theorem exists_way {p : Text} {cs : List Text} (h : splitPath p = .ok cs) (hcs : cs ≠ []) : ∃ n pos, Way p cs n pos := by
  have hp : p ≠ [] := by
    rintro rfl
    cases h
  have hall : resolve (pathParts p) [] = .ok cs := by rw [← splitPath_eq_parts hp, h]
  have hparts : pathParts p ≠ [] := by
    intro hnil
    rw [hnil] at hall
    exact hcs (Except.ok.inj hall).symm
  have hlen := List.length_pos_iff.mpr hparts
  choose pos hpos using resolve_take hall
  refine ⟨(pathParts p).length - 1, pos, ?_, ?_, ?_, ?_⟩
  · exact (Except.ok.inj (hpos 0)).symm
  · have hstop := hpos ((pathParts p).length - 1 + 1)
    rw [Nat.sub_add_cancel hlen, List.take_length, hall] at hstop
    rw [Nat.sub_add_cancel hlen]
    exact (Except.ok.inj hstop).symm
  · rw [parentDirs, List.map_map]
    refine List.map_congr_left fun i hi => ?_
    have hne : (pathParts p).take (i + 1) ≠ [] := by
      rw [ne_eq, List.take_eq_nil_iff]
      simp [hparts]
    rw [Function.comp_apply, splitPath_pieces hne fun c hc => slash_notMem_parts (List.mem_of_mem_take hc), hpos]
  · intro i hi q hq
    obtain ⟨j, hj, hres⟩ := passed_of_prefix (hpos i) hq
    rw [List.length_take] at hj
    rw [List.take_take, Nat.min_eq_left (by omega), hpos] at hres
    exact ⟨j, by omega, Except.ok.inj hres⟩

namespace Way

variable {p : Text} {cs : List Text} {n : ℕ} {pos : ℕ → List Text}

theorem mem_waypoints (h : Way p cs n pos) {q : List Text} : q ∈ waypoints p ↔ ∃ i < n, pos (i + 1) = q := by
  have hways : waypoints p = ((parentDirs p).map splitPath).filterMap Except.toOption := by
    rw [List.filterMap_map]
    rfl
  rw [hways, h.dirs, List.filterMap_map, List.mem_filterMap]
  simp only [List.mem_range, Function.comp_apply, Except.toOption, Option.some.injEq]

/-- What stands above a place on the way is the root, or was passed before. -/
theorem above (h : Way p cs n pos) {i : ℕ} (hi : i ≤ n) {q : List Text} (hq : q <+: pos (i + 1)) (hne : q ≠ pos (i + 1)) :
    q = [] ∨ ∃ j < i, pos (j + 1) = q := by
  obtain ⟨j, hj, rfl⟩ := h.back (i + 1) (by omega) q hq
  cases j with
  | zero => exact .inl h.start
  | succ j =>
    obtain hlt | heq := Nat.lt_or_eq_of_le hj
    · exact .inr ⟨j, by omega, rfl⟩
    · exact absurd (by rw [heq]) hne

/-- The directories above a path are all on the way to it. -/
theorem parents (h : Way p cs n pos) {q : List Text} (hq : q <+: cs) (hne : q ≠ cs) (hnil : q ≠ []) : q ∈ waypoints p := by
  obtain ⟨rfl⟩ := h.stop
  obtain hroot | ⟨j, hj, hpos⟩ := h.above le_rfl hq hne
  · exact absurd hroot hnil
  · exact h.mem_waypoints.mpr ⟨j, hj, hpos⟩

end Way

end HouseKernel.FileSystem
