import HouseKernel.FileSystem.Path

/-! Where a path leads. Its pieces are steps in a tree whose top is its own parent; the components of a normalised
path are steps down only, so that no part of it leaves the directory that it is taken from. -/
namespace HouseKernel.FileSystem

open HouseKernel.Lib

/-- Where one piece of a path leads from a place in the tree. -/
def posixStep (place : List Text) (c : Text) : List Text :=
  if c = [] ∨ c = text "." then place
  else if c = text ".." then place.dropLast
  else place ++ [c]

def posixWalk (place : List Text) (pieces : List Text) : List Text := pieces.foldl posixStep place

theorem posixStep_normal {c : Text} (hc : NormalName c) (place : List Text) : posixStep place c = place ++ [c] := by
  rw [posixStep, if_neg, if_neg hc.notDotDot]
  rintro (hnil | hdot)
  · exact hc.nonempty hnil
  · exact hc.notDot hdot

/-- Normal components lead down, one after the other. -/
theorem posixWalk_normal {cs : List Text} (h : ∀ c ∈ cs, NormalName c) (place : List Text) :
    posixWalk place cs = place ++ cs := by
  induction cs generalizing place with
  | nil => exact (List.append_nil place).symm
  | cons c cs ih =>
    have hstep := posixStep_normal (h c List.mem_cons_self) place
    calc posixWalk place (c :: cs) = posixWalk (posixStep place c) cs := rfl
      _ = posixWalk (place ++ [c]) cs := by rw [hstep]
      _ = place ++ [c] ++ cs := ih (fun d hd => h d (List.mem_cons_of_mem _ hd)) _
      _ = place ++ c :: cs := by rw [List.append_assoc, List.singleton_append]

/-- Resolution finds the place that the pieces lead to. -/
theorem resolve_walk {pieces acc cs : List Text} (h : resolve pieces acc = .ok cs) : cs = posixWalk acc.reverse pieces := by
  induction pieces generalizing acc with
  | nil => exact (Except.ok.inj h).symm
  | cons c pieces ih =>
    have hwalk : posixWalk acc.reverse (c :: pieces) = posixWalk (posixStep acc.reverse c) pieces := rfl
    rw [resolve] at h
    rw [hwalk, posixStep]
    split_ifs at h with hnil hdot hdotdot hlong
    · rw [if_pos (.inl hnil)]
      exact ih h
    · rw [if_pos (.inr hdot)]
      exact ih h
    · rw [if_neg (not_or.mpr ⟨hnil, hdot⟩), if_pos hdotdot, List.dropLast_reverse]
      exact ih h
    · rw [if_neg (not_or.mpr ⟨hnil, hdot⟩), if_neg hdotdot, ← List.reverse_cons]
      exact ih h

/-- A path splits into the components of the place that it leads to. They are names, all of their prefixes lead
down from any directory, and the path that they are joined to splits into the same components. -/
theorem split_path_confines {s : Text} {cs : List Text} (h : splitPath s = .ok cs) :
    (∀ c ∈ cs, c ≠ [] ∧ c ≠ text "." ∧ c ≠ text ".." ∧ slash ∉ c) ∧ cs = posixWalk [] (splitOn slash s) ∧
      (∀ root p, p <+: cs → root <+: posixWalk root p) ∧ splitPath (joinRel cs) = .ok cs := by
  have hnames : ∀ c ∈ cs, NormalName c := fun c hc => (splitPath_ok h c hc).1
  refine ⟨fun c hc => ?_, ?_, fun root p hp => ?_, splitPath_joinRel hnames⟩
  · have hc := hnames c hc
    exact ⟨hc.nonempty, hc.notDot, hc.notDotDot, hc.noSlash⟩
  · rw [splitPath] at h
    split_ifs at h
    exact resolve_walk h
  · rw [posixWalk_normal fun c hc => hnames c (hp.subset hc)]
    exact List.prefix_append root p

theorem split_path_confines_dots : splitPath (text "/a/../../b//./c/") = .ok [text "b", text "c"] ∧
    (∀ root p, p <+: [text "b", text "c"] → root <+: posixWalk root p) ∧
    splitPath (joinRel [text "b", text "c"]) = .ok [text "b", text "c"] := by
  have hsplit : splitPath (text "/a/../../b//./c/") = .ok [text "b", text "c"] := by rfl
  obtain ⟨-, -, hdown, hagain⟩ := split_path_confines hsplit
  exact ⟨hsplit, hdown, hagain⟩

end HouseKernel.FileSystem
