import HouseKernel.Lib.Text

/-! Paths of the file systems: lists of components, and their textual form. -/
namespace HouseKernel.FileSystem

open HouseKernel.Lib

inductive FsError where
  | enoent
  | eexist
  | enotdir
  | eisdir
  | enospc
  | einval (what : String)
  deriving DecidableEq, Repr

/-- `'/'` -/
def slash : CodePoint := ⟨47, by decide⟩

def maxNameLen : ℕ := 255

/-- Resolve the pieces of a path against the components that stand before them, last first:
`..` does not leave the root. -/
def resolve : List Text → List Text → Except FsError (List Text)
  | [], acc => .ok acc.reverse
  | c :: cs, acc =>
    if c = [] then resolve cs acc
    else if c = text "." then resolve cs acc
    else if c = text ".." then resolve cs acc.tail
    else if maxNameLen < c.length then .error (.einval "name too long")
    else resolve cs (c :: acc)

/-- The normal components of a path. -/
def splitPath (s : Text) : Except FsError (List Text) :=
  if s = [] then .error (.einval "empty path") else resolve (splitOn slash s) []

def joinWith (sep : Text) : List Text → Text
  | [] => []
  | [x] => x
  | x :: y :: xs => x ++ sep ++ joinWith sep (y :: xs)

/-- Components as an absolute path. -/
def joinRel (cs : List Text) : Text :=
  if cs = [] then [slash] else slash :: joinWith [slash] cs

/-- A component that stands for itself in a path. -/
structure NormalName (c : Text) : Prop where
  nonempty : c ≠ []
  noSlash : slash ∉ c
  notDot : c ≠ text "."
  notDotDot : c ≠ text ".."
  length : c.length ≤ maxNameLen

theorem resolve_normal {cs : List Text} (h : ∀ c ∈ cs, NormalName c) (acc : List Text) :
    resolve cs acc = .ok (acc.reverse ++ cs) := by
  induction cs generalizing acc with
  | nil => simp [resolve]
  | cons c cs ih =>
    have hc := h c List.mem_cons_self
    rw [resolve, if_neg hc.nonempty, if_neg hc.notDot, if_neg hc.notDotDot, if_neg (Nat.not_lt.mpr hc.length),
      ih fun d hd => h d (List.mem_cons_of_mem _ hd)]
    simp

/-- Resolution returns normal components, of the pieces and of what stood before them. -/
theorem resolve_ok {pieces acc cs : List Text} (hp : ∀ c ∈ pieces, slash ∉ c) (hacc : ∀ c ∈ acc, NormalName c)
    (h : resolve pieces acc = .ok cs) : ∀ c ∈ cs, NormalName c ∧ (c ∈ pieces ∨ c ∈ acc) := by
  induction pieces generalizing acc with
  | nil =>
    obtain rfl : acc.reverse = cs := Except.ok.inj h
    intro c hc
    have hmem := List.mem_reverse.mp hc
    exact ⟨hacc c hmem, .inr hmem⟩
  | cons p pieces ih =>
    have hrest : ∀ c ∈ pieces, slash ∉ c := fun c hc => hp c (List.mem_cons_of_mem _ hc)
    rw [resolve] at h
    split_ifs at h with hnil hdot hdotdot hlong
    · intro c hc
      obtain ⟨hn, hm⟩ := ih hrest hacc h c hc
      exact ⟨hn, hm.imp_left (List.mem_cons_of_mem _)⟩
    · intro c hc
      obtain ⟨hn, hm⟩ := ih hrest hacc h c hc
      exact ⟨hn, hm.imp_left (List.mem_cons_of_mem _)⟩
    · intro c hc
      obtain ⟨hn, hm⟩ := ih hrest (fun d hd => hacc d (List.mem_of_mem_tail hd)) h c hc
      exact ⟨hn, hm.imp (List.mem_cons_of_mem _) List.mem_of_mem_tail⟩
    · have hpn : NormalName p := ⟨hnil, hp p List.mem_cons_self, hdot, hdotdot, Nat.not_lt.mp hlong⟩
      intro c hc
      have hacc' : ∀ d ∈ p :: acc, NormalName d := by
        intro d hd
        obtain rfl | hd := List.mem_cons.mp hd
        · exact hpn
        · exact hacc d hd
      obtain ⟨hn, hm⟩ := ih hrest hacc' h c hc
      refine ⟨hn, ?_⟩
      obtain hm | hm := hm
      · exact .inl (List.mem_cons_of_mem _ hm)
      · obtain rfl | hm := List.mem_cons.mp hm
        · exact .inl List.mem_cons_self
        · exact .inr hm

/-- The components of a path are normal, and made of its characters. -/
theorem splitPath_ok {p : Text} {cs : List Text} (h : splitPath p = .ok cs) :
    ∀ c ∈ cs, NormalName c ∧ c ⊆ p := by
  rw [splitPath] at h
  split_ifs at h
  intro c hc
  obtain ⟨hn, hm | hm⟩ := resolve_ok (fun d hd => (mem_splitOn hd).1) (by simp) h c hc
  · exact ⟨hn, (mem_splitOn hm).2⟩
  · cases hm

lemma splitOn_joinWith {cs : List Text} (hne : cs ≠ []) (h : ∀ c ∈ cs, slash ∉ c) :
    splitOn slash (joinWith [slash] cs) = cs := by
  induction cs with
  | nil => exact absurd rfl hne
  | cons c cs ih =>
    cases cs with
    | nil => exact splitOn_of_notMem (h c List.mem_cons_self)
    | cons d cs =>
      rw [joinWith, List.append_assoc, List.singleton_append, splitOn_append (h c List.mem_cons_self),
        ih (by simp) fun e he => h e (List.mem_cons_of_mem _ he)]

/-- Normal components are what their path splits into. -/
theorem splitPath_joinRel {cs : List Text} (h : ∀ c ∈ cs, NormalName c) : splitPath (joinRel cs) = .ok cs := by
  rw [joinRel]
  split_ifs with hnil
  · rw [hnil]
    rfl
  · rw [splitPath, if_neg (by simp), splitOn_cons_self, splitOn_joinWith hnil fun c hc => (h c hc).noSlash, resolve,
      if_pos rfl, resolve_normal h]
    rfl

/-- A path has no characters but those of its components and the slash. -/
theorem mem_joinRel {cs : List Text} {x : CodePoint} (h : x ∈ joinRel cs) : x = slash ∨ ∃ c ∈ cs, x ∈ c := by
  have hjoin : ∀ cs : List Text, x ∈ joinWith [slash] cs → x = slash ∨ ∃ c ∈ cs, x ∈ c := by
    intro cs
    induction cs with
    | nil => simp [joinWith]
    | cons c cs ih =>
      cases cs with
      | nil => exact fun hx => .inr ⟨c, List.mem_cons_self, hx⟩
      | cons d cs =>
        intro hx
        rw [joinWith, List.append_assoc, List.mem_append, List.singleton_append, List.mem_cons] at hx
        obtain hx | rfl | hx := hx
        · exact .inr ⟨c, List.mem_cons_self, hx⟩
        · exact .inl rfl
        · exact (ih hx).imp_right fun ⟨e, he, hxe⟩ => ⟨e, List.mem_cons_of_mem _ he, hxe⟩
  rw [joinRel] at h
  split_ifs at h
  · exact .inl (List.mem_singleton.mp h)
  · obtain rfl | h := List.mem_cons.mp h
    · exact .inl rfl
    · exact hjoin cs h

end HouseKernel.FileSystem
