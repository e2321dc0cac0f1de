import HouseKernel.Console.LineEditor

/-! What the tab key makes of the word before the cursor. -/
namespace HouseKernel.Console

open HouseKernel.Lib

variable {q a b c s : Text} {cands : List Text}

theorem commonPrefix_left (a b : Text) : commonPrefix a b <+: a := by
  induction a generalizing b with
  | nil => simp [commonPrefix]
  | cons x a ih =>
    cases b with
    | nil => simp [commonPrefix]
    | cons y b =>
      rw [commonPrefix]
      split_ifs
      · exact List.prefix_cons_inj x |>.mpr (ih b)
      · exact List.nil_prefix

theorem commonPrefix_comm (a b : Text) : commonPrefix a b = commonPrefix b a := by
  induction a generalizing b with
  | nil => cases b <;> rfl
  | cons x a ih =>
    cases b with
    | nil => rfl
    | cons y b =>
      rw [commonPrefix, commonPrefix]
      split_ifs with h h' h'
      · rw [h, ih b]
      · exact absurd h.symm h'
      · exact absurd h'.symm h
      · rfl

theorem prefix_commonPrefix (ha : q <+: a) (hb : q <+: b) : q <+: commonPrefix a b := by
  induction q generalizing a b with
  | nil => exact List.nil_prefix
  | cons x q ih =>
    obtain ⟨a, rfl⟩ := ha
    obtain ⟨b, rfl⟩ := hb
    rw [List.cons_append, List.cons_append, commonPrefix, if_pos rfl]
    exact List.prefix_cons_inj x |>.mpr (ih (List.prefix_append q a) (List.prefix_append q b))

theorem foldl_commonPrefix_left (c : Text) (cands : List Text) : cands.foldl commonPrefix c <+: c := by
  induction cands generalizing c with
  | nil => exact List.prefix_rfl
  | cons d cands ih => exact (ih _).trans (commonPrefix_left c d)

/-- The common prefix of a list of names is one of each of them, and no longer text is. -/
theorem foldl_commonPrefix_longest (c : Text) (cands : List Text) : (∀ n ∈ c :: cands, cands.foldl commonPrefix c <+: n) ∧
    ∀ q, (∀ n ∈ c :: cands, q <+: n) → q <+: cands.foldl commonPrefix c := by
  induction cands generalizing c with
  | nil => exact ⟨fun n hn => by simp at hn; simp [hn], fun q hq => hq c List.mem_cons_self⟩
  | cons d cands ih =>
    obtain ⟨hall, hlongest⟩ := ih (commonPrefix c d)
    have hfirst := hall _ List.mem_cons_self
    refine ⟨fun n hn => ?_, fun q hq => hlongest q fun n hn => ?_⟩
    · obtain rfl | hn := List.mem_cons.mp hn
      · exact hfirst.trans (commonPrefix_left _ d)
      · obtain rfl | hn := List.mem_cons.mp hn
        · exact hfirst.trans (commonPrefix_comm c _ ▸ commonPrefix_left _ c)
        · exact hall n (List.mem_cons_of_mem _ hn)
    · obtain rfl | hn := List.mem_cons.mp hn
      · exact prefix_commonPrefix (hq c List.mem_cons_self) (hq d (List.mem_cons_of_mem c List.mem_cons_self))
      · exact hq n (List.mem_cons_of_mem c (List.mem_cons_of_mem d hn))

/-- The word that ends at the cursor: what follows the last space. -/
def lastWord (before : Text) : Text := (before.reverse.takeWhile (· ≠ ascii ' ')).reverse

theorem reverse_takeWhile_suffix (p : CodePoint → Bool) (s : Text) : (s.reverse.takeWhile p).reverse <:+ s := by
  have h := List.takeWhile_prefix p (l := s.reverse)
  rw [← List.reverse_suffix] at h
  simpa using h

theorem splitWord_suffix (w : Text) : (splitWord w).2 <:+ w := by
  rw [splitWord]
  split_ifs
  · exact reverse_takeWhile_suffix _ w
  · exact List.suffix_rfl

/-- The text before the cursor keeps everything up to the last `/` or space, and what follows becomes the longest text
that all the names start with that start with it. -/
theorem completeWord_longest {fs : Listing} {names : List Text} (hls : fs.ls (splitWord (lastWord s)).1 = some names)
    (hmany : 2 ≤ (names.filter ((splitWord (lastWord s)).2.isPrefixOf ·)).length) :
    ∃ stem l, s = stem ++ (splitWord (lastWord s)).2 ∧ completeWord fs s = stem ++ l ∧
      (∀ n ∈ names, (splitWord (lastWord s)).2 <+: n → l <+: n) ∧
      ∀ q, (∀ n ∈ names, (splitWord (lastWord s)).2 <+: n → q <+: n) → q <+: l := by
  obtain ⟨stem, hstem⟩ := (splitWord_suffix (lastWord s)).trans (reverse_takeWhile_suffix _ s)
  generalize hw : splitWord (lastWord s) = w at *
  obtain ⟨dir, pref⟩ := w
  have hcands : ∀ n, n ∈ names.filter (pref.isPrefixOf ·) ↔ n ∈ names ∧ pref <+: n := by simp
  match hfilter : names.filter (pref.isPrefixOf ·), hmany with
  | c :: d :: cands, _ =>
    obtain ⟨hall, hlongest⟩ := foldl_commonPrefix_longest c (d :: cands)
    rw [hfilter] at hcands
    have hpref : pref <+: (d :: cands).foldl commonPrefix c := hlongest pref fun n hn => ((hcands n).mp hn).2
    refine ⟨stem, (d :: cands).foldl commonPrefix c, hstem.symm, ?_, fun n hn hp => hall n ((hcands n).mpr ⟨hn, hp⟩),
      fun q hq => hlongest q fun n hn => hq n ((hcands n).mp hn).1 ((hcands n).mp hn).2⟩
    have hcomplete : completeWord fs s = s ++ ((d :: cands).foldl commonPrefix c).drop pref.length := by
      unfold completeWord
      rw [← lastWord]
      dsimp only
      rw [hw]
      dsimp only
      rw [hls]
      dsimp only
      rw [hfilter]
    obtain ⟨ext, hext⟩ := hpref
    rw [hcomplete, ← hext, List.drop_left, ← hstem, List.append_assoc]

/-- Two names that start alike. -/
def twoNames : Listing := ⟨fun _ => some [text "hostname", text "hosts", text "motd"], fun _ => false⟩

theorem completeWord_longest_sample : ∃ stem l, text "cat /etc/ho" = stem ++ text "ho" ∧
    completeWord twoNames (text "cat /etc/ho") = stem ++ l ∧
      (∀ n ∈ [text "hostname", text "hosts", text "motd"], text "ho" <+: n → l <+: n) ∧
      ∀ q, (∀ n ∈ [text "hostname", text "hosts", text "motd"], text "ho" <+: n → q <+: n) → q <+: l := by
  have hls : twoNames.ls (splitWord (lastWord (text "cat /etc/ho"))).1 = some [text "hostname", text "hosts", text "motd"] := rfl
  exact completeWord_longest hls (by decide)

end HouseKernel.Console
