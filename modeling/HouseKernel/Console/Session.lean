import HouseKernel.Console.Screen
import HouseKernel.Console.Serial

/-! A line from the serial port to the shell: what is typed at any pace is read, shown and remembered. -/
namespace HouseKernel.Console

open HouseKernel.Lib HouseKernel.Lib.Terminal

variable {line prompt : Text} {history : List Text} {keys : List (KeyPress × Listing)} {octets : List (ℕ × CodePoint)}
  {c : CodePoint} {e : Edit}

theorem Shown.ne {d : CodePoint} (h : Shown c) (hd : d.val < 0x20 ∨ 0x7e < d.val) : c ≠ d := by
  rintro rfl
  obtain ⟨hlow, hhigh⟩ := h
  omega

theorem charToKeyPress_shown (h : Shown c) : charToKeyPress c = press (.key c) := by
  have hcontrol : ¬ (c.val = 0x7f ∨ c.val = 0x08) := by
    obtain ⟨hlow, hhigh⟩ := h
    omega
  rw [charToKeyPress, if_neg (not_or_intro (h.ne (by decide)) (h.ne (by decide))), if_neg hcontrol, if_neg (h.ne (by decide)),
    if_neg (h.ne (by decide))]

theorem typed_octets (hline : ShownText line) (htyped : octets.map Prod.snd = line ++ [ascii '\r']) :
    Typed (line.map (fun c => press (.key c)) ++ [press .returnKey]) (paced octets) := by
  induction line generalizing octets with
  | nil =>
    obtain ⟨⟨n, c⟩, rfl, hc⟩ := List.map_eq_singleton_iff.mp htyped
    obtain rfl : c = ascii '\r' := hc
    simpa [paced, charToKeyPress, pause] using Typed.plain (c := ascii '\r') n (by decide) (Typed.done 0)
  | cons c line ih =>
    obtain ⟨⟨n, d⟩, rest, rfl, hd, hrest⟩ := List.map_eq_cons_iff.mp htyped
    obtain rfl : d = c := hd
    have hshown := hline d List.mem_cons_self
    have hnext := ih (fun a ha => hline a (List.mem_cons_of_mem d ha)) hrest
    rw [List.map_cons, List.cons_append, ← charToKeyPress_shown hshown]
    simpa [paced] using Typed.plain n (hshown.ne (by decide)) hnext

/-- Meanwhile the line is what was typed so far. -/
theorem glAll_typing (hafter : e.after = []) {ks : List (KeyPress × Listing)} (hks : ks <+: keys)
    (hkeys : keys.map Prod.fst = line.map (fun c => press (.key c)) ++ [press .returnKey]) :
    (glAll prompt e ks).2.text <+: e.before ++ line := by
  induction line generalizing e ks keys with
  | nil =>
    obtain ⟨⟨k, fs⟩, rfl, hk⟩ := List.map_eq_singleton_iff.mp hkeys
    obtain rfl : k = press .returnKey := hk
    obtain rfl | ⟨ks, rfl, -⟩ := List.prefix_cons_iff.mp hks
    · simp [glAll, Turn.text, hafter]
    · change e.before ++ e.after <+: e.before ++ []
      rw [hafter]
  | cons c line ih =>
    obtain ⟨⟨k, fs⟩, rest, rfl, hk, hrest⟩ := List.map_eq_cons_iff.mp hkeys
    obtain rfl : k = press (.key c) := hk
    obtain rfl | ⟨ks, rfl, htail⟩ := List.prefix_cons_iff.mp hks
    · simp [glAll, Turn.text, hafter]
    · have htranslate : translateKey (press (.key c)) = .char c := by simp [translateKey, press]
      have hnext := ih (e := { e with before := e.before ++ [c], after := [] }) rfl htail hrest
      rw [glAll, htranslate, gl, if_pos hafter]
      simpa using hnext

/-- Characters that are typed behind the line go to its end, and the return key accepts it. -/
theorem glAll_typed (hafter : e.after = [])
    (hkeys : keys.map Prod.fst = line.map (fun c => press (.key c)) ++ [press .returnKey]) :
    (glAll prompt e keys).2 = .line (e.before ++ line) := by
  induction line generalizing e keys with
  | nil =>
    obtain ⟨⟨k, fs⟩, rfl, hk⟩ := List.map_eq_singleton_iff.mp hkeys
    obtain rfl : k = press .returnKey := hk
    change Turn.line (e.before ++ e.after) = _
    rw [hafter]
  | cons c line ih =>
    obtain ⟨⟨k, fs⟩, rest, rfl, hk, hrest⟩ := List.map_eq_cons_iff.mp hkeys
    obtain rfl : k = press (.key c) := hk
    have htranslate : translateKey (press (.key c)) = .char c := by simp [translateKey, press]
    have hnext := ih (e := { e with before := e.before ++ [c], after := [] }) rfl hrest
    rw [glAll, htranslate, gl, if_pos hafter]
    dsimp only
    rw [hnext, List.append_assoc]
    rfl

/-- A line of printable characters that is typed at the serial port, with any pauses between the octets and whatever the
file system holds meanwhile, is the line that the shell reads and remembers; and the terminal shows it behind the
prompt, if both fit in a row. -/
theorem typed_line {scr : Screen} (hline : ShownText line) (htyped : octets.map Prod.snd = line ++ [ascii '\r'])
    (hkeys : keys.map Prod.fst = (Rx.idle.pollAll (paced octets)).1) (hprompt : ShownText prompt) (hlen : prompt.length < 4096)
    (hhistory : ∀ l ∈ history, ShownText l) (hfit : Fits scr prompt line) (hscr : Shows scr [] []) :
    (getLine prompt history keys).2 = (.line line, remember line history) ∧
      Accepted (scr.feedAll (serial (getLine prompt history keys).1)) prompt line := by
  rw [(typed_octets hline htyped).pollAll] at hkeys
  have hturn : (glAll prompt ⟨[], [], [], history⟩ keys).2 = .line line := glAll_typed rfl hkeys
  have hread : (getLine prompt history keys).2 = (.line line, remember line history) := by
    simp only [getLine, hturn]
  refine ⟨hread, ?_⟩
  have hshown : ∀ k ∈ keys, KeyShown k := by
    intro k hk
    have hmem : k.1 ∈ keys.map Prod.fst := List.mem_map_of_mem hk
    rw [hkeys] at hmem
    obtain hmem | hmem := List.mem_append.mp hmem
    · obtain ⟨d, hd, hdk⟩ := List.mem_map.mp hmem
      have hcmd : translateKey k.1 = .char d := by rw [← hdk]; simp [translateKey, press]
      refine ⟨fun c hc => ?_, fun hc => ?_⟩
      · exact LineCmd.char.inj (hcmd.symm.trans hc) ▸ hline d hd
      · cases hcmd.symm.trans hc
    · have hcmd : translateKey k.1 = .accept := by rw [List.mem_singleton.mp hmem]; simp [translateKey, press]
      refine ⟨fun c hc => ?_, fun hc => ?_⟩
      · cases hcmd.symm.trans hc
      · cases hcmd.symm.trans hc
  have hnil : ShownText [] := fun c hc => absurd hc List.not_mem_nil
  have hedit : (Edit.mk [] [] [] history).Shown := ⟨hnil, hnil, fun l hl => absurd hl List.not_mem_nil, hhistory⟩
  have hempty : Fits scr prompt [] := by
    rw [Fits] at hfit ⊢
    rw [List.length_nil]
    omega
  have hfits : ∀ ks, ks <+: keys →
      Fits (scr.feedAll (serial (greeting prompt))) prompt (glAll prompt ⟨[], [], [], history⟩ ks).2.text := by
    intro ks hks
    have htyping : (glAll prompt ⟨[], [], [], history⟩ ks).2.text <+: [] ++ line := glAll_typing rfl hks hkeys
    have hle := htyping.length_le
    rw [Fits] at hfit ⊢
    rw [feedAll_width]
    simp only [List.nil_append] at hle
    omega
  have hscreen := glAll_displays hprompt hshown hedit hfits (greeting_shows hprompt hlen hempty hscr)
  rw [hturn] at hscreen
  rw [getLine, serial_append, feedAll_append]
  exact hscreen

/-- `ls` with a pause before each of its octets. -/
def sampleOctets : List (ℕ × CodePoint) := [(3, ascii 'l'), (9, ascii 's'), (0, ascii '\r')]

def sampleTyped : List (KeyPress × Listing) := ((Rx.idle.pollAll (paced sampleOctets)).1).map fun k => (k, noFiles)

theorem typed_line_sample : (getLine (text "> ") [text "cat"] sampleTyped).2 = (.line (text "ls"), [text "ls", text "cat"]) ∧
    Accepted ((Screen.empty consoleWidth).feedAll (serial (getLine (text "> ") [text "cat"] sampleTyped).1)) (text "> ") (text "ls") := by
  have htyped : sampleOctets.map Prod.snd = text "ls" ++ [ascii '\r'] := by decide
  refine typed_line (by decide) htyped ?_ (by decide) (by decide) (by decide) (by decide) (shows_empty _)
  simp [sampleTyped, Function.comp_def]

end HouseKernel.Console
