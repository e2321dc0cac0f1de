import HouseKernel.Console.Completion
import HouseKernel.Lib.Terminal

/-! What a terminal shows while the line editor runs: the prompt and the line, with the cursor where the editor has it.
The editor goes back by one cell for each character of the line, which backspaces do within a row only; so the prompt and
the line have to fit in a row, with the cursor behind them. -/
namespace HouseKernel.Console

open HouseKernel.Lib HouseKernel.Lib.Terminal

/-- A character that takes one cell of the terminal. -/
def Shown (c : CodePoint) : Prop := 0x20 ≤ c.val ∧ c.val ≤ 0x7e

instance (c : CodePoint) : Decidable (Shown c) := inferInstanceAs (Decidable (_ ∧ _))

def ShownText (s : Text) : Prop := ∀ c ∈ s, Shown c

instance (s : Text) : Decidable (ShownText s) :=
  decidable_of_iff ((s.all fun c => decide (Shown c)) = true) (by simp [ShownText])

structure Edit.Shown (e : Edit) : Prop where
  before : ShownText e.before
  after : ShownText e.after
  fut : ∀ l ∈ e.fut, ShownText l
  past : ∀ l ∈ e.past, ShownText l

/-- The width that the driver gives the console. -/
def consoleWidth : ℕ := 80

/-- The prompt, the line and the cursor end before the last column of the terminal. -/
def Fits (scr : Screen) (prompt line : Text) : Prop := prompt.length + line.length + 1 < scr.width

instance (scr : Screen) (prompt line : Text) : Decidable (Fits scr prompt line) := inferInstanceAs (Decidable (_ < _))

def Listing.Shown (fs : Listing) : Prop := ∀ d names, fs.ls d = some names → ∀ n ∈ names, ShownText n

/-- A key that types a character types one that can be shown. -/
def LineCmd.Shown (cmd : LineCmd) : Prop := ∀ c, cmd = .char c → Console.Shown c

variable {c : CodePoint} {s t prompt : Text} {e e' : Edit} {fs : Listing} {cmd : LineCmd} {out : List ConsoleCommand} {scr : Screen}

theorem ShownText.append (hs : ShownText s) (ht : ShownText t) : ShownText (s ++ t) := fun c hc =>
  (List.mem_append.mp hc).elim (hs c) (ht c)

theorem ShownText.of_append (h : ShownText (s ++ t)) : ShownText s ∧ ShownText t :=
  ⟨fun c hc => h c (List.mem_append_left t hc), fun c hc => h c (List.mem_append_right s hc)⟩

theorem ShownText.sublist (h : ShownText t) (hst : s.Sublist t) : ShownText s := fun c hc => h c (hst.subset hc)

theorem Shown.printable (h : Shown c) : Printable (toByte c) := by
  obtain ⟨hlow, hhigh⟩ := h
  rw [Printable, toNat_toByte]
  omega

theorem ShownText.printable (h : ShownText s) : ∀ b ∈ s.map toByte, Printable b := by
  intro b hb
  obtain ⟨c, hc, rfl⟩ := List.mem_map.mp hb
  exact (h c hc).printable

theorem uartPutc_printable {b : BitVec 8} (h : Printable b) : uartPutc b = [b] := by
  refine if_neg ?_
  rintro rfl
  exact absurd h (by decide)

theorem uartPuts_printable {bs : Octets} (h : ∀ b ∈ bs, Printable b) (hlen : bs.length ≤ 4096) : uartPuts bs = bs := by
  have hne : ∀ b ∈ bs, decide (b ≠ 0) = true := by
    intro b hb
    refine decide_eq_true ?_
    rintro rfl
    exact absurd (h 0 hb) (by decide)
  have hwhile : bs.takeWhile (· ≠ 0) = bs := by
    have hall := @List.takeWhile_append_of_pos _ _ bs [] hne
    simpa using hall
  rw [uartPuts, hwhile, List.take_of_length_le hlen]
  clear hlen hne hwhile
  induction bs with
  | nil => rfl
  | cons b bs ih =>
    rw [List.flatMap_cons, uartPutc_printable (h b List.mem_cons_self), ih fun c hc => h c (List.mem_cons_of_mem b hc)]
    rfl

theorem dispatch_putc (h : Shown c) : dispatch (putc c) = [toByte c] := by
  have hne : c ≠ ascii '\n' := by
    rintro rfl
    exact absurd h (by decide)
  rw [putc, if_neg hne]
  exact uartPutc_printable h.printable

theorem serial_putString (h : ShownText s) : serial (putString s) = s.map toByte := by
  induction s with
  | nil => rfl
  | cons c s ih =>
    rw [List.map_cons, ← ih fun d hd => h d (List.mem_cons_of_mem c hd)]
    change dispatch (putc c) ++ serial (putString s) = _
    rw [dispatch_putc (h c List.mem_cons_self)]
    rfl

theorem serial_clearEOL : serial [.clearEOL] = eraseLine := by decide

theorem serial_clearScreen : serial [.clearScreen] = eraseAll := by decide

theorem serial_moveCursorBackward (n : ℕ) : serial [.moveCursorBackward n] = List.replicate n 0x08 := by
  have hput : uartPutc 0x08 = [0x08] := by decide
  induction n with
  | zero => rfl
  | succ n ih =>
    simp only [serial, dispatch, List.flatMap_cons, List.flatMap_nil, List.append_nil] at ih ⊢
    rw [List.replicate_succ, List.flatMap_cons, hput, ih]
    rfl

theorem serial_inverse (h : Shown c) : serial [.putChar inverseVideo c] = [toByte c] := by
  change uartPutc (toByte c) ++ [] = _
  rw [uartPutc_printable h.printable]
  rfl

/-- The last cells that are written, the rest of the row erased and the cursor put back in front of them. -/
theorem tail_shows {l r : Octets} (h : Typing scr l) (hr : ∀ b ∈ r, Printable b) (hfit : l.length + r.length < scr.width) :
    Shows (scr.feedAll (r ++ eraseLine ++ List.replicate r.length 0x08)) l r := by
  rw [feedAll_append, feedAll_append]
  have hshows : Shows ((scr.feedAll r).feedAll eraseLine) (l ++ r) [] := ((h.feedAll hr hfit).1.erase).1
  simpa using hshows.back

theorem shows_blank {l : Octets} (h : Shows scr l [blank]) : Shows scr l [] :=
  ⟨h.ground, h.col, by simpa using (reads_append_blank 1).mp h.reads, h.fresh⟩

theorem tail_blank_shows {l : Octets} (h : Typing scr l) (hfit : l.length + 1 < scr.width) :
    Shows (scr.feedAll ([blank] ++ eraseLine ++ [0x08])) l [] :=
  shows_blank (tail_shows h (by decide) hfit)

theorem redraw_shows {p : Octets} {ob nb na : Text} (h : Typing scr (p ++ ob.map toByte)) (hnb : ShownText nb)
    (hna : ShownText na) (hfit : p.length + (nb ++ na).length + 1 < scr.width) :
    Shows (scr.feedAll (serial (redraw ob nb na))) (p ++ nb.map toByte) (na.map toByte) := by
  have hback : serial (if ob = [] then [] else [.moveCursorBackward ob.length]) = List.replicate (ob.map toByte).length 0x08 := by
    split_ifs with hob
    · rw [hob]
      rfl
    · rw [serial_moveCursorBackward, List.length_map]
  unfold redraw
  rw [serial_append, serial_append, hback, serial_putString hnb, feedAll_append, feedAll_append]
  rw [List.length_append] at hfit
  have hty := (h.back.feedAll hnb.printable (by simp; omega)).1
  match na, hna, hfit with
  | [], _, hfit =>
    refine tail_blank_shows hty ?_
    simp only [feedAll_width, List.length_append, List.length_map]
    exact hfit
  | c :: cs, hna, hfit =>
    have hser : serial (.putChar inverseVideo c :: putString cs ++ [.clearEOL, .moveCursorBackward (c :: cs).length]) =
        (c :: cs).map toByte ++ eraseLine ++ List.replicate ((c :: cs).map toByte).length 0x08 := by
      change serial ([.putChar inverseVideo c] ++ putString cs ++ ([.clearEOL] ++ [.moveCursorBackward (c :: cs).length])) = _
      rw [serial_append, serial_append, serial_append, serial_inverse (hna c List.mem_cons_self), serial_clearEOL,
        serial_putString fun d hd => hna d (List.mem_cons_of_mem c hd), serial_moveCursorBackward, List.length_map]
      simp
    rw [hser]
    refine tail_shows hty hna.printable ?_
    simp only [feedAll_width, List.length_append, List.length_map]
    omega

theorem completeWord_shown (hfs : fs.Shown) (hs : ShownText s) : ShownText (completeWord fs s) := by
  unfold completeWord
  dsimp only
  split
  · exact hs
  · rename_i names hls
    have hmem : ∀ n ∈ names, ShownText n := hfs _ names hls
    split
    · exact hs
    · rename_i one hone
      have hshown : ShownText one := hmem one (List.mem_of_mem_filter (hone ▸ List.mem_singleton_self one))
      refine hs.append (ShownText.sublist ?_ (List.drop_sublist _ _))
      split_ifs
      · exact hshown.append (by decide)
      · exact hshown
    · rename_i c cands _ hc
      have hshown : ShownText c := hmem c (List.mem_of_mem_filter (hc ▸ List.mem_cons_self))
      exact hs.append (hshown.sublist ((List.drop_sublist _ _).trans (foldl_commonPrefix_left c cands).sublist))

/-- The ways a turn goes on: nothing is drawn, the line is drawn again, a character is put behind the line, or the
screen is cleared under it. -/
inductive Draws (prompt : Text) (e : Edit) : List ConsoleCommand → Edit → Prop
  | same : Draws prompt e [] e
  | redrawn (e' : Edit) : Draws prompt e (redraw e.before e'.before e'.after) e'
  | typed (c : CodePoint) (hc : Shown c) (hafter : e.after = []) :
    Draws prompt e [putc c, .putChar inverseVideo (ascii ' '), .clearEOL, .moveCursorBackward 1]
      { e with before := e.before ++ [c], after := [] }
  | cleared : Draws prompt e ([.clearScreen] ++ putString prompt ++ redraw [] e.before e.after) e

theorem Edit.redrawTo_draws {b a : Text} (h : e.redrawTo b a = (out, .again e')) (he : e.Shown) (hb : ShownText b) (ha : ShownText a) :
    e'.Shown ∧ Draws prompt e out e' := by
  obtain ⟨rfl, rfl⟩ : redraw e.before b a = out ∧ { e with before := b, after := a } = e' := by
    simpa [Edit.redrawTo] using h
  exact ⟨⟨hb, ha, he.fut, he.past⟩, .redrawn { e with before := b, after := a }⟩

theorem gl_again (h : gl prompt fs e cmd = (out, .again e')) (he : e.Shown) (hfs : cmd = .complete → fs.Shown) (hcmd : cmd.Shown) :
    e'.Shown ∧ Draws prompt e out e' := by
  have hsame : (([], .again e) : List ConsoleCommand × Turn) = (out, .again e') → e'.Shown ∧ Draws prompt e out e' := by
    rintro ⟨⟩
    exact ⟨he, .same⟩
  have hnil : ShownText [] := fun c hc => absurd hc List.not_mem_nil
  have hinit : ShownText e.before.dropLast := he.before.sublist (List.dropLast_sublist _)
  match cmd, h with
  | .char c, h =>
    have hc : Shown c := hcmd c rfl
    have hone : ShownText [c] := fun d hd => List.mem_singleton.mp hd ▸ hc
    rw [gl] at h
    split_ifs at h with hafter
    · obtain ⟨rfl, rfl⟩ := Prod.mk.inj h |>.imp_right Turn.again.inj
      exact ⟨⟨he.before.append hone, hnil, he.fut, he.past⟩, .typed c hc hafter⟩
    · exact Edit.redrawTo_draws h he (he.before.append hone) he.after
  | .delete .previous, h =>
    rw [gl] at h
    split_ifs at h
    · exact hsame h
    · exact Edit.redrawTo_draws h he hinit he.after
  | .delete .begin, h =>
    rw [gl] at h
    split_ifs at h
    · exact hsame h
    · exact Edit.redrawTo_draws h he hnil he.after
  | .delete .next, h =>
    rw [gl] at h
    split at h
    · exact hsame h
    · rename_i c cs hafter
      exact Edit.redrawTo_draws h he he.before (he.after.sublist (hafter ▸ List.sublist_cons_self c cs))
  | .delete .end, h =>
    rw [gl] at h
    split_ifs at h
    · exact hsame h
    · exact Edit.redrawTo_draws h he he.before hnil
  | .move .previous, h =>
    rw [gl] at h
    split at h
    · exact hsame h
    · rename_i c hlast
      refine Edit.redrawTo_draws h he hinit fun d hd => ?_
      obtain rfl | hd := List.mem_cons.mp hd
      · exact he.before d (List.mem_of_getLast? hlast)
      · exact he.after d hd
  | .move .begin, h =>
    rw [gl] at h
    split_ifs at h
    · exact hsame h
    · exact Edit.redrawTo_draws h he hnil (he.before.append he.after)
  | .move .next, h =>
    rw [gl] at h
    split at h
    · exact hsame h
    · rename_i c cs hafter
      have hall : ShownText ([c] ++ cs) := by
        rw [List.singleton_append, ← hafter]
        exact he.after
      exact Edit.redrawTo_draws h he (he.before.append hall.of_append.1) hall.of_append.2
  | .move .end, h =>
    rw [gl] at h
    split_ifs at h
    · exact hsame h
    · exact Edit.redrawTo_draws h he (he.before.append he.after) hnil
  | .history, h =>
    rw [gl] at h
    split at h
    · exact hsame h
    · rename_i p past hpast
      obtain ⟨rfl, rfl⟩ := Prod.mk.inj h |>.imp_right Turn.again.inj
      have hp := List.forall_mem_cons.mp (hpast ▸ he.past)
      exact ⟨⟨hp.1, hnil, List.forall_mem_cons.mpr ⟨he.before.append he.after, he.fut⟩, hp.2⟩, .redrawn ⟨p, [], _, past⟩⟩
  | .future, h =>
    rw [gl] at h
    split at h
    · exact hsame h
    · rename_i f fut hfut
      obtain ⟨rfl, rfl⟩ := Prod.mk.inj h |>.imp_right Turn.again.inj
      have hf := List.forall_mem_cons.mp (hfut ▸ he.fut)
      exact ⟨⟨hf.1, hnil, hf.2, List.forall_mem_cons.mpr ⟨he.before.append he.after, he.past⟩⟩, .redrawn ⟨f, [], fut, _⟩⟩
  | .clear, h =>
    obtain ⟨rfl, rfl⟩ := Prod.mk.inj h |>.imp_right Turn.again.inj
    exact ⟨he, .cleared⟩
  | .complete, h =>
    rw [gl] at h
    split_ifs at h
    · exact hsame h
    · exact Edit.redrawTo_draws h he (completeWord_shown (hfs rfl) he.before) he.after
  | .accept, h => exact absurd (Prod.mk.inj h).2 Turn.noConfusion
  | .noOp, h => exact hsame h

/-- The terminal shows the prompt and the line, and its cursor is the editor's. -/
def Displays (scr : Screen) (prompt : Text) (e : Edit) : Prop :=
  Shows scr ((prompt ++ e.before).map toByte) (e.after.map toByte)

theorem Draws.displays (h : Draws prompt e out e') (hp : ShownText prompt) (he : e.Shown) (he' : e'.Shown)
    (hfit : Fits scr prompt (e'.before ++ e'.after)) (hscr : Displays scr prompt e) : Displays (scr.feedAll (serial out)) prompt e' := by
  have hty : Typing scr (prompt.map toByte ++ e.before.map toByte) := by simpa [Displays] using hscr.typing
  rw [Fits] at hfit
  rw [Displays, List.map_append]
  match h with
  | .same => simpa [Displays, serial] using hscr
  | .redrawn e' => exact redraw_shows hty he'.before he'.after (by simpa using hfit)
  | .typed c hc hafter =>
    have hser : serial [putc c, .putChar inverseVideo (ascii ' '), .clearEOL, .moveCursorBackward 1] =
        [toByte c] ++ ([blank] ++ eraseLine ++ [0x08]) := by
      change dispatch (putc c) ++ serial [.putChar inverseVideo (ascii ' '), .clearEOL, .moveCursorBackward 1] = _
      rw [dispatch_putc hc]
      rfl
    rw [hser, feedAll_append]
    have hone : ∀ b ∈ [toByte c], Printable b := by simpa using hc.printable
    have htyped := hty.feedAll hone (by simp at hfit ⊢; omega)
    simpa using tail_blank_shows htyped.1 (by simp at hfit ⊢; omega)
  | .cleared =>
    have hblank := (shows_eraseAll hscr.ground).typing
    have hprompt := (hblank.feedAll hp.printable (by simp; omega)).1
    rw [serial_append, serial_append, serial_clearScreen, serial_putString hp, feedAll_append, feedAll_append]
    have hstart : Typing ((scr.feedAll eraseAll).feedAll (prompt.map toByte)) (prompt.map toByte ++ List.map toByte []) := by
      simpa using hprompt
    exact redraw_shows hstart he.before he.after (by simpa using hfit)

theorem gl_line {l : Text} (h : gl prompt fs e cmd = (out, .line l)) :
    l = e.before ++ e.after ∧ out = putString e.after ++ [.clearEOL, putc (ascii '\n'), .sync] := by
  match cmd, h with
  | .accept, h =>
    obtain ⟨rfl, hl⟩ := Prod.mk.inj h
    exact ⟨(Turn.line.inj hl).symm, rfl⟩
  | .char c, h => rw [gl] at h; split_ifs at h <;> cases h
  | .delete .previous, h => rw [gl] at h; split_ifs at h <;> cases h
  | .delete .begin, h => rw [gl] at h; split_ifs at h <;> cases h
  | .delete .next, h => rw [gl] at h; split at h <;> cases h
  | .delete .end, h => rw [gl] at h; split_ifs at h <;> cases h
  | .move .previous, h => rw [gl] at h; split at h <;> cases h
  | .move .begin, h => rw [gl] at h; split_ifs at h <;> cases h
  | .move .next, h => rw [gl] at h; split at h <;> cases h
  | .move .end, h => rw [gl] at h; split_ifs at h <;> cases h
  | .history, h => rw [gl] at h; split at h <;> cases h
  | .future, h => rw [gl] at h; split at h <;> cases h
  | .clear, h => cases h
  | .complete, h => rw [gl] at h; split_ifs at h <;> cases h
  | .noOp, h => cases h

/-- After the line is accepted the row shows the prompt and the line, and the cursor is on a fresh row. -/
def Accepted (scr : Screen) (prompt line : Text) : Prop :=
  Shows scr [] [] ∧ ∃ r, scr.row = r + 1 ∧ Reads (scr.cells r) ((prompt ++ line).map toByte)

theorem accept_shows (he : e.Shown) (hfit : Fits scr prompt (e.before ++ e.after)) (hscr : Displays scr prompt e) :
    Accepted (scr.feedAll (serial (putString e.after ++ [.clearEOL, putc (ascii '\n'), .sync]))) prompt (e.before ++ e.after) := by
  have hser : serial [.clearEOL, putc (ascii '\n'), .sync] = eraseLine ++ [0x0d, 0x0a] := by decide
  rw [serial_append, serial_putString he.after, hser, feedAll_append, feedAll_append]
  have hshows := ((hscr.typing.feedAll he.after.printable (by simp [Fits] at hfit ⊢; omega)).1.erase).1
  obtain ⟨hfresh, hrow, hreads⟩ := hshows.newline
  exact ⟨hfresh, _, hrow, by simpa using hreads⟩

/-- What the terminal shows when the loop stands where it does. -/
def Turn.Displays (scr : Screen) (prompt : Text) : Turn → Prop
  | .again e => Console.Displays scr prompt e
  | .line l => Accepted scr prompt l

/-- The line at this point of the loop. -/
def Turn.text : Turn → Text
  | .again e => e.before ++ e.after
  | .line l => l

/-- A key whose character, or the names that it completes to, take one cell a character. -/
def KeyShown (k : KeyPress × Listing) : Prop :=
  (translateKey k.1).Shown ∧ (translateKey k.1 = .complete → k.2.Shown)

theorem glAll_displays {keys : List (KeyPress × Listing)} (hp : ShownText prompt) (hkeys : ∀ k ∈ keys, KeyShown k) (he : e.Shown)
    (hfit : ∀ ks, ks <+: keys → Fits scr prompt (glAll prompt e ks).2.text) (hscr : Displays scr prompt e) :
    (glAll prompt e keys).2.Displays (scr.feedAll (serial (glAll prompt e keys).1)) prompt := by
  induction keys generalizing e scr with
  | nil => exact hscr
  | cons k keys ih =>
    obtain ⟨k, fs⟩ := k
    obtain ⟨hcmd, hfs⟩ := hkeys (k, fs) List.mem_cons_self
    have hrest : ∀ ks, ks <+: keys → Fits scr prompt (glAll prompt e ((k, fs) :: ks)).2.text := by
      intro ks hks
      exact hfit _ ((List.prefix_cons_inj _).mpr hks)
    rw [glAll]
    split
    · rename_i out l hgl
      obtain ⟨rfl, rfl⟩ := gl_line hgl
      exact accept_shows he (hfit [] List.nil_prefix) hscr
    · rename_i out e' hgl
      obtain ⟨he', hdraws⟩ := gl_again hgl he hfs hcmd
      simp only [glAll, hgl] at hrest
      rw [serial_append, feedAll_append]
      refine ih (fun k hk => hkeys k (List.mem_cons_of_mem _ hk)) he' (fun ks hks => ?_)
        (hdraws.displays hp he he' (hrest [] List.nil_prefix) hscr)
      rw [Fits, feedAll_width]
      exact hrest ks hks

theorem greeting_shows (hp : ShownText prompt) (hlen : prompt.length < 4096) (hfit : Fits scr prompt []) (hscr : Shows scr [] []) :
    Displays (scr.feedAll (serial (greeting prompt))) prompt ⟨[], [], [], []⟩ := by
  have hall : ShownText (prompt ++ [ascii ' ']) := hp.append (by decide)
  have hser : serial (greeting prompt) = prompt.map toByte ++ ([blank] ++ eraseLine ++ [0x08]) := by
    change uartPuts ((prompt ++ [ascii ' ']).map toByte) ++ serial [.clearEOL, .moveCursorBackward 1] = _
    rw [uartPuts_printable hall.printable (by simpa using hlen), List.map_append, List.append_assoc, List.append_assoc]
    rfl
  rw [hser, feedAll_append]
  have hprompt := (hscr.typing.feedAll hp.printable (by simp [Fits] at hfit ⊢; omega)).1
  simpa [Displays] using tail_blank_shows hprompt (by simpa [Fits] using hfit)

/-- While a line is edited, and when it is accepted, the terminal shows the prompt and the line of the editor, and the
terminal's cursor is on the editor's, if the line fits in the row all the time. -/
theorem getLine_screen {history : List Text} {keys : List (KeyPress × Listing)} (hp : ShownText prompt)
    (hlen : prompt.length < 4096) (hhistory : ∀ l ∈ history, ShownText l) (hkeys : ∀ k ∈ keys, KeyShown k)
    (hfit : ∀ ks, ks <+: keys → Fits scr prompt (getLine prompt history ks).2.1.text) (hscr : Shows scr [] []) :
    (getLine prompt history keys).2.1.Displays (scr.feedAll (serial (getLine prompt history keys).1)) prompt := by
  have hnil : ShownText [] := fun c hc => absurd hc List.not_mem_nil
  rw [getLine, serial_append, feedAll_append]
  refine glAll_displays hp hkeys ⟨hnil, hnil, fun l hl => absurd hl List.not_mem_nil, hhistory⟩ (fun ks hks => ?_)
    (greeting_shows hp hlen (hfit [] List.nil_prefix) hscr)
  rw [Fits, feedAll_width]
  exact hfit ks hks

/-- A file system that lists nothing. -/
def noFiles : Listing := ⟨fun _ => none, fun _ => false⟩

theorem noFiles_shown : noFiles.Shown := fun _ _ h => nomatch h

/-- A line that is typed, left for one of the history and changed there. -/
def sampleKeys : List (KeyPress × Listing) :=
  [(⟨∅, .key (ascii 'a')⟩, noFiles), (⟨∅, .upKey⟩, noFiles), (⟨∅, .leftKey⟩, noFiles), (⟨∅, .key (ascii 'x')⟩, noFiles)]

theorem getLine_screen_sample : (getLine (text "> ") [text "ls"] sampleKeys).2.1.Displays
    ((Screen.empty consoleWidth).feedAll (serial (getLine (text "> ") [text "ls"] sampleKeys).1)) (text "> ") := by
  have hfits : ∀ ks ∈ sampleKeys.inits,
      Fits (Screen.empty consoleWidth) (text "> ") (getLine (text "> ") [text "ls"] ks).2.1.text := by decide
  refine getLine_screen (by decide) (by decide) (by decide) (fun k hk => ?_) (fun ks hks => hfits ks ((List.mem_inits _ _).mpr hks))
    (shows_empty _)
  have hcmd : ∀ k ∈ sampleKeys, ∀ c, translateKey k.1 = .char c → Shown c := by
    intro k hk c hc
    simp only [sampleKeys, List.mem_cons, List.not_mem_nil, or_false] at hk
    obtain rfl | rfl | rfl | rfl := hk
    · obtain rfl : ascii 'a' = c := by simpa [translateKey] using hc
      decide
    · exact absurd hc (by simp [translateKey])
    · exact absurd hc (by simp [translateKey])
    · obtain rfl : ascii 'x' = c := by simpa [translateKey] using hc
      decide
  have hfs : k.2 = noFiles := by
    simp only [sampleKeys, List.mem_cons, List.not_mem_nil, or_false] at hk
    obtain rfl | rfl | rfl | rfl := hk <;> rfl
  exact ⟨hcmd k hk, fun _ => hfs ▸ noFiles_shown⟩

end HouseKernel.Console
