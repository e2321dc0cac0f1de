import Mathlib.Data.List.GetD
import HouseKernel.Console.LineEditor

/-! The line editor refines a book of lines: the history with the line that is typed on top, of which one is selected
and edited at a position. A line keeps what was done to it while others are selected. -/
namespace HouseKernel.Console

open HouseKernel.Lib

/-- The lines, newest first, the selected one and the position in it. -/
structure Book where
  lines : List Text
  selected : ℕ
  pos : ℕ
  deriving DecidableEq

namespace Book

def current (b : Book) : Text := b.lines.getD b.selected []

/-- The selected line becomes these two texts, with the position between them. -/
def edit (b : Book) (before after : Text) : Book :=
  { b with lines := b.lines.set b.selected (before ++ after), pos := before.length }

/-- Another line is selected, at its end. -/
def select (b : Book) (i : ℕ) : Book := { b with selected := i, pos := (b.lines.getD i []).length }

def step (fs : Listing) (b : Book) (cmd : LineCmd) : Book :=
  let before := b.current.take b.pos
  let after := b.current.drop b.pos
  match cmd with
  | .char c => b.edit (before ++ [c]) after
  | .delete .previous => b.edit before.dropLast after
  | .delete .begin => b.edit [] after
  | .delete .next => b.edit before after.tail
  | .delete .end => b.edit before []
  | .move .previous => { b with pos := b.pos - 1 }
  | .move .begin => { b with pos := 0 }
  | .move .next => { b with pos := min (b.pos + 1) b.current.length }
  | .move .end => { b with pos := b.current.length }
  | .history => if b.selected + 1 < b.lines.length then b.select (b.selected + 1) else b
  | .future => if b.selected = 0 then b else b.select (b.selected - 1)
  | .complete => b.edit (completeWord fs before) after
  | .accept => b
  | .clear => b
  | .noOp => b

/-- The book over the key presses, up to the one that accepts the selected line. -/
def run (b : Book) : List (KeyPress × Listing) → Book ⊕ Text
  | [] => .inl b
  | (k, fs) :: ks => if translateKey k = .accept then .inr b.current else run (b.step fs (translateKey k)) ks

/-- A book on a new line before this history. -/
def open' (history : List Text) : Book := ⟨[] :: history, 0, 0⟩

end Book

/-- The book that the editor's two-sided state stands for. -/
def Edit.book (e : Edit) : Book := ⟨e.fut.reverse ++ (e.before ++ e.after) :: e.past, e.fut.length, e.before.length⟩

def Turn.book : Turn → Book ⊕ Text
  | .again e => .inl e.book
  | .line s => .inr s

variable {e : Edit} {fs : Listing} {b a prompt : Text} {cmd : LineCmd}

theorem Edit.book_current : e.book.current = e.before ++ e.after := by
  rw [Book.current, Edit.book, List.getD_append_right _ _ _ _ (by simp)]
  simp

theorem Edit.book_before : e.book.current.take e.book.pos = e.before := by
  rw [Edit.book_current]
  exact List.take_left

theorem Edit.book_after : e.book.current.drop e.book.pos = e.after := by
  rw [Edit.book_current]
  exact List.drop_left

theorem Edit.book_edit : e.book.edit b a = { e with before := b, after := a }.book := by
  simp [Edit.book, Book.edit, List.set_append_right]

theorem Edit.redrawTo_book : (e.redrawTo b a).2.book = .inl (e.book.edit b a) := by
  rw [Edit.book_edit]
  rfl

/-- Drawing the same texts again keeps the book. -/
theorem Edit.book_edit_self (h : b ++ a = e.before ++ e.after) : e.book.edit b a = { e.book with pos := b.length } := by
  rw [Edit.book_edit, Edit.book, Edit.book, h]

theorem Edit.book_history {p : Text} {past : List Text} (h : e.past = p :: past) :
    (⟨p, [], (e.before ++ e.after) :: e.fut, past⟩ : Edit).book = e.book.step fs .history := by
  simp [Book.step, Edit.book, Book.select, h]

theorem Edit.book_future {f : Text} {fut : List Text} (h : e.fut = f :: fut) :
    (⟨f, [], fut, (e.before ++ e.after) :: e.past⟩ : Edit).book = e.book.step fs .future := by
  simp [Book.step, Edit.book, Book.select, h]

/-- One turn of the loop is one step of the book, or returns the selected line. -/
theorem gl_book : (gl prompt fs e cmd).2.book = if cmd = .accept then .inr e.book.current else .inl (e.book.step fs cmd) := by
  have hself : e.book.edit e.before e.after = e.book := by rw [Edit.book_edit]
  match cmd with
  | .accept => rw [if_pos rfl, Edit.book_current]; rfl
  | .char c =>
    rw [if_neg (by simp), gl, Book.step, Edit.book_before, Edit.book_after]
    split_ifs with hafter
    · rw [hafter, Edit.book_edit]
      rfl
    · exact Edit.redrawTo_book
  | .delete .previous =>
    rw [if_neg (by simp), gl, Book.step, Edit.book_before, Edit.book_after]
    split_ifs with hbefore
    · rw [hbefore, List.dropLast_nil, ← hbefore, hself]
      rfl
    · exact Edit.redrawTo_book
  | .delete .begin =>
    rw [if_neg (by simp), gl, Book.step, Edit.book_after]
    split_ifs with hbefore
    · rw [← hbefore, hself]
      rfl
    · exact Edit.redrawTo_book
  | .delete .next =>
    rw [if_neg (by simp), gl, Book.step, Edit.book_before, Edit.book_after]
    split
    · rename_i hafter
      rw [hafter, List.tail_nil, ← hafter, hself]
      rfl
    · rename_i c cs hafter
      rw [hafter]
      exact Edit.redrawTo_book
  | .delete .end =>
    rw [if_neg (by simp), gl, Book.step, Edit.book_before]
    split_ifs with hafter
    · rw [← hafter, hself]
      rfl
    · exact Edit.redrawTo_book
  | .move .previous =>
    rw [if_neg (by simp), gl, Book.step]
    split
    · rename_i hlast
      simp [Turn.book, Edit.book, List.getLast?_eq_none_iff.mp hlast]
    · rename_i c hlast
      have hbefore := List.dropLast_append_getLast? c hlast
      rw [Edit.redrawTo_book, Edit.book_edit_self (by rw [← hbefore]; simp)]
      simp [Edit.book]
  | .move .begin =>
    rw [if_neg (by simp), gl, Book.step]
    split_ifs with hbefore
    · simp [Turn.book, Edit.book, hbefore]
    · rw [Edit.redrawTo_book, Edit.book_edit_self (by simp)]
      rfl
  | .move .next =>
    rw [if_neg (by simp), gl, Book.step, Edit.book_current]
    split
    · rename_i hafter
      simp [Turn.book, Edit.book, hafter]
    · rename_i c cs hafter
      rw [Edit.redrawTo_book, Edit.book_edit_self (by simp [hafter])]
      simp [Edit.book, hafter]
  | .move .end =>
    rw [if_neg (by simp), gl, Book.step, Edit.book_current]
    split_ifs with hafter
    · simp [Turn.book, Edit.book, hafter]
    · rw [Edit.redrawTo_book, Edit.book_edit_self (by simp)]
  | .history =>
    rw [if_neg (by simp), gl]
    split
    · rename_i hpast
      simp [Turn.book, Book.step, Edit.book, hpast]
    · rename_i p past hpast
      exact congrArg Sum.inl (Edit.book_history hpast)
  | .future =>
    rw [if_neg (by simp), gl]
    split
    · rename_i hfut
      simp [Turn.book, Book.step, Edit.book, hfut]
    · rename_i f fut hfut
      exact congrArg Sum.inl (Edit.book_future hfut)
  | .clear => rfl
  | .complete =>
    rw [if_neg (by simp), gl, Book.step, Edit.book_before, Edit.book_after]
    split_ifs with hsame
    · rw [hsame, hself]
      rfl
    · exact Edit.redrawTo_book
  | .noOp => rfl

/-- The editor's loop is the book: whatever is pressed, it stands at the same line and position with the same lines
around, and it returns the line that is selected there. -/
theorem glAll_book (keys : List (KeyPress × Listing)) : (glAll prompt e keys).2.book = e.book.run keys := by
  induction keys generalizing e with
  | nil => rfl
  | cons k keys ih =>
    obtain ⟨k, fs⟩ := k
    have hstep : (gl prompt fs e (translateKey k)).2.book =
        if translateKey k = .accept then .inr e.book.current else .inl (e.book.step fs (translateKey k)) := gl_book
    rw [glAll, Book.run]
    split
    · rename_i out l hgl
      rw [hgl] at hstep
      by_cases hcmd : translateKey k = .accept
      · rw [if_pos hcmd] at hstep ⊢
        exact hstep
      · rw [if_neg hcmd] at hstep
        cases hstep
    · rename_i out e' hgl
      rw [hgl] at hstep
      by_cases hcmd : translateKey k = .accept
      · rw [if_pos hcmd] at hstep
        cases hstep
      · rw [if_neg hcmd] at hstep ⊢
        exact ih.trans (congrArg (Book.run · keys) (Sum.inl.inj hstep))

/-- `getLine` reads its line off the book that starts on a new line before the history. -/
theorem getLine_book (history : List Text) (keys : List (KeyPress × Listing)) :
    (getLine prompt history keys).2.1.book = (Book.open' history).run keys := glAll_book keys

end HouseKernel.Console
