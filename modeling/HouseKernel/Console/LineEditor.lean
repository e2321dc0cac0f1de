import HouseKernel.Console.Key

/-! The line editor of the shell: the text around the cursor, the history around the line, and what each key press
makes the console do. -/
namespace HouseKernel.Console

open HouseKernel.Lib

inductive Cursor where
  | previous
  | next
  | begin
  | end
  deriving DecidableEq, Repr

inductive LineCmd where
  | char (c : CodePoint)
  | move (cursor : Cursor)
  | delete (cursor : Cursor)
  | accept
  | history
  | future
  | clear
  | complete
  | noOp
  deriving DecidableEq, Repr

def translateKey (k : KeyPress) : LineCmd :=
  match k.key with
  | .key c =>
    if .ctrl .lSide ∈ k.mods ∨ .ctrl .rSide ∈ k.mods then
      if c = ascii 'a' then .move .begin
      else if c = ascii 'e' then .move .end
      else if c = ascii 'k' then .delete .end
      else if c = ascii 'u' then .delete .begin
      else if c = ascii 'h' then .delete .previous
      else if c = ascii 'd' then .delete .next
      else if c = ascii 'j' then .accept
      else if c = ascii 'l' then .clear
      else .noOp
    else .char c
  | .keypad c => .char c
  | .returnKey => .accept
  | .keypadEnterKey => .accept
  | .backspaceKey => .delete .previous
  | .deleteKey => .delete .next
  | .upKey => .history
  | .downKey => .future
  | .leftKey => .move .previous
  | .rightKey => .move .next
  | .homeKey => .move .begin
  | .endKey => .move .end
  | .tabKey => .complete
  | _ => .noOp

/-- What the file system answers while a word is completed: the names in a directory, if it can be listed, and whether
a path is a directory. -/
structure Listing where
  ls : Text → Option (List Text)
  isDir : Text → Bool

def commonPrefix : Text → Text → Text
  | a :: as, b :: bs => if a = b then a :: commonPrefix as bs else []
  | _, _ => []

/-- The directory part of a word, up to its last `/`, and the rest. -/
def splitWord (w : Text) : Text × Text :=
  if ascii '/' ∈ w then
    let rest := (w.reverse.takeWhile (· ≠ ascii '/')).reverse
    (w.take (w.length - rest.length), rest)
  else ([ascii '/'], w)

def joinDir (d n : Text) : Text := if d ≠ [] ∧ d.getLast? = some (ascii '/') then d ++ n else d ++ [ascii '/'] ++ n

/-- Extend the word before the cursor to the longest common prefix of the names that it may become. -/
def completeWord (fs : Listing) (before : Text) : Text :=
  let word := (before.reverse.takeWhile (· ≠ ascii ' ')).reverse
  let (dir, pref) := splitWord word
  match fs.ls dir with
  | none => before
  | some names =>
    match names.filter (pref.isPrefixOf ·) with
    | [] => before
    | [one] =>
      let target := if fs.isDir (joinDir dir one) then one ++ [ascii '/'] else one
      before ++ target.drop pref.length
    | c :: cands => before ++ (cands.foldl commonPrefix c).drop pref.length

/-- The text before and after the cursor, the lines that the user came back from, next first, and the history behind. -/
structure Edit where
  before : Text
  after : Text
  fut : List Text
  past : List Text
  deriving DecidableEq

/-- Back to the start of the line, print the new one with the cursor's cell first, clear what a longer line left, and
sit back on the cursor. -/
def redraw (oldBefore newBefore newAfter : Text) : List ConsoleCommand :=
  (if oldBefore = [] then [] else [.moveCursorBackward oldBefore.length]) ++ putString newBefore ++
    match newAfter with
    | [] => [.putChar inverseVideo (ascii ' '), .clearEOL, .moveCursorBackward 1]
    | c :: cs => .putChar inverseVideo c :: putString cs ++ [.clearEOL, .moveCursorBackward (c :: cs).length]

/-- The loop goes on with another state, or returns the line. -/
inductive Turn where
  | again (e : Edit)
  | line (s : Text)
  deriving DecidableEq

/-- Redraw and go on. -/
def Edit.redrawTo (e : Edit) (before after : Text) : List ConsoleCommand × Turn :=
  (redraw e.before before after, .again { e with before := before, after := after })

/-- One turn of the editor's loop: the commands that it queues, and how it goes on. -/
def gl (prompt : Text) (fs : Listing) (e : Edit) (cmd : LineCmd) : List ConsoleCommand × Turn :=
  match cmd with
  | .char c =>
    if e.after = [] then
      ([putc c, .putChar inverseVideo (ascii ' '), .clearEOL, .moveCursorBackward 1],
        .again { e with before := e.before ++ [c], after := [] })
    else e.redrawTo (e.before ++ [c]) e.after
  | .accept => (putString e.after ++ [.clearEOL, putc (ascii '\n'), .sync], .line (e.before ++ e.after))
  | .delete .previous => if e.before = [] then ([], .again e) else e.redrawTo e.before.dropLast e.after
  | .delete .begin => if e.before = [] then ([], .again e) else e.redrawTo [] e.after
  | .delete .next =>
    match e.after with
    | [] => ([], .again e)
    | _ :: cs => e.redrawTo e.before cs
  | .delete .end => if e.after = [] then ([], .again e) else e.redrawTo e.before []
  | .move .previous =>
    match e.before.getLast? with
    | none => ([], .again e)
    | some c => e.redrawTo e.before.dropLast (c :: e.after)
  | .move .begin => if e.before = [] then ([], .again e) else e.redrawTo [] (e.before ++ e.after)
  | .move .next =>
    match e.after with
    | [] => ([], .again e)
    | c :: cs => e.redrawTo (e.before ++ [c]) cs
  | .move .end => if e.after = [] then ([], .again e) else e.redrawTo (e.before ++ e.after) []
  | .history =>
    match e.past with
    | [] => ([], .again e)
    | p :: past => (redraw e.before p [], .again ⟨p, [], (e.before ++ e.after) :: e.fut, past⟩)
  | .future =>
    match e.fut with
    | [] => ([], .again e)
    | f :: fut => (redraw e.before f [], .again ⟨f, [], fut, (e.before ++ e.after) :: e.past⟩)
  | .clear => ([.clearScreen] ++ putString prompt ++ redraw [] e.before e.after, .again e)
  | .complete =>
    let nb := completeWord fs e.before
    if nb = e.before then ([], .again e) else e.redrawTo nb e.after
  | .noOp => ([], .again e)

/-- The loop over the key presses of the channel, each with the file system as it is then. -/
def glAll (prompt : Text) (e : Edit) : List (KeyPress × Listing) → List ConsoleCommand × Turn
  | [] => ([], .again e)
  | (k, fs) :: ks =>
    match gl prompt fs e (translateKey k) with
    | (out, .line s) => (out, .line s)
    | (out, .again e') => (out ++ (glAll prompt e' ks).1, (glAll prompt e' ks).2)

/-- What `getLine` queues before it waits for the first key. -/
def greeting (prompt : Text) : List ConsoleCommand := [.putStr (prompt ++ [ascii ' ']), .clearEOL, .moveCursorBackward 1]

/-- A line that is read goes to the front of the history, unless it is empty. -/
def remember (line : Text) (history : List Text) : List Text := if line = [] then history else line :: history

/-- `getLine` with the key presses that come: what the console is asked to do, and the state of the loop or the line
with the new history. -/
def getLine (prompt : Text) (history : List Text) (keys : List (KeyPress × Listing)) : List ConsoleCommand × Turn × List Text :=
  let (out, turn) := glAll prompt ⟨[], [], [], history⟩ keys
  (greeting prompt ++ out, turn,
    match turn with
    | .again _ => history
    | .line s => remember s history)

end HouseKernel.Console
