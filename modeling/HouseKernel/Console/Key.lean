import Mathlib.Data.Finset.Basic
import HouseKernel.Lib.Text

/-! The keys that the keyboard drivers report, and what the console driver is asked to do. -/
namespace HouseKernel.Console

open HouseKernel.Lib

inductive KModSide where
  | lSide
  | rSide
  deriving DecidableEq, Repr

inductive KMod where
  | shift (side : KModSide)
  | ctrl (side : KModSide)
  | alt (side : KModSide)
  | metaMod (side : KModSide)
  | numLock
  | capsLock
  | modeMod
  | reservedMod
  deriving DecidableEq, Repr

inductive Key where
  | key (c : CodePoint)
  | worldKey (n : ℤ)
  | backspaceKey
  | tabKey
  | clearKey
  | returnKey
  | pauseKey
  | escapeKey
  | deleteKey
  | keypad (c : CodePoint)
  | keypadEnterKey
  | upKey
  | downKey
  | rightKey
  | leftKey
  | insertKey
  | homeKey
  | endKey
  | pageUpKey
  | pageDownKey
  | fKey (n : ℤ)
  | modKey (m : KMod)
  | superKey (side : KModSide)
  | scrollLockKey
  | composeKey
  | helpKey
  | printKey
  | sysReqKey
  | breakKey
  | menuKey
  | powerKey
  | wakeKey
  | euroKey
  | undoKey
  | otherKey (n : ℤ)
  | unknownKey
  deriving DecidableEq, Repr

structure KeyPress where
  mods : Finset KMod
  key : Key
  deriving DecidableEq

theorem char_val_lt (c : Char) : c.val.toNat < 0x110000 := by
  obtain h | h := c.valid <;> omega

/-- The character of an ASCII literal. -/
def ascii (c : Char) : CodePoint := ⟨c.val.toNat, char_val_lt c⟩

inductive ConsoleCommand where
  | newLine
  | carriageReturn
  | clearEOL
  | putChar (attrs : BitVec 8) (c : CodePoint)
  | putStr (s : Text)
  | moveCursorBackward (count : ℕ)
  | clearScreen
  | sync
  deriving DecidableEq

def defaultAttrs : BitVec 8 := 0x17

def inverseVideo : BitVec 8 := 0x71

def putc (c : CodePoint) : ConsoleCommand := if c = ascii '\n' then .newLine else .putChar defaultAttrs c

def putString (s : Text) : List ConsoleCommand := s.map putc

/-- The octets that the UART sends for one that it is given: a line feed goes out behind a carriage return. -/
def uartPutc (b : BitVec 8) : Octets := if b = 0x0a then [0x0d, b] else [b]

/-- A string is sent up to its NUL, and no more than 4096 octets of it. -/
def uartPuts (bs : Octets) : Octets := ((bs.takeWhile (· ≠ 0)).take 4096).flatMap uartPutc

/-- The console thread sends each command to the UART as octets. -/
def dispatch : ConsoleCommand → Octets
  | .newLine => uartPutc (toByte (ascii '\n'))
  | .carriageReturn => uartPutc (toByte (ascii '\r'))
  | .putChar _ c => uartPutc (toByte c)
  | .putStr s => uartPuts (s.map toByte)
  | .moveCursorBackward n => (List.replicate n 0x08).flatMap uartPutc
  | .clearScreen => uartPuts [0x1b, 0x5b, 0x32, 0x4a, 0x1b, 0x5b, 0x48]
  | .clearEOL => uartPuts [0x1b, 0x5b, 0x4b]
  | .sync => []

def serial (cmds : List ConsoleCommand) : Octets := cmds.flatMap dispatch

@[simp] theorem serial_append (cs ds : List ConsoleCommand) : serial (cs ++ ds) = serial cs ++ serial ds := List.flatMap_append

end HouseKernel.Console
