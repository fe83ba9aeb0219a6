import UpanLibs.Text.TextPage
import UpanLibs.Transition

/-!
The class `ConsoleBuffer`: the buffer has two bytes for each cell of a grid, and is shown
on a console cell by cell. Where the console draws its cursor is left out. Sizes and
positions are unbounded.
-/
namespace ConsoleBuffer

/-- A character with its style; also an `MChar`. -/
structure Cell where
  ch : UInt8
  attr : UInt8
  deriving DecidableEq

/-- The buffer is the memory from its first byte on, and goes on behind its last one;
    the display has the cells that `IConsole` was told to draw. -/
structure Console where
  buffer : Nat → UInt8
  cursorPos : Nat
  display : Nat → Cell

def NO_BYTES_PER_CHARACTER : Nat := 2
def START_CURSOR_POS : Int := -1
def NO_CHAR : UInt8 := 234
def SPACE : UInt8 := 32
def NEWLINE : UInt8 := 10
def TAB : UInt8 := 9
def WHITE_ON_BLACK : UInt8 := 15

def blank : Cell := ⟨SPACE, WHITE_ON_BLACK⟩

def cellAt (buffer : Nat → UInt8) (i : Nat) : Cell := ⟨buffer (i * 2), buffer (i * 2 + 1)⟩

def fillBlanks : Nat → Nat → (Nat → UInt8) → Nat → UInt8
  | _, 0, buffer => buffer
  | i, rounds + 1, buffer => fillBlanks (i + NO_BYTES_PER_CHARACTER) rounds
      (Function.update (Function.update buffer i SPACE) (i + 1) WHITE_ON_BLACK)

/-- `memcpy(_buffer, _buffer + offset, n)`, which copies forwards. -/
def copyDown (offset n : Nat) (buffer : Nat → UInt8) : Nat → UInt8 :=
  fun i => if i < n then buffer (i + offset) else buffer i

namespace Console

def cell (s : Console) : Nat → Cell := cellAt s.buffer

def getCurBytePos (s : Console) : Nat := s.cursorPos * NO_BYTES_PER_CHARACTER

def putCharOnBuffer (pos : Nat) (val : UInt8) (s : Console) : Bool × Console :=
  let changed := s.buffer pos != val
  (changed, if changed then { s with buffer := Function.update s.buffer pos val } else s)

def putChar (iPos : Nat) (ch attr : UInt8) (s : Console) : Console :=
  let charPut := s.putCharOnBuffer iPos ch
  let attrPut := charPut.2.putCharOnBuffer (iPos + 1) attr
  let s := attrPut.2
  if charPut.1 || attrPut.1 then
    { s with display := Function.update s.display (iPos / NO_BYTES_PER_CHARACTER) ⟨ch, attr⟩ }
  else s

variable (rows columns : Nat)

/-- The buffer as constructed, in any memory and before anything is drawn. -/
def new (memory : Nat → UInt8) (display : Nat → Cell) : Console :=
  ⟨fillBlanks 0 (rows * columns) memory, 0, display⟩

/-- `IConsole::scrollDown` moves the rows up by one and blanks the last. -/
def shiftDisplay (display : Nat → Cell) (i : Nat) : Cell :=
  if i < rows * columns then TextPage.scrolled rows columns blank display i else display i

def scrollDown (s : Console) : Console :=
  if s.cursorPos < rows * columns then s
  else
    let noOfDisplayBytes := (rows - 1) * columns * NO_BYTES_PER_CHARACTER
    let offset := columns * NO_BYTES_PER_CHARACTER
    ⟨fillBlanks noOfDisplayBytes columns (copyDown offset noOfDisplayBytes s.buffer),
      noOfDisplayBytes / 2, shiftDisplay rows columns s.display⟩

def setCurPos (curPos : Int) (s : Console) : Console :=
  if 0 ≤ curPos ∧ curPos < rows * columns then { s with cursorPos := curPos.toNat } else s

def moveCursor (iOffSet : Int) (s : Console) : Console :=
  s.setCurPos rows columns (s.cursorPos + iOffSet)

def nextLine (s : Console) : Console :=
  let curLine := s.cursorPos / columns + 1
  scrollDown rows columns { s with cursorPos := curLine * columns }

/-- `character` for anything but a newline or a tab. -/
def glyph (ch attr : UInt8) (s : Console) : Console :=
  let s := s.putChar s.getCurBytePos ch attr
  scrollDown rows columns { s with cursorPos := s.cursorPos + 1 }

def character (ch attr : UInt8) (s : Console) : Console :=
  if ch = NEWLINE then s.nextLine rows columns
  else if ch = TAB then (List.replicate 4 SPACE).foldl (fun s ch => s.glyph rows columns ch attr) s
  else s.glyph rows columns ch attr

def characters (text : List UInt8) (attr : UInt8) (s : Console) : Console :=
  text.foldl (fun s ch => s.character rows columns ch attr) s

def message (text : List UInt8) (attr : UInt8) (s : Console) : Console :=
  s.characters rows columns (text.takeWhile (· ≠ 0)) attr

def nmessage (text : List UInt8) (n : Nat) (attr : UInt8) (s : Console) : Console :=
  s.characters rows columns (text.take n) attr

/-- The loop of `clear`, from a position on. -/
def clearFrom : Nat → Nat → Console → Console
  | _, 0, s => s
  | i, rounds + 1, s =>
      clearFrom (i + NO_BYTES_PER_CHARACTER) rounds (s.putChar i SPACE WHITE_ON_BLACK)

def clear (s : Console) : Console := (s.clearFrom 0 (rows * columns)).setCurPos rows columns 0

/-- The loop of `clearLine`, which ends at the edge of the grid. -/
def clearToEdge : Nat → Nat → Console → Console
  | _, 0, s => s
  | i, rounds + 1, s =>
      if i % (columns * 2) = 0 then s
      else clearToEdge (i + 2) rounds (s.putChar i SPACE WHITE_ON_BLACK)

def clearLine (iStartPos : Int) (s : Console) : Console :=
  let iStartPos : Int :=
    if iStartPos = START_CURSOR_POS then s.cursorPos
    else if ¬ (0 ≤ iStartPos ∧ iStartPos < columns) then s.cursorPos
    else iStartPos
  (s.clearToEdge columns (iStartPos.toNat * 2) columns).setCurPos rows columns iStartPos

def rawCharacter (ch attr : UInt8) (s : Console) : Console :=
  let ch := if ch = NO_CHAR then SPACE else ch
  let s := s.putChar s.getCurBytePos ch attr
  { s with cursorPos := s.cursorPos + 1 }

/-- The inner loop of `rawCharacterArea`, over one row of the area. -/
def rawRow (src : Nat → Cell) : Nat → Nat → Console → Console
  | _, 0, s => s
  | i, cols + 1, s => rawRow src (i + 1) cols (s.rawCharacter (src i).ch (src i).attr)

def rawRows (src : Nat → Cell) (cols : Nat) : Nat → Nat → Int → Console → Console
  | _, 0, _, s => s
  | i, areaRows + 1, curPos, s =>
      let s := s.rawRow src i cols
      let curPos := curPos + columns
      rawRows src cols (i + cols) areaRows curPos (s.setCurPos rows columns curPos)

def rawCharacterArea (src : Nat → Cell) (areaRows cols : Nat) (curPos : Int) (s : Console) :
    Console :=
  (s.setCurPos rows columns curPos).rawRows rows columns src cols 0 areaRows curPos

/-- The loop of `refresh`. -/
def drawFrom : Nat → Nat → Console → Console
  | _, 0, s => s
  | i, rounds + 1, s =>
      let drawn : Cell := ⟨s.buffer i, s.buffer (i + 1)⟩
      drawFrom (i + NO_BYTES_PER_CHARACTER) rounds
        { s with display := Function.update s.display (i / NO_BYTES_PER_CHARACTER) drawn }

def refresh (s : Console) : Console := s.drawFrom 0 (rows * columns)

end Console

inductive Output where
  | character (ch attr : UInt8)
  | message (text : List UInt8) (attr : UInt8)
  | nmessage (text : List UInt8) (n : Nat) (attr : UInt8)

inductive Op where
  | output (out : Output)
  | clear
  | clearLine (iStartPos : Int)
  | setCurPos (curPos : Int)
  | moveCursor (iOffSet : Int)
  | rawCharacter (ch attr : UInt8)
  | rawCharacterArea (src : Nat → Cell) (areaRows cols : Nat) (curPos : Int)
  | refresh

def Output.perform (rows columns : Nat) (s : Console) : Output → Console
  | .character ch attr => s.character rows columns ch attr
  | .message text attr => s.message rows columns text attr
  | .nmessage text n attr => s.nmessage rows columns text n attr

def Op.perform (rows columns : Nat) (s : Console) : Op → Console
  | .output out => out.perform rows columns s
  | .clear => s.clear rows columns
  | .clearLine iStartPos => s.clearLine rows columns iStartPos
  | .setCurPos curPos => s.setCurPos rows columns curPos
  | .moveCursor iOffSet => s.moveCursor rows columns iOffSet
  | .rawCharacter ch attr => s.rawCharacter ch attr
  | .rawCharacterArea src areaRows cols curPos =>
      s.rawCharacterArea rows columns src areaRows cols curPos
  | .refresh => s.refresh rows columns

end ConsoleBuffer
