import Mathlib.Algebra.Order.Ring.Int
import Mathlib.Tactic.Common
import Mathlib.Data.List.Basic
import UpanLibs.TextArea.Input

/-!
Lines of a `TextArea`, whose characters have fonts of their own, and the functions of
`TextLine` and `TextLines` that change them. The functions that recurse from a line to
those below it work on the list that starts at that line. Rendering is left out.
-/
namespace StyledText

open TextInput

/-- `fontSize` is a `uint8_t`; the font's file is left out. -/
structure Character where
  ch : Nat
  fontSize : Nat
  bold : Bool
  italic : Bool
  fgColor : Nat
  bgColor : Nat
  deriving DecidableEq, Repr

/-- `getChWidth()`, a `uint8_t`. -/
def Character.chWidth (ch : Character) : Nat :=
  let w := ch.fontSize / 2
  let e := ch.fontSize / DEFAULT_FONT_SIZE
  (if ch.bold then (if ch.italic then w + e + e * 2 else w + e)
    else if ch.italic then w + e else w) % 256

def Character.chHeight (ch : Character) : Nat := ch.fontSize

def MIN_CURSOR_WIDTH_BUFFER : Nat := 8

structure TextLine where
  characters : List Character
  width : Nat
  maxChHeight : Nat
  wrapped : Bool
  deriving DecidableEq, Repr

/-- `TextLine(defaultHeight)`. -/
def newTextLine (defaultHeight : Nat) : TextLine := ⟨[], MIN_CURSOR_WIDTH_BUFFER, defaultHeight, false⟩

def chWidths (characters : List Character) : Nat := (characters.map (·.chWidth)).sum

namespace TextLine

def size (line : TextLine) : Nat := line.characters.length

/-- `lineHeight()`, a `uint8_t`. -/
def lineHeight (line : TextLine) : Nat := (line.maxChHeight + DEFAULT_LINE_SPACE) % 256

def insert (line : TextLine) (pos : Nat) (ch : Character) : Except Fault TextLine :=
  if pos ≤ line.size then
    .ok { line with
      characters := line.characters.insertIdx pos ch
      width := line.width + ch.chWidth
      maxChHeight := if line.size = 0 then ch.chHeight else max line.maxChHeight ch.chHeight }
  else .error (.invalidIndexForInsert pos)

/-- `remove(from, last)`; every caller has `from ≤ last`, and `last ≤ size` where
    `from < size`. -/
def remove (line : TextLine) (first last : Nat) : TextLine :=
  if first = last ∨ line.size ≤ first then line
  else
    let characters := line.characters.take first ++ line.characters.drop last
    { line with
      characters := characters
      width := MIN_CURSOR_WIDTH_BUFFER + chWidths characters
      maxChHeight := if characters.isEmpty then line.maxChHeight
        else characters.foldl (fun height ch => max height ch.chHeight) 0 }

/-- `line.insert(line.size(), ch)`. -/
def push (line : TextLine) (ch : Character) : TextLine :=
  { line with
    characters := line.characters ++ [ch]
    width := line.width + ch.chWidth
    maxChHeight := if line.size = 0 then ch.chHeight else max line.maxChHeight ch.chHeight }

end TextLine

def get (lines : List TextLine) (index : Nat) : Except Fault TextLine :=
  match lines[index]? with
  | some line => .ok line
  | none => .error (.invalidLineIndex index)

def insertAll (line : TextLine) (lineX : Nat) : List Character → Except Fault TextLine
  | [] => .ok line
  | ch :: characters => do
      let line ← line.insert lineX ch
      insertAll line (lineX + 1) characters

/-- The loop that takes the last characters off a line that is too wide; a line without
    characters has none to take. The first argument counts the line's characters. -/
def takeWrapCharacters (maxLineCharWidth : Nat) :
    Nat → TextLine → List Character → Except Fault (TextLine × List Character)
  | 0, line, wrapCharacters =>
      if maxLineCharWidth < line.width then .error (.vectorIndexOutOfBounds (-1))
      else .ok (line, wrapCharacters)
  | size + 1, line, wrapCharacters =>
      if maxLineCharWidth < line.width then
        match line.characters[size]? with
        | some ch => takeWrapCharacters maxLineCharWidth size (line.remove size (size + 1))
            (ch :: wrapCharacters)
        | none => .error (.vectorIndexOutOfBounds size)
      else .ok (line, wrapCharacters)

/-- The lines added below one that is too wide, where what does not fit in an added line
    goes to a further one; `lines` bounds their number, which has no bound where a
    character does not fit in a line of its own. -/
def newLines (maxLineCharWidth fontSize : Nat) : Nat → List Character → Except Fault (List TextLine)
  | 0, _ => .error .noReturn
  | lines + 1, characters => do
      let line ← insertAll (newTextLine fontSize) 0 characters
      let (line, wrapCharacters) ← takeWrapCharacters maxLineCharWidth line.size line []
      if wrapCharacters.isEmpty then .ok [line]
      else do
        let below ← newLines maxLineCharWidth fontSize lines wrapCharacters
        .ok ({ line with wrapped := true } :: below)

/-- `insert(line, lineX, lineY, characters)` on the lines from `lineY` on; the number is
    that of the added lines, each of which grows the scroll height. -/
def insertFrom (maxLineCharWidth fontSize : Nat) : Nat → Nat → List Character → List TextLine →
    Except Fault (List TextLine × Nat)
  | _, lineY, _, [] => .error (.invalidLineIndex lineY)
  | lineX, lineY, characters, line :: below => do
      let line ← insertAll line lineX characters
      let (line, wrapCharacters) ← takeWrapCharacters maxLineCharWidth line.size line []
      if wrapCharacters.isEmpty then .ok (line :: below, 0)
      else if line.wrapped then do
        let (below, added) ← insertFrom maxLineCharWidth fontSize 0 (lineY + 1) wrapCharacters below
        .ok (line :: below, added)
      else do
        let added ← newLines maxLineCharWidth fontSize wrapCharacters.length wrapCharacters
        .ok ({ line with wrapped := true } :: added ++ below, added.length)

def nextSize : List TextLine → Nat
  | [] => 0
  | nextLine :: _ => nextLine.size

def totalCharacters (lines : List TextLine) : Nat := (lines.map (·.size)).sum

/-- The loop of `wrapremovech` that fills a line from the next one, which takes one of
    their characters at a time. It yields the line, the lines below, the deleted line and
    `deletedFromNextLine`. -/
def pull (maxLineCharWidth : Nat) (wrapremovech : List TextLine → List TextLine × Option Nat) :
    Nat → TextLine → List TextLine → Option Nat → Bool →
    TextLine × List TextLine × Option Nat × Bool
  | characters + 1, line, nextLine :: below, deletedLine, deletedFromNextLine =>
      match nextLine.characters with
      | [] => (line, nextLine :: below, deletedLine, deletedFromNextLine)
      | ch :: _ =>
          if line.width + ch.chWidth < maxLineCharWidth then
            let removed := wrapremovech (nextLine :: below)
            pull maxLineCharWidth wrapremovech characters (line.push ch) removed.1 removed.2 true
          else (line, nextLine :: below, deletedLine, deletedFromNextLine)
  | _, line, below, deletedLine, deletedFromNextLine =>
      (line, below, deletedLine, deletedFromNextLine)

/-- `wrapremovech(x, y, maxLineChWidth)` on the lines from `y` on, with the deleted line
    counted from `y`. The recursion goes one line down at a time, so a `depth` of the
    number of lines is enough. -/
def wrapremovech (maxLineCharWidth : Nat) : Nat → Nat → List TextLine →
    List TextLine × Option Nat
  | 0, _, lines => (lines, none)
  | _, _, [] => ([], none)
  | depth + 1, x, line :: below =>
      let line := line.remove x (x + 1)
      if line.wrapped = false ∨ below = [] then (line :: below, none)
      else
        let filled := pull maxLineCharWidth (wrapremovech maxLineCharWidth depth 0)
          (totalCharacters below) line below none false
        let line := filled.1
        let removed :=
          if filled.2.2.2 = false ∧ 0 < nextSize filled.2.1 ∧ x = line.size
          then wrapremovech maxLineCharWidth depth 0 filled.2.1
          else (filled.2.1, filled.2.2.1)
        if nextSize removed.1 = 0 then ({ line with wrapped := false } :: removed.1, some 1)
        else (line :: removed.1, removed.2.map (· + 1))

/-- The part of `removeLine` that gives the wrapped flag of line `y` to the line above,
    where that one is wrapped. -/
def rejoin (wrapped : Bool) : Nat → List TextLine → List TextLine
  | 0, lines => lines
  | above + 1, lines => lines.modify above fun prevLine =>
      if prevLine.wrapped then { prevLine with wrapped := wrapped } else prevLine

def fitting (availableWidth : Int) : List Character → List Character
  | [] => []
  | ch :: characters =>
      if availableWidth - ch.chWidth < 0 then []
      else ch :: fitting (availableWidth - ch.chWidth) characters

/-- `realignOnWidthIncrease` from the line `line` with index `li` on. -/
def realignOnWidthIncrease (maxLineCharWidth : Nat) : Nat → TextLine → List TextLine →
    Except Fault (List TextLine)
  | li, line, [] =>
      if line.wrapped then .error (.vectorIndexOutOfBounds (li + 1)) else .ok [line]
  | li, line, nextLine :: below =>
      if line.wrapped then
        let moved := fitting ((maxLineCharWidth : Int) - line.width) nextLine.characters
        let line := moved.foldl (·.push ·) line
        let nextLine := nextLine.remove 0 moved.length
        if 0 < nextLine.size then do
          let below ← realignOnWidthIncrease maxLineCharWidth (li + 1) nextLine below
          .ok (line :: below)
        else if nextLine.wrapped then realignOnWidthIncrease maxLineCharWidth li line below
        else match below with
          | [] => .ok [{ line with wrapped := false }]
          | following :: below => do
              let below ← realignOnWidthIncrease maxLineCharWidth (li + 1) following below
              .ok ({ line with wrapped := false } :: below)
      else do
        let below ← realignOnWidthIncrease maxLineCharWidth (li + 1) nextLine below
        .ok (line :: below)

/-- `realignOnWidthDecrease` with the characters carried from the line above. -/
def realignOnWidthDecrease (maxLineCharWidth fontSize : Nat) : List Character →
    List TextLine → Except Fault (List TextLine)
  | _, [] => .ok []
  | carried, line :: below => do
      let line ← insertAll line 0 carried
      let (line, wrapCharacters) ← takeWrapCharacters maxLineCharWidth line.size line []
      if wrapCharacters.isEmpty then do
        let below ← realignOnWidthDecrease maxLineCharWidth fontSize [] below
        .ok (line :: below)
      else if line.wrapped then do
        let below ← realignOnWidthDecrease maxLineCharWidth fontSize wrapCharacters below
        .ok (line :: below)
      else do
        let added ← newLines maxLineCharWidth fontSize wrapCharacters.length wrapCharacters
        let below ← realignOnWidthDecrease maxLineCharWidth fontSize [] below
        .ok ({ line with wrapped := true } :: added ++ below)

def calculateCharCount (lines : List TextLine) (x y : Nat) : Nat :=
  match lines, y with
  | [], _ => 0
  | line :: _, 0 => min x line.size
  | line :: below, y + 1 => line.size + calculateCharCount below x y

def calculateHeight (lines : List TextLine) : Int := (lines.map (·.lineHeight)).sum

end StyledText
