import Mathlib.Tactic.Common
import Mathlib.Data.List.Basic
import UpanLibs.TextArea.Input

/-!
Lines of a `FixedTextArea` and the functions of `FixedTextLine` and
`FixedTextLines` that change them. A line index is a position in the list of
lines; the functions that recurse from a line to those below it work on the
list that starts at that line. Rendering is left out.
-/
namespace FixedText

open TextInput

structure FixedCharacter where
  ch : Nat
  fgColor : Nat
  bgColor : Nat
  deriving DecidableEq, Repr

structure FixedTextLine where
  chars : List FixedCharacter
  wrapped : Bool
  deriving DecidableEq, Repr

namespace FixedTextLine

def size (line : FixedTextLine) : Nat := line.chars.length

def insert (line : FixedTextLine) (pos : Nat) (ch : FixedCharacter) :
    Except Fault FixedTextLine :=
  if pos ≤ line.size then .ok { line with chars := line.chars.insertIdx pos ch }
  else .error (.invalidIndexForInsert pos)

/-- `remove(from, last)`; every caller has `from ≤ last`, and `last ≤ size` where
    `from < size`. -/
def remove (line : FixedTextLine) (first last : Nat) : FixedTextLine :=
  if first = last ∨ line.size ≤ first then line
  else { line with chars := line.chars.take first ++ line.chars.drop last }

def push (line : FixedTextLine) (ch : FixedCharacter) : FixedTextLine :=
  { line with chars := line.chars ++ [ch] }

end FixedTextLine

def emptyLine : FixedTextLine := ⟨[], false⟩

def get (lines : List FixedTextLine) (index : Nat) : Except Fault FixedTextLine :=
  match lines[index]? with
  | some line => .ok line
  | none => .error (.invalidLineIndex index)

/-- The lines added below one that is full: what does not fit in an added line goes
    to a further one. -/
def overflowLines (maxLineChars : Nat) :
    List FixedCharacter → List FixedCharacter → List FixedTextLine
  | filled, [] => [⟨filled, false⟩]
  | filled, ch :: chars =>
      if filled.length < maxLineChars then overflowLines maxLineChars (filled ++ [ch]) chars
      else ⟨filled, true⟩ :: overflowLines maxLineChars [ch] chars

def insertAll (line : FixedTextLine) (lineX : Nat) :
    List FixedCharacter → Except Fault FixedTextLine
  | [] => .ok line
  | ch :: chars => do
      let line ← line.insert lineX ch
      insertAll line (lineX + 1) chars

/-- `insert(line, lineX, lineY, fixedCharacters)` on the lines from `lineY` on; the
    number is that of the added lines, each of which grows the scroll height. -/
def insertFrom (maxLineChars : Nat) : Nat → Nat → List FixedCharacter → List FixedTextLine →
    Except Fault (List FixedTextLine × Nat)
  | _, lineY, _, [] => .error (.invalidLineIndex lineY)
  | lineX, lineY, fixedCharacters, line :: below => do
      let line ← insertAll line lineX fixedCharacters
      let wrapChars := line.chars.drop maxLineChars
      let kept := line.chars.take maxLineChars
      if wrapChars.isEmpty then .ok (line :: below, 0)
      else if line.wrapped then do
        let (below, added) ← insertFrom maxLineChars 0 (lineY + 1) wrapChars below
        .ok (⟨kept, true⟩ :: below, added)
      else
        let newLines := overflowLines maxLineChars [] wrapChars
        .ok (⟨kept, true⟩ :: newLines ++ below, newLines.length)

def nextSize : List FixedTextLine → Nat
  | [] => 0
  | nextLine :: _ => nextLine.size

/-- The loop of `wrapremovech` that fills a line from the next one. It yields the
    line, the lines below, the deleted line and `deletedFromNextLine`. -/
def pull (wrapremovech : List FixedTextLine → List FixedTextLine × Option Nat) :
    Nat → FixedTextLine → List FixedTextLine → Option Nat → Bool →
    FixedTextLine × List FixedTextLine × Option Nat × Bool
  | availChars + 1, line, ⟨ch :: chars, wrapped⟩ :: below, _, _ =>
      let removed := wrapremovech (⟨ch :: chars, wrapped⟩ :: below)
      pull wrapremovech availChars (line.push ch) removed.1 removed.2 true
  | _, line, below, deletedLine, deletedFromNextLine =>
      (line, below, deletedLine, deletedFromNextLine)

/-- `wrapremovech(x, y, maxLineChars)` on the lines from `y` on, with the deleted line
    counted from `y`. The recursion goes one line down at a time, so a `depth` of the
    number of lines is enough. -/
def wrapremovech (maxLineChars : Nat) : Nat → Nat → List FixedTextLine →
    List FixedTextLine × Option Nat
  | 0, _, lines => (lines, none)
  | _, _, [] => ([], none)
  | depth + 1, x, line :: below =>
      let line := line.remove x (x + 1)
      if line.wrapped = false ∨ below = [] then (line :: below, none)
      else
        let filled := pull (wrapremovech maxLineChars depth 0) (maxLineChars - line.size)
          line below none false
        let line := filled.1
        let removed :=
          if filled.2.2.2 = false ∧ 0 < nextSize filled.2.1 ∧ x = line.size
          then wrapremovech maxLineChars depth 0 filled.2.1
          else (filled.2.1, filled.2.2.1)
        if nextSize removed.1 = 0 then ({ line with wrapped := false } :: removed.1, some 1)
        else (line :: removed.1, removed.2.map (· + 1))

/-- The part of `removeLine` that gives the wrapped flag of line `y` to the line above,
    where that one is wrapped. -/
def rejoin (wrapped : Bool) : Nat → List FixedTextLine → List FixedTextLine
  | 0, lines => lines
  | above + 1, lines => lines.modify above fun prevLine =>
      if prevLine.wrapped then { prevLine with wrapped := wrapped } else prevLine

/-- `realignOnWidthIncrease` from the line `line` with index `li` on. -/
def realignOnWidthIncrease (maxLineChars : Nat) : Nat → FixedTextLine → List FixedTextLine →
    Except Fault (List FixedTextLine)
  | li, line, [] =>
      if line.wrapped then .error (.vectorIndexOutOfBounds (li + 1)) else .ok [line]
  | li, line, nextLine :: below =>
      if line.wrapped then
        let moved := nextLine.chars.take (maxLineChars - line.size)
        let left := nextLine.chars.drop (maxLineChars - line.size)
        let line := { line with chars := line.chars ++ moved }
        if left ≠ [] then do
          let below ← realignOnWidthIncrease maxLineChars (li + 1)
            { nextLine with chars := left } below
          .ok (line :: below)
        else if nextLine.wrapped then realignOnWidthIncrease maxLineChars li line below
        else match below with
          | [] => .ok [{ line with wrapped := false }]
          | following :: below => do
              let below ← realignOnWidthIncrease maxLineChars (li + 1) following below
              .ok ({ line with wrapped := false } :: below)
      else do
        let below ← realignOnWidthIncrease maxLineChars (li + 1) nextLine below
        .ok (line :: below)

/-- `realignOnWidthDecrease` with the characters carried from the line above. -/
def realignOnWidthDecrease (maxLineChars : Nat) : List FixedCharacter →
    List FixedTextLine → List FixedTextLine
  | _, [] => []
  | carried, line :: below =>
      let chars := carried ++ line.chars
      let wrapChars := chars.drop maxLineChars
      if wrapChars = [] then
        { line with chars := chars } :: realignOnWidthDecrease maxLineChars [] below
      else if line.wrapped then
        { line with chars := chars.take maxLineChars } ::
          realignOnWidthDecrease maxLineChars wrapChars below
      else
        ⟨chars.take maxLineChars, true⟩ :: overflowLines maxLineChars [] wrapChars ++
          realignOnWidthDecrease maxLineChars [] below

def calculateCharCount (lines : List FixedTextLine) (x y : Nat) : Nat :=
  match lines, y with
  | [], _ => 0
  | line :: _, 0 => min x line.size
  | line :: below, y + 1 => line.size + calculateCharCount below x y

end FixedText
