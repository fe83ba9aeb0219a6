import UpanLibs.TextArea.Fixed.FixedTextLines
import UpanLibs.Transition

/-!
The operations of `FixedTextArea` on its lines, its caret and its scroll offset, for
a font that stays the same. Pixels, colours of the selection and the position of
the scroll bar are left out.
-/
namespace FixedText

open TextInput

structure Font where
  fontSize : Nat
  bold : Bool
  italic : Bool
  valid : 2 ≤ fontSize ∧ fontSize < 252

/-- `charWidth()`, a `uint8_t`. -/
def Font.charWidth (font : Font) : Nat :=
  let w := font.fontSize / 2
  let e := font.fontSize / DEFAULT_FONT_SIZE
  (if font.bold then (if font.italic then w + e + e * 2 else w + e)
    else if font.italic then w + e else w) % 256

/-- `lineHeight()`, a `uint8_t`. -/
def Font.lineHeight (font : Font) : Nat := (font.fontSize + DEFAULT_LINE_SPACE) % 256

/-- What the constructor gets and no event changes. The narrowest width has room
    for one character. -/
structure Config where
  font : Font
  leftMargin : Int
  textFGColor : Nat
  textBGColor : Nat
  width : Int
  height : Int
  objectSize : MIN_OBJECT_SIZE ≤ width ∧ MIN_OBJECT_SIZE ≤ height
  room : leftMargin * 2 + font.charWidth ≤ minSize (DEFAULT_FONT_SIZE * 20) width

namespace Config

variable (c : Config)

def charWidth : Int := c.font.charWidth
def lineHeight : Int := c.font.lineHeight
def minWidth : Int := minSize (DEFAULT_FONT_SIZE * 20) c.width
def minHeight : Int := minSize ((DEFAULT_FONT_SIZE + DEFAULT_LINE_SPACE) * 3) c.height
def calcMaxLineChars (width : Int) : Nat := ((width - c.leftMargin * 2).tdiv c.charWidth).toNat

end Config

/-- `characterPos` counts lines and characters, `cursorPos` pixels. -/
structure FixedTextArea where
  width : Int
  height : Int
  bufferWidth : Int
  bufferHeight : Int
  maxLineChars : Nat
  scrollY : Int
  scrollHeight : Int
  characterPos : UIPosition Nat
  cursorPos : UIPosition Int
  selectedArea : SelectedArea
  copyBuffer : List FixedCharacter
  lines : List FixedTextLine
  deriving DecidableEq, Repr

section

variable (c : Config)

def getLineBaseY (lines : List FixedTextLine) (lineIndex : Nat) (scrollBaseY : Int) : Int :=
  let lineIndex : Int := if lines.length ≤ lineIndex then lines.length - 1 else lineIndex
  (lineIndex + 1) * c.lineHeight - 1 - scrollBaseY

def getLineBaseX (lines : List FixedTextLine) (charX lineIndex : Nat) : Except Fault Int := do
  let line ← get lines lineIndex
  .ok (c.leftMargin + (min charX line.size : Nat) * c.charWidth)

def getLineInfo (lines : List FixedTextLine) (baseY rows : Int) : LineInfo :=
  let lineCount := (baseY + rows).tdiv c.lineHeight
  let lineCount := if lineCount > (lines.length : Int) - 1 then (lines.length : Int) - 1
    else lineCount
  let lineTopY := lineCount * c.lineHeight - baseY
  ⟨lineCount, lineTopY, lineTopY + c.lineHeight - 1⟩

/-- `getLineCursorPos`; the column is negative left of the margin. -/
def getLineCursorPos (lines : List FixedTextLine) (x y baseY : Int) :
    Except Fault (UIPosition Int × UIPosition Int) := do
  let info := getLineInfo c lines baseY y
  if info.lineIndex < 0 then .error (.vectorIndexOutOfBounds info.lineIndex)
  else
    let line ← get lines info.lineIndex.toNat
    let charPosX := (x - c.leftMargin).tdiv c.charWidth
    let charPosX := if charPosX > line.size then (line.size : Int) else charPosX
    .ok (⟨charPosX, info.lineIndex⟩, ⟨c.leftMargin + charPosX * c.charWidth, info.lineBaseY⟩)

namespace FixedTextArea

/-- `updateCursor` draws the caret; what it reads on the way has to be there. -/
def updateCursor (s : FixedTextArea) : Except Fault Unit := do
  let _ ← get s.lines s.characterPos.y
  .ok ()

def updateCursorPosition (charPos : UIPosition Nat) (cursorPos : UIPosition Int)
    (s : FixedTextArea) : Except Fault FixedTextArea := do
  updateCursor s
  let s := { s with characterPos := charPos, cursorPos := cursorPos }
  updateCursor s
  .ok s

/-- The offset that `updateScrollY(sy)` sets; it returns by how much that is more. -/
def newScrollY (s : FixedTextArea) (sy : Int) : Int :=
  if sy < 0 then max (s.scrollY + sy) 0
  else
    let availableRows := s.scrollHeight - (s.scrollY + s.height)
    if availableRows > 0 then s.scrollY + min availableRows sy else s.scrollY

def updateScrollY (sy : Int) (s : FixedTextArea) : FixedTextArea :=
  { s with scrollY := s.newScrollY sy }

def vscroll (rows : Int) (s : FixedTextArea) : Except Fault FixedTextArea := do
  updateCursor s
  let scrollDown : Bool := -rows > 0
  let moved : Int := (s.newScrollY (-rows) - s.scrollY).natAbs
  let s := updateScrollY (-rows) s
  let s := if moved > 0 then
      { s with cursorPos.y := s.cursorPos.y + (if scrollDown then -moved else moved) }
    else s
  updateCursor s
  .ok s

def scrollToCoverEmptyArea (s : FixedTextArea) : Except Fault FixedTextArea :=
  let visibleScrollHeight := s.scrollHeight - s.scrollY
  if visibleScrollHeight < s.height ∧ s.scrollY ≠ 0 then
    vscroll (s.height - visibleScrollHeight) s
  else .ok s

def changeScrollHeight (delta : Int) (s : FixedTextArea) : Except Fault FixedTextArea :=
  let newHeight := s.scrollHeight + delta
  let scrollHeight := if newHeight < 0 then 0 else newHeight
  if scrollHeight ≠ s.scrollHeight then
    scrollToCoverEmptyArea { s with scrollHeight := scrollHeight }
  else .ok s

/-- `changeScrollHeight(lineHeight())` once for each added line. -/
def linesAdded : Nat → FixedTextArea → Except Fault FixedTextArea
  | 0, s => .ok s
  | added + 1, s => do
      let s ← changeScrollHeight c.lineHeight s
      linesAdded added s

def scrollToY (curPosY : Int) (s : FixedTextArea) : Except Fault FixedTextArea :=
  if curPosY < 0 then vscroll (-(curPosY - c.lineHeight + 1)) s
  else if s.height ≤ curPosY then vscroll (-(curPosY - s.height + 1)) s
  else .ok s

def validateCursorPos (s : FixedTextArea) : Except Fault Unit := do
  if s.lines.length ≤ s.characterPos.y then .error (.invalidCursorRow s.characterPos.y)
  else
    let line ← get s.lines s.characterPos.y
    if line.size < s.characterPos.x then
      .error (.invalidCursorColumn s.characterPos.x s.characterPos.y)
    else .ok ()

/-- The loop of `moveup` and `movedown` that looks for the column at `cursorPosX` in a
    line with `left` more characters; it yields `charX` and `cursorX`. -/
def columnBelow (cursorPosX : Int) : Nat → Nat → Int → Nat × Int
  | 0, charX, cursorX => (charX, cursorX)
  | left + 1, charX, cursorX =>
      if cursorX + c.charWidth > cursorPosX then (charX, cursorX)
      else columnBelow cursorPosX left (charX + 1) (cursorX + c.charWidth)

def columnIn (line : FixedTextLine) (cursorPosX : Int) : Nat × Int :=
  columnBelow c cursorPosX line.size 0 c.leftMargin

def moveup (s : FixedTextArea) : Except Fault FixedTextArea :=
  match s.characterPos.y with
  | 0 => .ok s
  | charY + 1 => do
      let prevLine ← get s.lines charY
      let column := columnIn c prevLine s.cursorPos.x
      let cursorY := s.cursorPos.y - c.lineHeight
      if cursorY ≥ c.lineHeight - 1 then
        updateCursorPosition ⟨column.1, charY⟩ ⟨column.2, cursorY⟩ s
      else do
        let destCursorY := c.lineHeight - 1
        let s ← updateCursorPosition ⟨column.1, charY⟩ ⟨column.2, destCursorY⟩ s
        .ok (updateScrollY (-(destCursorY - cursorY)) s)

def movedown (s : FixedTextArea) : Except Fault FixedTextArea :=
  if s.characterPos.y + 1 = s.lines.length then .ok s
  else do
    let nextLine ← get s.lines (s.characterPos.y + 1)
    let column := columnIn c nextLine s.cursorPos.x
    let charPos := ⟨column.1, s.characterPos.y + 1⟩
    let overflowY := s.cursorPos.y + c.lineHeight - s.height
    if overflowY < 0 then
      updateCursorPosition charPos ⟨column.2, s.cursorPos.y + c.lineHeight⟩ s
    else do
      let s ← updateCursorPosition charPos ⟨column.2, s.height - 1⟩ s
      .ok (updateScrollY (overflowY + 1) s)

def inlinemovehome (s : FixedTextArea) : Except Fault FixedTextArea :=
  if s.characterPos.x = 0 then .ok s
  else updateCursorPosition ⟨0, s.characterPos.y⟩ ⟨c.leftMargin, s.cursorPos.y⟩ s

def inlinemoveend (s : FixedTextArea) : Except Fault FixedTextArea := do
  let curLine ← get s.lines s.characterPos.y
  if s.characterPos.x = curLine.size then .ok s
  else
    let stepped := curLine.size - s.characterPos.x
    updateCursorPosition ⟨s.characterPos.x + stepped, s.characterPos.y⟩
      ⟨s.cursorPos.x + stepped * c.charWidth, s.cursorPos.y⟩ s

def moveleft (s : FixedTextArea) : Except Fault FixedTextArea :=
  match s.characterPos.x with
  | 0 =>
      if s.characterPos.y = 0 then .ok s
      else do
        let s ← moveup c s
        inlinemoveend c s
  | charX + 1 =>
      updateCursorPosition ⟨charX, s.characterPos.y⟩
        ⟨s.cursorPos.x - c.charWidth, s.cursorPos.y⟩ s

def moveright (s : FixedTextArea) : Except Fault FixedTextArea := do
  let curLine ← get s.lines s.characterPos.y
  if s.characterPos.x = curLine.size then
    if s.characterPos.y + 1 = s.lines.length then .ok s
    else do
      let s ← inlinemovehome c s
      movedown c s
  else
    updateCursorPosition ⟨s.characterPos.x + 1, s.characterPos.y⟩
      ⟨s.cursorPos.x + c.charWidth, s.cursorPos.y⟩ s

/-- The caret on the line that `getLineInfo` found, which is never above the first
    line where the scroll offset is not negative. -/
def moveToLine (info : LineInfo) (s : FixedTextArea) : Except Fault FixedTextArea :=
  if info.lineIndex < 0 then .error (.vectorIndexOutOfBounds info.lineIndex)
  else updateCursorPosition ⟨0, info.lineIndex.toNat⟩ ⟨c.leftMargin, info.lineBaseY⟩ s

def pageup (s : FixedTextArea) : Except Fault FixedTextArea := do
  let curLineTopY := s.cursorPos.y + 1 - c.lineHeight
  let s ← vscroll (s.height - curLineTopY) s
  moveToLine c (getLineInfo c s.lines s.scrollY 0) s

def pagedown (s : FixedTextArea) : Except Fault FixedTextArea := do
  let curLineTopY := s.cursorPos.y + 1 - c.lineHeight
  let lastPage := s.scrollHeight - curLineTopY - s.scrollY ≤ s.height
  let s ← vscroll (-(s.height + curLineTopY)) s
  let s ← moveToLine c (getLineInfo c s.lines s.scrollY (if lastPage then s.height else 0)) s
  inlinemoveend c s

/-- `removeLine(y, fixedCharacterPosY, scrollBaseY)` with the height of the deleted line. -/
def removeLine (y fixedCharacterPosY : Nat) (s : FixedTextArea) :
    Except Fault (List FixedTextLine × Int) := do
  let line ← get s.lines y
  let visibleBaseY := getLineBaseY c s.lines y s.scrollY - c.lineHeight + 1
  let lines := rejoin line.wrapped y s.lines
  if y < s.lines.length - 1 ∧ visibleBaseY < s.height then .ok (lines.eraseIdx y, c.lineHeight)
  else if fixedCharacterPosY < y then .ok (lines.eraseIdx y, c.lineHeight)
  else .ok (lines, 0)

/-- `changeScrollHeight(-_lines.removeLine(y, characterPos.y, scrollY))`. -/
def deleteLine (y : Nat) (s : FixedTextArea) : Except Fault FixedTextArea := do
  let (lines, height) ← removeLine c y s.characterPos.y s
  changeScrollHeight (-height) { s with lines := lines }

/-- `wrapremovech` at the caret, and the line that is left empty. -/
def wrapremove (s : FixedTextArea) : Except Fault FixedTextArea :=
  let y := s.characterPos.y
  let removed := wrapremovech s.maxLineChars s.lines.length s.characterPos.x (s.lines.drop y)
  let s := { s with lines := s.lines.take y ++ removed.1 }
  match removed.2 with
  | some deleted => deleteLine c (y + deleted) s
  | none => .ok s

def removech (s : FixedTextArea) : Except Fault FixedTextArea := do
  let x := s.characterPos.x
  let y := s.characterPos.y
  let line ← get s.lines y
  if line.wrapped then wrapremove c s
  else if x = line.size ∧ 0 < x then
    wrapremove c { s with lines := s.lines.set y { line with wrapped := true } }
  else if x = line.size then deleteLine c y s
  else .ok { s with lines := s.lines.set y (line.remove x (x + 1)) }

def backspace (s : FixedTextArea) : Except Fault FixedTextArea :=
  if s.characterPos.x = 0 ∧ s.characterPos.y = 0 then .ok s
  else do
    let s ← moveleft c s
    removech c s

/-- The part of `enter` after the split: the caret goes to the new line, which is filled
    up again if it was cut off a wrapped line. -/
def moveToNewLine (unwrapNextLine : Bool) (s : FixedTextArea) : Except Fault FixedTextArea := do
  let s ← inlinemovehome c s
  let s ← movedown c s
  if unwrapNextLine then do
    let s ← inlinemoveend c s
    let s ← removech c s
    inlinemovehome c s
  else .ok s

/-- The part of `enter` that splits the caret's line. -/
def splitLine (curLine : FixedTextLine) (s : FixedTextArea) : Except Fault FixedTextArea := do
  let x := s.characterPos.x
  let y := s.characterPos.y
  let newLine : FixedTextLine := ⟨curLine.chars.drop x, curLine.wrapped⟩
  let curLine : FixedTextLine := ⟨curLine.chars.take x, false⟩
  let s ← changeScrollHeight c.lineHeight
    { s with lines := (s.lines.set y curLine).insertIdx (y + 1) newLine }
  moveToNewLine c (0 < x && newLine.wrapped) s

def enter (s : FixedTextArea) : Except Fault FixedTextArea := do
  let curLine ← get s.lines s.characterPos.y
  match s.characterPos with
  | ⟨0, above + 1⟩ => do
      let prevLine ← get s.lines above
      if prevLine.wrapped then
        .ok { s with lines := s.lines.set above { prevLine with wrapped := false } }
      else splitLine c curLine s
  | _ => splitLine c curLine s

def doInsert (ch : FixedCharacter) (s : FixedTextArea) : Except Fault FixedTextArea := do
  let x := s.characterPos.x
  let y := s.characterPos.y
  let (below, added) ← insertFrom s.maxLineChars x y [ch] (s.lines.drop y)
  let s ← linesAdded c added { s with lines := s.lines.take y ++ below }
  let line ← get s.lines y
  if line.size = x then do
    let s ← updateCursorPosition ⟨1, y⟩ ⟨c.charWidth + c.leftMargin, s.cursorPos.y⟩ s
    movedown c s
  else updateCursorPosition ⟨x + 1, y⟩ ⟨s.cursorPos.x + c.charWidth, s.cursorPos.y⟩ s

/-- `insert(const FixedCharacter&)`. -/
def insert (ch : FixedCharacter) (s : FixedTextArea) : Except Fault FixedTextArea :=
  if is_new_line ch.ch then enter c s else doInsert c ch s

def removeAll : Nat → FixedTextArea → Except Fault FixedTextArea
  | 0, s => .ok s
  | charCount + 1, s => do
      let s ← removech c s
      removeAll charCount s

def removeLines (deleteLineY : Nat) : Nat → FixedTextArea → Except Fault FixedTextArea
  | 0, s => .ok s
  | count + 1, s => do
      let s ← deleteLine c deleteLineY s
      removeLines deleteLineY count s

def editSelection (s : FixedTextArea) : Except Fault FixedTextArea :=
  if s.selectedArea.present then do
    let p1 := s.selectedArea.p1
    let p2 := s.selectedArea.p2
    let baseX ← getLineBaseX c s.lines p1.x p1.y
    let s ← updateCursorPosition p1 ⟨baseX, getLineBaseY c s.lines p1.y s.scrollY⟩ s
    let s ← scrollToY c s.cursorPos.y s
    let s := { s with selectedArea.present := false }
    if p1.y = p2.y then removeAll c (p2.x - p1.x) s
    else do
      let s ← removeLines c (p1.y + 1) (p2.y - (p1.y + 1)) s
      let line1 ← get s.lines p1.y
      let charCount := ((line1.size : Int) - p1.x) + (if line1.wrapped then 0 else 1) + p2.x
      removeAll c charCount.toNat s
  else .ok s

/-- `insert(uint8_t)`. -/
def insertKey (ch : Nat) (s : FixedTextArea) : Except Fault FixedTextArea :=
  if isInsertableKey ch then do
    let s ← editSelection c s
    insert c ⟨ch, c.textFGColor, c.textBGColor⟩ s
  else .ok s

def newLineCharacter : FixedCharacter := ⟨Keyboard_CTRL_J, c.textFGColor, c.textBGColor⟩

/-- The lines of a copied selection from line `y` on, up to its last one. -/
def copyBelow (p2x : Nat) : Nat → Nat → List FixedTextLine → Except Fault (List FixedCharacter)
  | y, _, [] => .error (.invalidLineIndex y)
  | _, 0, line :: _ => .ok (line.chars.take p2x)
  | y, count + 1, line :: below => do
      let copied ← copyBelow p2x (y + 1) count below
      .ok (line.chars ++ (if line.wrapped then [] else [newLineCharacter c]) ++ copied)

def copySelection (s : FixedTextArea) : Except Fault FixedTextArea :=
  if s.selectedArea.present then do
    let p1 := s.selectedArea.p1
    let p2 := s.selectedArea.p2
    let line1 ← get s.lines p1.y
    if p1.y = p2.y then
      .ok { s with copyBuffer := (line1.chars.take p2.x).drop p1.x }
    else do
      let copied ← copyBelow c p2.x (p1.y + 1) (p2.y - (p1.y + 1)) (s.lines.drop (p1.y + 1))
      .ok { s with copyBuffer :=
        line1.chars.drop p1.x ++ (if line1.wrapped then [] else [newLineCharacter c]) ++ copied }
  else .ok { s with copyBuffer := [] }

def cutSelection (s : FixedTextArea) : Except Fault FixedTextArea := do
  let s ← copySelection c s
  editSelection c s

def insertEach : List FixedCharacter → FixedTextArea → Except Fault FixedTextArea
  | [], s => .ok s
  | ch :: chars, s => do
      let s ← insert c ch s
      insertEach chars s

def paste (s : FixedTextArea) : Except Fault FixedTextArea := insertEach c s.copyBuffer s

def selectAll (s : FixedTextArea) : FixedTextArea :=
  let s := { s with selectedArea.present := false }
  match s.lines.getLast? with
  | none => s
  | some last =>
      if s.lines.length = 1 ∧ last.size = 0 then s
      else
        let p1 : UIPosition Nat := ⟨0, 0⟩
        let area : SelectedArea := { s.selectedArea with present := true, pivot := p1 }
        { s with selectedArea := area.setRange p1 ⟨last.size, s.lines.length - 1⟩ }

def updateSelectedArea (isSelectionOn isSelectKey : Bool) (prevCharPos newCharPos : UIPosition Nat)
    (s : FixedTextArea) : FixedTextArea :=
  if isSelectKey then
    if isSelectionOn then
      if s.selectedArea.present then
        { s with selectedArea := s.selectedArea.setRange s.selectedArea.pivot newCharPos }
      else
        let area : SelectedArea := { s.selectedArea with present := true, pivot := prevCharPos }
        { s with selectedArea := area.setRange prevCharPos newCharPos }
    else { s with selectedArea.present := false }
  else s

/-- The switch of `doHandleInput`. -/
def doKey (key : Key) (s : FixedTextArea) : Except Fault FixedTextArea :=
  match key with
  | .up => moveup c s
  | .down => movedown c s
  | .left => moveleft c s
  | .right => moveright c s
  | .home => inlinemovehome c s
  | .end_ => inlinemoveend c s
  | .pageUp => pageup c s
  | .pageDown => pagedown c s
  | .del => if s.selectedArea.present then editSelection c s else removech c s
  | .backspace => if s.selectedArea.present then editSelection c s else backspace c s
  | .selectAll => .ok (selectAll s)
  | .cut => cutSelection c s
  | .copy => copySelection c s
  | .paste => paste c s
  | .other ch => insertKey c ch s

/-- The keys that move the caret or change the text first scroll to the caret. -/
def scrollToCaret (key : Key) (s : FixedTextArea) : Except Fault FixedTextArea :=
  if isSelectKey key || isTextModifyKey key then scrollToY c s.cursorPos.y s else .ok s

def handleInput (key : Key) (isShiftPressed : Bool) (s : FixedTextArea) :
    Except Fault FixedTextArea := do
  validateCursorPos s
  let prevCharPos := s.characterPos
  let s ← scrollToCaret c key s
  let s ← doKey c key s
  .ok (updateSelectedArea isShiftPressed (isSelectKey key) prevCharPos s.characterPos s)

/-- `moveCursor` at a pixel; left of the margin `updateCursor` reads a character that
    is not there. -/
def moveCursor (shiftPressed mouseHeld : Bool) (x y : Int) (s : FixedTextArea) :
    Except Fault FixedTextArea := do
  let (charPos, cursorPos) ← getLineCursorPos c s.lines x y s.scrollY
  let prevCharPos := s.characterPos
  if charPos.x < 0 then .error (.vectorIndexOutOfBounds charPos.x)
  else do
    let s ← updateCursorPosition ⟨charPos.x.toNat, charPos.y.toNat⟩ cursorPos s
    let s ← scrollToY c s.cursorPos.y s
    .ok (updateSelectedArea (shiftPressed || mouseHeld) true prevCharPos s.characterPos s)

/-- The lines above the one that holds the character number `charCount`, and what is
    left of the count there. -/
def skipLines : List FixedTextLine → Nat → Nat × Nat
  | [], charCount => (0, charCount)
  | line :: below, charCount =>
      if line.size < charCount then
        let skipped := skipLines below (charCount - line.size)
        (skipped.1 + 1, skipped.2)
      else (0, charCount)

def recalculateScrollYOnResize (scrollYCharCount : Nat) (s : FixedTextArea) : FixedTextArea :=
  let s := { s with scrollY := (skipLines s.lines scrollYCharCount).1 * c.lineHeight }
  let visibleScrollHeight := s.scrollHeight - s.scrollY
  if visibleScrollHeight < s.height ∧ s.scrollY ≠ 0 then
    updateScrollY (visibleScrollHeight - s.height) s
  else s

def recalculateCursorOnResize (cursorCharCount : Nat) (s : FixedTextArea) :
    Except Fault FixedTextArea :=
  let at_ := skipLines s.lines cursorCharCount
  if at_.1 < s.lines.length then do
    let baseX ← getLineBaseX c s.lines at_.2 at_.1
    .ok { s with characterPos := ⟨at_.2, at_.1⟩,
                 cursorPos := ⟨baseX, getLineBaseY c s.lines at_.1 s.scrollY⟩ }
  else .ok s

def realign (s : FixedTextArea) : Except Fault (List FixedTextLine) :=
  if s.bufferWidth < s.width then
    match s.lines with
    | [] => .ok []
    | line :: below => realignOnWidthIncrease s.maxLineChars 0 line below
  else if s.width < s.bufferWidth then .ok (realignOnWidthDecrease s.maxLineChars [] s.lines)
  else .ok s.lines

def onResize (s : FixedTextArea) : Except Fault FixedTextArea :=
  if s.bufferWidth ≠ s.width ∨ s.bufferHeight ≠ s.height then do
    let s := { s with maxLineChars := c.calcMaxLineChars s.width }
    let cursorCharCount := calculateCharCount s.lines s.characterPos.x s.characterPos.y
    let scrollYLine := (getLineInfo c s.lines s.scrollY 0).lineIndex + 1
    let scrollYCharCount := calculateCharCount s.lines 0 scrollYLine.toNat
    let lines ← realign s
    let s := { s with bufferWidth := s.width, bufferHeight := s.height, lines := lines,
                      scrollHeight := lines.length * c.lineHeight }
    recalculateCursorOnResize c cursorCharCount (recalculateScrollYOnResize c scrollYCharCount s)
  else .ok s

/-- `resize` to the given size, which the object's least size bounds. -/
def resize (width height : Int) (s : FixedTextArea) : Except Fault FixedTextArea :=
  onResize c { s with width := max width c.minWidth, height := max height c.minHeight }

def init : FixedTextArea where
  width := c.width
  height := c.height
  bufferWidth := c.width
  bufferHeight := c.height
  maxLineChars := c.calcMaxLineChars c.width
  scrollY := 0
  scrollHeight := c.lineHeight
  characterPos := ⟨0, 0⟩
  cursorPos := ⟨c.leftMargin, c.lineHeight - 1⟩
  selectedArea := ⟨⟨0, 0⟩, ⟨0, 0⟩, ⟨0, 0⟩, false⟩
  copyBuffer := []
  lines := [emptyLine]

end FixedTextArea

inductive Event where
  | key (key : Key) (isShiftPressed : Bool)
  | mouse (shiftPressed mouseHeld : Bool) (x y : Int)
  | scroll (rows : Int)
  | resize (width height : Int)
  deriving DecidableEq, Repr

def handle (s : FixedTextArea) : Event → Except Fault FixedTextArea
  | .key key shift => s.handleInput c key shift
  | .mouse shift held x y => s.moveCursor c shift held x y
  | .scroll rows => s.vscroll rows
  | .resize width height => s.resize c width height

/-- An exception ends the thread that delivers the events, so there is no state
    after it. -/
def step (s : FixedTextArea) (event : Event) : Option FixedTextArea :=
  (handle c s event).toOption

end

end FixedText
