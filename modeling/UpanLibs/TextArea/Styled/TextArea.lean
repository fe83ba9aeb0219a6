import UpanLibs.TextArea.Styled.TextLines
import UpanLibs.Transition

/-!
The operations of `TextArea` on its lines, its caret and its scroll offset. Pixels,
colours of the selection and the position of the scroll bar are left out.
-/
namespace StyledText

open TextInput

/-- What the constructor gets and no event changes. The narrowest width has room for
    an empty line. -/
structure Config where
  leftMargin : Int
  fgColor : Nat
  bgColor : Nat
  width : Int
  height : Int
  objectSize : MIN_OBJECT_SIZE ≤ width ∧ MIN_OBJECT_SIZE ≤ height
  room : leftMargin * 2 + MIN_CURSOR_WIDTH_BUFFER ≤ minSize (DEFAULT_FONT_SIZE * 20) width

namespace Config

variable (c : Config)

def minWidth : Int := minSize (DEFAULT_FONT_SIZE * 20) c.width
def minHeight : Int := minSize ((DEFAULT_FONT_SIZE + DEFAULT_LINE_SPACE) * 3) c.height
def lineCharWidth (width : Int) : Nat := (width - c.leftMargin * 2).toNat

end Config

/-- `characterPos` counts lines and characters, `cursorPos` pixels; the font is that of
    the characters that are typed next. -/
structure TextArea where
  width : Int
  height : Int
  bufferWidth : Int
  bufferHeight : Int
  maxLineCharWidth : Nat
  currentFontSize : Nat
  bold : Bool
  italic : Bool
  scrollY : Int
  scrollHeight : Int
  characterPos : UIPosition Nat
  cursorPos : UIPosition Int
  selectedArea : SelectedArea
  copyBuffer : List Character
  lines : List TextLine
  deriving DecidableEq, Repr

section

variable (c : Config)

def getLineBaseY (lines : List TextLine) (lineIndex : Nat) (scrollBaseY : Int) : Int :=
  calculateHeight (lines.take (lineIndex + 1)) - 1 - scrollBaseY

def getLineBaseX (lines : List TextLine) (charX lineIndex : Nat) : Except Fault Int := do
  let line ← get lines lineIndex
  .ok (c.leftMargin + chWidths (line.characters.take charX))

/-- The loop of `getLineInfo`; it yields the index of a line and the row it starts at. -/
def findLine (virtualY : Int) : Nat → Int → List TextLine → Nat × Int
  | lineIndex, y, line :: next :: below =>
      if y + line.lineHeight > virtualY then (lineIndex, y)
      else findLine virtualY (lineIndex + 1) (y + line.lineHeight) (next :: below)
  | lineIndex, y, _ => (lineIndex, y)

def getLineInfo (lines : List TextLine) (baseY rows : Int) : Except Fault LineInfo :=
  let found := findLine (baseY + rows) 0 0 lines
  match lines[found.1]? with
  | some line =>
      let lineTopY := found.2 - baseY
      .ok ⟨found.1, lineTopY, lineTopY + line.lineHeight - 1⟩
  | none => .error (.vectorIndexOutOfBounds found.1)

/-- The loops of `moveup`, `movedown` and `getLineCursorPos` that look for the column at
    `cursorPosX`; it yields `charX` and `cursorX`. -/
def columnBelow (cursorPosX : Int) : List Character → Nat → Int → Nat × Int
  | [], charX, cursorX => (charX, cursorX)
  | ch :: characters, charX, cursorX =>
      if cursorX + ch.chWidth > cursorPosX then (charX, cursorX)
      else columnBelow cursorPosX characters (charX + 1) (cursorX + ch.chWidth)

def columnIn (line : TextLine) (cursorPosX : Int) : Nat × Int :=
  columnBelow cursorPosX line.characters 0 c.leftMargin

def getLineCursorPos (lines : List TextLine) (x y baseY : Int) :
    Except Fault (UIPosition Nat × UIPosition Int) := do
  let info ← getLineInfo lines baseY y
  let line ← get lines info.lineIndex.toNat
  let column := columnIn c line x
  .ok (⟨column.1, info.lineIndex.toNat⟩, ⟨column.2, info.lineBaseY⟩)

namespace TextArea

/-- `updateCursor` draws the caret; what it reads on the way has to be there. -/
def updateCursor (s : TextArea) : Except Fault Unit := do
  let _ ← get s.lines s.characterPos.y
  .ok ()

def updateCursorPosition (charPos : UIPosition Nat) (cursorPos : UIPosition Int)
    (s : TextArea) : Except Fault TextArea := do
  updateCursor s
  let s := { s with characterPos := charPos, cursorPos := cursorPos }
  updateCursor s
  .ok s

/-- The offset that `updateScrollY(sy)` sets; it returns by how much that is more. -/
def newScrollY (s : TextArea) (sy : Int) : Int :=
  if sy < 0 then max (s.scrollY + sy) 0
  else
    let availableRows := s.scrollHeight - (s.scrollY + s.height)
    if availableRows > 0 then s.scrollY + min availableRows sy else s.scrollY

def updateScrollY (sy : Int) (s : TextArea) : TextArea :=
  { s with scrollY := s.newScrollY sy }

def vscroll (rows : Int) (s : TextArea) : Except Fault TextArea := do
  updateCursor s
  let scrollDown : Bool := -rows > 0
  let moved : Int := (s.newScrollY (-rows) - s.scrollY).natAbs
  let s := updateScrollY (-rows) s
  let s := if moved > 0 then
      { s with cursorPos.y := s.cursorPos.y + (if scrollDown then -moved else moved) }
    else s
  updateCursor s
  .ok s

def scrollToCoverEmptyArea (s : TextArea) : Except Fault TextArea :=
  let visibleScrollHeight := s.scrollHeight - s.scrollY
  if visibleScrollHeight < s.height ∧ s.scrollY ≠ 0 then
    vscroll (s.height - visibleScrollHeight) s
  else .ok s

def changeScrollHeight (delta : Int) (s : TextArea) : Except Fault TextArea :=
  let newHeight := s.scrollHeight + delta
  let scrollHeight := if newHeight < 0 then 0 else newHeight
  if scrollHeight ≠ s.scrollHeight then
    scrollToCoverEmptyArea { s with scrollHeight := scrollHeight }
  else .ok s

/-- `changeScrollHeight(newLine.lineHeight())` once for each added line. -/
def linesAdded : Nat → TextArea → Except Fault TextArea
  | 0, s => .ok s
  | added + 1, s => do
      let s ← changeScrollHeight (newTextLine s.currentFontSize).lineHeight s
      linesAdded added s

def scrollToY (curPosY : Int) (charPosY : Nat) (s : TextArea) : Except Fault TextArea :=
  if curPosY < 0 then do
    let line ← get s.lines charPosY
    vscroll (-(curPosY - line.lineHeight + 1)) s
  else if s.height ≤ curPosY then vscroll (-(curPosY - s.height + 1)) s
  else .ok s

def validateCursorPos (s : TextArea) : Except Fault Unit := do
  if s.lines.length ≤ s.characterPos.y then .error (.invalidCursorRow s.characterPos.y)
  else
    let line ← get s.lines s.characterPos.y
    if line.size < s.characterPos.x then
      .error (.invalidCursorColumn s.characterPos.x s.characterPos.y)
    else .ok ()

def moveup (s : TextArea) : Except Fault TextArea :=
  match s.characterPos.y with
  | 0 => .ok s
  | charY + 1 => do
      let curLine ← get s.lines (charY + 1)
      let prevLine ← get s.lines charY
      let column := columnIn c prevLine s.cursorPos.x
      let cursorY := s.cursorPos.y - curLine.lineHeight
      if cursorY ≥ (prevLine.lineHeight : Int) - 1 then
        updateCursorPosition ⟨column.1, charY⟩ ⟨column.2, cursorY⟩ s
      else do
        let destCursorY := (prevLine.lineHeight : Int) - 1
        let s ← updateCursorPosition ⟨column.1, charY⟩ ⟨column.2, destCursorY⟩ s
        .ok (updateScrollY (-(destCursorY - cursorY)) s)

def movedown (s : TextArea) : Except Fault TextArea :=
  if s.characterPos.y + 1 = s.lines.length then .ok s
  else do
    let nextLine ← get s.lines (s.characterPos.y + 1)
    let column := columnIn c nextLine s.cursorPos.x
    let charPos := ⟨column.1, s.characterPos.y + 1⟩
    let overflowY := s.cursorPos.y + nextLine.lineHeight - s.height
    if overflowY < 0 then
      updateCursorPosition charPos ⟨column.2, s.cursorPos.y + nextLine.lineHeight⟩ s
    else do
      let s ← updateCursorPosition charPos ⟨column.2, s.height - 1⟩ s
      .ok (updateScrollY (overflowY + 1) s)

def inlinemovehome (s : TextArea) : Except Fault TextArea :=
  if s.characterPos.x = 0 then .ok s
  else updateCursorPosition ⟨0, s.characterPos.y⟩ ⟨c.leftMargin, s.cursorPos.y⟩ s

def inlinemoveend (s : TextArea) : Except Fault TextArea := do
  let curLine ← get s.lines s.characterPos.y
  if s.characterPos.x = curLine.size then .ok s
  else
    let stepped := curLine.characters.drop s.characterPos.x
    updateCursorPosition ⟨s.characterPos.x + stepped.length, s.characterPos.y⟩
      ⟨s.cursorPos.x + chWidths stepped, s.cursorPos.y⟩ s

/-- `curLine.characters()[index]`. -/
def characterAt (line : TextLine) (index : Nat) : Except Fault Character :=
  match line.characters[index]? with
  | some ch => .ok ch
  | none => .error (.vectorIndexOutOfBounds index)

def moveleft (s : TextArea) : Except Fault TextArea :=
  match s.characterPos.x with
  | 0 =>
      if s.characterPos.y = 0 then .ok s
      else do
        let s ← moveup c s
        inlinemoveend s
  | charX + 1 => do
      let curLine ← get s.lines s.characterPos.y
      let ch ← characterAt curLine charX
      updateCursorPosition ⟨charX, s.characterPos.y⟩
        ⟨s.cursorPos.x - ch.chWidth, s.cursorPos.y⟩ s

def moveright (s : TextArea) : Except Fault TextArea := do
  let curLine ← get s.lines s.characterPos.y
  if s.characterPos.x = curLine.size then
    if s.characterPos.y + 1 = s.lines.length then .ok s
    else do
      let s ← inlinemovehome c s
      movedown c s
  else do
    let ch ← characterAt curLine s.characterPos.x
    updateCursorPosition ⟨s.characterPos.x + 1, s.characterPos.y⟩
      ⟨s.cursorPos.x + ch.chWidth, s.cursorPos.y⟩ s

def moveToLine (info : LineInfo) (s : TextArea) : Except Fault TextArea :=
  updateCursorPosition ⟨0, info.lineIndex.toNat⟩ ⟨c.leftMargin, info.lineBaseY⟩ s

def pageup (s : TextArea) : Except Fault TextArea := do
  let curLine ← get s.lines s.characterPos.y
  let curLineTopY := s.cursorPos.y + 1 - curLine.lineHeight
  let s ← vscroll (s.height - curLineTopY) s
  let info ← getLineInfo s.lines s.scrollY 0
  moveToLine c info s

def pagedown (s : TextArea) : Except Fault TextArea := do
  let curLine ← get s.lines s.characterPos.y
  let curLineTopY := s.cursorPos.y + 1 - curLine.lineHeight
  let lastPage := s.scrollHeight - curLineTopY - s.scrollY ≤ s.height
  let s ← vscroll (-(s.height + curLineTopY)) s
  let info ← getLineInfo s.lines s.scrollY (if lastPage then s.height else 0)
  let s ← moveToLine c info s
  inlinemoveend s

/-- `removeLine(y, characterPosY, scrollBaseY)` with the height of the deleted line. -/
def removeLine (y characterPosY : Nat) (s : TextArea) : Except Fault (List TextLine × Int) := do
  let line ← get s.lines y
  let visibleBaseY := getLineBaseY s.lines y s.scrollY - line.lineHeight + 1
  let lines := rejoin line.wrapped y s.lines
  if y < s.lines.length - 1 ∧ visibleBaseY < s.height then .ok (lines.eraseIdx y, line.lineHeight)
  else if characterPosY < y then .ok (lines.eraseIdx y, line.lineHeight)
  else .ok (lines, 0)

/-- `changeScrollHeight(-_lines.removeLine(y, characterPos.y, scrollY))`. -/
def deleteLine (y : Nat) (s : TextArea) : Except Fault TextArea := do
  let (lines, height) ← removeLine y s.characterPos.y s
  changeScrollHeight (-height) { s with lines := lines }

/-- `wrapremovech` at the caret, and the line that is left empty. -/
def wrapremove (s : TextArea) : Except Fault TextArea :=
  let y := s.characterPos.y
  let removed := wrapremovech s.maxLineCharWidth s.lines.length s.characterPos.x (s.lines.drop y)
  let s := { s with lines := s.lines.take y ++ removed.1 }
  match removed.2 with
  | some deleted => deleteLine (y + deleted) s
  | none => .ok s

def removech (s : TextArea) : Except Fault TextArea := do
  let x := s.characterPos.x
  let y := s.characterPos.y
  let line ← get s.lines y
  if line.wrapped then wrapremove s
  else if x = line.size ∧ 0 < x then
    wrapremove { s with lines := s.lines.set y { line with wrapped := true } }
  else if x = line.size then deleteLine y s
  else .ok { s with lines := s.lines.set y (line.remove x (x + 1)) }

def backspace (s : TextArea) : Except Fault TextArea :=
  if s.characterPos.x = 0 ∧ s.characterPos.y = 0 then .ok s
  else do
    let s ← moveleft c s
    removech s

/-- The part of `enter` after the split: the caret goes to the new line, which is filled
    up again if it was cut off a wrapped line. -/
def moveToNewLine (unwrapNextLine : Bool) (s : TextArea) : Except Fault TextArea := do
  let s ← inlinemovehome c s
  let s ← movedown c s
  if unwrapNextLine then do
    let s ← inlinemoveend s
    let s ← removech s
    inlinemovehome c s
  else .ok s

/-- The part of `enter` that splits the caret's line. -/
def splitLine (curLine : TextLine) (s : TextArea) : Except Fault TextArea := do
  let x := s.characterPos.x
  let y := s.characterPos.y
  let newLine ← insertAll (newTextLine s.currentFontSize) 0 (curLine.characters.drop x)
  let newLine := { newLine with wrapped := curLine.wrapped }
  let curLine := { curLine.remove x curLine.size with wrapped := false }
  let s ← changeScrollHeight newLine.lineHeight
    { s with lines := (s.lines.set y curLine).insertIdx (y + 1) newLine }
  moveToNewLine c (0 < x && newLine.wrapped) s

def enter (s : TextArea) : Except Fault TextArea := do
  let curLine ← get s.lines s.characterPos.y
  match s.characterPos with
  | ⟨0, above + 1⟩ => do
      let prevLine ← get s.lines above
      if prevLine.wrapped then
        .ok { s with lines := s.lines.set above { prevLine with wrapped := false } }
      else splitLine c curLine s
  | _ => splitLine c curLine s

def doInsert (ch : Character) (s : TextArea) : Except Fault TextArea := do
  let x := s.characterPos.x
  let y := s.characterPos.y
  let (below, added) ←
    insertFrom s.maxLineCharWidth s.currentFontSize x y [ch] (s.lines.drop y)
  let s ← linesAdded added { s with lines := s.lines.take y ++ below }
  let line ← get s.lines y
  if line.size = x then do
    let s ← updateCursorPosition ⟨1, y⟩ ⟨ch.chWidth + c.leftMargin, s.cursorPos.y⟩ s
    movedown c s
  else updateCursorPosition ⟨x + 1, y⟩ ⟨s.cursorPos.x + ch.chWidth, s.cursorPos.y⟩ s

/-- `insert(const Character&)`. -/
def insert (ch : Character) (s : TextArea) : Except Fault TextArea :=
  if is_new_line ch.ch then enter c s else doInsert c ch s

def removeAll : Nat → TextArea → Except Fault TextArea
  | 0, s => .ok s
  | charCount + 1, s => do
      let s ← removech s
      removeAll charCount s

def removeLines (deleteLineY : Nat) : Nat → TextArea → Except Fault TextArea
  | 0, s => .ok s
  | count + 1, s => do
      let s ← deleteLine deleteLineY s
      removeLines deleteLineY count s

/-- The part of `editSelection` before the characters are removed one by one; it yields
    their number too. -/
def startSelection (s : TextArea) : Except Fault (TextArea × Nat) := do
  let p1 := s.selectedArea.p1
  let p2 := s.selectedArea.p2
  let baseX ← getLineBaseX c s.lines p1.x p1.y
  let s ← updateCursorPosition p1 ⟨baseX, getLineBaseY s.lines p1.y s.scrollY⟩ s
  let s ← scrollToY s.cursorPos.y s.characterPos.y s
  let s := { s with selectedArea.present := false }
  if p1.y = p2.y then .ok (s, p2.x - p1.x)
  else do
    let s ← removeLines (p1.y + 1) (p2.y - (p1.y + 1)) s
    let line1 ← get s.lines p1.y
    let charCount := ((line1.size : Int) - p1.x) + (if line1.wrapped then 0 else 1) + p2.x
    .ok (s, charCount.toNat)

def editSelection (s : TextArea) : Except Fault TextArea :=
  if s.selectedArea.present then do
    let (s, charCount) ← startSelection c s
    removeAll charCount s
  else .ok s

def createCharacter (ch : Nat) (s : TextArea) : Character :=
  ⟨ch, s.currentFontSize, s.bold, s.italic, c.fgColor, c.bgColor⟩

/-- `insert(uint8_t)`. -/
def insertKey (ch : Nat) (s : TextArea) : Except Fault TextArea :=
  if isInsertableKey ch then do
    let s ← editSelection c s
    insert c (createCharacter c ch s) s
  else .ok s

def newLineCharacter (s : TextArea) : Character := createCharacter c Keyboard_CTRL_J s

/-- The lines of a copied selection from line `y` on, up to its last one. -/
def copyBelow (newLine : Character) (p2x : Nat) :
    Nat → Nat → List TextLine → Except Fault (List Character)
  | y, _, [] => .error (.invalidLineIndex y)
  | _, 0, line :: _ => .ok (line.characters.take p2x)
  | y, count + 1, line :: below => do
      let copied ← copyBelow newLine p2x (y + 1) count below
      .ok (line.characters ++ (if line.wrapped then [] else [newLine]) ++ copied)

def copySelection (s : TextArea) : Except Fault TextArea :=
  if s.selectedArea.present then do
    let p1 := s.selectedArea.p1
    let p2 := s.selectedArea.p2
    let line1 ← get s.lines p1.y
    if p1.y = p2.y then
      .ok { s with copyBuffer := (line1.characters.take p2.x).drop p1.x }
    else do
      let copied ← copyBelow (newLineCharacter c s) p2.x (p1.y + 1) (p2.y - (p1.y + 1))
        (s.lines.drop (p1.y + 1))
      .ok { s with copyBuffer := line1.characters.drop p1.x ++
        (if line1.wrapped then [] else [newLineCharacter c s]) ++ copied }
  else .ok { s with copyBuffer := [] }

def cutSelection (s : TextArea) : Except Fault TextArea := do
  let s ← copySelection c s
  editSelection c s

def insertEach : List Character → TextArea → Except Fault TextArea
  | [], s => .ok s
  | ch :: characters, s => do
      let s ← insert c ch s
      insertEach characters s

def paste (s : TextArea) : Except Fault TextArea := insertEach c s.copyBuffer s

def selectAll (s : TextArea) : TextArea :=
  let s := { s with selectedArea.present := false }
  match s.lines.getLast? with
  | none => s
  | some last =>
      if s.lines.length = 1 ∧ last.size = 0 then s
      else
        let p1 : UIPosition Nat := ⟨0, 0⟩
        let area : SelectedArea := { s.selectedArea with present := true, pivot := p1 }
        { s with selectedArea := area.setRange p1 ⟨last.size, s.lines.length - 1⟩ }

def updateSelectedArea (isSelectionOn isSelectKey : Bool) (prevCharPos newCharPos : UIPosition Nat)
    (s : TextArea) : TextArea :=
  if isSelectKey then
    if isSelectionOn then
      if s.selectedArea.present then
        { s with selectedArea := s.selectedArea.setRange s.selectedArea.pivot newCharPos }
      else
        let area : SelectedArea := { s.selectedArea with present := true, pivot := prevCharPos }
        { s with selectedArea := area.setRange prevCharPos newCharPos }
    else { s with selectedArea.present := false }
  else s

/-- The switch of `doHandleInput`, without the two keys that change the style. -/
def doKey (key : Key) (s : TextArea) : Except Fault TextArea :=
  match key with
  | .up => moveup c s
  | .down => movedown c s
  | .left => moveleft c s
  | .right => moveright c s
  | .home => inlinemovehome c s
  | .end_ => inlinemoveend s
  | .pageUp => pageup c s
  | .pageDown => pagedown c s
  | .del => if s.selectedArea.present then editSelection c s else removech s
  | .backspace => if s.selectedArea.present then editSelection c s else backspace c s
  | .selectAll => .ok (selectAll s)
  | .cut => cutSelection c s
  | .copy => copySelection c s
  | .paste => paste c s
  | .other ch => insertKey c ch s

/-- The keys that move the caret or change the text first scroll to the caret. -/
def scrollToCaret (key : Key) (s : TextArea) : Except Fault TextArea :=
  if isSelectKey key || isTextModifyKey key then scrollToY s.cursorPos.y s.characterPos.y s
  else .ok s

def handleInput (key : Key) (isShiftPressed : Bool) (s : TextArea) : Except Fault TextArea := do
  validateCursorPos s
  let prevCharPos := s.characterPos
  let s ← scrollToCaret key s
  let s ← doKey c key s
  .ok (updateSelectedArea isShiftPressed (isSelectKey key) prevCharPos s.characterPos s)

/-- `Keyboard_CTRL_B` and `Keyboard_CTRL_I`. -/
def handleStyle (italic : Bool) (s : TextArea) : Except Fault TextArea := do
  validateCursorPos s
  .ok (if italic then { s with italic := !s.italic } else { s with bold := !s.bold })

def moveCursor (shiftPressed mouseHeld : Bool) (x y : Int) (s : TextArea) :
    Except Fault TextArea := do
  let (charPos, cursorPos) ← getLineCursorPos c s.lines x y s.scrollY
  let prevCharPos := s.characterPos
  let s ← updateCursorPosition charPos cursorPos s
  let s ← scrollToY s.cursorPos.y s.characterPos.y s
  .ok (updateSelectedArea (shiftPressed || mouseHeld) true prevCharPos s.characterPos s)

/-- The lines above the one that holds the character number `charCount`, and what is
    left of the count there. -/
def skipLines : List TextLine → Nat → Nat × Nat
  | [], charCount => (0, charCount)
  | line :: below, charCount =>
      if line.size < charCount then
        let skipped := skipLines below (charCount - line.size)
        (skipped.1 + 1, skipped.2)
      else (0, charCount)

def recalculateScrollYOnResize (scrollYCharCount : Nat) (s : TextArea) : TextArea :=
  let s := { s with
    scrollY := calculateHeight (s.lines.take (skipLines s.lines scrollYCharCount).1) }
  let visibleScrollHeight := s.scrollHeight - s.scrollY
  if visibleScrollHeight < s.height ∧ s.scrollY ≠ 0 then
    updateScrollY (visibleScrollHeight - s.height) s
  else s

def recalculateCursorOnResize (cursorCharCount : Nat) (s : TextArea) : Except Fault TextArea :=
  let at_ := skipLines s.lines cursorCharCount
  if at_.1 < s.lines.length then do
    let baseX ← getLineBaseX c s.lines at_.2 at_.1
    .ok { s with characterPos := ⟨at_.2, at_.1⟩,
                 cursorPos := ⟨baseX, getLineBaseY s.lines at_.1 s.scrollY⟩ }
  else .ok s

def realign (s : TextArea) : Except Fault (List TextLine) :=
  if s.bufferWidth < s.width then
    match s.lines with
    | [] => .ok []
    | line :: below => realignOnWidthIncrease s.maxLineCharWidth 0 line below
  else if s.width < s.bufferWidth then
    realignOnWidthDecrease s.maxLineCharWidth s.currentFontSize [] s.lines
  else .ok s.lines

def onResize (s : TextArea) : Except Fault TextArea :=
  if s.bufferWidth ≠ s.width ∨ s.bufferHeight ≠ s.height then do
    let s := { s with maxLineCharWidth := c.lineCharWidth s.width }
    let cursorCharCount := calculateCharCount s.lines s.characterPos.x s.characterPos.y
    let info ← getLineInfo s.lines s.scrollY 0
    let scrollYCharCount := calculateCharCount s.lines 0 (info.lineIndex + 1).toNat
    let lines ← realign s
    let s := { s with bufferWidth := s.width, bufferHeight := s.height, lines := lines,
                      scrollHeight := calculateHeight lines }
    recalculateCursorOnResize c cursorCharCount (recalculateScrollYOnResize scrollYCharCount s)
  else .ok s

/-- `resize` to the given size, which the object's least size bounds. -/
def resize (width height : Int) (s : TextArea) : Except Fault TextArea :=
  onResize c { s with width := max width c.minWidth, height := max height c.minHeight }

def init : TextArea where
  width := c.width
  height := c.height
  bufferWidth := c.width
  bufferHeight := c.height
  maxLineCharWidth := c.lineCharWidth c.width
  currentFontSize := DEFAULT_FONT_SIZE
  bold := false
  italic := false
  scrollY := 0
  scrollHeight := (newTextLine DEFAULT_FONT_SIZE).lineHeight
  characterPos := ⟨0, 0⟩
  cursorPos := ⟨c.leftMargin, ((newTextLine DEFAULT_FONT_SIZE).lineHeight : Int) - 1⟩
  selectedArea := ⟨⟨0, 0⟩, ⟨0, 0⟩, ⟨0, 0⟩, false⟩
  copyBuffer := []
  lines := [newTextLine DEFAULT_FONT_SIZE]

end TextArea

inductive Event where
  | key (key : Key) (isShiftPressed : Bool)
  | style (italic : Bool)
  | font (fontSize : Nat)
  | mouse (shiftPressed mouseHeld : Bool) (x y : Int)
  | scroll (rows : Int)
  | resize (width height : Int)
  deriving DecidableEq, Repr

def handle (s : TextArea) : Event → Except Fault TextArea
  | .key key shift => s.handleInput c key shift
  | .style italic => s.handleStyle italic
  | .font fontSize => .ok { s with currentFontSize := fontSize % 256 }
  | .mouse shift held x y => s.moveCursor c shift held x y
  | .scroll rows => s.vscroll rows
  | .resize width height => s.resize c width height

/-- An exception ends the thread that delivers the events, so there is no state
    after it. -/
def step (s : TextArea) (event : Event) : Option TextArea :=
  (handle c s event).toOption

end

end StyledText
