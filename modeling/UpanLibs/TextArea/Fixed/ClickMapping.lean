import UpanLibs.TextArea.Fixed.FixedCoherence

/-!
From pixels to caret positions and back: the methods of `FixedTextLines` with the left
margin as their argument, so that it is not tied to the width of an area.
-/
namespace FixedText.FixedTextLines

open TextInput

variable (font : Font) (lines : List FixedTextLine)

/-- `get`; below zero the vector itself throws. -/
def lineAt (index : Int) : Except Fault FixedTextLine :=
  if index < 0 then .error (.vectorIndexOutOfBounds index) else get lines index.toNat

def getLineBaseY (lineIndex scrollBaseY : Int) : Int :=
  let lineIndex := if lineIndex ≥ (lines.length : Int) then (lines.length : Int) - 1 else lineIndex
  (lineIndex + 1) * font.lineHeight - 1 - scrollBaseY

def getLineBaseX (charX lineIndex leftMargin : Int) : Except Fault Int := do
  let line ← lineAt lines lineIndex
  let charX := if charX > line.size then (line.size : Int) else charX
  .ok (leftMargin + charX * font.charWidth)

def getLineInfo (baseY rows : Int) : LineInfo :=
  let virtualY := baseY + rows
  let lineCount := virtualY.tdiv font.lineHeight
  let lineCount := if lineCount > (lines.length : Int) - 1 then (lines.length : Int) - 1
    else lineCount
  let lineTopY := lineCount * font.lineHeight - baseY
  ⟨lineCount, lineTopY, lineTopY + font.lineHeight - 1⟩

/-- The character position and the pixel position of the caret for the pixel `x`, `y`. -/
def getLineCursorPos (x y baseY leftMargin : Int) :
    Except Fault (UIPosition Int × UIPosition Int) := do
  let info := getLineInfo font lines baseY y
  let line ← lineAt lines info.lineIndex
  let charPosX := (x - leftMargin).tdiv font.charWidth
  let charPosX := if charPosX > line.size then (line.size : Int) else charPosX
  .ok (⟨charPosX, info.lineIndex⟩, ⟨leftMargin + charPosX * font.charWidth, info.lineBaseY⟩)

theorem area_getLineCursorPos (c : Config) (x y baseY : Int) :
    FixedText.getLineCursorPos c lines x y baseY =
      getLineCursorPos c.font lines x y baseY c.leftMargin := by
  have looked : ∀ {α : Type} (row : Int) (k : FixedTextLine → Except Fault α),
      (if row < 0 then .error (.vectorIndexOutOfBounds row) else get lines row.toNat >>= k) =
        lineAt lines row >>= k := by
    intro α row k
    unfold lineAt
    split <;> rfl
  exact looked _ _

variable {lines}

/-- A caret position: a line and a column of it, or the one behind its last character. -/
structure Caret (lines : List FixedTextLine) (p : UIPosition Int) : Prop where
  row : 0 ≤ p.y
  column : 0 ≤ p.x
  line : ∃ line, lines[p.y.toNat]? = some line ∧ p.x ≤ line.size

theorem lineAt_ok {row : Int} {line : FixedTextLine} (low : 0 ≤ row)
    (here : lines[row.toNat]? = some line) : lineAt lines row = .ok line := by
  unfold lineAt
  rw [if_neg (by omega)]
  exact FixedTextArea.get_ok_iff.mpr here

theorem lineHeight_pos : 0 < (font.lineHeight : Int) := by
  have valid := font.valid
  rw [font.lineHeight_eq]
  omega

theorem charWidth_pos : 0 < (font.charWidth : Int) := by
  have := font.charWidth_pos
  omega

theorem getLineInfo_row (nonempty : lines ≠ []) {baseY rows : Int} (below : 0 ≤ baseY + rows) :
    0 ≤ (getLineInfo font lines baseY rows).lineIndex ∧
      (getLineInfo font lines baseY rows).lineIndex < lines.length := by
  have positive : 0 < lines.length := List.length_pos_iff.mpr nonempty
  have quotient : 0 ≤ (baseY + rows).tdiv font.lineHeight :=
    Int.tdiv_nonneg below (Int.natCast_nonneg _)
  simp only [getLineInfo]
  split <;> omega

theorem getLineCursorPos_ok (nonempty : lines ≠ []) {y baseY : Int} (below : 0 ≤ baseY + y)
    (x leftMargin : Int) : ∃ (line : FixedTextLine) (row : Nat), lines[row]? = some line ∧
      getLineCursorPos font lines x y baseY leftMargin =
        .ok (⟨min ((x - leftMargin).tdiv font.charWidth) line.size, row⟩,
          ⟨leftMargin + min ((x - leftMargin).tdiv font.charWidth) line.size * font.charWidth,
            (getLineInfo font lines baseY y).lineBaseY⟩) := by
  obtain ⟨low, high⟩ := getLineInfo_row font nonempty below
  have bound : (getLineInfo font lines baseY y).lineIndex.toNat < lines.length := by omega
  have here := List.getElem?_eq_getElem bound
  refine ⟨_, _, here, ?_⟩
  have clamped : ∀ a b : Int, (if a > b then b else a) = min a b := by
    intro a b
    split <;> omega
  simp only [getLineCursorPos, lineAt_ok low here, bind, Except.bind, clamped]
  rw [Int.toNat_of_nonneg low]

theorem getLineCursorPos_caret (nonempty : lines ≠ []) {y baseY : Int} (below : 0 ≤ baseY + y)
    (x leftMargin : Int) :
    (∃ p q, getLineCursorPos font lines x y baseY leftMargin = .ok (p, q) ∧ Caret lines p) ↔
      leftMargin - font.charWidth < x := by
  have width := font.charWidth_pos
  obtain ⟨line, row, here, found⟩ := getLineCursorPos_ok font nonempty below x leftMargin
  have column : 0 ≤ (x - leftMargin).tdiv font.charWidth ↔ leftMargin - font.charWidth < x := by
    constructor
    · intro nonneg
      by_contra left
      have least : (x - leftMargin).tdiv font.charWidth ≤ (-(font.charWidth : Int)).tdiv font.charWidth :=
        Int.tdiv_le_tdiv (by omega) (by omega)
      rw [Int.neg_tdiv, Int.tdiv_self (by omega)] at least
      omega
    · intro right
      rcases Int.le_total 0 (x - leftMargin) with inside | margin
      · exact Int.tdiv_nonneg inside (by omega)
      · have : (-(x - leftMargin)).tdiv font.charWidth = 0 :=
          Int.tdiv_eq_zero_of_lt (by omega) (by omega)
        rw [Int.neg_tdiv] at this
        omega
  constructor
  · rintro ⟨p, q, same, caret⟩
    cases Except.ok.inj (found.symm.trans same)
    have nonneg := caret.column
    simp only at nonneg
    exact column.mp (by omega)
  · intro right
    have nonneg := column.mpr right
    refine ⟨_, _, found, by simp, ?_, line, by simpa using here, ?_⟩
    · simp only
      omega
    · simp only
      omega

theorem getLineBaseX_ok {col row : Int} {line : FixedTextLine} (low : 0 ≤ row)
    (here : lines[row.toNat]? = some line) (short : col ≤ line.size) (leftMargin : Int) :
    getLineBaseX font lines col row leftMargin = .ok (leftMargin + col * font.charWidth) := by
  simp only [getLineBaseX, lineAt_ok low here, bind, Except.bind]
  rw [if_neg (by omega)]

theorem getLineBaseY_eq {row : Int} (high : row < lines.length) (baseY : Int) :
    getLineBaseY font lines row baseY = (row + 1) * font.lineHeight - 1 - baseY := by
  simp only [getLineBaseY]
  rw [if_neg (by omega)]

theorem getLineInfo_baseY {row : Int} (low : 0 ≤ row) (high : row < lines.length) (baseY : Int) :
    (getLineInfo font lines baseY (getLineBaseY font lines row baseY)).lineIndex = row := by
  have positive := lineHeight_pos font
  have bottom : baseY + getLineBaseY font lines row baseY =
      row * font.lineHeight + (font.lineHeight - 1) := by
    rw [getLineBaseY_eq font high]
    ring
  have quotient : (baseY + getLineBaseY font lines row baseY).tdiv font.lineHeight = row := by
    have nonneg : 0 ≤ row * (font.lineHeight : Int) := Int.mul_nonneg low (by omega)
    rw [bottom, Int.tdiv_eq_ediv_of_nonneg (by omega), Int.add_comm,
      Int.add_mul_ediv_right _ _ (by omega), Int.ediv_eq_zero_of_lt (by omega) (by omega)]
    omega
  simp only [getLineInfo, quotient]
  rw [if_neg (by omega)]

theorem getLineCursorPos_base (baseY : Int) {col row : Int} (caret : Caret lines ⟨col, row⟩)
    (leftMargin : Int) :
    ∃ baseX, getLineBaseX font lines col row leftMargin = .ok baseX ∧
      ∃ q, getLineCursorPos font lines baseX (getLineBaseY font lines row baseY) baseY leftMargin =
        .ok (⟨col, row⟩, q) := by
  obtain ⟨line, here, short⟩ := caret.line
  have low : 0 ≤ row := caret.row
  have high : row < lines.length := by
    have := (List.getElem?_eq_some_iff.mp here).1
    simp only at this
    omega
  have index := getLineInfo_baseY font low high baseY
  have column : (leftMargin + col * font.charWidth - leftMargin).tdiv font.charWidth = col := by
    have positive := charWidth_pos font
    rw [add_sub_cancel_left]
    exact Int.mul_tdiv_cancel col (by omega)
  refine ⟨_, getLineBaseX_ok font low here short leftMargin, ?_⟩
  simp only [getLineCursorPos, index, lineAt_ok low here, bind, Except.bind, column]
  rw [if_neg (by simp only at short; omega)]
  exact ⟨_, rfl⟩

/-- Of the pixels of an area those are mapped to a caret position that are less than a
    character left of the margin; visible caret positions are found where they are. -/
theorem click_mapping (font : Font) (lines : List FixedTextLine) (nonempty : lines ≠ [])
    (width height scrollY leftMargin : Int) (scrolled : 0 ≤ scrollY) :
    (∀ x y, 0 ≤ x → x < width → 0 ≤ y → y < height →
      ((∃ p q, getLineCursorPos font lines x y scrollY leftMargin = .ok (p, q) ∧ Caret lines p) ↔
        leftMargin - font.charWidth < x)) ∧
    ∀ col row, Caret lines ⟨col, row⟩ → ∀ baseX baseY,
      getLineBaseX font lines col row leftMargin = .ok baseX →
      getLineBaseY font lines row scrollY = baseY →
      0 ≤ baseX → baseX < width → 0 ≤ baseY → baseY < height →
      ∃ q, getLineCursorPos font lines baseX baseY scrollY leftMargin = .ok (⟨col, row⟩, q) := by
  constructor
  · intro x y _ _ top _
    exact getLineCursorPos_caret font nonempty (by omega) x leftMargin
  · rintro col row caret baseX baseY foundX rfl _ _ _ _
    obtain ⟨x, sameX, click⟩ := getLineCursorPos_base font scrollY caret leftMargin
    cases Except.ok.inj (sameX.symm.trans foundX)
    exact click

def plain : Font := ⟨DEFAULT_FONT_SIZE, false, false, by decide⟩

theorem click_mapping_margin :
    (∃ p q, getLineCursorPos plain [emptyLine] 1 0 0 8 = .ok (p, q) ∧ Caret [emptyLine] p) ↔
      (8 : Int) - plain.charWidth < 1 :=
  (click_mapping plain [emptyLine] (by decide) 320 60 0 8 (by decide)).1 1 0
    (by decide) (by decide) (by decide) (by decide)

/-- The first column of pixels, with the margin and the font an area starts with. -/
theorem click_left_of_margin :
    getLineCursorPos plain [emptyLine] 0 0 0 8 = .ok (⟨-1, 0⟩, ⟨0, 19⟩) ∧
      ¬ Caret [emptyLine] ⟨-1, 0⟩ :=
  ⟨by decide, fun caret => absurd caret.column (by decide)⟩

end FixedText.FixedTextLines
