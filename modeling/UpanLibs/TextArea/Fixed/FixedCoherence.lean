import UpanLibs.TextArea.Fixed.FixedTextArea
import UpanLibs.TextArea.Fixed.FixedLinesRealign
import Mathlib.Tactic.Linarith
import Mathlib.Tactic.Ring

/-!
The pixel caret and the scroll offset of a `FixedTextArea` against the lines and the
caret they stand for.
-/
namespace FixedText

open TextInput

theorem Font.charWidth_pos (font : Font) : 0 < font.charWidth := by
  have valid := font.valid
  unfold Font.charWidth DEFAULT_FONT_SIZE
  cases font.bold <;> cases font.italic <;>
    · simp only [Bool.false_eq_true, if_false, if_true]
      rw [Nat.mod_eq_of_lt (by omega)]
      omega

theorem Font.lineHeight_eq (font : Font) : font.lineHeight = font.fontSize + 4 := by
  have valid := font.valid
  unfold Font.lineHeight DEFAULT_LINE_SPACE
  omega

namespace Config

variable (c : Config)

theorem charWidth_pos : 0 < c.charWidth := by
  have := c.font.charWidth_pos
  unfold charWidth
  omega

theorem lineHeight_pos : 0 < c.lineHeight := by
  have := c.font.lineHeight_eq
  unfold lineHeight
  omega

def columnX (x : Nat) : Int := c.leftMargin + x * c.charWidth

def linesHeight (n : Nat) : Int := n * c.lineHeight

@[simp]
theorem columnX_zero : c.columnX 0 = c.leftMargin := by
  simp [columnX]

theorem columnX_succ (x : Nat) : c.columnX (x + 1) = c.columnX x + c.charWidth := by
  simp only [columnX, Nat.cast_add, Nat.cast_one]
  ring

theorem columnX_add (x k : Nat) : c.columnX (x + k) = c.columnX x + k * c.charWidth := by
  simp only [columnX, Nat.cast_add]
  ring

theorem linesHeight_succ (n : Nat) : c.linesHeight (n + 1) = c.linesHeight n + c.lineHeight := by
  simp only [linesHeight, Nat.cast_add, Nat.cast_one]
  ring

@[simp]
theorem linesHeight_zero : c.linesHeight 0 = 0 := by
  simp [linesHeight]

theorem linesHeight_add (m n : Nat) :
    c.linesHeight (m + n) = c.linesHeight m + c.linesHeight n := by
  simp only [linesHeight, Nat.cast_add]
  ring

theorem linesHeight_mono {m n : Nat} (le : m ≤ n) : c.linesHeight m ≤ c.linesHeight n := by
  have pos := c.lineHeight_pos
  induction le with
  | refl => exact Int.le_refl _
  | step le ih =>
    rw [linesHeight_succ]
    omega

theorem linesHeight_nonneg (n : Nat) : 0 ≤ c.linesHeight n := by
  simpa using c.linesHeight_mono (Nat.zero_le n)

theorem calcMaxLineChars_mono {w w' : Int} (room : c.leftMargin * 2 ≤ w) (le : w ≤ w') :
    c.calcMaxLineChars w ≤ c.calcMaxLineChars w' := by
  have pos := c.charWidth_pos
  unfold calcMaxLineChars
  rw [Int.tdiv_eq_ediv_of_nonneg (by omega), Int.tdiv_eq_ediv_of_nonneg (by omega)]
  exact Int.toNat_le_toNat (Int.ediv_le_ediv pos (by omega))

theorem room_le {w : Int} (wide : c.minWidth ≤ w) : c.leftMargin * 2 + c.charWidth ≤ w := by
  have := c.room
  unfold minWidth at wide
  unfold charWidth
  omega

theorem calcMaxLineChars_pos {w : Int} (wide : c.minWidth ≤ w) :
    0 < c.calcMaxLineChars w := by
  have pos := c.charWidth_pos
  have room := c.room_le wide
  unfold calcMaxLineChars
  rw [Int.tdiv_eq_ediv_of_nonneg (by omega)]
  have : 1 ≤ (w - c.leftMargin * 2) / c.charWidth := by
    apply Int.le_ediv_of_mul_le pos
    omega
  omega

end Config

variable {c : Config}

namespace FixedTextArea

def ScrollBound (s : FixedTextArea) (z : Int) : Prop :=
  0 ≤ z ∧ z ≤ max 0 (s.scrollHeight - s.height)

structure Coherent (c : Config) (s : FixedTextArea) : Prop where
  caret : ∃ line, s.lines[s.characterPos.y]? = some line ∧
    s.cursorPos.x = c.columnX (min s.characterPos.x line.size)
  base : s.cursorPos.y = c.linesHeight (s.characterPos.y + 1) - 1 - s.scrollY
  content : s.scrollHeight = c.linesHeight s.lines.length
  scroll : s.ScrollBound s.scrollY

def Settled (c : Config) (s : FixedTextArea) : Prop :=
  s.bufferWidth = s.width ∧ s.bufferHeight = s.height ∧ c.minWidth ≤ s.width ∧
    0 < s.height ∧ s.maxLineChars = c.calcMaxLineChars s.width

structure Inv (c : Config) (s : FixedTextArea) : Prop where
  coherent : Coherent c s
  shaped : Shaped s.maxLineChars s.lines
  settled : Settled c s

theorem Coherent.row {s : FixedTextArea} (h : Coherent c s) :
    s.characterPos.y < s.lines.length := by
  obtain ⟨line, here, _⟩ := h.caret
  exact (List.getElem?_eq_some_iff.mp here).1

theorem get_ok {lines : List FixedTextLine} {y : Nat} (row : y < lines.length) :
    get lines y = .ok lines[y] := by
  simp [get, row]

theorem get_ok_iff {lines : List FixedTextLine} {y : Nat} {line : FixedTextLine} :
    get lines y = .ok line ↔ lines[y]? = some line := by
  unfold get
  split <;> simp_all

theorem updateCursor_ok {s : FixedTextArea} (row : s.characterPos.y < s.lines.length) :
    updateCursor s = .ok () := by
  simp [updateCursor, get_ok row, bind, Except.bind]

theorem updateCursorPosition_ok {s : FixedTextArea} {x y : Nat} {q : UIPosition Int}
    (row : s.characterPos.y < s.lines.length) (row' : y < s.lines.length) :
    updateCursorPosition ⟨x, y⟩ q s = .ok { s with characterPos := ⟨x, y⟩, cursorPos := q } := by
  simp [updateCursorPosition, updateCursor, get_ok row, get_ok row', bind, Except.bind]

def scrolledTo (z : Int) (s : FixedTextArea) : FixedTextArea :=
  { s with scrollY := z, cursorPos := ⟨s.cursorPos.x, s.cursorPos.y - (z - s.scrollY)⟩ }

/-- The area with the caret at a column and a row, scrolled to the offset `z`. -/
def caretAt (c : Config) (x y : Nat) (z : Int) (s : FixedTextArea) : FixedTextArea :=
  { s with characterPos := ⟨x, y⟩, scrollY := z,
           cursorPos := ⟨c.columnX x, c.linesHeight (y + 1) - 1 - z⟩ }

section

variable (s : FixedTextArea) (x y x' y' : Nat) (z z' : Int)

@[simp] theorem scrolledTo_lines : (s.scrolledTo z).lines = s.lines := rfl
@[simp] theorem scrolledTo_pos : (s.scrolledTo z).characterPos = s.characterPos := rfl
@[simp] theorem scrolledTo_max : (s.scrolledTo z).maxLineChars = s.maxLineChars := rfl
@[simp] theorem caretAt_lines : (s.caretAt c x y z).lines = s.lines := rfl
@[simp] theorem caretAt_pos : (s.caretAt c x y z).characterPos = ⟨x, y⟩ := rfl
@[simp] theorem caretAt_scrollY : (s.caretAt c x y z).scrollY = z := rfl
@[simp] theorem caretAt_max : (s.caretAt c x y z).maxLineChars = s.maxLineChars := rfl
@[simp] theorem caretAt_caretAt :
    (s.caretAt c x y z).caretAt c x' y' z' = s.caretAt c x' y' z' := rfl

end

theorem newScrollY_bound {s : FixedTextArea} (bound : s.ScrollBound s.scrollY) (sy : Int) :
    s.ScrollBound (s.newScrollY sy) := by
  obtain ⟨low, high⟩ := bound
  unfold ScrollBound newScrollY
  simp only
  split
  · omega
  · split <;> omega

theorem vscroll_ok {s : FixedTextArea} (row : s.characterPos.y < s.lines.length)
    (low : 0 ≤ s.scrollY) (rows : Int) :
    vscroll rows s = .ok (s.scrolledTo (s.newScrollY (-rows))) := by
  have down : -rows > 0 → s.scrollY ≤ s.newScrollY (-rows) := by
    intro positive
    unfold newScrollY
    rw [if_neg (by omega)]
    simp only
    split <;> omega
  have up : ¬ -rows > 0 → s.newScrollY (-rows) ≤ s.scrollY := by
    intro negative
    unfold newScrollY
    split
    · omega
    · simp only
      split <;> omega
  generalize target : s.newScrollY (-rows) = z at down up
  have shifted : (if ((z - s.scrollY).natAbs : Int) > 0 then
      { updateScrollY (-rows) s with cursorPos.y := (updateScrollY (-rows) s).cursorPos.y +
        (if decide (-rows > 0) = true then -((z - s.scrollY).natAbs : Int)
          else ((z - s.scrollY).natAbs : Int)) }
      else updateScrollY (-rows) s) = s.scrolledTo z := by
    simp only [updateScrollY, scrolledTo, target, decide_eq_true_eq]
    split
    next moved =>
      congr 2
      split
      next positive =>
        have := down positive
        omega
      next negative =>
        have := up negative
        omega
    next still =>
      have same : z = s.scrollY := by omega
      simp [same]
  unfold vscroll
  simp only [updateCursor_ok row, bind, Except.bind, target]
  rw [shifted, updateCursor_ok (by exact row)]

theorem Coherent.scrolledTo {s : FixedTextArea} (h : Coherent c s) {z : Int}
    (bound : s.ScrollBound z) : Coherent c (s.scrolledTo z) := by
  refine ⟨h.caret, ?_, h.content, bound⟩
  have base := h.base
  simp only [FixedTextArea.scrolledTo]
  omega

theorem Coherent.caretAt {s : FixedTextArea} (content : s.scrollHeight = c.linesHeight s.lines.length)
    {x y : Nat} {z : Int} {line : FixedTextLine} (here : s.lines[y]? = some line)
    (within : x ≤ line.size) (bound : s.ScrollBound z) : Coherent c (s.caretAt c x y z) :=
  ⟨⟨line, here, by simp [FixedTextArea.caretAt, Nat.min_eq_left within]⟩, rfl, content, bound⟩

@[simp]
theorem scrolledTo_self (s : FixedTextArea) : s.scrolledTo s.scrollY = s := by
  simp [FixedTextArea.scrolledTo]

theorem changeScrollHeight_ok {s : FixedTextArea} (row : s.characterPos.y < s.lines.length)
    (bound : s.ScrollBound s.scrollY) {delta : Int} (low : 0 ≤ s.scrollHeight + delta) :
    ∃ z, changeScrollHeight delta s =
        .ok ({ s with scrollHeight := s.scrollHeight + delta }.scrolledTo z) ∧
      ScrollBound { s with scrollHeight := s.scrollHeight + delta } z := by
  obtain ⟨lowScroll, highScroll⟩ := bound
  unfold changeScrollHeight
  simp only [if_neg (Int.not_lt.mpr low)]
  by_cases same : s.scrollHeight + delta = s.scrollHeight
  · refine ⟨s.scrollY, ?_, lowScroll, ?_⟩
    · rw [if_neg (not_not.mpr same), same]
      simp
    · simp only [same]
      exact highScroll
  · rw [if_pos same]
    unfold scrollToCoverEmptyArea
    simp only
    by_cases uncovered : s.scrollHeight + delta - s.scrollY < s.height ∧ s.scrollY ≠ 0
    · rw [if_pos uncovered, vscroll_ok (by exact row) (by exact lowScroll)]
      refine ⟨_, rfl, ?_⟩
      simp only [ScrollBound, newScrollY]
      omega
    · rw [if_neg uncovered]
      refine ⟨s.scrollY, by simp [FixedTextArea.scrolledTo], lowScroll, ?_⟩
      simp only
      omega

theorem columnBelow_eq (k : Nat) (left charX : Nat) (reached : charX ≤ k) :
    columnBelow c (c.columnX k) left charX (c.columnX charX) =
      (min k (charX + left), c.columnX (min k (charX + left))) := by
  have pos := c.charWidth_pos
  induction left generalizing charX with
  | zero => simp [columnBelow, Nat.min_eq_right reached]
  | succ left ih =>
    rw [columnBelow, ← c.columnX_succ]
    by_cases here : charX = k
    · have stop : c.columnX (charX + 1) > c.columnX k := by
        rw [here, c.columnX_succ]
        omega
      rw [if_pos stop, here, Nat.min_eq_left (by omega)]
    · have further : charX + 1 ≤ k := by omega
      have go : ¬ c.columnX (charX + 1) > c.columnX k := by
        obtain ⟨d, rfl⟩ := Nat.exists_eq_add_of_le further
        rw [c.columnX_add (charX + 1) d]
        have : 0 ≤ (d : Int) * c.charWidth := Int.mul_nonneg (by omega) (by omega)
        omega
      rw [if_neg go, ih (charX + 1) further, show charX + 1 + left = charX + (left + 1) by omega]

theorem columnIn_eq (line : FixedTextLine) (k : Nat) :
    columnIn c line (c.columnX k) = (min k line.size, c.columnX (min k line.size)) := by
  have column := columnBelow_eq (c := c) k line.size 0 (Nat.zero_le k)
  rw [c.columnX_zero, Nat.zero_add] at column
  exact column

/-- What the moves use of a coherent area whose caret is drawn at the column `k`. -/
structure Drawn (c : Config) (k : Nat) (s : FixedTextArea) : Prop where
  row : s.characterPos.y < s.lines.length
  column : s.cursorPos.x = c.columnX k
  base : s.cursorPos.y = c.linesHeight (s.characterPos.y + 1) - 1 - s.scrollY
  content : s.scrollHeight = c.linesHeight s.lines.length
  scroll : s.ScrollBound s.scrollY

theorem Coherent.drawn {s : FixedTextArea} (h : Coherent c s) :
    ∃ line, s.lines[s.characterPos.y]? = some line ∧
      Drawn c (min s.characterPos.x line.size) s := by
  obtain ⟨line, here, column⟩ := h.caret
  exact ⟨line, here, h.row, column, h.base, h.content, h.scroll⟩

theorem movedown_ok {k : Nat} {s : FixedTextArea} (h : Drawn c k s) {next : FixedTextLine}
    (here : s.lines[s.characterPos.y + 1]? = some next) :
    ∃ z, movedown c s = .ok (s.caretAt c (min k next.size) (s.characterPos.y + 1) z) ∧
      s.ScrollBound z := by
  have row' := (List.getElem?_eq_some_iff.mp here).1
  have bottom := c.linesHeight_mono (show s.characterPos.y + 1 + 1 ≤ s.lines.length by omega)
  have step := c.linesHeight_succ (s.characterPos.y + 1)
  have base := h.base
  have content := h.content
  obtain ⟨low, high⟩ := h.scroll
  unfold movedown
  rw [if_neg (by omega), get_ok_iff.mpr here]
  simp only [bind, Except.bind, h.column, columnIn_eq]
  by_cases inside : s.cursorPos.y + c.lineHeight - s.height < 0
  · rw [if_pos inside, updateCursorPosition_ok h.row row']
    refine ⟨s.scrollY, ?_, low, high⟩
    have below : s.cursorPos.y + c.lineHeight =
        c.linesHeight (s.characterPos.y + 1 + 1) - 1 - s.scrollY := by omega
    simp only [FixedTextArea.caretAt, below]
  · rw [if_neg inside, updateCursorPosition_ok h.row row']
    have target : newScrollY { s with
        characterPos := ⟨min k next.size, s.characterPos.y + 1⟩,
        cursorPos := ⟨c.columnX (min k next.size), s.height - 1⟩ }
        (s.cursorPos.y + c.lineHeight - s.height + 1) =
        s.scrollY + (s.cursorPos.y + c.lineHeight - s.height + 1) := by
      unfold newScrollY
      simp only
      rw [if_neg (by omega)]
      split <;> omega
    refine ⟨s.scrollY + (s.cursorPos.y + c.lineHeight - s.height + 1), ?_, by omega, by omega⟩
    have below : s.height - 1 = c.linesHeight (s.characterPos.y + 1 + 1) - 1 -
        (s.scrollY + (s.cursorPos.y + c.lineHeight - s.height + 1)) := by omega
    simp only [updateScrollY, target, FixedTextArea.caretAt, ← below]

theorem movedown_last {s : FixedTextArea} (last : s.characterPos.y + 1 = s.lines.length) :
    movedown c s = .ok s := by
  simp [movedown, last]

theorem moveup_ok {k : Nat} {s : FixedTextArea} (h : Drawn c k s) {charY : Nat}
    (above : s.characterPos.y = charY + 1) {prev : FixedTextLine}
    (here : s.lines[charY]? = some prev) :
    ∃ z, moveup c s = .ok (s.caretAt c (min k prev.size) charY z) ∧ s.ScrollBound z ∧
      (z = s.scrollY ∨ z = c.linesHeight charY) := by
  have row' := (List.getElem?_eq_some_iff.mp here).1
  have step := c.linesHeight_succ (charY + 1)
  have step' := c.linesHeight_succ charY
  have top := c.linesHeight_nonneg charY
  have base := h.base
  have pos := c.lineHeight_pos
  rw [above] at base
  obtain ⟨low, high⟩ := h.scroll
  unfold moveup
  rw [above]
  simp only [get_ok_iff.mpr here, bind, Except.bind, h.column, columnIn_eq]
  by_cases inside : s.cursorPos.y - c.lineHeight ≥ c.lineHeight - 1
  · rw [if_pos inside, updateCursorPosition_ok h.row row']
    refine ⟨s.scrollY, ?_, ⟨low, high⟩, .inl rfl⟩
    have up : s.cursorPos.y - c.lineHeight = c.linesHeight (charY + 1) - 1 - s.scrollY := by
      omega
    simp only [FixedTextArea.caretAt, up]
  · rw [if_neg inside, updateCursorPosition_ok h.row row']
    have target : newScrollY { s with
        characterPos := ⟨min k prev.size, charY⟩,
        cursorPos := ⟨c.columnX (min k prev.size), c.lineHeight - 1⟩ }
        (-(c.lineHeight - 1 - (s.cursorPos.y - c.lineHeight))) = c.linesHeight charY := by
      unfold newScrollY
      simp only
      rw [if_pos (by omega)]
      omega
    refine ⟨c.linesHeight charY, ?_, ⟨top, by omega⟩, .inr rfl⟩
    have up : c.lineHeight - 1 = c.linesHeight (charY + 1) - 1 - c.linesHeight charY := by omega
    simp only [updateScrollY, target, FixedTextArea.caretAt, ← up]

theorem moveup_top {s : FixedTextArea} (top : s.characterPos.y = 0) : moveup c s = .ok s := by
  unfold moveup
  rw [top]

end FixedTextArea
end FixedText
