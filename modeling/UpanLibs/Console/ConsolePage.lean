import UpanLibs.Console.ConsoleDisplay

/-!
What is written through `character`, `message` and `nmessage` is laid out on a page
without end, and the grid shows the end of it.
-/
namespace ConsoleBuffer
open TextPage Console

variable {rows columns : Nat} {s : Console} {page page' : Page Cell}

def typed (columns : Nat) (page : Page Cell) (c : Cell) : Page Cell :=
  if c.ch = NEWLINE then page.newLine columns
  else if c.ch = TAB then (List.replicate 4 (⟨SPACE, c.attr⟩ : Cell)).foldl Page.put page
  else page.put c

def layOut (columns : Nat) (stream : List Cell) : Page Cell :=
  stream.foldl (typed columns) (Page.empty blank)

def Output.stream : Output → List Cell
  | .character ch attr => [⟨ch, attr⟩]
  | .message text attr => (text.takeWhile (· ≠ 0)).map fun ch => ⟨ch, attr⟩
  | .nmessage text n attr => (text.take n).map fun ch => ⟨ch, attr⟩

def Showing (rows columns : Nat) (s : Console) (page : Page Cell) : Prop :=
  Shows rows columns s.cell s.cursorPos page ∧ page.Clean blank

section Writes

variable (rows_pos : 0 < rows) (columns_pos : 0 < columns)
include rows_pos columns_pos

theorem shows_scrollDown {screen : Nat → Cell} {cursor : Nat}
    (before : Shows rows columns screen cursor page)
    (cells : ∀ i, i < rows * columns → s.cell i = page'.cell (page.top rows columns * columns + i))
    (at_ : page'.pos = page.top rows columns * columns + s.cursorPos) (on : cursor ≤ s.cursorPos)
    (bound : s.cursorPos ≤ rows * columns) (clean : page'.Clean blank) :
    Showing rows columns (s.scrollDown rows columns) page' := by
  refine ⟨?_, clean⟩
  by_cases above : s.cursorPos < rows * columns
  · rw [scrollDown_above above]
    exact before.advance columns_pos cells at_ on above
  · have behind : s.cursorPos = rows * columns := by omega
    have cursor' : (s.scrollDown rows columns).cursorPos = (rows - 1) * columns := by
      rw [scrollDown, if_neg above]
      exact Nat.mul_div_cancel _ (by decide)
    rw [behind] at at_
    rw [cursor']
    apply (before.scroll columns_pos rows_pos cells at_ clean).congr
    intro i inside
    exact scrollDown_cell above inside

theorem showing_glyph (showing : Showing rows columns s page) (ch attr : UInt8) :
    Showing rows columns (s.glyph rows columns ch attr) (page.put ⟨ch, attr⟩) := by
  obtain ⟨before, clean⟩ := showing
  have inside := before.inside columns_pos
  apply shows_scrollDown rows_pos columns_pos before
  · intro i _
    have place : page.top rows columns * columns + i = page.pos ↔ i = s.cursorPos := by
      rw [before.cursor]
      omega
    have written : ({ s.putChar s.getCurBytePos ch attr with cursorPos :=
        (s.putChar s.getCurBytePos ch attr).cursorPos + 1 } : Console).cell =
        Function.update s.cell s.cursorPos ⟨ch, attr⟩ := putChar_cell s.cursorPos
    have added : (page.put ⟨ch, attr⟩).cell = Function.update page.cell page.pos ⟨ch, attr⟩ := rfl
    rw [written, added]
    by_cases here : i = s.cursorPos
    · rw [here, Function.update_self, ← before.cursor, Function.update_self]
    · rw [Function.update_of_ne here, Function.update_of_ne (mt place.mp here)]
      exact before.cells i (by omega)
  · have moved : (page.put ⟨ch, attr⟩).pos = page.pos + 1 := rfl
    rw [moved, before.cursor, putChar_cursor, Nat.add_assoc]
  · rw [putChar_cursor]
    exact Nat.le_succ _
  · rw [putChar_cursor]
    exact inside
  · exact clean.put _

theorem showing_nextLine (showing : Showing rows columns s page) :
    Showing rows columns (s.nextLine rows columns) (page.newLine columns) := by
  obtain ⟨before, clean⟩ := showing
  have inside := before.inside columns_pos
  have row := row_of columns_pos before.cursor
  have within : s.cursorPos / columns < rows := (Nat.div_lt_iff_lt_mul columns_pos).mpr inside
  have moved : (page.newLine columns).pos =
      page.top rows columns * columns + (s.cursorPos / columns + 1) * columns := by
    rw [Page.newLine, row, Nat.add_assoc, Nat.add_mul]
  apply shows_scrollDown rows_pos columns_pos before
  · exact before.cells
  · exact moved
  · have later := Page.le_newLine columns_pos page
    have at_ := before.cursor
    have : s.cursorPos ≤ (s.cursorPos / columns + 1) * columns := by omega
    exact this
  · exact Nat.mul_le_mul_right columns within
  · exact clean.newLine columns_pos

theorem showing_glyphs (showing : Showing rows columns s page) (text : List UInt8) (attr : UInt8) :
    Showing rows columns (text.foldl (fun s ch => s.glyph rows columns ch attr) s)
      ((text.map fun ch => (⟨ch, attr⟩ : Cell)).foldl Page.put page) := by
  induction text generalizing s page with
  | nil => exact showing
  | cons ch text ih => exact ih (showing_glyph rows_pos columns_pos showing ch attr)

theorem showing_character (showing : Showing rows columns s page) (ch attr : UInt8) :
    Showing rows columns (s.character rows columns ch attr) (typed columns page ⟨ch, attr⟩) := by
  rw [character, typed]
  split
  · exact showing_nextLine rows_pos columns_pos showing
  · split
    · have blanks := showing_glyphs rows_pos columns_pos showing (List.replicate 4 SPACE) attr
      rw [List.map_replicate] at blanks
      exact blanks
    · exact showing_glyph rows_pos columns_pos showing ch attr

theorem showing_characters (showing : Showing rows columns s page) (text : List UInt8)
    (attr : UInt8) : Showing rows columns (s.characters rows columns text attr)
      ((text.map fun ch => (⟨ch, attr⟩ : Cell)).foldl (typed columns) page) := by
  induction text generalizing s page with
  | nil => exact showing
  | cons ch text ih => exact ih (showing_character rows_pos columns_pos showing ch attr)

theorem showing_output (showing : Showing rows columns s page) (out : Output) :
    Showing rows columns (out.perform rows columns s) (out.stream.foldl (typed columns) page) := by
  cases out with
  | character ch attr => exact showing_character rows_pos columns_pos showing ch attr
  | message text attr => exact showing_characters rows_pos columns_pos showing _ attr
  | nmessage text n attr => exact showing_characters rows_pos columns_pos showing _ attr

theorem showing_outputs (showing : Showing rows columns s page) (outs : List Output) :
    Showing rows columns (outs.foldl (Output.perform rows columns) s)
      ((outs.flatMap Output.stream).foldl (typed columns) page) := by
  induction outs generalizing s page with
  | nil => exact showing
  | cons out outs ih =>
    rw [List.flatMap_cons, List.foldl_append]
    exact ih (showing_output rows_pos columns_pos showing out)

end Writes

theorem clearFrom_cell (k rounds i : Nat) : (s.clearFrom (k * 2) rounds).cell i =
    if k ≤ i ∧ i < k + rounds then blank else s.cell i := by
  induction rounds generalizing k s with
  | zero =>
    rw [if_neg (by omega)]
    rfl
  | succ rounds ih =>
    have next : k * 2 + NO_BYTES_PER_CHARACTER = (k + 1) * 2 := (Nat.succ_mul k 2).symm
    rw [clearFrom, next, ih, putChar_cell]
    by_cases here : i = k
    · subst here
      simp [blank]
    · have same : (k + 1 ≤ i ∧ i < k + 1 + rounds) ↔ (k ≤ i ∧ i < k + (rounds + 1)) := by omega
      rw [Function.update_of_ne here]
      simp only [same]

def Fresh (rows columns : Nat) (s : Console) : Prop :=
  (∃ memory display, s = .new rows columns memory display) ∨ ∃ before : Console, s = before.clear rows columns

theorem showing_fresh (rows_pos : 0 < rows) (columns_pos : 0 < columns)
    (fresh : Fresh rows columns s) : Showing rows columns s (Page.empty blank) := by
  refine ⟨?_, Page.clean_empty blank⟩
  rcases fresh with ⟨memory, display, rfl⟩ | ⟨before, rfl⟩
  · apply shows_empty rows_pos
    intro i inside
    have filled := fillBlanks_cell memory 0 (rows * columns) i
    rw [if_pos (by omega)] at filled
    exact filled
  · have room : 0 < rows * columns := Nat.mul_pos rows_pos columns_pos
    have cursor : (before.clear rows columns).cursorPos = 0 := by
      rw [clear, setCurPos, if_pos (by omega)]
      rfl
    rw [cursor]
    apply shows_empty rows_pos
    intro i inside
    have cleared := clearFrom_cell (s := before) 0 (rows * columns) i
    rw [if_pos (by omega)] at cleared
    rw [clear, setCurPos]
    split
    · exact cleared
    · exact cleared

theorem grid_shows_end_of_page {rows columns : Nat} (rows_pos : 0 < rows)
    (columns_pos : 0 < columns) {s : Console} (fresh : Fresh rows columns s) (outs : List Output) :
    let shown := outs.foldl (Output.perform rows columns) s
    let page := layOut columns (outs.flatMap Output.stream)
    Shows rows columns shown.cell shown.cursorPos page :=
  (showing_outputs rows_pos columns_pos (showing_fresh rows_pos columns_pos fresh) outs).1

theorem grid_shows_end_of_page_scrolled :
    let outs : List Output := [.message [65, NEWLINE, 66, 67, 68, 0, 69] 7, .character TAB 2]
    let shown := outs.foldl (Output.perform 2 3) (.new 2 3 (fun _ => 0) fun _ => ⟨0, 0⟩)
    Shows 2 3 shown.cell shown.cursorPos (layOut 3 (outs.flatMap Output.stream)) :=
  grid_shows_end_of_page (by decide) (by decide) (.inl ⟨_, _, rfl⟩) _

end ConsoleBuffer
