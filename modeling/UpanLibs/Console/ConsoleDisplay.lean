import UpanLibs.Console.ConsoleBuffer

/-!
What the writes of `ConsoleBuffer` do to the cells of the grid, and that the display
follows them: a cell that is not drawn again had been drawn like that before.
-/
namespace ConsoleBuffer
open TextPage

variable {rows columns : Nat} {s : Console} {ch attr : UInt8}

section Cells

variable {buffer : Nat → UInt8}

theorem cellAt_update_pair (i : Nat) (ch attr : UInt8) :
    cellAt (Function.update (Function.update buffer (i * 2) ch) (i * 2 + 1) attr) =
      Function.update (cellAt buffer) i ⟨ch, attr⟩ := by
  funext j
  by_cases same : j = i
  · subst same
    simp [cellAt]
  · have first : j * 2 ≠ i * 2 := by omega
    have second : j * 2 ≠ i * 2 + 1 := by omega
    have third : j * 2 + 1 ≠ i * 2 := by omega
    simp [cellAt, same, first, second, third]

theorem fillBlanks_cell (buffer : Nat → UInt8) (k n j : Nat) : cellAt (fillBlanks (k * 2) n buffer) j =
    if k ≤ j ∧ j < k + n then blank else cellAt buffer j := by
  induction n generalizing k buffer with
  | zero =>
    rw [if_neg (by omega)]
    rfl
  | succ n ih =>
    have next : k * 2 + NO_BYTES_PER_CHARACTER = (k + 1) * 2 := by
      rw [NO_BYTES_PER_CHARACTER]
      omega
    rw [fillBlanks, next, ih, cellAt_update_pair]
    by_cases here : j = k
    · subst here
      simp [blank]
    · rw [Function.update_of_ne here]
      have same : (k + 1 ≤ j ∧ j < k + 1 + n) ↔ (k ≤ j ∧ j < k + (n + 1)) := by omega
      simp only [same]

theorem fillBlanks_other (i n j : Nat) (outside : j < i ∨ i + n * 2 ≤ j) :
    fillBlanks i n buffer j = buffer j := by
  induction n generalizing i buffer with
  | zero => rfl
  | succ n ih =>
    have step : NO_BYTES_PER_CHARACTER = 2 := rfl
    rw [fillBlanks, step, ih _ (by omega)]
    rw [Function.update_of_ne (by omega), Function.update_of_ne (by omega)]

theorem copyDown_cell (columns n j : Nat) : cellAt (copyDown (columns * 2) (n * 2) buffer) j =
    if j < n then cellAt buffer (j + columns) else cellAt buffer j := by
  have first : j * 2 < n * 2 ↔ j < n := by omega
  have second : j * 2 + 1 < n * 2 ↔ j < n := by omega
  have place : j * 2 + columns * 2 = (j + columns) * 2 := by omega
  have place' : j * 2 + 1 + columns * 2 = (j + columns) * 2 + 1 := by omega
  simp only [cellAt, copyDown, first, second, place, place']
  split <;> rfl

end Cells

namespace Console

theorem putCharOnBuffer_buffer (pos : Nat) (val : UInt8) :
    (s.putCharOnBuffer pos val).2.buffer = Function.update s.buffer pos val := by
  by_cases same : s.buffer pos = val
  · simp [putCharOnBuffer, ← same]
  · simp [putCharOnBuffer, same]

theorem putCharOnBuffer_rest (pos : Nat) (val : UInt8) :
    (s.putCharOnBuffer pos val).2.cursorPos = s.cursorPos ∧
      (s.putCharOnBuffer pos val).2.display = s.display := by
  rw [putCharOnBuffer]
  by_cases same : s.buffer pos = val <;> simp [same]

theorem putChar_buffer (iPos : Nat) : (s.putChar iPos ch attr).buffer =
    Function.update (Function.update s.buffer iPos ch) (iPos + 1) attr := by
  rw [← putCharOnBuffer_buffer, ← putCharOnBuffer_buffer, putChar]
  split <;> rfl

@[simp]
theorem putChar_cursor (iPos : Nat) : (s.putChar iPos ch attr).cursorPos = s.cursorPos := by
  have same := (putCharOnBuffer_rest (s := (s.putCharOnBuffer iPos ch).2) (iPos + 1) attr).1
  rw [(putCharOnBuffer_rest iPos ch).1] at same
  rw [putChar]
  split <;> exact same

theorem putChar_cell (i : Nat) : (s.putChar (i * 2) ch attr).cell =
    Function.update s.cell i ⟨ch, attr⟩ := by
  rw [cell, putChar_buffer, cellAt_update_pair]
  rfl

theorem putChar_display (i : Nat) : (s.putChar (i * 2) ch attr).display =
    if s.cell i = ⟨ch, attr⟩ then s.display else Function.update s.display i ⟨ch, attr⟩ := by
  have kept := (putCharOnBuffer_rest (s := (s.putCharOnBuffer (i * 2) ch).2) (i * 2 + 1) attr).2
  rw [(putCharOnBuffer_rest (i * 2) ch).2] at kept
  have changed : ((s.putCharOnBuffer (i * 2) ch).1 ||
      ((s.putCharOnBuffer (i * 2) ch).2.putCharOnBuffer (i * 2 + 1) attr).1) =
      decide (s.cell i ≠ ⟨ch, attr⟩) := by
    have second : ((s.putCharOnBuffer (i * 2) ch).2.putCharOnBuffer (i * 2 + 1) attr).1 =
        (s.buffer (i * 2 + 1) != attr) := by
      rw [putCharOnBuffer, putCharOnBuffer_buffer, Function.update_of_ne (by omega)]
    rw [second]
    by_cases first : s.buffer (i * 2) = ch <;> by_cases other : s.buffer (i * 2 + 1) = attr <;>
      simp [putCharOnBuffer, cell, cellAt, first, other]
  have place : i * 2 / NO_BYTES_PER_CHARACTER = i := Nat.mul_div_cancel i (by decide)
  rw [putChar, changed, place]
  by_cases same : s.cell i = ⟨ch, attr⟩
  · simp [same, kept]
  · simp [same, kept]

/-- Every cell of the grid is on the display as it is in the buffer. -/
def InSync (rows columns : Nat) (s : Console) : Prop :=
  ∀ i, i < rows * columns → s.display i = s.cell i

theorem InSync.putChar (sync : InSync rows columns s) (i : Nat) :
    InSync rows columns (s.putChar (i * 2) ch attr) := by
  intro j inside
  rw [putChar_cell, putChar_display]
  by_cases same : s.cell i = ⟨ch, attr⟩
  · rw [if_pos same, ← same, Function.update_eq_self]
    exact sync j inside
  · rw [if_neg same]
    by_cases here : j = i
    · rw [here, Function.update_self, Function.update_self]
    · rw [Function.update_of_ne here, Function.update_of_ne here]
      exact sync j inside

theorem rows_split (columns : Nat) (inside : 0 < rows) :
    rows * columns = (rows - 1) * columns + columns := by
  rw [← Nat.succ_mul]
  congr 1
  omega

theorem rows_pos_of {i : Nat} (inside : i < rows * columns) : 0 < rows := by
  rcases Nat.eq_zero_or_pos rows with none_ | some_
  · rw [none_, Nat.zero_mul] at inside
    exact absurd inside (Nat.not_lt_zero i)
  · exact some_

theorem scrollDown_above (above : s.cursorPos < rows * columns) :
    s.scrollDown rows columns = s := if_pos above

theorem scrollDown_cell (below : ¬ s.cursorPos < rows * columns) {i : Nat}
    (inside : i < rows * columns) :
    (s.scrollDown rows columns).cell i = scrolled rows columns blank s.cell i := by
  have whole := rows_split columns (rows_pos_of inside)
  have bytes : (rows - 1) * columns * NO_BYTES_PER_CHARACTER = (rows - 1) * columns * 2 := rfl
  rw [scrollDown, if_neg below, cell, scrolled]
  simp only [NO_BYTES_PER_CHARACTER]
  rw [fillBlanks_cell, copyDown_cell]
  by_cases above : i < (rows - 1) * columns
  · rw [if_neg (by omega), if_pos above, if_pos above]
    rfl
  · rw [if_pos (by omega), if_neg above]

theorem InSync.scrollDown (sync : InSync rows columns s) :
    InSync rows columns (s.scrollDown rows columns) := by
  intro i inside
  by_cases above : s.cursorPos < rows * columns
  · rw [scrollDown_above above]
    exact sync i inside
  · rw [scrollDown_cell above inside]
    have whole := rows_split columns (rows_pos_of inside)
    have shifted : (s.scrollDown rows columns).display i =
        scrolled rows columns blank s.display i := by
      rw [Console.scrollDown, if_neg above]
      exact if_pos inside
    rw [shifted, scrolled, scrolled]
    split
    next higher => exact sync _ (by omega)
    next => rfl

theorem InSync.cursor (sync : InSync rows columns s) (cursorPos : Nat) :
    InSync rows columns { s with cursorPos := cursorPos } := sync

theorem InSync.setCurPos (sync : InSync rows columns s) (curPos : Int) :
    InSync rows columns (s.setCurPos rows columns curPos) := by
  rw [Console.setCurPos]
  split
  · exact sync
  · exact sync

theorem InSync.nextLine (sync : InSync rows columns s) :
    InSync rows columns (s.nextLine rows columns) := (sync.cursor _).scrollDown

theorem InSync.glyph (sync : InSync rows columns s) (ch attr : UInt8) :
    InSync rows columns (s.glyph rows columns ch attr) :=
  ((sync.putChar s.cursorPos).cursor _).scrollDown

theorem InSync.character (sync : InSync rows columns s) (ch attr : UInt8) :
    InSync rows columns (s.character rows columns ch attr) := by
  rw [Console.character]
  split
  · exact sync.nextLine
  · split
    · exact (((sync.glyph _ _).glyph _ _).glyph _ _).glyph _ _
    · exact sync.glyph ch attr

theorem InSync.characters (sync : InSync rows columns s) (text : List UInt8) (attr : UInt8) :
    InSync rows columns (s.characters rows columns text attr) := by
  induction text generalizing s with
  | nil => exact sync
  | cons ch text ih => exact ih (sync.character ch attr)

theorem InSync.clearFrom (sync : InSync rows columns s) (k rounds : Nat) :
    InSync rows columns (s.clearFrom (k * 2) rounds) := by
  induction rounds generalizing k s with
  | zero => exact sync
  | succ rounds ih =>
    have next : k * 2 + NO_BYTES_PER_CHARACTER = (k + 1) * 2 := (Nat.succ_mul k 2).symm
    rw [Console.clearFrom, next]
    exact ih (sync.putChar k) (k + 1)

theorem InSync.clearToEdge (sync : InSync rows columns s) (k rounds : Nat) :
    InSync rows columns (s.clearToEdge columns (k * 2) rounds) := by
  induction rounds generalizing k s with
  | zero => exact sync
  | succ rounds ih =>
    rw [Console.clearToEdge]
    split
    · exact sync
    · have next : k * 2 + 2 = (k + 1) * 2 := (Nat.succ_mul k 2).symm
      rw [next]
      exact ih (sync.putChar k) (k + 1)

theorem InSync.rawCharacter (sync : InSync rows columns s) (ch attr : UInt8) :
    InSync rows columns (s.rawCharacter ch attr) := (sync.putChar s.cursorPos).cursor _

theorem InSync.rawRow (sync : InSync rows columns s) (src : Nat → Cell) (i cols : Nat) :
    InSync rows columns (s.rawRow src i cols) := by
  induction cols generalizing i s with
  | zero => exact sync
  | succ cols ih => exact ih (sync.rawCharacter _ _) (i + 1)

theorem InSync.rawRows (sync : InSync rows columns s) (src : Nat → Cell) (cols i areaRows : Nat)
    (curPos : Int) : InSync rows columns (s.rawRows rows columns src cols i areaRows curPos) := by
  induction areaRows generalizing i curPos s with
  | zero => exact sync
  | succ areaRows ih => exact ih ((sync.rawRow src i cols).setCurPos _) _ _

theorem drawFrom_display (k rounds i : Nat) : (s.drawFrom (k * 2) rounds).display i =
    if k ≤ i ∧ i < k + rounds then s.cell i else s.display i := by
  induction rounds generalizing k s with
  | zero =>
    rw [if_neg (by omega)]
    rfl
  | succ rounds ih =>
    have next : k * 2 + NO_BYTES_PER_CHARACTER = (k + 1) * 2 := (Nat.succ_mul k 2).symm
    have place : k * 2 / NO_BYTES_PER_CHARACTER = k := Nat.mul_div_cancel k (by decide)
    rw [drawFrom, next, ih, place]
    by_cases here : i = k
    · subst here
      simp [cell, cellAt]
    · have same : (k + 1 ≤ i ∧ i < k + 1 + rounds) ↔ (k ≤ i ∧ i < k + (rounds + 1)) := by omega
      simp only [same, Function.update_of_ne here]
      rfl

theorem drawFrom_rest (i rounds : Nat) : (s.drawFrom i rounds).buffer = s.buffer ∧
    (s.drawFrom i rounds).cursorPos = s.cursorPos := by
  induction rounds generalizing i s with
  | zero => exact ⟨rfl, rfl⟩
  | succ rounds ih => exact ih _

theorem refresh_display {i : Nat} (inside : i < rows * columns) :
    (s.refresh rows columns).display i = s.cell i := by
  have all := drawFrom_display (s := s) 0 (rows * columns) i
  rw [if_pos (by omega)] at all
  exact all

theorem inSync_refresh : InSync rows columns (s.refresh rows columns) := by
  intro i inside
  rw [refresh_display inside, cell, cell, refresh, (drawFrom_rest 0 _).1]

end Console

open Console

theorem inSync_output (sync : InSync rows columns s) (out : Output) :
    InSync rows columns (out.perform rows columns s) := by
  cases out with
  | character ch attr => exact sync.character ch attr
  | message text attr => exact sync.characters _ attr
  | nmessage text n attr => exact sync.characters _ attr

theorem inSync_perform (sync : InSync rows columns s) (op : Op) :
    InSync rows columns (op.perform rows columns s) := by
  cases op with
  | output out => exact inSync_output sync out
  | clear => exact (sync.clearFrom 0 _).setCurPos _
  | clearLine iStartPos => exact (sync.clearToEdge _ _).setCurPos _
  | setCurPos curPos => exact sync.setCurPos curPos
  | moveCursor iOffSet => exact sync.setCurPos _
  | rawCharacter ch attr => exact sync.rawCharacter ch attr
  | rawCharacterArea src areaRows cols curPos => exact (sync.setCurPos curPos).rawRows src cols 0 _ _
  | refresh => exact inSync_refresh

/-- The cells of the grid as `refresh()` would draw them are those that are shown. -/
def Refreshed (rows columns : Nat) (s : Console) : Prop :=
  ∀ i, i < rows * columns → s.display i = (s.refresh rows columns).display i

theorem refreshed_iff : Refreshed rows columns s ↔ InSync rows columns s := by
  constructor
  · intro refreshed i inside
    rw [refreshed i inside, refresh_display inside]
  · intro sync i inside
    rw [sync i inside, refresh_display inside]

theorem display_stays_refreshed (rows columns : Nat) (ops : List Op) {s : Console}
    (start : Refreshed rows columns s) :
    Refreshed rows columns (ops.foldl (Op.perform rows columns) s) := by
  rw [refreshed_iff] at start ⊢
  induction ops generalizing s with
  | nil => exact start
  | cons op ops ih => exact ih (inSync_perform start op)

theorem display_stays_refreshed_drawn : Refreshed 2 2
    ([.output (.message [65, 66, TAB, 67] 7), .setCurPos 3, .rawCharacter NO_CHAR 3].foldl
      (Op.perform 2 2) ((Console.new 2 2 (fun _ => 0) fun _ => ⟨0, 0⟩).refresh 2 2)) :=
  display_stays_refreshed 2 2 _ (refreshed_iff.mpr inSync_refresh)

end ConsoleBuffer
