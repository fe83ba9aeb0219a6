import UpanLibs.Console.ConsoleBounds

/-!
What `clearLine` blanks when it starts at the cursor. The loop ends at the first edge of the grid,
which in the first column is where it starts.
-/
namespace ConsoleBuffer
open Console

variable {rows columns : Nat} {s : Console}

/-- The cells from a place to the end of its row. -/
def ToRowEnd (columns k i : Nat) : Prop := k ≤ i ∧ i < (k / columns + 1) * columns

/-- The cells from the cursor to the end of its row are blank, and nothing else is changed. -/
structure ClearedToRowEnd (columns : Nat) (s s' : Console) : Prop where
  cleared : ∀ i, ToRowEnd columns s.cursorPos i → s'.cell i = blank
  kept : ∀ i, ¬ ToRowEnd columns s.cursorPos i → s'.cell i = s.cell i
  cursor : s'.cursorPos = s.cursorPos

theorem clearToEdge_cursor (columns : Nat) (s : Console) (k rounds : Nat) :
    (s.clearToEdge columns (k * 2) rounds).cursorPos = s.cursorPos := by
  induction rounds generalizing k s with
  | zero => rfl
  | succ rounds ih =>
    by_cases edge : k % columns = 0
    · rw [clearToEdge_at edge]
    · rw [clearToEdge_before edge, ih, putChar_cursor]

theorem clearToEdge_cell (s : Console) {q k left : Nat} (row : k + left = (q + 1) * columns)
    (inside : left < columns) (rounds : Nat) (enough : left ≤ rounds) (i : Nat) :
    (s.clearToEdge columns (k * 2) rounds).cell i =
      if k ≤ i ∧ i < k + left then blank else s.cell i := by
  induction left generalizing k rounds s with
  | zero =>
    have edge : k % columns = 0 := by
      rw [← Nat.add_zero k, row]
      exact Nat.mul_mod_left (q + 1) columns
    rw [clearToEdge_at edge, if_neg (by omega)]
  | succ left ih =>
    obtain ⟨rounds, rfl⟩ : ∃ n, rounds = n + 1 := ⟨rounds - 1, by omega⟩
    have place : k = columns * q + (columns - (left + 1)) := by
      rw [Nat.succ_mul, Nat.mul_comm] at row
      omega
    have before : k % columns ≠ 0 := by
      rw [place, Nat.mul_add_mod, Nat.mod_eq_of_lt (by omega)]
      omega
    have next := ih (s.putChar (k * 2) SPACE WHITE_ON_BLACK) (k := k + 1) (by omega) (by omega)
      rounds (by omega)
    rw [clearToEdge_before before, next, putChar_cell]
    by_cases here : i = k
    · subst here
      simp [blank]
    · have same : (k + 1 ≤ i ∧ i < k + 1 + left) ↔ (k ≤ i ∧ i < k + (left + 1)) := by omega
      rw [Function.update_of_ne here]
      simp only [same]

theorem setCurPos_self (rows columns : Nat) (s : Console) :
    s.setCurPos rows columns s.cursorPos = s := by
  rw [setCurPos]
  split <;> rfl

theorem clearLine_start (rows columns : Nat) (s : Console) :
    s.clearLine rows columns START_CURSOR_POS
      = s.clearToEdge columns (s.cursorPos * 2) columns := by
  have cursor := clearToEdge_cursor columns s s.cursorPos columns
  rw [clearLine, if_pos rfl, Int.toNat_natCast]
  generalize s.clearToEdge columns (s.cursorPos * 2) columns = s' at cursor ⊢
  rw [← cursor, setCurPos_self]

theorem clearLine_inner (rows : Nat) (columns_pos : 0 < columns)
    (inner : s.cursorPos % columns ≠ 0) :
    ClearedToRowEnd columns s (s.clearLine rows columns START_CURSOR_POS) := by
  have column := Nat.mod_lt s.cursorPos columns_pos
  have whole := Nat.div_add_mod s.cursorPos columns
  rw [Nat.mul_comm] at whole
  have size : s.cursorPos + (columns - s.cursorPos % columns)
      = (s.cursorPos / columns + 1) * columns := by
    rw [Nat.succ_mul]
    omega
  have cells := clearToEdge_cell s size (by omega) columns (by omega)
  rw [clearLine_start]
  rw [size] at cells
  refine ⟨?_, ?_, clearToEdge_cursor _ _ _ _⟩
  · intro i inside
    rw [cells i]
    exact if_pos inside
  · intro i outside
    rw [cells i]
    exact if_neg outside

theorem clearLine_first (rows : Nat) (first : s.cursorPos % columns = 0) :
    s.clearLine rows columns START_CURSOR_POS = s := by
  rw [clearLine_start, clearToEdge_at first]

/-- The call blanks the rest of the row unless the cursor is in the first column; there the row has
    to be blank before. -/
theorem clearLine_iff (rows : Nat) (columns_pos : 0 < columns) (s : Console) :
    ClearedToRowEnd columns s (s.clearLine rows columns START_CURSOR_POS) ↔
      s.cursorPos % columns ≠ 0 ∨ ∀ i, ToRowEnd columns s.cursorPos i → s.cell i = blank := by
  constructor
  · intro cleared
    by_cases first : s.cursorPos % columns = 0
    · right
      rw [clearLine_first rows first] at cleared
      exact cleared.cleared
    · exact .inl first
  · intro either
    by_cases first : s.cursorPos % columns = 0
    · rw [clearLine_first rows first]
      have row := either.resolve_left (not_not.mpr first)
      exact ⟨row, fun _ _ => rfl, rfl⟩
    · exact clearLine_inner rows columns_pos first

/-- Two rows of two cells that are not blank, with the cursor at a position. -/
def filled (cursorPos : Nat) : Console := ⟨fun _ => 97, cursorPos, fun _ => ⟨97, 97⟩⟩

theorem clearLine_iff_last :
    ClearedToRowEnd 2 (filled 3) ((filled 3).clearLine 2 2 START_CURSOR_POS) ↔
      (filled 3).cursorPos % 2 ≠ 0 ∨
        ∀ i, ToRowEnd 2 (filled 3).cursorPos i → (filled 3).cell i = blank :=
  clearLine_iff 2 (by decide) (filled 3)

/-- The row of the cursor is not blanked from its first column. -/
theorem first_column_stays :
    ¬ ClearedToRowEnd 2 (filled 2) ((filled 2).clearLine 2 2 START_CURSOR_POS) := by
  intro cleared
  have here := cleared.cleared 2 (by unfold ToRowEnd; decide)
  exact absurd here (by decide)

end ConsoleBuffer
